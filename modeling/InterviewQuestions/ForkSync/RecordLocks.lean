import InterviewQuestions.ForkSync.Program
import InterviewQuestions.Library.Scanf

/-! The mechanism of `linux_internals/fork_sync/record_locks.c`: a file that holds the process id
of the one that may go on, with a lock on it. -/
namespace InterviewQuestions.ForkSync.RecordLocks

open Library Library.Baton Library.Scanf

inductive Lock where
  | read
  | write
deriving DecidableEq

/-- Where a process is in `WAIT_NOTIFY` or `NOTIFY`. -/
inductive Loc where
  | outside
  -- `WAIT_NOTIFY`
  | readLocked
  | bufferRead
  | readUnlocked
  -- `NOTIFY`
  | writeLocked
  | truncated
  | written
deriving DecidableEq

/-- The file, the locks on it, where the processes are and their `pid_buf` in `WAIT_NOTIFY`, up
to the `NUL`. -/
structure Sync where
  contents : List UInt8
  lock : Party → Option Lock
  loc : Party → Loc
  pidBuf : Party → List UInt8

namespace Sync

def goto (s : Sync) (p : Party) (l : Loc) : Sync := { s with loc := Function.update s.loc p l }

def setLock (s : Sync) (p : Party) (lock : Option Lock) : Sync :=
  { s with lock := Function.update s.lock p lock }

/-- `pread(tmpfile_fd, pid_buf, sizeof(pid_buf)-1, 0)` -/
def pread (s : Sync) (p : Party) : Sync :=
  { s with pidBuf := Function.update s.pidBuf p (s.contents.take 31) }

def ftruncate (s : Sync) : Sync := { s with contents := [] }

/-- `pwrite` at the start of the file. -/
def pwrite (s : Sync) (bytes : List UInt8) : Sync :=
  { s with contents := bytes ++ s.contents.drop bytes.length }

end Sync

/-- `sscanf(pid_buf, "%ld", &target_pid) == 1 && target_pid == (long) getpid()` -/
def isPid (pid : ℕ) (buf : List UInt8) : Bool :=
  match scan [.int] buf with
  | [.int target] => target = pid
  | _ => false

def notify (pid : Party → ℕ) (p : Party) (s : Sync) : Option (Sync × Bool) :=
  match s.loc p with
  | .outside =>
      if s.lock p.other = none then some ((s.setLock p (some .write)).goto p .writeLocked, false)
      else none
  | .writeLocked => some (s.ftruncate.goto p .truncated, false)
  | .truncated => some ((s.pwrite (printNat (pid p.other))).goto p .written, false)
  | .written => some ((s.setLock p none).goto p .outside, true)
  | .readLocked | .bufferRead | .readUnlocked => none

def waitNotify (pid : Party → ℕ) (p : Party) (s : Sync) : Option (Sync × Bool) :=
  match s.loc p with
  | .outside =>
      if s.lock p.other ≠ some .write then
        some ((s.setLock p (some .read)).goto p .readLocked, false)
      else none
  | .readLocked => some ((s.pread p).goto p .bufferRead, false)
  | .bufferRead => some ((s.setLock p none).goto p .readUnlocked, false)
  | .readUnlocked => some (s.goto p .outside, isPid (pid p) (s.pidBuf p))
  | .writeLocked | .truncated | .written => none

def mechanism (pid : Party → ℕ) : Mechanism Sync where
  init := ⟨[], fun _ => none, fun _ => .outside, fun _ => []⟩
  notify := notify pid
  wait := waitNotify pid

/-! ## What the file and the locks say -/

def Idle (p : Party) (s : Sync) : Prop := s.loc p = .outside

/-- The lock that a process has. -/
def Loc.lock : Loc → Option Lock
  | .readLocked | .bufferRead => some .read
  | .writeLocked | .truncated | .written => some .write
  | .outside | .readUnlocked => none

/-- The places where a process that is not notified can be. -/
def Loc.waits : Loc → Bool
  | .outside | .readLocked | .bufferRead | .readUnlocked => true
  | .writeLocked | .truncated | .written => false

/-- A process between `pread` and the comparison. -/
def Loc.hasRead : Loc → Bool
  | .bufferRead | .readUnlocked => true
  | _ => false

structure Locked (s : Sync) : Prop where
  lock : ∀ p, s.lock p = (s.loc p).lock
  exclusive : ∀ p, s.lock p = some .write → s.lock p.other = none

/-- The process waits and has not read its id. -/
def Early (pid : Party → ℕ) (p : Party) (s : Sync) : Prop :=
  (s.loc p).waits = true ∧ ((s.loc p).hasRead = true → isPid (pid p) (s.pidBuf p) = false)

/-- What is in the file when the process is where it is: not the id of the other one, before it
writes it. -/
def Holds (pid : Party → ℕ) (p : Party) (s : Sync) : Prop :=
  match s.loc p with
  | .outside | .writeLocked => isPid (pid p.other) (s.contents.take 31) = false
  | .truncated => s.contents = []
  | .written => s.contents = printNat (pid p.other)
  | .readLocked | .bufferRead | .readUnlocked => False

def Rel (pid : Party → ℕ) : Turn → Sync → Prop
  | .held p, s => Locked s ∧ Early pid p.other s ∧ Holds pid p s
  | .sent p, s => Locked s ∧ Early pid p.other s ∧ (s.loc p).waits = true ∧
      s.contents = printNat (pid p)

/-- The process ids of the two processes. -/
structure Pids (pid : Party → ℕ) : Prop where
  lt : ∀ p, pid p < 2 ^ 31
  distinct : ∀ p, pid p ≠ pid p.other

theorem isPid_nil (n : ℕ) : isPid n [] = false := by
  have hscan : scan [.int] [] = [] := rfl
  rw [isPid, hscan]

theorem isPid_printNat {n m : ℕ} (hm : m < 2 ^ 31) :
    isPid n ((printNat m).take 31) = decide (m = n) := by
  have hlen : (printNat m).length ≤ 31 :=
    (length_printNat_le (k := 10) (by decide) (by omega)).trans (by decide)
  have hscan : scan [.int] (printInt (m : ℤ) ++ []) = .int m :: scan [] [] :=
    scan_int [] (m : ℤ) isdigit_head_nil
  rw [printInt_natCast, List.append_nil] at hscan
  rw [List.take_of_length_le hlen, isPid, hscan, scan]
  simp

/-! ## Steps -/

variable {pid : Party → ℕ} {p : Party} {s s' : Sync} {fin : Bool} {l : Loc}

/-- A process goes on and changes its lock, if the other has none in its way. -/
theorem Locked.setLock (h : Locked s) (hwrite : l.lock = some .write → s.lock p.other = none)
    (hread : s.lock p.other = some .write → l.lock = none) (contents : List UInt8)
    (pidBuf : Party → List UInt8) :
    Locked ⟨contents, Function.update s.lock p l.lock, Function.update s.loc p l, pidBuf⟩ := by
  constructor
  case lock =>
    intro q
    rcases p.eq_or_eq_other q with rfl | rfl
    · simp
    · simpa using h.lock p.other
  case exclusive =>
    intro q hq
    rcases p.eq_or_eq_other q with rfl | rfl
    · simpa using hwrite (by simpa using hq)
    · simpa using hread (by simpa using hq)

theorem Locked.goto (h : Locked s) (hl : l.lock = (s.loc p).lock) (contents : List UInt8)
    (pidBuf : Party → List UInt8) :
    Locked ⟨contents, s.lock, Function.update s.loc p l, pidBuf⟩ := by
  have hlock : l.lock = s.lock p := by rw [hl, h.lock]
  have hmove := h.setLock (p := p) (l := l) (fun hw => h.exclusive p (by rw [← hlock, hw]))
    (fun hw => by
      have hother := h.exclusive p.other hw
      rwa [Party.other_other, ← hlock] at hother) contents pidBuf
  rwa [hlock, Function.update_eq_self] at hmove

/-- What the other process has read and where it is. -/
theorem Early.congr {q : Party} (h : Early pid q s) (hloc : s'.loc q = s.loc q)
    (hbuf : s'.pidBuf q = s.pidBuf q) : Early pid q s' := by
  unfold Early
  rw [hloc, hbuf]
  exact h

theorem rel_notify (h : Rel pid (.held p) s) (hstep : notify pid p s = some (s', fin)) :
    if fin then Rel pid (.sent p.other) s' ∧ Idle p s' else Rel pid (.held p) s' := by
  obtain ⟨hlocked, hearly, hholds⟩ := h
  have hother : ∀ l : Loc, Function.update s.loc p l p.other = s.loc p.other := fun l => by simp
  unfold notify at hstep
  unfold Holds at hholds
  cases hplace : s.loc p with
  | outside =>
    rw [hplace] at hstep hholds
    by_cases hfree : s.lock p.other = none
    · rw [if_pos hfree] at hstep
      cases hstep
      refine ⟨?_, hearly.congr (hother _) rfl, ?_⟩
      · refine hlocked.setLock (l := .writeLocked) (fun _ => hfree) (fun hw => ?_) _ _
        rw [hfree] at hw
        cases hw
      · simpa [Holds, Sync.goto, Sync.setLock] using hholds
    · rw [if_neg hfree] at hstep
      cases hstep
  | writeLocked =>
    rw [hplace] at hstep
    cases hstep
    exact ⟨hlocked.goto (by rw [hplace]; rfl) _ _, hearly.congr (hother _) rfl,
      by simp [Holds, Sync.goto, Sync.ftruncate]⟩
  | truncated =>
    rw [hplace] at hstep hholds
    cases hstep
    refine ⟨hlocked.goto (by rw [hplace]; rfl) _ _, hearly.congr (hother _) rfl, ?_⟩
    have hempty : s.contents = [] := hholds
    simp [Holds, Sync.goto, Sync.pwrite, hempty]
  | written =>
    rw [hplace] at hstep hholds
    cases hstep
    have hcontents : s.contents = printNat (pid p.other) := hholds
    refine ⟨⟨?_, ?_, ?_, hcontents⟩, by simp [Idle, Sync.goto]⟩
    · exact hlocked.setLock (l := .outside) (fun hw => by cases hw) (fun _ => rfl) _ _
    · rw [Party.other_other]
      refine ⟨by simp [Sync.goto, Loc.waits], fun hread => ?_⟩
      simp [Sync.goto, Loc.hasRead] at hread
    · simpa [Sync.goto, Sync.setLock] using hearly.1
  | readLocked | bufferRead | readUnlocked =>
    rw [hplace] at hholds
    exact hholds.elim

/-- A step of `WAIT_NOTIFY` leaves the file and the other process as they are. -/
structure Waited (p : Party) (s s' : Sync) : Prop where
  locked : Locked s'
  contents : s'.contents = s.contents
  loc_other : s'.loc p.other = s.loc p.other
  pidBuf_other : s'.pidBuf p.other = s.pidBuf p.other
  waits : (s'.loc p).waits = true

theorem waited (hlocked : Locked s) (hstep : waitNotify pid p s = some (s', fin)) :
    Waited p s s' ∧ (fin = true → s'.loc p = .outside) := by
  have hother : ∀ l : Loc, Function.update s.loc p l p.other = s.loc p.other := fun l => by simp
  unfold waitNotify at hstep
  cases hplace : s.loc p with
  | outside =>
    rw [hplace] at hstep
    by_cases hfree : s.lock p.other ≠ some .write
    · simp only [if_pos hfree] at hstep
      cases hstep
      refine ⟨⟨?_, rfl, hother _, rfl, by simp [Sync.goto, Loc.waits]⟩, fun h => by cases h⟩
      exact hlocked.setLock (l := .readLocked) (fun hw => by cases hw)
        (fun hw => absurd hw hfree) _ _
    · simp only [if_neg hfree] at hstep
      cases hstep
  | readLocked =>
    rw [hplace] at hstep
    cases hstep
    refine ⟨⟨?_, rfl, hother _, ?_, by simp [Sync.goto, Loc.waits]⟩, fun h => by cases h⟩
    · exact hlocked.goto (by rw [hplace]; rfl) _ _
    · simp [Sync.goto, Sync.pread]
  | bufferRead =>
    rw [hplace] at hstep
    cases hstep
    refine ⟨⟨?_, rfl, hother _, rfl, by simp [Sync.goto, Loc.waits]⟩, fun h => by cases h⟩
    exact hlocked.setLock (l := .readUnlocked) (fun hw => by cases hw) (fun _ => rfl) _ _
  | readUnlocked =>
    rw [hplace] at hstep
    cases hstep
    refine ⟨⟨?_, rfl, hother _, rfl, by simp [Sync.goto, Loc.waits]⟩,
      fun _ => by simp [Sync.goto]⟩
    exact hlocked.goto (by rw [hplace]; rfl) _ _
  | writeLocked | truncated | written =>
    rw [hplace] at hstep
    cases hstep

/-- A process that waits too early does not find its id. -/
theorem early_wait (hlocked : Locked s) (hearly : Early pid p s)
    (hfile : s.loc p = .readLocked → isPid (pid p) (s.contents.take 31) = false)
    (hstep : waitNotify pid p s = some (s', fin)) : fin = false ∧ Early pid p s' := by
  have hwaits := (waited hlocked hstep).1.waits
  unfold waitNotify at hstep
  cases hplace : s.loc p with
  | outside =>
    rw [hplace] at hstep
    by_cases hfree : s.lock p.other ≠ some .write
    · simp only [if_pos hfree] at hstep
      cases hstep
      exact ⟨rfl, hwaits, fun hread => by simp [Sync.goto, Loc.hasRead] at hread⟩
    · simp only [if_neg hfree] at hstep
      cases hstep
  | readLocked =>
    rw [hplace] at hstep
    cases hstep
    exact ⟨rfl, hwaits, fun _ => by simpa [Sync.goto, Sync.pread] using hfile hplace⟩
  | bufferRead =>
    rw [hplace] at hstep
    cases hstep
    exact ⟨rfl, hwaits, fun _ => hearly.2 (by rw [hplace]; rfl)⟩
  | readUnlocked =>
    rw [hplace] at hstep
    cases hstep
    have hnot := hearly.2 (by rw [hplace]; rfl)
    exact ⟨hnot, hwaits, fun hread => by simp [Sync.goto, Loc.hasRead] at hread⟩
  | writeLocked | truncated | written =>
    rw [hplace] at hstep
    cases hstep

theorem rel_wait (hpid : Pids pid) (h : Rel pid (.sent p) s)
    (hstep : waitNotify pid p s = some (s', fin)) :
    if fin then Rel pid (.held p) s' ∧ Idle p s' else Rel pid (.sent p) s' := by
  obtain ⟨hlocked, hearly, hwaits, hcontents⟩ := h
  obtain ⟨hwaited, hend⟩ := waited hlocked hstep
  have hother := hearly.congr hwaited.loc_other hwaited.pidBuf_other
  cases fin with
  | false => exact ⟨hwaited.locked, hother, hwaited.waits, hwaited.contents.trans hcontents⟩
  | true =>
    refine ⟨⟨hwaited.locked, hother, ?_⟩, hend rfl⟩
    rw [Holds, hend rfl]
    rw [hwaited.contents, hcontents]
    simpa [isPid_printNat (hpid.lt p)] using hpid.distinct p

/-- The file does not have the id of a process that waits and reads it while the other goes on. -/
theorem Holds.not_other {q : Party} (hlocked : Locked s) (h : Holds pid q.other s)
    (hread : s.loc q = .readLocked) : isPid (pid q) (s.contents.take 31) = false := by
  unfold Holds at h
  rw [Party.other_other] at h
  cases hplace : s.loc q.other with
  | outside | writeLocked =>
    rw [hplace] at h
    exact h
  | truncated =>
    rw [hplace] at h
    have hempty : s.contents = [] := h
    rw [hempty]
    exact isPid_nil _
  | written =>
    have hwrite : s.lock q.other = some .write := by rw [hlocked.lock, hplace]; rfl
    have hnone := hlocked.exclusive q.other hwrite
    rw [Party.other_other, hlocked.lock, hread] at hnone
    cases hnone
  | readLocked | bufferRead | readUnlocked =>
    rw [hplace] at h
    exact h.elim

theorem Holds.congr {q : Party} (h : Holds pid q s) (hloc : s'.loc q = s.loc q)
    (hcontents : s'.contents = s.contents) : Holds pid q s' := by
  unfold Holds
  rw [hloc, hcontents]
  exact h

theorem rel_early {b : Turn} (hpid : Pids pid) (h : Rel pid b s) (howner : b.owner = p.other)
    (hstep : waitNotify pid p s = some (s', fin)) : fin = false ∧ Rel pid b s' := by
  cases b with
  | held q =>
    obtain rfl : q = p.other := howner
    obtain ⟨hlocked, hearly, hholds⟩ := h
    rw [Party.other_other] at hearly
    obtain ⟨hwaited, -⟩ := waited hlocked hstep
    obtain ⟨hnot, hearly'⟩ := early_wait hlocked hearly (hholds.not_other hlocked) hstep
    refine ⟨hnot, hwaited.locked, ?_, hholds.congr hwaited.loc_other hwaited.contents⟩
    rwa [Party.other_other]
  | sent q =>
    obtain rfl : q = p.other := howner
    obtain ⟨hlocked, hearly, hwaits, hcontents⟩ := h
    rw [Party.other_other] at hearly
    obtain ⟨hwaited, -⟩ := waited hlocked hstep
    obtain ⟨hnot, hearly'⟩ := early_wait hlocked hearly (fun _ => by
      rw [hcontents, isPid_printNat (hpid.lt _)]
      exact decide_eq_false (hpid.distinct p).symm) hstep
    refine ⟨hnot, hwaited.locked, ?_, ?_, hwaited.contents.trans hcontents⟩
    · rwa [Party.other_other]
    · rwa [hwaited.loc_other]

/-! ## Progress -/

/-- One step of the process that is to go on. -/
theorem ends_of_step {goes : Party → Sync → Option (Sync × Bool)}
    (hstep : goes p s = some (s', false)) (h : Ends (mechanism pid) Idle p goes s') :
    Ends (mechanism pid) Idle p goes s := .step (Or.inl hstep) h

/-- The other process gives up its lock, if it has one, and then this one can take its own. -/
theorem notify_ends (h : Rel pid (.held p) s) : Ends (mechanism pid) Idle p (notify pid) s := by
  obtain ⟨hlocked, hearly, hholds⟩ := h
  have hwritten : ∀ s : Sync, s.loc p = .written →
      Ends (mechanism pid) Idle p (notify pid) s := by
    intro s hloc
    have hlast : notify pid p s = some ((s.setLock p none).goto p .outside, true) := by
      rw [notify, hloc]
    exact .last hlast
  have htruncated : ∀ s : Sync, s.loc p = .truncated →
      Ends (mechanism pid) Idle p (notify pid) s := by
    intro s hloc
    have hstep : notify pid p s =
        some ((s.pwrite (printNat (pid p.other))).goto p .written, false) := by
      rw [notify, hloc]
    exact ends_of_step hstep (hwritten _ (Function.update_self _ _ _))
  have hwriteLocked : ∀ s : Sync, s.loc p = .writeLocked →
      Ends (mechanism pid) Idle p (notify pid) s := by
    intro s hloc
    have hstep : notify pid p s = some (s.ftruncate.goto p .truncated, false) := by
      rw [notify, hloc]
    exact ends_of_step hstep (htruncated _ (Function.update_self _ _ _))
  have hfree : ∀ s : Sync, s.loc p = .outside → s.lock p.other = none →
      Ends (mechanism pid) Idle p (notify pid) s := by
    intro s hloc hnone
    have hstep : notify pid p s =
        some ((s.setLock p (some .write)).goto p .writeLocked, false) := by
      rw [notify, hloc]
      simp only [if_pos hnone]
    exact ends_of_step hstep (hwriteLocked _ (Function.update_self _ _ _))
  have hbufferRead : ∀ s : Sync, s.loc p = .outside → s.loc p.other = .bufferRead →
      Ends (mechanism pid) Idle p (notify pid) s := by
    intro s hloc hother
    have hstep : (mechanism pid).wait p.other s =
        some ((s.setLock p.other none).goto p.other .readUnlocked, false) := by
      show waitNotify pid p.other s = _
      rw [waitNotify, hother]
    refine .step (Or.inr ⟨by simp [Idle, hother], hstep⟩) (hfree _ ?_ ?_)
    · simpa [Sync.goto, Sync.setLock] using hloc
    · simp [Sync.goto, Sync.setLock]
  cases hplace : s.loc p with
  | outside =>
    have hlock := hlocked.lock p.other
    have hwaits := hearly.1
    cases hother : s.loc p.other with
    | outside | readUnlocked =>
      rw [hother] at hlock
      exact hfree s hplace hlock
    | bufferRead => exact hbufferRead s hplace hother
    | readLocked =>
      have hstep : (mechanism pid).wait p.other s =
          some ((s.pread p.other).goto p.other .bufferRead, false) := by
        show waitNotify pid p.other s = _
        rw [waitNotify, hother]
      refine .step (Or.inr ⟨by simp [Idle, hother], hstep⟩)
        (hbufferRead _ ?_ (Function.update_self _ _ _))
      simpa [Sync.goto, Sync.pread] using hplace
    | writeLocked | truncated | written =>
      rw [hother] at hwaits
      cases hwaits
  | writeLocked => exact hwriteLocked s hplace
  | truncated => exact htruncated s hplace
  | written => exact hwritten s hplace
  | readLocked | bufferRead | readUnlocked =>
    rw [Holds, hplace] at hholds
    exact hholds.elim

/-- The process finds its id, if not in what it has read, then in what it reads next. -/
theorem wait_ends (hpid : Pids pid) (h : Rel pid (.sent p) s) :
    Ends (mechanism pid) Idle p (waitNotify pid) s := by
  obtain ⟨hlocked, hearly, hwaits, hcontents⟩ := h
  have hfound : ∀ s : Sync, s.loc p = .readUnlocked → isPid (pid p) (s.pidBuf p) = true →
      Ends (mechanism pid) Idle p (waitNotify pid) s := by
    intro s hloc hbuf
    have hlast : waitNotify pid p s = some (s.goto p .outside, true) := by
      rw [waitNotify, hloc, hbuf]
    exact .last hlast
  have hbuffer : ∀ s : Sync, s.loc p = .bufferRead → isPid (pid p) (s.pidBuf p) = true →
      Ends (mechanism pid) Idle p (waitNotify pid) s := by
    intro s hloc hbuf
    have hstep : waitNotify pid p s =
        some ((s.setLock p none).goto p .readUnlocked, false) := by rw [waitNotify, hloc]
    exact ends_of_step hstep (hfound _ (Function.update_self _ _ _) hbuf)
  have hreading : ∀ s : Sync, s.loc p = .readLocked → s.contents = printNat (pid p) →
      Ends (mechanism pid) Idle p (waitNotify pid) s := by
    intro s hloc hcontents
    have hstep : waitNotify pid p s = some ((s.pread p).goto p .bufferRead, false) := by
      rw [waitNotify, hloc]
    refine ends_of_step hstep (hbuffer _ (Function.update_self _ _ _) ?_)
    simp [Sync.goto, Sync.pread, hcontents, isPid_printNat (hpid.lt p)]
  have houtside : ∀ s : Sync, s.loc p = .outside → s.lock p.other ≠ some .write →
      s.contents = printNat (pid p) → Ends (mechanism pid) Idle p (waitNotify pid) s := by
    intro s hloc hfree hcontents
    have hstep : waitNotify pid p s =
        some ((s.setLock p (some .read)).goto p .readLocked, false) := by
      rw [waitNotify, hloc]
      simp only [if_pos hfree]
    exact ends_of_step hstep (hreading _ (Function.update_self _ _ _) hcontents)
  -- what has been read before the notification does not count
  have hcompare : ∀ s : Sync, s.loc p = .readUnlocked → s.lock p.other ≠ some .write →
      s.contents = printNat (pid p) → Ends (mechanism pid) Idle p (waitNotify pid) s := by
    intro s hloc hfree hcontents
    cases hbuf : isPid (pid p) (s.pidBuf p) with
    | true => exact hfound s hloc hbuf
    | false =>
      have hstep : waitNotify pid p s = some (s.goto p .outside, false) := by
        rw [waitNotify, hloc, hbuf]
      exact ends_of_step hstep (houtside _ (Function.update_self _ _ _) hfree hcontents)
  have hfree : s.lock p.other ≠ some .write := by
    have hother := hearly.1
    rw [hlocked.lock]
    cases hplace : s.loc p.other with
    | writeLocked | truncated | written =>
      rw [hplace] at hother
      cases hother
    | _ => simp [Loc.lock]
  cases hplace : s.loc p with
  | outside => exact houtside s hplace hfree hcontents
  | readLocked => exact hreading s hplace hcontents
  | bufferRead =>
    have hstep : waitNotify pid p s =
        some ((s.setLock p none).goto p .readUnlocked, false) := by rw [waitNotify, hplace]
    refine ends_of_step hstep (hcompare _ (Function.update_self _ _ _) ?_ hcontents)
    simpa [Sync.goto, Sync.setLock] using hfree
  | readUnlocked => exact hcompare s hplace hfree hcontents
  | writeLocked | truncated | written =>
    rw [hplace] at hwaits
    cases hwaits

/-- A step of one process leaves the other where it is. -/
theorem loc_other (hstep : notify pid p s = some (s', fin) ∨ waitNotify pid p s = some (s', fin)) :
    s'.loc p.other = s.loc p.other := by
  have hother : ∀ l : Loc, Function.update s.loc p l p.other = s.loc p.other := fun l => by simp
  rcases hstep with hstep | hstep
  · unfold notify at hstep
    split at hstep
    case h_1 =>
      split at hstep
      case isTrue =>
        cases hstep
        exact hother _
      case isFalse => cases hstep
    all_goals
      cases hstep <;> exact hother _
  · unfold waitNotify at hstep
    split at hstep
    case h_1 =>
      split at hstep
      case isTrue =>
        cases hstep
        exact hother _
      case isFalse => cases hstep
    all_goals
      cases hstep <;> exact hother _

theorem correct (hpid : Pids pid) : Correct (mechanism pid) (Rel pid) Idle where
  init := ⟨⟨fun _ => rfl, fun _ h => by cases h⟩, ⟨rfl, fun h => by cases h⟩, isPid_nil _⟩
  idle_init _ := rfl
  notify := rel_notify
  wait := rel_wait hpid
  early := rel_early hpid
  idle_notify hstep hidle := (loc_other (Or.inl hstep)).trans hidle
  idle_wait hstep hidle := (loc_other (Or.inr hstep)).trans hidle
  notify_ends := notify_ends
  wait_ends := wait_ends hpid

theorem record_locks_synchronized (pid : Party → ℕ) (hpid : Pids pid) (lb : Bool)
    (actions : List Party) (hactions : Machine.Admits (step (mechanism pid))
      (Enabled (mechanism pid)) (init (mechanism pid) lb) actions) :
    Synchronized (mechanism pid) lb actions := synchronized (correct hpid) hactions

/-- The process ids of an example. -/
def samplePid : Party → ℕ
  | .first => 4712
  | .second => 4711

/-- The parent has polled the file once and holds the lock again. -/
theorem record_locks_synchronized_sample :
    Synchronized (mechanism samplePid) true [parent, parent, parent, child] :=
  record_locks_synchronized samplePid ⟨fun p => by cases p <;> decide,
    fun p => by cases p <;> decide⟩ true _ (by decide)

end InterviewQuestions.ForkSync.RecordLocks
