import Mathlib.Data.Finset.Erase
import Mathlib.Data.Finset.Insert
import Mathlib.Logic.Function.Basic

/-! `knowledge_based/linux_internals/file_write_locks/readers_vs_writers.c`, as long as `fork` and
`fcntl` do not fail. The first process has number 0, the one that it forks in the loop number 1. -/
namespace InterviewQuestions.ReadersVsWriters

/-- `TEST_CHILDREN` -/
def testChildren : ℕ := 30

/-- What a reader is about to do. -/
inductive Pc where
  | unborn
  | readLock
  | forkWriter
  | notifyInit
  | notify
  | printAcquired
  | printReleasing
  | loop
  | test
  | suspended
  | clear
  | exit
  | exited
deriving DecidableEq

/-- `blocked` when `SIGUSR1` is blocked and has its handler. -/
structure Process where
  pc : Pc
  sigFlag : Bool
  pending : Bool
  blocked : Bool

inductive Writer where
  | unborn
  | printStarted
  | writeLock
  | printAcquired
  | exit
  | exited
deriving DecidableEq

/-- The lines that are printed, by the writer and by each reader. -/
inductive Line where
  | writerStarted
  | writerAcquired
  | acquired (k : ℕ)
  | releasing (k : ℕ)
deriving DecidableEq

/-- The readers, the locks on the file, and the calls of `printf` in order. -/
structure State where
  reader : ℕ → Process
  writer : Writer
  readLocks : Finset ℕ
  writeLock : Bool
  printed : List Line

def init : State where
  reader k := ⟨if k = 0 then .readLock else .unborn, false, false, false⟩
  writer := .unborn
  readLocks := ∅
  writeLock := false
  printed := []

namespace State

def set (s : State) (k : ℕ) (p : Process) : State :=
  { s with reader := Function.update s.reader k p }

def goto (s : State) (k : ℕ) (pc : Pc) : State := s.set k { s.reader k with pc := pc }

/-- The locks of a process go with it. -/
def exit (s : State) (k : ℕ) : State :=
  { s.goto k .exited with readLocks := s.readLocks.erase k }

@[simp] theorem reader_set (s : State) (k : ℕ) (p : Process) :
    (s.set k p).reader = Function.update s.reader k p := rfl

@[simp] theorem reader_goto (s : State) (k : ℕ) (pc : Pc) :
    (s.goto k pc).reader = Function.update s.reader k { s.reader k with pc := pc } := rfl

@[simp] theorem reader_exit (s : State) (k : ℕ) :
    (s.exit k).reader = Function.update s.reader k { s.reader k with pc := .exited } := rfl

/-- `kill(pid, SIGUSR1)`: a process without the handler is terminated. -/
def kill (s : State) (k : ℕ) : State :=
  if (s.reader k).pc = .exited then s
  else if (s.reader k).blocked then s.set k { s.reader k with pending := true }
  else s.exit k

/-- The next statement of reader `k`, whose `i` is `k`. -/
def execReader (s : State) (k : ℕ) : State :=
  match (s.reader k).pc with
  | .readLock =>
      { s.goto k (if k = 0 then .forkWriter else .notify) with readLocks := insert k s.readLocks }
  | .forkWriter => { s.goto k .notifyInit with writer := .printStarted }
  | .notifyInit => s.set k { s.reader k with pc := .loop, sigFlag := false, blocked := true }
  | .notify => (s.kill (k - 1)).goto k .printAcquired
  | .printAcquired => { s.goto k .printReleasing with printed := s.printed ++ [.acquired k] }
  | .printReleasing => { s.goto k .loop with printed := s.printed ++ [.releasing k] }
  | .loop =>
      if k < testChildren then
        (s.goto k .test).set (k + 1) { s.reader k with pc := .readLock, pending := false }
      else s.goto k .exit
  | .test => if (s.reader k).sigFlag = false then s.goto k .suspended else s.goto k .clear
  | .suspended => s.set k { s.reader k with pc := .test, sigFlag := true, pending := false }
  | .clear => s.set k { s.reader k with pc := .exit, sigFlag := false }
  | .exit => s.exit k
  | .unborn | .exited => s

def execWriter (s : State) : State :=
  match s.writer with
  | .printStarted => { s with writer := .writeLock, printed := s.printed ++ [.writerStarted] }
  | .writeLock => { s with writer := .printAcquired, writeLock := true }
  | .printAcquired => { s with writer := .exit, printed := s.printed ++ [.writerAcquired] }
  | .exit => { s with writer := .exited, writeLock := false }
  | .unborn | .exited => s

end State

inductive Actor where
  | reader (k : ℕ)
  | writer

def step (s : State) : Actor → State × Unit
  | .reader k => (s.execReader k, ())
  | .writer => (s.execWriter, ())

/-- A read lock waits for the write lock. -/
def Process.Ready (p : Process) (writeLock : Bool) : Prop :=
  match p.pc with
  | .unborn | .exited => False
  | .readLock => writeLock = false
  | .suspended => p.pending = true
  | _ => True

/-- The write lock waits for all others. -/
def Writer.Ready (w : Writer) (readLocks : Finset ℕ) : Prop :=
  match w with
  | .unborn | .exited => False
  | .writeLock => readLocks = ∅
  | _ => True

def Enabled (s : State) : Actor → Prop
  | .reader k => (s.reader k).Ready s.writeLock
  | .writer => s.writer.Ready s.readLocks

instance decidableReady (p : Process) (writeLock : Bool) : Decidable (p.Ready writeLock) := by
  unfold Process.Ready
  exact match p.pc with
    | .unborn | .exited => instDecidableFalse
    | .readLock => inferInstanceAs (Decidable (writeLock = false))
    | .suspended => inferInstanceAs (Decidable (p.pending = true))
    | .forkWriter | .notifyInit | .notify | .printAcquired | .printReleasing | .loop | .test
    | .clear | .exit => instDecidableTrue

instance decidableWriterReady (w : Writer) (readLocks : Finset ℕ) :
    Decidable (w.Ready readLocks) :=
  match w with
  | .unborn | .exited => instDecidableFalse
  | .writeLock => inferInstanceAs (Decidable (readLocks = ∅))
  | .printStarted | .printAcquired | .exit => instDecidableTrue

instance decidableEnabled (s : State) : ∀ a, Decidable (Enabled s a)
  | .reader k => inferInstanceAs (Decidable ((s.reader k).Ready s.writeLock))
  | .writer => inferInstanceAs (Decidable (s.writer.Ready s.readLocks))

/-! ## The chain of readers -/

def Pc.holds : Pc → Bool
  | .unborn | .readLock | .exited => false
  | _ => true

/-- It has told its parent that it has the lock. -/
def Pc.notified : Pc → Bool
  | .unborn | .readLock | .forkWriter | .notifyInit | .notify => false
  | _ => true

/-- Where only the first process is. -/
def Pc.first : Pc → Bool
  | .forkWriter | .notifyInit => true
  | _ => false

/-- Where the first process is not. -/
def Pc.later : Pc → Bool
  | .unborn | .notify | .printAcquired | .printReleasing => true
  | _ => false

/-- In `WAIT_NOTIFY`. -/
def Pc.waits : Pc → Bool
  | .test | .suspended | .clear => true
  | _ => false

theorem Pc.notified_of_waits {pc : Pc} (h : pc.waits = true) : pc.notified = true := by
  cases pc with
  | test | suspended | clear => rfl
  | _ => cases h

theorem Pc.first_of_notified {pc : Pc} (h : pc.notified = true) : pc.first = false := by
  cases pc with
  | forkWriter | notifyInit => cases h
  | _ => rfl

def Process.Quiet (p : Process) : Prop := p.sigFlag = false ∧ p.pending = false

/-- The signal of the child is pending, or its handler has run. -/
def Process.Signalled (p : Process) : Prop :=
  p.pending = true ∧ p.sigFlag = false ∧ p.pc ≠ .clear ∨
    p.pending = false ∧ p.sigFlag = true ∧ p.pc ≠ .suspended

def Pc.done : Pc → Bool
  | .exit | .exited => true
  | _ => false

/-- A reader against the place of the next one. -/
structure Link (k : ℕ) (p : Process) (next : Pc) : Prop where
  quiet : p.pc.waits = false → p.Quiet
  unborn : p.pc.waits = false → p.pc.done = false → next = .unborn
  bound : p.pc.waits = true → k < testChildren
  signalled : p.pc.waits = true → next.notified = true → p.Signalled
  awaits : p.pc.waits = true → next.notified = false →
    (next = .readLock ∨ next = .notify) ∧ p.Quiet ∧ p.pc ≠ .clear
  notified : p.pc.done = true → k < testChildren → next.notified = true
  last : p.pc.done = true → testChildren ≤ k → next = .unborn

structure Local (k : ℕ) (p : Process) : Prop where
  first : p.pc.first = true → k = 0
  later : p.pc.later = true → k ≠ 0
  unborn : testChildren < k → p.pc = .unborn
  blocked : p.blocked = true ∨ p.pc = .unborn ∨ k = 0 ∧ p.pc.notified = false

/-- The lines that a reader has printed. -/
def linesOf (k : ℕ) : Pc → List Line
  | .unborn | .readLock | .forkWriter | .notifyInit | .notify | .printAcquired => []
  | .printReleasing => [.acquired k]
  | _ => if k = 0 then [] else [.acquired k, .releasing k]

def Writer.lines : Writer → List Line
  | .unborn | .printStarted => []
  | .writeLock | .printAcquired => [.writerStarted]
  | .exit | .exited => [.writerStarted, .writerAcquired]

def Line.reader : Line → Option ℕ
  | .writerStarted | .writerAcquired => none
  | .acquired k | .releasing k => some k

def Writer.locked : Writer → Bool
  | .printAcquired | .exit => true
  | _ => false

/-- The writer has had the lock. -/
def Writer.late : Writer → Bool
  | .printAcquired | .exit | .exited => true
  | _ => false

structure Chained (s : State) : Prop where
  link : ∀ k, Link k (s.reader k) (s.reader (k + 1)).pc
  place : ∀ k, Local k (s.reader k)
  readLocks : ∀ k, k ∈ s.readLocks ↔ (s.reader k).pc.holds = true
  forked : s.writer = .unborn ↔ (s.reader 0).pc = .readLock ∨ (s.reader 0).pc = .forkWriter
  writeLock : s.writeLock = s.writer.locked
  late : s.writer.late = true → ∀ k ≤ testChildren, (s.reader k).pc = .exited
  readers : ∀ k, (s.printed.filter fun line => line.reader = some k) = linesOf k (s.reader k).pc
  writer : (s.printed.filter fun line => line.reader = none) = s.writer.lines
  last : Line.writerAcquired ∈ s.printed → s.printed.getLast? = some .writerAcquired

theorem chained_init : Chained init where
  link k := by
    cases k with
    | zero => constructor <;> simp [init, Pc.waits, Pc.done, Process.Quiet]
    | succ k => constructor <;> simp [init, Pc.waits, Pc.done, Process.Quiet]
  place k := by
    cases k with
    | zero => exact ⟨by decide, by decide, by decide, Or.inr (Or.inr ⟨rfl, rfl⟩)⟩
    | succ k => exact ⟨by simp [init, Pc.first], by simp, fun _ => rfl, Or.inr (Or.inl rfl)⟩
  readLocks k := by cases k <;> simp [init, Pc.holds]
  forked := by simp [init]
  writeLock := rfl
  late h := by cases h
  readers k := by cases k <;> rfl
  writer := rfl
  last h := by cases h

variable {s : State} {k : ℕ} {p q : Process}

/-! ## Locks -/

/-- As long as a reader holds no lock, it has not come to it or has exited. -/
theorem Chained.all_exited (h : Chained s) (hwriter : s.writer ≠ .unborn)
    (hlocks : s.readLocks = ∅) : ∀ k ≤ testChildren, (s.reader k).pc = .exited := by
  have hfree (k : ℕ) : (s.reader k).pc.holds = false := by
    rw [← Bool.not_eq_true, ← h.readLocks k, hlocks]
    exact Finset.notMem_empty k
  intro k
  induction k with
  | zero =>
    intro _
    have hplace := (h.place 0).later
    have hholds := hfree 0
    have hforked := not_or.mp (mt h.forked.mpr hwriter)
    cases hpc : (s.reader 0).pc with
    | exited => rfl
    | unborn =>
      rw [hpc] at hplace
      exact absurd rfl (hplace rfl)
    | readLock => exact absurd hpc hforked.1
    | _ =>
      rw [hpc] at hholds
      cases hholds
  | succ k ih =>
    intro hk
    have hnotified := (h.link k).notified (by rw [ih (by omega)]; rfl) (by omega)
    have hholds := hfree (k + 1)
    cases hpc : (s.reader (k + 1)).pc with
    | exited => rfl
    | unborn | readLock =>
      rw [hpc] at hnotified
      cases hnotified
    | _ =>
      rw [hpc] at hholds
      cases hholds

/-! ## Steps -/

theorem Chained.not_late (h : Chained s) (hborn : (s.reader k).pc ≠ .unborn)
    (hlive : (s.reader k).pc ≠ .exited) : s.writer.late = false := by
  rw [← Bool.not_eq_true]
  intro hlate
  by_cases hk : k ≤ testChildren
  · exact hlive (h.late hlate k hk)
  · exact hborn ((h.place k).unborn (Nat.lt_of_not_le hk))

theorem Writer.locked_of_not_late {w : Writer} (h : w.late = false) : w.locked = false := by
  cases w with
  | printAcquired | exit | exited => cases h
  | _ => rfl

theorem not_mem_lines {w : Writer} (h : w.late = false) : Line.writerAcquired ∉ w.lines := by
  cases w with
  | printAcquired | exit | exited => cases h
  | _ => decide

/-- The next reader is not born. -/
def Pc.early (pc : Pc) : Bool := !pc.waits && !pc.done

theorem Link.of_early (hearly : p.pc.early = true) (hquiet : p.Quiet) : Link k p .unborn := by
  simp only [Pc.early, Bool.and_eq_true, Bool.not_eq_true'] at hearly
  constructor
  case quiet => exact fun _ => hquiet
  case unborn => exact fun _ _ => rfl
  case bound | signalled | awaits =>
    intro hwaits
    rw [hearly.1] at hwaits
    cases hwaits
  case notified | last =>
    intro hdone
    rw [hearly.2] at hdone
    cases hdone

theorem Link.early {next : Pc} (h : Link k p next) (hearly : p.pc.early = true) :
    p.Quiet ∧ next = .unborn := by
  simp only [Pc.early, Bool.and_eq_true, Bool.not_eq_true'] at hearly
  exact ⟨h.quiet hearly.1, h.unborn hearly.1 hearly.2⟩

/-- A reader goes on before it forks the next one. -/
theorem Link.onward {next : Pc} (h : Link k p next) (hp : p.pc.early = true)
    (hq : q.pc.early = true) (hquiet : p.Quiet → q.Quiet) : Link k q next := by
  rw [(h.early hp).2]
  exact Link.of_early hq (hquiet (h.early hp).1)

theorem Link.next {a b : Pc} (h : Link k p a) (ha : a ≠ .unborn) (hb : b.notified = a.notified)
    (hwait : b.notified = false → b = .readLock ∨ b = .notify) : Link k p b where
  quiet := h.quiet
  unborn hwaits hdone := absurd (h.unborn hwaits hdone) ha
  bound := h.bound
  signalled hwaits hnotified := h.signalled hwaits (hb ▸ hnotified)
  awaits hwaits hnotified := ⟨hwait hnotified, (h.awaits hwaits (hb ▸ hnotified)).2⟩
  notified hdone hk := hb ▸ h.notified hdone hk
  last hdone hk := absurd (h.last hdone hk) ha

/-- A step of a reader changes at most two neighbours, the first of which may print. -/
structure Move (s t : State) (k : ℕ) (p q : Process) (new : List Line) : Prop where
  reader : t.reader = Function.update (Function.update s.reader k p) (k + 1) q
  self : Link k p q.pc
  next : Link (k + 1) q (s.reader (k + 2)).pc
  prev : ∀ j, j + 1 = k → Link j (s.reader j) p.pc
  place : Local k p
  place' : Local (k + 1) q
  writer : t.writer.late = false ∧ t.writer.lines = s.writer.lines
  writeLock : t.writeLock = s.writeLock
  forked : k = 0 → (t.writer = .unborn ↔ p.pc = .readLock ∨ p.pc = .forkWriter)
  forked' : k ≠ 0 → t.writer = s.writer
  readLocks : ∀ j, j ∈ t.readLocks ↔ if j = k then p.pc.holds = true
    else if j = k + 1 then q.pc.holds = true else j ∈ s.readLocks
  printed : t.printed = s.printed ++ new
  author : ∀ line ∈ new, line.reader = some k
  lines : linesOf k p.pc = linesOf k (s.reader k).pc ++ new
  lines' : linesOf (k + 1) q.pc = linesOf (k + 1) (s.reader (k + 1)).pc

variable {t : State} {new : List Line}

theorem filter_lines (hnew : ∀ line ∈ new, line.reader = some k) (who : Option ℕ) :
    (new.filter fun line => line.reader = who) = if who = some k then new else [] := by
  split
  case isTrue hwho =>
    rw [hwho]
    exact List.filter_eq_self.mpr fun line hline => decide_eq_true (hnew line hline)
  case isFalse hwho =>
    rw [List.filter_eq_nil_iff]
    intro line hline
    rw [hnew line hline, decide_eq_true_eq]
    exact Ne.symm hwho

theorem Move.reader_eq (hmove : Move s t k p q new) (j : ℕ) :
    t.reader j = if j = k then p else if j = k + 1 then q else s.reader j := by
  rw [hmove.reader]
  split
  case isTrue hj => rw [hj, Function.update_of_ne (by omega), Function.update_self]
  case isFalse hj =>
    split
    case isTrue hnext => rw [hnext, Function.update_self]
    case isFalse hnext => rw [Function.update_of_ne hnext, Function.update_of_ne hj]

theorem Move.link (h : Chained s) (hmove : Move s t k p q new) (j : ℕ) :
    Link j (t.reader j) (t.reader (j + 1)).pc := by
  rw [hmove.reader_eq, hmove.reader_eq]
  rcases Nat.lt_trichotomy j k with hj | rfl | hj
  · rw [if_neg (by omega), if_neg (by omega), if_neg (c := j + 1 = k + 1) (by omega)]
    split
    case isTrue hjk => exact hmove.prev j hjk
    case isFalse hjk => exact h.link j
  · rw [if_pos rfl, if_neg (by omega), if_pos rfl]
    exact hmove.self
  · rw [if_neg (by omega), if_neg (c := j + 1 = k) (by omega),
      if_neg (c := j + 1 = k + 1) (by omega)]
    split
    case isTrue hjk =>
      rw [hjk]
      exact hmove.next
    case isFalse hjk => exact h.link j

theorem Move.local (h : Chained s) (hmove : Move s t k p q new) (j : ℕ) :
    Local j (t.reader j) := by
  rw [hmove.reader_eq]
  split
  case isTrue hj =>
    rw [hj]
    exact hmove.place
  case isFalse =>
    split
    case isTrue hj =>
      rw [hj]
      exact hmove.place'
    case isFalse => exact h.place j

theorem Move.chained (h : Chained s) (hlate : s.writer.late = false)
    (hmove : Move s t k p q new) : Chained t where
  link := hmove.link h
  place := hmove.local h
  readLocks j := by
    rw [hmove.readLocks, hmove.reader_eq]
    split
    case isTrue => rfl
    case isFalse =>
      split
      case isTrue => rfl
      case isFalse => exact h.readLocks j
  forked := by
    rw [hmove.reader_eq]
    split
    case isTrue hk => exact hmove.forked hk.symm
    case isFalse hk =>
      rw [if_neg (Nat.succ_ne_zero k).symm, hmove.forked' (Ne.symm hk)]
      exact h.forked
  writeLock := by
    rw [hmove.writeLock, h.writeLock, Writer.locked_of_not_late hlate,
      Writer.locked_of_not_late hmove.writer.1]
  late := by
    intro hlate'
    rw [hmove.writer.1] at hlate'
    cases hlate'
  readers j := by
    rw [hmove.printed, List.filter_append, h.readers, filter_lines hmove.author, hmove.reader_eq]
    by_cases hj : j = k
    · rw [if_pos (congrArg some hj), if_pos hj, hj, hmove.lines]
    · rw [if_neg (by simpa using hj), if_neg hj, List.append_nil]
      split
      case isTrue hnext => rw [hnext, hmove.lines']
      case isFalse => rfl
  writer := by
    rw [hmove.printed, List.filter_append, filter_lines hmove.author, if_neg (by simp),
      List.append_nil, h.writer, hmove.writer.2]
  last := by
    intro hmem
    have hfilter : Line.writerAcquired ∈ t.printed.filter fun line => line.reader = none :=
      List.mem_filter.mpr ⟨hmem, rfl⟩
    rw [hmove.printed, List.filter_append, filter_lines hmove.author, if_neg (by simp),
      List.append_nil, h.writer] at hfilter
    exact absurd hfilter (not_mem_lines hlate)

theorem update_succ (reader : ℕ → Process) (k : ℕ) (p : Process) :
    Function.update reader k p =
      Function.update (Function.update reader k p) (k + 1) (reader (k + 1)) := by
  rw [eq_comm, Function.update_eq_self_iff, Function.update_of_ne (by omega)]

theorem Chained.readLocks_succ (h : Chained s) (k j : ℕ) : j ∈ s.readLocks ↔
    if j = k + 1 then (s.reader (k + 1)).pc.holds = true else j ∈ s.readLocks := by
  split
  case isTrue hj => rw [hj, h.readLocks]
  case isFalse => rfl

/-- Locks are kept. -/
theorem Chained.readLocks_eq (h : Chained s) (hp : p.pc.holds = (s.reader k).pc.holds)
    (hq : q.pc.holds = (s.reader (k + 1)).pc.holds) (j : ℕ) :
    j ∈ s.readLocks ↔ if j = k then p.pc.holds = true
      else if j = k + 1 then q.pc.holds = true else j ∈ s.readLocks := by
  split
  case isTrue hj => rw [hj, h.readLocks, hp]
  case isFalse =>
    split
    case isTrue hj => rw [hj, h.readLocks, hq]
    case isFalse => rfl

/-- One reader changes. -/
theorem Chained.single (h : Chained s) (p : Process) (locks : Finset ℕ) (new : List Line)
    (ht : t = { s.set k p with readLocks := locks, printed := s.printed ++ new })
    (hborn : (s.reader k).pc ≠ .unborn) (hlive : (s.reader k).pc ≠ .exited)
    (hself : Link k p (s.reader (k + 1)).pc)
    (hprev : ∀ j, j + 1 = k → Link j (s.reader j) p.pc) (hplace : Local k p)
    (hforked : k = 0 → (s.writer = .unborn ↔ p.pc = .readLock ∨ p.pc = .forkWriter))
    (hlocks : ∀ j, j ∈ locks ↔ if j = k then p.pc.holds = true
      else if j = k + 1 then (s.reader (k + 1)).pc.holds = true else j ∈ s.readLocks)
    (hnew : ∀ line ∈ new, line.reader = some k)
    (hlines : linesOf k p.pc = linesOf k (s.reader k).pc ++ new) : Chained t := by
  have hlate := h.not_late hborn hlive
  apply Move.chained (k := k) (p := p) (q := s.reader (k + 1)) h hlate
  rw [ht]
  constructor
  case reader => exact update_succ _ _ _
  case self => exact hself
  case next => exact h.link (k + 1)
  case prev => exact hprev
  case place => exact hplace
  case place' => exact h.place (k + 1)
  case writer => exact ⟨hlate, rfl⟩
  case writeLock => rfl
  case forked => exact hforked
  case forked' => exact fun _ => rfl
  case readLocks => exact hlocks
  case printed => rfl
  case author => exact hnew
  case lines => exact hlines
  case lines' => rfl

/-- The same for a reader that has told its parent. -/
theorem Chained.onward (h : Chained s) (p : Process) (locks : Finset ℕ) (new : List Line)
    (ht : t = { s.set k p with readLocks := locks, printed := s.printed ++ new })
    (hold : (s.reader k).pc.notified = true)
    (hlive : (s.reader k).pc ≠ .exited) (hnotified : p.pc.notified = true)
    (hblocked : p.blocked = (s.reader k).blocked)
    (hlater : p.pc.later = true → (s.reader k).pc.later = true)
    (hself : Link k p (s.reader (k + 1)).pc)
    (hlocks : ∀ j, j ∈ locks ↔ if j = k then p.pc.holds = true
      else if j = k + 1 then (s.reader (k + 1)).pc.holds = true else j ∈ s.readLocks)
    (hnew : ∀ line ∈ new, line.reader = some k)
    (hlines : linesOf k p.pc = linesOf k (s.reader k).pc ++ new) : Chained t := by
  have hborn : (s.reader k).pc ≠ .unborn := by
    intro hpc
    rw [hpc] at hold
    cases hold
  refine h.single p locks new ht hborn hlive hself ?_ ?_ ?_ hlocks hnew hlines
  · rintro j rfl
    refine (h.link j).next hborn (by rw [hnotified, hold]) fun hnot => ?_
    rw [hnotified] at hnot
    cases hnot
  · constructor
    · intro hfirst
      rw [Pc.first_of_notified hnotified] at hfirst
      cases hfirst
    · exact fun hp => (h.place k).later (hlater hp)
    · exact fun hk => absurd ((h.place k).unborn hk) hborn
    · rcases (h.place k).blocked with hset | hpc | ⟨-, hnot⟩
      · exact Or.inl (hblocked.trans hset)
      · exact absurd hpc hborn
      · rw [hold] at hnot
        cases hnot
  · rintro rfl
    rw [h.forked]
    have hneither {pc : Pc} (hpc : pc.notified = true) : ¬ (pc = .readLock ∨ pc = .forkWriter) := by
      rintro (rfl | rfl) <;> cases hpc
    exact iff_of_false (hneither hold) (hneither hnotified)

theorem Chained.le_testChildren (h : Chained s) (hborn : (s.reader k).pc ≠ .unborn) :
    k ≤ testChildren := Nat.le_of_not_lt fun hk => hborn ((h.place k).unborn hk)

theorem Chained.readLock (h : Chained s) (hpc : (s.reader k).pc = .readLock) :
    Chained { s.goto k (if k = 0 then .forkWriter else .notify) with
      readLocks := insert k s.readLocks } := by
  have hborn : (s.reader k).pc ≠ .unborn := by simp [hpc]
  have hbound := h.le_testChildren hborn
  have hlocks {pc : Pc} (hholds : pc.holds = true) (j : ℕ) :
      j ∈ insert k s.readLocks ↔ if j = k then pc.holds = true
        else if j = k + 1 then (s.reader (k + 1)).pc.holds = true else j ∈ s.readLocks := by
    rw [Finset.mem_insert]
    split
    case isTrue hj => exact iff_of_true (Or.inl hj) hholds
    case isFalse hj => rw [or_iff_right hj, ← h.readLocks_succ k j]
  have hearly : (s.reader k).pc.early = true := by
    rw [hpc]
    rfl
  by_cases hk : k = 0
  · subst hk
    rw [if_pos rfl]
    apply h.single { s.reader 0 with pc := .forkWriter } (insert 0 s.readLocks) []
    case ht => rw [List.append_nil]; rfl
    case hborn => exact hborn
    case hlive => simp [hpc]
    case hself => exact (h.link 0).onward hearly rfl id
    case hprev => exact fun j hj => absurd hj (Nat.succ_ne_zero j)
    case hplace => exact ⟨fun _ => rfl, nofun, nofun, Or.inr (Or.inr ⟨rfl, rfl⟩)⟩
    case hforked => exact fun _ => by simp [h.forked, hpc]
    case hlocks => exact hlocks rfl
    case hnew => simp
    case hlines => rw [hpc]; rfl
  · rw [if_neg hk]
    apply h.single { s.reader k with pc := .notify } (insert k s.readLocks) []
    case ht => rw [List.append_nil]; rfl
    case hborn => exact hborn
    case hlive => simp [hpc]
    case hself => exact (h.link k).onward hearly rfl id
    case hprev =>
      rintro j rfl
      exact (h.link j).next hborn (by rw [hpc]; rfl) (fun _ => Or.inr rfl)
    case hplace =>
      refine ⟨nofun, fun _ => hk, fun hlt => by omega, ?_⟩
      rcases (h.place k).blocked with hset | hpc' | ⟨hzero, -⟩
      · exact Or.inl hset
      · exact absurd hpc' hborn
      · exact absurd hzero hk
    case hforked => exact fun hzero => absurd hzero hk
    case hlocks => exact hlocks rfl
    case hnew => simp
    case hlines => rw [hpc]; rfl

theorem Chained.notifyInit (h : Chained s) (hpc : (s.reader k).pc = .notifyInit) :
    Chained (s.set k { s.reader k with pc := .loop, sigFlag := false, blocked := true }) := by
  obtain rfl : k = 0 := (h.place k).first (by rw [hpc]; rfl)
  have hearly : (s.reader 0).pc.early = true := by
    rw [hpc]
    rfl
  apply h.single { s.reader 0 with pc := .loop, sigFlag := false, blocked := true } s.readLocks []
  case ht => rw [List.append_nil]; rfl
  case hborn => simp [hpc]
  case hlive => simp [hpc]
  case hself => exact (h.link 0).onward hearly rfl fun hquiet => ⟨rfl, hquiet.2⟩
  case hprev => exact fun j hj => absurd hj (Nat.succ_ne_zero j)
  case hplace => exact ⟨nofun, nofun, nofun, Or.inl rfl⟩
  case hforked => exact fun _ => by simp [h.forked, hpc]
  case hlocks => exact h.readLocks_eq (by rw [hpc]; rfl) rfl
  case hnew => simp
  case hlines => rw [hpc]; rfl

theorem Chained.forkWriter (h : Chained s) (hpc : (s.reader k).pc = .forkWriter) :
    Chained { s.goto k .notifyInit with writer := .printStarted } := by
  obtain rfl : k = 0 := (h.place k).first (by rw [hpc]; rfl)
  have hearly : (s.reader 0).pc.early = true := by
    rw [hpc]
    rfl
  have hwriter : s.writer = .unborn := h.forked.mpr (Or.inr hpc)
  have hlate : s.writer.late = false := by
    rw [hwriter]
    rfl
  apply Move.chained (p := { s.reader 0 with pc := .notifyInit }) (q := s.reader 1)
    h hlate
  constructor
  case reader => exact update_succ _ _ _
  case self => exact (h.link 0).onward hearly rfl id
  case next => exact h.link 1
  case prev => exact fun j hj => absurd hj (Nat.succ_ne_zero j)
  case place => exact ⟨fun _ => rfl, nofun, nofun, Or.inr (Or.inr ⟨rfl, rfl⟩)⟩
  case place' => exact h.place 1
  case writer => exact ⟨rfl, by rw [hwriter]; rfl⟩
  case writeLock => rfl
  case forked => simp
  case forked' => exact fun hzero => absurd rfl hzero
  case readLocks => exact h.readLocks_eq (by rw [hpc]; rfl) rfl
  case printed => exact (List.append_nil _).symm
  case author => simp
  case lines => rw [hpc]; rfl
  case lines' => rfl

theorem Chained.notify (h : Chained s) (hpc : (s.reader k).pc = .notify) :
    Chained ((s.kill (k - 1)).goto k .printAcquired) := by
  obtain ⟨j, rfl⟩ := Nat.exists_eq_succ_of_ne_zero ((h.place k).later (by rw [hpc]; rfl))
  have hborn : (s.reader (j + 1)).pc ≠ .unborn := by simp [hpc]
  have hearly : (s.reader (j + 1)).pc.early = true := by
    rw [hpc]
    rfl
  have hlink := h.link j
  -- the parent waits, with the signal blocked
  have hwaits : (s.reader j).pc.waits = true := by
    rw [← Bool.not_eq_false]
    intro hnot
    cases hdone : (s.reader j).pc.done with
    | false => exact hborn (hlink.unborn hnot hdone)
    | true =>
      by_cases hj : j < testChildren
      · have hnotified := hlink.notified hdone hj
        rw [hpc] at hnotified
        cases hnotified
      · exact hborn (hlink.last hdone (Nat.le_of_not_lt hj))
  obtain ⟨-, hquiet, hclear⟩ := hlink.awaits hwaits (by rw [hpc]; rfl)
  have hlive : (s.reader j).pc ≠ .exited := by
    intro hexited
    rw [hexited] at hwaits
    cases hwaits
  have hblocked : (s.reader j).blocked = true := by
    rcases (h.place j).blocked with hset | hunborn | ⟨-, hnot⟩
    · exact hset
    · rw [hunborn] at hwaits
      cases hwaits
    · rw [Pc.notified_of_waits hwaits] at hnot
      cases hnot
  have hne : j ≠ j + 1 := by omega
  have hstate : (s.kill j).goto (j + 1) .printAcquired =
      (s.set j { s.reader j with pending := true }).set (j + 1)
        { s.reader (j + 1) with pc := .printAcquired } := by
    simp only [State.kill, if_neg hlive, hblocked, if_true, State.goto, State.set,
      Function.update_of_ne hne.symm]
  have hlate := h.not_late hborn (by simp [hpc])
  rw [Nat.succ_eq_add_one, Nat.add_sub_cancel, hstate]
  apply Move.chained (k := j) (p := { s.reader j with pending := true })
    (q := { s.reader (j + 1) with pc := .printAcquired }) h hlate
  constructor
  case reader => rfl
  case self =>
    refine ⟨fun hnot => ?_, fun hnot => ?_, fun _ => hlink.bound hwaits, fun _ _ => ?_, nofun, ?_,
      fun _ hj => ?_⟩
    · rw [hwaits] at hnot
      cases hnot
    · rw [hwaits] at hnot
      cases hnot
    · exact Or.inl ⟨rfl, hquiet.1, hclear⟩
    · exact fun _ _ => rfl
    · exact absurd (hlink.bound hwaits) (Nat.not_lt.mpr hj)
  case next => exact (h.link (j + 1)).onward hearly rfl id
  case prev =>
    rintro i rfl
    exact h.link i
  case place => exact ⟨(h.place j).first, (h.place j).later, (h.place j).unborn, Or.inl hblocked⟩
  case place' =>
    refine ⟨nofun, fun _ => Nat.succ_ne_zero j, fun hj => ?_, ?_⟩
    · exact absurd ((h.place (j + 1)).unborn hj) hborn
    · rcases (h.place (j + 1)).blocked with hset | hunborn | ⟨hzero, -⟩
      · exact Or.inl hset
      · exact absurd hunborn hborn
      · cases hzero
  case writer => exact ⟨hlate, rfl⟩
  case writeLock => rfl
  case forked =>
    rintro rfl
    exact h.forked
  case forked' => exact fun _ => rfl
  case readLocks => exact h.readLocks_eq rfl (by rw [hpc]; rfl)
  case printed => exact (List.append_nil _).symm
  case author => simp
  case lines => exact (List.append_nil _).symm
  case lines' => rw [hpc]; rfl

theorem Chained.fork (h : Chained s) (hpc : (s.reader k).pc = .loop) (hk : k < testChildren) :
    Chained ((s.goto k .test).set (k + 1)
      { s.reader k with pc := .readLock, pending := false }) := by
  have hearly : (s.reader k).pc.early = true := by
    rw [hpc]
    rfl
  obtain ⟨hquiet, hnext⟩ := (h.link k).early hearly
  have hlate := h.not_late (k := k) (by simp [hpc]) (by simp [hpc])
  have hblocked : (s.reader k).blocked = true := by
    rcases (h.place k).blocked with hset | hunborn | ⟨-, hnot⟩
    · exact hset
    · rw [hpc] at hunborn
      cases hunborn
    · rw [hpc] at hnot
      cases hnot
  apply Move.chained (p := { s.reader k with pc := .test })
    (q := { s.reader k with pc := .readLock, pending := false }) h hlate
  constructor
  case reader => rfl
  case self =>
    refine ⟨nofun, nofun, fun _ => hk, nofun, fun _ _ => ?_, nofun, nofun⟩
    exact ⟨Or.inl rfl, hquiet, nofun⟩
  case next =>
    rw [((h.link (k + 1)).early (by rw [hnext]; rfl)).2]
    exact Link.of_early rfl ⟨hquiet.1, rfl⟩
  case prev =>
    rintro j rfl
    exact (h.link j).next (by simp [hpc]) (by rw [hpc]; rfl) nofun
  case place => exact ⟨nofun, nofun, fun hlt => by omega, Or.inl hblocked⟩
  case place' => exact ⟨nofun, nofun, fun hlt => by omega, Or.inl hblocked⟩
  case writer => exact ⟨hlate, rfl⟩
  case writeLock => rfl
  case forked =>
    rintro rfl
    simp [State.goto, State.set, h.forked, hpc]
  case forked' => exact fun _ => rfl
  case readLocks => exact h.readLocks_eq (by rw [hpc]; rfl) (by rw [hnext]; rfl)
  case printed => exact (List.append_nil _).symm
  case author => simp
  case lines => rw [hpc]; exact (List.append_nil _).symm
  case lines' => rw [hnext]; rfl

/-- A reader between its notification and its exit, with its lock. -/
theorem Chained.goto (h : Chained s) {old : Pc} (hpc : (s.reader k).pc = old)
    (hold : old.notified = true ∧ old.holds = true) (p : Process)
    (hp : p.pc.notified = true ∧ p.pc.holds = true)
    (hblocked : p.blocked = (s.reader k).blocked) (hlater : p.pc.later = true → old.later = true)
    (hself : Link k p (s.reader (k + 1)).pc) (new : List Line)
    (ht : t = { s.set k p with printed := s.printed ++ new })
    (hnew : ∀ line ∈ new, line.reader = some k)
    (hlines : linesOf k p.pc = linesOf k old ++ new) : Chained t := by
  subst hpc
  apply h.onward p s.readLocks new
  case ht => exact ht
  case hold => exact hold.1
  case hlive =>
    intro hpc
    rw [hpc] at hold
    cases hold.2
  case hnotified => exact hp.1
  case hblocked => exact hblocked
  case hlater => exact hlater
  case hself => exact hself
  case hlocks => exact h.readLocks_eq (hp.2.trans hold.2.symm) rfl
  case hnew => exact hnew
  case hlines => exact hlines

theorem Chained.execReader (h : Chained s) (hk : Enabled s (.reader k)) :
    Chained (s.execReader k) := by
  have hlink := h.link k
  simp only [Enabled, Process.Ready] at hk
  unfold State.execReader
  cases hpc : (s.reader k).pc with
  | unborn | exited =>
    rw [hpc] at hk
    exact hk.elim
  | readLock => exact h.readLock hpc
  | forkWriter => exact h.forkWriter hpc
  | notifyInit => exact h.notifyInit hpc
  | notify => exact h.notify hpc
  | printAcquired =>
    have hlater := (h.place k).later (by rw [hpc]; rfl)
    apply h.goto hpc ⟨rfl, rfl⟩ { s.reader k with pc := .printReleasing } ⟨rfl, rfl⟩ rfl
      (fun _ => rfl) ?_ [.acquired k]
    · rfl
    · simp [Line.reader]
    · rfl
    · exact hlink.onward (by rw [hpc]; rfl) rfl id
  | printReleasing =>
    have hlater := (h.place k).later (by rw [hpc]; rfl)
    apply h.goto hpc ⟨rfl, rfl⟩ { s.reader k with pc := .loop } ⟨rfl, rfl⟩ rfl (fun _ => rfl)
      ?_ [.releasing k]
    · rfl
    · simp [Line.reader]
    · simp [linesOf, hlater]
    · exact hlink.onward (by rw [hpc]; rfl) rfl id
  | loop =>
    simp only
    split
    case isTrue hbound => exact h.fork hpc hbound
    case isFalse hbound =>
      apply h.goto hpc ⟨rfl, rfl⟩ { s.reader k with pc := .exit } ⟨rfl, rfl⟩ rfl nofun ?_ []
      · rw [List.append_nil]
        rfl
      · simp
      · exact (List.append_nil _).symm
      · have hearly : (s.reader k).pc.early = true := by rw [hpc]; rfl
        have hboth := hlink.early hearly
        refine ⟨fun _ => hboth.1, nofun, nofun, nofun, nofun, ?_, fun _ _ => hboth.2⟩
        exact fun _ hk => absurd hk hbound
  | test =>
    have hwaits : (s.reader k).pc.waits = true := by rw [hpc]; rfl
    simp only
    split
    case isTrue hflag =>
      apply h.goto hpc ⟨rfl, rfl⟩ { s.reader k with pc := .suspended } ⟨rfl, rfl⟩ rfl nofun ?_ []
      · rw [List.append_nil]
        rfl
      · simp
      · exact (List.append_nil _).symm
      · refine ⟨nofun, nofun, fun _ => hlink.bound hwaits, fun _ hnotified => ?_, ?_, nofun, nofun⟩
        · rcases hlink.signalled hwaits hnotified with ⟨hpending, -, -⟩ | ⟨-, hset, -⟩
          · exact Or.inl ⟨hpending, hflag, nofun⟩
          · rw [hflag] at hset
            cases hset
        · intro _ hnotified
          obtain ⟨hnext, hquiet, -⟩ := hlink.awaits hwaits hnotified
          exact ⟨hnext, hquiet, nofun⟩
    case isFalse hflag =>
      apply h.goto hpc ⟨rfl, rfl⟩ { s.reader k with pc := .clear } ⟨rfl, rfl⟩ rfl nofun ?_ []
      · rw [List.append_nil]
        rfl
      · simp
      · exact (List.append_nil _).symm
      · refine ⟨nofun, nofun, fun _ => hlink.bound hwaits, fun _ hnotified => ?_, ?_, nofun, nofun⟩
        · rcases hlink.signalled hwaits hnotified with ⟨-, hclear, -⟩ | ⟨hpending, hset, -⟩
          · exact absurd hclear hflag
          · exact Or.inr ⟨hpending, hset, nofun⟩
        · exact fun _ hnotified => absurd (hlink.awaits hwaits hnotified).2.1.1 hflag
  | suspended =>
    have hwaits : (s.reader k).pc.waits = true := by rw [hpc]; rfl
    apply h.goto hpc ⟨rfl, rfl⟩ { s.reader k with pc := .test, sigFlag := true, pending := false }
      ⟨rfl, rfl⟩ rfl nofun ?_ []
    · rw [List.append_nil]
      rfl
    · simp
    · exact (List.append_nil _).symm
    · refine ⟨nofun, nofun, fun _ => hlink.bound hwaits, fun _ _ => ?_, ?_, nofun, nofun⟩
      · exact Or.inr ⟨rfl, rfl, nofun⟩
      · intro _ hnotified
        have hquiet := (hlink.awaits hwaits hnotified).2.1.2
        rw [hpc] at hk
        rw [hquiet] at hk
        cases hk
  | clear =>
    have hwaits : (s.reader k).pc.waits = true := by rw [hpc]; rfl
    apply h.goto hpc ⟨rfl, rfl⟩ { s.reader k with pc := .exit, sigFlag := false }
      ⟨rfl, rfl⟩ rfl nofun ?_ []
    · rw [List.append_nil]
      rfl
    · simp
    · exact (List.append_nil _).symm
    · have hnotified : (s.reader (k + 1)).pc.notified = true := by
        rw [← Bool.not_eq_false]
        exact fun hnot => (hlink.awaits hwaits hnot).2.2 hpc
      have hbound := hlink.bound hwaits
      refine ⟨fun _ => ?_, nofun, nofun, nofun, nofun, fun _ _ => hnotified, fun _ hk => by omega⟩
      rcases hlink.signalled hwaits hnotified with ⟨-, -, hclear⟩ | ⟨hpending, -, -⟩
      · exact absurd hpc hclear
      · exact ⟨rfl, hpending⟩
  | exit =>
    apply h.onward { s.reader k with pc := .exited } (s.readLocks.erase k) []
    case ht => rw [List.append_nil]; rfl
    case hold => rw [hpc]; rfl
    case hlive => simp [hpc]
    case hnotified => rfl
    case hblocked => rfl
    case hlater => exact nofun
    case hself =>
      refine ⟨fun _ => hlink.quiet (by rw [hpc]; rfl), nofun, nofun, nofun, nofun, ?_, ?_⟩
      · exact fun _ => hlink.notified (by rw [hpc]; rfl)
      · exact fun _ => hlink.last (by rw [hpc]; rfl)
    case hlocks =>
      intro j
      rw [Finset.mem_erase]
      split
      case isTrue hj => exact iff_of_false (fun hmem => hmem.1 hj) Bool.false_ne_true
      case isFalse hj => rw [and_iff_right hj, ← h.readLocks_succ k j]
    case hnew => simp
    case hlines => rw [hpc]; exact (List.append_nil _).symm

theorem Chained.acquired_not_mem (h : Chained s) (hlate : s.writer.late = false) :
    Line.writerAcquired ∉ s.printed := by
  intro hmem
  apply not_mem_lines hlate
  rw [← h.writer]
  exact List.mem_filter.mpr ⟨hmem, rfl⟩

theorem filter_silent (hnew : ∀ line ∈ new, line.reader = none) (who : Option ℕ) :
    (new.filter fun line => line.reader = who) = if who = none then new else [] := by
  split
  case isTrue hwho =>
    rw [hwho]
    exact List.filter_eq_self.mpr fun line hline => decide_eq_true (hnew line hline)
  case isFalse hwho =>
    rw [List.filter_eq_nil_iff]
    intro line hline
    rw [hnew line hline, decide_eq_true_eq]
    exact Ne.symm hwho

/-- The writer goes on. -/
theorem Chained.writer_goto (h : Chained s) (w : Writer) (new : List Line)
    (hold : s.writer ≠ .unborn) (hw : w ≠ .unborn)
    (hlate : w.late = true → ∀ k ≤ testChildren, (s.reader k).pc = .exited)
    (hnew : ∀ line ∈ new, line.reader = none) (hlines : w.lines = s.writer.lines ++ new)
    (hlast : Line.writerAcquired ∈ s.printed ++ new →
      (s.printed ++ new).getLast? = some .writerAcquired) :
    Chained { s with writer := w, writeLock := w.locked, printed := s.printed ++ new } where
  link := h.link
  place := h.place
  readLocks := h.readLocks
  forked := iff_of_false hw (mt h.forked.mpr hold)
  writeLock := rfl
  late := hlate
  readers k := by
    rw [List.filter_append, h.readers, filter_silent hnew, if_neg (Option.some_ne_none k),
      List.append_nil]
  writer := by rw [List.filter_append, h.writer, filter_silent hnew, if_pos rfl, hlines]
  last := hlast

theorem Chained.execWriter (h : Chained s) (hw : Enabled s .writer) : Chained s.execWriter := by
  simp only [Enabled, Writer.Ready] at hw
  unfold State.execWriter
  have hlock := h.writeLock
  have hlast : Line.writerAcquired ∈ s.printed ++ [] →
      (s.printed ++ []).getLast? = some .writerAcquired := by
    rw [List.append_nil]
    exact h.last
  cases hplace : s.writer with
  | unborn | exited =>
    rw [hplace] at hw
    exact hw.elim
  | printStarted =>
    have hnext := h.writer_goto .writeLock [.writerStarted] (by rw [hplace]; nofun) nofun nofun
      (by simp [Line.reader]) (by rw [hplace]; rfl) (fun hmem => by
        simp [h.acquired_not_mem (by rw [hplace]; rfl)] at hmem)
    rw [hplace] at hlock
    simp only [hlock]
    exact hnext
  | writeLock =>
    rw [hplace] at hw
    have hborn : s.writer ≠ .unborn := by
      rw [hplace]
      nofun
    have hnext := h.writer_goto .printAcquired [] hborn nofun (fun _ => h.all_exited hborn hw)
      (by simp) (by rw [hplace]; rfl) hlast
    rw [List.append_nil] at hnext
    exact hnext
  | printAcquired =>
    have hnext := h.writer_goto .exit [.writerAcquired] (by rw [hplace]; nofun) nofun
      (fun _ => h.late (by rw [hplace]; rfl)) (by simp [Line.reader]) (by rw [hplace]; rfl)
      (fun _ => List.getLast?_concat)
    rw [hplace] at hlock
    simp only [hlock]
    exact hnext
  | exit =>
    have hnext := h.writer_goto .exited [] (by rw [hplace]; nofun) nofun
      (fun _ => h.late (by rw [hplace]; rfl)) (by simp) (by rw [hplace]; rfl) hlast
    rw [List.append_nil] at hnext
    exact hnext

theorem Chained.step (h : Chained s) {a : Actor} (ha : Enabled s a) : Chained (step s a).1 := by
  cases a with
  | reader k => exact h.execReader ha
  | writer => exact h.execWriter ha

end InterviewQuestions.ReadersVsWriters
