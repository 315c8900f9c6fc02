import InterviewQuestions.Library.Machine
import InterviewQuestions.Library.Scanf
import Mathlib.Logic.Function.Basic

/-! `linux_internals/daemonize_unique/daemon.c`, with any number of instances that are started at
any time. An instance goes on as its child after each `fork`; only the last process takes the
lock. -/
namespace InterviewQuestions.DaemonizeUnique

open Library Library.Scanf Machine

/-- Why a process has ended. -/
inductive Reason where
  | running
  | failed
  | terminated
deriving DecidableEq

/-- What a process does next. -/
inductive Loc where
  | fork
  -- the session, and the second `fork`
  | setsid
  | sigaction
  -- `already_running`
  | openLockfile
  | setlk
  | ftruncate
  | write
  -- the loop of `main`
  | loop (daemonized : Bool)
  | exited (reason : Reason)
deriving DecidableEq

variable {ι : Type*} [DecidableEq ι]

/-- The lock file, the process that has locked it, and where all are. -/
structure State (ι : Type*) where
  contents : List UInt8
  lock : Option ι
  loc : ι → Loc

namespace State

def init (contents : List UInt8) : State ι := ⟨contents, none, fun _ => .fork⟩

def goto (s : State ι) (i : ι) (l : Loc) : State ι := { s with loc := Function.update s.loc i l }

/-- `exit`, which also unlocks the file. -/
def exit (s : State ι) (i : ι) (reason : Reason) : State ι :=
  { s with
    lock := if s.lock = some i then none else s.lock
    loc := Function.update s.loc i (.exited reason) }

/-- `write` to a file that has just been opened. -/
def write (s : State ι) (bytes : List UInt8) : State ι :=
  { s with contents := bytes ++ s.contents.drop bytes.length }

end State

/-- `pid_buff` -/
def pidBuff (pid : Int32) : List UInt8 := printInt pid.toInt ++ [10]

/-- A system call succeeds. -/
def State.go (pid : ι → Int32) (s : State ι) (i : ι) : State ι :=
  match s.loc i with
  | .fork => s.goto i .setsid
  | .setsid => s.goto i .sigaction
  | .sigaction => s.goto i .openLockfile
  | .openLockfile => s.goto i .setlk
  | .setlk =>
      match s.lock with
      | none => { s with lock := some i }.goto i .ftruncate
      | some _ => s.exit i .running
  | .ftruncate => { s with contents := [] }.goto i .write
  | .write => (s.write (pidBuff (pid i))).goto i (.loop true)
  | .loop _ | .exited _ => s

/-- A system call fails; `write` has written some bytes. What `daemonize` returns where the first
`fork` fails is not looked at. -/
def State.fail (pid : ι → Int32) (s : State ι) (i : ι) (written : ℕ) : State ι :=
  match s.loc i with
  | .fork => s.goto i (.loop false)
  | .setsid | .sigaction | .openLockfile | .setlk | .ftruncate => s.exit i .failed
  | .write => (s.write ((pidBuff (pid i)).take written)).exit i .failed
  | .loop _ | .exited _ => s

inductive Label (ι : Type*) where
  | go (i : ι)
  | fail (i : ι) (written : ℕ)
  | terminate (i : ι)

def step (pid : ι → Int32) (s : State ι) : Label ι → State ι × Unit
  | .go i => (s.go pid i, ())
  | .fail i written => (s.fail pid i written, ())
  | .terminate i => (s.exit i .terminated, ())

def Loc.exits : Loc → Bool
  | .exited _ => true
  | _ => false

/-- The process has no further system call to make. -/
def Loc.final : Loc → Bool
  | .loop _ | .exited _ => true
  | _ => false

def Enabled (s : State ι) : Label ι → Prop
  | .go i | .fail i _ => (s.loc i).final = false
  | .terminate i => (s.loc i).exits = false

/-! ## The lock -/

/-- The process is past `F_SETLK`. -/
def Loc.holds : Loc → Bool
  | .ftruncate | .write | .loop true => true
  | _ => false

/-- What a process that has the lock has made of the file. -/
def Wrote (pid : Int32) (l : Loc) (contents : List UInt8) : Prop :=
  match l with
  | .write => contents = []
  | .loop true => contents = pidBuff pid
  | _ => True

structure Inv (pid : ι → Int32) (s : State ι) : Prop where
  lock : ∀ i, (s.loc i).holds = true ↔ s.lock = some i
  wrote : ∀ i, Wrote (pid i) (s.loc i) s.contents

variable {pid : ι → Int32} {s : State ι} {i j : ι} {l : Loc} {contents : List UInt8}

theorem Loc.eq_loop_true (hholds : l.holds = true) (hfinal : l.final = true) : l = .loop true := by
  cases l with
  | loop daemonized =>
    cases daemonized with
    | false => cases hholds
    | true => rfl
  | ftruncate | write => cases hfinal
  | _ => cases hholds

theorem length_pidBuff_lt (pid : Int32) : (pidBuff pid).length < 32 := by
  have hlength : (printInt pid.toInt).length ≤ 11 := by
    apply length_printInt_le (by decide)
    have := pid.toInt_lt
    have := pid.le_toInt
    omega
  rw [pidBuff, List.length_append, List.length_singleton]
  omega

theorem Wrote.of_not_holds (pid : Int32) (h : l.holds = false) (contents : List UInt8) :
    Wrote pid l contents := by
  unfold Wrote
  split
  case h_1 => cases h
  case h_2 => cases h
  case h_3 => trivial

omit [DecidableEq ι] in
theorem Inv.eq (h : Inv pid s) (hi : (s.loc i).holds = true) (hj : (s.loc j).holds = true) :
    i = j := by
  rw [h.lock] at hi hj
  rw [hi] at hj
  exact Option.some.inj hj

omit [DecidableEq ι] in
theorem inv_init (contents : List UInt8) : Inv pid (State.init contents) where
  lock i := by simp [State.init, Loc.holds]
  wrote i := trivial

/-- The processes but one stay where they are; the file changes only if that one has the lock. -/
theorem Inv.move {s' : State ι} (h : Inv pid s) (hloc : s'.loc = Function.update s.loc i l)
    (hlock : ∀ j, j ≠ i → (s'.lock = some j ↔ s.lock = some j))
    (hholds : l.holds = true ↔ s'.lock = some i) (hwrote : Wrote (pid i) l s'.contents)
    (hfile : s'.contents = s.contents ∨ (s.loc i).holds = true) : Inv pid s' := by
  constructor
  case lock =>
    intro j
    rw [hloc]
    by_cases hj : j = i
    · rw [hj, Function.update_self, hholds]
    · rw [Function.update_of_ne hj, hlock j hj, h.lock]
  case wrote =>
    intro j
    rw [hloc]
    by_cases hj : j = i
    · rw [hj, Function.update_self]
      exact hwrote
    · rw [Function.update_of_ne hj]
      rcases hfile with hsame | hi
      · rw [hsame]
        exact h.wrote j
      · apply Wrote.of_not_holds
        apply Bool.eq_false_of_not_eq_true
        intro hholdsj
        exact hj (h.eq hholdsj hi)

theorem Inv.goto (h : Inv pid s) (hl : l.holds = (s.loc i).holds)
    (hwrote : Wrote (pid i) l contents)
    (hfile : contents = s.contents ∨ (s.loc i).holds = true) :
    Inv pid ({ s with contents }.goto i l) := by
  refine h.move rfl (fun _ _ => Iff.rfl) ?_ hwrote hfile
  rw [hl, h.lock]
  rfl

theorem Inv.exit (h : Inv pid s) (reason : Reason)
    (hfile : contents = s.contents ∨ (s.loc i).holds = true) :
    Inv pid ({ s with contents }.exit i reason) := by
  refine h.move (l := .exited reason) rfl ?_ ?_ trivial hfile
  · intro j hj
    simp only [State.exit]
    split
    case isTrue hi =>
      rw [hi]
      simp [Ne.symm hj]
    case isFalse => exact Iff.rfl
  · simp only [State.exit]
    split
    case isTrue => simp [Loc.holds]
    case isFalse hi => simp [Loc.holds, hi]

theorem Inv.go (h : Inv pid s) (i : ι) : Inv pid (s.go pid i) := by
  unfold State.go
  cases hloc : s.loc i with
  | fork | setsid | sigaction | openLockfile =>
    refine h.goto ?_ trivial (Or.inl rfl)
    rw [hloc]
    rfl
  | setlk =>
    cases hlock : s.lock with
    | none =>
      refine h.move (l := .ftruncate) rfl ?_ ?_ trivial (Or.inl rfl)
      · intro j hj
        rw [hlock]
        simp [State.goto, Ne.symm hj]
      · simp [Loc.holds, State.goto]
    | some j => exact h.exit .running (Or.inl rfl)
  | ftruncate =>
    refine h.goto ?_ rfl ?_
    · rw [hloc]
      rfl
    · rw [hloc]
      exact Or.inr rfl
  | write =>
    have hempty : s.contents = [] := by
      have hwrote := h.wrote i
      rwa [hloc] at hwrote
    refine h.goto ?_ ?_ ?_
    · rw [hloc]
      rfl
    · rw [hempty, List.drop_nil, List.append_nil]
      rfl
    · rw [hloc]
      exact Or.inr rfl
  | loop daemonized => exact h
  | exited reason => exact h

theorem Inv.fail (h : Inv pid s) (i : ι) (written : ℕ) : Inv pid (s.fail pid i written) := by
  unfold State.fail
  cases hloc : s.loc i with
  | fork =>
    refine h.goto ?_ trivial (Or.inl rfl)
    rw [hloc]
    rfl
  | setsid | sigaction | openLockfile | setlk | ftruncate => exact h.exit .failed (Or.inl rfl)
  | write =>
    refine h.exit .failed ?_
    rw [hloc]
    exact Or.inr rfl
  | loop daemonized => exact h
  | exited reason => exact h

theorem Inv.step (h : Inv pid s) (x : Label ι) : Inv pid (step pid s x).1 := by
  cases x with
  | go i => exact h.go i
  | fail i written => exact h.fail i written
  | terminate i => exact h.exit .terminated (Or.inl rfl)

/-! ## Runs in which nothing fails -/

/-- A process has ended only because another one has the lock. -/
def Calm (s : State ι) : Prop :=
  ∀ i, s.loc i ≠ .loop false ∧
    ∀ reason, s.loc i = .exited reason → reason = .running ∧ s.lock ≠ none

theorem Calm.move {s' : State ι} (h : Calm s) (hloc : s'.loc = Function.update s.loc i l)
    (hlock : s.lock ≠ none → s'.lock ≠ none) (hloop : l ≠ .loop false)
    (hreason : ∀ reason, l = .exited reason → reason = .running ∧ s'.lock ≠ none) : Calm s' := by
  intro j
  rw [hloc]
  by_cases hj : j = i
  · rw [hj, Function.update_self]
    exact ⟨hloop, hreason⟩
  · rw [Function.update_of_ne hj]
    have ⟨hloop', hold⟩ := h j
    refine ⟨hloop', fun reason hexited => ?_⟩
    have ⟨hrunning, hsome⟩ := hold reason hexited
    exact ⟨hrunning, hlock hsome⟩

theorem Calm.go (h : Calm s) (hinv : Inv pid s) (i : ι) : Calm (s.go pid i) := by
  unfold State.go
  cases hloc : s.loc i with
  | setlk =>
    cases hlock : s.lock with
    | none => exact h.move (l := .ftruncate) rfl (fun _ => Option.some_ne_none i) nofun nofun
    | some j =>
      have hother : s.lock ≠ some i := by
        rw [Ne, ← hinv.lock, hloc]
        exact Bool.false_ne_true
      have hsome : (s.exit i .running).lock ≠ none := by
        rw [State.exit, if_neg hother, hlock]
        exact Option.some_ne_none j
      refine h.move (l := .exited .running) rfl (fun _ => hsome) nofun ?_
      intro reason hreason
      cases hreason
      exact ⟨rfl, hsome⟩
  | loop daemonized => exact h
  | exited reason => exact h
  | _ => exact h.move rfl id nofun nofun

theorem Calm.run {ls : List (Label ι)} (h : Calm s) (hinv : Inv pid s)
    (hgo : ∀ x ∈ ls, ∃ i, x = .go i) : Calm (run (step pid) s ls).1 := by
  induction ls generalizing s with
  | nil => exact h
  | cons x ls ih =>
    have ⟨i, hx⟩ := hgo x List.mem_cons_self
    rw [run_cons, hx]
    exact ih (h.go hinv i) (hinv.go i) fun y hy => hgo y (List.mem_cons_of_mem x hy)

/-! ## An instance that is started while no other one moves -/

theorem run_alone_free (hloc : s.loc i = .fork) (hlock : s.lock = none) :
    (run (step pid) s (List.replicate 7 (.go i))).1 =
      ⟨pidBuff (pid i), some i, Function.update s.loc i (.loop true)⟩ := by
  simp [List.replicate, step, State.go, State.goto, State.write, hloc, hlock]

theorem run_alone_held (hloc : s.loc i = .fork) (hlock : s.lock = some j) (hj : j ≠ i) :
    (run (step pid) s (List.replicate 5 (.go i))).1 =
      ⟨s.contents, some j, Function.update s.loc i (.exited .running)⟩ := by
  simp [List.replicate, step, State.go, State.goto, State.exit, hloc, hlock, hj]

/-- There is never more than one daemon, and the lock file has its process id. Where no system call
fails and no process is terminated, there is exactly one in the end and the others have found it
running. An instance that is started alone becomes the daemon if none has the lock, whatever the
file has, and changes nothing else if one has. -/
theorem unique_daemon (pid : ι → Int32) (contents : List UInt8) (ls : List (Label ι))
    (h : Admits (step pid) Enabled (State.init contents) ls) :
    let s := (run (step pid) (State.init contents) ls).1
    (∀ i, s.loc i = .loop true →
      s.contents = printInt (pid i).toInt ++ [10] ∧ ∀ j, s.loc j = .loop true → j = i) ∧
    ((∀ x ∈ ls, ∃ i, x = .go i) → (∀ i, (s.loc i).final = true) → Nonempty ι →
      ∃ i, s.loc i = .loop true ∧ ∀ j, j ≠ i → s.loc j = .exited .running) ∧
    ∀ i, s.loc i = .fork → (∀ j, j ≠ i → (s.loc j).final = true) →
      ((∀ j, s.loc j ≠ .loop true) →
        (run (step pid) s (List.replicate 7 (.go i))).1 =
          ⟨printInt (pid i).toInt ++ [10], some i, Function.update s.loc i (.loop true)⟩) ∧
      ((∃ j, s.loc j = .loop true) →
        (run (step pid) s (List.replicate 5 (.go i))).1 =
          { s with loc := Function.update s.loc i (.exited .running) }) := by
  intro s
  have hinv : Inv pid s :=
    run_invariant (Inv pid) (fun _ x hs _ => hs.step x) (inv_init contents) h
  have hholds {i : ι} (hi : s.loc i = .loop true) : (s.loc i).holds = true := by
    rw [hi]
    rfl
  have hdaemon {i : ι} (hlock : s.lock = some i) (hfinal : (s.loc i).final = true) :
      s.loc i = .loop true := Loc.eq_loop_true ((hinv.lock i).mpr hlock) hfinal
  refine ⟨?_, ?_, ?_⟩
  · intro i hi
    have hwrote := hinv.wrote i
    rw [hi] at hwrote
    exact ⟨hwrote, fun j hj => hinv.eq (hholds hj) (hholds hi)⟩
  · intro hgo hfinal ⟨i₀⟩
    have hcalm : Calm s := Calm.run (fun _ => ⟨nofun, nofun⟩) (inv_init contents) hgo
    have hend (i : ι) : s.loc i = .loop true ∨ s.loc i = .exited .running ∧ s.lock ≠ none := by
      have hi := hfinal i
      have ⟨hloop, hexited⟩ := hcalm i
      cases hloc : s.loc i with
      | loop daemonized =>
        cases daemonized with
        | false => exact absurd hloc hloop
        | true => exact Or.inl rfl
      | exited reason =>
        have ⟨hreason, hlock⟩ := hexited reason hloc
        rw [hreason]
        exact Or.inr ⟨rfl, hlock⟩
      | _ =>
        rw [hloc] at hi
        cases hi
    have ⟨i, hi⟩ : ∃ i, s.loc i = .loop true := by
      rcases hend i₀ with hloop | ⟨_, hlock⟩
      · exact ⟨i₀, hloop⟩
      · have ⟨i, hi⟩ := Option.ne_none_iff_exists'.mp hlock
        exact ⟨i, hdaemon hi (hfinal i)⟩
    refine ⟨i, hi, fun j hj => ?_⟩
    rcases hend j with hloop | ⟨hexited, _⟩
    · exact absurd (hinv.eq (hholds hloop) (hholds hi)) hj
    · exact hexited
  · intro i hi hothers
    have hnot : s.lock ≠ some i := by
      rw [Ne, ← hinv.lock, hi]
      exact Bool.false_ne_true
    constructor
    · intro hnone
      apply run_alone_free hi
      apply Option.eq_none_iff_forall_ne_some.mpr
      intro j hlock
      have hj : j ≠ i := by
        intro heq
        rw [heq] at hlock
        exact hnot hlock
      exact hnone j (hdaemon hlock (hothers j hj))
    · intro ⟨j, hj⟩
      have hlock := (hinv.lock j).mp (hholds hj)
      have hne : j ≠ i := by
        intro heq
        rw [heq] at hlock
        exact hnot hlock
      rw [run_alone_held hi hlock hne, hlock]

def samplePid (first : Bool) : Int32 := if first then 21764 else 21765

/-- The first one becomes the daemon before the second one is started. -/
def sampleRun : List (Label Bool) := List.replicate 7 (.go true) ++ List.replicate 5 (.go false)

theorem unique_daemon_sample : ∃ i,
    (run (step samplePid) (State.init []) sampleRun).1.loc i = .loop true ∧
      ∀ j, j ≠ i → (run (step samplePid) (State.init []) sampleRun).1.loc j = .exited .running := by
  have h : Admits (step samplePid) Enabled (State.init []) sampleRun :=
    ⟨rfl, rfl, rfl, rfl, rfl, rfl, rfl, rfl, rfl, rfl, rfl, rfl, trivial⟩
  apply (unique_daemon samplePid [] sampleRun h).2.1
  · simp [sampleRun]
  · intro i
    cases i <;> rfl
  · exact ⟨true⟩

end InterviewQuestions.DaemonizeUnique
