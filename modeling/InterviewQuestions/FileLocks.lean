import InterviewQuestions.Library.Machine
import Mathlib.Data.List.Count
import Mathlib.Logic.Function.Basic
import Mathlib.Tactic.Common

/-! `linux_internals/file_locks/locks.c` after the `fork`. The processes share the place in the file
where the next `write` goes. -/
namespace InterviewQuestions.FileLocks

open Library Machine

inductive Process where
  | child
  | parent
deriving DecidableEq

/-- What a process does next in the loop of `print_msgs`. -/
inductive Place where
  | writewLock
  | writeName
  | writeBuf
  | unLock
deriving DecidableEq

def buf : List Char := "A message from a process.\n".toList

def Process.name : Process → List Char
  | .child => "child: ".toList
  | .parent => "parent: ".toList

/-- The turns of the loop. -/
def msgs : ℕ := 200

structure State where
  file : List Char
  lock : Option Process
  place : Process → Place
  i : Process → ℕ

def init : State := ⟨[], none, fun _ => .writewLock, fun _ => 0⟩

namespace State

def goto (s : State) (p : Process) (l : Place) : State :=
  { s with place := Function.update s.place p l }

def write (s : State) (data : List Char) : State := { s with file := s.file ++ data }

/-- The next statement of `print_msgs`. -/
def printMsgs (s : State) (p : Process) : State :=
  match s.place p with
  | .writewLock => { s.goto p .writeName with lock := some p }
  | .writeName => (s.write p.name).goto p .writeBuf
  | .writeBuf => (s.write buf).goto p .unLock
  | .unLock => { s.goto p .writewLock with
      lock := none
      i := Function.update s.i p (s.i p + 1) }

end State

def step (s : State) (p : Process) : State × Unit := (s.printMsgs p, ())

/-- `F_SETLKW` waits for the lock of the other process. -/
def Enabled (s : State) (p : Process) : Prop :=
  s.i p < msgs ∧ (s.place p = .writewLock → s.lock = none)

/-! ## Messages -/

def Process.message (p : Process) : List Char := p.name ++ buf

/-- What a process that has the lock has written of its message. -/
def Process.begun (p : Process) : Place → List Char
  | .writewLock | .writeName => []
  | .writeBuf => p.name
  | .unLock => p.message

/-- The messages that are complete, by the processes that have written them. -/
structure Whole (order : List Process) (s : State) : Prop where
  lock : ∀ p, s.place p ≠ .writewLock ↔ s.lock = some p
  file : s.file = order.flatMap Process.message ++
    (s.lock.elim [] fun p => p.begun (s.place p))
  count : ∀ p, order.count p = s.i p
  bound : ∀ p, s.i p ≤ msgs ∧ (s.lock = some p → s.i p < msgs)

variable {s : State} {p q : Process} {order : List Process} {l : Place}

theorem whole_init : Whole [] init where
  lock p := by simp [init]
  file := rfl
  count p := rfl
  bound p := ⟨Nat.zero_le msgs, nofun⟩

/-- A process that has the lock goes on with its message. -/
theorem Whole.goto (h : Whole order s) (hlock : s.lock = some p) (hl : l ≠ .writewLock)
    (data : List Char) (hbegun : p.begun l = p.begun (s.place p) ++ data) :
    Whole order ((s.write data).goto p l) where
  lock q := by
    by_cases hq : q = p
    · simp [State.goto, State.write, hq, hl, hlock]
    · simp only [State.goto, State.write, Function.update_of_ne hq]
      exact h.lock q
  file := by
    have hfile := h.file
    rw [hlock] at hfile
    simp [State.goto, State.write, hlock, hbegun, hfile]
  count := h.count
  bound := h.bound

theorem Whole.step (h : Whole order s) (hp : Enabled s p) :
    ∃ order', Whole order' (step s p).1 := by
  have hheld (hplace : s.place p ≠ .writewLock) : s.lock = some p := (h.lock p).mp hplace
  unfold FileLocks.step State.printMsgs
  cases hplace : s.place p with
  | writewLock =>
    have hfree := hp.2 hplace
    have hothers (q : Process) : s.place q = .writewLock := by
      by_contra hq
      have hlock := (h.lock q).mp hq
      rw [hfree] at hlock
      cases hlock
    refine ⟨order, fun q => ?_, ?_, h.count, fun q => ⟨(h.bound q).1, fun hq => ?_⟩⟩
    · by_cases hq : q = p
      · simp [State.goto, hq]
      · simp [State.goto, hq, hothers, Ne.symm hq]
    · have hfile := h.file
      rw [hfree] at hfile
      simpa [State.goto, Process.begun] using hfile
    · cases hq
      exact hp.1
  | writeName =>
    have hlock := hheld (by rw [hplace]; nofun)
    exact ⟨order, h.goto hlock (l := .writeBuf) nofun p.name (by rw [hplace]; rfl)⟩
  | writeBuf =>
    have hlock := hheld (by rw [hplace]; nofun)
    exact ⟨order, h.goto hlock (l := .unLock) nofun buf (by rw [hplace]; rfl)⟩
  | unLock =>
    have hlock := hheld (by rw [hplace]; nofun)
    refine ⟨order ++ [p], fun q => ?_, ?_, fun q => ?_, fun q => ?_⟩
    · by_cases hq : q = p
      · simp [State.goto, hq]
      · have hother : s.place q = .writewLock := by
          by_contra hne
          have hother := (h.lock q).mp hne
          rw [hlock] at hother
          exact hq (Option.some.inj hother).symm
        simp [State.goto, hq, hother]
    · have hfile := h.file
      rw [hlock, Option.elim_some, hplace] at hfile
      simpa [State.goto, Process.begun] using hfile
    · have hcount := h.count q
      by_cases hq : q = p
      · rw [hq] at hcount ⊢
        simp [hcount]
      · simp [hq, hcount, Ne.symm hq]
    · have hless := (h.bound p).2 hlock
      by_cases hq : q = p
      · simp only [hq, Function.update_self]
        exact ⟨hless, nofun⟩
      · simp only [Function.update_of_ne hq]
        exact ⟨(h.bound q).1, nofun⟩

/-! ## Progress -/

def Place.index : Place → ℕ
  | .writewLock => 0
  | .writeName => 1
  | .writeBuf => 2
  | .unLock => 3

/-- The statements that a process has left. -/
def State.left (s : State) (p : Process) : ℕ := 4 * (msgs - s.i p) - (s.place p).index

def remaining (s : State) : ℕ := s.left .child + s.left .parent

theorem left_printMsgs (hp : Enabled s p) (q : Process) :
    (s.printMsgs p).left q = if q = p then s.left q - 1 else s.left q := by
  unfold State.printMsgs
  have hless := hp.1
  by_cases hq : q = p
  · rw [if_pos hq, hq]
    cases hplace : s.place p with
    | unLock =>
      simp [State.left, State.goto, hplace, Place.index]
      omega
    | _ => simp [State.left, State.goto, State.write, hplace, Place.index, Nat.sub_sub]
  · rw [if_neg hq]
    cases s.place p <;> simp [State.left, State.goto, State.write, hq]

theorem remaining_step (hp : Enabled s p) : remaining (step s p).1 < remaining s := by
  have hpos : 0 < s.left p := by
    have hless := hp.1
    unfold State.left
    cases s.place p with
    | _ =>
      simp only [Place.index]
      omega
  have hleft := left_printMsgs hp
  show (s.printMsgs p).left .child + (s.printMsgs p).left .parent < _
  rw [hleft, hleft, remaining]
  cases p with
  | child =>
    simp
    omega
  | parent =>
    simp
    omega

def Finished (s : State) : Prop := ∀ p, s.i p = msgs

theorem Whole.progress (h : Whole order s) (hunfinished : ¬ Finished s) :
    ∃ p, Enabled s p := by
  cases hlock : s.lock with
  | some p =>
    exact ⟨p, (h.bound p).2 hlock, fun hplace => absurd hplace ((h.lock p).mpr hlock)⟩
  | none =>
    have ⟨p, hp⟩ := not_forall.mp hunfinished
    exact ⟨p, lt_of_le_of_ne (h.bound p).1 hp, fun _ => hlock⟩

theorem Whole.of_finished (h : Whole order s) (hfinished : Finished s) :
    s.file = order.flatMap Process.message := by
  have hfree : s.lock = none := by
    apply Option.eq_none_iff_forall_ne_some.mpr
    intro p hlock
    have hless := (h.bound p).2 hlock
    rw [hfinished p] at hless
    exact lt_irrefl _ hless
  rw [h.file, hfree, Option.elim_none, List.append_nil]

/-- In each interleaving the file has whole messages, one after another, and behind them what the
process that has the lock has written of its own. No run is longer than the two loops; each can be
continued until both processes are through, and the file has then all their messages. -/
theorem messages_whole (ps : List Process) (h : Admits step Enabled init ps) :
    (∃ order, Whole order (run step init ps).1) ∧ ps.length ≤ 2 * (4 * msgs) ∧
      ∃ more, Admits step Enabled init (ps ++ more) ∧
        ∃ order : List Process, (∀ p, order.count p = msgs) ∧
          (run step init (ps ++ more)).1.file = order.flatMap Process.message := by
  have hstep (s : State) (p : Process) (hs : ∃ order, Whole order s) (hp : Enabled s p) :
      ∃ order, Whole order (step s p).1 := by
    have ⟨order, horder⟩ := hs
    exact horder.step hp
  have hinv := run_invariant (fun s => ∃ order, Whole order s) hstep ⟨[], whole_init⟩ h
  refine ⟨hinv, ?_, ?_⟩
  · have hlength := length_add_measure_le (fun s => ∃ order, Whole order s) remaining hstep
      (fun s p _ hp => remaining_step hp) ⟨[], whole_init⟩ h
    have hstart : remaining init = 2 * (4 * msgs) := rfl
    omega
  · have ⟨more, hmore, hfinished⟩ := exists_completion (fun s => ∃ order, Whole order s) Finished
      remaining hstep (fun s p _ hp => remaining_step hp)
      (fun s hs hunfinished => hs.elim fun order horder => horder.progress hunfinished) hinv
    have ⟨order, horder⟩ := run_invariant (fun s => ∃ order, Whole order s) hstep hinv hmore
    refine ⟨more, h.append hmore, order, fun p => ?_, ?_⟩
    · rw [horder.count, hfinished]
    · rw [run_append_fst]
      exact horder.of_finished hfinished

/-- The child has the lock, and the parent waits for it. -/
theorem messages_whole_sample :
    ∃ order, Whole order (run step init [.child, .child]).1 :=
  (messages_whole [.child, .child]
    ⟨⟨by decide, fun _ => rfl⟩, ⟨by decide, nofun⟩, trivial⟩).1

end InterviewQuestions.FileLocks
