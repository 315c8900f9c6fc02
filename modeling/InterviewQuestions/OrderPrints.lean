import InterviewQuestions.Library.Machine
import InterviewQuestions.Library.TokenRing
import Mathlib.Order.Nat

/-! The three threads of `threads/order_prints/solution.c`. A step is a semaphore operation or a
`putchar` of one thread, or a `pthread_create` of `main`. -/
namespace InterviewQuestions.OrderPrints

open Library

/-- There are threads at all, so that `Fin 3` has numerals. -/
theorem neZero_threads : NeZero 3 := ⟨by decide⟩

attribute [local instance] neZero_threads

/-- What a thread is about to do in its loop. -/
inductive Pc where
  | semWait
  | putDigit
  | putNewline
  | semPost
deriving DecidableEq

/-- The semaphores of a thread and the digit that it prints. -/
structure Thread where
  waits : Fin 3
  digit : Char
  posts : Fin 3

def thread1 : Thread := ⟨0, '1', 1⟩
def thread2 : Thread := ⟨1, '2', 2⟩
def thread3 : Thread := ⟨2, '3', 0⟩

def threadsFns : Fin 3 → Thread
  | 0 => thread1
  | 1 => thread2
  | 2 => thread3

structure State where
  semaphores : Fin 3 → ℕ
  created : ℕ
  pc : Fin 3 → Pc
  out : List Char

def semWait (semaphores : Fin 3 → ℕ) (i : Fin 3) : Fin 3 → ℕ :=
  Function.update semaphores i (semaphores i - 1)

def semPost (semaphores : Fin 3 → ℕ) (i : Fin 3) : Fin 3 → ℕ :=
  Function.update semaphores i (semaphores i + 1)

/-- Before the loop of `pthread_create`: the semaphores are initialized with 1, and `main` has
waited for two of them. -/
def init : State where
  semaphores := semWait (semWait (fun _ => 1) 1) 2
  created := 0
  pc _ := .semWait
  out := []

namespace State

def goto (s : State) (i : Fin 3) (p : Pc) : State :=
  { s with pc := Function.update s.pc i p }

def putchar (s : State) (i : Fin 3) (c : Char) (p : Pc) : State :=
  { s.goto i p with out := s.out ++ [c] }

/-- The next statement of a thread's loop. -/
def thread (s : State) (i : Fin 3) : State :=
  match s.pc i with
  | .semWait => { s.goto i .putDigit with
      semaphores := OrderPrints.semWait s.semaphores (threadsFns i).waits }
  | .putDigit => s.putchar i (threadsFns i).digit .putNewline
  | .putNewline => s.putchar i '\n' .semPost
  | .semPost => { s.goto i .semWait with
      semaphores := OrderPrints.semPost s.semaphores (threadsFns i).posts }

end State

inductive Action where
  | create
  | thread (i : Fin 3)

def step (s : State) : Action → State × Unit
  | .create => ({ s with created := s.created + 1 }, ())
  | .thread i => (s.thread i, ())

def Enabled (s : State) : Action → Prop
  | .create => s.created < 3
  | .thread i => i < s.created ∧ (s.pc i = .semWait → 0 < s.semaphores (threadsFns i).waits)

instance decidableEnabled (s : State) : ∀ a, Decidable (Enabled s a)
  | .create => inferInstanceAs (Decidable (s.created < 3))
  | .thread i => inferInstanceAs (Decidable
      (i < s.created ∧ (s.pc i = .semWait → 0 < s.semaphores (threadsFns i).waits)))

/-! ## The ring -/

/-- The statements of the loop that come before. -/
def Pc.index : Pc → ℕ
  | .semWait => 0
  | .putDigit => 1
  | .putNewline => 2
  | .semPost => 3

/-- The characters in the order that is asked for. -/
def charAt (k : ℕ) : Char :=
  if k % 2 = 0 then (threadsFns (Fin.ofNat 3 (k / 2))).digit else '\n'

/-- How many characters the first `m` statements of the threads print. -/
def charsIn (m : ℕ) : ℕ := 2 * (m / 4) + (m % 4 - 1)

def Action.statements : Action → ℕ
  | .create => 0
  | .thread _ => 1

theorem waits_eq (i : Fin 3) : (threadsFns i).waits = i := by
  revert i
  decide

theorem posts_eq (i : Fin 3) : (threadsFns i).posts = i + 1 := by
  revert i
  decide

/-- After `m` statements of the threads. -/
structure InOrder (m : ℕ) (s : State) : Prop where
  ring : TokenRing.After 4 m (fun i => (s.pc i).index) s.semaphores
  out : s.out = (List.range (charsIn m)).map charAt

theorem inOrder_init : InOrder 0 init where
  ring := TokenRing.after_zero (by decide)
  out := rfl

variable {s : State} {m : ℕ} {i : Fin 3}

/-- The places of the ring when one thread goes on. -/
theorem after_goto {p : Pc} {tokens : Fin 3 → ℕ}
    (h : TokenRing.After 4 m (Function.update (fun j => (s.pc j).index) i p.index) tokens) :
    TokenRing.After 4 m (fun j => ((s.goto i p).pc j).index) tokens := by
  have hindex : (fun j => ((s.goto i p).pc j).index) =
      Function.update (fun j => (s.pc j).index) i p.index := by
    funext j
    by_cases hj : j = i
    · simp [State.goto, hj]
    · simp [State.goto, hj]
  rwa [hindex]

theorem InOrder.turn_iff (h : InOrder m s) :
    i = TokenRing.turn 3 4 m ↔ (s.pc i = .semWait → 0 < s.semaphores (threadsFns i).waits) := by
  rw [← h.ring.ready_iff, waits_eq]
  cases hpc : s.pc i <;> simp [Pc.index]

theorem map_range_succ (n : ℕ) :
    (List.range (n + 1)).map charAt = (List.range n).map charAt ++ [charAt n] := by
  rw [List.range_succ, List.map_append, List.map_singleton]

/-- The thread whose turn it is executes statement `m`. -/
theorem InOrder.thread (h : InOrder m s) (hi : i = TokenRing.turn 3 4 m) :
    InOrder (m + 1) (s.thread i) := by
  have hplace : (s.pc i).index = m % 4 := h.ring.place_turn hi
  unfold State.thread
  cases hpc : s.pc i with
  | semWait =>
    rw [hpc, Pc.index] at hplace
    constructor
    · have htake := h.ring.take (by decide) hi (by rw [hpc]; rfl)
      rw [waits_eq]
      exact after_goto htake
    · have hchars : charsIn (m + 1) = charsIn m := by
        unfold charsIn
        omega
      rw [hchars]
      exact h.out
  | putDigit =>
    rw [hpc, Pc.index] at hplace
    constructor
    · have hgo := h.ring.go hi (by rw [hpc]; decide) (by rw [hpc]; decide)
      rw [hpc] at hgo
      exact after_goto hgo
    · have hchars : charsIn (m + 1) = charsIn m + 1 := by
        unfold charsIn
        omega
      have hnext : charsIn m = 2 * (m / 4) := by
        unfold charsIn
        omega
      have hchar : charAt (charsIn m) = (threadsFns i).digit := by
        rw [hnext, charAt, if_pos (Nat.mul_mod_right 2 _),
          Nat.mul_div_cancel_left _ (by decide), hi]
        rfl
      rw [hchars, map_range_succ, ← h.out, hchar]
      rfl
  | putNewline =>
    rw [hpc, Pc.index] at hplace
    constructor
    · have hgo := h.ring.go hi (by rw [hpc]; decide) (by rw [hpc]; decide)
      rw [hpc] at hgo
      exact after_goto hgo
    · have hchars : charsIn (m + 1) = charsIn m + 1 := by
        unfold charsIn
        omega
      have hodd : charsIn m % 2 ≠ 0 := by
        unfold charsIn
        omega
      rw [hchars, map_range_succ, ← h.out, charAt, if_neg hodd]
      rfl
  | semPost =>
    rw [hpc, Pc.index] at hplace
    constructor
    · have hleave := h.ring.leave hi (by rw [hpc]; decide) (by rw [hpc]; rfl)
      rw [posts_eq]
      exact after_goto hleave
    · have hchars : charsIn (m + 1) = charsIn m := by
        unfold charsIn
        omega
      rw [hchars]
      exact h.out

theorem InOrder.step (h : InOrder m s) {a : Action} (ha : Enabled s a) :
    InOrder (m + a.statements) (step s a).1 := by
  cases a with
  | create => exact ⟨h.ring, h.out⟩
  | thread i => exact h.thread (h.turn_iff.mpr ha.2)

theorem inOrder_run {actions : List Action} (h : InOrder m s)
    (hactions : Machine.Admits step Enabled s actions) :
    InOrder (m + (actions.map Action.statements).sum) (Machine.run step s actions).1 := by
  induction actions generalizing m s with
  | nil => exact h
  | cons a actions ih =>
    have hrest := ih (h.step hactions.1) hactions.2
    rw [List.map_cons, List.sum_cons, ← Nat.add_assoc]
    exact hrest

/-- The `m` statements that the threads have executed have printed the first characters of
`1 2 3 1 2 3 ..`, two for every four statements. Once all the threads have been created, there is
one that can go on, and only one. -/
def Ordered (actions : List Action) : Prop :=
  (Machine.run step init actions).1.out =
      (List.range (charsIn (actions.map Action.statements).sum)).map charAt ∧
    (3 ≤ (Machine.run step init actions).1.created →
      ∃! i, Enabled (Machine.run step init actions).1 (.thread i))

theorem prints_in_order (actions : List Action)
    (hactions : Machine.Admits step Enabled init actions) : Ordered actions := by
  have horder := inOrder_run inOrder_init hactions
  rw [Nat.zero_add] at horder
  constructor
  · exact horder.out
  · intro hcreated
    refine ⟨TokenRing.turn 3 4 (actions.map Action.statements).sum, ?_, ?_⟩
    · exact ⟨lt_of_lt_of_le (Fin.isLt _) hcreated, horder.turn_iff.mp rfl⟩
    · intro i hi
      exact horder.turn_iff.mpr hi.2

/-- The third thread is created before the first has printed, and cannot go on yet. -/
theorem prints_in_order_sample :
    Ordered [.create, .thread 0, .create, .create, .thread 0, .thread 0, .thread 0, .thread 1] :=
  prints_in_order _ (by decide)

end InterviewQuestions.OrderPrints
