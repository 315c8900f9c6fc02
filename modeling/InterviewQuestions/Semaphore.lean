import InterviewQuestions.Library.Machine
import InterviewQuestions.Library.Threads
import Mathlib.Algebra.GroupWithZero.Nat

/-! The semaphores of `threads/semaphores/semaphore.c`. A step is a lock, an unlock, a condition
wait, a signal or what one thread does between two of these. -/
namespace InterviewQuestions.Semaphore

variable {Tid : Type*}

/-- What a thread is about to do. -/
inductive Pc where
  | outside
  -- `semaphore_wait`; `woken` when the loop tests the counter after a wake-up
  | lockForWait
  | testCounter (woken : Bool)
  | condWait
  | condBlocked
  | condRelock
  | unlockAfterWait
  -- `semaphore_post`
  | lockForPost
  | increment
  | unlockAfterPost
  | signal
deriving DecidableEq

/-- The semaphore and the threads, with the numbers of increments and of completed waits. -/
structure State (Tid : Type*) where
  semLock : Option Tid
  counter : UInt64
  pc : Tid → Pc
  posted : ℕ
  completed : ℕ

/-- After `semaphore_init`. -/
def init (value : UInt32) : State Tid where
  semLock := none
  counter := value.toUInt64
  pc _ := .outside
  posted := 0
  completed := 0

variable [DecidableEq Tid]

namespace State

def goto (s : State Tid) (t : Tid) (p : Pc) : State Tid :=
  { s with pc := Function.update s.pc t p }

def lock (s : State Tid) (t : Tid) (p : Pc) : State Tid :=
  { s.goto t p with semLock := some t }

def unlock (s : State Tid) (t : Tid) (p : Pc) : State Tid :=
  { s.goto t p with semLock := none }

/-- `pthread_cond_wait` unlocks and blocks in one step. Under the lock, the test that ends the
loop and the decrement are one step. -/
def exec (s : State Tid) (t : Tid) : State Tid :=
  match s.pc t with
  | .lockForWait => s.lock t (.testCounter false)
  | .testCounter _ =>
      if s.counter = 0 then s.goto t .condWait
      else { s.goto t .unlockAfterWait with counter := s.counter - 1 }
  | .condWait => s.unlock t .condBlocked
  | .condRelock => s.lock t (.testCounter true)
  | .unlockAfterWait => { s.unlock t .outside with completed := s.completed + 1 }
  | .lockForPost => s.lock t .increment
  | .increment =>
      { s.goto t .unlockAfterPost with counter := s.counter + 1, posted := s.posted + 1 }
  | .unlockAfterPost => s.unlock t .signal
  | .signal => s.goto t .outside
  | .outside | .condBlocked => s

/-- Whether a thread can go on by itself. -/
def ready (s : State Tid) : Pc → Bool
  | .lockForWait | .condRelock | .lockForPost => s.semLock.isNone
  | .testCounter _ | .condWait | .unlockAfterWait | .increment | .unlockAfterPost => true
  | .outside | .condBlocked | .signal => false

end State

/-- `wake` is a wake-up that nobody signalled. -/
inductive Action (Tid : Type*) where
  | semaphoreWait (t : Tid)
  | semaphorePost (t : Tid)
  | exec (t : Tid)
  | signal (t woken : Tid)
  | wake (t : Tid)

/-- A signal wakes one thread, or none when none is blocked. -/
def step (s : State Tid) : Action Tid → State Tid × Unit
  | .semaphoreWait t => (s.goto t .lockForWait, ())
  | .semaphorePost t => (s.goto t .lockForPost, ())
  | .exec t => (s.exec t, ())
  | .signal t woken => ((s.goto t .outside).goto woken .condRelock, ())
  | .wake t => (s.goto t .condRelock, ())

def Enabled (s : State Tid) : Action Tid → Prop
  | .semaphoreWait t | .semaphorePost t => s.pc t = .outside
  | .exec t => s.ready (s.pc t) ∨ s.pc t = .signal ∧ ∀ u, s.pc u ≠ .condBlocked
  | .signal t woken => s.pc t = .signal ∧ s.pc woken = .condBlocked
  | .wake t => s.pc t = .condBlocked

instance decidableEnabled [Fintype Tid] (s : State Tid) : ∀ a, Decidable (Enabled s a)
  | .semaphoreWait t => inferInstanceAs (Decidable (s.pc t = .outside))
  | .semaphorePost t => inferInstanceAs (Decidable (s.pc t = .outside))
  | .exec t => inferInstanceAs
      (Decidable (s.ready (s.pc t) = true ∨ s.pc t = .signal ∧ ∀ u, s.pc u ≠ .condBlocked))
  | .signal t woken => inferInstanceAs (Decidable (s.pc t = .signal ∧ s.pc woken = .condBlocked))
  | .wake t => inferInstanceAs (Decidable (s.pc t = .condBlocked))

end InterviewQuestions.Semaphore

/-! A semaphore never lets more waits complete than its value and the posts allow, and loses
no wake-up: while a thread is blocked, the counter is covered by signals on their way. -/
namespace InterviewQuestions.Semaphore

open Library Library.Threads

variable {Tid : Type*}

namespace Pc

/-- The statements executed with `sem_lock` locked. -/
def holds : Pc → Bool
  | .testCounter _ | .condWait | .unlockAfterWait | .increment | .unlockAfterPost => true
  | _ => false

/-- A post between its increment and its signal. -/
def unsignalled : Pc → Bool
  | .unlockAfterPost | .signal => true
  | _ => false

/-- A woken waiter that has not tested the counter again. -/
def unchecked : Pc → Bool
  | .condRelock | .testCounter true => true
  | _ => false

/-- A wait that has decremented the counter and not returned. -/
def granted : Pc → ℕ
  | .unlockAfterWait => 1
  | _ => 0

/-- A signal on its way, from the increment to the test of the thread that it wakes. -/
def underWay (p : Pc) : ℕ := if p.unsignalled || p.unchecked then 1 else 0

end Pc

/-- The completed waits are covered by `value` and the increments, and a positive counter with
no signal on its way means that nobody is blocked. -/
def Safe (value : UInt32) (s : State Tid) : Prop :=
  s.completed ≤ value.toNat + s.posted ∧
    (0 < s.counter → (∀ t, (s.pc t).unsignalled = false) → (∀ t, (s.pc t).unchecked = false) →
      ∀ t, s.pc t ≠ .condBlocked)

variable [Fintype Tid]

structure Balanced (value : UInt32) (s : State Tid) : Prop where
  owner : Owned Pc.holds s.pc s.semLock
  balance : s.completed + tally Pc.granted s.pc + s.counter.toNat = value.toNat + s.posted
  exhausted : ∀ t, s.pc t = .condWait → s.counter = 0
  covered : (∃ t, s.pc t = .condBlocked) → s.counter.toNat ≤ tally Pc.underWay s.pc

variable {value : UInt32} {s : State Tid}

theorem balanced_init (value : UInt32) : Balanced value (init value : State Tid) where
  owner := owned_init rfl
  balance := by simp [init, Pc.granted]
  exhausted t h := by cases h
  covered h := by
    obtain ⟨t, ht⟩ := h
    cases ht

theorem Balanced.safe (h : Balanced value s) : Safe value s := by
  have hbalance := h.balance
  constructor
  · omega
  · intro hpos hsignalled hchecked t hblocked
    have hcovered := h.covered ⟨t, hblocked⟩
    rw [tally_eq_zero fun u => by simp [Pc.underWay, hsignalled, hchecked]] at hcovered
    have hpos' : 0 < s.counter.toNat := UInt64.lt_iff_toNat_lt.mp hpos
    omega

variable [DecidableEq Tid] {t : Tid} {p : Pc}

omit [DecidableEq Tid] in
/-- While a thread holds the lock for something else, nobody is about to wait. -/
theorem Balanced.nobody_waits (h : Balanced value s) (hheld : (s.pc t).holds = true)
    (hpc : s.pc t ≠ .condWait) (u : Tid) : s.pc u ≠ .condWait := by
  intro hu
  have hut : u = t := h.owner.unique hheld (by rw [hu, Pc.holds])
  rw [hut] at hu
  exact hpc hu

/-- The signals on their way cover the counter as long as a thread that moves leaves no less
on its way than it adds to the counter. -/
theorem covered_update {pc : Tid → Pc} {counter counter' : ℕ}
    (h : (∃ u, pc u = .condBlocked) → counter ≤ tally Pc.underWay pc) (hp : p ≠ .condBlocked)
    (hcounter : counter' + (pc t).underWay ≤ counter + p.underWay) :
    (∃ u, Function.update pc t p u = .condBlocked) →
      counter' ≤ tally Pc.underWay (Function.update pc t p) := by
  intro hblocked
  obtain ⟨u, hu⟩ := hblocked
  have hbefore := h ⟨u, stood hu hp⟩
  have hsum := tally_update Pc.underWay pc t p
  omega

/-- A thread goes on without touching the counter; the lock may change hands. -/
theorem Balanced.move (h : Balanced value s) {semLock : Option Tid}
    (howner : Owned Pc.holds (Function.update s.pc t p) semLock)
    (hgranted : p.granted = (s.pc t).granted) (hwait : p = .condWait → s.counter = 0)
    (hcovered : s.counter = 0 ∨ p ≠ .condBlocked ∧ (s.pc t).underWay ≤ p.underWay) :
    Balanced value { s.goto t p with semLock := semLock } where
  owner := howner
  balance := by
    have hsum := tally_update Pc.granted s.pc t p
    have hbalance := h.balance
    simp only [State.goto]
    omega
  exhausted := (Function.forall_update_iff s.pc fun _ q => q = .condWait → s.counter = 0).mpr
    ⟨hwait, fun u _ => h.exhausted u⟩
  covered := by
    cases hcovered with
    | inl hzero =>
      intro _
      simp [State.goto, hzero]
    | inr hopen => exact covered_update h.covered hopen.1 (Nat.add_le_add_left hopen.2 _)

/-- The holder of the lock finds the counter positive and takes one. -/
theorem Balanced.decrement (h : Balanced value s) {woken : Bool}
    (hpc : s.pc t = .testCounter woken) (hpos : s.counter ≠ 0) :
    Balanced value { s.goto t .unlockAfterWait with counter := s.counter - 1 } := by
  have hone : 1 ≤ s.counter.toNat := by
    have hne : s.counter.toNat ≠ 0 := fun hzero => hpos (UInt64.toNat_inj.mp hzero)
    omega
  have hcounter : (s.counter - 1).toNat = s.counter.toNat - 1 :=
    UInt64.toNat_sub_of_le _ _ (UInt64.le_iff_toNat_le.mpr hone)
  have hheld : (s.pc t).holds = true := by rw [hpc, Pc.holds]
  have htest : (s.pc t).underWay ≤ 1 := by
    unfold Pc.underWay
    split <;> omega
  constructor
  case owner => exact h.owner.goto (by rw [hheld, Pc.holds])
  case balance =>
    have hsum := tally_update Pc.granted s.pc t .unlockAfterWait
    have hbalance := h.balance
    rw [hpc] at hsum
    simp only [State.goto, Pc.granted] at hsum ⊢
    omega
  case exhausted =>
    intro u hu
    exact absurd (stood hu (by simp)) (h.nobody_waits hheld (by simp [hpc]) u)
  case covered =>
    apply covered_update h.covered (by simp)
    simp only
    omega

/-- A wait returns. -/
theorem Balanced.complete (h : Balanced value s) (hpc : s.pc t = .unlockAfterWait) :
    Balanced value { s.unlock t .outside with completed := s.completed + 1 } := by
  have hnone : (s.pc t).underWay = 0 := by rw [hpc]; rfl
  constructor
  case owner => exact h.owner.unlock (by rw [hpc, Pc.holds]) rfl
  case balance =>
    have hsum := tally_update Pc.granted s.pc t .outside
    have hbalance := h.balance
    rw [hpc] at hsum
    simp only [State.unlock, State.goto, Pc.granted] at hsum ⊢
    omega
  case exhausted =>
    intro u hu
    exact h.exhausted u (stood hu (by simp))
  case covered =>
    apply covered_update h.covered (by simp)
    simp only [State.unlock, State.goto]
    omega

/-- A post increments the counter, which does not overflow, and will signal. -/
theorem Balanced.increment (h : Balanced value s) (hpc : s.pc t = .increment)
    (hroom : value.toNat + (s.posted + 1) < 2 ^ 64) :
    Balanced value
      { s.goto t .unlockAfterPost with counter := s.counter + 1, posted := s.posted + 1 } := by
  have hbalance := h.balance
  have hcounter : (s.counter + 1).toNat = s.counter.toNat + 1 := by
    rw [UInt64.toNat_add, UInt64.toNat_one, Nat.mod_eq_of_lt (by omega)]
  have hheld : (s.pc t).holds = true := by rw [hpc, Pc.holds]
  have hnone : (s.pc t).underWay = 0 := by rw [hpc]; rfl
  have hone : Pc.unlockAfterPost.underWay = 1 := rfl
  constructor
  case owner => exact h.owner.goto (by rw [hheld, Pc.holds])
  case balance =>
    have hsum := tally_update Pc.granted s.pc t .unlockAfterPost
    rw [hpc] at hsum
    simp only [State.goto, Pc.granted] at hsum ⊢
    omega
  case exhausted =>
    intro u hu
    exact absurd (stood hu (by simp)) (h.nobody_waits hheld (by simp [hpc]) u)
  case covered =>
    apply covered_update h.covered (by simp)
    simp only
    omega

/-- The thread that signals passes what is on its way on to the thread it wakes. -/
theorem Balanced.signal (h : Balanced value s) {woken : Tid} (hpc : s.pc t = .signal)
    (hwoken : s.pc woken = .condBlocked) :
    Balanced value ((s.goto t .outside).goto woken .condRelock) := by
  have hne : woken ≠ t := by
    intro heq
    rw [heq, hpc] at hwoken
    cases hwoken
  have hwoken' : Function.update s.pc t .outside woken = .condBlocked := by
    rw [Function.update_of_ne hne, hwoken]
  have howner : Owned Pc.holds (Function.update s.pc t .outside) s.semLock :=
    h.owner.goto (by rw [hpc]; rfl)
  constructor
  case owner => exact howner.goto (by rw [hwoken']; rfl)
  case balance =>
    have hsum := tally_update Pc.granted s.pc t .outside
    have hsum' := tally_update Pc.granted (Function.update s.pc t .outside) woken .condRelock
    have hbalance := h.balance
    rw [hpc] at hsum
    rw [hwoken'] at hsum'
    simp only [State.goto, Pc.granted] at hsum hsum' ⊢
    omega
  case exhausted =>
    intro u hu
    exact h.exhausted u (stood (stood hu (by simp)) (by simp))
  case covered =>
    intro hblocked
    have hbefore := h.covered ⟨woken, hwoken⟩
    have hsum := tally_update Pc.underWay s.pc t .outside
    have hsum' := tally_update Pc.underWay (Function.update s.pc t .outside) woken .condRelock
    rw [hpc] at hsum
    rw [hwoken'] at hsum'
    simp only [State.goto]
    have hsignal : Pc.signal.underWay = 1 := rfl
    have houtside : Pc.outside.underWay = 0 := rfl
    have hcond : Pc.condBlocked.underWay = 0 := rfl
    have hrelock : Pc.condRelock.underWay = 1 := rfl
    omega

/-- A signal that wakes nobody. -/
theorem Balanced.unheard (h : Balanced value s) (hpc : s.pc t = .signal)
    (hnobody : ∀ u, s.pc u ≠ .condBlocked) : Balanced value (s.goto t .outside) := by
  constructor
  case owner => exact h.owner.goto (by rw [hpc]; rfl)
  case balance =>
    have hsum := tally_update Pc.granted s.pc t .outside
    have hbalance := h.balance
    rw [hpc] at hsum
    simp only [State.goto, Pc.granted] at hsum ⊢
    omega
  case exhausted =>
    intro u hu
    exact h.exhausted u (stood hu (by simp))
  case covered =>
    intro hblocked
    obtain ⟨u, hu⟩ := hblocked
    exact absurd (stood hu (by simp)) (hnobody u)

/-- What a thread does by itself. -/
theorem Balanced.exec (h : Balanced value s) (hready : s.ready (s.pc t) = true)
    (hroom : value.toNat + (s.exec t).posted < 2 ^ 64) : Balanced value (s.exec t) := by
  unfold State.exec at hroom ⊢
  cases hpc : s.pc t with
  | lockForWait =>
    rw [hpc] at hready
    have hfree : s.semLock = none := Option.isNone_iff_eq_none.mp hready
    exact h.move ((hfree ▸ h.owner).lock rfl) (by rw [hpc]; rfl) (by simp)
      (Or.inr ⟨by simp, by rw [hpc]; exact Nat.zero_le _⟩)
  | testCounter woken =>
    by_cases hzero : s.counter = 0
    · simp only [hzero, if_true]
      exact h.move (h.owner.goto (by rw [hpc]; rfl)) (by rw [hpc]; rfl) (fun _ => hzero)
        (Or.inl hzero)
    · simp only [hzero, if_false]
      exact h.decrement hpc hzero
  | condWait =>
    exact h.move (h.owner.unlock (by rw [hpc]; rfl) rfl) (by rw [hpc]; rfl) (by simp)
      (Or.inl (h.exhausted t hpc))
  | condRelock =>
    rw [hpc] at hready
    have hfree : s.semLock = none := Option.isNone_iff_eq_none.mp hready
    exact h.move ((hfree ▸ h.owner).lock rfl) (by rw [hpc]; rfl) (by simp)
      (Or.inr ⟨by simp, by rw [hpc]; exact Nat.le_refl _⟩)
  | unlockAfterWait => exact h.complete hpc
  | lockForPost =>
    rw [hpc] at hready
    have hfree : s.semLock = none := Option.isNone_iff_eq_none.mp hready
    exact h.move ((hfree ▸ h.owner).lock rfl) (by rw [hpc]; rfl) (by simp)
      (Or.inr ⟨by simp, by rw [hpc]; exact Nat.le_refl _⟩)
  | increment =>
    rw [hpc] at hroom
    exact h.increment hpc hroom
  | unlockAfterPost =>
    exact h.move (h.owner.unlock (by rw [hpc]; rfl) rfl) (by rw [hpc]; rfl) (by simp)
      (Or.inr ⟨by simp, by rw [hpc]; exact Nat.le_refl _⟩)
  | outside | condBlocked | signal =>
    rw [hpc] at hready
    cases hready

omit [Fintype Tid] in
theorem posted_mono (s : State Tid) (a : Action Tid) : s.posted ≤ (step s a).1.posted := by
  cases a with
  | exec t =>
    simp only [step, State.exec]
    cases s.pc t with
    | increment => exact Nat.le_succ _
    | testCounter woken =>
      simp only
      split <;> exact Nat.le_refl _
    | _ => exact Nat.le_refl _
  | _ => exact Nat.le_refl _

theorem Balanced.step (h : Balanced value s) {a : Action Tid} (ha : Enabled s a)
    (hroom : value.toNat + (step s a).1.posted < 2 ^ 64) : Balanced value (step s a).1 := by
  cases a with
  | semaphoreWait t =>
    have hpc : s.pc t = .outside := ha
    exact h.move (h.owner.goto (by rw [hpc]; rfl)) (by rw [hpc]; rfl) (by simp)
      (Or.inr ⟨by simp, by rw [hpc]; exact Nat.le_refl _⟩)
  | semaphorePost t =>
    have hpc : s.pc t = .outside := ha
    exact h.move (h.owner.goto (by rw [hpc]; rfl)) (by rw [hpc]; rfl) (by simp)
      (Or.inr ⟨by simp, by rw [hpc]; exact Nat.le_refl _⟩)
  | exec t =>
    cases ha with
    | inl hready => exact h.exec hready hroom
    | inr hsignal =>
      have hexec : s.exec t = s.goto t .outside := by rw [State.exec, hsignal.1]
      rw [Semaphore.step, hexec]
      exact h.unheard hsignal.1 hsignal.2
  | signal t woken => exact h.signal ha.1 ha.2
  | wake t =>
    have hpc : s.pc t = .condBlocked := ha
    exact h.move (h.owner.goto (by rw [hpc]; rfl)) (by rw [hpc]; rfl) (by simp)
      (Or.inr ⟨by simp, by rw [hpc]; exact Nat.zero_le _⟩)

/-- Every run of any number of threads, as long as the increments stay within what the counter
can hold, is safe. -/
theorem semaphore_safe (value : UInt32) (actions : List (Action Tid))
    (hactions : Machine.Admits step Enabled (init value) actions)
    (hposts : value.toNat + (Machine.run step (init value) actions).1.posted < 2 ^ 64) :
    Safe value (Machine.run step (init value) actions).1 := by
  have hbalanced := Machine.run_invariant
    (fun s : State Tid => value.toNat + s.posted < 2 ^ 64 → Balanced value s)
    (fun s a h ha hroom => by
      have hmono := posted_mono s a
      exact (h (by omega)).step ha hroom)
    (fun _ => balanced_init value) hactions
  exact (hbalanced hposts).safe

/-- Two threads block on a semaphore of value 0; two posts and a spurious wake-up let them go. -/
theorem semaphore_safe_sample :
    Safe 0 (Machine.run step (init 0)
      ([.semaphoreWait 0, .semaphoreWait 1, .exec 0, .exec 0, .exec 0, .exec 1, .exec 1, .exec 1,
        .semaphorePost 2, .exec 2, .exec 2, .exec 2, .wake 1, .signal 2 0, .exec 1, .exec 1,
        .exec 1, .exec 0, .exec 0, .exec 0, .semaphorePost 2, .exec 2, .exec 2, .exec 2,
        .signal 2 0, .exec 0, .exec 0, .exec 0] : List (Action (Fin 3)))).1 :=
  semaphore_safe 0 _ (by decide +kernel) (by decide +kernel)

end InterviewQuestions.Semaphore
