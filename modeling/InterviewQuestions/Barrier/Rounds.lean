import InterviewQuestions.Library.Machine
import InterviewQuestions.Library.Threads
import Mathlib.Algebra.GroupWithZero.Nat

/-! The barrier of `threads/barriers/barrier.c`. A step is one statement of
`thread_barrier_wait` in one thread. -/
namespace InterviewQuestions.Barrier

variable {Tid : Type*}

def PTHREAD_BARRIER_SERIAL_THREAD : ℤ := -1

/-- What a thread is about to do. A thread that has left the condition variable waits for the
lock; `broadcast` when the broadcast of its round has been sent. -/
inductive Pc where
  | outside
  | lockForWait
  | increment
  -- the last arrival
  | broadcast
  | unlockAfterBroadcast
  -- the others
  | condWait
  | condBlocked
  | condRelock (broadcast : Bool)
  | unlockAfterWait
deriving DecidableEq

/-- The barrier and the threads, with how often each has entered `thread_barrier_wait` and
what its calls have returned, in order. -/
structure State (Tid : Type*) where
  target : UInt64
  counter : UInt64
  owner : Option Tid
  pc : Tid → Pc
  entered : Tid → ℕ
  results : Tid → List ℤ

/-- After `thread_barrier_init`. -/
def init (count : UInt32) : State Tid where
  target := count.toUInt64
  counter := 0
  owner := none
  pc _ := .outside
  entered _ := 0
  results _ := []

/-- What a broadcast does to a thread. -/
def Pc.woken : Pc → Pc
  | .condBlocked | .condRelock _ => .condRelock true
  | p => p

variable [DecidableEq Tid]

namespace State

def goto (s : State Tid) (t : Tid) (p : Pc) : State Tid :=
  { s with pc := Function.update s.pc t p }

def lock (s : State Tid) (t : Tid) (p : Pc) : State Tid :=
  { s.goto t p with owner := some t }

def unlock (s : State Tid) (t : Tid) (p : Pc) : State Tid :=
  { s.goto t p with owner := none }

/-- The call unlocks and returns. -/
def leave (s : State Tid) (t : Tid) (result : ℤ) : State Tid :=
  { s.unlock t .outside with
    results := Function.update s.results t (s.results t ++ [result]) }

/-- `++counter == target`, and the reset by the last arrival. -/
def arrive (s : State Tid) (t : Tid) : State Tid :=
  if s.counter + 1 = s.target then { s.goto t .broadcast with counter := 0 }
  else { s.goto t .condWait with counter := s.counter + 1 }

def exec (s : State Tid) (t : Tid) : State Tid :=
  match s.pc t with
  | .lockForWait => s.lock t .increment
  | .increment => s.arrive t
  | .broadcast =>
      { s with pc := Function.update (fun u => (s.pc u).woken) t .unlockAfterBroadcast }
  | .unlockAfterBroadcast => s.leave t PTHREAD_BARRIER_SERIAL_THREAD
  | .condWait => s.unlock t .condBlocked
  | .condRelock _ => s.lock t .unlockAfterWait
  | .unlockAfterWait => s.leave t 0
  | .outside | .condBlocked => s

/-- Whether a thread can go on by itself. -/
def ready (s : State Tid) : Pc → Bool
  | .lockForWait | .condRelock _ => s.owner.isNone
  | .outside | .condBlocked => false
  | _ => true

end State

/-- `wake` is a wake-up that no broadcast caused. -/
inductive Action (Tid : Type*) where
  | barrierWait (t : Tid)
  | exec (t : Tid)
  | wake (t : Tid)

def step (s : State Tid) : Action Tid → State Tid × Unit
  | .barrierWait t =>
      ({ s.goto t .lockForWait with
          entered := Function.update s.entered t (s.entered t + 1) }, ())
  | .exec t => (s.exec t, ())
  | .wake t => (s.goto t (.condRelock false), ())

def Enabled (s : State Tid) : Action Tid → Prop
  | .barrierWait t => s.pc t = .outside
  | .exec t => s.ready (s.pc t)
  | .wake t => s.pc t = .condBlocked

instance decidableEnabled (s : State Tid) : ∀ a, Decidable (Enabled s a)
  | .barrierWait t => inferInstanceAs (Decidable (s.pc t = .outside))
  | .exec t => inferInstanceAs (Decidable (s.ready (s.pc t) = true))
  | .wake t => inferInstanceAs (Decidable (s.pc t = .condBlocked))

/-- `pthread_cond_wait` does not return before the broadcast. -/
def AwaitsBroadcast (s : State Tid) : Action Tid → Prop
  | .exec t => s.pc t ≠ .condRelock false
  | _ => True

instance decidableAwaitsBroadcast (s : State Tid) : ∀ a, Decidable (AwaitsBroadcast s a)
  | .exec t => inferInstanceAs (Decidable (s.pc t ≠ .condRelock false))
  | .barrierWait _ => isTrue trivial
  | .wake _ => isTrue trivial

end InterviewQuestions.Barrier

/-! The rounds of the barrier. As long as no thread returns from the condition variable before
the broadcast, all threads are in one round or between two, and each round has one last
arrival. -/
namespace InterviewQuestions.Barrier

open Library Library.Threads

variable {Tid : Type*}

/-- No thread has returned from a call that another has not entered, no two calls of one
round returned `PTHREAD_BARRIER_SERIAL_THREAD`, and one of them did when all have returned. -/
def Safe (s : State Tid) : Prop :=
  (∀ t u, (s.results t).length ≤ s.entered u) ∧
    (∀ (k : ℕ) t u, (s.results t)[k]? = some PTHREAD_BARRIER_SERIAL_THREAD →
      (s.results u)[k]? = some PTHREAD_BARRIER_SERIAL_THREAD → t = u) ∧
    ∀ k : ℕ, (∀ t, k < (s.results t).length) →
      ∃ t, (s.results t)[k]? = some PTHREAD_BARRIER_SERIAL_THREAD

namespace Pc

/-- The statements executed with the lock locked. -/
def holds : Pc → Bool
  | .increment | .broadcast | .unlockAfterBroadcast | .condWait | .unlockAfterWait => true
  | _ => false

/-- A thread that the current round has counted. -/
def arrived : Pc → ℕ
  | .broadcast | .condWait | .condBlocked | .condRelock false => 1
  | _ => 0

/-- What the last arrival has taken off the counter. -/
def reset (target : ℕ) : Pc → ℕ
  | .broadcast => target
  | _ => 0

end Pc

/-- Where a thread is in its calls when `rounds` broadcasts have been sent, the one of round
`k` by `last k`. -/
def Standing (last : ℕ → Tid) (rounds : ℕ) (t : Tid) (entered returned : ℕ) : Pc → Prop
  | .outside => entered = rounds ∧ returned = rounds
  | .condRelock true | .unlockAfterWait =>
      entered = rounds ∧ returned + 1 = rounds ∧ last returned ≠ t
  | .unlockAfterBroadcast => entered = rounds ∧ returned + 1 = rounds ∧ last returned = t
  | _ => entered = rounds + 1 ∧ returned = rounds

theorem Standing.le {last : ℕ → Tid} {rounds : ℕ} {t : Tid} {entered returned : ℕ} {p : Pc}
    (h : Standing last rounds t entered returned p) : returned ≤ rounds ∧ rounds ≤ entered := by
  unfold Standing at h
  split at h <;> omega

section

variable [DecidableEq Tid]

/-- What a call of thread `t` returns when `last` was the last arrival of its round. -/
def verdict (last t : Tid) : ℤ := if last = t then PTHREAD_BARRIER_SERIAL_THREAD else 0

theorem verdict_eq_serial {last t : Tid} :
    verdict last t = PTHREAD_BARRIER_SERIAL_THREAD ↔ last = t := by
  unfold verdict
  split
  case isTrue heq => exact iff_of_true rfl heq
  case isFalse hne => exact iff_of_false (by decide) hne

variable [Fintype Tid]

structure InRound (last : ℕ → Tid) (rounds : ℕ) (s : State Tid) : Prop where
  target : s.target.toNat = Fintype.card Tid
  owner : Owned Pc.holds s.pc s.owner
  standing : ∀ t, Standing last rounds t (s.entered t) (s.results t).length (s.pc t)
  arrivals : tally Pc.arrived s.pc = s.counter.toNat + tally (Pc.reset (Fintype.card Tid)) s.pc
  results : ∀ t, s.results t = (List.range (s.results t).length).map fun k => verdict (last k) t

variable {last : ℕ → Tid} {rounds : ℕ} {s : State Tid} {t : Tid} {p : Pc}

theorem inRound_init (last : ℕ → Tid) {count : UInt32} (hcount : count.toNat = Fintype.card Tid) :
    InRound last 0 (init count : State Tid) where
  target := by simp [init, hcount]
  owner := owned_init rfl
  standing t := ⟨rfl, rfl⟩
  arrivals := by simp [init, Pc.arrived, Pc.reset]
  results t := rfl

theorem InRound.result (h : InRound last rounds s) (t : Tid) (k : ℕ) :
    (s.results t)[k]? = some PTHREAD_BARRIER_SERIAL_THREAD ↔
      k < (s.results t).length ∧ last k = t := by
  rw [h.results t]
  simp [List.getElem?_map, List.getElem?_eq_some_iff, verdict_eq_serial]

theorem InRound.safe (h : InRound last rounds s) : Safe s := by
  constructor
  · intro t u
    have ht := (h.standing t).le
    have hu := (h.standing u).le
    omega
  constructor
  · intro k t u ht hu
    rw [h.result] at ht hu
    exact ht.2.symm.trans hu.2
  · intro k hall
    exact ⟨last k, (h.result (last k) k).mpr ⟨hall (last k), rfl⟩⟩

/-! ## Steps -/

theorem InRound.standing_update (h : InRound last rounds s)
    (hp : Standing last rounds t (s.entered t) (s.results t).length p) (u : Tid) :
    Standing last rounds u (s.entered u) (s.results u).length (Function.update s.pc t p u) := by
  revert u
  rw [Function.forall_update_iff s.pc fun u q =>
    Standing last rounds u (s.entered u) (s.results u).length q]
  exact ⟨hp, fun u _ => h.standing u⟩

/-- A thread goes on without touching the barrier; the lock may change hands. -/
theorem InRound.move (h : InRound last rounds s) {owner : Option Tid}
    (howner : Owned Pc.holds (Function.update s.pc t p) owner)
    (hstanding : Standing last rounds t (s.entered t) (s.results t).length p)
    (harrived : p.arrived = (s.pc t).arrived)
    (hreset : p.reset (Fintype.card Tid) = (s.pc t).reset (Fintype.card Tid)) :
    InRound last rounds { s.goto t p with owner := owner } where
  target := h.target
  owner := howner
  standing := h.standing_update hstanding
  arrivals := by
    have hsum := tally_update Pc.arrived s.pc t p
    have hsum' := tally_update (Pc.reset (Fintype.card Tid)) s.pc t p
    have harrivals := h.arrivals
    simp only [State.goto]
    omega
  results := h.results

theorem InRound.enter (h : InRound last rounds s) (hpc : s.pc t = .outside) :
    InRound last rounds (step s (.barrierWait t)).1 := by
  have hself := h.standing t
  rw [hpc] at hself
  have harrived : Pc.lockForWait.arrived = (s.pc t).arrived := by rw [hpc]; rfl
  have hreset : Pc.lockForWait.reset (Fintype.card Tid) = (s.pc t).reset (Fintype.card Tid) := by
    rw [hpc]
    rfl
  constructor
  case target => exact h.target
  case owner => exact h.owner.goto (by rw [hpc]; rfl)
  case standing =>
    intro u
    simp only [step, State.goto]
    by_cases hut : u = t
    · rw [hut, Function.update_self, Function.update_self]
      exact ⟨by rw [hself.1], hself.2⟩
    · rw [Function.update_of_ne hut, Function.update_of_ne hut]
      exact h.standing u
  case arrivals =>
    have hsum := tally_update Pc.arrived s.pc t .lockForWait
    have hsum' := tally_update (Pc.reset (Fintype.card Tid)) s.pc t .lockForWait
    have harrivals := h.arrivals
    simp only [step, State.goto]
    omega
  case results => exact h.results

theorem arrived_le_one (p : Pc) : p.arrived ≤ 1 := by
  unfold Pc.arrived
  split <;> omega

/-- The counter is below the target when a thread is about to increment it, and the last
arrival resets it. -/
theorem InRound.arrive (h : InRound last rounds s) (hpc : s.pc t = .increment) :
    InRound last rounds (s.arrive t) := by
  have hheld : (s.pc t).holds = true := by rw [hpc, Pc.holds]
  have hself := h.standing t
  rw [hpc] at hself
  have harrivals := h.arrivals
  have htarget := h.target
  have hlt : tally Pc.arrived s.pc < Fintype.card Tid := by
    by_contra hge
    have hone := weight_eq_one (fun u => arrived_le_one (s.pc u)) (Nat.le_of_not_lt hge) t
    rw [hpc] at hone
    cases hone
  have hbound := s.target.toNat_lt
  have hcounter : (s.counter + 1).toNat = s.counter.toNat + 1 := by
    rw [UInt64.toNat_add, UInt64.toNat_one, Nat.mod_eq_of_lt (by omega)]
  have hnot : (s.pc t).arrived = 0 := by rw [hpc]; rfl
  have hnone : (s.pc t).reset (Fintype.card Tid) = 0 := by rw [hpc]; rfl
  unfold State.arrive
  by_cases hlast : s.counter + 1 = s.target
  · rw [if_pos hlast]
    constructor
    case target => exact h.target
    case owner => exact h.owner.goto (by rw [hheld, Pc.holds])
    case standing => exact h.standing_update hself
    case arrivals =>
      have hsum := tally_update Pc.arrived s.pc t .broadcast
      have hsum' := tally_update (Pc.reset (Fintype.card Tid)) s.pc t .broadcast
      have hone : Pc.broadcast.arrived = 1 := rfl
      have hall : Pc.broadcast.reset (Fintype.card Tid) = Fintype.card Tid := rfl
      rw [hlast] at hcounter
      simp only [State.goto, UInt64.toNat_zero]
      omega
    case results => exact h.results
  · rw [if_neg hlast]
    constructor
    case target => exact h.target
    case owner => exact h.owner.goto (by rw [hheld, Pc.holds])
    case standing => exact h.standing_update hself
    case arrivals =>
      have hsum := tally_update Pc.arrived s.pc t .condWait
      have hsum' := tally_update (Pc.reset (Fintype.card Tid)) s.pc t .condWait
      have hone : Pc.condWait.arrived = 1 := rfl
      have hzero : Pc.condWait.reset (Fintype.card Tid) = 0 := rfl
      simp only [State.goto]
      omega
    case results => exact h.results

/-- At the broadcast every other thread is blocked, or has been woken and waits for the lock. -/
theorem InRound.all_blocked (h : InRound last rounds s) (hpc : s.pc t = .broadcast) :
    s.counter.toNat = 0 ∧
      ∀ u, u ≠ t → s.pc u = .condBlocked ∨ s.pc u = .condRelock false := by
  have hheld : (s.pc t).holds = true := by rw [hpc, Pc.holds]
  have harrivals := h.arrivals
  have hreset := le_tally (Pc.reset (Fintype.card Tid)) s.pc t
  have hall : (s.pc t).reset (Fintype.card Tid) = Fintype.card Tid := by rw [hpc]; rfl
  have hcard := tally_le_card fun u => arrived_le_one (s.pc u)
  constructor
  · omega
  · intro u hu
    have hone := weight_eq_one (fun u => arrived_le_one (s.pc u)) (by omega) u
    have hfree := h.owner.only hheld hu
    cases hplace : s.pc u with
    | condBlocked => exact Or.inl rfl
    | condRelock sent =>
      rw [hplace] at hone
      cases sent with
      | false => exact Or.inr rfl
      | true => cases hone
    | broadcast | condWait =>
      rw [hplace] at hfree
      cases hfree
    | _ =>
      rw [hplace] at hone
      cases hone

/-- Every thread has entered the round and none has returned from it. -/
theorem InRound.all_entered (h : InRound last rounds s) (hpc : s.pc t = .broadcast) (u : Tid) :
    s.entered u = rounds + 1 ∧ (s.results u).length = rounds := by
  have hstanding := h.standing u
  by_cases hut : u = t
  · rw [hut] at hstanding ⊢
    rwa [hpc] at hstanding
  · cases (h.all_blocked hpc).2 u hut with
    | inl hpc' => rwa [hpc'] at hstanding
    | inr hpc' => rwa [hpc'] at hstanding

/-- The broadcast ends the round. -/
theorem InRound.broadcast (h : InRound last rounds s) (hpc : s.pc t = .broadcast) :
    InRound (Function.update last rounds t) (rounds + 1)
      { s with pc := Function.update (fun u => (s.pc u).woken) t .unlockAfterBroadcast } := by
  obtain ⟨hzero, hblocked⟩ := h.all_blocked hpc
  have hwoken : ∀ u, u ≠ t → (s.pc u).woken = .condRelock true := by
    intro u hu
    cases hblocked u hu with
    | inl hpc' => rw [hpc', Pc.woken]
    | inr hpc' => rw [hpc', Pc.woken]
  have hreturned := h.all_entered hpc
  constructor
  case target => exact h.target
  case owner =>
    intro u
    rw [← h.owner u]
    by_cases hut : u = t
    · rw [hut, hpc]
      simp only [Function.update_self]
      exact Iff.rfl
    · simp only [Function.update_of_ne hut, hwoken u hut]
      rw [h.owner.only (by rw [hpc]; rfl) hut]
      exact Iff.rfl
  case standing =>
    intro u
    obtain ⟨hentered, hlength⟩ := hreturned u
    by_cases hut : u = t
    · subst hut
      simp only [Function.update_self]
      exact ⟨hentered, by rw [hlength], by rw [hlength, Function.update_self]⟩
    · simp only [Function.update_of_ne hut, hwoken u hut]
      exact ⟨hentered, by rw [hlength], by rw [hlength, Function.update_self]; exact Ne.symm hut⟩
  case arrivals =>
    have hnone : ∀ weight : Pc → ℕ, weight .unlockAfterBroadcast = 0 →
        weight (.condRelock true) = 0 →
        tally weight (Function.update (fun u => (s.pc u).woken) t .unlockAfterBroadcast) = 0 := by
      intro weight hself hothers
      apply tally_eq_zero
      intro u
      by_cases hut : u = t
      · rw [hut, Function.update_self, hself]
      · simp only [Function.update_of_ne hut, hwoken u hut, hothers]
    rw [hnone Pc.arrived rfl rfl, hnone (Pc.reset _) rfl rfl, hzero]
  case results =>
    intro u
    have hresults := h.results u
    rw [(hreturned u).2] at hresults ⊢
    rw [hresults]
    apply List.map_congr_left
    intro k hk
    rw [Function.update_of_ne (Nat.ne_of_lt (List.mem_range.mp hk))]

/-- A call returns the verdict on its round. -/
theorem InRound.leave (h : InRound last rounds s) (hheld : (s.pc t).holds = true)
    (hpc : (s.pc t).arrived = 0 ∧ (s.pc t).reset (Fintype.card Tid) = 0)
    (hentered : s.entered t = rounds) (hreturned : (s.results t).length + 1 = rounds) :
    InRound last rounds (s.leave t (verdict (last (s.results t).length) t)) := by
  constructor
  case target => exact h.target
  case owner => exact h.owner.unlock hheld rfl
  case standing =>
    intro u
    simp only [State.leave, State.unlock, State.goto]
    by_cases hut : u = t
    · rw [hut, Function.update_self, Function.update_self]
      exact ⟨hentered, by rw [List.length_append, List.length_singleton, hreturned]⟩
    · rw [Function.update_of_ne hut, Function.update_of_ne hut]
      exact h.standing u
  case arrivals =>
    have hsum := tally_update Pc.arrived s.pc t .outside
    have hsum' := tally_update (Pc.reset (Fintype.card Tid)) s.pc t .outside
    have harrivals := h.arrivals
    have hnot : Pc.outside.arrived = 0 := rfl
    have hnone : Pc.outside.reset (Fintype.card Tid) = 0 := rfl
    simp only [State.leave, State.unlock, State.goto]
    omega
  case results =>
    intro u
    simp only [State.leave, State.unlock, State.goto]
    by_cases hut : u = t
    · rw [hut, Function.update_self, List.length_append, List.length_singleton,
        List.range_succ, List.map_append, ← h.results t]
      rfl
    · rw [Function.update_of_ne hut]
      exact h.results u

/-- A thread goes on by itself, not out of a wait whose broadcast is still to come. -/
theorem InRound.exec (h : InRound last rounds s) (hready : s.ready (s.pc t) = true)
    (hawaits : s.pc t ≠ .condRelock false) :
    ∃ last' rounds', InRound last' rounds' (s.exec t) := by
  have hself := h.standing t
  unfold State.exec
  cases hpc : s.pc t with
  | lockForWait =>
    rw [hpc] at hready hself
    have hfree : s.owner = none := Option.isNone_iff_eq_none.mp hready
    exact ⟨last, rounds, h.move ((hfree ▸ h.owner).lock rfl) hself (by rw [hpc]; rfl)
      (by rw [hpc]; rfl)⟩
  | increment => exact ⟨last, rounds, h.arrive hpc⟩
  | broadcast => exact ⟨Function.update last rounds t, rounds + 1, h.broadcast hpc⟩
  | unlockAfterBroadcast =>
    rw [hpc] at hself
    obtain ⟨hentered, hreturned, hlast⟩ := hself
    have hleave := h.leave (by rw [hpc]; rfl) (by rw [hpc]; exact ⟨rfl, rfl⟩) hentered hreturned
    rw [verdict, if_pos hlast] at hleave
    exact ⟨last, rounds, hleave⟩
  | condWait =>
    rw [hpc] at hself
    exact ⟨last, rounds, h.move (h.owner.unlock (by rw [hpc]; rfl) rfl) hself (by rw [hpc]; rfl)
      (by rw [hpc]; rfl)⟩
  | condRelock sent =>
    cases sent with
    | false => exact absurd hpc hawaits
    | true =>
      rw [hpc] at hready hself
      have hfree : s.owner = none := Option.isNone_iff_eq_none.mp hready
      exact ⟨last, rounds, h.move ((hfree ▸ h.owner).lock rfl) hself (by rw [hpc]; rfl)
        (by rw [hpc]; rfl)⟩
  | unlockAfterWait =>
    rw [hpc] at hself
    obtain ⟨hentered, hreturned, hlast⟩ := hself
    have hleave := h.leave (by rw [hpc]; rfl) (by rw [hpc]; exact ⟨rfl, rfl⟩) hentered hreturned
    rw [verdict, if_neg hlast] at hleave
    exact ⟨last, rounds, hleave⟩
  | outside | condBlocked =>
    rw [hpc] at hready
    cases hready

theorem InRound.step (h : InRound last rounds s) {a : Action Tid} (ha : Enabled s a)
    (hawaits : AwaitsBroadcast s a) : ∃ last' rounds', InRound last' rounds' (step s a).1 := by
  cases a with
  | barrierWait t => exact ⟨last, rounds, h.enter ha⟩
  | exec t => exact h.exec ha hawaits
  | wake t =>
    have hpc : s.pc t = .condBlocked := ha
    have hself := h.standing t
    rw [hpc] at hself
    exact ⟨last, rounds, h.move (h.owner.goto (by rw [hpc]; rfl)) hself (by rw [hpc]; rfl)
      (by rw [hpc]; rfl)⟩

end

variable [DecidableEq Tid] [Fintype Tid]

/-- In every run in which `pthread_cond_wait` returns only after the broadcast, as many
threads as the target says are kept in step. -/
theorem barrier_safe (count : UInt32) (hpos : 1 ≤ count.toNat)
    (hcount : Fintype.card Tid = count.toNat) (actions : List (Action Tid))
    (hactions : Machine.Admits step Enabled (init count) actions)
    (hawaits : Machine.Admits step AwaitsBroadcast (init count) actions) :
    Safe (Machine.run step (init count) actions).1 := by
  have hcard : 0 < Fintype.card Tid := by omega
  obtain ⟨first⟩ := Fintype.card_pos_iff.mp hcard
  have hround := Machine.run_invariant
    (fun s : State Tid => ∃ last rounds, InRound last rounds s)
    (fun s a h ha => by
      obtain ⟨last, rounds, hround⟩ := h
      exact hround.step ha.1 ha.2)
    ⟨fun _ => first, 0, inRound_init _ hcount.symm⟩ (hactions.and hawaits)
  obtain ⟨last, rounds, hlast⟩ := hround
  exact hlast.safe

/-- Two threads go through one round and enter the next; a wake-up that nobody sent comes
before the broadcast and has no effect. -/
theorem barrier_safe_sample :
    Safe (Machine.run step (init 2)
      ([.barrierWait 0, .exec 0, .exec 0, .exec 0, .wake 0, .barrierWait 1, .exec 1, .exec 1,
        .exec 1, .exec 1, .exec 0, .exec 0, .barrierWait 1, .exec 1, .exec 1, .exec 1] :
        List (Action (Fin 2)))).1 :=
  barrier_safe 2 (by decide) (by decide) _ (by decide +kernel) (by decide +kernel)

/-- One of two threads blocks, wakes up without a broadcast and returns from its first call,
which the other has not entered. -/
theorem barrier_returns_early :
    Machine.Admits step Enabled (init 2)
        ([.barrierWait 0, .exec 0, .exec 0, .exec 0, .wake 0, .exec 0, .exec 0] :
          List (Action (Fin 2))) ∧
      ¬ Safe (Machine.run step (init 2)
        ([.barrierWait 0, .exec 0, .exec 0, .exec 0, .wake 0, .exec 0, .exec 0] :
          List (Action (Fin 2)))).1 := by
  constructor
  · decide +kernel
  · intro hsafe
    have hearly := hsafe.1 0 1
    revert hearly
    decide +kernel

end InterviewQuestions.Barrier
