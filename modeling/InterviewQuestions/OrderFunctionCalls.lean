import InterviewQuestions.Library.Machine
import Mathlib.Logic.Function.Basic
import Mathlib.Order.Nat
import Mathlib.Tactic.Common

/-! The class `Foo` of `threads/order_function_calls/solution.cpp`, for any number of threads and
calls. A step is a semaphore operation or the output of one thread. -/
namespace InterviewQuestions.OrderFunctionCalls

open Library

inductive Method where
  | first
  | second
  | third
deriving DecidableEq

/-- What a thread is about to do. -/
inductive Pc where
  | outside
  | printFirst
  | postFromFirst
  | waitFirst
  | printSecond
  | repostFirst
  | postFromSecond
  | waitSecond
  | printThird
  | repostSecond
deriving DecidableEq

/-- The two semaphores of `Foo`, the threads, the calls so far and what they have printed, by thread. -/
structure State (Tid : Type*) where
  semaphores : Fin 2 → ℕ
  pc : Tid → Pc
  called : List (Tid × Method)
  printed : List (Tid × Method)

variable {Tid : Type*}

/-- After the constructor, which has initialized each semaphore with 1 and waited for it. -/
def init : State Tid where
  semaphores _ := 1 - 1
  pc _ := .outside
  called := []
  printed := []

variable [DecidableEq Tid]

namespace State

def goto (s : State Tid) (t : Tid) (p : Pc) : State Tid :=
  { s with pc := Function.update s.pc t p }

def semPost (s : State Tid) (t : Tid) (i : Fin 2) (p : Pc) : State Tid :=
  { s.goto t p with semaphores := Function.update s.semaphores i (s.semaphores i + 1) }

def semWait (s : State Tid) (t : Tid) (i : Fin 2) (p : Pc) : State Tid :=
  { s.goto t p with semaphores := Function.update s.semaphores i (s.semaphores i - 1) }

def print (s : State Tid) (t : Tid) (m : Method) (p : Pc) : State Tid :=
  { s.goto t p with printed := s.printed ++ [(t, m)] }

/-- The next statement of a thread. -/
def exec (s : State Tid) (t : Tid) : State Tid :=
  match s.pc t with
  -- `first`
  | .printFirst => s.print t .first .postFromFirst
  | .postFromFirst => s.semPost t 0 .outside
  -- `second`
  | .waitFirst => s.semWait t 0 .printSecond
  | .printSecond => s.print t .second .repostFirst
  | .repostFirst => s.semPost t 0 .postFromSecond
  | .postFromSecond => s.semPost t 1 .outside
  -- `third`
  | .waitSecond => s.semWait t 1 .printThird
  | .printThird => s.print t .third .repostSecond
  | .repostSecond => s.semPost t 1 .outside
  | .outside => s

/-- Where a call begins. -/
def entry : Method → Pc
  | .first => .printFirst
  | .second => .waitFirst
  | .third => .waitSecond

end State

inductive Action (Tid : Type*) where
  | call (t : Tid) (m : Method)
  | exec (t : Tid)

def step (s : State Tid) : Action Tid → State Tid × Unit
  | .call t m => ({ s.goto t (State.entry m) with called := s.called ++ [(t, m)] }, ())
  | .exec t => (s.exec t, ())

/-- The semaphore that a thread is about to wait for. -/
def Pc.waits : Pc → Option (Fin 2)
  | .waitFirst => some 0
  | .waitSecond => some 1
  | _ => none

def Enabled (s : State Tid) : Action Tid → Prop
  | .call t _ => s.pc t = .outside
  | .exec t => s.pc t ≠ .outside ∧ ∀ i, (s.pc t).waits = some i → 0 < s.semaphores i

instance decidableEnabled (s : State Tid) : ∀ a, Decidable (Enabled s a)
  | .call t _ => inferInstanceAs (Decidable (s.pc t = .outside))
  | .exec t => inferInstanceAs (Decidable
      (s.pc t ≠ .outside ∧ ∀ i, (s.pc t).waits = some i → 0 < s.semaphores i))

/-! ## What the semaphores stand for -/

/-- The method whose output opens a semaphore. -/
def opener : Fin 2 → Method
  | 0 => .first
  | 1 => .second

/-- The places from which a thread posts a semaphore without waiting for it. -/
def Pc.carries : Fin 2 → Pc → Bool
  | 0, .postFromFirst | 0, .printSecond | 0, .repostFirst => true
  | 1, .repostFirst | 1, .postFromSecond | 1, .printThird | 1, .repostSecond => true
  | _, _ => false

@[simp] theorem carries_outside (i : Fin 2) : Pc.outside.carries i = false := by
  revert i
  decide

theorem Pc.carries_goes_on {i : Fin 2} {p : Pc} (h : p.carries i = true) : p.waits = none := by
  revert i
  cases p <;> decide

/-- What a thread has not printed yet. -/
def Pc.pending : Pc → List Method
  | .printFirst => [.first]
  | .waitFirst | .printSecond => [.second]
  | .waitSecond | .printThird => [.third]
  | _ => []

/-- The method that has to come before. -/
def Method.needs : Method → Option Method
  | .first => none
  | .second => some .first
  | .third => some .second

omit [DecidableEq Tid] in
/-- Each output comes after one of the method that has to come before. -/
def InOrder (printed : List (Tid × Method)) : Prop :=
  ∀ before t m after, printed = before ++ (t, m) :: after →
    ∀ k, m.needs = some k → k ∈ before.map Prod.snd

omit [DecidableEq Tid] in
theorem InOrder.append {printed : List (Tid × Method)} (h : InOrder printed) {t : Tid} {m : Method}
    (hm : ∀ k, m.needs = some k → k ∈ printed.map Prod.snd) : InOrder (printed ++ [(t, m)]) := by
  intro before u n after hsplit k hk
  rcases List.eq_nil_or_concat after with rfl | ⟨front, last, rfl⟩
  · obtain ⟨rfl, hlast⟩ := List.append_inj' hsplit rfl
    cases hlast
    exact hm k hk
  · rw [List.concat_eq_append, ← List.cons_append, ← List.append_assoc] at hsplit
    exact h before u n front (List.append_inj' hsplit rfl).1 k hk

structure Coordinated (s : State Tid) : Prop where
  token : ∀ i, opener i ∈ s.printed.map Prod.snd ↔
    0 < s.semaphores i ∨ ∃ t, (s.pc t).carries i = true
  order : InOrder s.printed
  history : ∀ t, (s.called.filter fun call => call.1 = t) =
    (s.printed.filter fun call => call.1 = t) ++ (s.pc t).pending.map fun m => (t, m)

theorem coordinated_init : Coordinated (init : State Tid) where
  token i := by simp [init, carries_outside]
  order before t m after h := by simp [init] at h
  history t := rfl

variable {s : State Tid} {t : Tid} {p : Pc}

theorem exists_carries_update (pc : Tid → Pc) (t : Tid) (p : Pc) (i : Fin 2) :
    (∃ u, (Function.update pc t p u).carries i = true) ↔
      p.carries i = true ∨ ∃ u, u ≠ t ∧ (pc u).carries i = true := by
  constructor
  · rintro ⟨u, hu⟩
    by_cases hut : u = t
    · rw [hut, Function.update_self] at hu
      exact Or.inl hu
    · rw [Function.update_of_ne hut] at hu
      exact Or.inr ⟨u, hut, hu⟩
  · rintro (hp | ⟨u, hut, hu⟩)
    · exact ⟨t, by rwa [Function.update_self]⟩
    · exact ⟨u, by rwa [Function.update_of_ne hut]⟩

theorem exists_carries (pc : Tid → Pc) (t : Tid) (i : Fin 2) :
    (∃ u, (pc u).carries i = true) ↔
      (pc t).carries i = true ∨ ∃ u, u ≠ t ∧ (pc u).carries i = true := by
  have hself := exists_carries_update pc t (pc t) i
  rwa [Function.update_eq_self] at hself

theorem Coordinated.history_update (h : Coordinated s) (hp : p.pending = (s.pc t).pending)
    (u : Tid) : (s.called.filter fun call => call.1 = u) =
      (s.printed.filter fun call => call.1 = u) ++
        (Function.update s.pc t p u).pending.map fun m => (u, m) := by
  by_cases hu : u = t
  · rw [hu, Function.update_self, hp]
    exact h.history t
  · rw [Function.update_of_ne hu]
    exact h.history u

/-! ## Steps -/

theorem Coordinated.print (h : Coordinated s) {m : Method} (hpending : (s.pc t).pending = [m])
    (hdone : p.pending = [])
    (hcarries : ∀ i, p.carries i = ((s.pc t).carries i || opener i = m))
    (hneeds : ∀ k, m.needs = some k → k ∈ s.printed.map Prod.snd) :
    Coordinated (s.print t m p) := by
  constructor
  case token =>
    intro i
    have htoken := h.token i
    rw [exists_carries s.pc t i] at htoken
    simp only [State.print, State.goto]
    rw [exists_carries_update, hcarries, List.map_append, List.mem_append, htoken]
    simp only [List.map_cons, List.map_nil, List.mem_singleton, Bool.or_eq_true, decide_eq_true_eq]
    rw [or_assoc, or_assoc, or_assoc, or_comm (b := opener i = m)]
  case order => exact h.order.append hneeds
  case history =>
    intro u
    by_cases hu : u = t
    · have hself := h.history t
      rw [hpending] at hself
      simp [State.print, State.goto, hu, hself, hdone]
    · simp only [State.print, State.goto, Function.update_of_ne hu]
      rw [h.history u]
      simp [Ne.symm hu]

theorem Coordinated.semPost (h : Coordinated s) {i : Fin 2} (hpending : p.pending = (s.pc t).pending)
    (hposts : (s.pc t).carries i = true)
    (hcarries : ∀ j, j ≠ i → p.carries j = (s.pc t).carries j) :
    Coordinated (s.semPost t i p) := by
  constructor
  case token =>
    intro j
    have htoken := h.token j
    simp only [State.semPost, State.goto]
    by_cases hj : j = i
    · subst hj
      rw [htoken]
      simp only [Function.update_self]
      exact iff_of_true (Or.inr ⟨t, hposts⟩) (Or.inl (Nat.succ_pos _))
    · rw [Function.update_of_ne hj, exists_carries_update, hcarries j hj, ← exists_carries]
      exact htoken
  case order => exact h.order
  case history => exact h.history_update hpending

theorem Coordinated.semWait (h : Coordinated s) {i : Fin 2} (hpending : p.pending = (s.pc t).pending)
    (hopen : 0 < s.semaphores i) (htakes : p.carries i = true)
    (hcarries : ∀ j, j ≠ i → p.carries j = (s.pc t).carries j) :
    Coordinated (s.semWait t i p) := by
  constructor
  case token =>
    intro j
    have htoken := h.token j
    simp only [State.semWait, State.goto]
    by_cases hj : j = i
    · subst hj
      rw [htoken, exists_carries_update]
      exact iff_of_true (Or.inl hopen) (Or.inr (Or.inl htakes))
    · rw [Function.update_of_ne hj, exists_carries_update, hcarries j hj, ← exists_carries]
      exact htoken
  case order => exact h.order
  case history => exact h.history_update hpending

theorem Coordinated.call (h : Coordinated s) (hpc : s.pc t = .outside) (m : Method) :
    Coordinated (step s (.call t m)).1 := by
  constructor
  case token =>
    intro i
    have htoken := h.token i
    rw [exists_carries s.pc t i, hpc] at htoken
    have hentry : (State.entry m).carries i = Pc.outside.carries i := by
      rw [carries_outside]
      clear htoken
      revert i
      cases m <;> decide
    simp only [step, State.goto]
    rw [exists_carries_update, hentry]
    exact htoken
  case order => exact h.order
  case history =>
    intro u
    by_cases hu : u = t
    · have hself := h.history t
      rw [hpc] at hself
      cases m <;> simp [step, State.goto, hu, hself, Pc.pending, State.entry]
    · simp only [step, State.goto, Function.update_of_ne hu]
      rw [← h.history u]
      simp [Ne.symm hu]

theorem Coordinated.opened (h : Coordinated s) {i : Fin 2} (hcarries : (s.pc t).carries i = true) :
    opener i ∈ s.printed.map Prod.snd := (h.token i).mpr (Or.inr ⟨t, hcarries⟩)

theorem Coordinated.exec (h : Coordinated s) (ht : Enabled s (.exec t)) :
    Coordinated (s.exec t) := by
  obtain ⟨hinside, hwaits⟩ := ht
  unfold State.exec
  cases hpc : s.pc t with
  | outside => exact absurd hpc hinside
  | printFirst =>
    exact h.print (by rw [hpc]; rfl) rfl (by rw [hpc]; decide) (fun k hk => by cases hk)
  | postFromFirst =>
    exact h.semPost (by rw [hpc]; rfl) (by rw [hpc]; rfl) (by rw [hpc]; decide)
  | waitFirst =>
    exact h.semWait (by rw [hpc]; rfl) (hwaits 0 (by rw [hpc]; rfl)) rfl (by rw [hpc]; decide)
  | printSecond =>
    refine h.print (by rw [hpc]; rfl) rfl (by rw [hpc]; decide) (fun k hk => ?_)
    rw [← Option.some.inj hk]
    exact h.opened (i := 0) (by rw [hpc]; rfl)
  | repostFirst =>
    exact h.semPost (by rw [hpc]; rfl) (by rw [hpc]; rfl) (by rw [hpc]; decide)
  | postFromSecond =>
    exact h.semPost (by rw [hpc]; rfl) (by rw [hpc]; rfl) (by rw [hpc]; decide)
  | waitSecond =>
    exact h.semWait (by rw [hpc]; rfl) (hwaits 1 (by rw [hpc]; rfl)) rfl (by rw [hpc]; decide)
  | printThird =>
    refine h.print (by rw [hpc]; rfl) rfl (by rw [hpc]; decide) (fun k hk => ?_)
    rw [← Option.some.inj hk]
    exact h.opened (i := 1) (by rw [hpc]; rfl)
  | repostSecond =>
    exact h.semPost (by rw [hpc]; rfl) (by rw [hpc]; rfl) (by rw [hpc]; decide)

theorem Coordinated.step (h : Coordinated s) {a : Action Tid} (ha : Enabled s a) :
    Coordinated (step s a).1 := by
  cases a with
  | call t m => exact h.call ha m
  | exec t => exact h.exec ha

/-! ## Runs -/

/-- A thread that cannot go on is outside or waits for a semaphore that nobody will post. -/
theorem Coordinated.stuck (h : Coordinated s) (hstuck : ∀ t, ¬ Enabled s (.exec t)) {i : Fin 2}
    (hopener : opener i ∈ s.printed.map Prod.snd) : (s.pc t).waits ≠ some i := by
  intro hwaits
  rcases (h.token i).mp hopener with hopen | ⟨u, hu⟩
  · refine hstuck t ⟨fun hout => ?_, fun j hj => ?_⟩
    · rw [hout] at hwaits
      cases hwaits
    · rw [hwaits] at hj
      rwa [← Option.some.inj hj]
  · refine hstuck u ⟨fun hout => ?_, fun j hj => ?_⟩
    · rw [hout, carries_outside] at hu
      cases hu
    · rw [Pc.carries_goes_on hu] at hj
      cases hj

/-- A method that has been called has printed, or is about to, or waits. -/
theorem Coordinated.printed_or_pending (h : Coordinated s) {m : Method}
    (hcalled : m ∈ s.called.map Prod.snd) :
    m ∈ s.printed.map Prod.snd ∨ ∃ t, m ∈ (s.pc t).pending := by
  obtain ⟨⟨t, m'⟩, hmem, rfl⟩ := List.mem_map.mp hcalled
  have hfilter : (t, m') ∈ s.called.filter fun call => call.1 = t :=
    List.mem_filter.mpr ⟨hmem, decide_eq_true rfl⟩
  rw [h.history t, List.mem_append] at hfilter
  rcases hfilter with hprinted | hpending
  · exact Or.inl (List.mem_map.mpr ⟨_, (List.mem_filter.mp hprinted).1, rfl⟩)
  · obtain ⟨m, hm, heq⟩ := List.mem_map.mp hpending
    cases heq
    exact Or.inr ⟨t, hm⟩

/-- No `second` without a `first` before it and no `third` without a `second`. When no thread can
go on: nobody waits in `second` if `first` has been called, and if `second` has been called too,
all calls have finished and each thread has printed what it has called. -/
def Safe (s : State Tid) : Prop :=
  InOrder s.printed ∧
    ((∀ t, ¬ Enabled s (.exec t)) → Method.first ∈ s.called.map Prod.snd →
      (∀ t, s.pc t ≠ .waitFirst) ∧
      (Method.second ∈ s.called.map Prod.snd → ∀ t, s.pc t = .outside ∧
        (s.printed.filter fun call => call.1 = t) = s.called.filter fun call => call.1 = t))

theorem Coordinated.safe (h : Coordinated s) : Safe s := by
  refine ⟨h.order, fun hstuck hfirst => ?_⟩
  -- a thread that is inside and waits for nothing could go on
  have hwaits : ∀ t, s.pc t ≠ .outside → s.pc t = .waitFirst ∨ s.pc t = .waitSecond := by
    intro t hinside
    by_contra hnot
    refine hstuck t ⟨hinside, fun j hj => ?_⟩
    cases hpc : s.pc t with
    | waitFirst => exact absurd (Or.inl hpc) hnot
    | waitSecond => exact absurd (Or.inr hpc) hnot
    | _ =>
      rw [hpc] at hj
      cases hj
  have hopened : opener 0 ∈ s.printed.map Prod.snd := by
    rcases h.printed_or_pending hfirst with hprinted | ⟨t, ht⟩
    · exact hprinted
    · have hinside : s.pc t ≠ .outside := fun hout => by simp [hout, Pc.pending] at ht
      rcases hwaits t hinside with hpc | hpc
      · simp [hpc, Pc.pending] at ht
      · simp [hpc, Pc.pending] at ht
  have hnoWait : ∀ t, s.pc t ≠ .waitFirst := fun t hpc =>
    h.stuck (t := t) hstuck hopened (by rw [hpc]; rfl)
  refine ⟨hnoWait, fun hsecond => ?_⟩
  have hopened' : opener 1 ∈ s.printed.map Prod.snd := by
    rcases h.printed_or_pending hsecond with hprinted | ⟨t, ht⟩
    · exact hprinted
    · have hinside : s.pc t ≠ .outside := fun hout => by simp [hout, Pc.pending] at ht
      rcases hwaits t hinside with hpc | hpc
      · exact absurd hpc (hnoWait t)
      · simp [hpc, Pc.pending] at ht
  intro t
  have hout : s.pc t = .outside := by
    by_contra hinside
    rcases hwaits t hinside with hpc | hpc
    · exact hnoWait t hpc
    · exact h.stuck (t := t) hstuck hopened' (by rw [hpc]; rfl)
  refine ⟨hout, ?_⟩
  rw [h.history t, hout]
  exact (List.append_nil _).symm

theorem methods_in_order (actions : List (Action Tid))
    (hactions : Machine.Admits step Enabled init actions) :
    Safe (Machine.run step init actions).1 :=
  (Machine.run_invariant Coordinated (fun _ _ h ha => h.step ha) coordinated_init hactions).safe

/-- The threads of `main`, called in the opposite order. -/
theorem methods_in_order_sample :
    Safe (Machine.run step init ([.call 2 .third, .call 1 .second, .call 0 .first, .exec 0, .exec 0,
      .exec 1, .exec 1, .exec 1, .exec 1, .exec 2, .exec 2, .exec 2] : List (Action (Fin 3)))).1 :=
  methods_in_order _ (by decide)

end InterviewQuestions.OrderFunctionCalls
