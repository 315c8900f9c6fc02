import Mathlib.Logic.Basic
import Mathlib.Order.Nat

/-! Deterministic machines that read one input and give one output at a time.
What one step keeps, a whole run keeps. -/
namespace InterviewQuestions.Library.Machine

variable {σ τ ι ω : Type*}

/-- The last state of a run and the outputs in order. -/
def run (step : σ → ι → σ × ω) : σ → List ι → σ × List ω
  | s, [] => (s, [])
  | s, x :: xs =>
      let next := step s x
      let rest := run step next.1 xs
      (rest.1, next.2 :: rest.2)

/-- Every input of the list is allowed in the state that meets it. -/
def Admits (step : σ → ι → σ × ω) (ok : σ → ι → Prop) : σ → List ι → Prop
  | _, [] => True
  | s, x :: xs => ok s x ∧ Admits step ok (step s x).1 xs

instance decidableAdmits (step : σ → ι → σ × ω) (ok : σ → ι → Prop)
    [∀ s x, Decidable (ok s x)] : ∀ s xs, Decidable (Admits step ok s xs)
  | _, [] => isTrue trivial
  | s, x :: xs =>
      haveI := decidableAdmits step ok (step s x).1 xs
      inferInstanceAs (Decidable (ok s x ∧ Admits step ok (step s x).1 xs))

variable {step : σ → ι → σ × ω} {ok ok' : σ → ι → Prop}

@[simp] theorem run_nil (s : σ) : run step s [] = (s, []) := rfl

@[simp] theorem run_cons (s : σ) (x : ι) (xs : List ι) :
    run step s (x :: xs) =
      ((run step (step s x).1 xs).1, (step s x).2 :: (run step (step s x).1 xs).2) := rfl

theorem Admits.and : ∀ {s : σ} {xs : List ι}, Admits step ok s xs → Admits step ok' s xs →
    Admits step (fun s x => ok s x ∧ ok' s x) s xs
  | _, [], _, _ => trivial
  | _, _ :: _, h, h' => ⟨⟨h.1, h'.1⟩, h.2.and h'.2⟩

/-- A machine that allows every input in every state. -/
theorem admits_always : ∀ {s : σ} (xs : List ι), Admits step (fun _ _ => True) s xs
  | _, [] => trivial
  | _, _ :: xs => ⟨trivial, admits_always xs⟩

theorem Admits.of_append : ∀ {s : σ} {xs ys : List ι}, Admits step ok s (xs ++ ys) →
    Admits step ok s xs
  | _, [], _, _ => trivial
  | _, _ :: _, _, h => ⟨h.1, Admits.of_append h.2⟩

theorem Admits.append : ∀ {s : σ} {xs ys : List ι}, Admits step ok s xs →
    Admits step ok (run step s xs).1 ys → Admits step ok s (xs ++ ys)
  | _, [], _, _, h => h
  | _, _ :: _, _, hxs, h => ⟨hxs.1, hxs.2.append h⟩

theorem run_append_fst (s : σ) (xs ys : List ι) :
    (run step s (xs ++ ys)).1 = (run step (run step s xs).1 ys).1 := by
  induction xs generalizing s with
  | nil => rfl
  | cons x xs ih => exact ih (step s x).1

/-- `Admits` by the prefixes of the run. -/
theorem admits_iff {s : σ} {xs : List ι} : Admits step ok s xs ↔
    ∀ before x after, xs = before ++ x :: after → ok (run step s before).1 x := by
  induction xs generalizing s with
  | nil => exact iff_of_true trivial fun before x after h => by simp at h
  | cons y ys ih =>
    rw [Admits, ih]
    constructor
    · intro h before x after hsplit
      cases before with
      | nil =>
        cases hsplit
        exact h.1
      | cons z before =>
        cases hsplit
        exact h.2 before x after rfl
    · intro h
      exact ⟨h [] y ys rfl, fun before x after hsplit =>
        h (y :: before) x after (by rw [hsplit]; rfl)⟩

/-- A counter that grows by at most one a step stays below a bound the run's length respects. -/
theorem admits_of_length (count : σ → Nat) (bound : Nat)
    (hstep : ∀ s x, count s + 1 < bound → count (step s x).1 ≤ count s + 1) :
    ∀ {s : σ} {xs : List ι}, count s + xs.length < bound →
      Admits step (fun s _ => count s + 1 < bound) s xs
  | _, [], _ => trivial
  | s, x :: xs, h => by
      simp only [List.length_cons] at h
      have hs : count s + 1 < bound := by omega
      have hnext := hstep s x hs
      exact ⟨hs, admits_of_length count bound hstep (by omega)⟩

theorem run_invariant (inv : σ → Prop) (hstep : ∀ s x, inv s → ok s x → inv (step s x).1)
    {s : σ} {xs : List ι} (hs : inv s) (h : Admits step ok s xs) : inv (run step s xs).1 := by
  induction xs generalizing s with
  | nil => exact hs
  | cons x xs ih => exact ih (hstep s x hs h.1) h.2

/-- Where each step lowers a measure, no run is longer than the measure of its first state. -/
theorem length_add_measure_le (inv : σ → Prop) (measure : σ → Nat)
    (hstep : ∀ s x, inv s → ok s x → inv (step s x).1)
    (hless : ∀ s x, inv s → ok s x → measure (step s x).1 < measure s) {s : σ} {xs : List ι}
    (hs : inv s) (h : Admits step ok s xs) :
    xs.length + measure (run step s xs).1 ≤ measure s := by
  induction xs generalizing s with
  | nil => exact Nat.le_of_eq (Nat.zero_add _)
  | cons x xs ih =>
    have hrest := ih (hstep s x hs h.1) h.2
    have hfirst := hless s x hs h.1
    show xs.length + 1 + measure (run step (step s x).1 xs).1 ≤ measure s
    omega

/-- Where each step lowers a measure and some step is allowed before the end, every state can
reach an end. -/
theorem exists_completion (inv final : σ → Prop) (measure : σ → Nat)
    (hstep : ∀ s x, inv s → ok s x → inv (step s x).1)
    (hless : ∀ s x, inv s → ok s x → measure (step s x).1 < measure s)
    (hprogress : ∀ s, inv s → ¬ final s → ∃ x, ok s x) {s : σ} (hs : inv s) :
    ∃ xs, Admits step ok s xs ∧ final (run step s xs).1 := by
  by_cases hfinal : final s
  · exact ⟨[], trivial, hfinal⟩
  · obtain ⟨x, hx⟩ := hprogress s hs hfinal
    obtain ⟨xs, hadmits, hlast⟩ :=
      exists_completion inv final measure hstep hless hprogress (hstep s x hs hx)
    exact ⟨x :: xs, ⟨hx, hadmits⟩, hlast⟩
termination_by measure s
decreasing_by exact hless s x hs hx

/-- What an invariant grants in each state, it grants all along a run. -/
theorem Admits.of_invariant (inv : σ → Prop) (hstep : ∀ s x, inv s → ok s x → inv (step s x).1)
    (hgrant : ∀ s x, inv s → ok s x → ok' s x) {s : σ} {xs : List ι} (hs : inv s)
    (h : Admits step ok s xs) : Admits step ok' s xs := by
  induction xs generalizing s with
  | nil => trivial
  | cons x xs ih => exact ⟨hgrant s x hs h.1, ih (hstep s x hs h.1) h.2⟩

/-- An invariant whose budget one step uses up by one. -/
theorem run_budget (inv : Nat → σ → Prop)
    (hstep : ∀ n s x, inv (n + 1) s → ok s x → inv n (step s x).1) {n : Nat} {s : σ} {xs : List ι}
    (hs : inv (n + xs.length) s) (h : Admits step ok s xs) : inv n (run step s xs).1 := by
  induction xs generalizing s with
  | nil => exact hs
  | cons x xs ih => exact ih (hstep (n + xs.length) s x hs h.1) h.2

/-- A relation kept by every pair of steps with equal outputs makes the runs' outputs equal. -/
theorem run_simulates {step' : τ → ι → τ × ω} (rel : σ → τ → Prop)
    (hstep : ∀ s t x, rel s t → ok s x →
      rel (step s x).1 (step' t x).1 ∧ (step s x).2 = (step' t x).2) :
    ∀ {s : σ} {t : τ} {xs : List ι}, rel s t → Admits step ok s xs →
      rel (run step s xs).1 (run step' t xs).1 ∧ (run step s xs).2 = (run step' t xs).2
  | _, _, [], hst, _ => ⟨hst, rfl⟩
  | s, t, x :: xs, hst, h => by
      obtain ⟨hnext, hout⟩ := hstep s t x hst h.1
      obtain ⟨hlast, houts⟩ := run_simulates rel hstep hnext h.2
      exact ⟨hlast, by rw [run_cons, run_cons, hout, houts]⟩

/-- Where each step that is allowed keeps an invariant, and every other one leaves a state
that is not good, the states of a run are good exactly as long as its steps are allowed. -/
theorem forall_good_iff (inv good : σ → Prop) (hgood : ∀ s, inv s → good s)
    (hstep : ∀ s x, inv s → ok s x →
      ok' s x ∧ inv (step s x).1 ∨ ¬ ok' s x ∧ ¬ good (step s x).1) :
    ∀ {s : σ} {xs : List ι}, inv s → Admits step ok s xs →
      ((∀ done later, xs = done ++ later → good (run step s done).1) ↔ Admits step ok' s xs)
  | s, [], hs, _ => by
      apply iff_of_true _ trivial
      intro done later hsplit
      obtain ⟨rfl, _⟩ := List.nil_eq_append_iff.mp hsplit
      exact hgood s hs
  | s, x :: xs, hs, h => by
      rcases hstep s x hs h.1 with ⟨hallowed, hnext⟩ | ⟨hnot, hbad⟩
      · have ih := forall_good_iff inv good hgood hstep hnext h.2
        rw [Admits, and_iff_right hallowed, ← ih]
        constructor
        · intro hall done later hsplit
          exact hall (x :: done) later (by rw [hsplit]; rfl)
        · intro hall done later hsplit
          cases done with
          | nil => exact hgood s hs
          | cons y done =>
            cases hsplit
            exact hall done later rfl
      · apply iff_of_false
        · exact fun hall => hbad (hall [x] xs rfl)
        · exact fun hadmits => hnot hadmits.1

/-- The inputs and outputs lead from one state of a specification to another. -/
def Follows (spec : τ → ι → ω → τ → Prop) : τ → List ι → List ω → τ → Prop
  | t, [], [], t' => t' = t
  | t, x :: xs, y :: ys, t' => ∃ mid, spec t x y mid ∧ Follows spec mid xs ys t'
  | _, _, _, _ => False

/-- Where each step meets its specification exactly on the good inputs, a run follows the
specification exactly when all its inputs are good. -/
theorem run_follows_iff {spec : τ → ι → ω → τ → Prop} {good : σ → ι → Prop} (abs : σ → τ)
    (hstep : ∀ s x t, ok s x →
      (spec (abs s) x (step s x).2 t ↔ good s x ∧ t = abs (step s x).1)) :
    ∀ {s : σ} {xs : List ι} {t : τ}, Admits step ok s xs →
      (Follows spec (abs s) xs (run step s xs).2 t ↔
        Admits step good s xs ∧ t = abs (run step s xs).1)
  | _, [], _, _ => (iff_of_eq (true_and _)).symm
  | s, x :: xs, t, h => by
      rw [run_cons, Follows, Admits, and_assoc, ← run_follows_iff abs hstep h.2]
      constructor
      · rintro ⟨mid, hspec, hrest⟩
        obtain ⟨hgood, rfl⟩ := (hstep s x mid h.1).mp hspec
        exact ⟨hgood, hrest⟩
      · rintro ⟨hgood, hrest⟩
        exact ⟨_, (hstep s x _ h.1).mpr ⟨hgood, rfl⟩, hrest⟩

/-! ## Machines that may fail -/

/-- The run of a machine that goes no further where a step has no result. -/
def tryRun (step : σ → ι → Option (σ × ω)) : σ → List ι → Option (σ × List ω)
  | s, [] => some (s, [])
  | s, x :: xs =>
      (step s x).bind fun next => (tryRun step next.1 xs).map fun rest =>
        (rest.1, next.2 :: rest.2)

/-- A relation kept by every pair of steps, of which one has a result if the other has and the same
output, is kept by the runs. -/
theorem tryRun_simulates {step : σ → ι → Option (σ × ω)} {step' : τ → ι → Option (τ × ω)}
    {post : σ → τ → Prop} (rel : σ → τ → Prop) (hpost : ∀ s t, rel s t → post s t)
    (hstep : ∀ s t x, rel s t →
      Option.Rel (fun next next' => next.2 = next'.2 ∧ rel next.1 next'.1) (step s x) (step' t x))
    {s : σ} {t : τ} (hst : rel s t) (xs : List ι) :
    Option.Rel (fun last last' => last.2 = last'.2 ∧ post last.1 last'.1) (tryRun step s xs)
      (tryRun step' t xs) := by
  induction xs generalizing s t with
  | nil => exact .some ⟨rfl, hpost s t hst⟩
  | cons x xs ih =>
    have hpair := hstep s t x hst
    rw [tryRun, tryRun]
    generalize step s x = next at hpair
    generalize step' t x = next' at hpair
    cases hpair with
    | none => exact .none
    | some hnext =>
      rw [Option.bind_some, Option.bind_some]
      have hrest := ih hnext.2
      generalize tryRun step _ xs = last at hrest
      generalize tryRun step' _ xs = last' at hrest
      cases hrest with
      | none => exact .none
      | some hlast => exact .some ⟨congrArg₂ List.cons hnext.1 hlast.1, hlast.2⟩

end InterviewQuestions.Library.Machine

/-! Stores by the operations that wrote to them: a key has what was last written to it. -/
namespace InterviewQuestions.Library.Journal

open Machine

variable {σ ι ω K V : Type*}

/-- What the last of the operations that wrote to the key has left there. -/
def latest (writes : K → ι → Option V) (start : V) (key : K) (history : List ι) : V :=
  ((history.filterMap (writes key)).getLast?).getD start

variable {step : σ → ι → σ × ω} {writes : K → ι → Option V} {lookup : K → σ → V}

theorem latest_cons (start : V) (key : K) (x : ι) (history : List ι) :
    latest writes start key (x :: history) =
      latest writes ((writes key x).getD start) key history := by
  unfold latest
  cases hx : writes key x with
  | none => rw [List.filterMap_cons_none hx, Option.getD_none]
  | some value =>
    rw [List.filterMap_cons_some hx, List.getLast?_cons, Option.getD_some, Option.getD_some]

/-- Where each step leaves what it writes and nothing else, so does a run. -/
theorem lookup_run (inv : σ → Prop) (hinv : ∀ s x, inv s → inv (step s x).1)
    (hstep : ∀ s x key, inv s → lookup key (step s x).1 = (writes key x).getD (lookup key s))
    {s : σ} (hs : inv s) (history : List ι) (key : K) :
    lookup key (run step s history).1 = latest writes (lookup key s) key history := by
  induction history generalizing s with
  | nil => rfl
  | cons x history ih => rw [run_cons, ih (hinv s x hs), hstep s x key hs, latest_cons]

end InterviewQuestions.Library.Journal
