import Mathlib.Logic.Basic

/-! Computations that record what they do, and that may stop before their end. -/
namespace InterviewQuestions.Library

/-- What has been done, in order, and the value or what stopped it. -/
structure Recording (ι ε α : Type) where
  log : List ι
  out : Except ε α

namespace Recording

variable {ι ε α β : Type}

instance : Monad (Recording ι ε) where
  pure x := ⟨[], .ok x⟩
  bind m f :=
    match m.out with
    | .ok x => ⟨m.log ++ (f x).log, (f x).out⟩
    | .error e => ⟨m.log, .error e⟩

def note (i : ι) : Recording ι ε Unit := ⟨[i], .ok ()⟩

def stop (e : ε) : Recording ι ε α := ⟨[], .error e⟩

theorem bind_ok {m : Recording ι ε α} {x : α} (h : m.out = .ok x) (f : α → Recording ι ε β) :
    m >>= f = ⟨m.log ++ (f x).log, (f x).out⟩ := by
  change (match m.out with
    | .ok x => ⟨m.log ++ (f x).log, (f x).out⟩
    | .error e => ⟨m.log, .error e⟩ : Recording ι ε β) = _
  rw [h]

theorem bind_error {m : Recording ι ε α} {e : ε} (h : m.out = .error e)
    (f : α → Recording ι ε β) : m >>= f = ⟨m.log, .error e⟩ := by
  change (match m.out with
    | .ok x => ⟨m.log ++ (f x).log, (f x).out⟩
    | .error e => ⟨m.log, .error e⟩ : Recording ι ε β) = _
  rw [h]

theorem mem_log_bind {m : Recording ι ε α} {i : ι} (h : i ∈ m.log) (f : α → Recording ι ε β) :
    i ∈ (m >>= f).log := by
  cases hout : m.out with
  | ok x =>
    rw [bind_ok hout]
    exact List.mem_append_left _ h
  | error e =>
    rw [bind_error hout]
    exact h

theorem note_bind (i : ι) (f : Unit → Recording ι ε α) :
    note i >>= f = ⟨i :: (f ()).log, (f ()).out⟩ := rfl

@[simp] theorem out_pure (x : α) : (pure x : Recording ι ε α).out = .ok x := rfl

@[simp] theorem log_pure (x : α) : (pure x : Recording ι ε α).log = [] := rfl

/-- All that is done is allowed, and what comes out is as it should be. -/
structure Ensures (allowed : ι → Prop) (value : α → Prop) (stopped : ε → Prop)
    (m : Recording ι ε α) : Prop where
  log : ∀ i ∈ m.log, allowed i
  ok : ∀ x, m.out = .ok x → value x
  error : ∀ e, m.out = .error e → stopped e

variable {allowed : ι → Prop} {value value' : α → Prop} {result : β → Prop}
  {stopped stopped' : ε → Prop}

theorem ensures_pure {x : α} (h : value x) :
    (pure x : Recording ι ε α).Ensures allowed value stopped where
  log _ hi := absurd hi List.not_mem_nil
  ok y hy := by
    cases hy
    exact h
  error _ he := by cases he

theorem ensures_note {i : ι} (h : allowed i) :
    (note i : Recording ι ε Unit).Ensures allowed (fun _ => True) stopped where
  log j hj := List.mem_singleton.mp hj ▸ h
  ok _ _ := trivial
  error _ he := by cases he

theorem ensures_stop {e : ε} (h : stopped e) :
    (stop e : Recording ι ε α).Ensures allowed value stopped where
  log _ hi := absurd hi List.not_mem_nil
  ok _ hx := by cases hx
  error e' he := by
    cases he
    exact h

theorem Ensures.bind {m : Recording ι ε α} {f : α → Recording ι ε β}
    (hm : m.Ensures allowed value stopped)
    (hf : ∀ x, value x → (f x).Ensures allowed result stopped) :
    (m >>= f).Ensures allowed result stopped := by
  cases hout : m.out with
  | ok x =>
    have hx := hf x (hm.ok x hout)
    rw [bind_ok hout]
    refine ⟨fun i hi => ?_, hx.ok, hx.error⟩
    rcases List.mem_append.mp hi with hi | hi
    · exact hm.log i hi
    · exact hx.log i hi
  | error e =>
    rw [bind_error hout]
    refine ⟨hm.log, fun y hy => ?_, fun e' he => ?_⟩
    · cases hy
    · cases he
      exact hm.error e hout

theorem Ensures.mono {m : Recording ι ε α} (hm : m.Ensures allowed value stopped)
    (h : ∀ x, value x → value' x) (hstop : ∀ e, stopped e → stopped' e) :
    m.Ensures allowed value' stopped' :=
  ⟨hm.log, fun x hx => h x (hm.ok x hx), fun e he => hstop e (hm.error e he)⟩

/-- A computation that nothing stops has a value. -/
theorem Ensures.exists_ok {m : Recording ι ε α}
    (hm : m.Ensures allowed value fun _ => False) : ∃ x, m.out = .ok x ∧ value x := by
  cases hout : m.out with
  | ok x => exact ⟨x, rfl, hm.ok x hout⟩
  | error e => exact (hm.error e hout).elim

end Recording

end InterviewQuestions.Library
