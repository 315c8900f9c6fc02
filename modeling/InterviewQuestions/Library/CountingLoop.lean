import Mathlib.Algebra.GroupWithZero.Nat
import Mathlib.Tactic.Common

/-! Loops that count up. The counter of `for (unsigned i = ..; i <= limit; i++)` wraps around, so
that such a loop ends only below the largest `unsigned`. -/
namespace InterviewQuestions.Library

variable {σ : Type*}

/-- There is no result when the fuel runs out, and none when the body has none. -/
def forLoop (limit : ℕ) (body : UInt32 → σ → Option σ) : ℕ → UInt32 → σ → Option σ
  | 0, _, _ => none
  | fuel + 1, i, s =>
      if i.toNat ≤ limit then (body i s).bind fun s => forLoop limit body fuel (i + 1) s
      else some s

/-- What one computation establishes, the next one relies on. -/
theorem bind_spec {α β : Type*} {x : Option α} {f : α → Option β} {Q : β → Prop} (P : α → Prop)
    (hx : ∃ a, x = some a ∧ P a) (hf : ∀ a, P a → ∃ b, f a = some b ∧ Q b) :
    ∃ b, x.bind f = some b ∧ Q b := by
  obtain ⟨a, rfl, ha⟩ := hx
  exact hf a ha

theorem eq_some_of_spec {α : Type*} {x : Option α} {b : α} (h : ∃ a, x = some a ∧ a = b) :
    x = some b := by
  obtain ⟨a, hx, rfl⟩ := h
  exact hx

variable {limit : ℕ} {body : UInt32 → σ → Option σ}

theorem toNat_succ (i : UInt32) (h : i.toNat + 1 < 2 ^ 32) : (i + 1).toNat = i.toNat + 1 := by
  have hadd : (i + 1).toNat = (i.toNat + 1) % 2 ^ 32 := UInt32.toNat_add i 1
  rw [hadd, Nat.mod_eq_of_lt h]

/-- What each iteration passes on to the next one, the loop brings to its end. -/
theorem forLoop_spec (inv : ℕ → σ → Prop) (hlimit : limit + 1 < 2 ^ 32)
    (hbody : ∀ i s, i.toNat ≤ limit → inv i.toNat s →
      ∃ s', body i s = some s' ∧ inv (i.toNat + 1) s')
    (fuel : ℕ) (i : UInt32) (s : σ) (hi : i.toNat ≤ limit + 1)
    (hfuel : limit + 1 < fuel + i.toNat) (hs : inv i.toNat s) :
    ∃ s', forLoop limit body fuel i s = some s' ∧ inv (limit + 1) s' := by
  induction fuel generalizing i s with
  | zero => omega
  | succ fuel ih =>
    rw [forLoop]
    by_cases hle : i.toNat ≤ limit
    · have hsucc := toNat_succ i (by omega)
      obtain ⟨s', hs', hinv⟩ := hbody i s hle hs
      rw [if_pos hle, hs', Option.bind_some]
      rw [← hsucc] at hinv
      exact ih (i + 1) s' (by omega) (by omega) hinv
    · have hend : i.toNat = limit + 1 := by omega
      rw [hend] at hs
      exact ⟨s, if_neg hle, hs⟩

/-- No counter is beyond the largest `unsigned`. -/
theorem forLoop_eq_none (hlimit : 2 ^ 32 - 1 ≤ limit) (fuel : ℕ) (i : UInt32) (s : σ) :
    forLoop limit body fuel i s = none := by
  induction fuel generalizing i s with
  | zero => rfl
  | succ fuel ih =>
    have hle : i.toNat ≤ limit := by
      have hlt := i.toNat_lt
      omega
    rw [forLoop, if_pos hle]
    cases body i s with
    | none => rfl
    | some s' => exact ih (i + 1) s'

/-- The same for a loop whose counter is in no danger. -/
theorem foldlM_range'_spec {body : σ → ℕ → Option σ} {start count : ℕ} {s : σ} {post : σ → Prop}
    (inv : ℕ → σ → Prop)
    (hbody : ∀ i s, start ≤ i → i < start + count → inv i s →
      ∃ s', body s i = some s' ∧ inv (i + 1) s')
    (hs : inv start s) (hpost : ∀ s, inv (start + count) s → post s) :
    ∃ s', (List.range' start count).foldlM body s = some s' ∧ post s' := by
  induction count generalizing start s with
  | zero => exact ⟨s, rfl, hpost s hs⟩
  | succ count ih =>
    obtain ⟨s', hs', hinv⟩ := hbody start s (Nat.le_refl _) (by omega) hs
    have hend : start + 1 + count = start + (count + 1) := by omega
    rw [List.range'_succ, List.foldlM_cons, hs']
    exact ih (fun i s hle hlt => hbody i s (by omega) (by omega)) hinv (by rwa [hend])

/-- A loop that gets as far as an iteration which fails. -/
theorem foldlM_range'_eq_none {body : σ → ℕ → Option σ} {start count : ℕ} {s : σ} (stop : ℕ)
    (inv : ℕ → σ → Prop)
    (hbody : ∀ i s s', i < stop → inv i s → body s i = some s' → inv (i + 1) s')
    (hstop : ∀ s, inv stop s → body s stop = none) (hle : start ≤ stop)
    (hlt : stop < start + count) (hs : inv start s) :
    (List.range' start count).foldlM body s = none := by
  induction count generalizing start s with
  | zero => omega
  | succ count ih =>
    rw [List.range'_succ, List.foldlM_cons]
    rcases Nat.eq_or_lt_of_le hle with rfl | hstart
    · rw [hstop s hs]
      rfl
    · cases hbodyS : body s start with
      | none => rfl
      | some s' => exact ih hstart (by omega) (hbody start s s' hstart hs hbodyS)

/-- A loop over the entries of a part `rest` of an array, each iteration of which leaves the array
as it was. -/
theorem foldlM_entries_spec {α τ : Type*} {rest arr : List τ} {start : ℕ} {init : α}
    {body : α × List τ → ℕ → Option (α × List τ)} (inv : ℕ → α → Prop)
    (hbody : ∀ j x res, rest[j]? = some x → inv j res →
      ∃ s, body (res, arr) (start + j) = some s ∧ s.2 = arr ∧ inv (j + 1) s.1)
    (hinit : inv 0 init) :
    ∃ s, (List.range' start rest.length).foldlM body (init, arr) = some s ∧ s.2 = arr ∧
      inv rest.length s.1 := by
  apply foldlM_range'_spec fun i s => s.2 = arr ∧ inv (i - start) s.1
  · rintro i ⟨res, after⟩ hi hlt ⟨rfl, hinv⟩
    obtain ⟨j, rfl⟩ := Nat.exists_eq_add_of_le hi
    rw [Nat.add_sub_cancel_left] at hinv
    rw [Nat.add_assoc, Nat.add_sub_cancel_left]
    exact hbody j _ res (List.getElem?_eq_getElem (Nat.lt_of_add_lt_add_left hlt)) hinv
  · refine ⟨rfl, ?_⟩
    rwa [Nat.sub_self]
  · intro s hs
    rwa [Nat.add_sub_cancel_left] at hs

end InterviewQuestions.Library
