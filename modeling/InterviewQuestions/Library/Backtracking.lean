import Mathlib.Data.Set.Insert
import Mathlib.Tactic.Common

/-! Searches that try one choice after the other until one succeeds, on a state that failed
attempts leave fit for the next one. -/
namespace InterviewQuestions.Library.Backtracking

variable {σ ι : Type*}

/-- `none` where an attempt has no result. -/
def tries (attempt : ι → σ → Option (Bool × σ)) : List ι → σ → Option (Bool × σ)
  | [], s => some (false, s)
  | i :: choices, s =>
      match attempt i s with
      | none => none
      | some (true, s) => some (true, s)
      | some (false, s) => tries attempt choices s

/-- The search has found something, or it has failed because nothing is possible. -/
def Decides (found back : σ → Prop) (possible : Prop) (result : Option (Bool × σ)) : Prop :=
  (∃ s, result = some (true, s) ∧ found s) ∨ ∃ s, result = some (false, s) ∧ back s ∧ ¬ possible

variable {attempt : ι → σ → Option (Bool × σ)} {choices : List ι} {i : ι} {s s' : σ}
  {found back : σ → Prop} {possible possible' : Prop} {result : Option (Bool × σ)}

theorem tries_cons_none (h : attempt i s = none) : tries attempt (i :: choices) s = none := by
  rw [tries, h]

theorem tries_cons_true (h : attempt i s = some (true, s')) :
    tries attempt (i :: choices) s = some (true, s') := by
  rw [tries, h]

theorem tries_cons_false (h : attempt i s = some (false, s')) :
    tries attempt (i :: choices) s = tries attempt choices s' := by
  rw [tries, h]

theorem Decides.congr (h : Decides found back possible result) (hiff : possible ↔ possible') :
    Decides found back possible' result := by
  rwa [← propext hiff]

theorem Decides.imp {found' : σ → Prop} (h : Decides found back possible result)
    (himp : ∀ s, found s → found' s) : Decides found' back possible result :=
  Or.imp (fun ⟨s, hs, hfound⟩ => ⟨s, hs, himp s hfound⟩) id h

/-- If each attempt decides whether its choice is possible, all of them decide whether one is. -/
theorem tries_decides (found back : σ → Prop) {possible : ι → Prop}
    (h : ∀ i ∈ choices, ∀ s, back s → Decides found back (possible i) (attempt i s))
    (hs : back s) : Decides found back (∃ i ∈ choices, possible i) (tries attempt choices s) := by
  induction choices generalizing s with
  | nil => exact Or.inr ⟨s, rfl, hs, fun hex => by simp at hex⟩
  | cons i choices ih =>
    rcases h i List.mem_cons_self s hs with ⟨s', hs', hfound⟩ | ⟨s', hs', hback, hnot⟩
    · rw [tries_cons_true hs']
      exact Or.inl ⟨s', rfl, hfound⟩
    · rw [tries_cons_false hs']
      refine (ih (fun j hj => h j (List.mem_cons_of_mem i hj)) hback).congr ?_
      simp only [List.mem_cons, exists_eq_or_imp, hnot, false_or]

/-- What every attempt keeps, the search keeps. -/
theorem tries_keeps (rel : σ → σ → Prop) (hrefl : ∀ s, rel s s)
    (htrans : ∀ s t u, rel s t → rel t u → rel s u)
    (h : ∀ i ∈ choices, ∀ s b s', attempt i s = some (b, s') → rel s s') {b : Bool}
    (hs : tries attempt choices s = some (b, s')) : rel s s' := by
  induction choices generalizing s with
  | nil =>
    cases hs
    exact hrefl _
  | cons i choices ih =>
    rw [List.forall_mem_cons] at h
    cases hi : attempt i s with
    | none =>
      rw [tries_cons_none hi] at hs
      cases hs
    | some result =>
      obtain ⟨found, t⟩ := result
      have hfirst := h.1 s found t hi
      cases found with
      | true =>
        rw [tries_cons_true hi] at hs
        cases hs
        exact hfirst
      | false =>
        rw [tries_cons_false hi] at hs
        exact htrans s t s' hfirst (ih h.2 hs)

/-- When the search has failed, so have all attempts. -/
theorem tries_false (back : σ → Prop) (failed : ι → Prop)
    (h : ∀ i ∈ choices, ∀ s s', back s → attempt i s = some (false, s') → back s' ∧ failed i)
    (hs : back s) (hfalse : tries attempt choices s = some (false, s')) :
    back s' ∧ ∀ i ∈ choices, failed i := by
  induction choices generalizing s with
  | nil =>
    cases hfalse
    exact ⟨hs, fun i hi => by cases hi⟩
  | cons i choices ih =>
    rw [tries] at hfalse
    split at hfalse
    case h_1 => cases hfalse
    case h_2 => cases hfalse
    case h_3 next hnext =>
      obtain ⟨hback, hfailed⟩ := h i List.mem_cons_self s next hs hnext
      obtain ⟨hend, hall⟩ := ih (fun j hj => h j (List.mem_cons_of_mem i hj)) hback hfalse
      exact ⟨hend, List.forall_mem_cons.mpr ⟨hfailed, hall⟩⟩

/-! ## Searches that keep the best result -/

section Champion

variable {α β ι : Type*} [LT β]

/-- A result comes with its value. The one that was there first stays where they are equal. -/
def keepBetter [DecidableLT β] (best found : Option α × β) : Option α × β :=
  if best.2 < found.2 then found else best

variable [LE β] {value : α → β} {floor : β} {S T : Set α} {best found : Option α × β}

/-- The result has the highest value among the candidates, all of which are above the floor. -/
def Champion (value : α → β) (floor : β) (S : Set α) : Option α × β → Prop
  | (none, v) => v = floor ∧ S = ∅
  | (some a, v) => v = value a ∧ a ∈ S ∧ floor < value a ∧ ∀ b ∈ S, value b ≤ value a

theorem champion_none (hS : S = ∅) : Champion value floor S (none, floor) := ⟨rfl, hS⟩

variable [Std.IsLinearOrder β]

theorem champion_singleton {a : α} (ha : floor < value a) :
    Champion value floor {a} (some a, value a) := by
  refine ⟨rfl, rfl, ha, ?_⟩
  intro b hb
  rw [Set.mem_singleton_iff.mp hb]
  exact Std.le_refl _

variable [Std.LawfulOrderLT β] [DecidableLT β]

theorem Champion.keepBetter (hbest : Champion value floor S best)
    (hfound : Champion value floor T found) :
    Champion value floor (S ∪ T) (keepBetter best found) := by
  obtain ⟨best, v⟩ := best
  obtain ⟨found, w⟩ := found
  unfold Backtracking.keepBetter
  cases best with
  | none =>
    obtain ⟨rfl, rfl⟩ := hbest
    rw [Set.empty_union]
    cases found with
    | none =>
      obtain ⟨rfl, hT⟩ := hfound
      rw [ite_self]
      exact ⟨rfl, hT⟩
    | some b => rwa [if_pos (by rw [hfound.1]; exact hfound.2.2.1)]
  | some a =>
    obtain ⟨rfl, ha, hfloor, hmax⟩ := hbest
    cases found with
    | none =>
      obtain ⟨rfl, rfl⟩ := hfound
      rw [Set.union_empty, if_neg (Std.not_lt.mpr (Std.le_of_lt hfloor))]
      exact ⟨rfl, ha, hfloor, hmax⟩
    | some b =>
      obtain ⟨rfl, hb, hfloor', hmax'⟩ := hfound
      by_cases hlt : value a < value b
      · rw [if_pos hlt]
        refine ⟨rfl, Or.inr hb, hfloor', ?_⟩
        rintro c (hc | hc)
        · exact Std.le_trans (hmax c hc) (Std.le_of_lt hlt)
        · exact hmax' c hc
      · rw [if_neg hlt]
        refine ⟨rfl, Or.inl ha, hfloor, ?_⟩
        rintro c (hc | hc)
        · exact hmax c hc
        · exact Std.le_trans (hmax' c hc) (Std.not_lt.mp hlt)

/-- The best of what was there before and what is found for each item. -/
theorem Champion.foldl {items : List ι} {f : ι → Option α × β} {T : ι → Set α}
    (hbest : Champion value floor S best) (h : ∀ i ∈ items, Champion value floor (T i) (f i)) :
    Champion value floor (S ∪ {a | ∃ i ∈ items, a ∈ T i})
      (items.foldl (fun best i => Backtracking.keepBetter best (f i)) best) := by
  induction items generalizing S best with
  | nil => simpa using hbest
  | cons i items ih =>
    rw [List.forall_mem_cons] at h
    have hrest := ih (hbest.keepBetter h.1) h.2
    rw [List.foldl_cons]
    convert hrest using 1
    ext a
    simp [or_assoc]

end Champion

end InterviewQuestions.Library.Backtracking
