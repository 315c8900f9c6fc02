import Mathlib.Data.List.Basic
import Mathlib.Order.Nat

/-! Longest-match selection from a history of rules. A rule covers the words that
extend its path; a later rule with the same path replaces an earlier one. -/
namespace InterviewQuestions.Library.LongestMatch

variable {E β : Type*}

/-- `e` applies, no rule that applies is longer, and no later one is as long. -/
structure Selects (len : E → ℕ) (applies : E → Prop) (history : List E) (e : E) : Prop where
  covered : applies e
  latest : ∃ before after, history = before ++ e :: after ∧
    (∀ x ∈ before, applies x → len x ≤ len e) ∧ (∀ x ∈ after, applies x → len x < len e)

variable [DecidableEq β] (path : E → List β)

/-- The last rule given for a path. -/
def lastFor (history : List E) (p : List β) : Option E :=
  history.reverse.find? fun e => path e = p

theorem lastFor_append (history : List E) (e : E) (p : List β) :
    lastFor path (history ++ [e]) p = if path e = p then some e else lastFor path history p := by
  unfold lastFor
  rw [List.reverse_append, List.reverse_singleton, List.singleton_append, List.find?_cons]
  by_cases h : path e = p <;> simp [h]

theorem lastFor_eq_some {history : List E} {p : List β} {e : E}
    (h : lastFor path history p = some e) :
    path e = p ∧ ∃ before after, history = before ++ e :: after ∧ ∀ x ∈ after, path x ≠ p := by
  obtain ⟨hpath, later, earlier, hsplit, hlater⟩ := List.find?_eq_some_iff_append.mp h
  refine ⟨of_decide_eq_true hpath, earlier.reverse, later.reverse, ?_, ?_⟩
  · rw [← List.reverse_reverse history, hsplit]
    simp
  · intro x hx
    simpa using hlater x (List.mem_reverse.mp hx)

theorem lastFor_isSome {history : List E} {e : E} (h : e ∈ history) :
    (lastFor path history (path e)).isSome := by
  unfold lastFor
  rw [List.find?_isSome]
  exact ⟨e, List.mem_reverse.mpr h, by simp⟩

/-- The last rule of the longest path that has one and that the word extends is selected. -/
theorem selects_of_lastFor {history : List E} {word p : List β} {e : E}
    (hlast : lastFor path history p = some e) (hp : p <+: word)
    (hlongest : ∀ q, q <+: word → (lastFor path history q).isSome → q.length ≤ p.length) :
    Selects (fun x => (path x).length) (fun x => path x <+: word) history e := by
  obtain ⟨rfl, before, after, hsplit, hafter⟩ := lastFor_eq_some path hlast
  have hle : ∀ x ∈ history, path x <+: word → (path x).length ≤ (path e).length :=
    fun x hx hfits => hlongest _ hfits (lastFor_isSome path hx)
  refine ⟨hp, before, after, hsplit, ?_, ?_⟩
  · intro x hx
    exact hle x (by rw [hsplit]; exact List.mem_append_left _ hx)
  · intro x hx hfits
    have hlen := hle x (by rw [hsplit]; exact List.mem_append_right _ (List.mem_cons_of_mem _ hx))
      hfits
    -- two paths of one length that the word extends are equal
    cases Nat.lt_or_eq_of_le hlen with
    | inl hlt => exact hlt
    | inr heq =>
      exact absurd ((List.prefix_of_prefix_length_le hfits hp hlen).eq_of_length heq) (hafter x hx)

end InterviewQuestions.Library.LongestMatch
