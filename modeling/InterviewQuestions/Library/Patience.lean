import Mathlib.Data.List.Induction
import Mathlib.Order.Bounds.Basic

/-! Patience: each element goes on the first pile with a greater one on top, or starts a pile.
There are as many piles as the longest non-decreasing subsequence has elements. -/
namespace InterviewQuestions.Library.Patience

variable {α : Type*} [LinearOrder α] {piles xs s : List α} {v t : α} {k : ℕ}

/-- The number of the pile that `v` goes on. Only the tops of the piles matter. -/
def slot (piles : List α) (v : α) : ℕ := piles.findIdx (v < ·)

def place (piles : List α) (v : α) : List α :=
  piles.take (slot piles v) ++ v :: piles.drop (slot piles v + 1)

/-- The tops of the piles in the end. -/
def tops (xs : List α) : List α := xs.foldl place []

theorem slot_le (piles : List α) (v : α) : slot piles v ≤ piles.length := List.findIdx_le_length

theorem le_of_lt_slot (hk : k < slot piles v) (ht : piles[k]? = some t) : t ≤ v := by
  obtain ⟨hlt, rfl⟩ := List.getElem?_eq_some_iff.mp ht
  have hnot := List.not_of_lt_findIdx hk
  exact not_lt.mp fun h => Bool.false_ne_true (hnot.symm.trans (decide_eq_true h))

theorem lt_of_slot_eq (ht : piles[slot piles v]? = some t) : v < t := by
  have hfound := List.findIdx_of_getElem?_eq_some ht
  exact of_decide_eq_true hfound

theorem place_getElem? (piles : List α) (v : α) (k : ℕ) :
    (place piles v)[k]? = if k = slot piles v then some v else piles[k]? := by
  have hle := slot_le piles v
  have hlen : (piles.take (slot piles v)).length = slot piles v := by
    rw [List.length_take]
    omega
  unfold place
  rcases Nat.lt_trichotomy k (slot piles v) with hlt | rfl | hgt
  · rw [if_neg hlt.ne, List.getElem?_append_left (by omega), List.getElem?_take_of_lt hlt]
  · rw [if_pos rfl, List.getElem?_append_right (by omega), hlen, Nat.sub_self]
    rfl
  · obtain ⟨d, rfl⟩ := Nat.exists_eq_add_of_lt hgt
    rw [if_neg hgt.ne', List.getElem?_append_right (by omega), hlen]
    have hsub : slot piles v + d + 1 - slot piles v = d + 1 := by omega
    rw [hsub, List.getElem?_cons_succ, List.getElem?_drop]
    congr 1
    omega

theorem tops_concat (xs : List α) (v : α) : tops (xs ++ [v]) = place (tops xs) v := by
  unfold tops
  rw [List.foldl_append]
  rfl

theorem length_place (piles : List α) (v : α) :
    (place piles v).length = max piles.length (slot piles v + 1) := by
  have hle := slot_le piles v
  unfold place
  simp only [List.length_append, List.length_take, List.length_cons, List.length_drop]
  omega

theorem pairwise_concat {β : Type*} {r : β → β → Prop} {s : List β} {v : β} (h : s.Pairwise r)
    (hv : ∀ x ∈ s, r x v) : (s ++ [v]).Pairwise r := by
  rw [List.pairwise_append]
  refine ⟨h, List.pairwise_singleton r v, fun x hx y hy => ?_⟩
  rw [List.mem_singleton.mp hy]
  exact hv x hx

/-! ## The order of the tops -/

def Ascending (piles : List α) : Prop :=
  ∀ (i j : ℕ) (a b : α), i ≤ j → piles[i]? = some a → piles[j]? = some b → a ≤ b

theorem Ascending.place (h : Ascending piles) (v : α) : Ascending (place piles v) := by
  intro i j a b hij ha hb
  rw [place_getElem?] at ha hb
  by_cases hi : i = slot piles v
  · rw [if_pos hi] at ha
    obtain rfl := Option.some.inj ha
    by_cases hj : j = slot piles v
    · rw [if_pos hj] at hb
      exact (Option.some.inj hb).le
    · rw [if_neg hj] at hb
      have hlt : slot piles v < piles.length := by
        have hbound := (List.getElem?_eq_some_iff.mp hb).1
        omega
      have ht := List.getElem?_eq_getElem hlt
      exact (lt_of_slot_eq ht).le.trans (h _ _ _ _ (by omega) ht hb)
  · rw [if_neg hi] at ha
    by_cases hj : j = slot piles v
    · rw [if_pos hj] at hb
      obtain rfl := Option.some.inj hb
      exact le_of_lt_slot (by omega) ha
    · rw [if_neg hj] at hb
      exact h i j a b hij ha hb

theorem ascending_tops (xs : List α) : Ascending (tops xs) := by
  induction xs using List.reverseRecOn with
  | nil => exact fun i j a b _ ha => absurd ha (by simp [tops])
  | append_singleton xs v ih =>
    rw [tops_concat]
    exact ih.place v

/-- The piles with a top up to `v` are those before its slot. -/
theorem Ascending.le_iff (h : Ascending piles) (ht : piles[k]? = some t) :
    t ≤ v ↔ k < slot piles v := by
  constructor
  · intro hle
    by_contra hnot
    have hlt : slot piles v < piles.length := by
      have hbound := (List.getElem?_eq_some_iff.mp ht).1
      omega
    have hs := List.getElem?_eq_getElem hlt
    exact absurd ((lt_of_slot_eq hs).trans_le (h _ _ _ _ (not_lt.mp hnot) hs ht)) (not_lt.mpr hle)
  · exact fun hk => le_of_lt_slot hk ht

/-! ## The longest non-decreasing subsequences -/

/-- The top of each pile ends a non-decreasing subsequence as long as its number says. -/
theorem exists_of_top (ht : (tops xs)[k]? = some t) :
    ∃ s, s.Sublist xs ∧ s.Pairwise (· ≤ ·) ∧ s.length = k ∧ (∀ x ∈ s, x ≤ t) ∧
      (s ++ [t]).Sublist xs := by
  induction xs using List.reverseRecOn generalizing k t with
  | nil => simp [tops] at ht
  | append_singleton xs v ih =>
    rw [tops_concat, place_getElem?] at ht
    by_cases hk : k = slot (tops xs) v
    · rw [if_pos hk] at ht
      obtain rfl := Option.some.inj ht
      cases k with
      | zero => exact ⟨[], List.nil_sublist _, .nil, rfl, by simp, List.sublist_append_right _ _⟩
      | succ k =>
        -- what is on top of the pile before it is not above `v`
        have hle := slot_le (tops xs) v
        have hprev := List.getElem?_eq_getElem (show k < (tops xs).length by omega)
        obtain ⟨s, -, hsorted, hlen, hbelow, hsub⟩ := ih hprev
        have hslot : k < slot (tops xs) v := by omega
        have htop := le_of_lt_slot hslot hprev
        refine ⟨s ++ [(tops xs)[k]], hsub.trans (List.sublist_append_left _ _),
          pairwise_concat hsorted hbelow, ?_, ?_, hsub.append (.refl _)⟩
        · rw [List.length_append, List.length_singleton, hlen]
        · intro x hx
          rcases List.mem_append.mp hx with hx | hx
          · exact (hbelow x hx).trans htop
          · rwa [List.mem_singleton.mp hx]
    · rw [if_neg hk] at ht
      obtain ⟨s, hsub, hsorted, hlen, hbelow, hsub'⟩ := ih ht
      exact ⟨s, hsub.trans (List.sublist_append_left _ _), hsorted, hlen, hbelow,
        hsub'.trans (List.sublist_append_left _ _)⟩

/-- No such subsequence ends below the top of its pile. -/
theorem exists_top_le (hs : (s ++ [v]).Sublist xs) (hsorted : (s ++ [v]).Pairwise (· ≤ ·)) :
    ∃ t, (tops xs)[s.length]? = some t ∧ t ≤ v := by
  induction xs using List.reverseRecOn generalizing s v with
  | nil => simp at hs
  | append_singleton xs w ih =>
    rw [tops_concat, place_getElem?]
    obtain ⟨old, new, hsplit, hold, hnew⟩ := List.sublist_append_iff.mp hs
    rcases List.sublist_cons_iff.mp hnew with hnil | ⟨rest, rfl, hnil⟩
    · obtain rfl := List.sublist_nil.mp hnil
      rw [List.append_nil] at hsplit
      obtain ⟨t, ht, hle⟩ := ih (hsplit ▸ hold) hsorted
      by_cases hk : s.length = slot (tops xs) w
      · rw [hk] at ht
        exact ⟨w, if_pos hk, (lt_of_slot_eq ht).le.trans hle⟩
      · exact ⟨t, (if_neg hk).trans ht, hle⟩
    · obtain rfl := List.sublist_nil.mp hnil
      obtain ⟨rfl, hw⟩ := List.append_inj' hsplit rfl
      obtain rfl := List.singleton_inj.mp hw
      have hslot : s.length ≤ slot (tops xs) v := by
        rcases List.eq_nil_or_concat s with rfl | ⟨init, last, rfl⟩
        · exact Nat.zero_le _
        · rw [List.concat_eq_append] at hold hsorted ⊢
          obtain ⟨t, ht, hle⟩ := ih hold (hsorted.sublist (List.sublist_append_left _ _))
          have hlast : last ≤ v := by
            rw [List.pairwise_append] at hsorted
            exact hsorted.2.2 last (by simp) v (by simp)
          rw [List.length_append, List.length_singleton]
          exact ((ascending_tops xs).le_iff ht).mp (hle.trans hlast)
      by_cases hk : s.length = slot (tops xs) v
      · exact ⟨v, if_pos hk, le_rfl⟩
      · have hle := slot_le (tops xs) v
        have hlt : s.length < slot (tops xs) v := by omega
        have ht := List.getElem?_eq_getElem (hlt.trans_le hle)
        exact ⟨_, (if_neg hk).trans ht, le_of_lt_slot hlt ht⟩

/-- Patience finds the length of a longest non-decreasing subsequence. -/
theorem length_tops_isGreatest (xs : List α) :
    IsGreatest {n | ∃ s : List α, s.Sublist xs ∧ s.Pairwise (· ≤ ·) ∧ s.length = n}
      (tops xs).length := by
  constructor
  · rcases Nat.eq_zero_or_pos (tops xs).length with hzero | hpos
    · exact ⟨[], List.nil_sublist xs, .nil, hzero.symm⟩
    · have ht := List.getElem?_eq_getElem (show (tops xs).length - 1 < (tops xs).length by omega)
      obtain ⟨s, -, hsorted, hlen, hbelow, hsub⟩ := exists_of_top ht
      refine ⟨_, hsub, pairwise_concat hsorted hbelow, ?_⟩
      rw [List.length_append, List.length_singleton, hlen]
      omega
  · rintro _ ⟨s, hsub, hsorted, rfl⟩
    rcases List.eq_nil_or_concat s with rfl | ⟨init, last, rfl⟩
    · exact Nat.zero_le _
    · rw [List.concat_eq_append] at hsub hsorted ⊢
      obtain ⟨t, ht, -⟩ := exists_top_le hsub hsorted
      rw [List.length_append, List.length_singleton]
      exact (List.getElem?_eq_some_iff.mp ht).1

/-! ## A limit to the number of piles -/

theorem length_tops_concat (xs : List α) (v : α) :
    (tops xs).length ≤ (tops (xs ++ [v])).length ∧
      (tops (xs ++ [v])).length ≤ (tops xs).length + 1 := by
  have hle := slot_le (tops xs) v
  rw [tops_concat, length_place]
  omega

/-- An implementation that can search among fewer than `limit` piles runs until one more
element would make it search among that many. -/
theorem foldlM_tops {σ : Type*} {insert : σ → α → Option σ} {start : σ} {limit : ℕ}
    (holds : List α → σ → Prop) (hlimit : 0 < limit) (hstart : holds [] start)
    (hstep : ∀ xs state v, holds xs state → (tops xs).length < limit →
      ∃ state', insert state v = some state' ∧ holds (xs ++ [v]) state')
    (hfail : ∀ xs state v, holds xs state → (tops xs).length = limit → insert state v = none)
    (xs : List α) :
    ((tops xs.dropLast).length < limit →
      ∃ state, xs.foldlM insert start = some state ∧ holds xs state) ∧
    (limit ≤ (tops xs.dropLast).length → xs.foldlM insert start = none) := by
  induction xs using List.reverseRecOn with
  | nil => exact ⟨fun _ => ⟨start, rfl, hstart⟩, fun h => absurd h (Nat.not_le.mpr hlimit)⟩
  | append_singleton xs v ih =>
    have hgrow : (tops xs.dropLast).length ≤ (tops xs).length ∧
        (tops xs).length ≤ (tops xs.dropLast).length + 1 := by
      rcases List.eq_nil_or_concat xs with rfl | ⟨init, last, rfl⟩
      · exact ⟨Nat.le_refl _, Nat.le_succ _⟩
      · rw [List.concat_eq_append, List.dropLast_concat]
        exact length_tops_concat init last
    rw [List.dropLast_concat, List.foldlM_append]
    simp only [List.foldlM_cons, List.foldlM_nil, Option.bind_eq_bind]
    constructor
    · intro hlt
      obtain ⟨state, hrun, hholds⟩ := ih.1 (by omega)
      obtain ⟨state', hinsert, hholds'⟩ := hstep xs state v hholds hlt
      exact ⟨state', by rw [hrun, Option.bind_some, hinsert]; rfl, hholds'⟩
    · intro hge
      by_cases hbefore : limit ≤ (tops xs.dropLast).length
      · rw [ih.2 hbefore, Option.bind_none]
      · obtain ⟨state, hrun, hholds⟩ := ih.1 (by omega)
        rw [hrun, Option.bind_some, hfail xs state v hholds (by omega), Option.bind_none]

/-- The limit in terms of the subsequences. -/
theorem length_tops_lt_iff {limit : ℕ} : (tops xs).length < limit ↔
    ∀ s : List α, s.Sublist xs → s.Pairwise (· ≤ ·) → s.length < limit := by
  obtain ⟨⟨s, hsub, hsorted, hlen⟩, hbound⟩ := length_tops_isGreatest xs
  constructor
  · exact fun hlt s hsub hsorted => (hbound ⟨s, hsub, hsorted, rfl⟩).trans_lt hlt
  · exact fun hall => hlen ▸ hall s hsub hsorted

/-! ## Whole piles -/

section Piles

variable {β : Type*} {i : ℕ}

/-- A pile that is there, or a new one behind the others. -/
theorem open_getElem? (piles : List (List β)) (hi : i ≤ piles.length) :
    (if i = piles.length then piles ++ [[]] else piles)[i]? = some (piles[i]?.getD []) := by
  by_cases hnew : i = piles.length
  · rw [if_pos hnew, hnew, List.getElem?_concat_length, List.getElem?_eq_none (Nat.le_refl _)]
    rfl
  · rw [if_neg hnew, List.getElem?_eq_getElem (show i < piles.length by omega)]
    rfl

theorem open_getElem?_of_lt (piles : List (List β)) {k : ℕ} (hk : k < piles.length) :
    (if i = piles.length then piles ++ [[]] else piles)[k]? = piles[k]? := by
  by_cases hnew : i = piles.length
  · rw [if_pos hnew, List.getElem?_append_left hk]
  · rw [if_neg hnew]

theorem set_open_getElem? (piles : List (List β)) (pile : List β) (hi : i ≤ piles.length) (k : ℕ) :
    ((if i = piles.length then piles ++ [[]] else piles).set i pile)[k]? =
      if k = i then some pile else piles[k]? := by
  rw [List.getElem?_set]
  by_cases hk : k = i
  · have hlt := (List.getElem?_eq_some_iff.mp (open_getElem? piles hi)).1
    rw [if_pos hk.symm, if_pos hk, if_pos hlt]
  · rw [if_neg (Ne.symm hk), if_neg hk]
    by_cases hnew : i = piles.length
    · rw [if_pos hnew]
      by_cases hlt : k < piles.length
      · exact List.getElem?_append_left hlt
      · rw [List.getElem?_eq_none, List.getElem?_eq_none (by omega)]
        rw [List.length_append, List.length_singleton]
        omega
    · rw [if_neg hnew]

theorem length_set_open (piles : List (List β)) (pile : List β) (hi : i ≤ piles.length) :
    ((if i = piles.length then piles ++ [[]] else piles).set i pile).length =
      max piles.length (i + 1) := by
  rw [List.length_set]
  by_cases hnew : i = piles.length
  · rw [if_pos hnew, List.length_append, List.length_singleton]
    omega
  · rw [if_neg hnew]
    omega

/-- An element on the pile that it goes on leaves as many piles as patience says. -/
theorem length_push {piles : List (List β)} (hlength : piles.length = (tops xs).length) (v : α)
    (pile : List β) :
    ((if slot (tops xs) v = piles.length then piles ++ [[]] else piles).set (slot (tops xs) v)
      pile).length = (tops (xs ++ [v])).length := by
  rw [length_set_open piles pile (hlength ▸ slot_le _ v), tops_concat, length_place, hlength]

/-- And the same tops, where `f` reads the top of a pile. -/
theorem top_push {piles : List (List β)} {f : Option (List β) → Option α} {pile : List β}
    (hlength : piles.length = (tops xs).length) (htop : ∀ k : ℕ, f piles[k]? = (tops xs)[k]?)
    (hpile : f (some pile) = some v) (k : ℕ) :
    f ((if slot (tops xs) v = piles.length then piles ++ [[]] else piles).set (slot (tops xs) v)
      pile)[k]? = (tops (xs ++ [v]))[k]? := by
  rw [set_open_getElem? piles pile (hlength ▸ slot_le _ v), tops_concat, place_getElem?]
  by_cases hk : k = slot (tops xs) v
  · rw [if_pos hk, if_pos hk, hpile]
  · rw [if_neg hk, if_neg hk, htop k]

end Piles

end InterviewQuestions.Library.Patience
