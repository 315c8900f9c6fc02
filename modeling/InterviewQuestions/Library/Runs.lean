import Mathlib.Data.Finset.Card
import Mathlib.Data.Finset.Image
import Mathlib.Data.List.Chain
import Mathlib.Tactic.Common

/-! The runs of a finite set along a function that says what comes next: its elements are cut where
the next one is missing. -/
namespace InterviewQuestions.Library.Runs

variable {α : Type*} [DecidableEq α] {next : α → α} {s t : Finset α} {c x y : α} {n : ℕ}

/-- `c` and what follows it, `n` elements. -/
def strip (next : α → α) (c : α) (n : ℕ) : Finset α := (Finset.range n).image fun k => next^[k] c

theorem mem_strip : x ∈ strip next c n ↔ ∃ k < n, next^[k] c = x := by
  simp [strip]

theorem strip_succ (next : α → α) (c : α) (n : ℕ) :
    strip next c (n + 1) = insert c (strip next (next c) n) := by
  ext x
  rw [mem_strip, Finset.mem_insert, mem_strip]
  constructor
  · rintro ⟨k, hk, rfl⟩
    cases k with
    | zero => exact .inl rfl
    | succ k => exact .inr ⟨k, Nat.lt_of_succ_lt_succ hk, rfl⟩
  · rintro (rfl | ⟨k, hk, rfl⟩)
    · exact ⟨0, Nat.succ_pos n, rfl⟩
    · exact ⟨k + 1, Nat.succ_lt_succ hk, rfl⟩

/-- The strip lies in the set and what follows it does not. -/
structure Run (next : α → α) (s : Finset α) (c : α) (n : ℕ) : Prop where
  inside : ∀ k < n, next^[k] c ∈ s
  stops : next^[n] c ∉ s

theorem Run.strip_subset (h : Run next s c n) : strip next c n ⊆ s := by
  intro x hx
  obtain ⟨k, hk, rfl⟩ := mem_strip.mp hx
  exact h.inside k hk

omit [DecidableEq α] in
theorem Run.pos (h : Run next s c n) (hc : c ∈ s) : 0 < n := by
  refine Nat.pos_of_ne_zero ?_
  rintro rfl
  exact h.stops hc

theorem mem_strip_self (hn : 0 < n) : c ∈ strip next c n := mem_strip.mpr ⟨0, hn, rfl⟩

theorem Run.next_mem (h : Run next s c n) (hx : x ∈ strip next c n) (hnext : next x ∈ s) :
    next x ∈ strip next c n := by
  obtain ⟨k, hk, rfl⟩ := mem_strip.mp hx
  rw [← Function.iterate_succ_apply' next k c] at hnext ⊢
  refine mem_strip.mpr ⟨k + 1, ?_, rfl⟩
  refine lt_of_le_of_ne hk ?_
  rintro rfl
  exact h.stops hnext

theorem eq_or_next_mem (hx : x ∈ strip next c n) : x = c ∨ ∃ y ∈ strip next c n, next y = x := by
  obtain ⟨k, hk, rfl⟩ := mem_strip.mp hx
  cases k with
  | zero => exact .inl rfl
  | succ k =>
    refine .inr ⟨next^[k] c, mem_strip.mpr ⟨k, Nat.lt_of_succ_lt hk, rfl⟩, ?_⟩
    exact (Function.iterate_succ_apply' next k c).symm

/-! ## Where runs start -/

def starts (next : α → α) (s : Finset α) : Finset α := s.filter fun x => ∀ y ∈ s, next y ≠ x

theorem mem_starts : x ∈ starts next s ↔ x ∈ s ∧ ∀ y ∈ s, next y ≠ x := by
  simp [starts]

/-- A strip that is added starts at most one run. -/
theorem card_starts_union_strip (next : α → α) (s : Finset α) (c : α) (n : ℕ) :
    (starts next (s ∪ strip next c n)).card ≤ (starts next s).card + 1 := by
  have hsub : starts next (s ∪ strip next c n) ⊆ insert c (starts next s) := by
    intro x hx
    obtain ⟨hmem, hfree⟩ := mem_starts.mp hx
    rcases Finset.mem_union.mp hmem with hs | hstrip
    · refine Finset.mem_insert_of_mem (mem_starts.mpr ⟨hs, fun y hy => ?_⟩)
      exact hfree y (Finset.mem_union_left _ hy)
    · rcases eq_or_next_mem hstrip with rfl | ⟨y, hy, hnext⟩
      · exact Finset.mem_insert_self _ _
      · exact absurd hnext (hfree y (Finset.mem_union_right _ hy))
  exact (Finset.card_le_card hsub).trans (Finset.card_insert_le _ _)

/-- Without a run of a larger set only those runs start that did before. -/
theorem Run.starts_sdiff_strip (h : Run next t c n) (hs : s ⊆ t) :
    starts next (s \ strip next c n) ⊆ starts next s \ strip next c n := by
  intro x hx
  obtain ⟨hmem, hfree⟩ := mem_starts.mp hx
  obtain ⟨hxs, hxstrip⟩ := Finset.mem_sdiff.mp hmem
  refine Finset.mem_sdiff.mpr ⟨mem_starts.mpr ⟨hxs, fun y hy hnext => ?_⟩, hxstrip⟩
  by_cases hstrip : y ∈ strip next c n
  · rw [← hnext] at hxs hxstrip
    exact hxstrip (h.next_mem hstrip (hs hxs))
  · exact hfree y (Finset.mem_sdiff.mpr ⟨hy, hstrip⟩) hnext

theorem Run.card_starts_sdiff_strip (h : Run next t c n) (hs : s ⊆ t) (hc : c ∈ starts next s) :
    (starts next (s \ strip next c n)).card + 1 ≤ (starts next s).card := by
  have hpos : 0 < n := h.pos (hs (mem_starts.mp hc).1)
  have hnot : c ∉ starts next (s \ strip next c n) := fun hmem =>
    (Finset.mem_sdiff.mp (h.starts_sdiff_strip hs hmem)).2 (mem_strip_self hpos)
  rw [← Finset.card_insert_of_notMem hnot]
  refine Finset.card_le_card (Finset.insert_subset hc fun x hx => ?_)
  exact (Finset.mem_sdiff.mp (h.starts_sdiff_strip hs hx)).1

/-- Where only starts of runs are taken away, at most one run starts for each of them. -/
theorem card_starts_sdiff (ht : ∀ x ∈ s, x ∈ t → x ∈ starts next s) :
    (starts next (s \ t)).card ≤ (starts next s).card := by
  have hsub : starts next (s \ t) ⊆
      (starts next s \ t) ∪ (starts next s ∩ t).image next := by
    intro x hx
    obtain ⟨hmem, hfree⟩ := mem_starts.mp hx
    obtain ⟨hxs, hxt⟩ := Finset.mem_sdiff.mp hmem
    by_cases hold : x ∈ starts next s
    · exact Finset.mem_union_left _ (Finset.mem_sdiff.mpr ⟨hold, hxt⟩)
    · obtain ⟨y, hy, hnext⟩ : ∃ y ∈ s, next y = x := by
        by_contra hno
        exact hold (mem_starts.mpr ⟨hxs, fun y hy hnext => hno ⟨y, hy, hnext⟩⟩)
      have hyt : y ∈ t := by
        by_contra hyt
        exact hfree y (Finset.mem_sdiff.mpr ⟨hy, hyt⟩) hnext
      have hystart : y ∈ starts next s ∩ t := Finset.mem_inter.mpr ⟨ht y hy hyt, hyt⟩
      exact Finset.mem_union_right _ (Finset.mem_image.mpr ⟨y, hystart, hnext⟩)
  calc (starts next (s \ t)).card
      ≤ ((starts next s \ t) ∪ (starts next s ∩ t).image next).card := Finset.card_le_card hsub
    _ ≤ (starts next s \ t).card + ((starts next s ∩ t).image next).card :=
        Finset.card_union_le _ _
    _ ≤ (starts next s \ t).card + (starts next s ∩ t).card :=
        Nat.add_le_add_left Finset.card_image_le _
    _ = (starts next s).card := Finset.card_sdiff_add_card_inter _ _

end InterviewQuestions.Library.Runs

/-! Lists as runs of equal elements, and the lists in which such runs are spoken, each as a count
and an element. -/
namespace InterviewQuestions.Library.RunLength

variable {α : Type*}

/-- What the runs stand for. -/
def expand (ps : List (ℕ × α)) : List α := ps.flatMap fun p => List.replicate p.1 p.2

@[simp] theorem expand_nil : expand ([] : List (ℕ × α)) = [] := rfl

@[simp] theorem expand_cons (p : ℕ × α) (ps : List (ℕ × α)) :
    expand (p :: ps) = List.replicate p.1 p.2 ++ expand ps := rfl

/-- Each run is as long as can be: neighbours are runs of different elements. -/
def Apart (ps : List (ℕ × α)) : Prop := (ps.map Prod.snd).IsChain (· ≠ ·)

section Runs

variable [DecidableEq α] {l : List α} {x : α} {p : ℕ × α}

/-- One more element in front. -/
def runsCons (x : α) : List (ℕ × α) → List (ℕ × α)
  | [] => [(1, x)]
  | p :: ps => if p.2 = x then (p.1 + 1, x) :: ps else (1, x) :: p :: ps

def runs : List α → List (ℕ × α)
  | [] => []
  | x :: l => runsCons x (runs l)

theorem expand_runsCons (x : α) (ps : List (ℕ × α)) :
    expand (runsCons x ps) = x :: expand ps := by
  cases ps with
  | nil => rfl
  | cons p ps =>
    rw [runsCons]
    split
    case isTrue hx => rw [expand_cons, expand_cons, hx, List.replicate_succ, List.cons_append]
    case isFalse => rfl

theorem apart_runsCons (x : α) {ps : List (ℕ × α)} (h : Apart ps) : Apart (runsCons x ps) := by
  cases ps with
  | nil => exact .singleton x
  | cons p ps =>
    rw [runsCons]
    split
    case isTrue hx =>
      rw [← hx]
      exact h
    case isFalse hx => exact .cons_cons (Ne.symm hx) h

theorem pos_runsCons (x : α) {ps : List (ℕ × α)} (h : ∀ p ∈ ps, 0 < p.1) :
    ∀ p ∈ runsCons x ps, 0 < p.1 := by
  cases ps with
  | nil =>
    intro p hp
    rw [List.mem_singleton.mp hp]
    exact Nat.one_pos
  | cons p ps =>
    rw [List.forall_mem_cons] at h
    rw [runsCons]
    split
    · exact List.forall_mem_cons.mpr ⟨Nat.succ_pos _, h.2⟩
    · exact List.forall_mem_cons.mpr ⟨Nat.one_pos, List.forall_mem_cons.mpr h⟩

theorem expand_runs (l : List α) : expand (runs l) = l := by
  induction l with
  | nil => rfl
  | cons x l ih => rw [runs, expand_runsCons, ih]

theorem apart_runs (l : List α) : Apart (runs l) := by
  induction l with
  | nil => exact .nil
  | cons x l ih => exact apart_runsCons x ih

theorem pos_of_mem_runs : p ∈ runs l → 0 < p.1 := by
  suffices h : ∀ p ∈ runs l, 0 < p.1 from h p
  induction l with
  | nil => exact fun p hp => absurd hp List.not_mem_nil
  | cons x l ih => exact pos_runsCons x ih

theorem mem_of_mem_runs (hp : p ∈ runs l) : p.2 ∈ l := by
  rw [← expand_runs l]
  exact List.mem_flatMap.mpr ⟨p, hp, List.mem_replicate.mpr ⟨(pos_of_mem_runs hp).ne', rfl⟩⟩

theorem runsCons_runsCons {x y : α} (hne : y ≠ x) (ps : List (ℕ × α)) :
    runsCons x (runsCons y ps) = (1, x) :: runsCons y ps := by
  cases ps with
  | nil => exact if_neg hne
  | cons p ps =>
    rw [runsCons]
    split
    · exact if_neg hne
    · exact if_neg hne

/-- A run lies in the list. -/
theorem exists_of_mem_runs {n : ℕ} (hp : p ∈ runs l) (hn : n ≤ p.1) :
    ∃ front back, l = front ++ (List.replicate n p.2 ++ back) := by
  obtain ⟨before, after, hruns⟩ := List.append_of_mem hp
  have hlist := expand_runs l
  rw [hruns, expand, List.flatMap_append, List.flatMap_cons] at hlist
  obtain ⟨m, hm⟩ := Nat.exists_eq_add_of_le hn
  rw [hm, List.replicate_add, List.append_assoc] at hlist
  exact ⟨_, _, hlist.symm⟩

/-- A run in front that goes no further. -/
theorem runs_replicate_append (k : ℕ) (x : α) (hl : l.head? ≠ some x) :
    runs (List.replicate (k + 1) x ++ l) = (k + 1, x) :: runs l := by
  induction k with
  | zero =>
    cases l with
    | nil => rfl
    | cons y l => exact runsCons_runsCons (fun hy => hl (congrArg some hy)) (runs l)
  | succ k ih =>
    rw [List.replicate_succ, List.cons_append, runs, ih, runsCons, if_pos rfl]

/-- The first run. -/
theorem exists_run (x : α) (l : List α) :
    ∃ k rest, x :: l = List.replicate (k + 1) x ++ rest ∧ rest.head? ≠ some x := by
  induction l with
  | nil => exact ⟨0, [], rfl, nofun⟩
  | cons y l ih =>
    by_cases hy : y = x
    · obtain ⟨k, rest, heq, hrest⟩ := ih
      refine ⟨k + 1, rest, ?_, hrest⟩
      rw [hy, heq]
      rfl
    · exact ⟨0, y :: l, rfl, fun h => hy (Option.some.inj h)⟩

end Runs

/-! ## Runs that are spoken -/

/-- The count and the element of each pair, one after the other. -/
def spoken (ps : List (α × α)) : List α := ps.flatMap fun p => [p.1, p.2]

/-- Every second entry is an element. -/
theorem getElem?_spoken (ps : List (α × α)) (m : ℕ) :
    (spoken ps)[2 * m + 1]? = ps[m]?.map Prod.snd := by
  induction ps generalizing m with
  | nil => rfl
  | cons p ps ih =>
    cases m with
    | zero => rfl
    | succ m => exact ih m

theorem ne_of_isChain {l : List α} {m : ℕ} {x y : α} (h : l.IsChain (· ≠ ·))
    (hx : l[m]? = some x) (hy : l[m + 1]? = some y) : x ≠ y := by
  induction h generalizing m with
  | nil => cases hx
  | singleton => cases hy
  | cons_cons hne _ ih =>
    cases m with
    | zero =>
      rw [← Option.some.inj hx, ← Option.some.inj hy]
      exact hne
    | succ m => exact ih hx hy

/-- Where neighbours differ in their elements, nothing is spoken four times in a row. -/
theorem spoken_ne_four {ps : List (α × α)} (h : (ps.map Prod.snd).IsChain (· ≠ ·))
    (front back : List α) (x : α) : spoken ps ≠ front ++ (List.replicate 4 x ++ back) := by
  intro heq
  have hget (i : ℕ) (hi : i < 4) : (spoken ps)[front.length + i]? = some x := by
    rw [heq, List.getElem?_append_right (Nat.le_add_right _ _), Nat.add_sub_cancel_left,
      List.getElem?_append_left (by simpa using hi), List.getElem?_replicate_of_lt hi]
  -- two neighbouring entries among the four are elements
  obtain ⟨m, hfirst, hsecond⟩ : ∃ m, (spoken ps)[2 * m + 1]? = some x ∧
      (spoken ps)[2 * (m + 1) + 1]? = some x := by
    obtain ⟨m, hm | hm⟩ : ∃ m, front.length = 2 * m ∨ front.length = 2 * m + 1 :=
      ⟨front.length / 2, by omega⟩
    · exact ⟨m, by rw [← hget 1 (by omega), hm], by rw [← hget 3 (by omega), hm]; rfl⟩
    · exact ⟨m, by rw [← hget 0 (by omega), hm], by rw [← hget 2 (by omega), hm]; rfl⟩
  rw [getElem?_spoken, ← List.getElem?_map] at hfirst hsecond
  exact ne_of_isChain h hfirst hsecond rfl

end InterviewQuestions.Library.RunLength
