import Mathlib.Combinatorics.Enumerative.Catalan.Basic
import Mathlib.Data.List.Nodup
import Mathlib.Tactic.Common

/-! The ways in which a chain of operands, with an operator between any two, can be put in
parentheses. -/
namespace InterviewQuestions.Library

inductive Grouping (S Op : Type*) where
  | leaf (s : S)
  | node (op : Op) (l r : Grouping S Op)
deriving DecidableEq, Repr

namespace Grouping

variable {S Op α : Type*} {s : S} {steps : List (Op × S)} {fuel : ℕ} {t : Grouping S Op}
  {xs l r : List α} {x : α}

/-- The first operand of the chain. -/
def first : Grouping S Op → S
  | leaf s => s
  | node _ l _ => l.first

/-- The other operands, each with the operator before it. -/
def rest : Grouping S Op → List (Op × S)
  | leaf _ => []
  | node op l r => l.rest ++ (op, r.first) :: r.rest

/-! ## The last operator -/

/-- An element with what is before it and what is behind it, for each element. -/
def splits : List α → List (List α × α × List α)
  | [] => []
  | x :: xs => ([], x, xs) :: (splits xs).map fun p => (x :: p.1, p.2)

theorem mem_splits : (l, x, r) ∈ splits xs ↔ xs = l ++ x :: r := by
  induction xs generalizing l with
  | nil => simp [splits]
  | cons y xs ih =>
    rw [splits, List.mem_cons, List.mem_map]
    constructor
    · rintro (h | ⟨⟨l', x', r'⟩, hmem, h⟩)
      · cases h
        rfl
      · cases h
        rw [ih.mp hmem]
        rfl
    · intro h
      cases l with
      | nil =>
        cases h
        exact .inl rfl
      | cons z l =>
        cases h
        exact .inr ⟨(l, x, r), ih.mpr rfl, rfl⟩

theorem nodup_splits (xs : List α) : (splits xs).Nodup := by
  induction xs with
  | nil => exact List.nodup_nil
  | cons y xs ih =>
    rw [splits]
    refine List.nodup_cons.mpr ⟨?_, ih.map ?_⟩
    · intro h
      obtain ⟨p, -, hp⟩ := List.mem_map.mp h
      cases hp
    · rintro ⟨l, p⟩ ⟨l', p'⟩ h
      cases h
      rfl

theorem length_of_mem_splits {p : List α × α × List α} (h : p ∈ splits xs) :
    p.1.length < xs.length ∧ p.2.2.length < xs.length := by
  obtain ⟨l, x, r⟩ := p
  rw [mem_splits.mp h, List.length_append, List.length_cons]
  simp only
  omega

/-- The two sides of a split of a list that one more than `fuel` is enough for. -/
theorem lt_of_mem_splits {p : List α × α × List α} {fuel : ℕ} (hfuel : xs.length < fuel + 1)
    (h : p ∈ splits xs) : p.1.length < fuel ∧ p.2.2.length < fuel := by
  obtain ⟨hfront, hback⟩ := length_of_mem_splits h
  have hle := Nat.le_of_lt_succ hfuel
  exact ⟨hfront.trans_le hle, hback.trans_le hle⟩

theorem lengths_splits (x : α) (xs : List α) :
    (splits (x :: xs)).map (fun p => (p.1.length, p.2.2.length)) =
      List.Nat.antidiagonal xs.length := by
  induction xs generalizing x with
  | nil => rfl
  | cons y xs ih =>
    have hmap : ((splits (y :: xs)).map fun p => (x :: p.1, p.2)).map
        (fun p => (p.1.length, p.2.2.length)) =
        ((splits (y :: xs)).map fun p => (p.1.length, p.2.2.length)).map
          (Prod.map Nat.succ id) := by
      rw [List.map_map, List.map_map]
      rfl
    rw [splits, List.map_cons, hmap, ih y, List.length_cons, List.Nat.antidiagonal_succ]
    rfl

/-- What is put together from two sides is not repeated, where it says what the sides were. -/
theorem nodup_combine {P A B T : Type*} {ps : List P} {ls : P → List A} {rs : P → List B}
    {node : P → A → B → T} (hps : ps.Nodup) (hls : ∀ p ∈ ps, (ls p).Nodup)
    (hrs : ∀ p ∈ ps, (rs p).Nodup)
    (hnode : ∀ p ∈ ps, ∀ p' ∈ ps, ∀ l ∈ ls p, ∀ l' ∈ ls p', ∀ r ∈ rs p, ∀ r' ∈ rs p',
      node p l r = node p' l' r' → p = p' ∧ l = l' ∧ r = r') :
    (ps.flatMap fun p => (ls p).flatMap fun l => (rs p).map fun r => node p l r).Nodup := by
  refine List.nodup_flatMap.mpr ⟨fun p hp => ?_, ?_⟩
  · refine List.nodup_flatMap.mpr ⟨fun l hl => ?_, ?_⟩
    · refine (List.nodup_map_iff_inj_on (hrs p hp)).mpr fun r hr r' hr' h => ?_
      exact (hnode p hp p hp l hl l hl r hr r' hr' h).2.2
    · refine (hls p hp).imp_of_mem fun {l l'} hl hl' hne => ?_
      intro t ht ht'
      obtain ⟨r, hr, rfl⟩ := List.mem_map.mp ht
      obtain ⟨r', hr', h⟩ := List.mem_map.mp ht'
      exact hne (hnode p hp p hp l hl l' hl' r hr r' hr' h.symm).2.1
  · refine hps.imp_of_mem fun {p p'} hp hp' hne => ?_
    intro t ht ht'
    simp only [List.mem_flatMap, List.mem_map] at ht ht'
    obtain ⟨l, hl, r, hr, rfl⟩ := ht
    obtain ⟨l', hl', r', hr', h⟩ := ht'
    exact hne (hnode p hp p' hp' l hl l' hl' r hr r' hr' h.symm).1

/-- As many as the Catalan number says, if it is so for the two sides. -/
theorem length_flatMap_splits {T : Type*} {f : List α × α × List α → List T}
    (h : ∀ p ∈ splits (x :: xs), (f p).length = catalan p.1.length * catalan p.2.2.length) :
    ((splits (x :: xs)).flatMap f).length = catalan (x :: xs).length := by
  have hsum : (fun p : List α × α × List α => catalan p.1.length * catalan p.2.2.length) =
      (fun q : ℕ × ℕ => catalan q.1 * catalan q.2) ∘ fun p => (p.1.length, p.2.2.length) := rfl
  rw [List.length_flatMap, List.map_congr_left h, hsum, ← List.map_map, lengths_splits,
    List.length_cons, catalan_succ']
  rfl

/-! ## All groupings -/

/-- All groupings of a chain of at most `fuel` operands. -/
def all : ℕ → S → List (Op × S) → List (Grouping S Op)
  | 0, _, _ => []
  | _ + 1, s, [] => [leaf s]
  | fuel + 1, s, step :: steps =>
      (splits (step :: steps)).flatMap fun p =>
        (all fuel s p.1).flatMap fun l => (all fuel p.2.1.2 p.2.2).map fun r => node p.2.1.1 l r

theorem mem_all (hfuel : steps.length < fuel) :
    t ∈ all fuel s steps ↔ t.first = s ∧ t.rest = steps := by
  induction fuel generalizing s steps t with
  | zero => cases hfuel
  | succ fuel ih =>
    cases steps with
    | nil =>
      rw [all, List.mem_singleton]
      cases t with
      | leaf s => simp [Grouping.first, Grouping.rest]
      | node op l r => simp [Grouping.rest]
    | cons step steps =>
      simp only [all, List.mem_flatMap, List.mem_map]
      constructor
      · rintro ⟨⟨front, ⟨op, s'⟩, back⟩, hsplit, l, hl, r, hr, rfl⟩
        obtain ⟨hfront, hback⟩ := lt_of_mem_splits hfuel hsplit
        obtain ⟨rfl, rfl⟩ := (ih hfront).mp hl
        obtain ⟨rfl, rfl⟩ := (ih hback).mp hr
        exact ⟨rfl, (mem_splits.mp hsplit).symm⟩
      · rintro ⟨rfl, hrest⟩
        cases t with
        | leaf s => cases hrest
        | node op l r =>
          have hsplit : (l.rest, (op, r.first), r.rest) ∈ splits (step :: steps) :=
            mem_splits.mpr hrest.symm
          obtain ⟨hfront, hback⟩ := lt_of_mem_splits hfuel hsplit
          have hl : l ∈ all fuel l.first l.rest := (ih hfront).mpr ⟨rfl, rfl⟩
          have hr : r ∈ all fuel r.first r.rest := (ih hback).mpr ⟨rfl, rfl⟩
          exact ⟨_, hsplit, l, hl, r, hr, rfl⟩

theorem nodup_all (fuel : ℕ) (s : S) (steps : List (Op × S)) (hfuel : steps.length < fuel) :
    (all fuel s steps).Nodup := by
  induction fuel generalizing s steps with
  | zero => cases hfuel
  | succ fuel ih =>
    cases steps with
    | nil => exact List.nodup_singleton _
    | cons step steps =>
      have hlen {p} := lt_of_mem_splits (p := p) hfuel
      apply nodup_combine (nodup_splits _) (fun p hp => ih s p.1 (hlen hp).1)
        (fun p hp => ih p.2.1.2 p.2.2 (hlen hp).2)
      rintro ⟨front, ⟨op, s₁⟩, back⟩ hp ⟨front', ⟨op', s₁'⟩, back'⟩ hp' l hl l' hl' r hr r' hr' h
      cases h
      -- the chains of the two sides say where the chain was split
      obtain ⟨-, rfl⟩ := (mem_all (hlen hp).1).mp hl
      obtain ⟨-, rfl⟩ := (mem_all (hlen hp').1).mp hl'
      obtain ⟨rfl, rfl⟩ := (mem_all (hlen hp).2).mp hr
      obtain ⟨rfl, rfl⟩ := (mem_all (hlen hp').2).mp hr'
      exact ⟨rfl, rfl, rfl⟩

/-- A chain with `n` operators has as many groupings as the Catalan number says. -/
theorem length_all (fuel : ℕ) (s : S) (steps : List (Op × S)) (hfuel : steps.length < fuel) :
    (all fuel s steps).length = catalan steps.length := by
  induction fuel generalizing s steps with
  | zero => cases hfuel
  | succ fuel ih =>
    cases steps with
    | nil => simp [all]
    | cons step steps =>
      apply length_flatMap_splits
      intro p hp
      obtain ⟨hfront, hback⟩ := lt_of_mem_splits hfuel hp
      simp [List.length_flatMap, ih _ _ hfront, ih _ _ hback]

end Grouping

end InterviewQuestions.Library
