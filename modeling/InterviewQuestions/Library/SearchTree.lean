import InterviewQuestions.Library.PointerTree
import Mathlib.Data.List.Nodup
import Mathlib.Order.Lattice

/-! Search trees of nodes with keys. The keys on the left are less than the one of the node, those
on the right are not. -/
namespace InterviewQuestions.Library.KeyedTree

open PointerTree

variable {α κ : Type*} [LinearOrder κ] {key key' : α → κ} {t t' l r sr : BinaryTree α}
  {p q : Path α} {a z s : α}

def Ordered (key : α → κ) : BinaryTree α → Prop
  | .nil => True
  | .node a l r => (∀ b ∈ inorder l, key b < key a) ∧ (∀ b ∈ inorder r, key a ≤ key b) ∧
      Ordered key l ∧ Ordered key r

theorem Ordered.congr (h : Ordered key t) (hkey : ∀ a ∈ inorder t, key' a = key a) :
    Ordered key' t := by
  induction t with
  | nil => trivial
  | node a l r ihl ihr =>
    simp only [inorder, List.mem_append, List.mem_cons] at hkey
    obtain ⟨hl, hr, hleft, hright⟩ := h
    refine ⟨fun b hb => ?_, fun b hb => ?_, ?_, ?_⟩
    · rw [hkey b (.inl hb), hkey a (.inr (.inl rfl))]
      exact hl b hb
    · rw [hkey b (.inr (.inr hb)), hkey a (.inr (.inl rfl))]
      exact hr b hb
    · exact ihl hleft fun b hb => hkey b (.inl hb)
    · exact ihr hright fun b hb => hkey b (.inr (.inr hb))

/-- From left to right the keys do not decrease. -/
theorem Ordered.pairwise (h : Ordered key t) :
    (inorder t).Pairwise fun a b => key a ≤ key b := by
  induction t with
  | nil => exact .nil
  | node a l r ihl ihr =>
    obtain ⟨hl, hr, hleft, hright⟩ := h
    apply List.pairwise_append.mpr ⟨ihl hleft, List.pairwise_cons.mpr ⟨hr, ihr hright⟩, ?_⟩
    intro b hb c hc
    rcases List.mem_cons.mp hc with rfl | hc
    · exact (hl b hb).le
    · exact (hl b hb).le.trans (hr c hc)

theorem Ordered.of_fill (h : Ordered key (p.fill t)) : Ordered key t := by
  induction p generalizing t with
  | root => exact h
  | left up a r ih => exact (ih h).2.2.1
  | right up a l ih => exact (ih h).2.2.2

/-- Another search tree with no other nodes can take the place of a subtree. -/
theorem Ordered.refill (h : Ordered key (p.fill t)) (ht : Ordered key t')
    (hsub : ∀ b ∈ inorder t', b ∈ inorder t) : Ordered key (p.fill t') := by
  induction p generalizing t t' with
  | root => exact ht
  | left up a r ih =>
    have hnode : Ordered key (.node a t r) := h.of_fill (p := up)
    have hnode' : Ordered key (.node a t' r) :=
      ⟨fun b hb => hnode.1 b (hsub b hb), hnode.2.1, ht, hnode.2.2.2⟩
    apply ih h hnode'
    intro b hb
    rcases List.mem_append.mp hb with hb | hb
    · exact List.mem_append_left _ (hsub b hb)
    · exact List.mem_append_right _ hb
  | right up a l ih =>
    have hnode : Ordered key (.node a l t) := h.of_fill (p := up)
    have hnode' : Ordered key (.node a l t') :=
      ⟨hnode.1, fun b hb => hnode.2.1 b (hsub b hb), hnode.2.2.1, ht⟩
    apply ih h hnode'
    intro b hb
    rcases List.mem_append.mp hb with hb | hb
    · exact List.mem_append_left _ hb
    · rcases List.mem_cons.mp hb with rfl | hb
      · exact List.mem_append_right _ List.mem_cons_self
      · exact List.mem_append_right _ (List.mem_cons_of_mem a (hsub b hb))

/-- The first node on the right takes the place of the node itself. -/
theorem Ordered.promote (h : Ordered key (.node z l (q.fill (.node s .nil sr))))
    (hq : q.before = []) : Ordered key (.node s l (q.fill sr)) := by
  obtain ⟨hl, hr, hleft, hright⟩ := h
  have hnode : Ordered key (.node s .nil sr) := hright.of_fill
  have hfirst : inorder (q.fill (.node s .nil sr)) = s :: (inorder sr ++ q.after) := by
    rw [Path.inorder_fill, hq]
    rfl
  have hrest : inorder (q.fill sr) = inorder sr ++ q.after := by
    rw [Path.inorder_fill, hq]
    rfl
  have hzs : key z ≤ key s := hr s (by rw [hfirst]; exact List.mem_cons_self)
  have hpairs := hright.pairwise
  rw [hfirst, List.pairwise_cons] at hpairs
  refine ⟨fun b hb => (hl b hb).trans_le hzs, fun b hb => ?_, hleft, ?_⟩
  · rw [hrest] at hb
    exact hpairs.1 b hb
  · exact hright.refill hnode.2.2.2 fun b hb => List.mem_cons_of_mem s hb

end InterviewQuestions.Library.KeyedTree

/-! Search trees that come from inserting one element after the other. Some trees apart from each
other are built by a list of elements when each is built by those that belong to it; such a list
starts with the root of one of them, and what follows builds the others and its two subtrees. -/
namespace InterviewQuestions.Library.SearchTree

open PointerTree (inorder)

variable {α : Type*} {t l r : BinaryTree α} {trees trees' rest : List (BinaryTree α)} {a x y : α}
  {xs : List α}

theorem mem_inorder_node : x ∈ inorder (.node a l r) ↔ x = a ∨ x ∈ inorder l ∨ x ∈ inorder r := by
  rw [(PointerTree.perm_node a l r).mem_iff, List.mem_cons, List.mem_append]

/-- The subtrees take the place of a tree. -/
theorem flatMap_perm (a : α) (l r : BinaryTree α) (rest : List (BinaryTree α)) :
    ((BinaryTree.node a l r :: rest).flatMap inorder).Perm
      (a :: (rest ++ [l, r]).flatMap inorder) := by
  have hfront := (PointerTree.perm_node a l r).append_right (rest.flatMap inorder)
  have hlast : (rest ++ [l, r]).flatMap inorder =
      rest.flatMap inorder ++ (inorder l ++ inorder r) := by
    simp
  rw [List.flatMap_cons, hlast]
  exact hfront.trans (List.perm_append_comm.cons a)

variable [LinearOrder α]

/-- An element that is already there goes to the right. -/
def insert : BinaryTree α → α → BinaryTree α
  | .nil, x => .node x .nil .nil
  | .node a l r, x => if x < a then .node a (insert l x) r else .node a l (insert r x)

def build (xs : List α) : BinaryTree α := xs.foldl insert .nil

/-- The elements on the left are less, those on the right are greater. -/
def Ordered : BinaryTree α → Prop
  | .nil => True
  | .node a l r => (∀ x ∈ inorder l, x < a) ∧ (∀ x ∈ inorder r, a < x) ∧ Ordered l ∧ Ordered r

theorem mem_inorder_insert : y ∈ inorder (insert t x) ↔ y = x ∨ y ∈ inorder t := by
  induction t with
  | nil => simp [insert, inorder]
  | node a l r ihl ihr =>
    unfold insert
    split_ifs
    · rw [mem_inorder_node, mem_inorder_node, ihl]
      tauto
    · rw [mem_inorder_node, mem_inorder_node, ihr]
      tauto

theorem mem_inorder_build : y ∈ inorder (build xs) ↔ y ∈ xs := by
  have hfold (t : BinaryTree α) : y ∈ inorder (xs.foldl insert t) ↔ y ∈ xs ∨ y ∈ inorder t := by
    induction xs generalizing t with
    | nil => simp
    | cons x xs ih =>
      rw [List.foldl_cons, ih, mem_inorder_insert, List.mem_cons]
      tauto
  rw [build, hfold]
  simp [inorder]

theorem foldl_insert_node (xs : List α) (a : α) (l r : BinaryTree α) :
    xs.foldl insert (.node a l r) =
      .node a ((xs.filter fun x => x < a).foldl insert l)
        ((xs.filter fun x => ¬ x < a).foldl insert r) := by
  induction xs generalizing l r with
  | nil => rfl
  | cons x xs ih =>
    rw [List.foldl_cons, insert]
    by_cases hx : x < a
    · rw [if_pos hx, ih, List.filter_cons_of_pos (by simpa using hx),
        List.filter_cons_of_neg (by simpa using hx)]
      rfl
    · rw [if_neg hx, ih, List.filter_cons_of_neg (by simpa using hx),
        List.filter_cons_of_pos (by simpa using hx)]
      rfl

theorem build_cons (a : α) (xs : List α) :
    build (a :: xs) = .node a (build (xs.filter fun x => x < a))
      (build (xs.filter fun x => ¬ x < a)) :=
  foldl_insert_node xs a .nil .nil

/-- From left to right the elements increase. -/
theorem Ordered.pairwise (h : Ordered t) : (inorder t).Pairwise (· < ·) := by
  induction t with
  | nil => exact List.Pairwise.nil
  | node a l r ihl ihr =>
    obtain ⟨hl, hr, hleft, hright⟩ := h
    apply List.pairwise_append.mpr ⟨ihl hleft, List.pairwise_cons.mpr ⟨hr, ihr hright⟩, ?_⟩
    intro x hx y hy
    rcases List.mem_cons.mp hy with rfl | hy
    · exact hl x hx
    · exact (hl x hx).trans (hr y hy)

theorem Ordered.nodup (h : Ordered t) : (inorder t).Nodup := by
  induction t with
  | nil => exact List.nodup_nil
  | node a l r ihl ihr =>
    obtain ⟨hl, hr, hleft, hright⟩ := h
    refine PointerTree.nodup_node.mpr ⟨⟨fun ha => ?_, fun ha => ?_⟩, ihl hleft, ihr hright, ?_⟩
    · exact lt_irrefl a (hl a ha)
    · exact lt_irrefl a (hr a ha)
    · exact fun b hb hb' => lt_asymm (hl b hb) (hr b hb')

/-! ## Several trees -/

/-- Trees that have no element in common. -/
structure Apart (trees : List (BinaryTree α)) : Prop where
  ordered : ∀ t ∈ trees, Ordered t
  nodup : (trees.flatMap inorder).Nodup

/-- Each tree is built by its own elements. -/
structure Builds (trees : List (BinaryTree α)) (xs : List α) : Prop where
  each : ∀ t ∈ trees, build (xs.filter fun x => x ∈ inorder t) = t
  known : ∀ x ∈ xs, x ∈ trees.flatMap inorder

theorem apart_singleton (h : Ordered t) : Apart [t] where
  ordered t' ht' := by rwa [List.mem_singleton.mp ht']
  nodup := by
    rw [List.flatMap_singleton]
    exact h.nodup

theorem Apart.perm (h : Apart trees) (hperm : trees.Perm trees') : Apart trees' where
  ordered t ht := h.ordered t (hperm.mem_iff.mpr ht)
  nodup := (hperm.flatMap_right inorder).nodup_iff.mp h.nodup

theorem Builds.perm (h : Builds trees xs) (hperm : trees.Perm trees') : Builds trees' xs where
  each t ht := h.each t (hperm.mem_iff.mpr ht)
  known x hx := (hperm.flatMap_right inorder).mem_iff.mp (h.known x hx)

theorem builds_empty : Builds ([] : List (BinaryTree α)) xs ↔ xs = [] := by
  constructor
  · intro h
    exact List.eq_nil_iff_forall_not_mem.mpr fun x hx => List.not_mem_nil (h.known x hx)
  · rintro rfl
    exact ⟨fun t ht => absurd ht List.not_mem_nil, fun x hx => absurd hx List.not_mem_nil⟩

theorem builds_singleton : Builds [t] xs ↔ build xs = t := by
  have hown : (∀ x ∈ xs, x ∈ inorder t) → (xs.filter fun x => x ∈ inorder t) = xs := by
    intro hall
    exact List.filter_eq_self.mpr fun x hx => decide_eq_true (hall x hx)
  constructor
  · intro h
    have hbuild := h.each t List.mem_cons_self
    rwa [hown fun x hx => by simpa using h.known x hx] at hbuild
  · rintro rfl
    have hall : ∀ x ∈ xs, x ∈ inorder (build xs) := fun x hx => mem_inorder_build.mpr hx
    refine ⟨fun t ht => ?_, fun x hx => by simpa using hall x hx⟩
    rw [List.mem_singleton.mp ht, hown hall]

theorem flatMap_filter (trees : List (BinaryTree α)) :
    (trees.filter fun t => t ≠ .nil).flatMap inorder = trees.flatMap inorder := by
  induction trees with
  | nil => rfl
  | cons t trees ih =>
    by_cases ht : t = .nil
    · rw [List.filter_cons_of_neg (by simpa using ht), ih, ht]
      rfl
    · rw [List.filter_cons_of_pos (by simpa using ht), List.flatMap_cons, ih, List.flatMap_cons]

/-- Empty trees need no elements. -/
theorem builds_filter : Builds (trees.filter fun t => t ≠ .nil) xs ↔ Builds trees xs := by
  constructor
  · intro h
    refine ⟨fun t ht => ?_, fun x hx => flatMap_filter trees ▸ h.known x hx⟩
    by_cases hnil : t = .nil
    · rw [hnil, List.filter_eq_nil_iff.mpr (by simp [inorder])]
      rfl
    · exact h.each t (List.mem_filter.mpr ⟨ht, decide_eq_true hnil⟩)
  · intro h
    refine ⟨fun t ht => h.each t (List.mem_of_mem_filter ht), fun x hx => ?_⟩
    rw [flatMap_filter]
    exact h.known x hx

theorem Apart.filter (h : Apart trees) : Apart (trees.filter fun t => t ≠ .nil) where
  ordered t ht := h.ordered t (List.mem_of_mem_filter ht)
  nodup := by
    rw [flatMap_filter]
    exact h.nodup

theorem Apart.subtrees (h : Apart (.node a l r :: rest)) : Apart (rest ++ [l, r]) where
  ordered t ht := by
    obtain ⟨-, -, hl, hr⟩ := h.ordered _ List.mem_cons_self
    rcases List.mem_append.mp ht with hrest | hsub
    · exact h.ordered t (List.mem_cons_of_mem _ hrest)
    · rcases List.mem_pair.mp hsub with rfl | rfl
      · exact hl
      · exact hr
  nodup := (List.nodup_cons.mp ((flatMap_perm a l r rest).nodup_iff.mp h.nodup)).2

theorem Apart.not_mem (h : Apart (.node a l r :: rest)) : a ∉ (rest ++ [l, r]).flatMap inorder :=
  (List.nodup_cons.mp ((flatMap_perm a l r rest).nodup_iff.mp h.nodup)).1

theorem filter_own (ha : a ∈ inorder t) (xs : List α) :
    (a :: xs).filter (fun x => x ∈ inorder t) = a :: xs.filter fun x => x ∈ inorder t :=
  List.filter_cons_of_pos (decide_eq_true ha)

/-- Those that belong to the tree go to its subtrees. -/
theorem build_node_iff (h : Ordered (.node a l r)) (ha : a ∉ xs) :
    build ((a :: xs).filter fun x => x ∈ inorder (.node a l r)) = .node a l r ↔
      build (xs.filter fun x => x ∈ inorder l) = l ∧
        build (xs.filter fun x => x ∈ inorder r) = r := by
  obtain ⟨hl, hr, -, -⟩ := h
  have hleft : ((xs.filter fun x => x ∈ inorder (.node a l r)).filter fun x => x < a) =
      xs.filter fun x => x ∈ inorder l := by
    rw [List.filter_filter]
    refine List.filter_congr fun x hx => ?_
    rw [← Bool.decide_and, decide_eq_decide, mem_inorder_node]
    constructor
    · rintro ⟨hlt, rfl | hmem | hmem⟩
      · exact absurd hlt (lt_irrefl x)
      · exact hmem
      · exact absurd hlt (lt_asymm (hr x hmem))
    · exact fun hmem => ⟨hl x hmem, .inr (.inl hmem)⟩
  have hright : ((xs.filter fun x => x ∈ inorder (.node a l r)).filter fun x => ¬ x < a) =
      xs.filter fun x => x ∈ inorder r := by
    rw [List.filter_filter]
    refine List.filter_congr fun x hx => ?_
    rw [← Bool.decide_and, decide_eq_decide, mem_inorder_node]
    constructor
    · rintro ⟨hge, rfl | hmem | hmem⟩
      · exact absurd hx ha
      · exact absurd (hl x hmem) hge
      · exact hmem
    · exact fun hmem => ⟨lt_asymm (hr x hmem), .inr (.inr hmem)⟩
  rw [filter_own (mem_inorder_node.mpr (.inl rfl)), build_cons, hleft, hright,
    BinaryTree.node.injEq, and_iff_right rfl]

/-- The element at the root comes first, and nothing else changes for the other trees. -/
theorem builds_node (h : Apart (.node a l r :: rest)) :
    Builds (.node a l r :: rest) (a :: xs) ↔ Builds (rest ++ [l, r]) xs := by
  have hordered := h.ordered _ List.mem_cons_self
  have hother (t : BinaryTree α) (ht : t ∈ rest) :
      (a :: xs).filter (fun x => x ∈ inorder t) = xs.filter fun x => x ∈ inorder t := by
    refine List.filter_cons_of_neg fun hmem => h.not_mem ?_
    exact List.mem_flatMap.mpr ⟨t, List.mem_append_left _ ht, of_decide_eq_true hmem⟩
  constructor
  · intro hbuilds
    have hroot := hbuilds.each _ List.mem_cons_self
    have ha : a ∉ xs := by
      intro ha
      have hself : a ∈ inorder (.node a l r) := mem_inorder_node.mpr (.inl rfl)
      have hsplit := hroot
      rw [filter_own hself, build_cons] at hsplit
      have hr := (BinaryTree.node.inj hsplit).2.2
      have hmem : a ∈ inorder r := by
        rw [← hr, mem_inorder_build]
        simp [ha, hself]
      exact lt_irrefl a (hordered.2.1 a hmem)
    obtain ⟨hl, hr⟩ := (build_node_iff hordered ha).mp hroot
    refine ⟨fun t ht => ?_, fun x hx => ?_⟩
    · rcases List.mem_append.mp ht with hrest | hsub
      · rw [← hother t hrest]
        exact hbuilds.each t (List.mem_cons_of_mem _ hrest)
      · rcases List.mem_pair.mp hsub with rfl | rfl
        · exact hl
        · exact hr
    · have hmem := (flatMap_perm a l r rest).mem_iff.mp
        (hbuilds.known x (List.mem_cons_of_mem a hx))
      exact (List.mem_cons.mp hmem).resolve_left fun heq => ha (heq ▸ hx)
  · intro hbuilds
    have ha : a ∉ xs := fun ha => h.not_mem (hbuilds.known a ha)
    have hl := hbuilds.each l (by simp)
    have hr := hbuilds.each r (by simp)
    refine ⟨fun t ht => ?_, fun x hx => ?_⟩
    · rcases List.mem_cons.mp ht with rfl | hrest
      · exact (build_node_iff hordered ha).mpr ⟨hl, hr⟩
      · rw [hother t hrest]
        exact hbuilds.each t (List.mem_append_left _ hrest)
    · rw [(flatMap_perm a l r rest).mem_iff]
      rcases List.mem_cons.mp hx with rfl | hx
      · exact List.mem_cons_self
      · exact List.mem_cons_of_mem a (hbuilds.known x hx)

/-- The first element is at the root of one of the trees. -/
theorem Builds.root (h : Builds trees xs) (hnil : ∀ t ∈ trees, t ≠ .nil) (htrees : trees ≠ []) :
    ∃ a l r xs', xs = a :: xs' ∧ .node a l r ∈ trees := by
  cases xs with
  | nil =>
    obtain ⟨t, ht⟩ := List.exists_mem_of_ne_nil trees htrees
    exact absurd (h.each t ht).symm (hnil t ht)
  | cons a xs =>
    obtain ⟨t, ht, ha⟩ := List.mem_flatMap.mp (h.known a List.mem_cons_self)
    have hbuild := h.each t ht
    rw [filter_own ha, build_cons] at hbuild
    exact ⟨a, _, _, xs, rfl, hbuild ▸ ht⟩

end InterviewQuestions.Library.SearchTree
