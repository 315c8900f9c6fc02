import Mathlib.Data.List.Sort
import Mathlib.Logic.Relation
import Mathlib.Tactic.Common

/-! Best-first search in a tree where the keys do not grow from a node to its children: what is
taken first are the nodes with the largest keys. -/
namespace InterviewQuestions.Library.BestFirst

open Relation

variable {ν κ : Type*} {child : ν → ν → Prop} {root u v x : ν}
  {taken frontier frontier' children nodes : List ν}

/-- Every node is the child of at most one, and the root of none. -/
structure IsTree (child : ν → ν → Prop) (root : ν) : Prop where
  unique : ∀ u v w, child u w → child v w → u = v
  orphan : ∀ u, ¬ child u root

/-- The frontier are the nodes of the tree that are not taken and whose parents are. -/
structure Search (child : ν → ν → Prop) (root : ν) (taken frontier : List ν) : Prop where
  nodup : (taken ++ frontier).Nodup
  reached : ∀ v ∈ taken ++ frontier, ReflTransGen child root v
  grown : ∀ v ∈ taken ++ frontier, v = root ∨ ∃ u ∈ taken, child u v
  cover : ∀ v, ReflTransGen child root v → v ∈ taken ∨ ∃ u ∈ frontier, ReflTransGen child u v

theorem Search.start (child : ν → ν → Prop) (root : ν) : Search child root [] [root] where
  nodup := List.nodup_singleton root
  reached := fun _ hv => List.mem_singleton.mp hv ▸ .refl
  grown := fun _ hv => .inl (List.mem_singleton.mp hv)
  cover := fun _ hv => .inr ⟨root, List.mem_singleton_self root, hv⟩

theorem Search.perm (h : Search child root taken frontier) (hperm : frontier.Perm frontier') :
    Search child root taken frontier' where
  nodup := (hperm.append_left taken).nodup_iff.mp h.nodup
  reached v hv := h.reached v ((hperm.append_left taken).mem_iff.mpr hv)
  grown v hv := h.grown v ((hperm.append_left taken).mem_iff.mpr hv)
  cover v hv := by
    rcases h.cover v hv with hmem | ⟨u, hu, huv⟩
    · exact .inl hmem
    · exact .inr ⟨u, hperm.mem_iff.mp hu, huv⟩

theorem Search.notMem_taken (h : Search child root taken (x :: frontier)) : x ∉ taken := by
  have hnodup := List.perm_middle.nodup_iff.mp h.nodup
  exact fun htaken => (List.nodup_cons.mp hnodup).1 (List.mem_append_left frontier htaken)

theorem Search.notMem_child (h : Search child root taken (x :: frontier))
    (htree : IsTree child root) (hv : child x v) : v ∉ taken ++ x :: frontier := by
  intro hmem
  rcases h.grown v hmem with rfl | ⟨u, hu, huv⟩
  · exact htree.orphan x hv
  · exact h.notMem_taken (htree.unique u x v huv hv ▸ hu)

/-- A node of the frontier is taken, and its children come in its place. -/
theorem Search.step (h : Search child root taken (x :: frontier)) (htree : IsTree child root)
    (hnodup : children.Nodup) (hchildren : ∀ v, v ∈ children ↔ child x v) :
    Search child root (x :: taken) (children ++ frontier) := by
  have hperm : (taken ++ x :: frontier).Perm (x :: taken ++ frontier) := List.perm_middle
  have hperm' : (x :: taken ++ (children ++ frontier)).Perm
      (children ++ (x :: taken ++ frontier)) := by
    rw [← List.append_assoc, ← List.append_assoc]
    exact List.perm_append_comm.append_right frontier
  have hx : ReflTransGen child root x := h.reached x (hperm.mem_iff.mpr (List.mem_cons_self ..))
  constructor
  · rw [hperm'.nodup_iff]
    refine List.nodup_append.mpr ⟨hnodup, hperm.nodup_iff.mp h.nodup, fun v hv w hw => ?_⟩
    rintro rfl
    exact h.notMem_child htree ((hchildren v).mp hv) (hperm.mem_iff.mpr hw)
  · intro v hv
    rcases List.mem_append.mp (hperm'.mem_iff.mp hv) with hv | hv
    · exact hx.tail ((hchildren v).mp hv)
    · exact h.reached v (hperm.mem_iff.mpr hv)
  · intro v hv
    rcases List.mem_append.mp (hperm'.mem_iff.mp hv) with hv | hv
    · exact .inr ⟨x, List.mem_cons_self .., (hchildren v).mp hv⟩
    · refine (h.grown v (hperm.mem_iff.mpr hv)).imp_right ?_
      rintro ⟨u, hu, huv⟩
      exact ⟨u, List.mem_cons_of_mem x hu, huv⟩
  · intro v hv
    rcases h.cover v hv with htaken | ⟨u, hu, huv⟩
    · exact .inl (List.mem_cons_of_mem x htaken)
    rcases List.mem_cons.mp hu with rfl | hu
    · -- below the node taken is the node itself, or what is below one of its children
      rcases huv.cases_head with rfl | ⟨c, hc, hcv⟩
      · exact .inl (List.mem_cons_self ..)
      · exact .inr ⟨c, List.mem_append_left frontier ((hchildren c).mpr hc), hcv⟩
    · exact .inr ⟨u, List.mem_append_right children hu, huv⟩

theorem Search.length_le (h : Search child root taken frontier)
    (hnodes : ∀ v, ReflTransGen child root v → v ∈ nodes) : taken.length ≤ nodes.length := by
  refine List.Nodup.length_le_of_subset (List.nodup_append.mp h.nodup).1 fun v hv => ?_
  exact hnodes v (h.reached v (List.mem_append_left frontier hv))

/-- Without a frontier every node is taken. -/
theorem Search.length_eq (h : Search child root taken []) (hnodup : nodes.Nodup)
    (hnodes : ∀ v, v ∈ nodes ↔ ReflTransGen child root v) : taken.length = nodes.length := by
  refine Nat.le_antisymm (h.length_le fun v => (hnodes v).mpr) ?_
  refine List.Nodup.length_le_of_subset hnodup fun v hv => ?_
  rcases h.cover v ((hnodes v).mp hv) with hmem | ⟨u, hu, -⟩
  · exact hmem
  · exact absurd hu List.not_mem_nil

/-! ## The keys -/

section Keys

variable [LinearOrder κ] {key : ν → κ}

theorem key_le (hkey : ∀ u v, child u v → key v ≤ key u) (h : ReflTransGen child u v) :
    key v ≤ key u := by
  induction h with
  | refl => exact le_rfl
  | tail _ hstep ih => exact (hkey _ _ hstep).trans ih

/-- No node that is not taken has a larger key than one that is. -/
def Leading (key : ν → κ) (child : ν → ν → Prop) (root : ν) (taken : List ν) : Prop :=
  ∀ u ∈ taken, ∀ v, ReflTransGen child root v → v ∉ taken → key v ≤ key u

theorem Leading.nil : Leading key child root [] := fun _ hu => absurd hu List.not_mem_nil

/-- The best of the frontier is the best of all that is not taken. -/
theorem Search.best (h : Search child root taken frontier)
    (hkey : ∀ u v, child u v → key v ≤ key u) (hbest : ∀ u ∈ frontier, key u ≤ key x)
    (hv : ReflTransGen child root v) (htaken : v ∉ taken) : key v ≤ key x := by
  rcases h.cover v hv with hmem | ⟨u, hu, huv⟩
  · exact absurd hmem htaken
  · exact (key_le hkey huv).trans (hbest u hu)

theorem Leading.cons (hlead : Leading key child root taken)
    (h : Search child root taken frontier) (hkey : ∀ u v, child u v → key v ≤ key u)
    (hbest : ∀ u ∈ frontier, key u ≤ key x) : Leading key child root (x :: taken) := by
  intro u hu v hv hnot
  have htaken : v ∉ taken := fun hmem => hnot (List.mem_cons_of_mem x hmem)
  rcases List.mem_cons.mp hu with rfl | hu
  · exact h.best hkey hbest hv htaken
  · exact hlead u hu v hv htaken

/-- The entry of a sorted list behind the larger ones. -/
theorem getElem?_mergeSort {values front back : List κ} {a : κ}
    (hperm : values.Perm (front ++ a :: back)) (hfront : ∀ b ∈ front, a ≤ b)
    (hback : ∀ b ∈ back, b ≤ a) :
    (values.mergeSort (· ≥ ·))[front.length]? = some a := by
  have hsorted (l : List κ) : (l.mergeSort (· ≥ ·)).Pairwise (· ≥ ·) :=
    List.pairwise_mergeSort' (· ≥ ·) l
  have hsplit : values.mergeSort (· ≥ ·) =
      front.mergeSort (· ≥ ·) ++ a :: back.mergeSort (· ≥ ·) := by
    refine List.Perm.eq_of_pairwise' (hsorted values) ?_ ?_
    · refine List.pairwise_append.mpr ⟨hsorted front, List.pairwise_cons.mpr ⟨?_, hsorted back⟩, ?_⟩
      · exact fun b hb => hback b (List.mem_mergeSort.mp hb)
      · intro b hb c hc
        have hab := hfront b (List.mem_mergeSort.mp hb)
        rcases List.mem_cons.mp hc with rfl | hc
        · exact hab
        · exact (hback c (List.mem_mergeSort.mp hc)).trans hab
    · refine (List.mergeSort_perm _ _).trans (hperm.trans ?_)
      exact (List.mergeSort_perm _ _).symm.append ((List.mergeSort_perm _ _).symm.cons a)
  rw [hsplit, List.getElem?_append_right (by simp)]
  simp

/-- The best of the frontier comes right after what is taken, in the descending order of the
keys of all nodes. -/
theorem Search.getElem?_sorted (h : Search child root taken (x :: frontier))
    (hkey : ∀ u v, child u v → key v ≤ key u) (hlead : Leading key child root taken)
    (hbest : ∀ u ∈ x :: frontier, key u ≤ key x) (hnodup : nodes.Nodup)
    (hnodes : ∀ v, v ∈ nodes ↔ ReflTransGen child root v) :
    ((nodes.map key).mergeSort (· ≥ ·))[taken.length]? = some (key x) := by
  have hx : ReflTransGen child root x :=
    h.reached x (List.mem_append_right taken (List.mem_cons_self ..))
  have hsub : (x :: taken) ⊆ nodes := by
    intro v hv
    rcases List.mem_cons.mp hv with rfl | hv
    · exact (hnodes v).mpr hx
    · exact (hnodes v).mpr (h.reached v (List.mem_append_left _ hv))
  have hxtaken : (x :: taken).Nodup :=
    List.nodup_cons.mpr ⟨h.notMem_taken, (List.nodup_append.mp h.nodup).1⟩
  obtain ⟨l, hl, hsublist⟩ := List.subperm_of_subset hxtaken hsub
  obtain ⟨others, hothers⟩ := hsublist.exists_perm_append
  have hperm : nodes.Perm (taken ++ x :: others) :=
    (hothers.trans (hl.append_right others)).trans List.perm_middle.symm
  have hdisjoint := List.nodup_append.mp (hperm.nodup_iff.mp hnodup)
  have hmap : (nodes.map key).Perm (taken.map key ++ key x :: others.map key) := by
    rw [← List.map_cons, ← List.map_append]
    exact hperm.map key
  have hlen : (taken.map key).length = taken.length := List.length_map key
  rw [← hlen]
  refine getElem?_mergeSort hmap ?_ ?_
  · intro b hb
    obtain ⟨u, hu, rfl⟩ := List.mem_map.mp hb
    exact hlead u hu x hx h.notMem_taken
  · intro b hb
    obtain ⟨v, hv, rfl⟩ := List.mem_map.mp hb
    have hmem := List.mem_append_right taken (List.mem_cons_of_mem x hv)
    refine h.best hkey hbest ((hnodes v).mp (hperm.mem_iff.mpr hmem)) fun htaken => ?_
    exact hdisjoint.2.2 v htaken v (List.mem_cons_of_mem x hv) rfl

end Keys

end InterviewQuestions.Library.BestFirst
