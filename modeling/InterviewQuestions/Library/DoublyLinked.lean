import Mathlib.Data.List.Chain
import Mathlib.Data.List.Nodup
import Mathlib.Logic.Function.Basic

/-! Circular doubly linked lists with a head that is no element. All changes to a
ring replace a stretch of it, and touch the links of the two neighbours only. -/
namespace InterviewQuestions.Library

variable {α : Type*} {next prev next' prev' : α → α} {head : α}

/-- The two nodes point at each other. -/
def Link (next prev : α → α) (a b : α) : Prop := next a = b ∧ prev b = a

structure DoublyLinked (next prev : α → α) (head : α) (nodes : List α) : Prop where
  links : List.IsChain (Link next prev) (head :: (nodes ++ [head]))
  nodup : (head :: nodes).Nodup

namespace DoublyLinked

theorem nil (hnext : next head = head) (hprev : prev head = head) :
    DoublyLinked next prev head [] :=
  ⟨List.isChain_pair.mpr ⟨hnext, hprev⟩, List.nodup_singleton head⟩

/-- A chain reads `next` of all nodes but the last and `prev` of all but the first. -/
theorem links_congr {nodes : List α} (h : List.IsChain (Link next prev) nodes)
    (hnext : ∀ a ∈ nodes.dropLast, next' a = next a) (hprev : ∀ a ∈ nodes.tail, prev' a = prev a) :
    List.IsChain (Link next' prev') nodes := by
  induction nodes with
  | nil => exact List.IsChain.nil
  | cons a nodes ih =>
    cases nodes with
    | nil => exact List.isChain_singleton a
    | cons b nodes =>
      obtain ⟨hlink, hrest⟩ := List.isChain_cons_cons.mp h
      refine List.isChain_cons_cons.mpr ⟨⟨?_, ?_⟩, ih hrest ?_ ?_⟩
      · rw [hnext a List.mem_cons_self, hlink.1]
      · rw [hprev b List.mem_cons_self, hlink.2]
      · exact fun c hc => hnext c (List.mem_cons_of_mem a hc)
      · exact fun c hc => hprev c (List.mem_cons_of_mem b hc)

/-- A walk along `next` goes on from a node to the next of the rest, or to the head. -/
theorem links_step {a : α} {rest : List α}
    (h : List.IsChain (Link next prev) (a :: rest ++ [head])) :
    (∃ back, rest ++ [head] = next a :: back) ∧
      List.IsChain (Link next prev) (rest ++ [head]) := by
  obtain ⟨b, back, hback⟩ := List.exists_cons_of_ne_nil (show rest ++ [head] ≠ [] by simp)
  rw [List.cons_append, hback] at h
  obtain ⟨⟨hnext, _⟩, hrest⟩ := List.isChain_cons_cons.mp h
  rw [hback, hnext]
  exact ⟨⟨back, rfl⟩, hrest⟩

/-- Links elsewhere do not matter. -/
theorem congr {nodes : List α} (h : DoublyLinked next prev head nodes)
    (hnext : ∀ a ∈ head :: nodes, next' a = next a)
    (hprev : ∀ a ∈ head :: nodes, prev' a = prev a) : DoublyLinked next' prev' head nodes := by
  refine ⟨links_congr h.links (fun a ha => hnext a ?_) (fun a ha => hprev a ?_), h.nodup⟩
  · rwa [← List.cons_append, List.dropLast_concat] at ha
  · rw [List.tail_cons, List.mem_append, List.mem_singleton] at ha
    exact ha.elim (List.mem_cons_of_mem head) fun heq => heq ▸ List.mem_cons_self

/-- The nodes from head to head, split at the neighbours `p` and `n` of a stretch. -/
theorem around_middle {left right front back : List α} {p n : α} (hp : head :: left = front ++ [p])
    (hn : right ++ [head] = n :: back) (middle : List α) :
    head :: (left ++ middle ++ right ++ [head]) = front ++ p :: (middle ++ n :: back) := by
  rw [← hn, ← List.singleton_append (x := p), ← List.append_assoc front, ← hp]
  simp

theorem mem_outer_right {left right : List α} {a : α} (ha : a ∈ right ++ [head]) :
    a ∈ head :: (left ++ right) := by
  cases List.mem_append.mp ha with
  | inl hr => exact List.mem_cons_of_mem _ (List.mem_append_right _ hr)
  | inr hh => exact List.mem_singleton.mp hh ▸ List.mem_cons_self

section Relink

variable {left right front back : List α} {p n : α} (hp : head :: left = front ++ [p])
  (hn : right ++ [head] = n :: back) (hnodup : (head :: (left ++ right)).Nodup)
  (hnext : ∀ a ∈ head :: (left ++ right), a ≠ p → next' a = next a)
  (hprev : ∀ a ∈ head :: (left ++ right), a ≠ n → prev' a = prev a)

include hp hn hnodup hnext hprev

/-- The links up to the left neighbour do not change. -/
theorem links_left (h : List.IsChain (Link next prev) (front ++ [p])) :
    List.IsChain (Link next' prev') (front ++ [p]) := by
  have hleft : (front ++ [p]).Nodup := by
    rw [← hp]
    exact hnodup.sublist ((List.sublist_append_left left right).cons_cons head)
  have hapart : ∀ a ∈ head :: left, ∀ b ∈ right, a ≠ b :=
    (List.nodup_append.mp (show ((head :: left) ++ right).Nodup from hnodup)).2.2
  have hnmem : n ∈ right ++ [head] := by rw [hn]; exact List.mem_cons_self
  apply links_congr h
  · intro a ha
    rw [List.dropLast_concat] at ha
    have hmem : a ∈ head :: left := by rw [hp]; exact List.mem_append_left _ ha
    apply hnext a (List.mem_append_left right hmem)
    rintro rfl
    exact (List.nodup_append.mp hleft).2.2 a ha a (List.mem_singleton_self a) rfl
  · intro a ha
    rw [← hp, List.tail_cons] at ha
    apply hprev a (List.mem_cons_of_mem _ (List.mem_append_left _ ha))
    rintro rfl
    cases List.mem_append.mp hnmem with
    | inl hr => exact hapart a (List.mem_cons_of_mem _ ha) a hr rfl
    | inr hh =>
      rw [List.mem_singleton.mp hh] at ha
      exact (List.nodup_cons.mp hnodup).1 (List.mem_append_left _ ha)

/-- The links from the right neighbour on do not change. -/
theorem links_right (h : List.IsChain (Link next prev) (n :: back)) :
    List.IsChain (Link next' prev') (n :: back) := by
  have hright : (n :: back).Nodup := by
    rw [← hn, (List.perm_append_singleton head right).nodup_iff]
    exact hnodup.sublist ((List.sublist_append_right left right).cons_cons head)
  have hapart : ∀ a ∈ head :: left, ∀ b ∈ right, a ≠ b :=
    (List.nodup_append.mp (show ((head :: left) ++ right).Nodup from hnodup)).2.2
  have hpmem : p ∈ head :: left := by rw [hp]; simp
  apply links_congr h
  · intro a ha
    rw [← hn, List.dropLast_concat] at ha
    apply hnext a (List.mem_cons_of_mem _ (List.mem_append_right _ ha))
    rintro rfl
    exact hapart a hpmem a ha rfl
  · intro a ha
    rw [List.tail_cons] at ha
    have hmem : a ∈ right ++ [head] := by rw [hn]; exact List.mem_cons_of_mem _ ha
    apply hprev a (mem_outer_right hmem)
    rintro rfl
    exact (List.nodup_cons.mp hright).1 ha

end Relink

theorem nodup_outer {left middle right : List α}
    (h : DoublyLinked next prev head (left ++ middle ++ right)) :
    (head :: (left ++ right)).Nodup := by
  refine h.nodup.sublist (List.Sublist.cons_cons head ?_)
  rw [List.append_assoc]
  exact (List.sublist_append_right middle right).append_left left

/-- Replacing the nodes between the left neighbour `p` and the right neighbour `n`. -/
theorem relink {left middle right middle' front back : List α} {p n : α}
    (h : DoublyLinked next prev head (left ++ middle ++ right)) (hp : head :: left = front ++ [p])
    (hn : right ++ [head] = n :: back)
    (hnext : ∀ a ∈ head :: (left ++ right), a ≠ p → next' a = next a)
    (hprev : ∀ a ∈ head :: (left ++ right), a ≠ n → prev' a = prev a)
    (hmiddle : List.IsChain (Link next' prev') (p :: (middle' ++ [n]))) (hnodup : middle'.Nodup)
    (hfresh : ∀ a ∈ middle', a ∉ head :: (left ++ right)) :
    DoublyLinked next' prev' head (left ++ middle' ++ right) := by
  have houter := h.nodup_outer
  have hlinks := h.links
  rw [around_middle hp hn, List.isChain_split, List.isChain_cons_split] at hlinks
  constructor
  · rw [around_middle hp hn, List.isChain_split, List.isChain_cons_split]
    exact ⟨links_left hp hn houter hnext hprev hlinks.1, hmiddle,
      links_right hp hn houter hnext hprev hlinks.2.2⟩
  · have hperm : (head :: (left ++ middle' ++ right)).Perm
        (middle' ++ head :: (left ++ right)) := by
      rw [List.append_assoc]
      refine (List.Perm.cons head ?_).trans List.perm_middle.symm
      rw [← List.append_assoc, ← List.append_assoc]
      exact List.perm_append_comm.append_right right
    rw [hperm.nodup_iff]
    refine List.nodup_append.mpr ⟨hnodup, houter, ?_⟩
    rintro a ha b hb rfl
    exact hfresh a ha hb

/-! ## Reading a ring -/

/-- Where two stretches of a ring meet. -/
theorem seam {left right back : List α} {n : α} (h : DoublyLinked next prev head (left ++ right))
    (hn : right ++ [head] = n :: back) :
    ∃ front, head :: left = front ++ [prev n] ∧ next (prev n) = n := by
  obtain ⟨front, p, hp⟩ : ∃ front p, head :: left = front ++ [p] :=
    ⟨(head :: left).dropLast, (head :: left).getLast (List.cons_ne_nil _ _),
      (List.dropLast_append_getLast _).symm⟩
  have hlinks := h.links
  have hsplit : head :: (left ++ right ++ [head]) = front ++ p :: n :: back := by
    rw [List.append_assoc, hn, ← List.cons_append, hp, List.append_assoc, List.singleton_append]
  rw [hsplit, List.isChain_append_cons_cons] at hlinks
  obtain ⟨hnext, hprev⟩ := hlinks.2.1
  rw [hprev]
  exact ⟨front, hp, hnext⟩

/-- The neighbours of an element. -/
theorem around {left right : List α} {x : α}
    (h : DoublyLinked next prev head (left ++ x :: right)) :
    (∃ front, head :: left = front ++ [prev x]) ∧ ∃ back, right ++ [head] = next x :: back := by
  have hcons : x :: right ++ [head] = x :: (right ++ [head]) := List.cons_append
  obtain ⟨front, hfront, _⟩ := h.seam hcons
  refine ⟨⟨front, hfront⟩, ?_⟩
  obtain ⟨n, back, hn⟩ := List.exists_cons_of_ne_nil (show right ++ [head] ≠ [] by simp)
  have hlinks := h.links
  have hsplit : head :: (left ++ x :: right ++ [head]) = (head :: left) ++ x :: n :: back := by
    rw [← hn]
    simp
  rw [hsplit, List.isChain_append_cons_cons] at hlinks
  rw [hlinks.2.1.1]
  exact ⟨back, hn⟩

theorem prev_ne_self {left right : List α} {x : α}
    (h : DoublyLinked next prev head (left ++ x :: right)) : prev x ≠ x := by
  intro heq
  rcases h.around.1 with ⟨front, hfront⟩
  rw [heq] at hfront
  have hmem : x ∈ head :: left := by
    rw [hfront]
    exact List.mem_append_right _ List.mem_cons_self
  have hnodup : (head :: left ++ x :: right).Nodup := h.nodup
  exact (List.nodup_append.mp hnodup).2.2 x hmem x List.mem_cons_self rfl

theorem next_head {nodes : List α} (h : DoublyLinked next prev head nodes) :
    ∃ back, nodes ++ [head] = next head :: back := by
  have hlinks := h.links
  cases nodes with
  | nil =>
    rw [(List.isChain_pair.mp hlinks).1]
    exact ⟨[], rfl⟩
  | cons a nodes =>
    rw [(List.isChain_cons_cons.mp hlinks).1.1]
    exact ⟨nodes ++ [head], rfl⟩

theorem next_mem {nodes : List α} (h : DoublyLinked next prev head nodes) (hne : next head ≠ head) :
    next head ∈ nodes := by
  obtain ⟨back, hback⟩ := h.next_head
  have hmem : next head ∈ nodes ++ [head] := by rw [hback]; exact List.mem_cons_self
  exact (List.mem_append.mp hmem).resolve_right fun hhead => hne (List.mem_singleton.mp hhead)

/-! ## Changing a ring -/

variable [DecidableEq α]

theorem remove {left right : List α} {x : α}
    (h : DoublyLinked next prev head (left ++ x :: right)) :
    DoublyLinked (Function.update next (prev x) (next x))
      (Function.update prev (next x) (prev x)) head
      (left ++ right) := by
  obtain ⟨⟨front, hfront⟩, back, hback⟩ := h.around
  have hmiddle : DoublyLinked next prev head (left ++ [x] ++ right) := by
    rwa [List.append_assoc, List.singleton_append]
  rw [← List.append_nil left]
  refine hmiddle.relink hfront hback (fun a _ ha => Function.update_of_ne ha (next x) next)
    (fun a _ ha => Function.update_of_ne ha (prev x) prev) ?_ List.nodup_nil fun a ha => by cases ha
  exact List.isChain_pair.mpr ⟨Function.update_self .., Function.update_self ..⟩

/-- A new node `y` instead of the nodes between `p` and `n`. -/
theorem link_between {left middle right front back : List α} {p n y : α}
    (h : DoublyLinked next prev head (left ++ middle ++ right)) (hp : head :: left = front ++ [p])
    (hn : right ++ [head] = n :: back) (hy : y ∉ head :: (left ++ right)) :
    DoublyLinked (Function.update (Function.update next y n) p y)
      (Function.update (Function.update prev y p) n y) head (left ++ y :: right) := by
  have hne : ∀ a ∈ head :: (left ++ right), a ≠ y := by
    rintro a ha rfl
    exact hy ha
  have hyp : y ≠ p := by
    have hmem : p ∈ head :: left := by rw [hp]; simp
    exact (hne p (List.mem_append_left right hmem)).symm
  have hyn : y ≠ n := by
    have hmem : n ∈ right ++ [head] := by rw [hn]; exact List.mem_cons_self
    exact (hne n (mem_outer_right hmem)).symm
  rw [← List.singleton_append (x := y), ← List.append_assoc]
  refine h.relink hp hn (fun a ha hap => ?_) (fun a ha han => ?_) ?_ (List.nodup_singleton y)
    fun a ha => List.mem_singleton.mp ha ▸ hy
  · rw [Function.update_of_ne hap, Function.update_of_ne (hne a ha)]
  · rw [Function.update_of_ne han, Function.update_of_ne (hne a ha)]
  · refine List.isChain_cons_cons.mpr
      ⟨⟨Function.update_self .., ?_⟩, List.isChain_pair.mpr ⟨?_, ?_⟩⟩
    · rw [Function.update_of_ne hyn, Function.update_self]
    · rw [Function.update_of_ne hyp, Function.update_self]
    · exact Function.update_self ..

theorem insert {left right back : List α} {y n : α}
    (h : DoublyLinked next prev head (left ++ right))
    (hn : right ++ [head] = n :: back) (hy : y ∉ head :: (left ++ right)) :
    DoublyLinked (Function.update (Function.update next y n) (prev n) y)
      (Function.update (Function.update prev y (prev n)) n y) head (left ++ y :: right) := by
  obtain ⟨front, hfront, _⟩ := h.seam hn
  have hmiddle : DoublyLinked next prev head (left ++ [] ++ right) := by rwa [List.append_nil]
  exact hmiddle.link_between hfront hn hy

theorem replace {left right : List α} {x y : α}
    (h : DoublyLinked next prev head (left ++ x :: right))
    (hy : y ∉ head :: (left ++ right)) :
    DoublyLinked (Function.update (Function.update next y (next x)) (prev x) y)
      (Function.update (Function.update prev y (prev x)) (next x) y) head
      (left ++ y :: right) := by
  obtain ⟨⟨front, hfront⟩, back, hback⟩ := h.around
  have hmiddle : DoublyLinked next prev head (left ++ [x] ++ right) := by
    rwa [List.append_assoc, List.singleton_append]
  exact hmiddle.link_between hfront hback hy

end DoublyLinked

end InterviewQuestions.Library
