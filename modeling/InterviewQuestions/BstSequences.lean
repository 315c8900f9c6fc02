import InterviewQuestions.Library.CountingLoop
import InterviewQuestions.Library.Rearrangement
import InterviewQuestions.Library.Scanf
import InterviewQuestions.Library.SearchTree
import Mathlib.Algebra.BigOperators.Group.List.Basic
import Mathlib.Data.Int.Order.Basic
import Mathlib.Data.Tree.Basic

/-! `trees_graphs/bst_sequences`. A pointer to a node is the tree below it, and `NULL` the empty
tree. There is no result beyond the end of the array and for the members of `NULL`. -/
namespace InterviewQuestions.BstSequences

open Library Scanf

/-- The buffer, and what has been printed. -/
structure State where
  buff : List (BinaryTree ℤ)
  printed : List UInt8

/-- `node->value` -/
def value : BinaryTree ℤ → Option ℤ
  | .nil => none
  | .node value _ _ => some value

/-- The text between the brackets. -/
def joined : List ℤ → List UInt8
  | [] => []
  | value :: values => printInt value ++ values.flatMap fun value => [44, 32] ++ printInt value

def arrayText (values : List ℤ) : List UInt8 := [91, 32] ++ joined values ++ [32, 93, 10]

def printArray (array : List (BinaryTree ℤ)) (arraySz : ℕ) : Option (List UInt8) :=
  if arraySz ≤ array.length then ((array.take arraySz).mapM value).map arrayText else none

/-- `array[array_sz + inserted] = child`, if there is a child; the array is in `buff` from the place
`array` on. -/
def insertChild (array arraySz : ℕ) (child : BinaryTree ℤ) :
    List (BinaryTree ℤ) × ℕ → Option (List (BinaryTree ℤ) × ℕ)
  | (buff, inserted) =>
      if child = .nil then some (buff, inserted)
      else if array + (arraySz + inserted) < buff.length then
        some (buff.set (array + (arraySz + inserted)) child, inserted + 1)
      else none

/-- The array after both, and how many were inserted. -/
def insertChildren (array arraySz : ℕ) (left right : BinaryTree ℤ) (buff : List (BinaryTree ℤ)) :
    Option (List (BinaryTree ℤ) × ℕ) :=
  (insertChild array arraySz left (buff, 0)).bind (insertChild array arraySz right)

/-- There is no result where the recursion is deeper than `depth`. -/
def bstSequencesAux : ℕ → ℕ → ℕ → ℕ → State → Option State
  | 0, _, _, _, _ => none
  | depth + 1, array, arraySz, nodes, s =>
      if arraySz = 0 then
        if nodes ≤ array then
          (printArray (s.buff.drop (array - nodes)) nodes).map fun line =>
            { s with printed := s.printed ++ line }
        else none
      else
        (List.range' 0 arraySz).foldlM (fun s i => do
          let buff ← swap s.buff (array + i) (array + 0)
          match ← buff[array]? with
          | .nil => none
          | .node _ left right => do
              let (buff, inserted) ← insertChildren array arraySz left right buff
              let s ← bstSequencesAux depth (array + 1) (arraySz - 1 + inserted) (nodes + inserted)
                { s with buff := buff }
              let buff ← swap s.buff (array + i) (array + 0)
              return { s with buff := buff }) s

/-- What is printed. The 4096 places of the buffer keep what they held after an earlier call. -/
def bstSequences (depth : ℕ) (arrayBuff : List (BinaryTree ℤ)) (root : BinaryTree ℤ) :
    Option (List UInt8) :=
  if root = .nil then some []
  else (bstSequencesAux depth 0 1 1 ⟨arrayBuff.set 0 root, []⟩).map State.printed

/-! The arrays that are printed are those that build the tree, as long as the buffer has a place for
every node. -/

open SearchTree
open PointerTree (inorder)

variable {n depth i : ℕ} {t l r : BinaryTree ℤ} {v : ℤ} {a values : List ℤ} {printed : List UInt8}
  {trees others placed junk front inserted : List (BinaryTree ℤ)}

/-! ## The arrays -/

/-- The children that are inserted. -/
def kids (l r : BinaryTree ℤ) : List (BinaryTree ℤ) := [l, r].filter fun t => t ≠ .nil

/-- What is printed for the place `i`, from what is printed for the trees after it. -/
def branch (sequences : List (BinaryTree ℤ) → List (List ℤ)) (trees : List (BinaryTree ℤ)) (i : ℕ) :
    List (List ℤ) :=
  match swap trees i 0 with
  | some (.node v l r :: others) => (sequences (others ++ kids l r)).map (v :: ·)
  | _ => []

/-- The arrays in the order in which they are printed, for trees with `n` nodes. -/
def sequences : ℕ → List (BinaryTree ℤ) → List (List ℤ)
  | 0, _ => [[]]
  | n + 1, trees => (List.range' 0 trees.length).flatMap (branch (sequences n) trees)

/-- The nodes of the trees. -/
def total (trees : List (BinaryTree ℤ)) : ℕ := (trees.map BinaryTree.numNodes).sum

theorem total_append (trees others : List (BinaryTree ℤ)) :
    total (trees ++ others) = total trees + total others := by
  rw [total, List.map_append, List.sum_append, total, total]

theorem total_perm (h : trees.Perm others) : total trees = total others := (h.map _).sum_eq

theorem length_le_total (h : ∀ t ∈ trees, t ≠ .nil) : trees.length ≤ total trees := by
  induction trees with
  | nil => exact Nat.le_refl 0
  | cons t trees ih =>
    have hrest := ih fun t ht => h t (List.mem_cons_of_mem _ ht)
    have hfirst : 1 ≤ t.numNodes := by
      cases t with
      | nil => exact absurd rfl (h _ List.mem_cons_self)
      | node v l r => exact Nat.succ_le_succ (Nat.zero_le _)
    have hcons : total (t :: trees) = t.numNodes + total trees := List.sum_cons
    rw [hcons, List.length_cons]
    omega

theorem kids_ne_nil : ∀ t ∈ kids l r, t ≠ .nil :=
  fun _ ht => of_decide_eq_true (List.mem_filter.mp ht).2

theorem total_kids (l r : BinaryTree ℤ) : total (kids l r) = l.numNodes + r.numNodes := by
  unfold kids total
  by_cases hl : l = .nil
  · by_cases hr : r = .nil
    · simp [hl, hr]
    · simp [hl, hr]
  · by_cases hr : r = .nil
    · simp [hl, hr]
    · simp [hl, hr]

theorem total_node (v : ℤ) (l r : BinaryTree ℤ) (others : List (BinaryTree ℤ)) :
    total (.node v l r :: others) = total (others ++ kids l r) + 1 := by
  have hcons : total (.node v l r :: others) = (l.numNodes + r.numNodes + 1) + total others :=
    List.sum_cons
  rw [hcons, total_append, total_kids]
  omega

/-- A tree is brought to the front, and back again. -/
theorem exists_swap (htrees : ∀ t ∈ trees, t ≠ .nil) (hi : i < trees.length) :
    ∃ v l r others, trees[i]? = some (.node v l r) ∧
      swap trees i 0 = some (.node v l r :: others) ∧
      swap (.node v l r :: others) i 0 = some trees ∧
      (BinaryTree.node v l r :: others).Perm trees := by
  cases ht : trees[i]? with
  | none =>
    rw [List.getElem?_eq_none_iff] at ht
    omega
  | some t =>
    cases t with
    | nil => exact absurd rfl (htrees _ (List.mem_of_getElem? ht))
    | node v l r =>
      obtain ⟨others, hthere, hback, hperm⟩ := swap_front ht
      rw [swap_comm] at hthere hback
      exact ⟨v, l, r, others, rfl, hthere, hback, hperm⟩

theorem others_ne_nil (htrees : ∀ t ∈ trees, t ≠ .nil)
    (hperm : (BinaryTree.node v l r :: others).Perm trees) :
    ∀ t ∈ others ++ kids l r, t ≠ .nil := by
  intro t ht
  rcases List.mem_append.mp ht with hmem | hmem
  · exact htrees t (hperm.subset (List.mem_cons_of_mem _ hmem))
  · exact kids_ne_nil t hmem

theorem mem_branch {sequences : List (BinaryTree ℤ) → List (List ℤ)}
    (hswap : swap trees i 0 = some (.node v l r :: others)) :
    a ∈ branch sequences trees i ↔
      ∃ rest, a = v :: rest ∧ rest ∈ sequences (others ++ kids l r) := by
  unfold branch
  rw [hswap]
  simp only [List.mem_map]
  constructor
  · rintro ⟨rest, hrest, rfl⟩
    exact ⟨rest, rfl, hrest⟩
  · rintro ⟨rest, rfl, hrest⟩
    exact ⟨rest, hrest, rfl⟩

/-- Empty subtrees are left out. -/
theorem others_kids (h : ∀ t ∈ others, t ≠ .nil) :
    others ++ kids l r = (others ++ [l, r]).filter fun t => t ≠ .nil := by
  rw [List.filter_append, List.filter_eq_self.mpr fun t ht => decide_eq_true (h t ht)]
  rfl

/-- The trees after a place was chosen. -/
theorem apart_others (h : Apart trees) (htrees : ∀ t ∈ trees, t ≠ .nil)
    (hperm : (BinaryTree.node v l r :: others).Perm trees) : Apart (others ++ kids l r) := by
  rw [others_kids fun t ht => htrees t (hperm.subset (List.mem_cons_of_mem _ ht))]
  exact (h.perm hperm.symm).subtrees.filter

theorem total_others (hn : total trees = n + 1)
    (hperm : (BinaryTree.node v l r :: others).Perm trees) : total (others ++ kids l r) = n := by
  have htotal := (total_node v l r others).symm.trans (total_perm hperm)
  omega

theorem mem_sequences (htrees : ∀ t ∈ trees, t ≠ .nil) (hn : total trees = n) (h : Apart trees) :
    a ∈ sequences n trees ↔ Builds trees a := by
  induction n generalizing trees a with
  | zero =>
    have hlen := length_le_total htrees
    obtain rfl : trees = [] := List.length_eq_zero_iff.mp (by omega)
    rw [sequences, List.mem_singleton, builds_empty]
  | succ n ih =>
    have hstep {v : ℤ} {l r : BinaryTree ℤ} {others : List (BinaryTree ℤ)} (rest : List ℤ)
        (hperm : (BinaryTree.node v l r :: others).Perm trees) :
        rest ∈ sequences n (others ++ kids l r) ↔ Builds trees (v :: rest) := by
      have hothers (t : BinaryTree ℤ) (ht : t ∈ others) : t ≠ .nil :=
        htrees t (hperm.subset (List.mem_cons_of_mem _ ht))
      rw [ih (others_ne_nil htrees hperm) (total_others hn hperm) (apart_others h htrees hperm),
        others_kids hothers, builds_filter, ← builds_node (h.perm hperm.symm)]
      exact ⟨fun hbuilds => hbuilds.perm hperm, fun hbuilds => hbuilds.perm hperm.symm⟩
    rw [sequences, List.mem_flatMap]
    constructor
    · rintro ⟨i, hi, ha⟩
      rw [List.mem_range'_1, Nat.zero_add] at hi
      obtain ⟨v, l, r, others, -, hthere, -, hperm⟩ := exists_swap htrees hi.2
      obtain ⟨rest, rfl, hrest⟩ := (mem_branch hthere).mp ha
      exact (hstep rest hperm).mp hrest
    · intro hbuilds
      have hne : trees ≠ [] := by
        rintro rfl
        cases hn
      obtain ⟨v, l, r, rest, rfl, hmem⟩ := hbuilds.root htrees hne
      obtain ⟨i, hi, hroot⟩ := List.mem_iff_getElem.mp hmem
      obtain ⟨v', l', r', others, ht, hthere, -, hperm⟩ := exists_swap htrees hi
      rw [List.getElem?_eq_getElem hi, hroot] at ht
      cases ht
      refine ⟨i, List.mem_range'_1.mpr ⟨Nat.zero_le i, by omega⟩, (mem_branch hthere).mpr ?_⟩
      exact ⟨rest, rfl, (hstep rest hperm).mpr hbuilds⟩

theorem nodup_sequences (htrees : ∀ t ∈ trees, t ≠ .nil) (hn : total trees = n)
    (h : Apart trees) : (sequences n trees).Nodup := by
  induction n generalizing trees with
  | zero => exact List.nodup_singleton []
  | succ n ih =>
    rw [sequences, List.nodup_flatMap]
    constructor
    · intro i hi
      rw [List.mem_range'_1, Nat.zero_add] at hi
      obtain ⟨v, l, r, others, -, hthere, -, hperm⟩ := exists_swap htrees hi.2
      have hrest := ih (others_ne_nil htrees hperm) (total_others hn hperm)
        (apart_others h htrees hperm)
      unfold branch
      rw [hthere]
      exact hrest.map fun _ _ heq => (List.cons.inj heq).2
    · refine List.Pairwise.imp_of_mem (fun {i j} hi hj hlt => ?_) List.pairwise_lt_range'
      rw [List.mem_range'_1, Nat.zero_add] at hi hj
      obtain ⟨v, l, r, others, hroot, hthere, -, -⟩ := exists_swap htrees hi.2
      obtain ⟨v', l', r', others', hroot', hthere', -, -⟩ := exists_swap htrees hj.2
      intro a ha ha'
      obtain ⟨rest, rfl, -⟩ := (mem_branch hthere).mp ha
      obtain ⟨rest', heq, -⟩ := (mem_branch hthere').mp ha'
      obtain ⟨rfl, -⟩ := List.cons.inj heq
      have hdisjoint := List.pairwise_iff_getElem.mp (List.nodup_flatMap.mp h.nodup).2 i j hi.2 hj.2
        hlt
      rw [List.getElem?_eq_getElem hi.2, Option.some.injEq] at hroot
      rw [List.getElem?_eq_getElem hj.2, Option.some.injEq] at hroot'
      rw [Function.onFun, hroot, hroot'] at hdisjoint
      exact hdisjoint (mem_inorder_node.mpr (.inl rfl)) (mem_inorder_node.mpr (.inl rfl))

/-! ## The recursion -/

theorem insertChild_eq {array arraySz : ℕ} (hfront : front.length = array + arraySz)
    (inserted junk : List (BinaryTree ℤ)) (child : BinaryTree ℤ) :
    insertChild array arraySz child (front ++ (inserted ++ junk), inserted.length) =
      if ([child].filter fun t => t ≠ .nil).length ≤ junk.length then
        some (front ++ (inserted ++ ([child].filter fun t => t ≠ .nil) ++
            junk.drop ([child].filter fun t => t ≠ .nil).length),
          inserted.length + ([child].filter fun t => t ≠ .nil).length)
      else none := by
  unfold insertChild
  by_cases hchild : child = .nil
  · simp [hchild]
  · have hkid : [child].filter (fun t => t ≠ .nil) = [child] := by simp [hchild]
    rw [hkid]
    dsimp only
    rw [if_neg hchild]
    cases junk with
    | nil =>
      rw [if_neg (by simp [hfront, Nat.add_assoc]), if_neg (by simp)]
    | cons cell junk =>
      have hset := set_append_cons (front ++ inserted) cell child junk
      have hplace : (front ++ inserted).length = array + (arraySz + inserted.length) := by
        rw [List.length_append, hfront, Nat.add_assoc]
      rw [List.append_assoc, hplace] at hset
      rw [if_pos (by simp; omega), if_pos (by simp), hset]
      simp

/-- The first tree gets its place, and its children come after the other ones, if there is room. -/
theorem insertChildren_eq {arraySz : ℕ} (hsize : others.length + 1 = arraySz)
    (placed junk : List (BinaryTree ℤ)) (v : ℤ) (l r : BinaryTree ℤ) :
    insertChildren placed.length arraySz l r (placed ++ (.node v l r :: others ++ junk)) =
      if (kids l r).length ≤ junk.length then
        some (placed ++ [.node v l r] ++ (others ++ kids l r ++ junk.drop (kids l r).length),
          (kids l r).length)
      else none := by
  have hfront : (placed ++ BinaryTree.node v l r :: others).length = placed.length + arraySz := by
    rw [List.length_append, List.length_cons, hsize]
  have hkids : kids l r = ([l].filter fun t => t ≠ .nil) ++ [r].filter fun t => t ≠ .nil :=
    List.filter_append [l] [r]
  have hl := insertChild_eq hfront [] junk l
  simp only [List.nil_append, List.length_nil, Nat.zero_add] at hl
  unfold insertChildren
  rw [← List.append_assoc, hkids, hl, List.length_append]
  by_cases hroom : ([l].filter fun t => t ≠ .nil).length ≤ junk.length
  · rw [if_pos hroom, Option.bind_some, insertChild_eq hfront, List.length_drop, List.drop_drop]
    split_ifs
    · simp only [List.append_assoc, List.cons_append, List.nil_append]
    · omega
    · omega
    · rfl
  · rw [if_neg hroom, if_neg (by omega)]
    rfl

theorem length_placed (placed : List (BinaryTree ℤ)) (t : BinaryTree ℤ) :
    (placed ++ [t]).length = placed.length + 1 :=
  List.length_append

theorem length_others {arraySz : ℕ} (hsize : others.length + 1 = arraySz)
    (kids : List (BinaryTree ℤ)) : arraySz - 1 + kids.length = (others ++ kids).length := by
  rw [List.length_append]
  omega

theorem printArray_eq (hvalues : placed.mapM value = some values) (junk : List (BinaryTree ℤ)) :
    printArray (placed ++ junk) placed.length = some (arrayText values) := by
  unfold printArray
  rw [if_pos (by rw [List.length_append]; omega), List.take_left, hvalues]
  rfl

/-- The frontier is between the trees that have their places and the rest of the buffer. -/
theorem swap_within {arr : List (BinaryTree ℤ)} (placed junk : List (BinaryTree ℤ))
    (hi : i < arr.length) : swap (placed ++ (arr ++ junk)) (placed.length + i) (placed.length + 0) =
      (swap arr i 0).map fun arr => placed ++ (arr ++ junk) := by
  rw [swap_append, swap_append_right arr junk hi (Nat.zero_lt_of_lt hi), Option.map_map]
  rfl

/-- The lines for the trees after those that have their places. -/
def lines (values : List ℤ) (arrays : List (List ℤ)) : List UInt8 :=
  arrays.flatMap fun a => arrayText (values ++ a)

theorem lines_append (values : List ℤ) (arrays arrays' : List (List ℤ)) :
    lines values (arrays ++ arrays') = lines values arrays ++ lines values arrays' :=
  List.flatMap_append

theorem lines_cons (values : List ℤ) (v : ℤ) (arrays : List (List ℤ)) :
    lines values (arrays.map (v :: ·)) = lines (values ++ [v]) arrays := by
  unfold lines
  rw [List.flatMap_map]
  simp

/-- What each iteration prints for its place and leaves in the buffer, all of them do. -/
theorem sequences_loop {body : State → ℕ → Option State}
    (hbody : ∀ i junk' printed', i < trees.length → junk'.length = junk.length →
      ∃ junk'', junk''.length = junk.length ∧ body ⟨placed ++ (trees ++ junk'), printed'⟩ i =
        some ⟨placed ++ (trees ++ junk''),
          printed' ++ lines values (branch (sequences n) trees i)⟩) :
    ∃ s, (List.range' 0 trees.length).foldlM body ⟨placed ++ (trees ++ junk), printed⟩ = some s ∧
      ∃ junk', junk'.length = junk.length ∧ s = ⟨placed ++ (trees ++ junk'),
        printed ++ lines values (sequences (n + 1) trees)⟩ := by
  apply foldlM_range'_spec (fun i s => ∃ junk', junk'.length = junk.length ∧
    s = ⟨placed ++ (trees ++ junk'), printed ++ lines values
      ((List.range' 0 i).flatMap (branch (sequences n) trees))⟩)
  · rintro i s - hi ⟨junk', hjunk, rfl⟩
    rw [Nat.zero_add] at hi
    obtain ⟨junk'', hjunk'', hstep⟩ := hbody i junk'
      (printed ++ lines values ((List.range' 0 i).flatMap (branch (sequences n) trees))) hi hjunk
    refine ⟨_, hstep, junk'', hjunk'', ?_⟩
    rw [List.range'_1_concat, List.flatMap_append, Nat.zero_add, List.flatMap_singleton,
      lines_append, List.append_assoc]
  · refine ⟨junk, rfl, ?_⟩
    simp [lines]
  · rintro s ⟨junk', hjunk, rfl⟩
    exact ⟨junk', hjunk, by rw [Nat.zero_add]; rfl⟩

/-- The trees are left in their places; the cells after them may change. -/
theorem bstSequencesAux_eq (htrees : ∀ t ∈ trees, t ≠ .nil) (hn : total trees = n)
    (hroom : n ≤ trees.length + junk.length) (hdepth : n < depth)
    (hvalues : placed.mapM value = some values) (printed : List UInt8) :
    ∃ s, bstSequencesAux depth placed.length trees.length (placed.length + trees.length)
        ⟨placed ++ (trees ++ junk), printed⟩ = some s ∧
      ∃ junk', junk'.length = junk.length ∧ s = ⟨placed ++ (trees ++ junk'),
        printed ++ lines values (sequences n trees)⟩ := by
  induction n generalizing depth trees placed values junk printed with
  | zero =>
    obtain ⟨depth, rfl⟩ := Nat.exists_eq_add_of_le' hdepth
    have hlen := length_le_total htrees
    obtain rfl : trees = [] := List.length_eq_zero_iff.mp (by omega)
    refine ⟨_, ?_, junk, rfl, rfl⟩
    rw [bstSequencesAux, if_pos List.length_nil, List.length_nil, Nat.add_zero,
      if_pos (Nat.le_refl _), Nat.sub_self, List.drop_zero, List.nil_append, printArray_eq hvalues]
    simp [lines, sequences]
  | succ n ih =>
    obtain ⟨depth, rfl⟩ := Nat.exists_eq_add_of_le' (Nat.zero_lt_of_lt hdepth)
    have hne : trees.length ≠ 0 := by
      rw [Ne, List.length_eq_zero_iff]
      rintro rfl
      cases hn
    rw [bstSequencesAux, if_neg hne]
    apply sequences_loop
    intro i junk' printed' hi hjunk
    obtain ⟨v, l, r, others, -, hthere, hback, hperm⟩ := exists_swap htrees hi
    have hlen : others.length + 1 = trees.length := hperm.length_eq
    have hrest := total_others hn hperm
    have hcount := length_le_total (others_ne_nil htrees hperm)
    rw [hrest, List.length_append] at hcount
    have hnode : (placed ++ (BinaryTree.node v l r :: others ++ junk'))[placed.length]? =
        some (.node v l r) := getElem?_append_cons placed _ _
    have hplaced : (placed ++ [BinaryTree.node v l r]).mapM value = some (values ++ [v]) := by
      rw [List.mapM_append, hvalues]
      rfl
    have hroom' : n ≤ (others ++ kids l r).length + (junk'.drop (kids l r).length).length := by
      rw [List.length_append, List.length_drop]
      omega
    obtain ⟨s', hcall, junk'', hjunk'', rfl⟩ := ih (others_ne_nil htrees hperm) hrest hroom'
      (Nat.lt_of_succ_lt_succ hdepth) hplaced printed'
    have hnodes : placed.length + trees.length + (kids l r).length =
        placed.length + 1 + (others ++ kids l r).length := by
      rw [List.length_append]
      omega
    have hbuff : placed ++ [BinaryTree.node v l r] ++ (others ++ kids l r ++ junk'') =
        placed ++ (BinaryTree.node v l r :: others ++ (kids l r ++ junk'')) := by
      simp
    have hbranch : branch (sequences n) trees i =
        (sequences n (others ++ kids l r)).map (v :: ·) := by
      unfold branch
      rw [hthere]
    rw [length_placed, hbuff] at hcall
    rw [swap_within placed junk' hi, hthere]
    simp only [Option.map_some, Option.bind_eq_bind, Option.bind_some, hnode]
    rw [insertChildren_eq hlen, if_pos (by omega), Option.bind_some, length_others hlen, hnodes,
      hcall, Option.bind_some, swap_within placed _ (show i < (_ :: others).length by
        rwa [List.length_cons, hlen]), hback, hbranch, lines_cons]
    refine ⟨kids l r ++ junk'', ?_, rfl⟩
    rw [List.length_append, hjunk'', List.length_drop]
    omega

/-- The first choices in all calls run out of the buffer if anything does. -/
theorem bstSequencesAux_eq_none (htrees : ∀ t ∈ trees, t ≠ .nil)
    (hroom : trees.length + junk.length < total trees) (nodes : ℕ) :
    bstSequencesAux depth placed.length trees.length nodes ⟨placed ++ (trees ++ junk), printed⟩ =
      none := by
  induction depth generalizing trees placed junk nodes with
  | zero => rfl
  | succ depth ih =>
    obtain ⟨t, others, rfl⟩ : ∃ t others, trees = t :: others := by
      refine List.exists_cons_of_ne_nil ?_
      rintro rfl
      exact absurd hroom (Nat.not_lt_zero _)
    obtain ⟨v, l, r, rfl⟩ : ∃ v l r, t = .node v l r := by
      cases t with
      | nil => exact absurd rfl (htrees _ List.mem_cons_self)
      | node v l r => exact ⟨v, l, r, rfl⟩
    have htotal := total_node v l r others
    have hothers := others_ne_nil htrees (.refl _)
    have hplaced :
        placed.length < (placed ++ (BinaryTree.node v l r :: others ++ junk)).length := by
      rw [List.length_append, List.length_append, List.length_cons]
      omega
    have hnode : (placed ++ (BinaryTree.node v l r :: others ++ junk))[placed.length]? =
        some (.node v l r) := getElem?_append_cons placed _ _
    rw [List.length_cons] at hroom
    rw [bstSequencesAux, if_neg (by simp), List.length_cons, List.range'_succ, List.foldlM_cons,
      Nat.add_zero, swap_self _ hplaced]
    simp only [Option.bind_eq_bind, Option.bind_some, hnode]
    rw [insertChildren_eq rfl]
    by_cases hkids : (kids l r).length ≤ junk.length
    · have hroom' : (others ++ kids l r).length + (junk.drop (kids l r).length).length <
          total (others ++ kids l r) := by
        rw [List.length_append, List.length_drop]
        omega
      have hcall : bstSequencesAux depth (placed ++ [BinaryTree.node v l r]).length _ _
          ⟨placed ++ [.node v l r] ++ _, _⟩ = none :=
        ih hothers hroom' (nodes + (kids l r).length)
      rw [length_placed] at hcall
      rw [if_pos hkids, Option.bind_some, length_others rfl, hcall]
      rfl
    · rw [if_neg hkids]
      rfl

/-- The root is put into the first place. -/
theorem set_root {arrayBuff : List (BinaryTree ℤ)} (hsize : arrayBuff.length = 4096)
    (root : BinaryTree ℤ) : ∃ junk, arrayBuff.set 0 root = [] ++ ([root] ++ junk) ∧
      junk.length = 4095 := by
  obtain ⟨cell, junk, rfl⟩ := List.exists_cons_of_length_pos (show 0 < arrayBuff.length by omega)
  exact ⟨junk, rfl, Nat.succ.inj hsize⟩

theorem total_singleton (root : BinaryTree ℤ) : total [root] = root.numNodes := List.sum_singleton

theorem singleton_ne_nil {root : BinaryTree ℤ} (hroot : root ≠ .nil) : ∀ t ∈ [root], t ≠ .nil := by
  intro t ht
  rwa [List.mem_singleton.mp ht]

theorem bstSequences_eq {root : BinaryTree ℤ} {arrayBuff : List (BinaryTree ℤ)}
    (hroot : root ≠ .nil) (hsize : arrayBuff.length = 4096) (hnodes : root.numNodes ≤ 4096)
    (hdepth : root.numNodes < depth) :
    bstSequences depth arrayBuff root =
      some ((sequences root.numNodes [root]).flatMap arrayText) := by
  obtain ⟨junk, hset, hjunk⟩ := set_root hsize root
  have hroom : root.numNodes ≤ [root].length + junk.length := by
    rw [List.length_singleton]
    omega
  have hplaced : ([] : List (BinaryTree ℤ)).mapM value = some [] := rfl
  obtain ⟨s, hs, junk', -, rfl⟩ :=
    bstSequencesAux_eq (singleton_ne_nil hroot) (total_singleton root) hroom hdepth hplaced []
  unfold bstSequences
  rw [if_neg hroot, hset]
  exact congrArg (Option.map State.printed) hs

theorem bstSequences_eq_none {root : BinaryTree ℤ} {arrayBuff : List (BinaryTree ℤ)}
    (hsize : arrayBuff.length = 4096) (hnodes : 4096 < root.numNodes) :
    bstSequences depth arrayBuff root = none := by
  have hroot : root ≠ .nil := by
    rintro rfl
    cases hnodes
  obtain ⟨junk, hset, hjunk⟩ := set_root hsize root
  have hroom : [root].length + junk.length < total [root] := by
    rw [total_singleton, List.length_singleton]
    omega
  have haux : bstSequencesAux depth ([] : List (BinaryTree ℤ)).length [root].length 1
      ⟨[] ++ ([root] ++ junk), []⟩ = none :=
    bstSequencesAux_eq_none (singleton_ne_nil hroot) hroom 1
  unfold bstSequences
  rw [if_neg hroot, hset]
  exact congrArg (Option.map State.printed) haux

/-! ## The arrays that build the tree -/

/-- The arrays that are printed are those that build the tree, each of them once. -/
def Prints (root : BinaryTree ℤ) : Prop :=
  ∃ arrays : List (List ℤ), arrays.Nodup ∧ (∀ a, a ∈ arrays ↔ build a = root) ∧
    ∀ arrayBuff depth, arrayBuff.length = 4096 → depth > root.numNodes →
      bstSequences depth arrayBuff root = some (arrays.flatMap arrayText)

/-- Only the empty array builds the empty tree, and nothing is printed. -/
theorem not_prints_nil : ¬ Prints .nil := by
  rintro ⟨arrays, -, hmem, hprints⟩
  have hempty : [] ∈ arrays := (hmem []).mpr rfl
  have hnone := hprints (List.replicate 4096 .nil) 1 List.length_replicate Nat.one_pos
  have hflat : arrays.flatMap arrayText = [] := (Option.some.inj hnone).symm
  exact absurd (List.flatMap_eq_nil_iff.mp hflat [] hempty) (by decide)

theorem not_prints_of_large {root : BinaryTree ℤ} (hnodes : 4096 < root.numNodes) :
    ¬ Prints root := by
  rintro ⟨arrays, -, -, hprints⟩
  have hsome := hprints (List.replicate 4096 .nil) (root.numNodes + 1) List.length_replicate
    (Nat.lt_succ_self _)
  rw [bstSequences_eq_none List.length_replicate hnodes] at hsome
  cases hsome

theorem bst_sequences_iff (root : BinaryTree ℤ) (hroot : Ordered root) :
    Prints root ↔ root ≠ .nil ∧ root.numNodes ≤ 4096 := by
  constructor
  · intro hprints
    refine ⟨?_, not_lt.mp fun hnodes => not_prints_of_large hnodes hprints⟩
    rintro rfl
    exact not_prints_nil hprints
  · rintro ⟨hne, hnodes⟩
    have hapart := apart_singleton hroot
    have htrees := singleton_ne_nil hne
    refine ⟨sequences root.numNodes [root],
      nodup_sequences htrees (total_singleton root) hapart, fun a => ?_, ?_⟩
    · rw [mem_sequences htrees (total_singleton root) hapart, builds_singleton]
    · exact fun arrayBuff depth hsize hdepth => bstSequences_eq hne hsize hnodes hdepth

/-- The tree with 2 at the root, 1 on its left and 3 on its right. -/
theorem bst_sequences_iff_three :
    Ordered (.node (2 : ℤ) (.node 1 .nil .nil) (.node 3 .nil .nil)) ∧
      Prints (.node 2 (.node 1 .nil .nil) (.node 3 .nil .nil)) := by
  have hordered : Ordered (.node (2 : ℤ) (.node 1 .nil .nil) (.node 3 .nil .nil)) := by
    simp [Ordered, inorder]
  exact ⟨hordered, (bst_sequences_iff _ hordered).mpr ⟨by simp, by decide⟩⟩

/-- A tree in which only the right children are there. -/
def chain : ℕ → BinaryTree ℤ
  | 0 => .nil
  | n + 1 => .node (-n) .nil (chain n)

theorem lt_of_mem_chain {x : ℤ} (hx : x ∈ inorder (chain n)) : -(n : ℤ) < x := by
  induction n with
  | zero => cases hx
  | succ n ih =>
    rcases mem_inorder_node.mp hx with rfl | hnil | hrest
    · omega
    · cases hnil
    · have hlt := ih hrest
      omega

theorem ordered_chain (n : ℕ) : Ordered (chain n) := by
  induction n with
  | zero => exact True.intro
  | succ n ih => exact ⟨fun x hx => (by cases hx), fun x hx => lt_of_mem_chain hx, True.intro, ih⟩

theorem numNodes_chain (n : ℕ) : (chain n).numNodes = n := by
  induction n with
  | zero => rfl
  | succ n ih => rw [chain, BinaryTree.numNodes, ih, BinaryTree.numNodes, Nat.zero_add]

/-- The empty tree, and 4097 nodes. -/
theorem not_prints_always : Ordered (.nil : BinaryTree ℤ) ∧ ¬ Prints .nil ∧
    Ordered (chain 4097) ∧ ¬ Prints (chain 4097) := by
  refine ⟨True.intro, not_prints_nil, ordered_chain 4097, not_prints_of_large ?_⟩
  rw [numNodes_chain]
  decide

end InterviewQuestions.BstSequences
