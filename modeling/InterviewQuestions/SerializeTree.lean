import InterviewQuestions.Library.PointerTree
import InterviewQuestions.Library.Scanf
import InterviewQuestions.Library.SearchTree

/-! `trees_graphs/serialize_tree/solution.c`. A tree is the one that its root points to, and a
pointer into an array is what follows there. Memory does not run out. -/
namespace InterviewQuestions.SerializeTree

open Library Scanf

/-! ## Writing -/

/-- `printf("%d ", value)` -/
def printValue (value : ℤ) : List UInt8 := printInt value ++ [32]

def serializeInorder : BinaryTree ℤ → List UInt8
  | .nil => []
  | .node value left right =>
      serializeInorder left ++ (printValue value ++ serializeInorder right)

def serializePreorder : BinaryTree ℤ → List UInt8
  | .nil => []
  | .node value left right =>
      printValue value ++ (serializePreorder left ++ serializePreorder right)

def serialize (root : BinaryTree ℤ) : List UInt8 :=
  if root = .nil then []
  else serializePreorder root ++ ([10] ++ (serializeInorder root ++ [10]))

/-! ## Reading -/

/-- The loop from the bounds `l` and `r` on. There is no result where `r` would go below 0, where
the array is left, and where nothing is found, at `assert(0)`. `l` does not exceed the length. -/
def findLoop (inorder : List ℤ) (value : ℤ) (l r : ℕ) : Option ℕ :=
  if l ≤ r then
    match inorder[l + (r - l) / 2]? with
    | none => none
    | some found =>
        if found = value then some (l + (r - l) / 2)
        else if found < value then findLoop inorder value (l + (r - l) / 2 + 1) r
        else if l + (r - l) / 2 = 0 then none
        else findLoop inorder value l (l + (r - l) / 2 - 1)
  else none
termination_by r + 1 - l

/-- `r` starts at `len-1`. -/
def findInorder (inorder : List ℤ) (len : ℕ) (value : ℤ) : Option ℕ :=
  if len = 0 then none else findLoop inorder value 0 (len - 1)

theorem findLoop_le {inorder : List ℤ} {value : ℤ} {l r i : ℕ}
    (h : findLoop inorder value l r = some i) : i ≤ r := by
  fun_induction findLoop inorder value l r with
  | case1 | case4 | case6 => cases h
  | case2 =>
    cases h
    omega
  | case3 _ _ _ _ _ _ _ ih => exact ih h
  | case5 _ _ _ _ _ _ _ _ ih =>
    have hi := ih h
    omega

theorem findInorder_lt {inorder : List ℤ} {value : ℤ} {len i : ℕ}
    (h : findInorder inorder len value = some i) : i < len := by
  unfold findInorder at h
  split at h
  case isTrue => cases h
  case isFalse hlen =>
    have hle := findLoop_le h
    omega

def deserializeInternal (preorder inorder : List ℤ) (len : ℕ) : Option (BinaryTree ℤ) :=
  if len = 0 then some .nil
  else
    match preorder[0]? with
    | none => none
    | some value =>
        match hroot : findInorder inorder len value with
        | none => none
        | some rootIo => do
            let left ← deserializeInternal (preorder.drop 1) (inorder.drop 0) rootIo
            let right ← deserializeInternal (preorder.drop (rootIo + 1)) (inorder.drop (rootIo + 1))
              (len - rootIo - 1)
            return .node value left right
termination_by len
decreasing_by
  · exact findInorder_lt hroot
  · omega

/-- The loop that reads the numbers, with so many places left in the buffer. There is no result for
a number that is no `int`. -/
def readValues (places : ℕ) (input : List UInt8) : Option (List ℤ) :=
  match scanInt (skipSpace input) with
  | none => some []
  | some (val, input) =>
      if -2 ^ 31 ≤ val ∧ val < 2 ^ 31 then
        match places with
        | 0 => none
        | places + 1 => (readValues places input).map (val :: ·)
      else none

/-- The buffer is 0 where nothing has been stored. -/
def deserialize (input : List UInt8) : Option (BinaryTree ℤ) := do
  let values ← readValues 4096 input
  let buff := values ++ List.replicate (4096 - values.length) 0
  deserializeInternal (buff.drop 0) (buff.drop (values.length / 2)) (values.length / 2)

/-! What `serialize` writes of a search tree, `deserialize` reads back. -/

open Library PointerTree SearchTree Scanf

variable {t : BinaryTree ℤ} {xs rest : List ℤ} {a value : ℤ} {i k l r : ℕ}

/-! ## The search for the root -/

/-- The order of the values is that of their places. -/
theorem lt_iff_index_lt (hsorted : xs.Pairwise (· < ·)) (ha : xs[i]? = some a)
    (hvalue : xs[k]? = some value) : a < value ↔ i < k := by
  obtain ⟨hi, rfl⟩ := List.getElem?_eq_some_iff.mp ha
  obtain ⟨hk, rfl⟩ := List.getElem?_eq_some_iff.mp hvalue
  have hincreasing := List.pairwise_iff_getElem.mp hsorted
  rcases Nat.lt_trichotomy i k with hlt | heq | hgt
  · exact iff_of_true (hincreasing i k hi hk hlt) hlt
  · subst heq
    exact iff_of_false (lt_irrefl _) (lt_irrefl _)
  · exact iff_of_false (hincreasing k i hk hi hgt).not_gt hgt.not_gt

/-- In an array that increases as far as the bounds go, the value stays between them. -/
theorem findLoop_eq (hsorted : xs.Pairwise (· < ·)) (hk : xs[k]? = some value) (hl : l ≤ k)
    (hr : k ≤ r) (hlen : r < xs.length) : findLoop (xs ++ rest) value l r = some k := by
  have hmiddle (l r : ℕ) (hle : l ≤ r) (hlen : r < xs.length) :
      (xs ++ rest)[l + (r - l) / 2]? = xs[l + (r - l) / 2]? :=
    List.getElem?_append_left (by omega)
  fun_induction findLoop (xs ++ rest) value l r with
  | case1 l r hle hnone =>
    rw [hmiddle l r hle hlen, List.getElem?_eq_none_iff] at hnone
    omega
  | case2 l r hle hfound =>
    rw [hmiddle l r hle hlen] at hfound
    have hbelow := (lt_iff_index_lt hsorted hfound hk).not.mp (lt_irrefl value)
    have habove := (lt_iff_index_lt hsorted hk hfound).not.mp (lt_irrefl value)
    apply congrArg some
    omega
  | case3 l r hle found hfound hne hlt ih =>
    rw [hmiddle l r hle hlen] at hfound
    have hbelow := (lt_iff_index_lt hsorted hfound hk).mp hlt
    exact ih hbelow hr hlen
  | case4 l r hle found hfound hne hge hzero =>
    rw [hmiddle l r hle hlen] at hfound
    have habove := (lt_iff_index_lt hsorted hk hfound).mp (by omega)
    omega
  | case5 l r hle found hfound hne hge hzero ih =>
    rw [hmiddle l r hle hlen] at hfound
    have habove := (lt_iff_index_lt hsorted hk hfound).mp (by omega)
    apply ih hl
    · omega
    · omega
  | case6 l r hgt => omega

theorem findInorder_eq (hsorted : xs.Pairwise (· < ·)) (hk : xs[k]? = some value) :
    findInorder (xs ++ rest) xs.length value = some k := by
  obtain ⟨hlen, -⟩ := List.getElem?_eq_some_iff.mp hk
  rw [findInorder, if_neg (by omega)]
  apply findLoop_eq hsorted hk (Nat.zero_le k)
  · omega
  · omega

/-! ## The tree from its two sequences -/

theorem deserializeInternal_eq {preorder inorder : List ℤ} {len rootIo : ℕ} (hlen : len ≠ 0)
    (hvalue : preorder[0]? = some value) (hroot : findInorder inorder len value = some rootIo) :
    deserializeInternal preorder inorder len = do
      let left ← deserializeInternal (preorder.drop 1) inorder rootIo
      let right ← deserializeInternal (preorder.drop (rootIo + 1)) (inorder.drop (rootIo + 1))
        (len - rootIo - 1)
      return .node value left right := by
  rw [deserializeInternal, if_neg hlen, hvalue]
  dsimp only
  split
  case h_1 hnone =>
    rw [hroot] at hnone
    cases hnone
  case h_2 i hsome =>
    rw [hroot] at hsome
    cases hsome
    rfl

/-- More may follow in both arrays. -/
theorem deserializeInternal_append (h : Ordered t) (rest rest' : List ℤ) :
    deserializeInternal (preorder t ++ rest) (inorder t ++ rest') t.numNodes = some t := by
  induction t generalizing rest rest' with
  | nil =>
    rw [deserializeInternal]
    rfl
  | node value left right ihl ihr =>
    have hnodes : (BinaryTree.node value left right).numNodes =
        left.numNodes + right.numNodes + 1 := rfl
    have hroot : findInorder (inorder (.node value left right) ++ rest')
        (BinaryTree.node value left right).numNodes value = some left.numNodes := by
      rw [← length_inorder]
      apply findInorder_eq h.pairwise
      rw [inorder, List.getElem?_append_right (length_inorder left).le, length_inorder,
        Nat.sub_self]
      rfl
    have hin : inorder (.node value left right) ++ rest' =
        inorder left ++ ([value] ++ (inorder right ++ rest')) := by
      simp [inorder]
    have hinright : (inorder left ++ ([value] ++ (inorder right ++ rest'))).drop
        (left.numNodes + 1) = inorder right ++ rest' := by
      rw [← List.append_assoc]
      apply List.drop_left'
      rw [List.length_append, length_inorder]
      rfl
    have hpre : preorder (.node value left right) ++ rest =
        value :: (preorder left ++ (preorder right ++ rest)) := by
      simp [preorder]
    have hpreright : (value :: (preorder left ++ (preorder right ++ rest))).drop
        (left.numNodes + 1) = preorder right ++ rest := by
      rw [List.drop_succ_cons, List.drop_left' (length_preorder left)]
    have hlen : left.numNodes + right.numNodes + 1 - left.numNodes - 1 = right.numNodes := by
      omega
    rw [hnodes, hin] at hroot
    rw [hnodes, hpre, hin, deserializeInternal_eq (Nat.succ_ne_zero _) rfl hroot, hpreright,
      hinright, hlen, List.drop_one, List.tail_cons, ihl h.2.2.1, ihr h.2.2.2]
    rfl

/-- Each root is found, and what is found is the tree. -/
theorem deserializeInternal_of_ordered (h : Ordered t) :
    (∀ value k, (inorder t)[k]? = some value →
        findInorder (inorder t) t.numNodes value = some k) ∧
      deserializeInternal (preorder t) (inorder t) t.numNodes = some t := by
  constructor
  · intro value k hk
    have hfind : findInorder (inorder t ++ []) (inorder t).length value = some k :=
      findInorder_eq h.pairwise hk
    rwa [List.append_nil, length_inorder] at hfind
  · have hbuilt := deserializeInternal_append h [] []
    rwa [List.append_nil, List.append_nil] at hbuilt

theorem deserializeInternal_of_ordered_three :
    deserializeInternal [2, 1, 3] [1, 2, 3] 3 =
      some (.node 2 (.node 1 .nil .nil) (.node 3 .nil .nil)) :=
  (deserializeInternal_of_ordered (t := .node 2 (.node 1 .nil .nil) (.node 3 .nil .nil))
    (by simp [Ordered, inorder])).2

/-! ## The text -/

theorem serializePreorder_eq (t : BinaryTree ℤ) :
    serializePreorder t = (preorder t).flatMap printValue := by
  induction t with
  | nil => rfl
  | node value left right ihl ihr =>
    rw [serializePreorder, preorder, List.flatMap_cons, List.flatMap_append, ihl, ihr]

theorem serializeInorder_eq (t : BinaryTree ℤ) :
    serializeInorder t = (inorder t).flatMap printValue := by
  induction t with
  | nil => rfl
  | node value left right ihl ihr =>
    rw [serializeInorder, inorder, List.flatMap_append, List.flatMap_cons, ihl, ihr]

theorem readValues_space {places : ℕ} {b : UInt8} (hb : isspace b = true) (input : List UInt8) :
    readValues places (b :: input) = readValues places input := by
  have hskip : skipSpace (b :: input) = skipSpace input := List.dropWhile_cons_of_pos hb
  rw [readValues.eq_def, hskip, ← readValues.eq_def]

/-- The values that `printf` writes are read, and what follows them. -/
theorem readValues_append {values : List ℤ} (hint : ∀ x ∈ values, -2 ^ 31 ≤ x ∧ x < 2 ^ 31)
    (places : ℕ) (input : List UInt8) :
    readValues (values.length + places) (values.flatMap printValue ++ input) =
      (readValues places input).map (values ++ ·) := by
  induction values with
  | nil =>
    rw [List.length_nil, Nat.zero_add]
    simp
  | cons value values ih =>
    have hspace : ∀ b ∈ (32 :: (values.flatMap printValue ++ input)).head?, isdigit b = false := by
      intro b hb
      cases hb
      rfl
    have htext : (value :: values).flatMap printValue ++ input =
        printInt value ++ 32 :: (values.flatMap printValue ++ input) := by
      simp [printValue]
    have hlen : (value :: values).length + places = values.length + places + 1 := by
      rw [List.length_cons]
      omega
    rw [htext, readValues.eq_def, skipSpace_printInt, scanInt_printInt value hspace, hlen]
    dsimp only
    rw [if_pos (hint value List.mem_cons_self), readValues_space rfl,
      ih fun x hx => hint x (List.mem_cons_of_mem value hx), Option.map_map]
    rfl

theorem mem_preorder {x : ℤ} : x ∈ preorder t ↔ x ∈ inorder t := by
  induction t with
  | nil => rfl
  | node value left right ihl ihr =>
    rw [mem_inorder_node, preorder, List.mem_cons, List.mem_append, ihl, ihr]

/-- As long as the buffer has room for both sequences. -/
theorem deserialize_serialize (h : Ordered t) (hint : ∀ x ∈ inorder t, -2 ^ 31 ≤ x ∧ x < 2 ^ 31)
    (hroom : 2 * t.numNodes ≤ 4096) : deserialize (serialize t) = some t := by
  have hread : readValues 4096 (serialize t) = some (preorder t ++ inorder t) := by
    cases t with
    | nil => rfl
    | node value left right =>
      have hplaces : (4096 : ℕ) = (preorder (.node value left right)).length +
          ((inorder (.node value left right)).length +
            (4096 - 2 * (BinaryTree.node value left right).numNodes)) := by
        rw [length_preorder, length_inorder]
        omega
      have hempty (places : ℕ) : readValues places [10] = some [] := by
        rw [readValues_space rfl, readValues]
        rfl
      rw [serialize, if_neg (by simp), serializePreorder_eq, serializeInorder_eq, hplaces,
        readValues_append fun x hx => hint x (mem_preorder.mp hx), List.singleton_append,
        readValues_space rfl, readValues_append hint, hempty]
      simp
  have hlength : (preorder t ++ inorder t).length = t.numNodes + t.numNodes := by
    rw [List.length_append, length_preorder, length_inorder]
  have hhalf : (t.numNodes + t.numNodes) / 2 = t.numNodes := by omega
  rw [deserialize, hread]
  simp only [Option.bind_eq_bind, Option.bind_some, List.drop_zero, hlength, hhalf,
    List.append_assoc]
  rw [List.drop_left' (length_preorder t)]
  exact deserializeInternal_append h _ _

end InterviewQuestions.SerializeTree
