import InterviewQuestions.Library.Machine
import Mathlib.Data.Fintype.Card
import Mathlib.Data.Nat.Notation
import Mathlib.Logic.Function.Basic
import Mathlib.Tactic.Common

/-! The trie of `recursion_dp/boggle_board/solution.c` that stores the words and their scores.
Node pointers are trees, which the code never shares, and allocations succeed. The root is no
`NULL`, so what the code would do there does not matter. -/
namespace InterviewQuestions.BoggleBoard

/-- A character between `a` and `z`. -/
abbrev Letter := {c : UInt8 // 97 ≤ c.toNat ∧ c.toNat ≤ 122}

/-- `ALPHABET_SZ` -/
abbrev alphabetSz : ℕ := 26

/-- `(unsigned char) (word[word_i]-'a')` -/
def index (c : Letter) : Fin alphabetSz :=
  ⟨(c.val - 97).toNat, by
    have hc := c.property
    have hle : (97 : UInt8) ≤ c.val := UInt8.le_iff_toNat_le.mpr hc.1
    rw [UInt8.toNat_sub_of_le _ _ hle]
    change c.val.toNat - 97 < 26
    omega⟩

/-- A `struct trie_node *`. A score of -1 means not a word. -/
inductive TrieNode where
  | null
  | node (score : Int32) (childrenCount : ℕ) (children : Fin alphabetSz → TrieNode)

def newNode : TrieNode := .node (-1) 0 fun _ => .null

def newTrie : TrieNode := newNode

/-- The second loop, from `curr_node`, and the assignment after it. -/
def grow (score : Int32) : List Letter → TrieNode → TrieNode
  | _, .null => .null
  | [], .node _ childrenCount children => .node score childrenCount children
  | c :: word, .node old childrenCount children =>
      .node old (childrenCount + 1) (Function.update children (index c) (grow score word newNode))

/-- The first loop follows the word while the children exist. At a child that is `NULL` the
second loop takes over. -/
def insertWord (score : Int32) : List Letter → TrieNode → TrieNode
  | _, .null => .null
  | [], .node _ childrenCount children => .node score childrenCount children
  | c :: word, .node old childrenCount children =>
      match children (index c) with
      | .null => grow score (c :: word) (.node old childrenCount children)
      | child => .node old childrenCount
          (Function.update children (index c) (insertWord score word child))

/-- `root->children[index]->children_count == 0 && root->children[index]->score != -1` -/
def prunable : TrieNode → Bool
  | .null => false
  | .node score childrenCount _ => childrenCount = 0 && score ≠ -1

/-- The node with the changes below it, and the value that is returned. -/
def deleteWordAux : List Letter → TrieNode → TrieNode × Bool
  | _, .null => (.null, false)
  | [], .node score childrenCount children =>
      if score ≠ -1 then (.node (-1) childrenCount children, true)
      else (.node score childrenCount children, false)
  | c :: word, .node score childrenCount children =>
      match children (index c) with
      | .null => (.node score childrenCount children, false)
      | child =>
          let (child, ret) := deleteWordAux word child
          if ret && prunable child then
            (.node score (childrenCount - 1) (Function.update children (index c) .null), ret)
          else (.node score childrenCount (Function.update children (index c) child), ret)

def deleteWord (word : List Letter) (root : TrieNode) : TrieNode := (deleteWordAux word root).1

/-- The loop, from `curr_node`. It has stopped before the end of the word at a child that is
`NULL`. -/
def wordScore : List Letter → TrieNode → Int32
  | _, .null => -1
  | [], .node score _ _ => score
  | c :: word, .node _ _ children => wordScore word (children (index c))

inductive Op where
  | insertWord (word : List Letter) (score : {score : Int32 // score ≠ -1})
  | deleteWord (word : List Letter)
  | wordScore (word : List Letter)

def step (root : TrieNode) : Op → TrieNode × Option Int32
  | .insertWord word score => (insertWord score word root, none)
  | .deleteWord word => (deleteWord word root, none)
  | .wordScore word => (root, some (wordScore word root))

/-! The trie is a map from words to scores. -/

open Library Machine

variable {t child : TrieNode} {children : Fin alphabetSz → TrieNode} {i : Fin alphabetSz}
  {score old : Int32} {childrenCount : ℕ} {word : List Letter}

theorem index_injective : Function.Injective index := by
  intro c d h
  have hnat : (index c).val = (index d).val := by rw [h]
  have hval : c.val - 97 = d.val - 97 := UInt8.toNat_inj.mp hnat
  exact Subtype.ext (by simpa using hval)

/-! ## Shapes -/

def TrieNode.isNull : TrieNode → Bool
  | .null => true
  | .node _ _ _ => false

/-- The number of children that are not `NULL`. -/
def occupied (children : Fin alphabetSz → TrieNode) : ℕ :=
  (Finset.univ.filter fun i => (children i).isNull = false).card

/-- Every node's `children_count` is right. -/
def Counted : TrieNode → Prop
  | .null => True
  | .node _ childrenCount children =>
      childrenCount = occupied children ∧ ∀ i, Counted (children i)

theorem isNull_iff : t.isNull = true ↔ t = .null := by
  cases t <;> simp [TrieNode.isNull]

theorem occupied_update_of_isNull (hnull : (children i).isNull = true)
    (hchild : child.isNull = false) :
    occupied (Function.update children i child) = occupied children + 1 := by
  have hset : (Finset.univ.filter fun j => (Function.update children i child j).isNull = false) =
      insert i (Finset.univ.filter fun j => (children j).isNull = false) := by
    ext j
    by_cases hj : j = i
    · subst hj
      simp [hchild]
    · simp [hj]
  unfold occupied
  rw [hset, Finset.card_insert_of_notMem (by simp [hnull])]

theorem occupied_update_of_eq (h : child.isNull = (children i).isNull) :
    occupied (Function.update children i child) = occupied children := by
  unfold occupied
  congr 1
  ext j
  by_cases hj : j = i
  · subst hj
    simp [h]
  · simp [hj]

theorem occupied_pos (h : (children i).isNull = false) : 0 < occupied children :=
  Finset.card_pos.mpr ⟨i, by simp [h]⟩

theorem forall_update {p : TrieNode → Prop} (hchild : p child) (h : ∀ j, p (children j)) (j) :
    p (Function.update children i child j) := by
  by_cases hj : j = i
  · subst hj
    rwa [Function.update_self]
  · rw [Function.update_of_ne hj]
    exact h j

theorem counted_newNode : Counted newNode :=
  ⟨by simp [occupied, TrieNode.isNull], fun _ => trivial⟩

/-! ## What is read after an update -/

@[simp] theorem wordScore_null (word : List Letter) : wordScore word .null = -1 := by
  unfold wordScore
  rfl

@[simp] theorem wordScore_newNode (word : List Letter) : wordScore word newNode = -1 := by
  cases word with
  | nil => rfl
  | cons c word => exact wordScore_null word

/-- A change below one letter is seen by the words that begin with it. -/
theorem wordScore_update {c : Letter} {value : Int32}
    (h : ∀ probe, wordScore probe child = if probe = word then value
      else wordScore probe (children (index c))) (probe : List Letter) (n m : ℕ) :
    wordScore probe (.node old n (Function.update children (index c) child)) =
      if probe = c :: word then value else wordScore probe (.node old m children) := by
  cases probe with
  | nil => rw [if_neg (List.cons_ne_nil c word).symm, wordScore, wordScore]
  | cons d probe =>
    rw [wordScore, wordScore]
    by_cases hd : d = c
    · subst hd
      rw [Function.update_self, h]
      simp
    · have hindex : index d ≠ index c := fun heq => hd (index_injective heq)
      rw [Function.update_of_ne hindex, if_neg (fun heq => hd (List.cons.inj heq).1)]

/-! ## insert_word -/

/-- The second loop starts at a node that has no child for the next letter. -/
def Fresh (children : Fin alphabetSz → TrieNode) : List Letter → Prop
  | [] => True
  | c :: _ => children (index c) = .null

theorem fresh_newNode (word : List Letter) : Fresh (fun _ => .null) word := by
  cases word <;> constructor

theorem wordScore_grow (h : Fresh children word) (probe : List Letter) :
    wordScore probe (grow score word (.node old childrenCount children)) =
      if probe = word then score else wordScore probe (.node old childrenCount children) := by
  induction word generalizing old childrenCount children probe with
  | nil => cases probe <;> simp [grow, wordScore]
  | cons c word ih =>
    rw [grow]
    apply wordScore_update
    intro probe
    rw [newNode, ih (fresh_newNode word), h, wordScore_null]
    congr 1
    exact wordScore_newNode probe

theorem counted_grow (h : Fresh children word)
    (hcounted : Counted (.node old childrenCount children)) :
    Counted (grow score word (.node old childrenCount children)) ∧
      (grow score word (.node old childrenCount children)).isNull = false := by
  induction word generalizing old childrenCount children with
  | nil => exact ⟨hcounted, rfl⟩
  | cons c word ih =>
    obtain ⟨hchild, hnull⟩ := ih (fresh_newNode word) counted_newNode
    obtain ⟨hcount, hall⟩ := hcounted
    have hfree : (children (index c)).isNull = true := isNull_iff.mpr h
    rw [grow]
    refine ⟨⟨?_, forall_update hchild hall⟩, rfl⟩
    rw [hcount]
    exact (occupied_update_of_isNull hfree hnull).symm

theorem insertWord_of_null {c : Letter} (h : children (index c) = .null) :
    insertWord score (c :: word) (.node old childrenCount children) =
      grow score (c :: word) (.node old childrenCount children) := by
  rw [insertWord, h]

theorem insertWord_of_child {c : Letter} (h : children (index c) ≠ .null) :
    insertWord score (c :: word) (.node old childrenCount children) =
      .node old childrenCount
        (Function.update children (index c) (insertWord score word (children (index c)))) := by
  rw [insertWord]
  split
  case h_1 hnull => exact absurd hnull h
  case h_2 => rfl

theorem wordScore_insertWord (h : t ≠ .null) (probe : List Letter) :
    wordScore probe (insertWord score word t) =
      if probe = word then score else wordScore probe t := by
  induction word generalizing t probe with
  | nil =>
    cases t with
    | null => exact absurd rfl h
    | node old childrenCount children => cases probe <;> simp [insertWord, wordScore]
  | cons c word ih =>
    cases t with
    | null => exact absurd rfl h
    | node old childrenCount children =>
      by_cases hchild : children (index c) = .null
      · have hfresh : Fresh children (c :: word) := hchild
        rw [insertWord_of_null hchild, wordScore_grow hfresh]
      · rw [insertWord_of_child hchild]
        exact wordScore_update (ih hchild) probe _ _

theorem counted_insertWord (score : Int32) (word : List Letter) (h : Counted t) :
    Counted (insertWord score word t) ∧ (insertWord score word t).isNull = t.isNull := by
  induction word generalizing t with
  | nil =>
    cases t with
    | null => exact ⟨h, rfl⟩
    | node old childrenCount children => exact ⟨h, rfl⟩
  | cons c word ih =>
    cases t with
    | null => exact ⟨h, rfl⟩
    | node old childrenCount children =>
      by_cases hchild : children (index c) = .null
      · rw [insertWord_of_null hchild]
        exact counted_grow hchild h
      · obtain ⟨hcounted, hnull⟩ := ih (h.2 (index c))
        rw [insertWord_of_child hchild]
        refine ⟨⟨?_, forall_update hcounted h.2⟩, rfl⟩
        rw [h.1, occupied_update_of_eq hnull]

/-! ## delete_word -/

/-- The word is no word any more. -/
def unscore : List Letter → TrieNode → TrieNode
  | _, .null => .null
  | [], .node _ childrenCount children => .node (-1) childrenCount children
  | c :: word, .node score childrenCount children =>
      .node score childrenCount
        (Function.update children (index c) (unscore word (children (index c))))

@[simp] theorem unscore_null (word : List Letter) : unscore word .null = .null := by
  unfold unscore
  rfl

@[simp] theorem isNull_unscore (word : List Letter) (t : TrieNode) :
    (unscore word t).isNull = t.isNull := by
  cases t with
  | null => rw [unscore_null]
  | node score childrenCount children => cases word <;> rfl

theorem wordScore_unscore (word : List Letter) (t : TrieNode) (probe : List Letter) :
    wordScore probe (unscore word t) = if probe = word then -1 else wordScore probe t := by
  induction word generalizing t probe with
  | nil =>
    cases t with
    | null => simp
    | node old childrenCount children => cases probe <;> simp [unscore, wordScore]
  | cons c word ih =>
    cases t with
    | null => simp
    | node old childrenCount children => exact wordScore_update (ih _) probe _ _

theorem counted_unscore (h : Counted t) : Counted (unscore word t) := by
  induction word generalizing t with
  | nil => cases t <;> exact h
  | cons c word ih =>
    cases t with
    | null => exact h
    | node old childrenCount children =>
      refine ⟨?_, forall_update (ih (h.2 _)) h.2⟩
      rw [h.1, occupied_update_of_eq (isNull_unscore _ _)]

/-- A node on the way to a word has a child. -/
theorem not_prunable_unscore (word : List Letter) (h : Counted t) (hword : wordScore word t ≠ -1) :
    prunable (unscore word t) = false := by
  cases t with
  | null => rw [unscore_null, prunable]
  | node score childrenCount children =>
    cases word with
    | nil => simp [unscore, prunable]
    | cons c word =>
      have hchild : (children (index c)).isNull = false := by
        rw [← Bool.not_eq_true, isNull_iff]
        intro hnull
        rw [wordScore, hnull, wordScore_null] at hword
        exact hword rfl
      have hpos := occupied_pos hchild
      rw [← h.1] at hpos
      simp [unscore, prunable, Nat.ne_of_gt hpos]

/-- Nothing is freed: the node of the word has no score when it is tested, and the nodes on the
way to it have a child. -/
theorem deleteWordAux_eq (h : Counted t) :
    deleteWordAux word t = (unscore word t, decide (wordScore word t ≠ -1)) := by
  induction word generalizing t with
  | nil =>
    cases t with
    | null => simp [deleteWordAux]
    | node score childrenCount children =>
      rw [deleteWordAux, unscore, wordScore]
      by_cases hscore : score = -1 <;> simp [hscore]
  | cons c word ih =>
    cases t with
    | null => simp [deleteWordAux]
    | node score childrenCount children =>
      rw [deleteWordAux, wordScore, unscore]
      split
      case h_1 hnull =>
        rw [hnull, unscore_null, wordScore_null, ← hnull, Function.update_eq_self]
        rfl
      case h_2 =>
        rw [ih (h.2 _)]
        have hkept := not_prunable_unscore word (h.2 (index c))
        by_cases hword : wordScore word (children (index c)) = -1
        · simp [hword]
        · simp [hword, hkept hword]

/-! ## Runs -/

/-- The score that the operation gives the word. -/
def Op.scores (word : List Letter) : Op → Option Int32
  | .insertWord written score => if written = word then some score.val else none
  | .deleteWord deleted => if deleted = word then some (-1) else none
  | .wordScore _ => none

/-- The word that the operation is on. -/
def Op.target : Op → List Letter
  | .insertWord word _ => word
  | .deleteWord word => word
  | .wordScore word => word

/-- What the operations keep. -/
def Valid (t : TrieNode) : Prop := t ≠ .null ∧ Counted t

theorem valid_newTrie : Valid newTrie := ⟨by rintro ⟨⟩, counted_newNode⟩

theorem deleteWord_eq (h : Counted t) : deleteWord word t = unscore word t := by
  rw [deleteWord, deleteWordAux_eq h]

theorem Valid.step (h : Valid t) (op : Op) : Valid (step t op).1 := by
  have hnull : ∀ {t' : TrieNode}, t'.isNull = t.isNull → t' ≠ .null := by
    intro t' heq hnull
    rw [hnull] at heq
    exact h.1 (isNull_iff.mp heq.symm)
  cases op with
  | insertWord word score =>
    obtain ⟨hcounted, heq⟩ := counted_insertWord score word h.2
    exact ⟨hnull heq, hcounted⟩
  | deleteWord word =>
    change Valid (deleteWord word t)
    rw [deleteWord_eq h.2]
    exact ⟨hnull (isNull_unscore word t), counted_unscore h.2⟩
  | wordScore word => exact h

theorem wordScore_step (h : Valid t) (op : Op) (probe : List Letter) :
    wordScore probe (step t op).1 = (op.scores probe).getD (wordScore probe t) := by
  cases op with
  | insertWord word score =>
    change wordScore probe (insertWord score word t) = _
    rw [wordScore_insertWord h.1, Op.scores]
    by_cases heq : probe = word
    · rw [if_pos heq, if_pos heq.symm, Option.getD_some]
    · rw [if_neg heq, if_neg (Ne.symm heq), Option.getD_none]
  | deleteWord word =>
    change wordScore probe (deleteWord word t) = _
    rw [deleteWord_eq h.2, wordScore_unscore, Op.scores]
    by_cases heq : probe = word
    · rw [if_pos heq, if_pos heq.symm, Option.getD_some]
    · rw [if_neg heq, if_neg (Ne.symm heq), Option.getD_none]
  | wordScore word => rfl

theorem valid_run (ops : List Op) : Valid (run step newTrie ops).1 :=
  run_invariant Valid (fun _ op h _ => h.step op) valid_newTrie (admits_always ops)

/-- A word has the score of the last operation that gave it one, and an operation changes the
score of no other word. -/
theorem word_score_run (ops : List Op) (word : List Letter) :
    wordScore word (run step newTrie ops).1 = Journal.latest Op.scores (-1) word ops ∧
      ∀ op : Op, op.target ≠ word →
        wordScore word (step (run step newTrie ops).1 op).1 =
          wordScore word (run step newTrie ops).1 := by
  constructor
  · have hrun := Journal.lookup_run Valid (fun _ op h => h.step op)
      (fun _ op probe h => wordScore_step h op probe) valid_newTrie ops word
    rw [hrun, newTrie, wordScore_newNode]
  · intro op hop
    have hnone : op.scores word = none := by
      cases op with
      | insertWord written score => exact if_neg hop
      | deleteWord deleted => exact if_neg hop
      | wordScore probe => rfl
    rw [wordScore_step (valid_run ops), hnone, Option.getD_none]

end InterviewQuestions.BoggleBoard

/-! `delete_word_aux` tests for a score other than -1 where it should test for -1. Nothing is
freed, and a word that no longer word begins with leaves a leaf without a score. -/
namespace InterviewQuestions.BoggleBoard

open Library Machine

variable {t child : TrieNode} {children : Fin alphabetSz → TrieNode} {i : Fin alphabetSz}
  {score old : Int32} {childrenCount : ℕ} {word : List Letter}

/-- No leaf is without a score. -/
def Useful : TrieNode → Prop
  | .null => True
  | .node score _ children => ((∀ i, children i = .null) → score ≠ -1) ∧ ∀ i, Useful (children i)

/-- No leaf below the node is without a score. -/
def Below : TrieNode → Prop
  | .null => True
  | .node _ _ children => ∀ i, Useful (children i)

/-- All nodes but the root have a child or a score, and all have the right count. -/
def Minimal (root : TrieNode) : Prop := Below root ∧ Counted root

theorem Useful.below (h : Useful t) : Below t := by
  cases t with
  | null => trivial
  | node score childrenCount children => exact h.2

theorem index_surjective : Function.Surjective index := by
  have h : ∀ i : Fin alphabetSz, (97 ≤ (UInt8.ofNat (97 + i)).toNat ∧
      (UInt8.ofNat (97 + i)).toNat ≤ 122) ∧ (UInt8.ofNat (97 + i) - 97).toNat = i := by decide
  exact fun i => ⟨⟨_, (h i).1⟩, Fin.ext (h i).2⟩

/-- Below a node there is a word. -/
theorem Useful.exists_word (h : Useful t) (hne : t ≠ .null) : ∃ word, wordScore word t ≠ -1 := by
  induction t with
  | null => exact absurd rfl hne
  | node score childrenCount children ih =>
    by_cases hleaf : ∀ i, children i = .null
    · exact ⟨[], h.1 hleaf⟩
    · obtain ⟨i, hi⟩ := not_forall.mp hleaf
      obtain ⟨word, hword⟩ := ih i (h.2 i) hi
      obtain ⟨c, rfl⟩ := index_surjective i
      exact ⟨c :: word, hword⟩

/-! ## insert_word -/

theorem useful_update (hchild : Useful child) (hne : child.isNull = false)
    (h : ∀ j, Useful (children j)) :
    Useful (.node score childrenCount (Function.update children i child)) := by
  refine ⟨fun hleaf => ?_, forall_update hchild h⟩
  have hnull := hleaf i
  rw [Function.update_self] at hnull
  rw [hnull] at hne
  cases hne

theorem isNull_grow (score : Int32) (word : List Letter) (t : TrieNode) :
    (grow score word t).isNull = t.isNull := by
  cases t with
  | null => cases word <;> rfl
  | node old childrenCount children => cases word <;> rfl

theorem useful_grow (hscore : score ≠ -1) (h : ∀ j, Useful (children j)) :
    Useful (grow score word (.node old childrenCount children)) := by
  induction word generalizing old childrenCount children with
  | nil => exact ⟨fun _ => hscore, h⟩
  | cons c word ih =>
    rw [grow]
    exact useful_update (ih fun _ => trivial) (isNull_grow score word newNode) h

theorem useful_insertWord (word : List Letter) (hscore : score ≠ -1) (hcounted : Counted t)
    (h : Below t) : Useful (insertWord score word t) := by
  induction word generalizing t with
  | nil =>
    cases t with
    | null => trivial
    | node old childrenCount children => exact ⟨fun _ => hscore, h⟩
  | cons c word ih =>
    cases t with
    | null => trivial
    | node old childrenCount children =>
      by_cases hchild : children (index c) = .null
      · rw [insertWord_of_null hchild]
        exact useful_grow hscore h
      · have hkept := (counted_insertWord score word (hcounted.2 (index c))).2
        rw [← isNull_iff, Bool.not_eq_true] at hchild
        rw [hchild] at hkept
        rw [← Bool.not_eq_true, isNull_iff] at hchild
        rw [insertWord_of_child hchild]
        exact useful_update (ih (hcounted.2 _) (h _).below) hkept h

/-! ## delete_word -/

/-- The word is there, and no longer word begins with it. -/
def Outermost (word : List Letter) (t : TrieNode) : Prop :=
  wordScore word t ≠ -1 ∧ ∀ more, more ≠ [] → wordScore (word ++ more) t = -1

/-- The node of such a word becomes a leaf without a score. -/
theorem useful_unscore_iff (word : List Letter) (h : Useful t) :
    Useful (unscore word t) ↔ ¬ Outermost word t := by
  induction word generalizing t with
  | nil =>
    cases t with
    | null => exact iff_of_true trivial fun hout => hout.1 (wordScore_null [])
    | node score childrenCount children =>
      rw [unscore, Useful, and_iff_left h.2]
      by_cases hleaf : ∀ i, children i = .null
      · apply iff_of_false
        · exact fun huseful => huseful hleaf rfl
        · refine not_not_intro ⟨h.1 hleaf, fun more hmore => ?_⟩
          cases more with
          | nil => exact absurd rfl hmore
          | cons c more => rw [List.nil_append, wordScore, hleaf, wordScore_null]
      · apply iff_of_true
        · exact fun hall => absurd hall hleaf
        · rintro ⟨_, hnone⟩
          obtain ⟨i, hi⟩ := not_forall.mp hleaf
          obtain ⟨more, hmore⟩ := (h.2 i).exists_word hi
          obtain ⟨c, rfl⟩ := index_surjective i
          exact hmore (hnone (c :: more) (List.cons_ne_nil c more))
  | cons c word ih =>
    cases t with
    | null => exact iff_of_true trivial fun hout => hout.1 (wordScore_null _)
    | node score childrenCount children =>
      have hchild := ih (h.2 (index c))
      have hout : Outermost (c :: word) (.node score childrenCount children) ↔
          Outermost word (children (index c)) := Iff.rfl
      rw [hout, ← hchild]
      constructor
      · intro huseful
        have hself := huseful.2 (index c)
        rwa [Function.update_self] at hself
      · intro huseful
        refine ⟨fun hleaf => h.1 fun i => ?_, forall_update huseful h.2⟩
        have hi := hleaf i
        rw [← isNull_iff] at hi ⊢
        by_cases heq : i = index c
        · subst heq
          rwa [Function.update_self, isNull_unscore] at hi
        · rwa [Function.update_of_ne heq] at hi

theorem below_unscore_iff (word : List Letter) (h : Below t) :
    Below (unscore word t) ↔ ¬ (word ≠ [] ∧ Outermost word t) := by
  cases t with
  | null =>
    rw [unscore_null]
    exact iff_of_true trivial fun hout => hout.2.1 (wordScore_null word)
  | node score childrenCount children =>
    cases word with
    | nil => exact iff_of_true h fun hout => hout.1 rfl
    | cons c word =>
      have hchild := useful_unscore_iff word (h (index c))
      have hout : Outermost (c :: word) (.node score childrenCount children) ↔
          Outermost word (children (index c)) := Iff.rfl
      rw [hout, and_iff_right (List.cons_ne_nil c word), ← hchild]
      constructor
      · intro hbelow
        have hself := hbelow (index c)
        rwa [Function.update_self] at hself
      · intro huseful
        exact forall_update huseful h

/-! ## Runs -/

/-- The operation deletes a word that no longer word begins with. -/
def Strands (t : TrieNode) : Op → Prop
  | .deleteWord word => word ≠ [] ∧ Outermost word t
  | _ => False

theorem minimal_step (h : Valid t) (hbelow : Below t) (op : Op) :
    ¬ Strands t op ∧ Minimal (step t op).1 ∨ ¬ ¬ Strands t op ∧ ¬ Minimal (step t op).1 := by
  have hcounted := (h.step op).2
  cases op with
  | insertWord word score =>
    exact Or.inl ⟨id, (useful_insertWord word score.property h.2 hbelow).below, hcounted⟩
  | deleteWord word =>
    change Counted (deleteWord word t) at hcounted
    change _ ∧ Minimal (deleteWord word t) ∨ _ ∧ ¬ Minimal (deleteWord word t)
    have hiff := below_unscore_iff word hbelow
    rw [← deleteWord_eq h.2] at hiff
    by_cases hstrands : word ≠ [] ∧ Outermost word t
    · exact Or.inr ⟨not_not_intro hstrands, fun hminimal => hiff.mp hminimal.1 hstrands⟩
    · exact Or.inl ⟨hstrands, hiff.mpr hstrands, hcounted⟩
  | wordScore word => exact Or.inl ⟨id, hbelow, h.2⟩

/-- The counts are always right, and a run keeps the trie minimal exactly when no step of it
deletes a word that no longer word begins with. -/
theorem trie_minimal_iff (ops : List Op) :
    Counted (run step newTrie ops).1 ∧
      ((∀ done later, ops = done ++ later → Minimal (run step newTrie done).1) ↔
        Admits step (fun t op => ¬ Strands t op) newTrie ops) := by
  refine ⟨(valid_run ops).2, ?_⟩
  refine forall_good_iff (fun t => Valid t ∧ Below t) Minimal (fun t h => ⟨h.2, h.1.2⟩) ?_
    ⟨valid_newTrie, fun _ => trivial⟩ (admits_always ops)
  intro t op h _
  rcases minimal_step h.1 h.2 op with ⟨hallowed, hminimal⟩ | hbad
  · exact Or.inl ⟨hallowed, h.1.step op, hminimal.1⟩
  · exact Or.inr hbad

/-- `insert_word` and `delete_word` of `a` -/
theorem trie_not_minimal : ¬ ∀ ops : List Op, Minimal (run step newTrie ops).1 := by
  intro h
  let a : Letter := ⟨97, by decide⟩
  have hone : (1 : Int32) ≠ -1 := by decide
  have hbelow : Below (deleteWord [a] (insertWord 1 [a] newTrie)) :=
    (h [.insertWord [a] ⟨1, hone⟩, .deleteWord [a]]).1
  have hinsert := useful_insertWord [a] hone valid_newTrie.2 fun _ => trivial
  have hcounted := (counted_insertWord 1 [a] valid_newTrie.2).1
  rw [deleteWord_eq hcounted, below_unscore_iff [a] hinsert.below] at hbelow
  refine hbelow ⟨List.cons_ne_nil a [], ?_, fun more hmore => ?_⟩
  · rw [wordScore_insertWord valid_newTrie.1, if_pos rfl]
    exact hone
  · rw [wordScore_insertWord valid_newTrie.1, newTrie, wordScore_newNode, if_neg]
    simpa using hmore

end InterviewQuestions.BoggleBoard
