import InterviewQuestions.Library.Scanf

/-! `trees_graphs/serialize_ntree/solution.cpp`. There is no result where a variable is read that
has no value, where a pointer has no node, and where a loop has more than `fuel` iterations. -/
namespace InterviewQuestions.SerializeNtree

open Library Scanf

/-- The address of a node is its number. -/
abbrev Address := ℕ

structure TreeNode where
  val : Int32
  children : List Address
deriving DecidableEq

abbrev Memory := List TreeNode

/-- The loop over the children, which are put in the queue after it. -/
def writeChildren (mem : Memory) : List Address → List UInt8 → Option (List UInt8)
  | [], oss => some oss
  | child :: children, oss => do
      let node ← mem[child]?
      writeChildren mem children (oss ++ 32 :: printInt node.val.toInt)

/-- The loop over the queue. -/
def writeQueue (mem : Memory) : ℕ → List Address → List UInt8 → Option (List UInt8)
  | 0, _, _ => none
  | _ + 1, [], oss => some oss
  | fuel + 1, curr :: queue, oss => do
      let node ← mem[curr]?
      let oss ← writeChildren mem node.children (oss ++ 32 :: printNat node.children.length)
      writeQueue mem fuel (queue ++ node.children) oss

def serialize (mem : Memory) (fuel : ℕ) : Option Address → Option (List UInt8)
  | none => some []
  | some root => do
      let node ← mem[root]?
      writeQueue mem fuel [root] (printInt node.val.toInt)

/-- `curr->children.push_back(new_node)` -/
def pushBack (mem : Memory) (curr newNode : Address) : Option Memory := do
  let node ← mem[curr]?
  return mem.set curr { node with children := node.children ++ [newNode] }

/-- What the loops of `deserialize` work on. -/
structure State where
  mem : Memory
  queue : List Address
  iss : InputStream
  value : Option Int32

/-- The loop over the children. -/
def readChildren (curr : Address) : ℕ → State → Option State
  | 0, s => some s
  | count + 1, s => do
      let (value, iss) := s.iss.extract s.value
      let val ← value
      let newNode := s.mem.length
      let mem ← pushBack (s.mem ++ [⟨val, []⟩]) curr newNode
      readChildren curr count ⟨mem, s.queue ++ [newNode], iss, value⟩

/-- The loop over the queue. -/
def readQueue : ℕ → State → Option Memory
  | 0, _ => none
  | fuel + 1, s =>
      match s.queue with
      | [] => some s.mem
      | curr :: queue => do
          let (count, iss) := s.iss.extract none
          let count ← count
          let s ← readChildren curr count.toInt.toNat { s with queue := queue, iss := iss }
          readQueue fuel s

/-- The memory after the call, and the root. -/
def deserialize (mem : Memory) (fuel : ℕ) (treeStr : List UInt8) :
    Option (Memory × Option Address) :=
  if treeStr = [] then some (mem, none)
  else do
    let (value, iss) := (InputStream.ofString treeStr).extract none
    let val ← value
    let root := mem.length
    let mem ← readQueue fuel ⟨mem ++ [⟨val, []⟩], [root], iss, value⟩
    return (mem, some root)

/-! A tree is read back as it was written when every count of children is an `int`. -/

inductive Tree where
  | node (val : Int32) (children : List Tree)

namespace Tree

def val : Tree → Int32
  | node val _ => val

/-- Every node has fewer than 2^31 children. -/
inductive Narrow : Tree → Prop
  | node (val : Int32) {children : List Tree} (hlen : children.length < 2 ^ 31)
      (hchildren : ∀ t ∈ children, Narrow t) : Narrow (node val children)

end Tree

/-- The nodes from an address on are those of the tree. -/
inductive Holds (mem : Memory) : Address → Tree → Prop
  | node {a : Address} {val : Int32} {addresses : List Address} {children : List Tree}
      (hnode : mem[a]? = some ⟨val, addresses⟩)
      (hchildren : List.Forall₂ (Holds mem) addresses children) : Holds mem a (.node val children)

/-- The node of the tree's root, before it has children. -/
def Leaf (mem : Memory) (a : Address) (t : Tree) : Prop := mem[a]? = some ⟨t.val, []⟩

/-! ## The text -/

def childText (children : List Tree) : List UInt8 :=
  children.flatMap fun t => 32 :: printInt t.val.toInt

/-- What is written for a queue of trees, in so many iterations. -/
inductive Emits : ℕ → List Tree → List UInt8 → Prop
  | nil : Emits 0 [] []
  | cons (val : Int32) {n : ℕ} {queue children : List Tree} {rest : List UInt8}
      (h : Emits n (queue ++ children) rest) :
      Emits (n + 1) (.node val children :: queue)
        (32 :: (printNat children.length ++ (childText children ++ rest)))

variable {n : ℕ} {mem mem' : Memory} {t : Tree} {trees children : List Tree}
  {rest text oss : List UInt8} {a curr root : Address} {queue addresses : List Address}
  {val : Int32}

theorem Emits.head (h : Emits n trees text) : ∀ b ∈ text.head?, isdigit b = false := by
  cases h with
  | nil => exact isdigit_head_nil
  | cons => exact fun b hb => Option.some.inj hb ▸ rfl

theorem childText_head (children : List Tree) (hrest : ∀ b ∈ rest.head?, isdigit b = false) :
    ∀ b ∈ (childText children ++ rest).head?, isdigit b = false := by
  cases children with
  | nil => exact hrest
  | cons => exact fun b hb => Option.some.inj hb ▸ rfl

theorem sum_sizeOf_le (trees : List Tree) : (trees.map sizeOf).sum ≤ sizeOf trees := by
  induction trees with
  | nil => exact Nat.zero_le _
  | cons t trees ih =>
    simp only [List.map_cons, List.sum_cons, List.cons.sizeOf_spec]
    omega

/-- Each iteration takes a node out of the queue. -/
theorem exists_emits (trees : List Tree) : ∃ n text, Emits n trees text := by
  generalize hsize : (trees.map sizeOf).sum = size
  induction size using Nat.strong_induction_on generalizing trees with
  | _ size ih =>
    cases trees with
    | nil => exact ⟨0, [], .nil⟩
    | cons t queue =>
      cases t with
      | node val children =>
        have hchildren := sum_sizeOf_le children
        simp only [List.map_cons, List.sum_cons, Tree.node.sizeOf_spec] at hsize
        obtain ⟨n, text, h⟩ := ih ((queue ++ children).map sizeOf).sum
          (by rw [List.map_append, List.sum_append]; omega) _ rfl
        exact ⟨n + 1, _, .cons val h⟩

/-! ## Writing -/

theorem writeChildren_eq (h : List.Forall₂ (Holds mem) addresses children) (oss : List UInt8) :
    writeChildren mem addresses oss = some (oss ++ childText children) := by
  induction h generalizing oss with
  | nil => rw [childText, List.flatMap_nil, List.append_nil, writeChildren]
  | @cons a t addresses children ht hrest ih =>
    cases ht with
    | @node _ val _ _ hnode =>
      rw [writeChildren, hnode]
      simp only [Option.bind_eq_bind, Option.bind_some, ih]
      simp only [childText, List.flatMap_cons, List.append_assoc, List.cons_append]
      rfl

theorem writeQueue_eq (hemits : Emits n trees text) (hqueue : List.Forall₂ (Holds mem) queue trees)
    {fuel : ℕ} (hfuel : n < fuel) (oss : List UInt8) :
    writeQueue mem fuel queue oss = some (oss ++ text) := by
  induction hemits generalizing queue fuel oss with
  | nil =>
    cases hqueue
    obtain ⟨fuel, rfl⟩ := Nat.exists_eq_succ_of_ne_zero (by omega : fuel ≠ 0)
    rw [writeQueue, List.append_nil]
  | cons val h ih =>
    cases hqueue with
    | cons hfirst hqueue =>
      cases hfirst with
      | node hnode hchildren =>
        obtain ⟨fuel, rfl⟩ := Nat.exists_eq_succ_of_ne_zero (by omega : fuel ≠ 0)
        rw [writeQueue, hnode]
        simp only [Option.bind_eq_bind, Option.bind_some, writeChildren_eq hchildren,
          hchildren.length_eq]
        rw [ih (List.rel_append hqueue hchildren) (Nat.lt_of_succ_lt_succ hfuel)]
        simp only [List.append_assoc, List.cons_append]

/-! ## Reading -/

/-- The addresses of the next new nodes. -/
def newNodes (start : Address) (children : List Tree) : List Address :=
  List.range' start children.length

theorem newNodes_cons (start : Address) (t : Tree) (children : List Tree) :
    newNodes start (t :: children) = start :: newNodes (start + 1) children :=
  List.range'_succ

/-- The memory with the children of a node. -/
def withChildren (mem : Memory) (curr : Address) (val : Int32) (addresses : List Address)
    (children : List Tree) : Memory :=
  mem.set curr ⟨val, addresses ++ newNodes mem.length children⟩ ++ children.map fun t => ⟨t.val, []⟩

/-- The first child is put in the memory before the others. -/
theorem withChildren_cons (hcurr : curr < mem.length) (val : Int32) (addresses : List Address)
    (t : Tree) (children : List Tree) :
    withChildren (mem.set curr ⟨val, addresses ++ [mem.length]⟩ ++ [⟨t.val, []⟩]) curr val
        (addresses ++ [mem.length]) children =
      withChildren mem curr val addresses (t :: children) := by
  unfold withChildren
  rw [List.set_append_left _ _ (by rwa [List.length_set]), List.set_set, newNodes_cons]
  simp only [List.append_assoc, List.singleton_append, List.map_cons, List.length_append,
    List.length_set, List.length_singleton]

theorem extract_child (t : Tree) (hrest : ∀ b ∈ rest.head?, isdigit b = false)
    (old : Option Int32) :
    (InputStream.after (childText (t :: children) ++ rest)).extract old =
      (some t.val, .after (childText children ++ rest)) := by
  have htext : childText (t :: children) ++ rest =
      32 :: (printInt t.val.toInt ++ (childText children ++ rest)) := by
    simp only [childText, List.flatMap_cons, List.append_assoc, List.cons_append]
  rw [htext, InputStream.after_cons]
  exact InputStream.extract_int t.val (skipSpace_printInt _ _) (childText_head _ hrest) old

theorem readChildren_eq (children : List Tree) (hcurr : mem[curr]? = some ⟨val, addresses⟩)
    (hrest : ∀ b ∈ rest.head?, isdigit b = false) (queue : List Address) (v : Int32) :
    ∃ w, readChildren curr children.length
        ⟨mem, queue, .after (childText children ++ rest), some v⟩ =
      some ⟨withChildren mem curr val addresses children, queue ++ newNodes mem.length children,
        .after rest, some w⟩ := by
  have hlt := (List.getElem?_eq_some_iff.mp hcurr).1
  induction children generalizing mem addresses queue v with
  | nil =>
    refine ⟨v, ?_⟩
    have hsame : mem.set curr ⟨val, addresses⟩ = mem := by
      rw [← (List.getElem?_eq_some_iff.mp hcurr).2]
      exact List.set_getElem_self hlt
    simp only [withChildren, newNodes, List.length_nil, List.range'_zero, List.append_nil,
      List.map_nil, hsame]
    rfl
  | cons t children ih =>
    have hpush : pushBack (mem ++ [⟨t.val, []⟩]) curr mem.length =
        some (mem.set curr ⟨val, addresses ++ [mem.length]⟩ ++ [⟨t.val, []⟩]) := by
      unfold pushBack
      rw [List.getElem?_append_left hlt, hcurr]
      simp only [Option.bind_eq_bind, Option.bind_some, List.set_append_left _ _ hlt]
      rfl
    have hcurr' : (mem.set curr ⟨val, addresses ++ [mem.length]⟩ ++ [⟨t.val, []⟩])[curr]? =
        some ⟨val, addresses ++ [mem.length]⟩ := by
      rw [List.getElem?_append_left (by rwa [List.length_set]), List.getElem?_set_self hlt]
    obtain ⟨w, hw⟩ := ih hcurr' (queue ++ [mem.length]) t.val
      (List.getElem?_eq_some_iff.mp hcurr').1
    refine ⟨w, ?_⟩
    rw [List.length_cons, readChildren, extract_child t hrest]
    simp only [Option.bind_eq_bind, Option.bind_some, hpush, hw, withChildren_cons hlt]
    rw [newNodes_cons, List.append_assoc, List.singleton_append, List.length_append,
      List.length_set, List.length_singleton]

theorem withChildren_self (hcurr : curr < mem.length) (val : Int32) (children : List Tree) :
    (withChildren mem curr val [] children)[curr]? = some ⟨val, newNodes mem.length children⟩ := by
  unfold withChildren
  rw [List.getElem?_append_left (by rwa [List.length_set]), List.getElem?_set_self hcurr]
  rfl

theorem withChildren_of_ne (ha : a < mem.length) (hne : a ≠ curr) (val : Int32)
    (children : List Tree) : (withChildren mem curr val [] children)[a]? = mem[a]? := by
  unfold withChildren
  rw [List.getElem?_append_left (by rwa [List.length_set]), List.getElem?_set_ne hne.symm]

theorem length_withChildren (mem : Memory) (curr : Address) (val : Int32) (children : List Tree) :
    (withChildren mem curr val [] children).length = mem.length + children.length := by
  simp only [withChildren, List.length_append, List.length_set, List.length_map]

theorem leaf_newNodes (mem : Memory) (children : List Tree) :
    List.Forall₂ (Leaf (mem ++ children.map fun t => ⟨t.val, []⟩)) (newNodes mem.length children)
      children := by
  induction children generalizing mem with
  | nil => exact .nil
  | cons t children ih =>
    have hrest := ih (mem ++ [⟨t.val, []⟩])
    rw [newNodes_cons]
    refine .cons ?_ ?_
    · exact (List.getElem?_append_right (Nat.le_refl _)).trans (by simp)
    · simpa using hrest

theorem leaves_withChildren (mem : Memory) (curr : Address) (val : Int32) (children : List Tree) :
    List.Forall₂ (Leaf (withChildren mem curr val [] children)) (newNodes mem.length children)
      children := by
  have hleaves := leaf_newNodes (mem.set curr ⟨val, [] ++ newNodes mem.length children⟩) children
  rwa [List.length_set] at hleaves

theorem extract_count {count : ℕ} (hcount : count < 2 ^ 31)
    (hrest : ∀ b ∈ rest.head?, isdigit b = false) (old : Option Int32) :
    (InputStream.after (32 :: (printNat count ++ rest))).extract old =
      (some (Int32.ofInt count), .after rest) := by
  have hint : (Int32.ofInt count).toInt = count := Int32.toInt_ofInt_of_le (by omega) (by omega)
  rw [InputStream.after_cons, ← printInt_natCast, ← hint, Int32.ofInt_toInt]
  exact InputStream.extract_int _ (skipSpace_printInt _ _) hrest old

theorem Tree.narrow_node : (Tree.node val children).Narrow ↔
    children.length < 2 ^ 31 ∧ ∀ t ∈ children, t.Narrow := by
  constructor
  · rintro ⟨_, hlen, hchildren⟩
    exact ⟨hlen, hchildren⟩
  · rintro ⟨hlen, hchildren⟩
    exact .node val hlen hchildren

/-- One iteration, up to the next one. -/
theorem readQueue_cons (hcurr : Leaf mem curr (.node val children))
    (hlen : children.length < 2 ^ 31) (hrest : ∀ b ∈ rest.head?, isdigit b = false)
    (queue : List Address) (v : Int32) :
    ∃ w, ∀ fuel, readQueue (fuel + 1) ⟨mem, curr :: queue,
        .after (32 :: (printNat children.length ++ (childText children ++ rest))), some v⟩ =
      readQueue fuel ⟨withChildren mem curr val [] children,
        queue ++ newNodes mem.length children, .after rest, some w⟩ := by
  obtain ⟨w, hw⟩ := readChildren_eq children hcurr hrest queue v
  refine ⟨w, fun fuel => ?_⟩
  have hcount : (Int32.ofInt children.length).toInt.toNat = children.length := by
    rw [Int32.toInt_ofInt_of_le (by omega) (by omega), Int.toNat_natCast]
  rw [readQueue, extract_count hlen (childText_head _ hrest)]
  simp only [Option.bind_eq_bind, Option.bind_some, hcount, hw]
  rfl

theorem nodup_newNodes (h : ∀ a ∈ queue, a < mem.length) (hnodup : queue.Nodup)
    (children : List Tree) : (queue ++ newNodes mem.length children).Nodup := by
  refine List.nodup_append.mpr ⟨hnodup, List.nodup_range', ?_⟩
  intro a ha b hb hab
  have hge := (List.mem_range'_1.mp hb).1
  have hlt := h a ha
  rw [hab] at hlt
  exact absurd hlt (Nat.not_lt.mpr hge)

theorem Leaf.lt (h : Leaf mem a t) : a < mem.length := (List.getElem?_eq_some_iff.mp h).1

theorem leaves_lt (h : List.Forall₂ (Leaf mem) queue trees) : ∀ a ∈ queue, a < mem.length :=
  ((List.forall₂_and_left queue trees).mp (h.imp fun _ _ hleaf => ⟨hleaf.lt, hleaf⟩)).1

/-- The leaves of the other nodes in the queue stay leaves. -/
theorem leaves_of_notMem (h : List.Forall₂ (Leaf mem) queue trees) (hcurr : curr ∉ queue)
    (val : Int32) (children : List Tree) :
    List.Forall₂ (Leaf (withChildren mem curr val [] children)) queue trees := by
  have hne : ∀ a ∈ queue, a ≠ curr := fun a ha heq => hcurr (heq ▸ ha)
  refine ((List.forall₂_and_left queue trees).mpr ⟨hne, h⟩).imp ?_
  rintro a t ⟨hne, hleaf⟩
  exact (withChildren_of_ne hleaf.lt hne val children).trans hleaf

theorem readQueue_eq (hemits : Emits n trees text) (hnarrow : ∀ t ∈ trees, t.Narrow)
    (hleaves : List.Forall₂ (Leaf mem) queue trees) (hnodup : queue.Nodup) (v : Int32) :
    ∃ mem', (∀ fuel > n, readQueue fuel ⟨mem, queue, .after text, some v⟩ = some mem') ∧
      List.Forall₂ (Holds mem') queue trees ∧
      ∀ a < mem.length, a ∉ queue → mem'[a]? = mem[a]? := by
  induction hemits generalizing mem queue v with
  | nil =>
    cases hleaves
    refine ⟨mem, fun fuel hfuel => ?_, .nil, fun _ _ _ => rfl⟩
    obtain ⟨fuel, rfl⟩ := Nat.exists_eq_succ_of_ne_zero (by omega : fuel ≠ 0)
    rfl
  | @cons val n trees children rest h ih =>
    cases hleaves with
    | @cons curr _ queue _ hcurr hleaves =>
      obtain ⟨hlen, hchildren⟩ := Tree.narrow_node.mp (hnarrow _ List.mem_cons_self)
      rw [List.nodup_cons] at hnodup
      obtain ⟨w, hw⟩ := readQueue_cons hcurr hlen h.head queue v
      have hleaves' := List.rel_append (leaves_of_notMem hleaves hnodup.1 val children)
        (leaves_withChildren mem curr val children)
      have hnarrow' : ∀ t ∈ trees ++ children, t.Narrow := by
        intro t ht
        rcases List.mem_append.mp ht with ht | ht
        · exact hnarrow t (List.mem_cons_of_mem _ ht)
        · exact hchildren t ht
      obtain ⟨mem', hmem', hholds, hframe⟩ := ih hnarrow' hleaves'
        (nodup_newNodes (leaves_lt hleaves) hnodup.2 children) w
      -- the calls after this one change no node that was there and is not in the queue
      have hold : ∀ a < mem.length, a ∉ queue →
          mem'[a]? = (withChildren mem curr val [] children)[a]? := by
        intro a ha hnot
        have ha' := Nat.lt_add_right children.length ha
        rw [← length_withChildren mem curr val children] at ha'
        refine hframe a ha' ?_
        rw [List.mem_append, not_or]
        refine ⟨hnot, fun hnew => ?_⟩
        exact absurd ha (Nat.not_lt.mpr (List.mem_range'_1.mp hnew).1)
      refine ⟨mem', fun fuel hfuel => ?_, ?_, ?_⟩
      · obtain ⟨fuel, rfl⟩ := Nat.exists_eq_succ_of_ne_zero (by omega : fuel ≠ 0)
        rw [hw]
        exact hmem' fuel (by omega)
      · have hsplit := List.forall₂_take_append _ _ _ hholds
        have hsplit' := List.forall₂_drop_append _ _ _ hholds
        rw [← hleaves.length_eq, List.take_left] at hsplit
        rw [← hleaves.length_eq, List.drop_left] at hsplit'
        refine .cons (.node ?_ hsplit') hsplit
        rw [hold curr hcurr.lt hnodup.1]
        exact withChildren_self hcurr.lt val children
      · intro a ha hnot
        rw [List.mem_cons, not_or] at hnot
        rw [hold a ha hnot.2]
        exact withChildren_of_ne ha hnot.1 val children

/-! ## A count that is no `int` -/

/-- Once the stream has failed, the nodes of the queue have no counts. -/
theorem readChildren_failed {count : ℕ} {s s' : State} (hbad : s.iss.good = false)
    (h : readChildren curr count s = some s') :
    s'.iss.good = false ∧ s'.queue.length = s.queue.length + count := by
  induction count generalizing s with
  | zero =>
    cases h
    exact ⟨hbad, rfl⟩
  | succ count ih =>
    rw [readChildren, InputStream.extract_of_not_good hbad] at h
    simp only [Option.bind_eq_bind, Option.bind_eq_some_iff] at h
    obtain ⟨val, -, mem, -, h⟩ := h
    obtain ⟨hbad', hlen⟩ := ih (s := ⟨mem, s.queue ++ [s.mem.length], s.iss, s.value⟩) hbad h
    rw [List.length_append, List.length_singleton] at hlen
    exact ⟨hbad', hlen.trans (by omega)⟩

theorem readQueue_failed {s : State} (hbad : s.iss.good = false) (hqueue : s.queue ≠ [])
    (fuel : ℕ) : readQueue fuel s = none := by
  cases fuel with
  | zero => rfl
  | succ fuel =>
    rw [readQueue]
    split
    case h_1 hnil => exact absurd hnil hqueue
    case h_2 =>
      rw [InputStream.extract_of_not_good hbad]
      rfl

theorem readQueue_wide (hlen : 2 ^ 31 ≤ children.length)
    (hrest : ∀ b ∈ rest.head?, isdigit b = false) (fuel : ℕ) (queue : List Address)
    (value : Option Int32) :
    readQueue (fuel + 1) ⟨mem, curr :: queue,
      .after (32 :: (printNat children.length ++ (childText children ++ rest))), value⟩ = none := by
  have hextract := InputStream.extract_large (z := children.length) (by omega)
    (skipSpace_printInt _ _) (childText_head children hrest) none
  rw [printInt_natCast] at hextract
  have hskip : (InputStream.after (32 :: (printNat children.length ++
      (childText children ++ rest)))).extract none = _ := hextract
  rw [readQueue, hskip]
  simp only [Option.bind_eq_bind, Option.bind_some]
  cases hread : readChildren curr Int32.maxValue.toInt.toNat _ with
  | none => rfl
  | some s =>
    obtain ⟨hbad, hlength⟩ := readChildren_failed rfl hread
    refine readQueue_failed hbad ?_ fuel
    intro hnil
    rw [hnil] at hlength
    have hcount : Int32.maxValue.toInt.toNat = 2 ^ 31 - 1 := by decide
    rw [hcount, List.length_nil] at hlength
    omega

theorem readQueue_eq_none (hemits : Emits n trees text) (hwide : ¬ ∀ t ∈ trees, t.Narrow)
    (hleaves : List.Forall₂ (Leaf mem) queue trees) (hnodup : queue.Nodup) (fuel : ℕ) (v : Int32) :
    readQueue fuel ⟨mem, queue, .after text, some v⟩ = none := by
  induction hemits generalizing mem queue fuel v with
  | nil => exact absurd (fun t ht => by cases ht) hwide
  | @cons val n trees children rest h ih =>
    cases hleaves with
    | @cons curr _ queue _ hcurr hleaves =>
      cases fuel with
      | zero => rfl
      | succ fuel =>
        by_cases hlen : children.length < 2 ^ 31
        · obtain ⟨w, hw⟩ := readQueue_cons hcurr hlen h.head queue v
          rw [List.nodup_cons] at hnodup
          rw [hw]
          refine ih ?_ (List.rel_append (leaves_of_notMem hleaves hnodup.1 val children)
            (leaves_withChildren mem curr val children))
            (nodup_newNodes (leaves_lt hleaves) hnodup.2 children) fuel w
          intro hnarrow
          apply hwide
          intro t ht
          cases ht with
          | head => exact .node val hlen fun t ht => hnarrow t (List.mem_append_right _ ht)
          | tail _ ht => exact hnarrow t (List.mem_append_left _ ht)
        · exact readQueue_wide (not_lt.mp hlen) h.head fuel queue (some v)

/-! ## Round trips -/

/-- Reading what was written returns the same tree, and writing that returns the same text. -/
def RoundTrips (mem : Memory) (root : Address) (t : Tree) : Prop :=
  ∃ n s mem' root', Holds mem' root' t ∧ ∀ fuel > n,
    serialize mem fuel (some root) = some s ∧ deserialize mem fuel s = some (mem', some root') ∧
      serialize mem' fuel (some root') = some s

theorem serialize_eq (h : Holds mem root t) (hemits : Emits n [t] text) {fuel : ℕ}
    (hfuel : n < fuel) :
    serialize mem fuel (some root) = some (printInt t.val.toInt ++ text) := by
  have hqueue := writeQueue_eq hemits (.cons h .nil) hfuel (printInt t.val.toInt)
  cases h with
  | node hnode hchildren =>
    rw [serialize, hnode]
    exact hqueue

theorem deserialize_eq (mem : Memory) (fuel : ℕ) (hemits : Emits n [t] text) :
    deserialize mem fuel (printInt t.val.toInt ++ text) =
      (readQueue fuel ⟨mem ++ [⟨t.val, []⟩], [mem.length], .after text, some t.val⟩).map
        fun mem' => (mem', some mem.length) := by
  have hne : printInt t.val.toInt ++ text ≠ [] :=
    fun hnil => printInt_ne_nil _ (List.append_eq_nil_iff.mp hnil).1
  unfold deserialize
  rw [if_neg hne, InputStream.extract_int t.val (skipSpace_printInt _ _) hemits.head]
  simp only [Option.bind_eq_bind, Option.bind_some]
  cases readQueue fuel _ <;> rfl

theorem leaf_append (mem : Memory) (t : Tree) : Leaf (mem ++ [⟨t.val, []⟩]) mem.length t := by
  unfold Leaf
  rw [List.getElem?_append_right (Nat.le_refl _), Nat.sub_self]
  rfl

theorem roundTrips_iff (h : Holds mem root t) : RoundTrips mem root t ↔ t.Narrow := by
  obtain ⟨n, text, hemits⟩ := exists_emits [t]
  have hleaves : List.Forall₂ (Leaf (mem ++ [⟨t.val, []⟩])) [mem.length] [t] :=
    .cons (leaf_append mem t) .nil
  have hnodup : [mem.length].Nodup := List.nodup_singleton _
  constructor
  · rintro ⟨m, s, mem', root', -, hruns⟩
    obtain ⟨hwrite, hread, -⟩ := hruns (m + n + 1) (by omega)
    rw [serialize_eq h hemits (by omega)] at hwrite
    cases hwrite
    by_contra hwide
    rw [deserialize_eq mem _ hemits, readQueue_eq_none hemits
      (fun hall => hwide (hall t List.mem_cons_self)) hleaves hnodup] at hread
    cases hread
  · intro hnarrow
    have hnarrow' : ∀ t' ∈ [t], t'.Narrow := by
      intro t' ht'
      rw [List.mem_singleton.mp ht']
      exact hnarrow
    obtain ⟨mem', hmem', hholds, -⟩ := readQueue_eq hemits hnarrow' hleaves hnodup t.val
    cases hholds with
    | cons hholds =>
      refine ⟨n, _, mem', mem.length, hholds, fun fuel hfuel => ⟨serialize_eq h hemits hfuel, ?_,
        serialize_eq hholds hemits hfuel⟩⟩
      rw [deserialize_eq mem fuel hemits, hmem' fuel hfuel]
      rfl

/-- Nothing is written for no tree, and read back as none. -/
def NullRoundTrips (mem : Memory) : Prop :=
  ∀ fuel, serialize mem fuel none = some [] ∧ deserialize mem fuel [] = some (mem, none)

theorem serialize_ntree_iff (h : Holds mem root t) :
    NullRoundTrips mem ∧ (RoundTrips mem root t ↔ t.Narrow) :=
  ⟨fun _ => ⟨rfl, rfl⟩, roundTrips_iff h⟩

/-- The root 1 with the children -7 and 30. -/
theorem serialize_ntree_iff_three :
    NullRoundTrips [⟨1, [1, 2]⟩, ⟨-7, []⟩, ⟨30, []⟩] ∧
      (RoundTrips [⟨1, [1, 2]⟩, ⟨-7, []⟩, ⟨30, []⟩] 0 (.node 1 [.node (-7) [], .node 30 []]) ↔
        (Tree.node 1 [.node (-7) [], .node 30 []]).Narrow) :=
  serialize_ntree_iff (.node rfl (.cons (.node rfl .nil) (.cons (.node rfl .nil) .nil)))

/-- A root with so many children, all of them 0. -/
def star (n : ℕ) : Memory := ⟨0, List.range' 1 n⟩ :: List.replicate n ⟨0, []⟩

def Tree.star (n : ℕ) : Tree := .node 0 (List.replicate n (.node 0 []))

theorem holds_star (n : ℕ) : Holds (SerializeNtree.star n) 0 (.star n) := by
  refine .node rfl ?_
  rw [List.forall₂_iff_get]
  refine ⟨by rw [List.length_range', List.length_replicate], fun i hi hi' => ?_⟩
  rw [List.length_range'] at hi
  simp only [List.get_eq_getElem, List.getElem_range', List.getElem_replicate]
  refine .node ?_ .nil
  rw [SerializeNtree.star, show 1 + 1 * i = i + 1 by omega, List.getElem?_cons_succ,
    List.getElem?_replicate, if_pos hi]

theorem not_roundTrips_star : Holds (star (2 ^ 31)) 0 (.star (2 ^ 31)) ∧
    ¬ RoundTrips (star (2 ^ 31)) 0 (.star (2 ^ 31)) := by
  refine ⟨holds_star _, fun h => ?_⟩
  have hnarrow := (roundTrips_iff (holds_star _)).mp h
  have hlen := (Tree.narrow_node.mp hnarrow).1
  rw [List.length_replicate] at hlen
  exact lt_irrefl _ hlen

end InterviewQuestions.SerializeNtree
