import InterviewQuestions.HashTable.Model
import Mathlib.Data.List.Perm.Subperm

/-! The table is a map from keys to contents of values. -/
namespace InterviewQuestions.HashTable

open Library Machine

variable {mem mem' : Memory} {chain : Fin hashTableSz → List Address} {m : Key → List Item}
  {i j : Fin hashTableSz} {a : Address} {nodes left right : List Address} {k : Key} {v : Item}

/-- The values of the nodes with the key, in their order. -/
def stack (mem : Memory) (k : Key) (nodes : List Address) : List Item :=
  (nodes.filter fun a => mem.key a = k).map mem.value

theorem stack_congr (h : ∀ a ∈ nodes, mem'.key a = mem.key a ∧ mem'.value a = mem.value a) :
    stack mem' k nodes = stack mem k nodes := by
  have hfilter : (nodes.filter fun a => mem'.key a = k) = nodes.filter fun a => mem.key a = k :=
    List.filter_congr fun a ha => by rw [(h a ha).1]
  rw [stack, hfilter]
  exact List.map_congr_left fun a ha => (h a (List.mem_filter.mp ha).1).2

theorem stack_append (mem : Memory) (k : Key) (left right : List Address) :
    stack mem k (left ++ right) = stack mem k left ++ stack mem k right := by
  rw [stack, List.filter_append, List.map_append, stack, stack]

theorem stack_cons (mem : Memory) (k : Key) (a : Address) (nodes : List Address) :
    stack mem k (a :: nodes) =
      if mem.key a = k then mem.value a :: stack mem k nodes else stack mem k nodes := by
  by_cases hkey : mem.key a = k <;> simp [stack, hkey]

/-- Each slot is a ring of live blocks whose keys belong there, and the map is what the nodes
hold. -/
structure Holds (mem : Memory) (chain : Fin hashTableSz → List Address) (m : Key → List Item) :
    Prop where
  ring : ∀ i, DoublyLinked mem.next mem.prev (.slot i) (chain i)
  live : ∀ i, ∀ a ∈ chain i, a ∈ mem.live.map .block
  slot : ∀ i, ∀ a ∈ chain i, hashKey (mem.key a) = i
  contents : ∀ k, m k = stack mem k (chain (hashKey k))

/-- Two rings have no node in common. -/
theorem Holds.apart (h : Holds mem chain m) (hne : i ≠ j) (ha : a ∈ .slot i :: chain i) :
    a ∉ .slot j :: chain j := by
  have hblock : ∀ s s', .slot s ∉ chain s' := by
    intro s s' hmem
    obtain ⟨b, _, hb⟩ := List.mem_map.mp (h.live s' _ hmem)
    cases hb
  intro ha'
  rcases List.mem_cons.mp ha with rfl | hi
  · rcases List.mem_cons.mp ha' with heq | hj
    · cases heq
      exact hne rfl
    · exact hblock i j hj
  · rcases List.mem_cons.mp ha' with rfl | hj
    · exact hblock j i hi
    · exact hne ((h.slot i a hi).symm.trans (h.slot j a hj))

/-- The search finds the first node of the key. -/
theorem Holds.findInternal (h : Holds mem chain m) (k : Key) :
    findInternal mem (.slot (hashKey k)) k = some
      (((chain (hashKey k)).find? fun a => mem.key a = k).getD (.slot (hashKey k))) := by
  apply findInternal_eq (h.ring _)
  have hsub : chain (hashKey k) ⊆ mem.live.map .block := fun a ha => h.live _ a ha
  have hnodup := (List.nodup_cons.mp (h.ring (hashKey k)).nodup).2
  have hle := (List.subperm_of_subset hnodup hsub).length_le
  rwa [List.length_map] at hle

theorem holds_newTable (node : Address → HtNode) :
    Holds (newTable node) (fun _ => []) fun _ => [] where
  ring _ := .nil rfl rfl
  live _ _ ha := by cases ha
  slot _ _ ha := by cases ha
  contents _ := rfl

/-- The node after the head is one of the ring. -/
theorem Holds.next_head_mem (h : Holds mem chain m) (i : Fin hashTableSz) :
    mem.next (.slot i) ∈ .slot i :: chain i := by
  obtain ⟨back, hback⟩ := (h.ring i).next_head
  have hmem : mem.next (.slot i) ∈ chain i ++ [.slot i] := by
    rw [hback]
    exact List.mem_cons_self
  exact List.mem_cons.mpr ((List.mem_append.mp hmem).symm.imp List.mem_singleton.mp id)

/-- A change of the links of one ring leaves the others as they are. -/
theorem Holds.ring_elsewhere (h : Holds mem chain m) (hne : j ≠ i)
    (hnext : ∀ a ∉ .slot i :: chain i, a ∈ .slot j :: chain j → mem'.next a = mem.next a)
    (hprev : ∀ a ∉ .slot i :: chain i, a ∈ .slot j :: chain j → mem'.prev a = mem.prev a) :
    DoublyLinked mem'.next mem'.prev (.slot j) (chain j) :=
  (h.ring j).congr (fun a ha => hnext a (h.apart hne ha) ha)
    fun a ha => hprev a (h.apart hne ha) ha

/-! ## insert -/

section Insert

variable {b : ℕ} (h : Holds mem chain m) (hfresh : b ∉ mem.live)
  (hins : Inserted mem mem' (.slot (hashKey k)) (.block b) k v) (hlive : mem'.live = b :: mem.live)

include h hfresh

theorem Holds.not_mem_ring (i : Fin hashTableSz) : .block b ∉ .slot i :: chain i := by
  intro hmem
  rcases List.mem_cons.mp hmem with heq | hmem
  · cases heq
  · obtain ⟨b', hb', heq⟩ := List.mem_map.mp (h.live i _ hmem)
    cases heq
    exact hfresh hb'

theorem Holds.ne_block (ha : a ∈ chain i) : a ≠ .block b := by
  rintro rfl
  exact h.not_mem_ring hfresh i (List.mem_cons_of_mem _ ha)

include hins

theorem Holds.insert_ring (i : Fin hashTableSz) : DoublyLinked mem'.next mem'.prev (.slot i)
    (Function.update chain (hashKey k) (.block b :: chain (hashKey k)) i) := by
  by_cases hi : i = hashKey k
  · subst hi
    obtain ⟨back, hback⟩ := (h.ring (hashKey k)).next_head
    have hnil : DoublyLinked mem.next mem.prev (.slot (hashKey k)) ([] ++ chain (hashKey k)) :=
      h.ring (hashKey k)
    have hhead : mem.prev (mem.next (.slot (hashKey k))) = .slot (hashKey k) := by
      obtain ⟨front, hfront, _⟩ := hnil.seam hback
      cases front with
      | nil => exact (List.cons.inj hfront).1.symm
      | cons c front => simp at hfront
    have hring := hnil.insert hback (h.not_mem_ring hfresh (hashKey k))
    rw [hhead] at hring
    rw [Function.update_self, hins.next, hins.prev]
    exact hring
  · rw [Function.update_of_ne hi]
    apply h.ring_elsewhere hi
    · intro c hout hc
      have hhead : c ≠ .slot (hashKey k) := fun heq => hout (heq ▸ List.mem_cons_self)
      have hnew : c ≠ .block b := fun heq => h.not_mem_ring hfresh i (heq ▸ hc)
      rw [hins.next, Function.update_of_ne hhead, Function.update_of_ne hnew]
    · intro c hout hc
      have hfirst : c ≠ mem.next (.slot (hashKey k)) := fun heq =>
        hout (heq ▸ h.next_head_mem (hashKey k))
      have hnew : c ≠ .block b := fun heq => h.not_mem_ring hfresh i (heq ▸ hc)
      rw [hins.prev, Function.update_of_ne hfirst, Function.update_of_ne hnew]

theorem Holds.insert_stack (k' : Key) (i : Fin hashTableSz) :
    HashTable.stack mem' k' (chain i) = HashTable.stack mem k' (chain i) := by
  apply stack_congr
  intro c hc
  rw [hins.key, hins.value, Function.update_of_ne (h.ne_block hfresh hc),
    Function.update_of_ne (h.ne_block hfresh hc)]
  exact ⟨rfl, rfl⟩

include hlive

theorem Holds.insert_holds :
    Holds mem' (Function.update chain (hashKey k) (.block b :: chain (hashKey k)))
      (Function.update m k (v :: m k)) := by
  have hcases : ∀ i, ∀ c ∈ Function.update chain (hashKey k) (.block b :: chain (hashKey k)) i,
      c = .block b ∧ i = hashKey k ∨ c ∈ chain i := by
    intro i c hc
    by_cases hi : i = hashKey k
    · subst hi
      rw [Function.update_self] at hc
      exact (List.mem_cons.mp hc).imp (fun heq => ⟨heq, rfl⟩) id
    · rw [Function.update_of_ne hi] at hc
      exact Or.inr hc
  constructor
  · exact h.insert_ring hfresh hins
  · intro i c hc
    rw [hlive, List.map_cons]
    rcases hcases i c hc with ⟨rfl, _⟩ | hc
    · exact List.mem_cons_self
    · exact List.mem_cons_of_mem _ (h.live i c hc)
  · intro i c hc
    rw [hins.key]
    rcases hcases i c hc with ⟨rfl, rfl⟩ | hc
    · rw [Function.update_self]
    · rw [Function.update_of_ne (h.ne_block hfresh hc)]
      exact h.slot i c hc
  · intro k'
    have hkey : mem'.key (.block b) = k := by rw [hins.key, Function.update_self]
    have hvalue : mem'.value (.block b) = v := by rw [hins.value, Function.update_self]
    by_cases hk : k' = k
    · subst hk
      rw [Function.update_self, Function.update_self, stack_cons, if_pos hkey, hvalue,
        h.insert_stack hfresh hins, h.contents]
    · rw [Function.update_of_ne hk, h.contents]
      by_cases hi : hashKey k' = hashKey k
      · rw [hi, Function.update_self, stack_cons, hkey, if_neg (Ne.symm hk),
          h.insert_stack hfresh hins]
      · rw [Function.update_of_ne hi, h.insert_stack hfresh hins]

end Insert

theorem Holds.insert (h : Holds mem chain m) {b : ℕ} (hfresh : b ∉ mem.live) (k : Key) (v : Item) :
    ∃ mem' chain', HashTable.insert mem k v (some b) = (mem', true) ∧
      Holds mem' chain' (Function.update m k (v :: m k)) := by
  have hne : Address.slot (hashKey k) ≠ .block b := fun heq => by cases heq
  have hins := insertAfter_fields mem hne k v (b :: mem.live)
  exact ⟨_, _, rfl, h.insert_holds hfresh hins rfl⟩

/-! ## find and delete -/

/-- A binding of a key splits its slot, and there is none of the key before it. -/
theorem Holds.find?_some (h : Holds mem chain m) (k : Key)
    (ha : (chain (hashKey k)).find? (fun a => mem.key a = k) = some a) :
    a ≠ .slot (hashKey k) ∧ mem.key a = k ∧ ∃ left right,
      chain (hashKey k) = left ++ a :: right ∧ HashTable.stack mem k left = [] := by
  obtain ⟨hkey, left, right, hsplit, hleft⟩ := List.find?_eq_some_iff_append.mp ha
  refine ⟨?_, by simpa using hkey, left, right, hsplit, ?_⟩
  · rintro rfl
    apply (List.nodup_cons.mp (h.ring (hashKey k)).nodup).1
    rw [hsplit]
    exact List.mem_append_right left List.mem_cons_self
  · have hnone : (left.filter fun a => mem.key a = k) = [] := by
      rw [List.filter_eq_nil_iff]
      intro c hc
      simpa using hleft c hc
    rw [HashTable.stack, hnone, List.map_nil]

/-- Without a binding in its slot a key has an empty stack. -/
theorem Holds.find?_none (h : Holds mem chain m) (k : Key)
    (hnone : (chain (hashKey k)).find? (fun a => mem.key a = k) = none) : m k = [] := by
  have hfilter : ((chain (hashKey k)).filter fun a => mem.key a = k) = [] := by
    rw [List.filter_eq_nil_iff]
    exact List.find?_eq_none.mp hnone
  rw [h.contents, HashTable.stack, hfilter, List.map_nil]

theorem Holds.find (h : Holds mem chain m) (k : Key) :
    HashTable.find mem k = some (m k).head? := by
  rw [HashTable.find, h.findInternal, Option.map_some]
  cases ha : (chain (hashKey k)).find? fun a => mem.key a = k with
  | none =>
    rw [Option.getD_none, if_pos rfl, h.find?_none k ha]
    rfl
  | some a =>
    obtain ⟨hne, hkey, left, right, hsplit, hleft⟩ := h.find?_some k ha
    rw [Option.getD_some, if_neg hne, h.contents, hsplit, stack_append, hleft, stack_cons,
      if_pos hkey]
    rfl

section Delete

variable {b : ℕ} (h : Holds mem chain m) (hsplit : chain i = left ++ .block b :: right)
  (hdel : Deleted mem mem' (.block b)) (hlive : mem'.live = mem.live.filter (· ≠ b))

include h hsplit

/-- The block is not a node of what is left. -/
theorem Holds.ne_deleted (hj : a ∈ Function.update chain i (left ++ right) j) :
    a ∈ chain j ∧ a ≠ .block b := by
  by_cases hi : j = i
  · subst hi
    rw [Function.update_self] at hj
    have hnodup := (List.nodup_cons.mp (h.ring j).nodup).2
    rw [hsplit] at hnodup ⊢
    obtain ⟨hnot, _⟩ := List.nodup_cons.mp (List.perm_middle.nodup_iff.mp hnodup)
    constructor
    · exact List.mem_append.mpr ((List.mem_append.mp hj).imp id (List.mem_cons_of_mem _))
    · rintro rfl
      exact hnot hj
  · rw [Function.update_of_ne hi] at hj
    refine ⟨hj, ?_⟩
    rintro rfl
    have hmem : .block b ∈ chain i := by
      rw [hsplit]
      exact List.mem_append_right left List.mem_cons_self
    exact hi ((h.slot j _ hj).symm.trans (h.slot i _ hmem))

include hdel

theorem Holds.delete_ring (j : Fin hashTableSz) : DoublyLinked mem'.next mem'.prev (.slot j)
    (Function.update chain i (left ++ right) j) := by
  have hring := h.ring i
  rw [hsplit] at hring
  by_cases hj : j = i
  · subst hj
    rw [Function.update_self, hdel.next, hdel.prev]
    exact hring.remove
  · rw [Function.update_of_ne hj]
    obtain ⟨⟨front, hfront⟩, back, hback⟩ := hring.around
    apply h.ring_elsewhere hj
    · intro c hout _
      have hprev : c ≠ mem.prev (.block b) := by
        rintro rfl
        have hmem : mem.prev (.block b) ∈ .slot i :: left := by
          rw [hfront]
          simp
        apply hout
        rw [hsplit]
        exact List.mem_append_left (.block b :: right) hmem
      rw [hdel.next, Function.update_of_ne hprev]
    · intro c hout _
      have hnext : c ≠ mem.next (.block b) := by
        rintro rfl
        have hmem : mem.next (.block b) ∈ right ++ [.slot i] := by
          rw [hback]
          exact List.mem_cons_self
        apply hout
        rw [hsplit]
        rcases List.mem_append.mp hmem with hmem | hmem
        · exact List.mem_cons_of_mem _ (List.mem_append_right left (List.mem_cons_of_mem _ hmem))
        · exact List.mem_singleton.mp hmem ▸ List.mem_cons_self
      rw [hdel.prev, Function.update_of_ne hnext]

include hlive

theorem Holds.delete_holds (hi : i = hashKey k) (hkey : mem.key (.block b) = k)
    (hleft : HashTable.stack mem k left = []) :
    Holds mem' (Function.update chain i (left ++ right)) (Function.update m k (m k).tail) := by
  have hstack : ∀ k' nodes, HashTable.stack mem' k' nodes = HashTable.stack mem k' nodes :=
    fun k' nodes => stack_congr fun c _ => by rw [hdel.key, hdel.value]; exact ⟨rfl, rfl⟩
  constructor
  · exact h.delete_ring hsplit hdel
  · intro j c hc
    obtain ⟨hc, hne⟩ := h.ne_deleted hsplit hc
    obtain ⟨b', hb', rfl⟩ := List.mem_map.mp (h.live j c hc)
    rw [hlive]
    exact List.mem_map_of_mem (List.mem_filter.mpr ⟨hb', by simpa using hne⟩)
  · intro j c hc
    rw [hdel.key]
    exact h.slot j c (h.ne_deleted hsplit hc).1
  · intro k'
    rw [hstack]
    by_cases hk : k' = k
    · subst hk
      rw [Function.update_self, ← hi, Function.update_self, h.contents, ← hi, hsplit,
        stack_append, stack_append, hleft, stack_cons, if_pos hkey]
      rfl
    · rw [Function.update_of_ne hk, h.contents]
      by_cases hj : hashKey k' = i
      · rw [hj, Function.update_self, hsplit, stack_append, stack_append, stack_cons, hkey,
          if_neg (Ne.symm hk)]
      · rw [Function.update_of_ne hj]

end Delete

theorem Holds.delete (h : Holds mem chain m) (k : Key) :
    ∃ mem' chain', HashTable.delete mem k = some mem' ∧
      Holds mem' chain' (Function.update m k (m k).tail) := by
  rw [HashTable.delete, h.findInternal, Option.map_some]
  cases ha : (chain (hashKey k)).find? fun a => mem.key a = k with
  | none =>
    rw [Option.getD_none, if_neg (not_not_intro rfl)]
    have hnil := h.find?_none k ha
    refine ⟨mem, chain, rfl, ?_⟩
    rw [hnil, List.tail_nil, ← hnil, Function.update_eq_self]
    exact h
  | some a =>
    obtain ⟨hne, hkey, left, right, hsplit, hleft⟩ := h.find?_some k ha
    have hmem : a ∈ chain (hashKey k) := by
      rw [hsplit]
      exact List.mem_append_right left List.mem_cons_self
    obtain ⟨b, _, rfl⟩ := List.mem_map.mp (h.live (hashKey k) a hmem)
    rw [Option.getD_some, if_pos hne]
    exact ⟨_, _, rfl, h.delete_holds hsplit (deleteNode_fields mem _) rfl rfl hkey hleft⟩

/-! ## Runs -/

/-- The map from keys to stacks. A failed allocation changes nothing. -/
def specStep (m : Key → List Item) : Op → (Key → List Item) × Option Output
  | .insert k value (some _) => (Function.update m k (value :: m k), some (.inserted true))
  | .insert _ _ none => (m, some (.inserted false))
  | .find k => (m, some (.found (m k).head?))
  | .delete k => (Function.update m k (m k).tail, some .deleted)

/-- `malloc` returns a block that is not in use. -/
def Fresh (s : Option Memory) : Op → Prop
  | .insert _ _ block => ∀ mem ∈ s, ∀ b ∈ block, b ∉ mem.live
  | _ => True

instance decidableFresh (s : Option Memory) : ∀ op, Decidable (Fresh s op)
  | .insert _ _ block => inferInstanceAs (Decidable (∀ mem ∈ s, ∀ b ∈ block, b ∉ mem.live))
  | .find _ => isTrue trivial
  | .delete _ => isTrue trivial

/-- The table is there and holds the map. -/
def Abstracts (s : Option Memory) (m : Key → List Item) : Prop :=
  ∃ mem chain, s = some mem ∧ Holds mem chain m

theorem step_simulates (s : Option Memory) (m : Key → List Item) (op : Op) (h : Abstracts s m)
    (hfresh : Fresh s op) :
    Abstracts (step s op).1 (specStep m op).1 ∧ (step s op).2 = (specStep m op).2 := by
  obtain ⟨mem, chain, rfl, h⟩ := h
  cases op with
  | insert k value block =>
    cases block with
    | none => exact ⟨⟨mem, chain, rfl, h⟩, rfl⟩
    | some b =>
      obtain ⟨mem', chain', hinsert, h'⟩ := h.insert (hfresh mem rfl b rfl) k value
      rw [step, Memory.call, hinsert]
      exact ⟨⟨mem', chain', rfl, h'⟩, rfl⟩
  | find k =>
    rw [step, Memory.call, h.find]
    exact ⟨⟨mem, chain, rfl, h⟩, rfl⟩
  | delete k =>
    obtain ⟨mem', chain', hdelete, h'⟩ := h.delete k
    rw [step, Memory.call, hdelete]
    exact ⟨⟨mem', chain', rfl, h'⟩, rfl⟩

/-- From an empty table all calls return what the map from keys to stacks returns. -/
theorem hash_table_refines (node : Address → HtNode) (ops : List Op)
    (hfresh : Admits step Fresh (some (newTable node)) ops) :
    (run step (some (newTable node)) ops).2 = (run specStep (fun _ => []) ops).2 :=
  (run_simulates Abstracts step_simulates ⟨_, _, rfl, holds_newTable node⟩ hfresh).2

/-- Two keys of one slot, one of them negative. -/
theorem hash_table_refines_sample :
    let node : Address → HtNode := fun _ => ⟨0, 0, .block 0, .block 0⟩
    let ops : List Op := [
      .insert (-1) 10 (some 0), .insert 517 20 (some 1), .insert (-1) 30 (some 2),
      .find (-1), .delete (-1), .find (-1), .delete (-1), .find (-1), .find 517]
    (run step (some (newTable node)) ops).2 =
      [some (.inserted true), some (.inserted true), some (.inserted true), some (.found (some 30)),
        some .deleted, some (.found (some 10)), some .deleted, some (.found none),
        some (.found (some 20))] :=
  (hash_table_refines _ _ (by decide)).trans (by decide)

end InterviewQuestions.HashTable
