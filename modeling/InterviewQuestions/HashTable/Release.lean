import InterviewQuestions.HashTable.Refinement
import Mathlib.Data.List.FinRange

/-! What `free_table` frees. The walk through a bucket frees the node behind the one that it
stands on, so that the last node makes it free the sentinel. -/
namespace InterviewQuestions.HashTable

open Library Machine

variable {mem mem' : Memory} {chain : Fin hashTableSz → List Address} {m : Key → List Item}
  {events : List Event} {head : Address} {nodes : List Address} {i : Fin hashTableSz}
  {slots : List (Fin hashTableSz)}

/-! ## One bucket -/

/-- The accesses of the walk from the first of the nodes. -/
def walk (head : Address) : List Address → List Event
  | [] => []
  | a :: rest => .read a :: .free (rest.headD head) :: walk head rest

theorem free_head_mem_walk (head : Address) (hne : nodes ≠ []) :
    .free head ∈ walk head nodes := by
  induction nodes with
  | nil => exact absurd rfl hne
  | cons a rest ih =>
    cases rest with
    | nil => exact List.mem_cons_of_mem _ List.mem_cons_self
    | cons b rest =>
      exact List.mem_cons_of_mem _ (List.mem_cons_of_mem _ (ih (List.cons_ne_nil b rest)))

/-- What a walk through the nodes leaves: all fields, and the blocks elsewhere. -/
structure Walked (mem mem' : Memory) (nodes : List Address) : Prop where
  node : mem'.node = mem.node
  live : ∀ b ∈ mem.live, .block b ∉ nodes → b ∈ mem'.live

theorem Walked.next (h : Walked mem mem' nodes) : mem'.next = mem.next :=
  funext fun a => congrArg (fun node => (node a).next) h.node

theorem node_freeNode (mem : Memory) (a : Address) : (freeNode mem a).node = mem.node := by
  cases a <;> rfl

theorem mem_live_freeNode {b : ℕ} {a : Address} (hb : b ∈ mem.live) (hne : .block b ≠ a) :
    b ∈ (freeNode mem a).live := by
  cases a with
  | slot i => exact hb
  | block c =>
    apply List.mem_filter.mpr
    refine ⟨hb, decide_eq_true ?_⟩
    rintro rfl
    exact hne rfl

theorem destroyLoop_spec {fuel : ℕ}
    (hlinks : List.IsChain (Link mem.next mem.prev) (nodes ++ [head])) (hhead : head ∉ nodes)
    (hslot : ∀ b, .block b ≠ head) (hfuel : nodes.length < fuel) {cursor : Address}
    {back : List Address} (hcursor : nodes ++ [head] = cursor :: back) :
    ∃ mem', destroyList.loop head fuel mem cursor = some (mem', walk head nodes) ∧
      Walked mem mem' nodes := by
  induction nodes generalizing fuel mem cursor back with
  | nil =>
    cases hcursor
    obtain ⟨fuel, rfl⟩ : ∃ f, fuel = f + 1 := ⟨fuel - 1, by omega⟩
    rw [destroyList.loop, if_neg (not_not_intro rfl)]
    exact ⟨mem, rfl, rfl, fun b hb _ => hb⟩
  | cons a rest ih =>
    cases hcursor
    obtain ⟨fuel, rfl⟩ : ∃ f, fuel = f + 1 := ⟨fuel - 1, by omega⟩
    rw [List.length_cons] at hfuel
    have hne : a ≠ head := fun heq => hhead (heq ▸ List.mem_cons_self)
    obtain ⟨⟨tail, htail⟩, hrest⟩ := DoublyLinked.links_step hlinks
    have hnext : rest.headD head = mem.next a := by
      cases rest with
      | nil => exact (List.cons.inj htail).1
      | cons b rest => exact (List.cons.inj htail).1
    have hlinks' : List.IsChain
        (Link (freeNode mem (mem.next a)).next (freeNode mem (mem.next a)).prev)
        (rest ++ [head]) := by
      rw [next_freeNode, prev_freeNode]
      exact hrest
    have hshort : rest.length < fuel := by omega
    obtain ⟨mem', hloop, hwalked⟩ :=
      ih hlinks' (fun hmem => hhead (List.mem_cons_of_mem a hmem)) hshort htail
    refine ⟨mem', ?_, hwalked.node.trans (node_freeNode mem _), ?_⟩
    · rw [destroyList.loop, if_pos hne]
      simp only [hloop, Option.map_some, walk, hnext]
    · intro b hb hnot
      rw [List.mem_cons, not_or] at hnot
      refine hwalked.live b (mem_live_freeNode hb ?_) hnot.2
      intro heq
      have hmem : .block b ∈ rest ++ [head] := by
        rw [htail, heq]
        exact List.mem_cons_self
      rcases List.mem_append.mp hmem with hmem | hmem
      · exact hnot.2 hmem
      · exact hslot b (List.mem_singleton.mp hmem)

/-- The memory after a bucket has been destroyed. -/
structure Destroyed (mem mem' : Memory) (i : Fin hashTableSz) (nodes : List Address) : Prop where
  next : mem'.next = Function.update mem.next (.slot i) (.slot i)
  prev : mem'.prev = Function.update mem.prev (.slot i) (.slot i)
  live : ∀ b ∈ mem.live, .block b ∉ nodes → b ∈ mem'.live

theorem destroyList_spec (h : DoublyLinked mem.next mem.prev (.slot i) nodes)
    (hlength : nodes.length ≤ mem.live.length) :
    ∃ mem', destroyList mem (.slot i) =
        some (mem', .read (.slot i) :: walk (.slot i) nodes) ∧ Destroyed mem mem' i nodes := by
  obtain ⟨back, hback⟩ := h.next_head
  obtain ⟨mem', hloop, hwalked⟩ := destroyLoop_spec h.links.tail (List.nodup_cons.mp h.nodup).1
    (fun b heq => by cases heq) (show nodes.length < mem.live.length + 1 by omega) hback
  refine ⟨(mem'.setPrev (.slot i) (.slot i)).setNext (.slot i) (.slot i), ?_, ?_, ?_, hwalked.live⟩
  · rw [destroyList, hloop]
    rfl
  · rw [next_setNext, next_setPrev, hwalked.next]
  · have hprev : mem'.prev = mem.prev :=
      funext fun a => congrArg (fun node => (node a).prev) hwalked.node
    rw [prev_setNext, prev_setPrev, hprev]

/-! ## The table -/

/-- What the loop over the slots relies on: the buckets still to destroy are rings of blocks that
are allocated. -/
structure Ready (mem : Memory) (chain : Fin hashTableSz → List Address)
    (slots : List (Fin hashTableSz)) : Prop where
  ring : ∀ i ∈ slots, DoublyLinked mem.next mem.prev (.slot i) (chain i)
  live : ∀ i ∈ slots, ∀ a ∈ chain i, a ∈ mem.live.map .block

theorem Ready.length_le (h : Ready mem chain slots) (hi : i ∈ slots) :
    (chain i).length ≤ mem.live.length := by
  have hnodup := (List.nodup_cons.mp (h.ring i hi).nodup).2
  have hle := (List.subperm_of_subset hnodup (h.live i hi)).length_le
  rwa [List.length_map] at hle

section Slots

variable (hapart : ∀ i j a, i ≠ j → a ∈ .slot i :: chain i → a ∉ .slot j :: chain j)

include hapart

theorem Ready.tail (h : Ready mem chain (i :: slots)) (hi : i ∉ slots)
    (hdestroyed : Destroyed mem mem' i (chain i)) : Ready mem' chain slots := by
  have hne : ∀ j ∈ slots, i ≠ j := fun j hj heq => hi (heq ▸ hj)
  constructor
  · intro j hj
    have hout : ∀ a ∈ .slot j :: chain j, a ≠ .slot i := by
      rintro a ha rfl
      exact hapart i j _ (hne j hj) List.mem_cons_self ha
    apply (h.ring j (List.mem_cons_of_mem i hj)).congr
    · intro a ha
      rw [hdestroyed.next, Function.update_of_ne (hout a ha)]
    · intro a ha
      rw [hdestroyed.prev, Function.update_of_ne (hout a ha)]
  · intro j hj a ha
    obtain ⟨b, hb, rfl⟩ := List.mem_map.mp (h.live j (List.mem_cons_of_mem i hj) a ha)
    apply List.mem_map_of_mem
    apply hdestroyed.live b hb
    intro hmem
    exact hapart i j _ (hne j hj) (List.mem_cons_of_mem _ hmem) (List.mem_cons_of_mem _ ha)

theorem freeTableLoop_spec (hslots : slots.Nodup) (h : Ready mem chain slots) :
    ∃ mem', freeTable.loop slots mem = some
        (mem', slots.flatMap fun i => .read (.slot i) :: walk (.slot i) (chain i)) ∧
      (∀ i ∈ slots, mem'.next (.slot i) = .slot i ∧ mem'.prev (.slot i) = .slot i) ∧
      ∀ i ∉ slots, mem'.next (.slot i) = mem.next (.slot i) ∧
        mem'.prev (.slot i) = mem.prev (.slot i) := by
  induction slots generalizing mem with
  | nil => exact ⟨mem, rfl, fun i hi => absurd hi List.not_mem_nil, fun i _ => ⟨rfl, rfl⟩⟩
  | cons i slots ih =>
    obtain ⟨hi, hrest⟩ := List.nodup_cons.mp hslots
    obtain ⟨mem₁, hlist, hdestroyed⟩ := destroyList_spec (h.ring i List.mem_cons_self)
      (h.length_le List.mem_cons_self)
    obtain ⟨mem', hloop, hin, hout⟩ := ih hrest (h.tail hapart hi hdestroyed)
    refine ⟨mem', ?_, ?_, ?_⟩
    · rw [freeTable.loop, hlist, Option.bind_some, hloop]
      rfl
    · intro j hj
      rcases List.mem_cons.mp hj with rfl | hj
      · rw [(hout j hi).1, (hout j hi).2, hdestroyed.next, hdestroyed.prev,
          Function.update_self, Function.update_self]
        exact ⟨rfl, rfl⟩
      · exact hin j hj
    · intro j hj
      rw [List.mem_cons, not_or] at hj
      have hslot : Address.slot j ≠ .slot i := fun heq => hj.1 (Address.slot.inj heq)
      rw [(hout j hj.2).1, (hout j hj.2).2, hdestroyed.next, hdestroyed.prev,
        Function.update_of_ne hslot, Function.update_of_ne hslot]
      exact ⟨rfl, rfl⟩

end Slots

/-- What the release of a table should do to the nodes of its buckets. -/
structure Releases (chain : Fin hashTableSz → List Address) (events : List Event) (mem' : Memory) :
    Prop where
  once : ∀ i, ∀ a ∈ chain i, events.count (.free a) = 1
  sentinel : ∀ i, .free (.slot i) ∉ events
  order : ∀ before a after, events = before ++ .read a :: after → .free a ∉ before
  empty : ∀ i, mem'.next (.slot i) = .slot i ∧ mem'.prev (.slot i) = .slot i

/-- All buckets are destroyed, whatever is in them. -/
theorem Holds.freeTable_spec (h : Holds mem chain m) : ∃ mem', freeTable mem = some
      (mem', (List.finRange hashTableSz).flatMap fun i =>
        .read (.slot i) :: walk (.slot i) (chain i)) ∧
    ∀ i, mem'.next (.slot i) = .slot i ∧ mem'.prev (.slot i) = .slot i := by
  have hready : Ready mem chain (List.finRange hashTableSz) :=
    ⟨fun i _ => h.ring i, fun i _ => h.live i⟩
  obtain ⟨mem', hloop, hin, _⟩ := freeTableLoop_spec (fun i j a hne ha => h.apart hne ha)
    (List.nodup_finRange hashTableSz) hready
  exact ⟨mem', hloop, fun i => hin i (List.mem_finRange i)⟩

theorem Holds.chain_eq_nil_iff (h : Holds mem chain m) (i : Fin hashTableSz) :
    chain i = [] ↔ mem.next (.slot i) = .slot i := by
  obtain ⟨back, hback⟩ := (h.ring i).next_head
  constructor
  · intro hnil
    rw [hnil] at hback
    exact (List.cons.inj hback).1.symm
  · intro hnext
    cases hchain : chain i with
    | nil => rfl
    | cons a rest =>
      rw [hchain, hnext] at hback
      have hmem : .slot i ∈ chain i := by
        rw [hchain, (List.cons.inj hback).1]
        exact List.mem_cons_self
      exact absurd hmem (List.nodup_cons.mp (h.ring i).nodup).1

theorem Holds.free_sentinel_mem (h : Holds mem chain m)
    (hfree : freeTable mem = some (mem', events)) (hne : mem.next (.slot i) ≠ .slot i) :
    .free (.slot i) ∈ events := by
  obtain ⟨mem₁, hspec, _⟩ := h.freeTable_spec
  obtain ⟨rfl, rfl⟩ := Prod.mk.inj (Option.some.inj (hspec.symm.trans hfree))
  have hchain : chain i ≠ [] := fun hnil => hne ((h.chain_eq_nil_iff i).mp hnil)
  exact List.mem_flatMap.mpr ⟨i, List.mem_finRange i,
    List.mem_cons_of_mem _ (free_head_mem_walk (.slot i) hchain)⟩

/-- The tables that calls lead to are released as they should be only if there is nothing in
them. -/
theorem freeTable_iff (node : Address → HtNode) (ops : List Op)
    (hfresh : Admits step Fresh (some (newTable node)) ops) :
    ∃ mem chain mem' events, (run step (some (newTable node)) ops).1 = some mem ∧
      (∀ i, DoublyLinked mem.next mem.prev (.slot i) (chain i)) ∧
      freeTable mem = some (mem', events) ∧
      (Releases chain events mem' ↔ ∀ i, mem.next (.slot i) = .slot i) := by
  obtain ⟨mem, chain, hrun, h⟩ :=
    (run_simulates Abstracts step_simulates ⟨_, _, rfl, holds_newTable node⟩ hfresh).1
  obtain ⟨mem', hfree, hempty⟩ := h.freeTable_spec
  refine ⟨mem, chain, mem', _, hrun, h.ring, hfree, ?_, ?_⟩
  · intro hreleases i
    by_contra hne
    exact hreleases.sentinel i (h.free_sentinel_mem hfree hne)
  · intro hall
    have hnil : ∀ i, chain i = [] := fun i => (h.chain_eq_nil_iff i).mpr (hall i)
    have hreads : ∀ a, .free a ∉ (List.finRange hashTableSz).flatMap fun i =>
        .read (.slot i) :: walk (.slot i) (chain i) := by
      intro a hmem
      obtain ⟨i, _, hi⟩ := List.mem_flatMap.mp hmem
      rw [hnil i] at hi
      cases List.mem_singleton.mp hi
    constructor
    · intro i a ha
      rw [hnil i] at ha
      exact absurd ha List.not_mem_nil
    · exact fun i => hreads (.slot i)
    · intro before a after hsplit hmem
      apply hreads a
      rw [hsplit]
      exact List.mem_append_left _ hmem
    · exact hempty

/-- Two keys of one slot have been inserted and deleted again. -/
theorem freeTable_iff_emptied :
    let node : Address → HtNode := fun _ => ⟨0, 0, .block 0, .block 0⟩
    let ops : List Op := [.insert 0 7 (some 0), .insert 941 8 (some 1), .delete 0, .delete 941]
    ∃ mem chain mem' events, (run step (some (newTable node)) ops).1 = some mem ∧
      (∀ i, DoublyLinked mem.next mem.prev (.slot i) (chain i)) ∧
      freeTable mem = some (mem', events) ∧ Releases chain events mem' := by
  intro node ops
  obtain ⟨mem, chain, mem', events, hrun, hring, hfree, hiff⟩ := freeTable_iff node ops (by decide)
  refine ⟨mem, chain, mem', events, hrun, hring, hfree, hiff.mpr ?_⟩
  obtain rfl := Option.some.inj hrun
  decide +kernel

/-- The table with one node frees the sentinel of its bucket. -/
theorem not_releases_always : ¬ ∀ (node : Address → HtNode) (ops : List Op),
    Admits step Fresh (some (newTable node)) ops →
    ∃ mem chain mem' events, (run step (some (newTable node)) ops).1 = some mem ∧
      (∀ i, DoublyLinked mem.next mem.prev (.slot i) (chain i)) ∧
      freeTable mem = some (mem', events) ∧ Releases chain events mem' := by
  intro hall
  let node : Address → HtNode := fun _ => ⟨0, 0, .block 0, .block 0⟩
  let ops : List Op := [.insert 0 7 (some 0)]
  have hfresh : Admits step Fresh (some (newTable node)) ops := by decide
  obtain ⟨mem, chain, mem', events, hrun, _, hfree, hreleases⟩ := hall node ops hfresh
  obtain ⟨mem₁, chain₁, hrun₁, h⟩ :=
    (run_simulates Abstracts step_simulates ⟨_, _, rfl, holds_newTable node⟩ hfresh).1
  obtain rfl := Option.some.inj (hrun.symm.trans hrun₁)
  have hnext : mem.next (.slot 0) = .block 0 := by
    obtain rfl := Option.some.inj hrun
    rfl
  refine hreleases.sentinel 0 (h.free_sentinel_mem hfree ?_)
  rw [hnext]
  intro heq
  cases heq

end InterviewQuestions.HashTable
