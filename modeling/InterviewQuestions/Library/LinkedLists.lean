import Mathlib.Data.List.Nodup
import Mathlib.Data.Sym.Sym2
import Mathlib.Logic.Function.Basic

/-! Singly linked lists of cells, each of which holds an element and the pointer to the next one. -/
namespace InterviewQuestions.Library

structure Cell (α β : Type*) where
  data : β
  next : Option α
deriving DecidableEq

namespace LinkedCells

variable {α β : Type*} {mem mem' : α → Option (Cell α β)} {head next stop : Option α}
  {cells rest : List (α × β)} {a b : α} {v w : β}

/-- From `head` on these elements are met before `stop`, each in the cell at its address. -/
def Segment (mem : α → Option (Cell α β)) : Option α → List (α × β) → Option α → Prop
  | head, [], stop => head = stop
  | head, (a, v) :: cells, stop =>
      head = some a ∧ ∃ next, mem a = some ⟨v, next⟩ ∧ Segment mem next cells stop

/-- A list that ends. -/
abbrev Holds (mem : α → Option (Cell α β)) (head : Option α) (cells : List (α × β)) : Prop :=
  Segment mem head cells none

theorem Segment.congr (h : Segment mem head cells stop)
    (hmem : ∀ a ∈ cells.map Prod.fst, mem' a = mem a) : Segment mem' head cells stop := by
  induction cells generalizing head with
  | nil => exact h
  | cons cell cells ih =>
    obtain ⟨hhead, next, hcell, hrest⟩ := h
    rw [List.map_cons, List.forall_mem_cons] at hmem
    exact ⟨hhead, next, hmem.1.trans hcell, ih hrest hmem.2⟩

theorem Segment.cons (h : Segment mem head cells stop) (ha : mem a = some ⟨v, head⟩) :
    Segment mem (some a) ((a, v) :: cells) stop :=
  ⟨rfl, head, ha, h⟩

theorem segment_append : Segment mem head (cells ++ rest) stop ↔
    ∃ middle, Segment mem head cells middle ∧ Segment mem middle rest stop := by
  induction cells generalizing head with
  | nil => exact ⟨fun h => ⟨head, rfl, h⟩, fun ⟨_, heq, h⟩ => heq ▸ h⟩
  | cons cell cells ih =>
    constructor
    · rintro ⟨hhead, next, hcell, hrest⟩
      obtain ⟨middle, hcells, hafter⟩ := ih.mp hrest
      exact ⟨middle, ⟨hhead, next, hcell, hcells⟩, hafter⟩
    · rintro ⟨middle, ⟨hhead, next, hcell, hcells⟩, hafter⟩
      exact ⟨hhead, next, hcell, ih.mpr ⟨middle, hcells, hafter⟩⟩

theorem Segment.last (h : Segment mem head (cells ++ [(a, v)]) stop) :
    mem a = some ⟨v, stop⟩ := by
  obtain ⟨middle, -, -, next, hcell, hstop⟩ := segment_append.mp h
  rw [hcell, show next = stop from hstop]

theorem Segment.cell (h : Segment mem head cells stop) (ha : (a, v) ∈ cells) :
    ∃ next, mem a = some ⟨v, next⟩ := by
  induction cells generalizing head with
  | nil => cases ha
  | cons cell cells ih =>
    obtain ⟨-, next, hcell, hrest⟩ := h
    rcases List.mem_cons.mp ha with rfl | ha
    · exact ⟨next, hcell⟩
    · exact ih hrest ha

/-- `p->next` -/
def follow (mem : α → Option (Cell α β)) (p : Option α) : Option (Option α) :=
  p.bind fun a => (mem a).map Cell.next

/-- The loop that goes on to the last cell. There is no result where it has more than `fuel`
iterations. -/
def findLast (mem : α → Option (Cell α β)) : ℕ → α → Option α
  | 0, _ => none
  | fuel + 1, last => (mem last).bind fun cell =>
      match cell.next with
      | none => some last
      | some next => findLast mem fuel next

theorem Segment.head_eq (h : Segment mem head cells (some b)) : ∃ a, head = some a := by
  cases cells with
  | nil => exact ⟨b, h⟩
  | cons cell cells => exact ⟨cell.1, h.1⟩

theorem findLast_eq {fuel : ℕ} (h : Holds mem (some a) (cells ++ [(b, v)]))
    (hfuel : cells.length < fuel) : findLast mem fuel a = some b := by
  induction cells generalizing a fuel with
  | nil =>
    cases fuel with
    | zero => exact absurd hfuel (Nat.not_lt_zero _)
    | succ fuel =>
      obtain ⟨ha, next, hcell, hnext⟩ := h
      obtain rfl := Option.some.inj ha
      obtain rfl : next = none := hnext
      rw [findLast, hcell]
      rfl
  | cons cell cells ih =>
    cases fuel with
    | zero => exact absurd hfuel (Nat.not_lt_zero _)
    | succ fuel =>
      obtain ⟨ha, next, hcell, hrest⟩ := h
      obtain rfl := Option.some.inj ha
      obtain ⟨c, rfl⟩ : ∃ c, next = some c := by
        obtain ⟨middle, hmiddle, hlast, -⟩ := segment_append.mp hrest
        exact (hlast ▸ hmiddle).head_eq
      rw [findLast, hcell]
      exact ih hrest (Nat.lt_of_succ_lt_succ hfuel)

/-- A head leads to one list only. -/
theorem Holds.unique {cells' : List (α × β)} (h : Holds mem head cells)
    (h' : Holds mem head cells') : cells = cells' := by
  induction cells generalizing head cells' with
  | nil =>
    cases cells' with
    | nil => rfl
    | cons cell cells' =>
      obtain ⟨hhead, -⟩ := h'
      exact absurd (hhead.symm.trans h) (Option.some_ne_none _)
  | cons cell cells ih =>
    obtain ⟨hhead, next, hcell, hrest⟩ := h
    cases cells' with
    | nil => exact absurd (hhead.symm.trans h') (Option.some_ne_none _)
    | cons cell' cells' =>
      obtain ⟨hhead', next', hcell', hrest'⟩ := h'
      have ha : cell.1 = cell'.1 := Option.some.inj (hhead.symm.trans hhead')
      rw [ha, hcell'] at hcell
      obtain ⟨hv, hnext⟩ := Cell.mk.inj (Option.some.inj hcell)
      subst hnext
      rw [ih hrest hrest', Prod.ext ha hv.symm]

/-- No cell comes twice in a list that ends. -/
theorem Holds.nodup (h : Holds mem head cells) : (cells.map Prod.fst).Nodup := by
  induction cells generalizing head with
  | nil => exact .nil
  | cons cell cells ih =>
    obtain ⟨rfl, next, hcell, hrest⟩ := h
    rw [List.map_cons, List.nodup_cons]
    refine ⟨fun hmem => ?_, ih hrest⟩
    obtain ⟨⟨b, w⟩, hb, rfl⟩ := List.mem_map.mp hmem
    obtain ⟨before, after, rfl⟩ := List.append_of_mem hb
    obtain ⟨middle, -, rfl, next', hcell', hafter⟩ := segment_append.mp hrest
    rw [hcell] at hcell'
    obtain ⟨-, hnext⟩ := Cell.mk.inj (Option.some.inj hcell')
    subst hnext
    have hlen := congrArg List.length (Holds.unique hrest hafter)
    rw [List.length_append, List.length_cons] at hlen
    omega

/-- Every cell points to one of the cells or to the end. -/
theorem Segment.next_mem (h : Segment mem head cells (some b)) (ha : a ∈ cells.map Prod.fst) :
    ∃ v c, mem a = some ⟨v, some c⟩ ∧ (c ∈ cells.map Prod.fst ∨ c = b) := by
  induction cells generalizing head with
  | nil => cases ha
  | cons cell cells ih =>
    obtain ⟨-, next, hcell, hrest⟩ := h
    rw [List.map_cons, List.mem_cons] at ha
    rcases ha with rfl | ha
    · cases cells with
      | nil => exact ⟨_, b, hrest ▸ hcell, .inr rfl⟩
      | cons cell' cells =>
        obtain ⟨rfl, -⟩ := hrest
        exact ⟨_, _, hcell, .inl (List.mem_cons_of_mem _ List.mem_cons_self)⟩
    · obtain ⟨v, c, hc, hmem⟩ := ih hrest ha
      exact ⟨v, c, hc, hmem.imp_left (List.mem_cons_of_mem _)⟩

variable [DecidableEq α]

/-- There is no result where there is no cell. -/
def setData (mem : α → Option (Cell α β)) (a : α) (v : β) : Option (α → Option (Cell α β)) :=
  (mem a).map fun cell => Function.update mem a (some { cell with data := v })

def setNext (mem : α → Option (Cell α β)) (a : α) (next : Option α) :
    Option (α → Option (Cell α β)) :=
  (mem a).map fun cell => Function.update mem a (some { cell with next := next })

theorem setData_eq (h : mem a = some ⟨w, next⟩) (v : β) :
    setData mem a v = some (Function.update mem a (some ⟨v, next⟩)) := by
  rw [setData, h]
  rfl

theorem setNext_eq (h : mem a = some ⟨v, head⟩) (next : Option α) :
    setNext mem a next = some (Function.update mem a (some ⟨v, next⟩)) := by
  rw [setNext, h]
  rfl

theorem setData_setNext (h : (mem a).isSome) (v : β) (next : Option α) :
    (setData mem a v).bind (fun mem => setNext mem a next) =
      some (Function.update mem a (some ⟨v, next⟩)) := by
  obtain ⟨cell, hcell⟩ := Option.isSome_iff_exists.mp h
  rw [setData_eq hcell, Option.bind_some, setNext_eq (Function.update_self ..),
    Function.update_idem]

theorem setNext_setData (h : (mem a).isSome) (v : β) (next : Option α) :
    (setNext mem a next).bind (fun mem => setData mem a v) =
      some (Function.update mem a (some ⟨v, next⟩)) := by
  obtain ⟨cell, hcell⟩ := Option.isSome_iff_exists.mp h
  rw [setNext_eq hcell, Option.bind_some, setData_eq (Function.update_self ..),
    Function.update_idem]

theorem Segment.update (h : Segment mem head cells stop) (ha : a ∉ cells.map Prod.fst)
    (cell : Option (Cell α β)) : Segment (Function.update mem a cell) head cells stop :=
  h.congr fun _ hb => Function.update_of_ne (ne_of_mem_of_not_mem hb ha) ..

/-- The last cell is made to point elsewhere. -/
theorem Segment.redirect (h : Segment mem head (cells ++ [(a, v)]) next)
    (hn : a ∉ cells.map Prod.fst) (stop : Option α) :
    Segment (Function.update mem a (some ⟨v, stop⟩)) head (cells ++ [(a, v)]) stop := by
  obtain ⟨middle, hcells, hlast, -⟩ := segment_append.mp h
  exact segment_append.mpr
    ⟨middle, hcells.update hn _, hlast, stop, Function.update_self .., rfl⟩

/-- The last cell points to one more. -/
theorem Segment.snoc (h : Segment mem head (cells ++ [(a, v)]) stop)
    (hn : a ∉ cells.map Prod.fst) (hb : mem b = some ⟨w, next⟩) (hne : a ≠ b) :
    Segment (Function.update mem a (some ⟨v, some b⟩)) head (cells ++ [(a, v), (b, w)]) next := by
  obtain ⟨middle, hcells, hlast, -⟩ := segment_append.mp h
  apply segment_append.mpr
  exists middle
  apply And.intro (hcells.update hn _)
  apply And.intro hlast
  exists some b
  apply And.intro (Function.update_self ..)
  exact ⟨rfl, next, (Function.update_of_ne hne.symm ..).trans hb, rfl⟩

end LinkedCells

end InterviewQuestions.Library

/-! Singly linked lists in a memory: a head and the `next` field of every node. -/
namespace InterviewQuestions.Library.LinkedStack

variable {α : Type*} {next : α → Option α} {head : Option α} {nodes : List α}

/-- Following `next` from the head meets these nodes and ends. -/
def Linked (next : α → Option α) : Option α → List α → Prop
  | head, [] => head = none
  | head, a :: nodes => head = some a ∧ Linked next (next a) nodes

theorem Linked.head_isSome (h : Linked next head nodes) (hpos : 0 < nodes.length) :
    head.isSome := by
  cases nodes with
  | nil => exact absurd hpos (Nat.lt_irrefl 0)
  | cons a nodes => rw [h.1, Option.isSome_some]

/-- Taking the first node leaves the rest. -/
theorem Linked.pop {a : α} (h : Linked next (some a) nodes) :
    ∃ rest, nodes = a :: rest ∧ Linked next (next a) rest := by
  cases nodes with
  | nil => cases h
  | cons b rest =>
    obtain ⟨hhead, hrest⟩ := h
    obtain rfl := Option.some.inj hhead
    exact ⟨rest, rfl, hrest⟩

/-- A node in front whose `next` is the old head. -/
theorem Linked.push {a : α} (h : Linked next head nodes) (ha : next a = head) :
    Linked next (some a) (a :: nodes) :=
  ⟨rfl, ha ▸ h⟩

variable [DecidableEq α]

/-- Writing the `next` field of a node outside the list. -/
theorem Linked.update {a : α} (h : Linked next head nodes) (ha : a ∉ nodes) (value : Option α) :
    Linked (Function.update next a value) head nodes := by
  induction nodes generalizing head with
  | nil => exact h
  | cons b nodes ih =>
    rw [List.mem_cons, not_or] at ha
    refine ⟨h.1, ?_⟩
    rw [Function.update_of_ne (Ne.symm ha.1)]
    exact ih h.2 ha.2

/-- The first node of one list goes in front of another. -/
theorem Linked.transfer {a : α} {head' : Option α} {nodes' : List α}
    (h : Linked next (some a) nodes) (h' : Linked next head' nodes')
    (hnodup : (nodes ++ nodes').Nodup) :
    ∃ rest, nodes = a :: rest ∧ Linked (Function.update next a head') (next a) rest ∧
      Linked (Function.update next a head') (some a) (a :: nodes') := by
  obtain ⟨rest, hnodes, hrest⟩ := h.pop
  rw [hnodes, List.cons_append, List.nodup_cons, List.mem_append, not_or] at hnodup
  exists rest
  constructor
  · exact hnodes
  constructor
  · exact hrest.update hnodup.1.1 head'
  · exact (h'.update hnodup.1.2 head').push (Function.update_self ..)

end InterviewQuestions.Library.LinkedStack

/-! Chains of nodes that keep two links each, of which either may be the one that leads on. -/
namespace InterviewQuestions.Library.LinkChain

variable {α : Type*} {links links' : α → Sym2 (Option α)} {before after : Option α}

/-- The nodes lie between `before` and `after`, and each is linked to its two neighbours. -/
def Chain (links : α → Sym2 (Option α)) : Option α → List α → Option α → Prop
  | _, [], _ => True
  | before, node :: nodes, after =>
      links node = s(before, nodes.head?.or after) ∧ Chain links (some node) nodes after

theorem chain_congr {nodes : List α} (h : Chain links before nodes after)
    (hlinks : ∀ node ∈ nodes, links' node = links node) : Chain links' before nodes after := by
  induction nodes generalizing before with
  | nil => trivial
  | cons node nodes ih =>
    have hrest : ∀ other ∈ nodes, links' other = links other := by
      intro other hother
      exact hlinks other (List.mem_cons_of_mem node hother)
    apply And.intro
    · rw [hlinks node List.mem_cons_self]
      exact h.1
    · exact ih h.2 hrest

theorem chain_append {xs ys : List α} :
    Chain links before (xs ++ ys) after ↔
      Chain links before xs (ys.head?.or after) ∧ Chain links (xs.getLast?.or before) ys after := by
  induction xs generalizing before with
  | nil => exact ⟨fun h => ⟨trivial, h⟩, fun h => h.2⟩
  | cons x xs ih =>
    have hlast : (x :: xs).getLast?.or before = xs.getLast?.or (some x) := by
      rw [List.getLast?_cons]
      cases xs.getLast? <;> rfl
    have hhead : (xs ++ ys).head?.or after = xs.head?.or (ys.head?.or after) := by
      rw [List.head?_append, Option.or_assoc]
    rw [List.cons_append, Chain, Chain, ih, hlast, hhead]
    exact and_assoc.symm

/-- Which end comes first does not matter. -/
theorem chain_reverse {nodes : List α} (h : Chain links before nodes after) :
    Chain links after nodes.reverse before := by
  induction nodes generalizing before with
  | nil => trivial
  | cons node nodes ih =>
    rw [List.reverse_cons]
    apply chain_append.mpr
    apply And.intro
    · exact ih h.2
    · rw [List.getLast?_reverse]
      apply And.intro
      · rw [h.1, Sym2.eq_swap]
        rfl
      · trivial

/-- An end that gets a neighbour begins the same chain. -/
theorem chain_attach {x y : α} {xs : List α} (h : Chain links none (x :: xs) none)
    (hlink : links' x = s(some y, xs.head?)) (hlinks : ∀ node ∈ xs, links' node = links node) :
    Chain links' (some y) (x :: xs) none := by
  apply And.intro
  · rw [hlink, Option.or_none]
  · exact chain_congr h.2 hlinks

/-- Two chains become one when their ends become neighbours: the first is read backwards. -/
theorem chain_join {x y : α} {xs ys : List α} (hx : Chain links none (x :: xs) none)
    (hy : Chain links none (y :: ys) none) (hlinkx : links' x = s(some y, xs.head?))
    (hlinky : links' y = s(some x, ys.head?)) (hxs : ∀ node ∈ xs, links' node = links node)
    (hys : ∀ node ∈ ys, links' node = links node) :
    Chain links' none ((x :: xs).reverse ++ y :: ys) none := by
  apply chain_append.mpr
  apply And.intro
  · exact chain_reverse (chain_attach hx hlinkx hxs)
  · rw [List.getLast?_reverse]
    exact chain_attach hy hlinky hys

section Walk

variable [DecidableEq α] {up down : Option α}

/-- The link that does not lead back. -/
def onward (up down prev : Option α) : Option α :=
  if up = none ∨ up = prev then down else up

theorem onward_eq {prev : Option α} {next : α} (hlinks : s(up, down) = s(prev, some next))
    (hne : prev ≠ some next) : onward up down prev = some next := by
  cases Sym2.eq_iff.mp hlinks with
  | inl hforward =>
    rw [onward, if_pos (Or.inr hforward.1)]
    exact hforward.2
  | inr hbackward =>
    have hup : ¬ (up = none ∨ up = prev) := by
      rw [hbackward.1, not_or]
      exact ⟨Option.some_ne_none next, hne.symm⟩
    rw [onward, if_neg hup]
    exact hbackward.1

end Walk

end InterviewQuestions.Library.LinkChain
