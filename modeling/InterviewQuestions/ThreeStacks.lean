import InterviewQuestions.Library.Machine
import InterviewQuestions.Library.SeveralStacks
import Mathlib.Data.List.FinRange
import Mathlib.Logic.Function.Basic

/-! `stacks_queues/array_as_3stacks/solution.c`. A pointer to a node is its place in the array.
There is no result where `assert` fails. -/
namespace InterviewQuestions.ThreeStacks

open Library

/-- `ARRAY_SZ` -/
abbrev arraySz : ℕ := 1024

/-- A place in `stacks_array`. -/
abbrev Node := Fin arraySz

structure StackNode where
  data : Int32
  below : Option Node

/-- Stack 3 holds the nodes that are free. -/
structure Stacks where
  stacksArray : Node → StackNode
  top : Fin 4 → Option Node

def pushInternal (s : Stacks) (stackNo : Fin 4) (n : Node) : Stacks :=
  ⟨Function.update s.stacksArray n { s.stacksArray n with below := s.top stackNo },
    Function.update s.top stackNo (some n)⟩

def popInternal (s : Stacks) (stackNo : Fin 4) : Option (Stacks × Node) :=
  (s.top stackNo).map fun ret =>
    ({ s with top := Function.update s.top stackNo (s.stacksArray ret).below }, ret)

/-- `block` is what `malloc` returns: `NULL`, or memory that holds anything. -/
def createStacks (block : Option Stacks) : Option Stacks :=
  block.map fun ret =>
    (List.finRange arraySz).foldl (fun s i => pushInternal s 3 i) { ret with top := fun _ => none }

/-- `n->data = value` -/
def setData (s : Stacks) (n : Node) (value : Int32) : Stacks :=
  { s with stacksArray := Function.update s.stacksArray n { s.stacksArray n with data := value } }

def push (s : Stacks) (stackNo : Fin 4) (value : Int32) : Option Stacks := do
  let (s, newNode) ← popInternal s 3
  return pushInternal (setData s newNode value) stackNo newNode

def pop (s : Stacks) (stackNo : Fin 4) : Option (Stacks × Int32) := do
  let (s, popped) ← popInternal s stackNo
  let s := pushInternal s 3 popped
  return (s, (s.stacksArray popped).data)

/-- The calls for the stacks 0, 1 and 2. -/
inductive Call where
  | push (stackNo : Fin 3) (value : Int32)
  | pop (stackNo : Fin 3)
deriving DecidableEq

/-- What `pop` returns is the output. -/
def step (s : Stacks) : Call → Option (Stacks × Option Int32)
  | .push stackNo value => (push s stackNo.castSucc value).map fun s => (s, none)
  | .pop stackNo => (pop s stackNo.castSucc).map fun popped => (popped.1, some popped.2)

/-! The array holds three stacks that know nothing of each other, as long as they have fewer than
`arraySz` elements together. -/

open Library LinkedStack Machine

variable {s s' : Stacks} {nodes : Fin 4 → List Node} {loose : List Node} {n : Node} {i : Fin 4}
  {lists : Fin 3 → List Int32}

/-! ## Three stacks -/

/-- Three lists, of which the first elements are on top. -/
abbrev Lists := Fin 3 → List Int32

/-- How many elements are stored. -/
def stored (lists : Lists) : ℕ := ((List.finRange 3).map fun i => (lists i).length).sum

/-- An element is put on top as long as there is room, and the one on top is taken off. -/
def listsStep (lists : Lists) : Call → Option (Lists × Option Int32)
  | .push i value =>
      if stored lists < arraySz then some (Function.update lists i (value :: lists i), none)
      else none
  | .pop i =>
      match lists i with
      | [] => none
      | value :: rest => some (Function.update lists i rest, some value)

/-! ## The nodes of the array -/

def below (s : Stacks) (n : Node) : Option Node := (s.stacksArray n).below

def data (s : Stacks) (n : Node) : Int32 := (s.stacksArray n).data

/-- The nodes of the four lists, and those that are on none. -/
def Nodes (s : Stacks) (nodes : Fin 4 → List Node) (loose : List Node) : Prop :=
  Several (List.finRange 4) (List.finRange arraySz) (below s) s.top nodes loose

theorem below_eq (array : Node → StackNode) (top : Fin 4 → Option Node) (n : Node) :
    below ⟨array, top⟩ n = (array n).below := rfl

theorem data_eq (array : Node → StackNode) (top : Fin 4 → Option Node) (n : Node) :
    data ⟨array, top⟩ n = (array n).data := rfl

theorem pushInternal_below (s : Stacks) (i : Fin 4) (n : Node) :
    below (pushInternal s i n) = Function.update (below s) n (s.top i) := by
  funext m
  by_cases hm : m = n
  · rw [hm, pushInternal, below_eq, Function.update_self, Function.update_self]
  · rw [pushInternal, below_eq, Function.update_of_ne hm, Function.update_of_ne hm]
    rfl

theorem pushInternal_data (s : Stacks) (i : Fin 4) (n : Node) :
    data (pushInternal s i n) = data s := by
  funext m
  by_cases hm : m = n
  · rw [hm, pushInternal, data_eq, Function.update_self]
    rfl
  · rw [pushInternal, data_eq, Function.update_of_ne hm]
    rfl

theorem setData_below (s : Stacks) (n : Node) (value : Int32) :
    below (setData s n value) = below s := by
  funext m
  by_cases hm : m = n
  · rw [hm, setData, below_eq, Function.update_self]
    rfl
  · rw [setData, below_eq, Function.update_of_ne hm]
    rfl

theorem setData_data (s : Stacks) (n : Node) (value : Int32) :
    data (setData s n value) = Function.update (data s) n value := by
  funext m
  by_cases hm : m = n
  · rw [hm, setData, data_eq, Function.update_self, Function.update_self]
  · rw [setData, data_eq, Function.update_of_ne hm, Function.update_of_ne hm]
    rfl

theorem Nodes.pushInternal (h : Nodes s nodes (n :: loose)) (i : Fin 4) :
    Nodes (pushInternal s i n) (Function.update nodes i (n :: nodes i)) loose := by
  have hpush := Several.push h (List.nodup_finRange _) List.mem_finRange (List.nodup_finRange _) i
  rw [← pushInternal_below] at hpush
  exact hpush

theorem Nodes.popInternal (h : Nodes s nodes loose) (htop : s.top i = some n) :
    ∃ s' rest, popInternal s i = some (s', n) ∧ nodes i = n :: rest ∧
      Nodes s' (Function.update nodes i rest) (n :: loose) ∧ data s' = data s := by
  obtain ⟨rest, hnodes, hpop⟩ := Several.pop h (List.mem_finRange i) (List.nodup_finRange _) htop
  refine ⟨{ s with top := Function.update s.top i (below s n) }, rest, ?_, hnodes, hpop, rfl⟩
  rw [ThreeStacks.popInternal, htop]
  rfl

theorem Nodes.setData (h : Nodes s nodes loose) (n : Node) (value : Int32) :
    Nodes (setData s n value) nodes loose := by
  unfold Nodes
  rw [setData_below]
  exact h

/-! ## The refinement -/

/-- Every node is on one of the three stacks or free, and the stacks hold the elements of the
lists. -/
def Represents (s : Stacks) (lists : Lists) : Prop :=
  ∃ nodes, Nodes s nodes [] ∧ ∀ i : Fin 3, (nodes i.castSucc).map (data s) = lists i

theorem castSucc_ne_three (i : Fin 3) : i.castSucc ≠ 3 := (Fin.castSucc_lt_last i).ne

theorem length_free (h : Nodes s nodes [])
    (hdata : ∀ i : Fin 3, (nodes i.castSucc).map (data s) = lists i) :
    (nodes 3).length + stored lists = arraySz := by
  have hlength (i : Fin 3) : (lists i).length = (nodes i.castSucc).length := by
    rw [← hdata i, List.length_map]
  have htotal : 0 + ((List.finRange 4).map fun i => (nodes i).length).sum =
      (List.finRange arraySz).length := Several.length h
  rw [List.length_finRange] at htotal
  have hfour : (List.finRange 4).map (fun i => (nodes i).length) =
      [(nodes 0).length, (nodes 1).length, (nodes 2).length, (nodes 3).length] := rfl
  have hthree : stored lists =
      [(nodes 0).length, (nodes 1).length, (nodes 2).length].sum := by
    have hlists : stored lists =
        [(lists 0).length, (lists 1).length, (lists 2).length].sum := rfl
    rw [hlists, hlength, hlength, hlength]
    rfl
  rw [hfour] at htotal
  rw [hthree]
  simp only [List.sum_cons, List.sum_nil] at htotal ⊢
  omega

/-- Both have a result or neither, and the same one. -/
theorem push_spec (h : Represents s lists) (i : Fin 3) (value : Int32) :
    (push s i.castSucc value = none ∧ arraySz ≤ stored lists) ∨
      ∃ s', push s i.castSucc value = some s' ∧ stored lists < arraySz ∧
        Represents s' (Function.update lists i (value :: lists i)) := by
  obtain ⟨nodes, hnodes, hdata⟩ := h
  have hlength := length_free hnodes hdata
  have hfree := hnodes.linked 3
  cases htop : s.top 3 with
  | none =>
    left
    rw [htop] at hfree
    cases hthree : nodes 3 with
    | nil =>
      rw [hthree, List.length_nil] at hlength
      constructor
      · rw [push, popInternal, htop]
        rfl
      · omega
    | cons n rest =>
      rw [hthree] at hfree
      cases hfree.1
  | some n =>
    right
    obtain ⟨s₁, rest, hpop, hthree, hnodes₁, hdata₁⟩ := hnodes.popInternal htop
    have hnodes' := (hnodes₁.setData n value).pushInternal i.castSucc
    refine ⟨_, ?_, ?_, _, hnodes', fun j => ?_⟩
    · rw [push, hpop]
      rfl
    · rw [hthree, List.length_cons] at hlength
      omega
    · have hnotMem : n ∉ nodes j.castSucc := by
        have hloose := Several.notMem hnodes₁ (List.nodup_finRange _) (List.mem_finRange j.castSucc)
        rwa [Function.update_of_ne (castSucc_ne_three j)] at hloose
      have hsame : (nodes j.castSucc).map (Function.update (data s) n value) = lists j := by
        rw [← hdata j]
        apply List.map_congr_left
        intro m hm
        exact Function.update_of_ne (ne_of_mem_of_not_mem hm hnotMem) ..
      rw [pushInternal_data, setData_data, hdata₁]
      by_cases hj : j = i
      · subst hj
        rw [Function.update_self, Function.update_self,
          Function.update_of_ne (castSucc_ne_three j), List.map_cons, Function.update_self, hsame]
      · have hne : j.castSucc ≠ i.castSucc := fun heq => hj (Fin.castSucc_injective 3 heq)
        rw [Function.update_of_ne hne, Function.update_of_ne hj,
          Function.update_of_ne (castSucc_ne_three j), hsame]

theorem pop_spec (h : Represents s lists) (i : Fin 3) :
    (pop s i.castSucc = none ∧ lists i = []) ∨
      ∃ s' value rest, pop s i.castSucc = some (s', value) ∧ lists i = value :: rest ∧
        Represents s' (Function.update lists i rest) := by
  obtain ⟨nodes, hnodes, hdata⟩ := h
  have hstack := hnodes.linked i.castSucc
  have hlist := hdata i
  cases htop : s.top i.castSucc with
  | none =>
    left
    rw [htop] at hstack
    cases hnil : nodes i.castSucc with
    | nil =>
      constructor
      · rw [pop, popInternal, htop]
        rfl
      · rw [← hlist, hnil]
        rfl
    | cons n rest =>
      rw [hnil] at hstack
      cases hstack.1
  | some n =>
    right
    obtain ⟨s₁, rest, hpop, hcons, hnodes₁, hdata₁⟩ := hnodes.popInternal htop
    have hnodes' := hnodes₁.pushInternal 3
    have hdata' : data (pushInternal s₁ 3 n) = data s := by rw [pushInternal_data, hdata₁]
    refine ⟨pushInternal s₁ 3 n, data s n, rest.map (data s), ?_, ?_, _, hnodes', fun j => ?_⟩
    · rw [pop, hpop, ← hdata']
      rfl
    · rw [← hlist, hcons, List.map_cons]
    · rw [Function.update_of_ne (castSucc_ne_three j), hdata']
      by_cases hj : j = i
      · subst hj
        rw [Function.update_self, Function.update_self]
      · have hne : j.castSucc ≠ i.castSucc := fun heq => hj (Fin.castSucc_injective 3 heq)
        rw [Function.update_of_ne hne, Function.update_of_ne hj, hdata j]

/-- The three stacks hold the elements of the lists, in nodes of their own, and there is room for
one more exactly as long as fewer than `arraySz` elements are stored. -/
structure Agrees (s : Stacks) (lists : Lists) : Prop where
  nodes : ∃ nodes : Fin 4 → List Node, (∀ i, Linked (below s) (s.top i) (nodes i)) ∧
    (∀ n, ∃! i, n ∈ nodes i) ∧ ∀ i : Fin 3, (nodes i.castSucc).map (data s) = lists i
  room : ∀ (i : Fin 3) (value : Int32), (push s i.castSucc value).isSome ↔ stored lists < arraySz

theorem Represents.agrees (h : Represents s lists) : Agrees s lists := by
  constructor
  · obtain ⟨nodes, hnodes, hdata⟩ := h
    refine ⟨nodes, hnodes.linked, fun n => ?_, hdata⟩
    exact Several.existsUnique hnodes (List.nodup_finRange _) List.mem_finRange
      (List.mem_finRange n)
  · intro i value
    rcases push_spec h i value with ⟨hnone, hfull⟩ | ⟨s', hsome, hroom, -⟩
    · rw [hnone]
      exact iff_of_false (by decide) (Nat.not_lt.mpr hfull)
    · rw [hsome]
      exact iff_of_true rfl hroom

theorem step_simulates (h : Represents s lists) (call : Call) :
    Option.Rel (fun next next' => next.2 = next'.2 ∧ Represents next.1 next'.1) (step s call)
      (listsStep lists call) := by
  cases call with
  | push i value =>
    rw [step, listsStep]
    rcases push_spec h i value with ⟨hnone, hfull⟩ | ⟨s', hsome, hroom, hs'⟩
    · rw [hnone, if_neg (Nat.not_lt.mpr hfull)]
      exact .none
    · rw [hsome, if_pos hroom]
      exact .some ⟨rfl, hs'⟩
  | pop i =>
    rw [step, listsStep]
    rcases pop_spec h i with ⟨hnone, hnil⟩ | ⟨s', value, rest, hsome, hcons, hs'⟩
    · rw [hnone, hnil]
      exact .none
    · rw [hsome, hcons]
      exact .some ⟨rfl, hs'⟩

/-- The nodes that are put on the list of free nodes one by one. -/
theorem represents_foldl (h : Nodes s nodes loose) (hempty : ∀ i : Fin 3, nodes i.castSucc = []) :
    Represents (loose.foldl (fun s i => pushInternal s 3 i) s) fun _ => [] := by
  induction loose generalizing s nodes with
  | nil =>
    refine ⟨nodes, h, fun i => ?_⟩
    rw [hempty]
    rfl
  | cons n loose ih =>
    apply ih (h.pushInternal 3)
    intro i
    rw [Function.update_of_ne (castSucc_ne_three i)]
    exact hempty i

theorem createStacks_represents (block : Stacks) :
    ∃ s, createStacks (some block) = some s ∧ Represents s fun _ => [] := by
  have hstart :
      Nodes { block with top := fun _ => none } (fun _ => []) (List.finRange arraySz) := by
    constructor
    · exact fun _ => rfl
    · rw [List.flatMap_eq_nil_iff.mpr fun _ _ => rfl, List.append_nil]
  exact ⟨_, rfl, represents_foldl hstart fun _ => rfl⟩

/-- After any calls the stacks are the lists that the same calls make, or a call has failed for
both. -/
theorem run_refines (block : Stacks) (calls : List Call) :
    ∃ s, createStacks (some block) = some s ∧
      Option.Rel (fun last last' => last.2 = last'.2 ∧ Agrees last.1 last'.1)
        (tryRun step s calls) (tryRun listsStep (fun _ => []) calls) := by
  obtain ⟨s, hcreate, hs⟩ := createStacks_represents block
  refine ⟨s, hcreate, ?_⟩
  exact tryRun_simulates Represents (fun _ _ h => h.agrees)
    (fun _ _ call h => step_simulates h call) hs calls

end InterviewQuestions.ThreeStacks
