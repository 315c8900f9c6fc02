import InterviewQuestions.Library.OrderedSet
import InterviewQuestions.Library.ShortestPaths
import Mathlib.Algebra.Order.BigOperators.Group.List
import Mathlib.Data.Int.Order.Basic
import Mathlib.Data.Prod.Lex
import Mathlib.Logic.Function.Basic
import Mathlib.Order.Defs.LinearOrder

/-! The graph of `graphs/dijkstra/dijkstra.cpp` and its `dijkstra`. A pointer to a node is the `id`
of the node. -/
namespace InterviewQuestions.Dijkstra

open Library

/-- `struct graph_edge` -/
structure Edge where
  cost : UInt32
  target : ℤ

/-- `nodes` in the order of the map, and `neighbors` of each. -/
structure Graph where
  ids : List ℤ
  neighbors : ℤ → List Edge
  sorted : ids.Pairwise (· < ·)
  closed : ∀ id ∈ ids, ∀ e ∈ neighbors id, e.target ∈ ids

/-- The order of the keys of the map. -/
def idLess (a b : ℤ) : Bool := decide (a < b)

theorem idLess_iff (a b : ℤ) : idLess a b = true ↔ a < b := decide_eq_true_iff

namespace Graph

def empty : Graph := ⟨[], fun _ => [], List.Pairwise.nil, fun _ h => absurd h List.not_mem_nil⟩

def addNode (g : Graph) (id : ℤ) : Graph where
  ids := OrderedSet.insert idLess id g.ids
  neighbors := Function.update g.neighbors id []
  sorted := OrderedSet.sorted_insert idLess_iff (fun _ _ heq => heq) g.sorted
  closed := by
    have hmem : ∀ a, a ∈ OrderedSet.insert idLess id g.ids ↔
        a = id ∨ a ∈ g.ids := fun a =>
      OrderedSet.mem_insert idLess_iff fun _ _ heq => heq
    intro a ha edge hedge
    by_cases heq : a = id
    · rw [heq, Function.update_self] at hedge
      exact absurd hedge List.not_mem_nil
    · rw [Function.update_of_ne heq] at hedge
      have hold : a ∈ g.ids := ((hmem a).mp ha).resolve_left heq
      exact (hmem _).mpr (Or.inr (g.closed a hold edge hedge))

/-- `add_edge` between nodes of the graph. -/
def addEdge (g : Graph) (src dst : ℤ) (cost : Int32) (hsrc : src ∈ g.ids) (hdst : dst ∈ g.ids) :
    Graph where
  ids := g.ids
  neighbors := Function.update g.neighbors src (g.neighbors src ++ [⟨cost.toUInt32, dst⟩])
  sorted := g.sorted
  closed := by
    intro a ha edge hedge
    by_cases heq : a = src
    · rw [heq, Function.update_self, List.mem_append, List.mem_singleton] at hedge
      cases hedge with
      | inl hold => exact g.closed src hsrc edge hold
      | inr hnew => rw [hnew]; exact hdst
    · rw [Function.update_of_ne heq] at hedge
      exact g.closed a ha edge hedge

end Graph

/-- `numeric_limits<unsigned>::max()` -/
def infinity : UInt32 := 0xFFFFFFFF

/-- `DistComparator` -/
def distComparator (distance : ℤ → UInt32) (a b : ℤ) : Bool :=
  distance a < distance b || (distance a == distance b && decide (a < b))

structure State where
  distance : ℤ → UInt32
  prev : ℤ → Option ℤ
  queue : List ℤ

/-- The body of the first loop. -/
def setUp (source : ℤ) (s : State) (id : ℤ) : State :=
  let prev := Function.update s.prev id none
  let distance := Function.update s.distance id (if id = source then 0 else infinity)
  { distance, prev, queue := OrderedSet.insert (distComparator distance) id s.queue }

/-- The body of the loop over the edges of `n`. -/
def relax (n : ℤ) (s : State) (edge : Edge) : State :=
  match OrderedSet.find (distComparator s.distance) edge.target s.queue with
  | none => s
  | some target =>
      if s.distance n ≠ infinity ∧ s.distance n + edge.cost < s.distance edge.target then
        let queue := s.queue.erase target
        let distance := Function.update s.distance edge.target (s.distance n + edge.cost)
        let prev := Function.update s.prev edge.target (some n)
        { distance, prev,
          queue := OrderedSet.insert (distComparator distance) edge.target queue }
      else s

/-- The operands of `n->distance+edge_it->cost`. -/
structure Sum where
  distance : UInt32
  cost : UInt32

/-- The addition, where `relax` gets to it. -/
def sumOf (n : ℤ) (s : State) (edge : Edge) : List Sum :=
  match OrderedSet.find (distComparator s.distance) edge.target s.queue with
  | none => []
  | some _ => if s.distance n ≠ infinity then [⟨s.distance n, edge.cost⟩] else []

/-- Those of the loop over the edges of `n`. -/
def sums (n : ℤ) : State → List Edge → List Sum
  | _, [] => []
  | s, edge :: edges => sumOf n s edge ++ sums n (relax n s edge) edges

/-- The distance of a node when it is taken from `queue`, and the additions that follow. -/
structure Visit where
  distance : UInt32
  sums : List Sum

/-- `print_path`: the ids in the order printed. There are none where a null pointer is followed. -/
def printPath (prev : ℤ → Option ℤ) (src : ℤ) : ℕ → ℤ → Option (List ℤ)
  | 0, _ => none
  | fuel + 1, curr =>
      if curr = src then some [src]
      else match prev curr with
        | none => none
        | some node => (printPath prev src fuel node).map (· ++ [curr])

namespace Graph

variable (g : Graph)

/-- The loop over `queue`. -/
def visitQueue : ℕ → State → Option State
  | 0, _ => none
  | fuel + 1, s =>
      match s.queue with
      | [] => some s
      | n :: queue => visitQueue fuel ((g.neighbors n).foldl (relax n) { s with queue })

/-- The rounds of `visitQueue`. -/
def visits : ℕ → State → List Visit
  | 0, _ => []
  | fuel + 1, s =>
      match s.queue with
      | [] => []
      | n :: queue =>
          ⟨s.distance n, sums n { s with queue } (g.neighbors n)⟩ ::
            visits fuel ((g.neighbors n).foldl (relax n) { s with queue })

/-- A line for each node with `prev`. -/
def printShortestPaths (prev : ℤ → Option ℤ) (source : ℤ) : Option (List (List ℤ)) :=
  (g.ids.filter fun id => (prev id).isSome).mapM (printPath prev source (g.ids.length + 1))

/-- What the nodes hold afterwards, and the paths printed. `distance` and `prev` hold anything
before. -/
def dijkstra (source : ℤ) (distance : ℤ → UInt32) (prev : ℤ → Option ℤ) :
    Option (State × List (List ℤ)) :=
  match g.visitQueue (g.ids.length + 1) (g.ids.foldl (setUp source) ⟨distance, prev, []⟩) with
  | none => none
  | some s => (g.printShortestPaths s.prev source).map fun paths => (s, paths)

/-- The rounds of `dijkstra`. -/
def dijkstraVisits (source : ℤ) (distance : ℤ → UInt32) (prev : ℤ → Option ℤ) : List Visit :=
  g.visits (g.ids.length + 1) (g.ids.foldl (setUp source) ⟨distance, prev, []⟩)

end Graph

end InterviewQuestions.Dijkstra

/-! What the loop over the edges of a node keeps. -/
namespace InterviewQuestions.Dijkstra

open Library ShortestPaths

/-- `distComparator` is the order of these. -/
def key (distance : ℤ → UInt32) (a : ℤ) : ℕ ×ₗ ℤ := toLex ((distance a).toNat, a)

theorem distComparator_iff (distance : ℤ → UInt32) (a b : ℤ) :
    distComparator distance a b = true ↔ key distance a < key distance b := by
  unfold distComparator key
  rw [Bool.or_eq_true, Bool.and_eq_true, decide_eq_true_iff, beq_iff_eq, decide_eq_true_iff,
    Prod.Lex.toLex_lt_toLex, UInt32.lt_iff_toNat_lt, UInt32.toNat_inj]

theorem key_injective (distance : ℤ → UInt32) (a b : ℤ) (h : key distance a = key distance b) :
    a = b := congrArg (fun x => (ofLex x).2) h

variable {n v source : ℤ} {edge : Edge} {s s' : State}

/-- The relaxation of an edge that leads to its target at less than before. -/
structure Improves (n : ℤ) (edge : Edge) (s s' : State) : Prop where
  queued : edge.target ∈ s.queue
  finite : s.distance n ≠ infinity
  lt : s.distance n + edge.cost < s.distance edge.target
  distance : s'.distance =
    Function.update s.distance edge.target (s.distance n + edge.cost)
  prev : s'.prev = Function.update s.prev edge.target (some n)
  perm : s'.queue.Perm s.queue
  sorted : OrderedSet.Sorted (key s'.distance) s'.queue

theorem sorted_update (hsorted : OrderedSet.Sorted (key s.distance) s.queue) {v : ℤ}
    {queue : List ℤ} (hsub : queue.Sublist s.queue) (hv : v ∉ queue) (d : UInt32) :
    OrderedSet.Sorted (key (Function.update s.distance v d)) queue := by
  have hqueue : OrderedSet.Sorted (key s.distance) queue := List.Pairwise.sublist hsub hsorted
  refine hqueue.congr fun a ha => ?_
  have hne : a ≠ v := fun heq => hv (heq ▸ ha)
  rw [key, key, Function.update_of_ne hne]

theorem relax_cases (hsorted : OrderedSet.Sorted (key s.distance) s.queue) (n : ℤ) (edge : Edge) :
    Improves n edge s (relax n s edge) ∨ relax n s edge = s ∧
      (edge.target ∉ s.queue ∨ s.distance n = infinity ∨
        ¬ s.distance n + edge.cost < s.distance edge.target) := by
  unfold relax
  rw [OrderedSet.find_eq (distComparator_iff _) (key_injective _) hsorted]
  by_cases hmem : edge.target ∈ s.queue
  · rw [if_pos hmem]
    by_cases htest : s.distance n ≠ infinity ∧ s.distance n + edge.cost < s.distance edge.target
    · left
      have hnot : edge.target ∉ s.queue.erase edge.target := hsorted.nodup.not_mem_erase
      simp only [if_pos htest]
      exact {
        queued := hmem
        finite := htest.1
        lt := htest.2
        distance := rfl
        prev := rfl
        perm := (OrderedSet.insert_perm (distComparator_iff _) (key_injective _) hnot).trans
          (List.perm_cons_erase hmem).symm
        sorted := OrderedSet.sorted_insert (distComparator_iff _) (key_injective _)
          (sorted_update hsorted List.erase_sublist hnot _) }
    · right
      simp only [if_neg htest]
      refine ⟨trivial, Or.inr ?_⟩
      by_contra hboth
      rw [not_or, not_not] at hboth
      exact htest hboth
  · rw [if_neg hmem]
    exact Or.inr ⟨rfl, Or.inl hmem⟩

namespace Improves

variable (h : Improves n edge s s')

include h

theorem mem_queue_iff : v ∈ s'.queue ↔ v ∈ s.queue := h.perm.mem_iff

theorem distance_of_ne (hv : v ≠ edge.target) : s'.distance v = s.distance v := by
  rw [h.distance, Function.update_of_ne hv]

theorem prev_of_ne (hv : v ≠ edge.target) : s'.prev v = s.prev v := by
  rw [h.prev, Function.update_of_ne hv]

theorem ne_target (hv : v ∉ s.queue) : v ≠ edge.target := fun heq => hv (heq ▸ h.queued)

theorem prev_target : s'.prev edge.target = some n := by
  rw [h.prev, Function.update_self]

/-- Where the sum does not wrap around. -/
theorem toNat_distance_target (hfits : (s.distance n).toNat + edge.cost.toNat < 2 ^ 32) :
    (s'.distance edge.target).toNat = (s.distance n).toNat + edge.cost.toNat := by
  rw [h.distance, Function.update_self, UInt32.toNat_add, Nat.mod_eq_of_lt hfits]

theorem toNat_distance_lt : (s'.distance edge.target).toNat < (s.distance edge.target).toNat := by
  rw [h.distance, Function.update_self]
  exact UInt32.lt_iff_toNat_lt.mp h.lt

theorem toNat_distance_le (v : ℤ) : (s'.distance v).toNat ≤ (s.distance v).toNat := by
  by_cases hv : v = edge.target
  · rw [hv]
    exact Nat.le_of_lt h.toNat_distance_lt
  · rw [h.distance_of_ne hv]

end Improves

theorem toNat_infinity : infinity.toNat = 2 ^ 32 - 1 := rfl

theorem ne_infinity_iff {d : UInt32} : d ≠ infinity ↔ d.toNat < 2 ^ 32 - 1 := by
  have hlt := d.toNat_lt
  rw [Ne, ← UInt32.toNat_inj, toNat_infinity]
  omega

namespace Graph

variable {g : Graph}

/-- The costs of the edges out of a node. -/
def outCost (g : Graph) (n : ℤ) : ℕ := ((g.neighbors n).map fun edge => edge.cost.toNat).sum

def totalCost (g : Graph) : ℕ := (g.ids.map g.outCost).sum

/-- What the edges out of the queued nodes cost in all. -/
def owed (g : Graph) (queue : List ℤ) : ℕ := (queue.map g.outCost).sum

def HasEdge (g : Graph) (u v : ℤ) (w : ℕ) : Prop :=
  u ∈ g.ids ∧ ∃ edge ∈ g.neighbors u, edge.target = v ∧ edge.cost.toNat = w

/-- An edge out of a node that has left the queue. -/
def SettledEdge (g : Graph) (queue : List ℤ) (u v : ℤ) (w : ℕ) : Prop :=
  u ∉ queue ∧ g.HasEdge u v w

/-- `prev` leads back through nodes that have left the queue, to the source at the distance. -/
def Backed (g : Graph) (source : ℤ) (s : State) (extra : ℕ) (v : ℤ) : Prop :=
  ∃ k, Traced (g.SettledEdge s.queue) s.prev source v (s.distance v).toNat k ∧
    k + extra + s.queue.length ≤ g.ids.length

/-- What holds between any two relaxations. `scanned` are the edges relaxed so far. -/
structure Inv (g : Graph) (source : ℤ) (scanned : ℤ → Edge → Prop) (s : State) : Prop where
  sorted : OrderedSet.Sorted (key s.distance) s.queue
  mem_ids : ∀ v ∈ s.queue, v ∈ g.ids
  source_zero : s.distance source = 0
  backed : ∀ v ∈ g.ids, s.distance v ≠ infinity → g.Backed source s 0 v
  labelled : ∀ v ∈ g.ids, s.prev v ≠ none → s.distance v ≠ infinity
  room : ∀ v ∈ g.ids, s.distance v ≠ infinity →
    (s.distance v).toNat + g.owed s.queue ≤ g.totalCost
  ordered : ∀ u ∈ g.ids, u ∉ s.queue → ∀ v ∈ s.queue, (s.distance u).toNat ≤ (s.distance v).toNat
  relaxed : ∀ u edge, scanned u edge → u ∉ s.queue → s.distance u ≠ infinity →
    (s.distance edge.target).toNat ≤ (s.distance u).toNat + edge.cost.toNat ∧
      s.distance edge.target ≠ infinity

/-- The node whose edges are relaxed is the last that left the queue. -/
structure Visiting (g : Graph) (source n : ℤ) (s : State) : Prop where
  mem : n ∈ g.ids
  left : n ∉ s.queue
  last : ∀ u ∈ g.ids, u ∉ s.queue → (s.distance u).toNat ≤ (s.distance n).toNat
  backed : s.distance n ≠ infinity → g.Backed source s 1 n
  room : s.distance n ≠ infinity →
    (s.distance n).toNat + g.outCost n + g.owed s.queue ≤ g.totalCost

theorem cost_le_outCost (hedge : edge ∈ g.neighbors n) : edge.cost.toNat ≤ g.outCost n :=
  List.le_sum_of_mem (List.mem_map_of_mem hedge)

theorem Visiting.fits (hn : g.Visiting source n s) (hedge : edge ∈ g.neighbors n)
    (hfinite : s.distance n ≠ infinity) :
    (s.distance n).toNat + edge.cost.toNat + g.owed s.queue ≤ g.totalCost := by
  have hroom := hn.room hfinite
  have hcost := cost_le_outCost hedge
  omega

section
variable (h : Improves n edge s s')

include h

theorem owed_improved : g.owed s'.queue = g.owed s.queue := (h.perm.map _).sum_eq

theorem settledEdge_improved : g.SettledEdge s'.queue = g.SettledEdge s.queue := by
  funext u v w
  unfold SettledEdge
  rw [h.mem_queue_iff]

theorem Backed.improved {extra : ℕ} (hback : g.Backed source s extra v) (hv : v ≠ edge.target) :
    g.Backed source s' extra v := by
  unfold Backed at hback ⊢
  obtain ⟨k, htraced, hk⟩ := hback
  rw [settledEdge_improved h, h.distance_of_ne hv, h.perm.length_eq]
  exact ⟨k, htraced.congr (h.prev_of_ne hv) fun u _ _ hu => h.prev_of_ne (h.ne_target hu.1), hk⟩

theorem Visiting.improved (hn : g.Visiting source n s) : g.Visiting source n s' := by
  have hne : n ≠ edge.target := h.ne_target hn.left
  exact {
    mem := hn.mem
    left := fun hmem => hn.left (h.mem_queue_iff.mp hmem)
    last := fun u hu hleft => by
      rw [h.mem_queue_iff] at hleft
      rw [h.distance_of_ne hne, h.distance_of_ne (h.ne_target hleft)]
      exact hn.last u hu hleft
    backed := fun hfinite => by
      rw [h.distance_of_ne hne] at hfinite
      exact (hn.backed hfinite).improved h hne
    room := fun hfinite => by
      rw [h.distance_of_ne hne] at hfinite ⊢
      rw [owed_improved h]
      exact hn.room hfinite }

theorem backed_target (hn : g.Visiting source n s) (hedge : edge ∈ g.neighbors n)
    (hfits : (s.distance n).toNat + edge.cost.toNat < 2 ^ 32) (hsource : edge.target ≠ source) :
    g.Backed source s' 0 edge.target := by
  have hne : n ≠ edge.target := h.ne_target hn.left
  have hleft : n ∉ s'.queue := (hn.improved h).left
  obtain ⟨k, htraced, hk⟩ := (hn.backed h.finite).improved h hne
  rw [h.distance_of_ne hne] at htraced
  have hsettled : g.SettledEdge s'.queue n edge.target edge.cost.toNat :=
    ⟨hleft, hn.mem, edge, hedge, rfl, rfl⟩
  refine ⟨k + 1, ?_, by omega⟩
  rw [h.toNat_distance_target hfits]
  exact htraced.snoc hsource h.prev_target hsettled

end

/-- `scanned`, and edges of `n`. -/
def adding (scanned : ℤ → Edge → Prop) (n : ℤ) (edges : List Edge) (u : ℤ) (edge : Edge) : Prop :=
  scanned u edge ∨ u = n ∧ edge ∈ edges

variable {scanned scanned' : ℤ → Edge → Prop}

theorem Inv.mono (hinv : g.Inv source scanned s)
    (hsub : ∀ u edge, scanned' u edge → scanned u edge) : g.Inv source scanned' s :=
  { hinv with relaxed := fun u edge hu => hinv.relaxed u edge (hsub u edge hu) }

theorem Inv.improved (hinv : g.Inv source scanned s) (h : Improves n edge s s')
    (hn : g.Visiting source n s) (hedge : edge ∈ g.neighbors n)
    (htotal : g.totalCost < 2 ^ 32 - 1) : g.Inv source (adding scanned n [edge]) s' := by
  have hroom := hn.fits hedge h.finite
  have hfits : (s.distance n).toNat + edge.cost.toNat < 2 ^ 32 := by omega
  have htarget := h.toNat_distance_target hfits
  have hfinite : s'.distance edge.target ≠ infinity := by
    rw [ne_infinity_iff, htarget]
    omega
  have hsource : edge.target ≠ source := fun heq => by
    have hlt := h.toNat_distance_lt
    rw [heq, hinv.source_zero] at hlt
    exact Nat.not_lt_zero _ hlt
  exact {
    sorted := h.sorted
    mem_ids := fun v hv => hinv.mem_ids v (h.mem_queue_iff.mp hv)
    source_zero := by
      rw [h.distance_of_ne (Ne.symm hsource)]
      exact hinv.source_zero
    backed := fun v hv hreached => by
      by_cases heq : v = edge.target
      · rw [heq]
        exact backed_target h hn hedge hfits hsource
      · rw [h.distance_of_ne heq] at hreached
        exact (hinv.backed v hv hreached).improved h heq
    labelled := fun v hv hprev => by
      by_cases heq : v = edge.target
      · rw [heq]
        exact hfinite
      · rw [h.prev_of_ne heq] at hprev
        rw [h.distance_of_ne heq]
        exact hinv.labelled v hv hprev
    room := fun v hv hreached => by
      rw [owed_improved h]
      by_cases heq : v = edge.target
      · rw [heq, htarget]
        exact hroom
      · rw [h.distance_of_ne heq] at hreached ⊢
        exact hinv.room v hv hreached
    ordered := fun u hu hleft v hv => by
      rw [h.mem_queue_iff] at hleft hv
      rw [h.distance_of_ne (h.ne_target hleft)]
      by_cases heq : v = edge.target
      · rw [heq, htarget]
        exact Nat.le_add_right_of_le (hn.last u hu hleft)
      · rw [h.distance_of_ne heq]
        exact hinv.ordered u hu hleft v hv
    relaxed := fun u other hu hleft hreached => by
      rw [h.mem_queue_iff] at hleft
      rw [h.distance_of_ne (h.ne_target hleft)] at hreached ⊢
      cases hu with
      | inl hold =>
        obtain ⟨hle, hother⟩ := hinv.relaxed u other hold hleft hreached
        have hless := h.toNat_distance_le other.target
        rw [ne_infinity_iff] at hother ⊢
        exact ⟨hless.trans hle, hless.trans_lt hother⟩
      | inr hnew =>
        rw [hnew.1, List.mem_singleton.mp hnew.2, htarget]
        exact ⟨Nat.le_refl _, hfinite⟩ }

/-- Nothing is to be changed for an edge that does not lead to its target at less. -/
theorem Inv.kept (hinv : g.Inv source scanned s) (hn : g.Visiting source n s)
    (hedge : edge ∈ g.neighbors n) (htotal : g.totalCost < 2 ^ 32 - 1)
    (hcase : edge.target ∉ s.queue ∨ s.distance n = infinity ∨
      ¬ s.distance n + edge.cost < s.distance edge.target) :
    g.Inv source (adding scanned n [edge]) s := by
  refine { hinv with relaxed := fun u other hu hleft hreached => ?_ }
  cases hu with
  | inl hold => exact hinv.relaxed u other hold hleft hreached
  | inr hnew =>
    rw [hnew.1] at hreached
    rw [hnew.1, List.mem_singleton.mp hnew.2]
    have hroom := hn.fits hedge hreached
    have hle : (s.distance edge.target).toNat ≤ (s.distance n).toNat + edge.cost.toNat := by
      rcases hcase with hsettled | hinfinite | hnot
      · exact Nat.le_add_right_of_le (hn.last _ (g.closed n hn.mem edge hedge) hsettled)
      · exact absurd hinfinite hreached
      · rw [UInt32.lt_iff_toNat_lt, UInt32.toNat_add, Nat.mod_eq_of_lt (by omega)] at hnot
        exact Nat.le_of_not_lt hnot
    refine ⟨hle, ?_⟩
    rw [ne_infinity_iff]
    omega

theorem Inv.relax (hinv : g.Inv source scanned s) (hn : g.Visiting source n s)
    (hedge : edge ∈ g.neighbors n) (htotal : g.totalCost < 2 ^ 32 - 1) :
    g.Inv source (adding scanned n [edge]) (relax n s edge) ∧
      g.Visiting source n (relax n s edge) ∧ (relax n s edge).queue.Perm s.queue := by
  cases relax_cases hinv.sorted n edge with
  | inl h => exact ⟨hinv.improved h hn hedge htotal, hn.improved h, h.perm⟩
  | inr h =>
    rw [h.1]
    exact ⟨hinv.kept hn hedge htotal h.2, hn, List.Perm.refl _⟩

/-- The loop over the edges of `n`. -/
theorem Inv.relax_all (hinv : g.Inv source scanned s) (hn : g.Visiting source n s)
    {edges : List Edge} (hedges : ∀ edge ∈ edges, edge ∈ g.neighbors n)
    (htotal : g.totalCost < 2 ^ 32 - 1) :
    g.Inv source (adding scanned n edges) (edges.foldl (Dijkstra.relax n) s) ∧
      (edges.foldl (Dijkstra.relax n) s).queue.Perm s.queue := by
  induction edges generalizing scanned s with
  | nil =>
    refine ⟨hinv.mono fun u edge hu => ?_, List.Perm.refl _⟩
    exact hu.resolve_right fun h => absurd h.2 List.not_mem_nil
  | cons edge edges ih =>
    obtain ⟨hfirst, hnext, hperm⟩ := hinv.relax hn (hedges edge List.mem_cons_self) htotal
    obtain ⟨hrest, hall⟩ :=
      ih hfirst hnext fun other hother => hedges other (List.mem_cons_of_mem _ hother)
    refine ⟨hrest.mono fun u other hu => ?_, hall.trans hperm⟩
    rcases hu with hold | ⟨heq, hmem⟩
    · exact Or.inl (Or.inl hold)
    · cases List.mem_cons.mp hmem with
      | inl hhead => exact Or.inl (Or.inr ⟨heq, List.mem_singleton.mpr hhead⟩)
      | inr htail => exact Or.inr ⟨heq, htail⟩

end Graph

end InterviewQuestions.Dijkstra
