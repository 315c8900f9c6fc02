import InterviewQuestions.Library.Traversal
import Mathlib.Data.Finset.Range
import Mathlib.Data.List.Perm.Lattice
import Mathlib.Tactic.Common

/-! `DS_Algos/graphs/adj_list/adjacency_list.c`. Vertices are their indices in `vertices`. There is
no result where an assertion fails, or where a `NULL` vertex is used. -/
namespace InterviewQuestions.AdjacencyList

open Library.Traversal (Event)

abbrev MAX_LIST_NODES : ℕ := 256

abbrev MAX_VERTICES : ℕ := 128

abbrev QUEUE_CAPACITY : ℕ := MAX_VERTICES

/-- A `struct list_node *`: the field of a vertex, or a node of `nodes_store`. -/
inductive ListRef where
  | neighbors (v : ℕ)
  | store (i : ℕ)
deriving DecidableEq

structure ListNode where
  vertex : Option ℕ
  next : ListRef

/-- The graph, and the nodes that are allocated. -/
structure Memory where
  nodes : ListRef → ListNode
  nextAlloc : ℕ
  value : ℕ → ℕ
  visited : ℕ → Bool
  verticesSz : ℕ

/-! ## Lists -/

def Memory.setNode (m : Memory) (n : ListRef) (node : ListNode) : Memory :=
  { m with nodes := Function.update m.nodes n node }

def listInsertAfter (newNode afterThis : ListRef) (m : Memory) : Memory :=
  let m := m.setNode newNode { m.nodes newNode with next := (m.nodes afterThis).next }
  m.setNode afterThis { m.nodes afterThis with next := newNode }

def listInitNode (v : Option ℕ) (n : ListRef) (m : Memory) : Memory := m.setNode n ⟨v, n⟩

def newListNode (vertex : ℕ) (m : Memory) : Option (ListRef × Memory) :=
  if m.nextAlloc < MAX_LIST_NODES then
    let ret := .store m.nextAlloc
    some (ret, { listInitNode (some vertex) ret m with nextAlloc := m.nextAlloc + 1 })
  else none

/-! ## Graphs -/

def Memory.setVisited (m : Memory) (v : ℕ) (visited : Bool) : Memory :=
  { m with visited := Function.update m.visited v visited }

def prepareTraversal (m : Memory) : Memory :=
  (List.range m.verticesSz).foldl (fun m i => m.setVisited i false) m

def initializeGraph (vertices : ℕ) (m : Memory) : Option Memory :=
  if 0 < vertices ∧ vertices ≤ MAX_VERTICES then
    let init (m : Memory) (i : ℕ) : Memory :=
      listInitNode none (.neighbors i) { m with value := Function.update m.value i i }
    some ((List.range vertices).foldl init { m with verticesSz := vertices })
  else none

def addEdge (m : Memory) (edge : ℕ × ℕ) : Option Memory :=
  if edge.1 < m.verticesSz ∧ edge.2 < m.verticesSz then do
    let (node, m) ← newListNode edge.2 m
    return listInsertAfter node (.neighbors edge.1) m
  else none

/-- The graph as `main` builds it. -/
def build (vertices : ℕ) (edges : List (ℕ × ℕ)) (m : Memory) : Option Memory := do
  let m ← initializeGraph vertices m
  edges.foldlM addEdge m

/-! ## Traversals -/

/-- `bfs_queue` and its three indices. -/
structure Queue where
  bfsQueue : ℕ → ℕ
  head : ℕ
  tail : ℕ
  elemCount : ℕ

/-- What is printed are the values of the vertices that are entered and exited. -/
structure State where
  memory : Memory
  queue : Queue
  printed : List (Event ℕ)

namespace State

def visited (s : State) (v : ℕ) : Bool := s.memory.visited v

def mark (s : State) (v : ℕ) : State := { s with memory := s.memory.setVisited v true }

def printEntered (s : State) (v : ℕ) : State :=
  { s with printed := s.printed ++ [.entered (s.memory.value v)] }

def printExited (s : State) (v : ℕ) : State :=
  { s with printed := s.printed ++ [.exited (s.memory.value v)] }

end State

/-- `list_for_each` from a cursor on, with a body that is given `neighbor_node->vertex`. -/
def listForEach (head : ListRef) (body : State → ℕ → Option State) :
    ℕ → ListRef → State → Option State
  | 0, _, _ => none
  | fuel + 1, cursor, s =>
      if cursor ≠ head then do
        let neighbor ← (s.memory.nodes cursor).vertex
        let s ← body s neighbor
        listForEach head body fuel (s.memory.nodes cursor).next s
      else some s

/-- The loop over the neighbours of a vertex. No list has more nodes than there are. -/
def forNeighbors (v : ℕ) (body : State → ℕ → Option State) (s : State) : Option State :=
  listForEach (.neighbors v) body (MAX_LIST_NODES + 1) (s.memory.nodes (.neighbors v)).next s

/-- The recursion is never deeper than there are vertices. -/
def dfsAux : ℕ → State → ℕ → Option State
  | 0, _, _ => none
  | depth + 1, s, v => do
      let s := (s.printEntered v).mark v
      let s ← forNeighbors v (fun s neighbor =>
        if s.visited neighbor = false then dfsAux depth s neighbor else some s) s
      return s.printExited v

/-- The loop of `dfs` and of `bfs`, up to a vertex. -/
def forVertices (aux : State → ℕ → Option State) (bound : ℕ) (s : State) : Option State :=
  (List.range bound).foldlM (fun s i => if s.visited i = false then aux s i else some s)
    { s with memory := prepareTraversal s.memory }

def dfs (s : State) : Option State := forVertices (dfsAux MAX_VERTICES) s.memory.verticesSz s

def enqueue (s : State) (v : ℕ) : Option State :=
  let q := s.queue
  if q.elemCount < QUEUE_CAPACITY then
    some { s with
      queue :=
        { q with
          elemCount := q.elemCount + 1
          bfsQueue := Function.update q.bfsQueue q.tail v
          tail := (q.tail + 1) % MAX_VERTICES } }
  else none

def dequeue (s : State) : Option (ℕ × State) :=
  let q := s.queue
  if 0 < q.elemCount then
    some (q.bfsQueue q.head,
      { s with
        queue :=
          { q with elemCount := q.elemCount - 1, head := (q.head + 1) % MAX_VERTICES } })
  else none

def isQueueEmpty (s : State) : Bool := s.queue.elemCount = 0

/-- The loop of `bfs_aux`. -/
def bfsLoop : ℕ → State → Option State
  | 0, _ => none
  | fuel + 1, s =>
      if isQueueEmpty s then some s
      else do
        let (vertex, s) ← dequeue s
        let s ← forNeighbors vertex (fun s neighbor =>
          if s.visited neighbor = false then enqueue (s.mark neighbor) neighbor else some s)
          (s.printEntered vertex)
        bfsLoop fuel (s.printExited vertex)

def bfsAux (s : State) (v : ℕ) : Option State := do
  let s ← enqueue s v
  bfsLoop (MAX_VERTICES + 1) (s.mark v)

def bfs (s : State) : Option State := forVertices bfsAux s.memory.verticesSz s

/-! The lists that `add_edge` builds, and the loops over them. -/

variable {nodes nodes' : ListRef → ListNode} {head cursor : ListRef} {bound bound' v w : ℕ}
  {ws : List ℕ} {m m' : Memory} {s s' : State} {vertices : ℕ} {children : ℕ → List ℕ}
  {edges : List (ℕ × ℕ)} {body : State → ℕ → Option State}

/-- From the cursor on come nodes of the store with these vertices, and then the head again. -/
def Chain (nodes : ListRef → ListNode) (head : ListRef) (bound : ℕ) : ListRef → List ℕ → Prop
  | cursor, [] => cursor = head
  | cursor, w :: ws => (∃ i, i < bound ∧ cursor = .store i) ∧ (nodes cursor).vertex = some w ∧
      Chain nodes head bound (nodes cursor).next ws

theorem Chain.congr (h : Chain nodes head bound cursor ws) (hle : bound ≤ bound')
    (hnodes : ∀ i < bound, nodes' (.store i) = nodes (.store i)) :
    Chain nodes' head bound' cursor ws := by
  induction ws generalizing cursor with
  | nil => exact h
  | cons w ws ih =>
    obtain ⟨⟨i, hi, rfl⟩, hvertex, hrest⟩ := h
    rw [Chain, hnodes i hi]
    exact ⟨⟨i, by omega, rfl⟩, hvertex, ih hrest⟩

/-- The targets of the edges from a vertex, the last one first. -/
def adjacency (edges : List (ℕ × ℕ)) (v : ℕ) : List ℕ :=
  (edges.reverse.filter fun edge => edge.1 = v).map Prod.snd

theorem mem_adjacency : w ∈ adjacency edges v ↔ (v, w) ∈ edges := by
  simp only [adjacency, List.mem_map, List.mem_filter, List.mem_reverse, decide_eq_true_eq]
  constructor
  · rintro ⟨⟨a, b⟩, ⟨hmem, rfl⟩, rfl⟩
    exact hmem
  · intro h
    exact ⟨(v, w), ⟨h, rfl⟩, rfl⟩

theorem adjacency_append (edges : List (ℕ × ℕ)) (edge : ℕ × ℕ) (v : ℕ) :
    adjacency (edges ++ [edge]) v =
      if edge.1 = v then edge.2 :: adjacency edges v else adjacency edges v := by
  simp only [adjacency, List.reverse_append, List.reverse_singleton, List.singleton_append,
    List.filter_cons, decide_eq_true_eq]
  split <;> rfl

/-! ## Building -/

/-- The memory has a graph: the values of the vertices are their indices, and their lists are
complete. -/
structure Built (vertices : ℕ) (children : ℕ → List ℕ) (m : Memory) : Prop where
  size : m.verticesSz = vertices
  value : ∀ v < vertices, m.value v = v
  lists : ∀ v < vertices,
    Chain m.nodes (.neighbors v) m.nextAlloc (m.nodes (.neighbors v)).next (children v)
  length : ∀ v, (children v).length ≤ m.nextAlloc
  store : m.nextAlloc ≤ MAX_LIST_NODES

theorem foldl_init (m : Memory) (vertices : ℕ) :
    let m' := (List.range vertices).foldl (fun m i =>
      listInitNode none (.neighbors i) { m with value := Function.update m.value i i }) m
    m'.verticesSz = m.verticesSz ∧ m'.nextAlloc = m.nextAlloc ∧
      ∀ v < vertices, m'.value v = v ∧ (m'.nodes (.neighbors v)).next = .neighbors v := by
  induction vertices with
  | zero => exact ⟨rfl, rfl, fun v hv => absurd hv (Nat.not_lt_zero v)⟩
  | succ vertices ih =>
    obtain ⟨hsize, halloc, hall⟩ := ih
    simp only [List.range_succ, List.foldl_append, List.foldl_cons, List.foldl_nil]
    refine ⟨hsize, halloc, fun v hv => ?_⟩
    by_cases hlast : v = vertices
    · subst hlast
      simp [listInitNode, Memory.setNode]
    · have hne : ListRef.neighbors v ≠ ListRef.neighbors vertices := by
        intro heq
        exact hlast (ListRef.neighbors.inj heq)
      have hv' := hall v (by omega)
      simp only [listInitNode, Memory.setNode, Function.update_of_ne hlast,
        Function.update_of_ne hne]
      exact hv'

theorem initializeGraph_built (hpos : 0 < vertices) (hmax : vertices ≤ MAX_VERTICES)
    (hstore : m.nextAlloc ≤ MAX_LIST_NODES) :
    ∃ m', initializeGraph vertices m = some m' ∧ Built vertices (adjacency []) m' ∧
      m'.nextAlloc = m.nextAlloc := by
  obtain ⟨hsize, halloc, hall⟩ := foldl_init { m with verticesSz := vertices } vertices
  refine ⟨_, if_pos ⟨hpos, hmax⟩, ⟨hsize, fun v hv => (hall v hv).1, fun v hv => (hall v hv).2,
    fun v => Nat.zero_le _, ?_⟩, halloc⟩
  rw [halloc]
  exact hstore

/-- A new node comes first. -/
theorem Built.addEdge (h : Built vertices (adjacency edges) m) {edge : ℕ × ℕ}
    (hedge : edge.1 < vertices ∧ edge.2 < vertices) (hstore : m.nextAlloc < MAX_LIST_NODES) :
    ∃ m', addEdge m edge = some m' ∧ Built vertices (adjacency (edges ++ [edge])) m' ∧
      m'.nextAlloc = m.nextAlloc + 1 := by
  obtain ⟨source, target⟩ := edge
  rw [AdjacencyList.addEdge, if_pos (by rw [h.size]; exact hedge), newListNode, if_pos hstore]
  refine ⟨_, rfl, ?_, rfl⟩
  constructor
  case size => exact h.size
  case value => exact h.value
  case store => exact hstore
  case length =>
    intro v
    have hlen := h.length v
    rw [adjacency_append]
    split
    · exact Nat.succ_le_succ hlen
    · exact Nat.le_succ_of_le hlen
  case lists =>
    intro v hv
    have hold := h.lists v hv
    rw [adjacency_append]
    by_cases hv' : source = v
    · subst hv'
      rw [if_pos rfl]
      simp only [listInsertAfter, listInitNode, Memory.setNode, Function.update_self, ne_eq,
        reduceCtorEq, not_false_eq_true, Function.update_of_ne]
      refine ⟨⟨m.nextAlloc, Nat.lt_succ_self _, rfl⟩, ?_, ?_⟩
      · simp
      · simp only [ne_eq, reduceCtorEq, not_false_eq_true, Function.update_of_ne,
          Function.update_self]
        refine hold.congr (Nat.le_succ _) fun i hi => ?_
        have hne : i ≠ m.nextAlloc := by omega
        simp [hne]
    · rw [if_neg hv']
      have hne : ListRef.neighbors v ≠ ListRef.neighbors source := by
        intro heq
        exact hv' (ListRef.neighbors.inj heq).symm
      simp only [listInsertAfter, listInitNode, Memory.setNode, ne_eq, reduceCtorEq,
        not_false_eq_true, Function.update_of_ne, Function.update_of_ne hne]
      refine hold.congr (Nat.le_succ _) fun i hi => ?_
      have hne : i ≠ m.nextAlloc := by omega
      simp [hne]

theorem Built.addEdges {more : List (ℕ × ℕ)} (h : Built vertices (adjacency edges) m)
    (hedges : ∀ edge ∈ more, edge.1 < vertices ∧ edge.2 < vertices)
    (hstore : m.nextAlloc + more.length ≤ MAX_LIST_NODES) :
    ∃ m', more.foldlM AdjacencyList.addEdge m = some m' ∧
      Built vertices (adjacency (edges ++ more)) m' := by
  induction more generalizing edges m with
  | nil => exact ⟨m, rfl, by rwa [List.append_nil]⟩
  | cons edge more ih =>
    rw [List.forall_mem_cons] at hedges
    rw [List.length_cons] at hstore
    obtain ⟨m', hadd, hbuilt, halloc⟩ := h.addEdge hedges.1 (by omega)
    obtain ⟨m'', hmore, hbuilt'⟩ := ih hbuilt hedges.2 (by omega)
    refine ⟨m'', ?_, ?_⟩
    · rw [List.foldlM_cons, hadd]
      exact hmore
    · rwa [List.append_assoc, List.singleton_append] at hbuilt'

theorem build_built (hpos : 0 < vertices) (hmax : vertices ≤ MAX_VERTICES)
    (hedges : ∀ edge ∈ edges, edge.1 < vertices ∧ edge.2 < vertices)
    (hstore : m.nextAlloc + edges.length ≤ MAX_LIST_NODES) :
    ∃ m', build vertices edges m = some m' ∧ Built vertices (adjacency edges) m' := by
  obtain ⟨m₁, hinit, hbuilt, halloc⟩ := initializeGraph_built hpos hmax (by omega : m.nextAlloc ≤ _)
  obtain ⟨m₂, hadd, hbuilt'⟩ := hbuilt.addEdges hedges (by omega)
  refine ⟨m₂, ?_, by rwa [List.nil_append] at hbuilt'⟩
  rw [build, hinit]
  exact hadd

/-! ## Going through the lists -/

/-- The links stay as they are. -/
def KeepsNodes (body : State → ℕ → Option State) : Prop :=
  ∀ s v s', body s v = some s' → s'.memory.nodes = s.memory.nodes

theorem listForEach_nodes (hbody : KeepsNodes body) {fuel : ℕ}
    (h : listForEach head body fuel cursor s = some s') : s'.memory.nodes = s.memory.nodes := by
  induction fuel generalizing cursor s with
  | zero => cases h
  | succ fuel ih =>
    rw [listForEach] at h
    split at h
    · obtain ⟨w, -, h⟩ := Option.bind_eq_some_iff.mp h
      obtain ⟨t, ht, h⟩ := Option.bind_eq_some_iff.mp h
      exact (ih h).trans (hbody s w t ht)
    · cases h
      rfl

theorem listForEach_eq (hbody : KeepsNodes body) {fuel : ℕ}
    (h : Chain s.memory.nodes (.neighbors v) bound cursor ws) (hfuel : ws.length < fuel) :
    listForEach (.neighbors v) body fuel cursor s = ws.foldlM body s := by
  induction ws generalizing cursor s fuel with
  | nil =>
    obtain ⟨fuel, rfl⟩ := Nat.exists_eq_add_one_of_ne_zero (Nat.ne_of_gt hfuel)
    obtain rfl : cursor = .neighbors v := h
    rw [listForEach, if_neg (not_not_intro rfl)]
    rfl
  | cons w ws ih =>
    obtain ⟨fuel, rfl⟩ := Nat.exists_eq_add_one_of_ne_zero (Nat.ne_zero_of_lt hfuel)
    rw [List.length_cons] at hfuel
    obtain ⟨⟨i, -, rfl⟩, hvertex, hrest⟩ := h
    rw [listForEach, if_pos (by simp), hvertex, List.foldlM_cons]
    change (body s w >>= fun t => _) = _
    cases hw : body s w with
    | none => rfl
    | some t =>
      have hnodes := hbody s w t hw
      rw [← hnodes] at hrest
      exact ih hrest (by omega)

theorem Built.forNeighbors (h : Built vertices children m) (hs : s.memory.nodes = m.nodes)
    (hv : v < vertices) (hbody : KeepsNodes body) :
    forNeighbors v body s = (children v).foldlM body s := by
  have hlists := h.lists v hv
  rw [← hs] at hlists
  have hlen := (h.length v).trans h.store
  exact listForEach_eq hbody hlists (by omega)

theorem forNeighbors_nodes (hbody : KeepsNodes body) (h : forNeighbors v body s = some s') :
    s'.memory.nodes = s.memory.nodes :=
  listForEach_nodes hbody h

/-! ## Starting a traversal -/

theorem foldl_setVisited (m : Memory) (n : ℕ) :
    (List.range n).foldl (fun m i => m.setVisited i false) m =
      { m with visited := fun v => if v < n then false else m.visited v } := by
  induction n with
  | zero => simp
  | succ n ih =>
    rw [List.range_succ, List.foldl_append, ih, List.foldl_cons, List.foldl_nil, Memory.setVisited]
    congr 1
    funext v
    by_cases hv : v = n
    · subst hv
      simp
    · have hiff : v < n + 1 ↔ v < n := by omega
      simp [hv, hiff]

theorem prepareTraversal_eq (m : Memory) : prepareTraversal m =
    { m with visited := fun v => if v < m.verticesSz then false else m.visited v } :=
  foldl_setVisited m m.verticesSz

end InterviewQuestions.AdjacencyList

/-! `dfs` is a depth-first traversal of the edges. -/
namespace InterviewQuestions.AdjacencyList

open Library Traversal

variable {v : ℕ} {s s' : State} {vertices depth : ℕ} {children : ℕ → List ℕ} {l l' : Log ℕ}

/-- The state that a log stands for. -/
def ofLog (s : State) (l : Log ℕ) : State :=
  { s with memory := { s.memory with visited := l.visited }, printed := l.events }

theorem KeepsNodes.unless {body : State → ℕ → Option State} (h : KeepsNodes body) :
    KeepsNodes fun s v => if s.visited v = false then body s v else some s := by
  intro s v s' hs
  simp only at hs
  split at hs
  · exact h s v s' hs
  · cases hs
    rfl

theorem dfsAux_keepsNodes (depth : ℕ) : KeepsNodes (dfsAux depth) := by
  induction depth with
  | zero =>
    intro s v s' h
    cases h
  | succ depth ih =>
    intro s v s' h
    rw [dfsAux] at h
    obtain ⟨t, ht, h⟩ := Option.bind_eq_some_iff.mp h
    cases h
    have hnodes := forNeighbors_nodes ih.unless ht
    exact hnodes

theorem ofLog_enter (hvalue : s.memory.value v = v) (l : Log ℕ) :
    ((ofLog s l).printEntered v).mark v = ofLog s (l.enter v) := by
  simp [ofLog, State.printEntered, State.mark, Memory.setVisited, Log.enter, hvalue]

theorem ofLog_exit (hvalue : s.memory.value v = v) (l : Log ℕ) :
    (ofLog s l).printExited v = ofLog s (l.exit v) := by
  simp [ofLog, State.printExited, Log.exit, hvalue]

/-- The caller asks whether the vertex was visited. -/
theorem dfsAux_of_visit (hs : Built vertices children s.memory)
    (hclosed : ∀ v < vertices, ∀ w ∈ children v, w < vertices) (hv : v < vertices)
    (hnew : l.visited v = false) (h : visit children depth v l = some l') :
    dfsAux depth (ofLog s l) v = some (ofLog s l') := by
  induction depth generalizing v l l' with
  | zero =>
    rw [visit, hnew] at h
    cases h
  | succ depth ih =>
    rw [visit, hnew] at h
    obtain ⟨t, ht, h⟩ := Option.bind_eq_some_iff.mp h
    cases h
    have hloop : (children v).foldlM (fun s neighbor =>
        if s.visited neighbor = false then dfsAux depth s neighbor else some s)
        (ofLog s (l.enter v)) = some (ofLog s t) := by
      refine foldlM_of_some (fun w hw u u' hu => ?_) ht
      split
      case isTrue hfalse => exact ih (hclosed v hv w hw) hfalse hu
      case isFalse hvisited =>
        rw [visit_visited children depth (Bool.eq_true_of_not_eq_false hvisited)] at hu
        cases hu
        rfl
    have hvalue := hs.value v hv
    have hfor := hs.forNeighbors (s := ofLog s (l.enter v)) rfl hv (dfsAux_keepsNodes depth).unless
    rw [dfsAux, ofLog_enter hvalue, hfor, hloop, ← ofLog_exit hvalue]
    rfl

/-- Each vertex is entered and exited once. -/
theorem dfs_correct (hs : Built vertices children s.memory)
    (hclosed : ∀ v < vertices, ∀ w ∈ children v, w < vertices) (hmax : vertices ≤ MAX_VERTICES)
    (hprinted : s.printed = []) :
    ∃ s', dfs s = some s' ∧ Nested s'.printed ∧
      List.Perm (entered s'.printed) (List.range vertices) ∧
      List.Perm (exited s'.printed) (List.range vertices) := by
  have hnodes : ∀ v ∈ Finset.range vertices, ∀ w ∈ children v, w ∈ Finset.range vertices :=
    fun v hv w hw => Finset.mem_range.mpr (hclosed v (Finset.mem_range.mp hv) w hw)
  let l : Log ℕ := ⟨fun v => if v < vertices then false else s.memory.visited v, []⟩
  have hstart : { s with memory := prepareTraversal s.memory } = ofLog s l := by
    simp [prepareTraversal_eq, hs.size, ofLog, hprinted, l]
  have hcard (l : Log ℕ) : (unvisited (Finset.range vertices) l).card ≤ MAX_VERTICES := by
    refine (Finset.card_filter_le _ _).trans ?_
    rwa [Finset.card_range]
  have hvisit : ∀ v ∈ List.range vertices, ∀ l,
      (unvisited (Finset.range vertices) l).card ≤ MAX_VERTICES →
      ∃ events l', visit children MAX_VERTICES v l = some l' ∧ Visits children [v] l events l' :=
    fun v hv l => visit_spec hnodes (Finset.mem_range.mpr (List.mem_range.mp hv))
  obtain ⟨events, l', hfold, hvisits⟩ :=
    foldlM_visits hvisit (hcard l)
  refine ⟨ofLog s l', ?_, ?_⟩
  · rw [dfs, forVertices, hstart, hs.size]
    refine foldlM_of_some (fun v hv u u' hu => ?_) hfold
    split
    case isTrue hfalse => exact dfsAux_of_visit hs hclosed (List.mem_range.mp hv) hfalse hu
    case isFalse hvisited =>
      rw [visit_visited children _ (Bool.eq_true_of_not_eq_false hvisited)] at hu
      cases hu
      rfl
  · have hevents : (ofLog s l').printed = events := hvisits.logged
    have hmem (v : ℕ) : v ∈ entered events ↔ v ∈ List.range vertices := by
      constructor
      · intro hv
        obtain ⟨u, hu, hreach⟩ := hvisits.reached v hv
        clear hv
        induction hreach with
        | refl => exact hu
        | tail _ hedge ih => exact List.mem_range.mpr (hclosed _ (List.mem_range.mp ih) _ hedge)
      · intro hv
        have hvisited := (hvisits.visited v).mp (hvisits.all v hv)
        simpa [l, List.mem_range.mp hv] using hvisited
    have hperm : List.Perm (entered events) (List.range vertices) :=
      (List.perm_ext_iff_of_nodup hvisits.nodup List.nodup_range).mpr hmem
    rw [hevents]
    exact ⟨hvisits.nested, hperm, hvisits.nested.perm.trans hperm⟩

end InterviewQuestions.AdjacencyList
