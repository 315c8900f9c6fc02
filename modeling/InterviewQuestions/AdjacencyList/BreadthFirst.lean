import InterviewQuestions.AdjacencyList.Lists
import InterviewQuestions.Library.BreadthFirst
import InterviewQuestions.Library.Ring

/-! The queue of `bfs`, and its vertices level by level. -/
namespace InterviewQuestions.AdjacencyList

open Library Traversal
open BreadthFirst (Search Sound Progress Finished NoFurther)

variable {v w : ℕ} {s s' : State} {vertices fuel : ℕ} {children : ℕ → List ℕ}
  {edges : List (ℕ × ℕ)} {m m₀ : Memory} {q : Queue} {xs : List ℕ} {before : ℕ → Bool}
  {a a' : Search ℕ} {printed : List (Event ℕ)}

/-! ## The queue -/

structure Queue.Holds (q : Queue) (xs : List ℕ) : Prop where
  elemCount : q.elemCount = xs.length
  head : q.head < QUEUE_CAPACITY
  tail : q.tail = (q.head + xs.length) % MAX_VERTICES
  cells : Ring.Holds QUEUE_CAPACITY q.bfsQueue q.head xs

theorem enqueue_spec (h : s.queue.Holds xs) (hroom : xs.length < QUEUE_CAPACITY) (v : ℕ) :
    ∃ q, enqueue s v = some { s with queue := q } ∧ q.Holds (xs ++ [v]) := by
  refine ⟨_, if_pos (by rw [h.elemCount]; exact hroom), ?_⟩
  constructor
  · simp [h.elemCount]
  · exact h.head
  · simp only [h.tail, List.length_append, List.length_singleton, Nat.mod_add_mod, Nat.add_assoc]
  · simp only [h.tail]
    exact h.cells.push hroom v

theorem dequeue_spec (h : s.queue.Holds (v :: xs)) :
    ∃ q, dequeue s = some (v, { s with queue := q }) ∧ q.Holds xs := by
  have hpos : 0 < s.queue.elemCount := by
    rw [h.elemCount]
    exact Nat.succ_pos _
  refine ⟨{ s.queue with
    elemCount := s.queue.elemCount - 1
    head := (s.queue.head + 1) % MAX_VERTICES }, ?_, ?_⟩
  · simp only [dequeue, if_pos hpos, h.cells.head h.head]
  · constructor
    · simp [h.elemCount]
    · exact Nat.mod_lt _ (Nat.succ_pos _)
    · simp only [h.tail, List.length_cons, Nat.mod_add_mod]
      congr 1
      omega
    · exact h.cells.pop

theorem isQueueEmpty_iff (h : s.queue.Holds xs) : isQueueEmpty s = true ↔ xs = [] := by
  rw [isQueueEmpty, decide_eq_true_iff, h.elemCount, List.length_eq_zero_iff]

/-! ## The search -/

/-- The state is that of a search which began with `printed`. -/
structure Simulates (m : Memory) (printed : List (Event ℕ)) (s : State) (a : Search ℕ) : Prop where
  memory : s.memory = { m with visited := a.visited }
  queue : s.queue.Holds a.queue
  printed : ∃ events, s.printed = printed ++ events ∧ entered events = a.entered

/-- What `bfs_aux` does with a neighbour. -/
def enqueueUnvisited (s : State) (v : ℕ) : Option State :=
  if s.visited v = false then enqueue (s.mark v) v else some s

theorem enqueueUnvisited_keepsNodes : KeepsNodes enqueueUnvisited := by
  intro s v s' h
  rw [enqueueUnvisited] at h
  split at h
  · rw [enqueue] at h
    split at h
    · cases h
      rfl
    · cases h
  · cases h
    rfl

theorem Simulates.find (h : Simulates m printed s a)
    (hsound : Sound (Finset.range vertices) before a) (hmax : vertices ≤ MAX_VERTICES)
    (hv : v < vertices) :
    ∃ s', enqueueUnvisited s v = some s' ∧ Simulates m printed s' (BreadthFirst.find a v) := by
  have hvisited : s.visited v = a.visited v := by rw [State.visited, h.memory]
  rw [enqueueUnvisited, hvisited]
  by_cases hv' : a.visited v = true
  · rw [hv', BreadthFirst.find_visited hv']
    exact ⟨s, rfl, h⟩
  · have hnew : a.visited v = false := Bool.eq_false_iff.mpr hv'
    have hroom := hsound.room (Finset.mem_range.mpr hv) hnew
    rw [Search.found, List.length_append, Finset.card_range] at hroom
    obtain ⟨q, henqueue, hq⟩ := enqueue_spec (s := s.mark v) h.queue
      (by unfold QUEUE_CAPACITY; omega) v
    rw [if_pos hnew, henqueue, BreadthFirst.find_new hnew]
    refine ⟨_, rfl, ?_, hq, h.printed⟩
    simp only [State.mark, Memory.setVisited, h.memory]

theorem Simulates.foldlM (h : Simulates m printed s a)
    (hsound : Sound (Finset.range vertices) before a) (hmax : vertices ≤ MAX_VERTICES)
    (hxs : ∀ v ∈ xs, v < vertices) :
    ∃ s', xs.foldlM enqueueUnvisited s = some s' ∧
      Simulates m printed s' (xs.foldl BreadthFirst.find a) := by
  induction xs generalizing s a with
  | nil => exact ⟨s, rfl, h⟩
  | cons v xs ih =>
    rw [List.forall_mem_cons] at hxs
    obtain ⟨t, ht, hsim⟩ := h.find hsound hmax hxs.1
    obtain ⟨s', hs', hsim'⟩ := ih hsim (hsound.find (Finset.mem_range.mpr hxs.1)) hxs.2
    refine ⟨s', ?_, hsim'⟩
    rw [List.foldlM_cons, ht]
    exact hs'

theorem Simulates.enter (h : Simulates m printed s a) {rest : List ℕ} (hqueue : q.Holds rest)
    (hvalue : m.value v = v) :
    Simulates m printed (({ s with queue := q } : State).printEntered v)
      (BreadthFirst.take a v rest) := by
  obtain ⟨events, hprinted, hentered⟩ := h.printed
  refine ⟨h.memory, hqueue, events ++ [.entered v], ?_, ?_⟩
  · simp [State.printEntered, hprinted, h.memory, hvalue]
  · rw [entered_append, hentered]
    rfl

theorem Simulates.exit (h : Simulates m printed s a) (hvalue : m.value v = v) :
    Simulates m printed (s.printExited v) a := by
  obtain ⟨events, hprinted, hentered⟩ := h.printed
  refine ⟨h.memory, h.queue, events ++ [.exited v], ?_, ?_⟩
  · simp [State.printExited, hprinted, h.memory, hvalue]
  · rw [entered_append, hentered]
    exact List.append_nil _

/-- The loop, by induction on the search, which takes the same vertices from its queue. -/
theorem bfsLoop_of_search (hm : Built vertices children m)
    (hclosed : ∀ v < vertices, ∀ w ∈ children v, w < vertices) (hmax : vertices ≤ MAX_VERTICES)
    (h : Simulates m printed s a) (hsound : Sound (Finset.range vertices) before a)
    (hsearch : BreadthFirst.search children fuel a = some a') :
    ∃ s', bfsLoop fuel s = some s' ∧ Simulates m printed s' a' := by
  induction fuel generalizing s a with
  | zero => cases hsearch
  | succ fuel ih =>
    rw [BreadthFirst.search] at hsearch
    rw [bfsLoop]
    cases hq : a.queue with
    | nil =>
      rw [if_pos hq] at hsearch
      cases hsearch
      rw [if_pos ((isQueueEmpty_iff h.queue).mpr hq)]
      exact ⟨s, rfl, h⟩
    | cons v rest =>
      have hne : a.queue ≠ [] := hq ▸ List.cons_ne_nil v rest
      rw [if_neg hne, BreadthFirst.advance_cons hq] at hsearch
      rw [if_neg fun hempty => hne ((isQueueEmpty_iff h.queue).mp hempty)]
      have hv : v < vertices := Finset.mem_range.mp
        (hsound.known v (List.mem_append_right _ (hq ▸ List.mem_cons_self)))
      have hqueue := h.queue
      rw [hq] at hqueue
      obtain ⟨q, hdequeue, hqueue'⟩ := dequeue_spec hqueue
      have htake := h.enter hqueue' (hm.value v hv)
      have hsound' := hsound.take hq
      have hchildren := hclosed v hv
      obtain ⟨t, ht, hsim⟩ := htake.foldlM hsound' hmax hchildren
      have hsound'' := hsound'.foldl_find fun c hc => Finset.mem_range.mpr (hchildren c hc)
      obtain ⟨s', hs', hsim'⟩ := ih (hsim.exit (hm.value v hv)) hsound'' hsearch
      refine ⟨s', ?_, hsim'⟩
      have hnodes : (({ s with queue := q } : State).printEntered v).memory.nodes = m.nodes := by
        rw [htake.memory]
      have hfor := hm.forNeighbors hnodes hv enqueueUnvisited_keepsNodes
      rw [ht] at hfor
      rw [hdequeue]
      change (forNeighbors v enqueueUnvisited _ >>= fun t => bfsLoop fuel (t.printExited v)) = _
      rw [hfor]
      exact hs'

/-! ## All calls -/

/-- What a call of `bfs_aux` does, apart from the order of the vertices. -/
structure Call (m : Memory) (vertices : ℕ) (s : State) (v : ℕ) (events : List (Event ℕ))
    (s' : State) : Prop where
  memory : s'.memory = { m with visited := s'.memory.visited }
  queue : s'.queue.Holds []
  printed : s'.printed = s.printed ++ events
  nodup : (entered events).Nodup
  fresh : ∀ w ∈ entered events, w < vertices ∧ s.visited w = false
  visited : ∀ w, s'.visited w = true ↔ s.visited w = true ∨ w ∈ entered events
  first : v ∈ entered events

theorem Simulates.start (hs : s.memory = { m with visited := s.memory.visited })
    (hq : q.Holds [v]) (hnew : s.visited v = false) :
    Simulates m s.printed (({ s with queue := q } : State).mark v)
      (BreadthFirst.find ⟨s.memory.visited, [], []⟩ v) := by
  have hnew' : (⟨s.memory.visited, [], []⟩ : Search ℕ).visited v = false := hnew
  rw [BreadthFirst.find_new hnew']
  refine ⟨?_, hq, [], (List.append_nil _).symm, rfl⟩
  simp only [State.mark, Memory.setVisited]
  rw [hs]

/-- The search has come to its end. -/
theorem Simulates.call (h : Simulates m s.printed s' a)
    (hfin : Finished children (Finset.range vertices) s.memory.visited v a) :
    ∃ events, Call m vertices s v events s' ∧
      (entered events).Pairwise (NoFurther children s.memory.visited v) := by
  obtain ⟨events, hprinted, hentered⟩ := h.printed
  have hfound : a.found = entered events := by
    rw [Search.found, hfin.empty, List.append_nil, hentered]
  have hvisited : s'.memory.visited = a.visited := by rw [h.memory]
  refine ⟨events, ?_, hentered ▸ hfin.order⟩
  constructor
  case memory =>
    rw [hvisited]
    exact h.memory
  case queue =>
    rw [← hfin.empty]
    exact h.queue
  case printed => exact hprinted
  case nodup =>
    rw [← hfound]
    exact hfin.sound.nodup
  case fresh =>
    intro w hw
    rw [← hfound] at hw
    exact ⟨Finset.mem_range.mp (hfin.sound.known w hw), hfin.sound.fresh w hw⟩
  case visited =>
    intro w
    rw [State.visited, hvisited, ← hfound]
    exact hfin.sound.visited w
  case first =>
    rw [hentered]
    exact hfin.first

theorem bfsAux_spec (hm : Built vertices children m)
    (hclosed : ∀ v < vertices, ∀ w ∈ children v, w < vertices) (hmax : vertices ≤ MAX_VERTICES)
    (hs : s.memory = { m with visited := s.memory.visited }) (hq : s.queue.Holds [])
    (hv : v < vertices) (hnew : s.visited v = false) :
    ∃ s' events, bfsAux s v = some s' ∧ Call m vertices s v events s' ∧
      (entered events).Pairwise (NoFurther children s.memory.visited v) := by
  have hmem : v ∈ Finset.range vertices := Finset.mem_range.mpr hv
  have hstart := BreadthFirst.progress_start children hmem hnew
  have hnodes : ∀ v ∈ Finset.range vertices, ∀ w ∈ children v, w ∈ Finset.range vertices :=
    fun v hv w hw => Finset.mem_range.mpr (hclosed v (Finset.mem_range.mp hv) w hw)
  have hfuel : (Finset.range vertices).card <
      (BreadthFirst.find ⟨s.memory.visited, [], []⟩ v).entered.length + (MAX_VERTICES + 1) := by
    rw [Finset.card_range]
    unfold MAX_VERTICES at *
    omega
  obtain ⟨a, hsearch, hfin⟩ := BreadthFirst.search_finished hnodes hstart hfuel
  obtain ⟨q, henqueue, hq'⟩ := enqueue_spec hq (Nat.succ_pos _) v
  have hsim := Simulates.start hs hq' hnew
  obtain ⟨s', hloop, hsim'⟩ := bfsLoop_of_search hm hclosed hmax hsim hstart.sound hsearch
  obtain ⟨events, hcall, horder⟩ := hsim'.call hfin
  refine ⟨s', events, ?_, hcall, horder⟩
  rw [bfsAux, henqueue]
  exact hloop

/-- What holds after the calls for the vertices below `bound`. -/
structure UpTo (m : Memory) (vertices bound : ℕ) (s : State) : Prop where
  memory : s.memory = { m with visited := s.memory.visited }
  queue : s.queue.Holds []
  nodup : (entered s.printed).Nodup
  known : ∀ w ∈ entered s.printed, w < vertices
  visited : ∀ w < vertices, s.visited w = true ↔ w ∈ entered s.printed
  all : ∀ w < bound, s.visited w = true

theorem forVertices_succ (aux : State → ℕ → Option State) (bound : ℕ) (s : State) :
    forVertices aux (bound + 1) s =
      (forVertices aux bound s).bind fun t =>
        if t.visited bound = false then aux t bound else some t := by
  simp [forVertices, List.range_succ, List.foldlM_append]

theorem upTo_zero (hm : Built vertices children m)
    (hs : s.memory = { m with visited := s.memory.visited }) (hq : s.queue.Holds [])
    (hprinted : s.printed = []) :
    UpTo m vertices 0 { s with memory := prepareTraversal s.memory } := by
  have hprepare : prepareTraversal s.memory =
      { m with visited := (prepareTraversal s.memory).visited } := by
    rw [prepareTraversal_eq, hs]
  refine ⟨hprepare, hq, ?_, ?_, ?_, fun w hw => absurd hw (Nat.not_lt_zero w)⟩
  · rw [hprinted]
    exact List.nodup_nil
  · rw [hprinted]
    intro w hw
    cases hw
  · intro w hw
    have hsize : s.memory.verticesSz = vertices := by
      rw [hs]
      exact hm.size
    simp [State.visited, prepareTraversal_eq, hsize, hw, hprinted, entered]

theorem UpTo.call {bound : ℕ} {events : List (Event ℕ)} (h : UpTo m vertices bound s)
    (hcall : Call m vertices s bound events s') : UpTo m vertices (bound + 1) s' := by
  refine ⟨hcall.memory, hcall.queue, ?_, fun w hw => ?_, fun w hw => ?_, fun w hw => ?_⟩
  · rw [hcall.printed, entered_append]
    refine List.nodup_append.mpr ⟨h.nodup, hcall.nodup, fun v hv w hw heq => ?_⟩
    have hfresh := hcall.fresh w hw
    rw [heq, ← h.visited w hfresh.1, hfresh.2] at hv
    cases hv
  · rw [hcall.printed, entered_append] at hw
    rcases List.mem_append.mp hw with hw | hw
    · exact h.known w hw
    · exact (hcall.fresh w hw).1
  · rw [hcall.visited, h.visited w hw, hcall.printed, entered_append, List.mem_append]
  · rw [hcall.visited]
    by_cases hlast : w = bound
    · exact .inr (hlast ▸ hcall.first)
    · exact .inl (h.all w (by omega))

theorem UpTo.skip {bound : ℕ} (h : UpTo m vertices bound s) (hold : s.visited bound = true) :
    UpTo m vertices (bound + 1) s := by
  refine { h with all := fun w hw => ?_ }
  by_cases hlast : w = bound
  · rwa [hlast]
  · exact h.all w (by omega)

theorem forVertices_bfsAux (hm : Built vertices children m)
    (hclosed : ∀ v < vertices, ∀ w ∈ children v, w < vertices) (hmax : vertices ≤ MAX_VERTICES)
    (hs : s.memory = { m with visited := s.memory.visited }) (hq : s.queue.Holds [])
    (hprinted : s.printed = []) {bound : ℕ} (hbound : bound ≤ vertices) :
    ∃ t, forVertices bfsAux bound s = some t ∧ UpTo m vertices bound t := by
  induction bound with
  | zero => exact ⟨_, rfl, upTo_zero hm hs hq hprinted⟩
  | succ bound ih =>
    obtain ⟨t, ht, hup⟩ := ih (Nat.le_of_succ_le hbound)
    rw [forVertices_succ, ht, Option.bind_some]
    by_cases hnew : t.visited bound = false
    · obtain ⟨t', events, haux, hcall, -⟩ :=
        bfsAux_spec hm hclosed hmax hup.memory hup.queue hbound hnew
      rw [if_pos hnew]
      exact ⟨t', haux, hup.call hcall⟩
    · rw [if_neg hnew]
      exact ⟨t, rfl, hup.skip (Bool.eq_true_of_not_eq_false hnew)⟩

theorem UpTo.perm (h : UpTo m vertices vertices s) :
    List.Perm (entered s.printed) (List.range vertices) := by
  refine (List.perm_ext_iff_of_nodup h.nodup List.nodup_range).mpr fun w => ?_
  rw [List.mem_range]
  exact ⟨h.known w, fun hw => (h.visited w hw).mp (h.all w hw)⟩

/-- In a graph with these edges each vertex is entered once, by `dfs` in nested calls, and by `bfs`
in the order of the distances through vertices that were not visited before the call. -/
theorem traversals_correct (hpos : 0 < vertices) (hmax : vertices ≤ MAX_VERTICES)
    (hedges : ∀ edge ∈ edges, edge.1 < vertices ∧ edge.2 < vertices)
    (hstore : m₀.nextAlloc + edges.length ≤ MAX_LIST_NODES) :
    ∃ m, build vertices edges m₀ = some m ∧
      ∀ s : State, s.memory = { m with visited := s.memory.visited } → s.queue.Holds [] →
        s.printed = [] →
      (∃ s', dfs s = some s' ∧ Nested s'.printed ∧
        List.Perm (entered s'.printed) (List.range vertices) ∧
        List.Perm (exited s'.printed) (List.range vertices)) ∧
      (∃ s', bfs s = some s' ∧ List.Perm (entered s'.printed) (List.range vertices)) ∧
      ∀ v < vertices, ∃ t, forVertices bfsAux v s = some t ∧
        (t.visited v = false → ∃ t' events, bfsAux t v = some t' ∧
          t'.printed = t.printed ++ events ∧
          (entered events).Pairwise (NoFurther (adjacency edges) t.memory.visited v)) := by
  obtain ⟨m, hbuild, hm⟩ := build_built hpos hmax hedges hstore
  have hclosed : ∀ v < vertices, ∀ w ∈ adjacency edges v, w < vertices :=
    fun v _ w hw => (hedges _ (mem_adjacency.mp hw)).2
  refine ⟨m, hbuild, fun s hs hq hprinted => ⟨?_, ?_, fun v hv => ?_⟩⟩
  · have hms : Built vertices (adjacency edges) s.memory := by
      rw [hs]
      exact ⟨hm.size, hm.value, hm.lists, hm.length, hm.store⟩
    exact dfs_correct hms hclosed hmax hprinted
  · obtain ⟨s', hrun, hup⟩ := forVertices_bfsAux hm hclosed hmax hs hq hprinted (le_refl vertices)
    have hsize : s.memory.verticesSz = vertices := by rw [hs]; exact hm.size
    refine ⟨s', ?_, hup.perm⟩
    rw [bfs, hsize]
    exact hrun
  · obtain ⟨t, hrun, hup⟩ := forVertices_bfsAux hm hclosed hmax hs hq hprinted hv.le
    refine ⟨t, hrun, fun hnew => ?_⟩
    obtain ⟨t', events, haux, hcall, horder⟩ :=
      bfsAux_spec hm hclosed hmax hup.memory hup.queue hv hnew
    exact ⟨t', events, haux, hcall.printed, horder⟩

/-- Memory that nothing has been written to. -/
def blank : Memory := ⟨fun _ => ⟨none, .store 0⟩, 0, fun _ => 0, fun _ => false, 0⟩

def idle : Queue := ⟨fun _ => 0, 0, 0, 0⟩

theorem idle_holds : idle.Holds [] := ⟨rfl, by decide, rfl, Ring.holds_nil⟩

theorem traversals_correct_loops :
    ∃ m, build 2 [(0, 0), (0, 1), (1, 0), (0, 1)] blank = some m ∧
      (∃ s', dfs ⟨m, idle, []⟩ = some s' ∧ Nested s'.printed ∧
        List.Perm (entered s'.printed) (List.range 2) ∧
        List.Perm (exited s'.printed) (List.range 2)) ∧
      (∃ s', bfs ⟨m, idle, []⟩ = some s' ∧ List.Perm (entered s'.printed) (List.range 2)) := by
  have hedges : ∀ edge ∈ [(0, 0), (0, 1), (1, 0), (0, 1)], edge.1 < 2 ∧ edge.2 < 2 := by decide
  have hstore : blank.nextAlloc + [(0, 0), (0, 1), (1, 0), (0, 1)].length ≤ MAX_LIST_NODES := by
    decide
  obtain ⟨m, hbuild, hall⟩ := traversals_correct (by decide) (by decide) hedges hstore
  obtain ⟨hdfs, hbfs, -⟩ := hall ⟨m, idle, []⟩ rfl idle_holds rfl
  exact ⟨m, hbuild, hdfs, hbfs⟩

end InterviewQuestions.AdjacencyList
