import InterviewQuestions.Library.DepthFirst
import InterviewQuestions.Library.LinearExtension
import InterviewQuestions.Library.OrderedSet
import Mathlib.Data.Int.Order.Basic
import Mathlib.Data.List.Chain

/-! `trees_graphs/sort_attempt`. A pointer to a node is the `id` of the node. -/
namespace InterviewQuestions.SortAttempt

open Library

/-- The order of the keys of the maps. -/
def idLess (a b : ℤ) : Bool := decide (a < b)

theorem mem_insert {id x : ℤ} {ids : List ℤ} :
    id ∈ OrderedSet.insert idLess x ids ↔ id = x ∨ id ∈ ids :=
  OrderedSet.mem_insert (fun _ _ => decide_eq_true_iff) fun _ _ heq => heq

/-- `nodes` in the order of the map, and `children` of each. -/
structure Graph where
  nodes : List ℤ
  children : ℤ → List ℤ
  closed : ∀ id ∈ nodes, ∀ child ∈ children id, child ∈ nodes

namespace Graph

def empty : Graph := ⟨[], fun _ => [], fun _ h => absurd h List.not_mem_nil⟩

def addNode (graph : Graph) (id : ℤ) : Graph where
  nodes := OrderedSet.insert idLess id graph.nodes
  children := Function.update graph.children id []
  closed := by
    intro node hnode child hchild
    by_cases heq : node = id
    · rw [heq, Function.update_self] at hchild
      cases hchild
    · rw [Function.update_of_ne heq] at hchild
      exact mem_insert.mpr (.inr (graph.closed node ((mem_insert.mp hnode).resolve_left heq) child
        hchild))

/-- There is no result where an assertion fails. -/
def addEdge (graph : Graph) (src dst : ℤ) : Option Graph :=
  if h : src ∈ graph.nodes ∧ dst ∈ graph.nodes then
    some
      { nodes := graph.nodes
        children := Function.update graph.children src
          (OrderedSet.insert idLess dst (graph.children src))
        closed := by
          intro node hnode child hchild
          by_cases heq : node = src
          · rw [heq, Function.update_self] at hchild
            rcases mem_insert.mp hchild with rfl | hold
            · exact h.2
            · exact graph.closed src h.1 child hold
          · rw [Function.update_of_ne heq] at hchild
            exact graph.closed node hnode child hchild }
  else none

end Graph

/-! ## `no_cycles` -/

structure Flags where
  visited : ℤ → Bool
  onStack : ℤ → Bool

def cycleDetectSearch : DepthFirst.Search ℤ Flags where
  enter node s :=
    if s.onStack node then .inl false
    else if s.visited node then .inl true
    else .inr
      { visited := Function.update s.visited node true
        onStack := Function.update s.onStack node true }
  leave node s := (true, { s with onStack := Function.update s.onStack node false })

def cycleDetect (graph : Graph) : ℕ → ℤ → Flags → Option (Bool × Flags) :=
  DepthFirst.visit cycleDetectSearch graph.children

/-- There is no result where the search is deeper than `depth`. -/
def noCycles (depth : ℕ) (graph : Graph) : Option Bool :=
  (DepthFirst.each (cycleDetect graph depth) graph.nodes
    ⟨fun _ => false, fun _ => false⟩).map Prod.fst

/-! ## `unique_topsort` -/

structure Topsort where
  visited : ℤ → Bool
  topsortLast : Option ℤ

def topsortSearch (graph : Graph) : DepthFirst.Search ℤ Topsort where
  enter node s :=
    if s.visited node then .inl true
    else .inr { s with visited := Function.update s.visited node true }
  leave node s :=
    if s.topsortLast.any fun last => last ∉ graph.children node then (false, s)
    else (true, { s with topsortLast := some node })

def topsortInternal (graph : Graph) : ℕ → ℤ → Topsort → Option (Bool × Topsort) :=
  DepthFirst.visit (topsortSearch graph) graph.children

def uniqueTopsort (depth : ℕ) (graph : Graph) : Option Bool :=
  (DepthFirst.each (topsortInternal graph depth) graph.nodes ⟨fun _ => false, none⟩).map Prod.fst

/-! ## `is_sortable` -/

def isSortable (depth : ℕ) (graph : Graph) : Option Bool := do
  if ← noCycles depth graph then uniqueTopsort depth graph else return false

/-- What `main` makes of the elements and the relations. -/
def build (elements : List ℤ) (relations : List (ℤ × ℤ)) : Option Graph :=
  relations.foldlM (fun graph (left, right) => graph.addEdge left right)
    (elements.foldl Graph.addNode .empty)

/-! The list is sortable exactly if there is one and only one order. -/

open Library DepthFirst LinearExtension

variable {elements : List ℤ} {relations : List (ℤ × ℤ)} {graph : Graph} {depth : ℕ}

/-! ## The graph -/

structure Describes (elements : List ℤ) (relations : List (ℤ × ℤ)) (graph : Graph) : Prop where
  nodes : ∀ id, id ∈ graph.nodes ↔ id ∈ elements
  children : ∀ src dst, dst ∈ graph.children src ↔ (src, dst) ∈ relations

theorem Describes.addNode (h : Describes elements [] graph) (id : ℤ) :
    Describes (elements ++ [id]) [] (graph.addNode id) where
  nodes node := by
    change node ∈ OrderedSet.insert idLess id graph.nodes ↔ _
    rw [mem_insert, h.nodes, List.mem_append, List.mem_singleton, or_comm]
  children src dst := by
    change dst ∈ Function.update graph.children id [] src ↔ _
    by_cases heq : src = id
    · rw [heq, Function.update_self]
      simp
    · rw [Function.update_of_ne heq, h.children]

theorem Describes.addNodes (h : Describes elements [] graph) (rest : List ℤ) :
    Describes (elements ++ rest) [] (rest.foldl Graph.addNode graph) := by
  induction rest generalizing elements graph with
  | nil =>
    rw [List.append_nil]
    exact h
  | cons id rest ih =>
    have hstep := ih (h.addNode id)
    rwa [List.append_assoc, List.singleton_append] at hstep

theorem Describes.addEdge (h : Describes elements relations graph) {src dst : ℤ}
    (hsrc : src ∈ elements) (hdst : dst ∈ elements) :
    ∃ graph', graph.addEdge src dst = some graph' ∧
      Describes elements (relations ++ [(src, dst)]) graph' := by
  unfold Graph.addEdge
  rw [dif_pos ⟨(h.nodes src).mpr hsrc, (h.nodes dst).mpr hdst⟩]
  refine ⟨_, rfl, h.nodes, fun node child => ?_⟩
  change child ∈ Function.update graph.children src
    (OrderedSet.insert idLess dst (graph.children src)) node ↔ _
  rw [List.mem_append, List.mem_singleton, Prod.mk.injEq]
  by_cases heq : node = src
  · rw [heq, Function.update_self, mem_insert, h.children, or_comm]
    simp
  · rw [Function.update_of_ne heq, h.children]
    simp [heq]

theorem Describes.addEdges (h : Describes elements relations graph) {rest : List (ℤ × ℤ)}
    (hbetween : ∀ relation ∈ rest, relation.1 ∈ elements ∧ relation.2 ∈ elements) :
    ∃ graph', rest.foldlM (fun graph relation => graph.addEdge relation.1 relation.2) graph =
      some graph' ∧ Describes elements (relations ++ rest) graph' := by
  induction rest generalizing relations graph with
  | nil =>
    refine ⟨graph, rfl, ?_⟩
    rw [List.append_nil]
    exact h
  | cons relation rest ih =>
    obtain ⟨hsrc, hdst⟩ := hbetween relation List.mem_cons_self
    obtain ⟨next, hnext, hdescribes⟩ := h.addEdge hsrc hdst
    obtain ⟨graph', hgraph', hdescribes'⟩ :=
      ih hdescribes fun relation hmem => hbetween relation (List.mem_cons_of_mem _ hmem)
    refine ⟨graph', ?_, ?_⟩
    · rw [List.foldlM_cons, hnext]
      exact hgraph'
    · rwa [List.append_assoc, List.singleton_append] at hdescribes'

theorem build_spec
    (hbetween : ∀ relation ∈ relations, relation.1 ∈ elements ∧ relation.2 ∈ elements) :
    ∃ graph, build elements relations = some graph ∧ Describes elements relations graph := by
  have hempty : Describes [] [] Graph.empty := ⟨fun _ => Iff.rfl, fun _ _ => by simp [Graph.empty]⟩
  exact (hempty.addNodes elements).addEdges hbetween

/-! ## `no_cycles` -/

def Flags.ofMarks (s : Marks ℤ) : Flags := ⟨s.visited, s.onStack⟩

theorem cycleDetect_ofMarks (graph : Graph) (depth : ℕ) (node : ℤ) (s : Marks ℤ) :
    cycleDetect graph depth node (.ofMarks s) =
      (visit cycleSearch graph.children depth node s).map (Prod.map id .ofMarks) := by
  refine visit_map Flags.ofMarks (fun node s => ?_) (fun node s => rfl) graph.children depth node s
  unfold cycleDetectSearch cycleSearch
  by_cases honStack : s.onStack node = true
  · simp [Flags.ofMarks, honStack]
  · by_cases hvisited : s.visited node = true
    · simp [Flags.ofMarks, honStack, hvisited]
    · simp [Flags.ofMarks, honStack, hvisited, Marks.enter]

theorem noCycles_eq (graph : Graph) (depth : ℕ) :
    noCycles depth graph =
      (each (visit cycleSearch graph.children depth) graph.nodes (Marks.start ℤ)).map Prod.fst := by
  have hall := each_map Flags.ofMarks (cycleDetect_ofMarks graph depth) graph.nodes (Marks.start ℤ)
  unfold noCycles
  change (each _ graph.nodes (Flags.ofMarks (Marks.start ℤ))).map Prod.fst = _
  rw [hall, Option.map_map]
  rfl

/-! ## `unique_topsort` -/

def Topsort.ofMarks (s : Marks ℤ) : Topsort := ⟨s.visited, s.finished.getLast?⟩

/-- Each node has an edge to the one that was left before it. -/
def Chained (graph : Graph) (finished : List ℤ) : Prop :=
  finished.IsChain fun a b => a ∈ graph.children b

/-- What follows for this search from the other one. -/
def Follows (graph : Graph) (result : Option (Bool × Marks ℤ))
    (result' : Option (Bool × Topsort)) : Prop :=
  ∀ s, result = some (true, s) →
    (Chained graph s.finished → result' = some (true, .ofMarks s)) ∧
    (¬ Chained graph s.finished → ∃ t, result' = some (false, t))

theorem Chained.of_start {finished finished' : List ℤ} (h : Chained graph finished')
    (hstart : finished <+: finished') : Chained graph finished := by
  obtain ⟨rest, rfl⟩ := hstart
  exact h.left_of_append

theorem follows_each {vs : List ℤ} {s : Marks ℤ} (hs : Chained graph s.finished)
    (hvisit : ∀ v s, Chained graph s.finished → Follows graph
      (visit cycleSearch graph.children depth v s) (topsortInternal graph depth v (.ofMarks s))) :
    Follows graph (each (visit cycleSearch graph.children depth) vs s)
      (each (topsortInternal graph depth) vs (.ofMarks s)) := by
  induction vs generalizing s with
  | nil =>
    intro s' hs'
    cases hs'
    exact ⟨fun _ => rfl, fun hnot => absurd hs hnot⟩
  | cons v vs ih =>
    intro s' hs'
    obtain ⟨t, hv, hvs⟩ := each_cons_true.mp hs'
    have hfirst := hvisit v s hs t hv
    have hstart : t.finished <+: s'.finished := each_finished hvs
    by_cases ht : Chained graph t.finished
    · have hrest := ih ht s' hvs
      unfold each
      rw [hfirst.1 ht]
      exact hrest
    · obtain ⟨u, hu⟩ := hfirst.2 ht
      refine ⟨fun hchained => absurd (hchained.of_start hstart) ht, fun _ => ⟨u, ?_⟩⟩
      unfold each
      rw [hu]
      rfl

theorem chained_concat {finished : List ℤ} {v : ℤ} (h : Chained graph finished) :
    Chained graph (finished ++ [v]) ↔ ∀ last ∈ finished.getLast?, last ∈ graph.children v := by
  unfold Chained at h ⊢
  rw [List.isChain_append, and_iff_right h, and_iff_right (List.isChain_singleton v)]
  simp

/-- The check fails where the node and the last one are no neighbours in the graph. -/
theorem any_last_iff {finished : List ℤ} {v : ℤ} (h : Chained graph finished) :
    (finished.getLast?.any fun last => last ∉ graph.children v) = true ↔
      ¬ Chained graph (finished ++ [v]) := by
  rw [chained_concat h]
  cases finished.getLast? with
  | none => simp
  | some last => simp

theorem leave_of_chained {v : ℤ} {t : Marks ℤ} (ht : Chained graph t.finished)
    (hv : Chained graph (t.leave v).finished) :
    (topsortSearch graph).leave v (.ofMarks t) = (true, .ofMarks (t.leave v)) := by
  refine (if_neg fun hany => (any_last_iff ht).mp hany hv).trans ?_
  simp [Topsort.ofMarks, Marks.leave]

theorem leave_of_not_chained {v : ℤ} {t : Marks ℤ} (ht : Chained graph t.finished)
    (hv : ¬ Chained graph (t.leave v).finished) :
    (topsortSearch graph).leave v (.ofMarks t) = (false, .ofMarks t) :=
  if_pos ((any_last_iff ht).mpr hv)

/-- A node that neither search has come to yet, from what follows for its children. -/
theorem follows_enter {v : ℤ} {s : Marks ℤ} (honStack : ¬ s.onStack v = true)
    (hvisited : ¬ s.visited v = true)
    (h : Follows graph
      (each (visit cycleSearch graph.children depth) (graph.children v) (s.enter v))
      (each (topsortInternal graph depth) (graph.children v) (.ofMarks (s.enter v)))) :
    Follows graph (visit cycleSearch graph.children (depth + 1) v s)
      (topsortInternal graph (depth + 1) v (.ofMarks s)) := by
  have henter : cycleSearch.enter v s = .inr (s.enter v) := by
    simp [cycleSearch, honStack, hvisited]
  have henter' : (topsortSearch graph).enter v (.ofMarks s) = .inr (.ofMarks (s.enter v)) :=
    if_neg hvisited
  intro s' hs'
  rw [visit_inr henter] at hs'
  unfold topsortInternal at h ⊢
  rw [visit_inr henter']
  cases hall : each (visit cycleSearch graph.children depth) (graph.children v) (s.enter v) with
  | none =>
    rw [hall] at hs'
    cases hs'
  | some result =>
    obtain ⟨ok, t⟩ := result
    rw [hall] at hs'
    cases ok with
    | false => cases hs'
    | true =>
      cases hs'
      have hchildren := h t hall
      by_cases ht : Chained graph t.finished
      · rw [hchildren.1 ht]
        refine ⟨fun hchained => ?_, fun hnot => ⟨.ofMarks t, ?_⟩⟩
        · exact congrArg some (leave_of_chained ht hchained)
        · exact congrArg some (leave_of_not_chained ht hnot)
      · obtain ⟨u, hu⟩ := hchildren.2 ht
        rw [hu]
        refine ⟨fun hchained => absurd (hchained.of_start ?_) ht, fun _ => ⟨u, rfl⟩⟩
        exact List.prefix_append _ _

theorem topsortInternal_follows (v : ℤ) {s : Marks ℤ} (hs : Chained graph s.finished) :
    Follows graph (visit cycleSearch graph.children depth v s)
      (topsortInternal graph depth v (.ofMarks s)) := by
  induction depth generalizing v s with
  | zero =>
    intro s' hs'
    cases hs'
  | succ depth ih =>
    by_cases honStack : s.onStack v = true
    · intro s' hs'
      have henter : cycleSearch.enter v s = .inl false := by simp [cycleSearch, honStack]
      rw [visit_inl henter] at hs'
      cases hs'
    · by_cases hvisited : s.visited v = true
      · intro s' hs'
        have henter : cycleSearch.enter v s = .inl true := by
          simp [cycleSearch, honStack, hvisited]
        rw [visit_inl henter] at hs'
        cases hs'
        refine ⟨fun _ => ?_, fun hnot => absurd hs hnot⟩
        exact visit_inl (if_pos hvisited) graph.children depth
      · have hchained : Chained graph (s.enter v).finished := hs
        exact follows_enter honStack hvisited (follows_each hchained fun v s => ih v)

/-! ## Orders -/

/-- `b` is known to be greater than `a`. -/
def Below (relations : List (ℤ × ℤ)) (elements : List ℤ) (a b : {id // id ∈ elements}) : Prop :=
  (b.1, a.1) ∈ relations

/-- A cycle among the nodes is one among the elements. -/
theorem Describes.below_cycle (h : Describes elements relations graph)
    (hbetween : ∀ relation ∈ relations, relation.1 ∈ elements ∧ relation.2 ∈ elements) {u v : ℤ}
    (hway : Relation.TransGen (Edge graph.children) u v) :
    ∃ hu hv, Relation.TransGen (Below relations elements) ⟨v, hv⟩ ⟨u, hu⟩ := by
  have hedge {u v : ℤ} (huv : Edge graph.children u v) : (u, v) ∈ relations :=
    (h.children u v).mp huv
  induction hway with
  | single huv =>
    obtain ⟨hu, hv⟩ := hbetween _ (hedge huv)
    exact ⟨hu, hv, .single (hedge huv)⟩
  | tail _ hvw ih =>
    obtain ⟨hu, hv, hway⟩ := ih
    exact ⟨hu, (hbetween _ (hedge hvw)).2, .head (hedge hvw) hway⟩

theorem Describes.arrangement (h : Describes elements relations graph) {finished : List ℤ}
    (harranged : Arranged graph.children finished) {l : List {id // id ∈ elements}}
    (hl : l.map Subtype.val = finished) (hall : ∀ id ∈ elements, id ∈ finished) :
    Arrangement (Below relations elements) l where
  all a := by
    obtain ⟨b, hb, heq⟩ := List.mem_map.mp (hl ▸ hall a.1 a.2)
    exact Subtype.ext heq ▸ hb
  nodup := by
    refine List.Nodup.of_map Subtype.val ?_
    rw [hl]
    exact harranged.nodup
  irrefl a ha := harranged.acyclic (hall a.1 a.2) (.single ((h.children _ _).mpr ha))
  sorted := by
    have hpairwise := harranged.pairwise
    rw [← hl, List.pairwise_map] at hpairwise
    exact hpairwise.imp fun hnot hbelow => hnot ((h.children _ _).mpr hbelow)

theorem Describes.chained_iff (h : Describes elements relations graph)
    {l : List {id // id ∈ elements}} :
    Chained graph (l.map Subtype.val) ↔ l.IsChain (Below relations elements) := by
  unfold Chained
  rw [List.isChain_map]
  exact List.IsChain.iff fun a b => h.children _ _

theorem Describes.noCycles_spec (h : Describes elements relations graph)
    (hdepth : elements.length < depth) :
    ∃ result, each (visit cycleSearch graph.children depth) graph.nodes (Marks.start ℤ) =
      some result ∧
        Outcome elements.toFinset graph.children (Marks.start ℤ) graph.nodes result := by
  refine search_spec (fun src hsrc dst hdst => ?_) (fun id hid => ?_)
    ((List.toFinset_card_le elements).trans_lt hdepth) fun _ _ _ => rfl
  · have hmem := (h.nodes src).mpr (List.mem_toFinset.mp hsrc)
    exact List.mem_toFinset.mpr ((h.nodes dst).mp (graph.closed src hmem dst hdst))
  · exact List.mem_toFinset.mpr ((h.nodes id).mp hid)

/-- Elements may come twice in the list; there is one node for them. -/
theorem is_sortable_iff (elements : List ℤ) (relations : List (ℤ × ℤ))
    (hbetween : ∀ relation ∈ relations, relation.1 ∈ elements ∧ relation.2 ∈ elements) :
    ∃ graph, build elements relations = some graph ∧ ∀ depth > elements.length,
      ∃ sortable, isSortable depth graph = some sortable ∧
        (sortable = true ↔ ∃! less, Extension (Below relations elements) less) := by
  obtain ⟨graph, hbuild, hgraph⟩ := build_spec hbetween
  refine ⟨graph, hbuild, fun depth hdepth => ?_⟩
  obtain ⟨⟨ok, s⟩, hresult, houtcome⟩ := hgraph.noCycles_spec hdepth
  have hnoCycles := noCycles_eq graph depth
  rw [hresult, Option.map_some] at hnoCycles
  unfold isSortable
  rw [hnoCycles]
  cases ok with
  | false =>
    refine ⟨false, rfl, iff_of_false Bool.false_ne_true ?_⟩
    rintro ⟨less, hless, -⟩
    have hcyclic : Cyclic graph.children := houtcome
    obtain ⟨v, hcycle⟩ := hcyclic
    obtain ⟨hv, _, hbelow⟩ := hgraph.below_cycle hbetween hcycle
    exact not_extension_of_cycle hbelow hless
  | true =>
    have hextends : Extends elements.toFinset graph.children (Marks.start ℤ) graph.nodes s :=
      houtcome
    have hknown (id : ℤ) (hid : id ∈ s.finished) : id ∈ elements :=
      List.mem_toFinset.mp (hextends.sound.known id hid)
    obtain ⟨l, hl⟩ : ∃ l : List {id // id ∈ elements}, l.map Subtype.val = s.finished :=
      ⟨s.finished.pmap Subtype.mk hknown, by
        rw [List.map_pmap]
        exact List.pmap_eq_self.mpr fun _ _ => rfl⟩
    have harrangement := hgraph.arrangement hextends.sound.arranged hl fun id hid =>
      hextends.all id ((hgraph.nodes id).mpr hid)
    have hstart : Chained graph (Marks.start ℤ).finished := .nil
    have hfollows := follows_each hstart (fun v s => topsortInternal_follows v) s hresult
    rw [harrangement.existsUnique_iff, ← hgraph.chained_iff, hl]
    by_cases hchained : Chained graph s.finished
    · refine ⟨true, ?_, iff_of_true rfl hchained⟩
      exact congrArg (Option.map Prod.fst) (hfollows.1 hchained)
    · obtain ⟨t, ht⟩ := hfollows.2 hchained
      refine ⟨false, ?_, iff_of_false Bool.false_ne_true hchained⟩
      exact congrArg (Option.map Prod.fst) ht

/-- The list 2 1 3 with all three relations. -/
theorem is_sortable_iff_three :
    (∀ relation ∈ [((3 : ℤ), (1 : ℤ)), (2, 1), (3, 2)],
      relation.1 ∈ [(2 : ℤ), 1, 3] ∧ relation.2 ∈ [(2 : ℤ), 1, 3]) ∧
    ∃ graph, build [2, 1, 3] [(3, 1), (2, 1), (3, 2)] = some graph ∧ ∀ depth > 3,
      ∃ sortable, isSortable depth graph = some sortable ∧
        (sortable = true ↔
          ∃! less, Extension (Below [(3, 1), (2, 1), (3, 2)] [2, 1, 3]) less) := by
  have hbetween : ∀ relation ∈ [((3 : ℤ), (1 : ℤ)), (2, 1), (3, 2)],
      relation.1 ∈ [(2 : ℤ), 1, 3] ∧ relation.2 ∈ [(2 : ℤ), 1, 3] := by decide
  exact ⟨hbetween, is_sortable_iff _ _ hbetween⟩

end InterviewQuestions.SortAttempt
