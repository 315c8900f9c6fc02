import InterviewQuestions.Library.DepthFirst
import InterviewQuestions.Library.OrderedSet
import InterviewQuestions.Library.Scanf
import Mathlib.Data.List.Lex

/-! `trees_graphs/package_dependencies`. A pointer to a node is the name of its package. -/
namespace InterviewQuestions.PackageDependencies

open Library Scanf

abbrev Name := List UInt8

/-- `operator<` of strings, the order of the map. -/
def nameLess : Name → Name → Bool
  | _, [] => false
  | [], _ :: _ => true
  | a :: as, b :: bs => if a < b then true else if b < a then false else nameLess as bs

theorem nameLess_iff (a b : Name) :
    nameLess a b = true ↔ a.map UInt8.toNat < b.map UInt8.toNat := by
  induction a generalizing b with
  | nil =>
    cases b with
    | nil => simp [nameLess]
    | cons b bs => simp [nameLess]
  | cons a as ih =>
    cases b with
    | nil => simp [nameLess]
    | cons b bs =>
      rw [nameLess, List.map_cons, List.map_cons, List.cons_lt_cons_iff, ← UInt8.lt_iff_toNat_lt,
        UInt8.toNat_inj, ← ih]
      split_ifs with hab hba
      · exact iff_of_true rfl (.inl hab)
      · have hne : a ≠ b := (UInt8.ne_of_lt hba).symm
        exact iff_of_false id (not_or.mpr ⟨hab, fun h => hne h.1⟩)
      · have heq : a = b := UInt8.le_antisymm (UInt8.not_lt.mp hba) (UInt8.not_lt.mp hab)
        exact ⟨fun h => .inr ⟨heq, h⟩, fun h => (h.resolve_left hab).2⟩

theorem map_toNat_inj (a b : Name) (h : a.map UInt8.toNat = b.map UInt8.toNat) : a = b :=
  List.map_injective_iff.mpr (fun _ _ => UInt8.toNat.inj) h

/-! ## Parsing -/

/-- The loop, on what is left of the entry. -/
def parseDeps (rest : List UInt8) : List Name :=
  if rest = [] then []
  else
    let word := skipSpace rest
    let dep := word.takeWhile fun b => b ≠ 44 && !isspace b
    let deps := parseDeps (word.drop (dep.length + 1))
    if word = [] then deps else dep :: deps
termination_by rest.length
decreasing_by
  next hrest =>
    have hpos := List.length_pos_of_ne_nil hrest
    have hle := (List.dropWhile_suffix isspace (l := rest)).length_le
    rw [List.length_drop, skipSpace]
    omega

/-- There is no result where the assertion fails. -/
def parseDependency (entry : List UInt8) : Option (Name × List Name) :=
  if 58 ∈ entry then
    let pkgName := entry.takeWhile (· ≠ 58)
    some (pkgName, parseDeps (entry.drop (pkgName.length + 1)))
  else none

/-! ## The graph -/

/-- The packages in the order of the map, and `neighbors` of each. -/
structure Graph where
  packages : List Name
  neighbors : Name → List Name
  closed : ∀ package, ∀ dep ∈ neighbors package, dep ∈ packages

namespace Graph

def empty : Graph := ⟨[], fun _ => [], fun _ _ h => absurd h List.not_mem_nil⟩

theorem mem_insert {name str : Name} {packages : List Name} :
    name ∈ OrderedSet.insert nameLess str packages ↔ name = str ∨ name ∈ packages :=
  OrderedSet.mem_insert nameLess_iff map_toNat_inj

/-- The graph after `get_graph_node`; the node is the one of this name. -/
def getGraphNode (graph : Graph) (str : Name) : Graph :=
  if str ∈ graph.packages then graph
  else
    { packages := OrderedSet.insert nameLess str graph.packages
      neighbors := Function.update graph.neighbors str []
      closed := by
        intro package dep hdep
        by_cases heq : package = str
        · rw [heq, Function.update_self] at hdep
          cases hdep
        · rw [Function.update_of_ne heq] at hdep
          exact mem_insert.mpr (.inr (graph.closed package dep hdep)) }

theorem mem_getGraphNode {graph : Graph} {name str : Name} :
    name ∈ (graph.getGraphNode str).packages ↔ name = str ∨ name ∈ graph.packages := by
  unfold getGraphNode
  split_ifs with hstr
  · refine ⟨.inr, ?_⟩
    rintro (rfl | hmem)
    · exact hstr
    · exact hmem
  · exact mem_insert

/-- `node->neighbors.push_back(get_graph_node(graph, dep))` -/
def pushBack (graph : Graph) (node dep : Name) : Graph where
  packages := (graph.getGraphNode dep).packages
  neighbors := Function.update (graph.getGraphNode dep).neighbors node
    ((graph.getGraphNode dep).neighbors node ++ [dep])
  closed := by
    intro package other hother
    by_cases heq : package = node
    · rw [heq, Function.update_self, List.mem_append, List.mem_singleton] at hother
      rcases hother with hold | rfl
      · exact (graph.getGraphNode dep).closed node other hold
      · exact mem_getGraphNode.mpr (.inl rfl)
    · rw [Function.update_of_ne heq] at hother
      exact (graph.getGraphNode dep).closed package other hother

/-- What is done for an entry. -/
def addEntry (graph : Graph) (entry : Name × List Name) : Graph :=
  entry.2.foldl (fun graph dep => graph.pushBack entry.1 dep) (graph.getGraphNode entry.1)

end Graph

/-! ## The search -/

structure State where
  visited : Name → Bool
  inStack : Name → Bool
  topSortOut : List Name

def dfsSearch : DepthFirst.Search Name State where
  enter node s :=
    if s.inStack node then .inl false
    else if s.visited node then .inl true
    else .inr { s with
      visited := Function.update s.visited node true
      inStack := Function.update s.inStack node true }
  leave node s :=
    (true, { s with
      topSortOut := s.topSortOut ++ [node]
      inStack := Function.update s.inStack node false })

def dfsVisit (graph : Graph) : ℕ → Name → State → Option (Bool × State) :=
  DepthFirst.visit dfsSearch graph.neighbors

/-- "Dependencies contain cycles" -/
def dependenciesContainCycles : List UInt8 :=
  "Dependencies contain cycles".toList.map fun c => UInt8.ofNat c.toNat

/-- The names with ", " between them. -/
def joined : List Name → List UInt8
  | [] => []
  | package :: rest => package ++ rest.flatMap fun package => [44, 32] ++ package

/-- There is no result where the search is deeper than `depth`. -/
def topologicalSort (depth : ℕ) (graph : Graph) : Option (List UInt8) := do
  let (ok, s) ← DepthFirst.each
    (fun node s => if s.visited node then some (true, s) else dfsVisit graph depth node s)
    graph.packages ⟨fun _ => false, fun _ => false, []⟩
  if ok then return joined s.topSortOut else return dependenciesContainCycles

/-- The text that is written. -/
def printDependencies (depth : ℕ) (packages : List (List UInt8)) : Option (List UInt8) := do
  let graph ← packages.foldlM (fun graph pkg => do
    let entry ← parseDependency pkg
    return graph.addEntry entry) Graph.empty
  let res ← topologicalSort depth graph
  return res ++ [10]

/-! Without cycles the packages are written in an order in which they can be installed. -/

open Library DepthFirst

/-- Some entry of the package has the dependency. -/
def DependsOn (entries : List (Name × List Name)) (package dep : Name) : Prop :=
  ∃ entry ∈ entries, entry.1 = package ∧ dep ∈ entry.2

def Mentioned (entries : List (Name × List Name)) (name : Name) : Prop :=
  ∃ entry ∈ entries, entry.1 = name ∨ name ∈ entry.2

/-- Some package transitively depends on itself. -/
def Cycle (entries : List (Name × List Name)) : Prop :=
  ∃ package, Relation.TransGen (DependsOn entries) package package

/-- Each package comes once, and after all of its dependencies. -/
structure Installation (entries : List (Name × List Name)) (order : List Name) : Prop where
  once : order.Nodup
  all : ∀ name, name ∈ order ↔ Mentioned entries name
  after : ∀ front package back, order = front ++ package :: back →
    ∀ dep, DependsOn entries package dep → dep ∈ front

variable {entries : List (Name × List Name)} {graph : Graph} {name str package dep : Name}
  {deps order : List Name} {texts : List (List UInt8)} {depth : ℕ}

/-! ## The graph -/

/-- The graph of the entries. -/
structure Describes (entries : List (Name × List Name)) (graph : Graph) : Prop where
  packages : ∀ name, name ∈ graph.packages ↔ Mentioned entries name
  neighbors : ∀ package dep, dep ∈ graph.neighbors package ↔ DependsOn entries package dep

theorem mentioned_append {entry : Name × List Name} : Mentioned (entries ++ [entry]) name ↔
    Mentioned entries name ∨ entry.1 = name ∨ name ∈ entry.2 := by
  unfold Mentioned
  simp [or_and_right, exists_or]

theorem dependsOn_append {entry : Name × List Name} :
    DependsOn (entries ++ [entry]) package dep ↔
      DependsOn entries package dep ∨ entry.1 = package ∧ dep ∈ entry.2 := by
  unfold DependsOn
  simp [or_and_right, exists_or]

theorem describes_empty : Describes [] Graph.empty where
  packages name := by simp [Graph.empty, Mentioned]
  neighbors package dep := by simp [Graph.empty, DependsOn]

/-- A new node has no neighbors, and had none. -/
theorem Describes.neighbors_getGraphNode (h : Describes entries graph) :
    (graph.getGraphNode str).neighbors = graph.neighbors := by
  unfold Graph.getGraphNode
  split_ifs with hstr
  · rfl
  · have hnone : graph.neighbors str = [] := by
      refine List.eq_nil_iff_forall_not_mem.mpr fun dep hdep => hstr ?_
      obtain ⟨entry, hentry, hname, -⟩ := (h.neighbors str dep).mp hdep
      exact (h.packages str).mpr ⟨entry, hentry, .inl hname⟩
    change Function.update graph.neighbors str [] = graph.neighbors
    rw [← hnone]
    exact Function.update_eq_self str graph.neighbors

theorem Describes.getGraphNode (h : Describes entries graph) :
    Describes (entries ++ [(str, [])]) (graph.getGraphNode str) where
  packages name := by
    rw [Graph.mem_getGraphNode, h.packages, mentioned_append, or_comm, eq_comm]
    simp
  neighbors package dep := by
    rw [h.neighbors_getGraphNode, h.neighbors, dependsOn_append]
    simp

theorem Describes.pushBack (h : Describes (entries ++ [(package, deps)]) graph) :
    Describes (entries ++ [(package, deps ++ [dep])]) (graph.pushBack package dep) where
  packages name := by
    change name ∈ (graph.getGraphNode dep).packages ↔ _
    rw [Graph.mem_getGraphNode, h.packages, mentioned_append, mentioned_append, List.mem_append,
      List.mem_singleton]
    tauto
  neighbors node other := by
    change other ∈ Function.update (graph.getGraphNode dep).neighbors package
      ((graph.getGraphNode dep).neighbors package ++ [dep]) node ↔ _
    rw [h.neighbors_getGraphNode, dependsOn_append, List.mem_append, List.mem_singleton]
    by_cases hnode : node = package
    · rw [hnode, Function.update_self, List.mem_append, h.neighbors, dependsOn_append,
        List.mem_singleton]
      tauto
    · rw [Function.update_of_ne hnode, h.neighbors, dependsOn_append]
      simp [Ne.symm hnode]

theorem Describes.addEntry (h : Describes entries graph) (entry : Name × List Name) :
    Describes (entries ++ [entry]) (graph.addEntry entry) := by
  obtain ⟨package, deps⟩ := entry
  have hdeps (before rest : List Name) (graph : Graph)
      (h : Describes (entries ++ [(package, before)]) graph) :
      Describes (entries ++ [(package, before ++ rest)])
        (rest.foldl (fun graph dep => graph.pushBack package dep) graph) := by
    induction rest generalizing before graph with
    | nil =>
      rw [List.append_nil]
      exact h
    | cons dep rest ih =>
      have hstep := ih (before ++ [dep]) (graph.pushBack package dep) h.pushBack
      rwa [List.append_assoc, List.singleton_append] at hstep
  exact hdeps [] deps _ h.getGraphNode

theorem Describes.addEntries (h : Describes entries graph) (rest : List (Name × List Name)) :
    Describes (entries ++ rest) (rest.foldl Graph.addEntry graph) := by
  induction rest generalizing entries graph with
  | nil =>
    rw [List.append_nil]
    exact h
  | cons entry rest ih =>
    have hstep := ih (h.addEntry entry)
    rwa [List.append_assoc, List.singleton_append] at hstep

/-- The graph is the one of the parsed entries. -/
theorem build_eq (texts : List (List UInt8)) (graph : Graph) :
    texts.foldlM (fun graph pkg => do
      let entry ← parseDependency pkg
      return graph.addEntry entry) graph =
      (texts.mapM parseDependency).map fun entries => entries.foldl Graph.addEntry graph := by
  induction texts generalizing graph with
  | nil => rfl
  | cons text texts ih =>
    rw [List.foldlM_cons, List.mapM_cons]
    cases parseDependency text with
    | none => rfl
    | some entry =>
      refine (ih (graph.addEntry entry)).trans ?_
      cases texts.mapM parseDependency <;> rfl

/-! ## The search -/

def State.ofMarks (s : Marks Name) : State := ⟨s.visited, s.onStack, s.finished⟩

theorem dfsVisit_ofMarks (graph : Graph) (depth : ℕ) (node : Name) (s : Marks Name) :
    dfsVisit graph depth node (.ofMarks s) =
      (visit cycleSearch graph.neighbors depth node s).map (Prod.map id .ofMarks) := by
  refine visit_map State.ofMarks (fun node s => ?_) (fun node s => rfl) graph.neighbors depth node s
  unfold dfsSearch cycleSearch
  by_cases honStack : s.onStack node = true
  · simp [State.ofMarks, honStack]
  · by_cases hvisited : s.visited node = true
    · simp [State.ofMarks, honStack, hvisited]
    · simp [State.ofMarks, honStack, hvisited, Marks.enter]

/-- The body of the loop. -/
def visitUnvisited (graph : Graph) (depth : ℕ) (node : Name) (s : Marks Name) :
    Option (Bool × Marks Name) :=
  if s.visited node then some (true, s) else visit cycleSearch graph.neighbors depth node s

theorem visitUnvisited_eq {node : Name} {s : Marks Name} (honStack : s.onStack node = false)
    (hdepth : 0 < depth) :
    visitUnvisited graph depth node s = visit cycleSearch graph.neighbors depth node s := by
  obtain ⟨depth, rfl⟩ := Nat.exists_eq_add_of_le' hdepth
  unfold visitUnvisited
  by_cases hvisited : s.visited node = true
  · simp [visit, cycleSearch, hvisited, honStack]
  · rw [if_neg hvisited]

theorem topologicalSort_loop (graph : Graph) (depth : ℕ) :
    DepthFirst.each
      (fun node s => if s.visited node then some (true, s) else dfsVisit graph depth node s)
      graph.packages ⟨fun _ => false, fun _ => false, []⟩ =
    (each (visitUnvisited graph depth) graph.packages (Marks.start Name)).map
      (Prod.map id State.ofMarks) := by
  refine each_map State.ofMarks (fun node s => ?_) graph.packages (Marks.start Name)
  unfold visitUnvisited
  rw [dfsVisit_ofMarks]
  by_cases hvisited : s.visited node = true
  · simp [State.ofMarks, hvisited]
  · simp [State.ofMarks, hvisited]

theorem topologicalSort_spec (h : Describes entries graph)
    (hdepth : graph.packages.length < depth) :
    ∃ res, topologicalSort depth graph = some res ∧
      (Cycle entries ∧ res = dependenciesContainCycles ∨
        ¬ Cycle entries ∧ ∃ order, Installation entries order ∧ res = joined order) := by
  have hedge : Edge graph.neighbors = DependsOn entries := by
    funext package dep
    exact propext (h.neighbors package dep)
  have hcard := List.toFinset_card_le graph.packages
  have hsearch : ∃ result,
      each (visitUnvisited graph depth) graph.packages (Marks.start Name) = some result ∧
        Outcome graph.packages.toFinset graph.neighbors (Marks.start Name) graph.packages
          result := by
    refine search_spec (fun package _ dep hdep => ?_) (fun name hname => ?_) (hcard.trans_lt hdepth)
      (fun node s honStack => visitUnvisited_eq honStack (Nat.zero_lt_of_lt hdepth))
    · exact List.mem_toFinset.mpr (graph.closed package dep hdep)
    · exact List.mem_toFinset.mpr hname
  obtain ⟨⟨ok, s⟩, hresult, houtcome⟩ := hsearch
  unfold topologicalSort
  rw [topologicalSort_loop, hresult]
  cases ok with
  | false =>
    refine ⟨dependenciesContainCycles, rfl, .inl ⟨?_, rfl⟩⟩
    have hcyclic : Cyclic graph.neighbors := houtcome
    unfold Cyclic at hcyclic
    rwa [hedge] at hcyclic
  | true =>
    have hextends : Extends graph.packages.toFinset graph.neighbors (Marks.start Name)
      graph.packages s := houtcome
    have hall (name : Name) : name ∈ s.finished ↔ Mentioned entries name := by
      rw [← h.packages]
      exact ⟨fun hmem => List.mem_toFinset.mp (hextends.sound.known name hmem), hextends.all name⟩
    refine ⟨joined s.finished, rfl, .inr ⟨?_, s.finished,
      ⟨hextends.sound.arranged.nodup, hall, ?_⟩, rfl⟩⟩
    · rintro ⟨package, hcycle⟩
      obtain ⟨dep, ⟨entry, hentry, hname, -⟩, -⟩ := Relation.TransGen.head'_iff.mp hcycle
      rw [← hedge] at hcycle
      exact hextends.sound.arranged.acyclic ((hall package).mpr ⟨entry, hentry, .inl hname⟩) hcycle
    · intro front package back horder dep hdep
      have harranged := hextends.sound.arranged
      rw [horder] at harranged
      exact harranged.before ((h.neighbors package dep).mpr hdep)

/-! ## The text -/

theorem comma_not_mem : 44 ∉ dependenciesContainCycles := by decide

theorem joined_eq_iff :
    joined order = dependenciesContainCycles ↔ order = [dependenciesContainCycles] := by
  constructor
  · intro heq
    have hcomma := comma_not_mem
    rw [← heq] at hcomma ⊢
    match order with
    | [] => exact absurd heq.symm (by decide)
    | [package] => simp [joined]
    | package :: other :: rest => simp [joined] at hcomma
  · rintro rfl
    exact List.append_nil _

theorem Installation.eq_singleton_iff (h : Installation entries order) :
    order = [name] ↔ ∀ package, Mentioned entries package ↔ package = name := by
  constructor
  · intro horder package
    rw [← h.all, horder, List.mem_singleton]
  · intro honly
    have hmem (package : Name) : package ∈ order ↔ package ∈ [name] := by
      rw [h.all, honly, List.mem_singleton]
    exact List.perm_singleton.mp
      ((List.perm_ext_iff_of_nodup h.once (List.nodup_singleton name)).mpr hmem)

theorem printDependencies_spec (hentries : texts.mapM parseDependency = some entries) :
    ∃ limit, ∀ depth > limit, ∃ res, printDependencies depth texts = some (res ++ [10]) ∧
      (Cycle entries ∧ res = dependenciesContainCycles ∨
        ¬ Cycle entries ∧ ∃ order, Installation entries order ∧ res = joined order) := by
  have hbuild := build_eq texts Graph.empty
  rw [hentries, Option.map_some] at hbuild
  have hdescribes := describes_empty.addEntries entries
  rw [List.nil_append] at hdescribes
  refine ⟨(entries.foldl Graph.addEntry Graph.empty).packages.length, fun depth hdepth => ?_⟩
  obtain ⟨res, hres, hcases⟩ := topologicalSort_spec hdescribes hdepth
  refine ⟨res, ?_, hcases⟩
  unfold printDependencies
  rw [hbuild]
  simp only [Option.bind_eq_bind, Option.bind_some, hres]
  rfl

/-- The text about cycles is also that of the only package of this name. -/
theorem topological_sort_order (texts : List (List UInt8)) (hcolon : ∀ text ∈ texts, 58 ∈ text) :
    ∃ entries, texts.mapM parseDependency = some entries ∧
      ∃ limit, ∀ depth > limit, ∃ res, printDependencies depth texts = some (res ++ [10]) ∧
        (Cycle entries → res = dependenciesContainCycles) ∧
        (¬ Cycle entries → ∃ order, Installation entries order ∧ res = joined order) ∧
        (res = dependenciesContainCycles ↔
          Cycle entries ∨ ∀ name, Mentioned entries name ↔ name = dependenciesContainCycles) := by
  obtain ⟨entries, hentries⟩ : ∃ entries, texts.mapM parseDependency = some entries := by
    induction texts with
    | nil => exact ⟨[], rfl⟩
    | cons text texts ih =>
      obtain ⟨entries, hentries⟩ := ih fun text htext => hcolon text (List.mem_cons_of_mem _ htext)
      have htext := hcolon text List.mem_cons_self
      rw [List.mapM_cons, parseDependency, if_pos htext, hentries]
      exact ⟨_, rfl⟩
  obtain ⟨limit, hlimit⟩ := printDependencies_spec hentries
  refine ⟨entries, hentries, limit, fun depth hdepth => ?_⟩
  obtain ⟨res, hres, ⟨hcycle, heq⟩ | ⟨hcycle, order, horder, heq⟩⟩ := hlimit depth hdepth
  · exact ⟨res, hres, fun _ => heq, fun h => absurd hcycle h, iff_of_true heq (.inl hcycle)⟩
  · refine ⟨res, hres, fun h => absurd h hcycle, fun _ => ⟨order, horder, heq⟩, ?_⟩
    rw [heq, joined_eq_iff, horder.eq_singleton_iff, or_iff_right hcycle]

/-- The entry of a package without dependencies. -/
theorem parseDependency_colon (hname : 58 ∉ name) :
    parseDependency (name ++ [58]) = some (name, []) := by
  have htake : (name ++ [58]).takeWhile (· ≠ 58) = name := by
    rw [List.takeWhile_append_of_pos]
    · simp
    · intro b hb
      simp only [ne_eq, decide_not, Bool.not_eq_eq_eq_not, Bool.not_true, decide_eq_false_iff_not]
      rintro rfl
      exact hname hb
  unfold parseDependency
  rw [if_pos (by simp), htake]
  have hdrop : (name ++ [58]).drop (name.length + 1) = [] := by simp
  have hdeps : parseDeps [] = [] := by
    rw [parseDeps]
    rfl
  simp only [hdrop, hdeps]

/-- The packages a and b, with b as a dependency of a. -/
theorem topological_sort_order_two : (∀ text ∈ [[97, 58, 32, 98]], (58 : UInt8) ∈ text) ∧
    ∃ entries, [[97, 58, 32, 98]].mapM parseDependency = some entries ∧
      ∃ limit, ∀ depth > limit, ∃ res,
        printDependencies depth [[97, 58, 32, 98]] = some (res ++ [10]) ∧
        (Cycle entries → res = dependenciesContainCycles) ∧
        (¬ Cycle entries → ∃ order, Installation entries order ∧ res = joined order) ∧
        (res = dependenciesContainCycles ↔
          Cycle entries ∨ ∀ name, Mentioned entries name ↔ name = dependenciesContainCycles) := by
  have hcolon : ∀ text ∈ [[97, 58, 32, 98]], (58 : UInt8) ∈ text := by simp
  exact ⟨hcolon, topological_sort_order _ hcolon⟩

/-- A package whose name is the text about cycles, without dependencies. -/
theorem text_without_cycle :
    [dependenciesContainCycles ++ [58]].mapM parseDependency =
        some [(dependenciesContainCycles, [])] ∧
      ¬ Cycle [(dependenciesContainCycles, [])] ∧
      ∃ limit, ∀ depth > limit, printDependencies depth [dependenciesContainCycles ++ [58]] =
        some (dependenciesContainCycles ++ [10]) := by
  have hparse := parseDependency_colon (show 58 ∉ dependenciesContainCycles by decide)
  have hentries : [dependenciesContainCycles ++ [58]].mapM parseDependency =
      some [(dependenciesContainCycles, [])] := by
    rw [List.mapM_cons, hparse]
    rfl
  have hacyclic : ¬ Cycle [(dependenciesContainCycles, [])] := by
    rintro ⟨package, hcycle⟩
    obtain ⟨dep, ⟨entry, hentry, -, hdep⟩, -⟩ := Relation.TransGen.head'_iff.mp hcycle
    rw [List.mem_singleton.mp hentry] at hdep
    cases hdep
  obtain ⟨limit, hlimit⟩ := printDependencies_spec hentries
  refine ⟨hentries, hacyclic, limit, fun depth hdepth => ?_⟩
  obtain ⟨res, hres, ⟨hcycle, -⟩ | ⟨-, order, horder, heq⟩⟩ := hlimit depth hdepth
  · exact absurd hcycle hacyclic
  · have honly : order = [dependenciesContainCycles] := by
      refine horder.eq_singleton_iff.mpr fun package => ?_
      simp [Mentioned, eq_comm]
    rw [hres, heq, joined_eq_iff.mpr honly]

end InterviewQuestions.PackageDependencies
