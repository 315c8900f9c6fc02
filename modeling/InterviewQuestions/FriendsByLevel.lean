import InterviewQuestions.Library.BreadthFirst
import InterviewQuestions.Library.Scanf
import Mathlib.Algebra.GroupWithZero.Nat

/-! `trees_graphs/friends_by_level/solution.cpp`. A node is known by its key in the map. There is no
result where an empty queue is popped, or where the loop has more than `fuel` iterations. -/
namespace InterviewQuestions.FriendsByLevel

open Library BreadthFirst Scanf

/-- All nodes that are pointed to are in the map. -/
structure Graph where
  nodes : List UInt8
  adj : UInt8 → List UInt8
  closed : ∀ node ∈ nodes, ∀ f ∈ adj node, f ∈ nodes

def Graph.empty : Graph := ⟨[], fun _ => [], by simp⟩

/-- A node that is not in the map yet has no friends. -/
def Graph.getNode (graph : Graph) (node : UInt8) : Graph :=
  if h : node ∈ graph.nodes then graph
  else
    { nodes := node :: graph.nodes
      adj := Function.update graph.adj node []
      closed := by
        intro v hv f hf
        by_cases hvn : v = node
        · rw [hvn, Function.update_self] at hf
          cases hf
        · rw [Function.update_of_ne hvn] at hf
          have hmem := (List.mem_cons.mp hv).resolve_left hvn
          exact List.mem_cons_of_mem node (graph.closed v hmem f hf) }

/-- `node->adj.push_back(get_node(graph, fid))` -/
def Graph.addFriend (graph : Graph) (node fid : UInt8) : Graph :=
  { nodes := (graph.getNode fid).nodes
    adj := Function.update (graph.getNode fid).adj node ((graph.getNode fid).adj node ++ [fid])
    closed := by
      have hfid : fid ∈ (graph.getNode fid).nodes := by
        unfold Graph.getNode
        split
        · assumption
        · exact List.mem_cons_self
      intro v hv f hf
      by_cases hvn : v = node
      · subst hvn
        rw [Function.update_self] at hf
        rcases List.mem_append.mp hf with hf | hf
        · exact (graph.getNode fid).closed v hv f hf
        · rwa [List.mem_singleton.mp hf]
      · rw [Function.update_of_ne hvn] at hf
        exact (graph.getNode fid).closed v hv f hf }

/-- The graph that `main` builds of the lines, each with a person and his friends. -/
def Graph.ofLines (lines : List (UInt8 × List UInt8)) : Graph :=
  lines.foldl (fun graph line => line.2.foldl (·.addFriend line.1) (graph.getNode line.1)) .empty

structure State where
  visited : UInt8 → Bool
  bfsq : List UInt8
  nextLevel : UInt32

structure Line where
  level : UInt32
  ids : List UInt8

/-- `Level `, the number, and a space behind each of the friends. -/
def Line.text (line : Line) : List UInt8 :=
  [76, 101, 118, 101, 108, 32] ++ printNat line.level.toNat ++ [58, 32] ++
    line.ids.flatMap (fun id => [id, 32]) ++ [10]

/-- The friends of one person. -/
def visitFriends (s : State) (friends : List UInt8) : State :=
  friends.foldl (fun s f =>
    if s.visited f then s
    else ⟨Function.update s.visited f true, s.bfsq ++ [f], s.nextLevel + 1⟩) s

/-- The loop over one level, with the friends that are printed. -/
def printLevel (graph : Graph) : ℕ → State → Option (List UInt8 × State)
  | 0, s => some ([], s)
  | i + 1, s =>
      match s.bfsq with
      | [] => none
      | friendNode :: bfsq => do
          let (ids, s) ← printLevel graph i
            (visitFriends { s with bfsq := bfsq } (graph.adj friendNode))
          some (friendNode :: ids, s)

def printLevels (graph : Graph) :
    ℕ → UInt32 → UInt32 → (UInt8 → Bool) → List UInt8 → Option (List Line)
  | 0, _, _, _, _ => none
  | _ + 1, _, _, _, [] => some []
  | fuel + 1, currLevel, level, visited, bfsq => do
      let (ids, s) ← printLevel graph currLevel.toNat ⟨visited, bfsq, 0⟩
      let lines ← printLevels graph fuel s.nextLevel (level + 1) s.visited s.bfsq
      some (⟨level, ids⟩ :: lines)

/-- The friends of the source are not asked whether they have been visited. -/
def enqueueFriends (visited : UInt8 → Bool) (friends : List UInt8) : State :=
  friends.foldl (fun s f =>
    ⟨Function.update s.visited f true, s.bfsq ++ [f], s.nextLevel + 1⟩) ⟨visited, [], 0⟩

/-- The marks in the beginning, where `old` are those from before. -/
def resetVisited (graph : Graph) (old : UInt8 → Bool) (source : UInt8) : UInt8 → Bool :=
  Function.update (fun node => if node ∈ graph.nodes then false else old node) source true

def friendsByLevel (fuel : ℕ) (graph : Graph) (old : UInt8 → Bool) (source : UInt8) :
    Option (List Line) :=
  let s := enqueueFriends (resetVisited graph old source) (graph.adj source)
  printLevels graph fuel s.nextLevel 1 s.visited s.bfsq

/-! ## What is printed -/

variable {graph : Graph} {old visited : UInt8 → Bool} {source v w : UInt8} {s s' : State}
  {lines : List Line} {ids friends bfsq pushed : List UInt8} {fuel i k : ℕ}
  {currLevel level : UInt32}

/-- The persons with the levels on whose lines they are. -/
def entries (lines : List Line) : List (ℕ × UInt8) :=
  lines.flatMap fun line => line.ids.map fun id => (line.level.toNat, id)

/-- Each person who is reached is on the line of the distance from the source, and nobody is there
twice. -/
structure ByLevel (graph : Graph) (source : UInt8) (lines : List Line) : Prop where
  mem : ∀ n v, (n, v) ∈ entries lines ↔ v ≠ source ∧ Layer graph.adj source n v
  nodup : ((entries lines).map Prod.snd).Nodup

def Prints (graph : Graph) (old : UInt8 → Bool) (source : UInt8) : Prop :=
  ∃ enough, ∀ fuel ≥ enough, ∃ lines, friendsByLevel fuel graph old source = some lines ∧
    ByLevel graph source lines

/-! ## One level -/

/-- From `s` to `s'` those of the persons that had not been visited have been put behind the
queue. -/
structure Pushed (persons : UInt8 → Prop) (pushed : List UInt8) (s s' : State) : Prop where
  bfsq : s'.bfsq = s.bfsq ++ pushed
  nextLevel : s'.nextLevel = s.nextLevel + UInt32.ofNat pushed.length
  nodup : pushed.Nodup
  mem : ∀ w, w ∈ pushed ↔ persons w ∧ s.visited w = false
  visited : ∀ w, s'.visited w = true ↔ s.visited w = true ∨ persons w

theorem Pushed.refl {persons : UInt8 → Prop} (h : ∀ w, ¬ persons w) (s : State) :
    Pushed persons [] s s where
  bfsq := (List.append_nil _).symm
  nextLevel := (UInt32.add_zero _).symm
  nodup := List.nodup_nil
  mem w := iff_of_false List.not_mem_nil fun hw => h w hw.1
  visited w := (or_iff_left (h w)).symm

theorem Pushed.trans {persons persons' : UInt8 → Prop} {pushed' : List UInt8} {s'' : State}
    (h : Pushed persons pushed s s') (h' : Pushed persons' pushed' s' s'') :
    Pushed (fun w => persons w ∨ persons' w) (pushed ++ pushed') s s'' := by
  have hfalse (w : UInt8) : s'.visited w = false ↔ s.visited w = false ∧ ¬ persons w := by
    rw [← Bool.not_eq_true, h.visited, not_or, Bool.not_eq_true]
  constructor
  case bfsq => rw [h'.bfsq, h.bfsq, List.append_assoc]
  case nextLevel =>
    rw [h'.nextLevel, h.nextLevel, List.length_append, UInt32.ofNat_add, UInt32.add_assoc]
  case nodup =>
    refine List.nodup_append.mpr ⟨h.nodup, h'.nodup, fun v hv w hw heq => ?_⟩
    subst heq
    exact ((hfalse v).mp ((h'.mem v).mp hw).2).2 ((h.mem v).mp hv).1
  case mem =>
    intro w
    rw [List.mem_append, h.mem, h'.mem, hfalse]
    tauto
  case visited =>
    intro w
    rw [h'.visited, h.visited, or_assoc]

theorem pushed_one (s : State) (f : UInt8) : ∃ pushed, Pushed (· = f) pushed s
    (if s.visited f then s
    else ⟨Function.update s.visited f true, s.bfsq ++ [f], s.nextLevel + 1⟩) := by
  cases hf : s.visited f with
  | true =>
    refine ⟨[], (List.append_nil _).symm, (UInt32.add_zero _).symm, List.nodup_nil, fun w => ?_,
      fun w => (or_iff_left_of_imp fun hw => ?_).symm⟩
    · refine iff_of_false List.not_mem_nil ?_
      rintro ⟨rfl, hw⟩
      rw [hf] at hw
      cases hw
    · exact hw ▸ hf
  | false =>
    refine ⟨[f], rfl, rfl, List.nodup_singleton f, fun w => ?_, fun w => ?_⟩
    · rw [List.mem_singleton]
      exact (and_iff_left_of_imp fun hw => hw ▸ hf).symm
    · by_cases hw : w = f <;> simp [hw]

theorem visitFriends_cons (s : State) (f : UInt8) (friends : List UInt8) :
    visitFriends s (f :: friends) = visitFriends
      (if s.visited f then s
      else ⟨Function.update s.visited f true, s.bfsq ++ [f], s.nextLevel + 1⟩) friends := rfl

theorem Pushed.congr {persons persons' : UInt8 → Prop} (h : Pushed persons pushed s s')
    (hpersons : ∀ w, persons' w ↔ persons w) : Pushed persons' pushed s s' := by
  rwa [funext fun w => propext (hpersons w)]

theorem visitFriends_spec (s : State) (friends : List UInt8) :
    ∃ pushed, Pushed (· ∈ friends) pushed s (visitFriends s friends) := by
  induction friends generalizing s with
  | nil => exact ⟨[], .refl (fun _ => List.not_mem_nil) s⟩
  | cons f friends ih =>
    rw [visitFriends_cons]
    obtain ⟨first, hfirst⟩ := pushed_one s f
    obtain ⟨rest, hrest⟩ := ih _
    exact ⟨first ++ rest, (hfirst.trans hrest).congr fun w => List.mem_cons⟩

/-- As many are printed as the loop has rounds, and their friends wait behind the others. -/
theorem printLevel_spec (graph : Graph) (h : s.bfsq = ids ++ bfsq) :
    ∃ pushed s', printLevel graph ids.length s = some (ids, s') ∧
      Pushed (fun w => ∃ v ∈ ids, w ∈ graph.adj v) pushed { s with bfsq := bfsq } s' := by
  induction ids generalizing s bfsq with
  | nil =>
    refine ⟨[], s, rfl, ?_⟩
    have hs : { s with bfsq := bfsq } = s := by rw [← List.nil_append bfsq, ← h]
    rw [hs]
    exact .refl (by simp) s
  | cons v ids ih =>
    obtain ⟨first, hfirst⟩ := visitFriends_spec { s with bfsq := ids ++ bfsq } (graph.adj v)
    have hqueue : (visitFriends { s with bfsq := ids ++ bfsq } (graph.adj v)).bfsq =
        ids ++ (bfsq ++ first) := by rw [hfirst.bfsq, List.append_assoc]
    obtain ⟨rest, s', heq, hrest⟩ := ih hqueue
    refine ⟨first ++ rest, s', ?_, ?_⟩
    · rw [List.length_cons, printLevel, h, List.cons_append]
      simp only [heq, Option.bind_eq_bind, Option.bind_some]
    · have hbefore : Pushed (· ∈ graph.adj v) first { s with bfsq := bfsq }
          { visitFriends { s with bfsq := ids ++ bfsq } (graph.adj v) with
            bfsq := bfsq ++ first } :=
        ⟨rfl, hfirst.nextLevel, hfirst.nodup, hfirst.mem, hfirst.visited⟩
      refine (hbefore.trans hrest).congr fun w => ?_
      simp only [List.mem_cons, exists_eq_or_imp]

/-! ## Level after level -/

theorem length_le (h : ids.Nodup) : ids.length ≤ 256 := by
  have hinj : (ids.map UInt8.toNat).Nodup := h.map fun _ _ => UInt8.toNat_inj.mp
  have hsub : ids.map UInt8.toNat ⊆ List.range 256 := by
    intro n hn
    obtain ⟨id, -, rfl⟩ := List.mem_map.mp hn
    exact List.mem_range.mpr id.toNat_lt
  have hlen := (hinj.subperm hsub).length_le
  rwa [List.length_map, List.length_range] at hlen

theorem mem_nodes (hsource : source ∈ graph.nodes) (h : Layer graph.adj source k w) :
    w ∈ graph.nodes := by
  have hway := h.1
  clear h
  induction hway with
  | refl => exact hsource
  | step _ hw _ ih => exact graph.closed _ ih _ hw

theorem layer_lt (h : Layer graph.adj source k w) : k < 256 := by
  obtain ⟨vs, hlen, hnodup, -⟩ := h.exists_nodup
  have hle := length_le hnodup
  omega

/-- The persons at the distance `k` wait, and those up to there have been visited. -/
structure AtLevel (graph : Graph) (source : UInt8) (k : ℕ) (visited : UInt8 → Bool)
    (bfsq : List UInt8) : Prop where
  nodup : bfsq.Nodup
  mem : ∀ w, w ∈ bfsq ↔ Layer graph.adj source k w
  visited : ∀ w ∈ graph.nodes, visited w = true ↔ ∃ m ≤ k, Layer graph.adj source m w

theorem AtLevel.printLevel (h : AtLevel graph source k visited bfsq)
    (hsource : source ∈ graph.nodes) :
    ∃ s', FriendsByLevel.printLevel graph bfsq.length ⟨visited, bfsq, 0⟩ = some (bfsq, s') ∧
      AtLevel graph source (k + 1) s'.visited s'.bfsq ∧
        s'.nextLevel = UInt32.ofNat s'.bfsq.length := by
  have hqueue : bfsq = bfsq ++ [] := (List.append_nil bfsq).symm
  obtain ⟨pushed, s', heq, hpushed⟩ :=
    @printLevel_spec ⟨visited, bfsq, 0⟩ bfsq [] graph hqueue
  have hbfsq : s'.bfsq = pushed := hpushed.bfsq
  have hfriend (w : UInt8) : (∃ v ∈ bfsq, w ∈ graph.adj v) ↔
      ∃ v, Layer graph.adj source k v ∧ w ∈ graph.adj v :=
    exists_congr fun v => and_congr_left' (h.mem v)
  have hnodes (w : UInt8) (hw : ∃ v ∈ bfsq, w ∈ graph.adj v) : w ∈ graph.nodes := by
    obtain ⟨v, hv, hw⟩ := hw
    exact graph.closed v (mem_nodes hsource ((h.mem v).mp hv)) w hw
  refine ⟨s', heq, ⟨?_, fun w => ?_, fun w hw => ?_⟩, ?_⟩
  · rw [hbfsq]
    exact hpushed.nodup
  · rw [hbfsq, hpushed.mem, layer_succ, ← hfriend]
    refine and_congr_right fun hw => ?_
    have hvisited := (h.visited w (hnodes w hw)).not
    rw [Bool.not_eq_true] at hvisited
    rw [hvisited]
    push Not
    rfl
  · rw [hpushed.visited, hfriend]
    have hvisited := h.visited w hw
    constructor
    · rintro (hold | ⟨v, hv, hwv⟩)
      · obtain ⟨m, hm, hlayer⟩ := hvisited.mp hold
        exact ⟨m, Nat.le_succ_of_le hm, hlayer⟩
      · exact exists_layer (Way.step hv.1 hwv trivial)
    · rintro ⟨m, hm, hlayer⟩
      rcases Nat.lt_or_eq_of_le hm with hlt | rfl
      · exact .inl (hvisited.mpr ⟨m, Nat.le_of_lt_succ hlt, hlayer⟩)
      · exact .inr (layer_succ.mp hlayer).1
  · rw [hpushed.nextLevel, hbfsq, UInt32.zero_add]

theorem toNat_ofNat_small {n : ℕ} (h : n ≤ 256) : (UInt32.ofNat n).toNat = n :=
  UInt32.toNat_ofNat_of_lt' (h.trans_lt (by decide))

theorem printLevels_cons (hne : bfsq ≠ [])
    (h : printLevel graph currLevel.toNat ⟨visited, bfsq, 0⟩ = some (ids, s)) :
    printLevels graph (fuel + 1) currLevel level visited bfsq =
      (printLevels graph fuel s.nextLevel (level + 1) s.visited s.bfsq).map
        (⟨level, ids⟩ :: ·) := by
  rw [printLevels.eq_3 _ _ _ _ _ _ hne]
  simp only [h, Option.bind_eq_bind, Option.bind_some]
  cases printLevels graph fuel s.nextLevel (level + 1) s.visited s.bfsq with
  | none => rfl
  | some lines => rfl

theorem entries_cons (line : Line) (lines : List Line) : entries (line :: lines) =
    line.ids.map (fun id => (line.level.toNat, id)) ++ entries lines := List.flatMap_cons

/-- From a level on, the layers are printed. -/
theorem printLevels_spec (h : AtLevel graph source k visited bfsq) (hsource : source ∈ graph.nodes)
    (hk : k ≤ 256) (hfuel : 256 < fuel + k) :
    ∃ lines, printLevels graph fuel (UInt32.ofNat bfsq.length) (UInt32.ofNat k) visited bfsq =
        some lines ∧
      (∀ n v, (n, v) ∈ entries lines ↔ k ≤ n ∧ Layer graph.adj source n v) ∧
      ((entries lines).map Prod.snd).Nodup := by
  induction fuel generalizing k visited bfsq with
  | zero => omega
  | succ fuel ih =>
    by_cases hne : bfsq = []
    · subst hne
      refine ⟨[], rfl, fun n v => ?_, List.nodup_nil⟩
      refine iff_of_false List.not_mem_nil ?_
      rintro ⟨hle, hlayer⟩
      obtain ⟨u, hu⟩ := hlayer.exists_of_le hle
      exact List.not_mem_nil ((h.mem u).mpr hu)
    · obtain ⟨v, hv⟩ := List.exists_mem_of_ne_nil bfsq hne
      have hlt := layer_lt ((h.mem v).mp hv)
      obtain ⟨s', heq, hnext, hlen⟩ := h.printLevel hsource
      rw [← toNat_ofNat_small (length_le h.nodup)] at heq
      obtain ⟨lines, hlines, hmem, hnodup⟩ := ih hnext (by omega) (by omega)
      refine ⟨⟨UInt32.ofNat k, bfsq⟩ :: lines, ?_, fun n w => ?_, ?_⟩
      · rw [printLevels_cons hne heq, hlen]
        have hlevel : UInt32.ofNat k + 1 = UInt32.ofNat (k + 1) := (UInt32.ofNat_add k 1).symm
        rw [hlevel, hlines]
        rfl
      · rw [entries_cons, List.mem_append, hmem, List.mem_map]
        dsimp only
        rw [toNat_ofNat_small hk]
        constructor
        · rintro (⟨u, hu, heq⟩ | ⟨hle, hlayer⟩)
          · cases heq
            exact ⟨Nat.le_refl k, (h.mem w).mp hu⟩
          · exact ⟨Nat.le_of_succ_le hle, hlayer⟩
        · rintro ⟨hle, hlayer⟩
          rcases Nat.lt_or_eq_of_le hle with hgt | rfl
          · exact .inr ⟨hgt, hlayer⟩
          · exact .inl ⟨w, (h.mem w).mpr hlayer, rfl⟩
      · have hids : bfsq.map (Prod.snd ∘ fun id => ((UInt32.ofNat k).toNat, id)) = bfsq :=
          List.map_id bfsq
        rw [entries_cons, List.map_append, List.map_map, hids]
        refine List.nodup_append.mpr ⟨h.nodup, hnodup, fun u hu w hw heq => ?_⟩
        subst heq
        obtain ⟨⟨n, w⟩, hentry, rfl⟩ := List.mem_map.mp hw
        obtain ⟨hle, hlayer⟩ := (hmem n w).mp hentry
        have := ((h.mem w).mp hu).unique hlayer
        omega

/-! ## The whole graph -/

theorem enqueueFriends_snoc (visited : UInt8 → Bool) (friends : List UInt8) (f : UInt8) :
    enqueueFriends visited (friends ++ [f]) =
      ⟨Function.update (enqueueFriends visited friends).visited f true,
        (enqueueFriends visited friends).bfsq ++ [f],
        (enqueueFriends visited friends).nextLevel + 1⟩ := by
  unfold enqueueFriends
  rw [List.foldl_append]
  rfl

theorem enqueueFriends_spec (visited : UInt8 → Bool) (friends : List UInt8) :
    (enqueueFriends visited friends).bfsq = friends ∧
      (enqueueFriends visited friends).nextLevel = UInt32.ofNat friends.length ∧
        ∀ w, (enqueueFriends visited friends).visited w = true ↔
          visited w = true ∨ w ∈ friends := by
  induction friends using List.reverseRecOn with
  | nil => exact ⟨rfl, rfl, fun w => (or_iff_left List.not_mem_nil).symm⟩
  | append_singleton friends f ih =>
    obtain ⟨hbfsq, hlevel, hvisited⟩ := ih
    rw [enqueueFriends_snoc]
    refine ⟨congrArg (· ++ [f]) hbfsq, ?_, fun w => ?_⟩
    · dsimp only
      rw [hlevel, List.length_append, UInt32.ofNat_add]
      rfl
    · dsimp only
      rw [List.mem_append, List.mem_singleton, ← or_assoc, ← hvisited]
      by_cases hw : w = f <;> simp [hw]

/-- At the beginning, if each friend of the source is named once, and the source is not. -/
theorem atLevel_one (hsource : source ∈ graph.nodes) (hnodup : (graph.adj source).Nodup)
    (hself : source ∉ graph.adj source) :
    AtLevel graph source 1
      (enqueueFriends (resetVisited graph old source) (graph.adj source)).visited
        (graph.adj source) := by
  have hmem (w : UInt8) : w ∈ graph.adj source ↔ Layer graph.adj source 1 w := by
    rw [layer_succ]
    simp only [layer_zero, exists_eq_left, Nat.le_zero, forall_eq]
    refine (and_iff_left_of_imp fun hw heq => ?_).symm
    subst heq
    exact hself hw
  refine ⟨hnodup, hmem, fun w hw => ?_⟩
  obtain ⟨-, -, hvisited⟩ := enqueueFriends_spec (resetVisited graph old source)
    (graph.adj source)
  rw [hvisited, hmem]
  have hzero : resetVisited graph old source w = true ↔ Layer graph.adj source 0 w := by
    rw [layer_zero, resetVisited]
    by_cases heq : w = source <;> simp [heq, hw]
  rw [hzero]
  constructor
  · rintro (h | h)
    · exact ⟨0, Nat.zero_le 1, h⟩
    · exact ⟨1, Nat.le_refl 1, h⟩
  · rintro ⟨m, hm, h⟩
    obtain rfl | rfl : m = 0 ∨ m = 1 := by omega
    · exact .inl h
    · exact .inr h

theorem prints (hsource : source ∈ graph.nodes) (hnodup : (graph.adj source).Nodup)
    (hself : source ∉ graph.adj source) : Prints graph old source := by
  refine ⟨256, fun fuel hfuel => ?_⟩
  obtain ⟨hbfsq, hlevel, -⟩ := enqueueFriends_spec (resetVisited graph old source)
    (graph.adj source)
  have hstart : AtLevel graph source 1 _ _ := @atLevel_one graph old source hsource hnodup hself
  have hmany : 256 < fuel + 1 := by omega
  obtain ⟨lines, hlines, hmem, hn⟩ := printLevels_spec hstart hsource (by decide) hmany
  refine ⟨lines, ?_, fun n v => ?_, hn⟩
  · unfold friendsByLevel
    dsimp only
    rw [hlevel, hbfsq]
    exact hlines
  · rw [hmem]
    refine and_congr_left fun hlayer => ?_
    rw [Nat.one_le_iff_ne_zero]
    refine not_congr ⟨?_, ?_⟩
    · rintro rfl
      exact layer_zero.mp hlayer
    · rintro rfl
      exact hlayer.unique (layer_zero.mpr rfl)

/-! ## All that wait are printed -/

theorem queue_printLevel (h : printLevel graph i s = some (ids, s')) :
    ∃ pushed, s.bfsq ++ pushed = ids ++ s'.bfsq := by
  induction i generalizing s ids with
  | zero =>
    cases h
    exact ⟨[], List.append_nil _⟩
  | succ i ih =>
    rw [printLevel] at h
    cases hq : s.bfsq with
    | nil =>
      rw [hq] at h
      cases h
    | cons v rest =>
      rw [hq] at h
      obtain ⟨⟨ids', s''⟩, hrec, heq⟩ := Option.bind_eq_some_iff.mp h
      cases heq
      obtain ⟨pushed, hpushed⟩ := ih hrec
      obtain ⟨first, hfirst⟩ := visitFriends_spec { s with bfsq := rest } (graph.adj v)
      rw [hfirst.bfsq, List.append_assoc] at hpushed
      exact ⟨first ++ pushed, congrArg (v :: ·) hpushed⟩

/-- Whatever the numbers of friends are, what waits is printed before the loop is over. -/
theorem count_le_printLevels (h : printLevels graph fuel currLevel level visited bfsq = some lines)
    (w : UInt8) : bfsq.count w ≤ ((entries lines).map Prod.snd).count w := by
  induction fuel generalizing currLevel level visited bfsq lines with
  | zero => cases h
  | succ fuel ih =>
    by_cases hne : bfsq = []
    · rw [hne]
      exact Nat.zero_le _
    · rw [printLevels.eq_3 _ _ _ _ _ _ hne] at h
      obtain ⟨⟨ids, s⟩, hlevel, h⟩ := Option.bind_eq_some_iff.mp h
      obtain ⟨rest, hrest, h⟩ := Option.bind_eq_some_iff.mp h
      cases h
      obtain ⟨pushed, hpushed⟩ := queue_printLevel hlevel
      dsimp only at hpushed
      have hcount := congrArg (List.count w) hpushed
      have hle := ih hrest
      have hids : ids.map (Prod.snd ∘ fun id => (level.toNat, id)) = ids := List.map_id ids
      rw [List.count_append, List.count_append] at hcount
      rw [entries_cons, List.map_append, List.map_map, hids, List.count_append]
      omega

/-- A friend who is named twice is printed twice, and the source is printed where it is named. -/
theorem Prints.once (h : Prints graph old source) :
    (graph.adj source).Nodup ∧ source ∉ graph.adj source := by
  obtain ⟨enough, henough⟩ := h
  obtain ⟨lines, hlines, hmem, hnodup⟩ := henough enough (Nat.le_refl enough)
  obtain ⟨hbfsq, -, -⟩ := enqueueFriends_spec (resetVisited graph old source) (graph.adj source)
  have hcount := count_le_printLevels hlines
  rw [hbfsq] at hcount
  refine ⟨List.nodup_iff_count_le_one.mpr fun w => ?_, fun hself => ?_⟩
  · exact (hcount w).trans (List.nodup_iff_count_le_one.mp hnodup w)
  · have hpos := (List.count_pos_iff.mpr hself).trans_le (hcount source)
    obtain ⟨⟨n, v⟩, hentry, rfl⟩ := List.mem_map.mp (List.count_pos_iff.mp hpos)
    exact ((hmem n v).mp hentry).1 rfl

theorem prints_iff (hsource : source ∈ graph.nodes) :
    Prints graph old source ↔ (graph.adj source).Nodup ∧ source ∉ graph.adj source :=
  ⟨fun h => h.once, fun h => prints hsource h.1 h.2⟩

theorem prints_iff_three :
    Prints (.ofLines [(65, [66, 67]), (66, [65])]) (fun _ => false) 65 ↔
      ((Graph.ofLines [(65, [66, 67]), (66, [65])]).adj 65).Nodup ∧
        65 ∉ (Graph.ofLines [(65, [66, 67]), (66, [65])]).adj 65 :=
  prints_iff (by decide)

/-- `A` names `B` twice. -/
theorem not_prints_repeated : ¬ Prints (.ofLines [(65, [66, 66])]) (fun _ => false) 65 := by
  intro h
  have hnodup := h.once.1
  revert hnodup
  decide

end InterviewQuestions.FriendsByLevel
