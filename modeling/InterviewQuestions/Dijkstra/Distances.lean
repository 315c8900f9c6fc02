import InterviewQuestions.Dijkstra.Relaxation

/-! `dijkstra` leaves the least costs of paths, and `prev` leads back along such paths. -/
namespace InterviewQuestions.Dijkstra

open Library ShortestPaths

variable {source : ℤ} {s : State}

/-- What the first loop has done to the nodes it has seen. -/
structure Started (source : ℤ) (seen : List ℤ) (s : State) : Prop where
  sorted : OrderedSet.Sorted (key s.distance) s.queue
  perm : s.queue.Perm seen
  distance : ∀ v ∈ seen, s.distance v = if v = source then 0 else infinity
  prev : ∀ v ∈ seen, s.prev v = none

theorem forall_mem_update {α : Type*} (p : ℤ → α → Prop) {f : ℤ → α} {id : ℤ} {x : α}
    {seen : List ℤ} (hid : p id x) (hseen : ∀ v ∈ seen, p v (f v)) :
    ∀ v ∈ id :: seen, p v (Function.update f id x v) := by
  intro v hv
  by_cases heq : v = id
  · rw [heq, Function.update_self]
    exact hid
  · rw [Function.update_of_ne heq]
    exact hseen v (List.mem_of_ne_of_mem heq hv)

theorem Started.setUp {seen : List ℤ} (h : Started source seen s) {id : ℤ} (hid : id ∉ seen) :
    Started source (id :: seen) (setUp source s id) := by
  have hqueue : id ∉ s.queue := fun hmem => hid (h.perm.mem_iff.mp hmem)
  exact {
    sorted := OrderedSet.sorted_insert (distComparator_iff _) (key_injective _)
      (sorted_update h.sorted (List.Sublist.refl _) hqueue _)
    perm := (OrderedSet.insert_perm (distComparator_iff _) (key_injective _) hqueue).trans
      (h.perm.cons id)
    distance := forall_mem_update (fun v d => d = if v = source then 0 else infinity) rfl
      h.distance
    prev := forall_mem_update (fun _ node => node = none) rfl h.prev }

/-- The first loop. -/
theorem Started.setUp_all {ids seen : List ℤ} (h : Started source seen s) (hnodup : ids.Nodup)
    (hseen : ∀ id ∈ ids, id ∉ seen) :
    ∃ all, all.Perm (ids ++ seen) ∧ Started source all (ids.foldl (Dijkstra.setUp source) s) := by
  induction ids generalizing seen s with
  | nil => exact ⟨seen, List.Perm.refl _, h⟩
  | cons id ids ih =>
    obtain ⟨hid, hnodup⟩ := List.nodup_cons.mp hnodup
    have hrest : ∀ other ∈ ids, other ∉ id :: seen := fun other hother hmem => by
      cases List.mem_cons.mp hmem with
      | inl heq => exact hid (heq ▸ hother)
      | inr hmem => exact hseen other (List.mem_cons_of_mem _ hother) hmem
    obtain ⟨all, hperm, hall⟩ := ih (h.setUp (hseen id List.mem_cons_self)) hnodup hrest
    exact ⟨all, hperm.trans List.perm_middle, hall⟩

namespace Graph

variable {g : Graph}

/-- The state that the second loop starts from. -/
theorem started_ids (g : Graph) (source : ℤ) (distance : ℤ → UInt32) (prev : ℤ → Option ℤ) :
    ∃ all, all.Perm g.ids ∧
      Started source all (g.ids.foldl (Dijkstra.setUp source) ⟨distance, prev, []⟩) := by
  have hnodup : g.ids.Nodup := g.sorted.imp fun hlt => hlt.ne
  have hstart : Started source [] ⟨distance, prev, []⟩ :=
    ⟨List.Pairwise.nil, List.Perm.refl _, fun _ h => absurd h List.not_mem_nil,
      fun _ h => absurd h List.not_mem_nil⟩
  obtain ⟨all, hperm, hall⟩ := hstart.setUp_all hnodup fun _ _ => List.not_mem_nil
  rw [List.append_nil] at hperm
  exact ⟨all, hperm, hall⟩

/-- The edges out of the nodes that have left the queue. -/
def leaving (g : Graph) (queue : List ℤ) (u : ℤ) (edge : Edge) : Prop :=
  u ∈ g.ids ∧ u ∉ queue ∧ edge ∈ g.neighbors u

theorem inv_started {seen : List ℤ} (h : Started source seen s) (hseen : seen.Perm g.ids)
    (hsource : source ∈ g.ids) : g.Inv source (g.leaving s.queue) s := by
  have hperm : s.queue.Perm g.ids := h.perm.trans hseen
  have hdistance : ∀ v ∈ g.ids, s.distance v = if v = source then 0 else infinity :=
    fun v hv => h.distance v (hseen.mem_iff.mpr hv)
  have hzero : s.distance source = 0 := by rw [hdistance source hsource, if_pos rfl]
  have honly : ∀ v ∈ g.ids, s.distance v ≠ infinity → v = source := fun v hv hreached => by
    by_contra hne
    rw [hdistance v hv, if_neg hne] at hreached
    exact hreached rfl
  have hall : ∀ v ∈ g.ids, v ∉ s.queue → False := fun v hv hleft => hleft (hperm.mem_iff.mpr hv)
  exact {
    sorted := h.sorted
    mem_ids := fun v hv => hperm.mem_iff.mp hv
    source_zero := hzero
    backed := fun v hv hreached => by
      rw [honly v hv hreached]
      unfold Backed
      rw [hzero]
      exact ⟨0, .nil, by rw [hperm.length_eq]; omega⟩
    labelled := fun v hv hprev => absurd (h.prev v (hseen.mem_iff.mpr hv)) hprev
    room := fun v hv hreached => by
      rw [honly v hv hreached, hzero]
      exact Nat.le_of_eq ((Nat.zero_add _).trans (hperm.map _).sum_eq)
    ordered := fun u hu hleft => (hall u hu hleft).elim
    relaxed := fun u _ hu => (hall u hu.1 hu.2.1).elim }

section
variable {n : ℤ} {queue : List ℤ} {scanned : ℤ → Edge → Prop}

theorem first_le (hinv : g.Inv source scanned s) (hqueue : s.queue = n :: queue) :
    ∀ v ∈ queue, (s.distance n).toNat ≤ (s.distance v).toNat := by
  have hsorted := hinv.sorted
  rw [hqueue] at hsorted
  intro v hv
  have hlt : key s.distance n < key s.distance v := (List.pairwise_cons.mp hsorted).1 v hv
  exact Prod.Lex.monotone_fst _ _ hlt.le

theorem Backed.pop {v : ℤ} (hback : g.Backed source s 0 v) (hqueue : s.queue = n :: queue) :
    g.Backed source { s with queue } 1 v := by
  obtain ⟨k, htraced, hk⟩ := hback
  rw [hqueue, List.length_cons] at hk
  refine ⟨k, htraced.mono fun u v w hu => ⟨fun hmem => hu.1 ?_, hu.2⟩, ?_⟩
  · rw [hqueue]
    exact List.mem_cons_of_mem n hmem
  · change k + 1 + queue.length ≤ _
    omega

theorem Inv.pop (hinv : g.Inv source scanned s) (hqueue : s.queue = n :: queue)
    (hscanned : ∀ u edge, scanned u edge → u ∉ s.queue) :
    g.Inv source scanned { s with queue } ∧ g.Visiting source n { s with queue } := by
  have hmem : ∀ v, v ∈ s.queue ↔ v = n ∨ v ∈ queue := fun v => by rw [hqueue, List.mem_cons]
  have hn : n ∈ g.ids := hinv.mem_ids n ((hmem n).mpr (Or.inl rfl))
  have howed : g.owed s.queue = g.outCost n + g.owed queue := by
    rw [hqueue]
    exact List.sum_cons
  have hle := first_le hinv hqueue
  have hsorted := hinv.sorted
  rw [hqueue] at hsorted
  constructor
  · exact {
      sorted := (List.pairwise_cons.mp hsorted).2
      mem_ids := fun v hv => hinv.mem_ids v ((hmem v).mpr (Or.inr hv))
      source_zero := hinv.source_zero
      backed := fun v hv hreached => by
        obtain ⟨k, htraced, hk⟩ := (hinv.backed v hv hreached).pop hqueue
        exact ⟨k, htraced, by omega⟩
      labelled := hinv.labelled
      room := fun v hv hreached => by
        have hroom := hinv.room v hv hreached
        rw [howed] at hroom
        change (s.distance v).toNat + g.owed queue ≤ _
        omega
      ordered := fun u hu hleft v hv => by
        by_cases heq : u = n
        · rw [heq]
          exact hle v hv
        · refine hinv.ordered u hu (fun h => ?_) v ((hmem v).mpr (Or.inr hv))
          exact hleft (((hmem u).mp h).resolve_left heq)
      relaxed := fun u edge hu _ => hinv.relaxed u edge hu (hscanned u edge hu) }
  · exact {
      mem := hn
      left := (List.nodup_cons.mp hsorted.nodup).1
      last := fun u hu hleft => by
        by_cases heq : u = n
        · rw [heq]
        · refine hinv.ordered u hu (fun h => ?_) n ((hmem n).mpr (Or.inl rfl))
          exact hleft (((hmem u).mp h).resolve_left heq)
      backed := fun hreached => (hinv.backed n hn hreached).pop hqueue
      room := fun hreached => by
        have hroom := hinv.room n hn hreached
        rw [howed] at hroom
        change (s.distance n).toNat + g.outCost n + g.owed queue ≤ _
        omega }

end

/-- A round of the second loop. -/
theorem Inv.visit {n : ℤ} {queue : List ℤ} (hinv : g.Inv source (g.leaving s.queue) s)
    (hqueue : s.queue = n :: queue) (htotal : g.totalCost < 2 ^ 32 - 1) {s' : State}
    (hs' : (g.neighbors n).foldl (Dijkstra.relax n) { s with queue } = s') :
    g.Inv source (g.leaving s'.queue) s' ∧ s'.queue.length = queue.length := by
  obtain ⟨hpopped, hn⟩ := hinv.pop hqueue fun _ _ hu => hu.2.1
  obtain ⟨hrelaxed, hperm⟩ := hpopped.relax_all hn (fun _ h => h) htotal
  rw [hs'] at hrelaxed hperm
  refine ⟨hrelaxed.mono fun u edge hu => ?_, hperm.length_eq⟩
  obtain ⟨hid, hleft, hedge⟩ := hu
  by_cases heq : u = n
  · exact Or.inr ⟨heq, heq ▸ hedge⟩
  · refine Or.inl ⟨hid, fun hmem => hleft (hperm.mem_iff.mpr ?_), hedge⟩
    rw [hqueue] at hmem
    exact List.mem_of_ne_of_mem heq hmem

/-- The second loop ends when every node has left the queue. -/
theorem visitQueue_spec (htotal : g.totalCost < 2 ^ 32 - 1) {fuel : ℕ}
    (hinv : g.Inv source (g.leaving s.queue) s) (hfuel : s.queue.length < fuel) :
    ∃ s', g.visitQueue fuel s = some s' ∧ s'.queue = [] ∧
      g.Inv source (g.leaving s'.queue) s' := by
  induction fuel generalizing s with
  | zero => exact absurd hfuel (Nat.not_lt_zero _)
  | succ fuel ih =>
    unfold visitQueue
    cases hqueue : s.queue with
    | nil => exact ⟨s, rfl, hqueue, hinv⟩
    | cons n queue =>
      obtain ⟨hnext, hlength⟩ := hinv.visit hqueue htotal rfl
      rw [hqueue, List.length_cons] at hfuel
      exact ih hnext (by omega)

/-- The labels that the nodes end up with. -/
def label (g : Graph) (s : State) (v : ℤ) : ℕ∞ :=
  if v ∈ g.ids ∧ s.distance v ≠ infinity then ((s.distance v).toNat : ℕ∞) else ⊤

theorem label_eq_natCast_iff {v : ℤ} {c : ℕ} :
    g.label s v = c ↔ (v ∈ g.ids ∧ s.distance v ≠ infinity) ∧ (s.distance v).toNat = c := by
  unfold label
  split_ifs with h
  · rw [Nat.cast_inj, and_iff_right h]
  · exact iff_of_false (ENat.top_ne_natCast c) fun hc => h hc.1

theorem label_eq_top_iff {v : ℤ} (hv : v ∈ g.ids) :
    g.label s v = ⊤ ↔ s.distance v = infinity := by
  unfold label
  split_ifs with h
  · exact iff_of_false (ENat.natCast_ne_top _) h.2
  · exact iff_of_true rfl (by_contra fun hne => h ⟨hv, hne⟩)

theorem Inv.traced (hinv : g.Inv source (g.leaving s.queue) s) {v : ℤ} (hv : v ∈ g.ids)
    (hreached : s.distance v ≠ infinity) :
    ∃ k ≤ g.ids.length, Traced g.HasEdge s.prev source v (s.distance v).toNat k := by
  obtain ⟨k, htraced, hk⟩ := hinv.backed v hv hreached
  exact ⟨k, by omega, htraced.mono fun _ _ _ h => h.2⟩

theorem Inv.relaxed_label (hinv : g.Inv source (g.leaving s.queue) s) (hdone : s.queue = []) :
    Relaxed g.HasEdge (g.label s) := by
  rintro u v w ⟨hu, edge, hedge, rfl, rfl⟩
  by_cases hreached : s.distance u = infinity
  · rw [(label_eq_top_iff hu).mpr hreached, top_add]
    exact le_top
  · have hleft : u ∉ s.queue := by
      rw [hdone]
      exact List.not_mem_nil
    obtain ⟨hle, hfinite⟩ := hinv.relaxed u edge ⟨hu, hleft, hedge⟩ hleft hreached
    have hv : edge.target ∈ g.ids := g.closed u hu edge hedge
    rw [label_eq_natCast_iff.mpr ⟨⟨hv, hfinite⟩, rfl⟩,
      label_eq_natCast_iff.mpr ⟨⟨hu, hreached⟩, rfl⟩, ← Nat.cast_add]
    exact Nat.cast_le.mpr hle

theorem Inv.attained_label (hinv : g.Inv source (g.leaving s.queue) s) :
    Attained g.HasEdge source (g.label s) := by
  intro v c hc
  obtain ⟨⟨hv, hreached⟩, rfl⟩ := label_eq_natCast_iff.mp hc
  obtain ⟨k, _, htraced⟩ := hinv.traced hv hreached
  exact htraced.path

/-- `print_path` gets to the source. -/
theorem printPath_spec {edge : ℤ → ℤ → ℕ → Prop} {prev : ℤ → Option ℤ} {v : ℤ} {c k fuel : ℕ}
    (h : Traced edge prev source v c k) (hfuel : k < fuel) :
    ∃ path, printPath prev source fuel v = some path := by
  induction fuel generalizing v c k with
  | zero => exact absurd hfuel (Nat.not_lt_zero _)
  | succ fuel ih =>
    unfold printPath
    cases h with
    | nil => exact ⟨_, if_pos rfl⟩
    | @snoc u v c w k htraced hne hprev _ =>
      obtain ⟨path, hpath⟩ := ih htraced (Nat.lt_of_succ_lt_succ hfuel)
      rw [if_neg hne, hprev]
      exact ⟨path ++ [v], congrArg (Option.map _) hpath⟩

theorem exists_mapM {α β : Type*} {f : α → Option β} {l : List α}
    (h : ∀ a ∈ l, ∃ b, f a = some b) : ∃ bs, l.mapM f = some bs := by
  induction l with
  | nil => exact ⟨[], rfl⟩
  | cons a l ih =>
    obtain ⟨b, hb⟩ := h a List.mem_cons_self
    obtain ⟨bs, hbs⟩ := ih fun a ha => h a (List.mem_cons_of_mem _ ha)
    exact ⟨b :: bs, by rw [List.mapM_cons, hb, hbs]; rfl⟩

theorem printShortestPaths_spec (hinv : g.Inv source (g.leaving s.queue) s) :
    ∃ paths, g.printShortestPaths s.prev source = some paths := by
  refine exists_mapM fun v hv => ?_
  obtain ⟨hid, hprev⟩ := List.mem_filter.mp hv
  have hreached := hinv.labelled v hid (Option.isSome_iff_ne_none.mp hprev)
  obtain ⟨k, hk, htraced⟩ := hinv.traced hid hreached
  exact printPath_spec htraced (Nat.lt_succ_of_le hk)

theorem dijkstra_finds_shortest_paths (g : Graph) {source : ℤ} (hsource : source ∈ g.ids)
    (htotal : g.totalCost < infinity.toNat) (distance : ℤ → UInt32) (prev : ℤ → Option ℤ) :
    ∃ s paths, g.dijkstra source distance prev = some (s, paths) ∧ ∀ v ∈ g.ids,
      (s.distance v = infinity ↔ ¬ ∃ c, ShortestPaths.Path g.HasEdge source v c) ∧
      ((∃ c, ShortestPaths.Path g.HasEdge source v c) →
        IsLeast {c | ShortestPaths.Path g.HasEdge source v c} (s.distance v).toNat ∧
          ∃ k, Traced g.HasEdge s.prev source v (s.distance v).toNat k) := by
  obtain ⟨all, hperm, hall⟩ := started_ids g source distance prev
  have hfuel := Nat.lt_succ_of_le (hall.perm.trans hperm).length_eq.le
  obtain ⟨s, hs, hdone, hinv⟩ :=
    visitQueue_spec htotal (inv_started hall hperm hsource) hfuel
  obtain ⟨paths, hpaths⟩ := printShortestPaths_spec hinv
  have hzero : g.label s source = 0 :=
    label_eq_natCast_iff.mpr ⟨⟨hsource, by rw [hinv.source_zero]; decide⟩,
      by rw [hinv.source_zero]; rfl⟩
  have hrelaxed := hinv.relaxed_label hdone
  have hattained := hinv.attained_label
  refine ⟨s, paths, ?_, fun v hv => ?_⟩
  · rw [dijkstra, hs]
    exact congrArg (Option.map _) hpaths
  have hnone : s.distance v = infinity ↔ ¬ ∃ c, ShortestPaths.Path g.HasEdge source v c := by
    rw [← label_eq_top_iff hv]
    exact ShortestPaths.label_eq_top_iff hzero hrelaxed hattained v
  refine ⟨hnone, fun hpath => ?_⟩
  have hreached : s.distance v ≠ infinity := fun h => hnone.mp h hpath
  obtain ⟨k, _, htraced⟩ := hinv.traced hv hreached
  exact ⟨isLeast_of_relaxed hzero hrelaxed hattained
    (label_eq_natCast_iff.mpr ⟨⟨hv, hreached⟩, rfl⟩), k, htraced⟩

/-- A dearer parallel edge, a loop, an edge of no cost, and a node that no path leads to. -/
def sample : Graph :=
  let nodes := (((empty.addNode 4).addNode 1).addNode 3).addNode 2
  ((((nodes.addEdge 1 3 7 (by decide) (by decide)).addEdge 1 3 5 (by decide) (by decide)).addEdge
    3 3 1 (by decide) (by decide)).addEdge 3 2 0 (by decide) (by decide)).addEdge
      4 2 2 (by decide) (by decide)

example : (sample.dijkstra 1 (fun _ => 9) fun _ => none).map Prod.snd =
    some [[1, 3, 2], [1, 3]] := by
  decide

theorem dijkstra_finds_shortest_paths_sample :
    ∃ s paths, sample.dijkstra 1 (fun _ => 9) (fun _ => none) = some (s, paths) ∧
      ∀ v ∈ sample.ids,
        (s.distance v = infinity ↔ ¬ ∃ c, ShortestPaths.Path sample.HasEdge 1 v c) ∧
        ((∃ c, ShortestPaths.Path sample.HasEdge 1 v c) →
          IsLeast {c | ShortestPaths.Path sample.HasEdge 1 v c} (s.distance v).toNat ∧
            ∃ k, Traced sample.HasEdge s.prev 1 v (s.distance v).toNat k) :=
  dijkstra_finds_shortest_paths sample (by decide) (by decide) _ _

end Graph

end InterviewQuestions.Dijkstra
