import InterviewQuestions.Dijkstra.Distances
import InterviewQuestions.Library.ShortestPaths
import Mathlib.Algebra.GroupWithZero.Nat

/-! Whether a sum of `dijkstra` wraps around. Up to the first one that does the distances are the
exact ones, and the nodes leave the queue in the order in which shortest paths settle them. -/
namespace InterviewQuestions.Dijkstra

open Library ShortestPaths

variable {n source : ℤ} {edge : Edge} {edges more : List Edge} {s s' s'' : State}

/-! ## The loop over the edges of a node -/

/-- No edge to a queued node makes the distance of `n` wrap around. -/
def Fits (n : ℤ) (s : State) (edges : List Edge) : Prop :=
  s.distance n ≠ infinity → ∀ edge ∈ edges, edge.target ∈ s.queue →
    (s.distance n).toNat + edge.cost.toNat < 2 ^ 32

/-- What relaxing edges of `n` does: where nothing wraps around, a distance is the least of itself
and of those over the edges. -/
structure Relaxes (n : ℤ) (edges : List Edge) (s s' : State) : Prop where
  perm : s'.queue.Perm s.queue
  sorted : OrderedSet.Sorted (key s'.distance) s'.queue
  settled : ∀ v ∉ s.queue, s'.distance v = s.distance v
  lowers : Fits n s edges → ∀ v ∈ s.queue, ∀ x : ℕ, x ≤ (s'.distance v).toNat ↔
    x ≤ (s.distance v).toNat ∧ (s.distance n ≠ infinity → ∀ edge ∈ edges, edge.target = v →
      x ≤ (s.distance n).toNat + edge.cost.toNat)

theorem relaxes_nil (hsorted : OrderedSet.Sorted (key s.distance) s.queue) :
    Relaxes n [] s s where
  perm := List.Perm.refl _
  sorted := hsorted
  settled _ _ := rfl
  lowers _ _ _ _ := (and_iff_left fun _ _ hedge => absurd hedge List.not_mem_nil).symm

theorem relaxes_relax (hsorted : OrderedSet.Sorted (key s.distance) s.queue) (n : ℤ)
    (edge : Edge) : Relaxes n [edge] s (relax n s edge) := by
  rcases relax_cases hsorted n edge with h | ⟨hrelax, hcase⟩
  · refine ⟨h.perm, h.sorted, fun v hv => h.distance_of_ne (h.ne_target hv), ?_⟩
    intro hfits v hv x
    have htarget := h.toNat_distance_target (hfits h.finite edge List.mem_cons_self h.queued)
    have hlt := h.toNat_distance_lt
    simp only [List.forall_mem_singleton]
    by_cases heq : v = edge.target
    · subst heq
      rw [htarget] at hlt ⊢
      constructor
      · exact fun hx => ⟨by omega, fun _ _ => hx⟩
      · exact fun hx => hx.2 h.finite rfl
    · rw [h.distance_of_ne heq]
      exact (and_iff_left fun _ htarget => absurd htarget.symm heq).symm
  · rw [hrelax]
    refine ⟨List.Perm.refl _, hsorted, fun _ _ => rfl, ?_⟩
    intro hfits v hv x
    simp only [List.forall_mem_singleton]
    refine (and_iff_left_of_imp ?_).symm
    rintro hx hfinite rfl
    rcases hcase with hsettled | hinfinite | hnot
    · exact absurd hv hsettled
    · exact absurd hinfinite hfinite
    · have hsum := hfits hfinite edge List.mem_cons_self hv
      rw [UInt32.lt_iff_toNat_lt, UInt32.toNat_add, Nat.mod_eq_of_lt hsum] at hnot
      omega

theorem Relaxes.trans (h : Relaxes n edges s s') (h' : Relaxes n more s' s'')
    (hn : n ∉ s.queue) : Relaxes n (edges ++ more) s s'' := by
  refine ⟨h'.perm.trans h.perm, h'.sorted, ?_, ?_⟩
  · intro v hv
    rw [h'.settled v (fun hmem => hv (h.perm.mem_iff.mp hmem)), h.settled v hv]
  · intro hfits v hv x
    have hfirst : Fits n s edges := fun hfinite edge hedge =>
      hfits hfinite edge (List.mem_append_left more hedge)
    have hsecond : Fits n s' more := by
      intro hfinite edge hedge hqueue
      rw [h.settled n hn] at hfinite ⊢
      exact hfits hfinite edge (List.mem_append_right edges hedge) (h.perm.mem_iff.mp hqueue)
    rw [h'.lowers hsecond v (h.perm.mem_iff.mpr hv), h.lowers hfirst v hv, h.settled n hn,
      and_assoc]
    refine and_congr_right fun _ => ?_
    rw [← imp_and]
    refine imp_congr_right fun _ => ?_
    simp only [List.mem_append, or_imp, forall_and]

theorem relaxes_all (hsorted : OrderedSet.Sorted (key s.distance) s.queue) (hn : n ∉ s.queue) :
    Relaxes n edges s (edges.foldl (relax n) s) := by
  induction edges generalizing s with
  | nil => exact relaxes_nil hsorted
  | cons edge edges ih =>
    have hfirst := relaxes_relax hsorted n edge
    have hrest := ih hfirst.sorted fun hmem => hn (hfirst.perm.mem_iff.mp hmem)
    exact hfirst.trans hrest hn

theorem mem_sumOf (hsorted : OrderedSet.Sorted (key s.distance) s.queue)
    {sum : Sum} : sum ∈ sumOf n s edge ↔
      s.distance n ≠ infinity ∧ edge.target ∈ s.queue ∧ sum = ⟨s.distance n, edge.cost⟩ := by
  unfold sumOf
  rw [OrderedSet.find_eq (distComparator_iff _) (key_injective _) hsorted]
  by_cases hmem : edge.target ∈ s.queue
  · by_cases hfinite : s.distance n = infinity <;> simp [hmem, hfinite]
  · simp [hmem]

/-- The addition does not wrap around. -/
def Sum.Fits (sum : Sum) : Prop := sum.distance.toNat + sum.cost.toNat < 2 ^ 32

instance (sum : Sum) : Decidable sum.Fits := inferInstanceAs (Decidable (_ < _))

theorem sums_fit_iff (hsorted : OrderedSet.Sorted (key s.distance) s.queue) (hn : n ∉ s.queue) :
    (∀ sum ∈ sums n s edges, sum.Fits) ↔ Fits n s edges := by
  induction edges generalizing s with
  | nil =>
    exact iff_of_true (fun _ h => absurd h List.not_mem_nil) fun _ _ h => absurd h List.not_mem_nil
  | cons edge edges ih =>
    have hfirst := relaxes_relax hsorted n edge
    have hrest := ih hfirst.sorted fun hmem => hn (hfirst.perm.mem_iff.mp hmem)
    unfold Fits at hrest ⊢
    rw [hfirst.settled n hn] at hrest
    simp only [hfirst.perm.mem_iff] at hrest
    simp only [sums, List.mem_append, or_imp, forall_and, hrest, mem_sumOf hsorted,
      List.forall_mem_cons]
    refine and_congr_left fun _ => ?_
    constructor
    · exact fun h hfinite hmem => h _ ⟨hfinite, hmem, rfl⟩
    · rintro h _ ⟨hfinite, hmem, rfl⟩
      exact h hfinite hmem

/-! ## Rounds -/

def AllFit (visits : List Visit) : Prop := ∀ visit ∈ visits, ∀ sum ∈ visit.sums, sum.Fits

/-- No addition wraps around, and the distances of the nodes taken do not decrease. -/
def NeverWraps (visits : List Visit) : Prop :=
  AllFit visits ∧ visits.Pairwise fun first later => first.distance ≤ later.distance

instance (visits : List Visit) : Decidable (AllFit visits) :=
  inferInstanceAs (Decidable (∀ visit ∈ visits, ∀ sum ∈ visit.sums, sum.Fits))

instance (visits : List Visit) : Decidable (NeverWraps visits) :=
  inferInstanceAs (Decidable (_ ∧ _))

theorem allFit_cons {visit : Visit} {visits : List Visit} :
    AllFit (visit :: visits) ↔ (∀ sum ∈ visit.sums, sum.Fits) ∧ AllFit visits :=
  List.forall_mem_cons

theorem pop_queue {queue : List ℤ} (hsorted : OrderedSet.Sorted (key s.distance) s.queue)
    (hqueue : s.queue = n :: queue) :
    OrderedSet.Sorted (key s.distance) queue ∧ n ∉ queue ∧
      ∀ v ∈ queue, key s.distance n < key s.distance v := by
  rw [hqueue] at hsorted
  obtain ⟨hfirst, htail⟩ := List.pairwise_cons.mp hsorted
  exact ⟨htail, (List.nodup_cons.mp hsorted.nodup).1, hfirst⟩

namespace Graph

variable {g : Graph} {fuel : ℕ}

theorem visits_nil (hqueue : s.queue = []) : g.visits fuel s = [] := by
  cases fuel with
  | zero => rfl
  | succ fuel => rw [visits, hqueue]

/-- The state after a round. -/
def afterVisit (g : Graph) (n : ℤ) (queue : List ℤ) (s : State) : State :=
  (g.neighbors n).foldl (relax n) { s with queue }

theorem visits_cons {queue : List ℤ} (hqueue : s.queue = n :: queue) :
    g.visits (fuel + 1) s =
      ⟨s.distance n, sums n { s with queue } (g.neighbors n)⟩ ::
        g.visits fuel (g.afterVisit n queue s) := by
  rw [visits, hqueue]
  rfl

theorem relaxes_afterVisit {queue : List ℤ}
    (hsorted : OrderedSet.Sorted (key s.distance) s.queue) (hqueue : s.queue = n :: queue) :
    Relaxes n (g.neighbors n) { s with queue } (g.afterVisit n queue s) := by
  obtain ⟨htail, hn, _⟩ := pop_queue hsorted hqueue
  exact relaxes_all htail hn

/-- Whether or not a sum wraps around, the loop ends, and `visits` has a round for every node. -/
theorem visits_complete (hsorted : OrderedSet.Sorted (key s.distance) s.queue)
    (hfuel : s.queue.length < fuel) :
    (∃ s', g.visitQueue fuel s = some s' ∧ s'.queue = []) ∧
      (g.visits fuel s).length = s.queue.length := by
  induction fuel generalizing s with
  | zero => exact absurd hfuel (Nat.not_lt_zero _)
  | succ fuel ih =>
    cases hqueue : s.queue with
    | nil =>
      rw [visits_nil hqueue, visitQueue, hqueue]
      exact ⟨⟨s, rfl, hqueue⟩, rfl⟩
    | cons n queue =>
      have hrelaxes := relaxes_afterVisit (g := g) hsorted hqueue
      have hlength : (g.afterVisit n queue s).queue.length = queue.length := hrelaxes.perm.length_eq
      rw [hqueue, List.length_cons] at hfuel
      obtain ⟨hloop, hrounds⟩ := ih hrelaxes.sorted (by omega)
      rw [visits_cons hqueue, visitQueue, hqueue, List.length_cons, hrounds, hlength]
      exact ⟨hloop, rfl⟩

/-- The additions of the rounds fit if the edges of the node taken and the later rounds do. -/
theorem allFit_visits_iff {queue : List ℤ}
    (hsorted : OrderedSet.Sorted (key s.distance) s.queue) (hqueue : s.queue = n :: queue) :
    AllFit (g.visits (fuel + 1) s) ↔ Fits n { s with queue } (g.neighbors n) ∧
      AllFit (g.visits fuel (g.afterVisit n queue s)) := by
  obtain ⟨htail, hn, _⟩ := pop_queue hsorted hqueue
  have hround : (∀ sum ∈ sums n { s with queue } (g.neighbors n), sum.Fits) ↔
      Fits n { s with queue } (g.neighbors n) := sums_fit_iff htail hn
  rw [visits_cons hqueue, allFit_cons, hround]

/-- Without wrapping around no distance falls below that of the node taken. -/
theorem le_visits (hsorted : OrderedSet.Sorted (key s.distance) s.queue)
    (hfits : AllFit (g.visits fuel s)) {x : ℕ} (hx : ∀ v ∈ s.queue, x ≤ (s.distance v).toNat) :
    ∀ visit ∈ g.visits fuel s, x ≤ visit.distance.toNat := by
  induction fuel generalizing s with
  | zero => exact fun visit hvisit => absurd hvisit List.not_mem_nil
  | succ fuel ih =>
    cases hqueue : s.queue with
    | nil =>
      rw [visits_nil hqueue]
      exact fun visit hvisit => absurd hvisit List.not_mem_nil
    | cons n queue =>
      have hrelaxes := relaxes_afterVisit (g := g) hsorted hqueue
      obtain ⟨hround, hlater⟩ := (allFit_visits_iff hsorted hqueue).mp hfits
      rw [hqueue] at hx
      have hn : x ≤ (s.distance n).toNat := hx n List.mem_cons_self
      rw [visits_cons hqueue]
      refine List.forall_mem_cons.mpr ⟨hn, ih hrelaxes.sorted hlater fun v hv => ?_⟩
      rw [hrelaxes.perm.mem_iff] at hv
      rw [hrelaxes.lowers hround v hv]
      exact ⟨hx v (List.mem_cons_of_mem n hv), fun _ _ _ _ => Nat.le_add_right_of_le hn⟩

theorem visits_ordered (hsorted : OrderedSet.Sorted (key s.distance) s.queue)
    (hfits : AllFit (g.visits fuel s)) : NeverWraps (g.visits fuel s) := by
  refine ⟨hfits, ?_⟩
  induction fuel generalizing s with
  | zero => exact List.Pairwise.nil
  | succ fuel ih =>
    cases hqueue : s.queue with
    | nil =>
      rw [visits_nil hqueue]
      exact List.Pairwise.nil
    | cons n queue =>
      obtain ⟨_, _, hfirst⟩ := pop_queue hsorted hqueue
      have hrelaxes := relaxes_afterVisit (g := g) hsorted hqueue
      obtain ⟨hround, hrest⟩ := (allFit_visits_iff hsorted hqueue).mp hfits
      rw [visits_cons hqueue]
      refine List.pairwise_cons.mpr ⟨?_, ih hrelaxes.sorted hrest⟩
      intro later hlater
      rw [UInt32.le_iff_toNat_le]
      refine le_visits hrelaxes.sorted hrest ?_ later hlater
      intro v hv
      rw [hrelaxes.perm.mem_iff] at hv
      rw [hrelaxes.lowers hround v hv]
      have hle : (s.distance n).toNat ≤ (s.distance v).toNat :=
        Prod.Lex.monotone_fst _ _ (hfirst v hv).le
      exact ⟨hle, fun _ _ _ _ => Nat.le_add_right _ _⟩

/-! ## Exact distances -/

/-- Costs from here on are no distances. -/
noncomputable def limit : ℕ∞ := (infinity.toNat : ℕ∞)

/-- The queued nodes have the distances by which shortest paths settle the next of them. -/
structure Exact (g : Graph) (source : ℤ) (settled : List ℤ) (s : State) : Prop where
  sorted : OrderedSet.Sorted (key s.distance) s.queue
  mem_queue : ∀ v, v ∈ s.queue ↔ v ∈ g.ids ∧ v ∉ settled
  distance : ∀ v ∈ s.queue, ((s.distance v).toNat : ℕ∞) =
    min (tentative g.HasEdge source settled v) limit
  order : Settled g.HasEdge source limit g.ids settled

theorem HasEdge.mem_ids {u v : ℤ} {w : ℕ} (h : g.HasEdge u v w) : v ∈ g.ids := by
  obtain ⟨hu, edge, hedge, rfl, _⟩ := h
  exact g.closed u hu edge hedge

namespace Exact

variable {settled queue : List ℤ} (h : g.Exact source settled s) (hqueue : s.queue = n :: queue)

include h hqueue

theorem mem_queue_iff (v : ℤ) : v ∈ queue ↔ v ∈ g.ids ∧ v ∉ n :: settled := by
  obtain ⟨_, hn, _⟩ := pop_queue h.sorted hqueue
  have hmem := h.mem_queue v
  rw [hqueue, List.mem_cons] at hmem
  rw [List.mem_cons, not_or]
  constructor
  · intro hv
    obtain ⟨hid, hnot⟩ := hmem.mp (.inr hv)
    exact ⟨hid, fun heq => hn (heq ▸ hv), hnot⟩
  · rintro ⟨hid, hne, hnot⟩
    exact (hmem.mpr ⟨hid, hnot⟩).resolve_left hne

theorem settles : Settled g.HasEdge source limit g.ids (n :: settled) := by
  obtain ⟨_, _, hfirst⟩ := pop_queue h.sorted hqueue
  have hn : n ∈ s.queue := by
    rw [hqueue]
    exact List.mem_cons_self
  obtain ⟨hid, hnot⟩ := (h.mem_queue n).mp hn
  refine .cons h.order hid hnot fun v hv hlater => ?_
  have hvqueue : v ∈ queue := (h.mem_queue_iff hqueue v).mpr ⟨hv, hlater⟩
  have hvmem : v ∈ s.queue := by
    rw [hqueue]
    exact List.mem_cons_of_mem n hvqueue
  have hlt := hfirst v hvqueue
  rw [key, key, Prod.Lex.toLex_lt_toLex] at hlt
  rw [rank, rank, ← h.distance n hn, ← h.distance v hvmem, Prod.Lex.toLex_lt_toLex]
  exact hlt.imp Nat.cast_lt.mpr (And.imp_left (congrArg Nat.cast))

variable (hsource : source ∈ g.ids)

include hsource

theorem distance_first :
    ((s.distance n).toNat : ℕ∞) = min (leastCost g.HasEdge source n) limit := by
  have hn : n ∈ s.queue := by
    rw [hqueue]
    exact List.mem_cons_self
  rw [h.distance n hn]
  exact (h.settles hqueue).min_tentative hsource fun _ _ _ hedge => hedge.mem_ids

/-- The node taken is reached below the limit at the least cost, or not at all. -/
theorem reached_or_not :
    s.distance n ≠ infinity ∧ leastCost g.HasEdge source n < limit ∧
        leastCost g.HasEdge source n = (s.distance n).toNat ∨
      s.distance n = infinity ∧ limit ≤ leastCost g.HasEdge source n := by
  have hfirst := h.distance_first hqueue hsource
  rcases lt_or_ge (leastCost g.HasEdge source n) limit with hlt | hge
  · rw [min_eq_left hlt.le] at hfirst
    refine .inl ⟨fun heq => ?_, hlt, hfirst.symm⟩
    rw [← hfirst, heq] at hlt
    exact lt_irrefl _ hlt
  · rw [min_eq_right hge] at hfirst
    exact .inr ⟨UInt32.toNat_inj.mp (Nat.cast_injective hfirst), hge⟩

theorem fits_iff : Fits n { s with queue } (g.neighbors n) ↔
    (leastCost g.HasEdge source n < limit → ∀ edge ∈ g.neighbors n, edge.target ∉ n :: settled →
      leastCost g.HasEdge source n + edge.cost.toNat < 2 ^ 32) := by
  have hid : n ∈ g.ids := (h.settles hqueue).before.2.1
  rcases h.reached_or_not hqueue hsource with ⟨hfinite, hlt, hcost⟩ | ⟨hinfinite, hge⟩
  · rw [Fits, forall_prop_of_true hfinite, forall_prop_of_true hlt, hcost]
    refine forall₂_congr fun edge hedge => ?_
    rw [h.mem_queue_iff hqueue, and_iff_right (g.closed n hid edge hedge)]
    exact imp_congr_right fun _ => by exact_mod_cast Iff.rfl
  · exact iff_of_true (fun hne => absurd hinfinite hne) fun hlt => absurd hlt (not_lt.mpr hge)

/-- A bound below the limit is one on the costs over the edges of the node taken. -/
theorem le_edges_iff {k : ℕ} (hk : (k : ℕ∞) ≤ limit) (v : ℤ) :
    (s.distance n ≠ infinity → ∀ edge ∈ g.neighbors n, edge.target = v →
      k ≤ (s.distance n).toNat + edge.cost.toNat) ↔
    ∀ w : ℕ, g.HasEdge n v w → (k : ℕ∞) ≤ leastCost g.HasEdge source n + w := by
  have hid : n ∈ g.ids := (h.settles hqueue).before.2.1
  rcases h.reached_or_not hqueue hsource with ⟨hfinite, _, hcost⟩ | ⟨hinfinite, hge⟩
  · rw [forall_prop_of_true hfinite, hcost]
    constructor
    · rintro hall w ⟨_, edge, hedge, htarget, rfl⟩
      exact_mod_cast hall edge hedge htarget
    · intro hall edge hedge htarget
      exact_mod_cast hall _ ⟨hid, edge, hedge, htarget, rfl⟩
  · refine iff_of_true (fun hne => absurd hinfinite hne) fun w _ => ?_
    exact (hk.trans hge).trans le_self_add

theorem after (hfits : Fits n { s with queue } (g.neighbors n)) :
    g.Exact source (n :: settled) (g.afterVisit n queue s) := by
  have hrelaxes := relaxes_afterVisit (g := g) h.sorted hqueue
  refine ⟨hrelaxes.sorted, ?_, ?_, h.settles hqueue⟩
  · intro v
    rw [hrelaxes.perm.mem_iff]
    exact h.mem_queue_iff hqueue v
  · intro v hv
    rw [hrelaxes.perm.mem_iff] at hv
    have hvqueue : v ∈ s.queue := by
      rw [hqueue]
      exact List.mem_cons_of_mem n hv
    refine eq_of_forall_le_iff fun x => ?_
    cases x with
    | top =>
      have htop : ¬ ⊤ ≤ limit := not_le.mpr (ENat.natCast_lt_top _)
      exact iff_of_false (not_le.mpr (ENat.natCast_lt_top _)) fun hle => htop (le_min_iff.mp hle).2
    | coe k =>
      rw [Nat.cast_le, hrelaxes.lowers hfits v hv, ← Nat.cast_le (α := ℕ∞), h.distance v hvqueue,
        le_min_iff, le_min_iff, le_tentative_cons_iff, and_right_comm]
      refine and_congr_left fun hk => and_congr_right fun _ => ?_
      exact h.le_edges_iff hqueue hsource hk v

end Exact

/-- The node that shortest paths settle next is the first of the queue. -/
theorem Exact.queue_eq {settled : List ℤ} (h : g.Exact source settled s)
    (hn : Settled g.HasEdge source limit g.ids (n :: settled)) :
    ∃ queue, s.queue = n :: queue := by
  obtain ⟨_, hid, hnot⟩ := hn.before
  obtain ⟨m, queue, hqueue⟩ := List.exists_cons_of_ne_nil
    (List.ne_nil_of_mem ((h.mem_queue n).mpr ⟨hid, hnot⟩))
  obtain rfl : m = n := (h.settles hqueue).unique hn
  exact ⟨queue, hqueue⟩

theorem exact_started {seen : List ℤ} (h : Started source seen s) (hseen : seen.Perm g.ids) :
    g.Exact source [] s := by
  have hperm : s.queue.Perm g.ids := h.perm.trans hseen
  refine ⟨h.sorted, ?_, ?_, .nil⟩
  · intro v
    rw [hperm.mem_iff]
    exact (and_iff_left List.not_mem_nil).symm
  · intro v hv
    rw [h.distance v (h.perm.mem_iff.mp hv)]
    by_cases heq : v = source
    · have hzero : tentative g.HasEdge source [] v = 0 :=
        le_antisymm ((le_tentative_iff.mp le_rfl).1 heq) zero_le
      rw [if_pos heq, hzero]
      exact (zero_min _).symm
    · have htop : tentative g.HasEdge source [] v = ⊤ :=
        top_le_iff.mp (le_tentative_iff.mpr
          ⟨fun hv => absurd hv heq, fun u hu => absurd hu List.not_mem_nil⟩)
      rw [if_neg heq, htop, min_eq_right le_top]
      rfl

/-- No edge from a node to one that is settled later makes the least cost wrap around. -/
def SumsFit (g : Graph) (source : ℤ) : Prop :=
  ∀ settled n, Settled g.HasEdge source limit g.ids (n :: settled) →
    leastCost g.HasEdge source n < limit → ∀ edge ∈ g.neighbors n, edge.target ∉ n :: settled →
      leastCost g.HasEdge source n + edge.cost.toNat < 2 ^ 32

theorem visits_fit (hfits : g.SumsFit source) (hsource : source ∈ g.ids) {settled : List ℤ}
    (h : g.Exact source settled s) : AllFit (g.visits fuel s) := by
  induction fuel generalizing s settled with
  | zero => exact fun visit hvisit => absurd hvisit List.not_mem_nil
  | succ fuel ih =>
    cases hqueue : s.queue with
    | nil =>
      rw [visits_nil hqueue]
      exact fun visit hvisit => absurd hvisit List.not_mem_nil
    | cons n queue =>
      have hround := (h.fits_iff hqueue hsource).mpr (hfits settled n (h.settles hqueue))
      exact (allFit_visits_iff h.sorted hqueue).mpr ⟨hround, ih (h.after hqueue hsource hround)⟩

/-- Where nothing wraps around, a round comes for every list of settled nodes. -/
theorem exists_round (hsource : source ∈ g.ids) (h : g.Exact source [] s)
    (hfuel : s.queue.length < fuel) (hfits : AllFit (g.visits fuel s)) {settled : List ℤ}
    (hsettled : Settled g.HasEdge source limit g.ids settled) :
    ∃ rest s', g.Exact source settled s' ∧ s'.queue.length < rest ∧
      AllFit (g.visits rest s') := by
  induction hsettled with
  | nil => exact ⟨fuel, s, h, hfuel, hfits⟩
  | @cons settled n hbefore hid hnot hfirst ih =>
    obtain ⟨rest, s', hexact, hrest, hfits'⟩ := ih
    obtain ⟨queue, hqueue⟩ := hexact.queue_eq (.cons hbefore hid hnot hfirst)
    obtain ⟨rest, rfl⟩ : ∃ r, rest = r + 1 := ⟨rest - 1, by omega⟩
    obtain ⟨hround, hlater⟩ := (allFit_visits_iff hexact.sorted hqueue).mp hfits'
    refine ⟨rest, _, hexact.after hqueue hsource hround, ?_, hlater⟩
    rw [(relaxes_afterVisit hexact.sorted hqueue).perm.length_eq]
    rw [hqueue, List.length_cons] at hrest
    change queue.length < rest
    omega

theorem dijkstra_never_wraps_iff (g : Graph) {source : ℤ} (hsource : source ∈ g.ids)
    (distance : ℤ → UInt32) (prev : ℤ → Option ℤ) :
    NeverWraps (g.dijkstraVisits source distance prev) ↔ g.SumsFit source := by
  obtain ⟨all, hperm, hall⟩ := started_ids g source distance prev
  have hstart := exact_started hall hperm
  have hfuel := Nat.lt_succ_of_le (hall.perm.trans hperm).length_eq.le
  constructor
  · rintro ⟨hfits, _⟩ settled n hsettled
    obtain ⟨rest, s, hexact, hrest, hvisits⟩ :=
      exists_round hsource hstart hfuel hfits hsettled.before.1
    obtain ⟨queue, hqueue⟩ := hexact.queue_eq hsettled
    obtain ⟨rest, rfl⟩ : ∃ r, rest = r + 1 := ⟨rest - 1, by omega⟩
    have hround := ((allFit_visits_iff hexact.sorted hqueue).mp hvisits).1
    exact (hexact.fits_iff hqueue hsource).mp hround
  · intro hfits
    exact visits_ordered hall.sorted (visits_fit hfits hsource hstart)

theorem dijkstra_never_wraps_iff_sample : sample.SumsFit 1 :=
  (dijkstra_never_wraps_iff sample (by decide) (fun _ => 9) fun _ => none).mp
    (by decide +kernel)

/-- A chain of four nodes, each `INT_MAX` from the one before. -/
def farChain : Graph :=
  let nodes := (((empty.addNode 0).addNode 1).addNode 2).addNode 3
  ((nodes.addEdge 0 1 2147483647 (by decide) (by decide)).addEdge 1 2 2147483647 (by decide)
    (by decide)).addEdge 2 3 2147483647 (by decide) (by decide)

/-- The last node gets nearer than the third. -/
theorem farChain_wraps : ¬ ∀ (g : Graph) (source : ℤ), source ∈ g.ids →
    (∀ id ∈ g.ids, ∀ edge ∈ g.neighbors id, edge.cost.toNat < 2 ^ 31) →
    ∀ (distance : ℤ → UInt32) (prev : ℤ → Option ℤ),
      NeverWraps (g.dijkstraVisits source distance prev) := by
  intro hall
  have hwraps : ¬ NeverWraps (farChain.dijkstraVisits 0 (fun _ => 0) fun _ => none) := by
    decide +kernel
  exact hwraps (hall farChain 0 (by decide) (by decide) _ _)

end Graph

end InterviewQuestions.Dijkstra
