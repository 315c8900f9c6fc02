import Mathlib.Data.ENat.Basic
import Mathlib.Data.ENat.Lattice
import Mathlib.Data.Prod.Lex

/-! Shortest paths by labels: labels that no edge can lower are lower bounds, and the least costs
where paths attain them. -/
namespace InterviewQuestions.Library.ShortestPaths

variable {V : Type*} {edge : V → V → ℕ → Prop} {source : V}

/-- The costs of the paths from the source to a node. -/
inductive Path (edge : V → V → ℕ → Prop) (source : V) : V → ℕ → Prop
  | nil : Path edge source source 0
  | snoc {u v : V} {c w : ℕ} : Path edge source u c → edge u v w → Path edge source v (c + w)

/-- No edge leads to a node at less than its label. -/
def Relaxed (edge : V → V → ℕ → Prop) (label : V → ℕ∞) : Prop :=
  ∀ u v w, edge u v w → label v ≤ label u + w

def Attained (edge : V → V → ℕ → Prop) (source : V) (label : V → ℕ∞) : Prop :=
  ∀ (v : V) (c : ℕ), label v = c → Path edge source v c

variable {label : V → ℕ∞}

theorem Path.label_le {v : V} {c : ℕ} (hpath : Path edge source v c) (hsource : label source = 0)
    (hrelaxed : Relaxed edge label) : label v ≤ c := by
  induction hpath with
  | nil => rw [hsource, Nat.cast_zero]
  | @snoc u v c w _ hedge ih =>
    calc label v ≤ label u + w := hrelaxed u v w hedge
      _ ≤ c + w := add_le_add_left ih _
      _ = (c + w : ℕ) := (Nat.cast_add c w).symm

theorem isLeast_of_relaxed (hsource : label source = 0) (hrelaxed : Relaxed edge label)
    (hattained : Attained edge source label) {v : V} {c : ℕ} (hv : label v = c) :
    IsLeast {c | Path edge source v c} c := by
  refine ⟨hattained v c hv, fun d hd => ?_⟩
  have hle := hd.label_le hsource hrelaxed
  rw [hv] at hle
  exact Nat.cast_le.mp hle

theorem label_eq_top_iff (hsource : label source = 0) (hrelaxed : Relaxed edge label)
    (hattained : Attained edge source label) (v : V) :
    label v = ⊤ ↔ ¬ ∃ c, Path edge source v c := by
  constructor
  · rintro htop ⟨c, hc⟩
    have hle := hc.label_le hsource hrelaxed
    rw [htop, top_le_iff] at hle
    exact ENat.natCast_ne_top c hle
  · intro hnone
    by_contra htop
    obtain ⟨c, hc⟩ := ENat.ne_top_iff_exists.mp htop
    exact hnone ⟨c, hattained v c hc.symm⟩

/-- Back from a node along the pointers `prev` to the source: what the edges followed cost in all,
and how many they are. -/
inductive Traced (edge : V → V → ℕ → Prop) (prev : V → Option V) (source : V) : V → ℕ → ℕ → Prop
  | nil : Traced edge prev source source 0 0
  | snoc {u v : V} {c w k : ℕ} : Traced edge prev source u c k → v ≠ source → prev v = some u →
      edge u v w → Traced edge prev source v (c + w) (k + 1)

variable {prev prev' : V → Option V} {edge' : V → V → ℕ → Prop} {v : V} {c k : ℕ}

theorem Traced.path (h : Traced edge prev source v c k) : Path edge source v c := by
  induction h with
  | nil => exact .nil
  | snoc _ _ _ hedge ih => exact .snoc ih hedge

theorem Traced.mono (h : Traced edge prev source v c k)
    (hedge : ∀ u v w, edge u v w → edge' u v w) : Traced edge' prev source v c k := by
  induction h with
  | nil => exact .nil
  | snoc _ hne hprev huv ih => exact .snoc ih hne hprev (hedge _ _ _ huv)

/-- Only the pointers of the node itself and of the nodes with edges out are followed. -/
theorem Traced.congr (h : Traced edge prev source v c k) (hv : prev' v = prev v)
    (hout : ∀ u v w, edge u v w → prev' u = prev u) : Traced edge prev' source v c k := by
  induction h with
  | nil => exact .nil
  | snoc _ hne hprev huv ih =>
    exact .snoc (ih (hout _ _ _ huv)) hne (hv.trans hprev) huv

end InterviewQuestions.Library.ShortestPaths

/-! The order in which the nodes of a graph are settled: next is the nearest of the others, by one
edge out of a settled node, and the least of several. All costs from a limit on count the same. -/
namespace InterviewQuestions.Library.ShortestPaths

variable {V : Type*} {edge : V → V → ℕ → Prop} {source u v n : V} {settled : List V} {x : ℕ∞}

/-- `⊤` where no path leads. -/
noncomputable def leastCost (edge : V → V → ℕ → Prop) (source v : V) : ℕ∞ :=
  sInf {x | ∃ c : ℕ, Path edge source v c ∧ x = c}

theorem Path.leastCost_le {c : ℕ} (h : Path edge source v c) : leastCost edge source v ≤ c :=
  sInf_le ⟨c, h, rfl⟩

theorem le_leastCost (h : ∀ c : ℕ, Path edge source v c → x ≤ c) :
    x ≤ leastCost edge source v := by
  refine le_sInf ?_
  rintro y ⟨c, hc, rfl⟩
  exact h c hc

theorem exists_path_leastCost (h : leastCost edge source v ≠ ⊤) :
    ∃ c : ℕ, Path edge source v c ∧ leastCost edge source v = c := by
  have hne : {x : ℕ∞ | ∃ c : ℕ, Path edge source v c ∧ x = c}.Nonempty := by
    by_contra hempty
    apply h
    rw [leastCost, Set.not_nonempty_iff_eq_empty.mp hempty, sInf_empty]
  exact csInf_mem hne

theorem leastCost_le_add {w : ℕ} (h : edge u v w) :
    leastCost edge source v ≤ leastCost edge source u + w := by
  by_cases htop : leastCost edge source u = ⊤
  · rw [htop, top_add]
    exact le_top
  · obtain ⟨c, hpath, hc⟩ := exists_path_leastCost htop
    rw [hc, ← Nat.cast_add]
    exact (Path.snoc hpath h).leastCost_le

/-- The least cost by one edge out of a settled node. -/
noncomputable def tentative (edge : V → V → ℕ → Prop) (source : V) (settled : List V) (v : V) :
    ℕ∞ :=
  sInf {x | v = source ∧ x = 0 ∨
    ∃ u ∈ settled, ∃ w : ℕ, edge u v w ∧ x = leastCost edge source u + w}

theorem le_tentative_iff : x ≤ tentative edge source settled v ↔
    (v = source → x ≤ 0) ∧
      ∀ u ∈ settled, ∀ w : ℕ, edge u v w → x ≤ leastCost edge source u + w := by
  rw [tentative, le_sInf_iff]
  constructor
  · intro h
    exact ⟨fun hv => h 0 (.inl ⟨hv, rfl⟩), fun u hu w hw => h _ (.inr ⟨u, hu, w, hw, rfl⟩)⟩
  · rintro ⟨hsource, hedges⟩ y (⟨hv, rfl⟩ | ⟨u, hu, w, hw, rfl⟩)
    · exact hsource hv
    · exact hedges u hu w hw

theorem le_tentative_cons_iff : x ≤ tentative edge source (n :: settled) v ↔
    x ≤ tentative edge source settled v ∧
      ∀ w : ℕ, edge n v w → x ≤ leastCost edge source n + w := by
  simp only [le_tentative_iff, List.forall_mem_cons]
  rw [and_assoc, and_comm (a := ∀ w : ℕ, edge n v w → _)]

theorem leastCost_le_tentative : leastCost edge source v ≤ tentative edge source settled v := by
  refine le_tentative_iff.mpr ⟨?_, fun u _ w hw => leastCost_le_add hw⟩
  rintro rfl
  exact Path.nil.leastCost_le

/-- A path leaves the settled nodes at a node that is no farther. -/
theorem Path.exists_tentative_le {nodes : List V} {c : ℕ} (h : Path edge source v c)
    (hsource : source ∈ nodes) (hedge : ∀ u v w, edge u v w → v ∈ nodes) :
    v ∈ settled ∨ ∃ x ∈ nodes, x ∉ settled ∧ tentative edge source settled x ≤ c := by
  induction h with
  | nil =>
    refine or_iff_not_imp_left.mpr fun hnot => ⟨source, hsource, hnot, ?_⟩
    exact sInf_le (.inl ⟨rfl, rfl⟩)
  | @snoc u v c w hpath huv ih =>
    rcases ih with hu | ⟨x, hx, hnot, hle⟩
    · refine or_iff_not_imp_left.mpr fun hnot => ⟨v, hedge u v w huv, hnot, ?_⟩
      have htentative : tentative edge source settled v ≤ leastCost edge source u + w :=
        sInf_le (.inr ⟨u, hu, w, huv, rfl⟩)
      rw [Nat.cast_add]
      exact htentative.trans (add_le_add_left hpath.leastCost_le _)
    · refine .inr ⟨x, hx, hnot, hle.trans ?_⟩
      exact Nat.cast_le.mpr (Nat.le_add_right c w)

section Order

variable [LinearOrder V] {limit : ℕ∞} {nodes : List V}

noncomputable def rank (edge : V → V → ℕ → Prop) (source : V) (limit : ℕ∞) (settled : List V)
    (v : V) : ℕ∞ ×ₗ V :=
  toLex (min (tentative edge source settled v) limit, v)

/-- The lists of the nodes settled so far, the last one first. -/
inductive Settled (edge : V → V → ℕ → Prop) (source : V) (limit : ℕ∞) (nodes : List V) :
    List V → Prop
  | nil : Settled edge source limit nodes []
  | cons {settled : List V} {n : V} : Settled edge source limit nodes settled → n ∈ nodes →
      n ∉ settled → (∀ v ∈ nodes, v ∉ n :: settled →
        rank edge source limit settled n < rank edge source limit settled v) →
      Settled edge source limit nodes (n :: settled)

theorem Settled.before (h : Settled edge source limit nodes (n :: settled)) :
    Settled edge source limit nodes settled ∧ n ∈ nodes ∧ n ∉ settled := by
  cases h with
  | cons hbefore hn hnot _ => exact ⟨hbefore, hn, hnot⟩

theorem min_tentative_le (h : rank edge source limit settled n < rank edge source limit settled v) :
    min (tentative edge source settled n) limit ≤ min (tentative edge source settled v) limit :=
  Prod.Lex.monotone_fst _ _ h.le

/-- A node is settled at the least cost of the paths to it. -/
theorem Settled.min_tentative (h : Settled edge source limit nodes (n :: settled))
    (hsource : source ∈ nodes) (hedge : ∀ u v w, edge u v w → v ∈ nodes) :
    min (tentative edge source settled n) limit = min (leastCost edge source n) limit := by
  apply le_antisymm
  · refine le_min (le_leastCost fun c hc => ?_) (min_le_right _ _)
    cases h with
    | cons _ _ hnot hfirst =>
      obtain ⟨y, hy, hynot, hle⟩ := (hc.exists_tentative_le hsource hedge).resolve_left hnot
      by_cases heq : y = n
      · rw [heq] at hle
        exact (min_le_left _ _).trans hle
      · have hrank := hfirst y hy fun hmem => hynot (List.mem_of_ne_of_mem heq hmem)
        exact (min_tentative_le hrank).trans ((min_le_left _ _).trans hle)
  · exact min_le_min_right limit leastCost_le_tentative

/-- There is one node to settle next. -/
theorem Settled.unique {m : V} (hn : Settled edge source limit nodes (n :: settled))
    (hm : Settled edge source limit nodes (m :: settled)) : n = m := by
  cases hn with
  | cons _ hnmem hnnew hnfirst =>
    cases hm with
    | cons _ hmmem hmnew hmfirst =>
      by_contra hne
      have hnm := hnfirst m hmmem (List.not_mem_cons_of_ne_of_not_mem (Ne.symm hne) hmnew)
      have hmn := hmfirst n hnmem (List.not_mem_cons_of_ne_of_not_mem hne hnnew)
      exact lt_asymm hnm hmn

end Order

end InterviewQuestions.Library.ShortestPaths
