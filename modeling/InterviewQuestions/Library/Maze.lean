import Mathlib.Data.Set.Basic
import Mathlib.Data.Set.Insert
import Mathlib.Logic.Relation
import Mathlib.Tactic.Common

/-! A depth-first search on foot. From each place the moves are tried in a fixed order; a move that
leads outside or to a place seen before is taken back at once. -/
namespace InterviewQuestions.Library

/-- Noting a move costs something, also if it is taken back. -/
structure Maze (α M : Type*) where
  moves : List M
  go : M → α → α
  inside : α → Bool
  cost : M → ℕ

/-- The way to a place, and what comes into consideration next should it turn out to be wrong. The
most that was noted at one time is `reach`. -/
structure Trail (α M : Type*) where
  place : α
  seen : List α
  route : List M
  later : List α
  reach : ℕ

inductive Outcome (α M : Type*)
  | tooDeep
  | failed (seen : List α) (reach : ℕ)
  | found (trail : Trail α M)

variable {α M : Type*}

def Outcome.atLeast (r : ℕ) : Outcome α M → Outcome α M
  | .tooDeep => .tooDeep
  | .failed seen reach => .failed seen (max r reach)
  | .found t => .found { t with reach := max r t.reach }

namespace Maze

/-- The given moves are tried from `c`. -/
def attempts (maze : Maze α M) (call : List α → α → Outcome α M) (c : α) :
    List M → List α → Outcome α M
  | [], seen => .failed seen 0
  | m :: ms, seen =>
      match call seen (maze.go m c) with
      | .tooDeep => .tooDeep
      | .failed seen reach => (maze.attempts call c ms seen).atLeast (maze.cost m + max 1 reach)
      | .found t => .found { t with
          route := m :: t.route
          later := t.later ++ ms.map (maze.go · c)
          reach := maze.cost m + max 1 t.reach }

/-- The search for a place where `target` holds, at most `depth` moves deep. -/
def walk [DecidableEq α] (maze : Maze α M) (target : α → Bool) :
    ℕ → List α → α → Outcome α M
  | 0, _, _ => .tooDeep
  | depth + 1, seen, c =>
      if maze.inside c = false ∨ c ∈ seen then .failed seen 0
      else if target c then .found ⟨c, seen, [], [], 0⟩
      else maze.attempts (maze.walk target depth) c maze.moves (c :: seen)

/-- All moves from `c`. -/
def leave [DecidableEq α] (maze : Maze α M) (target : α → Bool) (depth : ℕ) (seen : List α)
    (c : α) : Outcome α M :=
  maze.attempts (maze.walk target depth) c maze.moves seen

variable {maze : Maze α M} {call call' : List α → α → Outcome α M} {c u v : α} {ms : List M} {m : M}
  {seen seen' seen'' : List α} {t : Trail α M} {reach r : ℕ}
  {zone zone' entries entries' : Set α}

theorem atLeast_eq_tooDeep {o : Outcome α M} : o.atLeast r = .tooDeep ↔ o = .tooDeep := by
  cases o <;> simp [Outcome.atLeast]

/-! ## The places seen -/

/-- One move further, into the region. -/
def Step (maze : Maze α M) (zone : Set α) (u v : α) : Prop :=
  v ∈ zone ∧ ∃ m ∈ maze.moves, maze.go m u = v

/-- There is a way from one place to the other in the region. -/
def Linked (maze : Maze α M) (zone : Set α) : α → α → Prop :=
  Relation.ReflTransGen (maze.Step zone)

theorem Linked.mono (h : maze.Linked zone u v) (hsub : zone ⊆ zone') :
    maze.Linked zone' u v :=
  Relation.ReflTransGen.mono (fun _ _ hstep => ⟨hsub hstep.1, hstep.2⟩) _ _ h

/-- The places that come to be seen. -/
def added (seen seen' : List α) : Set α := {v | v ∈ seen' ∧ v ∉ seen}

/-- There is a way to each place of the zone from one of the entries. -/
def Entered (maze : Maze α M) (entries zone : Set α) : Prop :=
  ∀ v ∈ zone, ∃ u ∈ entries, u ∈ zone ∧ maze.Linked zone u v

theorem Entered.mono (h : maze.Entered entries zone) (hsub : zone ⊆ zone')
    (hv : v ∈ zone) (hentries : entries ⊆ entries') :
    ∃ u ∈ entries', u ∈ zone' ∧ maze.Linked zone' u v := by
  obtain ⟨u, hu, huzone, hlinked⟩ := h v hv
  exact ⟨u, hentries hu, hsub huzone, hlinked.mono hsub⟩

/-- What a search has seen that found nothing from the entries. -/
structure Searched (maze : Maze α M) (entries : Set α) (seen seen' : List α) : Prop where
  mono : ∀ v ∈ seen, v ∈ seen'
  inside : ∀ v ∈ added seen seen', maze.inside v
  closed : ∀ v ∈ added seen seen', ∀ m ∈ maze.moves, maze.inside (maze.go m v) → maze.go m v ∈ seen'
  entered : ∀ v ∈ entries, maze.inside v → v ∈ seen'
  linked : maze.Entered entries (added seen seen')

theorem searched_self (maze : Maze α M) (h : ∀ v ∈ entries, maze.inside v → v ∈ seen) :
    maze.Searched entries seen seen := by
  have hnot (v : α) : v ∉ added seen seen := fun hv => hv.2 hv.1
  exact ⟨fun _ hv => hv, fun v hv => absurd hv (hnot v), fun v hv => absurd hv (hnot v), h,
    fun v hv => absurd hv (hnot v)⟩

theorem added_subset_left (h : ∀ v ∈ seen', v ∈ seen'') : added seen seen' ⊆ added seen seen'' :=
  fun v hv => ⟨h v hv.1, hv.2⟩

theorem added_subset_right (h : ∀ v ∈ seen, v ∈ seen') : added seen' seen'' ⊆ added seen seen'' :=
  fun v hv => ⟨hv.1, fun hmem => hv.2 (h v hmem)⟩

theorem mem_added_or (hv : v ∈ added seen seen'') :
    v ∈ added seen seen' ∨ v ∈ added seen' seen'' := by
  by_cases hmem : v ∈ seen'
  · exact .inl ⟨hmem, hv.2⟩
  · exact .inr ⟨hv.1, hmem⟩

theorem Searched.trans (h : maze.Searched entries seen seen')
    (h' : maze.Searched entries' seen' seen'') :
    maze.Searched (entries ∪ entries') seen seen'' where
  mono v hv := h'.mono v (h.mono v hv)
  inside v hv := (mem_added_or hv).elim (h.inside v) (h'.inside v)
  closed v hv m hm hin :=
    (mem_added_or hv).elim (fun hv => h'.mono _ (h.closed v hv m hm hin))
      (fun hv => h'.closed v hv m hm hin)
  entered v hv hin :=
    hv.elim (fun hv => h'.mono v (h.entered v hv hin)) (fun hv => h'.entered v hv hin)
  linked _ hv :=
    (mem_added_or hv).elim
      (fun hv => h.linked.mono (added_subset_left h'.mono) hv Set.subset_union_left)
      (fun hv => h'.linked.mono (added_subset_right h.mono) hv Set.subset_union_right)

/-- The part of a maze that the search has been in when it finds a place. -/
def region (seen : List α) (t : Trail α M) : Set α := insert t.place (added seen t.seen)

/-- The moves lead from one place to another without leaving the maze. -/
def Passes (maze : Maze α M) : List M → α → α → Prop
  | [], c, d => c = d
  | m :: ms, c, d => maze.inside (maze.go m c) ∧ maze.Passes ms (maze.go m c) d

structure Arrived (maze : Maze α M) (target : α → Bool) (entries : Set α) (seen : List α)
    (t : Trail α M) : Prop where
  mono : ∀ v ∈ seen, v ∈ t.seen
  inside : ∀ v ∈ region seen t, maze.inside v
  fresh : t.place ∉ t.seen
  target : target t.place
  linked : maze.Entered entries (region seen t)

theorem Searched.arrived {target : α → Bool} (h : maze.Searched entries seen seen')
    (h' : maze.Arrived target entries' seen' t) :
    maze.Arrived target (entries ∪ entries') seen t := by
  have hsub : region seen' t ⊆ region seen t :=
    Set.insert_subset_insert (added_subset_right h.mono)
  have hleft : added seen seen' ⊆ region seen t :=
    (added_subset_left h'.mono).trans (Set.subset_insert _ _)
  have hcases (v : α) (hv : v ∈ region seen t) :
      v ∈ added seen seen' ∨ v ∈ region seen' t := by
    rcases hv with hv | hv
    · exact .inr (.inl hv)
    · exact (mem_added_or hv).imp id .inr
  refine ⟨fun v hv => h'.mono v (h.mono v hv), fun v hv => ?_, h'.fresh, h'.target, fun v hv => ?_⟩
  · exact (hcases v hv).elim (h.inside v) (h'.inside v)
  · rcases hcases v hv with hv | hv
    · exact h.linked.mono hleft hv Set.subset_union_left
    · exact h'.linked.mono hsub hv Set.subset_union_right

/-- The places that the moves lead to. -/
def exits (maze : Maze α M) (c : α) (ms : List M) : Set α := {v | ∃ m ∈ ms, maze.go m c = v}

theorem exits_cons : maze.exits c (m :: ms) = {maze.go m c} ∪ maze.exits c ms := by
  ext v
  simp [exits, eq_comm]

theorem Entered.behind (h : maze.Entered (maze.exits c maze.moves) zone) :
    maze.Entered {c} (insert c zone) := by
  intro v hv
  refine ⟨c, rfl, Set.mem_insert c zone, ?_⟩
  rcases hv with rfl | hv
  · exact .refl
  · obtain ⟨u, ⟨m, hm, rfl⟩, hu, hlinked⟩ := h v hv
    exact .head ⟨Set.mem_insert_of_mem c hu, m, hm, rfl⟩ (hlinked.mono (Set.subset_insert c zone))

theorem added_cons (hc : c ∉ seen) (hc' : c ∈ seen') :
    added seen seen' = insert c (added (c :: seen) seen') := by
  ext v
  by_cases hv : v = c
  · subst hv
    exact iff_of_true ⟨hc', hc⟩ (Set.mem_insert v _)
  · simp [added, hv]

theorem Searched.behind (h : maze.Searched (maze.exits c maze.moves) (c :: seen) seen')
    (hin : maze.inside c) (hc : c ∉ seen) : maze.Searched {c} seen seen' := by
  have hc' : c ∈ seen' := h.mono c List.mem_cons_self
  have hadded := added_cons hc hc'
  refine ⟨fun v hv => h.mono v (List.mem_cons_of_mem c hv), ?_, ?_, fun v hv _ => hv ▸ hc', ?_⟩
  · rw [hadded]
    rintro v (rfl | hv)
    · exact hin
    · exact h.inside v hv
  · rw [hadded]
    rintro v (rfl | hv) m hm hv'
    · exact h.entered _ ⟨m, hm, rfl⟩ hv'
    · exact h.closed v hv m hm hv'
  · rw [hadded]
    exact h.linked.behind

theorem Arrived.behind {target : α → Bool}
    (h : maze.Arrived target (maze.exits c maze.moves) (c :: seen) t) (hin : maze.inside c)
    (hc : c ∉ seen) : maze.Arrived target {c} seen t := by
  have hregion : region seen t = insert c (region (c :: seen) t) := by
    unfold region
    rw [added_cons hc (h.mono c List.mem_cons_self), Set.insert_comm]
  refine ⟨fun v hv => h.mono v (List.mem_cons_of_mem c hv), ?_, h.fresh, h.target, ?_⟩
  · rw [hregion]
    rintro v (rfl | hv)
    · exact hin
    · exact h.inside v hv
  · rw [hregion]
    exact h.linked.behind

/-! ## What a search has seen -/

theorem attempts_failed (h : maze.attempts call c (m :: ms) seen = .failed seen' reach) :
    ∃ middle r r', call seen (maze.go m c) = .failed middle r ∧
      maze.attempts call c ms middle = .failed seen' r' := by
  unfold attempts at h
  cases hm : call seen (maze.go m c) with
  | tooDeep =>
    rw [hm] at h
    cases h
  | found t =>
    rw [hm] at h
    cases h
  | failed middle r =>
    rw [hm] at h
    dsimp only at h
    cases hrest : maze.attempts call c ms middle with
    | failed last r' =>
      rw [hrest] at h
      cases h
      exact ⟨middle, r, r', rfl, hrest⟩
    | tooDeep | found t =>
      rw [hrest] at h
      cases h

/-- Either the first move leads to the place, or it is taken back. -/
theorem attempts_found (h : maze.attempts call c (m :: ms) seen = .found t) :
    (∃ t', call seen (maze.go m c) = .found t' ∧ t'.place = t.place ∧ t'.seen = t.seen ∧
      t.route = m :: t'.route ∧ t.later = t'.later ++ ms.map (maze.go · c)) ∨
    ∃ middle r t', call seen (maze.go m c) = .failed middle r ∧
      maze.attempts call c ms middle = .found t' ∧ t'.place = t.place ∧ t'.seen = t.seen ∧
        t.route = t'.route ∧ t.later = t'.later := by
  unfold attempts at h
  cases hm : call seen (maze.go m c) with
  | tooDeep =>
    rw [hm] at h
    cases h
  | found t' =>
    rw [hm] at h
    cases h
    exact .inl ⟨t', rfl, rfl, rfl, rfl, rfl⟩
  | failed middle r =>
    rw [hm] at h
    dsimp only at h
    cases hrest : maze.attempts call c ms middle with
    | found t' =>
      rw [hrest] at h
      cases h
      exact .inr ⟨middle, r, t', rfl, hrest, rfl, rfl, rfl, rfl⟩
    | tooDeep | failed last r' =>
      rw [hrest] at h
      cases h

theorem searched_attempts
    (hcall : ∀ seen c seen' reach, call seen c = .failed seen' reach → maze.Searched {c} seen seen')
    (h : maze.attempts call c ms seen = .failed seen' reach) :
    maze.Searched (maze.exits c ms) seen seen' := by
  induction ms generalizing seen reach with
  | nil =>
    cases h
    exact searched_self maze (fun v ⟨_, hm, _⟩ => absurd hm List.not_mem_nil)
  | cons m ms ih =>
    rw [exits_cons]
    obtain ⟨middle, r, r', hm, hrest⟩ := attempts_failed h
    exact (hcall _ _ _ _ hm).trans (ih hrest)

theorem Arrived.congr {target : α → Bool} {t' : Trail α M} (h : maze.Arrived target entries seen t')
    (hplace : t'.place = t.place) (hseen : t'.seen = t.seen) (hsub : entries ⊆ entries') :
    maze.Arrived target entries' seen t := by
  have hregion : region seen t' = region seen t := by
    unfold region
    rw [hplace, hseen]
  refine ⟨hseen ▸ h.mono, hregion ▸ h.inside, hplace ▸ hseen ▸ h.fresh, hplace ▸ h.target, ?_⟩
  rw [← hregion]
  exact fun v hv => h.linked.mono subset_rfl hv hsub

theorem arrived_attempts {target : α → Bool}
    (hcall : ∀ seen c seen' reach, call seen c = .failed seen' reach → maze.Searched {c} seen seen')
    (hcall' : ∀ seen c t, call seen c = .found t → maze.Arrived target {c} seen t)
    (h : maze.attempts call c ms seen = .found t) :
    maze.Arrived target (maze.exits c ms) seen t := by
  induction ms generalizing seen t with
  | nil => cases h
  | cons m ms ih =>
    rw [exits_cons]
    rcases attempts_found h with
      ⟨t', hm, hplace, hseen, -⟩ | ⟨middle, r, t', hm, hrest, hplace, hseen, -⟩
    · exact (hcall' _ _ _ hm).congr hplace hseen Set.subset_union_left
    · exact ((hcall _ _ _ _ hm).arrived (ih hrest)).congr hplace hseen subset_rfl

theorem passes_attempts
    (hcall : ∀ seen c t, call seen c = .found t → maze.inside c ∧ maze.Passes t.route c t.place)
    (h : maze.attempts call c ms seen = .found t) : maze.Passes t.route c t.place := by
  induction ms generalizing seen t with
  | nil => cases h
  | cons m ms ih =>
    rcases attempts_found h with ⟨t', hm, hplace, -, hroute, -⟩ |
      ⟨middle, r, t', -, hrest, hplace, -, hroute, -⟩
    · rw [hroute, ← hplace]
      exact hcall _ _ _ hm
    · rw [hroute, ← hplace]
      exact ih hrest

theorem attempts_congr (hcall : ∀ seen c, call' seen c = call seen c) (c : α) (ms : List M)
    (seen : List α) : maze.attempts call' c ms seen = maze.attempts call c ms seen := by
  rw [funext fun seen => funext (hcall seen)]

/-! ## Connected zones -/

/-- There is a way between any two places of the zone. -/
def Connected (maze : Maze α M) (zone : Set α) : Prop :=
  ∀ u ∈ zone, ∀ v ∈ zone, maze.Linked zone u v

/-- Each move can be undone. -/
def Reversible (maze : Maze α M) : Prop :=
  ∀ m ∈ maze.moves, ∀ c, ∃ m' ∈ maze.moves, maze.go m' (maze.go m c) = c

theorem Linked.symm (hback : maze.Reversible) (hu : u ∈ zone) (h : maze.Linked zone u v) :
    maze.Linked zone v u := by
  have hboth : maze.Linked zone v u ∧ v ∈ zone := by
    induction h with
    | refl => exact ⟨.refl, hu⟩
    | tail _ hstep ih =>
      obtain ⟨hv, m, hm, rfl⟩ := hstep
      obtain ⟨m', hm', heq⟩ := hback m hm _
      exact ⟨.head ⟨ih.2, m', hm', heq⟩ ih.1, hv⟩
  exact hboth.1

theorem connected_of_linked (hback : maze.Reversible) (hc : c ∈ zone)
    (h : ∀ v ∈ zone, maze.Linked zone c v) : maze.Connected zone :=
  fun u hu v hv => ((h u hu).symm hback hc).trans (h v hv)

theorem Entered.connected (hback : maze.Reversible) (h : maze.Entered {c} zone) (hc : c ∈ zone) :
    maze.Connected zone := by
  apply connected_of_linked hback hc
  intro v hv
  obtain ⟨u, rfl, -, hlinked⟩ := h v hv
  exact hlinked

/-- A zone grows by what is entered from one of its places. -/
theorem Connected.union (hback : maze.Reversible) (h : maze.Connected zone) (hc : c ∈ zone)
    (h' : maze.Entered (maze.exits c maze.moves) zone') : maze.Connected (zone ∪ zone') := by
  apply connected_of_linked hback (Set.mem_union_left zone' hc)
  rintro v (hv | hv)
  · exact (h c hc v hv).mono Set.subset_union_left
  · obtain ⟨u, ⟨m, hm, rfl⟩, hu, hlinked⟩ := h' v hv
    exact .head ⟨Set.mem_union_right zone hu, m, hm, rfl⟩ (hlinked.mono Set.subset_union_right)

/-- What has not been seen is seen by a search that finds nothing, if it is connected. -/
theorem Searched.mem_of_connected (h : maze.Searched (maze.exits c maze.moves) seen seen')
    (hzone : maze.Connected zone) (hin : ∀ v ∈ zone, maze.inside v) (hnew : ∀ v ∈ zone, v ∉ seen)
    (hc : c ∈ zone) (hu : u ∈ zone) (huc : u ≠ c) (hv : v ∈ zone) : v ∈ seen' := by
  obtain heq | ⟨next, ⟨hnext, hmove⟩, -⟩ := (hzone c hc u hu).cases_head
  · exact absurd heq.symm huc
  · have hboth : v ∈ zone ∧ v ∈ seen' := by
      have hlinked := hzone next hnext v hv
      clear hv
      induction hlinked with
      | refl => exact ⟨hnext, h.entered next hmove (hin next hnext)⟩
      | tail _ hstep ih =>
        obtain ⟨hlast, m, hm, rfl⟩ := hstep
        obtain ⟨hmem, hseen⟩ := ih
        exact ⟨hlast, h.closed _ ⟨hseen, hnew _ hmem⟩ m hm (hin _ hlast)⟩
    exact hboth.2

/-! ## Deeper searches -/

theorem attempts_deeper
    (hcall : ∀ seen c, call seen c ≠ .tooDeep → call' seen c = call seen c)
    (h : maze.attempts call c ms seen ≠ .tooDeep) :
    maze.attempts call' c ms seen = maze.attempts call c ms seen := by
  induction ms generalizing seen with
  | nil => rfl
  | cons m ms ih =>
    unfold attempts at h ⊢
    have hm : call seen (maze.go m c) ≠ .tooDeep := by
      intro heq
      rw [heq] at h
      exact h rfl
    rw [hcall seen _ hm]
    cases hresult : call seen (maze.go m c) with
    | tooDeep => exact absurd hresult hm
    | found t => rfl
    | failed seen reach =>
      rw [hresult] at h
      dsimp only at h ⊢
      rw [ih fun heq => h (atLeast_eq_tooDeep.mpr heq)]

variable [DecidableEq α] {target target' : α → Bool} {depth depth' : ℕ}

theorem walk_deeper (hdepth : depth ≤ depth') (h : maze.walk target depth seen c ≠ .tooDeep) :
    maze.walk target depth' seen c = maze.walk target depth seen c := by
  induction depth generalizing depth' seen c with
  | zero => exact absurd rfl h
  | succ depth ih =>
    obtain ⟨depth', rfl⟩ := Nat.exists_eq_add_of_le' (Nat.zero_lt_succ depth |>.trans_le hdepth)
    unfold walk at h ⊢
    split
    · rfl
    · next hc =>
      rw [if_neg hc] at h
      split
      · rfl
      · next ht =>
        rw [if_neg ht] at h
        exact attempts_deeper (fun seen c => ih (Nat.le_of_succ_le_succ hdepth)) h

theorem leave_deeper (hdepth : depth ≤ depth') (h : maze.leave target depth seen c ≠ .tooDeep) :
    maze.leave target depth' seen c = maze.leave target depth seen c :=
  attempts_deeper (fun _ _ => walk_deeper hdepth) h

theorem walk_succ (h : maze.inside c = true) (hc : c ∉ seen) (ht : target c = false) :
    maze.walk target (depth + 1) seen c = maze.leave target depth (c :: seen) c := by
  rw [walk, if_neg (by simp [h, hc]), if_neg (by simp [ht])]
  rfl

theorem walk_found (h : maze.inside c = true) (hc : c ∉ seen) (ht : target c = true) :
    maze.walk target (depth + 1) seen c = .found ⟨c, seen, [], [], 0⟩ := by
  rw [walk, if_neg (by simp [h, hc]), if_pos ht]

theorem walk_back (h : maze.inside c = false ∨ c ∈ seen) :
    maze.walk target (depth + 1) seen c = .failed seen 0 := by
  rw [walk, if_pos h]

theorem of_walk_found (h : maze.walk target (depth + 1) seen c = .found t) :
    maze.inside c = true ∧ c ∉ seen ∧ (target c = true ∧ t = ⟨c, seen, [], [], 0⟩ ∨
      maze.leave target depth (c :: seen) c = .found t) := by
  by_cases hback : maze.inside c = false ∨ c ∈ seen
  · rw [walk_back hback] at h
    cases h
  · obtain ⟨hin, hc⟩ := not_or.mp hback
    rw [Bool.not_eq_false] at hin
    refine ⟨hin, hc, ?_⟩
    cases ht : target c with
    | true =>
      rw [walk_found hin hc ht] at h
      cases h
      exact .inl ⟨rfl, rfl⟩
    | false =>
      rw [walk_succ hin hc ht] at h
      exact .inr h

theorem searched_walk (h : maze.walk target depth seen c = .failed seen' reach) :
    maze.Searched {c} seen seen' := by
  induction depth generalizing seen c seen' reach with
  | zero => cases h
  | succ depth ih =>
    by_cases hback : maze.inside c = false ∨ c ∈ seen
    · rw [walk_back hback] at h
      cases h
      apply searched_self
      rintro v rfl hv
      exact hback.resolve_left (ne_false_of_eq_true hv)
    · obtain ⟨hin, hc⟩ := not_or.mp hback
      rw [Bool.not_eq_false] at hin
      cases ht : target c with
      | true =>
        rw [walk_found hin hc ht] at h
        cases h
      | false =>
        rw [walk_succ hin hc ht] at h
        exact (searched_attempts (fun _ _ _ _ => ih) h).behind hin hc

theorem arrived_walk (h : maze.walk target depth seen c = .found t) :
    maze.Arrived target {c} seen t := by
  induction depth generalizing seen c t with
  | zero => cases h
  | succ depth ih =>
    obtain ⟨hin, hc, ⟨ht, rfl⟩ | hleave⟩ := of_walk_found h
    · have hregion : region seen (⟨c, seen, [], [], 0⟩ : Trail α M) = {c} := by
        ext v
        simp [region, added]
      refine ⟨fun _ hv => hv, ?_, hc, ht, ?_⟩
      · rw [hregion]
        rintro v rfl
        exact hin
      · rw [hregion]
        rintro v rfl
        exact ⟨v, rfl, rfl, .refl⟩
    · have harrived := arrived_attempts (fun _ _ _ _ => searched_walk) (fun _ _ _ => ih) hleave
      exact harrived.behind hin hc

theorem searched_leave (h : maze.leave target depth seen c = .failed seen' reach) :
    maze.Searched (maze.exits c maze.moves) seen seen' :=
  searched_attempts (fun _ _ _ _ => searched_walk) h

theorem arrived_leave (h : maze.leave target depth seen c = .found t) :
    maze.Arrived target (maze.exits c maze.moves) seen t :=
  arrived_attempts (fun _ _ _ _ => searched_walk) (fun _ _ _ => arrived_walk) h

theorem passes_walk (h : maze.walk target depth seen c = .found t) :
    maze.inside c ∧ maze.Passes t.route c t.place := by
  induction depth generalizing seen c t with
  | zero => cases h
  | succ depth ih =>
    obtain ⟨hin, hc, ⟨ht, rfl⟩ | hleave⟩ := of_walk_found h
    · exact ⟨hin, rfl⟩
    · exact ⟨hin, passes_attempts (fun _ _ _ => ih) hleave⟩

theorem passes_leave (h : maze.leave target depth seen c = .found t) :
    maze.Passes t.route c t.place :=
  passes_attempts (fun _ _ _ => passes_walk) h

/-! ## What is looked for -/

theorem walk_congr (h : ∀ v, maze.inside v → target' v = target v) (depth : ℕ) (seen : List α)
    (c : α) : maze.walk target' depth seen c = maze.walk target depth seen c := by
  induction depth generalizing seen c with
  | zero => rfl
  | succ depth ih =>
    unfold walk
    split
    · rfl
    · next hback =>
      rw [not_or, Bool.not_eq_false] at hback
      rw [h c hback.1, attempts_congr ih]

theorem leave_congr (h : ∀ v, maze.inside v → target' v = target v) (depth : ℕ) (seen : List α)
    (c : α) : maze.leave target' depth seen c = maze.leave target depth seen c :=
  attempts_congr (fun seen c => walk_congr h depth seen c) c maze.moves seen

end Maze

end InterviewQuestions.Library
