import Mathlib.Data.Finset.Card
import Mathlib.Data.List.Nodup
import Mathlib.Logic.Relation

/-! Depth-first traversal of a graph: each node that is reached is entered once, and exited after
everything that was entered from it. -/
namespace InterviewQuestions.Library.Traversal

variable {V : Type*}

inductive Event (V : Type*) where
  | entered (v : V)
  | exited (v : V)
deriving DecidableEq, Repr

/-- Every node that was entered is exited, in the reverse order. -/
inductive Nested : List (Event V) → Prop
  | nil : Nested []
  | node (v : V) {inside after : List (Event V)} (hinside : Nested inside) (hafter : Nested after) :
      Nested (.entered v :: (inside ++ .exited v :: after))

def entered : List (Event V) → List V
  | [] => []
  | .entered v :: events => v :: entered events
  | .exited _ :: events => entered events

def exited : List (Event V) → List V
  | [] => []
  | .entered _ :: events => exited events
  | .exited v :: events => v :: exited events

variable {events events' : List (Event V)}

theorem entered_append (events events' : List (Event V)) :
    entered (events ++ events') = entered events ++ entered events' := by
  induction events with
  | nil => rfl
  | cons event events ih => cases event <;> simp [entered, ih]

theorem exited_append (events events' : List (Event V)) :
    exited (events ++ events') = exited events ++ exited events' := by
  induction events with
  | nil => rfl
  | cons event events ih => cases event <;> simp [exited, ih]

theorem Nested.append (h : Nested events) (h' : Nested events') : Nested (events ++ events') := by
  induction h with
  | nil => exact h'
  | node v hinside _ _ ih =>
    rw [List.cons_append, List.append_assoc, List.cons_append]
    exact .node v hinside ih

/-- What was entered was exited as often. -/
theorem Nested.perm (h : Nested events) : List.Perm (exited events) (entered events) := by
  induction h with
  | nil => exact .nil
  | @node v inside after _ _ ihinside ihafter =>
    simp only [exited, entered, exited_append, entered_append]
    exact List.perm_middle.trans ((ihinside.append ihafter).cons v)

/-! ## Visits -/

structure Log (V : Type*) where
  visited : V → Bool
  events : List (Event V)

variable {children : V → List V} {s s' s'' : Log V} {v w : V} {vs vs' : List V} {nodes : Finset V}

def Edge (children : V → List V) (v w : V) : Prop := w ∈ children v

/-- The nodes `vs` were visited with these events. -/
structure Visits (children : V → List V) (vs : List V) (s : Log V) (events : List (Event V))
    (s' : Log V) : Prop where
  logged : s'.events = s.events ++ events
  nested : Nested events
  nodup : (entered events).Nodup
  fresh : ∀ w ∈ entered events, s.visited w = false
  visited : ∀ w, s'.visited w = true ↔ s.visited w = true ∨ w ∈ entered events
  all : ∀ v ∈ vs, s'.visited v = true
  reached : ∀ w ∈ entered events, ∃ v ∈ vs, Relation.ReflTransGen (Edge children) v w
  closed : ∀ w ∈ entered events, ∀ child ∈ children w, s'.visited child = true

theorem Visits.mono (h : Visits children vs s events s') (hv : s.visited v = true) :
    s'.visited v = true :=
  (h.visited v).mpr (.inl hv)

theorem Visits.nothing (s : Log V) (h : ∀ v ∈ vs, s.visited v = true) :
    Visits children vs s [] s where
  logged := (List.append_nil _).symm
  nested := .nil
  nodup := List.nodup_nil
  fresh w hw := by cases hw
  visited w := by simp [entered]
  all := h
  reached w hw := by cases hw
  closed w hw := by cases hw

theorem Visits.append (h : Visits children vs s events s')
    (h' : Visits children vs' s' events' s'') :
    Visits children (vs ++ vs') s (events ++ events') s'' where
  logged := by rw [h'.logged, h.logged, List.append_assoc]
  nested := h.nested.append h'.nested
  nodup := by
    rw [entered_append]
    refine List.nodup_append.mpr ⟨h.nodup, h'.nodup, fun v hv w hw heq => ?_⟩
    have hvisited := (h.visited v).mpr (.inr hv)
    rw [heq, h'.fresh w hw] at hvisited
    cases hvisited
  fresh w hw := by
    rw [entered_append] at hw
    rcases List.mem_append.mp hw with hw | hw
    · exact h.fresh w hw
    · by_contra hvisited
      have := h.mono (Bool.eq_true_of_not_eq_false hvisited)
      rw [h'.fresh w hw] at this
      cases this
  visited w := by rw [h'.visited, h.visited, entered_append, List.mem_append, or_assoc]
  all v hv := by
    rcases List.mem_append.mp hv with hv | hv
    · exact h'.mono (h.all v hv)
    · exact h'.all v hv
  reached w hw := by
    rw [entered_append] at hw
    rcases List.mem_append.mp hw with hw | hw
    · obtain ⟨v, hv, hreach⟩ := h.reached w hw
      exact ⟨v, List.mem_append_left _ hv, hreach⟩
    · obtain ⟨v, hv, hreach⟩ := h'.reached w hw
      exact ⟨v, List.mem_append_right _ hv, hreach⟩
  closed w hw child hchild := by
    rw [entered_append] at hw
    rcases List.mem_append.mp hw with hw | hw
    · exact h'.mono (h.closed w hw child hchild)
    · exact h'.closed w hw child hchild

/-- Where nothing was visited before, exactly the nodes that can be reached are. -/
theorem Visits.mem_iff (h : Visits children vs s events s') (hs : ∀ v, s.visited v = false) :
    w ∈ entered events ↔ ∃ v ∈ vs, Relation.ReflTransGen (Edge children) v w := by
  have hvisited (u : V) : s'.visited u = true ↔ u ∈ entered events := by simp [h.visited, hs]
  refine ⟨h.reached w, ?_⟩
  rintro ⟨v, hv, hreach⟩
  induction hreach with
  | refl => exact (hvisited v).mp (h.all v hv)
  | tail _ hedge ih => exact (hvisited _).mp (h.closed _ ih _ hedge)

def unvisited (nodes : Finset V) (s : Log V) : Finset V := nodes.filter fun v => s.visited v = false

theorem Visits.unvisited_subset (h : Visits children vs s events s') (nodes : Finset V) :
    unvisited nodes s' ⊆ unvisited nodes s := by
  refine Finset.monotone_filter_right _ fun v _ hv => ?_
  by_contra hvisited
  rw [h.mono (Bool.eq_true_of_not_eq_false hvisited)] at hv
  cases hv

theorem foldlM_visits {f : Log V → V → Option (Log V)} {depth : ℕ}
    (hf : ∀ v ∈ vs, ∀ s, (unvisited nodes s).card ≤ depth →
      ∃ events s', f s v = some s' ∧ Visits children [v] s events s')
    (hs : (unvisited nodes s).card ≤ depth) :
    ∃ events s', vs.foldlM f s = some s' ∧ Visits children vs s events s' := by
  induction vs generalizing s with
  | nil => exact ⟨[], s, rfl, .nothing s fun v hv => by cases hv⟩
  | cons v vs ih =>
    obtain ⟨events, s', hv, hvisits⟩ := hf v List.mem_cons_self s hs
    have hle := Finset.card_le_card (hvisits.unvisited_subset nodes)
    obtain ⟨events', s'', hvs, hrest⟩ :=
      ih (fun w hw => hf w (List.mem_cons_of_mem v hw)) (hle.trans hs)
    refine ⟨events ++ events', s'', ?_, hvisits.append hrest⟩
    rw [List.foldlM_cons, hv]
    exact hvs

/-! ## The traversal -/

variable [DecidableEq V]

namespace Log

def enter (v : V) (s : Log V) : Log V :=
  ⟨Function.update s.visited v true, s.events ++ [.entered v]⟩

def exit (v : V) (s : Log V) : Log V := { s with events := s.events ++ [.exited v] }

end Log

/-- There is no result where the traversal is deeper than `depth`. -/
def visit (children : V → List V) : ℕ → V → Log V → Option (Log V)
  | 0, v, s => if s.visited v then some s else none
  | depth + 1, v, s =>
      if s.visited v then some s
      else do
        let s ← (children v).foldlM (fun s child => visit children depth child s) (s.enter v)
        return s.exit v

@[simp] theorem visited_enter (s : Log V) (v w : V) :
    (s.enter v).visited w = true ↔ w = v ∨ s.visited w = true := by
  by_cases h : w = v <;> simp [Log.enter, h]

/-- A node is visited by way of its children. -/
theorem Visits.node (hv : s.visited v = false)
    (h : Visits children (children v) (s.enter v) events s') :
    Visits children [v] s (.entered v :: (events ++ [.exited v])) (s'.exit v) where
  logged := by simp [Log.exit, Log.enter, h.logged]
  nested := .node v h.nested .nil
  nodup := by
    simp only [entered, entered_append, List.append_nil]
    refine List.nodup_cons.mpr ⟨fun hmem => ?_, h.nodup⟩
    have hfresh := h.fresh v hmem
    rw [(visited_enter s v v).mpr (.inl rfl)] at hfresh
    cases hfresh
  fresh w hw := by
    simp only [entered, entered_append, List.append_nil] at hw
    rcases List.mem_cons.mp hw with rfl | hw
    · exact hv
    · by_contra hvisited
      have hfresh := h.fresh w hw
      rw [(visited_enter s v w).mpr (.inr (Bool.eq_true_of_not_eq_false hvisited))] at hfresh
      cases hfresh
  visited w := by
    simp only [Log.exit, h.visited, visited_enter, entered, entered_append, List.append_nil,
      List.mem_cons]
    rw [or_comm (a := w = v), or_assoc]
  all w hw := by
    rw [List.mem_singleton.mp hw]
    exact h.mono ((visited_enter s v v).mpr (.inl rfl))
  reached w hw := by
    simp only [entered, entered_append, List.append_nil] at hw
    refine ⟨v, List.mem_singleton_self v, ?_⟩
    rcases List.mem_cons.mp hw with rfl | hw
    · exact .refl
    · obtain ⟨child, hchild, hreach⟩ := h.reached w hw
      exact .head hchild hreach
  closed w hw child hchild := by
    simp only [entered, entered_append, List.append_nil] at hw
    rcases List.mem_cons.mp hw with rfl | hw
    · exact h.all child hchild
    · exact h.closed w hw child hchild

/-! ## Its depth -/

theorem card_unvisited_enter (hmem : v ∈ nodes) (hv : s.visited v = false) :
    (unvisited nodes (s.enter v)).card < (unvisited nodes s).card := by
  refine Finset.card_lt_card ((Finset.ssubset_iff_of_subset ?_).mpr ⟨v, ?_, ?_⟩)
  · refine Finset.monotone_filter_right _ fun w _ hw => ?_
    by_contra hvisited
    rw [(visited_enter s v w).mpr (.inr (Bool.eq_true_of_not_eq_false hvisited))] at hw
    cases hw
  · exact Finset.mem_filter.mpr ⟨hmem, hv⟩
  · intro hin
    have hfalse := (Finset.mem_filter.mp hin).2
    rw [(visited_enter s v v).mpr (.inl rfl)] at hfalse
    cases hfalse

theorem visit_visited (children : V → List V) (depth : ℕ) (hv : s.visited v = true) :
    visit children depth v s = some s := by
  cases depth <;> rw [visit, if_pos hv]

/-- The traversal is never deeper than there are nodes that were not visited yet. -/
theorem visit_spec (hclosed : ∀ v ∈ nodes, ∀ child ∈ children v, child ∈ nodes) {depth : ℕ}
    (hmem : v ∈ nodes) (hdepth : (unvisited nodes s).card ≤ depth) :
    ∃ events s', visit children depth v s = some s' ∧ Visits children [v] s events s' := by
  induction depth generalizing v s with
  | zero =>
    by_cases hv : s.visited v = true
    · refine ⟨[], s, visit_visited children 0 hv, .nothing s fun w hw => ?_⟩
      rwa [List.mem_singleton.mp hw]
    · have hlt := card_unvisited_enter hmem (Bool.eq_false_iff.mpr hv)
      omega
  | succ depth ih =>
    by_cases hv : s.visited v = true
    · refine ⟨[], s, visit_visited children (depth + 1) hv, .nothing s fun w hw => ?_⟩
      rwa [List.mem_singleton.mp hw]
    · have hnew : s.visited v = false := Bool.eq_false_iff.mpr hv
      have hlt := card_unvisited_enter hmem hnew
      have hchildren : ∀ child ∈ children v, ∀ t,
          (unvisited nodes t).card ≤ (unvisited nodes (s.enter v)).card →
          ∃ events t', visit children depth child t = some t' ∧
            Visits children [child] t events t' :=
        fun child hchild t ht => ih (hclosed v hmem child hchild) (by omega)
      obtain ⟨events, s', hfold, hvisits⟩ := foldlM_visits hchildren (le_refl _)
      refine ⟨_, _, ?_, hvisits.node hnew⟩
      rw [visit, if_neg hv, hfold]
      rfl

/-- A loop that goes through the same states under another representation. -/
theorem foldlM_of_some {σ τ α : Type*} {f : σ → α → Option σ} {g : τ → α → Option τ} {r : σ → τ}
    {xs : List α} {s t : σ}
    (hstep : ∀ x ∈ xs, ∀ s t, f s x = some t → g (r s) x = some (r t))
    (h : xs.foldlM f s = some t) : xs.foldlM g (r s) = some (r t) := by
  induction xs generalizing s with
  | nil =>
    cases h
    rfl
  | cons x xs ih =>
    rw [List.foldlM_cons] at h ⊢
    obtain ⟨u, hu, hrest⟩ := Option.bind_eq_some_iff.mp h
    rw [hstep x List.mem_cons_self s u hu]
    exact ih (fun y hy => hstep y (List.mem_cons_of_mem x hy)) hrest

end InterviewQuestions.Library.Traversal
