import Mathlib.Data.Finset.Card
import Mathlib.Logic.Relation

/-! Depth-first search. A search that knows which nodes it has not left yet finds out whether there
is a cycle, and leaves the nodes in an order in which each comes after its children. -/
namespace InterviewQuestions.Library.DepthFirst

variable {V σ τ : Type*}

/-- What is done on entering and on leaving a node. On entering it the answer may already be
known. -/
structure Search (V σ : Type*) where
  enter : V → σ → Bool ⊕ σ
  leave : V → σ → Bool × σ

/-- It ends with the first node for which the answer is no. -/
def each (visit : V → σ → Option (Bool × σ)) : List V → σ → Option (Bool × σ)
  | [], s => some (true, s)
  | v :: vs, s => do
      let (ok, s) ← visit v s
      if ok then each visit vs s else return (false, s)

/-- There is no result where the search is deeper than `depth`. -/
def visit (search : Search V σ) (children : V → List V) : ℕ → V → σ → Option (Bool × σ)
  | 0, _, _ => none
  | depth + 1, v, s =>
      match search.enter v s with
      | .inl answer => some (answer, s)
      | .inr s => do
          let (ok, s) ← each (visit search children depth) (children v) s
          if ok then return search.leave v s else return (false, s)

theorem each_cons_true {visit : V → σ → Option (Bool × σ)} {v : V} {vs : List V} {s t : σ} :
    each visit (v :: vs) s = some (true, t) ↔
      ∃ u, visit v s = some (true, u) ∧ each visit vs u = some (true, t) := by
  rw [each]
  cases visit v s with
  | none => simp
  | some result =>
    obtain ⟨ok, u⟩ := result
    cases ok <;> simp

theorem visit_inr {search : Search V σ} {v : V} {s t : σ} (h : search.enter v s = .inr t)
    (children : V → List V) (depth : ℕ) :
    visit search children (depth + 1) v s = do
      let (ok, s) ← each (visit search children depth) (children v) t
      if ok then return search.leave v s else return (false, s) := by
  rw [visit, h]

theorem visit_inl {search : Search V σ} {v : V} {s : σ} {answer : Bool}
    (h : search.enter v s = .inl answer) (children : V → List V) (depth : ℕ) :
    visit search children (depth + 1) v s = some (answer, s) := by
  rw [visit, h]

/-! ## Searches on different states -/

theorem each_map {visit : V → σ → Option (Bool × σ)} {visit' : V → τ → Option (Bool × τ)}
    (h : σ → τ) (hvisit : ∀ v s, visit' v (h s) = (visit v s).map (Prod.map id h))
    (vs : List V) (s : σ) : each visit' vs (h s) = (each visit vs s).map (Prod.map id h) := by
  induction vs generalizing s with
  | nil => rfl
  | cons v vs ih =>
    unfold each
    rw [hvisit]
    cases visit v s with
    | none => rfl
    | some result =>
      obtain ⟨ok, s⟩ := result
      cases ok with
      | false => rfl
      | true => exact ih s

theorem visit_map {search : Search V σ} {search' : Search V τ} (h : σ → τ)
    (henter : ∀ v s, search'.enter v (h s) = (search.enter v s).map id h)
    (hleave : ∀ v s, search'.leave v (h s) = (search.leave v s).map id h)
    (children : V → List V) (depth : ℕ) (v : V) (s : σ) :
    visit search' children depth v (h s) =
      (visit search children depth v s).map (Prod.map id h) := by
  induction depth generalizing v s with
  | zero => rfl
  | succ depth ih =>
    unfold visit
    rw [henter]
    cases search.enter v s with
    | inl answer => rfl
    | inr s =>
      have heach := each_map h ih (children v) s
      simp only [Sum.map_inr, heach]
      cases each (visit search children depth) (children v) s with
      | none => rfl
      | some result =>
        obtain ⟨ok, s⟩ := result
        cases ok with
        | false => rfl
        | true => exact congrArg some (hleave v s)

/-! ## What a search keeps -/

section Keeps

variable {rel : σ → σ → Prop} (hrefl : ∀ s, rel s s) (htrans : ∀ s t u, rel s t → rel t u → rel s u)

include hrefl htrans

theorem each_rel {visit : V → σ → Option (Bool × σ)}
    (hvisit : ∀ v s result, visit v s = some result → rel s result.2) {vs : List V} {s : σ}
    {result : Bool × σ} (h : each visit vs s = some result) : rel s result.2 := by
  induction vs generalizing s with
  | nil =>
    cases h
    exact hrefl s
  | cons v vs ih =>
    unfold each at h
    cases hv : visit v s with
    | none =>
      rw [hv] at h
      cases h
    | some first =>
      obtain ⟨ok, t⟩ := first
      have hfirst := hvisit v s (ok, t) hv
      rw [hv] at h
      cases ok with
      | false =>
        cases h
        exact hfirst
      | true => exact htrans s t result.2 hfirst (ih h)

theorem visit_rel {search : Search V σ} {children : V → List V}
    (henter : ∀ v s t, search.enter v s = .inr t → rel s t)
    (hleave : ∀ v s, rel s (search.leave v s).2) {depth : ℕ} {v : V} {s : σ} {result : Bool × σ}
    (h : visit search children depth v s = some result) : rel s result.2 := by
  induction depth generalizing v s result with
  | zero => cases h
  | succ depth ih =>
    unfold visit at h
    cases hv : search.enter v s with
    | inl answer =>
      rw [hv] at h
      cases h
      exact hrefl s
    | inr t =>
      simp only [hv] at h
      cases hall : each (visit search children depth) (children v) t with
      | none =>
        rw [hall] at h
        cases h
      | some inner =>
        obtain ⟨ok, u⟩ := inner
        have hinner : rel s u := htrans s t u (henter v s t hv)
          (each_rel hrefl htrans (fun v s result hresult => ih hresult) hall)
        rw [hall] at h
        cases ok with
        | false =>
          cases h
          exact hinner
        | true =>
          cases h
          exact htrans s u _ hinner (hleave v u)

end Keeps

/-! ## Finding a cycle -/

/-- The nodes that were entered, those that were not left yet, and the others in the order in which
they were left. -/
structure Marks (V : Type*) where
  visited : V → Bool
  onStack : V → Bool
  finished : List V

def Marks.start (V : Type*) : Marks V := ⟨fun _ => false, fun _ => false, []⟩

section Cycles

variable [DecidableEq V]

def Marks.enter (v : V) (s : Marks V) : Marks V :=
  { s with
    visited := Function.update s.visited v true
    onStack := Function.update s.onStack v true }

def Marks.leave (v : V) (s : Marks V) : Marks V :=
  { s with onStack := Function.update s.onStack v false, finished := s.finished ++ [v] }

/-- The answer is no when a node is met again that was not left yet. -/
def cycleSearch : Search V (Marks V) where
  enter v s :=
    if s.onStack v then .inl false
    else if s.visited v then .inl true
    else .inr (s.enter v)
  leave v s := (true, s.leave v)

/-- Nodes are only added to those that were left. -/
theorem visit_finished {children : V → List V} {depth : ℕ} {v : V} {s : Marks V}
    {result : Bool × Marks V} (h : visit cycleSearch children depth v s = some result) :
    s.finished <+: result.2.finished := by
  refine @visit_rel V (Marks V) (fun s t => s.finished <+: t.finished) (fun _ => List.prefix_rfl)
    (fun _ _ _ => List.IsPrefix.trans) cycleSearch children (fun v s t ht => ?_)
    (fun v s => List.prefix_append _ _) depth v s result h
  unfold cycleSearch at ht
  by_cases honStack : s.onStack v = true
  · simp [honStack] at ht
  · by_cases hvisited : s.visited v = true
    · simp [honStack, hvisited] at ht
    · simp only [honStack, hvisited, Bool.false_eq_true, if_false, Sum.inr.injEq] at ht
      rw [← ht]
      exact List.prefix_rfl

theorem each_finished {children : V → List V} {depth : ℕ} {vs : List V} {s : Marks V}
    {result : Bool × Marks V} (h : each (visit cycleSearch children depth) vs s = some result) :
    s.finished <+: result.2.finished :=
  @each_rel V (Marks V) (fun s t => s.finished <+: t.finished) (fun _ => List.prefix_rfl)
    (fun _ _ _ => List.IsPrefix.trans) _ (fun _ _ _ => visit_finished) vs s result h

end Cycles

variable {children : V → List V} {s s' s'' : Marks V} {v w : V} {vs : List V} {finished : List V}

/-- Each node comes once, and after its children. -/
inductive Arranged (children : V → List V) : List V → Prop
  | nil : Arranged children []
  | snoc {finished : List V} {v : V} (before : Arranged children finished)
      (hchildren : ∀ w ∈ children v, w ∈ finished) (hnew : v ∉ finished) :
      Arranged children (finished ++ [v])

theorem Arranged.nodup (h : Arranged children finished) : finished.Nodup := by
  induction h with
  | nil => exact List.nodup_nil
  | snoc _ _ hnew ih =>
    refine List.nodup_append.mpr ⟨ih, List.nodup_singleton _, ?_⟩
    intro a ha b hb heq
    rw [heq, List.mem_singleton.mp hb] at ha
    exact hnew ha

theorem Arranged.closed (h : Arranged children finished) (hv : v ∈ finished)
    (hw : w ∈ children v) : w ∈ finished := by
  induction h with
  | nil => cases hv
  | snoc _ hchildren _ ih =>
    refine List.mem_append_left _ ?_
    rcases List.mem_append.mp hv with hold | hlast
    · exact ih hold
    · rw [List.mem_singleton.mp hlast] at hw
      exact hchildren w hw

theorem Arranged.pairwise (h : Arranged children finished) :
    finished.Pairwise fun v w => w ∉ children v := by
  induction h with
  | nil => exact .nil
  | @snoc finished last before _ hnew ih =>
    refine List.pairwise_append.mpr ⟨ih, List.pairwise_singleton _ _, fun v hv w hw hchild => ?_⟩
    rw [List.mem_singleton.mp hw] at hchild
    exact hnew (before.closed hv hchild)

/-- The children of a node come before it. -/
theorem Arranged.before {front back : List V} (h : Arranged children (front ++ v :: back))
    (hw : w ∈ children v) : w ∈ front := by
  generalize heq : front ++ v :: back = finished at h
  induction h generalizing back with
  | nil => cases List.append_ne_nil_of_right_ne_nil front (List.cons_ne_nil v back) heq
  | @snoc finished last _ hchildren _ ih =>
    rcases List.eq_nil_or_concat back with rfl | ⟨back, other, rfl⟩
    · obtain ⟨rfl, hlast⟩ := List.append_inj' heq rfl
      cases hlast
      exact hchildren w hw
    · rw [List.concat_eq_append, ← List.cons_append, ← List.append_assoc] at heq
      exact ih (List.append_inj' heq rfl).1

/-- There is an edge from the node to the child. -/
def Edge (children : V → List V) (v w : V) : Prop := w ∈ children v

/-- From no node a way leads back to it. -/
theorem Arranged.acyclic (h : Arranged children finished) (hv : v ∈ finished) :
    ¬ Relation.TransGen (Edge children) v v := by
  induction h with
  | nil => cases hv
  | @snoc finished last before hchildren hnew ih =>
    have hstays (u : V) (hu : u ∈ finished) (w : V)
        (hw : Relation.TransGen (Edge children) u w) : w ∈ finished := by
      induction hw with
      | single hedge => exact before.closed hu hedge
      | tail _ hedge ih => exact before.closed ih hedge
    rcases List.mem_append.mp hv with hold | hlast
    · exact ih hold
    · rw [List.mem_singleton.mp hlast]
      intro hcycle
      obtain ⟨w, hedge, hrest⟩ := Relation.TransGen.head'_iff.mp hcycle
      rcases Relation.reflTransGen_iff_eq_or_transGen.mp hrest with rfl | hrest
      · exact hnew (hchildren _ hedge)
      · exact hnew (hstays w (hchildren w hedge) last hrest)

def Cyclic (children : V → List V) : Prop := ∃ v, Relation.TransGen (Edge children) v v

variable {nodes : Finset V}

/-- What holds between any two steps. -/
structure Sound (nodes : Finset V) (children : V → List V) (s : Marks V) : Prop where
  arranged : Arranged children s.finished
  known : ∀ v ∈ s.finished, v ∈ nodes
  visited : ∀ v, s.visited v = true ↔ s.onStack v = true ∨ v ∈ s.finished
  left : ∀ v ∈ s.finished, s.onStack v = false

theorem sound_start : Sound nodes children (Marks.start V) where
  arranged := .nil
  known v hv := by cases hv
  visited v := by simp [Marks.start]
  left v hv := by cases hv

/-- The nodes were left, and perhaps some others before them. -/
structure Extends (nodes : Finset V) (children : V → List V) (s : Marks V) (vs : List V)
    (s' : Marks V) : Prop where
  sound : Sound nodes children s'
  onStack : s'.onStack = s.onStack
  finished : s.finished <+: s'.finished
  all : ∀ v ∈ vs, v ∈ s'.finished

def Outcome (nodes : Finset V) (children : V → List V) (s : Marks V) (vs : List V)
    (result : Bool × Marks V) : Prop :=
  if result.1 then Extends nodes children s vs result.2 else Cyclic children

theorem Extends.cons (h : Extends nodes children s [v] s') (h' : Extends nodes children s' vs s'') :
    Extends nodes children s (v :: vs) s'' where
  sound := h'.sound
  onStack := h'.onStack.trans h.onStack
  finished := h.finished.trans h'.finished
  all := by
    intro w hw
    rcases List.mem_cons.mp hw with rfl | hw
    · exact h'.finished.subset (h.all w List.mem_cons_self)
    · exact h'.all w hw

/-- How many nodes were not entered yet. -/
def unvisited (nodes : Finset V) (s : Marks V) : ℕ :=
  (nodes.filter fun v => s.visited v = false).card

variable {depth : ℕ}

theorem Extends.unvisited_le (h : Extends nodes children s vs s') (hs : Sound nodes children s) :
    unvisited nodes s' ≤ unvisited nodes s := by
  refine Finset.card_le_card (Finset.monotone_filter_right _ fun v _ hv => ?_)
  rw [← Bool.not_eq_true, h.sound.visited] at hv
  rw [← Bool.not_eq_true, hs.visited]
  rintro (honStack | hfinished)
  · exact hv (.inl (h.onStack ▸ honStack))
  · exact hv (.inr (h.finished.subset hfinished))

/-- All nodes on the stack lead to `v`. -/
def Leads (children : V → List V) (s : Marks V) (v : V) : Prop :=
  ∀ u, s.onStack u = true → Relation.TransGen (Edge children) u v

theorem each_spec {visit : V → Marks V → Option (Bool × Marks V)}
    (hvisit : ∀ v ∈ vs, ∀ s', Sound nodes children s' → s'.onStack = s.onStack →
      unvisited nodes s' < depth →
      ∃ result, visit v s' = some result ∧ Outcome nodes children s' [v] result)
    (hs : Sound nodes children s) (hdepth : unvisited nodes s < depth) :
    ∃ result, each visit vs s = some result ∧ Outcome nodes children s vs result := by
  induction vs generalizing s with
  | nil => exact ⟨(true, s), rfl, hs, rfl, List.prefix_rfl, fun v hv => by cases hv⟩
  | cons v vs ih =>
    obtain ⟨⟨ok, s'⟩, hv, houtcome⟩ := hvisit v List.mem_cons_self s hs rfl hdepth
    unfold each
    rw [hv]
    cases ok with
    | false => exact ⟨(false, s'), rfl, houtcome⟩
    | true =>
      have hextends : Extends nodes children s [v] s' := houtcome
      have hrest (w : V) (hw : w ∈ vs) (t : Marks V) (ht : Sound nodes children t)
          (honStack : t.onStack = s'.onStack) :=
        hvisit w (List.mem_cons_of_mem v hw) t ht (honStack.trans hextends.onStack)
      obtain ⟨⟨ok, s''⟩, hvs, houtcome'⟩ :=
        ih hrest hextends.sound ((hextends.unvisited_le hs).trans_lt hdepth)
      refine ⟨(ok, s''), hvs, ?_⟩
      cases ok with
      | false => exact houtcome'
      | true => exact hextends.cons houtcome'

variable [DecidableEq V]

theorem Sound.enter (h : Sound nodes children s) (hv : s.visited v = false) :
    Sound nodes children (s.enter v) where
  arranged := h.arranged
  known := h.known
  visited := by
    intro u
    by_cases hu : u = v
    · simp [Marks.enter, hu]
    · simp [Marks.enter, hu, h.visited]
  left := by
    intro u hu
    have hne : u ≠ v := by
      rintro rfl
      rw [← Bool.not_eq_true, h.visited] at hv
      exact hv (.inr hu)
    change Function.update s.onStack v true u = false
    rw [Function.update_of_ne hne]
    exact h.left u hu

theorem unvisited_enter (hmem : v ∈ nodes) (hv : s.visited v = false) :
    unvisited nodes (s.enter v) < unvisited nodes s := by
  refine Finset.card_lt_card (Finset.ssubset_iff_of_subset ?_ |>.mpr ⟨v, ?_, ?_⟩)
  · refine Finset.monotone_filter_right _ fun u _ hu => ?_
    by_cases heq : u = v
    · rwa [heq]
    · change Function.update s.visited v true u = false at hu
      rwa [Function.update_of_ne heq] at hu
  · exact Finset.mem_filter.mpr ⟨hmem, hv⟩
  · intro hin
    have hself : Function.update s.visited v true v = false := (Finset.mem_filter.mp hin).2
    rw [Function.update_self] at hself
    cases hself

/-- A node is left after its children. -/
theorem Extends.leave (h : Extends nodes children (s.enter v) (children v) s')
    (hmem : v ∈ nodes) (hv : s.onStack v = false) : Extends nodes children s [v] (s'.leave v) where
  sound := by
    have honStack : s'.onStack v = true := by
      rw [h.onStack]
      exact Function.update_self _ _ _
    have hnew : v ∉ s'.finished := by
      intro hmem
      rw [h.sound.left v hmem] at honStack
      cases honStack
    refine ⟨h.sound.arranged.snoc h.all hnew, fun u hu => ?_, fun u => ?_, fun u hu => ?_⟩
    · rcases List.mem_append.mp hu with hold | hlast
      · exact h.sound.known u hold
      · rwa [List.mem_singleton.mp hlast]
    · by_cases hu : u = v
      · simp [Marks.leave, hu, h.sound.visited, honStack]
      · simp [Marks.leave, hu, h.sound.visited]
    · change Function.update s'.onStack v false u = false
      by_cases heq : u = v
      · rw [heq, Function.update_self]
      · rw [Function.update_of_ne heq]
        refine h.sound.left u ((List.mem_append.mp hu).resolve_right fun hlast => ?_)
        exact heq (List.mem_singleton.mp hlast)
  onStack := by
    change Function.update s'.onStack v false = s.onStack
    rw [h.onStack]
    change Function.update (Function.update s.onStack v true) v false = s.onStack
    rw [Function.update_idem, ← hv, Function.update_eq_self]
  finished := h.finished.trans (List.prefix_append _ _)
  all := by
    intro w hw
    rw [List.mem_singleton.mp hw]
    exact List.mem_append_right _ List.mem_cons_self

theorem visit_spec (hclosed : ∀ v ∈ nodes, ∀ w ∈ children v, w ∈ nodes) (hmem : v ∈ nodes)
    (hs : Sound nodes children s) (hleads : Leads children s v)
    (hdepth : unvisited nodes s < depth) :
    ∃ result, visit cycleSearch children depth v s = some result ∧
      Outcome nodes children s [v] result := by
  induction depth generalizing v s with
  | zero => cases hdepth
  | succ depth ih =>
    unfold visit cycleSearch
    by_cases honStack : s.onStack v = true
    · exact ⟨(false, s), by simp [honStack], v, hleads v honStack⟩
    · by_cases hvisited : s.visited v = true
      · refine ⟨(true, s), by simp [honStack, hvisited], hs, rfl, List.prefix_rfl, ?_⟩
        intro w hw
        rw [List.mem_singleton.mp hw]
        exact ((hs.visited v).mp hvisited).resolve_left honStack
      · rw [Bool.not_eq_true] at honStack hvisited
        have hlt := unvisited_enter hmem hvisited
        have hleads' (w : V) (hw : w ∈ children v) (t : Marks V)
            (ht : t.onStack = (s.enter v).onStack) : Leads children t w := by
          intro u hu
          rw [ht] at hu
          by_cases heq : u = v
          · rw [heq]
            exact .single hw
          · change Function.update s.onStack v true u = true at hu
            rw [Function.update_of_ne heq] at hu
            exact (hleads u hu).tail hw
        obtain ⟨⟨ok, s'⟩, hresult, houtcome⟩ := each_spec
          (fun w hw t hsound ht => ih (hclosed v hmem w hw) hsound (hleads' w hw t ht))
          (hs.enter hvisited) (by omega)
        simp only [honStack, hvisited, Bool.false_eq_true, if_false]
        unfold cycleSearch at hresult
        rw [hresult]
        cases ok with
        | false => exact ⟨(false, s'), rfl, houtcome⟩
        | true =>
          have hextends : Extends nodes children (s.enter v) (children v) s' := houtcome
          exact ⟨(true, s'.leave v), rfl, hextends.leave hmem honStack⟩

/-- A search from some nodes, when none is on the stack. -/
theorem search_spec {visit' : V → Marks V → Option (Bool × Marks V)}
    (hclosed : ∀ v ∈ nodes, ∀ w ∈ children v, w ∈ nodes) (hvs : ∀ v ∈ vs, v ∈ nodes)
    (hdepth : nodes.card < depth)
    (hvisit' : ∀ v s, s.onStack v = false → visit' v s = visit cycleSearch children depth v s) :
    ∃ result, each visit' vs (Marks.start V) = some result ∧
      Outcome nodes children (Marks.start V) vs result := by
  refine each_spec (fun v hv s hs honStack hlt => ?_) sound_start
    ((Finset.card_filter_le _ _).trans_lt hdepth)
  have hnone (u : V) : s.onStack u = false := by
    rw [honStack]
    rfl
  rw [hvisit' v s (hnone v)]
  refine visit_spec hclosed (hvs v hv) hs (fun u hu => ?_) hlt
  rw [hnone u] at hu
  cases hu

end InterviewQuestions.Library.DepthFirst
