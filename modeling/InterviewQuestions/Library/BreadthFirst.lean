import Mathlib.Data.Finset.Card
import Mathlib.Data.List.Nodup
import Mathlib.Order.Bounds.Basic

/-! Breadth-first search: the nodes are entered in the order of their distances. -/
namespace InterviewQuestions.Library.BreadthFirst

variable {V : Type*}

/-- A way of so many edges through allowed nodes. -/
inductive Way (children : V → List V) (allowed : V → Prop) (start : V) : ℕ → V → Prop
  | refl : Way children allowed start 0 start
  | step {n : ℕ} {v w : V} (before : Way children allowed start n v) (hw : w ∈ children v)
      (hallowed : allowed w) : Way children allowed start (n + 1) w

/-- The nodes in the order in which they were found, up to the one in hand, and behind it those
that wait. -/
structure Search (V : Type*) where
  visited : V → Bool
  entered : List V
  queue : List V

/-- All nodes that were found. -/
def Search.found (s : Search V) : List V := s.entered ++ s.queue

variable {children : V → List V} {before : V → Bool} {start u v w : V} {s : Search V}
  {nodes : Finset V} {level level' : V → ℕ} {found found' cs : List V}

/-! ## What is known of the nodes -/

structure Sound (nodes : Finset V) (before : V → Bool) (s : Search V) : Prop where
  nodup : s.found.Nodup
  known : ∀ w ∈ s.found, w ∈ nodes
  fresh : ∀ w ∈ s.found, before w = false
  visited : ∀ w, s.visited w = true ↔ before w = true ∨ w ∈ s.found

theorem Sound.new (h : Sound nodes before s) (hv : s.visited v = false) :
    v ∉ s.found ∧ before v = false := by
  rw [← Bool.not_eq_true, h.visited, not_or, Bool.not_eq_true] at hv
  exact hv.symm

/-- The first node that waits is taken in hand. -/
def take (s : Search V) (v : V) (rest : List V) : Search V :=
  { s with entered := s.entered ++ [v], queue := rest }

theorem found_take {rest : List V} (h : s.queue = v :: rest) : (take s v rest).found = s.found := by
  simp [Search.found, take, h]

theorem Sound.take {rest : List V} (h : Sound nodes before s) (hq : s.queue = v :: rest) :
    Sound nodes before (take s v rest) := by
  have hfound := found_take hq
  constructor <;> rw [hfound]
  · exact h.nodup
  · exact h.known
  · exact h.fresh
  · exact h.visited

/-- The levels are numbers of edges, and no node is followed by one of a lower level. -/
structure Levels (children : V → List V) (before : V → Bool) (start : V) (level : V → ℕ)
    (found : List V) : Prop where
  first : start ∈ found ∧ level start = 0
  sorted : found.Pairwise fun u w => level u ≤ level w
  way : ∀ w ∈ found, Way children (before · = false) start (level w) w

/-- The children of the node were found, at most one level further on. -/
def Closed (children : V → List V) (before : V → Bool) (level : V → ℕ) (found : List V) (u : V) :
    Prop :=
  ∀ w ∈ children u, before w = false → w ∈ found ∧ level w ≤ level u + 1

/-- More was found, and the levels stay. -/
def Grows (level level' : V → ℕ) (found found' : List V) : Prop :=
  ∀ w ∈ found, w ∈ found' ∧ level' w = level w

theorem Closed.grow (h : Closed children before level found u) (hu : u ∈ found)
    (hgrow : Grows level level' found found') : Closed children before level' found' u := by
  intro w hw hb
  obtain ⟨hmem, hle⟩ := h w hw hb
  rw [(hgrow w hmem).2, (hgrow u hu).2]
  exact ⟨(hgrow w hmem).1, hle⟩

/-- What holds whenever the next node is about to be entered. -/
structure Progress (children : V → List V) (nodes : Finset V) (before : V → Bool) (start : V)
    (level : V → ℕ) (s : Search V) : Prop where
  sound : Sound nodes before s
  levels : Levels children before start level s.found
  narrow : ∀ v rest, s.queue = v :: rest → ∀ w ∈ s.found, level w ≤ level v + 1
  closed : ∀ u ∈ s.entered, Closed children before level s.found u

/-- Where nothing waits any more, the levels are the distances. -/
theorem Progress.isLeast (h : Progress children nodes before start level s) (hend : s.queue = [])
    (hw : w ∈ s.entered) :
    IsLeast {n | Way children (before · = false) start n w} (level w) := by
  have hfound : s.found = s.entered := by rw [Search.found, hend, List.append_nil]
  have hlevels := h.levels
  have hclosed := h.closed
  rw [hfound] at hlevels hclosed
  refine ⟨hlevels.way w hw, fun n hn => ?_⟩
  have hreach : w ∈ s.entered ∧ level w ≤ n := by
    clear hw
    induction hn with
    | refl => exact ⟨hlevels.first.1, hlevels.first.2.le⟩
    | step _ hedge hallowed ih =>
      obtain ⟨hmem, hle⟩ := hclosed _ ih.1 _ hedge hallowed
      exact ⟨hmem, by omega⟩
  exact hreach.2

/-- The distance of one node from the start is at most that of another. -/
def NoFurther (children : V → List V) (before : V → Bool) (start u w : V) : Prop :=
  ∃ d e, IsLeast {n | Way children (before · = false) start n u} d ∧
    IsLeast {n | Way children (before · = false) start n w} e ∧ d ≤ e

/-- What has been found when nothing waits any more. -/
structure Finished (children : V → List V) (nodes : Finset V) (before : V → Bool) (start : V)
    (s : Search V) : Prop where
  sound : Sound nodes before s
  empty : s.queue = []
  first : start ∈ s.entered
  order : s.entered.Pairwise (NoFurther children before start)

theorem Progress.finished (h : Progress children nodes before start level s)
    (hend : s.queue = []) : Finished children nodes before start s := by
  have hfound : s.found = s.entered := by rw [Search.found, hend, List.append_nil]
  have hlevels := h.levels
  rw [hfound] at hlevels
  refine ⟨h.sound, hend, hlevels.first.1, hlevels.sorted.imp_of_mem fun hu hw hle => ?_⟩
  exact ⟨_, _, h.isLeast hend hu, h.isLeast hend hw, hle⟩

/-! ## Layers -/

/-- The nodes at a distance from the start. -/
def Layer (children : V → List V) (start : V) (n : ℕ) (v : V) : Prop :=
  IsLeast {m | Way children (fun _ => True) start m v} n

theorem layer_zero : Layer children start 0 v ↔ v = start := by
  constructor
  · rintro ⟨hway, -⟩
    cases hway
    rfl
  · rintro rfl
    exact ⟨.refl, fun _ _ => Nat.zero_le _⟩

theorem Layer.unique {m n : ℕ} (h : Layer children start m v) (h' : Layer children start n v) :
    m = n := IsLeast.unique h h'

theorem exists_layer {n : ℕ} (h : Way children (fun _ => True) start n v) :
    ∃ m ≤ n, Layer children start m v := by
  induction n using Nat.strong_induction_on with
  | h n ih =>
    by_cases hless : ∃ m < n, Way children (fun _ => True) start m v
    · obtain ⟨m, hm, hway⟩ := hless
      obtain ⟨k, hk, hlayer⟩ := ih m hm hway
      exact ⟨k, hk.trans hm.le, hlayer⟩
    · refine ⟨n, Nat.le_refl n, h, fun m hm => ?_⟩
      by_contra hlt
      exact hless ⟨m, Nat.lt_of_not_le hlt, hm⟩

/-- The next layer has the children of this one that are in no layer so far. -/
theorem layer_succ {n : ℕ} : Layer children start (n + 1) w ↔
    (∃ v, Layer children start n v ∧ w ∈ children v) ∧ ∀ m ≤ n, ¬ Layer children start m w := by
  constructor
  · intro h
    refine ⟨?_, fun m hm hlayer => absurd (h.unique hlayer) (by omega)⟩
    obtain ⟨hway, hleast⟩ := h
    cases hway with
    | @step _ v _ hway hw hallowed =>
      refine ⟨v, ⟨hway, fun m hm => ?_⟩, hw⟩
      exact Nat.le_of_succ_le_succ (hleast (Way.step hm hw trivial))
  · rintro ⟨⟨v, ⟨hway, -⟩, hw⟩, hnone⟩
    refine ⟨Way.step hway hw trivial, fun m hm => ?_⟩
    obtain ⟨k, hk, hlayer⟩ := exists_layer hm
    by_contra hlt
    exact hnone k (by omega) hlayer

theorem Layer.exists_of_le {m n : ℕ} (h : Layer children start n v) (hm : m ≤ n) :
    ∃ u, Layer children start m u := by
  induction n generalizing v with
  | zero => exact ⟨v, Nat.le_zero.mp hm ▸ h⟩
  | succ n ih =>
    rcases Nat.lt_or_eq_of_le hm with hlt | rfl
    · obtain ⟨⟨u, hu, -⟩, -⟩ := layer_succ.mp h
      exact ih hu (Nat.le_of_lt_succ hlt)
    · exact ⟨v, h⟩

/-- The nodes of the layers up to this one are not few. -/
theorem Layer.exists_nodup {n : ℕ} (h : Layer children start n v) :
    ∃ vs : List V, vs.length = n + 1 ∧ vs.Nodup ∧ ∀ u ∈ vs, ∃ m ≤ n, Layer children start m u := by
  induction n generalizing v with
  | zero =>
    refine ⟨[v], rfl, List.nodup_singleton v, fun u hu => ⟨0, Nat.le_refl 0, ?_⟩⟩
    rwa [List.mem_singleton.mp hu]
  | succ n ih =>
    obtain ⟨⟨u, hu, -⟩, hnone⟩ := layer_succ.mp h
    obtain ⟨vs, hlen, hnodup, hlayers⟩ := ih hu
    refine ⟨v :: vs, congrArg Nat.succ hlen, List.nodup_cons.mpr ⟨fun hv => ?_, hnodup⟩, ?_⟩
    · obtain ⟨m, hm, hlayer⟩ := hlayers v hv
      exact hnone m hm hlayer
    · rw [List.forall_mem_cons]
      refine ⟨⟨n + 1, Nat.le_refl _, h⟩, fun w hw => ?_⟩
      obtain ⟨m, hm, hlayer⟩ := hlayers w hw
      exact ⟨m, Nat.le_succ_of_le hm, hlayer⟩

/-! ## The search -/

variable [DecidableEq V]

/-- A node that is found for the first time waits behind all others. -/
def find (s : Search V) (v : V) : Search V :=
  if s.visited v then s
  else { s with visited := Function.update s.visited v true, queue := s.queue ++ [v] }

/-- The first one that waits is entered and its children are found. -/
def advance (children : V → List V) (s : Search V) : Search V :=
  match s.queue with
  | [] => s
  | v :: queue => (children v).foldl find { s with entered := s.entered ++ [v], queue := queue }

/-- There is no result where it takes longer. -/
def search (children : V → List V) : ℕ → Search V → Option (Search V)
  | 0, _ => none
  | fuel + 1, s => if s.queue = [] then some s else search children fuel (advance children s)

theorem find_visited (h : s.visited v = true) : find s v = s := if_pos h

theorem find_new (h : s.visited v = false) : find s v =
    { s with visited := Function.update s.visited v true, queue := s.queue ++ [v] } := by
  rw [find, if_neg (by rw [h]; exact Bool.false_ne_true)]

theorem found_find (h : s.visited v = false) : (find s v).found = s.found ++ [v] := by
  rw [find_new h]
  exact (List.append_assoc _ _ _).symm

theorem Sound.room (h : Sound nodes before s) (hmem : v ∈ nodes) (hv : s.visited v = false) :
    s.found.length < nodes.card := by
  have hnodup : (v :: s.found).Nodup := List.nodup_cons.mpr ⟨(h.new hv).1, h.nodup⟩
  have hle : (v :: s.found).toFinset.card ≤ nodes.card := by
    refine Finset.card_le_card fun w hw => ?_
    rcases List.mem_cons.mp (List.mem_toFinset.mp hw) with rfl | hw
    · exact hmem
    · exact h.known w hw
  rwa [List.toFinset_card_of_nodup hnodup, List.length_cons] at hle

theorem Sound.find (h : Sound nodes before s) (hmem : v ∈ nodes) :
    Sound nodes before (find s v) := by
  by_cases hv : s.visited v = true
  · rwa [find_visited hv]
  · have hnew := h.new (Bool.eq_false_iff.mpr hv)
    have hfound := found_find (Bool.eq_false_iff.mpr hv)
    constructor
    case nodup =>
      rw [hfound, ← List.concat_eq_append]
      exact h.nodup.concat hnew.1
    case known =>
      intro w hw
      rw [hfound] at hw
      rcases List.mem_append.mp hw with hw | hw
      · exact h.known w hw
      · rwa [List.mem_singleton.mp hw]
    case fresh =>
      intro w hw
      rw [hfound] at hw
      rcases List.mem_append.mp hw with hw | hw
      · exact h.fresh w hw
      · rw [List.mem_singleton.mp hw]
        exact hnew.2
    case visited =>
      intro w
      rw [hfound, find_new (Bool.eq_false_iff.mpr hv), List.mem_append, List.mem_singleton,
        ← or_assoc, ← h.visited]
      by_cases hw : w = v <;> simp [hw]

theorem Sound.foldl_find (h : Sound nodes before s) (hcs : ∀ c ∈ cs, c ∈ nodes) :
    Sound nodes before (cs.foldl BreadthFirst.find s) := by
  induction cs generalizing s with
  | nil => exact h
  | cons c cs ih =>
    exact ih (h.find (hcs c List.mem_cons_self)) fun c' hc' => hcs c' (List.mem_cons_of_mem c hc')

theorem advance_cons {rest : List V} (h : s.queue = v :: rest) :
    advance children s = (children v).foldl BreadthFirst.find (take s v rest) := by
  rw [advance, h]
  rfl

theorem entered_foldl_find (cs : List V) (s : Search V) :
    (cs.foldl BreadthFirst.find s).entered = s.entered := by
  induction cs generalizing s with
  | nil => rfl
  | cons c cs ih =>
    rw [List.foldl_cons, ih, BreadthFirst.find]
    split <;> rfl

/-! ## Level by level -/

theorem grows_update (level : V → ℕ) (hnew : w ∉ found) (n : ℕ) :
    Grows level (Function.update level w n) found (found ++ [w]) := by
  intro u hu
  refine ⟨List.mem_append_left _ hu, Function.update_of_ne ?_ _ _⟩
  rintro rfl
  exact hnew hu

theorem Levels.snoc (h : Levels children before start level found) (hv : v ∈ found)
    (hw : w ∈ children v) (hb : before w = false) (hnew : w ∉ found)
    (hmax : ∀ u ∈ found, level u ≤ level v + 1) :
    Levels children before start (Function.update level w (level v + 1)) (found ++ [w]) := by
  have hgrow := grows_update level hnew (level v + 1)
  refine ⟨⟨(hgrow start h.first.1).1, ?_⟩, ?_, fun u hu => ?_⟩
  · rw [(hgrow start h.first.1).2, h.first.2]
  · refine List.pairwise_append.mpr ⟨?_, List.pairwise_singleton _ _, fun u hu x hx => ?_⟩
    · refine h.sorted.imp_of_mem fun hu hx hle => ?_
      rwa [(hgrow _ hu).2, (hgrow _ hx).2]
    · rw [List.mem_singleton.mp hx, (hgrow u hu).2, Function.update_self]
      exact hmax u hu
  · rcases List.mem_append.mp hu with hu | hu
    · rw [(hgrow u hu).2]
      exact h.way u hu
    · rw [List.mem_singleton.mp hu, Function.update_self]
      exact (h.way v hv).step hw hb

/-- While the children of `v` are found, nothing is more than one level behind `v`. -/
theorem foldl_find_spec (hsound : Sound nodes before s) (hnodes : ∀ c ∈ cs, c ∈ nodes)
    (hlevels : Levels children before start level s.found) (hv : v ∈ s.found)
    (hcs : ∀ c ∈ cs, c ∈ children v) (hmax : ∀ u ∈ s.found, level u ≤ level v + 1) :
    ∃ level', Levels children before start level' (cs.foldl BreadthFirst.find s).found ∧
      Grows level level' s.found (cs.foldl BreadthFirst.find s).found ∧
      (∀ u ∈ (cs.foldl BreadthFirst.find s).found, level' u ≤ level' v + 1) ∧
      ∀ c ∈ cs, before c = false → c ∈ (cs.foldl BreadthFirst.find s).found := by
  induction cs generalizing s level with
  | nil => exact ⟨level, hlevels, fun w hw => ⟨hw, rfl⟩, hmax, fun c hc => by cases hc⟩
  | cons c cs ih =>
    rw [List.forall_mem_cons] at hnodes hcs
    rw [List.foldl_cons]
    have hsound' := hsound.find hnodes.1
    by_cases hc : s.visited c = true
    · rw [find_visited hc]
      obtain ⟨level', hlevels', hgrow, hmax', hall⟩ := ih hsound hnodes.2 hlevels hv hcs.2 hmax
      refine ⟨level', hlevels', hgrow, hmax', ?_⟩
      rw [List.forall_mem_cons]
      refine ⟨fun hb => ?_, hall⟩
      rcases (hsound.visited c).mp hc with hbefore | hmem
      · rw [hb] at hbefore
        cases hbefore
      · exact (hgrow c hmem).1
    · have hfalse := Bool.eq_false_iff.mpr hc
      obtain ⟨hnew, hb⟩ := hsound.new hfalse
      have hstep := hlevels.snoc hv hcs.1 hb hnew hmax
      have hgrow := grows_update level hnew (level v + 1)
      have hmax' : ∀ u ∈ s.found ++ [c], Function.update level c (level v + 1) u ≤
          Function.update level c (level v + 1) v + 1 := by
        intro u hu
        rw [(hgrow v hv).2]
        rcases List.mem_append.mp hu with hu | hu
        · rw [(hgrow u hu).2]
          exact hmax u hu
        · rw [List.mem_singleton.mp hu, Function.update_self]
      rw [← found_find hfalse] at hstep hgrow hmax'
      obtain ⟨level', hlevels', hgrow', hmax'', hall⟩ :=
        ih hsound' hnodes.2 hstep (hgrow v hv).1 hcs.2 hmax'
      refine ⟨level', hlevels', fun w hw => ?_, hmax'', ?_⟩
      · obtain ⟨hmem, heq⟩ := hgrow w hw
        obtain ⟨hmem', heq'⟩ := hgrow' w hmem
        exact ⟨hmem', heq'.trans heq⟩
      · rw [List.forall_mem_cons]
        refine ⟨fun _ => (hgrow' c ?_).1, hall⟩
        rw [found_find hfalse]
        exact List.mem_append_right _ (List.mem_singleton_self c)

theorem Progress.advance (h : Progress children nodes before start level s)
    (hclosed : ∀ v ∈ nodes, ∀ c ∈ children v, c ∈ nodes) {rest : List V}
    (hq : s.queue = v :: rest) :
    ∃ level', Progress children nodes before start level' (advance children s) := by
  have hvq : v ∈ s.found := List.mem_append_right _ (hq ▸ List.mem_cons_self)
  have hfound := found_take hq
  have hsound := h.sound.take hq
  have hchildren := hclosed v (h.sound.known v hvq)
  rw [advance_cons hq]
  rw [← hfound] at hvq
  obtain ⟨level', hlevels, hgrow, hmax, hall⟩ := foldl_find_spec hsound hchildren
    (by rw [hfound]; exact h.levels) hvq (fun c hc => hc)
    (by rw [hfound]; exact h.narrow v rest hq)
  have hentered :
      ((children v).foldl BreadthFirst.find (take s v rest)).entered = s.entered ++ [v] :=
    entered_foldl_find _ _
  refine ⟨level', hsound.foldl_find hchildren, hlevels, fun v' rest' hq' w hw => ?_, fun u hu => ?_⟩
  · -- `v` comes before whatever waits now
    have hsorted := hlevels.sorted
    unfold Search.found at hsorted
    have hle := (List.pairwise_append.mp hsorted).2.2 v
      (by rw [hentered]; exact List.mem_append_right _ (List.mem_singleton_self v)) v'
      (by rw [hq']; exact List.mem_cons_self)
    have hw' := hmax w hw
    omega
  · rw [hentered] at hu
    rcases List.mem_append.mp hu with hu | hu
    · have hmem : u ∈ s.found := List.mem_append_left _ hu
      refine (h.closed u hu).grow hmem ?_
      rwa [← hfound]
    · rw [List.mem_singleton.mp hu]
      intro c hc hb
      have hmem := hall c hc hb
      exact ⟨hmem, hmax c hmem⟩

theorem progress_start (children : V → List V) (hmem : start ∈ nodes) (hb : before start = false) :
    Progress children nodes before start (fun _ => 0)
      (BreadthFirst.find ⟨before, [], []⟩ start) := by
  have hempty : Sound nodes before ⟨before, [], []⟩ := by
    constructor <;> simp [Search.found]
  have hfound : (BreadthFirst.find ⟨before, [], []⟩ start).found = [start] :=
    found_find (s := ⟨before, [], []⟩) hb
  refine ⟨hempty.find hmem, ?_, fun _ _ _ _ _ => Nat.zero_le _, fun u hu => ?_⟩
  · rw [hfound]
    refine ⟨⟨List.mem_singleton_self _, rfl⟩, List.pairwise_singleton _ _, fun w hw => ?_⟩
    rw [List.mem_singleton.mp hw]
    exact .refl
  · rw [find_new (s := ⟨before, [], []⟩) hb] at hu
    cases hu

/-- Each node is entered at most once, so the search comes to an end. -/
theorem search_finished (hclosed : ∀ v ∈ nodes, ∀ c ∈ children v, c ∈ nodes) {fuel : ℕ}
    (h : Progress children nodes before start level s)
    (hfuel : nodes.card < s.entered.length + fuel) :
    ∃ s', search children fuel s = some s' ∧ Finished children nodes before start s' := by
  induction fuel generalizing s level with
  | zero =>
    exfalso
    have hle : s.entered.toFinset.card ≤ nodes.card := Finset.card_le_card fun w hw =>
      h.sound.known w (List.mem_append_left _ (List.mem_toFinset.mp hw))
    have hnodup : s.entered.Nodup := (List.nodup_append.mp h.sound.nodup).1
    rw [List.toFinset_card_of_nodup hnodup] at hle
    omega
  | succ fuel ih =>
    rw [search]
    cases hq : s.queue with
    | nil =>
      rw [if_pos rfl]
      exact ⟨s, rfl, h.finished hq⟩
    | cons v rest =>
      rw [if_neg (List.cons_ne_nil v rest)]
      obtain ⟨level', hnext⟩ := h.advance hclosed hq
      refine ih hnext ?_
      rw [advance_cons hq, entered_foldl_find, take, List.length_append, List.length_singleton]
      omega

end InterviewQuestions.Library.BreadthFirst
