import InterviewQuestions.Library.Traversal
import Mathlib.Data.Fintype.Card
import Mathlib.Logic.Function.Basic
import Mathlib.Tactic.Common

/-! Question (b) of `recursion_dp/kleene_star/solution.c`, with automata of any number of nodes. -/
namespace InterviewQuestions.KleeneStar

abbrev NFA_MAX_BRANCHING : ℕ := 10

/-- What is used of the nodes, each of which is a `struct nfa_node`. -/
structure Nfa (V : Type) where
  epsilon : V → Vector (Option V) (NFA_MAX_BRANCHING + 1)
  terminated : ∀ v, none ∈ (epsilon v).toList
  id : V → UInt8

/-- The flags of the nodes, `buff` and `buff_i`. -/
structure State (V : Type) where
  visited : V → Bool
  buff : ℕ → UInt8
  buffI : ℕ

variable {V : Type}

/-- `buff_i += sprintf(&buff[buff_i], "%c ", id)` -/
def State.sprintf (s : State V) (id : UInt8) : State V :=
  { s with
    buff :=
      Function.update (Function.update (Function.update s.buff s.buffI id) (s.buffI + 1) 32)
        (s.buffI + 2) 0
    buffI := s.buffI + 2 }

def unlessVisited (body : State V → V → Option (State V)) (s : State V) (v : V) :
    Option (State V) :=
  if s.visited v then some s else body s v

/-- The loop over the list of a node, from an index on. -/
def forEpsilon (epsilon : List (Option V)) (body : State V → V → Option (State V)) :
    ℕ → ℕ → State V → Option (State V)
  | 0, _, _ => none
  | fuel + 1, i, s => do
      match ← epsilon[i]? with
      | none => return s
      | some next =>
          let s ← unlessVisited body s next
          forEpsilon epsilon body fuel (i + 1) s

variable [DecidableEq V]

def State.visit (s : State V) (v : V) : State V :=
  { s with visited := Function.update s.visited v true }

/-- There is no result where the recursion is deeper than `depth`. -/
def kleeneClosureAux (nfa : Nfa V) : ℕ → State V → V → Option (State V)
  | 0, _, _ => none
  | depth + 1, s, currNode =>
      forEpsilon (nfa.epsilon currNode).toList (kleeneClosureAux nfa depth) (NFA_MAX_BRANCHING + 1) 0
        ((s.sprintf (nfa.id currNode)).visit currNode)

/-- `nfa_prepare_visit` clears all flags, and `out` is written from its start. -/
def kleeneClosure [Fintype V] (nfa : Nfa V) (node : V) (out : ℕ → UInt8) : Option (ℕ → UInt8) := do
  let s ← kleeneClosureAux nfa (Fintype.card V) ⟨fun _ => false, out, 0⟩ node
  return s.buff

end InterviewQuestions.KleeneStar

/-! What is written are the nodes that epsilon transitions lead to. -/
namespace InterviewQuestions.KleeneStar

open Library.Traversal

variable {V : Type} {v w start : V} {s s' : State V} {vs : List V} {list : List (Option V)}
  {nfa : Nfa V} {body : State V → V → Option (State V)}

/-! ## Epsilon transitions -/

/-- The nodes before the first `NULL`. -/
def targets : List (Option V) → List V
  | some v :: list => v :: targets list
  | _ => []

def Nfa.targets (nfa : Nfa V) (v : V) : List V := KleeneStar.targets (nfa.epsilon v).toList

theorem forEpsilon_eq (body : State V → V → Option (State V)) {fuel i : ℕ}
    (hterm : none ∈ list.drop i) (hfuel : list.length ≤ i + fuel) :
    forEpsilon list body fuel i s = (targets (list.drop i)).foldlM (unlessVisited body) s := by
  induction fuel generalizing i s with
  | zero =>
    rw [List.drop_eq_nil_of_le (by omega)] at hterm
    cases hterm
  | succ fuel ih =>
    cases hdrop : list.drop i with
    | nil =>
      rw [hdrop] at hterm
      cases hterm
    | cons entry rest =>
      have hget : list[i]? = some entry := by
        rw [← Nat.add_zero i, ← List.getElem?_drop, hdrop]
        rfl
      rw [forEpsilon, hget]
      cases entry with
      | none => rfl
      | some next =>
        have hrest : list.drop (i + 1) = rest := by
          rw [← List.drop_drop, hdrop]
          rfl
        rw [hdrop] at hterm
        have hterm' : none ∈ list.drop (i + 1) := by
          rw [hrest]
          exact (List.mem_cons.mp hterm).resolve_left (by simp)
        simp only [Option.bind_eq_bind, Option.bind_some, targets, List.foldlM_cons]
        change (unlessVisited body s next).bind _ = _
        cases unlessVisited body s next with
        | none => rfl
        | some t =>
          rw [← hrest]
          exact ih hterm' (by omega)

/-! ## The buffer -/

/-- What the nodes add to the buffer. -/
def text (nfa : Nfa V) (vs : List V) : List UInt8 := vs.flatMap fun v => [nfa.id v, 32]

theorem length_text (nfa : Nfa V) (vs : List V) : (text nfa vs).length = 2 * vs.length := by
  induction vs with
  | nil => rfl
  | cons v vs ih =>
    rw [text] at ih
    rw [text, List.flatMap_cons, List.length_append, ih]
    simp only [List.length_cons, List.length_nil]
    omega

/-- One node after the other is written. -/
def State.write (nfa : Nfa V) (s : State V) (vs : List V) : State V :=
  vs.foldl (fun s v => s.sprintf (nfa.id v)) s

theorem write_concat (nfa : Nfa V) (s : State V) (vs : List V) (v : V) :
    s.write nfa (vs ++ [v]) = (s.write nfa vs).sprintf (nfa.id v) := by
  rw [State.write, List.foldl_append]
  rfl

theorem buffI_write (nfa : Nfa V) (s : State V) (vs : List V) :
    (s.write nfa vs).buffI = s.buffI + (text nfa vs).length := by
  induction vs using List.reverseRecOn with
  | nil => rfl
  | append_singleton vs v ih =>
    have hnext : (s.write nfa (vs ++ [v])).buffI = (s.write nfa vs).buffI + 2 := by
      rw [write_concat]
      rfl
    rw [hnext, ih, length_text, length_text, List.length_append, List.length_singleton]
    omega

theorem buff_sprintf (s : State V) (id : UInt8) {i : ℕ} (h : i < s.buffI) :
    (s.sprintf id).buff i = s.buff i := by
  have hne : i ≠ s.buffI ∧ i ≠ s.buffI + 1 ∧ i ≠ s.buffI + 2 := by omega
  simp [State.sprintf, hne]

theorem buff_write (nfa : Nfa V) (s : State V) (vs : List V) {k : ℕ}
    (hk : k < (text nfa vs).length) :
    (s.write nfa vs).buff (s.buffI + k) = (text nfa vs).get ⟨k, hk⟩ := by
  induction vs using List.reverseRecOn with
  | nil => cases hk
  | append_singleton vs v ih =>
    have htext : text nfa (vs ++ [v]) = text nfa vs ++ [nfa.id v, 32] := by simp [text]
    have hend := buffI_write nfa s vs
    rw [write_concat]
    simp only [List.get_eq_getElem, htext]
    by_cases hold : k < (text nfa vs).length
    · rw [buff_sprintf _ _ (by omega), ih hold, List.getElem_append_left hold]
      rfl
    · rw [htext, List.length_append] at hk
      obtain rfl | rfl : k = (text nfa vs).length ∨ k = (text nfa vs).length + 1 := by
        simp only [List.length_cons, List.length_nil] at hk
        omega
      · rw [← hend]
        simp [State.sprintf]
      · rw [← Nat.add_assoc, ← hend]
        simp [State.sprintf]

/-- The last `sprintf` ends the string. -/
theorem buff_end (nfa : Nfa V) (s : State V) (hne : vs ≠ []) :
    (s.write nfa vs).buff (s.buffI + (text nfa vs).length) = 0 := by
  obtain ⟨front, v, rfl⟩ := List.eq_nil_or_concat vs |>.resolve_left hne
  rw [← buffI_write, List.concat_eq_append, write_concat]
  simp [State.sprintf]

/-! ## The walk -/

variable {l l' : Log V} {depth : ℕ}

/-- The state that a log stands for. -/
def ofLog (nfa : Nfa V) (s : State V) (l : Log V) : State V :=
  { s.write nfa (entered l.events) with visited := l.visited }

theorem ofLog_exit (nfa : Nfa V) (s : State V) (l : Log V) (v : V) :
    ofLog nfa s (l.exit v) = ofLog nfa s l := by
  rw [ofLog, ofLog, Log.exit, entered_append]
  simp only [entered, List.append_nil]

variable [DecidableEq V]

theorem ofLog_enter (nfa : Nfa V) (s : State V) (l : Log V) (v : V) :
    ((ofLog nfa s l).sprintf (nfa.id v)).visit v = ofLog nfa s (l.enter v) := by
  rw [ofLog, ofLog, Log.enter, entered_append]
  simp only [entered, write_concat]
  rfl

theorem aux_of_visit (nfa : Nfa V) (s : State V) (hnew : l.visited v = false)
    (h : visit nfa.targets depth v l = some l') :
    kleeneClosureAux nfa depth (ofLog nfa s l) v = some (ofLog nfa s l') := by
  induction depth generalizing v l l' with
  | zero =>
    rw [visit, hnew] at h
    cases h
  | succ depth ih =>
    rw [visit, hnew] at h
    obtain ⟨t, ht, h⟩ := Option.bind_eq_some_iff.mp h
    cases h
    have hterm : none ∈ (nfa.epsilon v).toList.drop 0 := nfa.terminated v
    have hfuel : (nfa.epsilon v).toList.length ≤ 0 + (NFA_MAX_BRANCHING + 1) := by simp
    rw [kleeneClosureAux, ofLog_enter, forEpsilon_eq _ hterm hfuel, ofLog_exit]
    refine foldlM_of_some (fun w _ u u' hu => ?_) ht
    rw [unlessVisited]
    split
    case isTrue hvisited =>
      rw [visit_visited nfa.targets depth hvisited] at hu
      cases hu
      rfl
    case isFalse hfalse => exact ih (Bool.eq_false_iff.mpr hfalse) hu

/-- A transition without input. -/
def Epsilon (nfa : Nfa V) (v w : V) : Prop := w ∈ nfa.targets v

/-- From clear flags on, the nodes that epsilon transitions lead to are written, each once. -/
theorem kleeneClosureAux_correct [Fintype V] (nfa : Nfa V) (start : V)
    (hs : ∀ v, s.visited v = false) :
    ∃ s' written, kleeneClosureAux nfa (Fintype.card V) s start = some s' ∧
      written.Nodup ∧ (∀ v, v ∈ written ↔ Relation.ReflTransGen (Epsilon nfa) start v) ∧
      s'.buffI = s.buffI + (text nfa written).length ∧
      (∀ k (hk : k < (text nfa written).length),
        s'.buff (s.buffI + k) = (text nfa written).get ⟨k, hk⟩) ∧
      s'.buff s'.buffI = 0 := by
  have hcard : (unvisited Finset.univ ⟨s.visited, []⟩).card ≤ Fintype.card V :=
    Finset.card_le_univ _
  have hclosed : ∀ v ∈ Finset.univ, ∀ child ∈ nfa.targets v, child ∈ Finset.univ :=
    fun _ _ child _ => Finset.mem_univ child
  obtain ⟨events, l', hvisit, hvisits⟩ := visit_spec hclosed (Finset.mem_univ start) hcard
  have hmem (v : V) : v ∈ entered events ↔ Relation.ReflTransGen (Epsilon nfa) start v := by
    rw [hvisits.mem_iff hs]
    simp only [List.mem_singleton, exists_eq_left]
    rfl
  have hne : entered events ≠ [] := List.ne_nil_of_mem ((hmem start).mpr .refl)
  have hstart : ofLog nfa s ⟨s.visited, []⟩ = s := rfl
  have hrun := aux_of_visit nfa s (hs start) hvisit
  rw [hstart] at hrun
  have hlogged : l'.events = events := hvisits.logged
  have hend : (ofLog nfa s l').buffI = s.buffI + (text nfa (entered events)).length := by
    rw [← hlogged]
    exact buffI_write nfa s (entered l'.events)
  refine ⟨_, entered events, hrun, hvisits.nodup, hmem, hend, fun k hk => ?_, ?_⟩
  · rw [← buff_write nfa s _ hk, ofLog, hlogged]
  · rw [hend, ← buff_end nfa s hne, ofLog, hlogged]

/-- The first node has the second one twice in its list, and the second one leads back to it. -/
def circle : Nfa (Fin 3) where
  epsilon v :=
    if v = 0 then #v[some 1, some 1, none, some 2, none, none, none, none, none, none, none]
    else if v = 1 then #v[some 0, none, none, none, none, none, none, none, none, none, none]
    else #v[none, none, none, none, none, none, none, none, none, none, none]
  terminated := by decide
  id v := if v = 0 then 65 else if v = 1 then 66 else 67

theorem kleeneClosureAux_correct_circle :
    ∃ s' written, kleeneClosureAux circle (Fintype.card (Fin 3)) ⟨fun _ => false, fun _ => 0, 0⟩ 0 =
        some s' ∧
      written.Nodup ∧ (∀ v, v ∈ written ↔ Relation.ReflTransGen (Epsilon circle) 0 v) ∧
      s'.buffI = 0 + (text circle written).length := by
  obtain ⟨s', written, hrun, hnodup, hmem, hend, -⟩ :=
    kleeneClosureAux_correct circle 0 (s := ⟨fun _ => false, fun _ => 0, 0⟩) fun _ => rfl
  exact ⟨s', written, hrun, hnodup, hmem, hend⟩

end InterviewQuestions.KleeneStar
