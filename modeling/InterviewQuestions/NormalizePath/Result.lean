import InterviewQuestions.NormalizePath.Tokens
import Mathlib.Data.List.Flatten

/-! The second loop of `normalize_path` joins the components that are left at the front of the
path, over the characters they come from. -/
namespace InterviewQuestions.NormalizePath

open Library Library.Component

/-- A slice that does not lie before what has been written is copied to the end of it. -/
theorem strncpy_append (path front : List UInt8) (src : ℕ) {n : ℕ}
    (hsrc : front.length ≤ src) (hbound : src + n ≤ path.length)
    (hnul : 0 ∉ (path.drop src).take n) :
    strncpy (front ++ path.drop front.length) front.length src n =
      front ++ (path.drop src).take n ++ path.drop (front.length + n) := by
  induction n generalizing front src with
  | zero => simp [strncpy]
  | succ n ih =>
    have hlt : src < path.length := by omega
    have hslice : (path.drop src).take (n + 1) = path[src] :: (path.drop (src + 1)).take n := by
      rw [List.drop_eq_getElem_cons hlt, List.take_succ_cons]
    have hlt' : front.length < path.length := by omega
    have hread : char (front ++ path.drop front.length) src = path[src] := by
      rw [char, List.getD_eq_getElem?_getD, List.getElem?_append_right hsrc, List.getElem?_drop,
        Nat.add_sub_of_le hsrc, List.getElem?_eq_getElem hlt, Option.getD_some]
    rw [hslice, List.mem_cons, not_or] at hnul
    have hset : (front ++ path.drop front.length).set front.length path[src] =
        front ++ [path[src]] ++ path.drop (front ++ [path[src]]).length := by
      rw [List.drop_eq_getElem_cons hlt', set_append_cons]
      simp
    have hnext := ih (front ++ [path[src]]) (src + 1)
      (by simp; omega) (by omega) hnul.2
    rw [strncpy, hread, if_neg (Ne.symm hnul.1), hset]
    simp only [List.length_append, List.length_singleton] at hnext ⊢
    rw [hnext, hslice]
    simp [Nat.add_assoc, Nat.add_comm 1 n]

/-- The slices end up one behind the other. -/
theorem compact_append (path front : List UInt8) {nodes : List StackNode}
    (hordered : nodes.Pairwise fun earlier later => earlier.begin + earlier.len ≤ later.begin)
    (hfront : ∀ node ∈ nodes, front.length ≤ node.begin)
    (hbound : ∀ node ∈ nodes, node.begin + node.len ≤ path.length)
    (hnul : ∀ node ∈ nodes, 0 ∉ slice path node) :
    compact (front ++ path.drop front.length) front.length nodes =
      (front ++ nodes.flatMap (slice path) ++
          path.drop (front ++ nodes.flatMap (slice path)).length,
        (front ++ nodes.flatMap (slice path)).length) := by
  induction nodes generalizing front with
  | nil => simp [compact]
  | cons node nodes ih =>
    rw [List.forall_mem_cons] at hfront hbound hnul
    rw [List.pairwise_cons] at hordered
    have hlength : (slice path node).length = node.len := by
      rw [slice, List.length_take, List.length_drop]
      omega
    have hcopied : (front ++ slice path node).length = front.length + node.len := by
      rw [List.length_append, hlength]
    have hnext := ih (front ++ slice path node) hordered.2
      (fun later hlater => by
        have hbefore := hordered.1 later hlater
        omega)
      hbound.2 hnul.2
    rw [compact, strncpy_append path front node.begin hfront.1 hbound.1 hnul.1]
    rw [hcopied] at hnext
    rw [← slice, hnext, List.flatMap_cons, ← List.append_assoc]

/-- Some `..` has no earlier component left to cancel. -/
def Underflows (cs : List Component) : Prop :=
  ∃ before c after, cs = before ++ c :: after ∧ c.isDotDot = true ∧ survivors before = some []

theorem underflows_iff (cs : List Component) : Underflows cs ↔ reduce [] cs = none := by
  rw [reduce_eq_none_iff, Underflows]
  simp [survivors]

theorem zero_not_mem_text {cs kept : List Component} (hnul : 0 ∉ join cs)
    (hkept : reduce [] cs = some kept) {c : Component} (hc : c ∈ kept) : 0 ∉ c.text := by
  intro hzero
  apply hnul
  have hmem : c ∈ cs := (reduce_sublist hkept).subset (List.mem_reverse.mpr hc)
  rw [join, List.mem_flatMap]
  exact ⟨c, hmem, hzero⟩

theorem length_le_join {cs : List Component} (h : WellCut cs) : cs.length ≤ (join cs).length := by
  induction cs with
  | nil => exact Nat.le_refl 0
  | cons c cs ih =>
    have hpos := List.length_pos_iff.mpr (text_ne_nil h)
    have hrest := ih (h.sublist (List.sublist_cons_self c cs))
    rw [join_cons, List.length_append, List.length_cons]
    omega

theorem char_first {s : CString} (hne : s.bytes ≠ []) (rest : List UInt8) :
    char (s.bytes ++ 0 :: rest) 0 ≠ 0 := by
  cases hbytes : s.bytes with
  | nil => exact absurd hbytes hne
  | cons b bytes =>
    intro hzero
    apply s.no_nul
    rw [hbytes, ← show b = 0 from hzero]
    exact List.mem_cons_self

/-- The loop has a pass for every component, and one for the end of the string. -/
theorem length_cut_lt (s : CString) (rest : List UInt8) :
    (cut s.bytes).length < (s.bytes ++ 0 :: rest).length := by
  have hle := length_le_join (wellCut_cut s.bytes)
  rw [join_cut] at hle
  rw [List.length_append, List.length_cons]
  omega

/-- The components left on the stack are joined at the front, and a `NUL` follows them. -/
theorem compact_stacked {path : List UInt8} {i : ℕ} {kept : List Component}
    {nodes : List StackNode} (h : Stacked path i kept nodes) (hi : i ≤ path.length)
    (hnul : ∀ c ∈ kept, 0 ∉ c.text) :
    compact path 0 nodes.reverse =
      (join kept.reverse ++ path.drop (join kept.reverse).length, (join kept.reverse).length) := by
  have hjoin : nodes.reverse.flatMap (slice path) = join kept.reverse := by
    rw [List.flatMap_def, List.map_reverse, h.texts, ← List.map_reverse]
    rfl
  have hslices : ∀ node ∈ nodes.reverse, 0 ∉ slice path node := by
    intro node hnode
    have hmem : slice path node ∈ kept.map text := by
      rw [← h.texts]
      exact List.mem_map_of_mem (List.mem_reverse.mp hnode)
    obtain ⟨c, hc, htext⟩ := List.mem_map.mp hmem
    rw [← htext]
    exact hnul c hc
  have hcompact := compact_append path [] (List.pairwise_reverse.mpr h.ordered)
    (fun _ _ => Nat.zero_le _)
    (fun node hnode => (h.below node (List.mem_reverse.mp hnode)).trans hi) hslices
  rw [hjoin] at hcompact
  exact hcompact

variable {malloc : ℕ → Bool}

/-- The whole function, by the components that survive. -/
theorem normalizePath_eq (hmalloc : ∀ size, malloc size = true) (s : CString)
    (rest : List UInt8) : normalizePath malloc (s.bytes ++ 0 :: rest) =
      match reduce [] (cut s.bytes) with
      | none => (.error .EINVAL, s.bytes ++ 0 :: rest)
      | some kept => (.ok (), join kept.reverse ++
          0 :: (s.bytes ++ 0 :: rest).drop ((join kept.reverse).length + 1)) := by
  by_cases hempty : s.bytes = []
  · rw [hempty]
    rfl
  · have hjoin := join_cut s.bytes
    have hnul : 0 ∉ join (cut s.bytes) := by
      rw [hjoin]
      exact s.no_nul
    obtain ⟨outcome, hscan, houtcome⟩ := pushTokens_append rest [] (wellCut_cut s.bytes) hnul
      (by rw [hjoin]; rfl) (stacked_nil (s.bytes ++ 0 :: rest)) (length_cut_lt s rest)
    rw [List.length_nil] at hscan
    rw [normalizePath, if_neg (char_first hempty rest), if_pos (hmalloc _), hscan]
    cases hreduce : reduce [] (cut s.bytes) with
    | none =>
      rw [hreduce] at houtcome
      rw [show outcome = none from houtcome]
    | some kept =>
      rw [hreduce, hjoin] at houtcome
      obtain ⟨nodes, hnodes, hstacked⟩ := houtcome
      have hfits : ([] ++ s.bytes).length ≤ (s.bytes ++ 0 :: rest).length := by simp
      have hsub : (join kept.reverse).Sublist s.bytes := by
        have hflat := (reduce_sublist hreduce).flatMap text
        rwa [List.reverse_nil, List.nil_append, ← join, ← join, hjoin] at hflat
      have hlt : (join kept.reverse).length < (s.bytes ++ 0 :: rest).length := by
        have hle := hsub.length_le
        rw [List.length_append, List.length_cons]
        omega
      rw [hnodes]
      simp only [compact_stacked hstacked hfits fun c hc => zero_not_mem_text hnul hreduce hc]
      rw [List.drop_eq_getElem_cons hlt, set_append_cons]

end InterviewQuestions.NormalizePath
