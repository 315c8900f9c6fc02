import InterviewQuestions.Library.Cancelling
import InterviewQuestions.Library.FileTree
import InterviewQuestions.NormalizePath.Result

/-! What a normalized path names. `normalize_path` lets a `..` cancel an empty name, the one
before the leading `/` too, as if it were a directory. -/
namespace InterviewQuestions.NormalizePath

open Library Library.Component

/-- Some empty name comes when the `..` have cancelled everything before it, and the entries
after it cover their `..`. -/
def RootKept (cs : List Component) : Prop :=
  ∃ before c after, cs = before ++ c :: after ∧ c.name = [] ∧
    before.countP isDotDot = before.countP isEntry ∧ Covered isEntry after

variable {cs : List Component}

theorem isEntry_of_mem_left {counts : Component → Bool} {c : Component}
    (hc : c ∈ left counts cs) : counts c = true := by
  induction cs with
  | nil => cases hc
  | cons d cs ih =>
    rw [left] at hc
    split at hc
    case isTrue hd =>
      simp only [Bool.and_eq_true] at hd
      cases List.mem_cons.mp hc with
      | inl heq =>
        rw [heq]
        exact hd.1.2
      | inr hrest => exact ih hrest
    case isFalse => exact ih hc

/-- A path is absolute when its first component has no name. -/
theorem head_join_iff (hcut : WellCut cs) :
    (join cs).head? = some 47 ↔ ∃ c rest, cs = c :: rest ∧ c.name = [] := by
  cases cs with
  | nil => simp
  | cons c cs =>
    have hnames := hcut.names c List.mem_cons_self
    rw [join_cons]
    cases hname : c.name with
    | nil =>
      have hslash : c.slash = true := by simpa [hname] using hnames.2
      apply iff_of_true
      · simp [text_of_slash hslash, hname]
      · exact ⟨c, cs, rfl, hname⟩
    | cons b name =>
      have hb : b ≠ 47 := fun heq => hnames.1 (by rw [hname, heq]; exact List.mem_cons_self)
      apply iff_of_false
      · simp [text, hname, hb]
      · simp [hname]

theorem head_left_iff (hcut : WellCut (left isEntry cs)) (hkept : shortfall isEntry cs = 0) :
    (join (left isEntry cs)).head? = some 47 ↔ RootKept cs := by
  have hempty : ∀ c : Component, c.name = [] → c.isEntry = true := by
    intro c hname
    simp [isEntry, isDot, isDotDot, hname]
  rw [head_join_iff hcut, left_head_iff (fun _ => isDotDot_of_isEntry) cs fun c => c.name = [],
    hkept, RootKept]
  simp only [covered_isEntry, Nat.add_zero]
  constructor
  · intro h
    obtain ⟨before, c, after, hsplit, hname, _, hafter, hbefore⟩ := h
    exact ⟨before, c, after, hsplit, hname, hbefore, hafter⟩
  · intro h
    obtain ⟨before, c, after, hsplit, hname, hbefore, hafter⟩ := h
    exact ⟨before, c, after, hsplit, hname, hempty c hname, hafter, hbefore⟩

/-- The entries that are left name the same locations in every tree exactly when the names
cover what the entries do. -/
theorem same_location_iff (hcut : WellCut (left isEntry cs)) :
    (∀ (T : FileTree) (e : T.Location), T.resolve T.root cs = some e →
      T.resolve T.root (left isEntry cs) = some e) ↔ NamesCover cs := by
  have hentries : ∀ c ∈ left isEntry cs, c.isEntry = true := fun c hc => isEntry_of_mem_left hc
  have hroot : ∀ (T : FileTree) (e : T.Location), T.resolve T.root cs = some e →
      T.resolve T.root (left isName cs) = some e := by
    intro T e he
    have hleft := FileTree.resolve_left [] (by simp) (FileTree.resolve_nil T T.root) he
    simpa using hleft
  rw [← left_filter_iff]
  constructor
  · intro h
    obtain ⟨e, he⟩ := FileTree.free_resolve_isSome FileTree.free.root cs
    have hnames := hroot FileTree.free e he
    rw [FileTree.free_resolve_names (fun c hc => isEntry_of_mem_left hc)] at hnames
    have hfilter := FileTree.resolve_of_filter hcut hentries FileTree.free.root_isDir
      (FileTree.free_resolve_names (fun c hc => (List.mem_filter.mp hc).2) FileTree.free.root)
    rw [h FileTree.free e he, ← hnames] at hfilter
    have hlength := congrArg List.length (Option.some.inj hfilter)
    simpa using hlength.symm
  · intro h T e he
    apply FileTree.resolve_of_filter hcut hentries T.root_isDir
    rw [← (left_sublist cs).eq_of_length h.symm]
    exact hroot T e he

variable {malloc : ℕ → Bool}

end InterviewQuestions.NormalizePath

/-! The stack of `normalize_path` has room for half as many tokens as the path has characters,
rounded up. An empty name is a token of one character, so a path can have more. -/
namespace InterviewQuestions.NormalizePath

open Library Library.Component

variable {path : List UInt8} {i : ℕ} {nodes : List StackNode} {cs : List Component}

/-- One pass of the loop stores the token unless it is `.` or `..`. -/
theorem storedTokens_succ {c : Component} (h : TokenAt path i c) (fuel : ℕ) :
    storedTokens (fuel + 1) path nodes i =
      if c.isDotDot then
        match nodes with
        | [] => []
        | _ :: below => storedTokens fuel path below (i + c.text.length)
      else if c.isDot then storedTokens fuel path nodes (i + c.text.length)
      else nodes.length ::
        storedTokens fuel path (⟨i, c.text.length⟩ :: nodes) (i + c.text.length) := by
  rw [storedTokens, if_neg h.first]
  simp only [h.next, h.restored, h.dotdot, ← Bool.not_or, h.dot, Nat.add_sub_cancel_left]
  cases c.isDotDot with
  | true => rfl
  | false => cases c.isDot <;> rfl

/-- A token is stored at the number of components that lie on the stack. -/
theorem storedTokens_append (rest before : List UInt8) (hcut : WellCut cs) (hnul : 0 ∉ join cs)
    (hpath : path = before ++ (join cs ++ 0 :: rest)) {fuel : ℕ} (hfuel : cs.length < fuel) :
    storedTokens fuel path nodes before.length = pushDepths nodes.length cs := by
  induction cs generalizing before nodes fuel with
  | nil =>
    cases fuel with
    | zero => cases hfuel
    | succ fuel => rw [storedTokens, if_pos (char_end rest before hpath), pushDepths]
  | cons c cs ih =>
    cases fuel with
    | zero => cases hfuel
    | succ fuel =>
      have htoken := tokenAt_append rest before hcut hnul hpath
      rw [join_cons, List.mem_append, not_or] at hnul
      have hassoc : path = before ++ c.text ++ (join cs ++ 0 :: rest) := by
        rw [hpath, join_cons, List.append_assoc, List.append_assoc]
      have hnext : ∀ stack : List StackNode,
          storedTokens fuel path stack (before.length + c.text.length) =
            pushDepths stack.length cs := by
        intro stack
        rw [← List.length_append]
        exact ih (before ++ c.text) (hcut.sublist (List.sublist_cons_self c cs)) hnul.2 hassoc
          (Nat.lt_of_succ_lt_succ hfuel)
      rw [storedTokens_succ htoken, pushDepths_cons]
      cases hdotdot : c.isDotDot with
      | true =>
        cases nodes with
        | nil => rfl
        | cons node below => exact hnext below
      | false =>
        cases hdot : c.isDot with
        | true => exact hnext nodes
        | false =>
          have hpushed := hnext (⟨before.length, c.text.length⟩ :: nodes)
          exact congrArg (nodes.length :: ·) hpushed

theorem storedIndices_eq (malloc : ℕ → Bool) (s : CString) (rest : List UInt8) :
    storedIndices malloc (s.bytes ++ 0 :: rest) =
      if malloc (sizeofStackNode * stackSz (s.bytes ++ 0 :: rest)) then
        pushDepths 0 (cut s.bytes)
      else [] := by
  have hjoin := join_cut s.bytes
  by_cases hempty : s.bytes = []
  · rw [hempty, storedIndices, if_pos (by rfl), cut, pushDepths, ite_self]
  · have hnul : 0 ∉ join (cut s.bytes) := by
      rw [hjoin]
      exact s.no_nul
    have hpath : s.bytes ++ 0 :: rest = [] ++ (join (cut s.bytes) ++ 0 :: rest) := by
      rw [hjoin, List.nil_append]
    have hstored : storedTokens (s.bytes ++ 0 :: rest).length (s.bytes ++ 0 :: rest) [] 0 =
        pushDepths 0 (cut s.bytes) :=
      storedTokens_append rest [] (wellCut_cut s.bytes) hnul hpath (length_cut_lt s rest)
    rw [storedIndices, if_neg (char_first hempty rest), hstored]

/-! ## Where the stack is too small -/

theorem stackSz_append (s : CString) (rest : List UInt8) :
    stackSz (s.bytes ++ 0 :: rest) = (s.bytes.length - 1) / 2 + 1 := by
  rw [stackSz, CString.length, CString.bytes_ofBuffer s.no_nul]

/-- Before a `..` finds nothing to cancel, the entries of no initial part outnumber its `..` by
more than half the characters of the path, rounded up. -/
def HalfFull (path : List UInt8) : Prop :=
  ∀ before, before <+: cut path → Covered isEntry before →
    2 * before.countP isEntry ≤ 2 * before.countP isDotDot + path.length + 1

theorem pushDepths_cut_lt_iff (path : List UInt8) :
    (∀ d ∈ pushDepths 0 (cut path), d < (path.length - 1) / 2 + 1) ↔ HalfFull path := by
  rw [pushDepths_lt_iff (cut path) (Nat.zero_le _), HalfFull]
  apply forall₂_congr
  intro before hbefore
  rw [Nat.le_zero, ← covered_isEntry, Nat.zero_add]
  apply imp_congr_right
  intro _
  cases path with
  | nil =>
    rw [List.prefix_nil.mp hbefore]
    simp
  | cons b path =>
    rw [List.length_cons, Nat.add_sub_cancel]
    omega

/-- `normalize_path` stores every token inside the array that it has allocated if and only if
`malloc` fails or the entries that are not cancelled are at no time more than half the
characters of the path, rounded up. -/
theorem stored_within_iff (malloc : ℕ → Bool) (s : CString) (rest : List UInt8) :
    (∀ index ∈ storedIndices malloc (s.bytes ++ 0 :: rest),
        index < stackSz (s.bytes ++ 0 :: rest)) ↔
      (malloc (sizeofStackNode * stackSz (s.bytes ++ 0 :: rest)) = true → HalfFull s.bytes) := by
  rw [storedIndices_eq, stackSz_append, ← pushDepths_cut_lt_iff]
  cases malloc (sizeofStackNode * ((s.bytes.length - 1) / 2 + 1)) with
  | true => simp
  | false => simp

/-- The path `/a` has two tokens and room for one. -/
theorem not_stored_within : ¬ ∀ (malloc : ℕ → Bool) (s : CString) (rest : List UInt8),
    s.bytes ≠ [] → ∀ index ∈ storedIndices malloc (s.bytes ++ 0 :: rest),
      index < stackSz (s.bytes ++ 0 :: rest) := by
  intro h
  have hone := h (fun _ => true) ⟨[47, 97], by decide⟩ [] (by decide) 1
  revert hone
  decide +kernel

/-! ## Where it is large enough -/

/-- Without empty names, a component takes two characters, the last one perhaps only one. -/
theorem two_mul_length_le (hcut : WellCut cs) (hnames : ∀ c ∈ cs, c.name ≠ []) :
    2 * cs.length ≤ (join cs).length + 1 := by
  induction cs with
  | nil => simp
  | cons c cs ih =>
    have hname : 0 < c.name.length := List.length_pos_iff.mpr (hnames c List.mem_cons_self)
    cases hslash : c.slash with
    | true =>
      have hrest := ih (hcut.sublist (List.sublist_cons_self c cs)) fun d hd =>
        hnames d (List.mem_cons_of_mem c hd)
      rw [join_cons, text_of_slash hslash]
      simp only [List.length_cons, List.length_append, List.length_nil]
      omega
    | false =>
      rw [join_cons, text_of_not_slash hslash, (hcut.last hslash).1]
      simp only [List.length_cons, List.length_append, List.length_nil, join_nil]
      omega

/-- The slash in front and slashes in a row are all that the array is too small for. -/
theorem halfFull_of_names {path : List UInt8} (hnames : ∀ c ∈ cut path, c.name ≠ []) :
    HalfFull path := by
  intro before hbefore _
  have hlength := two_mul_length_le (wellCut_cut path) hnames
  have hcount : before.countP isEntry ≤ before.length := List.countP_le_length
  have hprefix := hbefore.length_le
  rw [join_cut] at hlength
  omega

theorem stored_within_of_names (malloc : ℕ → Bool) {s : CString} (rest : List UInt8)
    (hnames : ∀ c ∈ cut s.bytes, c.name ≠ []) :
    ∀ index ∈ storedIndices malloc (s.bytes ++ 0 :: rest),
      index < stackSz (s.bytes ++ 0 :: rest) := by
  rw [storedIndices_eq, stackSz_append]
  intro index hindex
  split at hindex
  case isTrue => exact (pushDepths_cut_lt_iff s.bytes).mpr (halfFull_of_names hnames) index hindex
  case isFalse => cases hindex

end InterviewQuestions.NormalizePath
