import InterviewQuestions.Library.Cancelling

/-! File trees without symbolic links, and what a path names in one. -/
namespace InterviewQuestions.Library

open Component

/-- Directories and files. The parent of the root is the root. -/
structure FileTree where
  Location : Type
  root : Location
  parent : Location → Location
  child : Location → List UInt8 → Option Location
  isDir : Location → Bool
  parent_root : parent root = root
  parent_child : ∀ {d name e}, child d name = some e → parent e = d
  root_isDir : isDir root = true

namespace FileTree

variable (T : FileTree)

/-- One component, at a directory: `..`, a name, or `.` and the empty name. A `/` after it
asks for a directory again. -/
def lookup (d : T.Location) (c : Component) : Option T.Location :=
  let found :=
    if c.isDotDot then some (T.parent d)
    else if c.isName then T.child d c.name
    else some d
  found.filter fun e => !c.slash || T.isDir e

def resolve (d : T.Location) (cs : List Component) : Option T.Location := cs.foldlM T.lookup d

@[simp] theorem resolve_nil (d : T.Location) : T.resolve d [] = some d := rfl

theorem resolve_cons (d : T.Location) (c : Component) (cs : List Component) :
    T.resolve d (c :: cs) = (T.lookup d c).bind fun e => T.resolve e cs := by
  rw [resolve, List.foldlM_cons]
  rfl

theorem resolve_append (d : T.Location) (cs ds : List Component) :
    T.resolve d (cs ++ ds) = (T.resolve d cs).bind fun e => T.resolve e ds := by
  rw [resolve, List.foldlM_append]
  rfl

theorem resolve_concat (d : T.Location) (cs : List Component) (c : Component) :
    T.resolve d (cs ++ [c]) = (T.resolve d cs).bind fun e => T.lookup e c := by
  simp [resolve_append, resolve_cons]

variable {T}

/-- What a component that is found leads to. -/
theorem lookup_eq_some {d e : T.Location} {c : Component} (h : T.lookup d c = some e) :
    (c.slash = true → T.isDir e = true) ∧
      (if c.isDotDot then some (T.parent d)
        else if c.isName then T.child d c.name
        else some d) = some e := by
  obtain ⟨hfound, hdir⟩ := Option.filter_eq_some_iff.mp h
  constructor
  · intro hslash
    simpa [hslash] using hdir
  · exact hfound

theorem lookup_dotdot {d e : T.Location} {c : Component} (hdotdot : c.isDotDot = true)
    (h : T.lookup d c = some e) : e = T.parent d := by
  have hfound := (lookup_eq_some h).2
  rw [if_pos hdotdot] at hfound
  exact (Option.some.inj hfound).symm

theorem lookup_name {d e : T.Location} {c : Component} (hname : c.isName = true)
    (h : T.lookup d c = some e) : T.child d c.name = some e := by
  have hfound := (lookup_eq_some h).2
  rwa [isDotDot_of_isName hname, if_neg Bool.false_ne_true, if_pos hname] at hfound

theorem lookup_other {d e : T.Location} {c : Component} (hdotdot : c.isDotDot = false)
    (hname : c.isName = false) (h : T.lookup d c = some e) : e = d := by
  have hfound := (lookup_eq_some h).2
  rw [hdotdot, if_neg Bool.false_ne_true, hname, if_neg Bool.false_ne_true] at hfound
  exact (Option.some.inj hfound).symm

/-- A path from a directory that names from the root lead to: the names that are left lead
to where the path does. -/
theorem resolve_left (names : List Component) {cs : List Component} {d e : T.Location}
    (hnames : ∀ c ∈ names, c.isName = true) (hd : T.resolve T.root names.reverse = some d)
    (h : T.resolve d cs = some e) :
    T.resolve T.root ((names.drop (shortfall isName cs)).reverse ++ left isName cs) = some e := by
  induction cs generalizing names d with
  | nil =>
    rw [resolve_nil, Option.some.injEq] at h
    simp [shortfall, left, hd, h]
  | cons c cs ih =>
    rw [resolve_cons] at h
    obtain ⟨f, hf, hrest⟩ := Option.bind_eq_some_iff.mp h
    cases hdotdot : c.isDotDot with
    | true =>
      obtain ⟨hshort, hleft⟩ := shortfall_dotdot isName hdotdot cs
      have hparent := lookup_dotdot hdotdot hf
      rw [hshort, hleft]
      cases names with
      | nil =>
        have hroot : d = T.root := by simpa using hd.symm
        rw [hroot, T.parent_root] at hparent
        have hnext := ih [] (by simp) (by simp [hparent]) hrest
        simpa using hnext
      | cons n names =>
        rw [List.reverse_cons, resolve_concat] at hd
        obtain ⟨g, hg, hn⟩ := Option.bind_eq_some_iff.mp hd
        rw [T.parent_child (lookup_name (hnames n List.mem_cons_self) hn)] at hparent
        rw [hparent] at hrest
        exact ih names (fun m hm => hnames m (List.mem_cons_of_mem n hm)) hg hrest
    | false =>
      cases hname : c.isName with
      | true =>
        obtain ⟨hshort, hleft⟩ := shortfall_counts isName hdotdot hname cs
        have hnext := ih (c :: names)
          (List.forall_mem_cons.mpr ⟨hname, hnames⟩)
          (by rw [List.reverse_cons, resolve_concat, hd, Option.bind_some, hf]) hrest
        rw [hshort, hleft]
        cases hcs : shortfall isName cs with
        | zero =>
          rw [hcs] at hnext
          simpa using hnext
        | succ k =>
          rw [hcs] at hnext
          simpa using hnext
      | false =>
        obtain ⟨hshort, hleft⟩ := shortfall_other isName hdotdot hname cs
        rw [lookup_other hdotdot hname hf] at hrest
        rw [hshort, hleft]
        exact ih names hnames hd hrest

/-- Empty names between the names of a path change nothing. -/
theorem resolve_of_filter {cs : List Component} {d e : T.Location} (hcut : WellCut cs)
    (hentries : ∀ c ∈ cs, c.isEntry = true) (hd : T.isDir d = true)
    (h : T.resolve d (cs.filter isName) = some e) : T.resolve d cs = some e := by
  induction cs generalizing d with
  | nil => exact h
  | cons c cs ih =>
    have hcut' : WellCut cs := hcut.sublist (List.sublist_cons_self c cs)
    rw [List.forall_mem_cons] at hentries
    rw [resolve_cons]
    cases hname : c.isName with
    | true =>
      rw [List.filter_cons_of_pos hname, resolve_cons] at h
      obtain ⟨f, hf, hrest⟩ := Option.bind_eq_some_iff.mp h
      rw [hf, Option.bind_some]
      cases cs with
      | nil => exact hrest
      | cons b cs =>
        have hslash := (List.pairwise_cons.mp hcut.slashes).1 b List.mem_cons_self
        exact ih hcut' hentries.2 ((lookup_eq_some hf).1 hslash) hrest
    | false =>
      rw [List.filter_cons_of_neg (by simp [hname])] at h
      have hdotdot := isDotDot_of_isEntry hentries.1
      have hlookup : T.lookup d c = some d := by simp [lookup, hdotdot, hname, hd]
      rw [hlookup, Option.bind_some]
      exact ih hcut' hentries.2 hd h

/-! ## The tree in which every name is a directory -/

/-- A location is the list of the names that lead to it, the last one first. -/
@[reducible] def free : FileTree where
  Location := List (List UInt8)
  root := []
  parent := List.tail
  child d name := some (name :: d)
  isDir _ := true
  parent_root := rfl
  parent_child h := by
    rw [← Option.some.inj h]
    rfl
  root_isDir := rfl

/-- Names lead to themselves. -/
theorem free_resolve_names {cs : List Component} (hnames : ∀ c ∈ cs, c.isName = true)
    (d : List (List UInt8)) : free.resolve d cs = some ((cs.map Component.name).reverse ++ d) := by
  induction cs generalizing d with
  | nil => rfl
  | cons c cs ih =>
    rw [List.forall_mem_cons] at hnames
    have hlookup : free.lookup d c = some (c.name :: d) := by
      simp [lookup, free, hnames.1, isDotDot_of_isName hnames.1]
    rw [resolve_cons, hlookup, Option.bind_some, ih hnames.2]
    simp

/-- Every path leads somewhere. -/
theorem free_resolve_isSome (d : List (List UInt8)) (cs : List Component) :
    ∃ e, free.resolve d cs = some e := by
  induction cs generalizing d with
  | nil => exact ⟨d, rfl⟩
  | cons c cs ih =>
    have hlookup : ∃ f, free.lookup d c = some f := by
      unfold lookup
      split
      · exact ⟨d.tail, by simp⟩
      · split
        · exact ⟨c.name :: d, by simp⟩
        · exact ⟨d, by simp⟩
    obtain ⟨f, hf⟩ := hlookup
    rw [resolve_cons, hf]
    exact ih f

end FileTree

end InterviewQuestions.Library
