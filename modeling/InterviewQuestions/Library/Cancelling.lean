import InterviewQuestions.Library.Components
import Mathlib.Data.List.Infix

/-! Which components of a path are left when each `..` takes back one that counts: all
entries, or only those with a name. -/
namespace InterviewQuestions.Library

namespace Component

/-- Neither `.` nor `..`. -/
def isEntry (c : Component) : Bool := !c.isDot && !c.isDotDot

/-- An entry with a name. -/
def isName (c : Component) : Bool := c.isEntry && !c.name.isEmpty

theorem isDotDot_of_isEntry {c : Component} (h : c.isEntry = true) : c.isDotDot = false := by
  simp only [isEntry, Bool.and_eq_true, Bool.not_eq_true'] at h
  exact h.2

theorem isEntry_of_isName {c : Component} (h : c.isName = true) : c.isEntry = true := by
  rw [isName, Bool.and_eq_true] at h
  exact h.1

theorem isDotDot_of_isName {c : Component} (h : c.isName = true) : c.isDotDot = false :=
  isDotDot_of_isEntry (isEntry_of_isName h)

/-! ## Counting -/

variable {counts : Component → Bool}

/-- In no initial part are there more `..` than components that count. -/
def Covered (counts : Component → Bool) (cs : List Component) : Prop :=
  ∀ before, before <+: cs → before.countP isDotDot ≤ before.countP counts

/-- How many of the components before this list its `..` take back. -/
def shortfall (counts : Component → Bool) : List Component → ℕ
  | [] => 0
  | c :: cs =>
      if c.isDotDot then shortfall counts cs + 1
      else if counts c then shortfall counts cs - 1
      else shortfall counts cs

/-- The components that count and are not taken back. -/
def left (counts : Component → Bool) : List Component → List Component
  | [] => []
  | c :: cs =>
      if !c.isDotDot && counts c && shortfall counts cs = 0 then c :: left counts cs
      else left counts cs

/-- A `..` does not count. -/
theorem counts_dotdot (hcounts : ∀ c, counts c = true → c.isDotDot = false) {c : Component}
    (hdotdot : c.isDotDot = true) : counts c = false := by
  rw [Bool.eq_false_iff]
  intro hcount
  rw [hcounts c hcount] at hdotdot
  cases hdotdot

/-- An initial part is empty or begins with the first component. -/
theorem forall_prefix_cons {p : List Component → Prop} (c : Component) (cs : List Component)
    (hnil : p []) : (∀ before, before <+: c :: cs → p before) ↔
      ∀ before, before <+: cs → p (c :: before) := by
  constructor
  · intro h before hbefore
    exact h (c :: before) (List.cons_prefix_cons.mpr ⟨rfl, hbefore⟩)
  · intro h before hbefore
    cases before with
    | nil => exact hnil
    | cons d before =>
      obtain ⟨hd, hrest⟩ := List.cons_prefix_cons.mp hbefore
      rw [hd]
      exact h before hrest

theorem shortfall_le_iff (hcounts : ∀ c, counts c = true → c.isDotDot = false)
    (cs : List Component) (k : ℕ) : shortfall counts cs ≤ k ↔
      ∀ before, before <+: cs → before.countP isDotDot ≤ before.countP counts + k := by
  induction cs generalizing k with
  | nil => simp [shortfall]
  | cons c cs ih =>
    rw [forall_prefix_cons c cs (Nat.zero_le _), shortfall]
    cases hdotdot : c.isDotDot with
    | true =>
      have hnot := counts_dotdot hcounts hdotdot
      simp only [List.countP_cons, hdotdot, hnot, if_true, Bool.false_eq_true, if_false,
        Nat.add_zero]
      cases k with
      | zero =>
        apply iff_of_false (Nat.not_succ_le_zero _)
        intro h
        exact absurd (h [] List.nil_prefix) (by simp)
      | succ k =>
        rw [Nat.add_le_add_iff_right, ih k]
        simp only [← Nat.add_assoc, Nat.add_le_add_iff_right]
    | false =>
      cases hcount : counts c with
      | true =>
        simp only [List.countP_cons, hdotdot, hcount, if_true, Bool.false_eq_true, if_false,
          Nat.add_zero]
        rw [Nat.sub_le_iff_le_add, ih (k + 1)]
        simp only [Nat.add_assoc, Nat.add_comm 1 k]
      | false =>
        simp only [List.countP_cons, hdotdot, hcount, Bool.false_eq_true, if_false, Nat.add_zero]
        exact ih k

theorem covered_iff (hcounts : ∀ c, counts c = true → c.isDotDot = false) (cs : List Component) :
    Covered counts cs ↔ shortfall counts cs = 0 := by
  rw [← Nat.le_zero, shortfall_le_iff hcounts]
  rfl

/-- One component in front, according to whether it is `..`, counts, or neither. -/
theorem shortfall_dotdot (counts : Component → Bool) {c : Component}
    (hdotdot : c.isDotDot = true) (cs : List Component) :
    shortfall counts (c :: cs) = shortfall counts cs + 1 ∧
      left counts (c :: cs) = left counts cs := by
  simp [shortfall, left, hdotdot]

theorem shortfall_counts (counts : Component → Bool) {c : Component} (hdotdot : c.isDotDot = false)
    (hcount : counts c = true) (cs : List Component) :
    shortfall counts (c :: cs) = shortfall counts cs - 1 ∧
      left counts (c :: cs) =
        if shortfall counts cs = 0 then c :: left counts cs else left counts cs := by
  simp [shortfall, left, hdotdot, hcount]

theorem shortfall_other (counts : Component → Bool) {c : Component} (hdotdot : c.isDotDot = false)
    (hcount : counts c = false) (cs : List Component) :
    shortfall counts (c :: cs) = shortfall counts cs ∧
      left counts (c :: cs) = left counts cs := by
  simp [shortfall, left, hdotdot, hcount]

/-- Reduction takes back the entries at the end of the stack and adds those that are left. -/
theorem reduce_eq (stack cs : List Component) : reduce stack cs =
    if shortfall isEntry cs ≤ stack.length then
      some ((left isEntry cs).reverse ++ stack.drop (shortfall isEntry cs))
    else none := by
  induction cs generalizing stack with
  | nil => simp [shortfall, left]
  | cons c cs ih =>
    rw [reduce_cons]
    cases hdotdot : c.isDotDot with
    | true =>
      obtain ⟨hshort, hleft⟩ := shortfall_dotdot isEntry hdotdot cs
      rw [hshort, hleft]
      cases stack with
      | nil =>
        rw [step_eq_none_iff.mpr ⟨hdotdot, rfl⟩]
        simp
      | cons d stack =>
        rw [step_dotdot hdotdot, Option.bind_some, ih]
        simp
    | false =>
      cases hdot : c.isDot with
      | true =>
        obtain ⟨hshort, hleft⟩ :=
          shortfall_other isEntry hdotdot (by simp [isEntry, hdot]) cs
        rw [step_dot hdotdot hdot, Option.bind_some, ih, hshort, hleft]
      | false =>
        obtain ⟨hshort, hleft⟩ :=
          shortfall_counts isEntry hdotdot (by simp [isEntry, hdot, hdotdot]) cs
        rw [step_name hdotdot hdot, Option.bind_some, ih, hshort, hleft]
        cases hcs : shortfall isEntry cs with
        | zero => simp
        | succ k => simp

/-- What a component that is not left does to the shortfall. -/
theorem shortfall_cons (hcounts : ∀ c, counts c = true → c.isDotDot = false) {c : Component}
    {cs : List Component} (h : ¬ (counts c = true ∧ shortfall counts cs = 0)) :
    left counts (c :: cs) = left counts cs ∧ ∀ before : List Component,
      ((c :: before).countP isDotDot = (c :: before).countP counts + shortfall counts (c :: cs) ↔
        before.countP isDotDot = before.countP counts + shortfall counts cs) := by
  simp only [List.countP_cons]
  cases hdotdot : c.isDotDot with
  | true =>
    have hnot := counts_dotdot hcounts hdotdot
    obtain ⟨hshort, hleft⟩ := shortfall_dotdot counts hdotdot cs
    rw [hshort, hnot]
    simp only [if_true, Bool.false_eq_true, if_false]
    exact ⟨hleft, fun before => by omega⟩
  | false =>
    cases hcount : counts c with
    | true =>
      obtain ⟨hshort, hleft⟩ := shortfall_counts counts hdotdot hcount cs
      have hpos : shortfall counts cs ≠ 0 := fun hzero => h ⟨hcount, hzero⟩
      rw [if_neg hpos] at hleft
      rw [hshort]
      simp only [if_true, Bool.false_eq_true, if_false]
      exact ⟨hleft, fun before => by omega⟩
    | false =>
      obtain ⟨hshort, hleft⟩ := shortfall_other counts hdotdot hcount cs
      rw [hshort]
      simp only [Bool.false_eq_true, if_false]
      exact ⟨hleft, fun before => by omega⟩

/-- The first component that is left is the one before which the `..` have taken back
everything. -/
theorem left_head_iff (hcounts : ∀ c, counts c = true → c.isDotDot = false)
    (cs : List Component) (p : Component → Prop) : (∃ c rest, left counts cs = c :: rest ∧ p c) ↔
      ∃ before c after, cs = before ++ c :: after ∧ p c ∧ counts c = true ∧
        shortfall counts after = 0 ∧
        before.countP isDotDot = before.countP counts + shortfall counts cs := by
  induction cs with
  | nil => simp [left]
  | cons d cs ih =>
    by_cases hd : counts d = true ∧ shortfall counts cs = 0
    · obtain ⟨hshort, hleft⟩ := shortfall_counts counts (hcounts d hd.1) hd.1 cs
      rw [if_pos hd.2] at hleft
      rw [hd.2] at hshort
      constructor
      · intro h
        obtain ⟨c, rest, hc, hp⟩ := h
        rw [hleft] at hc
        obtain ⟨heq, _⟩ := List.cons.inj hc
        rw [← heq] at hp
        exact ⟨[], d, cs, rfl, hp, hd.1, hd.2, by rw [hshort]; rfl⟩
      · intro h
        obtain ⟨before, c, after, hsplit, hp, hc, hafter, hbefore⟩ := h
        cases before with
        | nil =>
          obtain ⟨heq, _⟩ := List.cons.inj hsplit
          rw [← heq] at hp
          exact ⟨d, _, hleft, hp⟩
        | cons e before =>
          -- nothing after `d` takes it back, so what stands before `c` cannot be used up
          obtain ⟨heq, hcs⟩ := List.cons.inj hsplit
          have hcovered := (shortfall_le_iff hcounts cs 0).mp (Nat.le_of_eq hd.2) before
            (by rw [hcs]; exact List.prefix_append _ _)
          rw [← heq, hshort] at hbefore
          simp only [List.countP_cons, hcounts d hd.1, hd.1, if_true, Bool.false_eq_true,
            if_false] at hbefore
          omega
    · obtain ⟨hleft, hcount⟩ := shortfall_cons hcounts hd
      rw [hleft, ih]
      constructor
      · intro h
        obtain ⟨before, c, after, hsplit, hp, hc, hafter, hbefore⟩ := h
        exact ⟨d :: before, c, after, by rw [hsplit]; rfl, hp, hc, hafter,
          (hcount before).mpr hbefore⟩
      · intro h
        obtain ⟨before, c, after, hsplit, hp, hc, hafter, hbefore⟩ := h
        cases before with
        | nil =>
          obtain ⟨heq, hcs⟩ := List.cons.inj hsplit
          rw [← heq] at hc
          rw [← hcs] at hafter
          exact absurd ⟨hc, hafter⟩ hd
        | cons e before =>
          obtain ⟨heq, hcs⟩ := List.cons.inj hsplit
          rw [← heq] at hbefore
          exact ⟨before, c, after, hcs, hp, hc, hafter, (hcount before).mp hbefore⟩

/-! ## Names and entries -/

theorem covered_isEntry (cs : List Component) :
    Covered isEntry cs ↔ shortfall isEntry cs = 0 :=
  covered_iff (fun _ => isDotDot_of_isEntry) cs

theorem covered_isName (cs : List Component) : Covered isName cs ↔ shortfall isName cs = 0 :=
  covered_iff (fun _ => isDotDot_of_isName) cs

/-- Names take back no more than entries. -/
theorem Covered.entries {cs : List Component} (h : Covered isName cs) : Covered isEntry cs :=
  fun before hbefore => (h before hbefore).trans
    (List.countP_mono_left fun _ _ => isEntry_of_isName)

/-- A name that is left when only names count is left when all entries do. -/
theorem left_sublist (cs : List Component) :
    (left isName cs).Sublist ((left isEntry cs).filter isName) := by
  induction cs with
  | nil => exact List.Sublist.refl _
  | cons c cs ih =>
    cases hdotdot : c.isDotDot with
    | true =>
      rw [(shortfall_dotdot isName hdotdot cs).2, (shortfall_dotdot isEntry hdotdot cs).2]
      exact ih
    | false =>
      cases hname : c.isName with
      | true =>
        rw [(shortfall_counts isName hdotdot hname cs).2,
          (shortfall_counts isEntry hdotdot (isEntry_of_isName hname) cs).2]
        by_cases hnames : shortfall isName cs = 0
        · have hentries : shortfall isEntry cs = 0 :=
            (covered_isEntry cs).mp ((covered_isName cs).mpr hnames).entries
          rw [if_pos hnames, if_pos hentries, List.filter_cons_of_pos hname]
          exact ih.cons_cons c
        · rw [if_neg hnames]
          split
          case isTrue =>
            rw [List.filter_cons_of_pos hname]
            exact ih.cons c
          case isFalse => exact ih
      | false =>
        rw [(shortfall_other isName hdotdot hname cs).2]
        cases hentry : c.isEntry with
        | true =>
          rw [(shortfall_counts isEntry hdotdot hentry cs).2]
          split
          case isTrue =>
            rw [List.filter_cons_of_neg (by simp [hname])]
            exact ih
          case isFalse => exact ih
        | false =>
          rw [(shortfall_other isEntry hdotdot hentry cs).2]
          exact ih

/-- Whenever the entries after a name cover its `..`, the names after it do. -/
def NamesCover (cs : List Component) : Prop :=
  ∀ before c after, cs = before ++ c :: after → c.isName = true → Covered isEntry after →
    Covered isName after

theorem namesCover_cons (c : Component) (cs : List Component) : NamesCover (c :: cs) ↔
    (c.isName = true → Covered isEntry cs → Covered isName cs) ∧ NamesCover cs := by
  constructor
  · intro h
    constructor
    · exact h [] c cs rfl
    · intro before d after hsplit
      exact h (c :: before) d after (by rw [hsplit]; rfl)
  · intro h before d after hsplit
    cases before with
    | nil =>
      obtain ⟨heq, hcs⟩ := List.cons.inj hsplit
      rw [← heq, ← hcs]
      exact h.1
    | cons e before => exact h.2 before d after (List.cons.inj hsplit).2

/-- The same names are left exactly when the names cover what the entries do. -/
theorem left_filter_iff (cs : List Component) :
    ((left isEntry cs).filter isName).length = (left isName cs).length ↔ NamesCover cs := by
  induction cs with
  | nil =>
    apply iff_of_true rfl
    intro before c after hsplit
    simp at hsplit
  | cons c cs ih =>
    rw [namesCover_cons]
    cases hdotdot : c.isDotDot with
    | true =>
      have hname := counts_dotdot (fun _ => isDotDot_of_isName) hdotdot
      rw [(shortfall_dotdot isName hdotdot cs).2, (shortfall_dotdot isEntry hdotdot cs).2, ih]
      simp [hname]
    | false =>
      cases hname : c.isName with
      | true =>
        rw [(shortfall_counts isName hdotdot hname cs).2,
          (shortfall_counts isEntry hdotdot (isEntry_of_isName hname) cs).2, covered_isEntry,
          covered_isName, ← ih]
        have hle := (left_sublist cs).length_le
        have hmono : shortfall isName cs = 0 → shortfall isEntry cs = 0 := by
          rw [← covered_isName, ← covered_isEntry]
          exact Covered.entries
        by_cases hnames : shortfall isName cs = 0
        · rw [if_pos hnames, if_pos (hmono hnames), List.filter_cons_of_pos hname]
          simp [hnames]
        · rw [if_neg hnames]
          split
          case isTrue hentries =>
            rw [List.filter_cons_of_pos hname, List.length_cons]
            constructor
            · intro heq
              omega
            · intro h
              exact absurd (h.1 rfl hentries) hnames
          case isFalse hentries => simp [hentries]
      | false =>
        rw [(shortfall_other isName hdotdot hname cs).2]
        cases hentry : c.isEntry with
        | true =>
          rw [(shortfall_counts isEntry hdotdot hentry cs).2]
          split
          case isTrue =>
            rw [List.filter_cons_of_neg (by simp [hname]), ih]
            simp
          case isFalse =>
            rw [ih]
            simp
        | false =>
          rw [(shortfall_other isEntry hdotdot hentry cs).2, ih]
          simp

/-! ## Depth -/

/-- How many components lie on the stack when each of the next ones is pushed, up to a `..` that
finds none. -/
def pushDepths : ℕ → List Component → List ℕ
  | _, [] => []
  | depth, c :: cs =>
      if c.isDotDot then
        match depth with
        | 0 => []
        | below + 1 => pushDepths below cs
      else if c.isDot then pushDepths depth cs
      else depth :: pushDepths (depth + 1) cs

theorem pushDepths_cons (depth : ℕ) (c : Component) (cs : List Component) :
    pushDepths depth (c :: cs) =
      if c.isDotDot then if depth = 0 then [] else pushDepths (depth - 1) cs
      else if c.isDot then pushDepths depth cs
      else depth :: pushDepths (depth + 1) cs := by
  cases depth with
  | zero => rfl
  | succ below => rfl

/-- All are pushed below a bound exactly when it is as large as what any initial part leaves,
as long as the stack covers its `..`. -/
theorem pushDepths_lt_iff (cs : List Component) {depth cap : ℕ} (hdepth : depth ≤ cap) :
    (∀ d ∈ pushDepths depth cs, d < cap) ↔
      ∀ before, before <+: cs → shortfall isEntry before ≤ depth →
        depth + before.countP isEntry ≤ before.countP isDotDot + cap := by
  induction cs generalizing depth with
  | nil =>
    apply iff_of_true
    · intro d hd
      cases hd
    · intro before hbefore _
      rw [List.prefix_nil.mp hbefore]
      simpa using hdepth
  | cons c cs ih =>
    rw [forall_prefix_cons c cs (fun _ => by simpa using hdepth), pushDepths_cons]
    cases hdotdot : c.isDotDot with
    | true =>
      have hnot := counts_dotdot (fun _ => isDotDot_of_isEntry) hdotdot
      simp only [(shortfall_dotdot isEntry hdotdot _).1, List.countP_cons, hdotdot, hnot, if_true,
        Bool.false_eq_true, if_false, Nat.add_zero]
      cases depth with
      | zero => simp
      | succ below =>
        rw [if_neg (Nat.succ_ne_zero below), Nat.add_sub_cancel, ih (Nat.le_of_succ_le hdepth)]
        simp only [Nat.add_le_add_iff_right, Nat.add_right_comm _ 1]
    | false =>
      cases hdot : c.isDot with
      | true =>
        have hentry : c.isEntry = false := by simp [isEntry, hdot]
        simp only [(shortfall_other isEntry hdotdot hentry _).1, List.countP_cons, hdotdot, hentry,
          if_true, Bool.false_eq_true, if_false, Nat.add_zero]
        exact ih hdepth
      | false =>
        have hentry : c.isEntry = true := by simp [isEntry, hdot, hdotdot]
        simp only [(shortfall_counts isEntry hdotdot hentry _).1, List.countP_cons, hdotdot, hentry,
          if_true, Bool.false_eq_true, if_false, Nat.add_zero, List.forall_mem_cons,
          Nat.sub_le_iff_le_add]
        by_cases hlt : depth < cap
        · rw [ih hlt]
          simp only [hlt, true_and, Nat.succ_eq_add_one, Nat.add_assoc, Nat.add_comm 1]
        · -- the component itself has no room left
          apply iff_of_false
          · exact fun h => hlt h.1
          · intro h
            have hpushed := h [] List.nil_prefix (Nat.zero_le _)
            simp only [List.countP_nil] at hpushed
            omega

end Component

end InterviewQuestions.Library
