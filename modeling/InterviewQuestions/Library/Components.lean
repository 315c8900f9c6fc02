import Mathlib.Data.List.Basic
import Mathlib.Data.List.TakeWhile
import Mathlib.Data.List.Pairwise

/-! Paths as lists of components, and what is left of them when `..` cancels the component
before it and `.` is dropped. -/
namespace InterviewQuestions.Library

/-- A name, and whether a `/` follows it. -/
structure Component where
  name : List UInt8
  slash : Bool
deriving DecidableEq

namespace Component

def text (c : Component) : List UInt8 := c.name ++ if c.slash then [47] else []

def isDot (c : Component) : Bool := c.name = [46]

def isDotDot (c : Component) : Bool := c.name = [46, 46]

/-- Every `/` ends a component, and so does the end of the path. -/
def cut : List UInt8 → List Component
  | [] => []
  | b :: path =>
      if b = 47 then ⟨[], true⟩ :: cut path
      else
        match cut path with
        | [] => [⟨[b], false⟩]
        | c :: cs => ⟨b :: c.name, c.slash⟩ :: cs

def join (cs : List Component) : List UInt8 := cs.flatMap text

@[simp] theorem join_nil : join [] = [] := rfl

@[simp] theorem join_cons (c : Component) (cs : List Component) :
    join (c :: cs) = c.text ++ join cs := rfl

theorem join_cut (path : List UInt8) : join (cut path) = path := by
  induction path with
  | nil => rfl
  | cons b path ih =>
    unfold cut
    by_cases hb : b = 47
    · rw [if_pos hb, join_cons, ih, hb]
      rfl
    · rw [if_neg hb]
      cases hcut : cut path with
      | nil =>
        rw [hcut, join_nil] at ih
        rw [← ih]
        rfl
      | cons c cs =>
        rw [hcut, join_cons] at ih
        rw [← ih]
        rfl

/-- Components as `cut` makes them: only the last one may lack its `/`, and not without a
name. -/
structure WellCut (cs : List Component) : Prop where
  names : ∀ c ∈ cs, 47 ∉ c.name ∧ (c.slash = true ∨ c.name ≠ [])
  slashes : cs.Pairwise fun c _ => c.slash = true

theorem WellCut.sublist {cs ds : List Component} (h : WellCut cs) (hsub : ds.Sublist cs) :
    WellCut ds :=
  ⟨fun c hc => h.names c (hsub.subset hc), h.slashes.sublist hsub⟩

/-- A component without `/` is the last one. -/
theorem WellCut.last {c : Component} {cs : List Component} (h : WellCut (c :: cs))
    (hslash : c.slash = false) : cs = [] ∧ c.name ≠ [] := by
  constructor
  · cases cs with
    | nil => rfl
    | cons d cs =>
      rw [(List.pairwise_cons.mp h.slashes).1 d List.mem_cons_self] at hslash
      cases hslash
  · cases (h.names c List.mem_cons_self).2 with
    | inl htrue =>
      rw [htrue] at hslash
      cases hslash
    | inr hne => exact hne

theorem text_of_slash {c : Component} (hslash : c.slash = true) : c.text = c.name ++ [47] := by
  rw [text, if_pos hslash]

theorem text_of_not_slash {c : Component} (hslash : c.slash = false) : c.text = c.name := by
  rw [text, hslash, if_neg Bool.false_ne_true, List.append_nil]

theorem wellCut_cut (path : List UInt8) : WellCut (cut path) := by
  induction path with
  | nil => exact ⟨fun c hc => absurd hc List.not_mem_nil, List.Pairwise.nil⟩
  | cons b path ih =>
    unfold cut
    by_cases hb : b = 47
    · rw [if_pos hb]
      constructor
      · rw [List.forall_mem_cons]
        exact ⟨⟨List.not_mem_nil, Or.inl rfl⟩, ih.names⟩
      · exact List.pairwise_cons.mpr ⟨fun _ _ => rfl, ih.slashes⟩
    · rw [if_neg hb]
      cases hcut : cut path with
      | nil =>
        constructor
        · intro c hc
          rw [List.mem_singleton.mp hc]
          exact ⟨by simpa using Ne.symm hb, Or.inr (by simp)⟩
        · exact List.pairwise_singleton _ _
      | cons c cs =>
        rw [hcut] at ih
        have hnames := List.forall_mem_cons.mp ih.names
        have hslashes := List.pairwise_cons.mp ih.slashes
        constructor
        · rw [List.forall_mem_cons]
          constructor
          · exact ⟨by simp [Ne.symm hb, hnames.1.1], Or.inr (by simp)⟩
          · exact hnames.2
        · exact List.pairwise_cons.mpr ⟨hslashes.1, hslashes.2⟩

theorem cut_name_append {name rest : List UInt8} (hname : 47 ∉ name) {c : Component}
    {cs : List Component} (hrest : cut rest = c :: cs) :
    cut (name ++ rest) = ⟨name ++ c.name, c.slash⟩ :: cs := by
  induction name with
  | nil => exact hrest
  | cons b name ih =>
    rw [List.mem_cons, not_or] at hname
    rw [List.cons_append, cut, if_neg (Ne.symm hname.1), ih hname.2]
    rfl

theorem cut_name {name : List UInt8} (hname : 47 ∉ name) (hne : name ≠ []) :
    cut name = [⟨name, false⟩] := by
  induction name with
  | nil => exact absurd rfl hne
  | cons b name ih =>
    rw [List.mem_cons, not_or] at hname
    rw [cut, if_neg (Ne.symm hname.1)]
    cases name with
    | nil => rfl
    | cons d name => rw [ih hname.2 (by simp)]

/-- Cutting is the inverse of joining. -/
theorem WellCut.cut_join {cs : List Component} (h : WellCut cs) : cut (join cs) = cs := by
  induction cs with
  | nil => rfl
  | cons c cs ih =>
    have hnames := List.forall_mem_cons.mp h.names
    have hslashes := List.pairwise_cons.mp h.slashes
    have hrest := ih ⟨hnames.2, hslashes.2⟩
    rw [join_cons]
    cases hslash : c.slash with
    | true =>
      have htext : c.text ++ join cs = c.name ++ 47 :: join cs := by
        simp [text_of_slash hslash]
      have hcons : cut (47 :: join cs) = ⟨[], true⟩ :: cs := by
        rw [cut, if_pos rfl, hrest]
      rw [htext, cut_name_append hnames.1.1 hcons, List.append_nil, ← hslash]
    | false =>
      obtain ⟨hlast, hname⟩ := h.last hslash
      have htext : c.text ++ join cs = c.name := by simp [text_of_not_slash hslash, hlast]
      rw [htext, cut_name hnames.1.1 hname, hlast, ← hslash]

/-! ## Cancelling -/

/-- What a component does to the stack of those before it that are left, the last one first. -/
def step (stack : List Component) (c : Component) : Option (List Component) :=
  if c.isDotDot then
    match stack with
    | [] => none
    | _ :: below => some below
  else if c.isDot then some stack
  else some (c :: stack)

/-- The components that are left of a list, after those on the stack. -/
def reduce : List Component → List Component → Option (List Component)
  | stack, [] => some stack
  | stack, c :: cs => (step stack c).bind fun stack => reduce stack cs

/-- The components that survive, unless a `..` has nothing to cancel. -/
def survivors (cs : List Component) : Option (List Component) :=
  (reduce [] cs).map List.reverse

@[simp] theorem reduce_nil (stack : List Component) : reduce stack [] = some stack := rfl

theorem reduce_cons (stack : List Component) (c : Component) (cs : List Component) :
    reduce stack (c :: cs) = (step stack c).bind fun stack => reduce stack cs := rfl

theorem step_dotdot {c : Component} (hc : c.isDotDot = true) (d : Component)
    (stack : List Component) : step (d :: stack) c = some stack := by
  rw [step, if_pos hc]

theorem step_dot {c : Component} (hdotdot : c.isDotDot = false) (hdot : c.isDot = true)
    (stack : List Component) : step stack c = some stack := by
  simp [step, hdotdot, hdot]

theorem step_name {c : Component} (hdotdot : c.isDotDot = false) (hdot : c.isDot = false)
    (stack : List Component) : step stack c = some (c :: stack) := by
  simp [step, hdotdot, hdot]

theorem step_eq_none_iff {stack : List Component} {c : Component} :
    step stack c = none ↔ c.isDotDot = true ∧ stack = [] := by
  unfold step
  split
  case isTrue hdotdot => cases stack <;> simp [hdotdot]
  case isFalse hdotdot => split <;> simp [hdotdot]

/-- A component cancels the last one, is dropped, or stays. -/
theorem step_cases {stack kept : List Component} {c : Component} (h : step stack c = some kept) :
    (∃ d, stack = d :: kept) ∨ stack = kept ∨
      kept = c :: stack ∧ c.isDot = false ∧ c.isDotDot = false := by
  unfold step at h
  split at h
  case isTrue =>
    cases stack with
    | nil => cases h
    | cons d below => exact Or.inl ⟨d, by rw [Option.some.inj h]⟩
  case isFalse hdotdot =>
    split at h
    case isTrue => exact Or.inr (Or.inl (Option.some.inj h))
    case isFalse hdot =>
      exact Or.inr (Or.inr
        ⟨(Option.some.inj h).symm, Bool.eq_false_iff.mpr hdot, Bool.eq_false_iff.mpr hdotdot⟩)

theorem reduce_append (stack cs ds : List Component) :
    reduce stack (cs ++ ds) = (reduce stack cs).bind fun stack => reduce stack ds := by
  induction cs generalizing stack with
  | nil => rfl
  | cons c cs ih =>
    rw [List.cons_append, reduce_cons, reduce_cons, Option.bind_assoc]
    simp only [ih]

theorem step_sublist {stack kept : List Component} {c : Component} (h : step stack c = some kept) :
    kept.reverse.Sublist (stack.reverse ++ [c]) := by
  cases step_cases h with
  | inl hcancels =>
    obtain ⟨d, hd⟩ := hcancels
    rw [hd, List.reverse_cons, List.append_assoc]
    exact List.sublist_append_left _ _
  | inr hkeeps =>
    cases hkeeps with
    | inl hsame =>
      rw [hsame]
      exact List.sublist_append_left _ _
    | inr hpush =>
      rw [hpush.1, List.reverse_cons]

/-- What is left stands in the same order. -/
theorem reduce_sublist {stack cs kept : List Component} (h : reduce stack cs = some kept) :
    kept.reverse.Sublist (stack.reverse ++ cs) := by
  induction cs generalizing stack with
  | nil =>
    rw [reduce_nil, Option.some.injEq] at h
    rw [h, List.append_nil]
  | cons c cs ih =>
    rw [reduce_cons] at h
    obtain ⟨next, hnext, hrest⟩ := Option.bind_eq_some_iff.mp h
    apply (ih hrest).trans
    rw [← List.singleton_append, ← List.append_assoc]
    exact (step_sublist hnext).append_right cs

/-- No `.` and no `..` is left. -/
theorem reduce_names {stack cs kept : List Component}
    (hstack : ∀ c ∈ stack, c.isDot = false ∧ c.isDotDot = false)
    (h : reduce stack cs = some kept) : ∀ c ∈ kept, c.isDot = false ∧ c.isDotDot = false := by
  induction cs generalizing stack with
  | nil =>
    rw [reduce_nil, Option.some.injEq] at h
    rw [← h]
    exact hstack
  | cons c cs ih =>
    rw [reduce_cons] at h
    obtain ⟨next, hnext, hrest⟩ := Option.bind_eq_some_iff.mp h
    apply ih _ hrest
    cases step_cases hnext with
    | inl hcancels =>
      obtain ⟨d, hd⟩ := hcancels
      intro e he
      exact hstack e (by rw [hd]; exact List.mem_cons_of_mem d he)
    | inr hkeeps =>
      cases hkeeps with
      | inl hsame =>
        rw [← hsame]
        exact hstack
      | inr hpush =>
        rw [hpush.1, List.forall_mem_cons]
        exact ⟨hpush.2, hstack⟩

/-- Without `.` and `..` everything survives. -/
theorem reduce_of_names {stack cs : List Component}
    (hcs : ∀ c ∈ cs, c.isDot = false ∧ c.isDotDot = false) :
    reduce stack cs = some (cs.reverse ++ stack) := by
  induction cs generalizing stack with
  | nil => rfl
  | cons c cs ih =>
    rw [List.forall_mem_cons] at hcs
    rw [reduce_cons, step_name hcs.1.2 hcs.1.1, Option.bind_some, ih hcs.2, List.reverse_cons,
      List.append_assoc]
    rfl

/-- A `..` with nothing left to cancel is all that can go wrong. -/
theorem reduce_eq_none_iff (stack cs : List Component) : reduce stack cs = none ↔
    ∃ before c after, cs = before ++ c :: after ∧ c.isDotDot = true ∧
      reduce stack before = some [] := by
  constructor
  · intro h
    induction cs generalizing stack with
    | nil => cases h
    | cons c cs ih =>
      rw [reduce_cons] at h
      cases hnext : step stack c with
      | none =>
        obtain ⟨hdotdot, hnil⟩ := step_eq_none_iff.mp hnext
        exact ⟨[], c, cs, rfl, hdotdot, by rw [hnil]; rfl⟩
      | some next =>
        rw [hnext, Option.bind_some] at h
        obtain ⟨before, d, after, hsplit, hd, hbefore⟩ := ih next h
        exact ⟨c :: before, d, after, by rw [hsplit]; rfl, hd,
          by rw [reduce_cons, hnext, Option.bind_some, hbefore]⟩
  · intro h
    obtain ⟨before, c, after, hsplit, hc, hbefore⟩ := h
    rw [hsplit, reduce_append, hbefore, Option.bind_some, reduce_cons,
      step_eq_none_iff.mpr ⟨hc, rfl⟩]
    rfl

end Component

end InterviewQuestions.Library
