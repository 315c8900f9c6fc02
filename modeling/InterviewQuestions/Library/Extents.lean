import Mathlib.Data.List.DropRight
import Mathlib.Data.List.Perm.Basic
import Mathlib.Data.Nat.Notation
import Mathlib.Order.Nat

/-! Extents of memory, made of cells of one width: a start and a number of cells.
Cutting an extent in two and joining two that meet keep the extents of a list
apart and cover the same cells. -/
namespace InterviewQuestions.Library

abbrev Extent := ℕ × ℕ

namespace Extent

variable {w lo hi a u v x : ℕ} {E F : List Extent}

/-- The first address after an extent. -/
def stop (w : ℕ) (e : Extent) : ℕ := e.1 + w * e.2

def Apart (w : ℕ) (e f : Extent) : Prop := stop w e ≤ f.1 ∨ stop w f ≤ e.1

theorem Apart.symm {e f : Extent} (h : Apart w e f) : Apart w f e := Or.symm h

/-- Non-empty extents between two addresses, no two of which share a byte. -/
structure Packed (w lo hi : ℕ) (E : List Extent) : Prop where
  apart : E.Pairwise (Apart w)
  nonempty : ∀ e ∈ E, 0 < e.2
  within : ∀ e ∈ E, lo ≤ e.1 ∧ stop w e ≤ hi

/-- An address where a cell of the list starts. -/
def Covers (w : ℕ) (E : List Extent) (x : ℕ) : Prop := ∃ e ∈ E, ∃ i < e.2, x = e.1 + w * i

theorem Packed.perm (h : Packed w lo hi E) (hperm : E.Perm F) : Packed w lo hi F where
  apart := (hperm.pairwise_iff Apart.symm).mp h.apart
  nonempty e he := h.nonempty e (hperm.mem_iff.mpr he)
  within e he := h.within e (hperm.mem_iff.mpr he)

theorem Covers.mono (h : Covers w E x) (hsub : E ⊆ F) : Covers w F x := by
  obtain ⟨e, he, hcell⟩ := h
  exact ⟨e, hsub he, hcell⟩

theorem Covers.perm (h : Covers w E x) (hperm : E.Perm F) : Covers w F x := h.mono hperm.subset

theorem covers_append : Covers w (E ++ F) x ↔ Covers w E x ∨ Covers w F x := by
  constructor
  · rintro ⟨e, he, hcell⟩
    cases List.mem_append.mp he with
    | inl hE => exact Or.inl ⟨e, hE, hcell⟩
    | inr hF => exact Or.inr ⟨e, hF, hcell⟩
  · intro h
    cases h with
    | inl hE => exact hE.mono (List.subset_append_left E F)
    | inr hF => exact hF.mono (List.subset_append_right E F)

theorem Packed.nil : Packed w lo hi [] where
  apart := List.Pairwise.nil
  nonempty e he := by cases he
  within e he := by cases he

theorem stop_join : stop w (a, u + v) = stop w (a + w * u, v) := by
  simp only [stop, Nat.mul_add]
  omega

/-- A new extent above the others. -/
theorem Packed.add (h : Packed w lo hi E) {p hi' : ℕ} (hlo : lo ≤ p) (hp : hi ≤ p) (hu : 0 < u)
    (hhi : stop w (p, u) ≤ hi') : Packed w lo hi' ((p, u) :: E) where
  apart := List.pairwise_cons.mpr
    ⟨fun e he => Or.inr (Nat.le_trans (h.within e he).2 hp), h.apart⟩
  nonempty := List.forall_mem_cons.mpr ⟨hu, h.nonempty⟩
  within := by
    refine List.forall_mem_cons.mpr ⟨⟨hlo, hhi⟩, fun e he => ⟨(h.within e he).1, ?_⟩⟩
    have hstop := (h.within e he).2
    unfold stop at hhi
    simp only at hhi
    omega

/-- Two extents that meet become one. -/
theorem Packed.join (hw : 0 < w) (h : Packed w lo hi ((a, u) :: (a + w * u, v) :: E)) :
    Packed w lo hi ((a, u + v) :: E) := by
  obtain ⟨hfirst, hrest⟩ := List.pairwise_cons.mp h.apart
  obtain ⟨hsecond, hrest⟩ := List.pairwise_cons.mp hrest
  obtain ⟨hu, hne⟩ := List.forall_mem_cons.mp h.nonempty
  obtain ⟨⟨hlo, _⟩, hin⟩ := List.forall_mem_cons.mp h.within
  refine ⟨List.pairwise_cons.mpr ⟨fun e he => ?_, hrest⟩, List.forall_mem_cons.mpr ⟨?_, ?_⟩,
    List.forall_mem_cons.mpr ⟨⟨hlo, ?_⟩, ?_⟩⟩
  · have hleft := hfirst e (List.mem_cons_of_mem _ he)
    have hright := hsecond e he
    have hpos : 0 < w * e.2 := Nat.mul_pos hw (hne e (List.mem_cons_of_mem _ he))
    simp only [Apart, stop, Nat.mul_add] at hleft hright ⊢
    omega
  · simp only at hu ⊢
    omega
  · exact fun e he => hne e (List.mem_cons_of_mem _ he)
  · rw [stop_join]
    exact (hin _ List.mem_cons_self).2
  · exact fun e he => hin e (List.mem_cons_of_mem _ he)

/-- An extent becomes two that meet. -/
theorem Packed.cut (h : Packed w lo hi ((a, u + v) :: E)) (hu : 0 < u) (hv : 0 < v) :
    Packed w lo hi ((a, u) :: (a + w * u, v) :: E) := by
  obtain ⟨hfirst, hrest⟩ := List.pairwise_cons.mp h.apart
  obtain ⟨_, hne⟩ := List.forall_mem_cons.mp h.nonempty
  obtain ⟨⟨hlo, hhi⟩, hin⟩ := List.forall_mem_cons.mp h.within
  simp only [stop, Nat.mul_add] at hlo hhi
  refine ⟨List.pairwise_cons.mpr ⟨List.forall_mem_cons.mpr ⟨Or.inl (Nat.le_refl _), fun e he => ?_⟩,
    List.pairwise_cons.mpr ⟨fun e he => ?_, hrest⟩⟩, ?_, ?_⟩
  · have happart := hfirst e he
    simp only [Apart, stop, Nat.mul_add] at happart ⊢
    omega
  · have happart := hfirst e he
    simp only [Apart, stop, Nat.mul_add] at happart ⊢
    omega
  · exact List.forall_mem_cons.mpr ⟨hu, List.forall_mem_cons.mpr ⟨hv, hne⟩⟩
  · refine List.forall_mem_cons.mpr ⟨⟨hlo, ?_⟩, List.forall_mem_cons.mpr ⟨⟨?_, ?_⟩, hin⟩⟩
    · simp only [stop]
      omega
    · simp only
      omega
    · simp only [stop]
      omega

theorem covers_join (h : Covers w ((a, u) :: (a + w * u, v) :: E) x) :
    Covers w ((a, u + v) :: E) x := by
  obtain ⟨e, he, i, hi, rfl⟩ := h
  rcases List.mem_cons.mp he with rfl | he
  · exact ⟨_, List.mem_cons_self, i, Nat.lt_of_lt_of_le hi (Nat.le_add_right u v), rfl⟩
  · rcases List.mem_cons.mp he with rfl | he
    · refine ⟨_, List.mem_cons_self, u + i, Nat.add_lt_add_left hi u, ?_⟩
      simp only [Nat.mul_add]
      omega
    · exact ⟨e, List.mem_cons_of_mem _ he, i, hi, rfl⟩

theorem covers_cut (h : Covers w ((a, u + v) :: E) x) :
    Covers w ((a, u) :: (a + w * u, v) :: E) x := by
  obtain ⟨e, he, i, hi, rfl⟩ := h
  rcases List.mem_cons.mp he with rfl | he
  · by_cases hiu : i < u
    · exact ⟨_, List.mem_cons_self, i, hiu, rfl⟩
    · obtain ⟨j, rfl⟩ := Nat.exists_eq_add_of_le (Nat.le_of_not_lt hiu)
      refine ⟨_, List.mem_cons_of_mem _ List.mem_cons_self, j, Nat.lt_of_add_lt_add_left hi, ?_⟩
      simp only [Nat.mul_add]
      omega
  · exact ⟨e, List.mem_cons_of_mem _ (List.mem_cons_of_mem _ he), i, hi, rfl⟩

/-- Different extents start at different addresses. -/
theorem Packed.starts_nodup (hw : 0 < w) (h : Packed w lo hi E) : (E.map Prod.fst).Nodup := by
  rw [List.nodup_iff_pairwise_ne, List.pairwise_map]
  apply h.apart.imp_of_mem
  intro e f he hf hef heq
  have hepos : 0 < w * e.2 := Nat.mul_pos hw (h.nonempty e he)
  have hfpos : 0 < w * f.2 := Nat.mul_pos hw (h.nonempty f hf)
  simp only [Apart, stop] at hef
  omega

/-- No other extent starts inside an extent. -/
theorem Packed.inside_not_start (hw : 0 < w) (h : Packed w lo hi ((a, u) :: E)) (hax : a ≤ x)
    (hx : x < stop w (a, u)) : ∀ e ∈ E, e.1 ≠ x := by
  rintro e he rfl
  have hpos : 0 < w * e.2 := Nat.mul_pos hw (h.nonempty e (List.mem_cons_of_mem _ he))
  have happart := (List.pairwise_cons.mp h.apart).1 e he
  simp only [Apart, stop] at happart hx
  omega

/-! ## Joining again and again -/

/-- The second list comes from the first by joins, up to the order. -/
inductive Merged (w : ℕ) (E : List Extent) : List Extent → Prop where
  | refl : Merged w E E
  | perm {F G : List Extent} (h : Merged w E F) (hperm : F.Perm G) : Merged w E G
  | join {a u v : ℕ} {F : List Extent} (h : Merged w E ((a, u) :: (a + w * u, v) :: F)) :
      Merged w E ((a, u + v) :: F)

theorem Merged.trans {G : List Extent} (h : Merged w E F) (h' : Merged w F G) : Merged w E G := by
  induction h' with
  | refl => exact h
  | perm h' hperm ih => exact ih.perm hperm
  | join h' ih => exact ih.join

theorem Merged.packed (hw : 0 < w) {L : List Extent} (h : Merged w E F)
    (hpacked : Packed w lo hi (E ++ L)) : Packed w lo hi (F ++ L) := by
  induction h with
  | refl => exact hpacked
  | perm h hperm ih => exact ih.perm (hperm.append_right L)
  | join h ih => exact ih.join hw

theorem Merged.covers (h : Merged w E F) (hcovers : Covers w E x) : Covers w F x := by
  induction h with
  | refl => exact hcovers
  | perm h hperm ih => exact ih.perm hperm
  | join h ih => exact covers_join ih

/-- An extent is in one at least as large after the joins. -/
theorem Merged.exists_le (h : Merged w E F) {e : Extent} (he : e ∈ E) : ∃ f ∈ F, e.2 ≤ f.2 := by
  induction h with
  | refl => exact ⟨e, he, Nat.le_refl _⟩
  | perm h hperm ih =>
    obtain ⟨f, hf, hle⟩ := ih
    exact ⟨f, hperm.mem_iff.mp hf, hle⟩
  | @join a u v F h ih =>
    obtain ⟨f, hf, hle⟩ := ih
    rcases List.mem_cons.mp hf with rfl | hf
    · exact ⟨_, List.mem_cons_self, Nat.le_trans hle (Nat.le_add_right u v)⟩
    · rcases List.mem_cons.mp hf with rfl | hf
      · exact ⟨_, List.mem_cons_self, Nat.le_trans hle (Nat.le_add_left v u)⟩
      · exact ⟨f, List.mem_cons_of_mem _ hf, hle⟩

theorem Merged.length_le (h : Merged w E F) : F.length ≤ E.length := by
  induction h with
  | refl => exact Nat.le_refl _
  | perm h hperm ih => rwa [← hperm.length_eq]
  | join h ih => exact Nat.le_of_succ_le ih

end Extent

end InterviewQuestions.Library

/-! Extents in increasing order. Where one ends and the next one starts, coalescing makes
one extent of them, so that afterwards there is a gap after every extent. -/
namespace InterviewQuestions.Library.Extent

variable {w x : ℕ} {e f : Extent} {E F Z : List Extent}

/-- The two extents neither overlap nor meet. -/
def Spaced (w : ℕ) (e f : Extent) : Prop := stop w e < f.1 ∨ stop w f < e.1

/-- Each extent ends where the next one starts, or before. -/
def Increasing (w : ℕ) (E : List Extent) : Prop := E.Pairwise fun e f => stop w e ≤ f.1

def Gaps (w : ℕ) (E : List Extent) : Prop := E.Pairwise fun e f => stop w e < f.1

theorem le_stop (e : Extent) : e.1 ≤ stop w e := Nat.le_add_right _ _

theorem Gaps.increasing (h : Gaps w E) : Increasing w E := h.imp fun hlt => Nat.le_of_lt hlt

/-- `e` takes over the first of the extents after it if it ends there. -/
def join (w : ℕ) (e : Extent) : List Extent → List Extent
  | [] => [e]
  | f :: E => if stop w e = f.1 then (e.1, e.2 + f.2) :: E else e :: f :: E

def coalesce (w : ℕ) (E : List Extent) : List Extent := E.foldr (join w) []

theorem stop_joined (h : stop w e = f.1) : stop w (e.1, e.2 + f.2) = stop w f := by
  unfold stop at h ⊢
  rw [Nat.mul_add, ← Nat.add_assoc, h]

/-! ## Joining -/

theorem join_of_meet (h : stop w e = f.1) : join w e (f :: E) = (e.1, e.2 + f.2) :: E := if_pos h

theorem join_of_apart (h : stop w e ≠ f.1) : join w e (f :: E) = e :: f :: E := if_neg h

theorem covers_join_iff : Covers w (join w e E) x ↔ Covers w (e :: E) x := by
  cases E with
  | nil => rfl
  | cons f E =>
    by_cases hmeet : stop w e = f.1
    · rw [join_of_meet hmeet]
      have hpair : e :: f :: E = (e.1, e.2) :: (e.1 + w * e.2, f.2) :: E := by
        rw [show e.1 + w * e.2 = f.1 from hmeet]
      rw [hpair]
      exact ⟨covers_cut, covers_join⟩
    · rw [join_of_apart hmeet]

/-- What holds of single extents is kept where it passes to an extent made of two. -/
theorem forall_join {p : Extent → Prop} (he : p e) (hE : ∀ f ∈ E, p f)
    (hjoin : ∀ f ∈ E, stop w e = f.1 → p (e.1, e.2 + f.2)) : ∀ f ∈ join w e E, p f := by
  cases E with
  | nil => exact List.forall_mem_singleton.mpr he
  | cons f E =>
    by_cases hmeet : stop w e = f.1
    · rw [join_of_meet hmeet]
      intro g hg
      rcases List.mem_cons.mp hg with rfl | hg
      · exact hjoin f List.mem_cons_self hmeet
      · exact hE g (List.mem_cons_of_mem f hg)
    · rw [join_of_apart hmeet]
      exact List.forall_mem_cons.mpr ⟨he, hE⟩

theorem Gaps.join (h : Gaps w E) (hle : ∀ f ∈ E, stop w e ≤ f.1) : Gaps w (join w e E) := by
  cases E with
  | nil => exact List.pairwise_singleton _ e
  | cons f E =>
    have hf := List.pairwise_cons.mp h
    by_cases hmeet : stop w e = f.1
    · rw [join_of_meet hmeet]
      apply List.pairwise_cons.mpr
      apply And.intro _ hf.2
      intro g hg
      rw [stop_joined hmeet]
      exact hf.1 g hg
    · rw [join_of_apart hmeet]
      have hlt : stop w e < f.1 := Nat.lt_of_le_of_ne (hle f List.mem_cons_self) hmeet
      apply List.pairwise_cons.mpr
      apply And.intro _ h
      intro g hg
      rcases List.mem_cons.mp hg with rfl | hg
      · exact hlt
      · exact hlt.trans ((le_stop f).trans_lt (hf.1 g hg))

theorem join_of_lt (h : ∀ f ∈ E, stop w e < f.1) : join w e E = e :: E := by
  cases E with
  | nil => rfl
  | cons f E => exact if_neg (Nat.ne_of_lt (h f List.mem_cons_self))

/-! ## Coalescing -/

@[simp] theorem coalesce_cons : coalesce w (e :: E) = join w e (coalesce w E) := rfl

theorem covers_coalesce : Covers w (coalesce w E) x ↔ Covers w E x := by
  induction E with
  | nil => rfl
  | cons e E ih =>
    rw [coalesce_cons, covers_join_iff, ← List.singleton_append, covers_append, ih,
      ← covers_append, List.singleton_append]

theorem forall_coalesce {p : Extent → Prop} (h : ∀ e ∈ E, p e)
    (hjoin : ∀ e f, p e → p f → stop w e = f.1 → p (e.1, e.2 + f.2)) :
    ∀ e ∈ coalesce w E, p e := by
  induction E with
  | nil => exact fun e he => absurd he List.not_mem_nil
  | cons e E ih =>
    have he := List.forall_mem_cons.mp h
    have hrest := ih he.2
    exact forall_join he.1 hrest fun f hf hmeet => hjoin e f he.1 (hrest f hf) hmeet

/-- Only extents that meet are joined, which leaves gaps. -/
theorem Increasing.coalesce (h : Increasing w E) : Gaps w (coalesce w E) := by
  induction E with
  | nil => exact List.Pairwise.nil
  | cons e E ih =>
    have he := List.pairwise_cons.mp h
    apply (ih he.2).join
    exact forall_coalesce he.1 fun _ _ hstart _ _ => hstart

/-- Extents with gaps before the others are not joined. -/
theorem foldr_join_of_gaps (h : Gaps w F) (hlt : ∀ e ∈ F, ∀ f ∈ Z, stop w e < f.1) :
    F.foldr (join w) Z = F ++ Z := by
  induction F with
  | nil => rfl
  | cons e F ih =>
    have he := List.pairwise_cons.mp h
    have hrest := List.forall_mem_cons.mp hlt
    rw [List.foldr_cons, ih he.2 hrest.2, List.cons_append]
    apply join_of_lt
    intro f hf
    rcases List.mem_append.mp hf with hf | hf
    · exact he.1 f hf
    · exact hrest.1 f hf

theorem Gaps.coalesce_eq (h : Gaps w E) : coalesce w E = E := by
  have hfold := foldr_join_of_gaps (Z := []) h fun _ _ f hf => absurd hf List.not_mem_nil
  rwa [List.append_nil] at hfold

/-- An extent put between others with gaps is joined with its two neighbours at most. -/
theorem coalesce_between {c : Extent} (hleft : Gaps w (F ++ [c])) (hright : Gaps w E)
    (hc : ∀ f ∈ e :: E, stop w c ≤ f.1) :
    coalesce w (F ++ [c] ++ e :: E) = F ++ join w c (join w e E) := by
  have hsplit := List.pairwise_append.mp hleft
  have hstart : ∀ f ∈ join w c (join w e E), c.1 ≤ f.1 := by
    have hle : ∀ f ∈ e :: E, c.1 ≤ f.1 := fun f hf => (le_stop c).trans (hc f hf)
    have he := List.forall_mem_cons.mp hle
    apply forall_join (p := fun f => c.1 ≤ f.1) le_rfl _ fun _ _ _ => le_rfl
    exact forall_join (p := fun f => c.1 ≤ f.1) he.1 he.2 fun _ _ _ => he.1
  unfold coalesce
  rw [List.foldr_append, List.foldr_append, List.foldr_cons, List.foldr_cons, List.foldr_nil]
  rw [show E.foldr (join w) [] = E from hright.coalesce_eq]
  apply foldr_join_of_gaps hsplit.1
  intro g hg f hf
  exact (hsplit.2.2 g hg c List.mem_cons_self).trans_le (hstart f hf)

theorem Spaced.joined {c : Extent} (he : Spaced w e c) (hf : Spaced w f c)
    (hmeet : stop w e = f.1) : Spaced w (e.1, e.2 + f.2) c := by
  have hc := le_stop (w := w) c
  unfold Spaced at he hf ⊢
  rw [stop_joined hmeet]
  simp only
  omega

end InterviewQuestions.Library.Extent

/-! A file that is written at a position which may lie beyond its end. -/
namespace InterviewQuestions.Library

/-- What reading the file back gives, with zeros where nothing was written, and the position. -/
structure SparseFile where
  content : List UInt8
  position : ℕ
deriving DecidableEq

namespace SparseFile

/-- A file that has been truncated. -/
def empty : SparseFile := ⟨[], 0⟩

def seek (file : SparseFile) (offset : ℕ) : SparseFile :=
  { file with position := file.position + offset }

/-- Writing no bytes does not extend the file. -/
def write (file : SparseFile) (bytes : List UInt8) : SparseFile :=
  if bytes = [] then file
  else
    let hole := List.replicate (file.position - file.content.length) 0
    { content := (file.content ++ hole).take file.position ++ bytes ++
        file.content.drop (file.position + bytes.length)
      position := file.position + bytes.length }

/-- The position is the end of this text, and the file holds the text without the zeros at its
end. -/
def Mirrors (file : SparseFile) (text : List UInt8) : Prop :=
  file.position = text.length ∧ file.content = text.rdropWhile (· = 0)

theorem mirrors_empty : empty.Mirrors [] := ⟨rfl, rfl⟩

variable {file : SparseFile} {text : List UInt8}

theorem rdropWhile_append_replicate (text : List UInt8) (count : ℕ) :
    (text ++ List.replicate count 0).rdropWhile (· = 0) = text.rdropWhile (· = 0) := by
  induction count with
  | zero => rw [List.replicate_zero, List.append_nil]
  | succ count ih =>
    rw [List.replicate_succ', ← List.append_assoc, List.rdropWhile_concat_pos _ _ _ (by simp), ih]

/-- Passing over zeros. -/
theorem Mirrors.seek (h : file.Mirrors text) (offset : ℕ) :
    (file.seek offset).Mirrors (text ++ List.replicate offset 0) := by
  constructor
  · rw [SparseFile.seek, List.length_append, List.length_replicate, h.1]
  · rw [rdropWhile_append_replicate]
    exact h.2

/-- The zeros between the end of the file and the position. -/
theorem Mirrors.fill (h : file.Mirrors text) :
    file.content ++ List.replicate (file.position - file.content.length) 0 = text := by
  have hsplit : text.rdropWhile (· = 0) ++ text.rtakeWhile (· = 0) = text :=
    List.rdropWhile_append_rtakeWhile ..
  have hzeros : text.rtakeWhile (· = 0) =
      List.replicate (text.rtakeWhile (· = 0)).length 0 := by
    rw [List.eq_replicate_iff]
    constructor
    · rfl
    · intro b hb
      simpa using List.mem_rtakeWhile_imp hb
  have hlength := congrArg List.length hsplit
  rw [List.length_append] at hlength
  have hcount : file.position - file.content.length = (text.rtakeWhile (· = 0)).length := by
    rw [h.1, h.2]
    omega
  rw [hcount, h.2, ← hzeros, hsplit]

/-- Writing bytes that do not end in zero. -/
theorem Mirrors.write (h : file.Mirrors text) {bytes : List UInt8}
    (hbytes : ∀ hne : bytes ≠ [], bytes.getLast hne ≠ 0) :
    (file.write bytes).Mirrors (text ++ bytes) := by
  unfold SparseFile.write
  by_cases hnil : bytes = []
  · rw [if_pos hnil, hnil, List.append_nil]
    exact h
  · rw [if_neg hnil]
    have hshort : file.content.length ≤ file.position := by
      rw [h.1, h.2]
      exact (List.rdropWhile_prefix _ text).length_le
    constructor
    · rw [List.length_append, h.1]
    · have hself : (text ++ bytes).rdropWhile (· = 0) = text ++ bytes := by
        rw [List.rdropWhile_eq_self_iff]
        intro hne
        rw [List.getLast_append_of_ne_nil hne hnil]
        simpa using hbytes hnil
      simp only
      rw [hself, h.fill, h.1, List.take_length, ← h.1,
        List.drop_eq_nil_of_le (Nat.le_add_right_of_le hshort), List.append_nil]

end SparseFile

end InterviewQuestions.Library
