import Mathlib.Data.List.Chain
import Mathlib.Data.List.Nodup
import Mathlib.Data.List.Pairwise
import Mathlib.Logic.Relation
import Mathlib.Order.RelClasses

/-! Linear orders that extend a relation. When an arrangement of all elements extends it, there is
no other one exactly if the relation holds between any two neighbours. -/
namespace InterviewQuestions.Library.LinearExtension

variable {α : Type*} {E r r' : α → α → Prop} {l : List α} {a b : α}

/-- `r` is a linear order in which `a` is below `b` wherever `E a b`. -/
structure Extension (E : α → α → Prop) (r : α → α → Prop) : Prop where
  order : IsStrictTotalOrder α r
  below : ∀ a b, E a b → r a b

theorem Extension.asymm (h : Extension E r) (hab : r a b) : ¬ r b a := by
  have hirrefl := h.order.toIsStrictOrder.toIrrefl
  have htrans := h.order.toIsStrictOrder.toIsTrans
  exact fun hba => hirrefl.irrefl a (htrans.trans a b a hab hba)

theorem Extension.pairwise (h : Extension E r) (hchain : l.IsChain E) : l.Pairwise r := by
  have htrans := h.order.toIsStrictOrder.toIsTrans
  exact (hchain.imp h.below).pairwise

/-- The order is determined by an arrangement of all elements. -/
theorem Extension.eq_of_pairwise (h : Extension E r) (h' : Extension E r') (hall : ∀ a, a ∈ l)
    (hr : l.Pairwise r) (hr' : l.Pairwise r') : r = r' := by
  have hsymm : Std.Symm fun a b => r a b ∧ r' a b ∨ r b a ∧ r' b a := ⟨fun _ _ => Or.symm⟩
  have hboth : l.Pairwise fun a b => r a b ∧ r' a b ∨ r b a ∧ r' b a := (hr.and hr').imp Or.inl
  funext a b
  by_cases heq : a = b
  · rw [heq]
    exact propext (iff_of_false (fun hb => h.asymm hb hb) fun hb => h'.asymm hb hb)
  · rcases hboth.forall (hall a) (hall b) heq with ⟨hab, hab'⟩ | ⟨hba, hba'⟩
    · exact propext (iff_of_true hab hab')
    · exact propext (iff_of_false (h.asymm hba) (h'.asymm hba'))

/-- Nothing is below what comes before it. -/
structure Arrangement (E : α → α → Prop) (l : List α) : Prop where
  all : ∀ a, a ∈ l
  nodup : l.Nodup
  irrefl : ∀ a, ¬ E a a
  sorted : l.Pairwise fun a b => ¬ E b a

section Before

variable [DecidableEq α]

def Before (l : List α) (a b : α) : Prop := l.idxOf a < l.idxOf b

theorem pairwise_before (hl : l.Nodup) : l.Pairwise (Before l) := by
  rw [List.pairwise_iff_getElem]
  intro i j hi hj hij
  unfold Before
  rwa [hl.idxOf_getElem i hi, hl.idxOf_getElem j hj]

theorem Arrangement.extension (h : Arrangement E l) : Extension E (Before l) where
  order :=
    { trichotomous := by
        intro a b hab hba
        have heq : l.idxOf a = l.idxOf b := Nat.le_antisymm (Nat.not_lt.mp hba) (Nat.not_lt.mp hab)
        exact (List.idxOf_inj (h.all a)).mp heq
      irrefl := fun a => Nat.lt_irrefl _
      trans := fun a b c => Nat.lt_trans }
  below := by
    intro a b hE
    have hne : a ≠ b := by
      rintro rfl
      exact h.irrefl a hE
    have hsymm : Std.Symm fun a b => Before l a b ∧ ¬ E b a ∨ Before l b a ∧ ¬ E a b :=
      ⟨fun _ _ => Or.symm⟩
    have hboth : l.Pairwise fun a b => Before l a b ∧ ¬ E b a ∨ Before l b a ∧ ¬ E a b :=
      ((pairwise_before h.nodup).and h.sorted).imp Or.inl
    rcases hboth.forall (h.all a) (h.all b) hne with ⟨hab, -⟩ | ⟨-, hnot⟩
    · exact hab
    · exact absurd hE hnot

end Before

/-- Two neighbours between which the relation does not hold may change places. -/
theorem Arrangement.swap {front back : List α} (h : Arrangement E (front ++ a :: b :: back))
    (hab : ¬ E a b) : Arrangement E (front ++ b :: a :: back) where
  all c := (((List.Perm.swap a b back).append_left front).mem_iff).mpr (h.all c)
  nodup := (((List.Perm.swap a b back).append_left front).nodup_iff).mpr h.nodup
  irrefl := h.irrefl
  sorted := by
    obtain ⟨hfront, hrest, hacross⟩ := List.pairwise_append.mp h.sorted
    obtain ⟨ha, hb, hback⟩ : (∀ c ∈ b :: back, ¬ E c a) ∧ (∀ c ∈ back, ¬ E c b) ∧
        back.Pairwise fun a b => ¬ E b a := by
      simpa only [List.pairwise_cons] using hrest
    refine List.pairwise_append.mpr ⟨hfront, ?_, fun c hc d hd => hacross c hc d ?_⟩
    · refine List.pairwise_cons.mpr ⟨fun c hc => ?_, List.pairwise_cons.mpr ⟨fun c hc => ?_, hback⟩⟩
      · rcases List.mem_cons.mp hc with rfl | hc
        · exact hab
        · exact hb c hc
      · exact ha c (List.mem_cons_of_mem b hc)
    · exact (List.Perm.swap a b back).mem_iff.mp hd

/-- An arrangement is the only one exactly if any two neighbours are related. -/
theorem Arrangement.existsUnique_iff (h : Arrangement E l) :
    (∃! r, Extension E r) ↔ l.IsChain E := by
  classical
  constructor
  · rintro ⟨r, -, honly⟩
    rw [List.isChain_iff_forall_rel_of_append_cons_cons]
    intro a b front back heq
    by_contra hab
    rw [heq] at h
    have hswap := h.swap hab
    have hsame : Before (front ++ a :: b :: back) = Before (front ++ b :: a :: back) :=
      (honly _ h.extension).trans (honly _ hswap.extension).symm
    have hbefore (c d : α) (hd : (front ++ c :: d :: back).Nodup) :
        Before (front ++ c :: d :: back) c d := by
      have hrest := (List.pairwise_append.mp (pairwise_before hd)).2.1
      exact (List.pairwise_cons.mp hrest).1 d List.mem_cons_self
    have hba := hbefore b a hswap.nodup
    rw [← hsame] at hba
    exact h.extension.asymm (hbefore a b h.nodup) hba
  · intro hchain
    exact ⟨Before l, h.extension, fun r hr => hr.eq_of_pairwise h.extension h.all
      (hr.pairwise hchain) (pairwise_before h.nodup)⟩

/-- With a cycle there is no such order. -/
theorem not_extension_of_cycle (hcycle : Relation.TransGen E a a) : ¬ Extension E r := by
  intro h
  have htrans := h.order.toIsStrictOrder.toIsTrans
  have hself : r a a := by
    have hlift : Relation.TransGen r a a := Relation.TransGen.mono h.below a a hcycle
    rwa [Relation.transGen_eq_self] at hlift
  exact h.asymm hself hself

end InterviewQuestions.Library.LinearExtension
