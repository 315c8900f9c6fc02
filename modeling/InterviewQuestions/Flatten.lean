import InterviewQuestions.Library.CountingLoop
import InterviewQuestions.Library.MixedRadix
import InterviewQuestions.Library.Scanf
import InterviewQuestions.Library.Subscript

/-! `flatten_index` of `arrays_strings/flatten/solution.c` and `unflatten_index` of
`arrays_strings/unflatten/solution.c`, with the text that they leave in `out`. There is no result
when `assert` fails and where an index is out of range. -/
namespace InterviewQuestions.Flatten

open Library Subscript MixedRadix
open Scanf (isdigit printNat)

/-- The loop of both that fills `cum_prod`, from its end. -/
def cumProd (dimsVals : List UInt64) : List UInt64 :=
  dimsVals.foldr (fun val cumProd => cumProd.headD 1 * val :: cumProd) [1]

/-- `%s*%llu` -/
def printSummand (idxName : List UInt8) (cumProd : UInt64) : List UInt8 :=
  idxName ++ 42 :: printNat cumProd.toNat

def flattenIndex (arrayName : List UInt8) (idxNames : List (List UInt8)) (dimsVals : List UInt64) :
    Option (List UInt8) :=
  if dimsVals.length > 0 then do
    let cumProd := cumProd dimsVals
    let idxName ← idxNames[0]?
    let prod ← cumProd[1]?
    let out := arrayName ++ 91 :: printSummand idxName prod
    let out ← (List.range' 1 (dimsVals.length - 1)).foldlM (fun out i => do
      let idxName ← idxNames[i]?
      let prod ← cumProd[i + 1]?
      return out ++ 43 :: printSummand idxName prod) out
    return out ++ [93]
  else none

/-- `[(%s%%%llu)/%llu]` -/
def printIndex (indexId : List UInt8) (cumProd nextProd : UInt64) : List UInt8 :=
  91 :: 40 :: indexId ++ 37 :: printNat cumProd.toNat ++ 41 :: 47 :: printNat nextProd.toNat ++ [93]

def unflattenIndex (indexId arrayName : List UInt8) (dimsVals : List UInt64) :
    Option (List UInt8) :=
  if dimsVals.length > 0 then do
    let cumProd := cumProd dimsVals
    (List.range' 0 dimsVals.length).foldlM (fun out i => do
      let prod ← cumProd[i]?
      let next ← cumProd[i + 1]?
      return out ++ printIndex indexId prod next) arrayName
  else none

/-! The printed expressions convert between an offset and the digits of it whose radices are the
sizes of the dimensions. -/

def sizes (dimsVals : List UInt64) : List ℕ := dimsVals.map UInt64.toNat

/-- The sizes are positive and their product has 64 bits. -/
structure Fits (dimsVals : List UInt64) : Prop where
  pos : ∀ r ∈ sizes dimsVals, 0 < r
  prod : (sizes dimsVals).prod < 2 ^ 64

variable {dimsVals : List UInt64} {val : UInt64} {env : List UInt8 → ℕ} {radices ds : List ℕ}
  {names : List (List UInt8)} {arrayName indexId rest : List UInt8} {fuel i n x : ℕ} {op : UInt8}

theorem Fits.tail (h : Fits (val :: dimsVals)) : Fits dimsVals := by
  have hpos : ∀ r ∈ sizes dimsVals, 0 < r := fun r hr => h.pos r (List.mem_cons_of_mem _ hr)
  refine ⟨hpos, lt_of_le_of_lt ?_ h.prod⟩
  exact Nat.le_mul_of_pos_left _ (h.pos _ List.mem_cons_self)

theorem Fits.drop (h : Fits dimsVals) (i : ℕ) : Fits (dimsVals.drop i) := by
  induction i generalizing dimsVals with
  | zero => exact h
  | succ i ih =>
    cases dimsVals with
    | nil => exact h
    | cons val dimsVals => exact ih h.tail

/-! ## The products -/

theorem cumProd_head (h : Fits dimsVals) :
    ∃ c, (cumProd dimsVals)[0]? = some c ∧ c.toNat = (sizes dimsVals).prod := by
  induction dimsVals with
  | nil => exact ⟨1, rfl, rfl⟩
  | cons val dimsVals ih =>
    obtain ⟨c, hc, hprod⟩ := ih h.tail
    have hhead : (cumProd dimsVals).headD 1 = c := by
      rw [List.headD_eq_head?_getD, List.head?_eq_getElem?, hc]
      rfl
    refine ⟨_, rfl, ?_⟩
    have hfits := h.prod
    change ((cumProd dimsVals).headD 1 * val).toNat = val.toNat * (sizes dimsVals).prod
    change val.toNat * (sizes dimsVals).prod < 2 ^ 64 at hfits
    rw [hhead, UInt64.toNat_mul, hprod, Nat.mul_comm, Nat.mod_eq_of_lt hfits]

theorem cumProd_getElem? (h : Fits dimsVals) (hi : i ≤ dimsVals.length) :
    ∃ c, (cumProd dimsVals)[i]? = some c ∧ c.toNat = (sizes (dimsVals.drop i)).prod := by
  induction dimsVals generalizing i with
  | nil =>
    rw [Nat.le_zero.mp hi]
    exact cumProd_head h
  | cons val dimsVals ih =>
    cases i with
    | zero => exact cumProd_head h
    | succ i => exact ih h.tail (Nat.le_of_succ_le_succ hi)

/-! ## The texts -/

/-- The summands after the first one. -/
def sumText : List (List UInt8) → List ℕ → List UInt8
  | name :: names, _ :: radices =>
      43 :: (name ++ 42 :: (printNat radices.prod ++ sumText names radices))
  | _, _ => []

def indexText (indexId : List UInt8) : List ℕ → List UInt8
  | [] => []
  | r :: radices =>
      91 :: 40 :: (indexId ++ 37 :: (printNat (r * radices.prod) ++
        41 :: 47 :: (printNat radices.prod ++ 93 :: indexText indexId radices)))

theorem exists_drop {α : Type} {l : List α} (hi : i < l.length) :
    ∃ a, l[i]? = some a ∧ l.drop i = a :: l.drop (i + 1) :=
  ⟨l[i], List.getElem?_eq_getElem hi, List.drop_eq_getElem_cons hi⟩

theorem sizes_cons (val : UInt64) (dimsVals : List UInt64) :
    sizes (val :: dimsVals) = val.toNat :: sizes dimsVals := rfl

theorem flattenIndex_eq (h : Fits dimsVals) (hne : dimsVals ≠ [])
    (hnames : names.length = dimsVals.length) (arrayName : List UInt8) :
    flattenIndex arrayName names dimsVals =
      some (arrayName ++ 91 :: (sumText names (sizes dimsVals)).tail ++ [93]) := by
  have hpos := List.length_pos_of_ne_nil hne
  obtain ⟨name, hname, hrest⟩ := exists_drop (l := names) (i := 0) (by omega)
  obtain ⟨val, -, hvals⟩ := exists_drop hpos
  obtain ⟨c, hc, hprod⟩ := cumProd_getElem? (i := 1) h hpos
  unfold flattenIndex
  rw [if_pos hpos, hname]
  simp only [Option.bind_eq_bind, Option.bind_some, hc]
  apply eq_some_of_spec
  refine bind_spec (fun out => out = arrayName ++ 91 :: (sumText names (sizes dimsVals)).tail)
    (foldlM_range'_spec (fun i out => out ++ sumText (names.drop i) (sizes (dimsVals.drop i)) =
      arrayName ++ 91 :: (sumText names (sizes dimsVals)).tail) ?_ ?_ ?_) ?_
  · intro i out hi hlt hout
    obtain ⟨name, hname, hrest⟩ := exists_drop (l := names) (i := i) (by omega)
    obtain ⟨val, -, hvals⟩ := exists_drop (l := dimsVals) (i := i) (by omega)
    obtain ⟨c, hc, hprod⟩ := cumProd_getElem? h (show i + 1 ≤ dimsVals.length by omega)
    rw [hname, hc]
    refine ⟨_, rfl, ?_⟩
    rw [← hout, hrest, hvals, sizes_cons, sumText, ← hprod]
    simp only [printSummand, List.append_assoc, List.cons_append]
  · have hfirst : sumText names (sizes dimsVals) = 43 :: (name ++ 42 :: (printNat c.toNat ++
        sumText (names.drop 1) (sizes (dimsVals.drop 1)))) := by
      rw [hprod]
      rw [List.drop_zero] at hrest hvals
      rw [hrest, hvals]
      rfl
    rw [hfirst]
    simp only [printSummand, List.append_assoc, List.cons_append, List.tail_cons]
  · intro out hout
    rw [← hout, List.drop_of_length_le (by omega), List.drop_of_length_le (by omega)]
    exact (List.append_nil out).symm
  · rintro out rfl
    exact ⟨_, rfl, rfl⟩

theorem unflattenIndex_eq (h : Fits dimsVals) (hne : dimsVals ≠ [])
    (indexId arrayName : List UInt8) :
    unflattenIndex indexId arrayName dimsVals =
      some (arrayName ++ indexText indexId (sizes dimsVals)) := by
  unfold unflattenIndex
  rw [if_pos (List.length_pos_of_ne_nil hne)]
  apply eq_some_of_spec
  refine foldlM_range'_spec (fun i out => out ++ indexText indexId (sizes (dimsVals.drop i)) =
    arrayName ++ indexText indexId (sizes dimsVals)) ?_ rfl ?_
  · intro i out hi hlt hout
    obtain ⟨val, -, hvals⟩ := exists_drop (l := dimsVals) (i := i) (by omega)
    obtain ⟨c, hc, hprod⟩ := cumProd_getElem? h (show i ≤ dimsVals.length by omega)
    obtain ⟨c', hc', hprod'⟩ := cumProd_getElem? h (show i + 1 ≤ dimsVals.length by omega)
    rw [hvals, sizes_cons, List.prod_cons, ← hprod'] at hprod
    rw [hc, hc']
    refine ⟨_, rfl, ?_⟩
    rw [← hout, hvals, sizes_cons, indexText, ← hprod', ← hprod]
    simp only [printIndex, List.append_assoc, List.cons_append, List.nil_append]
  · intro out hout
    rw [← hout, List.drop_of_length_le (by omega)]
    exact (List.append_nil out).symm

/-! ## Their values -/

theorem not_isident_cons (b : UInt8) (hb : isident b = false) (rest : List UInt8) :
    ∀ c ∈ (b :: rest).head?, isident c = false := by
  intro c hc
  cases hc
  exact hb

theorem not_isdigit_cons (b : UInt8) (hb : isdigit b = false) (rest : List UInt8) :
    ∀ c ∈ (b :: rest).head?, isdigit c = false := by
  intro c hc
  cases hc
  exact hb

theorem term_summand (fuel : ℕ) {name : List UInt8} (hname : IsName name) (hn : n < 2 ^ 64)
    (hprod : env name * n < 2 ^ 64) (hdigit : ∀ b ∈ rest.head?, isdigit b = false)
    (hop : rest.head?.bind mulOp = none) :
    term env (fuel + 3) (name ++ 42 :: (printNat n ++ rest)) = some (env name * n, rest) :=
  term_op (factor_name hname (not_isident_cons 42 rfl _)) rfl (factor_number hn hdigit)
    (word_of_lt hprod) hop

theorem sumText_head (names : List (List UInt8)) (radices : List ℕ) :
    (∀ b ∈ (sumText names radices ++ [93]).head?, isdigit b = false) ∧
      (sumText names radices ++ [93]).head?.bind mulOp = none := by
  cases names with
  | nil => exact ⟨not_isdigit_cons 93 rfl [], rfl⟩
  | cons name names =>
    cases radices with
    | nil => exact ⟨not_isdigit_cons 93 rfl [], rfl⟩
    | cons r radices => exact ⟨not_isdigit_cons 43 rfl _, rfl⟩

/-- The sum with `x` before it. -/
theorem exprR_sumText (hnames : ∀ name ∈ names, IsName name)
    (henv : List.Forall₂ (fun name d => env name = d) names ds)
    (hds : List.Forall₂ (· < ·) ds radices) (hsum : x + value radices ds < 2 ^ 64)
    (hprod : radices.prod < 2 ^ 64) (fuel : ℕ) :
    exprR env (names.length + (fuel + 3)) x (sumText names radices ++ [93]) =
      some (x + value radices ds, [93]) := by
  induction hds generalizing names x with
  | nil =>
    cases henv
    change exprR env _ x [93] = _
    exact exprR_stop (by simp)
  | @cons d r ds radices hd hrest ih =>
    cases henv with
    | @cons name _ names _ hname henv =>
      have hle : radices.prod ≤ r * radices.prod := Nat.le_mul_of_pos_left _ (by omega)
      rw [List.prod_cons] at hprod
      rw [value, ← Nat.add_assoc] at hsum
      have hterm : term env (names.length + (fuel + 3))
          (name ++ 42 :: (printNat radices.prod ++ (sumText names radices ++ [93]))) =
            some (env name * radices.prod, sumText names radices ++ [93]) :=
        term_summand (names.length + fuel) (hnames name List.mem_cons_self) (by omega)
          (by rw [hname]; omega) (sumText_head names radices).1 (sumText_head names radices).2
      have hloop := ih (fun name hn => hnames name (List.mem_cons_of_mem _ hn)) henv hsum (by omega)
      have hfuel : (name :: names).length + (fuel + 3) = names.length + (fuel + 3) + 1 := by
        rw [List.length_cons]
        omega
      rw [hname] at hterm
      rw [hfuel, sumText]
      simp only [List.cons_append, List.append_assoc]
      rw [exprR_add hterm (by omega), hloop, value, Nat.add_assoc]

theorem expr_index (env : List UInt8 → ℕ) (hindex : IsName indexId) {p q : ℕ} (hp : p < 2 ^ 64)
    (hq : q < 2 ^ 64) (hpos : 0 < p) (hpos' : 0 < q) (rest : List UInt8) (fuel : ℕ) :
    expr env (fuel + 8) (40 :: (indexId ++ 37 :: (printNat p ++ 41 :: 47 :: (printNat q ++
      93 :: rest)))) = some (env indexId % p / q, 93 :: rest) := by
  have hmod : expr env (fuel + 5) (indexId ++ 37 :: (printNat p ++ 41 :: 47 :: (printNat q ++
      93 :: rest))) = some (env indexId % p, 41 :: 47 :: (printNat q ++ 93 :: rest)) := by
    rw [expr_term (term_op (factor_name hindex (not_isident_cons 37 rfl _)) rfl
      (factor_number hp (not_isdigit_cons 41 rfl _)) (if_neg hpos.ne') rfl)]
    exact exprR_stop (by simp)
  rw [expr_term (term_op (factor_paren hmod) rfl (factor_number hq (not_isdigit_cons 93 rfl _))
    (if_neg hpos'.ne') rfl)]
  exact exprR_stop (by simp)

theorem brackets_indexText (hindex : IsName indexId) (hpos : ∀ r ∈ radices, 0 < r)
    (hprod : radices.prod < 2 ^ 64) (fuel : ℕ) :
    brackets env (radices.length + (fuel + 9)) (indexText indexId radices) =
      some (digits radices (env indexId % radices.prod)) := by
  induction radices with
  | nil => rfl
  | cons r radices ih =>
    have hrest : ∀ r ∈ radices, 0 < r := fun r hr => hpos r (List.mem_cons_of_mem _ hr)
    have hr := hpos r List.mem_cons_self
    have hle : radices.prod ≤ r * radices.prod := Nat.le_mul_of_pos_left _ hr
    have hprod' := prod_pos hrest
    rw [List.prod_cons] at hprod
    have hfuel : (r :: radices).length + (fuel + 9) = radices.length + (fuel + 1) + 8 + 1 := by
      rw [List.length_cons]
      omega
    have hfirst := expr_index env hindex hprod (show radices.prod < 2 ^ 64 by omega)
      (by omega) hprod' (indexText indexId radices) (radices.length + (fuel + 1))
    rw [hfuel, indexText, brackets_cons hfirst (ih hrest (by omega)), digits, List.prod_cons,
      Nat.mod_mul_left_mod]

/-! ## Both texts -/

/-- The indices that the text stands for, with fuel enough for all of it. -/
def valuesOf (env : List UInt8 → ℕ) (text : List UInt8) : Option (List ℕ) :=
  indices env (text.length + 9) text

theorem le_length_indexText (indexId : List UInt8) (radices : List ℕ) :
    radices.length ≤ (indexText indexId radices).length := by
  induction radices with
  | nil => exact Nat.le_refl 0
  | cons r radices ih =>
    simp only [indexText, List.length_cons, List.length_append]
    omega

theorem valuesOf_unflatten (h : Fits dimsVals) (harray : IsName arrayName)
    (hindex : IsName indexId) :
    valuesOf env (arrayName ++ indexText indexId (sizes dimsVals)) =
      some (digits (sizes dimsVals) (env indexId % (sizes dimsVals).prod)) := by
  have hstop : ∀ b ∈ (indexText indexId (sizes dimsVals)).head?, isident b = false := by
    cases sizes dimsVals with
    | nil => exact fun b hb => by cases hb
    | cons => exact not_isident_cons 91 rfl _
  have hlen := le_length_indexText indexId (sizes dimsVals)
  obtain ⟨fuel, hfuel⟩ := Nat.exists_eq_add_of_le
    (show (sizes dimsVals).length ≤ (arrayName ++ indexText indexId (sizes dimsVals)).length by
      rw [List.length_append]; omega)
  rw [valuesOf, indices_name harray hstop, hfuel, Nat.add_assoc]
  exact brackets_indexText hindex h.pos h.prod fuel

theorem le_length_sumText (h : names.length ≤ radices.length) :
    names.length ≤ (sumText names radices).length := by
  induction names generalizing radices with
  | nil => exact Nat.zero_le _
  | cons name names ih =>
    cases radices with
    | nil => exact h
    | cons r radices =>
      have hrest := ih (Nat.le_of_succ_le_succ h)
      simp only [sumText, List.length_cons, List.length_append]
      omega

theorem valuesOf_flatten (h : Fits dimsVals) (hne : dimsVals ≠ []) (harray : IsName arrayName)
    (hnames : ∀ name ∈ names, IsName name)
    (henv : List.Forall₂ (fun name d => env name = d) names ds)
    (hds : List.Forall₂ (· < ·) ds (sizes dimsVals)) :
    valuesOf env (arrayName ++ 91 :: (sumText names (sizes dimsVals)).tail ++ [93]) =
      some [value (sizes dimsVals) ds] := by
  have hlt := value_lt hds
  have hfit := h.prod
  cases dimsVals with
  | nil => exact absurd rfl hne
  | cons val dimsVals =>
    rw [sizes_cons] at hds hlt hfit ⊢
    cases hds with
    | @cons d _ ds _ hd hds =>
      cases henv with
      | @cons name _ names _ hname henv =>
        have hlen : names.length ≤ (sumText names (sizes dimsVals)).length :=
          le_length_sumText (henv.length_eq.trans hds.length_eq).le
        have hprod := h.tail.prod
        have htext : arrayName ++ 91 :: (sumText (name :: names)
            (val.toNat :: sizes dimsVals)).tail ++ [93] = arrayName ++ 91 :: (name ++ 42 ::
              (printNat (sizes dimsVals).prod ++ (sumText names (sizes dimsVals) ++ [93]))) := by
          simp only [sumText, List.tail_cons, List.append_assoc, List.cons_append]
        rw [value] at hlt ⊢
        rw [List.prod_cons] at hlt hfit
        have hsum := exprR_sumText (fun name hn => hnames name (List.mem_cons_of_mem _ hn)) henv hds
          (show d * (sizes dimsVals).prod + value (sizes dimsVals) ds < 2 ^ 64 by omega) hprod
        have hterm (fuel : ℕ) := term_summand fuel (hnames name List.mem_cons_self) hprod
          (show env name * (sizes dimsVals).prod < 2 ^ 64 by rw [hname]; omega)
          (sumText_head names (sizes dimsVals)).1 (sumText_head names (sizes dimsVals)).2
        rw [hname] at hterm
        rw [htext, valuesOf, indices_name harray (not_isident_cons 91 rfl _)]
        obtain ⟨fuel, hfuel⟩ := Nat.exists_eq_add_of_le (show names.length ≤ (arrayName ++ 91 ::
            (name ++ 42 :: (printNat (sizes dimsVals).prod ++
              (sumText names (sizes dimsVals) ++ [93])))).length by
          simp only [List.length_append, List.length_cons]
          omega)
        have hexpr := (expr_term (hterm (names.length + (fuel + 4)))).trans (hsum (fuel + 4))
        rw [hfuel, Nat.add_assoc]
        exact brackets_cons hexpr rfl

/-! ## Round trips -/

/-- The variables have the values of the indices. -/
def Assigns (env : List UInt8 → ℕ) (names : List (List UInt8)) (idx : List ℕ) : Prop :=
  List.Forall₂ (fun name d => env name = d) names idx

/-- The indices are within their dimensions. -/
def Within (idx : List ℕ) (dimsVals : List UInt64) : Prop :=
  List.Forall₂ (· < ·) idx (sizes dimsVals)

/-- From an offset to the indices and back, and from indices to the offset and back. -/
def RoundTrips (arrayName indexId : List UInt8) (names : List (List UInt8))
    (dimsVals : List UInt64) : Prop :=
  ∃ flat unflat, flattenIndex arrayName names dimsVals = some flat ∧
    unflattenIndex indexId arrayName dimsVals = some unflat ∧
    (∀ offset < (sizes dimsVals).prod, ∃ idx, Within idx dimsVals ∧
      (∀ env, env indexId = offset → valuesOf env unflat = some idx) ∧
      ∀ env, Assigns env names idx → valuesOf env flat = some [offset]) ∧
    ∀ idx, Within idx dimsVals → ∃ offset < (sizes dimsVals).prod,
      (∀ env, Assigns env names idx → valuesOf env flat = some [offset]) ∧
      ∀ env, env indexId = offset → valuesOf env unflat = some idx

theorem flatten_unflatten (h : Fits dimsVals) (hne : dimsVals ≠ [])
    (hlen : names.length = dimsVals.length) (harray : IsName arrayName) (hindex : IsName indexId)
    (hnames : ∀ name ∈ names, IsName name) : RoundTrips arrayName indexId names dimsVals := by
  refine ⟨_, _, flattenIndex_eq h hne hlen arrayName, unflattenIndex_eq h hne indexId arrayName,
    ?_, ?_⟩
  · intro offset hoffset
    have hidx := digits_lt h.pos hoffset
    refine ⟨digits (sizes dimsVals) offset, hidx, ?_, ?_⟩
    · intro env henv
      rw [valuesOf_unflatten h harray hindex, henv, Nat.mod_eq_of_lt hoffset]
    · intro env henv
      rw [valuesOf_flatten h hne harray hnames henv hidx, value_digits h.pos hoffset]
  · intro idx hidx
    have hoffset := value_lt hidx
    refine ⟨value (sizes dimsVals) idx, hoffset, ?_, ?_⟩
    · intro env henv
      exact valuesOf_flatten h hne harray hnames henv hidx
    · intro env henv
      rw [valuesOf_unflatten h harray hindex, henv, Nat.mod_eq_of_lt hoffset, digits_value hidx]

/-- `arr[i][j]` with dimensions 3 and 4, and the offset `k` -/
theorem flatten_unflatten_sample : RoundTrips [97, 114, 114] [107] [[105], [106]] [3, 4] :=
  flatten_unflatten ⟨by decide, by decide⟩ (by decide) rfl (by decide) (by decide) (by decide)

end InterviewQuestions.Flatten
