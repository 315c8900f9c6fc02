import InterviewQuestions.Library.Digits
import InterviewQuestions.Library.Scanf
import Mathlib.Data.Int.Order.Basic

/-! `numeric/stream_sum/solution.cpp`. A stream is the list of the characters that are still to be
read. -/
namespace InterviewQuestions.StreamSum

open Library

/-- `res.push_back(c)` converts a number to a character. -/
def toChar (c : ℤ) : UInt8 := UInt8.ofInt c

/-- The first loop, to what is left of `s_a` with the `c_a` that was read from it, the carry and the
result so far. -/
def firstLoop : ℤ → List UInt8 → List UInt8 → List UInt8 → List UInt8 × ℤ × List UInt8
  | carry, cA :: sA, cB :: sB, res =>
      let opA : ℤ := cA.toNat - 48
      let opB : ℤ := cB.toNat - 48
      let (opA, nextCarry) := if opA < opB + carry then (opA + 10, 1) else (opA, 0)
      firstLoop nextCarry sA sB (res ++ [toChar (opA - (opB + carry) + 48)])
  | carry, sA, _, res => (sA, carry, res)

def secondLoop : ℤ → List UInt8 → List UInt8 → List UInt8
  | _, [], res => res
  | carry, cA :: sA, res => secondLoop 0 sA (res ++ [toChar (cA.toNat - carry)])

def streamSub (sA sB : List UInt8) : List UInt8 :=
  let (sA, carry, res) := firstLoop 0 sA sB []
  (secondLoop carry sA res).reverse

/-! ## The digits -/

open Scanf BorrowChain

variable {a b rest res : List UInt8} {c : UInt8} {d k : ℕ}

/-- A string that consists only of digits. -/
def AllDigits (s : List UInt8) : Prop := ∀ c ∈ s, isdigit c = true

def digitOf (c : UInt8) : ℕ := c.toNat - 48

theorem allDigits_iff : AllDigits a ↔ a.all isdigit = true := List.all_eq_true.symm

theorem toNat_of_isdigit (h : isdigit c = true) : c.toNat = 48 + digitOf c ∧ digitOf c < 10 := by
  rw [isdigit, Bool.and_eq_true, decide_eq_true_eq, decide_eq_true_eq, UInt8.le_iff_toNat_le,
    UInt8.le_iff_toNat_le] at h
  have hlow : 48 ≤ c.toNat := h.1
  have hhigh : c.toNat ≤ 57 := h.2
  unfold digitOf
  omega

theorem toNat_toChar {n : ℕ} (hn : n < 256) : (toChar n).toNat = n := by
  have hmod : ((n : ℤ) % 2 ^ 8).toNat = n := by omega
  rw [toChar, UInt8.ofInt, hmod]
  exact Nat.mod_eq_of_lt hn

theorem toChar_toNat (c : UInt8) : toChar c.toNat = c :=
  UInt8.toNat_inj.mp (toNat_toChar c.toNat_lt)

theorem isdigit_toChar (hd : d < 10) : isdigit (toChar (48 + d : ℕ)) = true := by
  rw [isdigit, Bool.and_eq_true, decide_eq_true_eq, decide_eq_true_eq, UInt8.le_iff_toNat_le,
    UInt8.le_iff_toNat_le, toNat_toChar (by omega)]
  exact ⟨Nat.le_add_right 48 d, Nat.add_le_add_left (Nat.le_of_lt_succ hd) 48⟩

theorem digitOf_toChar (hd : d < 10) : digitOf (toChar (48 + d : ℕ)) = d := by
  rw [digitOf, toNat_toChar (by omega), Nat.add_sub_cancel_left]

theorem lt_of_mem_map (ha : AllDigits a) : ∀ x ∈ a.map digitOf, x < 10 := by
  intro x hx
  obtain ⟨c, hc, rfl⟩ := List.mem_map.mp hx
  exact (toNat_of_isdigit (ha c hc)).2

/-- The number that a stream stands for. -/
def denoted (s : List UInt8) : ℕ := value s.reverse

theorem denoted_eq (s : List UInt8) : denoted s = Nat.ofDigits 10 (s.map digitOf) := by
  rw [denoted, value, List.foldl_reverse, Nat.ofDigits_eq_foldr, List.foldr_map]
  rfl

theorem denoted_append (s t : List UInt8) :
    denoted (s ++ t) = denoted s + 10 ^ s.length * denoted t := by
  rw [denoted_eq, denoted_eq, denoted_eq, List.map_append, Nat.ofDigits_append, List.length_map]

theorem denoted_lt (ha : AllDigits a) : denoted a < 10 ^ a.length := by
  have hlt := Nat.ofDigits_lt_base_pow_length (by decide) (lt_of_mem_map ha)
  rwa [← denoted_eq, List.length_map] at hlt

/-! ## The loops -/

/-- The characters of digits. -/
def chars (ds : List ℕ) : List UInt8 := ds.map fun d => toChar (48 + d : ℕ)

theorem allDigits_chars {ds : List ℕ} (h : ∀ d ∈ ds, d < 10) : AllDigits (chars ds) := by
  intro c hc
  obtain ⟨d, hd, rfl⟩ := List.mem_map.mp hc
  exact isdigit_toChar (h d hd)

theorem denoted_chars {ds : List ℕ} (h : ∀ d ∈ ds, d < 10) :
    denoted (chars ds) = Nat.ofDigits 10 ds := by
  rw [denoted_eq, chars, List.map_map]
  congr 1
  refine (List.map_congr_left fun d hd => ?_).trans (List.map_id ds)
  exact digitOf_toChar (h d hd)

/-- The digit of the difference at one place. -/
def place (k x y : ℕ) : ℕ := 10 * next k x y + x - (y + k)

theorem firstLoop_cons {x y : UInt8} (hx : isdigit x = true) (hy : isdigit y = true) (hk : k ≤ 1)
    (a b res : List UInt8) :
    firstLoop k (x :: a) (y :: b) res =
      firstLoop (next k (digitOf x) (digitOf y) : ℕ) a b
        (res ++ chars [place k (digitOf x) (digitOf y)]) := by
  obtain ⟨hx, hxlt⟩ := toNat_of_isdigit hx
  obtain ⟨hy, hylt⟩ := toNat_of_isdigit hy
  rw [firstLoop, chars, List.map_cons, List.map_nil]
  by_cases hless : (x.toNat : ℤ) - 48 < y.toNat - 48 + k
  · have hnext : next k (digitOf x) (digitOf y) = 1 := if_pos (by omega)
    have hplace : (x.toNat : ℤ) - 48 + 10 - (y.toNat - 48 + k) + 48 =
        (48 + place k (digitOf x) (digitOf y) : ℕ) := by
      rw [place, hnext]
      omega
    rw [if_pos hless, hnext, ← hplace]
    rfl
  · have hnext : next k (digitOf x) (digitOf y) = 0 := if_neg (by omega)
    have hplace : (x.toNat : ℤ) - 48 - (y.toNat - 48 + k) + 48 =
        (48 + place k (digitOf x) (digitOf y) : ℕ) := by
      rw [place, hnext]
      omega
    rw [if_neg hless, hnext, ← hplace]
    rfl

theorem firstLoop_eq (restA restB res : List UInt8) (hend : restA = [] ∨ restB = [])
    (h : a.length = b.length) (ha : AllDigits a) (hb : AllDigits b) (hk : k ≤ 1) :
    firstLoop k (a ++ restA) (b ++ restB) res =
      (restA, ((borrow k (a.map digitOf) (b.map digitOf) : ℕ) : ℤ),
        res ++ chars (digits 10 k (a.map digitOf) (b.map digitOf))) := by
  induction a generalizing b k res with
  | nil =>
    obtain rfl := List.eq_nil_of_length_eq_zero h.symm
    rw [List.nil_append, List.nil_append]
    have hdone : firstLoop k restA restB res = (restA, (k : ℤ), res) := by
      rcases hend with rfl | rfl
      · cases restB <;> rfl
      · cases restA <;> rfl
    rw [hdone]
    simp [digits, borrow, chars]
  | cons x a ih =>
    cases b with
    | nil => cases h
    | cons y b =>
      have hrest := ih (res ++ chars [place k (digitOf x) (digitOf y)]) (Nat.succ.inj h)
        (fun c hc => ha c (List.mem_cons_of_mem x hc))
        (fun c hc => hb c (List.mem_cons_of_mem y hc)) (next_le_one k (digitOf x) (digitOf y))
      rw [List.cons_append, List.cons_append, firstLoop_cons (ha x (List.mem_cons_self ..))
        (hb y (List.mem_cons_self ..)) hk, hrest, List.append_assoc]
      rfl

theorem secondLoop_zero (sA res : List UInt8) : secondLoop 0 sA res = res ++ sA := by
  induction sA generalizing res with
  | nil => exact (List.append_nil res).symm
  | cons cA sA ih =>
    rw [secondLoop, ih, Int.sub_zero, toChar_toNat, List.append_assoc, List.singleton_append]

/-! ## The difference -/

/-- Only digits, and the number that they denote, most significant first, is the difference. -/
def IsDifference (a b res : List UInt8) : Prop :=
  AllDigits res ∧ value res + denoted b = denoted a

theorem isDifference_reverse :
    IsDifference a b res.reverse ↔ AllDigits res ∧ denoted res + denoted b = denoted a := by
  have hall : AllDigits res.reverse ↔ AllDigits res :=
    forall_congr' fun c => by rw [List.mem_reverse]
  rw [IsDifference, hall]
  rfl

theorem AllDigits.append {s t : List UInt8} (hs : AllDigits s) (ht : AllDigits t) :
    AllDigits (s ++ t) := by
  intro c hc
  rcases List.mem_append.mp hc with hc | hc
  · exact hs c hc
  · exact ht c hc

/-- What the first loop does for streams with equally many digits in common. -/
theorem firstLoop_spec (restA restB : List UInt8) (hend : restA = [] ∨ restB = [])
    (h : a.length = b.length) (ha : AllDigits a) (hb : AllDigits b) :
    ∃ (r : ℕ) (res : List UInt8), firstLoop 0 (a ++ restA) (b ++ restB) [] = (restA, (r : ℤ), res) ∧
      AllDigits res ∧ denoted res + denoted b = denoted a + 10 ^ a.length * r ∧
      res.length = a.length ∧ r ≤ 1 ∧ (r = 0 ↔ denoted b ≤ denoted a) := by
  have hmap : (a.map digitOf).length = (b.map digitOf).length := by
    rw [List.length_map, List.length_map, h]
  have hdigits := digits_lt 0 (b.map digitOf) (lt_of_mem_map ha)
  have hsum := ofDigits_digits hmap (Nat.zero_le 1) (lt_of_mem_map hb)
  have hborrow := borrow_eq_zero_iff (by decide) hmap (Nat.zero_le 1) (lt_of_mem_map ha)
    (lt_of_mem_map hb)
  rw [Nat.add_zero, ← denoted_eq, ← denoted_eq, ← denoted_chars hdigits, List.length_map] at hsum
  rw [Nat.add_zero, ← denoted_eq, ← denoted_eq] at hborrow
  refine ⟨borrow 0 (a.map digitOf) (b.map digitOf), _,
    firstLoop_eq restA restB [] hend h ha hb (Nat.zero_le 1), allDigits_chars hdigits, hsum, ?_,
    borrow_le_one (Nat.zero_le 1) _ _, hborrow⟩
  rw [List.nil_append, chars, List.length_map, length_digits 10 0 hmap, List.length_map]

/-- Where the first stream is not longer, the first loop does everything. -/
theorem streamSub_of_le (ha : AllDigits a) (hb : AllDigits b) (hle : denoted b ≤ denoted a)
    (hlen : a.length ≤ b.length) : IsDifference a b (streamSub a b) := by
  obtain ⟨low, high, rfl, hlow⟩ : ∃ low high, b = low ++ high ∧ a.length = low.length :=
    ⟨b.take a.length, b.drop a.length, by simp, by rw [List.length_take]; omega⟩
  obtain ⟨r, res, hloop, hres, hsum, -, hr, hborrow⟩ := firstLoop_spec [] high (.inl rfl) hlow ha
    fun c hc => hb c (List.mem_append_left high hc)
  -- what the second number has in front are zeros
  have hlt := denoted_lt ha
  rw [denoted_append, ← hlow] at hle
  have hhigh : denoted high = 0 := by
    by_contra hne
    have := Nat.le_mul_of_pos_right (10 ^ a.length) (Nat.pos_of_ne_zero hne)
    omega
  have hzero : r = 0 := hborrow.mpr (by omega)
  rw [List.append_nil] at hloop
  rw [streamSub, hloop]
  refine isDifference_reverse.mpr ⟨hres, ?_⟩
  rw [secondLoop, denoted_append, hhigh, Nat.mul_zero, Nat.add_zero, hsum, hzero, Nat.mul_zero,
    Nat.add_zero]

theorem denoted_cons (c : UInt8) (s : List UInt8) :
    denoted (c :: s) = digitOf c + 10 * denoted s := by
  rw [denoted_eq, denoted_eq, List.map_cons, Nat.ofDigits_cons]

/-- Where the first stream is longer, a borrow from its next digit comes out right unless that is a
zero. -/
theorem streamSub_of_lt {low : List UInt8} {z : UInt8} (ha : AllDigits (low ++ z :: rest))
    (hb : AllDigits b) (hlen : low.length = b.length) :
    IsDifference (low ++ z :: rest) b (streamSub (low ++ z :: rest) b) ↔
      denoted b ≤ denoted low ∨ z ≠ 48 := by
  have hlow : AllDigits low := fun c hc => ha c (List.mem_append_left _ hc)
  have hz := ha z (List.mem_append_right low (List.mem_cons_self ..))
  have hrest : AllDigits rest :=
    fun c hc => ha c (List.mem_append_right low (List.mem_cons_of_mem z hc))
  obtain ⟨r, res, hloop, hres, hsum, hlength, hr, hborrow⟩ :=
    firstLoop_spec (z :: rest) [] (.inr rfl) hlen hlow hb
  rw [List.append_nil] at hloop
  rw [streamSub, hloop, isDifference_reverse, secondLoop, secondLoop_zero, List.append_assoc,
    List.singleton_append, denoted_append, denoted_append, denoted_cons, denoted_cons, hlength,
    ← hborrow]
  obtain ⟨hnat, hlt⟩ := toNat_of_isdigit hz
  have hmul (n : ℕ) : 10 ^ low.length * (n + 10 * denoted rest) =
      10 ^ low.length * n + 10 ^ low.length * (10 * denoted rest) := Nat.mul_add ..
  rcases Nat.le_one_iff_eq_zero_or_eq_one.mp hr with hzero | hone
  · rw [hzero, Nat.cast_zero, Int.sub_zero, toChar_toNat]
    refine iff_of_true ⟨hres.append (List.forall_mem_cons.mpr ⟨hz, hrest⟩), ?_⟩ (.inl rfl)
    rw [hzero] at hsum
    omega
  · by_cases hzero : z = 48
    · refine iff_of_false (fun h => ?_) (by rw [hone]; simp [hzero])
      have hslash := h.1 _ (List.mem_append_right res (List.mem_cons_self ..))
      rw [hone, hzero] at hslash
      exact absurd hslash (by decide)
    · have hpos : 0 < digitOf z := by
        refine Nat.pos_of_ne_zero fun hdigit => hzero (UInt8.toNat_inj.mp ?_)
        rw [hnat, hdigit]
        rfl
      have hchar : (z.toNat : ℤ) - (r : ℤ) = (48 + (digitOf z - 1) : ℕ) := by omega
      rw [hchar, digitOf_toChar (by omega), hmul, hmul]
      refine iff_of_true ⟨hres.append (List.forall_mem_cons.mpr ⟨?_, hrest⟩), ?_⟩ (.inr hzero)
      · exact isdigit_toChar (by omega)
      · obtain ⟨d, hd⟩ : ∃ d, digitOf z = d + 1 := ⟨digitOf z - 1, by omega⟩
        rw [hone] at hsum
        rw [hd, Nat.add_sub_cancel, Nat.mul_succ]
        omega

/-- The result is the difference, except where a borrow meets a zero right behind the digits of the
second number. -/
theorem streamSub_iff (ha : AllDigits a) (hb : AllDigits b) (hle : denoted b ≤ denoted a) :
    IsDifference a b (streamSub a b) ↔
      a.length ≤ b.length ∨ denoted b ≤ denoted (a.take b.length) ∨ a[b.length]? ≠ some 48 := by
  by_cases hlen : a.length ≤ b.length
  · exact iff_of_true (streamSub_of_le ha hb hle hlen) (.inl hlen)
  · obtain ⟨low, z, rest, rfl, hlow⟩ : ∃ low z rest, a = low ++ z :: rest ∧
        low.length = b.length :=
      ⟨a.take b.length, a[b.length], a.drop (b.length + 1), by simp, by
        rw [List.length_take]
        omega⟩
    have hget : (low ++ z :: rest)[b.length]? = some z := by
      rw [← hlow, List.getElem?_append_right (Nat.le_refl _), Nat.sub_self]
      rfl
    rw [or_iff_right hlen, hget, ← hlow, List.take_left, streamSub_of_lt ha hb hlow]
    simp only [ne_eq, Option.some.injEq]

/-- 204 - 16 -/
theorem streamSub_iff_two :
    IsDifference [52, 48, 50] [54, 49] (streamSub [52, 48, 50] [54, 49]) :=
  (streamSub_iff (allDigits_iff.mpr (by decide)) (allDigits_iff.mpr (by decide)) (by decide)).mpr
    (by decide)

/-- 1000 - 1 comes to `"10/9"`. -/
theorem not_isDifference_thousand : denoted [49] ≤ denoted [48, 48, 48, 49] ∧
    streamSub [48, 48, 48, 49] [49] = [49, 48, 47, 57] ∧
    ¬ IsDifference [48, 48, 48, 49] [49] (streamSub [48, 48, 48, 49] [49]) := by
  refine ⟨by decide, by decide, fun h => ?_⟩
  exact absurd (h.1 47 (by decide)) (by decide)

end InterviewQuestions.StreamSum
