import Mathlib.Data.List.TakeWhile
import Mathlib.Data.Nat.Digits.Lemmas

/-! The decimal numbers that `printf` writes and the directives with which `scanf` reads
words and numbers back. -/
namespace InterviewQuestions.Library.Scanf

/-! ## Decimal numbers -/

def isdigit (b : UInt8) : Bool := 48 ≤ b && b ≤ 57

/-- `%d` of a number that is not negative. -/
def printNat (n : ℕ) : List UInt8 :=
  if n = 0 then [48] else (Nat.digits 10 n).reverse.map fun d => UInt8.ofNat (48 + d)

/-- The value of decimal digits. -/
def value (digits : List UInt8) : ℕ :=
  digits.foldl (fun v b => b.toNat - 48 + 10 * v) 0

theorem digit_toNat {d : ℕ} (hd : d < 10) : (UInt8.ofNat (48 + d)).toNat = 48 + d :=
  Nat.mod_eq_of_lt (by omega)

theorem printNat_ne_nil (n : ℕ) : printNat n ≠ [] := by
  unfold printNat
  by_cases hn : n = 0
  · simp [hn]
  · simp [hn, Nat.digits_ne_nil_iff_ne_zero]

theorem isdigit_of_mem_printNat {n : ℕ} {b : UInt8} (hb : b ∈ printNat n) : isdigit b = true := by
  unfold printNat at hb
  split at hb
  case isTrue =>
    rw [List.mem_singleton] at hb
    rw [hb]
    rfl
  case isFalse =>
    rw [List.mem_map] at hb
    obtain ⟨d, hd, hdigit⟩ := hb
    have hlt := Nat.digits_lt_base (by decide) (List.mem_reverse.mp hd)
    rw [← hdigit, isdigit, Bool.and_eq_true, decide_eq_true_eq, decide_eq_true_eq,
      UInt8.le_iff_toNat_le, UInt8.le_iff_toNat_le, digit_toNat hlt]
    constructor
    · exact Nat.le_add_right 48 d
    · exact Nat.add_le_add_left (Nat.le_of_lt_succ hlt) 48

theorem foldl_map_digits (digits : List ℕ) (hdigits : ∀ d ∈ digits, d < 10) (v : ℕ) :
    (digits.map fun d => UInt8.ofNat (48 + d)).foldl (fun v b => b.toNat - 48 + 10 * v) v =
      digits.foldl (fun v d => d + 10 * v) v := by
  induction digits generalizing v with
  | nil => rfl
  | cons d digits ih =>
    rw [List.map_cons, List.foldl_cons, List.foldl_cons,
      digit_toNat (hdigits d List.mem_cons_self), Nat.add_sub_cancel_left]
    exact ih (fun e he => hdigits e (List.mem_cons_of_mem d he)) _

@[simp] theorem value_printNat (n : ℕ) : value (printNat n) = n := by
  unfold value printNat
  by_cases hn : n = 0
  · rw [if_pos hn, hn]
    rfl
  · rw [if_neg hn, foldl_map_digits, List.foldl_reverse]
    · have hvalue := Nat.ofDigits_digits 10 n
      rwa [Nat.ofDigits_eq_foldr] at hvalue
    · intro d hd
      exact Nat.digits_lt_base (by decide) (List.mem_reverse.mp hd)

/-- `%d` -/
def printInt (z : ℤ) : List UInt8 :=
  if z < 0 then 45 :: printNat z.natAbs else printNat z.natAbs

theorem printInt_ne_nil (z : ℤ) : printInt z ≠ [] := by
  unfold printInt
  split
  · exact List.cons_ne_nil _ _
  · exact printNat_ne_nil _

theorem printInt_natCast (n : ℕ) : printInt n = printNat n :=
  if_neg (Int.not_lt.mpr (Int.natCast_nonneg n))

theorem zero_not_mem_printInt (z : ℤ) : 0 ∉ printInt z := by
  have hdigits : ∀ n, 0 ∉ printNat n := by
    intro n hmem
    have hdigit := isdigit_of_mem_printNat hmem
    cases hdigit
  unfold printInt
  split
  case isTrue =>
    rw [List.mem_cons, not_or]
    exact ⟨by decide, hdigits _⟩
  case isFalse => exact hdigits _

theorem length_printNat_le {n k : ℕ} (hk : 0 < k) (hn : n < 10 ^ k) : (printNat n).length ≤ k := by
  unfold printNat
  split
  · exact hk
  · rw [List.length_map, List.length_reverse]
    exact (Nat.digits_length_le_iff (by decide) n).mpr hn

theorem length_printInt_le {z : ℤ} {k : ℕ} (hk : 0 < k) (hz : z.natAbs < 10 ^ k) :
    (printInt z).length ≤ k + 1 := by
  have hle := length_printNat_le hk hz
  unfold printInt
  split
  · rw [List.length_cons]
    omega
  · omega

/-- Digits, at least one, and what follows them. -/
def scanNat (input : List UInt8) : Option (ℕ × List UInt8) :=
  match input.takeWhile isdigit with
  | [] => none
  | digits => some (value digits, input.dropWhile isdigit)

/-- A number with an optional sign. -/
def scanInt : List UInt8 → Option (ℤ × List UInt8)
  | 45 :: input => (scanNat input).map fun found => (-(found.1 : ℤ), found.2)
  | 43 :: input => (scanNat input).map fun found => ((found.1 : ℤ), found.2)
  | input => (scanNat input).map fun found => ((found.1 : ℤ), found.2)

theorem takeWhile_append_stop {p : UInt8 → Bool} {xs rest : List UInt8} (hxs : ∀ b ∈ xs, p b = true)
    (hrest : ∀ b ∈ rest.head?, p b = false) :
    (xs ++ rest).takeWhile p = xs ∧ (xs ++ rest).dropWhile p = rest := by
  rw [List.takeWhile_append_of_pos hxs, List.dropWhile_append_of_pos hxs]
  cases rest with
  | nil => simp
  | cons b rest =>
    have hstop : p b = false := hrest b rfl
    simp [hstop]

/-- No digit follows at the end of the input. -/
theorem isdigit_head_nil : ∀ b ∈ ([] : List UInt8).head?, isdigit b = false :=
  fun b hb => by cases hb

/-- Digits that no digit follows are read whole. -/
theorem scanNat_append {digits rest : List UInt8} (hne : digits ≠ [])
    (hdigits : ∀ b ∈ digits, isdigit b = true) (hrest : ∀ b ∈ rest.head?, isdigit b = false) :
    scanNat (digits ++ rest) = some (value digits, rest) := by
  obtain ⟨htake, hdrop⟩ := takeWhile_append_stop hdigits hrest
  rw [scanNat, htake, hdrop]
  cases digits with
  | nil => exact absurd rfl hne
  | cons b digits => rfl

theorem scanInt_minus (input : List UInt8) :
    scanInt (45 :: input) = (scanNat input).map fun found => (-(found.1 : ℤ), found.2) := rfl

theorem scanInt_plus (input : List UInt8) :
    scanInt (43 :: input) = (scanNat input).map fun found => ((found.1 : ℤ), found.2) := rfl

theorem scanInt_append {digits rest : List UInt8} (hne : digits ≠ [])
    (hdigits : ∀ b ∈ digits, isdigit b = true) (hrest : ∀ b ∈ rest.head?, isdigit b = false) :
    scanInt (digits ++ rest) = some ((value digits : ℤ), rest) := by
  have hscan := scanNat_append hne hdigits hrest
  cases digits with
  | nil => exact absurd rfl hne
  | cons b digits =>
    have hdigit : isdigit b = true := hdigits b List.mem_cons_self
    rw [List.cons_append] at hscan ⊢
    unfold scanInt
    split
    case h_1 heq =>
      rw [(List.cons.inj heq).1] at hdigit
      cases hdigit
    case h_2 heq =>
      rw [(List.cons.inj heq).1] at hdigit
      cases hdigit
    case h_3 => rw [hscan, Option.map_some]

theorem scanNat_printNat (n : ℕ) {rest : List UInt8} (hrest : ∀ b ∈ rest.head?, isdigit b = false) :
    scanNat (printNat n ++ rest) = some (n, rest) := by
  rw [scanNat_append (printNat_ne_nil n) (fun b hb => isdigit_of_mem_printNat hb) hrest,
    value_printNat]

/-- What `printInt` has written is read back. -/
theorem scanInt_printInt (z : ℤ) {rest : List UInt8} (hrest : ∀ b ∈ rest.head?, isdigit b = false) :
    scanInt (printInt z ++ rest) = some (z, rest) := by
  unfold printInt
  by_cases hz : z < 0
  · rw [if_pos hz, List.cons_append, scanInt, scanNat_printNat _ hrest]
    simp only [Option.map_some]
    rw [Int.ofNat_natAbs_of_nonpos (Int.le_of_lt hz), Int.neg_neg]
  · have habs : ((z.natAbs : ℕ) : ℤ) = z := Int.natAbs_of_nonneg (Int.not_lt.mp hz)
    rw [if_neg hz, scanInt_append (printNat_ne_nil _) (fun b hb => isdigit_of_mem_printNat hb)
      hrest, value_printNat, habs]

/-! ## Directives -/

/-- The characters that `isspace` accepts in the C locale. -/
def isspace (b : UInt8) : Bool := b = 32 || 9 ≤ b && b ≤ 13

/-- One directive of a format: a character to match, white space to skip, `%s` or `%d`. -/
inductive Directive where
  | byte (b : UInt8)
  | space
  | word
  | int

/-- What a conversion stores. -/
inductive Field where
  | word (bytes : List UInt8)
  | int (z : ℤ)
deriving DecidableEq

def skipSpace (input : List UInt8) : List UInt8 := input.dropWhile isspace

/-- The fields converted before the first directive that fails. -/
def scan : List Directive → List UInt8 → List Field
  | [], _ => []
  | .byte _ :: _, [] => []
  | .byte b :: format, c :: input => if c = b then scan format input else []
  | .space :: format, input => scan format (skipSpace input)
  | .word :: format, input =>
      match (skipSpace input).takeWhile (! isspace ·) with
      | [] => []
      | w => .word w :: scan format ((skipSpace input).dropWhile (! isspace ·))
  | .int :: format, input =>
      match scanInt (skipSpace input) with
      | none => []
      | some (z, rest) => .int z :: scan format rest

theorem skipSpace_of_head {input : List UInt8} (h : ∀ b ∈ input.head?, isspace b = false) :
    skipSpace input = input := by
  cases input with
  | nil => rfl
  | cons b input => exact List.dropWhile_cons_of_neg (by simp [h b rfl])

@[simp] theorem scan_byte (b : UInt8) (format : List Directive) (input : List UInt8) :
    scan (.byte b :: format) (b :: input) = scan format input := by
  rw [scan, if_pos rfl]

theorem scan_space (format : List Directive) {input : List UInt8}
    (h : ∀ b ∈ input.head?, isspace b = false) :
    scan (.space :: format) (32 :: input) = scan format input := by
  have hskip : skipSpace (32 :: input) = skipSpace input := rfl
  rw [scan, hskip, skipSpace_of_head h]

theorem scan_word (format : List Directive) {w rest : List UInt8} (hw : w ≠ [])
    (hspace : ∀ b ∈ w, isspace b = false) (hrest : ∀ b ∈ rest.head?, isspace b = true) :
    scan (.word :: format) (w ++ rest) = .word w :: scan format rest := by
  have hhead : ∀ b ∈ (w ++ rest).head?, isspace b = false := by
    cases w with
    | nil => exact absurd rfl hw
    | cons c w =>
      intro b hb
      rw [List.cons_append, List.head?_cons, Option.mem_some_iff] at hb
      exact hspace b (hb ▸ List.mem_cons_self)
  obtain ⟨htake, hdrop⟩ := takeWhile_append_stop (p := fun b => ! isspace b)
    (fun b hb => by simp [hspace b hb]) (fun b hb => by simp [hrest b hb])
  rw [scan, skipSpace_of_head hhead, htake, hdrop]
  cases w with
  | nil => exact absurd rfl hw
  | cons c w => rfl

theorem isspace_of_isdigit {b : UInt8} (h : isdigit b = true) : isspace b = false := by
  simp only [isdigit, isspace, Bool.and_eq_true, decide_eq_true_eq, Bool.or_eq_false_iff,
    Bool.and_eq_false_iff, decide_eq_false_iff_not, UInt8.le_iff_toNat_le, ← UInt8.toNat_inj] at h ⊢
  simp only [UInt8.reduceToNat] at h ⊢
  omega

theorem isspace_head_printInt (z : ℤ) (rest : List UInt8) :
    ∀ b ∈ (printInt z ++ rest).head?, isspace b = false := by
  intro b hb
  unfold printInt at hb
  split at hb
  case isTrue =>
    rw [List.cons_append, List.head?_cons, Option.mem_some_iff] at hb
    rw [← hb]
    rfl
  case isFalse =>
    cases hdigits : printNat z.natAbs with
    | nil => exact absurd hdigits (printNat_ne_nil _)
    | cons c digits =>
      rw [hdigits, List.cons_append, List.head?_cons, Option.mem_some_iff] at hb
      rw [← hb]
      apply isspace_of_isdigit
      apply isdigit_of_mem_printNat (n := z.natAbs)
      rw [hdigits]
      exact List.mem_cons_self

theorem skipSpace_printInt (z : ℤ) (rest : List UInt8) :
    skipSpace (printInt z ++ rest) = printInt z ++ rest :=
  skipSpace_of_head (isspace_head_printInt z rest)

theorem scan_int (format : List Directive) (z : ℤ) {rest : List UInt8}
    (hrest : ∀ b ∈ rest.head?, isdigit b = false) :
    scan (.int :: format) (printInt z ++ rest) = .int z :: scan format rest := by
  rw [scan, skipSpace_printInt, scanInt_printInt z hrest]

/-! ## Lines -/

/-- The bytes end with a newline. -/
def EndsLine (input : List UInt8) : Prop := ∃ front, input = front ++ [10]

theorem EndsLine.of_suffix {input rest : List UInt8} (h : EndsLine input) (hsuffix : rest <:+ input)
    (hne : rest ≠ []) : EndsLine rest := by
  obtain ⟨front, rfl⟩ := h
  obtain ⟨before, hbefore⟩ := hsuffix
  rcases List.eq_nil_or_concat rest with hnil | ⟨rest', b, rfl⟩
  · exact absurd hnil hne
  · rw [List.concat_eq_append, ← List.append_assoc] at hbefore
    obtain ⟨-, hlast⟩ := List.append_inj' hbefore rfl
    exact ⟨rest', by rw [List.concat_eq_append, hlast]⟩

/-- What stops at a newline stops before what follows it. -/
theorem span_line {p : UInt8 → Bool} (hp : p 10 = false) {input : List UInt8}
    (h : EndsLine input) (rest : List UInt8) :
    (input ++ rest).takeWhile p = input.takeWhile p ∧
      (input ++ rest).dropWhile p = input.dropWhile p ++ rest ∧ EndsLine (input.dropWhile p) := by
  have hstop : input.dropWhile p ≠ [] := by
    obtain ⟨front, rfl⟩ := h
    intro hnil
    have hall := List.dropWhile_eq_nil_iff.mp hnil 10 (by simp)
    rw [hp] at hall
    cases hall
  refine ⟨?_, ?_, h.of_suffix (List.dropWhile_suffix p) hstop⟩
  · rw [List.takeWhile_append, if_neg]
    intro hlen
    apply hstop
    have hsplit := congrArg List.length (List.takeWhile_append_dropWhile (p := p) (l := input))
    rw [List.length_append, hlen] at hsplit
    exact List.length_eq_zero_iff.mp (by omega)
  · rw [List.dropWhile_append, if_neg]
    simpa using hstop

theorem scanNat_line {input : List UInt8} (h : EndsLine input) (rest : List UInt8) :
    scanNat (input ++ rest) = (scanNat input).map fun found => (found.1, found.2 ++ rest) := by
  obtain ⟨htake, hdrop, -⟩ := span_line (p := isdigit) (by decide) h rest
  rw [scanNat, scanNat, htake, hdrop]
  cases input.takeWhile isdigit <;> rfl

theorem endsLine_of_scanNat {input left : List UInt8} {n : ℕ} (h : EndsLine input)
    (hscan : scanNat input = some (n, left)) : EndsLine left := by
  rw [scanNat] at hscan
  split at hscan
  case h_1 => cases hscan
  case h_2 =>
    cases hscan
    exact (span_line (by decide) h []).2.2

/-- A number on a line is read without what follows the line. -/
theorem scanInt_line {input left : List UInt8} {z : ℤ} (h : EndsLine input)
    (hscan : scanInt input = some (z, left)) (rest : List UInt8) :
    scanInt (input ++ rest) = some (z, left ++ rest) ∧ EndsLine left := by
  have htail : ∀ b tail, input = b :: tail → b ≠ 10 → EndsLine tail := by
    rintro b tail rfl hb
    refine h.of_suffix (List.suffix_cons b tail) ?_
    rintro rfl
    obtain ⟨front, hfront⟩ := h
    have hlast := congrArg List.getLast? hfront
    rw [List.getLast?_append] at hlast
    exact hb (Option.some.inj hlast)
  unfold scanInt at hscan
  split at hscan
  case h_1 tail =>
    obtain ⟨⟨n, left'⟩, hnat, heq⟩ := Option.map_eq_some_iff.mp hscan
    cases heq
    have hline := htail 45 tail rfl (by decide)
    refine ⟨?_, endsLine_of_scanNat hline hnat⟩
    rw [List.cons_append, scanInt_minus, scanNat_line hline, hnat]
    rfl
  case h_2 tail =>
    obtain ⟨⟨n, left'⟩, hnat, heq⟩ := Option.map_eq_some_iff.mp hscan
    cases heq
    have hline := htail 43 tail rfl (by decide)
    refine ⟨?_, endsLine_of_scanNat hline hnat⟩
    rw [List.cons_append, scanInt_plus, scanNat_line hline, hnat]
    rfl
  case h_3 hminus hplus =>
    obtain ⟨⟨n, left'⟩, hnat, heq⟩ := Option.map_eq_some_iff.mp hscan
    cases heq
    refine ⟨?_, endsLine_of_scanNat h hnat⟩
    unfold scanInt
    split
    case h_1 tail heq =>
      cases input with
      | nil =>
        obtain ⟨front, hfront⟩ := h
        exact absurd hfront.symm (by simp)
      | cons b input =>
        cases heq
        exact absurd rfl (hminus input)
    case h_2 tail heq =>
      cases input with
      | nil =>
        obtain ⟨front, hfront⟩ := h
        exact absurd hfront.symm (by simp)
      | cons b input =>
        cases heq
        exact absurd rfl (hplus input)
    case h_3 =>
      rw [scanNat_line h, hnat]
      rfl

/-- The numbers of a line, if there are as many as the format has, are read without what follows
the line. -/
theorem scan_ints_line {n : ℕ} {input : List UInt8} (h : EndsLine input)
    (hscan : (scan (List.replicate n .int) input).length = n) (rest : List UInt8) :
    scan (List.replicate n .int) (input ++ rest) = scan (List.replicate n .int) input := by
  induction n generalizing input with
  | zero => rfl
  | succ n ih =>
    rw [List.replicate_succ, scan, scan]
    rw [List.replicate_succ, scan] at hscan
    cases hint : scanInt (skipSpace input) with
    | none =>
      rw [hint] at hscan
      cases hscan
    | some found =>
      obtain ⟨z, left⟩ := found
      rw [hint] at hscan
      have hne : skipSpace input ≠ [] := by
        intro hnil
        rw [hnil] at hint
        cases hint
      have hskip : skipSpace (input ++ rest) = skipSpace input ++ rest := by
        unfold skipSpace at hne ⊢
        rw [List.dropWhile_append, if_neg]
        simpa using hne
      have hsuffix : skipSpace input <:+ input := List.dropWhile_suffix isspace
      obtain ⟨happend, hleft⟩ := scanInt_line (h.of_suffix hsuffix hne) hint rest
      rw [hskip, happend]
      simp only
      rw [ih hleft (Nat.succ.inj hscan)]

/-- What `fgets` returns, call by call, until the end of the input: up to `size - 1` bytes, and no
further than a newline. -/
def fgetsFrom (size : ℕ) : List UInt8 → List UInt8 → List (List UInt8)
  | [], [] => []
  | line, [] => [line]
  | line, b :: input =>
      if b = 10 ∨ size ≤ line.length + 2 then (line ++ [b]) :: fgetsFrom size [] input
      else fgetsFrom size (line ++ [b]) input

def fgets (size : ℕ) (input : List UInt8) : List (List UInt8) := fgetsFrom size [] input

theorem mem_fgetsFrom {size : ℕ} (hsize : 2 ≤ size) {line input chunk : List UInt8}
    (hline : line.length + 2 ≤ size) (h : chunk ∈ fgetsFrom size line input) :
    chunk ≠ [] ∧ chunk.length + 1 ≤ size ∧ ∀ b ∈ chunk, b ∈ line ∨ b ∈ input := by
  induction input generalizing line with
  | nil =>
    cases line with
    | nil => cases h
    | cons c line =>
      rw [fgetsFrom] at h
      · obtain rfl := List.mem_singleton.mp h
        exact ⟨List.cons_ne_nil _ _, by omega, fun b hb => Or.inl hb⟩
      · simp
  | cons b input ih =>
    have hlast : ∀ chunk : List UInt8, chunk = line ++ [b] →
        chunk ≠ [] ∧ chunk.length + 1 ≤ size ∧ ∀ c ∈ chunk, c ∈ line ∨ c ∈ b :: input := by
      rintro chunk rfl
      refine ⟨by simp, by simp; omega, fun c hc => ?_⟩
      rcases List.mem_append.mp hc with hc | hc
      · exact Or.inl hc
      · exact Or.inr (List.mem_cons.mpr (Or.inl (List.mem_singleton.mp hc)))
    rw [fgetsFrom] at h
    split at h
    case isTrue =>
      rcases List.mem_cons.mp h with heq | hrest
      · exact hlast chunk heq
      · have hroom : ([] : List UInt8).length + 2 ≤ size := by simpa using hsize
        obtain ⟨hne, hlen, hmem⟩ := ih hroom hrest
        exact ⟨hne, hlen, fun c hc => Or.inr (List.mem_cons_of_mem b ((hmem c hc).resolve_left
          List.not_mem_nil))⟩
    case isFalse hmore =>
      rw [not_or] at hmore
      have hroom : (line ++ [b]).length + 2 ≤ size := by
        simp
        omega
      obtain ⟨hne, hlen, hmem⟩ := ih hroom h
      refine ⟨hne, hlen, fun c hc => ?_⟩
      rcases hmem c hc with hline | hinput
      · rcases List.mem_append.mp hline with hc | hc
        · exact Or.inl hc
        · exact Or.inr (List.mem_cons.mpr (Or.inl (List.mem_singleton.mp hc)))
      · exact Or.inr (List.mem_cons_of_mem b hinput)

/-- Each chunk has a byte and fits into the buffer with its `NUL`. -/
theorem mem_fgets {size : ℕ} (hsize : 2 ≤ size) {input chunk : List UInt8}
    (h : chunk ∈ fgets size input) :
    chunk ≠ [] ∧ chunk.length + 1 ≤ size ∧ ∀ b ∈ chunk, b ∈ input := by
  have hfrom : chunk ∈ fgetsFrom size [] input := h
  obtain ⟨hne, hlen, hmem⟩ := mem_fgetsFrom hsize (by simpa using hsize) hfrom
  exact ⟨hne, hlen, fun b hb => (hmem b hb).resolve_left List.not_mem_nil⟩

/-- A word that `%s` has read has no white space. -/
theorem isspace_of_mem_scan {format : List Directive} {input w : List UInt8}
    (h : .word w ∈ scan format input) : ∀ b ∈ w, isspace b = false := by
  fun_induction scan format input with
  | case1 | case2 | case4 | case6 | case8 => simp at h
  | case3 input b format ih => exact ih h
  | case5 format input ih => exact ih h
  | case7 format input hnil ih =>
    cases List.mem_cons.mp h with
    | inl heq =>
      intro b hb
      rw [Field.word.inj heq] at hb
      simpa using List.mem_takeWhile_imp hb
    | inr hrest => exact ih hrest
  | case9 format input z rest hscan ih =>
    cases List.mem_cons.mp h with
    | inl heq => cases heq
    | inr hrest => exact ih hrest

end InterviewQuestions.Library.Scanf

/-! `istringstream`, as far as `>>` reads `int`s from it. -/
namespace InterviewQuestions.Library

open Scanf

/-- What is left to read, and whether nothing has failed and the end has not been met. -/
structure InputStream where
  rest : List UInt8
  good : Bool
deriving DecidableEq

namespace InputStream

def ofString (s : List UInt8) : InputStream := ⟨s, true⟩

/-- What comes after a number. The end is met when nothing does. -/
def after (rest : List UInt8) : InputStream := ⟨rest, ! rest.isEmpty⟩

/-- `>>` with the value that the variable has, `none` before it has one. A value that is out of
range is replaced by the nearest `int`, and what is no number by 0. -/
def extract (iss : InputStream) (old : Option Int32) : Option Int32 × InputStream :=
  if iss.good then
    let input := skipSpace iss.rest
    if input = [] then (old, ⟨[], false⟩)
    else
      match scanInt input with
      | none => (some 0, ⟨input, false⟩)
      | some (z, rest) =>
          if z < -2 ^ 31 then (some Int32.minValue, ⟨rest, false⟩)
          else if 2 ^ 31 ≤ z then (some Int32.maxValue, ⟨rest, false⟩)
          else (some (Int32.ofInt z), after rest)
  else (old, iss)

theorem after_cons (b : UInt8) (rest : List UInt8) : after (b :: rest) = ofString (b :: rest) := rfl

/-- Nothing is read after a failure. -/
theorem extract_of_not_good {iss : InputStream} (h : iss.good = false) (old : Option Int32) :
    iss.extract old = (old, iss) :=
  if_neg (by simp [h])

variable {input rest : List UInt8} {z : ℤ}

theorem extract_number (hinput : skipSpace input = printInt z ++ rest)
    (hrest : ∀ b ∈ rest.head?, isdigit b = false) (old : Option Int32) :
    (ofString input).extract old =
      if z < -2 ^ 31 then (some Int32.minValue, ⟨rest, false⟩)
      else if 2 ^ 31 ≤ z then (some Int32.maxValue, ⟨rest, false⟩)
      else (some (Int32.ofInt z), after rest) := by
  have hne : printInt z ++ rest ≠ [] := fun h => printInt_ne_nil z (List.append_eq_nil_iff.mp h).1
  unfold extract ofString
  simp only [hinput, if_true, if_neg hne, scanInt_printInt z hrest]

theorem extract_int (v : Int32) (hinput : skipSpace input = printInt v.toInt ++ rest)
    (hrest : ∀ b ∈ rest.head?, isdigit b = false) (old : Option Int32) :
    (ofString input).extract old = (some v, after rest) := by
  have hmin := v.le_toInt
  have hmax := v.toInt_lt
  rw [extract_number hinput hrest, if_neg (by omega), if_neg (by omega), Int32.ofInt_toInt]

theorem extract_large (hz : 2 ^ 31 ≤ z) (hinput : skipSpace input = printInt z ++ rest)
    (hrest : ∀ b ∈ rest.head?, isdigit b = false) (old : Option Int32) :
    (ofString input).extract old = (some Int32.maxValue, ⟨rest, false⟩) := by
  rw [extract_number hinput hrest, if_neg (by omega), if_pos hz]

end InputStream

end InterviewQuestions.Library
