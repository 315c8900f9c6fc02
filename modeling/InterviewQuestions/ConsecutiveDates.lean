import InterviewQuestions.Library.Scanf
import Mathlib.Data.List.GetD
import Mathlib.Data.List.Range
import Mathlib.Logic.Function.Basic

/-! `knowledge_based/sysadmin/consecutive_dates/consecutive.awk`. There is no result where a field
that is used as a number is not written in decimal digits. -/
namespace InterviewQuestions.ConsecutiveDates

open Library Function

/-- A record of the input, without the line feed. -/
abbrev Line := List UInt8

/-- The fields of a record are what stands between blanks and tabs; `field` is the one that is not
finished yet. -/
def fieldsLoop : List UInt8 → List UInt8 → List (List UInt8)
  | field, [] => if field = [] then [] else [field]
  | field, c :: rest =>
      if c = 32 ∨ c = 9 then
        if field = [] then fieldsLoop [] rest else field :: fieldsLoop [] rest
      else fieldsLoop (field ++ [c]) rest

/-- `$n`, empty where there is no such field. -/
def field (line : Line) (n : ℕ) : List UInt8 := (fieldsLoop [] line).getD (n - 1) []

/-- `s+0` -/
def number (s : List UInt8) : Option ℕ :=
  if s ≠ [] ∧ s.all Scanf.isdigit = true then some (Scanf.value s) else none

/-- The variables that live from record to record, and `NR`. -/
structure State where
  i : ℕ
  d : ℕ → ℕ
  m : ℕ → ℕ
  l : ℕ → Line
  nr : ℕ

/-- What `split` makes of the lengths of the months; an element that is not set counts as 0. -/
def monthTable (k : ℕ) : ℕ := [0, 31, 28, 31, 30, 31, 30, 31, 31, 30, 31, 30, 31].getD k 0

/-- `BEGIN` -/
def start : State := ⟨0, fun _ => 0, monthTable, fun _ => [], 0⟩

def dayN (m : ℕ → ℕ) (day month : ℕ) : ℕ :=
  (List.range' 1 (month - 1)).foldl (fun res k => res + m k) day

def isConsecutive (s : State) : Bool :=
  if s.nr < 3 then false
  else
    let d1 := dayN s.m (s.d s.i) (s.m s.i)
    let d2 := dayN s.m (s.d ((s.i + 1) % 3)) (s.m ((s.i + 1) % 3))
    let d3 := dayN s.m (s.d ((s.i + 2) % 3)) (s.m ((s.i + 2) % 3))
    d1 + 1 = d2 ∧ d2 + 1 = d3

/-- The main rule, to the lines that are printed. -/
def rule (s : State) (line : Line) : Option (State × List Line) := do
  let day ← number (field line 2)
  let month ← number (field line 3)
  let s : State := ⟨(s.i + 1) % 3, update s.d s.i day, update s.m s.i month, update s.l s.i line,
    s.nr + 1⟩
  return (s, if isConsecutive s then
    let j := s.i
    [s.l j, s.l ((j + 1) % 3), s.l (((j + 1) % 3 + 1) % 3), []] else [])

/-- What the rule prints for the records that are left. -/
def run : State → List Line → Option (List Line)
  | _, [] => some []
  | s, line :: rest => do
      let (s, out) ← rule s line
      return out ++ (← run s rest)

def consecutive (lines : List Line) : Option (List Line) := run start lines

/-! ## Dates -/

/-- The day and the month of a record. -/
def day (line : Line) : ℕ := (number (field line 2)).getD 0

def month (line : Line) : ℕ := (number (field line 3)).getD 0

/-- A date of a year that is not a leap year, in decimal digits. -/
structure Valid (line : Line) : Prop where
  isNumber : number (field line 2) = some (day line) ∧ number (field line 3) = some (month line)
  month_pos : 1 ≤ month line
  month_le : month line ≤ 12
  day_pos : 1 ≤ day line
  day_le : day line ≤ monthTable (month line)

/-- The lengths of the months, with other ones for January and February. -/
def lengths (jan feb k : ℕ) : ℕ := if k = 1 then jan else if k = 2 then feb else monthTable k

/-- The days before a month. -/
def before (jan feb month : ℕ) : ℕ := ((List.range' 1 (month - 1)).map (lengths jan feb)).sum

def dayOfYear (jan feb : ℕ) (line : Line) : ℕ := before jan feb (month line) + day line

/-- The second date is the day after the first. -/
def Follows (jan feb : ℕ) (x y : Line) : Prop := dayOfYear jan feb x + 1 = dayOfYear jan feb y

/-- Different months, one of them January or February. -/
def Crosses (x y : Line) : Prop := month x ≠ month y ∧ (month x ≤ 2 ∨ month y ≤ 2)

instance (jan feb : ℕ) (x y : Line) : Decidable (Follows jan feb x y) :=
  inferInstanceAs (Decidable (dayOfYear jan feb x + 1 = dayOfYear jan feb y))

instance (x y : Line) : Decidable (Crosses x y) :=
  inferInstanceAs (Decidable (month x ≠ month y ∧ (month x ≤ 2 ∨ month y ≤ 2)))

variable {jan feb n : ℕ} {x y a b c : Line}

theorem before_one (jan feb : ℕ) : before jan feb 1 = 0 := rfl

theorem before_two (jan feb : ℕ) : before jan feb 2 = jan := Nat.add_zero jan

theorem before_of_three_le (jan feb : ℕ) (hn : 3 ≤ n) :
    before jan feb n = jan + (feb + ((List.range' 3 (n - 3)).map monthTable).sum) := by
  obtain ⟨k, rfl⟩ := Nat.exists_eq_add_of_le hn
  have hrange : List.range' 1 (3 + k - 1) = 1 :: 2 :: List.range' 3 k := by
    rw [show 3 + k - 1 = k + 1 + 1 by omega, List.range'_succ, List.range'_succ]
  have hmap : (List.range' 3 k).map (lengths jan feb) = (List.range' 3 k).map monthTable := by
    refine List.map_congr_left fun i hi => ?_
    have hle := (List.mem_range'_1.mp hi).1
    rw [lengths, if_neg (by omega), if_neg (by omega)]
  rw [before, hrange, List.map_cons, List.map_cons, List.sum_cons, List.sum_cons, hmap,
    Nat.add_sub_cancel_left]
  rfl

theorem dayN_eq (m : ℕ → ℕ) (day month : ℕ) :
    dayN m day month = ((List.range' 1 (month - 1)).map m).sum + day := by
  suffices h : ∀ (ks : List ℕ) (res : ℕ), ks.foldl (fun res k => res + m k) res =
      (ks.map m).sum + res from h _ _
  intro ks
  induction ks with
  | nil => exact fun res => (Nat.zero_add res).symm
  | cons k ks ih =>
    intro res
    rw [List.foldl_cons, ih, List.map_cons, List.sum_cons]
    omega

theorem Valid.day_le_31 (h : Valid x) : day x ≤ 31 := by
  have hle := h.day_le
  have htable : monthTable (month x) ≤ 31 := by
    have hlt : month x < 13 := Nat.lt_succ_of_le h.month_le
    generalize month x = k at hlt
    revert k
    decide
  omega

theorem Valid.day_le_28 (h : Valid x) (hmonth : month x = 2) : day x ≤ 28 := by
  have hle := h.day_le
  rwa [hmonth] at hle

/-- Within a month and after February, the lengths of the first two months do not matter. -/
theorem follows_congr (hcross : ¬ Crosses x y) (jan feb jan' feb' : ℕ) :
    Follows jan feb x y ↔ Follows jan' feb' x y := by
  unfold Follows dayOfYear
  by_cases hsame : month x = month y
  · rw [hsame]
    omega
  · have hx : 3 ≤ month x := by
      by_contra hlt
      exact hcross ⟨hsame, .inl (by omega)⟩
    have hy : 3 ≤ month y := by
      by_contra hlt
      exact hcross ⟨hsame, .inr (by omega)⟩
    rw [before_of_three_le jan feb hx, before_of_three_le jan feb hy,
      before_of_three_le jan' feb' hx, before_of_three_le jan' feb' hy]
    omega

/-- Where a pair of dates leaves or enters one of the first two months, it cannot follow both with
their lengths and with months in the place of their lengths. -/
theorem not_follows_both (hx : Valid x) (hy : Valid y) (hcross : Crosses x y) (hjan : jan ≤ 12)
    (hfeb : feb ≤ 12) : ¬ (Follows 31 28 x y ∧ Follows jan feb x y) := by
  obtain ⟨hne, hlow⟩ := hcross
  have hxday := hx.day_le_31
  have hyday := hy.day_le_31
  have hxpos := hx.day_pos
  have hypos := hy.day_pos
  have hxmonth := hx.month_pos
  have hymonth := hy.month_pos
  unfold Follows dayOfYear
  obtain hx1 | hx2 | hx3 : month x = 1 ∨ month x = 2 ∨ 3 ≤ month x := by omega
  · obtain hy2 | hy3 : month y = 2 ∨ 3 ≤ month y := by omega
    · rw [hx1, hy2, before_one, before_one, before_two, before_two]
      omega
    · rw [hx1, before_one, before_one, before_of_three_le _ _ hy3, before_of_three_le _ _ hy3]
      omega
  · obtain hy1 | hy3 : month y = 1 ∨ 3 ≤ month y := by omega
    · rw [hx2, hy1, before_one, before_one, before_two, before_two]
      omega
    · rw [hx2, before_two, before_two, before_of_three_le _ _ hy3, before_of_three_le _ _ hy3]
      omega
  · obtain hy1 | hy2 : month y = 1 ∨ month y = 2 := by omega
    · rw [hy1, before_one, before_one, before_of_three_le _ _ hx3, before_of_three_le _ _ hx3]
      omega
    · have hfew := hy.day_le_28 hy2
      rw [hy2, before_two, before_two, before_of_three_le _ _ hx3, before_of_three_le _ _ hx3]
      omega

/-! ## The window -/

/-- What is kept of a record in its place. -/
structure Keeps (s : State) (slot : ℕ) (line : Line) : Prop where
  d_eq : s.d slot = day line
  m_eq : s.m slot = month line
  l_eq : s.l slot = line

/-- The records number `p` and `p + 1` are in their places, and of the lengths of the months the
first two may be lost. -/
structure Loaded (p : ℕ) (a b : Line) (s : State) : Prop where
  nr_eq : s.nr = p + 2
  i_eq : s.i = (p + 2) % 3
  first : Keeps s (p % 3) a
  second : Keeps s ((p + 1) % 3) b
  table : ∀ k, 3 ≤ k → s.m k = monthTable k

/-- The month of that one of three records from number `p` on whose number leaves `r` modulo 3. -/
def inSlot (p r : ℕ) (a b c : Line) : ℕ :=
  if p % 3 = r then month a else if (p + 1) % 3 = r then month b else month c

/-- The dates of three records follow each other. -/
def Successive (jan feb : ℕ) (a b c : Line) : Prop := Follows jan feb a b ∧ Follows jan feb b c

instance (jan feb : ℕ) (a b c : Line) : Decidable (Successive jan feb a b c) :=
  inferInstanceAs (Decidable (Follows jan feb a b ∧ Follows jan feb b c))

/-- What is printed for three records. -/
def block (a b c : Line) : List Line := [a, b, c, []]

variable {s : State} {p : ℕ}

theorem dayN_eq_dayOfYear {m : ℕ → ℕ} (hjan : m 1 = jan) (hfeb : m 2 = feb)
    (htable : ∀ k, 3 ≤ k → m k = monthTable k) (x : Line) :
    dayN m (day x) (month x) = dayOfYear jan feb x := by
  rw [dayN_eq, dayOfYear, before]
  congr 2
  refine List.map_congr_left fun k hk => ?_
  have hpos := (List.mem_range'_1.mp hk).1
  unfold lengths
  split_ifs with hone htwo
  · rw [hone, hjan]
  · rw [htwo, hfeb]
  · exact htable k (by omega)

/-- All three records are in their places, and `i` is the place of the first. -/
structure Full (p : ℕ) (a b c : Line) (s : State) : Prop where
  nr_eq : s.nr = p + 3
  i_eq : s.i = p % 3
  first : Keeps s (p % 3) a
  second : Keeps s ((p + 1) % 3) b
  third : Keeps s ((p + 2) % 3) c
  table : ∀ k, 3 ≤ k → s.m k = monthTable k

theorem Full.loaded (h : Full p a b c s) : Loaded (p + 1) b c s where
  nr_eq := h.nr_eq
  i_eq := h.i_eq.trans (Nat.add_mod_right p 3).symm
  first := h.second
  second := h.third
  table := h.table

theorem Full.inSlot_eq (h : Full p a b c s) {r : ℕ} (hr : r < 3) : s.m r = inSlot p r a b c := by
  unfold inSlot
  split_ifs with ha hb
  · rw [← ha, h.first.m_eq]
  · rw [← hb, h.second.m_eq]
  · have hc : (p + 2) % 3 = r := by omega
    rw [← hc, h.third.m_eq]

theorem Full.isConsecutive_eq (h : Full p a b c s) :
    isConsecutive s = decide (Successive (inSlot p 1 a b c) (inSlot p 2 a b c) a b c) := by
  have hjan := h.inSlot_eq (r := 1) (by decide)
  have hfeb := h.inSlot_eq (r := 2) (by decide)
  have hnr : ¬ s.nr < 3 := by
    rw [h.nr_eq]
    omega
  have hsecond : (s.i + 1) % 3 = (p + 1) % 3 := by rw [h.i_eq, Nat.mod_add_mod]
  have hthird : (s.i + 2) % 3 = (p + 2) % 3 := by rw [h.i_eq, Nat.mod_add_mod]
  rw [isConsecutive, if_neg hnr, hsecond, hthird, h.i_eq, h.first.d_eq, h.first.m_eq,
    h.second.d_eq, h.second.m_eq, h.third.d_eq, h.third.m_eq]
  simp only [dayN_eq_dayOfYear hjan hfeb h.table]
  rfl

theorem Full.printed (h : Full p a b c s) :
    [s.l s.i, s.l ((s.i + 1) % 3), s.l (((s.i + 1) % 3 + 1) % 3), []] = block a b c := by
  have hsecond : (s.i + 1) % 3 = (p + 1) % 3 := by rw [h.i_eq, Nat.mod_add_mod]
  have hthird : ((s.i + 1) % 3 + 1) % 3 = (p + 2) % 3 := by rw [hsecond, Nat.mod_add_mod]
  rw [hthird, hsecond, h.i_eq, h.first.l_eq, h.second.l_eq, h.third.l_eq]
  rfl

/-- With one more record the window is full. -/
theorem rule_eq (hs : Loaded p a b s) (hc : Valid c) :
    ∃ s', rule s c = some (s', if Successive (inSlot p 1 a b c) (inSlot p 2 a b c) a b c then
        block a b c else []) ∧ Full p a b c s' := by
  obtain ⟨hday, hmonth⟩ := hc.isNumber
  have hfirst : p % 3 ≠ (p + 2) % 3 := by omega
  have hsecond : (p + 1) % 3 ≠ (p + 2) % 3 := by omega
  have hfull : Full p a b c ⟨(s.i + 1) % 3, update s.d s.i (day c), update s.m s.i (month c),
      update s.l s.i c, s.nr + 1⟩ := by
    rw [hs.i_eq, hs.nr_eq]
    have hnext : ((p + 2) % 3 + 1) % 3 = p % 3 := by omega
    refine ⟨rfl, hnext, ⟨?_, ?_, ?_⟩, ⟨?_, ?_, ?_⟩, ⟨?_, ?_, ?_⟩, fun k hk => ?_⟩
    · exact (update_of_ne hfirst _ _).trans hs.first.d_eq
    · exact (update_of_ne hfirst _ _).trans hs.first.m_eq
    · exact (update_of_ne hfirst _ _).trans hs.first.l_eq
    · exact (update_of_ne hsecond _ _).trans hs.second.d_eq
    · exact (update_of_ne hsecond _ _).trans hs.second.m_eq
    · exact (update_of_ne hsecond _ _).trans hs.second.l_eq
    · exact update_self _ _ _
    · exact update_self _ _ _
    · exact update_self _ _ _
    · exact (update_of_ne (by omega) _ _).trans (hs.table k hk)
  refine ⟨_, ?_, hfull⟩
  have hprinted := hfull.printed
  rw [rule, hday, hmonth]
  simp only [Option.bind_eq_bind, Option.bind_some, hfull.isConsecutive_eq, decide_eq_true_eq]
  rw [hprinted]
  rfl

/-! ## The whole input -/

/-- Each three consecutive records, with the number of the first. -/
def windows : ℕ → List Line → List (ℕ × Line × Line × Line)
  | p, a :: b :: c :: rest => (p, a, b, c) :: windows (p + 1) (b :: c :: rest)
  | _, _ => []

/-- The dates of the window follow each other where the first months have the lengths `31` and `28`,
and where the months that are in their places count as their lengths. -/
def isSuccessive : ℕ × Line × Line × Line → Bool
  | (_, a, b, c) => Successive 31 28 a b c

def looksSuccessive : ℕ × Line × Line × Line → Bool
  | (p, a, b, c) => Successive (inSlot p 1 a b c) (inSlot p 2 a b c) a b c

def blockOf : ℕ × Line × Line × Line → List Line
  | (_, a, b, c) => block a b c

theorem run_eq {rest : List Line} (hs : Loaded p a b s) (hrest : ∀ x ∈ rest, Valid x) :
    run s rest =
      some (((windows p (a :: b :: rest)).filter looksSuccessive).flatMap blockOf) := by
  induction rest generalizing p a b s with
  | nil => rfl
  | cons c rest ih =>
    rw [List.forall_mem_cons] at hrest
    obtain ⟨s', hrule, hfull⟩ := rule_eq hs hrest.1
    rw [run, hrule]
    simp only [Option.bind_eq_bind, Option.bind_some]
    rw [ih hfull.loaded hrest.2, windows, List.filter_cons]
    by_cases hlooks : Successive (inSlot p 1 a b c) (inSlot p 2 a b c) a b c
    · have htrue : looksSuccessive (p, a, b, c) = true := decide_eq_true hlooks
      rw [if_pos hlooks, if_pos htrue]
      rfl
    · have hfalse : ¬ looksSuccessive (p, a, b, c) = true := by
        rw [looksSuccessive, decide_eq_true_eq]
        exact hlooks
      rw [if_neg hlooks, if_neg hfalse]
      rfl

/-- Before the third record nothing is printed. -/
theorem rule_early (hs : s.nr < 2) (hx : Valid x) :
    rule s x = some (⟨(s.i + 1) % 3, update s.d s.i (day x), update s.m s.i (month x),
      update s.l s.i x, s.nr + 1⟩, []) := by
  have hearly : isConsecutive ⟨(s.i + 1) % 3, update s.d s.i (day x), update s.m s.i (month x),
      update s.l s.i x, s.nr + 1⟩ = false := if_pos (Nat.succ_lt_succ hs)
  rw [rule, hx.isNumber.1, hx.isNumber.2]
  simp only [Option.bind_eq_bind, Option.bind_some, hearly]
  rfl


theorem run_start (rest : List Line) (ha : Valid a) (hb : Valid b) :
    ∃ s, run start (a :: b :: rest) = run s rest ∧ Loaded 0 a b s := by
  refine ⟨⟨2, update (update start.d 0 (day a)) 1 (day b),
    update (update start.m 0 (month a)) 1 (month b), update (update start.l 0 a) 1 b, 2⟩, ?_,
    rfl, rfl, ⟨rfl, rfl, rfl⟩, ⟨rfl, rfl, rfl⟩, fun k hk => ?_⟩
  · rw [run, rule_early (by decide) ha]
    simp only [Option.bind_eq_bind, Option.bind_some]
    rw [run, rule_early (show start.nr + 1 < 2 by decide) hb]
    simp only [Option.bind_eq_bind, Option.bind_some, List.nil_append, Option.pure_def,
      Option.bind_fun_some]
    rfl
  · exact (update_of_ne (by omega) _ _).trans (update_of_ne (by omega) _ _)

/-- Each three consecutive records whose dates are three successive days, in order of appearance. -/
def expected (lines : List Line) : List Line :=
  ((windows 0 lines).filter isSuccessive).flatMap blockOf

theorem consecutive_eq {lines : List Line} (hvalid : ∀ x ∈ lines, Valid x) :
    consecutive lines = some (((windows 0 lines).filter looksSuccessive).flatMap blockOf) := by
  cases lines with
  | nil => rfl
  | cons a lines =>
    cases lines with
    | nil =>
      rw [consecutive, run, rule_early (by decide) (hvalid a (List.mem_cons_self ..))]
      rfl
    | cons b rest =>
      rw [List.forall_mem_cons, List.forall_mem_cons] at hvalid
      obtain ⟨s, hrun, hloaded⟩ := run_start rest hvalid.1 hvalid.2.1
      rw [consecutive, hrun, run_eq hloaded hvalid.2.2]

theorem mem_windows {lines : List Line} {q : ℕ} :
    (q, a, b, c) ∈ windows p lines ↔
      ∃ i, q = p + i ∧ lines[i]? = some a ∧ lines[i + 1]? = some b ∧ lines[i + 2]? = some c := by
  fun_induction windows p lines with
  | case1 p x y z rest ih =>
    rw [List.mem_cons, ih]
    constructor
    · rintro (heq | ⟨i, hq, ha, hb, hc⟩)
      · cases heq
        exact ⟨0, rfl, rfl, rfl, rfl⟩
      · exact ⟨i + 1, by omega, ha, hb, hc⟩
    · rintro ⟨i, hq, ha, hb, hc⟩
      cases i with
      | zero =>
        cases ha
        cases hb
        cases hc
        exact .inl (by rw [hq, Nat.add_zero])
      | succ i => exact .inr ⟨i, by omega, ha, hb, hc⟩
  | case2 p lines hshort =>
    refine iff_of_false List.not_mem_nil ?_
    rintro ⟨i, -, ha, hb, hc⟩
    have hlen := (List.getElem?_eq_some_iff.mp hc).1
    obtain ⟨x, rest, rfl⟩ := List.exists_cons_of_length_pos (Nat.zero_lt_of_lt hlen)
    rw [List.length_cons] at hlen
    obtain ⟨y, rest, rfl⟩ := List.exists_cons_of_length_pos
      (show 0 < rest.length by omega)
    rw [List.length_cons] at hlen
    obtain ⟨z, rest, rfl⟩ := List.exists_cons_of_length_pos
      (show 0 < rest.length by omega)
    exact hshort x y z rest rfl

/-! ## Where the output is right -/

/-- Of the dates in two neighbouring records, none leaves or enters January or February; or the
dates are not successive days, and would not be if these two months had as many days as the numbers
of the months in the records that are number 1 and 2 modulo 3. -/
def Agrees (p : ℕ) (a b c : Line) : Prop :=
  ¬ Crosses a b ∧ ¬ Crosses b c ∨
    ¬ Successive 31 28 a b c ∧ ¬ Successive (inSlot p 1 a b c) (inSlot p 2 a b c) a b c

theorem inSlot_le {r : ℕ} (ha : Valid a) (hb : Valid b) (hc : Valid c) :
    inSlot p r a b c ≤ 12 := by
  unfold inSlot
  split_ifs
  · exact ha.month_le
  · exact hb.month_le
  · exact hc.month_le

theorem agrees_iff (ha : Valid a) (hb : Valid b) (hc : Valid c) :
    Agrees p a b c ↔ looksSuccessive (p, a, b, c) = isSuccessive (p, a, b, c) := by
  have hjan := inSlot_le (p := p) (r := 1) ha hb hc
  have hfeb := inSlot_le (p := p) (r := 2) ha hb hc
  rw [looksSuccessive, isSuccessive, decide_eq_decide, Agrees]
  by_cases hcross : ¬ Crosses a b ∧ ¬ Crosses b c
  · refine iff_of_true (.inl hcross) ?_
    exact and_congr (follows_congr hcross.1 _ _ _ _) (follows_congr hcross.2 _ _ _ _)
  · have hnot : ¬ (Successive 31 28 a b c ∧
        Successive (inSlot p 1 a b c) (inSlot p 2 a b c) a b c) := by
      rintro ⟨⟨hab, hbc⟩, ⟨hab', hbc'⟩⟩
      refine hcross ⟨fun h => ?_, fun h => ?_⟩
      · exact not_follows_both ha hb h hjan hfeb ⟨hab, hab'⟩
      · exact not_follows_both hb hc h hjan hfeb ⟨hbc, hbc'⟩
    rw [or_iff_right hcross]
    tauto

/-- Where the blocks are the same, their windows are. -/
theorem map_snd_eq {ws ws' : List (ℕ × Line × Line × Line)}
    (h : ws.flatMap blockOf = ws'.flatMap blockOf) : ws.map Prod.snd = ws'.map Prod.snd := by
  induction ws generalizing ws' with
  | nil =>
    cases ws' with
    | nil => rfl
    | cons w ws' => cases h
  | cons w ws ih =>
    cases ws' with
    | nil => cases h
    | cons w' ws' =>
      obtain ⟨p, a, b, c⟩ := w
      obtain ⟨p', a', b', c'⟩ := w'
      have hblock : a :: b :: c :: [] :: ws.flatMap blockOf =
          a' :: b' :: c' :: [] :: ws'.flatMap blockOf := h
      simp only [List.cons.injEq, true_and] at hblock
      obtain ⟨rfl, rfl, rfl, hrest⟩ := hblock
      rw [List.map_cons, List.map_cons, ih hrest]

/-- Two selections are the same where one of them goes by what can be seen of the elements. -/
theorem filter_map_eq_iff {α β : Type*} {f g : α → Bool} {k : α → β} {q : β → Bool}
    (hseen : ∀ w, g w = q (k w)) (ws : List α) :
    (ws.filter f).map k = (ws.filter g).map k ↔ ∀ w ∈ ws, f w = g w := by
  constructor
  · intro h
    have himp : ∀ w ∈ ws, f w = true → g w = true := by
      intro w hw hf
      have hmem := List.mem_map_of_mem (f := k) (List.mem_filter.mpr ⟨hw, hf⟩)
      rw [h] at hmem
      obtain ⟨w', hw', hkey⟩ := List.mem_map.mp hmem
      rw [hseen, ← hkey, ← hseen]
      exact (List.mem_filter.mp hw').2
    have hsub : (ws.filter f).Sublist (ws.filter g) := by
      have hboth : (ws.filter g).filter f = ws.filter f := by
        rw [List.filter_filter]
        refine List.filter_congr fun w hw => ?_
        cases hf : f w with
        | false => rfl
        | true => rw [himp w hw hf, Bool.and_self]
      rw [← hboth]
      exact List.filter_sublist
    have hlen := congrArg List.length h
    rw [List.length_map, List.length_map] at hlen
    have heq := hsub.eq_of_length hlen
    intro w hw
    rw [Bool.eq_iff_iff]
    refine ⟨himp w hw, fun hg => ?_⟩
    have hmem := List.mem_filter.mpr ⟨hw, hg⟩
    rw [← heq] at hmem
    exact (List.mem_filter.mp hmem).2
  · intro h
    rw [List.filter_congr h]

/-- The output is what it should be where it is for each three records by themselves. -/
theorem consecutive_iff {lines : List Line} (hvalid : ∀ x ∈ lines, Valid x) :
    consecutive lines = some (expected lines) ↔
      ∀ p a b c, lines[p]? = some a → lines[p + 1]? = some b → lines[p + 2]? = some c →
        Agrees p a b c := by
  have hvalid' {i : ℕ} {x : Line} (hx : lines[i]? = some x) : Valid x :=
    hvalid x (List.mem_of_getElem? hx)
  have hseen (w : ℕ × Line × Line × Line) : isSuccessive w = isSuccessive (0, w.2) := rfl
  have hfilter := filter_map_eq_iff (f := looksSuccessive) (k := Prod.snd)
    (q := fun t => isSuccessive (0, t)) hseen (windows 0 lines)
  rw [consecutive_eq hvalid, expected, Option.some.injEq]
  constructor
  · intro h p a b c ha hb hc
    have hmem : (p, a, b, c) ∈ windows 0 lines :=
      mem_windows.mpr ⟨p, (Nat.zero_add p).symm, ha, hb, hc⟩
    exact (agrees_iff (hvalid' ha) (hvalid' hb) (hvalid' hc)).mpr
      (hfilter.mp (map_snd_eq h) _ hmem)
  · intro h
    rw [List.filter_congr]
    rintro ⟨p, a, b, c⟩ hmem
    obtain ⟨i, hi, ha, hb, hc⟩ := mem_windows.mp hmem
    obtain rfl : p = i := hi.trans (Nat.zero_add i)
    exact (agrees_iff (hvalid' ha) (hvalid' hb) (hvalid' hc)).mp (h p a b c ha hb hc)

instance (line : Line) : Decidable (Valid line) :=
  decidable_of_iff ((number (field line 2) = some (day line) ∧
      number (field line 3) = some (month line)) ∧ 1 ≤ month line ∧ month line ≤ 12 ∧
      1 ≤ day line ∧ day line ≤ monthTable (month line))
    ⟨fun h => ⟨h.1, h.2.1, h.2.2.1, h.2.2.2.1, h.2.2.2.2⟩,
      fun h => ⟨h.isNumber, h.month_pos, h.month_le, h.day_pos, h.day_le⟩⟩

/-- `a 30 06`, `b 01 07` and `c 02 07` -/
def summer : List Line :=
  [[97, 32, 51, 48, 32, 48, 54], [98, 32, 48, 49, 32, 48, 55], [99, 32, 48, 50, 32, 48, 55]]

theorem consecutive_iff_summer : consecutive summer = some (expected summer) := by
  have hvalid : ∀ x ∈ summer, Valid x := by decide
  refine (consecutive_iff hvalid).mpr fun p a b c ha hb hc => .inl ?_
  have hlen : p + 2 < 3 := (List.getElem?_eq_some_iff.mp hc).1
  obtain rfl : p = 0 := by omega
  cases ha
  cases hb
  cases hc
  decide

/-- `a 30 01`, `b 31 01` and `c 01 02` -/
def winter : List Line :=
  [[97, 32, 51, 48, 32, 48, 49], [98, 32, 51, 49, 32, 48, 49], [99, 32, 48, 49, 32, 48, 50]]

/-- Three successive days are missed. -/
theorem consecutive_winter : (∀ x ∈ winter, Valid x) ∧ expected winter = winter ++ [[]] ∧
    consecutive winter = some [] ∧ consecutive winter ≠ some (expected winter) := by
  refine ⟨by decide, by decide, by decide, by decide⟩

end InterviewQuestions.ConsecutiveDates
