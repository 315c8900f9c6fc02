import InterviewQuestions.TopBox.Search
import Mathlib.Data.List.Nodup

/-! The words over the letters of the box. Each letter is found, in whatever way the search got to
the one before it, so that only the size of the buffer matters. -/
namespace InterviewQuestions.TopBox

open Library

variable {word : CString} {box : Box} {base : Cell → Int32} {buff buff' printed : List UInt8}
  {letter : UInt8} {letters : List UInt8} {c d : Cell} {s : State} {i o depth : ℕ}

def alphabet : List UInt8 := (List.range 26).map fun i => UInt8.ofNat (97 + i)

/-- Every letter is in the box once. -/
def Layout (box : Box) : Prop := (cells.map box).Perm alphabet

inductive Action
  | move (m : Move)
  | ok

def Action.text : Action → List UInt8
  | .move m => m.text
  | .ok => okText

/-- What is selected, unless a move leads outside. -/
def execute (box : Box) : List Action → Cell → Option (List UInt8)
  | [], _ => some []
  | .move m :: actions, c => if inside (m.go c) then execute box actions (m.go c) else none
  | .ok :: actions, c => (execute box actions c).map (box c :: ·)

/-- With enough depth, moves are printed that stay in the box and select the word. -/
def Selects (word : CString) (box : Box) (buff : List UInt8) : Prop :=
  ∃ enough, ∀ depth ≥ enough, ∃ s, topBox depth word box buff = some s ∧
    ∃ actions, s.printed = actions.flatMap Action.text ∧
      execute box actions (0, 0) = some word.bytes

/-- There is room for what the search writes from `o` on, for the `OK`, and then for the rest. -/
def LegFits (o : ℕ) (rest : ℕ → Cell → Prop) : Outcome Cell Move → Prop
  | .found t => o + t.reach ≤ 1024 ∧ o + (routeText t.route).length + 4 ≤ 1024 ∧
      rest (o + (routeText t.route).length + 3) t.place
  | _ => False

/-- The letters can be selected one after another, starting from a cell. -/
def FitsFrom (box : Box) : List UInt8 → ℕ → Cell → Prop
  | [], _, _ => True
  | letter :: letters, o, c =>
      LegFits o (FitsFrom box letters) (remote.leave (isLetter box letter) 27 [] c)

/-- No move, and no `OK`, that is noted on the way needs more than the 1024 bytes. The first letter
may be the one in the corner. -/
def Fits (box : Box) : List UInt8 → Prop
  | [] => True
  | letter :: letters =>
      LegFits 0 (FitsFrom box letters) (remote.walk (isLetter box letter) 27 [] (0, 0))

instance decidableLegFits (o : ℕ) (rest : ℕ → Cell → Prop) [∀ o c, Decidable (rest o c)] :
    (outcome : Outcome Cell Move) → Decidable (LegFits o rest outcome)
  | .found _ => inferInstanceAs (Decidable (_ ∧ _ ∧ _))
  | .failed _ _ => .isFalse id
  | .tooDeep => .isFalse id

instance decidableFitsFrom (box : Box) :
    (letters : List UInt8) → (o : ℕ) → (c : Cell) → Decidable (FitsFrom box letters o c)
  | [], _, _ => .isTrue trivial
  | letter :: letters, o, c =>
      have := decidableFitsFrom box letters
      inferInstanceAs (Decidable (LegFits o (FitsFrom box letters)
        (remote.leave (isLetter box letter) 27 [] c)))

instance decidableFits (box : Box) : (letters : List UInt8) → Decidable (Fits box letters)
  | [] => .isTrue trivial
  | letter :: letters =>
      inferInstanceAs (Decidable (LegFits 0 (FitsFrom box letters)
        (remote.walk (isLetter box letter) 27 [] (0, 0))))

/-! ## The letters -/

theorem zero_notMem_alphabet : 0 ∉ alphabet := by decide +kernel

theorem exists_cell (hbox : Layout box) (hletter : letter ∈ alphabet) :
    ∃ d, inside d ∧ box d = letter := by
  obtain ⟨d, hd, heq⟩ := List.mem_map.mp (hbox.mem_iff.mpr hletter)
  exact ⟨d, mem_cells.mp hd, heq⟩

theorem isLetter_eq (hbox : Layout box) (hd : inside d) (heq : box d = letter) (hc : inside c) :
    isLetter box letter c = (c == d) := by
  have hnodup : (cells.map box).Nodup := hbox.nodup_iff.mpr (by decide +kernel)
  apply Bool.eq_iff_iff.mpr
  rw [isLetter, beq_iff_eq, beq_iff_eq, ← heq]
  refine ⟨fun h => ?_, congrArg box⟩
  exact List.inj_on_of_nodup_map hnodup (mem_cells.mpr hc) (mem_cells.mpr hd) h

/-- A letter of the box is found from everywhere, if the depth is enough. -/
theorem leave_letter (hbox : Layout box) (hd : inside d) (heq : box d = letter) (hc : inside c) :
    ∃ t, remote.leave (isLetter box letter) 27 [] c = .found t ∧
      ((next t = none ∧ c = (5, 0)) ∨ ∃ q, next t = some q ∧ Ordinary q d) := by
  rw [Maze.leave_congr fun v => isLetter_eq hbox hd heq]
  exact leave_found hc hd

theorem walk_letter (hbox : Layout box) (hd : inside d) (heq : box d = letter) (hc : inside c) :
    ∃ t, remote.walk (isLetter box letter) 27 [] c = .found t ∧
      (Ordinary c d → ∃ q, next t = some q ∧ Ordinary q d) := by
  rw [Maze.walk_congr fun v => isLetter_eq hbox hd heq]
  exact walk_found hc hd

/-! ## One letter after another -/

/-- Whether there is room decides what comes out, for all depths that are enough. -/
structure Settled (fits : Prop) (run : ℕ → List UInt8 → Option (Bool × State))
    (post : List UInt8 → State → Prop) : Prop where
  success : fits → ∃ enough, ∀ depth ≥ enough, ∀ buff, buff.length = 1024 →
    ∃ s, run depth buff = some (true, s) ∧ post buff s
  failure : ¬ fits → ∀ depth buff, buff.length = 1024 → run depth buff = none

/-- The actions that have been printed behind what was in the buffer before `o`. -/
def Printed (box : Box) (c : Cell) (letters : List UInt8) (o : ℕ) (printed buff : List UInt8)
    (s : State) : Prop :=
  ∃ actions, s.printed = printed ++
      (buff.take o ++ actions.flatMap Action.text).takeWhile (· ≠ 0) ∧
    execute box actions c = some letters

theorem execute_route {route : List Move} (h : remote.Passes route c d) (actions : List Action) :
    execute box (route.map .move ++ actions) c = execute box actions d := by
  induction route generalizing c with
  | nil =>
    have heq : c = d := h
    rw [heq]
    rfl
  | cons m route ih =>
    obtain ⟨hin, hrest⟩ := h
    exact (if_pos hin).trans (ih hrest)

theorem flatMap_route (route : List Move) :
    (route.map Action.move).flatMap Action.text = routeText route := by
  induction route with
  | nil => rfl
  | cons m route ih => exact congrArg (m.text ++ ·) ih

theorem Printed.route {route : List Move} (h : remote.Passes route c d)
    (hbuff : buff'.take (o + (routeText route).length) = buff.take o ++ routeText route)
    (hs : Printed box d letters (o + (routeText route).length) printed buff' s) :
    Printed box c letters o printed buff s := by
  obtain ⟨actions, hprinted, hexecute⟩ := hs
  refine ⟨route.map .move ++ actions, ?_, (execute_route h actions).trans hexecute⟩
  rw [hprinted, hbuff, List.flatMap_append, flatMap_route, List.append_assoc]

theorem Printed.ok (hbuff : buff'.take (o + okText.length) = buff.take o ++ okText)
    (hs : Printed box c letters (o + okText.length) printed buff' s) :
    Printed box c (box c :: letters) o printed buff s := by
  obtain ⟨actions, hprinted, hexecute⟩ := hs
  refine ⟨.ok :: actions, ?_, ?_⟩
  · rw [hprinted, hbuff, List.flatMap_cons, List.append_assoc]
    rfl
  · exact congrArg (Option.map (box c :: ·)) hexecute

theorem takeWhile_append_nul (text rest : List UInt8) :
    (text ++ 0 :: rest).takeWhile (· ≠ 0) = text.takeWhile (· ≠ 0) := by
  induction text with
  | nil => simp
  | cons b text ih =>
    rw [List.cons_append, List.takeWhile_cons, List.takeWhile_cons, ih]

theorem letterAt_of_drop (hword : word.bytes.drop i = letter :: letters) :
    word.bytes[i]? = some letter := by
  have h : (word.bytes.drop i)[0]? = word.bytes[i + 0]? := List.getElem?_drop
  rw [hword] at h
  exact h.symm

/-- After the `OK` the next letter is looked for. -/
theorem select_next {base : Cell → Int32} (hroom : o + okText.length + 1 ≤ buff.length)
    (hletter : word.bytes[i + 1]? = some letter) :
    ∃ b, b.length = buff.length ∧ b.take (o + okText.length) = buff.take o ++ okText ∧
      select word box depth i o c ⟨base, buff, printed⟩ =
        proceed word box depth (i + 1) (o + okText.length) c ⟨base, b, printed⟩ := by
  obtain ⟨rest, hb, hlen⟩ := sprintf_room hroom
  refine ⟨_, hlen, take_written hroom, ?_⟩
  rw [select, hb, Option.bind_some, letterAt_eq hletter, Option.bind_some,
    if_neg (letter_ne_zero hletter)]

/-- The letter at `i` is selected, and the others follow. -/
theorem settled_select {base : Cell → Int32} (hi : i < word.bytes.length)
    (hword : word.bytes.drop (i + 1) = letters)
    (hnext : letters ≠ [] → o + 4 ≤ 1024 →
      Settled (FitsFrom box letters (o + 3) c)
        (fun depth buff => proceed word box depth (i + 1) (o + 3) c ⟨base, buff, printed⟩)
        (Printed box c letters (o + 3) printed)) :
    Settled (o + 4 ≤ 1024 ∧ FitsFrom box letters (o + 3) c)
      (fun depth buff => select word box depth i o c ⟨base, buff, printed⟩)
      (Printed box c (box c :: letters) o printed) := by
  have hok : okText.length = 3 := rfl
  by_cases hroom : o + 4 ≤ 1024
  · cases letters with
    | nil =>
      have hend : i + 1 = word.bytes.length := by
        have := List.drop_eq_nil_iff.mp hword
        omega
      refine ⟨fun _ => ⟨0, fun depth _ buff hbuff => ?_⟩, fun h => absurd ⟨hroom, trivial⟩ h⟩
      obtain ⟨rest, hb, -⟩ := @sprintf_room buff okText o (by omega)
      have hrun : select word box depth i o c ⟨base, buff, printed⟩ =
          some (true, ⟨base, buff.take o ++ okText ++ 0 :: rest,
            printed ++ (buff.take o ++ okText ++ 0 :: rest).takeWhile (· ≠ 0)⟩) := by
        rw [select, hb, Option.bind_some, hend, letterAt_length, Option.bind_some, if_pos rfl]
        rfl
      exact ⟨_, hrun, [.ok], congrArg (printed ++ ·) (takeWhile_append_nul _ rest), rfl⟩
    | cons letter letters =>
      have hletter := letterAt_of_drop hword
      have hrun (depth : ℕ) (buff : List UInt8) (hbuff : buff.length = 1024) :=
        @select_next word box buff printed letter c i o depth base (by omega) hletter
      obtain ⟨hsuccess, hfailure⟩ := hnext (List.cons_ne_nil _ _) hroom
      refine ⟨fun ⟨_, hfits⟩ => ?_, fun h depth buff hbuff => ?_⟩
      · obtain ⟨enough, henough⟩ := hsuccess hfits
        refine ⟨enough, fun depth hdepth buff hbuff => ?_⟩
        obtain ⟨b, hlen, htake, heq⟩ := hrun depth buff hbuff
        obtain ⟨s, hs, hpost⟩ := henough depth hdepth b (hlen.trans hbuff)
        exact ⟨s, heq.trans hs, hpost.ok htake⟩
      · obtain ⟨b, hlen, -, heq⟩ := hrun depth buff hbuff
        exact heq.trans (hfailure (fun hfits => h ⟨hroom, hfits⟩) depth b (hlen.trans hbuff))
  · refine ⟨fun h => absurd h.1 hroom, fun _ depth buff hbuff => ?_⟩
    rw [select, sprintf_full (by dsimp only; omega)]
    rfl

/-- Going to the letter comes before that. -/
theorem settled_leg {base : Cell → Int32} {run : ℕ → List UInt8 → Option (Bool × State)}
    {outcome : ℕ → Outcome Cell Move} {t : Trail Cell Move} {rest : ℕ → Cell → Prop}
    (hdeep : ∀ depth, outcome depth = .tooDeep ∨ outcome depth = .found t)
    (henough : ∀ depth ≥ 27, outcome depth = .found t) (hpasses : remote.Passes t.route c t.place)
    (hsim : ∀ depth buff, buff.length = 1024 → ∃ n, depth ≤ n + 1 ∧
      Simulates word box i o base buff printed n (run depth buff) (outcome depth))
    (hselect : Settled (o + (routeText t.route).length + 4 ≤ 1024 ∧
        rest (o + (routeText t.route).length + 3) t.place)
      (fun depth buff => select word box depth i (o + (routeText t.route).length) t.place
        ⟨painted base i (t.place :: t.seen), buff, printed⟩)
      (Printed box t.place letters (o + (routeText t.route).length) printed)) :
    Settled (LegFits o rest (.found t)) run (Printed box c letters o printed) := by
  refine ⟨fun hfits => ?_, fun hfits depth buff hbuff => ?_⟩
  · obtain ⟨enough, hselect⟩ := hselect.success hfits.2
    refine ⟨27 + t.route.length + enough + 1, fun depth hdepth buff hbuff => ?_⟩
    obtain ⟨n, hn, hsim⟩ := hsim depth buff hbuff
    rw [henough depth (by omega)] at hsim
    obtain ⟨depth', b, hdepth', hlen, htake, hresumes⟩ := hsim.2 (by rw [hbuff]; exact hfits.1)
    obtain ⟨s, hs, hpost⟩ := hselect depth' (by omega) b (hlen.trans hbuff)
    rw [hs] at hresumes
    exact ⟨s, hresumes, hpost.route hpasses htake⟩
  · obtain ⟨n, -, hsim⟩ := hsim depth buff hbuff
    rcases hdeep depth with hdepth | hdepth
    · rw [hdepth] at hsim
      exact hsim
    · rw [hdepth] at hsim
      by_cases hreach : o + t.reach ≤ 1024
      · obtain ⟨depth', b, -, hlen, -, hresumes⟩ := hsim.2 (by rwa [hbuff])
        have hnone := hselect.failure (fun h => hfits ⟨hreach, h⟩) depth' b (hlen.trans hbuff)
        rw [hnone] at hresumes
        exact hresumes
      · exact hsim.1 (by omega)

/-! ## The whole word -/

/-- No cell of the box is marked with the index of a letter from `i` on. -/
def Unmarked (base : Cell → Int32) (i : ℕ) : Prop :=
  ∀ j ≥ i, j < 2 ^ 31 → ∀ c, inside c → base c ≠ Int32.ofNat j

theorem Unmarked.fresh {base : Cell → Int32} (h : Unmarked base i) (hi : i < 2 ^ 31) :
    Fresh base i [] :=
  fun c hc heq => absurd heq (h i (Nat.le_refl i) hi c hc)

theorem Unmarked.painted {base : Cell → Int32} (h : Unmarked base i) (hi : i < 2 ^ 31)
    (seen : List Cell) : Unmarked (painted base i seen) (i + 1) := by
  intro j hj hlt c hc heq
  unfold TopBox.painted at heq
  split at heq
  · have hij : (Int32.ofNat i).toInt % 2 ^ 64 = (Int32.ofNat j).toInt % 2 ^ 64 := by rw [heq]
    rw [toInt_ofNat_emod hi, toInt_ofNat_emod hlt] at hij
    omega
  · exact h j (by omega) hlt c hc heq

theorem painted_nil (base : Cell → Int32) (i : ℕ) : painted base i [] = base := by
  funext c
  exact if_neg List.not_mem_nil

/-- What a search finds does not depend on the depth, if that is enough. -/
theorem found_deep {run : ℕ → Outcome Cell Move} {t : Trail Cell Move}
    (hdeeper : ∀ {d d' : ℕ}, d ≤ d' → run d ≠ .tooDeep → run d' = run d) (h : run 27 = .found t) :
    (∀ depth, run depth = .tooDeep ∨ run depth = .found t) ∧
      ∀ depth ≥ 27, run depth = .found t := by
  have henough : ∀ depth ≥ 27, run depth = .found t := by
    intro depth hdepth
    rw [hdeeper hdepth (by rw [h]; simp), h]
  refine ⟨fun depth => or_iff_not_imp_left.mpr fun hnot => ?_, henough⟩
  rw [← hdeeper (Nat.le_max_left depth 27) hnot]
  exact henough _ (Nat.le_max_right depth 27)

theorem leave_deep {t : Trail Cell Move}
    (h : remote.leave (isLetter box letter) 27 [] c = .found t) :
    (∀ depth, remote.leave (isLetter box letter) depth [] c = .tooDeep ∨
      remote.leave (isLetter box letter) depth [] c = .found t) ∧
    ∀ depth ≥ 27, remote.leave (isLetter box letter) depth [] c = .found t :=
  found_deep Maze.leave_deeper h

/-- The letters from `i` on are selected from a cell, if there is room for them. -/
theorem settled_proceed (hbox : Layout box) {base : Cell → Int32} (hc : inside c)
    (hletters : ∀ l ∈ letters, l ∈ alphabet) (hne : letters ≠ [])
    (hword : word.bytes.drop i = letters) (hbase : Unmarked base i) (hio : 3 * i ≤ o)
    (ho : o ≤ 1024) :
    Settled (FitsFrom box letters o c)
      (fun depth buff => proceed word box depth i o c ⟨base, buff, printed⟩)
      (Printed box c letters o printed) := by
  induction letters generalizing i o c base with
  | nil => exact absurd rfl hne
  | cons letter letters ih =>
    have hi : i < 2 ^ 31 := by omega
    have hat := letterAt_of_drop hword
    obtain ⟨d, hd, heq⟩ := exists_cell hbox (hletters letter List.mem_cons_self)
    obtain ⟨t, ht, -⟩ := leave_letter hbox hd heq hc
    have hfits : FitsFrom box (letter :: letters) o c =
        LegFits o (FitsFrom box letters) (.found t) := by rw [FitsFrom, ht]
    have harrived := Maze.arrived_leave ht
    have hplace : box t.place = letter := beq_iff_eq.mp harrived.target
    obtain ⟨hdeep, henough⟩ := leave_deep ht
    rw [hfits]
    apply settled_leg hdeep henough (Maze.passes_leave ht)
    · intro depth buff hbuff
      refine ⟨depth, Nat.le_succ depth, ?_⟩
      have hsim := @simulates_leave word box base buff printed letter [] i o hi hat depth
        (hbase.fresh hi) (by omega) c
      rwa [painted_nil] at hsim
    · rw [← hplace]
      have hdrop : word.bytes.drop (i + 1) = letters := by
        rw [← List.tail_drop, hword]
        rfl
      apply settled_select (List.getElem?_eq_some_iff.mp hat).1 hdrop
      intro hne hroom
      exact ih (harrived.inside t.place (Set.mem_insert _ _))
        (fun l hl => hletters l (List.mem_cons_of_mem letter hl)) hne hdrop (hbase.painted hi _)
        (by omega) (by omega)

theorem walk_deep {t : Trail Cell Move} (h : remote.walk (isLetter box letter) 27 [] c = .found t) :
    (∀ depth, remote.walk (isLetter box letter) depth [] c = .tooDeep ∨
      remote.walk (isLetter box letter) depth [] c = .found t) ∧
    ∀ depth ≥ 27, remote.walk (isLetter box letter) depth [] c = .found t :=
  found_deep Maze.walk_deeper h

theorem unmarked_start : Unmarked (fun _ => -1) 0 := by
  intro j _ hj c _ heq
  have h : (-1 : Int32).toInt % 2 ^ 64 = (Int32.ofNat j).toInt % 2 ^ 64 := by rw [← heq]
  rw [toInt_ofNat_emod hj] at h
  have hminus : (-1 : Int32).toInt % 2 ^ 64 = 18446744073709551615 := by decide
  omega

theorem inside_corner : inside (0, 0) = true := by decide

theorem settled_topBoxPath (hbox : Layout box) (hletters : ∀ l ∈ word.bytes, l ∈ alphabet)
    (hne : word.bytes ≠ []) :
    Settled (Fits box word.bytes)
      (fun depth buff => topBoxPath word box depth 0 0 (0, 0) ⟨fun _ => -1, buff, []⟩)
      (Printed box (0, 0) word.bytes 0 []) := by
  obtain ⟨letter, letters, hword⟩ := List.exists_cons_of_ne_nil hne
  have hat : word.bytes[0]? = some letter := by rw [hword]; rfl
  obtain ⟨d, hd, heq⟩ := exists_cell hbox (hletters letter (List.mem_of_getElem? hat))
  obtain ⟨t, ht, -⟩ := walk_letter hbox hd heq inside_corner
  have hfits : Fits box (letter :: letters) = LegFits 0 (FitsFrom box letters) (.found t) := by
    rw [Fits, ht]
  have harrived := Maze.arrived_walk ht
  have hplace : box t.place = letter := beq_iff_eq.mp harrived.target
  obtain ⟨hdeep, henough⟩ := walk_deep ht
  rw [hword, hfits]
  apply settled_leg hdeep henough (Maze.passes_walk ht).2
  · intro depth buff hbuff
    refine ⟨depth - 1, by omega, ?_⟩
    have hsim := @simulates_walk word box (fun _ => -1) buff [] letter [] 0 0 (by decide) hat depth
      (unmarked_start.fresh (by decide)) (Nat.zero_le _) (0, 0)
    rwa [painted_nil] at hsim
  · rw [← hplace]
    have hdrop : word.bytes.drop (0 + 1) = letters := by
      rw [hword]
      rfl
    apply settled_select (List.getElem?_eq_some_iff.mp hat).1 hdrop
    intro hne hroom
    apply settled_proceed hbox (harrived.inside t.place (Set.mem_insert _ _)) _ hne hdrop
      (unmarked_start.painted (by decide) _) (by omega) (by omega)
    intro l hl
    exact hletters l (hword ▸ List.mem_cons_of_mem letter hl)

theorem text_ne_zero (actions : List Action) : ∀ b ∈ actions.flatMap Action.text, b ≠ 0 := by
  intro b hb
  obtain ⟨action, -, hb⟩ := List.mem_flatMap.mp hb
  rintro rfl
  revert hb
  cases action with
  | ok => decide
  | move m => cases m <;> decide

theorem topBox_none (h : topBoxPath word box depth 0 0 (0, 0) ⟨fun _ => -1, buff, []⟩ = none) :
    topBox depth word box buff = none :=
  congrArg (Option.map Prod.snd) h

/-- Where there is no room the calls have no result. -/
theorem not_selects (hbox : Layout box) (hletters : ∀ l ∈ word.bytes, l ∈ alphabet)
    (hne : word.bytes ≠ []) (hbuff : buff.length = 1024) (hfits : ¬ Fits box word.bytes) :
    ¬ Selects word box buff := by
  rintro ⟨enough, henough⟩
  obtain ⟨s, hs, -⟩ := henough enough (Nat.le_refl enough)
  have hnone := (settled_topBoxPath hbox hletters hne).failure hfits enough buff hbuff
  cases (topBox_none hnone).symm.trans hs

/-- A word over the letters of the box is selected exactly when the buffer is large enough. -/
theorem selects_iff (hbox : Layout box) (hletters : ∀ l ∈ word.bytes, l ∈ alphabet)
    (hne : word.bytes ≠ []) (hbuff : buff.length = 1024) :
    Selects word box buff ↔ Fits box word.bytes := by
  constructor
  · intro hselects
    by_contra hfits
    exact not_selects hbox hletters hne hbuff hfits hselects
  · intro hfits
    obtain ⟨enough, henough⟩ := (settled_topBoxPath hbox hletters hne).success hfits
    refine ⟨enough, fun depth hdepth => ?_⟩
    obtain ⟨s, hs, actions, hprinted, hexecute⟩ := henough depth hdepth buff hbuff
    refine ⟨s, congrArg (Option.map Prod.snd) hs, actions, ?_, hexecute⟩
    rw [hprinted, List.takeWhile_eq_self_iff.mpr]
    · rfl
    · intro b hb
      exact decide_eq_true (text_ne_zero actions b hb)

/-- The letters in the order of the alphabet, row after row. -/
def standardBox : Box := fun c => UInt8.ofNat (97 + (5 * c.1 + c.2).toNat)

theorem layout_standardBox : Layout standardBox := by
  unfold Layout
  decide +kernel

theorem selects_iff_con : Layout standardBox ∧
    (Selects ⟨[99, 111, 110], by decide⟩ standardBox (List.replicate 1024 0) ↔
      Fits standardBox [99, 111, 110]) :=
  ⟨layout_standardBox, selects_iff layout_standardBox (by decide +kernel) (by simp)
    List.length_replicate⟩

example : Fits standardBox [99, 111, 110] := by decide +kernel

theorem fits_not_alphabet : ¬ Fits standardBox alphabet := by
  decide +kernel

/-- The buffer is too small for the alphabet itself. -/
theorem not_selects_alphabet :
    ¬ Selects ⟨alphabet, zero_notMem_alphabet⟩ standardBox (List.replicate 1024 0) :=
  not_selects layout_standardBox (fun _ hl => hl) (by simp [alphabet]) List.length_replicate
    fits_not_alphabet

end InterviewQuestions.TopBox
