import InterviewQuestions.TopBox.Words
import Mathlib.Data.Nat.Find

/-! Words with characters that are not in the box. The search for the letter before such a character
is made again and again: each failure has marked all cells anew, so that they count as not seen. -/
namespace InterviewQuestions.TopBox

open Library

variable {word : CString} {box : Box} {v v' : Cell → Int32} {buff b printed : List UInt8}
  {letter : UInt8} {c d q u : Cell} {seen : List Cell} {t : Trail Cell Move} {s : State}
  {e i o depth : ℕ} {inner result : Option (Bool × State)}

theorem reversible_remote : remote.Reversible := by
  intro m _ c
  obtain ⟨x, y⟩ := c
  cases m with
  | left => exact ⟨.right, by decide, Prod.ext rfl (Int.sub_add_cancel y 1)⟩
  | right => exact ⟨.left, by decide, Prod.ext rfl (Int.add_sub_cancel y 1)⟩
  | up => exact ⟨.down, by decide, Prod.ext (Int.sub_add_cancel x 1) rfl⟩
  | down => exact ⟨.up, by decide, Prod.ext (Int.add_sub_cancel x 1) rfl⟩

/-- The cells that do not have the mark `e`. -/
def Unclaimed (v : Cell → Int32) (e : ℕ) : Set Cell := {c | inside c ∧ v c ≠ Int32.ofNat e}

def Claimed (v : Cell → Int32) (e : ℕ) : Prop := ∀ c, inside c → v c = Int32.ofNat e

/-- The calls have come back and left the mark `e` everywhere, or they have no result. -/
def ComesBack (e : ℕ) (result : Option (Bool × State)) : Prop :=
  result = none ∨ ∃ s, result = some (false, s) ∧ s.outBuff.length = 1024 ∧ Claimed s.visited e

/-- The marks before the letter at `i` is looked for from a cell. -/
structure Ready (v : Cell → Int32) (e i : ℕ) (c : Cell) : Prop where
  mem : c ∈ Unclaimed v e
  connected : remote.Connected (Unclaimed v e)
  other : ∃ u ∈ Unclaimed v e, u ≠ c
  clear : ∀ j ≥ i, j < e → ∀ c, inside c → v c ≠ Int32.ofNat j

theorem ofNat_ne {i j : ℕ} (hi : i < 2 ^ 31) (hj : j < 2 ^ 31) (hij : i ≠ j) :
    Int32.ofNat i ≠ Int32.ofNat j := by
  intro heq
  have h : (Int32.ofNat i).toInt % 2 ^ 64 = (Int32.ofNat j).toInt % 2 ^ 64 := by rw [heq]
  rw [toInt_ofNat_emod hi, toInt_ofNat_emod hj] at h
  omega

theorem proceed_full (ho : buff.length ≤ o) :
    proceed word box depth i o c ⟨v, buff, printed⟩ = none := by
  rw [proceed, moves, tries_cons, tryMove, sprintf_full (by dsimp only; omega)]
  rfl

/-- In the end a character is looked for that is not in the box. -/
theorem comesBack_end (hbox : Layout box) (hletter : word.bytes[e]? = some letter)
    (hnot : letter ∉ alphabet) (he : e < 2 ^ 31) (hready : Ready v e e c) (ho : o ≤ buff.length)
    (hbuff : buff.length = 1024) :
    ComesBack e (proceed word box depth e o c ⟨v, buff, printed⟩) := by
  let seen := cells.filter fun c => v c = Int32.ofNat e
  have hseen (c : Cell) : c ∈ seen ↔ inside c ∧ v c = Int32.ofNat e := by
    simp only [seen, List.mem_filter, mem_cells, decide_eq_true_eq]
  have hpainted : painted v e seen = v := by
    funext c
    unfold painted
    split
    · next hmem => exact ((hseen c).mp hmem).2.symm
    · rfl
  have hsim := @simulates_leave word box v buff printed letter seen e o he hletter depth
    (fun c hc heq => (hseen c).mpr ⟨hc, heq⟩) ho c
  rw [hpainted] at hsim
  cases hleave : remote.leave (isLetter box letter) depth seen c with
  | tooDeep =>
    rw [hleave] at hsim
    exact .inl hsim
  | found t =>
    have harrived := Maze.arrived_leave hleave
    have hplace : box t.place = letter := beq_iff_eq.mp harrived.target
    have hin := harrived.inside t.place (Set.mem_insert _ _)
    exact absurd (hplace ▸ hbox.mem_iff.mp (List.mem_map_of_mem (mem_cells.mpr hin))) hnot
  | failed seen' reach =>
    rw [hleave] at hsim
    by_cases hreach : o + reach ≤ buff.length
    · obtain ⟨b, hkept, hresult⟩ := hsim.2 hreach
      refine .inr ⟨_, hresult, hkept.1.trans hbuff, fun u hu => ?_⟩
      obtain ⟨other, hother, hne⟩ := hready.other
      by_cases hmem : u ∈ seen'
      · exact if_pos hmem
      · have hopen : u ∈ Unclaimed v e := by
          refine ⟨hu, fun heq => hmem ?_⟩
          exact (Maze.searched_leave hleave).mono u ((hseen u).mpr ⟨hu, heq⟩)
        refine absurd ((Maze.searched_leave hleave).mem_of_connected hready.connected
          (fun u hu => hu.1) (fun u hu hmem => ?_) hready.mem hother hne hopen) hmem
        exact hu.2 ((hseen u).mp hmem).2
    · exact .inl (hsim.1 (by omega))

/-! ## The marks when the letter has been found -/

theorem mem_unclaimed_painted (hi : i < e) (he : e < 2 ^ 31) :
    c ∈ Unclaimed (painted v i seen) e ↔ inside c ∧ (c ∈ seen ∨ c ∈ Unclaimed v e) := by
  unfold Unclaimed painted
  by_cases hmem : c ∈ seen
  · simp only [Set.mem_ofPred_eq, hmem, if_true, true_or, and_true, and_iff_left_iff_imp]
    exact fun _ => ofNat_ne (hi.trans he) he (Nat.ne_of_lt hi)
  · simp only [Set.mem_ofPred_eq, hmem, if_false, false_or]
    exact ⟨fun h => ⟨h.1, h⟩, fun h => h.2⟩

theorem mem_region (t : Trail Cell Move) :
    c ∈ Maze.region [] t ↔ c ∈ t.place :: t.seen := by
  simp [Maze.region, Maze.added]

theorem clear_painted (hi : i < e) (he : e < 2 ^ 31)
    (hclear : ∀ j ≥ i, j < e → ∀ c, inside c → v c ≠ Int32.ofNat j) :
    ∀ j ≥ i + 1, j < e → ∀ c, inside c → painted v i seen c ≠ Int32.ofNat j := by
  intro j hj hje c hc
  unfold painted
  split
  · exact ofNat_ne (hi.trans he) (hje.trans he) (by omega)
  · exact hclear j (by omega) hje c hc

/-- The next letter is looked for from where the last one has been found. -/
theorem Ready.leave {target : Cell → Bool} (h : Ready v e i c) (hi : i < e) (he : e < 2 ^ 31)
    (ht : remote.leave target depth [] c = .found t) :
    Ready (painted v i (t.place :: t.seen)) e (i + 1) t.place := by
  have harrived := Maze.arrived_leave ht
  have hzone : Unclaimed (painted v i (t.place :: t.seen)) e =
      Unclaimed v e ∪ Maze.region [] t := by
    ext u
    rw [mem_unclaimed_painted hi he, Set.mem_union, mem_region, or_comm (a := u ∈ Unclaimed v e)]
    refine and_iff_right_of_imp fun hu => ?_
    exact hu.elim (fun hu => harrived.inside u ((mem_region t).mpr hu)) (fun hu => hu.1)
  refine ⟨?_, ?_, ?_, clear_painted hi he h.clear⟩
  · rw [hzone]
    exact .inr (Set.mem_insert _ _)
  · rw [hzone]
    exact h.connected.union reversible_remote h.mem harrived.linked
  · rw [hzone]
    by_cases hc : c = t.place
    · obtain ⟨u, hu, hne⟩ := h.other
      exact ⟨u, .inl hu, hc ▸ hne⟩
    · exact ⟨c, .inl h.mem, hc⟩

/-- The same, after all cells had the mark of the end. -/
theorem Claimed.walk {target : Cell → Bool} (h : Claimed v e) (hi : i < e) (he : e < 2 ^ 31)
    (ht : remote.walk target depth [] q = .found t) (hne : q ≠ t.place) :
    Ready (painted v i (t.place :: t.seen)) e (i + 1) t.place := by
  have harrived := Maze.arrived_walk ht
  have hzone : Unclaimed (painted v i (t.place :: t.seen)) e = Maze.region [] t := by
    ext u
    rw [mem_unclaimed_painted hi he, mem_region]
    constructor
    · rintro ⟨hin, hu | hu⟩
      · exact hu
      · exact absurd (h u hin) hu.2
    · exact fun hu => ⟨harrived.inside u ((mem_region t).mpr hu), .inl hu⟩
  have hq : q ∈ Maze.region [] t := by
    obtain ⟨u, rfl, hu, -⟩ := harrived.linked t.place (Set.mem_insert _ _)
    exact hu
  refine ⟨?_, ?_, ?_, clear_painted hi he fun j _ hj c hc => ?_⟩
  · rw [hzone]
    exact Set.mem_insert _ _
  · rw [hzone]
    exact harrived.linked.connected reversible_remote hq
  · rw [hzone]
    exact ⟨q, hq, hne⟩
  · rw [h c hc]
    exact ofNat_ne he (hj.trans he) (Nat.ne_of_gt hj)

theorem connected_inside : remote.Connected {c | inside c} := by
  apply Maze.connected_of_linked reversible_remote inside_corner
  intro d hd
  obtain ⟨t, ht, -⟩ := walk_found inside_corner hd
  have harrived := Maze.arrived_walk ht
  obtain ⟨u, rfl, -, hlinked⟩ := harrived.linked t.place (Set.mem_insert _ _)
  have hplace : t.place = d := beq_iff_eq.mp harrived.target
  rw [← hplace]
  exact hlinked.mono harrived.inside

/-- At the beginning no cell has the mark of the end. -/
theorem ready_start (he : e < 2 ^ 31) (he' : 1 ≤ e) (hc : inside c) (seen : List Cell) :
    Ready (painted (fun _ => -1) 0 seen) e 1 c := by
  have hunmarked : Unmarked (painted (fun _ => -1) 0 seen) 1 :=
    unmarked_start.painted (by decide) seen
  have hzone : Unclaimed (painted (fun _ => -1) 0 seen) e = {c | inside c} := by
    ext u
    exact and_iff_left_of_imp fun hu => hunmarked e he' he u hu
  refine ⟨⟨hc, hunmarked e he' he c hc⟩, ?_, ?_, fun j hj hje => hunmarked j hj (hje.trans he)⟩
  · rw [hzone]
    exact connected_inside
  · rw [hzone]
    by_cases hcorner : c = (0, 0)
    · exact ⟨(0, 1), by decide, by rw [hcorner]; decide⟩
    · exact ⟨(0, 0), by decide, Ne.symm hcorner⟩

/-! ## Searching again -/

/-- The letters before the end are in the box, and from the end on the calls come back. -/
structure Doomed (word : CString) (box : Box) (e : ℕ) : Prop where
  small : e ≤ 342
  letters : ∀ i < e, ∃ letter, word.bytes[i]? = some letter ∧ letter ∈ alphabet
  letter : ∃ letter, word.bytes[e]? = some letter
  ends : ∀ depth o c v buff printed, Ready v e e c → 3 * e ≤ o → buff.length = 1024 →
    ComesBack e (proceed word box depth e o c ⟨v, buff, printed⟩)

/-- What a search from `i` on does when the letter at `i` has been found. -/
def SelectComesBack (word : CString) (box : Box) (e i : ℕ) (d : Cell) : Prop :=
  ∀ depth o v buff printed, Ready v e (i + 1) d → 3 * i ≤ o → buff.length = 1024 →
    ComesBack e (select word box depth i o d ⟨v, buff, printed⟩)

/-- A search that has failed goes on, and meets the same situation again. -/
theorem resumes_none_of_comesBack (hinner : ComesBack e inner)
    (hresumes : Resumes word box depth i o t.later inner result) (hnext : next t = some q)
    (hagain : ∀ d ≤ depth, ∀ o' ≥ o, ∀ v b printed, Claimed v e → b.length = 1024 →
      topBoxPath word box d i o' q ⟨v, b, printed⟩ = none) : result = none := by
  rcases hinner with rfl | ⟨s, rfl, hlen, hclaimed⟩
  · exact hresumes
  · exact (resumes_next hnext).mp hresumes fun d hd o' ho' b hb =>
      hagain d hd o' ho' _ b _ hclaimed (hb.trans hlen)

theorem ComesBack.resumes (hinner : ComesBack e inner)
    (hresumes : Resumes word box depth i o t.later inner result) (hnext : next t = none) :
    ComesBack e result := by
  rcases hinner with rfl | ⟨s, rfl, hlen, hclaimed⟩
  · exact .inl hresumes
  · rcases (resumes_last hnext).mp hresumes with hnone | ⟨b, hb, hresult⟩
    · exact .inl hnone
    · exact .inr ⟨_, hresult, hb.trans hlen, hclaimed⟩

theorem eq_of_isLetter (hbox : Layout box) (hd : inside d) (heq : box d = letter) (hc : inside c)
    (h : isLetter box letter c = true) : c = d := by
  rw [isLetter_eq hbox hd heq hc] at h
  exact beq_iff_eq.mp h

/-- The search finds the letter and fails after that, and from the cell that comes next it has no
result. -/
theorem topBoxPath_none (hbox : Layout box) (hi : i < 2 ^ 31)
    (hletter : word.bytes[i]? = some letter) (hd : inside d) (heq : box d = letter)
    (hselect : SelectComesBack word box e i d) (hfresh : Fresh v i []) (hq : inside q)
    (hord : Ordinary q d) (hroom : o ≤ 1024) (ho : 3 * i ≤ o) (hbuff : buff.length = 1024)
    (hready : ∀ t, remote.walk (isLetter box letter) 27 [] q = .found t → t.place = d →
      Ready (painted v i (d :: t.seen)) e (i + 1) d)
    (hagain : ∀ n < depth, ∀ o' ≥ o, ∀ q v b printed, inside q → Ordinary q d → Claimed v e →
      b.length = 1024 → topBoxPath word box n i o' q ⟨v, b, printed⟩ = none) :
    topBoxPath word box depth i o q ⟨v, buff, printed⟩ = none := by
  obtain ⟨t, ht, hnext⟩ := walk_letter hbox hd heq hq
  obtain ⟨q', hnext, hord'⟩ := hnext hord
  have harrived := Maze.arrived_walk ht
  have hplace : t.place = d :=
    eq_of_isLetter hbox hd heq (harrived.inside _ (Set.mem_insert _ _)) harrived.target
  have hsim := @simulates_walk word box v buff printed letter [] i o hi hletter depth hfresh
    (by omega) q
  rw [painted_nil] at hsim
  rcases (walk_deep ht).1 depth with hdepth | hdepth
  · rw [hdepth] at hsim
    exact hsim
  · rw [hdepth] at hsim
    by_cases hreach : o + t.reach ≤ buff.length
    · obtain ⟨depth', b, -, hlen, -, hresumes⟩ := hsim.2 hreach
      rw [hplace] at hresumes
      have hback := hselect depth' (o + (routeText t.route).length) _ b printed
        (hready t ht hplace) (by omega) (hlen.trans hbuff)
      have hpos : 0 < depth := by
        apply Nat.pos_of_ne_zero
        rintro rfl
        cases hdepth
      exact resumes_none_of_comesBack hback hresumes hnext fun n hn o' ho' v' b' printed' =>
        hagain n (by omega) o' ho' q' v' b' printed' (List.find?_some hnext) hord'
    · exact hsim.1 (by omega)

/-- From no cell but those at the bottom is the search for a letter ever over. -/
theorem topBoxPath_endless (hbox : Layout box) (hi : i < e) (he : e < 2 ^ 31)
    (hletter : word.bytes[i]? = some letter) (hd : inside d) (heq : box d = letter)
    (hselect : SelectComesBack word box e i d) (hv : Claimed v e) (hq : inside q)
    (hord : Ordinary q d) (ho : 3 * i ≤ o) (hbuff : buff.length = 1024) :
    topBoxPath word box depth i o q ⟨v, buff, printed⟩ = none := by
  induction depth using Nat.strong_induction_on generalizing q o v buff printed with
  | h depth ih =>
    have hfresh : Fresh v i [] := fun c hc hmark =>
      absurd ((hv c hc).symm.trans hmark) (ofNat_ne he (hi.trans he) (Nat.ne_of_gt hi))
    by_cases hroom : o ≤ 1024
    · apply topBoxPath_none hbox (hi.trans he) hletter hd heq hselect hfresh hq hord hroom ho hbuff
      · intro t ht hplace
        have hready := hv.walk hi he ht (hplace ▸ hord.1)
        rwa [hplace] at hready
      · intro n hn o' ho' q' v' b' printed' hq' hord' hv' hb'
        exact ih n hn hv' hq' hord' (ho.trans ho') hb'
    · cases depth with
      | zero => rfl
      | succ depth =>
        have hcell : box q ≠ letter := fun h =>
          hord.1 (eq_of_isLetter hbox hd heq hq (beq_iff_eq.mpr h))
        rw [← painted_nil v i, topBoxPath_other (hi.trans he) hfresh hq List.not_mem_nil hletter
          hcell]
        exact proceed_full (by omega)

theorem Doomed.letterAt (h : Doomed word box e) (hi : i ≤ e) :
    ∃ letter, word.bytes[i]? = some letter := by
  rcases Nat.lt_or_eq_of_le hi with hlt | rfl
  · obtain ⟨letter, hletter, -⟩ := h.letters i hlt
    exact ⟨letter, hletter⟩
  · exact h.letter

theorem selectComesBack (h : Doomed word box e) (hi : i < e)
    (hproceed : ∀ depth o v buff printed, Ready v e (i + 1) d → 3 * (i + 1) ≤ o →
      buff.length = 1024 →
        ComesBack e (proceed word box depth (i + 1) o d ⟨v, buff, printed⟩)) :
    SelectComesBack word box e i d := by
  intro depth o v buff printed hready ho hbuff
  have hok : okText.length = 3 := rfl
  by_cases hroom : o + okText.length + 1 ≤ buff.length
  · obtain ⟨letter, hletter⟩ := h.letterAt hi
    obtain ⟨b, hlen, -, heq⟩ := select_next hroom hletter
    rw [heq]
    exact hproceed depth _ v b printed hready (by omega) (hlen.trans hbuff)
  · rw [select, sprintf_full (by dsimp only; omega)]
    exact .inl rfl

/-- Before the end, too, the calls come back or have no result; and only from the corner at the
bottom may they come back. -/
theorem comesBack_proceed (hbox : Layout box) (h : Doomed word box e) (hi : i ≤ e)
    (hready : Ready v e i c) (ho : 3 * i ≤ o) (hbuff : buff.length = 1024) :
    ComesBack e (proceed word box depth i o c ⟨v, buff, printed⟩) ∧
      (i < e → c ≠ (5, 0) → proceed word box depth i o c ⟨v, buff, printed⟩ = none) := by
  obtain ⟨n, hn⟩ := Nat.exists_eq_add_of_le hi
  induction n generalizing i c o v buff printed depth with
  | zero =>
    obtain rfl : e = i := hn
    exact ⟨h.ends depth o c v buff printed hready ho hbuff, fun hlt => absurd hlt (by omega)⟩
  | succ n ih =>
    have hlt : i < e := by omega
    have he : e < 2 ^ 31 := by
      have := h.small
      omega
    by_cases hroom : o ≤ buff.length
    · obtain ⟨letter, hletter, hmem⟩ := h.letters i hlt
      obtain ⟨d, hd, heq⟩ := exists_cell hbox hmem
      obtain ⟨t, ht, hnext⟩ := leave_letter hbox hd heq hready.mem.1
      have hselect : SelectComesBack word box e i d :=
        selectComesBack h hlt fun depth o v buff printed hready ho hbuff =>
          (ih hlt hready ho hbuff (by omega)).1
      have harrived := Maze.arrived_leave ht
      have hplace : t.place = d :=
        eq_of_isLetter hbox hd heq (harrived.inside _ (Set.mem_insert _ _)) harrived.target
      have hfresh : Fresh v i [] := fun c hc hmark =>
        absurd hmark (hready.clear i (Nat.le_refl i) hlt c hc)
      have hsim := @simulates_leave word box v buff printed letter [] i o (hlt.trans he) hletter
        depth hfresh hroom c
      rw [painted_nil] at hsim
      rcases (leave_deep ht).1 depth with hdepth | hdepth
      · rw [hdepth] at hsim
        have hnone : proceed word box depth i o c ⟨v, buff, printed⟩ = none := hsim
        exact ⟨.inl hnone, fun _ _ => hnone⟩
      · rw [hdepth] at hsim
        by_cases hreach : o + t.reach ≤ buff.length
        · obtain ⟨depth', b, -, hlen, -, hresumes⟩ := hsim.2 hreach
          have hback := hselect depth' (o + (routeText t.route).length) _ b printed
            (hplace ▸ hready.leave hlt he ht) (by omega) (hlen.trans hbuff)
          rw [← hplace] at hback
          rcases hnext with ⟨hnone, hcorner⟩ | ⟨q, hq, hord⟩
          · exact ⟨hback.resumes hresumes hnone, fun _ hc => absurd hcorner hc⟩
          · have hnone := resumes_none_of_comesBack hback hresumes hq
              fun n _ o' ho' v' b' printed' hv' hb' =>
                topBoxPath_endless hbox hlt he hletter hd heq hselect hv' (List.find?_some hq) hord
                  (by omega) hb'
            exact ⟨.inl hnone, fun _ _ => hnone⟩
        · have hnone := hsim.1 (by omega)
          exact ⟨.inl hnone, fun _ _ => hnone⟩
    · have hnone : proceed word box depth i o c ⟨v, buff, printed⟩ = none := proceed_full (by omega)
      exact ⟨.inl hnone, fun _ _ => hnone⟩

/-! ## All words -/

/-- With enough depth there is a result. -/
def Terminates (word : CString) (box : Box) (buff : List UInt8) : Prop :=
  ∃ depth s, topBox depth word box buff = some s

/-- Either there are letters of the box only, and the buffer is large enough; or the first character
is not in the box; or the first is in the corner, and the second is not in the box. -/
def Ends (word : CString) (box : Box) : Prop :=
  ((∀ l ∈ word.bytes, l ∈ alphabet) ∧ Fits box word.bytes) ∨
    (∃ first rest, word.bytes = first :: rest ∧ first ∉ alphabet) ∨
    ∃ second rest, word.bytes = box (0, 0) :: second :: rest ∧ second ∉ alphabet

/-- What a search costs that finds nothing. -/
def failsWithin (room : ℕ) : Outcome Cell Move → Bool
  | .failed _ reach => reach ≤ room
  | _ => false

theorem not_isLetter (hbox : Layout box) (hnot : letter ∉ alphabet) (hc : inside c) :
    isLetter box letter c = false := by
  refine beq_eq_false_iff_ne.mpr fun heq => hnot ?_
  rw [← heq]
  exact hbox.mem_iff.mp (List.mem_map_of_mem (mem_cells.mpr hc))

set_option maxRecDepth 10000 in
theorem walk_fails : failsWithin 1024 (remote.walk (fun _ => false) 27 [] (0, 0)) := by
  decide +kernel

set_option maxRecDepth 10000 in
theorem leave_fails : failsWithin 1021 (remote.leave (fun _ => false) 27 [] (0, 0)) := by
  decide +kernel

theorem Simulates.fails {room : ℕ} {outcome : Outcome Cell Move}
    (h : Simulates word box i o v buff printed depth result outcome)
    (hfails : failsWithin room outcome) (hroom : o + room ≤ buff.length) :
    ∃ s, result = some (false, s) := by
  cases outcome with
  | failed seen reach =>
    have hreach : reach ≤ room := of_decide_eq_true hfails
    obtain ⟨b, -, hresult⟩ := h.2 (by omega)
    exact ⟨_, hresult⟩
  | tooDeep | found t => cases hfails

theorem terminates_of_eq {found : Bool}
    (h : topBoxPath word box depth 0 0 (0, 0) ⟨fun _ => -1, buff, []⟩ = some (found, s)) :
    Terminates word box buff :=
  ⟨depth, s, congrArg (Option.map Prod.snd) h⟩

theorem terminates_empty (hbox : Layout box) (hword : word.bytes = []) :
    Terminates word box buff := by
  have hcorner : box (0, 0) ≠ 0 := fun heq =>
    zero_notMem_alphabet (heq ▸ hbox.mem_iff.mp (List.mem_map_of_mem (mem_cells.mpr inside_corner)))
  have hletter : letterAt word 0 = some 0 := by
    rw [letterAt, hword]
    rfl
  have hnot : ¬ (inside (0, 0) = false ∨ isVisited ⟨fun _ => -1, buff, []⟩ (0, 0) 0) := by
    simp only [isVisited]
    decide
  apply @terminates_of_eq word box buff _ 1 true
  rw [topBoxPath, if_neg hnot]
  unfold selectLetter
  dsimp only
  rw [hletter, Option.bind_some, if_neg hcorner, Option.bind_some]
  dsimp only
  rw [hletter, Option.bind_some, if_pos rfl]

/-- The whole box is searched, and that is all. -/
theorem terminates_first (hbox : Layout box) (hletter : word.bytes[0]? = some letter)
    (hnot : letter ∉ alphabet) (hbuff : buff.length = 1024) : Terminates word box buff := by
  have hsim := @simulates_walk word box (fun _ => -1) buff [] letter [] 0 0 (by decide) hletter 27
    (unmarked_start.fresh (by decide)) (Nat.zero_le _) (0, 0)
  rw [painted_nil, Maze.walk_congr fun c hc => not_isLetter hbox hnot hc] at hsim
  obtain ⟨s, hs⟩ := hsim.fails walk_fails (by omega)
  exact terminates_of_eq hs

/-- Where the first letter is in the corner, the second is looked for from there. -/
theorem topBoxPath_corner (hcorner : word.bytes[0]? = some (box (0, 0)))
    (hletter : word.bytes[1]? = some letter) (hbuff : buff.length = 1024) (depth : ℕ) :
    ∃ b, b.length = 1024 ∧ topBoxPath word box (depth + 1) 0 0 (0, 0) ⟨fun _ => -1, buff, []⟩ =
      proceed word box depth 1 3 (0, 0) ⟨painted (fun _ => -1) 0 [(0, 0)], b, []⟩ := by
  have hok : okText.length = 3 := rfl
  have hpath := @topBoxPath_letter word box (fun _ => -1) buff [] (box (0, 0)) (0, 0) [] 0
    (by decide) (unmarked_start.fresh (by decide)) inside_corner List.not_mem_nil hcorner rfl
    depth 0
  rw [painted_nil] at hpath
  obtain ⟨b, hlen, -, hselect⟩ := @select_next word box buff [] letter (0, 0) 0 0 depth
    (painted (fun _ => -1) 0 [(0, 0)]) (by omega) hletter
  exact ⟨b, hlen.trans hbuff, hpath.trans hselect⟩

/-- The search for the second character is over with the calls that are made from the corner. -/
theorem terminates_second (hbox : Layout box) (hcorner : word.bytes[0]? = some (box (0, 0)))
    (hletter : word.bytes[1]? = some letter) (hnot : letter ∉ alphabet)
    (hbuff : buff.length = 1024) : Terminates word box buff := by
  have hbase := unmarked_start.painted (by decide) [(0, 0)]
  obtain ⟨b, hlen, hpath⟩ := topBoxPath_corner hcorner hletter hbuff 27
  have hsim := @simulates_leave word box (painted (fun _ => -1) 0 [(0, 0)]) b [] letter [] 1 3
    (by decide) hletter 27 (hbase.fresh (by decide)) (by omega) (0, 0)
  rw [painted_nil, Maze.leave_congr fun c hc => not_isLetter hbox hnot hc] at hsim
  obtain ⟨s, hs⟩ := hsim.fails leave_fails (by omega)
  exact terminates_of_eq (hpath.trans hs)

/-- There is a first character that is not in the box. -/
theorem exists_first (h : ¬ ∀ l ∈ word.bytes, l ∈ alphabet) :
    ∃ (k : ℕ) (letter : UInt8), word.bytes[k]? = some letter ∧ letter ∉ alphabet ∧
      ∀ i < k, ∃ letter, word.bytes[i]? = some letter ∧ letter ∈ alphabet := by
  classical
  have hex : ∃ k : ℕ, ∃ letter ∉ alphabet, word.bytes[k]? = some letter := by
    push Not at h
    obtain ⟨l, hl, hnot⟩ := h
    obtain ⟨k, hk⟩ := List.mem_iff_getElem?.mp hl
    exact ⟨k, l, hnot, hk⟩
  obtain ⟨letter, hnot, hletter⟩ := Nat.find_spec hex
  refine ⟨Nat.find hex, letter, hletter, hnot, fun i hi => ?_⟩
  have hlen : i < word.bytes.length := hi.trans (List.getElem?_eq_some_iff.mp hletter).1
  refine ⟨word.bytes[i], List.getElem?_eq_getElem hlen, ?_⟩
  by_contra hmem
  exact Nat.find_min hex hi ⟨_, hmem, List.getElem?_eq_getElem hlen⟩

theorem eq_cons {letters : List UInt8} (h : letters[0]? = some letter) :
    letters = letter :: letters.tail := by
  cases letters with
  | nil => cases h
  | cons l letters => rw [Option.some.inj h, List.tail_cons]

/-- Where the buffer is not written past its end before, the search for the character that is not in
the box comes back again and again. -/
theorem doomed_min {k : ℕ} (hbox : Layout box) (hletter : word.bytes[k]? = some letter)
    (hnot : letter ∉ alphabet)
    (hfront : ∀ i < k, ∃ letter, word.bytes[i]? = some letter ∧ letter ∈ alphabet) :
    Doomed word box (min k 342) where
  small := Nat.min_le_right k 342
  letters i hi := hfront i (hi.trans_le (Nat.min_le_left k 342))
  letter := by
    rcases Nat.lt_or_eq_of_le (Nat.min_le_left k 342) with hlt | heq
    · obtain ⟨letter, hletter, -⟩ := hfront _ hlt
      exact ⟨letter, hletter⟩
    · exact ⟨letter, heq.symm ▸ hletter⟩
  ends depth o c v buff printed hready ho hbuff := by
    by_cases hroom : o ≤ buff.length
    · have hk : min k 342 = k := by omega
      rw [hk] at hready ⊢
      exact comesBack_end hbox hletter hnot (by omega) hready hroom hbuff
    · exact .inl (proceed_full (by omega))

/-- The letters before the first character that is not in the box are found, but only one of them
may be there, in the corner. -/
theorem not_terminates (hbox : Layout box) (h : Doomed word box e) (he : 1 ≤ e)
    (hcorner : e = 1 → word.bytes[0]? ≠ some (box (0, 0))) (hbuff : buff.length = 1024) :
    ¬ Terminates word box buff := by
  rintro ⟨depth, s, hs⟩
  obtain ⟨first, hfirst, hmem⟩ := h.letters 0 he
  obtain ⟨d, hd, heq⟩ := exists_cell hbox hmem
  have hlt : e < 2 ^ 31 := by
    have := h.small
    omega
  have hselect : SelectComesBack word box e 0 d :=
    selectComesBack h he fun depth o v buff printed hready ho hbuff =>
      (comesBack_proceed hbox h he hready ho hbuff).1
  have hnone : topBoxPath word box depth 0 0 (0, 0) ⟨fun _ => -1, buff, []⟩ = none := by
    by_cases hd0 : (0, 0) = d
    · subst hd0
      rw [← heq] at hfirst
      have he' : 1 < e := by
        refine Nat.lt_of_le_of_ne he fun h1 => hcorner h1.symm hfirst
      obtain ⟨second, hsecond, -⟩ := h.letters 1 he'
      cases depth with
      | zero => rfl
      | succ depth =>
        obtain ⟨b, hlen, hpath⟩ := topBoxPath_corner hfirst hsecond hbuff depth
        rw [hpath]
        exact (comesBack_proceed hbox h he (ready_start hlt he inside_corner _) (by omega)
          hlen).2 he' (by decide)
    · apply topBoxPath_none hbox (by decide) hfirst hd heq
        hselect (unmarked_start.fresh (by decide)) inside_corner ⟨hd0, by simp, by simp⟩
        (Nat.zero_le _)
        (Nat.zero_le _) hbuff
      · intro t _ _
        exact ready_start hlt he hd _
      · intro n _ o' ho' q v b printed hq hord hv hb
        exact topBoxPath_endless hbox he hlt hfirst hd heq hselect hv hq hord ho' hb
  cases (topBox_none hnone).symm.trans hs

/-- The search ends for no other words. -/
theorem terminates_iff (hbox : Layout box) (hbuff : buff.length = 1024) :
    Terminates word box buff ↔ Ends word box := by
  constructor
  · intro hterm
    by_cases hall : ∀ l ∈ word.bytes, l ∈ alphabet
    · refine .inl ⟨hall, ?_⟩
      by_contra hfits
      have hne : word.bytes ≠ [] := by
        intro hnil
        rw [hnil] at hfits
        exact hfits trivial
      obtain ⟨depth, s, hs⟩ := hterm
      have hnone := (settled_topBoxPath hbox hall hne).failure hfits depth buff hbuff
      cases (topBox_none hnone).symm.trans hs
    · obtain ⟨k, letter, hletter, hnot, hfront⟩ := exists_first hall
      by_contra hends
      refine not_terminates hbox (doomed_min hbox hletter hnot hfront) ?_ ?_ hbuff hterm
      · by_contra hk
        obtain rfl : k = 0 := by omega
        exact hends (.inr (.inl ⟨letter, word.bytes.tail, eq_cons hletter, hnot⟩))
      · intro hk hcorner
        obtain rfl : k = 1 := by omega
        have htail : word.bytes.tail[0]? = some letter := List.getElem?_tail.trans hletter
        refine hends (.inr (.inr ⟨letter, word.bytes.tail.tail, ?_, hnot⟩))
        rw [← eq_cons htail]
        exact eq_cons hcorner
  · rintro (⟨hall, hfits⟩ | ⟨first, rest, hword, hnot⟩ | ⟨second, rest, hword, hnot⟩)
    · by_cases hne : word.bytes = []
      · exact terminates_empty hbox hne
      · obtain ⟨enough, henough⟩ := (settled_topBoxPath hbox hall hne).success hfits
        obtain ⟨s, hs, -⟩ := henough enough (Nat.le_refl enough) buff hbuff
        exact terminates_of_eq hs
    · exact terminates_first hbox (by rw [hword]; rfl) hnot hbuff
    · exact terminates_second hbox (by rw [hword]; rfl) (by rw [hword]; rfl) hnot hbuff

theorem terminates_iff_con : Layout standardBox ∧
    (Terminates ⟨[99, 111, 110], by decide⟩ standardBox (List.replicate 1024 0) ↔
      Ends ⟨[99, 111, 110], by decide⟩ standardBox) :=
  ⟨layout_standardBox, terminates_iff layout_standardBox List.length_replicate⟩

/-- For `b?` the search goes deeper and deeper. -/
theorem not_terminates_unknown :
    ¬ Terminates ⟨[98, 63], by decide⟩ standardBox (List.replicate 1024 0) := by
  have hfront : ∀ i < 1, ∃ letter, [(98 : UInt8), 63][i]? = some letter ∧ letter ∈ alphabet := by
    intro i hi
    obtain rfl : i = 0 := by omega
    exact ⟨98, rfl, by decide +kernel⟩
  exact not_terminates layout_standardBox
    (doomed_min layout_standardBox (show _ = some 63 from rfl) (by decide +kernel) hfront)
    (by decide) (fun _ => by decide +kernel) List.length_replicate

end InterviewQuestions.TopBox
