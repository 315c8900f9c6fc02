import InterviewQuestions.TopBox.Model
import Mathlib.Algebra.GroupWithZero.Nat

/-! The search for one letter. A cell counts as seen when it is marked with the index of the
letter. After the letter has been found the calls for the next ones may fail, and then the search
goes on. -/
namespace InterviewQuestions.TopBox

open Library

def isLetter (box : Box) (letter : UInt8) (curr : Cell) : Bool := box curr == letter

def routeText (route : List Move) : List UInt8 := route.flatMap Move.text

/-- The marks when the cells in `seen` are marked with `i`. -/
def painted (base : Cell → Int32) (i : ℕ) (seen : List Cell) : Cell → Int32 :=
  fun c => if c ∈ seen then Int32.ofNat i else base c

/-- All calls that are made from a cell. -/
def proceed (word : CString) (box : Box) (depth i o : ℕ) (curr : Cell) (s : State) :
    Option (Bool × State) :=
  Backtracking.tries (tryMove (topBoxPath word box depth i) o curr) moves s

/-- What happens on the cell with the letter at `i` once it is marked. -/
def select (word : CString) (box : Box) (depth i o : ℕ) (curr : Cell) (s : State) :
    Option (Bool × State) :=
  (sprintf s.outBuff o okText).bind fun b =>
    (letterAt word (i + 1)).bind fun letter =>
      if letter = 0 then some (true, ⟨s.visited, b, s.printed ++ (CString.ofBuffer b).bytes⟩)
      else proceed word box depth (i + 1) (o + okText.length) curr { s with outBuff := b }

variable {word : CString} {box : Box} {base : Cell → Int32} {buff buff' text printed : List UInt8}
  {letter : UInt8} {c : Cell} {seen seen' later : List Cell} {s s' : State} {m : Move}
  {ms route : List Move} {i o r depth : ℕ} {inner result : Option (Bool × State)}

/-! ## The buffer -/

/-- Nothing before `o` has been overwritten. -/
def Kept (o : ℕ) (buff buff' : List UInt8) : Prop :=
  buff'.length = buff.length ∧ buff'.take o = buff.take o

theorem Kept.refl (o : ℕ) (buff : List UInt8) : Kept o buff buff := ⟨rfl, rfl⟩

theorem sprintf_room (h : o + text.length + 1 ≤ buff.length) :
    ∃ rest, sprintf buff o text = some (buff.take o ++ text ++ 0 :: rest) ∧
      (buff.take o ++ text ++ 0 :: rest).length = buff.length := by
  refine ⟨buff.drop (o + text.length + 1), if_pos h, ?_⟩
  simp only [List.length_append, List.length_take, List.length_cons, List.length_drop]
  omega

theorem sprintf_full (h : buff.length < o + text.length + 1) : sprintf buff o text = none :=
  if_neg (Nat.not_le.mpr h)

theorem take_written {rest : List UInt8} (h : o + text.length + 1 ≤ buff.length) :
    (buff.take o ++ text ++ 0 :: rest).take (o + text.length) = buff.take o ++ text := by
  apply List.take_left'
  rw [List.length_append, List.length_take]
  omega

theorem kept_written {rest : List UInt8} (h : o + text.length + 1 ≤ buff.length)
    (hlen : (buff.take o ++ text ++ 0 :: rest).length = buff.length) :
    Kept o buff (buff.take o ++ text ++ 0 :: rest) := by
  refine ⟨hlen, ?_⟩
  rw [List.append_assoc]
  apply List.take_left'
  rw [List.length_take]
  omega

theorem Kept.trans {buff'' : List UInt8} (h : Kept o buff buff') (h' : Kept o buff' buff'') :
    Kept o buff buff'' := ⟨h'.1.trans h.1, h'.2.trans h.2⟩

theorem Kept.le {o' : ℕ} (h : Kept o' buff buff') (ho : o ≤ o') : Kept o buff buff' := by
  refine ⟨h.1, ?_⟩
  rw [← Nat.min_eq_left ho, ← List.take_take, ← List.take_take, h.2]

/-! ## The marks -/

theorem toInt_ofNat_emod (hi : i < 2 ^ 31) : (Int32.ofNat i).toInt % 2 ^ 64 = i := by
  rw [Int32.toInt_ofNat_of_lt (by simpa using hi)]
  omega

theorem eq_ofNat_of_emod {v : Int32} (hi : i < 2 ^ 31) (h : v.toInt % 2 ^ 64 = i) :
    v = Int32.ofNat i := by
  apply Int32.toInt_inj.mp
  rw [Int32.toInt_ofNat_of_lt (by simpa using hi)]
  have := v.le_toInt
  have := v.toInt_lt
  omega

theorem isVisited_iff (hi : i < 2 ^ 31) : isVisited s c i = true ↔ s.visited c = Int32.ofNat i := by
  unfold isVisited
  rw [beq_iff_eq]
  refine ⟨eq_ofNat_of_emod hi, fun h => ?_⟩
  rw [h]
  exact toInt_ofNat_emod hi

/-- Only cells in `seen` have the mark `i`. -/
def Fresh (base : Cell → Int32) (i : ℕ) (seen : List Cell) : Prop :=
  ∀ c, inside c → base c = Int32.ofNat i → c ∈ seen

theorem isVisited_painted (hi : i < 2 ^ 31) (hbase : Fresh base i seen) (hc : inside c) :
    isVisited ⟨painted base i seen, buff, printed⟩ c i = true ↔ c ∈ seen := by
  rw [isVisited_iff hi]
  unfold painted
  by_cases hmem : c ∈ seen
  · exact iff_of_true (if_pos hmem) hmem
  · exact iff_of_false (fun h => hmem (hbase c hc ((if_neg hmem).symm.trans h))) hmem

theorem update_painted (base : Cell → Int32) (i : ℕ) (seen : List Cell) (c : Cell) :
    Function.update (painted base i seen) c (Int32.ofNat i) = painted base i (c :: seen) := by
  funext v
  unfold painted
  by_cases hv : v = c
  · rw [hv, Function.update_self, if_pos List.mem_cons_self]
  · rw [Function.update_of_ne hv]
    simp [hv]

theorem Fresh.mono (h : Fresh base i seen) (hsub : ∀ v ∈ seen, v ∈ seen') : Fresh base i seen' :=
  fun c hc heq => hsub c (h c hc heq)

/-! ## The letters of the word -/

theorem letterAt_eq (h : word.bytes[i]? = some letter) : letterAt word i = some letter := by
  unfold letterAt
  rw [List.getElem?_append_left (List.getElem?_eq_some_iff.mp h).1, h]

theorem letterAt_length (word : CString) : letterAt word word.bytes.length = some 0 := by
  unfold letterAt
  rw [List.getElem?_append_right (Nat.le_refl _), Nat.sub_self]
  rfl

theorem letter_ne_zero (h : word.bytes[i]? = some letter) : letter ≠ 0 := by
  rintro rfl
  exact word.no_nul (List.mem_of_getElem? h)

/-! ## Calls that come back -/

theorem topBoxPath_back (h : inside c = false ∨ isVisited s c i) (depth o : ℕ) :
    topBoxPath word box (depth + 1) i o c s = some (false, s) := by
  rw [topBoxPath, if_pos h]

theorem topBoxPath_letter (hi : i < 2 ^ 31) (hbase : Fresh base i seen) (hc : inside c)
    (hseen : c ∉ seen) (hletter : word.bytes[i]? = some letter) (hcell : box c = letter)
    (depth o : ℕ) :
    topBoxPath word box (depth + 1) i o c ⟨painted base i seen, buff, printed⟩ =
      select word box depth i o c ⟨painted base i (c :: seen), buff, printed⟩ := by
  have hnot : ¬ (inside c = false ∨ isVisited ⟨painted base i seen, buff, printed⟩ c i) := by
    rw [isVisited_painted hi hbase hc, hc]
    simp [hseen]
  rw [topBoxPath, if_neg hnot, update_painted]
  unfold selectLetter select
  dsimp only
  rw [letterAt_eq hletter, Option.bind_some, if_pos hcell]
  cases sprintf buff o okText with
  | none => rfl
  | some b => rfl

theorem topBoxPath_other (hi : i < 2 ^ 31) (hbase : Fresh base i seen) (hc : inside c)
    (hseen : c ∉ seen) (hletter : word.bytes[i]? = some letter) (hcell : box c ≠ letter)
    (depth o : ℕ) :
    topBoxPath word box (depth + 1) i o c ⟨painted base i seen, buff, printed⟩ =
      proceed word box depth i o c ⟨painted base i (c :: seen), buff, printed⟩ := by
  have hnot : ¬ (inside c = false ∨ isVisited ⟨painted base i seen, buff, printed⟩ c i) := by
    rw [isVisited_painted hi hbase hc, hc]
    simp [hseen]
  rw [topBoxPath, if_neg hnot, update_painted]
  unfold selectLetter proceed
  dsimp only
  rw [letterAt_eq hletter, Option.bind_some, if_neg hcell, Option.bind_some]
  dsimp only
  rw [letterAt_eq hletter, Option.bind_some, if_neg (letter_ne_zero hletter)]

/-! ## The search and the maze -/

/-- What the result is when the letter has been found and the calls after that give `inner`. The
cells in `later` are what the calls that are still open come to next; `depth` is how deep they can
get, and from `o` on they write. -/
def Resumes (word : CString) (box : Box) (depth i o : ℕ) (later : List Cell)
    (inner result : Option (Bool × State)) : Prop :=
  match inner with
  | none => result = none
  | some (true, s) => result = some (true, s)
  | some (false, s) =>
      match later.find? inside with
      | none => result = none ∨ ∃ b, b.length = s.outBuff.length ∧
          result = some (false, { s with outBuff := b })
      | some c =>
          (∀ d ≤ depth, ∀ o' ≥ o, ∀ b, b.length = s.outBuff.length →
            topBoxPath word box d i o' c { s with outBuff := b } = none) → result = none

theorem resumes_last (hfind : later.find? inside = none) :
    Resumes word box depth i o later (some (false, s)) result ↔
      result = none ∨ ∃ b, b.length = s.outBuff.length ∧
        result = some (false, { s with outBuff := b }) := by
  unfold Resumes
  dsimp only
  rw [hfind]

theorem resumes_next (hfind : later.find? inside = some c) :
    Resumes word box depth i o later (some (false, s)) result ↔
      ((∀ d ≤ depth, ∀ o' ≥ o, ∀ b, b.length = s.outBuff.length →
        topBoxPath word box d i o' c { s with outBuff := b } = none) → result = none) := by
  unfold Resumes
  dsimp only
  rw [hfind]

/-- The calls and the search in the maze have the same result, unless the buffer is too small. -/
def Simulates (word : CString) (box : Box) (i o : ℕ) (base : Cell → Int32)
    (buff printed : List UInt8)
    (depth : ℕ) (result : Option (Bool × State)) : Outcome Cell Move → Prop
  | .tooDeep => result = none
  | .failed seen reach =>
      (buff.length < o + reach → result = none) ∧ (o + reach ≤ buff.length →
        ∃ b, Kept o buff b ∧ result = some (false, ⟨painted base i seen, b, printed⟩))
  | .found t =>
      (buff.length < o + t.reach → result = none) ∧ (o + t.reach ≤ buff.length →
        ∃ depth' b, depth' + t.route.length = depth ∧ b.length = buff.length ∧
          b.take (o + (routeText t.route).length) = buff.take o ++ routeText t.route ∧
          Resumes word box depth i o t.later
            (select word box depth' i (o + (routeText t.route).length) t.place
              ⟨painted base i (t.place :: t.seen), b, printed⟩) result)

theorem simulates_none (h : buff.length < o + r) (outcome : Outcome Cell Move) :
    Simulates word box i o base buff printed depth none (outcome.atLeast r) := by
  cases outcome with
  | tooDeep => rfl
  | failed seen reach =>
    refine ⟨fun _ => rfl, fun hle => ?_⟩
    have := Nat.le_max_left r reach
    omega
  | found t =>
    refine ⟨fun _ => rfl, fun hle => ?_⟩
    have : r ≤ max r t.reach := Nat.le_max_left r t.reach
    dsimp only at hle
    omega

/-- What comes after a call that has failed. -/
theorem Simulates.after {outcome : Outcome Cell Move} (hkept : Kept o buff buff')
    (hr : o + r ≤ buff.length)
    (h : Simulates word box i o base buff' printed depth result outcome) :
    Simulates word box i o base buff printed depth result (outcome.atLeast r) := by
  cases outcome with
  | tooDeep => exact h
  | failed seen reach =>
    obtain ⟨hfull, hroom⟩ := h
    rw [hkept.1] at hfull hroom
    have hmax := Nat.le_max_right r reach
    refine ⟨fun hlt => ?_, fun hle => ?_⟩
    · apply hfull
      rcases Nat.le_total r reach with hle | hle
      · rwa [Nat.max_eq_right hle] at hlt
      · rw [Nat.max_eq_left hle] at hlt
        omega
    · obtain ⟨b, hb, hresult⟩ := hroom (by omega)
      exact ⟨b, hkept.trans hb, hresult⟩
  | found t =>
    obtain ⟨hfull, hroom⟩ := h
    rw [hkept.1] at hfull hroom
    have hmax := Nat.le_max_right r t.reach
    refine ⟨fun hlt => ?_, fun hle => ?_⟩
    · apply hfull
      dsimp only at hlt
      rcases Nat.le_total r t.reach with hle | hle
      · rwa [Nat.max_eq_right hle] at hlt
      · rw [Nat.max_eq_left hle] at hlt
        omega
    · dsimp only at hle
      rw [hkept.2] at hroom
      exact hroom (by omega)

/-! ## One move -/

theorem tries_cons (attempt : Move → State → Option (Bool × State)) (m : Move) (ms : List Move)
    (s : State) : Backtracking.tries attempt (m :: ms) s =
      (attempt m s).bind fun x => if x.1 then some x else Backtracking.tries attempt ms x.2 := by
  rw [Backtracking.tries]
  cases attempt m s with
  | none => rfl
  | some x =>
    obtain ⟨found, s⟩ := x
    cases found <;> rfl

theorem sprintf_length {b : List UInt8} (h : sprintf buff o text = some b) :
    b.length = buff.length := by
  unfold sprintf at h
  split at h
  · next hroom =>
    obtain ⟨rest, hsome, hlen⟩ := sprintf_room hroom
    rw [sprintf, if_pos hroom] at hsome
    cases h
    rw [Option.some.inj hsome]
    exact hlen
  · cases h

theorem resumes_none (later : List Cell) : Resumes word box depth i o later inner none ∨
    ∃ s, inner = some (true, s) := by
  match inner with
  | none => exact .inl rfl
  | some (true, s) => exact .inr ⟨s, rfl⟩
  | some (false, s) =>
    left
    cases hfind : later.find? inside with
    | none => exact (resumes_last hfind).mpr (.inl rfl)
    | some next => exact (resumes_next hfind).mpr fun _ => rfl

/-- The moves that are still open after a call that has failed. -/
theorem resumes_rest (ms : List Move) (s : State) (o : ℕ) (c : Cell) :
    Resumes word box depth i o (ms.map (Move.go · c)) (some (false, s))
      (Backtracking.tries (tryMove (topBoxPath word box depth i) o c) ms s) := by
  induction ms generalizing s with
  | nil => exact .inr ⟨s.outBuff, rfl, rfl⟩
  | cons m ms ih =>
    have hnone : Resumes word box depth i o ((m :: ms).map (Move.go · c)) (some (false, s)) none :=
      (resumes_none _).resolve_right (by simp)
    rw [tries_cons]
    unfold tryMove
    cases hb : sprintf s.outBuff o m.text with
    | none => exact hnone
    | some b =>
      rw [Option.bind_some]
      cases hin : inside (m.go c) with
      | false =>
        cases depth with
        | zero => exact hnone
        | succ depth =>
          rw [topBoxPath_back (.inl hin), Option.bind_some, if_neg Bool.false_ne_true]
          have hrest := ih { s with outBuff := b }
          unfold Resumes at hrest ⊢
          dsimp only at hrest ⊢
          rw [List.map_cons, List.find?_cons_of_neg (by simp [hin])]
          have hlen := sprintf_length hb
          rwa [hlen] at hrest
      | true =>
        rw [List.map_cons, resumes_next (List.find?_cons_of_pos hin)]
        intro hcall
        rw [hcall depth (Nat.le_refl depth) _ (Nat.le_add_right o _) b (sprintf_length hb)]
        rfl

/-- `later` is what has been left open by the call for the first of the moves. -/
theorem resumes_moves (hfirst : Resumes word box depth i o later inner result) (ms : List Move)
    (c : Cell) :
    Resumes word box depth i o (later ++ ms.map (Move.go · c)) inner (result.bind fun x =>
      if x.1 then some x
      else Backtracking.tries (tryMove (topBoxPath word box depth i) o c) ms x.2) := by
  match inner with
  | none =>
    have hresult : result = none := hfirst
    rw [hresult]
    rfl
  | some (true, s) =>
    have hresult : result = some (true, s) := hfirst
    rw [hresult]
    rfl
  | some (false, s) =>
    unfold Resumes at hfirst ⊢
    dsimp only at hfirst ⊢
    rw [List.find?_append]
    cases hfind : later.find? inside with
    | some next =>
      rw [hfind] at hfirst
      intro hcall
      rw [hfirst hcall]
      rfl
    | none =>
      rw [hfind] at hfirst
      rcases hfirst with rfl | ⟨b, hlen, rfl⟩
      · rw [Option.none_or, Option.bind_none]
        split
        · exact .inl rfl
        · exact fun _ => rfl
      · have hrest := @resumes_rest word box i depth ms { s with outBuff := b } o c
        unfold Resumes at hrest
        dsimp only at hrest
        rwa [hlen] at hrest

/-! ## All moves -/

theorem Resumes.weaken {depth' o' : ℕ} (h : Resumes word box depth i o' later inner result)
    (hdepth : depth ≤ depth') (ho : o ≤ o') : Resumes word box depth' i o later inner result := by
  match inner with
  | none => exact h
  | some (true, s) => exact h
  | some (false, s) =>
    cases hfind : later.find? inside with
    | none =>
      rw [resumes_last hfind] at h ⊢
      exact h
    | some next =>
      rw [resumes_next hfind] at h ⊢
      exact fun hcall => h fun d hd o'' ho' => hcall d (hd.trans hdepth) o'' (ho.trans ho')

/-- On the cell with the letter no other calls are open. -/
theorem resumes_self (inner : Option (Bool × State)) :
    Resumes word box depth i o [] inner inner := by
  match inner with
  | none => rfl
  | some (true, s) => rfl
  | some (false, s) => exact .inr ⟨s.outBuff, rfl, rfl⟩

theorem fresh_of_failed (hbase : Fresh base i seen)
    (h : remote.walk (isLetter box letter) depth seen c = .failed seen' r) : Fresh base i seen' :=
  hbase.mono (Maze.searched_walk h).mono

/-- There is no room for the text of the move, whatever the search in the maze comes to. -/
theorem simulates_full (hroom : buff.length < o + m.text.length + 1)
    (call : List Cell → Cell → Outcome Cell Move) (ms : List Move) :
    Simulates word box i o base buff printed depth none
      (remote.attempts call c (m :: ms) seen) := by
  have hcost (reach : ℕ) : m.text.length + 1 ≤ remote.cost m + max 1 reach :=
    Nat.add_le_add_left (Nat.le_max_left 1 reach) m.text.length
  rw [Maze.attempts]
  cases call seen (remote.go m c) with
  | tooDeep => rfl
  | failed seen' reach =>
    apply simulates_none
    have := hcost reach
    omega
  | found t =>
    refine ⟨fun _ => rfl, fun hle => ?_⟩
    have := hcost t.reach
    dsimp only at hle
    omega

/-- The call for the move has failed, and the search goes on with the `rest`. -/
theorem Simulates.failed {b : List UInt8} {rest : State → Option (Bool × State)}
    {outcome : Outcome Cell Move} (hroom : o + m.text.length + 1 ≤ buff.length)
    (hkept : Kept o buff b)
    (h : Simulates word box i (o + m.text.length) base b printed (depth - 1) result
      (.failed seen r))
    (hrest : ∀ b', Kept o buff b' →
      Simulates word box i o base b' printed depth (rest ⟨painted base i seen, b', printed⟩)
        outcome) :
    Simulates word box i o base buff printed depth
      (result.bind fun x => if x.1 then some x else rest x.2)
      (outcome.atLeast (m.text.length + max 1 r)) := by
  obtain ⟨hfull, hfit⟩ := h
  have hlen := hkept.1
  by_cases hreach : o + m.text.length + r ≤ b.length
  · obtain ⟨b', hkept', hresult⟩ := hfit hreach
    rw [hresult, Option.bind_some, if_neg Bool.false_ne_true]
    have hkept'' := hkept.trans (hkept'.le (Nat.le_add_right o _))
    exact (hrest b' hkept'').after hkept'' (by omega)
  · rw [hfull (by omega)]
    exact simulates_none (by omega) outcome

/-- The call for the move has found the letter. -/
theorem Simulates.found {b : List UInt8} {t : Trail Cell Move}
    (hroom : o + m.text.length + 1 ≤ buff.length) (hlen : b.length = buff.length)
    (htake : b.take (o + m.text.length) = buff.take o ++ m.text) (hdeep : 0 < depth)
    (h : Simulates word box i (o + m.text.length) base b printed (depth - 1) result (.found t))
    (ms : List Move) :
    Simulates word box i o base buff printed depth
      (result.bind fun x =>
        if x.1 then some x
        else Backtracking.tries (tryMove (topBoxPath word box depth i) o c) ms x.2)
      (.found { t with
        route := m :: t.route
        later := t.later ++ ms.map (Move.go · c)
        reach := m.text.length + max 1 t.reach }) := by
  obtain ⟨hfull, hfit⟩ := h
  refine ⟨fun hlt => ?_, fun hle => ?_⟩
  · dsimp only at hlt
    rw [hfull (by omega)]
    rfl
  · dsimp only at hle
    obtain ⟨depth', b', hdepth, hlen', htake', hresumes⟩ := hfit (by omega)
    have hroute : routeText (m :: t.route) = m.text ++ routeText t.route := rfl
    refine ⟨depth', b', ?_, hlen'.trans hlen, ?_, ?_⟩
    · rw [List.length_cons]
      omega
    · rw [hroute, List.length_append, ← Nat.add_assoc, htake', htake, List.append_assoc]
    · rw [hroute, List.length_append, ← Nat.add_assoc]
      exact resumes_moves (hresumes.weaken (Nat.sub_le depth 1) (Nat.le_add_right o _)) ms c

theorem simulates_attempts
    (hpath : ∀ seen o c buff, Fresh base i seen → o ≤ buff.length →
      Simulates word box i o base buff printed (depth - 1)
        (topBoxPath word box depth i o c ⟨painted base i seen, buff, printed⟩)
        (remote.walk (isLetter box letter) depth seen c))
    (hbase : Fresh base i seen) (ho : o ≤ buff.length) (c : Cell) (ms : List Move) :
    Simulates word box i o base buff printed depth
      (Backtracking.tries (tryMove (topBoxPath word box depth i) o c) ms
        ⟨painted base i seen, buff, printed⟩)
      (remote.attempts (remote.walk (isLetter box letter) depth) c ms seen) := by
  induction ms generalizing seen buff with
  | nil => exact ⟨fun hlt => absurd ho (by omega), fun _ => ⟨buff, .refl o buff, rfl⟩⟩
  | cons m ms ih =>
    rw [tries_cons, tryMove]
    dsimp only
    by_cases hroom : o + m.text.length + 1 ≤ buff.length
    · obtain ⟨rest, hb, hlen⟩ := sprintf_room hroom
      have hkept := kept_written hroom hlen
      have htake := @take_written buff m.text o rest hroom
      rw [hb, Option.bind_some]
      generalize buff.take o ++ m.text ++ 0 :: rest = b at hlen hkept htake
      have hcall := hpath seen (o + m.text.length) (m.go c) b hbase (by omega)
      have hgo : remote.go m c = m.go c := rfl
      rw [Maze.attempts, hgo]
      cases hwalk : remote.walk (isLetter box letter) depth seen (m.go c) with
      | tooDeep =>
        rw [hwalk] at hcall
        have hnone : topBoxPath word box depth i (o + m.text.length) (m.go c)
          ⟨painted base i seen, b, printed⟩ = none := hcall
        rw [hnone]
        rfl
      | failed seen' reach =>
        rw [hwalk] at hcall
        exact hcall.failed hroom hkept fun b' hb' =>
          ih (fresh_of_failed hbase hwalk) (hb'.1.symm ▸ ho)
      | found t =>
        rw [hwalk] at hcall
        have hdeep : 0 < depth := by
          apply Nat.pos_of_ne_zero
          rintro rfl
          cases hwalk
        exact hcall.found hroom hlen htake hdeep ms
    · rw [sprintf_full (by omega), Option.bind_none, Option.bind_none]
      exact simulates_full (by omega) _ ms

theorem simulates_walk (hi : i < 2 ^ 31) (hletter : word.bytes[i]? = some letter) (depth : ℕ)
    (hbase : Fresh base i seen) (ho : o ≤ buff.length) (c : Cell) :
    Simulates word box i o base buff printed (depth - 1)
      (topBoxPath word box depth i o c ⟨painted base i seen, buff, printed⟩)
      (remote.walk (isLetter box letter) depth seen c) := by
  induction depth generalizing seen o c buff with
  | zero => rfl
  | succ depth ih =>
    have hback : inside c = false ∨ isVisited ⟨painted base i seen, buff, printed⟩ c i ↔
        remote.inside c = false ∨ c ∈ seen := by
      apply or_congr_right'
      intro hin
      exact isVisited_painted hi hbase (Bool.not_eq_false _ ▸ hin)
    by_cases hc : remote.inside c = false ∨ c ∈ seen
    · rw [Maze.walk_back hc, topBoxPath_back (hback.mpr hc)]
      exact ⟨fun hlt => absurd ho (by omega), fun _ => ⟨buff, .refl o buff, rfl⟩⟩
    · obtain ⟨hin, hseen⟩ := not_or.mp hc
      rw [Bool.not_eq_false] at hin
      by_cases hcell : box c = letter
      · have htarget : isLetter box letter c = true := beq_iff_eq.mpr hcell
        rw [Maze.walk_found hin hseen htarget,
          topBoxPath_letter hi hbase hin hseen hletter hcell]
        refine ⟨fun hlt => absurd ho (by simpa using hlt), fun _ => ?_⟩
        exact ⟨depth, buff, rfl, rfl, by simp [routeText], resumes_self _⟩
      · have htarget : isLetter box letter c = false := beq_eq_false_iff_ne.mpr hcell
        rw [Maze.walk_succ hin hseen htarget,
          topBoxPath_other hi hbase hin hseen hletter hcell]
        exact simulates_attempts (fun seen o c buff hbase ho => ih hbase ho c)
          (hbase.mono fun v hv => List.mem_cons_of_mem c hv) ho c moves

/-- All calls that are made from a cell, compared with the moves in the maze. -/
theorem simulates_leave (hi : i < 2 ^ 31) (hletter : word.bytes[i]? = some letter) (depth : ℕ)
    (hbase : Fresh base i seen) (ho : o ≤ buff.length) (c : Cell) :
    Simulates word box i o base buff printed depth
      (proceed word box depth i o c ⟨painted base i seen, buff, printed⟩)
      (remote.leave (isLetter box letter) depth seen c) :=
  simulates_attempts (fun _ _ c _ hbase ho => simulates_walk hi hletter depth hbase ho c) hbase ho c
    moves

end InterviewQuestions.TopBox
