import InterviewQuestions.Library.Backtracking
import Mathlib.Data.Finset.Card
import Mathlib.Data.List.Chain
import Mathlib.Data.List.Nodup
import Mathlib.Data.List.ProdSigma
import Mathlib.Logic.Relation

/-! `recursion_dp/word_path/solution.cpp`. There is no result where the recursion is too deep. -/
namespace InterviewQuestions.WordPath

open Library Backtracking

/-- `string` -/
abbrev Word := List UInt8

structure State where
  words : Finset Word
  start : Word
  pathBuff : List Word
  result : List Word

/-- `letter` from `a` to `z` -/
def letters : List UInt8 := (List.range 26).map fun k => UInt8.ofNat (97 + k)

/-- One turn of the inner loop. -/
def tryLetter (aux : State → Option (Bool × State)) (choice : ℕ × UInt8) (s : State) :
    Option (Bool × State) :=
  let (i, letter) := choice
  let old := s.start.getD i 0
  let start := s.start.set i letter
  if start ∉ s.words then some (false, s)
  else
    match aux ⟨s.words.erase start, start, s.pathBuff ++ [start], []⟩ with
    | none => none
    | some (true, t) =>
        some (true, { t with words := insert t.start t.words, start := t.start.set i old })
    | some (false, t) => some (false, {
        words := insert t.start t.words
        start := t.start.set i old
        pathBuff := t.pathBuff.dropLast
        result := s.result })

/-- `stop` is `end`. -/
def wordPathAux (stop : Word) : ℕ → State → Option (Bool × State)
  | 0, _ => none
  | depth + 1, s =>
      if s.start = stop then some (true, { s with result := s.pathBuff })
      else if s.words.card = 0 then some (false, s)
      else tries (tryLetter (wordPathAux stop depth)) (List.range s.start.length ×ˢ letters) s

def wordPath (words : Finset Word) (start stop : Word) : Option (Bool × State) :=
  let words := insert stop words
  wordPathAux stop (words.card + 1) ⟨words, start, [], []⟩

/-! ## Paths -/

/-- One character becomes a letter. -/
def Changes (u v : Word) : Prop := ∃ i < u.length, ∃ letter ∈ letters, v = u.set i letter

/-- The words behind `u`, no two of which are the same. -/
structure Path (words : Finset Word) (stop u : Word) (path : List Word) : Prop where
  chain : List.IsChain Changes (u :: path)
  mem : ∀ w ∈ path, w ∈ words
  nodup : path.Nodup
  last : (u :: path).getLast (List.cons_ne_nil u path) = stop

variable {words : Finset Word} {stop u v w : Word} {path buff : List Word} {s t : State} {depth : ℕ}

theorem path_nil (words : Finset Word) (stop : Word) : Path words stop stop [] where
  chain := List.IsChain.singleton stop
  mem := by simp
  nodup := List.nodup_nil
  last := rfl

theorem path_cons : Path words stop u (v :: path) ↔
    Changes u v ∧ v ∈ words ∧ Path (words.erase v) stop v path := by
  constructor
  · rintro ⟨hchain, hmem, hnodup, hlast⟩
    rw [List.isChain_cons_cons] at hchain
    rw [List.forall_mem_cons] at hmem
    rw [List.nodup_cons] at hnodup
    refine ⟨hchain.1, hmem.1, hchain.2, fun w hw => ?_, hnodup.2, hlast⟩
    exact Finset.mem_erase.mpr ⟨fun heq => hnodup.1 (heq ▸ hw), hmem.2 w hw⟩
  · rintro ⟨hchanges, hv, hchain, hmem, hnodup, hlast⟩
    refine ⟨List.isChain_cons_cons.mpr ⟨hchanges, hchain⟩, ?_, ?_, hlast⟩
    · exact List.forall_mem_cons.mpr ⟨hv, fun w hw => Finset.mem_of_mem_erase (hmem w hw)⟩
    · exact List.nodup_cons.mpr ⟨fun hin => (Finset.mem_erase.mp (hmem v hin)).1 rfl, hnodup⟩

theorem reach_of_chain (hchain : List.IsChain Changes (u :: path)) (hmem : ∀ w ∈ path, w ∈ words)
    (hlast : (u :: path).getLast (List.cons_ne_nil u path) = stop) :
    Relation.ReflTransGen (fun u v => Changes u v ∧ v ∈ words) u stop := by
  induction path generalizing u with
  | nil =>
    rw [← hlast]
    exact .refl
  | cons v path ih =>
    rw [List.isChain_cons_cons] at hchain
    rw [List.forall_mem_cons] at hmem
    exact .head ⟨hchain.1, hmem.1⟩ (ih hchain.2 hmem.2 hlast)

/-- A way that comes back to a word can be cut short. -/
theorem exists_path_iff : (∃ path, Path words stop u path) ↔
    Relation.ReflTransGen (fun u v => Changes u v ∧ v ∈ words) u stop := by
  constructor
  · rintro ⟨path, hchain, hmem, -, hlast⟩
    exact reach_of_chain hchain hmem hlast
  · intro h
    induction h using Relation.ReflTransGen.head_induction_on with
    | refl => exact ⟨[], path_nil words stop⟩
    | @head u v hstep _ ih =>
      obtain ⟨path, hchain, hmem, hnodup, hlast⟩ := ih
      by_cases hv : v ∈ path
      · obtain ⟨front, back, rfl⟩ := List.append_of_mem hv
        rw [← List.cons_append] at hchain
        refine ⟨v :: back, List.isChain_cons_cons.mpr ⟨hstep.1, hchain.right_of_append⟩,
          fun w hw => hmem w (List.mem_append_right front hw),
          (List.nodup_append.mp hnodup).2.1, ?_⟩
        rw [← hlast, List.getLast_cons (List.cons_ne_nil v back),
          List.getLast_cons (List.append_ne_nil_of_right_ne_nil front (List.cons_ne_nil v back)),
          List.getLast_append_of_ne_nil _ (List.cons_ne_nil v back)]
      · exact ⟨v :: path, List.isChain_cons_cons.mpr ⟨hstep.1, hchain⟩,
          List.forall_mem_cons.mpr ⟨hstep.2, hmem⟩, List.nodup_cons.mpr ⟨hv, hnodup⟩, hlast⟩

/-! ## The search -/

/-- A path has been found, and the words and the start are as they were. -/
structure Found (words : Finset Word) (stop u : Word) (buff : List Word) (t : State) : Prop where
  kept : t.words = words
  back : t.start = u
  result : ∃ path, Path words stop u path ∧ t.result = buff ++ path

theorem set_back {i : ℕ} (hi : i < u.length) (letter : UInt8) :
    (u.set i letter).set i (u.getD i 0) = u := by
  rw [List.set_set, List.getD_eq_getElem?_getD, List.getElem?_eq_getElem hi, Option.getD_some,
    List.set_getElem_self]

theorem tryLetter_decides (s : State) {i : ℕ} (hi : i < s.start.length) {letter : UInt8}
    (hletter : letter ∈ letters) (aux : State → Option (Bool × State))
    (haux : ∀ s', s'.words.card < s.words.card →
      Decides (Found s'.words stop s'.start s'.pathBuff) (· = s')
        (∃ path, Path s'.words stop s'.start path) (aux s')) :
    Decides (Found s.words stop s.start s.pathBuff) (· = s)
      (∃ path, Path s.words stop s.start (s.start.set i letter :: path))
      (tryLetter aux (i, letter) s) := by
  have hchanges : Changes s.start (s.start.set i letter) := ⟨i, hi, letter, hletter, rfl⟩
  have hback := set_back hi letter
  simp only [tryLetter]
  by_cases hmem : s.start.set i letter ∈ s.words
  · have hinsert := Finset.insert_erase hmem
    rw [if_neg (not_not_intro hmem)]
    rcases haux ⟨s.words.erase (s.start.set i letter), s.start.set i letter,
      s.pathBuff ++ [s.start.set i letter], []⟩ (Finset.card_erase_lt_of_mem hmem) with
      ⟨t, haux, hfound⟩ | ⟨t, haux, rfl, hnot⟩
    · obtain ⟨hwords, hstart, path, hpath, hresult⟩ := hfound
      rw [haux]
      refine Or.inl ⟨_, rfl, ?_, ?_, _, path_cons.mpr ⟨hchanges, hmem, hpath⟩, ?_⟩
      · rw [hwords, hstart, hinsert]
      · rw [hstart, hback]
      · rw [hresult, List.append_assoc, List.singleton_append]
    · rw [haux]
      refine Or.inr ⟨_, rfl, ?_, ?_⟩
      · simp only [hinsert, hback, List.dropLast_concat]
      · rintro ⟨path, hpath⟩
        exact hnot ⟨path, (path_cons.mp hpath).2.2⟩
  · rw [if_pos hmem]
    refine Or.inr ⟨s, rfl, rfl, ?_⟩
    rintro ⟨path, hpath⟩
    exact hmem (hpath.mem _ List.mem_cons_self)

theorem wordPathAux_decides (stop : Word) (s : State) (hdepth : s.words.card < depth) :
    Decides (Found s.words stop s.start s.pathBuff) (· = s)
      (∃ path, Path s.words stop s.start path) (wordPathAux stop depth s) := by
  induction depth generalizing s with
  | zero => cases hdepth
  | succ depth ih =>
    rw [wordPathAux]
    split
    case isTrue hstop =>
      refine Or.inl ⟨_, rfl, rfl, rfl, [], ?_, (List.append_nil _).symm⟩
      rw [hstop]
      exact path_nil s.words stop
    case isFalse hstop =>
      have hnext {path : List Word} (hpath : Path s.words stop s.start path) :
          ∃ v rest, path = v :: rest := by
        cases path with
        | nil => exact absurd hpath.last hstop
        | cons v rest => exact ⟨v, rest, rfl⟩
      split
      case isTrue hempty =>
        refine Or.inr ⟨s, rfl, rfl, ?_⟩
        rintro ⟨path, hpath⟩
        obtain ⟨v, rest, rfl⟩ := hnext hpath
        rw [Finset.card_eq_zero] at hempty
        have hv := hpath.mem v List.mem_cons_self
        rw [hempty] at hv
        simp at hv
      case isFalse =>
        have hchoices : ∀ choice ∈ List.range s.start.length ×ˢ letters, ∀ t, t = s →
            Decides (Found s.words stop s.start s.pathBuff) (· = s)
              (∃ path, Path s.words stop s.start (s.start.set choice.1 choice.2 :: path))
              (tryLetter (wordPathAux stop depth) choice t) := by
          rintro ⟨i, letter⟩ hchoice _ rfl
          obtain ⟨hi, hletter⟩ := List.mem_product.mp hchoice
          exact tryLetter_decides _ (List.mem_range.mp hi) hletter _ fun s' hless =>
            ih s' (by omega)
        refine (tries_decides _ _ hchoices rfl).congr ?_
        constructor
        · rintro ⟨choice, -, path, hpath⟩
          exact ⟨_, hpath⟩
        · rintro ⟨path, hpath⟩
          obtain ⟨v, rest, rfl⟩ := hnext hpath
          obtain ⟨i, hi, letter, hletter, rfl⟩ := (path_cons.mp hpath).1
          exact ⟨(i, letter), List.mem_product.mpr ⟨List.mem_range.mpr hi, hletter⟩, rest, hpath⟩

/-- The result is a path, and there is one exactly if single letters of the start can be changed
until it is the end, always to a word that is given or the end. The words are left as they were,
with the end. -/
theorem word_path (words : Finset Word) (start stop : Word) :
    ∃ found t, wordPath words start stop = some (found, t) ∧ t.words = insert stop words ∧
      (found = true ↔ Relation.ReflTransGen
        (fun u v => Changes u v ∧ v ∈ insert stop words) start stop) ∧
      (found = true → Path (insert stop words) stop start t.result) := by
  rcases wordPathAux_decides stop ⟨insert stop words, start, [], []⟩ (Nat.lt_succ_self _) with
    ⟨t, hrun, hfound⟩ | ⟨t, hrun, rfl, hnot⟩
  · obtain ⟨hwords, -, path, hpath, hresult⟩ := hfound
    rw [List.nil_append] at hresult
    refine ⟨true, t, hrun, hwords, iff_of_true rfl (exists_path_iff.mp ⟨path, hpath⟩), fun _ => ?_⟩
    rwa [hresult]
  · exact ⟨false, _, hrun, rfl, iff_of_false Bool.false_ne_true
      fun hreach => hnot (exists_path_iff.mpr hreach), fun hfalse => by cases hfalse⟩

end InterviewQuestions.WordPath
