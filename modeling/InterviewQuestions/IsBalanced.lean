import InterviewQuestions.Library.Scanf
import Mathlib.Algebra.GroupWithZero.Nat
import Mathlib.Data.Tree.Basic

/-! The reading and printing of trees in `trees_graphs/is_balanced/solution.c`. There is no result
where an assertion fails, and where the recursion is more than `fuel` calls deep. -/
namespace InterviewQuestions.IsBalanced

open Library Scanf

inductive TokenType
  | integer
  | parenthesis
  | empty
  deriving DecidableEq

/-- In the union `val` the `c` is the low byte of the `i`. -/
structure Token where
  type : TokenType
  val : UInt32

def Token.i (token : Token) : Int32 := token.val.toInt32

def Token.c (token : Token) : UInt8 := token.val.toUInt8

def Token.setC (token : Token) (type : TokenType) (c : UInt8) : Token :=
  ⟨type, token.val / 256 * 256 + c.toUInt32⟩

/-- The characters of `stdin` that have not been read yet, and what is on `stderr`. -/
structure State where
  lastToken : Token
  input : List UInt8
  warnings : List String

/-- `EOF` is returned as -1. -/
def gettoken (s : State) : Option (UInt8 × State) :=
  match s.input with
  | [] => some (255, { s with lastToken := s.lastToken.setC .empty 255 })
  | c :: input =>
      if c = 40 ∨ c = 41 then
        some (c, { s with lastToken := s.lastToken.setC .parenthesis c, input := input })
      else if isspace c then
        some (c, { s with lastToken := s.lastToken.setC .empty c, input := input })
      else
        match scanInt (skipSpace (c :: input)) with
        | none => none
        | some (z, rest) =>
            if -2 ^ 31 ≤ z ∧ z < 2 ^ 31 then
              some (c, { s with lastToken := ⟨.integer, (Int32.ofInt z).toUInt32⟩, input := rest })
            else none

/-- The last token is `)`. -/
def State.closing (s : State) : Bool := s.lastToken.type = .parenthesis && s.lastToken.c = 41

def State.warnUnless (s : State) (ok : Bool) (text : String) : State :=
  if ok then s else { s with warnings := s.warnings ++ [text] }

def parseNode : ℕ → State → Option (BinaryTree Int32 × State)
  | 0, _ => none
  | fuel + 1, s =>
      if s.lastToken.type = .empty ∨ s.closing then some (.nil, s)
      else do
        let value := s.lastToken.i
        let (c, s) ← gettoken s
        let s := s.warnUnless (c = 40) "Warning: expected '('\n"
        let (_, s) ← gettoken s
        let (left, s) ← parseNode fuel s
        let s := s.warnUnless s.closing "Warning: expected ')'\n"
        let (c, s) ← gettoken s
        let s := s.warnUnless (c = 40) "Warning: expected '(' for second child\n"
        let (_, s) ← gettoken s
        let (right, s) ← parseNode fuel s
        let s := s.warnUnless s.closing "Warning: expected ')' to close second child\n"
        let (_, s) ← gettoken s
        some (.node value left right, s)

def printTree : BinaryTree Int32 → List UInt8
  | .nil => []
  | .node value left right =>
      printInt value.toInt ++ [40] ++ printTree left ++ [41, 40] ++ printTree right ++ [41]

/-- A tree is read as `main` reads it. -/
def readTree (fuel : ℕ) (s : State) : Option (BinaryTree Int32 × State) := do
  let (_, s) ← gettoken s
  parseNode fuel s

variable {token : Token} {input rest : List UInt8} {warnings : List String} {s s' : State}
  {c : UInt8}
  {t left right : BinaryTree Int32} {fuel : ℕ}

/-! ## Tokens -/

theorem setC_c (type : TokenType) (c : UInt8) : (token.setC type c).c = c := by
  apply UInt8.toNat_inj.mp
  have hc := c.toNat_lt
  have hval := token.val.toNat_lt
  rw [Token.c, Token.setC, UInt32.toNat_toUInt8, UInt32.toNat_add, UInt32.toNat_mul,
    UInt32.toNat_div, UInt8.toNat_toUInt32]
  simp only [UInt32.reduceToNat]
  omega

theorem gettoken_open : gettoken ⟨token, 40 :: input, warnings⟩ =
    some (40, ⟨token.setC .parenthesis 40, input, warnings⟩) := rfl

theorem gettoken_close : gettoken ⟨token, 41 :: input, warnings⟩ =
    some (41, ⟨token.setC .parenthesis 41, input, warnings⟩) := rfl

theorem gettoken_newline : gettoken ⟨token, 10 :: input, warnings⟩ =
    some (10, ⟨token.setC .empty 10, input, warnings⟩) := rfl

theorem gettoken_int (value : Int32) (hrest : ∀ b ∈ rest.head?, isdigit b = false) :
    ∃ c, gettoken ⟨token, printInt value.toInt ++ rest, warnings⟩ =
      some (c, ⟨⟨.integer, value.toUInt32⟩, rest, warnings⟩) := by
  have hspace := isspace_head_printInt value.toInt rest
  have hscan := scanInt_printInt value.toInt hrest
  have hskip := skipSpace_printInt value.toInt rest
  cases hinput : printInt value.toInt ++ rest with
  | nil => exact absurd (List.append_eq_nil_iff.mp hinput).1 (printInt_ne_nil _)
  | cons c input =>
    rw [hinput] at hspace hscan hskip
    refine ⟨c, ?_⟩
    have hparenthesis : ¬ (c = 40 ∨ c = 41) := by
      rintro (rfl | rfl)
      · simp [scanInt, scanNat, isdigit] at hscan
      · simp [scanInt, scanNat, isdigit] at hscan
    have hnot : ¬ isspace c = true := by simp [hspace c rfl]
    have hrange : -2 ^ 31 ≤ value.toInt ∧ value.toInt < 2 ^ 31 := ⟨value.le_toInt, value.toInt_lt⟩
    rw [gettoken]
    simp only [if_neg hparenthesis, if_neg hnot, hskip, hscan, if_pos hrange, Int32.ofInt_toInt]

/-! ## Trees -/

theorem closing_setC : State.closing ⟨token.setC .parenthesis 41, rest, warnings⟩ = true := by
  rw [State.closing, setC_c]
  rfl

/-- No tree. -/
theorem parseNode_nil (h : s.lastToken.type = .empty ∨ s.closing) :
    parseNode (fuel + 1) s = some (.nil, s) := by
  rw [parseNode, if_pos h]

theorem readTree_eq_some (h : readTree fuel s = some (t, s')) :
    ∃ c s₁, gettoken s = some (c, s₁) ∧ parseNode fuel s₁ = some (t, s') := by
  obtain ⟨⟨c, s₁⟩, hget, hparse⟩ := Option.bind_eq_some_iff.mp h
  exact ⟨c, s₁, hget, hparse⟩

/-- A character that is not part of the tree. -/
theorem gettoken_end (hc : c = 41 ∨ c = 10) (token : Token) (rest : List UInt8)
    (warnings : List String) :
    ∃ token', gettoken ⟨token, c :: rest, warnings⟩ = some (c, ⟨token', rest, warnings⟩) ∧
      (token'.type = .empty ∨ c = 41) ∧
        State.closing ⟨token', rest, warnings⟩ = decide (c = 41) := by
  rcases hc with rfl | rfl
  · exact ⟨_, gettoken_close, .inr rfl, closing_setC⟩
  · exact ⟨_, gettoken_newline, .inl rfl, rfl⟩

/-- What comes after the text of a tree is read as well, and it is known whether that was `)`. -/
theorem readTree_append (hc : c = 41 ∨ c = 10) (hfuel : t.numNodes < fuel) :
    ∃ token', readTree fuel ⟨token, printTree t ++ c :: rest, warnings⟩ =
        some (t, ⟨token', rest, warnings⟩) ∧
      State.closing ⟨token', rest, warnings⟩ = decide (c = 41) := by
  induction t generalizing token c rest fuel with
  | nil =>
    obtain ⟨fuel, rfl⟩ : ∃ n, fuel = n + 1 := ⟨fuel - 1, by omega⟩
    obtain ⟨token', hget, htype, hclosing⟩ := gettoken_end hc token rest warnings
    refine ⟨token', ?_, hclosing⟩
    rw [readTree, printTree, List.nil_append, hget]
    apply parseNode_nil
    refine htype.imp_right fun hc => ?_
    rw [hclosing, hc]
    rfl
  | node value left right ihl ihr =>
    obtain ⟨fuel, rfl⟩ : ∃ n, fuel = n + 1 := ⟨fuel - 1, by omega⟩
    rw [BinaryTree.numNodes] at hfuel
    have htext : printTree (.node value left right) ++ c :: rest =
        printInt value.toInt ++ 40 :: (printTree left ++ 41 :: 40 :: (printTree right ++
          41 :: c :: rest)) := by
      simp [printTree]
    obtain ⟨c₁, hvalue⟩ := @gettoken_int token (40 :: (printTree left ++ 41 :: 40 ::
      (printTree right ++ 41 :: c :: rest))) warnings value (by simp [isdigit])
    have hfirst (input : List UInt8) : ¬ (TokenType.integer = .empty ∨
        State.closing ⟨⟨.integer, value.toUInt32⟩, input, warnings⟩) := by
      simp [State.closing]
    obtain ⟨token₂, hleft, hclosed₂⟩ := @ihl (Token.setC ⟨.integer, value.toUInt32⟩ .parenthesis 40)
      (40 :: (printTree right ++ 41 :: c :: rest)) 41 fuel (.inl rfl) (by omega)
    obtain ⟨token₃, hright, hclosed₃⟩ := @ihr (token₂.setC .parenthesis 40) (c :: rest) 41 fuel
      (.inl rfl) (by omega)
    obtain ⟨token₄, hget, -, hclosing⟩ := gettoken_end hc token₃ rest warnings
    refine ⟨token₄, ?_, hclosing⟩
    obtain ⟨c₂, s₂, hget₂, hparse₂⟩ := readTree_eq_some hleft
    obtain ⟨c₃, s₃, hget₃, hparse₃⟩ := readTree_eq_some hright
    rw [htext, readTree, hvalue]
    simp only [Option.bind_eq_bind, Option.bind_some]
    rw [parseNode, if_neg (hfirst _)]
    simp only [Option.bind_eq_bind, gettoken_open, Option.bind_some, State.warnUnless, decide_true,
      if_true, hget₂, hparse₂, hclosed₂, hget₃, hparse₃, hclosed₃, hget]
    rfl

/-- What has been printed is read back, with the newline and without a warning. -/
theorem readTree_printTree (t : BinaryTree Int32) (token : Token) (rest : List UInt8)
    (warnings : List String) (hfuel : t.numNodes < fuel) :
    ∃ token', readTree fuel ⟨token, printTree t ++ 10 :: rest, warnings⟩ =
      some (t, ⟨token', rest, warnings⟩) := by
  obtain ⟨token', heq, -⟩ := readTree_append (.inr rfl) hfuel
  exact ⟨token', heq⟩

theorem readTree_printTree_three : ∃ token',
    readTree 4 ⟨⟨.empty, 0⟩, printTree (.node 0 (.node (-1) .nil .nil) (.node 4 .nil .nil)) ++ [10],
      []⟩ = some (.node 0 (.node (-1) .nil .nil) (.node 4 .nil .nil), ⟨token', [], []⟩) :=
  readTree_printTree _ _ _ _ (by decide)

end InterviewQuestions.IsBalanced
