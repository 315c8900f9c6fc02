import InterviewQuestions.Library.LockStep
import InterviewQuestions.OpenServer

/-! The driver and the coprocess of `linux_internals/coprocesses`, compiled without `USE_STDIO`. -/
namespace InterviewQuestions.Coprocesses

open Library Library.Scanf

/-! ## `cproc.c` -/

/-- `"Invalid arguments.\n"` -/
def invalidArgErr : List UInt8 :=
  [73, 110, 118, 97, 108, 105, 100, 32, 97, 114, 103, 117, 109, 101, 110, 116, 115, 46, 10]

/-- One turn of the loop: `read` overwrites the start of `input_buff`, which is not cleared. The sum
is the one of two's complement. -/
def cproc (inputBuff : List UInt8) (request : List UInt8) : List UInt8 × List UInt8 :=
  let inputBuff := request ++ inputBuff.drop request.length
  match scan (List.replicate 2 .int) (CString.ofBuffer inputBuff).bytes with
  | [.int op1, .int op2] =>
      (inputBuff, printInt (OpenServer.storeInt op1 + OpenServer.storeInt op2).toInt ++ [10])
  | _ => (inputBuff, invalidArgErr)

/-! ## `driver.c` -/

/-- What `fgets` and `strlen` leave of the lines of the input. -/
def requests (stdin : List UInt8) : List (List UInt8) :=
  (fgets 32 stdin).map fun chunk => (CString.ofBuffer chunk).bytes

/-- Both `read`s ask for 32 bytes. The driver ends without a word when its input ends. -/
def protocol : LockStep.Protocol (List UInt8) UInt8 where
  serve inputBuff request := some (cproc inputBuff request)
  farewell := []
  serverMax := 32
  clientMax := 32

/-- `input_buff` is zeroed before the first `read`. -/
def inputBuff : List UInt8 := List.replicate 32 0

/-- What the coprocess answers to the lines, one after another. -/
def answers (stdin : List UInt8) : List (List UInt8) :=
  (Machine.run cproc inputBuff (requests stdin)).2

/-! ## Answers -/

theorem length_printInt_toInt (n : Int32) : (printInt n.toInt).length ≤ 11 := by
  apply length_printInt_le (k := 10) (by decide)
  have hlt := Int32.toInt_lt n
  have hle := Int32.le_toInt n
  omega

theorem cproc_answer (buff request : List UInt8) :
    (cproc buff request).2 ≠ [] ∧ (cproc buff request).2.length ≤ 32 := by
  unfold cproc
  simp only
  split
  case h_1 op1 op2 hscan =>
    have hlen := length_printInt_toInt (OpenServer.storeInt op1 + OpenServer.storeInt op2)
    simp only [ne_eq, List.append_eq_nil_iff, List.cons_ne_nil, and_false, not_false_eq_true,
      List.length_append, List.length_cons, List.length_nil, true_and]
    omega
  case h_2 =>
    have hlen : invalidArgErr ≠ [] ∧ invalidArgErr.length ≤ 32 := by decide
    exact hlen

theorem ofBuffer_bytes {bytes : List UInt8} (h : 0 ∉ bytes) :
    (CString.ofBuffer bytes).bytes = bytes := by
  show bytes.takeWhile (· ≠ 0) = bytes
  rw [List.takeWhile_eq_self_iff]
  intro b hb
  simp only [ne_eq, decide_not, Bool.not_eq_eq_eq_not, Bool.not_true, decide_eq_false_iff_not]
  rintro rfl
  exact h hb

/-- Text is sent as it is. -/
theorem requests_eq {stdin : List UInt8} (h : 0 ∉ stdin) : requests stdin = fgets 32 stdin := by
  unfold requests
  refine (List.map_congr_left fun chunk hchunk => ?_).trans (List.map_id _)
  exact ofBuffer_bytes fun hzero => h ((mem_fgets (by decide) hchunk).2.2 0 hzero)

theorem answers_protocol {stdin : List UInt8} (h : 0 ∉ stdin) :
    LockStep.Answers protocol inputBuff (requests stdin) (answers stdin)
      (Machine.run cproc inputBuff (requests stdin)).1 := by
  apply LockStep.answers_run (fun _ _ => rfl)
  · intro request hrequest
    rw [requests_eq h] at hrequest
    obtain ⟨hne, hlen, -⟩ := mem_fgets (by decide) hrequest
    exact ⟨hne, le_trans (Nat.le_of_lt hlen) (by decide)⟩
  · exact cproc_answer

/-- A line with two numbers and nothing before them, whose sum is an `int`. -/
structure Addition (line : List UInt8) (a b : Int32) : Prop where
  endsLine : EndsLine line
  numbers : scan (List.replicate 2 .int) line = [.int a.toInt, .int b.toInt]
  text : 0 ∉ line
  le : -2 ^ 31 ≤ a.toInt + b.toInt
  lt : a.toInt + b.toInt < 2 ^ 31

/-- Whatever an earlier line has left in the buffer, the answer is the sum. -/
theorem cproc_addition {line : List UInt8} {a b : Int32} (h : Addition line a b)
    (buff : List UInt8) : (cproc buff line).2 = printInt (a.toInt + b.toInt) ++ [10] := by
  have hbytes : (CString.ofBuffer (line ++ buff.drop line.length)).bytes =
      line ++ (buff.drop line.length).takeWhile (· ≠ 0) := by
    show (line ++ buff.drop line.length).takeWhile (· ≠ 0) = _
    rw [List.takeWhile_append_of_pos]
    intro c hc
    simp only [ne_eq, decide_not, Bool.not_eq_eq_eq_not, Bool.not_true, decide_eq_false_iff_not]
    rintro rfl
    exact h.text hc
  have hscan := scan_ints_line (n := 2) h.endsLine (by rw [h.numbers]; rfl)
    ((buff.drop line.length).takeWhile (· ≠ 0))
  rw [h.numbers] at hscan
  have hsum : (a + b).toInt = a.toInt + b.toInt := by
    rw [Int32.toInt_add]
    exact Int.bmod_eq_of_le (by have := h.le; omega) (by have := h.lt; omega)
  rw [cproc, hbytes, hscan]
  simp only [OpenServer.storeInt_toInt, hsum]

/-- Each output is the one of a step, from some state. -/
theorem answer_of_request {buff : List UInt8} {lines : List (List UInt8)} {k : ℕ}
    {line : List UInt8} (hline : lines[k]? = some line) :
    ∃ buff', (Machine.run cproc buff lines).2[k]? = some (cproc buff' line).2 := by
  induction lines generalizing buff k with
  | nil => simp at hline
  | cons first lines ih =>
    rw [Machine.run_cons]
    cases k with
    | zero =>
      rw [List.getElem?_cons_zero] at hline
      exact ⟨buff, by rw [List.getElem?_cons_zero, Option.some.inj hline]⟩
    | succ k =>
      rw [List.getElem?_cons_succ] at hline ⊢
      exact ih hline

/-- However driver and coprocess interleave, and whatever other lines the input has, they come to
its end, each line gets one answer, and each addition its sum. -/
def Answered (stdin : List UInt8) (sides : List LockStep.Side) : Prop :=
  LockStep.Converses protocol inputBuff (requests stdin) (answers stdin) sides ∧
    ∀ (k : ℕ) line a b, (requests stdin)[k]? = some line → Addition line a b →
      (answers stdin)[k]? = some (printInt (a.toInt + b.toInt) ++ [10])

end InterviewQuestions.Coprocesses
