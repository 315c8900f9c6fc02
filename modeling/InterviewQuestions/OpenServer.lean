import InterviewQuestions.Library.CString
import InterviewQuestions.Library.Scanf
import Mathlib.Algebra.GroupWithZero.Nat

/-! The open server of `linux_internals/open_server/daemon`: the request that `openclient.c`
sends and what `opend.c` makes of it. -/
namespace InterviewQuestions.OpenServer

open Library Library.Scanf

/-- `struct ucred` -/
structure Ucred where
  pid : Int32
  uid : UInt32
  gid : UInt32
deriving DecidableEq

/-- A message with its ancillary data. -/
structure Message where
  data : List UInt8
  creds : Option Ucred
deriving DecidableEq

/-! ## `openclient.c` -/

/-- What `getcwd(cwd_buff, size)` stores, if it does. -/
def getcwd (cwd : CString) (size : ℕ) : Option CString :=
  if cwd.length < size then some cwd else none

def slash : CString := ⟨[47], by decide⟩

/-- The contents of `cwd_buff`. -/
def cwdBuff (cwd path : CString) : Option CString :=
  if path.bytes.head? = some 47 then some CString.empty
  else
    match getcwd cwd 4095 with
    | none => none
    | some buff =>
        if buff.length = 0 ∨ buff.bytes.getLast? ≠ some 47 then some (buff.append slash)
        else some buff

/-- `"open %s%s %d\n"` -/
def printRequest (cwd path : CString) (mode : Int32) : List UInt8 :=
  [111, 112, 101, 110, 32] ++ cwd.bytes ++ path.bytes ++ [32] ++ printInt mode.toInt ++ [10]

/-- The message that `serv_open` sends. -/
def servOpen (cwd : CString) (creds : Ucred) (path : CString) (mode : Int32) : Option Message :=
  if path = CString.empty then none
  else
    match cwdBuff cwd path with
    | none => none
    | some buff =>
        if (printRequest buff path mode).length < 4096 then
          some ⟨printRequest buff path mode, some creds⟩
        else none

/-! ## `opend.c` -/

/-- What the daemon does about a request. -/
inductive Response where
  | noAnswer
  | sendErrno
  | opens (path : List UInt8) (omode : Int32)
deriving DecidableEq

/-- `"open %s %d"` -/
def requestFormat : List Directive :=
  [.byte 111, .byte 112, .byte 101, .byte 110, .space, .word, .space, .int]

/-- `%d` reads a `long`, at its bounds when the number is beyond them, and stores an `int`. -/
def storeInt (z : ℤ) : Int32 := Int32.ofInt (max (-2 ^ 63) (min z (2 ^ 63 - 1)))

def canAccess (_path : List UInt8) (_who : Ucred) : Bool := true

/-- `strdup` allocates the buffer that receives the path, or fails. -/
def serveClientRequest (strdup : Bool) (request : CString) (src : Ucred) : Response :=
  if strdup then
    match scan requestFormat request.bytes with
    | [.word buff, .int omode] =>
        if canAccess buff src then .opens buff (storeInt omode) else .sendErrno
    | _ => .noAnswer
  else .noAnswer

/-- `recvmsg` into `req_buff`, which is zeroed. -/
def reqBuff (message : Message) : List UInt8 :=
  let received := message.data.take 2047
  received ++ List.replicate (2048 - received.length) 0

def handleClientRequest (strdup : Bool) (message : Message) : Response :=
  if message.data = [] then .noAnswer
  else
    match message.creds with
    | none => .sendErrno
    | some src => serveClientRequest strdup (CString.ofBuffer (reqBuff message)) src

/-! The daemon opens what the client asked for exactly when the path has no white space, which
`%s` does not read. -/

/-- The absolute path of a request. -/
def absolutePath (cwd path : CString) : Option CString :=
  (cwdBuff cwd path).map fun buff => buff.append path

theorem storeInt_toInt (mode : Int32) : storeInt mode.toInt = mode := by
  have hle := Int32.toInt_lt mode
  have hge := Int32.le_toInt mode
  have hmin : min mode.toInt (2 ^ 63 - 1) = mode.toInt := by omega
  have hmax : max (-2 ^ 63) mode.toInt = mode.toInt := by omega
  rw [storeInt, hmin, hmax, Int32.ofInt_toInt]

theorem zero_not_mem_printRequest (cwd path : CString) (mode : Int32) :
    0 ∉ printRequest cwd path mode := by
  simp [printRequest, cwd.no_nul, path.no_nul, zero_not_mem_printInt]

/-- The request arrives in the daemon's buffer as it was printed. -/
theorem ofBuffer_reqBuff {message : Message} (hnul : 0 ∉ message.data)
    (hfits : message.data.length ≤ 2047) :
    (CString.ofBuffer (reqBuff message)).bytes = message.data := by
  have hpos : 2048 - message.data.length = (2047 - message.data.length) + 1 := by omega
  rw [reqBuff, List.take_of_length_le hfits, hpos, List.replicate_succ]
  exact CString.bytes_ofBuffer hnul _

/-- The fields that the daemon reads from a request whose path has no white space, whatever stands
behind the request. -/
theorem scan_printRequest_append (cwd path : CString) (mode : Int32) (rest : List UInt8)
    (hne : (cwd.append path).bytes ≠ [])
    (hspace : ∀ b ∈ (cwd.append path).bytes, isspace b = false) :
    scan requestFormat (printRequest cwd path mode ++ rest) =
      [.word (cwd.append path).bytes, .int mode.toInt] := by
  have hprint : printRequest cwd path mode ++ rest = 111 :: 112 :: 101 :: 110 :: 32 ::
      ((cwd.append path).bytes ++ 32 :: (printInt mode.toInt ++ 10 :: rest)) := by
    simp [printRequest, CString.append]
  have hhead : ∀ b ∈ ((cwd.append path).bytes ++ 32 :: (printInt mode.toInt ++ 10 :: rest)).head?,
      isspace b = false := by
    cases hbytes : (cwd.append path).bytes with
    | nil => exact absurd hbytes hne
    | cons c bytes =>
      intro b hb
      rw [List.cons_append, List.head?_cons, Option.mem_some_iff] at hb
      rw [← hb]
      apply hspace
      rw [hbytes]
      exact List.mem_cons_self
  rw [hprint, requestFormat, scan_byte, scan_byte, scan_byte, scan_byte, scan_space _ hhead,
    scan_word _ hne hspace (by simp [isspace]),
    scan_space _ (isspace_head_printInt mode.toInt (10 :: rest)),
    scan_int _ _ (by simp [isdigit])]
  rfl

theorem scan_printRequest (cwd path : CString) (mode : Int32) (hne : (cwd.append path).bytes ≠ [])
    (hspace : ∀ b ∈ (cwd.append path).bytes, isspace b = false) :
    scan requestFormat (printRequest cwd path mode) =
      [.word (cwd.append path).bytes, .int mode.toInt] := by
  rw [← scan_printRequest_append cwd path mode [] hne hspace, List.append_nil]

theorem append_ne_nil (cwd : CString) {path : CString} (hpath : path ≠ CString.empty) :
    (cwd.append path).bytes ≠ [] := by
  intro hnil
  exact hpath (CString.ext (List.append_eq_nil_iff.mp hnil).2)

/-- A request that is sent is printed from the absolute path. -/
theorem servOpen_eq_some {cwd path : CString} {creds : Ucred} {mode : Int32} {message : Message}
    (hsent : servOpen cwd creds path mode = some message) :
    path ≠ CString.empty ∧ ∃ buff, cwdBuff cwd path = some buff ∧
      message = ⟨printRequest buff path mode, some creds⟩ := by
  unfold servOpen at hsent
  by_cases hempty : path = CString.empty
  · rw [if_pos hempty] at hsent
    cases hsent
  · rw [if_neg hempty] at hsent
    constructor
    · exact hempty
    cases hbuff : cwdBuff cwd path with
    | none =>
      rw [hbuff] at hsent
      cases hsent
    | some buff =>
      rw [hbuff] at hsent
      simp only at hsent
      split at hsent
      case isTrue =>
        exists buff
        exact ⟨rfl, (Option.some.inj hsent).symm⟩
      case isFalse => cases hsent

/-- A request that the client sends and the daemon receives whole makes the daemon open exactly
the absolute path with the mode, if and only if the path has no white space (and `strdup` does
not fail). -/
theorem open_round_trip (strdup : Bool) (cwd path : CString) (creds : Ucred) (mode : Int32)
    (message : Message) (hsent : servOpen cwd creds path mode = some message)
    (hfits : message.data.length ≤ 2047) :
    (∃ file, absolutePath cwd path = some file ∧
      handleClientRequest strdup message = .opens file.bytes mode) ↔
    strdup = true ∧ ∀ file, absolutePath cwd path = some file →
      ∀ b ∈ file.bytes, isspace b = false := by
  obtain ⟨hne, buff, hbuff, hmessage⟩ := servOpen_eq_some hsent
  have hdata : message.data = printRequest buff path mode := by rw [hmessage]
  have hfile : absolutePath cwd path = some (buff.append path) := by
    rw [absolutePath, hbuff, Option.map_some]
  have hrequest : (CString.ofBuffer (reqBuff message)).bytes = printRequest buff path mode := by
    rw [← hdata]
    apply ofBuffer_reqBuff _ hfits
    rw [hdata]
    exact zero_not_mem_printRequest buff path mode
  have hhandle : handleClientRequest strdup message =
      serveClientRequest strdup (CString.ofBuffer (reqBuff message)) creds := by
    rw [handleClientRequest, hdata, if_neg (by simp [printRequest]), hmessage]
  rw [hhandle, serveClientRequest, hrequest]
  simp only [hfile, Option.some.injEq, forall_eq', exists_eq_left']
  constructor
  · intro hopens
    cases strdup with
    | false => cases hopens
    | true =>
      rw [if_pos rfl] at hopens
      constructor
      · rfl
      split at hopens
      case h_1 w omode hscan =>
        have hw : w = (buff.append path).bytes := by
          simp only [canAccess, if_true, Response.opens.injEq] at hopens
          exact hopens.1
        rw [← hw]
        exact isspace_of_mem_scan (by rw [hscan]; exact List.mem_cons_self)
      case h_2 => cases hopens
  · intro hcondition
    rw [if_pos hcondition.1,
      scan_printRequest buff path mode (append_ne_nil buff hne) hcondition.2]
    simp [canAccess, storeInt_toInt]

/-- `/etc/passwd`, to be read. -/
theorem open_round_trip_sample :
    (∃ file, absolutePath CString.empty
        ⟨[47, 101, 116, 99, 47, 112, 97, 115, 115, 119, 100], by decide⟩ = some file ∧
      handleClientRequest true ⟨printRequest CString.empty
          ⟨[47, 101, 116, 99, 47, 112, 97, 115, 115, 119, 100], by decide⟩ 0, some ⟨1, 0, 0⟩⟩ =
        .opens file.bytes 0) ↔
    true = true ∧ ∀ file, absolutePath CString.empty
        ⟨[47, 101, 116, 99, 47, 112, 97, 115, 115, 119, 100], by decide⟩ = some file →
      ∀ b ∈ file.bytes, isspace b = false :=
  open_round_trip true CString.empty
    ⟨[47, 101, 116, 99, 47, 112, 97, 115, 115, 119, 100], by decide⟩ ⟨1, 0, 0⟩ 0 _
    (by decide +kernel) (by decide +kernel)

/-- The client asks for `/a 5`; the daemon opens `/a` with mode 5. -/
theorem opens_other_file :
    servOpen CString.empty ⟨1, 0, 0⟩ ⟨[47, 97, 32, 53], by decide⟩ 0 =
        some ⟨[111, 112, 101, 110, 32, 47, 97, 32, 53, 32, 48, 10], some ⟨1, 0, 0⟩⟩ ∧
      absolutePath CString.empty ⟨[47, 97, 32, 53], by decide⟩ =
        some ⟨[47, 97, 32, 53], by decide⟩ ∧
      handleClientRequest true
          ⟨[111, 112, 101, 110, 32, 47, 97, 32, 53, 32, 48, 10], some ⟨1, 0, 0⟩⟩ =
        .opens [47, 97] 5 := by
  decide +kernel

end InterviewQuestions.OpenServer
