import InterviewQuestions.Library.CString
import InterviewQuestions.Library.LockStep
import InterviewQuestions.Library.Scanf

/-! The echo server of `linux_internals/client_server/fifo` and one client: how they open the two
FIFOs and what they say to each other over them. -/
namespace InterviewQuestions.ClientServer

open Library Library.Scanf

/-! ## The conversation -/

/-- `"__QUIT__NOW__\n"` -/
def quitmsg : List UInt8 := [95, 95, 81, 85, 73, 84, 95, 95, 78, 79, 87, 95, 95, 10]

/-- One turn of the loop of `server.c`. -/
def serve (request : List UInt8) : Option (List UInt8) :=
  if (CString.ofBuffer request).bytes = quitmsg then none else some request

/-- The lines that `client.c` sends. -/
def requests (stdin : List UInt8) : List (List UInt8) :=
  (fgets 512 stdin).map fun chunk => (CString.ofBuffer chunk).bytes

def protocol : LockStep.Protocol Unit UInt8 where
  serve _ request := (serve request).map fun answer => ((), answer)
  farewell := quitmsg
  serverMax := 512
  clientMax := 511

/-! ## The connection -/

/-- `"%s_%ld_r"` and `"%s_%ld_w"` -/
def fifoPath (servname : List UInt8) (pid : ℤ) (kind : UInt8) : List UInt8 :=
  servname ++ [95] ++ printInt pid ++ [95, kind]

/-- What `connect_to` is about to do. -/
inductive ClientPc where
  | createRead
  | createWrite
  | contact
  -- `open_fifos` with `read_first`
  | openRead
  | awaitWriter
  | openWrite
  | awaitReader
  | unlinkRead
  | unlinkWrite
  | connected
  | failed
deriving DecidableEq

/-- What `accept_client` is about to do. -/
inductive ServerPc where
  | fgets
  | openWrite
  | awaitReader
  | openRead
  | awaitWriter
  | accepted
  | failed
deriving DecidableEq

/-- A FIFO: whether it has its name, and whether a reader and a writer have begun to open it. -/
structure Fifo where
  named : Bool
  reader : Bool
  writer : Bool

/-- The FIFOs by their paths, the line in the one of the server, the two processes, the paths that
the server uses, and the conversation. -/
structure State where
  fifos : List UInt8 → Fifo
  pidLine : Option (List UInt8)
  client : ClientPc
  server : ServerPc
  readpath : List UInt8
  writepath : List UInt8
  talk : LockStep.State Unit UInt8

def init (stdin : List UInt8) : State where
  fifos _ := ⟨false, false, false⟩
  pidLine := none
  client := .createRead
  server := .fgets
  readpath := []
  writepath := []
  talk := LockStep.init () (requests stdin)

namespace State

/-- `mkfifo` -/
def mkfifo (s : State) (path : List UInt8) (next : ClientPc) : State :=
  if (s.fifos path).named then { s with client := .failed }
  else { s with fifos := Function.update s.fifos path ⟨true, false, false⟩, client := next }

def unlink (s : State) (path : List UInt8) (next : ClientPc) : State :=
  { s with
    fifos := Function.update s.fifos path { s.fifos path with named := false }
    client := next }

/-- `connect_to`, whose `readpath` is the one that the server writes to. -/
def connectTo (servname : List UInt8) (pid : Int32) (s : State) : State :=
  let readpath := fifoPath servname pid.toInt 119
  let writepath := fifoPath servname pid.toInt 114
  match s.client with
  | .createRead => s.mkfifo readpath .createWrite
  | .createWrite => s.mkfifo writepath .contact
  | .contact => { s with pidLine := some (printInt pid.toInt ++ [10]), client := .openRead }
  | .openRead =>
      if (s.fifos readpath).named then { s with
        fifos := Function.update s.fifos readpath { s.fifos readpath with reader := true }
        client := .awaitWriter }
      else { s with client := .failed }
  | .awaitWriter => { s with client := .openWrite }
  | .openWrite =>
      if (s.fifos writepath).named then { s with
        fifos := Function.update s.fifos writepath { s.fifos writepath with writer := true }
        client := .awaitReader }
      else { s with client := .failed }
  | .awaitReader => { s with client := .unlinkRead }
  | .unlinkRead => s.unlink readpath .unlinkWrite
  | .unlinkWrite => s.unlink writepath .connected
  | .connected | .failed => s

/-- `accept_client`; `buf` is the line from the server's FIFO. -/
def acceptClient (servname : List UInt8) (s : State) : State :=
  match s.server with
  | .fgets =>
      match s.pidLine with
      | none => s
      | some buf =>
          match scan [.int] (CString.ofBuffer (buf.take 31)).bytes with
          | [.int pid] => { s with
              pidLine := none
              readpath := fifoPath servname pid 114
              writepath := fifoPath servname pid 119
              server := .openWrite }
          | _ => { s with server := .failed }
  | .openWrite =>
      if (s.fifos s.writepath).named then { s with
        fifos := Function.update s.fifos s.writepath { s.fifos s.writepath with writer := true }
        server := .awaitReader }
      else { s with server := .failed }
  | .awaitReader => { s with server := .openRead }
  | .openRead =>
      if (s.fifos s.readpath).named then { s with
        fifos := Function.update s.fifos s.readpath { s.fifos s.readpath with reader := true }
        server := .awaitWriter }
      else { s with server := .failed }
  | .awaitWriter => { s with server := .accepted }
  | .accepted | .failed => s

end State

/-- The next step of one process. -/
def step (servname : List UInt8) (pid : Int32) (s : State) : LockStep.Side → State × Unit
  | .client =>
      if s.client = .connected then
        ({ s with talk := (LockStep.step protocol s.talk .client).1 }, ())
      else (s.connectTo servname pid, ())
  | .server =>
      if s.server = .accepted then
        ({ s with talk := (LockStep.step protocol s.talk .server).1 }, ())
      else (s.acceptClient servname, ())

/-- `open` blocks until the other end has been opened, too. -/
def Enabled (servname : List UInt8) (pid : Int32) (s : State) : LockStep.Side → Prop
  | .client =>
      match s.client with
      | .awaitWriter => (s.fifos (fifoPath servname pid.toInt 119)).writer = true
      | .awaitReader => (s.fifos (fifoPath servname pid.toInt 114)).reader = true
      | .connected => LockStep.Enabled s.talk .client
      | .failed => False
      | _ => True
  | .server =>
      match s.server with
      | .fgets => s.pidLine.isSome = true
      | .awaitReader => (s.fifos s.writepath).reader = true
      | .awaitWriter => (s.fifos s.readpath).writer = true
      | .accepted => LockStep.Enabled s.talk .server
      | .failed => False
      | _ => True

instance decidableEnabled (servname : List UInt8) (pid : Int32) (s : State) (side : LockStep.Side) :
    Decidable (Enabled servname pid s side) := by
  unfold Enabled
  cases side with
  | client => cases s.client <;> simp only <;> infer_instance
  | server => cases s.server <;> simp only <;> infer_instance

/-! ## How far the two are -/

def ClientPc.index : ClientPc → ℕ
  | .createRead => 0
  | .createWrite => 1
  | .contact => 2
  | .openRead => 3
  | .awaitWriter => 4
  | .openWrite => 5
  | .awaitReader => 6
  | .unlinkRead => 7
  | .unlinkWrite => 8
  | .connected => 9
  | .failed => 10

def ServerPc.index : ServerPc → ℕ
  | .fgets => 0
  | .openWrite => 1
  | .awaitReader => 2
  | .openRead => 3
  | .awaitWriter => 4
  | .accepted => 5
  | .failed => 6

variable {servname : List UInt8} {pid : Int32} {s : State} {c v : ℕ} {side : LockStep.Side}

theorem fifoPath_ne (servname : List UInt8) (pid : ℤ) :
    fifoPath servname pid 119 ≠ fifoPath servname pid 114 := by
  intro h
  have hlast := List.append_cancel_left h
  cases hlast

/-- The client has done `c` steps of its connection and the server `v`. The path that the client
reads from has a name from its first step to the eighth, and so on. -/
structure Connecting (servname : List UInt8) (pid : Int32) (c v : ℕ) (s : State) : Prop where
  client : s.client.index = c
  server : s.server.index = v
  client_le : c ≤ 9
  server_le : v ≤ 5
  readFifo : s.fifos (fifoPath servname pid.toInt 119) =
    ⟨decide (1 ≤ c ∧ c ≤ 7), decide (4 ≤ c), decide (2 ≤ v)⟩
  writeFifo : s.fifos (fifoPath servname pid.toInt 114) =
    ⟨decide (2 ≤ c ∧ c ≤ 8), decide (4 ≤ v), decide (6 ≤ c)⟩
  pidLine : s.pidLine = if 3 ≤ c ∧ v = 0 then some (printInt pid.toInt ++ [10]) else none
  paths : 1 ≤ v → s.readpath = fifoPath servname pid.toInt 114 ∧
    s.writepath = fifoPath servname pid.toInt 119
  contacted : 1 ≤ v → 3 ≤ c
  readOpened : 5 ≤ c → 2 ≤ v
  writerOpened : 3 ≤ v → 4 ≤ c
  writeOpened : 7 ≤ c → 4 ≤ v
  readerOpened : 5 ≤ v → 6 ≤ c

theorem connecting_init (stdin : List UInt8) : Connecting servname pid 0 0 (init stdin) := by
  constructor <;> simp [init, ClientPc.index, ServerPc.index]

/-- A step of the client that leaves the FIFOs as they should be. -/
theorem Connecting.client_moves (h : Connecting servname pid c v s) {next : ClientPc}
    (hnext : next.index = c + 1) (hle : c + 1 ≤ 9)
    {fifos : List UInt8 → Fifo} {pidLine : Option (List UInt8)}
    (hread : fifos (fifoPath servname pid.toInt 119) =
      ⟨decide (1 ≤ c + 1 ∧ c + 1 ≤ 7), decide (4 ≤ c + 1), decide (2 ≤ v)⟩)
    (hwrite : fifos (fifoPath servname pid.toInt 114) =
      ⟨decide (2 ≤ c + 1 ∧ c + 1 ≤ 8), decide (4 ≤ v), decide (6 ≤ c + 1)⟩)
    (hline : pidLine = if 3 ≤ c + 1 ∧ v = 0 then some (printInt pid.toInt ++ [10]) else none)
    (hreadOpened : 5 ≤ c + 1 → 2 ≤ v) (hwriteOpened : 7 ≤ c + 1 → 4 ≤ v) :
    Connecting servname pid (c + 1) v
      { s with fifos := fifos, pidLine := pidLine, client := next } where
  client := hnext
  server := h.server
  client_le := hle
  server_le := h.server_le
  readFifo := hread
  writeFifo := hwrite
  pidLine := hline
  paths := h.paths
  contacted hv := Nat.le_succ_of_le (h.contacted hv)
  readOpened := hreadOpened
  writerOpened hv := Nat.le_succ_of_le (h.writerOpened hv)
  writeOpened := hwriteOpened
  readerOpened hv := Nat.le_succ_of_le (h.readerOpened hv)

/-- No `mkfifo` and no `open` of the client fails. -/
theorem Connecting.connectTo (h : Connecting servname pid c v s) (hc : c < 9)
    (hside : Enabled servname pid s .client) :
    Connecting servname pid (c + 1) v (s.connectTo servname pid) := by
  have hindex := h.client
  have hread := h.readFifo
  have hwrite := h.writeFifo
  have hline := h.pidLine
  have hcontacted := h.contacted
  have hne := fifoPath_ne servname pid.toInt
  unfold Enabled at hside
  unfold State.connectTo
  cases hpc : s.client with
  | failed =>
    rw [hpc] at hside
    exact hside.elim
  | connected =>
    rw [hpc, ClientPc.index] at hindex
    omega
  | createRead =>
    rw [hpc, ClientPc.index] at hindex
    subst hindex
    obtain rfl : v = 0 := by omega
    have hfree : (s.fifos (fifoPath servname pid.toInt 119)).named = false := by simp [hread]
    simp only [State.mkfifo, hfree, Bool.false_eq_true, if_false]
    refine h.client_moves rfl (by omega) ?_ ?_ ?_ (by omega) (by omega)
    · simp
    · simp [hne.symm, hwrite]
    · simp [hline]
  | createWrite =>
    rw [hpc, ClientPc.index] at hindex
    subst hindex
    obtain rfl : v = 0 := by omega
    have hfree : (s.fifos (fifoPath servname pid.toInt 114)).named = false := by simp [hwrite]
    simp only [State.mkfifo, hfree, Bool.false_eq_true, if_false]
    refine h.client_moves rfl (by omega) ?_ ?_ ?_ (by omega) (by omega)
    · simp [hne, hread]
    · simp
    · simp [hline]
  | contact =>
    rw [hpc, ClientPc.index] at hindex
    subst hindex
    obtain rfl : v = 0 := by omega
    refine h.client_moves rfl (by omega) ?_ ?_ ?_ (by omega) (by omega)
    · simp [hread]
    · simp [hwrite]
    · simp
  | openRead =>
    rw [hpc, ClientPc.index] at hindex
    subst hindex
    have hnamed : (s.fifos (fifoPath servname pid.toInt 119)).named = true := by simp [hread]
    simp only [hnamed, if_true]
    refine h.client_moves rfl (by omega) ?_ ?_ ?_ (by omega) (by omega)
    · simp [hread]
    · simp [hne.symm, hwrite]
    · simp [hline]
  | awaitWriter =>
    rw [hpc, ClientPc.index] at hindex
    rw [hpc] at hside
    subst hindex
    have hopened : 2 ≤ v := by simpa [hread] using hside
    refine h.client_moves rfl (by omega) ?_ ?_ ?_ (fun _ => hopened) (by omega)
    · simp [hread]
    · simp [hwrite]
    · simp [hline]
  | openWrite =>
    rw [hpc, ClientPc.index] at hindex
    subst hindex
    have hnamed : (s.fifos (fifoPath servname pid.toInt 114)).named = true := by simp [hwrite]
    simp only [hnamed, if_true]
    refine h.client_moves rfl (by omega) ?_ ?_ ?_ (fun _ => h.readOpened (by omega)) (by omega)
    · simp [hne, hread]
    · simp [hwrite]
    · simp [hline]
  | awaitReader =>
    rw [hpc, ClientPc.index] at hindex
    rw [hpc] at hside
    subst hindex
    have hopened : 4 ≤ v := by simpa [hwrite] using hside
    refine h.client_moves rfl (by omega) ?_ ?_ ?_ (fun _ => h.readOpened (by omega))
      (fun _ => hopened)
    · simp [hread]
    · simp [hwrite]
    · simp [hline]
  | unlinkRead =>
    rw [hpc, ClientPc.index] at hindex
    subst hindex
    refine h.client_moves rfl (by omega) ?_ ?_ ?_ (fun _ => h.readOpened (by omega))
      (fun _ => h.writeOpened (by omega))
    · simp [hread]
    · simp [hne.symm, hwrite]
    · simp [hline]
  | unlinkWrite =>
    rw [hpc, ClientPc.index] at hindex
    subst hindex
    refine h.client_moves rfl (by omega) ?_ ?_ ?_ (fun _ => h.readOpened (by omega))
      (fun _ => h.writeOpened (by omega))
    · simp [hne, hread]
    · simp [hwrite]
    · simp [hline]

/-- The server reads the id that the client has written. -/
theorem scan_pidLine (pid : Int32) :
    scan [.int] (CString.ofBuffer ((printInt pid.toInt ++ [10]).take 31)).bytes =
      [.int pid.toInt] := by
  have hlt := Int32.toInt_lt pid
  have hle := Int32.le_toInt pid
  have hlen : (printInt pid.toInt).length ≤ 11 :=
    length_printInt_le (k := 10) (by decide) (by omega)
  have hbytes : (CString.ofBuffer (printInt pid.toInt ++ [10])).bytes =
      printInt pid.toInt ++ [10] := by
    show (printInt pid.toInt ++ [10]).takeWhile (· ≠ 0) = _
    rw [List.takeWhile_eq_self_iff]
    intro b hb
    simp only [ne_eq, decide_not, Bool.not_eq_eq_eq_not, Bool.not_true, decide_eq_false_iff_not]
    rintro rfl
    rcases List.mem_append.mp hb with hdigits | hnewline
    · exact zero_not_mem_printInt _ hdigits
    · simp at hnewline
  rw [List.take_of_length_le (by simp; omega), hbytes, scan_int [] _ (by simp [isdigit])]
  rfl

/-- A step of the server that leaves the FIFOs as they should be. -/
theorem Connecting.server_moves (h : Connecting servname pid c v s) {next : ServerPc}
    (hnext : next.index = v + 1) (hle : v + 1 ≤ 5)
    {fifos : List UInt8 → Fifo} {pidLine : Option (List UInt8)} {readpath writepath : List UInt8}
    (hread : fifos (fifoPath servname pid.toInt 119) =
      ⟨decide (1 ≤ c ∧ c ≤ 7), decide (4 ≤ c), decide (2 ≤ v + 1)⟩)
    (hwrite : fifos (fifoPath servname pid.toInt 114) =
      ⟨decide (2 ≤ c ∧ c ≤ 8), decide (4 ≤ v + 1), decide (6 ≤ c)⟩)
    (hline : pidLine = none) (hreadpath : readpath = fifoPath servname pid.toInt 114)
    (hwritepath : writepath = fifoPath servname pid.toInt 119) (hcontacted : 3 ≤ c)
    (hwriterOpened : 3 ≤ v + 1 → 4 ≤ c) (hreaderOpened : 5 ≤ v + 1 → 6 ≤ c) :
    Connecting servname pid c (v + 1)
      { s with fifos := fifos, pidLine := pidLine, server := next, readpath := readpath,
               writepath := writepath } where
  client := h.client
  server := hnext
  client_le := h.client_le
  server_le := hle
  readFifo := hread
  writeFifo := hwrite
  pidLine := by simp [hline]
  paths _ := ⟨hreadpath, hwritepath⟩
  contacted _ := hcontacted
  readOpened hc := Nat.le_succ_of_le (h.readOpened hc)
  writerOpened := hwriterOpened
  writeOpened hc := Nat.le_succ_of_le (h.writeOpened hc)
  readerOpened := hreaderOpened

/-- The server understands the line, and no `open` of its fails. -/
theorem Connecting.acceptClient (h : Connecting servname pid c v s) (hv : v < 5)
    (hside : Enabled servname pid s .server) :
    Connecting servname pid c (v + 1) (s.acceptClient servname) := by
  have hindex := h.server
  have hread := h.readFifo
  have hwrite := h.writeFifo
  have hline := h.pidLine
  have hne := fifoPath_ne servname pid.toInt
  unfold Enabled at hside
  unfold State.acceptClient
  cases hpc : s.server with
  | failed =>
    rw [hpc] at hside
    exact hside.elim
  | accepted =>
    rw [hpc, ServerPc.index] at hindex
    omega
  | fgets =>
    rw [hpc, ServerPc.index] at hindex
    rw [hpc] at hside
    subst hindex
    have hcontacted : 3 ≤ c := by
      by_contra hnot
      simp [hline, hnot] at hside
    have hsome : s.pidLine = some (printInt pid.toInt ++ [10]) := by
      rw [hline, if_pos ⟨hcontacted, rfl⟩]
    simp only [hsome, scan_pidLine]
    refine h.server_moves rfl (by omega) ?_ ?_ rfl rfl rfl hcontacted (by omega) (by omega)
    · simp [hread]
    · simp [hwrite]
  | openWrite =>
    rw [hpc, ServerPc.index] at hindex
    subst hindex
    obtain ⟨hreadpath, hwritepath⟩ := h.paths le_rfl
    have hcontacted := h.contacted le_rfl
    have hnot : c ≤ 7 := by
      by_contra hc
      have hlate := h.readOpened (by omega)
      omega
    have hnamed : (s.fifos s.writepath).named = true := by
      rw [hwritepath, hread]
      simp [hnot]
      omega
    simp only [hnamed, if_true]
    refine h.server_moves rfl (by omega) ?_ ?_ ?_ hreadpath hwritepath hcontacted (by omega)
      (by omega)
    · simp [hwritepath, hread]
      omega
    · simp [hwritepath, hne.symm, hwrite]
    · simp [hline]
  | awaitReader =>
    rw [hpc, ServerPc.index] at hindex
    rw [hpc] at hside
    subst hindex
    obtain ⟨hreadpath, hwritepath⟩ := h.paths (by omega)
    have hopened : 4 ≤ c := by simpa [hwritepath, hread] using hside
    refine h.server_moves rfl (by omega) ?_ ?_ ?_ hreadpath hwritepath (by omega)
      (fun _ => hopened) (by omega)
    · simp [hread]
    · simp [hwrite]
    · simp [hline]
  | openRead =>
    rw [hpc, ServerPc.index] at hindex
    subst hindex
    obtain ⟨hreadpath, hwritepath⟩ := h.paths (by omega)
    have hopened := h.writerOpened le_rfl
    have hnot : c ≤ 8 := by
      by_contra hc
      have hlate := h.writeOpened (by omega)
      omega
    have hnamed : (s.fifos s.readpath).named = true := by
      rw [hreadpath, hwrite]
      simp [hnot]
      omega
    simp only [hnamed, if_true]
    refine h.server_moves rfl (by omega) ?_ ?_ ?_ hreadpath hwritepath (by omega)
      (fun _ => hopened) (by omega)
    · simp [hreadpath, hne, hread]
    · simp [hreadpath, hwrite]
      omega
    · simp [hline]
  | awaitWriter =>
    rw [hpc, ServerPc.index] at hindex
    rw [hpc] at hside
    subst hindex
    obtain ⟨hreadpath, hwritepath⟩ := h.paths (by omega)
    have hopened : 6 ≤ c := by simpa [hreadpath, hwrite] using hside
    refine h.server_moves rfl (by omega) ?_ ?_ ?_ hreadpath hwritepath (by omega) (by omega)
      (fun _ => hopened)
    · simp [hread]
    · simp [hwrite]
    · simp [hline]

/-! ## Sessions -/

/-- The two are connecting or connected, and in step in what they say. -/
def Session (servname : List UInt8) (pid : Int32) (stdin : List UInt8) (s : State) : Prop :=
  (∃ c v, Connecting servname pid c v s) ∧
    LockStep.InStep protocol (requests stdin) () s.talk

/-- The steps that are left. -/
def remaining (s : State) : ℕ :=
  (9 - s.client.index) + (5 - s.server.index) + LockStep.remaining s.talk

theorem leaves_quit : LockStep.Leaves protocol () := Or.inr ⟨by decide, by decide⟩

theorem Connecting.client_connected (h : Connecting servname pid c v s) :
    s.client = .connected ↔ c = 9 := by
  have hindex := h.client
  have hle := h.client_le
  constructor
  · intro hpc
    rw [hpc, ClientPc.index] at hindex
    exact hindex.symm
  · rintro rfl
    cases hpc : s.client <;> simp_all [ClientPc.index]

theorem Connecting.server_accepted (h : Connecting servname pid c v s) :
    s.server = .accepted ↔ v = 5 := by
  have hindex := h.server
  have hle := h.server_le
  constructor
  · intro hpc
    rw [hpc, ServerPc.index] at hindex
    exact hindex.symm
  · rintro rfl
    cases hpc : s.server <;> simp_all [ServerPc.index]

theorem connectTo_talk (s : State) : (s.connectTo servname pid).talk = s.talk := by
  unfold State.connectTo State.mkfifo State.unlink
  cases s.client with
  | createRead | createWrite | openRead | openWrite =>
    simp only
    split <;> rfl
  | _ => rfl

theorem acceptClient_talk (s : State) : (s.acceptClient servname).talk = s.talk := by
  unfold State.acceptClient
  cases s.server with
  | fgets =>
    simp only
    split
    case h_1 => rfl
    case h_2 =>
      split <;> rfl
  | openWrite | openRead =>
    simp only
    split <;> rfl
  | _ => rfl

/-- What they say changes nothing in how they are connected. -/
theorem Connecting.talks (h : Connecting servname pid c v s) (talk : LockStep.State Unit UInt8) :
    Connecting servname pid c v { s with talk := talk } := { h with }

theorem Session.step {stdin : List UInt8} (h : Session servname pid stdin s)
    (hside : Enabled servname pid s side) :
    Session servname pid stdin (step servname pid s side).1 ∧
      remaining (step servname pid s side).1 < remaining s := by
  obtain ⟨⟨c, v, hconnecting⟩, htalk⟩ := h
  cases side with
  | client =>
    unfold ClientServer.step
    by_cases hpc : s.client = .connected
    · rw [Enabled, hpc] at hside
      obtain ⟨hnext, hless⟩ := htalk.step leaves_quit hside
      simp only [if_pos hpc]
      refine ⟨⟨⟨c, v, hconnecting.talks _⟩, hnext⟩, ?_⟩
      simp only [remaining]
      omega
    · have hc : c < 9 := lt_of_le_of_ne hconnecting.client_le
        fun heq => hpc (hconnecting.client_connected.mpr heq)
      have hnext := hconnecting.connectTo hc hside
      simp only [if_neg hpc]
      refine ⟨⟨⟨c + 1, v, hnext⟩, by rwa [connectTo_talk]⟩, ?_⟩
      simp only [remaining, connectTo_talk, hnext.client, hnext.server, hconnecting.client,
        hconnecting.server]
      omega
  | server =>
    unfold ClientServer.step
    by_cases hpc : s.server = .accepted
    · rw [Enabled, hpc] at hside
      obtain ⟨hnext, hless⟩ := htalk.step leaves_quit hside
      simp only [if_pos hpc]
      refine ⟨⟨⟨c, v, hconnecting.talks _⟩, hnext⟩, ?_⟩
      simp only [remaining]
      omega
    · have hv : v < 5 := lt_of_le_of_ne hconnecting.server_le
        fun heq => hpc (hconnecting.server_accepted.mpr heq)
      have hnext := hconnecting.acceptClient hv hside
      simp only [if_neg hpc]
      refine ⟨⟨⟨c, v + 1, hnext⟩, by rwa [acceptClient_talk]⟩, ?_⟩
      simp only [remaining, acceptClient_talk, hnext.client, hnext.server, hconnecting.client,
        hconnecting.server]
      omega

/-- While one of the two is not connected, it or the other can go on. -/
theorem Connecting.proceeds (h : Connecting servname pid c v s) (hcv : c < 9 ∨ v < 5) :
    ∃ side, Enabled servname pid s side := by
  have hline := h.pidLine
  have hread := h.readFifo
  have hwrite := h.writeFifo
  have hcindex := h.client
  have hvindex := h.server
  have hcle := h.client_le
  have hvle := h.server_le
  -- the server can go on where the client waits
  have hserver : (3 ≤ c ∧ v ≤ 1) ∨ (4 ≤ c ∧ v ≤ 3) ∨ (6 ≤ c ∧ v ≤ 4) →
      Enabled servname pid s .server := by
    intro hwaits
    unfold Enabled
    cases hpc : s.server with
    | fgets =>
      rw [hpc, ServerPc.index] at hvindex
      simp [hline, ← hvindex]
      omega
    | openWrite | openRead => trivial
    | awaitReader =>
      rw [hpc, ServerPc.index] at hvindex
      simp only [(h.paths (by omega)).2, hread, decide_eq_true_eq]
      omega
    | awaitWriter =>
      rw [hpc, ServerPc.index] at hvindex
      simp only [(h.paths (by omega)).1, hwrite, decide_eq_true_eq]
      omega
    | accepted =>
      rw [hpc, ServerPc.index] at hvindex
      omega
    | failed =>
      rw [hpc, ServerPc.index] at hvindex
      omega
  cases hpc : s.client with
  | awaitWriter =>
    rw [hpc, ClientPc.index] at hcindex
    by_cases hopened : 2 ≤ v
    · refine ⟨.client, ?_⟩
      unfold Enabled
      simp only [hpc, hread, decide_eq_true_eq]
      exact hopened
    · exact ⟨.server, hserver (by omega)⟩
  | awaitReader =>
    rw [hpc, ClientPc.index] at hcindex
    by_cases hopened : 4 ≤ v
    · refine ⟨.client, ?_⟩
      unfold Enabled
      simp only [hpc, hwrite, decide_eq_true_eq]
      exact hopened
    · exact ⟨.server, hserver (by omega)⟩
  | connected =>
    rw [hpc, ClientPc.index] at hcindex
    exact ⟨.server, hserver (by omega)⟩
  | failed =>
    rw [hpc, ClientPc.index] at hcindex
    omega
  | _ =>
    refine ⟨.client, ?_⟩
    unfold Enabled
    simp only [hpc]

theorem Session.proceeds {stdin : List UInt8} (h : Session servname pid stdin s)
    (hs : s.talk.server.isSome = true) : ∃ side, Enabled servname pid s side := by
  obtain ⟨⟨c, v, hconnecting⟩, htalk⟩ := h
  by_cases hcv : c < 9 ∨ v < 5
  · exact hconnecting.proceeds hcv
  · have hcle := hconnecting.client_le
    have hvle := hconnecting.server_le
    have hclient := hconnecting.client_connected.mpr (by omega)
    have hserver := hconnecting.server_accepted.mpr (by omega)
    obtain ⟨side, hside⟩ := htalk.proceeds hs
    refine ⟨side, ?_⟩
    unfold Enabled
    cases side with
    | client => simpa only [hclient] using hside
    | server => simpa only [hserver] using hside

/-! ## Runs -/

/-- Text without a line that asks the server to leave is echoed line by line. -/
theorem answers_echo {stdin : List UInt8} (h : 0 ∉ stdin)
    (hquit : quitmsg ∉ requests stdin) :
    LockStep.Answers protocol () (requests stdin) (requests stdin) () := by
  have hchunk : ∀ request ∈ requests stdin, request ≠ [] ∧ request.length ≤ 511 ∧
      (CString.ofBuffer request).bytes = request := by
    intro request hrequest
    obtain ⟨chunk, hmem, rfl⟩ := List.mem_map.mp hrequest
    obtain ⟨hne, hlen, htext⟩ := mem_fgets (by decide) hmem
    have hall : ∀ b ∈ chunk, (b ≠ 0) = true := by
      intro b hb
      simp only [ne_eq, eq_iff_iff, iff_true]
      rintro rfl
      exact h (htext 0 hb)
    have hbytes : (CString.ofBuffer chunk).bytes = chunk := by
      show chunk.takeWhile (· ≠ 0) = chunk
      rw [List.takeWhile_eq_self_iff]
      intro b hb
      simpa using hall b hb
    rw [hbytes]
    exact ⟨hne, by omega, hbytes⟩
  have hanswers : ∀ lines : List (List UInt8),
      (∀ request ∈ lines, request ≠ [] ∧ request.length ≤ 511 ∧
        (CString.ofBuffer request).bytes = request) → quitmsg ∉ lines →
      LockStep.Answers protocol () lines lines () := by
    intro lines hlines hnot
    induction lines with
    | nil => rfl
    | cons line lines ih =>
      obtain ⟨hne, hlen, hbytes⟩ := hlines line List.mem_cons_self
      rw [List.mem_cons, not_or] at hnot
      have hserve : serve line = some line := by
        rw [serve, hbytes, if_neg (Ne.symm hnot.1)]
      refine ⟨hne, le_trans hlen (by decide), hne, hlen, (), ?_, ?_⟩
      · simp [protocol, hserve]
      · exact ih (fun r hr => hlines r (List.mem_cons_of_mem line hr)) hnot.2
  exact hanswers _ hchunk hquit

/-- Neither process fails to connect, and what the client has received are the first of its lines.
No run is longer than the connection, four steps for each line, and two for the end, and one that
cannot go on has echoed them all: the server has left and the two FIFOs have no names. -/
def Echoed (servname : List UInt8) (pid : Int32) (stdin : List UInt8)
    (sides : List LockStep.Side) : Prop :=
  let s := (Machine.run (step servname pid) (init stdin) sides).1
  s.client ≠ .failed ∧ s.server ≠ .failed ∧ s.talk.received <+: requests stdin ∧
    sides.length ≤ 4 * (requests stdin).length + 16 ∧
    ((∀ side, ¬ Enabled servname pid s side) →
      s.talk.received = requests stdin ∧ s.talk.server.isSome = false ∧
      (s.fifos (fifoPath servname pid.toInt 119)).named = false ∧
      (s.fifos (fifoPath servname pid.toInt 114)).named = false)

end InterviewQuestions.ClientServer
