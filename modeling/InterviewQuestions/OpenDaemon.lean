import InterviewQuestions.Library.Machine
import InterviewQuestions.OpenServer
import Mathlib.Logic.Function.Basic

/-! The daemon of `linux_internals/open_server` and its clients, who are all connected. The daemon
reads their requests into one buffer, which it never clears. -/
namespace InterviewQuestions.OpenServer

open Library Library.Scanf Machine

variable {ι : Type*} [DecidableEq ι]

/-! ## `oserver.c` -/

/-- What `open(2)` returns, or `errno`. -/
abbrev Opened := Except {errno : Int32 // errno ≠ 0} Int32

/-- `status` with its ancillary data. -/
structure Reply where
  status : Int32
  fd : Option Int32
  creds : Option Ucred

def sendFd (server : Ucred) (fd : Int32) : Reply := ⟨0, some fd, some server⟩

def sendErrno (server : Ucred) (errno : Int32) : Reply := ⟨errno, none, some server⟩

def ebadmsg : Int32 := 74

/-- The descriptor, or `errno`. -/
def recvFd (reply : Reply) : Except Int32 Int32 :=
  if reply.status ≠ 0 then
    if reply.fd.isNone ∧ reply.creds.isSome then .error reply.status else .error ebadmsg
  else
    match reply.fd, reply.creds with
    | some fd, some _ => .ok fd
    | _, _ => .error ebadmsg

/-! ## `openclient.c` -/

def ebade : Int32 := 52

/-- The end of `serv_open`. -/
def servAnswer (reply : Reply) : Except Int32 Int32 :=
  match recvFd reply with
  | .error errno => .error (if errno = ebadmsg then ebade else errno)
  | .ok fd => .ok fd

/-- A client, with the arguments of `main`. -/
structure Client where
  cwd : CString
  creds : Ucred
  args : List CString

/-- What `open(2)` was called with by the daemon, and what came of it. -/
structure Call where
  path : List UInt8
  omode : Int32
  opened : Opened

/-- A client that is in `recv_fd` waits for the answer about `path`. A result is `none` where
`serv_open` did not send a request. `opened` are the calls that the daemon has made for it. -/
structure Conn where
  todo : List CString
  path : Option CString
  stream : List UInt8
  event : Bool
  reply : Option Reply
  results : List (CString × Option (Except Int32 Int32))
  opened : List Call

def Conn.init (client : Client) : Conn where
  todo := client.args
  path := none
  stream := []
  event := false
  reply := none
  results := []
  opened := []

/-- The loop of `main` up to `recv_fd`. -/
def Conn.request (client : Client) (conn : Conn) : Conn :=
  match conn.todo with
  | [] => conn
  | path :: todo =>
      match servOpen client.cwd client.creds path 0 with
      | none => { conn with todo, results := conn.results ++ [(path, none)] }
      | some message => { conn with
          todo
          path := some path
          stream := conn.stream ++ message.data
          event := true }

/-- `recv_fd` returns. -/
def Conn.receive (conn : Conn) : Conn :=
  match conn.path, conn.reply with
  | some path, some reply => { conn with
      path := none
      reply := none
      results := conn.results ++ [(path, some (servAnswer reply))] }
  | _, _ => conn

/-! ## `opend.c` -/

def eacces : Int32 := 13

/-- `serve_client_request`; `opened` is what `open(2)` returns if it is called. -/
def Conn.answer (server : Ucred) (opened : Opened) (response : Response) (conn : Conn) : Conn :=
  match response with
  | .noAnswer => conn
  | .sendErrno => { conn with reply := some (sendErrno server eacces) }
  | .opens path omode => { conn with
      opened := conn.opened ++ [⟨path, omode, opened⟩]
      reply := some <| match opened with
        | .error errno => sendErrno server errno
        | .ok fd => sendFd server fd }

/-- `recvmsg` into `req_buff`. -/
def recvmsg (reqBuff stream : List UInt8) : List UInt8 :=
  stream.take 2047 ++ reqBuff.drop (min 2047 stream.length)

structure State (ι : Type*) where
  conn : ι → Conn
  reqBuff : List UInt8

def State.init (clients : ι → Client) : State ι where
  conn i := Conn.init (clients i)
  reqBuff := List.replicate 2048 0

/-- `handle_client_request` for the connection, with the event that has been reported. -/
def State.handle (clients : ι → Client) (server : Ucred) (i : ι) (opened : Opened) (s : State ι) :
    State ι :=
  let conn := { s.conn i with event := false, stream := (s.conn i).stream.drop 2047 }
  if (s.conn i).stream = [] then { s with conn := Function.update s.conn i conn }
  else
    let reqBuff := recvmsg s.reqBuff (s.conn i).stream
    let response := serveClientRequest true (CString.ofBuffer reqBuff) (clients i).creds
    ⟨Function.update s.conn i (conn.answer server opened response), reqBuff⟩

/-- One turn of a client or of the daemon. -/
inductive Label (ι : Type*) where
  | request (i : ι)
  | receive (i : ι)
  | handle (i : ι) (opened : Opened)

def step (clients : ι → Client) (server : Ucred) (s : State ι) : Label ι → State ι × Unit
  | .request i => ({ s with conn := Function.update s.conn i ((s.conn i).request (clients i)) }, ())
  | .receive i => ({ s with conn := Function.update s.conn i (s.conn i).receive }, ())
  | .handle i opened => (s.handle clients server i opened, ())

/-- The turns that can be taken. -/
def Enabled (s : State ι) : Label ι → Prop
  | .request i => (s.conn i).path = none ∧ (s.conn i).todo ≠ []
  | .receive i => (s.conn i).path.isSome ∧ (s.conn i).reply.isSome
  | .handle i _ => (s.conn i).event = true

/-! A client whose requests fit into the buffer and have no white space in their paths gets what
`open(2)` has returned for its own files, in their order, whatever the other clients send. -/

/-- The client's arguments are fit for the daemon. -/
def Client.Plain (client : Client) : Prop :=
  ∀ path ∈ client.args, ∀ message, servOpen client.cwd client.creds path 0 = some message →
    message.data.length ≤ 2047 ∧ ∀ file, absolutePath client.cwd path = some file →
      ∀ b ∈ file.bytes, isspace b = false

/-- `serv_open` returns what the daemon's `open(2)` has returned. `EBADMSG` stands for an answer
that is no answer. -/
def Call.result (call : Call) : Except Int32 Int32 :=
  match call.opened with
  | .error errno => .error (if errno.val = ebadmsg then ebade else errno)
  | .ok fd => .ok fd

/-- The result is about the file that the call has opened. -/
def Fits (client : Client) (result : CString × Option (Except Int32 Int32)) (call : Call) : Prop :=
  (∃ file, absolutePath client.cwd result.1 = some file ∧ call.path = file.bytes) ∧
    call.omode = 0 ∧ result.2 = some call.result

/-- The results that are answers of the daemon. -/
def Conn.answered (conn : Conn) : List (CString × Option (Except Int32 Int32)) :=
  conn.results.filter fun result => result.2.isSome

variable {clients : ι → Client} {server : Ucred} {client : Client} {conn : Conn} {s : State ι}
  {path : CString} {message : Message} {calls : List Call} {call : Call} {reply : Reply}
  {opened : Opened} {reqBuff : List UInt8} {i j : ι}

@[simp] theorem servAnswer_sendFd (server : Ucred) (fd : Int32) :
    servAnswer (sendFd server fd) = .ok fd := rfl

@[simp] theorem servAnswer_sendErrno (server : Ucred) {errno : Int32} (h : errno ≠ 0) :
    servAnswer (sendErrno server errno) = .error (if errno = ebadmsg then ebade else errno) := by
  simp [servAnswer, recvFd, sendErrno, h]

/-- The daemon understands a request, whatever it has received before. -/
theorem serve_recvmsg (creds : Ucred)
    (hsent : servOpen client.cwd client.creds path 0 = some message)
    (hfits : message.data.length ≤ 2047)
    (hspace : ∀ file, absolutePath client.cwd path = some file →
      ∀ b ∈ file.bytes, isspace b = false) (reqBuff : List UInt8) :
    ∃ file, absolutePath client.cwd path = some file ∧
      serveClientRequest true (CString.ofBuffer (recvmsg reqBuff message.data)) creds =
        .opens file.bytes 0 := by
  obtain ⟨hne, buff, hbuff, hmessage⟩ := servOpen_eq_some hsent
  have hfile : absolutePath client.cwd path = some (buff.append path) := by
    rw [absolutePath, hbuff, Option.map_some]
  refine ⟨_, hfile, ?_⟩
  have hread : (CString.ofBuffer (recvmsg reqBuff message.data)).bytes =
      printRequest buff path 0 ++
        (CString.ofBuffer (reqBuff.drop (min 2047 message.data.length))).bytes := by
    rw [recvmsg, List.take_of_length_le hfits, hmessage]
    refine List.takeWhile_append_of_pos ?_
    intro b hb
    have := zero_not_mem_printRequest buff path 0
    simp
    rintro rfl
    exact this hb
  rw [serveClientRequest, if_pos rfl, hread, scan_printRequest_append buff path 0 _
    (append_ne_nil buff hne) (hspace _ hfile)]
  simp [canAccess]
  decide

/-- Where a client and the daemon are in their conversation. -/
inductive Phase (client : Client) (conn : Conn) : Prop
  | idle (hpath : conn.path = none) (hstream : conn.stream = []) (hevent : conn.event = false)
      (hreply : conn.reply = none) (hfits : List.Forall₂ (Fits client) conn.answered conn.opened)
  | asked (path : CString) (message : Message) (hpath : conn.path = some path)
      (hsent : servOpen client.cwd client.creds path 0 = some message)
      (hstream : conn.stream = message.data) (hevent : conn.event = true)
      (hreply : conn.reply = none) (hfits : List.Forall₂ (Fits client) conn.answered conn.opened)
  | answered (path : CString) (reply : Reply) (calls : List Call) (call : Call)
      (hpath : conn.path = some path) (hstream : conn.stream = []) (hevent : conn.event = false)
      (hreply : conn.reply = some reply) (hopened : conn.opened = calls ++ [call])
      (hfits : List.Forall₂ (Fits client) conn.answered calls)
      (hcall : Fits client (path, some (servAnswer reply)) call)

/-- What holds of a client all the time. -/
structure Inv (client : Client) (conn : Conn) : Prop where
  phase : Phase client conn
  args : conn.results.map Prod.fst ++ conn.path.toList ++ conn.todo = client.args
  unsent : ∀ result ∈ conn.results,
    result.2 = none → servOpen client.cwd client.creds result.1 0 = none

theorem inv_init (client : Client) : Inv client (Conn.init client) where
  phase := .idle rfl rfl rfl rfl .nil
  args := rfl
  unsent := by simp [Conn.init]

theorem Inv.request (h : Inv client conn) (hidle : conn.path = none) :
    Inv client (conn.request client) := by
  obtain ⟨hphase, hargs, hunsent⟩ := h
  cases hphase with
  | asked path message hpath => rw [hidle] at hpath; cases hpath
  | answered path reply calls call hpath => rw [hidle] at hpath; cases hpath
  | idle hpath hstream hevent hreply hfits =>
    unfold Conn.request
    split
    case h_1 => exact ⟨.idle hpath hstream hevent hreply hfits, hargs, hunsent⟩
    case h_2 path todo htodo =>
      split
      case h_1 hnone =>
        refine ⟨.idle hpath hstream hevent hreply ?_, ?_, ?_⟩
        · simpa [Conn.answered] using hfits
        · simpa [hpath, htodo] using hargs
        · intro result hresult hunanswered
          rcases List.mem_append.mp hresult with hold | hnew
          · exact hunsent result hold hunanswered
          · rw [List.mem_singleton.mp hnew]
            exact hnone
      case h_2 message hsent =>
        refine ⟨.asked path message rfl hsent ?_ rfl hreply hfits, ?_, hunsent⟩
        · simp [hstream]
        · simpa [hpath, htodo] using hargs

theorem Inv.receive (h : Inv client conn) (hreply : conn.reply.isSome) :
    Inv client conn.receive := by
  obtain ⟨hphase, hargs, hunsent⟩ := h
  cases hphase with
  | idle hpath hstream hevent hnone => rw [hnone] at hreply; cases hreply
  | asked path message hpath hsent hstream hevent hnone => rw [hnone] at hreply; cases hreply
  | answered path reply calls call hpath hstream hevent hsome hopened hfits hcall =>
    rw [Conn.receive, hpath, hsome]
    refine ⟨.idle rfl hstream hevent rfl ?_, ?_, ?_⟩
    · rw [hopened]
      simpa [Conn.answered] using List.rel_append hfits (.cons hcall .nil)
    · simpa [hpath] using hargs
    · intro result hresult hunanswered
      rcases List.mem_append.mp hresult with hold | hnew
      · exact hunsent result hold hunanswered
      · rw [List.mem_singleton.mp hnew] at hunanswered
        cases hunanswered

/-- The answer carries what `open(2)` has returned. -/
theorem servAnswer_opened (server : Ucred) (path : List UInt8) (opened : Opened) :
    servAnswer (match opened with
      | .error errno => sendErrno server errno
      | .ok fd => sendFd server fd) = (Call.mk path 0 opened).result := by
  cases opened with
  | error errno => simp [Call.result, errno.property]
  | ok fd => simp [Call.result]

theorem Inv.handle (h : Inv (clients i) (s.conn i)) (hplain : (clients i).Plain)
    (hevent : (s.conn i).event = true) (opened : Opened) :
    Inv (clients i) ((s.handle clients server i opened).conn i) := by
  obtain ⟨hphase, hargs, hunsent⟩ := h
  cases hphase with
  | idle hpath hstream hnone => rw [hnone] at hevent; cases hevent
  | answered path reply calls call hpath hstream hnone => rw [hnone] at hevent; cases hevent
  | asked path message hpath hsent hstream htrue hreply hfits =>
    have hmem : path ∈ (clients i).args := by
      rw [← hargs, hpath]
      simp
    obtain ⟨hfit, hspace⟩ := hplain path hmem message hsent
    obtain ⟨file, hfile, hserve⟩ := serve_recvmsg (clients i).creds hsent hfit hspace s.reqBuff
    have hne : message.data ≠ [] := by
      obtain ⟨-, buff, -, rfl⟩ := servOpen_eq_some hsent
      simp [printRequest]
    have hdrop : message.data.drop 2047 = [] := List.drop_eq_nil_of_le hfit
    simp only [State.handle, hstream, if_neg hne, hserve, Function.update_self, Conn.answer, hdrop]
    refine ⟨.answered path _ (s.conn i).opened ⟨file.bytes, 0, opened⟩ hpath rfl rfl rfl rfl hfits
      ⟨⟨file, hfile, rfl⟩, rfl, ?_⟩, hargs, hunsent⟩
    rw [servAnswer_opened server file.bytes]

/-! ## Runs -/

theorem inv_step (hplain : (clients i).Plain) (h : Inv (clients i) (s.conn i)) (l : Label ι)
    (hl : Enabled s l) : Inv (clients i) ((step clients server s l).1.conn i) := by
  cases l with
  | request j =>
    by_cases hij : i = j
    · subst hij
      simpa only [step, Function.update_self] using h.request hl.1
    · simpa only [step, Function.update_of_ne hij] using h
  | receive j =>
    by_cases hij : i = j
    · subst hij
      simpa only [step, Function.update_self] using h.receive hl.2
    · simpa only [step, Function.update_of_ne hij] using h
  | handle j opened =>
    by_cases hij : i = j
    · subst hij
      exact h.handle hplain hl opened
    · have hother : ((s.handle clients server j opened).conn i) = s.conn i := by
        unfold State.handle
        split <;> exact Function.update_of_ne hij _ _
      rw [step, hother]
      exact h

/-- A client whose `main` has ended. -/
def Conn.Done (conn : Conn) : Prop := conn.todo = [] ∧ conn.path = none

/-- The turns until the client is done. -/
def Conn.remaining (conn : Conn) : ℕ :=
  3 * conn.todo.length + (if conn.event then 2 else 0) + (if conn.reply.isSome then 1 else 0)

/-- The client whose turn it is. -/
def Label.turn : Label ι → ι
  | .request i => i
  | .receive i => i
  | .handle i _ => i

omit [DecidableEq ι] in
theorem Inv.progress (h : Inv (clients i) (s.conn i)) (hdone : ¬ (s.conn i).Done) :
    ∃ l : Label ι, Enabled s l ∧ l.turn = i := by
  cases h.phase with
  | idle hpath => exact ⟨.request i, ⟨hpath, fun htodo => hdone ⟨htodo, hpath⟩⟩, rfl⟩
  | asked path message hpath hsent hstream hevent => exact ⟨.handle i (.ok 3), hevent, rfl⟩
  | answered path reply calls call hpath hstream hevent hreply =>
    refine ⟨.receive i, ⟨?_, ?_⟩, rfl⟩
    · rw [hpath]
      rfl
    · rw [hreply]
      rfl

theorem remaining_request (hpath : conn.path = none) (h : Inv client conn)
    (htodo : conn.todo ≠ []) : (conn.request client).remaining < conn.remaining := by
  obtain ⟨path, todo, hcons⟩ := List.exists_cons_of_ne_nil htodo
  cases h.phase with
  | asked path message hsome => rw [hpath] at hsome; cases hsome
  | answered path reply calls call hsome => rw [hpath] at hsome; cases hsome
  | idle _ hstream hevent hreply =>
    simp only [Conn.request, hcons]
    split <;> simp [Conn.remaining, hcons, hevent, hreply]
    omega

theorem remaining_receive (hpath : conn.path.isSome) (hreply : conn.reply.isSome) :
    conn.receive.remaining < conn.remaining := by
  obtain ⟨path, hpath⟩ := Option.isSome_iff_exists.mp hpath
  obtain ⟨reply, hreply⟩ := Option.isSome_iff_exists.mp hreply
  simp [Conn.receive, hpath, hreply, Conn.remaining]

theorem remaining_answer (opened : Opened) (response : Response) (hevent : conn.event = false) :
    (conn.answer server opened response).remaining ≤ 3 * conn.todo.length + 1 := by
  cases response with
  | noAnswer =>
    change conn.remaining ≤ _
    rw [Conn.remaining, hevent, if_neg Bool.false_ne_true]
    split <;> omega
  | sendErrno => simp [Conn.answer, Conn.remaining, hevent]
  | opens path omode => simp [Conn.answer, Conn.remaining, hevent]

theorem Inv.reply_eq_none (h : Inv client conn) (hevent : conn.event = true) :
    conn.reply = none := by
  cases h.phase with
  | idle hpath hstream hevent' hreply => exact hreply
  | asked path message hpath hsent hstream hevent' hreply => exact hreply
  | answered path reply calls call hpath hstream hnone => rw [hnone] at hevent; cases hevent

theorem remaining_handle (hevent : (s.conn i).event = true) (hreply : (s.conn i).reply = none)
    (opened : Opened) :
    ((s.handle clients server i opened).conn i).remaining < (s.conn i).remaining := by
  have hbefore : (s.conn i).remaining = 3 * (s.conn i).todo.length + 2 := by
    simp [Conn.remaining, hevent, hreply]
  rw [hbefore]
  unfold State.handle
  split
  · simp [Conn.remaining, hreply]
  · simp only [Function.update_self]
    refine lt_of_le_of_lt (remaining_answer opened _ rfl) ?_
    simp

theorem remaining_step (h : Inv (clients i) (s.conn i)) (l : Label ι) (hl : Enabled s l)
    (hi : l.turn = i) :
    ((step clients server s l).1.conn i).remaining < (s.conn i).remaining := by
  subst hi
  cases l with
  | request j => simpa only [step, Function.update_self, Label.turn] using
      remaining_request hl.1 h hl.2
  | receive j => simpa only [step, Function.update_self, Label.turn] using
      remaining_receive hl.1 hl.2
  | handle j opened => exact remaining_handle hl (h.reply_eq_none hl) opened

theorem Inv.forall₂ (h : Inv client conn) :
    List.Forall₂ (Fits client) conn.answered (conn.opened.take conn.answered.length) := by
  cases h.phase with
  | idle hpath hstream hevent hreply hfits => rwa [hfits.length_eq, List.take_length]
  | asked path message hpath hsent hstream hevent hreply hfits =>
    rwa [hfits.length_eq, List.take_length]
  | answered path reply calls call hpath hstream hevent hreply hopened hfits =>
    rwa [hopened, hfits.length_eq, List.take_left]

/-- Its one argument is `/a`. -/
def sampleClient : Client := ⟨CString.empty, ⟨1, 0, 0⟩, [⟨[47, 97], by decide⟩]⟩

theorem sampleClient_plain : sampleClient.Plain := by
  intro path hpath message hsent
  rw [List.mem_singleton.mp hpath] at hsent ⊢
  have hmessage : servOpen sampleClient.cwd sampleClient.creds ⟨[47, 97], by decide⟩ 0 =
      some ⟨[111, 112, 101, 110, 32, 47, 97, 32, 48, 10], some ⟨1, 0, 0⟩⟩ := by decide +kernel
  rw [hmessage, Option.some.injEq] at hsent
  rw [← hsent]
  refine ⟨by decide, ?_⟩
  intro file hfile
  have habsolute : absolutePath sampleClient.cwd ⟨[47, 97], by decide⟩ =
      some ⟨[47, 97], by decide⟩ := by decide +kernel
  rw [habsolute, Option.some.injEq] at hfile
  rw [← hfile]
  decide +kernel

end InterviewQuestions.OpenServer
