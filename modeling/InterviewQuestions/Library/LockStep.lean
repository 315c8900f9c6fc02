import InterviewQuestions.Library.Machine
import Mathlib.Data.List.Infix
import Mathlib.Tactic.Common

/-! A client and a server that talk over two pipes, one request and one answer at a time. However
their steps interleave, the client receives the answers of a server that is called as a function. -/
namespace InterviewQuestions.Library.LockStep

variable {τ β : Type*}

/-- What the server makes of the bytes that it has read, if it does not leave, what the client
sends before it closes its ends, and how many bytes each of them reads at once. -/
structure Protocol (τ β : Type*) where
  serve : τ → List β → Option (τ × List β)
  farewell : List β
  serverMax : ℕ
  clientMax : ℕ

/-- The requests that are left, whether the client waits for an answer and whether it has closed its
ends, what it has received, the pipes, the server unless it has left, and what it is about to
write. -/
structure State (τ β : Type*) where
  todo : List (List β)
  awaiting : Bool
  closed : Bool
  received : List (List β)
  toServer : List β
  toClient : List β
  server : Option τ
  reply : Option (List β)

inductive Side where
  | client
  | server
deriving DecidableEq

variable (P : Protocol τ β)

def client (s : State τ β) : State τ β :=
  if s.awaiting then { s with
    received := s.received ++ [s.toClient.take P.clientMax]
    toClient := s.toClient.drop P.clientMax
    awaiting := false }
  else
    match s.todo with
    | [] => { s with closed := true, toServer := s.toServer ++ P.farewell }
    | request :: todo => { s with
        todo := todo
        toServer := s.toServer ++ request
        awaiting := true }

/-- An empty pipe that the client has closed ends the loop of the server. -/
def server (s : State τ β) (t : τ) : State τ β :=
  match s.reply with
  | some answer => { s with toClient := s.toClient ++ answer, reply := none }
  | none =>
      if s.toServer.isEmpty then { s with server := none }
      else
        match P.serve t (s.toServer.take P.serverMax) with
        | none => { s with toServer := s.toServer.drop P.serverMax, server := none }
        | some (t', answer) => { s with
            toServer := s.toServer.drop P.serverMax
            server := some t'
            reply := some answer }

def step (s : State τ β) : Side → State τ β × Unit
  | .client => (client P s, ())
  | .server =>
      match s.server with
      | none => (s, ())
      | some t => (server P s t, ())

/-- A read of an empty pipe blocks until the other end is closed. -/
def Enabled (s : State τ β) : Side → Prop
  | .client => s.closed = false ∧
      (s.awaiting = true → s.toClient.isEmpty = false ∨ s.server.isNone = true)
  | .server => s.server.isSome = true ∧
      (s.reply.isNone = true → s.toServer.isEmpty = false ∨ s.closed = true)

instance decidableEnabled (s : State τ β) : ∀ side, Decidable (Enabled s side)
  | .client => inferInstanceAs (Decidable (s.closed = false ∧
      (s.awaiting = true → s.toClient.isEmpty = false ∨ s.server.isNone = true)))
  | .server => inferInstanceAs (Decidable (s.server.isSome = true ∧
      (s.reply.isNone = true → s.toServer.isEmpty = false ∨ s.closed = true)))

def init (t : τ) (requests : List (List β)) : State τ β :=
  ⟨requests, false, false, [], [], [], some t, none⟩

/-! ## The conversation -/

/-- The answers to the requests, one after another, each request and each answer read at once. -/
def Answers : τ → List (List β) → List (List β) → τ → Prop
  | t, [], [], t' => t' = t
  | t, request :: todo, answer :: rest, t' => request ≠ [] ∧ request.length ≤ P.serverMax ∧
      answer ≠ [] ∧ answer.length ≤ P.clientMax ∧
      ∃ mid, P.serve t request = some (mid, answer) ∧ Answers mid todo rest t'
  | _, _, _, _ => False

/-- The server leaves when the client says farewell, or there is no farewell. -/
def Leaves (t : τ) : Prop :=
  P.farewell = [] ∨ P.farewell.length ≤ P.serverMax ∧ P.serve t P.farewell = none

/-- Where the conversation is. -/
inductive InStep (answers : List (List β)) (last : τ) : State τ β → Prop where
  | idle {t todo done rest} (h : Answers P t todo rest last) (hall : done ++ rest = answers) :
      InStep answers last ⟨todo, false, false, done, [], [], some t, none⟩
  | sent {t request todo done rest} (h : Answers P t (request :: todo) rest last)
      (hall : done ++ rest = answers) :
      InStep answers last ⟨todo, true, false, done, request, [], some t, none⟩
  | served {t answer todo done rest} (hne : answer ≠ []) (hlen : answer.length ≤ P.clientMax)
      (h : Answers P t todo rest last) (hall : done ++ answer :: rest = answers) :
      InStep answers last ⟨todo, true, false, done, [], [], some t, some answer⟩
  | replied {t answer todo done rest} (hne : answer ≠ []) (hlen : answer.length ≤ P.clientMax)
      (h : Answers P t todo rest last) (hall : done ++ answer :: rest = answers) :
      InStep answers last ⟨todo, true, false, done, [], answer, some t, none⟩
  | closing : InStep answers last ⟨[], false, true, answers, P.farewell, [], some last, none⟩
  | gone : InStep answers last ⟨[], false, true, answers, [], [], none, none⟩

/-- The steps that are left. -/
def remaining (s : State τ β) : ℕ :=
  4 * s.todo.length + (if s.closed then 0 else 1) + (if s.server.isSome then 1 else 0) +
    (if s.awaiting then
      if s.toServer.isEmpty = false then 3 else if s.reply.isSome then 2 else 1
    else 0)

variable {P} {answers : List (List β)} {last : τ} {s : State τ β} {side : Side}

theorem answers_cons {t : τ} {request : List β} {todo rest : List (List β)}
    (h : Answers P t (request :: todo) rest last) :
    ∃ answer rest', rest = answer :: rest' ∧ request ≠ [] ∧ request.length ≤ P.serverMax ∧
      answer ≠ [] ∧ answer.length ≤ P.clientMax ∧
      ∃ mid, P.serve t request = some (mid, answer) ∧ Answers P mid todo rest' last := by
  cases rest with
  | nil => exact h.elim
  | cons answer rest => exact ⟨answer, rest, rfl, h⟩

/-- A server that never leaves answers as a machine does that is run on the requests. -/
theorem answers_run {answer : τ → List β → τ × List β} {requests : List (List β)} {t : τ}
    (hserve : ∀ t request, P.serve t request = some (answer t request))
    (hrequests : ∀ request ∈ requests, request ≠ [] ∧ request.length ≤ P.serverMax)
    (hanswers : ∀ t request, (answer t request).2 ≠ [] ∧
      (answer t request).2.length ≤ P.clientMax) :
    Answers P t requests (Machine.run answer t requests).2 (Machine.run answer t requests).1 := by
  induction requests generalizing t with
  | nil => rfl
  | cons request requests ih =>
    obtain ⟨hne, hlen⟩ := hrequests request List.mem_cons_self
    obtain ⟨hne', hlen'⟩ := hanswers t request
    exact ⟨hne, hlen, hne', hlen', _, hserve t request,
      ih fun r hr => hrequests r (List.mem_cons_of_mem request hr)⟩

/-- One step of the conversation. -/
theorem InStep.step (hlast : Leaves P last) (h : InStep P answers last s) (hside : Enabled s side) :
    InStep P answers last (LockStep.step P s side).1 ∧
      remaining (LockStep.step P s side).1 < remaining s := by
  cases h with
  | @idle t todo done rest h hall =>
    cases side with
    | server => simp [Enabled] at hside
    | client =>
      cases todo with
      | nil =>
        cases rest with
        | cons answer rest => exact h.elim
        | nil =>
          obtain rfl : last = t := h
          rw [List.append_nil] at hall
          subst hall
          exact ⟨.closing, by simp [LockStep.step, client, remaining]⟩
      | cons request todo =>
        obtain ⟨answer, rest', rfl, hne, -⟩ := answers_cons h
        refine ⟨.sent h hall, ?_⟩
        simp [LockStep.step, client, remaining, hne]
        omega
  | @sent t request todo done rest h hall =>
    obtain ⟨answer, rest', rfl, hne, hlen, hne', hlen', mid, hserve, hrest⟩ := answers_cons h
    cases side with
    | client => simp [Enabled] at hside
    | server =>
      have hstep : LockStep.step P ⟨todo, true, false, done, request, [], some t, none⟩ .server =
          (⟨todo, true, false, done, [], [], some mid, some answer⟩, ()) := by
        simp [LockStep.step, server, hne, List.take_of_length_le hlen, hserve, hlen]
      rw [hstep]
      exact ⟨.served hne' hlen' hrest hall, by simp [remaining, hne]⟩
  | @served t answer todo done rest hne hlen h hall =>
    cases side with
    | client => simp [Enabled] at hside
    | server => exact ⟨.replied hne hlen h hall, by simp [LockStep.step, server, remaining]⟩
  | @replied t answer todo done rest hne hlen h hall =>
    cases side with
    | server => simp [Enabled] at hside
    | client =>
      have hstep : LockStep.step P ⟨todo, true, false, done, [], answer, some t, none⟩ .client =
          (⟨todo, false, false, done ++ [answer], [], [], some t, none⟩, ()) := by
        simp [LockStep.step, client, List.take_of_length_le hlen, hlen]
      rw [hstep]
      refine ⟨.idle h ?_, by simp [remaining]⟩
      rw [← hall, List.append_assoc]
      rfl
  | closing =>
    cases side with
    | client => simp [Enabled] at hside
    | server =>
      have hstep : LockStep.step P ⟨[], false, true, answers, P.farewell, [], some last, none⟩
          .server = (⟨[], false, true, answers, [], [], none, none⟩, ()) := by
        rcases hlast with hnil | ⟨hlen, hserve⟩
        · simp [LockStep.step, server, hnil]
        · by_cases hnil : P.farewell = []
          · simp [LockStep.step, server, hnil]
          · simp [LockStep.step, server, hnil, List.take_of_length_le hlen, hserve, hlen]
      rw [hstep]
      exact ⟨.gone, by simp [remaining]⟩
  | gone => cases side <;> simp [Enabled] at hside

theorem InStep.proceeds (h : InStep P answers last s) (hs : s.server.isSome = true) :
    ∃ side, Enabled s side := by
  cases h with
  | idle h hall => exact ⟨.client, by simp [Enabled]⟩
  | sent h hall =>
    obtain ⟨answer, rest', rfl, hne, -⟩ := answers_cons h
    exact ⟨.server, by simp [Enabled, hne]⟩
  | served hne hlen h hall => exact ⟨.server, by simp [Enabled]⟩
  | replied hne hlen h hall => exact ⟨.client, by simp [Enabled, hne]⟩
  | closing => exact ⟨.server, by simp [Enabled]⟩
  | gone => cases hs

theorem InStep.received_begins (h : InStep P answers last s) : s.received <+: answers := by
  cases h with
  | idle h hall => exact ⟨_, hall⟩
  | sent h hall => exact ⟨_, hall⟩
  | served hne hlen h hall => exact ⟨_, hall⟩
  | replied hne hlen h hall => exact ⟨_, hall⟩
  | closing => exact List.prefix_refl _
  | gone => exact List.prefix_refl _

theorem InStep.final (h : InStep P answers last s) (hs : s.server.isSome = false) :
    s.received = answers ∧ s.closed = true := by
  cases h with
  | gone => exact ⟨rfl, rfl⟩
  | _ => cases hs

/-- What the client has received is the beginning of the answers. No run is longer than four steps
for each request and two for the end, and one that cannot go on has all of them. -/
def Converses (P : Protocol τ β) (t : τ) (requests answers : List (List β)) (sides : List Side) :
    Prop :=
  (Machine.run (step P) (init t requests) sides).1.received <+: answers ∧
    sides.length ≤ 4 * requests.length + 2 ∧
    ((∀ side, ¬ Enabled (Machine.run (step P) (init t requests) sides).1 side) →
      (Machine.run (step P) (init t requests) sides).1.received = answers ∧
      (Machine.run (step P) (init t requests) sides).1.closed = true ∧
      (Machine.run (step P) (init t requests) sides).1.server.isSome = false)

theorem converses {t : τ} {requests : List (List β)} (h : Answers P t requests answers last)
    (hlast : Leaves P last) {sides : List Side}
    (hsides : Machine.Admits (step P) Enabled (init t requests) sides) :
    Converses P t requests answers sides := by
  have hinit : InStep P answers last (init t requests) := .idle h rfl
  have hrun := Machine.run_invariant (InStep P answers last)
    (fun _ _ hin hside => (hin.step hlast hside).1) hinit hsides
  refine ⟨hrun.received_begins, ?_, fun hstuck => ?_⟩
  · have hlength := Machine.length_add_measure_le (InStep P answers last) remaining
      (fun _ _ hin hside => (hin.step hlast hside).1)
      (fun _ _ hin hside => (hin.step hlast hside).2) hinit hsides
    have hstart : remaining (init t requests : State τ β) = 4 * requests.length + 2 := by
      simp [remaining, init]
    omega
  · have hgone : (Machine.run (step P) (init t requests) sides).1.server.isSome = false := by
      cases hserver : (Machine.run (step P) (init t requests) sides).1.server.isSome with
      | false => rfl
      | true =>
        obtain ⟨side, hside⟩ := hrun.proceeds hserver
        exact absurd hside (hstuck side)
    exact ⟨(hrun.final hgone).1, (hrun.final hgone).2, hgone⟩

end InterviewQuestions.Library.LockStep
