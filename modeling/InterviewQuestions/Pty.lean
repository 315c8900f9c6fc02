import InterviewQuestions.Library.Machine
import Mathlib.Data.List.Infix
import Mathlib.Logic.Function.Basic
import Mathlib.Tactic.Common

/-! `loop` of `knowledge_based/linux_internals/pseudo_terminals/pty.c`, as long as `fork` does not
fail and nobody else sends `SIGTERM`. -/
namespace InterviewQuestions.Pty

open Library

/-- The child copies from `stdin` to the terminal, the parent from the terminal to `stdout`. -/
inductive Side where
  | child
  | parent
deriving DecidableEq

/-- What a process is about to do. It has strayed when its handler has jumped to where no call of
`setjmp` waits for it, which is early when it has not come to `setjmp` yet. -/
inductive Pc where
  | unborn
  | sigaction
  | block
  | fork
  | setjmp
  | unblock
  | read
  | write (data : List UInt8)
  | kill
  | exit
  | exited
  | terminated
  | strayed (early : Bool)
deriving DecidableEq

/-- What `read` does where there is no more data. -/
inductive Stop where
  | waits
  | eof
  | error
deriving DecidableEq

/-- `SIGTERM` may be blocked or pending, and `jumps` says that its handler is `sigterm_hdr`. -/
structure Process where
  pc : Pc
  blocked : Bool
  pending : Bool
  jumps : Bool
  jmpEnv : Bool
  source : List UInt8
  stop : Stop
  written : List UInt8

structure State where
  child : Process
  parent : Process

/-- `sizeof(data_buff)` -/
def buffSize : ℕ := 2048

def Process.start (pc : Pc) (source : List UInt8) (stop : Stop) : Process :=
  ⟨pc, false, false, false, false, source, stop, []⟩

def init (stdin terminal : List UInt8) (stdinStop terminalStop : Stop) : State :=
  ⟨.start .unborn stdin stdinStop, .start .sigaction terminal terminalStop⟩

namespace Process

def goto (p : Process) (pc : Pc) : Process := { p with pc := pc }

/-- `read` in `feed`, with `n` bytes. `EIO` is no error there. -/
def execRead (p : Process) (n : ℕ) (done : Pc) : Process :=
  match p.source with
  | [] => p.goto done
  | data => { p with pc := .write (data.take n), source := data.drop n }

/-- `write` in `feed`, of `n` bytes. -/
def execWrite (p : Process) (data : List UInt8) (n : ℕ) (done : Pc) : Process :=
  { p with pc := if n = data.length then .read else done, written := p.written ++ data.take n }

/-- A process that has returned from its handler by `longjmp` goes on with `SIGTERM` blocked. -/
def deliver (p : Process) : Process :=
  if p.jumps then
    if p.jmpEnv then { p with pc := .exit, pending := false, blocked := true, jmpEnv := false }
    else { p with pc := .strayed (decide (p.pc ≠ .exit)), pending := false }
  else { p with pc := .terminated, pending := false }

end Process

namespace State

/-- The next statement of the parent. `loop` returns where it is about to exit. -/
def execParent (s : State) (n : ℕ) : State :=
  match s.parent.pc with
  | .sigaction => { s with parent := { s.parent with pc := .block, jumps := true } }
  | .block => { s with parent := { s.parent with pc := .fork, blocked := true } }
  | .fork => {
      child := { s.parent with
        pc := .sigaction
        pending := false
        source := s.child.source
        stop := s.child.stop
        written := [] }
      parent := s.parent.goto .setjmp }
  | .setjmp => { s with parent := { s.parent with pc := .unblock, jmpEnv := true } }
  | .unblock => { s with parent := { s.parent with pc := .read, blocked := false } }
  | .read => { s with parent := s.parent.execRead n .kill }
  | .write data => { s with parent := s.parent.execWrite data n .kill }
  | .kill => {
      child := { s.child with pending := true }
      parent := { s.parent with pc := .exit, jmpEnv := false } }
  | .exit => { s with parent := s.parent.goto .exited }
  | .unborn | .exited | .terminated | .strayed _ => s

/-- The next statement of the child. -/
def execChild (ignoreeof : Bool) (s : State) (n : ℕ) : State :=
  let done : Pc := if ignoreeof then .exit else .kill
  match s.child.pc with
  | .sigaction => { s with child := { s.child with pc := .unblock, jumps := false } }
  | .unblock => { s with child := { s.child with pc := .read, blocked := false } }
  | .read => { s with child := s.child.execRead n done }
  | .write data => { s with child := s.child.execWrite data n done }
  | .kill => {
      child := s.child.goto .exit
      parent := { s.parent with pending := true } }
  | .exit => { s with child := s.child.goto .exited }
  | .unborn | .block | .fork | .setjmp | .exited | .terminated | .strayed _ => s

end State

/-- A process executes its next statement, where it reads or writes so many bytes, or its
signal is delivered. -/
inductive Action where
  | exec (side : Side) (n : ℕ)
  | deliver (side : Side)

def step (ignoreeof : Bool) (s : State) : Action → State × Unit
  | .exec .child n => (s.execChild ignoreeof n, ())
  | .exec .parent n => (s.execParent n, ())
  | .deliver .child => ({ s with child := s.child.deliver }, ())
  | .deliver .parent => ({ s with parent := s.parent.deliver }, ())

def Pc.ended : Pc → Bool
  | .unborn | .exited | .terminated | .strayed _ => true
  | _ => false

/-- `read` waits where there is no data and no end. -/
def Process.Ready (p : Process) (n : ℕ) : Prop :=
  match p.pc with
  | .read => if p.source = [] then p.stop ≠ .waits ∧ n = 0
      else 0 < n ∧ n ≤ buffSize ∧ n ≤ p.source.length
  | .write data => n ≤ data.length
  | pc => pc.ended = false ∧ n = 0

def Process.Interrupted (p : Process) : Prop :=
  p.pending = true ∧ p.blocked = false ∧ p.pc.ended = false

def State.side (s : State) : Side → Process
  | .child => s.child
  | .parent => s.parent

def Enabled (s : State) : Action → Prop
  | .exec side n => (s.side side).Ready n
  | .deliver side => (s.side side).Interrupted

instance decidableReady (p : Process) (n : ℕ) : Decidable (p.Ready n) := by
  unfold Process.Ready
  exact match p.pc with
    | .read => inferInstanceAs (Decidable (if p.source = [] then _ else _))
    | .write data => inferInstanceAs (Decidable (n ≤ data.length))
    | .unborn | .sigaction | .block | .fork | .setjmp | .unblock | .kill | .exit | .exited
    | .terminated | .strayed _ => inferInstanceAs (Decidable (_ ∧ _))

instance decidableEnabled (s : State) : ∀ a, Decidable (Enabled s a)
  | .exec side n => inferInstanceAs (Decidable ((s.side side).Ready n))
  | .deliver _ => inferInstanceAs (Decidable (_ ∧ _ ∧ _))

/-! ## The two processes -/

namespace Pc

/-- Before `fork`. -/
def early : Pc → Bool
  | .sigaction | .block | .fork => true
  | _ => false

/-- With `SIGTERM` blocked on purpose. -/
def shielded : Pc → Bool
  | .setjmp | .unblock => true
  | _ => false

def running : Pc → Bool
  | .read | .write _ | .kill => true
  | _ => false

/-- `loop` has returned, or has come to its last statement in the child. -/
def past : Pc → Bool
  | .exit | .exited | .terminated | .strayed _ => true
  | _ => false

def copying : Pc → Bool
  | .kill | .exit | .exited | .terminated | .strayed _ => false
  | _ => true

def inFlight : Pc → List UInt8
  | .write data => data
  | _ => []

def inParent : Pc → Bool
  | .unborn | .terminated | .strayed true => false
  | _ => true

def inChild : Pc → Bool
  | .block | .fork | .setjmp | .strayed _ => false
  | _ => true

end Pc

structure ParentOk (p : Process) : Prop where
  place : p.pc.inParent = true
  jumps : p.pc = .sigaction ∨ p.jumps = true
  shielded : p.pc.shielded = true ∨ p.pc = .fork → p.blocked = true
  running : p.pc.running = true → p.blocked = false
  jmpEnv : p.jmpEnv = (p.pc.running || p.pc == .unblock)

structure ChildOk (p : Process) : Prop where
  fresh : p.pc = .unborn → p.written = []
  place : p.pc.inChild = true
  jumps : p.pc = .unborn ∨ p.pc = .sigaction ∨ p.jumps = false
  shielded : p.pc = .sigaction ∨ p.pc = .unblock → p.blocked = true
  running : p.pc.running = true → p.blocked = false
  jmpEnv : p.jmpEnv = false

/-- What has been written is the beginning of what there is to read. -/
structure Relays (total : List UInt8) (p : Process) : Prop where
  prefixed : p.written <+: total
  whole : p.pc.copying = true → p.written ++ p.pc.inFlight ++ p.source = total

structure Linked (ignoreeof : Bool) (stdin terminal : List UInt8) (s : State) : Prop where
  parent : ParentOk s.parent
  child : ChildOk s.child
  born : s.child.pc = .unborn ↔ s.parent.pc.early = true
  sent : s.parent.pending = true → s.child.pc.past = true
  told : s.child.pc.past = true →
    ignoreeof = true ∨ s.parent.pending = true ∨ s.parent.pc.past = true
  killed : s.child.pending = true ∨ s.child.pc = .terminated → s.parent.pc.past = true
  hung : s.parent.pc.past = true → s.child.pending = true ∨ s.child.pc.past = true
  input : Relays stdin s.child
  output : Relays terminal s.parent

variable {ignoreeof : Bool} {stdin terminal : List UInt8} {stdinStop terminalStop : Stop}
  {s : State} {p : Process} {total data : List UInt8} {n : ℕ}

theorem linked_init :
    Linked ignoreeof stdin terminal (init stdin terminal stdinStop terminalStop) := by
  constructor
  case parent => constructor <;> simp [init, Process.start, Pc.inParent, Pc.shielded, Pc.running]
  case child => constructor <;> simp [init, Process.start, Pc.inChild, Pc.running]
  case input => constructor <;> simp [init, Process.start, Pc.inFlight]
  case output => constructor <;> simp [init, Process.start, Pc.inFlight]
  all_goals simp [init, Process.start, Pc.early, Pc.past]

theorem Relays.goto (h : Relays total p) {q : Process} (hwritten : q.written = p.written)
    (hsource : q.source = p.source) (hcopying : q.pc.copying = true → p.pc.copying = true)
    (hflight : q.pc.copying = true → q.pc.inFlight = p.pc.inFlight) : Relays total q := by
  constructor
  · rw [hwritten]
    exact h.prefixed
  · intro hq
    rw [hwritten, hsource, hflight hq]
    exact h.whole (hcopying hq)

theorem Relays.read (h : Relays total p) (hpc : p.pc = .read) {done : Pc}
    (hdone : done.copying = false) : Relays total (p.execRead n done) := by
  have hwhole := h.whole (by rw [hpc]; rfl)
  rw [hpc] at hwhole
  unfold Process.execRead
  split
  case h_1 =>
    exact ⟨h.prefixed, fun hcopying => absurd (hdone.symm.trans hcopying) Bool.false_ne_true⟩
  case h_2 =>
    refine ⟨h.prefixed, fun _ => ?_⟩
    simp only [Pc.inFlight, List.append_nil] at hwhole ⊢
    rw [List.append_assoc, List.take_append_drop, hwhole]

theorem Relays.write (h : Relays total p) (hpc : p.pc = .write data) {done : Pc}
    (hdone : done.copying = false) : Relays total (p.execWrite data n done) := by
  have hwhole := h.whole (by rw [hpc]; rfl)
  rw [hpc] at hwhole
  simp only [Pc.inFlight] at hwhole
  constructor
  · rw [← hwhole]
    apply List.prefix_append_of_prefix
    exact (List.prefix_append_right_inj p.written).mpr (List.take_prefix n data)
  · intro hcopying
    simp only [Process.execWrite] at hcopying ⊢
    split at hcopying
    case isTrue hn => simpa [hn, Pc.inFlight] using hwhole
    case isFalse => exact absurd (hdone.symm.trans hcopying) Bool.false_ne_true

/-! ## Steps -/

/-- A step of the parent that does nothing to the child. -/
theorem Linked.parent_step (h : Linked ignoreeof stdin terminal s) {q : Process} (hok : ParentOk q)
    (hearly : q.pc.early = s.parent.pc.early)
    (hpending : q.pending = true → s.parent.pending = true)
    (hpast : s.parent.pc.past = true → q.pc.past = true)
    (htold : s.parent.pending = true → q.pending = true ∨ q.pc.past = true)
    (hhung : q.pc.past = true → s.parent.pc.past = true ∨ s.parent.pending = true)
    (hrelays : Relays terminal q) : Linked ignoreeof stdin terminal { s with parent := q } where
  parent := hok
  child := h.child
  born := by rw [hearly]; exact h.born
  sent := fun hq => h.sent (hpending hq)
  told hchild := by
    rcases h.told hchild with hignore | hsent | hended
    · exact Or.inl hignore
    · exact Or.inr (htold hsent)
    · exact Or.inr (Or.inr (hpast hended))
  killed := fun hchild => hpast (h.killed hchild)
  hung hq := by
    rcases hhung hq with hended | hsent
    · exact h.hung hended
    · exact Or.inr (h.sent hsent)
  input := h.input
  output := hrelays

/-- A step of the child that does nothing to the parent. -/
theorem Linked.child_step (h : Linked ignoreeof stdin terminal s) {q : Process} (hok : ChildOk q)
    (hborn : q.pc = .unborn ↔ s.child.pc = .unborn)
    (hpast : s.child.pc.past = true → q.pc.past = true)
    (htold : q.pc.past = true → s.child.pc.past = true ∨ ignoreeof = true ∨ s.child.pending = true)
    (hkilled : q.pending = true ∨ q.pc = .terminated →
      s.child.pending = true ∨ s.child.pc = .terminated)
    (hhung : s.child.pending = true → q.pending = true ∨ q.pc.past = true)
    (hrelays : Relays stdin q) : Linked ignoreeof stdin terminal { s with child := q } where
  parent := h.parent
  child := hok
  born := hborn.trans h.born
  sent := fun hsent => hpast (h.sent hsent)
  told hq := by
    rcases htold hq with hended | hignore | hpending
    · exact h.told hended
    · exact Or.inl hignore
    · exact Or.inr (Or.inr (h.killed (Or.inl hpending)))
  killed := fun hq => h.killed (hkilled hq)
  hung hparent := by
    rcases h.hung hparent with hpending | hended
    · exact hhung hpending
    · exact Or.inr (hpast hended)
  input := hrelays
  output := h.output

theorem ParentOk.read (h : ParentOk p) (hpc : p.pc = .read) (n : ℕ) :
    ParentOk (p.execRead n .kill) := by
  have hjumps := h.jumps
  have hblocked := h.running (by rw [hpc]; rfl)
  have hjmpEnv := h.jmpEnv
  simp only [hpc, Pc.running] at hjumps hjmpEnv
  unfold Process.execRead
  split
  case h_1 => constructor <;> simp_all [Process.goto, Pc.inParent, Pc.shielded, Pc.running]
  case h_2 => constructor <;> simp_all [Pc.inParent, Pc.shielded, Pc.running]

theorem ParentOk.write (h : ParentOk p) (hpc : p.pc = .write data) (n : ℕ) :
    ParentOk (p.execWrite data n .kill) := by
  have hjumps := h.jumps
  have hblocked := h.running (by rw [hpc]; rfl)
  have hjmpEnv := h.jmpEnv
  simp only [hpc, Pc.running] at hjumps hjmpEnv
  unfold Process.execWrite
  by_cases hn : n = data.length
  · constructor <;> simp_all [Pc.inParent, Pc.shielded, Pc.running]
  · constructor <;> simp_all [Pc.inParent, Pc.shielded, Pc.running]

theorem ChildOk.read (h : ChildOk p) (hpc : p.pc = .read) (n : ℕ) {done : Pc}
    (hdone : done = .exit ∨ done = .kill) : ChildOk (p.execRead n done) := by
  have hjumps := h.jumps
  have hblocked := h.running (by rw [hpc]; rfl)
  have hjmpEnv := h.jmpEnv
  simp only [hpc] at hjumps
  unfold Process.execRead
  rcases hdone with rfl | rfl
  all_goals
    split
    case h_1 => constructor <;> simp_all [Process.goto, Pc.inChild]
    case h_2 => constructor <;> simp_all [Pc.inChild]

theorem ChildOk.write (h : ChildOk p) (hpc : p.pc = .write data) (n : ℕ) {done : Pc}
    (hdone : done = .exit ∨ done = .kill) : ChildOk (p.execWrite data n done) := by
  have hjumps := h.jumps
  have hblocked := h.running (by rw [hpc]; rfl)
  have hjmpEnv := h.jmpEnv
  simp only [hpc] at hjumps
  unfold Process.execWrite
  rcases hdone with rfl | rfl
  all_goals
    by_cases hn : n = data.length
    · constructor <;> simp_all [Pc.inChild]
    · constructor <;> simp_all [Pc.inChild]

theorem Linked.execParent (h : Linked ignoreeof stdin terminal s) (hn : s.parent.Ready n) :
    Linked ignoreeof stdin terminal (s.execParent n) := by
  have hjumps := h.parent.jumps
  have hshielded := h.parent.shielded
  have hjmpEnv := h.parent.jmpEnv
  have hrelays {q : Process} (hwritten : q.written = s.parent.written)
      (hsource : q.source = s.parent.source)
      (hpc : q.pc.copying = true → s.parent.pc.copying = true ∧
        q.pc.inFlight = s.parent.pc.inFlight) : Relays terminal q :=
    h.output.goto hwritten hsource (fun hq => (hpc hq).1) (fun hq => (hpc hq).2)
  unfold State.execParent
  cases hpc : s.parent.pc with
  | unborn | exited | terminated | strayed _ =>
    simp only [Process.Ready, hpc] at hn
    cases hn.1
  | sigaction =>
    rw [hpc] at hjmpEnv
    apply h.parent_step
    case hok => constructor <;> simp [Pc.inParent, Pc.shielded, Pc.running, hjmpEnv]
    case hrelays => exact hrelays rfl rfl fun _ => by rw [hpc]; exact ⟨rfl, rfl⟩
    all_goals simp [hpc, Pc.early, Pc.past]
  | block =>
    simp only [hpc, Pc.running] at hjmpEnv hjumps
    apply h.parent_step
    case hok => constructor <;> simp_all [Pc.inParent, Pc.shielded, Pc.running]
    case hrelays => exact hrelays rfl rfl fun _ => by rw [hpc]; exact ⟨rfl, rfl⟩
    all_goals simp [hpc, Pc.early, Pc.past]
  | fork =>
    simp only [hpc, Pc.running] at hjmpEnv hjumps hshielded
    have hborn := h.born.mpr (by rw [hpc]; rfl)
    have hquiet : s.parent.pending = false := by
      rw [← Bool.not_eq_true]
      intro hpending
      have hpast := h.sent hpending
      rw [hborn] at hpast
      cases hpast
    have hinput := h.input.whole (by rw [hborn]; rfl)
    constructor
    case parent => constructor <;> simp_all [Process.goto, Pc.inParent, Pc.shielded, Pc.running]
    case child => constructor <;> simp_all [Pc.inChild, Pc.running]
    case input =>
      rw [h.child.fresh hborn, hborn] at hinput
      exact ⟨List.nil_prefix, fun _ => hinput⟩
    case output => exact hrelays rfl rfl fun _ => by rw [hpc]; exact ⟨rfl, rfl⟩
    all_goals simp [Process.goto, Pc.early, Pc.past, hquiet]
  | setjmp =>
    simp only [hpc, Pc.running] at hjmpEnv hjumps hshielded
    apply h.parent_step
    case hok => constructor <;> simp_all [Pc.inParent, Pc.shielded, Pc.running]
    case hrelays => exact hrelays rfl rfl fun _ => by rw [hpc]; exact ⟨rfl, rfl⟩
    all_goals simp [hpc, Pc.early, Pc.past]
  | unblock =>
    simp only [hpc, Pc.running] at hjmpEnv hjumps
    apply h.parent_step
    case hok => constructor <;> simp_all [Pc.inParent, Pc.shielded, Pc.running]
    case hrelays => exact hrelays rfl rfl fun _ => by rw [hpc]; exact ⟨rfl, rfl⟩
    all_goals simp [hpc, Pc.early, Pc.past]
  | read =>
    have hfields : (s.parent.execRead n .kill).pc.early = false ∧
        (s.parent.execRead n .kill).pc.past = false ∧
        (s.parent.execRead n .kill).pending = s.parent.pending := by
      unfold Process.execRead
      split <;> exact ⟨rfl, rfl, rfl⟩
    have hold : s.parent.pc.early = false ∧ s.parent.pc.past = false := by
      rw [hpc]
      exact ⟨rfl, rfl⟩
    apply h.parent_step (h.parent.read hpc n)
    case hrelays => exact h.output.read hpc rfl
    all_goals simp [hfields, hold]
  | write data =>
    have hfields : (s.parent.execWrite data n .kill).pc.early = false ∧
        (s.parent.execWrite data n .kill).pc.past = false ∧
        (s.parent.execWrite data n .kill).pending = s.parent.pending := by
      unfold Process.execWrite
      split <;> exact ⟨rfl, rfl, rfl⟩
    have hold : s.parent.pc.early = false ∧ s.parent.pc.past = false := by
      rw [hpc]
      exact ⟨rfl, rfl⟩
    apply h.parent_step (h.parent.write hpc n)
    case hrelays => exact h.output.write hpc rfl
    all_goals simp [hfields, hold]
  | kill =>
    simp only [hpc] at hjumps
    have hearly := h.born
    rw [hpc] at hearly
    constructor
    case parent => constructor <;> simp_all [Pc.inParent, Pc.shielded, Pc.running]
    case child => exact ⟨h.child.fresh, h.child.place, h.child.jumps, h.child.shielded,
      h.child.running, h.child.jmpEnv⟩
    case input => exact h.input.goto rfl rfl id (fun _ => rfl)
    case output => exact hrelays rfl rfl nofun
    case born => exact hearly
    case sent => exact h.sent
    all_goals simp [Pc.past]
  | exit =>
    simp only [hpc, Pc.running] at hjumps hjmpEnv
    apply h.parent_step
    case hok => constructor <;> simp_all [Process.goto, Pc.inParent, Pc.shielded, Pc.running]
    case hrelays => exact hrelays rfl rfl nofun
    all_goals simp [hpc, Process.goto, Pc.early, Pc.past]

theorem Linked.execChild (h : Linked ignoreeof stdin terminal s) (hn : s.child.Ready n) :
    Linked ignoreeof stdin terminal (s.execChild ignoreeof n) := by
  have hplace := h.child.place
  have hjumps := h.child.jumps
  have hshielded := h.child.shielded
  have hrunning := h.child.running
  have hjmpEnv := h.child.jmpEnv
  have hrelays {q : Process} (hwritten : q.written = s.child.written)
      (hsource : q.source = s.child.source)
      (hpc : q.pc.copying = true → s.child.pc.copying = true ∧
        q.pc.inFlight = s.child.pc.inFlight) : Relays stdin q :=
    h.input.goto hwritten hsource (fun hq => (hpc hq).1) (fun hq => (hpc hq).2)
  unfold State.execChild
  obtain ⟨done, hdone⟩ : ∃ done : Pc, done = if ignoreeof then .exit else .kill := ⟨_, rfl⟩
  have hends : done = .exit ∧ ignoreeof = true ∨ done = .kill := by
    rw [hdone]
    cases ignoreeof
    · exact Or.inr rfl
    · exact Or.inl ⟨rfl, rfl⟩
  rw [← hdone]
  have hcopying : done.copying = false := by
    rcases hends with ⟨rfl, -⟩ | rfl <;> rfl
  cases hpc : s.child.pc with
  | unborn | exited | terminated | strayed _ =>
    simp only [Process.Ready, hpc] at hn
    cases hn.1
  | block | fork | setjmp =>
    rw [hpc] at hplace
    cases hplace
  | sigaction =>
    simp only [hpc] at hshielded
    apply h.child_step
    case hok => constructor <;> simp_all [Pc.inChild, Pc.running]
    case hrelays => exact hrelays rfl rfl fun _ => by rw [hpc]; exact ⟨rfl, rfl⟩
    all_goals simp [hpc, Pc.past]
  | unblock =>
    simp only [hpc] at hjumps
    apply h.child_step
    case hok => constructor <;> simp_all [Pc.inChild, Pc.running]
    case hrelays => exact hrelays rfl rfl fun _ => by rw [hpc]; exact ⟨rfl, rfl⟩
    all_goals simp [hpc, Pc.past]
  | read =>
    have hfields : (s.child.execRead n done).pc ≠ .unborn ∧
        (s.child.execRead n done).pc ≠ .terminated ∧
        (s.child.execRead n done).pending = s.child.pending ∧
        ((s.child.execRead n done).pc.past = true → ignoreeof = true) := by
      unfold Process.execRead
      split
      case h_1 => rcases hends with ⟨rfl, hignore⟩ | rfl <;> simp_all [Process.goto, Pc.past]
      case h_2 => simp [Pc.past]
    apply h.child_step (h.child.read hpc n (hends.imp_left And.left))
    case hborn => exact iff_of_false hfields.1 (by simp [hpc])
    case hpast => exact fun hpast => by rw [hpc] at hpast; cases hpast
    case htold => exact fun hpast => Or.inr (Or.inl (hfields.2.2.2 hpast))
    case hrelays => exact h.input.read hpc hcopying
    case hkilled => exact fun hp => Or.inl (hfields.2.2.1 ▸ hp.resolve_right hfields.2.1)
    case hhung => exact fun hp => Or.inl (hfields.2.2.1.trans hp)
  | write data =>
    have hfields : (s.child.execWrite data n done).pc ≠ .unborn ∧
        (s.child.execWrite data n done).pc ≠ .terminated ∧
        (s.child.execWrite data n done).pending = s.child.pending ∧
        ((s.child.execWrite data n done).pc.past = true → ignoreeof = true) := by
      unfold Process.execWrite
      by_cases hlen : n = data.length
      · simp [hlen, Pc.past]
      · rcases hends with ⟨rfl, hignore⟩ | rfl <;> simp_all [Pc.past]
    apply h.child_step (h.child.write hpc n (hends.imp_left And.left))
    case hborn => exact iff_of_false hfields.1 (by simp [hpc])
    case hpast => exact fun hpast => by rw [hpc] at hpast; cases hpast
    case htold => exact fun hpast => Or.inr (Or.inl (hfields.2.2.2 hpast))
    case hrelays => exact h.input.write hpc hcopying
    case hkilled => exact fun hp => Or.inl (hfields.2.2.1 ▸ hp.resolve_right hfields.2.1)
    case hhung => exact fun hp => Or.inl (hfields.2.2.1.trans hp)
  | kill =>
    simp only [hpc] at hjumps
    have hborn := h.born
    rw [hpc] at hborn
    have hkilled := h.killed
    rw [hpc] at hkilled
    constructor
    case parent => exact ⟨h.parent.place, h.parent.jumps, h.parent.shielded, h.parent.running,
      h.parent.jmpEnv⟩
    case child => constructor <;> simp_all [Process.goto, Pc.inChild, Pc.running]
    case input => exact hrelays rfl rfl nofun
    case output => exact h.output.goto rfl rfl id (fun _ => rfl)
    case born => exact iff_of_false nofun (mt hborn.mpr nofun)
    case killed => exact fun hp => hkilled (hp.imp_right nofun)
    all_goals simp [Process.goto, Pc.past]
  | exit =>
    simp only [hpc] at hjumps
    apply h.child_step
    case hok => constructor <;> simp_all [Process.goto, Pc.inChild, Pc.running]
    case hrelays => exact hrelays rfl rfl nofun
    all_goals simp [hpc, Process.goto, Pc.past]

/-- The signal comes to the parent in its loop, or after it. -/
theorem Linked.deliverParent (h : Linked ignoreeof stdin terminal s)
    (hs : s.parent.Interrupted) :
    Linked ignoreeof stdin terminal { s with parent := s.parent.deliver } := by
  obtain ⟨hpending, hblocked, hended⟩ := hs
  have hplace := h.parent.place
  have hjumps := h.parent.jumps
  have hshielded := h.parent.shielded
  have hjmpEnv := h.parent.jmpEnv
  have hlate : s.parent.pc.early = false := by
    rw [← Bool.not_eq_true, ← h.born]
    intro hunborn
    have hpast := h.sent hpending
    rw [hunborn] at hpast
    cases hpast
  unfold Process.deliver
  cases hpc : s.parent.pc with
  | unborn | exited | terminated | strayed _ =>
    rw [hpc] at hended
    cases hended
  | sigaction | block | fork =>
    rw [hpc] at hlate
    cases hlate
  | setjmp | unblock =>
    rw [hshielded (by rw [hpc]; exact Or.inl rfl)] at hblocked
    cases hblocked
  | read | write _ | kill | exit =>
    simp only [hpc, Pc.running] at hjumps hjmpEnv
    apply h.parent_step
    case hok => constructor <;> simp_all [Pc.inParent, Pc.shielded, Pc.running]
    case hrelays => constructor <;> simp_all [Pc.copying, h.output.prefixed]
    all_goals simp_all [Pc.early, Pc.past]

theorem Linked.deliverChild (h : Linked ignoreeof stdin terminal s) (hs : s.child.Interrupted) :
    Linked ignoreeof stdin terminal { s with child := s.child.deliver } := by
  obtain ⟨hpending, hblocked, hended⟩ := hs
  have hborn : s.child.pc ≠ .unborn := by
    intro hpc
    rw [hpc] at hended
    cases hended
  have hjumps : s.child.jumps = false := by
    rcases h.child.jumps with hpc | hpc | hjumps
    · exact absurd hpc hborn
    · rw [h.child.shielded (Or.inl hpc)] at hblocked
      cases hblocked
    · exact hjumps
  have hjmpEnv := h.child.jmpEnv
  rw [Process.deliver, hjumps]
  apply h.child_step
  case hok => constructor <;> simp [Pc.inChild, Pc.running, hjmpEnv]
  case hborn => exact iff_of_false nofun hborn
  case hkilled => exact fun _ => Or.inl hpending
  case hrelays => exact ⟨h.input.prefixed, nofun⟩
  all_goals simp [hpending, Pc.past]

theorem Linked.step (h : Linked ignoreeof stdin terminal s) {a : Action} (ha : Enabled s a) :
    Linked ignoreeof stdin terminal (step ignoreeof s a).1 := by
  cases a with
  | exec side n =>
    cases side with
    | child => exact h.execChild ha
    | parent => exact h.execParent ha
  | deliver side =>
    cases side with
    | child => exact h.deliverChild ha
    | parent => exact h.deliverParent ha

/-! ## Runs -/

def Pc.rank : Pc → ℕ
  | .unborn | .sigaction => 10
  | .block => 9
  | .fork => 8
  | .setjmp => 7
  | .unblock => 6
  | .read => 4
  | .write _ => 5
  | .kill => 3
  | .exit => 2
  | .exited | .terminated | .strayed _ => 0

/-- A bound of the statements that a process has left. -/
def Process.rank (p : Process) : ℕ := 2 * p.source.length + p.pc.rank

def State.rank (s : State) : ℕ := s.child.rank + s.parent.rank

theorem rank_execRead (hpc : p.pc = .read) (hn : p.Ready n) {done : Pc} (hdone : done.rank < 4) :
    (p.execRead n done).rank < p.rank := by
  simp only [Process.Ready, hpc] at hn
  unfold Process.execRead
  split
  case h_1 hsource =>
    have hrank : Pc.read.rank = 4 := rfl
    simp only [Process.goto, Process.rank, hpc]
    omega
  case h_2 hsource =>
    rw [if_neg (by simpa using hsource)] at hn
    simp only [Process.rank, hpc, Pc.rank, List.length_drop]
    omega

theorem rank_execWrite (hpc : p.pc = .write data) {done : Pc} (hdone : done.rank < 4) :
    (p.execWrite data n done).rank < p.rank := by
  have hread : Pc.read.rank = 4 := rfl
  have hwrite : (Pc.write data).rank = 5 := rfl
  simp only [Process.execWrite, Process.rank, hpc]
  by_cases hlen : n = data.length
  · rw [if_pos hlen]
    omega
  · rw [if_neg hlen]
    omega

theorem rank_deliver (hended : p.pc.ended = false) (hp : p.jmpEnv = true → 2 < p.pc.rank) :
    p.deliver.rank < p.rank := by
  have hpos : 0 < p.pc.rank := by
    cases hpc : p.pc with
    | unborn | exited | terminated | strayed _ =>
      rw [hpc] at hended
      cases hended
    | _ => exact Nat.succ_pos _
  unfold Process.deliver
  split
  case isTrue =>
    split
    case isTrue hjmpEnv => exact Nat.add_lt_add_left (hp hjmpEnv) _
    case isFalse => exact Nat.add_lt_add_left hpos _
  case isFalse => exact Nat.add_lt_add_left hpos _

theorem Linked.rank_execParent (h : Linked ignoreeof stdin terminal s) (hn : s.parent.Ready n) :
    (s.execParent n).rank < s.rank := by
  unfold State.execParent
  cases hpc : s.parent.pc with
  | unborn | exited | terminated | strayed _ =>
    simp only [Process.Ready, hpc] at hn
    cases hn.1
  | read => exact Nat.add_lt_add_left (rank_execRead hpc hn (by decide)) _
  | write data => exact Nat.add_lt_add_left (rank_execWrite hpc (by decide)) _
  | fork =>
    have hborn := h.born.mpr (by rw [hpc]; rfl)
    simp [State.rank, Process.rank, Process.goto, hpc, hborn, Pc.rank]
  | _ => simp [State.rank, Process.rank, Process.goto, hpc, Pc.rank]

theorem Linked.rank_execChild (h : Linked ignoreeof stdin terminal s) (hn : s.child.Ready n) :
    (s.execChild ignoreeof n).rank < s.rank := by
  have hplace := h.child.place
  have hdone : (if ignoreeof then Pc.exit else Pc.kill).rank < 4 := by
    cases ignoreeof <;> decide
  unfold State.execChild
  cases hpc : s.child.pc with
  | unborn | exited | terminated | strayed _ =>
    simp only [Process.Ready, hpc] at hn
    cases hn.1
  | block | fork | setjmp =>
    rw [hpc] at hplace
    cases hplace
  | read => exact Nat.add_lt_add_right (rank_execRead hpc hn hdone) _
  | write data => exact Nat.add_lt_add_right (rank_execWrite hpc hdone) _
  | _ => simp [State.rank, Process.rank, Process.goto, hpc, Pc.rank]

theorem Linked.rank_step (h : Linked ignoreeof stdin terminal s) {a : Action} (ha : Enabled s a) :
    (Pty.step ignoreeof s a).1.rank < s.rank := by
  cases a with
  | exec side n =>
    cases side with
    | child => exact h.rank_execChild ha
    | parent => exact h.rank_execParent ha
  | deliver side =>
    cases side with
    | child =>
      apply Nat.add_lt_add_right
      apply rank_deliver ha.2.2
      intro hjmpEnv
      exact absurd (h.child.jmpEnv.symm.trans hjmpEnv) Bool.false_ne_true
    | parent =>
      apply Nat.add_lt_add_left
      apply rank_deliver ha.2.2
      intro hjmpEnv
      have hloop := h.parent.jmpEnv.symm.trans hjmpEnv
      show 2 < s.parent.pc.rank
      cases hpc : s.parent.pc with
      | unblock | read | write _ | kill => simp [Pc.rank]
      | _ =>
        rw [hpc] at hloop
        cases hloop

/-- Both have ended; or the parent waits for the terminal, and the child waits for `stdin` or has
ended without a word, as it should. -/
def Settled (ignoreeof : Bool) (s : State) : Prop :=
  s.child.pc.ended = true ∧ s.parent.pc.ended = true ∨
    (s.parent.pc = .read ∧ s.parent.source = [] ∧ s.parent.stop = .waits) ∧
      (s.child.pc = .read ∧ s.child.source = [] ∧ s.child.stop = .waits ∨
        s.child.pc.ended = true ∧ ignoreeof = true)

theorem ready_or_waits (p : Process) : (∃ n, p.Ready n) ∨ p.pc.ended = true ∨
    p.pc = .read ∧ p.source = [] ∧ p.stop = .waits := by
  cases hpc : p.pc with
  | unborn | exited | terminated | strayed _ => exact Or.inr (Or.inl rfl)
  | write data =>
    left
    exact ⟨0, by simp [Process.Ready, hpc]⟩
  | read =>
    cases hsource : p.source with
    | nil =>
      cases hstop : p.stop with
      | waits => exact Or.inr (Or.inr ⟨rfl, rfl, rfl⟩)
      | _ =>
        left
        exact ⟨0, by simp [Process.Ready, hpc, hsource, hstop]⟩
    | cons b rest =>
      left
      exact ⟨1, by simp [Process.Ready, hpc, hsource, buffSize]⟩
  | _ =>
    left
    exact ⟨0, by simp [Process.Ready, hpc, Pc.ended]⟩

theorem Pc.over_of_ended {pc : Pc} (h : pc.ended = true) (hborn : pc ≠ .unborn) :
    pc.past = true := by
  cases pc with
  | exited | terminated | strayed _ => rfl
  | unborn => exact absurd rfl hborn
  | _ => cases h

theorem Linked.settled (h : Linked ignoreeof stdin terminal s) (hstuck : ∀ a, ¬ Enabled s a) :
    Settled ignoreeof s := by
  have hparent := (ready_or_waits s.parent).resolve_left
    fun ⟨n, hn⟩ => hstuck (.exec .parent n) hn
  have hchild := (ready_or_waits s.child).resolve_left
    fun ⟨n, hn⟩ => hstuck (.exec .child n) hn
  have hplace := h.parent.place
  rcases hparent with hended | ⟨hpc, hsource, hstop⟩
  · -- the child has been told to end, and it would
    refine Or.inl ⟨?_, hended⟩
    have hpast : s.parent.pc.past = true := by
      apply Pc.over_of_ended hended
      intro hpc
      rw [hpc] at hplace
      cases hplace
    rcases hchild with hchild | ⟨hpc, -, -⟩
    · exact hchild
    · rcases h.hung hpast with hpending | hpast'
      · apply absurd _ (hstuck (.deliver .child))
        exact ⟨hpending, h.child.running (by rw [hpc]; rfl), by rw [State.side, hpc]; rfl⟩
      · rw [hpc] at hpast'
        cases hpast'
  · -- no signal has come from the child
    refine Or.inr ⟨⟨hpc, hsource, hstop⟩, ?_⟩
    rcases hchild with hchild | hchild
    · have hborn : s.child.pc ≠ .unborn := by
        intro hunborn
        have hearly := h.born.mp hunborn
        rw [hpc] at hearly
        cases hearly
      rcases h.told (Pc.over_of_ended hchild hborn) with hignore | hpending | hpast
      · exact Or.inr ⟨hchild, hignore⟩
      · apply absurd _ (hstuck (.deliver .parent))
        exact ⟨hpending, h.parent.running (by rw [hpc]; rfl), by rw [State.side, hpc]; rfl⟩
      · rw [hpc] at hpast
        cases hpast
    · exact Or.inl hchild

end InterviewQuestions.Pty
