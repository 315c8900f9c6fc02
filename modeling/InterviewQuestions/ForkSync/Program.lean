import InterviewQuestions.Library.Baton
import Mathlib.Data.List.Infix
import Mathlib.Data.List.Nodup
import Mathlib.Tactic.Common

/-! The parent and the child of `linux_internals/fork_sync`, whose `main` is the same in
`pipes.c`, `signals.c` and `record_locks.c`: what they print, for any correct mechanism. -/
namespace InterviewQuestions.ForkSync

open Library Library.Baton

/-- What the processes do apart from notifying each other. -/
inductive Act where
  | write (text : String)
  | printf (text : String)
  | getchar

abbrev child : Party := .first
abbrev parent : Party := .second

def msgBuff : String := "A message from a process.\n"

def writeMsgs (proc : String) : List (Op Act) :=
  (List.replicate 10 [.act (.write proc), .act (.write msgBuff)]).flatten

/-- `main` after the `fork`. -/
def script : Party → List (Op Act)
  | .first => writeMsgs "child: " ++
      [.notify, .wait, .act (.printf "Child exiting\n"), .notify]
  | .second => .wait :: (writeMsgs "parent: " ++
      [.act (.printf "Press any key to terminate\n"), .act .getchar, .notify, .wait,
        .act (.printf "Parent exiting\n")])

/-- What has been written, and what each process has in the buffer of its `stdout`. The buffer is
flushed at the end of each line if `stdout` is a terminal, at the exit otherwise. -/
structure Console where
  lineBuffered : Bool
  out : List String
  buff : Party → List String

namespace Console

/-- After `printf("Started\n")` and the `fork`, which copies the buffer. -/
def start (lineBuffered : Bool) : Console where
  lineBuffered := lineBuffered
  out := if lineBuffered then ["Started\n"] else []
  buff _ := if lineBuffered then [] else ["Started\n"]

def perform (c : Console) (p : Party) : Act → Console
  | .write text => { c with out := c.out ++ [text] }
  | .printf text =>
      if c.lineBuffered then { c with out := c.out ++ [text] }
      else { c with buff := Function.update c.buff p (c.buff p ++ [text]) }
  | .getchar => c

def exit (c : Console) (p : Party) : Console :=
  { c with out := c.out ++ c.buff p, buff := Function.update c.buff p [] }

end Console

variable {σ : Type*}

structure State (σ : Type*) where
  base : Baton.State σ Act
  console : Console
  exited : Party → Bool

def init (M : Mechanism σ) (lineBuffered : Bool) : State σ where
  base := ⟨M.init, script⟩
  console := .start lineBuffered
  exited _ := false

/-- The next step of one process. A process that has executed all its statements exits. -/
def step (M : Mechanism σ) (s : State σ) (p : Party) : State σ × Unit :=
  match s.base.script p with
  | [] => ({ s with
      console := s.console.exit p
      exited := Function.update s.exited p true }, ())
  | _ :: _ =>
      let next := Baton.step M s.base p
      match next.2 with
      | none => ({ s with base := next.1 }, ())
      | some a => ({ s with base := next.1, console := s.console.perform p a }, ())

def Enabled (M : Mechanism σ) (s : State σ) (p : Party) : Prop :=
  match s.base.script p with
  | [] => s.exited p = false
  | _ :: _ => Baton.Enabled M s.base p

instance decidableEnabled (M : Mechanism σ) (s : State σ) (p : Party) :
    Decidable (Enabled M s p) := by
  unfold Enabled
  exact match s.base.script p with
    | [] => inferInstanceAs (Decidable (s.exited p = false))
    | _ :: _ => inferInstanceAs (Decidable (Baton.Enabled M s.base p))

/-! ## The order of the statements -/

/-- The statements of both processes, one after another. -/
def timeline : List (Party × Op Act) :=
  (writeMsgs "child: ").map (Prod.mk child) ++ [(child, .notify), (parent, .wait)] ++
    (writeMsgs "parent: ").map (Prod.mk parent) ++
    [(parent, .act (.printf "Press any key to terminate\n")), (parent, .act .getchar),
      (parent, .notify), (child, .wait), (child, .act (.printf "Child exiting\n")),
      (child, .notify), (parent, .wait), (parent, .act (.printf "Parent exiting\n"))]

theorem script_eq (p : Party) : script p = opsOf p timeline := by
  cases p <;> rfl

theorem wellTimed_timeline : wellTimed (.held child) timeline = true := by decide

/-- What is written at once. -/
def Act.shown (lineBuffered : Bool) : Act → List String
  | .write text => [text]
  | .printf text => if lineBuffered then [text] else []
  | .getchar => []

/-- What stays in the buffer. -/
def Act.kept (lineBuffered : Bool) : Act → List String
  | .printf text => if lineBuffered then [] else [text]
  | .write _ | .getchar => []

def Act.ofOp (f : Act → List String) : Op Act → List String
  | .act a => f a
  | .notify | .wait => []

def shown (lineBuffered : Bool) (rest : List (Party × Op Act)) : List String :=
  rest.flatMap fun x => Act.ofOp (Act.shown lineBuffered) x.2

def kept (lineBuffered : Bool) (p : Party) (rest : List (Party × Op Act)) : List String :=
  (opsOf p rest).flatMap (Act.ofOp (Act.kept lineBuffered))

/-- The texts that a process writes when it exits. -/
def atExit (lineBuffered : Bool) (p : Party) : List String :=
  (Console.start lineBuffered).buff p ++ kept lineBuffered p timeline

theorem atExit_lineBuffered (p : Party) : atExit true p = [] := by
  cases p <;> rfl

/-- Once a process has no statements left, the other writes nothing more before it exits, unless
at the end of a line. -/
theorem shown_eq_nil {rest : List (Party × Op Act)} (hrest : rest <:+ timeline) {p : Party}
    (hp : opsOf p rest = []) : shown false rest = [] := by
  have hall : timeline.tails.all (fun rest => (shown false rest).isEmpty ||
      ! (opsOf child rest).isEmpty && ! (opsOf parent rest).isEmpty) = true := by decide +kernel
  have hone := List.all_eq_true.mp hall rest ((List.mem_tails _ _).mpr hrest)
  rw [Bool.or_eq_true, Bool.and_eq_true] at hone
  rcases hone with hempty | ⟨hchild, hparent⟩
  · exact List.isEmpty_iff.mp hempty
  · cases p with
    | first =>
      rw [hp] at hchild
      cases hchild
    | second =>
      rw [hp] at hparent
      cases hparent

/-! ## Runs -/

@[simp] theorem perform_out (c : Console) (p : Party) (a : Act) :
    (c.perform p a).out = c.out ++ a.shown c.lineBuffered := by
  cases a with
  | write text => rfl
  | printf text => cases hmode : c.lineBuffered <;> simp [Console.perform, Act.shown, hmode]
  | getchar => exact (List.append_nil _).symm

@[simp] theorem perform_lineBuffered (c : Console) (p : Party) (a : Act) :
    (c.perform p a).lineBuffered = c.lineBuffered := by
  cases a with
  | printf text => cases hmode : c.lineBuffered <;> simp [Console.perform, hmode]
  | _ => rfl

theorem perform_buff_self (c : Console) (p : Party) (a : Act) :
    (c.perform p a).buff p = c.buff p ++ a.kept c.lineBuffered := by
  cases a with
  | printf text => cases hmode : c.lineBuffered <;> simp [Console.perform, Act.kept, hmode]
  | _ => exact (List.append_nil _).symm

theorem perform_buff_of_ne (c : Console) {p q : Party} (h : q ≠ p) (a : Act) :
    (c.perform p a).buff q = c.buff q := by
  cases a with
  | printf text => cases hmode : c.lineBuffered <;> simp [Console.perform, hmode, h]
  | _ => rfl

variable {M : Mechanism σ} {Rel : Turn → σ → Prop} {Idle : Party → σ → Prop} {lb : Bool} {b : Turn}
  {rest : List (Party × Op Act)} {flushed : List Party} {s : State σ} {p : Party}

/-- `rest` is left of the timeline, and `flushed` have exited, in that order. -/
structure Ordered (Rel : Turn → σ → Prop) (Idle : Party → σ → Prop) (lb : Bool) (b : Turn)
    (rest : List (Party × Op Act)) (flushed : List Party) (s : State σ) : Prop where
  base : OnTime Rel Idle b rest s.base
  suffix : rest <:+ timeline
  mode : s.console.lineBuffered = lb
  out : ∃ front, s.console.out = front ++ flushed.flatMap (atExit lb) ∧
    front ++ shown lb rest = (Console.start lb).out ++ shown lb timeline
  quiet : flushed.flatMap (atExit lb) = [] ∨ shown lb rest = []
  buff : ∀ p, s.exited p = false → s.console.buff p ++ kept lb p rest = atExit lb p
  gone : ∀ p, s.exited p = true → opsOf p rest = []
  nodup : flushed.Nodup
  mem : ∀ p, p ∈ flushed ↔ s.exited p = true

theorem ordered_init (hM : Correct M Rel Idle) (lb : Bool) :
    Ordered Rel Idle lb (.held child) timeline [] (init M lb) where
  base := by
    have hinit := hM.onTime_init wellTimed_timeline
    have hscript : (fun p => opsOf p timeline) = script := funext fun p => (script_eq p).symm
    rwa [hscript] at hinit
  suffix := List.suffix_refl _
  mode := rfl
  out := ⟨(Console.start lb).out, (List.append_nil _).symm, rfl⟩
  quiet := Or.inl rfl
  buff _ _ := rfl
  gone p h := by cases h
  nodup := List.nodup_nil
  mem p := by simp [init]

/-- A process exits. -/
theorem Ordered.exit (h : Ordered Rel Idle lb b rest flushed s) (hp : opsOf p rest = [])
    (hrunning : s.exited p = false) :
    Ordered Rel Idle lb b rest (flushed ++ [p])
      { s with console := s.console.exit p, exited := Function.update s.exited p true } := by
  have hbuff : s.console.buff p = atExit lb p := by
    rw [← h.buff p hrunning, kept, hp]
    exact (List.append_nil _).symm
  obtain ⟨front, hout, hfront⟩ := h.out
  constructor
  case base => exact h.base
  case suffix => exact h.suffix
  case mode => exact h.mode
  case out =>
    refine ⟨front, ?_, hfront⟩
    rw [List.flatMap_append, ← List.append_assoc, ← hout, Console.exit, hbuff]
    simp
  case quiet =>
    cases lb with
    | true => exact Or.inl (by simp [atExit_lineBuffered])
    | false => exact Or.inr (shown_eq_nil h.suffix hp)
  case buff =>
    intro q hq
    have hne : q ≠ p := by
      rintro rfl
      simp at hq
    simp only [Function.update_of_ne hne] at hq
    simp only [Console.exit, Function.update_of_ne hne]
    exact h.buff q hq
  case gone =>
    intro q hq
    by_cases hqp : q = p
    · rw [hqp, hp]
    · simp only [Function.update_of_ne hqp] at hq
      exact h.gone q hq
  case nodup =>
    have hnot : p ∉ flushed := fun hmem => by
      rw [(h.mem p).mp hmem] at hrunning
      cases hrunning
    exact List.Nodup.append h.nodup (List.nodup_singleton p) (by simpa using hnot)
  case mem =>
    intro q
    rw [List.mem_append, List.mem_singleton, h.mem q]
    by_cases hqp : q = p
    · simp [hqp]
    · simp [hqp]

/-- The next statement of the timeline ends. -/
theorem Ordered.perform {op : Op Act} {base : Baton.State σ Act} {turn : Turn}
    (h : Ordered Rel Idle lb b ((p, op) :: rest) flushed s)
    (hbase : OnTime Rel Idle turn rest base) :
    Ordered Rel Idle lb turn rest flushed
      (match op.output with
        | none => { s with base := base }
        | some a => { s with base := base, console := s.console.perform p a }) := by
  have hrunning : s.exited p = false := by
    cases hexited : s.exited p with
    | false => rfl
    | true =>
      have hgone := h.gone p hexited
      rw [opsOf_cons_self] at hgone
      cases hgone
  have hshown : shown lb ((p, op) :: rest) = Act.ofOp (Act.shown lb) op ++ shown lb rest := rfl
  have hkept : kept lb p ((p, op) :: rest) = Act.ofOp (Act.kept lb) op ++ kept lb p rest := by
    rw [kept, opsOf_cons_self]
    rfl
  have hother : ∀ q, q ≠ p → kept lb q ((p, op) :: rest) = kept lb q rest := by
    intro q hq
    rw [kept, opsOf_cons_of_ne hq]
    rfl
  have hgone : ∀ q, s.exited q = true → opsOf q rest = [] := by
    intro q hq
    have hne : q ≠ p := by
      rintro rfl
      rw [hrunning] at hq
      cases hq
    have hgone := h.gone q hq
    rwa [opsOf_cons_of_ne hne] at hgone
  have hquiet : flushed.flatMap (atExit lb) = [] ∨
      Act.ofOp (Act.shown lb) op = [] ∧ shown lb rest = [] := by
    have hquiet := h.quiet
    rwa [hshown, List.append_eq_nil_iff] at hquiet
  have hsuffix : rest <:+ timeline := (List.suffix_cons _ _).trans h.suffix
  obtain ⟨front, hout, hfront⟩ := h.out
  rw [hshown, ← List.append_assoc] at hfront
  cases hop : op.output with
  | none =>
    have hsilent : ∀ f : Act → List String, Act.ofOp f op = [] := by
      intro f
      cases op with
      | act a => cases hop
      | _ => rfl
    rw [hsilent, List.append_nil] at hfront
    exact {
      base := hbase
      suffix := hsuffix
      mode := h.mode
      out := ⟨front, hout, hfront⟩
      quiet := hquiet.imp_right And.right
      buff := fun q hq => by
        have hbuff := h.buff q hq
        by_cases hqp : q = p
        · rwa [hqp, hkept, hsilent, List.nil_append, ← hqp] at hbuff
        · rwa [hother q hqp] at hbuff
      gone := hgone
      nodup := h.nodup
      mem := h.mem }
  | some a =>
    obtain rfl : op = .act a := by
      cases op with
      | act a' => rw [Option.some.inj hop]
      | _ => cases hop
    constructor
    case base => exact hbase
    case suffix => exact hsuffix
    case mode => exact (perform_lineBuffered _ _ _).trans h.mode
    case out =>
      refine ⟨front ++ a.shown lb, ?_, hfront⟩
      simp only [perform_out, h.mode, hout]
      rcases hquiet with hnil | ⟨hnil, -⟩
      · simp [hnil]
      · rw [Act.ofOp] at hnil
        simp [hnil]
    case quiet => exact hquiet.imp_right And.right
    case buff =>
      intro q hq
      have hbuff := h.buff q hq
      by_cases hqp : q = p
      · subst hqp
        rw [hkept, Act.ofOp, ← List.append_assoc] at hbuff
        simp only [perform_buff_self, h.mode]
        exact hbuff
      · rw [hother q hqp] at hbuff
        simp only [perform_buff_of_ne _ hqp]
        exact hbuff
    case gone => exact hgone
    case nodup => exact h.nodup
    case mem => exact h.mem

theorem Ordered.step (hM : Correct M Rel Idle) (h : Ordered Rel Idle lb b rest flushed s)
    (hp : Enabled M s p) :
    ∃ b' rest' flushed', Ordered Rel Idle lb b' rest' flushed' (step M s p).1 := by
  unfold Enabled at hp
  unfold ForkSync.step
  cases hscript : s.base.script p with
  | nil =>
    rw [hscript] at hp
    exact ⟨b, rest, flushed ++ [p], h.exit (by rw [← h.base.script, hscript]) hp⟩
  | cons op ops =>
    rw [hscript] at hp
    rcases h.base.step hM hp with ⟨hsame, hnone⟩ | ⟨op', rest', rfl, hnext, houtput⟩
    · refine ⟨b, rest, flushed, ?_⟩
      simp only [hnone]
      exact { h with base := hsame }
    · refine ⟨op'.after p, rest', flushed, ?_⟩
      have hperform := h.perform hnext
      simp only [houtput]
      cases hop : op'.output with
      | none =>
        rw [hop] at hperform
        exact hperform
      | some a =>
        rw [hop] at hperform
        exact hperform

theorem ordered_run (hM : Correct M Rel Idle) {actions : List Party}
    (hs : ∃ b rest flushed, Ordered Rel Idle lb b rest flushed s)
    (hactions : Machine.Admits (step M) (Enabled M) s actions) :
    ∃ b rest flushed, Ordered Rel Idle lb b rest flushed (Machine.run (step M) s actions).1 := by
  have hstep : ∀ (s : State σ) p, (∃ b rest flushed, Ordered Rel Idle lb b rest flushed s) →
      Enabled M s p → ∃ b rest flushed, Ordered Rel Idle lb b rest flushed (step M s p).1 := by
    intro s p h hp
    obtain ⟨b, rest, flushed, hordered⟩ := h
    exact hordered.step hM hp
  exact Machine.run_invariant _ hstep hs hactions

/-! ## Completion -/

def Final (s : State σ) : Prop := ∀ p, s.exited p = true

theorem Ordered.final_out (h : Ordered Rel Idle lb b rest flushed s) (hs : Final s) :
    ∃ p, s.console.out = (Console.start lb).out ++ shown lb timeline ++ atExit lb p ++
      atExit lb p.other := by
  have hrest : rest = [] := by
    cases rest with
    | nil => rfl
    | cons x rest =>
      have hgone := h.gone x.1 (hs x.1)
      rw [opsOf_cons_self] at hgone
      cases hgone
  obtain ⟨front, hout, hfront⟩ := h.out
  have hfront' : front = (Console.start lb).out ++ shown lb timeline := by
    rw [← hfront, hrest]
    exact (List.append_nil _).symm
  obtain ⟨p, hflushed⟩ : ∃ p : Party, flushed = [p, p.other] := by
    have hmem := h.mem
    have hnodup := h.nodup
    match flushed with
    | [] => exact absurd ((hmem child).mpr (hs child)) List.not_mem_nil
    | [p] =>
      have hother := (hmem p.other).mpr (hs p.other)
      exact absurd (List.mem_singleton.mp hother) p.other_ne
    | [p, q] =>
      have hother := (hmem p.other).mpr (hs p.other)
      rcases List.mem_pair.mp hother with heq | heq
      · exact absurd heq p.other_ne
      · exact ⟨p, by rw [heq]⟩
    | p :: q :: r :: more =>
      exfalso
      simp only [List.nodup_cons, List.mem_cons, not_or] at hnodup
      obtain ⟨⟨hpq, hpr, -⟩, ⟨hqr, -⟩, -⟩ := hnodup
      cases p <;> cases q <;> cases r <;> simp at hpq hpr hqr
  refine ⟨p, ?_⟩
  rw [hout, hfront', hflushed]
  simp

/-- A run of the two scripts is one of the processes, as far as the scripts go. -/
theorem lift_run {ps : List Party}
    (hps : Machine.Admits (Baton.step M) (Baton.Enabled M) s.base ps) :
    Machine.Admits (ForkSync.step M) (Enabled M) s ps ∧
      (Machine.run (ForkSync.step M) s ps).1.base =
        (Machine.run (Baton.step M) s.base ps).1 := by
  induction ps generalizing s with
  | nil => exact ⟨trivial, rfl⟩
  | cons p ps ih =>
    have hp := hps.1
    have hscript : ∃ op ops, s.base.script p = op :: ops := by
      cases hscript : s.base.script p with
      | nil =>
        rw [Baton.Enabled, hscript] at hp
        exact hp.elim
      | cons op ops => exact ⟨op, ops, rfl⟩
    obtain ⟨op, ops, hscript⟩ := hscript
    have henabled : Enabled M s p := by
      unfold Enabled
      rw [hscript]
      exact hp
    have hbase : (ForkSync.step M s p).1.base = (Baton.step M s.base p).1 := by
      unfold ForkSync.step
      rw [hscript]
      simp only
      split <;> rfl
    have hrest := hps.2
    rw [← hbase] at hrest
    obtain ⟨hadmits, hrun⟩ := ih hrest
    refine ⟨⟨henabled, hadmits⟩, ?_⟩
    rw [Machine.run_cons, Machine.run_cons, ← hbase]
    exact hrun

theorem exists_exit (h : s.base.script p = []) :
    ∃ ps, Machine.Admits (ForkSync.step M) (Enabled M) s ps ∧
      (Machine.run (ForkSync.step M) s ps).1.base = s.base ∧
      (Machine.run (ForkSync.step M) s ps).1.exited = Function.update s.exited p true := by
  cases hexited : s.exited p with
  | true =>
    refine ⟨[], trivial, rfl, ?_⟩
    rw [← hexited, Function.update_eq_self]
    rfl
  | false =>
    have hstep : ForkSync.step M s p = ({ s with
        console := s.console.exit p
        exited := Function.update s.exited p true }, ()) := by
      unfold ForkSync.step
      rw [h]
    refine ⟨[p], ⟨?_, trivial⟩, ?_, ?_⟩
    · unfold Enabled
      rw [h]
      exact hexited
    · rw [Machine.run_cons, hstep]
      rfl
    · rw [Machine.run_cons, hstep]
      rfl

theorem Ordered.completes (hM : Correct M Rel Idle) (h : Ordered Rel Idle lb b rest flushed s) :
    ∃ ps, Machine.Admits (ForkSync.step M) (Enabled M) s ps ∧
      Final (Machine.run (ForkSync.step M) s ps).1 := by
  obtain ⟨ps, hps, hend⟩ := h.base.completes hM
  obtain ⟨hadmits, hbase⟩ := lift_run hps
  rw [← hbase] at hend
  obtain ⟨exits, hexits, hbase', hexited⟩ := exists_exit (M := M) (hend child)
  rw [← hbase'] at hend
  obtain ⟨exits', hexits', -, hexited'⟩ := exists_exit (M := M) (hend parent)
  refine ⟨ps ++ (exits ++ exits'), hadmits.append (hexits.append hexits'), ?_⟩
  rw [Machine.run_append_fst, Machine.run_append_fst]
  intro p
  rw [hexited', hexited]
  cases p <;> rfl

/-! ## What is printed -/

def messages (proc : String) : List String := (List.replicate 10 [proc, msgBuff]).flatten

/-- What a process has kept until its exit. -/
def flushes : Party → List String
  | .first => ["Started\n", "Child exiting\n"]
  | .second => ["Started\n", "Press any key to terminate\n", "Parent exiting\n"]

/-- Everything that is printed when `p` is the one that exits first. -/
def transcript (lineBuffered : Bool) (p : Party) : List String :=
  if lineBuffered then
    ["Started\n"] ++ messages "child: " ++ messages "parent: " ++
      ["Press any key to terminate\n", "Child exiting\n", "Parent exiting\n"]
  else messages "child: " ++ messages "parent: " ++ flushes p ++ flushes p.other

theorem transcript_eq (lb : Bool) (p : Party) : transcript lb p =
    (Console.start lb).out ++ shown lb timeline ++ atExit lb p ++ atExit lb p.other := by
  cases lb <;> cases p <;> rfl

theorem out_prefix (s : State σ) (actions : List Party) :
    s.console.out <+: (Machine.run (step M) s actions).1.console.out := by
  induction actions generalizing s with
  | nil => exact List.prefix_refl _
  | cons p actions ih =>
    refine List.IsPrefix.trans ?_ (ih (step M s p).1)
    unfold step
    split
    case h_1 => exact List.prefix_append _ _
    case h_2 =>
      simp only
      split
      case h_1 => exact List.prefix_refl _
      case h_2 =>
        simp only [perform_out]
        exact List.prefix_append _ _

/-- What has been printed is the beginning of a transcript, the processes can come to their end,
and one of them can go on until they have, with a whole transcript printed. -/
def Synchronized (M : Mechanism σ) (lb : Bool) (actions : List Party) : Prop :=
  let s := (Machine.run (step M) (init M lb) actions).1
  (∃ p, s.console.out <+: transcript lb p) ∧
    (∃ more, Machine.Admits (step M) (Enabled M) (init M lb) (actions ++ more) ∧
      Final (Machine.run (step M) (init M lb) (actions ++ more)).1) ∧
    ((∀ p, ¬ Enabled M s p) → Final s ∧ ∃ p, s.console.out = transcript lb p)

theorem synchronized (hM : Correct M Rel Idle) {actions : List Party}
    (hactions : Machine.Admits (step M) (Enabled M) (init M lb) actions) :
    Synchronized M lb actions := by
  have hinit : ∃ b rest flushed, Ordered Rel Idle lb b rest flushed (init M lb) :=
    ⟨_, _, _, ordered_init hM lb⟩
  obtain ⟨b, rest, flushed, hordered⟩ := ordered_run hM hinit hactions
  obtain ⟨more, hmore, hfinal⟩ := hordered.completes hM
  obtain ⟨b', rest', flushed', hlast⟩ := ordered_run hM ⟨b, rest, flushed, hordered⟩ hmore
  obtain ⟨p, hout⟩ := hlast.final_out hfinal
  rw [← transcript_eq] at hout
  refine ⟨⟨p, ?_⟩, ⟨more, hactions.append hmore, ?_⟩, fun hstuck => ?_⟩
  · rw [← hout]
    exact out_prefix _ _
  · rwa [Machine.run_append_fst]
  · -- no step is possible, so that the way to the end has none
    cases more with
    | nil => exact ⟨hfinal, p, hout⟩
    | cons q more => exact absurd hmore.1 (hstuck q)

end InterviewQuestions.ForkSync
