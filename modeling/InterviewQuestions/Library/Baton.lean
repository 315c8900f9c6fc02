import InterviewQuestions.Library.Machine
import Mathlib.Logic.Function.Basic
import Mathlib.Logic.Relation

/-! Two parties that act in turn: each waits for the other's notification before it goes on. What
they do, one after the other, does not depend on how their steps interleave, for any mechanism
that carries the notifications. -/
namespace InterviewQuestions.Library.Baton

inductive Party where
  | first
  | second
deriving DecidableEq

def Party.other : Party → Party
  | .first => .second
  | .second => .first

theorem Party.eq_or_eq_other (p q : Party) : q = p ∨ q = p.other := by
  cases p <;> cases q <;> simp [other]

@[simp] theorem Party.other_ne (p : Party) : p.other ≠ p := by
  cases p <;> decide

@[simp] theorem Party.ne_other (p : Party) : p ≠ p.other := p.other_ne.symm

@[simp] theorem Party.other_other (p : Party) : p.other.other = p := by
  cases p <;> rfl

/-- The baton is with a party, or a notification takes it there. -/
inductive Turn where
  | held (p : Party)
  | sent (p : Party)
deriving DecidableEq

def Turn.owner : Turn → Party
  | .held p | .sent p => p

inductive Op (α : Type*) where
  | act (a : α)
  | notify
  | wait

variable {α σ : Type*}

def Op.output : Op α → Option α
  | .act a => some a
  | .notify | .wait => none

/-- Where the baton is before a statement. -/
def Op.before (p : Party) : Op α → Turn
  | .wait => .sent p
  | .act _ | .notify => .held p

/-- Where the baton is after a statement. -/
def Op.after (p : Party) : Op α → Turn
  | .notify => .sent p.other
  | .act _ | .wait => .held p

/-- The statements of one party. -/
def opsOf (p : Party) (timeline : List (Party × Op α)) : List (Op α) :=
  timeline.filterMap fun x => if x.1 = p then some x.2 else none

@[simp] theorem opsOf_nil (p : Party) : opsOf p ([] : List (Party × Op α)) = [] := rfl

@[simp] theorem opsOf_cons_self (p : Party) (op : Op α) (rest : List (Party × Op α)) :
    opsOf p ((p, op) :: rest) = op :: opsOf p rest := by
  simp [opsOf]

theorem opsOf_cons_of_ne {p q : Party} (h : q ≠ p) (op : Op α) (rest : List (Party × Op α)) :
    opsOf q ((p, op) :: rest) = opsOf q rest := by
  simp [opsOf, Ne.symm h]

def waitsOrEnds : List (Op α) → Bool
  | [] | .wait :: _ => true
  | _ => false

/-- Each statement comes when the baton is where it has to be, and the other party waits. -/
def wellTimed : Turn → List (Party × Op α) → Bool
  | _, [] => true
  | b, (p, op) :: rest =>
      decide (b = op.before p) && waitsOrEnds (opsOf p.other rest) && wellTimed (op.after p) rest

/-- What it takes to notify and to wait, in steps. A step has no result when it blocks, and says
whether it is the last one. -/
structure Mechanism (σ : Type*) where
  init : σ
  notify : Party → σ → Option (σ × Bool)
  wait : Party → σ → Option (σ × Bool)

def Mechanism.attempt (M : Mechanism σ) (p : Party) (sync : σ) : Op α → Option (σ × Bool)
  | .act _ => some (sync, true)
  | .notify => M.notify p sync
  | .wait => M.wait p sync

/-- The state of the mechanism and the statements that the parties have left. -/
structure State (σ α : Type*) where
  sync : σ
  script : Party → List (Op α)

variable {M : Mechanism σ}

/-- The next step of one party, and what it does. -/
def step (M : Mechanism σ) (s : State σ α) (p : Party) : State σ α × Option α :=
  match s.script p with
  | [] => (s, none)
  | op :: rest =>
      match M.attempt p s.sync op with
      | none => (s, none)
      | some (sync, false) => ({ s with sync := sync }, none)
      | some (sync, true) => (⟨sync, Function.update s.script p rest⟩, op.output)

def Enabled (M : Mechanism σ) (s : State σ α) (p : Party) : Prop :=
  match s.script p with
  | [] => False
  | op :: _ => (M.attempt p s.sync op).isSome = true

instance decidableEnabled (M : Mechanism σ) (s : State σ α) (p : Party) :
    Decidable (Enabled M s p) := by
  unfold Enabled
  exact match s.script p with
    | [] => inferInstanceAs (Decidable False)
    | op :: _ => inferInstanceAs (Decidable ((M.attempt p s.sync op).isSome = true))

/-! ## Correct mechanisms -/

/-- A step of the party that is to go on, or one of the other that is in the middle of waiting. -/
def Helps (M : Mechanism σ) (Idle : Party → σ → Prop) (p : Party)
    (goes : Party → σ → Option (σ × Bool)) (s s' : σ) : Prop :=
  goes p s = some (s', false) ∨ ¬ Idle p.other s ∧ M.wait p.other s = some (s', false)

/-- Such steps lead to the end of the statement. -/
def Ends (M : Mechanism σ) (Idle : Party → σ → Prop) (p : Party)
    (goes : Party → σ → Option (σ × Bool)) (s : σ) : Prop :=
  ∃ s₁ s₂, Relation.ReflTransGen (Helps M Idle p goes) s s₁ ∧ goes p s₁ = some (s₂, true)

theorem Ends.last {Idle : Party → σ → Prop} {p : Party} {goes : Party → σ → Option (σ × Bool)}
    {s s' : σ} (h : goes p s = some (s', true)) : Ends M Idle p goes s := ⟨s, s', .refl, h⟩

theorem Ends.step {Idle : Party → σ → Prop} {p : Party} {goes : Party → σ → Option (σ × Bool)}
    {s s' : σ} (hstep : Helps M Idle p goes s s') (h : Ends M Idle p goes s') :
    Ends M Idle p goes s := by
  obtain ⟨s₁, s₂, hreach, hend⟩ := h
  exact ⟨s₁, s₂, .head hstep hreach, hend⟩

/-- The states of the mechanism by where the baton is, and when a party is not in the middle of a
statement. -/
structure Correct (M : Mechanism σ) (Rel : Turn → σ → Prop) (Idle : Party → σ → Prop) : Prop where
  init : Rel (.held .first) M.init
  idle_init : ∀ p, Idle p M.init
  notify : ∀ {p s s' fin}, Rel (.held p) s → M.notify p s = some (s', fin) →
    if fin then Rel (.sent p.other) s' ∧ Idle p s' else Rel (.held p) s'
  wait : ∀ {p s s' fin}, Rel (.sent p) s → M.wait p s = some (s', fin) →
    if fin then Rel (.held p) s' ∧ Idle p s' else Rel (.sent p) s'
  early : ∀ {b p s s' fin}, Rel b s → b.owner = p.other → M.wait p s = some (s', fin) →
    fin = false ∧ Rel b s'
  idle_notify : ∀ {p s s' fin}, M.notify p s = some (s', fin) → Idle p.other s → Idle p.other s'
  idle_wait : ∀ {p s s' fin}, M.wait p s = some (s', fin) → Idle p.other s → Idle p.other s'
  notify_ends : ∀ {p s}, Rel (.held p) s → Ends M Idle p M.notify s
  wait_ends : ∀ {p s}, Rel (.sent p) s → Ends M Idle p M.wait s

def inside : List (Op α) → Bool
  | .notify :: _ | .wait :: _ => true
  | _ => false

variable {Rel : Turn → σ → Prop} {Idle : Party → σ → Prop} {b : Turn}
  {rest : List (Party × Op α)} {s : State σ α} {p : Party} {op : Op α}

/-- The part of the timeline that is left. -/
structure OnTime (Rel : Turn → σ → Prop) (Idle : Party → σ → Prop) (b : Turn)
    (rest : List (Party × Op α)) (s : State σ α) : Prop where
  rel : Rel b s.sync
  timed : wellTimed b rest = true
  script : ∀ p, s.script p = opsOf p rest
  idle : ∀ p, inside (opsOf p rest) = false → Idle p s.sync

theorem Correct.onTime_init (hM : Correct M Rel Idle) {timeline : List (Party × Op α)}
    (htimed : wellTimed (.held .first) timeline = true) :
    OnTime Rel Idle (.held .first) timeline ⟨M.init, fun p => opsOf p timeline⟩ where
  rel := hM.init
  timed := htimed
  script _ := rfl
  idle p _ := hM.idle_init p

theorem OnTime.before (h : OnTime Rel Idle b ((p, op) :: rest) s) : b = op.before p := by
  have htimed := h.timed
  simp only [wellTimed, Bool.and_eq_true, decide_eq_true_eq] at htimed
  exact htimed.1.1

theorem OnTime.otherWaits (h : OnTime Rel Idle b ((p, op) :: rest) s) :
    opsOf p.other rest = [] ∨ ∃ ops, opsOf p.other rest = .wait :: ops := by
  have htimed := h.timed
  simp only [wellTimed, Bool.and_eq_true] at htimed
  have hwaits := htimed.1.2
  cases hops : opsOf p.other rest with
  | nil => exact Or.inl rfl
  | cons op' ops =>
    rw [hops] at hwaits
    cases op' with
    | wait => exact Or.inr ⟨ops, rfl⟩
    | act _ => cases hwaits
    | notify => cases hwaits

theorem OnTime.script_self (h : OnTime Rel Idle b ((p, op) :: rest) s) :
    s.script p = op :: opsOf p rest := by
  rw [h.script, opsOf_cons_self]

theorem OnTime.script_other (h : OnTime Rel Idle b ((p, op) :: rest) s) :
    s.script p.other = opsOf p.other rest := by
  rw [h.script, opsOf_cons_of_ne p.other_ne]

/-! ## Steps -/

theorem step_of_attempt {ops : List (Op α)} (hscript : s.script p = op :: ops) {sync : σ}
    {fin : Bool} (hattempt : M.attempt p s.sync op = some (sync, fin)) :
    step M s p = if fin then (⟨sync, Function.update s.script p ops⟩, op.output)
      else ({ s with sync := sync }, none) := by
  rw [step, hscript]
  simp only [hattempt]
  cases fin <;> rfl

theorem idle_attempt (hM : Correct M Rel Idle) {sync sync' : σ} {fin : Bool}
    (hattempt : M.attempt p sync op = some (sync', fin)) (hidle : Idle p.other sync) :
    Idle p.other sync' := by
  cases op with
  | act a =>
    cases hattempt
    exact hidle
  | notify => exact hM.idle_notify hattempt hidle
  | wait => exact hM.idle_wait hattempt hidle

/-- The party whose statement is next executes a step of it. -/
theorem Correct.attempt (hM : Correct M Rel Idle) {sync sync' : σ} {fin : Bool}
    (hrel : Rel (op.before p) sync) (hidle : inside [op] = false → Idle p sync)
    (hattempt : M.attempt p sync op = some (sync', fin)) :
    if fin then Rel (op.after p) sync' ∧ Idle p sync' else Rel (op.before p) sync' := by
  cases op with
  | act a =>
    cases hattempt
    exact ⟨hrel, hidle rfl⟩
  | notify => exact hM.notify hrel hattempt
  | wait => exact hM.wait hrel hattempt

theorem OnTime.unfinished (h : OnTime Rel Idle b rest s) {sync : σ} (hrel : Rel b sync)
    (hidle : ∀ q, inside (opsOf q rest) = false → Idle q sync) :
    OnTime Rel Idle b rest { s with sync := sync } where
  rel := hrel
  timed := h.timed
  script := h.script
  idle := hidle

/-- The step of a party is inside a statement, or ends the one that the timeline has next. -/
theorem OnTime.step (hM : Correct M Rel Idle) (h : OnTime Rel Idle b rest s)
    (hp : Enabled M s p) :
    OnTime Rel Idle b rest (step M s p).1 ∧ (step M s p).2 = none ∨
      ∃ op rest', rest = (p, op) :: rest' ∧ OnTime Rel Idle (op.after p) rest' (step M s p).1 ∧
        (step M s p).2 = op.output := by
  cases rest with
  | nil =>
    rw [Enabled, h.script p] at hp
    exact hp.elim
  | cons next rest =>
    obtain ⟨q, op⟩ := next
    rcases q.eq_or_eq_other p with rfl | rfl
    · -- the party's own statement is next
      have hscript := h.script_self
      rw [Enabled, hscript] at hp
      obtain ⟨⟨sync, fin⟩, hattempt⟩ := Option.isSome_iff_exists.mp hp
      have hrel := h.rel
      rw [h.before] at hrel
      have hself : inside [op] = false → Idle p s.sync := by
        intro hinside
        apply h.idle
        rw [opsOf_cons_self]
        cases op <;> exact hinside
      have hnext := hM.attempt hrel hself hattempt
      have hother : inside (opsOf p.other rest) = false → Idle p.other sync := by
        intro hinside
        apply idle_attempt hM hattempt
        apply h.idle
        rwa [opsOf_cons_of_ne p.other_ne]
      rw [step_of_attempt hscript hattempt]
      cases fin with
      | false =>
        refine Or.inl ⟨h.unfinished (by rw [h.before]; exact hnext) (fun q hq => ?_), rfl⟩
        rcases p.eq_or_eq_other q with rfl | rfl
        · rw [opsOf_cons_self] at hq
          cases op with
          | act a => cases hattempt
          | notify => cases hq
          | wait => cases hq
        · rw [opsOf_cons_of_ne p.other_ne] at hq
          exact hother hq
      | true =>
        refine Or.inr ⟨op, rest, rfl, ⟨hnext.1, ?_, fun q => ?_, fun q hq => ?_⟩, rfl⟩
        · have htimed := h.timed
          simp only [wellTimed, Bool.and_eq_true] at htimed
          exact htimed.2
        · rcases p.eq_or_eq_other q with rfl | rfl
          · exact Function.update_self _ _ _
          · exact (Function.update_of_ne p.other_ne _ _).trans h.script_other
        · rcases p.eq_or_eq_other q with rfl | rfl
          · exact hnext.2
          · exact hother hq
    · -- the other party's statement is next, this one waits
      have hscript := h.script_other
      rcases h.otherWaits with hnil | ⟨ops, hops⟩
      · rw [Enabled, hscript, hnil] at hp
        exact hp.elim
      · rw [hops] at hscript
        rw [Enabled, hscript] at hp
        obtain ⟨⟨sync, fin⟩, hattempt⟩ := Option.isSome_iff_exists.mp hp
        have howner : b.owner = q.other.other := by
          rw [h.before]
          cases q <;> cases op <;> rfl
        obtain ⟨rfl, hrel⟩ := hM.early h.rel howner hattempt
        rw [step_of_attempt hscript hattempt]
        refine Or.inl ⟨h.unfinished hrel (fun r hr => ?_), rfl⟩
        rcases q.eq_or_eq_other r with rfl | rfl
        · have hidle := h.idle r hr
          rw [← r.other_other] at hidle ⊢
          exact hM.idle_wait hattempt hidle
        · rw [opsOf_cons_of_ne q.other_ne, hops] at hr
          cases hr

/-! ## Progress -/

theorem enabled_of_attempt {ops : List (Op α)} (hscript : s.script p = op :: ops) {sync : σ}
    {fin : Bool} (hattempt : M.attempt p s.sync op = some (sync, fin)) : Enabled M s p := by
  rw [Enabled, hscript]
  simp only [hattempt, Option.isSome_some]

/-- The steps that help towards the end of a statement. -/
theorem OnTime.helps (hM : Correct M Rel Idle) (h : OnTime Rel Idle b ((p, op) :: rest) s)
    {goes : Party → σ → Option (σ × Bool)} (hgoes : ∀ sync, M.attempt p sync op = goes p sync)
    {s₁ : σ} (hreach : Relation.ReflTransGen (Helps M Idle p goes) s.sync s₁) :
    ∃ ps, Machine.Admits (Baton.step M) (Enabled M) s ps ∧
      (Machine.run (Baton.step M) s ps).1 = { s with sync := s₁ } ∧
      OnTime Rel Idle b ((p, op) :: rest) { s with sync := s₁ } := by
  induction hreach with
  | refl => exact ⟨[], trivial, rfl, h⟩
  | @tail sync sync' _ hhelp ih =>
    obtain ⟨ps, hps, hrun, hon⟩ := ih
    -- one more step, of the party or of the other
    obtain ⟨q, hq, hstep⟩ : ∃ q, Enabled M { s with sync := sync } q ∧
        Baton.step M { s with sync := sync } q = ({ s with sync := sync' }, none) := by
      rcases hhelp with hself | ⟨hbusy, hother⟩
      · rw [← hgoes] at hself
        exact ⟨p, enabled_of_attempt hon.script_self hself,
          step_of_attempt hon.script_self hself⟩
      · have hinside : opsOf p.other rest ≠ [] := by
          intro hnil
          apply hbusy
          apply hon.idle
          rw [opsOf_cons_of_ne p.other_ne, hnil]
          rfl
        rcases hon.otherWaits with hnil | ⟨ops, hops⟩
        · exact absurd hnil hinside
        · have hscript := hon.script_other
          rw [hops] at hscript
          have hwait : M.attempt p.other sync (.wait : Op α) = some (sync', false) := hother
          exact ⟨p.other, enabled_of_attempt hscript hwait, step_of_attempt hscript hwait⟩
    have hnext : OnTime Rel Idle b ((p, op) :: rest) { s with sync := sync' } := by
      rcases hon.step hM hq with ⟨hsame, -⟩ | ⟨op', rest', hsplit, hother, -⟩
      · rwa [hstep] at hsame
      · rw [hstep] at hother
        cases hsplit
        have hshort := (hon.script_self).symm.trans (hother.script _)
        exact absurd hshort (List.cons_ne_self _ _)
    refine ⟨ps ++ [q], hps.append ?_, ?_, hnext⟩
    · rw [hrun]
      exact ⟨hq, trivial⟩
    · rw [Machine.run_append_fst, hrun, Machine.run_cons, hstep]
      rfl

/-- Some steps take the timeline to its next statement and through it. -/
theorem OnTime.advance (hM : Correct M Rel Idle) (h : OnTime Rel Idle b ((p, op) :: rest) s) :
    ∃ ps, Machine.Admits (Baton.step M) (Enabled M) s ps ∧
      OnTime Rel Idle (op.after p) rest (Machine.run (Baton.step M) s ps).1 := by
  obtain ⟨goes, hgoes, s₁, s₂, hreach, hend⟩ : ∃ goes : Party → σ → Option (σ × Bool),
      (∀ sync, M.attempt p sync op = goes p sync) ∧ ∃ s₁ s₂,
        Relation.ReflTransGen (Helps M Idle p goes) s.sync s₁ ∧ goes p s₁ = some (s₂, true) := by
    have hrel := h.rel
    rw [h.before] at hrel
    cases op with
    | act a => exact ⟨fun _ sync => some (sync, true), fun _ => rfl, s.sync, s.sync, .refl, rfl⟩
    | notify =>
      obtain ⟨s₁, s₂, hreach, hend⟩ := hM.notify_ends hrel
      exact ⟨M.notify, fun _ => rfl, s₁, s₂, hreach, hend⟩
    | wait =>
      obtain ⟨s₁, s₂, hreach, hend⟩ := hM.wait_ends hrel
      exact ⟨M.wait, fun _ => rfl, s₁, s₂, hreach, hend⟩
  obtain ⟨ps, hps, hrun, hon⟩ := h.helps hM hgoes hreach
  have hattempt : M.attempt p s₁ op = some (s₂, true) := (hgoes s₁).trans hend
  have hp : Enabled M { s with sync := s₁ } p := enabled_of_attempt hon.script_self hattempt
  refine ⟨ps ++ [p], hps.append ?_, ?_⟩
  · rw [hrun]
    exact ⟨hp, trivial⟩
  · rw [Machine.run_append_fst, hrun]
    rcases hon.step hM hp with ⟨hsame, -⟩ | ⟨op', rest', hsplit, hnext, -⟩
    · -- the statement has ended, so that its party has one statement less
      have hlong := hsame.script_self
      rw [step_of_attempt hon.script_self hattempt] at hlong
      simp only [if_true, Function.update_self] at hlong
      exact absurd hlong.symm (List.cons_ne_self _ _)
    · cases hsplit
      exact hnext

/-- From every state the parties can come to the end of the timeline. -/
theorem OnTime.completes (hM : Correct M Rel Idle) (h : OnTime Rel Idle b rest s) :
    ∃ ps, Machine.Admits (Baton.step M) (Enabled M) s ps ∧
      ∀ p, (Machine.run (Baton.step M) s ps).1.script p = [] := by
  induction rest generalizing b s with
  | nil => exact ⟨[], trivial, h.script⟩
  | cons next rest ih =>
    obtain ⟨ps, hps, hnext⟩ := h.advance hM
    obtain ⟨more, hmore, hend⟩ := ih hnext
    refine ⟨ps ++ more, hps.append hmore, ?_⟩
    rwa [Machine.run_append_fst]

end InterviewQuestions.Library.Baton
