import InterviewQuestions.ForkSync.Program

/-! The mechanism of `linux_internals/fork_sync/pipes.c`: a byte in a pipe. -/
namespace InterviewQuestions.ForkSync.Pipes

open Library Library.Baton

/-- The bytes in the two pipes. -/
structure Sync where
  ptochld : List UInt8
  ptoparent : List UInt8

/-- `write` blocks on a full pipe. -/
def PIPE_CAPACITY : ℕ := 65536

def tellParent (s : Sync) : Option (Sync × Bool) :=
  if s.ptoparent.length < PIPE_CAPACITY then
    some ({ s with ptoparent := s.ptoparent ++ [112] }, true)
  else none

def tellChild (s : Sync) : Option (Sync × Bool) :=
  if s.ptochld.length < PIPE_CAPACITY then some ({ s with ptochld := s.ptochld ++ [99] }, true)
  else none

def waitParent (s : Sync) : Option (Sync × Bool) :=
  match s.ptochld with
  | [] => none
  | _ :: rest => some ({ s with ptochld := rest }, true)

def waitChild (s : Sync) : Option (Sync × Bool) :=
  match s.ptoparent with
  | [] => none
  | _ :: rest => some ({ s with ptoparent := rest }, true)

def mechanism : Mechanism Sync where
  init := ⟨[], []⟩
  notify
    | .first => tellParent
    | .second => tellChild
  wait
    | .first => waitParent
    | .second => waitChild

/-- A notification on its way is the only byte in the pipes. -/
def Rel : Turn → Sync → Prop
  | .held _, s => s = ⟨[], []⟩
  | .sent .first, s => s = ⟨[99], []⟩
  | .sent .second, s => s = ⟨[], [112]⟩

theorem correct : Correct mechanism Rel (fun _ _ => True) where
  init := rfl
  idle_init _ := trivial
  notify := by
    rintro p s s' fin rfl hstep
    cases p <;> cases hstep <;> exact ⟨rfl, trivial⟩
  wait := by
    intro p s s' fin hrel hstep
    cases p <;> obtain rfl := hrel <;> cases hstep <;> exact ⟨rfl, trivial⟩
  early := by
    intro b p s s' fin hrel howner hstep
    cases b with
    | held q =>
      obtain rfl := hrel
      cases p <;> cases hstep
    | sent q =>
      have hq : q = p.other := howner
      subst hq
      cases p <;> obtain rfl := hrel <;> cases hstep
  idle_notify _ _ := trivial
  idle_wait _ _ := trivial
  notify_ends := by
    rintro p s rfl
    cases p <;> exact .last rfl
  wait_ends := by
    intro p s hrel
    cases p <;> obtain rfl := hrel <;> exact .last rfl

theorem pipes_synchronized (lb : Bool) (actions : List Party)
    (hactions : Machine.Admits (step mechanism) (Enabled mechanism) (init mechanism lb) actions) :
    Synchronized mechanism lb actions := synchronized correct hactions

/-- The child has written its first message. -/
theorem pipes_synchronized_sample : Synchronized mechanism false [child, child] :=
  pipes_synchronized false _ (by decide)

end InterviewQuestions.ForkSync.Pipes

/-! The mechanism of `linux_internals/fork_sync/signals.c`: `SIGUSR1`, blocked except in
`sigsuspend`. -/
namespace InterviewQuestions.ForkSync.Signals

open Library Library.Baton

/-- Where a process is in `WAIT_NOTIFY`. -/
inductive Loc where
  | test
  | suspended
  | clear
deriving DecidableEq

/-- `sig_flag` of each process, whether a signal is pending for it, and where it is. -/
structure Sync where
  sigFlag : Party → Bool
  pending : Party → Bool
  loc : Party → Loc

/-- `kill`; a signal that is pending already is not sent a second time. -/
def notify (p : Party) (s : Sync) : Option (Sync × Bool) :=
  some ({ s with pending := Function.update s.pending p.other true }, true)

/-- The handler runs, before `sigsuspend` returns, when a signal is pending. -/
def waitNotify (p : Party) (s : Sync) : Option (Sync × Bool) :=
  match s.loc p with
  | .test =>
      if s.sigFlag p = false then
        some ({ s with loc := Function.update s.loc p .suspended }, false)
      else some ({ s with loc := Function.update s.loc p .clear }, false)
  | .suspended =>
      if s.pending p then
        some (⟨Function.update s.sigFlag p true, Function.update s.pending p false,
          Function.update s.loc p .test⟩, false)
      else none
  | .clear =>
      some ({ s with
        sigFlag := Function.update s.sigFlag p false
        loc := Function.update s.loc p .test }, true)

def mechanism : Mechanism Sync where
  init := ⟨fun _ => false, fun _ => false, fun _ => .test⟩
  notify := notify
  wait := waitNotify

/-- No signal has come. -/
def Quiet (p : Party) (s : Sync) : Prop :=
  s.sigFlag p = false ∧ s.pending p = false ∧ s.loc p ≠ .clear

def Idle (p : Party) (s : Sync) : Prop := s.loc p = .test

/-- A notification on its way is a pending signal or a flag that is set. -/
def Rel : Turn → Sync → Prop
  | .held p, s => Quiet p s ∧ s.loc p = .test ∧ Quiet p.other s
  | .sent p, s => Quiet p.other s ∧
      (s.pending p = true ∧ s.sigFlag p = false ∧ s.loc p ≠ .clear ∨
        s.pending p = false ∧ s.sigFlag p = true ∧ s.loc p ≠ .suspended)

variable {p : Party} {s s' : Sync} {fin : Bool}

theorem rel_notify (h : Rel (.held p) s) (hstep : notify p s = some (s', fin)) :
    if fin then Rel (.sent p.other) s' ∧ Idle p s' else Rel (.held p) s' := by
  obtain ⟨hself, hloc, hflag, hpending, hother⟩ := h
  cases hstep
  refine ⟨⟨?_, Or.inl ⟨?_, hflag, hother⟩⟩, hloc⟩
  · rw [Party.other_other]
    exact ⟨hself.1, by simpa using hself.2.1, hself.2.2⟩
  · simp

/-- A process that waits too early sees no flag and stays. -/
theorem quiet_wait (h : Quiet p s) (hstep : waitNotify p s = some (s', fin)) :
    fin = false ∧ s' = { s with loc := Function.update s.loc p .suspended } := by
  obtain ⟨hflag, hpending, hloc⟩ := h
  unfold waitNotify at hstep
  cases hplace : s.loc p with
  | test =>
    rw [hplace] at hstep
    simp only [hflag, if_true] at hstep
    cases hstep
    exact ⟨rfl, rfl⟩
  | suspended =>
    rw [hplace] at hstep
    simp only [hpending, Bool.false_eq_true, if_false] at hstep
    cases hstep
  | clear => exact absurd hplace hloc

theorem quiet_other_wait (h : Quiet p.other s) (hstep : waitNotify p s = some (s', fin)) :
    Quiet p.other s' := by
  unfold waitNotify at hstep
  split at hstep
  case h_1 =>
    split at hstep
    case isTrue =>
      cases hstep
      simpa [Quiet] using h
    case isFalse =>
      cases hstep
      simpa [Quiet] using h
  case h_2 =>
    split at hstep
    case isTrue =>
      cases hstep
      simpa [Quiet] using h
    case isFalse => cases hstep
  case h_3 =>
    cases hstep
    simpa [Quiet] using h

theorem rel_wait (h : Rel (.sent p) s) (hstep : waitNotify p s = some (s', fin)) :
    if fin then Rel (.held p) s' ∧ Idle p s' else Rel (.sent p) s' := by
  obtain ⟨hother, hsignal⟩ := h
  have hother' := quiet_other_wait hother hstep
  unfold waitNotify at hstep
  cases hplace : s.loc p with
  | test =>
    rw [hplace] at hstep
    by_cases hflag : s.sigFlag p = false
    · simp only [hflag, if_true] at hstep
      cases hstep
      refine ⟨hother', Or.inl ?_⟩
      rcases hsignal with ⟨hpending, -, -⟩ | ⟨-, hset, -⟩
      · simp [hpending, hflag]
      · rw [hflag] at hset
        cases hset
    · simp only [hflag] at hstep
      cases hstep
      refine ⟨hother', Or.inr ?_⟩
      rcases hsignal with ⟨-, hclear, -⟩ | ⟨hpending, hset, -⟩
      · exact absurd hclear hflag
      · simp [hpending, hset]
  | suspended =>
    rw [hplace] at hstep
    rcases hsignal with ⟨hpending, hflag, -⟩ | ⟨-, -, hloc⟩
    · simp only [hpending, if_true] at hstep
      cases hstep
      exact ⟨hother', Or.inr (by simp)⟩
    · exact absurd hplace hloc
  | clear =>
    rw [hplace] at hstep
    cases hstep
    rcases hsignal with ⟨-, -, hloc⟩ | ⟨hpending, -, -⟩
    · exact absurd hplace hloc
    · exact ⟨⟨by simp [Quiet, hpending], by simp, hother'⟩, by simp [Idle]⟩

theorem wait_ends (h : Rel (.sent p) s) : Ends mechanism Idle p waitNotify s := by
  -- from `clear` it is one step, from `test` with the flag two, and so on backwards
  have hclear : ∀ s : Sync, s.loc p = .clear → Ends mechanism Idle p waitNotify s := by
    intro s hloc
    have hlast : waitNotify p s = some ({ s with
        sigFlag := Function.update s.sigFlag p false
        loc := Function.update s.loc p .test }, true) := by rw [waitNotify, hloc]
    exact .last hlast
  have hset : ∀ s : Sync, s.loc p = .test → s.sigFlag p = true →
      Ends mechanism Idle p waitNotify s := by
    intro s hloc hflag
    refine .step (Or.inl ?_)
      (hclear { s with loc := Function.update s.loc p .clear } (Function.update_self _ _ _))
    rw [waitNotify, hloc]
    simp [hflag]
  have hsuspended : ∀ s : Sync, s.loc p = .suspended → s.pending p = true →
      Ends mechanism Idle p waitNotify s := by
    intro s hloc hpending
    refine .step (Or.inl ?_)
      (hset ⟨Function.update s.sigFlag p true, Function.update s.pending p false,
        Function.update s.loc p .test⟩ (Function.update_self _ _ _) (Function.update_self _ _ _))
    rw [waitNotify, hloc]
    simp [hpending]
  cases hplace : s.loc p with
  | clear => exact hclear s hplace
  | suspended =>
    rcases h.2 with ⟨hpending, -, -⟩ | ⟨-, -, hloc⟩
    · exact hsuspended s hplace hpending
    · exact absurd hplace hloc
  | test =>
    rcases h.2 with ⟨hpending, hflag, -⟩ | ⟨-, hflag, -⟩
    · refine .step (Or.inl ?_)
        (hsuspended { s with loc := Function.update s.loc p .suspended }
          (Function.update_self _ _ _) hpending)
      rw [waitNotify, hplace]
      simp [hflag]
    · exact hset s hplace hflag

theorem correct : Correct mechanism Rel Idle where
  init := ⟨⟨rfl, rfl, by decide⟩, rfl, ⟨rfl, rfl, by decide⟩⟩
  idle_init _ := rfl
  notify := rel_notify
  wait := rel_wait
  early := by
    intro b p s s' fin hrel howner hstep
    cases b with
    | held q =>
      obtain rfl : q = p.other := howner
      obtain ⟨hself, hloc, hquiet⟩ := hrel
      rw [Party.other_other] at hquiet
      obtain ⟨rfl, rfl⟩ := quiet_wait hquiet hstep
      refine ⟨rfl, ⟨?_, ?_, ?_⟩⟩
      · simpa [Quiet] using hself
      · simpa using hloc
      · rw [Party.other_other]
        simpa [Quiet] using ⟨hquiet.1, hquiet.2.1⟩
    | sent q =>
      obtain rfl : q = p.other := howner
      obtain ⟨hquiet, hsignal⟩ := hrel
      rw [Party.other_other] at hquiet
      obtain ⟨rfl, rfl⟩ := quiet_wait hquiet hstep
      refine ⟨rfl, ⟨?_, ?_⟩⟩
      · rw [Party.other_other]
        simpa [Quiet] using ⟨hquiet.1, hquiet.2.1⟩
      · simpa using hsignal
  idle_notify := by
    intro p s s' fin hstep hidle
    cases hstep
    exact hidle
  idle_wait := by
    intro p s s' fin hstep hidle
    unfold Idle at hidle ⊢
    have hwait : waitNotify p s = some (s', fin) := hstep
    unfold waitNotify at hwait
    split at hwait
    case h_1 => split at hwait <;> cases hwait <;> simpa using hidle
    case h_2 =>
      split at hwait
      case isTrue =>
        cases hwait
        simpa using hidle
      case isFalse => cases hwait
    case h_3 =>
      cases hwait
      simpa using hidle
  notify_ends _ := .last rfl
  wait_ends := wait_ends

theorem signals_synchronized (lb : Bool) (actions : List Party)
    (hactions : Machine.Admits (step mechanism) (Enabled mechanism) (init mechanism lb) actions) :
    Synchronized mechanism lb actions := synchronized correct hactions

/-- The parent suspends itself before the child has written anything. -/
theorem signals_synchronized_sample : Synchronized mechanism true [parent, child] :=
  signals_synchronized true _ (by decide)

end InterviewQuestions.ForkSync.Signals
