import InterviewQuestions.Library.Machine
import InterviewQuestions.Library.Threads
import Mathlib.Order.Fin.Basic

/-! The philosophers of `threads/philosophers_dinner/solution.c`, `sz` of them (the array
`philosophers` has 5). A step is a lock, an unlock or a `printf` of one philosopher, or a
`pthread_create` or `pthread_join` of `main`. -/
namespace InterviewQuestions.Philosophers

open Library

/-- What a philosopher is about to do. -/
inductive Pc where
  | lockFirst
  | sayFirst
  | lockSecond
  | saySecond
  | eat
  | unlockSecond
  | unlockFirst
  | finished
deriving DecidableEq

inductive Line (sz : ℕ) where
  | pickedUp (i fork : Fin sz)
  | eating (i : Fin sz)
deriving DecidableEq

variable {sz : ℕ}

def leftFork (i : Fin sz) : Fin sz := ⟨(i + 1) % sz, Nat.mod_lt _ i.pos⟩

def firstFork (i : Fin sz) : Fin sz := min i (leftFork i)

def secondFork (i : Fin sz) : Fin sz := max i (leftFork i)

/-- The forks and who holds them, the philosophers, how many of them `main` has created and
joined, and what has been printed. -/
structure State (sz : ℕ) where
  forks : Fin sz → Option (Fin sz)
  pc : Fin sz → Pc
  created : ℕ
  joined : ℕ
  printed : List (Line sz)

def init : State sz where
  forks _ := none
  pc _ := .lockFirst
  created := 0
  joined := 0
  printed := []

namespace State

def goto (s : State sz) (i : Fin sz) (p : Pc) : State sz :=
  { s with pc := Function.update s.pc i p }

def lock (s : State sz) (i fork : Fin sz) (p : Pc) : State sz :=
  { s.goto i p with forks := Function.update s.forks fork (some i) }

def unlock (s : State sz) (i fork : Fin sz) (p : Pc) : State sz :=
  { s.goto i p with forks := Function.update s.forks fork none }

def say (s : State sz) (i : Fin sz) (line : Line sz) (p : Pc) : State sz :=
  { s.goto i p with printed := s.printed ++ [line] }

/-- The next statement of `philosopher_thread`. -/
def philosopherThread (s : State sz) (i : Fin sz) : State sz :=
  match s.pc i with
  | .lockFirst => s.lock i (firstFork i) .sayFirst
  | .sayFirst => s.say i (.pickedUp i (firstFork i)) .lockSecond
  | .lockSecond => s.lock i (secondFork i) .saySecond
  | .saySecond => s.say i (.pickedUp i (secondFork i)) .eat
  | .eat => s.say i (.eating i) .unlockSecond
  | .unlockSecond => s.unlock i (secondFork i) .unlockFirst
  | .unlockFirst => s.unlock i (firstFork i) .finished
  | .finished => s

/-- The next turn of the loops of `main`. -/
def main (s : State sz) : State sz :=
  if s.created < sz then { s with created := s.created + 1 }
  else { s with joined := s.joined + 1 }

end State

inductive Action (sz : ℕ) where
  | main
  | philosopher (i : Fin sz)

def step (s : State sz) : Action sz → State sz × Unit
  | .main => (s.main, ())
  | .philosopher i => (s.philosopherThread i, ())

/-- The fork that a philosopher is about to lock. -/
def Pc.wants (i : Fin sz) : Pc → Option (Fin sz)
  | .lockFirst => some (firstFork i)
  | .lockSecond => some (secondFork i)
  | _ => none

/-- A fork is locked when nobody holds it, a philosopher joined when it has finished. -/
def Enabled (s : State sz) : Action sz → Prop
  | .main => s.created < sz ∨ ∃ h : s.joined < sz, s.pc ⟨s.joined, h⟩ = .finished
  | .philosopher i => i < s.created ∧ s.pc i ≠ .finished ∧
      ∀ fork, (s.pc i).wants i = some fork → s.forks fork = none

instance decidableEnabled (s : State sz) : ∀ a, Decidable (Enabled s a)
  | .main => inferInstanceAs
      (Decidable (s.created < sz ∨ ∃ h : s.joined < sz, s.pc ⟨s.joined, h⟩ = .finished))
  | .philosopher i => inferInstanceAs (Decidable (i < s.created ∧ s.pc i ≠ .finished ∧
      ∀ fork, (s.pc i).wants i = some fork → s.forks fork = none))

/-! ## Forks -/

/-- The forks that a philosopher holds. -/
def Pc.held (i : Fin sz) : Pc → List (Fin sz)
  | .sayFirst | .lockSecond | .unlockFirst => [firstFork i]
  | .saySecond | .eat | .unlockSecond => [firstFork i, secondFork i]
  | .lockFirst | .finished => []

/-- What a philosopher has printed. -/
def Pc.said (i : Fin sz) : Pc → List (Line sz)
  | .lockFirst | .sayFirst => []
  | .lockSecond | .saySecond => [.pickedUp i (firstFork i)]
  | .eat => [.pickedUp i (firstFork i), .pickedUp i (secondFork i)]
  | .unlockSecond | .unlockFirst | .finished =>
      [.pickedUp i (firstFork i), .pickedUp i (secondFork i), .eating i]

/-- How many statements a philosopher has left. -/
def Pc.left : Pc → ℕ
  | .lockFirst => 7
  | .sayFirst => 6
  | .lockSecond => 5
  | .saySecond => 4
  | .eat => 3
  | .unlockSecond => 2
  | .unlockFirst => 1
  | .finished => 0

def Line.speaker : Line sz → Fin sz
  | .pickedUp i _ => i
  | .eating i => i

theorem leftFork_ne (hsz : 1 < sz) (i : Fin sz) : i ≠ leftFork i := by
  intro h
  have hval : i.val = (i.val + 1) % sz := congrArg Fin.val h
  rcases Nat.lt_or_ge (i.val + 1) sz with hlt | hge
  · rw [Nat.mod_eq_of_lt hlt] at hval
    omega
  · have hlast : i.val + 1 = sz := by omega
    rw [hlast, Nat.mod_self] at hval
    omega

theorem firstFork_lt_secondFork (hsz : 1 < sz) (i : Fin sz) : firstFork i < secondFork i :=
  min_lt_max.mpr (leftFork_ne hsz i)

/-- Each fork is with the philosopher whose code says so, and each has printed what it should
have. -/
structure Dinner (s : State sz) : Prop where
  held : ∀ i fork, s.forks fork = some i ↔ fork ∈ (s.pc i).held i
  said : ∀ i, s.printed.filter (fun line => line.speaker = i) = (s.pc i).said i
  early : ∀ i : Fin sz, s.created ≤ i → s.pc i = .lockFirst
  late : ∀ i : Fin sz, i < s.joined → s.pc i = .finished
  created_le : s.created ≤ sz
  joined_le : s.joined ≤ sz

theorem dinner_init : Dinner (init : State sz) where
  held i fork := by simp [init, Pc.held]
  said i := rfl
  early i _ := rfl
  late i h := absurd h (Nat.not_lt_zero _)
  created_le := Nat.zero_le _
  joined_le := Nat.zero_le _

/-! ## Steps -/

variable {s : State sz} {i : Fin sz} {p : Pc} {fork : Fin sz}

/-- One philosopher goes on and touches nothing of the others. -/
theorem Dinner.move (h : Dinner s) (hcreated : i < s.created) (hpc : s.pc i ≠ .finished)
    {forks : Fin sz → Option (Fin sz)} {printed : List (Line sz)}
    (hheld : ∀ fork, forks fork = some i ↔ fork ∈ p.held i)
    (hothers : ∀ j, j ≠ i → ∀ fork, forks fork = some j ↔ s.forks fork = some j)
    (hsaid : printed.filter (fun line => line.speaker = i) = p.said i)
    (hquiet : ∀ j, j ≠ i → printed.filter (fun line => line.speaker = j) =
      s.printed.filter fun line => line.speaker = j) :
    Dinner { s.goto i p with forks := forks, printed := printed } := by
  constructor
  case held =>
    intro j fork
    by_cases hj : j = i
    · rw [hj]
      simpa [State.goto] using hheld fork
    · simp only [State.goto, Function.update_of_ne hj]
      rw [hothers j hj fork]
      exact h.held j fork
  case said =>
    intro j
    by_cases hj : j = i
    · rw [hj]
      simpa [State.goto] using hsaid
    · simp only [State.goto, Function.update_of_ne hj]
      rw [hquiet j hj]
      exact h.said j
  case early =>
    intro j hj
    have hne : j ≠ i := fun heq => absurd hcreated (by rw [← heq]; exact Nat.not_lt.mpr hj)
    simp only [State.goto, Function.update_of_ne hne]
    exact h.early j hj
  case late =>
    intro j hj
    have hne : j ≠ i := fun heq => hpc (by rw [← heq]; exact h.late j hj)
    simp only [State.goto, Function.update_of_ne hne]
    exact h.late j hj
  case created_le => exact h.created_le
  case joined_le => exact h.joined_le

theorem Dinner.lock (h : Dinner s) (hcreated : i < s.created) (hpc : s.pc i ≠ .finished)
    (hfree : s.forks fork = none)
    (hheld : ∀ f, f ∈ p.held i ↔ f = fork ∨ f ∈ (s.pc i).held i)
    (hsaid : p.said i = (s.pc i).said i) : Dinner (s.lock i fork p) := by
  apply h.move hcreated hpc
  · intro f
    rw [hheld, ← h.held]
    by_cases hf : f = fork
    · simp [hf]
    · simp [hf]
  · intro j hj f
    by_cases hf : f = fork
    · simp [hf, hfree, Ne.symm hj]
    · simp [hf]
  · rw [hsaid]
    exact h.said i
  · exact fun j _ => rfl

theorem Dinner.unlock (h : Dinner s) (hcreated : i < s.created) (hpc : s.pc i ≠ .finished)
    (hmem : fork ∈ (s.pc i).held i)
    (hheld : ∀ f, f ∈ p.held i ↔ f ≠ fork ∧ f ∈ (s.pc i).held i)
    (hsaid : p.said i = (s.pc i).said i) : Dinner (s.unlock i fork p) := by
  have howner := (h.held i fork).mpr hmem
  apply h.move hcreated hpc
  · intro f
    rw [hheld, ← h.held]
    by_cases hf : f = fork
    · simp [hf]
    · simp [hf]
  · intro j hj f
    by_cases hf : f = fork
    · simp [hf, howner, Ne.symm hj]
    · simp [hf]
  · rw [hsaid]
    exact h.said i
  · exact fun j _ => rfl

theorem Dinner.say (h : Dinner s) (hcreated : i < s.created) (hpc : s.pc i ≠ .finished)
    {line : Line sz} (hline : line.speaker = i) (hheld : p.held i = (s.pc i).held i)
    (hsaid : p.said i = (s.pc i).said i ++ [line]) : Dinner (s.say i line p) := by
  apply h.move hcreated hpc
  · intro f
    rw [hheld]
    exact h.held i f
  · exact fun j _ f => Iff.rfl
  · rw [hsaid, ← h.said i]
    simp [hline]
  · intro j hj
    simp [hline, Ne.symm hj]

theorem Dinner.main (h : Dinner s) (hmain : Enabled s .main) : Dinner s.main := by
  unfold State.main
  by_cases hcreate : s.created < sz
  · rw [if_pos hcreate]
    exact { h with
      early := fun i hi => h.early i (Nat.le_of_succ_le hi)
      created_le := hcreate }
  · rw [if_neg hcreate]
    rcases hmain with hlt | ⟨hlt, hdone⟩
    · exact absurd hlt hcreate
    · refine { h with late := fun i hi => ?_, joined_le := hlt }
      rcases Nat.lt_succ_iff_lt_or_eq.mp hi with hbefore | hnow
      · exact h.late i hbefore
      · have heq : (⟨s.joined, hlt⟩ : Fin sz) = i := Fin.ext hnow.symm
        rwa [heq] at hdone

theorem Dinner.philosopherThread (hsz : 1 < sz) (h : Dinner s)
    (hi : Enabled s (.philosopher i)) : Dinner (s.philosopherThread i) := by
  obtain ⟨hcreated, hrunning, hfree⟩ := hi
  have hforks := firstFork_lt_secondFork hsz i
  unfold State.philosopherThread
  cases hpc : s.pc i with
  | lockFirst =>
    exact h.lock hcreated hrunning (hfree _ (by rw [hpc, Pc.wants]))
      (by simp [hpc, Pc.held]) (by rw [hpc]; rfl)
  | sayFirst => exact h.say hcreated hrunning rfl (by rw [hpc]; rfl) (by rw [hpc]; rfl)
  | lockSecond =>
    exact h.lock hcreated hrunning (hfree _ (by rw [hpc, Pc.wants]))
      (by simp [hpc, Pc.held, or_comm]) (by rw [hpc]; rfl)
  | saySecond => exact h.say hcreated hrunning rfl (by rw [hpc]; rfl) (by rw [hpc]; rfl)
  | eat => exact h.say hcreated hrunning rfl (by rw [hpc]; rfl) (by rw [hpc]; rfl)
  | unlockSecond =>
    refine h.unlock hcreated hrunning (by simp [hpc, Pc.held]) (fun f => ?_) (by rw [hpc]; rfl)
    simp only [hpc, Pc.held, List.mem_cons, List.not_mem_nil, or_false]
    constructor
    · rintro rfl
      exact ⟨hforks.ne, Or.inl rfl⟩
    · rintro ⟨hne, heq | heq⟩
      · exact heq
      · exact absurd heq hne
  | unlockFirst =>
    exact h.unlock hcreated hrunning (by simp [hpc, Pc.held]) (by simp [hpc, Pc.held])
      (by rw [hpc]; rfl)
  | finished => exact absurd hpc hrunning

theorem Dinner.step (hsz : 1 < sz) (h : Dinner s) {a : Action sz} (ha : Enabled s a) :
    Dinner (step s a).1 := by
  cases a with
  | main => exact h.main ha
  | philosopher i => exact h.philosopherThread hsz ha

/-! ## Runs -/

theorem dinner_run (hsz : 1 < sz) {actions : List (Action sz)}
    (hactions : Machine.Admits step Enabled init actions) :
    Dinner (Machine.run step init actions).1 :=
  Machine.run_invariant Dinner (fun _ _ h ha => h.step hsz ha) dinner_init hactions

theorem leftFork_mem_held (i : Fin sz) : leftFork i ∈ Pc.eat.held i := by
  rw [Pc.held, firstFork, secondFork]
  rcases le_total i (leftFork i) with hle | hle
  · simp [hle]
  · simp [hle]

theorem self_mem_held (i : Fin sz) : i ∈ Pc.eat.held i := by
  rw [Pc.held, firstFork, secondFork]
  rcases le_total i (leftFork i) with hle | hle
  · simp [hle]
  · simp [hle]

/-- Two neighbours are never eating at once: both would hold the fork between them. -/
theorem neighbours_never_eat_together (hsz : 1 < sz) (actions : List (Action sz))
    (hactions : Machine.Admits step Enabled init actions) (i : Fin sz) :
    ¬ ((Machine.run step init actions).1.pc i = .eat ∧
      (Machine.run step init actions).1.pc (leftFork i) = .eat) := by
  rintro ⟨hself, hneighbour⟩
  have hdinner := dinner_run hsz hactions
  have hmine := (hdinner.held i (leftFork i)).mpr (by rw [hself]; exact leftFork_mem_held i)
  have htheirs := (hdinner.held (leftFork i) (leftFork i)).mpr
    (by rw [hneighbour]; exact self_mem_held (leftFork i))
  rw [hmine] at htheirs
  exact leftFork_ne hsz i (Option.some.inj htheirs)

/-- Philosopher 0 eats while 1 has its first fork and 4 waits for 0's. -/
theorem neighbours_never_eat_together_five :
    ¬ ((Machine.run step init ([.main, .main, .main, .main, .main, .philosopher 0, .philosopher 0,
        .philosopher 0, .philosopher 0] : List (Action 5))).1.pc 4 = .eat ∧
      (Machine.run step init ([.main, .main, .main, .main, .main, .philosopher 0, .philosopher 0,
        .philosopher 0, .philosopher 0] : List (Action 5))).1.pc (leftFork 4) = .eat) :=
  neighbours_never_eat_together (by decide) _ (by decide) 4

/-- `main` has created all the philosophers and joined them. -/
def Final (s : State sz) : Prop := s.created = sz ∧ s.joined = sz

/-- The statements that are left, of the philosophers and of `main`. -/
def remaining (s : State sz) : ℕ :=
  Threads.tally Pc.left s.pc + (sz - s.created) + (sz - s.joined)

theorem remaining_step {a : Action sz} (ha : Enabled s a) :
    remaining (step s a).1 < remaining s := by
  cases a with
  | main =>
    simp only [Philosophers.step, State.main]
    by_cases hcreate : s.created < sz
    · rw [if_pos hcreate]
      simp only [remaining]
      omega
    · rw [if_neg hcreate]
      rcases ha with hlt | ⟨hlt, hdone⟩
      · exact absurd hlt hcreate
      · simp only [remaining]
        omega
  | philosopher i =>
    have hmove : ∀ p : Pc, p.left + 1 = (s.pc i).left →
        Threads.tally Pc.left (Function.update s.pc i p) < Threads.tally Pc.left s.pc := by
      intro p hp
      have hsum := Threads.tally_update Pc.left s.pc i p
      omega
    have hless : ∀ p : Pc, p.left + 1 = (s.pc i).left →
        Threads.tally Pc.left (Function.update s.pc i p) + (sz - s.created) + (sz - s.joined) <
          remaining s := fun p hp => by
      have hp' := hmove p hp
      rw [remaining]
      omega
    simp only [Philosophers.step, State.philosopherThread]
    cases hpc : s.pc i with
    | finished => exact absurd hpc ha.2.1
    | _ => exact hless _ (by rw [hpc]; rfl)

/-- A philosopher that waits for its second fork holds the first, which is lower. -/
theorem Dinner.ascending (hsz : 1 < sz) (h : Dinner s) (i f f' : Fin sz)
    (hheld : s.forks f = some i) (hwants : (s.pc i).wants i = some f') : f < f' := by
  have hmem := (h.held i f).mp hheld
  cases hpc : s.pc i with
  | lockFirst =>
    rw [hpc] at hmem
    cases hmem
  | lockSecond =>
    rw [hpc] at hmem hwants
    rw [List.mem_singleton.mp hmem, ← Option.some.inj hwants]
    exact firstFork_lt_secondFork hsz i
  | _ =>
    rw [hpc] at hwants
    cases hwants

theorem Dinner.proceeds (hsz : 1 < sz) (h : Dinner s) (hs : ¬ Final s) : ∃ a, Enabled s a := by
  by_cases hcreate : s.created < sz
  · exact ⟨.main, Or.inl hcreate⟩
  have hcreated : s.created = sz := Nat.le_antisymm h.created_le (Nat.not_lt.mp hcreate)
  have hlt : s.joined < sz := lt_of_le_of_ne h.joined_le fun heq => hs ⟨hcreated, heq⟩
  by_cases hdone : s.pc ⟨s.joined, hlt⟩ = .finished
  · exact ⟨.main, Or.inr ⟨hlt, hdone⟩⟩
  obtain ⟨u, hbusy, hfree⟩ := @LockOrder.exists_proceeds _ _ _ _ s.forks
    (fun i => (s.pc i).wants i) (h.ascending hsz) ⟨s.joined, hlt⟩
  refine ⟨.philosopher u, by rw [hcreated]; exact u.isLt, ?_, hfree⟩
  rcases hbusy with rfl | ⟨f, hf⟩
  · exact hdone
  · intro hfinished
    have hmem := (h.held u f).mp hf
    rw [hfinished] at hmem
    cases hmem

theorem Dinner.final (h : Dinner s) (hs : Final s) (i : Fin sz) :
    s.forks i = none ∧ s.printed.filter (fun line => line.speaker = i) =
      [.pickedUp i (firstFork i), .pickedUp i (secondFork i), .eating i] := by
  have hall : ∀ j, s.pc j = .finished := fun j => h.late j (by rw [hs.2]; exact j.isLt)
  constructor
  · cases hfork : s.forks i with
    | none => rfl
    | some j =>
      have hmem := (h.held j i).mp hfork
      rw [hall j] at hmem
      cases hmem
  · rw [h.said i, hall i]
    rfl

/-- No longer than the program, with a continuation to the end of `main`. If it has none it has
come there: every philosopher has picked up its two forks and eaten, once, and all forks are
free. -/
def Completes (actions : List (Action sz)) : Prop :=
  actions.length ≤ 9 * sz ∧
    (∃ more, Machine.Admits step Enabled init (actions ++ more) ∧
      Final (Machine.run step init (actions ++ more)).1) ∧
    ((∀ a, ¬ Enabled (Machine.run step init actions).1 a) →
      Final (Machine.run step init actions).1 ∧ ∀ i : Fin sz,
        (Machine.run step init actions).1.forks i = none ∧
        (Machine.run step init actions).1.printed.filter (fun line => line.speaker = i) =
          [.pickedUp i (firstFork i), .pickedUp i (secondFork i), .eating i])

/-- There is no deadlock, and every philosopher eats. -/
theorem everyone_eats (hsz : 1 < sz) (actions : List (Action sz))
    (hactions : Machine.Admits step Enabled init actions) : Completes actions := by
  have hdinner := dinner_run hsz hactions
  constructor
  · have hlength := Machine.length_add_measure_le Dinner remaining (fun _ _ h ha => h.step hsz ha)
      (fun _ _ _ ha => remaining_step ha) dinner_init hactions
    have hstart : remaining (init : State sz) = 9 * sz := by
      simp [remaining, init, Pc.left]
      omega
    omega
  constructor
  · obtain ⟨more, hmore, hfinal⟩ := Machine.exists_completion Dinner Final remaining
      (fun _ _ h ha => h.step hsz ha) (fun _ _ _ ha => remaining_step ha)
      (fun _ h hs => h.proceeds hsz hs) hdinner
    refine ⟨more, hactions.append hmore, ?_⟩
    rwa [Machine.run_append_fst]
  · intro hstuck
    have hfinal : Final (Machine.run step init actions).1 := by
      by_contra hnot
      obtain ⟨a, ha⟩ := hdinner.proceeds hsz hnot
      exact hstuck a ha
    exact ⟨hfinal, hdinner.final hfinal⟩

/-- All five have picked up a fork, those that could their first one. -/
theorem everyone_eats_five :
    Completes ([.main, .main, .main, .main, .main, .philosopher 3, .philosopher 2, .philosopher 1,
      .philosopher 0, .philosopher 3, .philosopher 3] : List (Action 5)) :=
  everyone_eats (by decide) _ (by decide)

end InterviewQuestions.Philosophers
