import InterviewQuestions.Library.Threads
import InterviewQuestions.WorkQueue.Coherence

/-! Both work queues are safe under every interleaving. With semaphores a counting
argument gives each thread between `sem_wait` and the queue a job of its own; with
condition variables the test under the mutex does. -/
namespace InterviewQuestions.WorkQueue

open Library Library.LinkedStack

variable {Tid Node : Type*}

/-- No `get_job` is about to dereference a `NULL` head, none has taken a job that another
took, and while the mutex is free the jobs inserted are those taken and those in the queue. -/
def Safe (s : State Tid Node) : Prop :=
  (∀ t ret, s.pc t = .advance ret → s.workq ≠ none) ∧ s.taken.Nodup ∧
    (s.mutex = none →
      ∃ queue, Linked s.next s.workq queue ∧ s.inserted.Perm (s.taken ++ queue))

/-- The statements of `get_job` between finding the queue non-empty and taking a job. -/
def Pc.needsJob : Pc Node → Bool
  | .readHead | .advance _ => true
  | _ => false

theorem Coherent.safe {s : State Tid Node} (h : Coherent s)
    (hhead : ∀ t, (s.pc t).needsJob → s.workq.isSome) : Safe s := by
  obtain ⟨queue, hlinked, hperm⟩ := h.conserved
  refine ⟨fun t ret hpc hnone => ?_, ?_, fun _ => ⟨queue, hlinked, hperm⟩⟩
  · have hsome := hhead t (by rw [hpc]; rfl)
    rw [hnone] at hsome
    cases hsome
  · exact (hperm.nodup_iff.mp h.nodup).sublist (List.sublist_append_left _ _)

/-! ## Semaphores -/

namespace Semaphores

/-- A thread at one of these statements has a job to come to it, or one it has inserted and
not posted yet. -/
def tokens : Pc Node → ℕ
  | .lockForGet | .readHead | .advance _ | .unlockAfterInsert | .notify => 1
  | _ => 0

variable [Fintype Tid]

/-- The semaphore and the tokens never promise more jobs than the queue holds. -/
structure Covered (s : State Tid Node) : Prop where
  coherent : Coherent s.toState
  promised : s.workqSem + ∑ t, tokens (s.pc t) + s.taken.length ≤ s.inserted.length

theorem covered_init (next : Node → Option Node) : Covered (init next : State Tid Node) :=
  ⟨coherent_init next, by simp [init, WorkQueue.State.init, tokens]⟩

theorem Covered.safe {s : State Tid Node} (h : Covered s) : Safe s.toState := by
  apply h.coherent.safe
  intro t hneeds
  obtain ⟨queue, hlinked, hperm⟩ := h.coherent.conserved
  have htoken : tokens (s.pc t) = 1 := by
    revert hneeds
    cases s.pc t <;> simp [Pc.needsJob, tokens]
  have hle : tokens (s.pc t) ≤ ∑ u, tokens (s.pc u) := Threads.le_tally tokens s.pc t
  have hlength := hperm.length_eq
  rw [List.length_append] at hlength
  have hpromised := h.promised
  exact hlinked.head_isSome (by omega)

variable [DecidableEq Tid]

theorem sum_tokens (pc : Tid → Pc Node) (t : Tid) (p : Pc Node) {a b : ℕ}
    (hbefore : tokens (pc t) = a) (hafter : tokens p = b) :
    ∑ u, tokens (Function.update pc t p u) + a = ∑ u, tokens (pc u) + b := by
  have hupdate := Threads.tally_update tokens pc t p
  rwa [hbefore, hafter] at hupdate

variable [DecidableEq Node]

/-- Inserting a job makes a token, and taking one uses a token up. -/
theorem tokens_exec (s : WorkQueue.State Tid Node) (t : Tid) :
    ∑ u, tokens ((s.exec t).pc u) + (s.exec t).taken.length + s.inserted.length ≤
      ∑ u, tokens (s.pc u) + s.taken.length + (s.exec t).inserted.length := by
  unfold WorkQueue.State.exec
  cases hpc : s.pc t with
  | readHead =>
    have hsum := sum_tokens (a := 1) (b := 1) s.pc t (.advance s.workq) (by rw [hpc]; rfl) rfl
    simp only [WorkQueue.State.goto]
    omega
  | advance ret =>
    have hsum := sum_tokens (a := 1) (b := 0) s.pc t (.unlockAfterGet ret) (by rw [hpc]; rfl) rfl
    have hone : ret.toList.length ≤ 1 := by cases ret <;> simp
    simp only [WorkQueue.State.goto, List.length_append]
    omega
  | unlockAfterGet ret =>
    have hsum := sum_tokens (a := 0) (b := 0) s.pc t .outside (by rw [hpc]; rfl) rfl
    simp only [WorkQueue.State.unlock, WorkQueue.State.goto]
    omega
  | lockForInsert newJob =>
    have hsum := sum_tokens (a := 0) (b := 0) s.pc t (.linkJob newJob) (by rw [hpc]; rfl) rfl
    simp only [WorkQueue.State.lock, WorkQueue.State.goto]
    omega
  | linkJob newJob =>
    have hsum := sum_tokens (a := 0) (b := 0) s.pc t (.setHead newJob) (by rw [hpc]; rfl) rfl
    simp only [WorkQueue.State.goto]
    omega
  | setHead newJob =>
    have hsum := sum_tokens (a := 0) (b := 1) s.pc t .unlockAfterInsert (by rw [hpc]; rfl) rfl
    simp only [WorkQueue.State.goto, List.length_append, List.length_singleton]
    omega
  | unlockAfterInsert =>
    have hsum := sum_tokens (a := 1) (b := 1) s.pc t .notify (by rw [hpc]; rfl) rfl
    simp only [WorkQueue.State.unlock, WorkQueue.State.goto]
    omega
  | _ => exact Nat.le_refl _

theorem Covered.step (semValueMax : ℕ) {s : State Tid Node} (h : Covered s)
    {a : Action Tid Node} (ha : Enabled s a) : Covered (step semValueMax s a).1 := by
  have hpromised := h.promised
  cases a with
  | getJob t =>
    have hpc : s.pc t = .outside := ha
    have hsum := sum_tokens (a := 0) (b := 0) s.pc t .semWait (by rw [hpc]; rfl) rfl
    refine ⟨h.coherent.goto (p := .semWait) (by rw [hpc]; rfl) trivial (Or.inl rfl), ?_⟩
    simp only [Semaphores.step, WorkQueue.State.goto]
    omega
  | insertJob t newJob =>
    obtain ⟨hpc, hfresh⟩ := ha
    have hsum := sum_tokens (a := 0) (b := 0) s.pc t (.lockForInsert newJob) (by rw [hpc]; rfl) rfl
    refine ⟨h.coherent.callInsert hpc hfresh, ?_⟩
    simp only [Semaphores.step, WorkQueue.State.callInsert, WorkQueue.State.goto]
    omega
  | exec t =>
    have hready : ready s (s.pc t) = true := ha
    have hexec := tokens_exec s.toState t
    rw [Semaphores.step, exec]
    cases hpc : s.pc t with
    | semWait =>
      have hsum := sum_tokens (a := 0) (b := 1) s.pc t .lockForGet (by rw [hpc]; rfl) rfl
      have hpos : 0 < s.workqSem := by
        rw [hpc] at hready
        exact of_decide_eq_true hready
      refine ⟨h.coherent.goto (p := .lockForGet) (by rw [hpc]; rfl) trivial (Or.inl rfl), ?_⟩
      simp only [WorkQueue.State.goto]
      omega
    | lockForGet =>
      have hsum := sum_tokens (a := 1) (b := 1) s.pc t .readHead (by rw [hpc]; rfl) rfl
      rw [hpc] at hready
      have hfree : s.mutex = none := Option.isNone_iff_eq_none.mp hready
      refine ⟨h.coherent.lock (p := .readHead) hfree rfl trivial (Or.inl rfl), ?_⟩
      simp only [WorkQueue.State.lock, WorkQueue.State.goto]
      omega
    | notify =>
      have hsum := sum_tokens (a := 1) (b := 0) s.pc t .outside (by rw [hpc]; rfl) rfl
      refine ⟨h.coherent.goto (p := .outside) (by rw [hpc]; rfl) trivial (Or.inl rfl), ?_⟩
      simp only [WorkQueue.State.goto]
      split <;> omega
    | _ =>
      refine ⟨h.coherent.exec (by rw [hpc] at hready ⊢; exact hready), ?_⟩
      simp only
      omega

end Semaphores

/-! ## Condition variables -/

namespace Condvars

/-- A thread that has found the queue non-empty still holds the mutex, so it is. -/
structure Guarded (s : State Tid Node) : Prop where
  coherent : Coherent s
  head : ∀ t, (s.pc t).needsJob → s.workq.isSome

theorem guarded_init (next : Node → Option Node) :
    Guarded (State.init next : State Tid Node) :=
  ⟨coherent_init next, fun t h => by cases h⟩

variable [DecidableEq Tid]

theorem head_goto {s : State Tid Node} (h : ∀ t, (s.pc t).needsJob → s.workq.isSome) (t : Tid)
    {p : Pc Node} (hp : p.needsJob → s.workq.isSome) :
    ∀ u, ((s.goto t p).pc u).needsJob → s.workq.isSome :=
  (Function.forall_update_iff s.pc fun _ q => q.needsJob → s.workq.isSome).mpr
    ⟨hp, fun u _ => h u⟩

theorem needsJob_holds {p : Pc Node} (h : p.needsJob = true) : p.holds = true := by
  cases p <;> trivial

theorem Guarded.goto {s : State Tid Node} (h : Guarded s) {t : Tid} {p : Pc Node}
    (hholds : p.holds = false) (hheld : (s.pc t).holds = false) (hjob : p.job = none) :
    Guarded (s.goto t p) := by
  refine ⟨h.coherent.goto (hholds.trans hheld.symm) (agrees_of_not_holds (by simp [hholds]))
    (Or.inl hjob), head_goto h.head t fun hneeds => ?_⟩
  rw [needsJob_holds hneeds] at hholds
  cases hholds

variable [DecidableEq Node]

/-- Only the holder of the mutex takes jobs, and it needs none afterwards. -/
theorem head_exec {s : State Tid Node} (h : Guarded s) (t : Tid) :
    ∀ u, ((s.exec t).pc u).needsJob → (s.exec t).workq.isSome := by
  unfold State.exec
  cases hpc : s.pc t with
  | readHead => exact head_goto h.head t fun _ => h.head t (by rw [hpc]; rfl)
  | advance ret =>
    intro u hneeds
    have hne : u ≠ t := by
      rintro rfl
      simp [State.goto, Pc.needsJob] at hneeds
    have hheld : (s.pc u).holds = true :=
      needsJob_holds (by simpa [State.goto, Function.update_of_ne hne] using hneeds)
    exact absurd hheld (h.coherent.only_holder (by rw [hpc]; rfl) hne)
  | setHead newJob => exact fun u _ => rfl
  | unlockAfterGet ret => exact head_goto h.head t (p := .outside) (fun hneeds => by cases hneeds)
  | lockForInsert newJob =>
    exact head_goto h.head t (p := .linkJob newJob) (fun hneeds => by cases hneeds)
  | linkJob newJob =>
    exact head_goto h.head t (p := .setHead newJob) (fun hneeds => by cases hneeds)
  | unlockAfterInsert => exact head_goto h.head t (p := .notify) (fun hneeds => by cases hneeds)
  | _ => exact h.head

theorem Guarded.exec {s : State Tid Node} (h : Guarded s) {t : Tid}
    (hready : ready s (s.pc t) = true ∨ s.pc t = .notify) : Guarded (exec s t) := by
  have hready' : s.pc t ≠ .notify → ready s (s.pc t) = true := fun hne => hready.resolve_right hne
  unfold Condvars.exec
  cases hpc : s.pc t with
  | lockForGet =>
    rw [hpc] at hready'
    have hfree : s.mutex = none := Option.isNone_iff_eq_none.mp (hready' (by simp))
    exact ⟨h.coherent.lock (p := .testHead) hfree rfl trivial (Or.inl rfl),
      head_goto h.head t (p := .testHead) (fun hneeds => by cases hneeds)⟩
  | condRelock =>
    rw [hpc] at hready'
    have hfree : s.mutex = none := Option.isNone_iff_eq_none.mp (hready' (by simp))
    exact ⟨h.coherent.lock (p := .testHead) hfree rfl trivial (Or.inl rfl),
      head_goto h.head t (p := .testHead) (fun hneeds => by cases hneeds)⟩
  | testHead =>
    by_cases hnull : s.workq = none
    · rw [if_pos hnull]
      exact ⟨h.coherent.goto (p := .condWait) (by rw [hpc]; rfl) trivial (Or.inl rfl),
        head_goto h.head t (p := .condWait) (fun hneeds => by cases hneeds)⟩
    · rw [if_neg hnull]
      exact ⟨h.coherent.goto (p := .readHead) (by rw [hpc]; rfl) trivial (Or.inl rfl),
        head_goto h.head t fun _ => Option.isSome_iff_ne_none.mpr hnull⟩
  | condWait =>
    exact ⟨h.coherent.unlock (p := .condBlocked) (by rw [hpc]; rfl) Bool.false_ne_true rfl,
      head_goto h.head t (p := .condBlocked) (fun hneeds => by cases hneeds)⟩
  | notify =>
    exact ⟨h.coherent.goto (p := .outside) (by rw [hpc]; rfl) trivial (Or.inl rfl),
      head_goto h.head t (p := .outside) (fun hneeds => by cases hneeds)⟩
  | _ =>
    refine ⟨h.coherent.exec ?_, head_exec h t⟩
    rw [hpc] at hready' ⊢
    exact hready' (by simp)

theorem Guarded.step {s : State Tid Node} (h : Guarded s) {a : Action Tid Node}
    (ha : Enabled s a) : Guarded (step s a).1 := by
  cases a with
  | getJob t =>
    have hpc : s.pc t = .outside := ha
    exact h.goto rfl (by rw [hpc]; rfl) rfl
  | insertJob t newJob =>
    obtain ⟨hpc, hfresh⟩ := ha
    exact ⟨h.coherent.callInsert hpc hfresh,
      head_goto h.head t (p := .lockForInsert newJob) (fun hneeds => by cases hneeds)⟩
  | signal t woken =>
    obtain ⟨hpc, hwoken⟩ := ha
    have hne : woken ≠ t := by
      rintro rfl
      rw [hpc] at hwoken
      cases hwoken
    refine (h.goto (p := .outside) rfl (by rw [hpc]; rfl) rfl).goto rfl ?_ rfl
    simp [State.goto, Function.update_of_ne hne, hwoken, Pc.holds]
  | wake t =>
    have hpc : s.pc t = .condBlocked := ha
    exact h.goto rfl (by rw [hpc]; rfl) rfl
  | exec t =>
    rcases ha with hready | ⟨hnotify, _⟩
    · exact h.exec (Or.inl hready)
    · exact h.exec (Or.inr hnotify)

end Condvars

variable [Fintype Tid] [DecidableEq Tid] [DecidableEq Node]

/-- Every run of either work queue, from the empty queue and whatever the fresh nodes hold,
is safe. -/
theorem work_queues_safe (next : Node → Option Node) :
    (∀ (semValueMax : ℕ) (actions : List (Semaphores.Action Tid Node)),
      Machine.Admits (Semaphores.step semValueMax) Semaphores.Enabled (Semaphores.init next)
        actions →
      Safe (Machine.run (Semaphores.step semValueMax) (Semaphores.init next) actions).1.toState) ∧
    ∀ actions : List (Condvars.Action Tid Node),
      Machine.Admits Condvars.step Condvars.Enabled (State.init next) actions →
      Safe (Machine.run Condvars.step (State.init next) actions).1 := by
  constructor
  · intro semValueMax actions hactions
    have hcovered := Machine.run_invariant Semaphores.Covered
      (fun s a h ha => h.step semValueMax ha) (Semaphores.covered_init next) hactions
    exact hcovered.safe
  · intro actions hactions
    have hguarded := Machine.run_invariant Condvars.Guarded (fun s a h ha => h.step ha)
      (Condvars.guarded_init next) hactions
    exact hguarded.coherent.safe hguarded.head

/-- One thread inserts a job while another waits for it, is woken for nothing, and takes it. -/
theorem work_queues_safe_sample :
    Safe (Machine.run (Semaphores.step 1) (Semaphores.init fun _ => none)
      ([.getJob false, .insertJob true 7, .exec true, .exec true, .exec true, .exec true,
        .exec true, .exec false, .exec false, .exec false, .exec false] :
        List (Semaphores.Action Bool ℕ))).1.toState ∧
    Safe (Machine.run Condvars.step (State.init fun _ => none)
      ([.getJob false, .exec false, .exec false, .exec false, .wake false, .exec false,
        .exec false, .exec false, .insertJob true 7, .exec true, .exec true, .exec true,
        .exec true, .signal true false, .exec false, .exec false, .exec false, .exec false] :
        List (Condvars.Action Bool ℕ))).1 :=
  ⟨(work_queues_safe fun _ => none).1 1 _ (by decide +kernel),
    (work_queues_safe fun _ => none).2 _ (by decide +kernel)⟩

end InterviewQuestions.WorkQueue
