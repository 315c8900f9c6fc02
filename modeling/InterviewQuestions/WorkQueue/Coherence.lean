import InterviewQuestions.Library.LinkedLists
import InterviewQuestions.Library.Machine
import InterviewQuestions.Library.Threads
import Mathlib.Data.Fintype.Defs
import Mathlib.Data.List.Basic
import Mathlib.Data.List.Perm.Basic

/-! The work queue of `threads/work_queue`: what `wqueue_semaphores.c` and
`wqueue_condvars.c` have in common. A thread is at one statement of `get_job` or
`insert_job`, and one step of the system is one statement of one thread. -/
namespace InterviewQuestions.WorkQueue

variable {Tid Node : Type*}

/-- The statement a thread is about to execute, with its local variables. -/
inductive Pc (Node : Type*) where
  | outside
  -- `get_job`
  | semWait
  | lockForGet
  | testHead
  | condWait
  | condBlocked
  | condRelock
  | readHead
  | advance (ret : Option Node)
  | unlockAfterGet (ret : Option Node)
  -- `insert_job`
  | lockForInsert (newJob : Node)
  | linkJob (newJob : Node)
  | setHead (newJob : Node)
  | unlockAfterInsert
  | notify
deriving DecidableEq

/-- The shared memory and the threads. `issued` are the nodes that callers have made,
`inserted` and `taken` the jobs that have entered and left the queue, in order. -/
structure State (Tid Node : Type*) where
  mutex : Option Tid
  workq : Option Node
  next : Node → Option Node
  pc : Tid → Pc Node
  issued : List Node
  inserted : List Node
  taken : List Node

variable [DecidableEq Tid] [DecidableEq Node]

namespace State

/-- All threads outside the queue; the `next` fields of fresh nodes hold anything. -/
def init (next : Node → Option Node) : State Tid Node where
  mutex := none
  workq := none
  next := next
  pc _ := .outside
  issued := []
  inserted := []
  taken := []

def goto (s : State Tid Node) (t : Tid) (p : Pc Node) : State Tid Node :=
  { s with pc := Function.update s.pc t p }

def lock (s : State Tid Node) (t : Tid) (p : Pc Node) : State Tid Node :=
  { s.goto t p with mutex := some t }

def unlock (s : State Tid Node) (t : Tid) (p : Pc Node) : State Tid Node :=
  { s.goto t p with mutex := none }

/-- A call of `insert_job` with a fresh node. -/
def callInsert (s : State Tid Node) (t : Tid) (newJob : Node) : State Tid Node :=
  { s.goto t (.lockForInsert newJob) with issued := newJob :: s.issued }

/-- The statements that both files have, between the calls that synchronise. -/
def exec (s : State Tid Node) (t : Tid) : State Tid Node :=
  match s.pc t with
  | .readHead => s.goto t (.advance s.workq)
  | .advance ret =>
      { s.goto t (.unlockAfterGet ret) with
        workq := s.workq.bind s.next
        taken := s.taken ++ ret.toList }
  | .unlockAfterGet _ => s.unlock t .outside
  | .lockForInsert newJob => s.lock t (.linkJob newJob)
  | .linkJob newJob =>
      { s.goto t (.setHead newJob) with next := Function.update s.next newJob s.workq }
  | .setHead newJob =>
      { s.goto t .unlockAfterInsert with
        workq := some newJob
        inserted := s.inserted ++ [newJob] }
  | .unlockAfterInsert => s.unlock t .notify
  | _ => s

/-- Whether a thread at such a statement can go on: a mutex is locked when it is free, and
`workq->next` is there when `workq` is not `NULL`. -/
def ready (s : State Tid Node) : Pc Node → Bool
  | .readHead | .unlockAfterGet _ | .linkJob _ | .setHead _ | .unlockAfterInsert => true
  | .advance _ => s.workq.isSome
  | .lockForInsert _ => s.mutex.isNone
  | _ => false

end State

/-! ## `wqueue_semaphores.c` -/

namespace Semaphores

/-- The state with the value of `workq_sem`. -/
structure State (Tid Node : Type*) extends WorkQueue.State Tid Node where
  workqSem : ℕ

inductive Action (Tid Node : Type*) where
  | getJob (t : Tid)
  | insertJob (t : Tid) (newJob : Node)
  | exec (t : Tid)

def init (next : Node → Option Node) : State Tid Node := ⟨.init next, 0⟩

/-- One statement. `sem_post` fails, unnoticed, at the largest value a semaphore has. -/
def exec (semValueMax : ℕ) (s : State Tid Node) (t : Tid) : State Tid Node :=
  match s.pc t with
  | .semWait => ⟨s.goto t .lockForGet, s.workqSem - 1⟩
  | .lockForGet => { s with toState := s.lock t .readHead }
  | .notify =>
      ⟨s.goto t .outside, if s.workqSem < semValueMax then s.workqSem + 1 else s.workqSem⟩
  | _ => { s with toState := s.toState.exec t }

def step (semValueMax : ℕ) (s : State Tid Node) : Action Tid Node → State Tid Node × Unit
  | .getJob t => ({ s with toState := s.goto t .semWait }, ())
  | .insertJob t newJob => ({ s with toState := s.callInsert t newJob }, ())
  | .exec t => (exec semValueMax s t, ())

def ready (s : State Tid Node) : Pc Node → Bool
  | .semWait => 0 < s.workqSem
  | .lockForGet => s.mutex.isNone
  | .notify => true
  | p => s.toState.ready p

def Enabled (s : State Tid Node) : Action Tid Node → Prop
  | .getJob t => s.pc t = .outside
  | .insertJob t newJob => s.pc t = .outside ∧ newJob ∉ s.issued
  | .exec t => ready s (s.pc t)

instance (s : State Tid Node) : ∀ a, Decidable (Enabled s a)
  | .getJob t => inferInstanceAs (Decidable (s.pc t = .outside))
  | .insertJob t newJob => inferInstanceAs (Decidable (s.pc t = .outside ∧ newJob ∉ s.issued))
  | .exec t => inferInstanceAs (Decidable (ready s (s.pc t) = true))

end Semaphores

/-! ## `wqueue_condvars.c` -/

namespace Condvars

/-- `wake` is a wake-up of a thread blocked in `pthread_cond_wait` that nobody signalled. -/
inductive Action (Tid Node : Type*) where
  | getJob (t : Tid)
  | insertJob (t : Tid) (newJob : Node)
  | exec (t : Tid)
  | signal (t woken : Tid)
  | wake (t : Tid)

/-- One statement. `pthread_cond_wait` unlocks the mutex and blocks in one step, and locks the
mutex again once woken. -/
def exec (s : State Tid Node) (t : Tid) : State Tid Node :=
  match s.pc t with
  | .lockForGet => s.lock t .testHead
  | .testHead => s.goto t (if s.workq = none then .condWait else .readHead)
  | .condWait => s.unlock t .condBlocked
  | .condRelock => s.lock t .testHead
  | .notify => s.goto t .outside
  | _ => State.exec s t

/-- A signal wakes one thread, or none when none is blocked. -/
def step (s : State Tid Node) : Action Tid Node → State Tid Node × Unit
  | .getJob t => (s.goto t .lockForGet, ())
  | .insertJob t newJob => (s.callInsert t newJob, ())
  | .signal t woken => ((s.goto t .outside).goto woken .condRelock, ())
  | .wake t => (s.goto t .condRelock, ())
  | .exec t => (exec s t, ())

def ready (s : State Tid Node) : Pc Node → Bool
  | .lockForGet | .condRelock => s.mutex.isNone
  | .testHead | .condWait => true
  | p => s.ready p

def Enabled (s : State Tid Node) : Action Tid Node → Prop
  | .getJob t => s.pc t = .outside
  | .insertJob t newJob => s.pc t = .outside ∧ newJob ∉ s.issued
  | .signal t woken => s.pc t = .notify ∧ s.pc woken = .condBlocked
  | .wake t => s.pc t = .condBlocked
  | .exec t => ready s (s.pc t) ∨ s.pc t = .notify ∧ ∀ u, s.pc u ≠ .condBlocked

instance [Fintype Tid] (s : State Tid Node) : ∀ a, Decidable (Enabled s a)
  | .getJob t => inferInstanceAs (Decidable (s.pc t = .outside))
  | .insertJob t newJob => inferInstanceAs (Decidable (s.pc t = .outside ∧ newJob ∉ s.issued))
  | .signal t woken => inferInstanceAs (Decidable (s.pc t = .notify ∧ s.pc woken = .condBlocked))
  | .wake t => inferInstanceAs (Decidable (s.pc t = .condBlocked))
  | .exec t => inferInstanceAs
      (Decidable (ready s (s.pc t) = true ∨ s.pc t = .notify ∧ ∀ u, s.pc u ≠ .condBlocked))

end Condvars

end InterviewQuestions.WorkQueue

/-! What the mutex protects. In both files the statements between a lock and the
next unlock keep the list well formed and lose no job. -/
namespace InterviewQuestions.WorkQueue

open Library Library.LinkedStack
open scoped List

variable {Tid Node : Type*}

/-- The statements executed with the mutex locked. -/
def Pc.holds : Pc Node → Bool
  | .testHead | .condWait | .readHead | .advance _ | .unlockAfterGet _
  | .linkJob _ | .setHead _ | .unlockAfterInsert => true
  | _ => false

/-- The job that a thread is inserting and that is not in the queue yet. -/
def Pc.job : Pc Node → Option Node
  | .lockForInsert newJob | .linkJob newJob | .setHead newJob => some newJob
  | _ => none

/-- What a thread has read from or prepared for the queue. -/
def Agrees (next : Node → Option Node) (workq : Option Node) : Pc Node → Prop
  | .advance ret => ret = workq
  | .setHead newJob => next newJob = workq
  | _ => True

theorem agrees_of_not_holds {next : Node → Option Node} {workq : Option Node} {p : Pc Node}
    (h : p.holds ≠ true) : Agrees next workq p := by
  cases p with
  | advance ret => exact absurd rfl h
  | setHead newJob => exact absurd rfl h
  | _ => trivial

structure Coherent (s : State Tid Node) : Prop where
  owner : ∀ t, (s.pc t).holds ↔ s.mutex = some t
  agrees : ∀ t, Agrees s.next s.workq (s.pc t)
  pending : ∀ t job, (s.pc t).job = some job → job ∈ s.issued ∧ job ∉ s.inserted
  distinct : ∀ t u job, (s.pc t).job = some job → (s.pc u).job = some job → t = u
  inserted : ∀ job ∈ s.inserted, job ∈ s.issued
  nodup : s.inserted.Nodup
  conserved : ∃ queue, Linked s.next s.workq queue ∧ s.inserted.Perm (s.taken ++ queue)

theorem coherent_init (next : Node → Option Node) :
    Coherent (State.init next : State Tid Node) where
  owner t := by simp [State.init, Pc.holds]
  agrees t := trivial
  pending t job h := by cases h
  distinct t u job h := by cases h
  inserted job h := by cases h
  nodup := List.nodup_nil
  conserved := ⟨[], rfl, List.Perm.refl []⟩

variable [DecidableEq Tid] {s : State Tid Node} {t : Tid} {p : Pc Node}

/-! ## Moving a thread -/

/-- A thread that moves on has no other job than before. -/
theorem job_update {pc : Tid → Pc Node} (hjob : p.job = none ∨ p.job = (pc t).job) (u : Tid)
    {job : Node} (hu : (Function.update pc t p u).job = some job) : (pc u).job = some job := by
  by_cases hut : u = t
  · rw [hut, Function.update_self] at hu
    cases hjob with
    | inl hnone =>
      rw [hnone] at hu
      cases hu
    | inr hsame => rw [hut, ← hsame, hu]
  · rwa [Function.update_of_ne hut] at hu

/-- A thread goes on without touching the queue; the mutex may change hands. -/
theorem Coherent.move (h : Coherent s) {mutex : Option Tid}
    (howner : Threads.Owned Pc.holds (Function.update s.pc t p) mutex)
    (hagrees : Agrees s.next s.workq p) (hjob : p.job = none ∨ p.job = (s.pc t).job) :
    Coherent { s.goto t p with mutex := mutex } where
  owner := howner
  agrees := (Function.forall_update_iff s.pc fun _ q => Agrees s.next s.workq q).mpr
    ⟨hagrees, fun u _ => h.agrees u⟩
  pending u job hu := h.pending u job (job_update hjob u hu)
  distinct u v job hu hv := h.distinct u v job (job_update hjob u hu) (job_update hjob v hv)
  inserted := h.inserted
  nodup := h.nodup
  conserved := h.conserved

theorem Coherent.goto (h : Coherent s) (hholds : p.holds = (s.pc t).holds)
    (hagrees : Agrees s.next s.workq p) (hjob : p.job = none ∨ p.job = (s.pc t).job) :
    Coherent (s.goto t p) :=
  h.move (Threads.Owned.goto h.owner hholds) hagrees hjob

theorem Coherent.lock (h : Coherent s) (hfree : s.mutex = none) (hholds : p.holds = true)
    (hagrees : Agrees s.next s.workq p) (hjob : p.job = none ∨ p.job = (s.pc t).job) :
    Coherent (s.lock t p) := by
  have howned : Threads.Owned Pc.holds s.pc none := hfree ▸ h.owner
  exact h.move (howned.lock hholds) hagrees hjob

theorem Coherent.unlock (h : Coherent s) (hheld : (s.pc t).holds = true)
    (hholds : p.holds ≠ true) (hjob : p.job = none) : Coherent (s.unlock t p) :=
  h.move (Threads.Owned.unlock h.owner hheld (Bool.eq_false_iff.mpr hholds))
    (agrees_of_not_holds hholds) (Or.inl hjob)

/-- A thread that calls `insert_job` has a job of its own. -/
theorem Coherent.callInsert [DecidableEq Node] (h : Coherent s) (hpc : s.pc t = .outside)
    {newJob : Node} (hfresh : newJob ∉ s.issued) : Coherent (s.callInsert t newJob) where
  owner := Threads.Owned.goto h.owner (by rw [hpc]; rfl)
  agrees := (Function.forall_update_iff s.pc fun _ q => Agrees s.next s.workq q).mpr
    ⟨trivial, fun u _ => h.agrees u⟩
  pending := by
    refine (Function.forall_update_iff s.pc fun _ q => ∀ job, q.job = some job →
      job ∈ newJob :: s.issued ∧ job ∉ s.inserted).mpr ⟨fun job hp => ?_, fun u _ job hu => ?_⟩
    · obtain rfl := Option.some.inj hp
      exact ⟨List.mem_cons_self, fun hmem => hfresh (h.inserted _ hmem)⟩
    · exact ⟨List.mem_cons_of_mem _ (h.pending u job hu).1, (h.pending u job hu).2⟩
  distinct u v job hu hv := by
    have hother : ∀ w, w ≠ t → (s.pc w).job ≠ some newJob := fun w _ hw =>
      hfresh (h.pending w newJob hw).1
    by_cases hut : u = t <;> by_cases hvt : v = t
    · rw [hut, hvt]
    · subst hut
      obtain rfl : newJob = job := by simpa [State.callInsert, State.goto, Pc.job] using hu
      exact absurd (by simpa [State.callInsert, State.goto, hvt] using hv) (hother v hvt)
    · subst hvt
      obtain rfl : newJob = job := by simpa [State.callInsert, State.goto, Pc.job] using hv
      exact absurd (by simpa [State.callInsert, State.goto, hut] using hu) (hother u hut)
    · exact h.distinct u v job (by simpa [State.callInsert, State.goto, hut] using hu)
        (by simpa [State.callInsert, State.goto, hvt] using hv)
  inserted job hjob := List.mem_cons_of_mem _ (h.inserted job hjob)
  nodup := h.nodup
  conserved := h.conserved

/-! ## Inside the mutex -/

omit [DecidableEq Tid] in
theorem Coherent.only_holder (h : Coherent s) (hheld : (s.pc t).holds = true) {u : Tid}
    (hu : u ≠ t) : (s.pc u).holds ≠ true :=
  Bool.eq_false_iff.mp (Threads.Owned.only h.owner hheld hu)

/-- The holder may write the queue: the other threads have read nothing from it. -/
theorem Coherent.holder (h : Coherent s) (hheld : (s.pc t).holds = true) (hholds : p.holds = true)
    (next : Node → Option Node) (workq : Option Node) (hagrees : Agrees next workq p) :
    (∀ u, (Function.update s.pc t p u).holds ↔ s.mutex = some u) ∧
      ∀ u, Agrees next workq (Function.update s.pc t p u) := by
  constructor
  · exact Threads.Owned.goto h.owner (hholds.trans hheld.symm)
  · exact (Function.forall_update_iff s.pc fun _ q => Agrees next workq q).mpr
      ⟨hagrees, fun u hu => agrees_of_not_holds (h.only_holder hheld hu)⟩

/-- `new_job->next = workq` -/
theorem Coherent.linkJob [DecidableEq Node] (h : Coherent s) {newJob : Node}
    (hpc : s.pc t = .linkJob newJob) :
    Coherent { s.goto t (.setHead newJob) with next := Function.update s.next newJob s.workq } := by
  have hheld : (s.pc t).holds = true := by rw [hpc, Pc.holds]
  have hagrees : Agrees (Function.update s.next newJob s.workq) s.workq (.setHead newJob) :=
    Function.update_self ..
  have hjob : (s.pc t).job = some newJob := by rw [hpc, Pc.job]
  obtain ⟨howner, hall⟩ := h.holder hheld (p := .setHead newJob) rfl _ _ hagrees
  have hsame : (Pc.setHead newJob).job = none ∨ (Pc.setHead newJob).job = (s.pc t).job :=
    Or.inr hjob.symm
  obtain ⟨queue, hlinked, hperm⟩ := h.conserved
  have hnew : newJob ∉ queue := fun hmem =>
    (h.pending t newJob hjob).2 (hperm.mem_iff.mpr (List.mem_append_right _ hmem))
  exact
    { owner := howner
      agrees := hall
      pending := fun u job hu => h.pending u job (job_update hsame u hu)
      distinct := fun u v job hu hv =>
        h.distinct u v job (job_update hsame u hu) (job_update hsame v hv)
      inserted := h.inserted
      nodup := h.nodup
      conserved := ⟨queue, hlinked.update hnew s.workq, hperm⟩ }

/-- `workq = new_job` -/
theorem Coherent.setHead (h : Coherent s) {newJob : Node} (hpc : s.pc t = .setHead newJob) :
    Coherent { s.goto t .unlockAfterInsert with
      workq := some newJob, inserted := s.inserted ++ [newJob] } := by
  have hheld : (s.pc t).holds = true := by rw [hpc, Pc.holds]
  have hjob : (s.pc t).job = some newJob := by rw [hpc, Pc.job]
  obtain ⟨hissued, hfresh⟩ := h.pending t newJob hjob
  obtain ⟨howner, hall⟩ :=
    h.holder hheld (p := .unlockAfterInsert) rfl s.next (some newJob) trivial
  obtain ⟨queue, hlinked, hperm⟩ := h.conserved
  have hnext : s.next newJob = s.workq := by
    have hself := h.agrees t
    rwa [hpc] at hself
  refine
    { owner := howner
      agrees := hall
      pending := fun u job hu => ?_
      distinct := fun u v job hu hv =>
        h.distinct u v job (job_update (Or.inl rfl) u hu) (job_update (Or.inl rfl) v hv)
      inserted := fun job hmem => ?_
      nodup := ?_
      conserved := ⟨newJob :: queue, hlinked.push hnext, ?_⟩ }
  · have hbefore := job_update (Or.inl rfl) u hu
    refine ⟨(h.pending u job hbefore).1, fun hmem => ?_⟩
    cases List.mem_append.mp hmem with
    | inl hold => exact (h.pending u job hbefore).2 hold
    | inr hself =>
      -- the job just inserted is pending in this thread only, which has moved on
      rw [List.mem_singleton.mp hself] at hbefore
      rw [h.distinct u t newJob hbefore hjob] at hu
      simp [State.goto, Pc.job] at hu
  · cases List.mem_append.mp hmem with
    | inl hold => exact h.inserted job hold
    | inr hself =>
      rw [List.mem_singleton.mp hself]
      exact hissued
  · rw [List.nodup_append]
    refine ⟨h.nodup, List.nodup_singleton _, fun a ha b hb heq => ?_⟩
    rw [heq, List.mem_singleton.mp hb] at ha
    exact hfresh ha
  · calc s.inserted ++ [newJob]
        ~ s.taken ++ queue ++ [newJob] := hperm.append_right _
      _ ~ s.taken ++ (newJob :: queue) := by
          rw [List.append_assoc]
          exact (List.perm_append_singleton newJob queue).append_left _

/-- `workq = workq->next`, after `ret = workq` -/
theorem Coherent.advance (h : Coherent s) {ret : Option Node} (hpc : s.pc t = .advance ret)
    (hhead : s.workq.isSome) :
    Coherent { s.goto t (.unlockAfterGet ret) with
      workq := s.workq.bind s.next, taken := s.taken ++ ret.toList } := by
  have hheld : (s.pc t).holds = true := by rw [hpc, Pc.holds]
  obtain ⟨node, hnode⟩ := Option.isSome_iff_exists.mp hhead
  have hret : ret = some node := by
    have hself := h.agrees t
    rw [hpc] at hself
    exact hself.trans hnode
  obtain ⟨howner, hall⟩ := h.holder hheld (p := .unlockAfterGet ret) rfl s.next
    (s.workq.bind s.next) trivial
  obtain ⟨queue, hlinked, hperm⟩ := h.conserved
  rw [hnode] at hlinked
  obtain ⟨rest, rfl, hrest⟩ := hlinked.pop
  exact
    { owner := howner
      agrees := hall
      pending := fun u job hu => h.pending u job (job_update (Or.inl rfl) u hu)
      distinct := fun u v job hu hv =>
        h.distinct u v job (job_update (Or.inl rfl) u hu) (job_update (Or.inl rfl) v hv)
      inserted := h.inserted
      nodup := h.nodup
      conserved := ⟨rest, by rw [hnode]; exact hrest, by simpa [hret, State.goto] using hperm⟩ }

/-- The statements that both files have. -/
theorem Coherent.exec [DecidableEq Node] (h : Coherent s) (hready : s.ready (s.pc t) = true) :
    Coherent (s.exec t) := by
  unfold State.exec
  cases hpc : s.pc t with
  | readHead => exact h.goto (by rw [hpc]; rfl) rfl (Or.inl rfl)
  | advance ret =>
    rw [hpc] at hready
    exact h.advance hpc hready
  | unlockAfterGet ret => exact h.unlock (by rw [hpc]; rfl) Bool.false_ne_true rfl
  | lockForInsert newJob =>
    rw [hpc] at hready
    exact h.lock (Option.isNone_iff_eq_none.mp hready) rfl trivial (Or.inr (by rw [hpc]; rfl))
  | linkJob newJob => exact h.linkJob hpc
  | setHead newJob => exact h.setHead hpc
  | unlockAfterInsert => exact h.unlock (by rw [hpc]; rfl) Bool.false_ne_true rfl
  | _ => exact h

end InterviewQuestions.WorkQueue
