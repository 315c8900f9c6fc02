import InterviewQuestions.Library.LinkedLists
import InterviewQuestions.Library.Machine
import InterviewQuestions.Library.Threads

/-! The list that processes share in `linux_internals/shared_list/shared_list.c`. A step is one
pass through a loop body of `do_work`, under the mutex. -/
namespace InterviewQuestions.SharedList

variable {Worker : Type*}

/-- A worker is in its first or its second loop, or it has ended: at the end of `do_work`, in
`assert(0)`, or by following a null pointer. -/
inductive Pc where
  | pushing (i : ℕ)
  | popping (i : ℕ)
  | finished
  | aborted
  | crashed
deriving DecidableEq

/-- The shared region, its nodes by their place in it, and the workers. -/
structure State (Worker : Type*) where
  value : ℕ → ℤ
  next : ℕ → Option ℕ
  listHead : Option ℕ
  freeHead : Option ℕ
  pc : Worker → Pc

/-- `curr->next = curr+1` so many times, and `curr->next = NULL`. -/
def linkNodes (next : ℕ → Option ℕ) (curr : ℕ) : ℕ → ℕ → Option ℕ
  | 0 => Function.update next curr none
  | i + 1 => linkNodes (Function.update next curr (some (curr + 1))) (curr + 1) i

/-- The region as `main` sets it up in memory that `mmap` has cleared. -/
def init (maxListSz : ℕ) : State Worker where
  value _ := 0
  next := linkNodes (fun _ => none) 0 (maxListSz - 1)
  listHead := none
  freeHead := some 0
  pc _ := .pushing 0

variable [DecidableEq Worker]

namespace State

def goto (s : State Worker) (w : Worker) (p : Pc) : State Worker :=
  { s with pc := Function.update s.pc w p }

/-- The body of the first loop. -/
def push (s : State Worker) (w : Worker) (pid : ℤ) (i : ℕ) : State Worker :=
  match s.freeHead with
  | none => s.goto w .aborted
  | some n =>
      { s.goto w (.pushing (i + 1)) with
        freeHead := s.next n
        value := Function.update s.value n pid
        next := Function.update s.next n s.listHead
        listHead := some n }

/-- The body of the second loop. -/
def pop (s : State Worker) (w : Worker) (i : ℕ) : State Worker :=
  match s.listHead with
  | none => s.goto w .crashed
  | some n =>
      { s.goto w (.popping (i + 1)) with
        listHead := s.next n
        next := Function.update s.next n s.freeHead
        freeHead := some n }

end State

/-- What `do_work` does next in one worker. -/
def step (workUnit : ℕ) (getpid : Worker → ℤ) (s : State Worker) (w : Worker) :
    State Worker × Unit :=
  match s.pc w with
  | .pushing i => (if i < workUnit then s.push w (getpid w) i else s.goto w (.popping 0), ())
  | .popping i => (if i < workUnit then s.pop w i else s.goto w .finished, ())
  | .finished | .aborted | .crashed => (s, ())

end InterviewQuestions.SharedList

/-! The workers never run out of free nodes or of nodes to pop: the length of the shared list
is what all workers together have pushed and not popped. -/
namespace InterviewQuestions.SharedList

open Library Library.LinkedStack Library.Threads

variable {Worker : Type*}

/-- No worker has failed, every node of the region is on exactly one of the two lists, and the
shared list is empty once all workers have finished. -/
def Safe (maxListSz : ℕ) (s : State Worker) : Prop :=
  (∀ w, s.pc w ≠ .aborted ∧ s.pc w ≠ .crashed) ∧
    (∃ shared free, Linked s.next s.listHead shared ∧ Linked s.next s.freeHead free ∧
      (shared ++ free).Perm (List.range maxListSz)) ∧
    ((∀ w, s.pc w = .finished) → s.listHead = none)

/-- The nodes that a worker has pushed and will pop. -/
def Pc.owes (workUnit : ℕ) : Pc → ℕ
  | .pushing i => i
  | .popping i => workUnit - i
  | _ => 0

/-- A worker that keeps to its loops. -/
def Pc.Working (workUnit : ℕ) : Pc → Prop
  | .pushing i | .popping i => i ≤ workUnit
  | .finished => True
  | .aborted | .crashed => False

theorem Pc.Working.owes_le {workUnit : ℕ} {p : Pc} (h : p.Working workUnit) :
    p.owes workUnit ≤ workUnit := by
  cases p with
  | pushing i => exact h
  | popping i => exact Nat.sub_le _ _
  | _ => exact Nat.zero_le _

theorem linked_linkNodes (next : ℕ → Option ℕ) (curr count : ℕ) :
    Linked (linkNodes next curr count) (some curr) (List.range' curr (count + 1)) ∧
      ∀ node < curr, linkNodes next curr count node = next node := by
  induction count generalizing next curr with
  | zero =>
    constructor
    · exact ⟨rfl, Function.update_self ..⟩
    · intro node hnode
      exact Function.update_of_ne (Nat.ne_of_lt hnode) ..
  | succ count ih =>
    obtain ⟨hlinked, hbelow⟩ := ih (Function.update next curr (some (curr + 1))) (curr + 1)
    constructor
    · apply And.intro rfl
      rw [linkNodes, hbelow curr (Nat.lt_succ_self curr), Function.update_self]
      exact hlinked
    · intro node hnode
      rw [linkNodes, hbelow node (Nat.lt_succ_of_lt hnode),
        Function.update_of_ne (Nat.ne_of_lt hnode)]

variable [Fintype Worker]

structure Shared (maxListSz workUnit : ℕ) (s : State Worker) (shared free : List ℕ) : Prop where
  working : ∀ w, (s.pc w).Working workUnit
  linkedShared : Linked s.next s.listHead shared
  linkedFree : Linked s.next s.freeHead free
  nodes : (shared ++ free).Perm (List.range maxListSz)
  owed : shared.length = tally (Pc.owes workUnit) s.pc

variable {maxListSz workUnit : ℕ} {s : State Worker} {shared free : List ℕ}

theorem shared_init (workUnit : ℕ) (hsize : 0 < maxListSz) :
    Shared maxListSz workUnit (init maxListSz : State Worker) [] (List.range maxListSz) where
  working w := Nat.zero_le _
  linkedShared := rfl
  linkedFree := by
    have hlinked := (linked_linkNodes (fun _ => none) 0 (maxListSz - 1)).1
    rwa [Nat.sub_add_cancel hsize, ← List.range_eq_range'] at hlinked
  nodes := List.Perm.refl _
  owed := by simp [init, Pc.owes]

theorem Shared.safe (h : Shared maxListSz workUnit s shared free) : Safe maxListSz s := by
  constructor
  · intro w
    have hworking := h.working w
    constructor
    · intro hpc
      rw [hpc] at hworking
      exact hworking
    · intro hpc
      rw [hpc] at hworking
      exact hworking
  constructor
  · exact ⟨shared, free, h.linkedShared, h.linkedFree, h.nodes⟩
  · intro hdone
    have howed := h.owed
    rw [tally_eq_zero fun w => by rw [hdone w]; rfl, List.length_eq_zero_iff] at howed
    have hshared := h.linkedShared
    rw [howed] at hshared
    exact hshared

/-! ## Steps -/

variable [DecidableEq Worker] {w : Worker} {p : Pc}

/-- A worker goes from one loop to the next, or ends. -/
theorem Shared.goto (h : Shared maxListSz workUnit s shared free) (hp : p.Working workUnit)
    (howes : p.owes workUnit = (s.pc w).owes workUnit) :
    Shared maxListSz workUnit (s.goto w p) shared free where
  working := (Function.forall_update_iff s.pc fun _ q => q.Working workUnit).mpr
    ⟨hp, fun u _ => h.working u⟩
  linkedShared := h.linkedShared
  linkedFree := h.linkedFree
  nodes := h.nodes
  owed := by
    have hsum := tally_update (Pc.owes workUnit) s.pc w p
    have howed := h.owed
    simp only [State.goto]
    omega

/-- The workers owe less than the region has nodes, so one is free. -/
theorem Shared.push (h : Shared maxListSz workUnit s shared free)
    (hroom : Fintype.card Worker * workUnit ≤ maxListSz) {i : ℕ} (hpc : s.pc w = .pushing i)
    (hi : i < workUnit) (pid : ℤ) :
    ∃ shared' free', Shared maxListSz workUnit (s.push w pid i) shared' free' := by
  have hself : (s.pc w).owes workUnit = i := by rw [hpc, Pc.owes]
  have howed := h.owed
  have hlt : shared.length < maxListSz := by
    rw [howed]
    apply Nat.lt_of_lt_of_le _ hroom
    exact tally_lt (t := w) (fun u => (h.working u).owes_le) (by omega)
  have hlength := h.nodes.length_eq
  rw [List.length_append, List.length_range] at hlength
  have hsome := h.linkedFree.head_isSome (by omega)
  obtain ⟨n, hn⟩ := Option.isSome_iff_exists.mp hsome
  have hnodup : (free ++ shared).Nodup :=
    (List.perm_append_comm.trans h.nodes).nodup_iff.mpr List.nodup_range
  have hfree := h.linkedFree
  rw [hn] at hfree
  obtain ⟨rest, hnodes, hrest, hpushed⟩ := hfree.transfer h.linkedShared hnodup
  rw [State.push, hn]
  exists n :: shared, rest
  constructor
  case working =>
    exact (Function.forall_update_iff s.pc fun _ q => q.Working workUnit).mpr
      ⟨hi, fun u _ => h.working u⟩
  case linkedShared => exact hpushed
  case linkedFree => exact hrest
  case nodes =>
    have hperm := h.nodes
    rw [hnodes] at hperm
    exact List.perm_middle.symm.trans hperm
  case owed =>
    have hsum := tally_update (Pc.owes workUnit) s.pc w (.pushing (i + 1))
    have hafter : (Pc.pushing (i + 1)).owes workUnit = i + 1 := rfl
    simp only [State.goto, List.length_cons]
    omega

/-- A worker that has nodes to pop finds one in the list. -/
theorem Shared.pop (h : Shared maxListSz workUnit s shared free) {i : ℕ}
    (hpc : s.pc w = .popping i) (hi : i < workUnit) :
    ∃ shared' free', Shared maxListSz workUnit (s.pop w i) shared' free' := by
  have hself : (s.pc w).owes workUnit = workUnit - i := by rw [hpc, Pc.owes]
  have howed := h.owed
  have hle := le_tally (Pc.owes workUnit) s.pc w
  have hsome := h.linkedShared.head_isSome (by omega)
  obtain ⟨n, hn⟩ := Option.isSome_iff_exists.mp hsome
  have hnodup : (shared ++ free).Nodup := h.nodes.nodup_iff.mpr List.nodup_range
  have hshared := h.linkedShared
  rw [hn] at hshared
  obtain ⟨rest, hnodes, hrest, hfreed⟩ := hshared.transfer h.linkedFree hnodup
  rw [State.pop, hn]
  exists rest, n :: free
  constructor
  case working =>
    exact (Function.forall_update_iff s.pc fun _ q => q.Working workUnit).mpr
      ⟨hi, fun u _ => h.working u⟩
  case linkedShared => exact hrest
  case linkedFree => exact hfreed
  case nodes =>
    have hperm := h.nodes
    rw [hnodes] at hperm
    exact List.perm_middle.trans hperm
  case owed =>
    have hsum := tally_update (Pc.owes workUnit) s.pc w (.popping (i + 1))
    have hafter : (Pc.popping (i + 1)).owes workUnit = workUnit - (i + 1) := rfl
    rw [hnodes, List.length_cons] at howed
    simp only [State.goto]
    omega

theorem Shared.step (h : Shared maxListSz workUnit s shared free)
    (hroom : Fintype.card Worker * workUnit ≤ maxListSz) (getpid : Worker → ℤ) (w : Worker) :
    ∃ shared' free', Shared maxListSz workUnit (step workUnit getpid s w).1 shared' free' := by
  have hworking := h.working w
  rw [SharedList.step]
  cases hpc : s.pc w with
  | pushing i =>
    simp only
    by_cases hi : i < workUnit
    · rw [if_pos hi]
      exact h.push hroom hpc hi (getpid w)
    · rw [hpc] at hworking
      have hdone : i = workUnit := Nat.le_antisymm hworking (Nat.le_of_not_lt hi)
      rw [if_neg hi]
      exact ⟨shared, free, h.goto (Nat.zero_le _) (by rw [hpc, Pc.owes, Pc.owes, hdone]; rfl)⟩
  | popping i =>
    simp only
    by_cases hi : i < workUnit
    · rw [if_pos hi]
      exact h.pop hpc hi
    · rw [if_neg hi]
      have hnone : (s.pc w).owes workUnit = 0 := by
        rw [hpc, Pc.owes]
        omega
      exact ⟨shared, free, h.goto trivial hnone.symm⟩
  | finished | aborted | crashed => exact ⟨shared, free, h⟩

/-- Any number of workers that together use no more nodes than the region has run safely,
whatever the order of their steps. -/
theorem shared_list_safe (maxListSz workUnit : ℕ) (hsize : 0 < maxListSz)
    (hroom : Fintype.card Worker * workUnit ≤ maxListSz) (getpid : Worker → ℤ)
    (schedule : List Worker) :
    Safe maxListSz (Machine.run (step workUnit getpid) (init maxListSz) schedule).1 := by
  have hshared := Machine.run_invariant
    (fun s : State Worker => ∃ shared free, Shared maxListSz workUnit s shared free)
    (fun s w h _ => by
      obtain ⟨shared, free, hshared⟩ := h
      exact hshared.step hroom getpid w)
    ⟨[], List.range maxListSz, shared_init workUnit hsize⟩
    (Machine.admits_always schedule)
  obtain ⟨shared, free, hlast⟩ := hshared
  exact hlast.safe

/-- Two workers that push two nodes each into a region of four and pop each other's. -/
theorem shared_list_safe_sample :
    Safe 4 (Machine.run (step 2 fun w : Fin 2 => 100 + w.val) (init 4)
      [0, 1, 0, 1, 0, 1, 1, 0, 0, 1, 0, 1]).1 :=
  shared_list_safe 4 2 (by decide) (by decide) _ _

end InterviewQuestions.SharedList
