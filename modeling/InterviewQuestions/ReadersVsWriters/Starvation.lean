import InterviewQuestions.Library.Machine
import InterviewQuestions.ReadersVsWriters.Chain
import Mathlib.Algebra.BigOperators.Group.Finset.Basic
import Mathlib.Algebra.Order.BigOperators.Group.Finset

/-! What the writer of `readers_vs_writers.c` waits for. -/
namespace InterviewQuestions.ReadersVsWriters

open Library

variable {s : State} {k : ℕ} {p : Process}

/-- A bound of the statements that a reader has left. -/
def Process.rank (p : Process) : ℕ :=
  match p.pc with
  | .unborn | .readLock => 10
  | .forkWriter | .notify => 9
  | .notifyInit | .printAcquired => 8
  | .printReleasing => 7
  | .loop => 6
  | .test => if p.sigFlag then 3 else 5
  | .suspended => 4
  | .clear => 2
  | .exit => 1
  | .exited => 0

def Writer.rank : Writer → ℕ
  | .unborn | .printStarted => 4
  | .writeLock => 3
  | .printAcquired => 2
  | .exit => 1
  | .exited => 0

def State.rank (s : State) : ℕ :=
  (∑ k ∈ Finset.range (testChildren + 1), (s.reader k).rank) + s.writer.rank

theorem rank_update (reader : ℕ → Process) (hless : p.rank < (reader k).rank) (j : ℕ) :
    (Function.update reader k p j).rank ≤ (reader j).rank ∧
      (j = k → (Function.update reader k p j).rank < (reader j).rank) := by
  by_cases hj : j = k
  · rw [hj, Function.update_self]
    exact ⟨hless.le, fun _ => hless⟩
  · rw [Function.update_of_ne hj]
    exact ⟨le_rfl, fun heq => absurd heq hj⟩

theorem rank_kill (s : State) (i j : ℕ) : ((s.kill i).reader j).rank ≤ (s.reader j).rank := by
  unfold State.kill
  split
  case isTrue => exact le_rfl
  case isFalse =>
    split
    case isTrue =>
      rw [State.reader_set]
      by_cases hj : j = i
      · rw [hj, Function.update_self]
        exact le_rfl
      · rw [Function.update_of_ne hj]
    case isFalse =>
      rw [State.reader_exit]
      by_cases hj : j = i
      · rw [hj, Function.update_self]
        exact Nat.zero_le _
      · rw [Function.update_of_ne hj]

theorem Chained.rank_execReader (h : Chained s) (hk : Enabled s (.reader k)) (j : ℕ) :
    ((s.execReader k).reader j).rank ≤ (s.reader j).rank ∧
      (j = k → ((s.execReader k).reader j).rank < (s.reader j).rank) := by
  simp only [Enabled, Process.Ready] at hk
  unfold State.execReader
  cases hpc : (s.reader k).pc with
  | unborn | exited =>
    rw [hpc] at hk
    exact hk.elim
  | readLock =>
    apply rank_update
    have hrank : (s.reader k).rank = 10 := by rw [Process.rank, hpc]
    rw [hrank]
    by_cases hzero : k = 0
    · simp [Process.rank, hzero]
    · simp [Process.rank, hzero]
  | notify =>
    rw [State.reader_goto]
    by_cases hj : j = k
    · have hless : (⟨.printAcquired, ((s.kill (k - 1)).reader k).sigFlag,
          ((s.kill (k - 1)).reader k).pending, ((s.kill (k - 1)).reader k).blocked⟩ :
          Process).rank < (s.reader k).rank := by
        simp [Process.rank, hpc]
      rw [hj, Function.update_self]
      exact ⟨hless.le, fun _ => hless⟩
    · rw [Function.update_of_ne hj]
      exact ⟨rank_kill s (k - 1) j, fun heq => absurd heq hj⟩
  | loop =>
    simp only
    split
    case isFalse =>
      apply rank_update
      simp [Process.rank, hpc]
    case isTrue =>
      rw [State.reader_set, State.reader_goto]
      by_cases hj : j = k + 1
      · have hnext := ((h.link k).early (by rw [hpc]; rfl)).2
        rw [hj, Function.update_self]
        exact ⟨by simp [Process.rank, hnext], fun heq => absurd heq (by omega)⟩
      · rw [Function.update_of_ne hj]
        apply rank_update
        have hflag := ((h.link k).early (by rw [hpc]; rfl)).1.1
        simp [Process.rank, hpc, hflag]
  | test =>
    simp only
    split
    case isTrue hflag =>
      apply rank_update
      simp [Process.rank, hpc, hflag]
    case isFalse hflag =>
      apply rank_update
      simp [Process.rank, hpc, hflag]
  | _ =>
    apply rank_update
    simp [Process.rank, hpc]

theorem writer_execReader (s : State) (k : ℕ) : (s.execReader k).writer =
    if (s.reader k).pc = .forkWriter then .printStarted else s.writer := by
  have hkill : (s.kill (k - 1)).writer = s.writer := by
    unfold State.kill
    split
    case isTrue => rfl
    case isFalse => split <;> rfl
  unfold State.execReader
  cases hpc : (s.reader k).pc with
  | notify => exact hkill
  | loop | test =>
    simp only
    split <;> rfl
  | _ => rfl

theorem Chained.rank_step (h : Chained s) {a : Actor} (ha : Enabled s a) :
    (ReadersVsWriters.step s a).1.rank < s.rank := by
  cases a with
  | reader k =>
    have hless := h.rank_execReader ha
    have hmem : k ∈ Finset.range (testChildren + 1) := by
      rw [Finset.mem_range, Nat.lt_succ_iff]
      apply h.le_testChildren
      intro hpc
      simp [Enabled, Process.Ready, hpc] at ha
    have hsum := Finset.sum_lt_sum (fun j _ => (hless j).1) ⟨k, hmem, (hless k).2 rfl⟩
    have hwriter : (s.execReader k).writer.rank ≤ s.writer.rank := by
      rw [writer_execReader]
      split
      case isTrue hpc =>
        have hzero := (h.place k).first (by rw [hpc]; rfl)
        rw [h.forked.mpr (Or.inr (hzero ▸ hpc))]
        exact le_rfl
      case isFalse => exact le_rfl
    exact Nat.add_lt_add_of_lt_of_le hsum hwriter
  | writer =>
    have hreader : s.execWriter.reader = s.reader := by
      unfold State.execWriter
      split <;> rfl
    simp only [Enabled, Writer.Ready] at ha
    simp only [ReadersVsWriters.step, State.rank, hreader]
    apply Nat.add_lt_add_left
    unfold State.execWriter
    cases hplace : s.writer with
    | unborn | exited =>
      rw [hplace] at ha
      exact ha.elim
    | _ => exact Nat.lt_succ_self _

def Finished (s : State) : Prop :=
  (∀ k ≤ testChildren, (s.reader k).pc = .exited) ∧ s.writer = .exited

/-- A reader that waits for its child can go on, or the child can. -/
theorem Chained.progress (h : Chained s) (hunfinished : ¬ Finished s) : ∃ a, Enabled s a := by
  by_contra hstuck
  rw [not_exists] at hstuck
  have hlock (k : ℕ) : (s.reader k).pc ≠ .readLock := by
    intro hpc
    apply hstuck (.reader k)
    simp only [Enabled, Process.Ready, hpc]
    rw [h.writeLock]
    exact Writer.locked_of_not_late (h.not_late (k := k) (by simp [hpc]) (by simp [hpc]))
  have hreader (k : ℕ) : (s.reader k).pc = .unborn ∨ (s.reader k).pc = .exited := by
    have hnot := hstuck (.reader k)
    simp only [Enabled, Process.Ready] at hnot
    cases hpc : (s.reader k).pc with
    | unborn => exact Or.inl rfl
    | exited => exact Or.inr rfl
    | readLock => exact absurd hpc (hlock k)
    | suspended =>
      rw [hpc] at hnot
      -- no signal has come, so that the child is before its notification
      have hlink := h.link k
      have hwaits : (s.reader k).pc.waits = true := by
        rw [hpc]
        rfl
      have hnext : (s.reader (k + 1)).pc.notified = false := by
        rw [← Bool.not_eq_true]
        intro hnotified
        rcases hlink.signalled hwaits hnotified with ⟨hpending, -, -⟩ | ⟨-, -, hsuspended⟩
        · exact hnot hpending
        · exact hsuspended hpc
      rcases (hlink.awaits hwaits hnext).1 with hchild | hchild
      · exact absurd hchild (hlock (k + 1))
      · exact absurd (by simp [Enabled, Process.Ready, hchild]) (hstuck (.reader (k + 1)))
    | _ =>
      rw [hpc] at hnot
      exact absurd trivial hnot
  have hlocks : s.readLocks = ∅ := by
    rw [Finset.eq_empty_iff_forall_notMem]
    intro k hk
    rw [h.readLocks] at hk
    rcases hreader k with hpc | hpc
    · rw [hpc] at hk
      cases hk
    · rw [hpc] at hk
      cases hk
  have hwriter : s.writer ≠ .unborn := by
    intro hunborn
    rcases h.forked.mp hunborn with hpc | hpc
    · exact hlock 0 hpc
    · rcases hreader 0 with hpc' | hpc'
      · rw [hpc] at hpc'
        cases hpc'
      · rw [hpc] at hpc'
        cases hpc'
  apply hunfinished
  refine ⟨h.all_exited hwriter hlocks, ?_⟩
  have hnot := hstuck .writer
  simp only [Enabled, Writer.Ready] at hnot
  cases hplace : s.writer with
  | unborn => exact absurd hplace hwriter
  | exited => rfl
  | writeLock =>
    rw [hplace] at hnot
    exact absurd hlocks hnot
  | _ =>
    rw [hplace] at hnot
    exact absurd trivial hnot

/-- The writer has the lock only when nobody else has one; some reader has one until all have
exited; and what the writer prints then comes behind the two lines of each reader. -/
structure Starved (s : State) : Prop where
  exclusive : s.writeLock = true → s.readLocks = ∅
  covered : s.writer ≠ .unborn → (∃ k ≤ testChildren, (s.reader k).pc ≠ .exited) → s.readLocks ≠ ∅
  last : Line.writerAcquired ∈ s.printed → ∃ before, s.printed = before ++ [.writerAcquired] ∧
    ∀ k, 1 ≤ k → k ≤ testChildren →
      (before.filter fun line => line.reader = some k) = [.acquired k, .releasing k]

theorem Chained.starved (h : Chained s) : Starved s where
  exclusive := by
    intro hlock
    rw [h.writeLock] at hlock
    have hlate : s.writer.late = true := by
      rw [← Bool.not_eq_false]
      intro hnot
      rw [Writer.locked_of_not_late hnot] at hlock
      cases hlock
    rw [Finset.eq_empty_iff_forall_notMem]
    intro k hk
    rw [h.readLocks] at hk
    have hbound : k ≤ testChildren := by
      apply h.le_testChildren
      intro hpc
      rw [hpc] at hk
      cases hk
    rw [h.late hlate k hbound] at hk
    cases hk
  covered := by
    rintro hwriter ⟨k, hk, hlive⟩ hlocks
    exact hlive (h.all_exited hwriter hlocks k hk)
  last := by
    intro hmem
    have hlate : s.writer.late = true := by
      rw [← Bool.not_eq_false]
      exact fun hnot => h.acquired_not_mem hnot hmem
    obtain ⟨before, hbefore⟩ := List.getLast?_eq_some_iff.mp (h.last hmem)
    refine ⟨before, hbefore, fun k hpos hk => ?_⟩
    have hlines := h.readers k
    rw [hbefore, List.filter_append, h.late hlate k hk] at hlines
    simpa [Line.reader, linesOf, Nat.pos_iff_ne_zero.mp hpos] using hlines

end InterviewQuestions.ReadersVsWriters
