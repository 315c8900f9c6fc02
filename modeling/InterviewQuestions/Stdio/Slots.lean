import InterviewQuestions.Library.Machine
import InterviewQuestions.Stdio.Model
import Mathlib.Data.Finset.Card
import Mathlib.Data.List.FinRange

/-! The table of streams under `fopen` and `fclose`. A slot is in use when its
flags are not 0, and `fclose` leaves the flags alone: slots are only ever taken. -/
namespace InterviewQuestions.Stdio

open Library

inductive SlotOp where
  | fopen (name mode : String)
  | fclose (slot : Fin OPEN_MAX)
deriving DecidableEq

/-- The table, the system, and the streams that are open at the moment. -/
structure SlotState where
  iob : Iob
  world : World
  opened : Finset (Fin OPEN_MAX)

def SlotState.start (w : World) : SlotState := ⟨Stdio.iob, w, {stdin, stdout, stderr}⟩

/-- One call, with the stream that `fopen` returns. -/
def slotStep (s : SlotState) : SlotOp → SlotState × Option (Fin OPEN_MAX)
  | .fopen name mode =>
      let (f, iob, w) := fopen s.iob name mode s.world
      (⟨iob, w, f.elim s.opened fun slot => insert slot s.opened⟩, f)
  | .fclose slot =>
      let (_, iob, w) := fclose s.iob (some slot) s.world
      (⟨iob, w, s.opened.erase slot⟩, none)

/-- `fclose` is given an open stream. -/
def ClosesOpened (s : SlotState) : SlotOp → Prop
  | .fopen _ _ => True
  | .fclose slot => slot ∈ s.opened

instance (s : SlotState) : ∀ op, Decidable (ClosesOpened s op)
  | .fopen _ _ => isTrue trivial
  | .fclose slot => inferInstanceAs (Decidable (slot ∈ s.opened))

/-- Every `open` succeeds. -/
def OpensOk (w : World) : Prop := ∀ i name oflags, 0 ≤ w.opens i name oflags

/-- `fopen` with a valid mode returns `NULL` only when every slot has an open stream. -/
def NullOnlyWhenFull (s : SlotState) : SlotOp → Prop
  | .fopen name mode => (modeFlags mode).isSome →
      (slotStep s (.fopen name mode)).2 = none → s.opened.card = OPEN_MAX
  | .fclose _ => True

/-- `fclose` makes its slot available again. -/
def FreesSlot (s : SlotState) : SlotOp → Prop
  | .fopen _ _ => True
  | .fclose slot => ((slotStep s (.fclose slot)).1.iob slot).flags = 0

/-- The calls of `fopen` with a valid mode. -/
def validOpens (ops : List SlotOp) : ℕ :=
  ops.countP fun
    | .fopen _ mode => (modeFlags mode).isSome
    | .fclose _ => false

def closeCalls (ops : List SlotOp) : ℕ :=
  ops.countP fun
    | .fopen _ _ => false
    | .fclose _ => true

section Counts

variable (ops : List SlotOp)

theorem validOpens_valid (name : String) {mode : String} (h : (modeFlags mode).isSome) :
    validOpens (.fopen name mode :: ops) = validOpens ops + 1 :=
  List.countP_cons_of_pos h

theorem validOpens_invalid (name : String) {mode : String} (h : ¬ (modeFlags mode).isSome) :
    validOpens (.fopen name mode :: ops) = validOpens ops :=
  List.countP_cons_of_neg h

@[simp] theorem validOpens_fclose (slot : Fin OPEN_MAX) :
    validOpens (.fclose slot :: ops) = validOpens ops := by
  simp [validOpens]

@[simp] theorem closeCalls_fopen (name mode : String) :
    closeCalls (.fopen name mode :: ops) = closeCalls ops := by
  simp [closeCalls]

@[simp] theorem closeCalls_fclose (slot : Fin OPEN_MAX) :
    closeCalls (.fclose slot :: ops) = closeCalls ops + 1 := by
  simp [closeCalls]

end Counts

/-! ## Which slots are taken -/

/-- After so many calls of each kind: the slots in use are the first ones, each call of
`fopen` has taken the next, and the closed ones are still in use. -/
structure SlotsTaken (s : SlotState) (opens closed : ℕ) : Prop where
  opensOk : OpensOk s.world
  flags : ∀ slot, (s.iob slot).flags ≠ 0 ↔ slot.val < 3 + min opens 17
  opened : ∀ slot ∈ s.opened, (s.iob slot).flags ≠ 0
  card : s.opened.card + closed = 3 + min opens 17

theorem freeSlot_of_full {table : Iob} (h : ∀ slot, (table slot).flags ≠ 0) :
    freeSlot table = none := by
  unfold freeSlot
  rw [List.find?_eq_none]
  intro slot _
  simpa using h slot

theorem freeSlot_of_lt {table : Iob} {used : ℕ} (hused : used < OPEN_MAX)
    (h : ∀ slot, (table slot).flags ≠ 0 ↔ slot.val < used) :
    freeSlot table = some ⟨used, hused⟩ := by
  unfold freeSlot
  rw [List.find?_eq_some_iff_getElem]
  refine ⟨?_, used, by simpa using hused, by simp, ?_⟩
  · have hfree := (h ⟨used, hused⟩).not.mpr (Nat.lt_irrefl used)
    simpa using hfree
  · intro i hi
    have htaken := (h ⟨i, Nat.lt_trans hi hused⟩).mpr hi
    simpa using htaken

theorem fflush_keeps (f : StdioBuff) (w : World) :
    (fflush f w).2.1.flags = f.flags ∧ (fflush f w).2.2.opens = w.opens := by
  unfold fflush
  cases f.buff with
  | none => exact ⟨rfl, rfl⟩
  | some buff =>
    simp only
    split <;> exact ⟨rfl, rfl⟩

theorem closeStream_keeps (f : StdioBuff) (w : World) :
    (closeStream f w).2.1.flags = f.flags ∧ (closeStream f w).2.2.opens = w.opens :=
  fflush_keeps f w

theorem modeFlags_ne_zero {mode : String} {oflags : OpenFlags} {flags : Flags}
    (h : modeFlags mode = some (oflags, flags)) : flags ≠ 0 := by
  unfold modeFlags at h
  split_ifs at h <;> cases h <;> decide

theorem slotsTaken_start {w : World} (h : OpensOk w) : SlotsTaken (SlotState.start w) 0 0 where
  opensOk := h
  flags := (by decide : ∀ slot, (Stdio.iob slot).flags ≠ 0 ↔ slot.val < 3 + min 0 17)
  opened := (by decide : ∀ slot ∈ ({stdin, stdout, stderr} : Finset _), (Stdio.iob slot).flags ≠ 0)
  card := rfl

/-- A call of `fopen` with an invalid mode changes nothing. -/
theorem slotStep_invalid {s : SlotState} {name mode : String} (hmode : modeFlags mode = none) :
    slotStep s (.fopen name mode) = (s, none) := by
  simp [slotStep, fopen, hmode]

theorem slotStep_full {s : SlotState} (h : ∀ slot, (s.iob slot).flags ≠ 0) (name mode : String) :
    slotStep s (.fopen name mode) = (s, none) := by
  simp only [slotStep, fopen, freeSlot_of_full h]
  split <;> rfl

/-- A call of `fopen` with a valid mode takes the first free slot. -/
theorem slotStep_fopen {s : SlotState} {used : ℕ} (hused : used < OPEN_MAX)
    (hflags : ∀ slot, (s.iob slot).flags ≠ 0 ↔ slot.val < used) (hopens : OpensOk s.world)
    (name : String) {mode : String} (hmode : (modeFlags mode).isSome) :
    ∃ f, f.flags ≠ 0 ∧ (slotStep s (.fopen name mode)).2 = some ⟨used, hused⟩ ∧
      (slotStep s (.fopen name mode)).1.iob = Function.update s.iob ⟨used, hused⟩ f ∧
      (slotStep s (.fopen name mode)).1.opened = insert ⟨used, hused⟩ s.opened ∧
      OpensOk (slotStep s (.fopen name mode)).1.world := by
  obtain ⟨⟨oflags, flags⟩, hmode⟩ := Option.isSome_iff_exists.mp hmode
  have hfd : ¬ (s.world.open' name oflags).1 < 0 := Int.not_lt.mpr (hopens 0 name oflags)
  refine ⟨{ s.iob ⟨used, hused⟩ with
    buffCnt := 0, next := 0, buff := none, flags := flags, fd := (s.world.open' name oflags).1 },
    modeFlags_ne_zero hmode, ?_⟩
  simp only [slotStep, fopen, hmode, freeSlot_of_lt hused hflags, hfd, if_false]
  exact ⟨trivial, trivial, rfl, fun i => hopens (i + 1)⟩

theorem slotStep_fclose (s : SlotState) (slot : Fin OPEN_MAX) :
    (∀ other, ((slotStep s (.fclose slot)).1.iob other).flags = (s.iob other).flags) ∧
      (slotStep s (.fclose slot)).1.opened = s.opened.erase slot ∧
      (slotStep s (.fclose slot)).1.world.opens = s.world.opens := by
  obtain ⟨hflags, hopens⟩ := closeStream_keeps (s.iob slot) s.world
  refine ⟨fun other => ?_, rfl, hopens⟩
  simp only [slotStep, fclose, Function.update_apply]
  split
  · next heq => rw [hflags, heq]
  · rfl

theorem SlotsTaken.fopen {s : SlotState} {opens closed : ℕ} (h : SlotsTaken s opens closed)
    (name : String) {mode : String} (hmode : (modeFlags mode).isSome) :
    SlotsTaken (slotStep s (.fopen name mode)).1 (opens + 1) closed := by
  have hmax : OPEN_MAX = 20 := rfl
  have hcard := h.card
  by_cases hroom : opens < 17
  · have hused : 3 + min opens 17 < OPEN_MAX := by omega
    obtain ⟨f, hf, _, hiob, hopened, hopens⟩ := slotStep_fopen hused h.flags h.opensOk name hmode
    have hfresh : (⟨3 + min opens 17, hused⟩ : Fin OPEN_MAX) ∉ s.opened := by
      intro hmem
      exact Nat.lt_irrefl _ ((h.flags _).mp (h.opened _ hmem))
    have hflags : ∀ slot, ((slotStep s (.fopen name mode)).1.iob slot).flags ≠ 0 ↔
        slot.val < 3 + min (opens + 1) 17 := by
      intro slot
      rw [hiob, Function.update_apply]
      split
      · next heq =>
        subst heq
        simp only [ne_eq, hf, not_false_eq_true, true_iff]
        omega
      · next hne =>
        have hval : slot.val ≠ 3 + min opens 17 := fun heq => hne (Fin.ext heq)
        rw [h.flags slot]
        omega
    refine ⟨hopens, hflags, fun slot hslot => ?_, ?_⟩
    · rw [hopened, Finset.mem_insert] at hslot
      rw [hflags]
      rcases hslot with rfl | hslot
      · simp only
        omega
      · have hlt := (h.flags slot).mp (h.opened slot hslot)
        omega
    · rw [hopened, Finset.card_insert_of_notMem hfresh]
      omega
  · have hfull : ∀ slot, (s.iob slot).flags ≠ 0 := by
      intro slot
      rw [h.flags]
      have hlt := slot.isLt
      omega
    have hmin : min (opens + 1) 17 = min opens 17 := by omega
    rw [slotStep_full hfull]
    refine ⟨h.opensOk, fun slot => ?_, h.opened, ?_⟩
    · rw [h.flags, hmin]
    · rw [hcard, hmin]

theorem SlotsTaken.fclose {s : SlotState} {opens closed : ℕ} (h : SlotsTaken s opens closed)
    {slot : Fin OPEN_MAX} (hslot : slot ∈ s.opened) :
    SlotsTaken (slotStep s (.fclose slot)).1 opens (closed + 1) := by
  obtain ⟨hflags, hopened, hopens⟩ := slotStep_fclose s slot
  have hcard := h.card
  have hpos := Finset.card_pos.mpr ⟨slot, hslot⟩
  refine ⟨fun i => by rw [hopens]; exact h.opensOk i, fun other => ?_, fun other hother => ?_, ?_⟩
  · rw [hflags, h.flags]
  · rw [hflags]
    rw [hopened] at hother
    exact h.opened other (Finset.mem_of_mem_erase hother)
  · rw [hopened, Finset.card_erase_of_mem hslot]
    omega

/-- What a whole run leaves taken. -/
theorem SlotsTaken.run {s : SlotState} {opens closed : ℕ} (h : SlotsTaken s opens closed)
    {ops : List SlotOp} (hops : Machine.Admits slotStep ClosesOpened s ops) :
    SlotsTaken (Machine.run slotStep s ops).1 (opens + validOpens ops)
      (closed + closeCalls ops) := by
  induction ops generalizing s opens closed with
  | nil => exact h
  | cons op ops ih =>
    cases op with
    | fopen name mode =>
      by_cases hmode : (modeFlags mode).isSome
      · have hrest := ih (h.fopen name hmode) hops.2
        rw [validOpens_valid ops name hmode, closeCalls_fopen, Nat.add_comm _ 1, ← Nat.add_assoc]
        exact hrest
      · have hnone := Option.not_isSome_iff_eq_none.mp hmode
        have hrest := hops.2
        rw [slotStep_invalid hnone] at hrest
        rw [validOpens_invalid ops name hmode, closeCalls_fopen, Machine.run_cons,
          slotStep_invalid hnone]
        exact ih h hrest
    | fclose slot =>
      have hrest := ih (h.fclose hops.1) hops.2
      rw [validOpens_fclose, closeCalls_fclose, Nat.add_comm _ 1, ← Nat.add_assoc]
      exact hrest

/-! ## When slots suffice -/

theorem SlotsTaken.nullOnlyWhenFull_iff {s : SlotState} {opens closed : ℕ}
    (h : SlotsTaken s opens closed) (name : String) {mode : String}
    (hmode : (modeFlags mode).isSome) :
    NullOnlyWhenFull s (.fopen name mode) ↔ (17 ≤ opens → closed = 0) := by
  have hmax : OPEN_MAX = 20 := rfl
  have hcard := h.card
  rw [NullOnlyWhenFull]
  by_cases hroom : opens < 17
  · have hused : 3 + min opens 17 < OPEN_MAX := by omega
    obtain ⟨_, _, hsome, _⟩ := slotStep_fopen hused h.flags h.opensOk name hmode
    rw [hsome]
    exact iff_of_true (fun _ hnone => by cases hnone) (fun hle => by omega)
  · have hfull : ∀ slot, (s.iob slot).flags ≠ 0 := by
      intro slot
      rw [h.flags]
      have hlt := slot.isLt
      omega
    rw [slotStep_full hfull]
    constructor
    · intro hnull _
      have hall := hnull hmode rfl
      omega
    · intro hzero _ _
      have hclosed := hzero (by omega)
      omega

theorem SlotsTaken.not_freesSlot {s : SlotState} {opens closed : ℕ}
    (h : SlotsTaken s opens closed) {slot : Fin OPEN_MAX} (hslot : slot ∈ s.opened) :
    ¬ FreesSlot s (.fclose slot) := by
  intro hfree
  exact h.opened slot hslot (((slotStep_fclose s slot).1 slot).symm.trans hfree)

/-- Every call of `fopen` with a valid mode that comes after 17 others comes before every
`fclose`. -/
def ClosesAfterFull (ops : List SlotOp) : Prop :=
  ∀ before name mode after, ops = before ++ .fopen name mode :: after →
    (modeFlags mode).isSome → 17 ≤ validOpens before → closeCalls before = 0

/-- Over whole runs in which `open` succeeds: `fopen` returns `NULL` only when all slots have
open streams exactly in the runs that do not close before they have filled the table, and
`fclose` frees its slot in no run that calls it. -/
theorem slots_recycled_iff {w : World} (hopen : OpensOk w) {ops : List SlotOp}
    (hops : Machine.Admits slotStep ClosesOpened (SlotState.start w) ops) :
    (Machine.Admits slotStep NullOnlyWhenFull (SlotState.start w) ops ↔ ClosesAfterFull ops) ∧
      (Machine.Admits slotStep FreesSlot (SlotState.start w) ops ↔ closeCalls ops = 0) := by
  have htaken : ∀ before op after, ops = before ++ op :: after →
      SlotsTaken (Machine.run slotStep (SlotState.start w) before).1 (validOpens before)
        (closeCalls before) := by
    intro before op after hsplit
    rw [hsplit] at hops
    have h := (slotsTaken_start hopen).run hops.of_append
    rwa [Nat.zero_add, Nat.zero_add] at h
  constructor
  · rw [Machine.admits_iff]
    constructor
    · intro h before name mode after hsplit hmode
      exact ((htaken _ _ _ hsplit).nullOnlyWhenFull_iff name hmode).mp (h _ _ _ hsplit)
    · intro h before op after hsplit
      cases op with
      | fopen name mode =>
        by_cases hmode : (modeFlags mode).isSome
        · exact ((htaken _ _ _ hsplit).nullOnlyWhenFull_iff name hmode).mpr
            (h _ _ _ _ hsplit hmode)
        · exact fun hvalid => absurd hvalid hmode
      | fclose slot => trivial
  · have hvalid := Machine.admits_iff.mp hops
    rw [Machine.admits_iff, closeCalls, List.countP_eq_zero]
    constructor
    · intro h op hop
      obtain ⟨before, after, hsplit⟩ := List.append_of_mem hop
      cases op with
      | fopen name mode => exact Bool.false_ne_true
      | fclose slot =>
        exact absurd (h _ _ _ hsplit)
          ((htaken _ _ _ hsplit).not_freesSlot (hvalid _ _ _ hsplit))
    · intro h before op after hsplit
      cases op with
      | fopen name mode => trivial
      | fclose slot =>
        have hmem : SlotOp.fclose slot ∈ ops := by rw [hsplit]; simp
        exact absurd rfl (h _ hmem)

theorem slots_recycled_iff_reopened :
    let ops : List SlotOp := [.fopen "f" "w", .fclose ⟨3, by decide⟩, .fopen "f" "r"]
    (Machine.Admits slotStep NullOnlyWhenFull (SlotState.start quiet) ops ↔ ClosesAfterFull ops) ∧
      (Machine.Admits slotStep FreesSlot (SlotState.start quiet) ops ↔ closeCalls ops = 0) :=
  slots_recycled_iff (fun _ _ _ => Int.natCast_nonneg 3) (by decide +kernel)

/-- The table filled by 17 calls of `fopen`, and one stream closed. -/
def filledThenClosed : List SlotOp :=
  List.replicate 17 (.fopen "f" "r") ++ [.fclose ⟨3, by decide⟩]

/-- The next call of `fopen` then returns `NULL` with 19 streams open. -/
theorem fopen_null_after_fclose :
    OpensOk quiet ∧
      Machine.Admits slotStep ClosesOpened (SlotState.start quiet)
        (filledThenClosed ++ [.fopen "f" "r"]) ∧
      ¬ Machine.Admits slotStep NullOnlyWhenFull (SlotState.start quiet)
        (filledThenClosed ++ [.fopen "f" "r"]) ∧
      ¬ Machine.Admits slotStep FreesSlot (SlotState.start quiet)
        (filledThenClosed ++ [.fopen "f" "r"]) := by
  refine ⟨fun _ _ _ => Int.natCast_nonneg 3, by decide +kernel, ?_, ?_⟩
  · intro h
    have hnull := Machine.admits_iff.mp h filledThenClosed (.fopen "f" "r") [] rfl
    have hcard := hnull (by decide +kernel) (by decide +kernel)
    revert hcard
    decide +kernel
  · intro h
    have hfree := Machine.admits_iff.mp h (List.replicate 17 (.fopen "f" "r"))
      (.fclose ⟨3, by decide⟩) [.fopen "f" "r"] rfl
    revert hfree
    unfold FreesSlot
    decide +kernel

end InterviewQuestions.Stdio
