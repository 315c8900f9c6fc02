import InterviewQuestions.Library.LinkedLists
import InterviewQuestions.Library.Rearrangement
import Mathlib.Data.Int.Order.Basic
import Mathlib.Data.List.Perm.Basic

/-! `linked_lists/sorting/quicksort.c`. There is no result where a pointer has no node, and where a
loop has more than `fuel` iterations. -/
namespace InterviewQuestions.ListQuicksort

open Library LinkedCells

abbrev Memory := ℕ → Option (Cell ℕ ℤ)

/-! ## The functions -/

/-- The loop of `find_middle`. -/
def middleLoop (mem : Memory) : ℕ → Option ℕ → Option ℕ → Option (Option ℕ)
  | 0, _, _ => none
  | _ + 1, slow, none => some slow
  | fuel + 1, slow, some fast => do
      match (← mem fast).next with
      | none => return slow
      | some next => middleLoop mem fuel (← follow mem slow) (← follow mem (some next))

def findMiddle (fuel : ℕ) (mem : Memory) : Option ℕ → Option (Option ℕ)
  | none => some none
  | some head => do middleLoop mem fuel (some head) (← follow mem (some head))

/-- The `next` field of `head_lower` or `head_higher`, and the tail of the list from there on, which
is none where it is that dummy node itself. -/
structure Chain where
  next : Option ℕ
  tail : Option ℕ

/-- `tail->next = p;` -/
def Chain.setNext (mem : Memory) (c : Chain) (p : Option ℕ) : Option (Memory × Chain) :=
  match c.tail with
  | none => some (mem, { c with next := p })
  | some tail => do return (← LinkedCells.setNext mem tail p, c)

/-- `tail->next = head; tail = tail->next;` -/
def Chain.push (mem : Memory) (c : Chain) (head : ℕ) : Option (Memory × Chain) := do
  let (mem, c) ← c.setNext mem (some head)
  return (mem, { c with tail := some head })

/-- The loop of `partition`. -/
def partitionLoop (pivot : ℕ) :
    ℕ → Memory → Chain → Chain → Option ℕ → Option (Memory × Chain × Chain)
  | 0, _, _, _, _ => none
  | _ + 1, mem, lower, higher, none => some (mem, lower, higher)
  | fuel + 1, mem, lower, higher, some head =>
      if head = pivot then do
        partitionLoop pivot fuel mem lower higher (← follow mem (some head))
      else do
        if (← mem head).data < (← mem pivot).data then
          let (mem, lower) ← lower.push mem head
          partitionLoop pivot fuel mem lower higher (← follow mem (some head))
        else
          let (mem, higher) ← higher.push mem head
          partitionLoop pivot fuel mem lower higher (← follow mem (some head))

/-- What `partition` does after its loop. -/
def joinParts (pivot : ℕ) (mem : Memory) (lower higher : Chain) : Option (Memory × Option ℕ) := do
  let (mem, lower) ← lower.push mem pivot
  let (mem, higher) ← higher.setNext mem none
  let (mem, lower) ← lower.setNext mem higher.next
  return (mem, lower.next)

/-- The memory and the pointer that is returned. -/
def partition (fuel : ℕ) (mem : Memory) (head : Option ℕ) (pivot : ℕ) :
    Option (Memory × Option ℕ) :=
  if head = none then some (mem, none)
  else do
    let (mem, lower, higher) ← partitionLoop pivot fuel mem ⟨none, none⟩ ⟨none, none⟩ head
    joinParts pivot mem lower higher

/-- There is no result where the calls nest deeper than `depth`. -/
def quicksort (fuel : ℕ) : ℕ → Memory → Option ℕ → Option (Memory × Option ℕ)
  | 0, _, _ => none
  | _ + 1, mem, none => some (mem, none)
  | depth + 1, mem, some head => do
      if (← follow mem (some head)) = none then return (mem, some head)
      else
        let middle ← (← findMiddle fuel mem (some head))
        let (mem, headPartitioned) ← partition fuel mem (some head) middle
        let afterMid ← follow mem (some middle)
        let mem ← setNext mem middle none
        let (mem, afterMid) ← quicksort fuel depth mem afterMid
        let (mem, headPartitioned) ← quicksort fuel depth mem headPartitioned
        match headPartitioned with
        | none => return (mem, afterMid)
        | some headPartitioned =>
          let last ← findLast mem fuel headPartitioned
          return (← setNext mem last afterMid, some headPartitioned)

variable {mem mem₀ mem' : Memory} {head slow fast p : Option ℕ}
  {cells rest lo hi front back : List (ℕ × ℤ)} {a pivot fuel depth : ℕ} {v w : ℤ} {c : Chain}

/-! ## `find_middle` -/

theorem follow_of_cell {next : Option ℕ} (h : mem a = some ⟨v, next⟩) :
    follow mem (some a) = some next := by
  rw [follow, Option.bind_some, h]
  rfl

theorem follow_eq (h : Holds mem head ((a, v) :: cells)) :
    ∃ next, follow mem head = some next ∧ Holds mem next cells := by
  obtain ⟨rfl, next, hcell, hrest⟩ := h
  exact ⟨next, follow_of_cell hcell, hrest⟩

/-- `fast` has twice as many nodes behind it as `slow` goes on. -/
theorem middleLoop_eq (hslow : Holds mem slow cells) (hfast : Holds mem fast rest)
    (hlen : rest.length / 2 < cells.length) (hfuel : rest.length < fuel) :
    middleLoop mem fuel slow fast = some (cells[rest.length / 2]?.map Prod.fst) := by
  induction fuel generalizing slow fast cells rest with
  | zero => exact absurd hfuel (Nat.not_lt_zero _)
  | succ fuel ih =>
    obtain ⟨⟨x, u⟩, after, rfl⟩ := List.exists_cons_of_length_pos (Nat.zero_lt_of_lt hlen)
    obtain ⟨slow', hslow', hafter⟩ := follow_eq hslow
    obtain rfl := hslow.1
    match rest, hfast, hlen, hfuel with
    | [], hfast, _, _ =>
      obtain rfl : fast = none := hfast
      rfl
    | [(y, w)], hfast, _, _ =>
      obtain ⟨rfl, next, hcell, hnext⟩ := hfast
      obtain rfl : next = none := hnext
      rw [middleLoop, hcell, List.length_singleton]
      rfl
    | (y, w) :: (z, w') :: rest, hfast, hlen, hfuel =>
      obtain ⟨rfl, next, hcell, hnext⟩ := hfast
      obtain ⟨fast', hfast', hrest⟩ := follow_eq hnext
      obtain rfl := hnext.1
      have hhalf : ((y, w) :: (z, w') :: rest).length / 2 = rest.length / 2 + 1 := by
        rw [List.length_cons, List.length_cons]
        omega
      rw [List.length_cons, List.length_cons] at hfuel
      rw [hhalf, List.length_cons] at hlen
      rw [middleLoop, hcell, hhalf, List.getElem?_cons_succ]
      simp only [Option.bind_eq_bind, Option.bind_some, hslow', hfast']
      exact ih hafter hrest (Nat.lt_of_succ_lt_succ hlen) (by omega)

theorem findMiddle_eq (h : Holds mem (some a) cells) (hfuel : cells.length ≤ fuel) :
    findMiddle fuel mem (some a) = some (cells[(cells.length - 1) / 2]?.map Prod.fst) := by
  cases cells with
  | nil => cases h
  | cons cell rest =>
    obtain ⟨next, hnext, hrest⟩ := follow_eq h
    rw [findMiddle, hnext]
    simp only [Option.bind_eq_bind, Option.bind_some, List.length_cons, Nat.add_sub_cancel]
    rw [List.length_cons] at hfuel
    exact middleLoop_eq h hrest (by rw [List.length_cons]; omega) (by omega)

/-! ## `partition` -/

/-- The nodes of the list so far. What comes after the last one is still to be written. -/
inductive Linked (mem : Memory) : Chain → List (ℕ × ℤ) → Prop
  | nil : Linked mem ⟨none, none⟩ []
  | snoc {next stop : Option ℕ} {cells : List (ℕ × ℤ)} {a : ℕ} {v : ℤ}
      (h : Segment mem next (cells ++ [(a, v)]) stop) :
      Linked mem ⟨next, some a⟩ (cells ++ [(a, v)])

theorem Linked.congr (h : Linked mem c cells) (hmem : ∀ a ∈ cells.map Prod.fst, mem' a = mem a) :
    Linked mem' c cells := by
  cases h with
  | nil => exact .nil
  | snoc h => exact .snoc (h.congr hmem)

/-- Only nodes of the list are written to. -/
theorem Linked.setNext (h : Linked mem c cells) (hnodup : (cells.map Prod.fst).Nodup)
    (p : Option ℕ) :
    ∃ mem' c', c.setNext mem p = some (mem', c') ∧ Segment mem' c'.next cells p ∧
      ∀ a, a ∉ cells.map Prod.fst → mem' a = mem a := by
  cases h with
  | nil => exact ⟨mem, ⟨p, none⟩, rfl, rfl, fun _ _ => rfl⟩
  | @snoc next stop cells a v h =>
    rw [List.map_append, List.nodup_append'] at hnodup
    have hnew : a ∉ cells.map Prod.fst := fun hmem =>
      hnodup.2.2 hmem (List.mem_singleton_self a)
    refine ⟨_, ⟨next, some a⟩, ?_, h.redirect hnew p, fun b hb => ?_⟩
    · simp only [Chain.setNext, setNext_eq h.last, Option.bind_eq_bind, Option.bind_some]
      rfl
    · refine Function.update_of_ne (fun heq => hb ?_) ..
      rw [heq, List.map_append]
      exact List.mem_append_right _ (List.mem_singleton_self a)

theorem Linked.push (h : Linked mem c cells) (hnodup : (cells.map Prod.fst).Nodup)
    (ha : a ∉ cells.map Prod.fst) {next : Option ℕ} (hcell : mem a = some ⟨v, next⟩) :
    ∃ mem' c', c.push mem a = some (mem', c') ∧ Linked mem' c' (cells ++ [(a, v)]) ∧
      ∀ b, b ∉ cells.map Prod.fst → mem' b = mem b := by
  obtain ⟨mem', c', hset, hseg, hsame⟩ := h.setNext hnodup (some a)
  have hall : Segment mem' c'.next (cells ++ [(a, v)]) next :=
    segment_append.mpr ⟨some a, hseg, rfl, next, (hsame a ha).trans hcell, rfl⟩
  refine ⟨mem', ⟨c'.next, some a⟩, ?_, .snoc hall, hsame⟩
  rw [Chain.push, hset]
  rfl

/-- The nodes other than the pivot. -/
def others (pivot : ℕ) (cells : List (ℕ × ℤ)) : List (ℕ × ℤ) := cells.filter (·.1 ≠ pivot)

def lowerPart (pivot : ℕ) (v : ℤ) (cells : List (ℕ × ℤ)) : List (ℕ × ℤ) :=
  (others pivot cells).filter (·.2 < v)

def higherPart (pivot : ℕ) (v : ℤ) (cells : List (ℕ × ℤ)) : List (ℕ × ℤ) :=
  (others pivot cells).filter (v ≤ ·.2)

theorem others_perm (hnodup : (cells.map Prod.fst).Nodup) (hpivot : (pivot, v) ∈ cells) :
    ((pivot, v) :: others pivot cells).Perm cells := by
  obtain ⟨front, back, rfl⟩ := List.append_of_mem hpivot
  rw [List.map_append, List.map_cons, List.nodup_middle, List.nodup_cons, List.mem_append,
    not_or] at hnodup
  have hkeep (l : List (ℕ × ℤ)) (hl : pivot ∉ l.map Prod.fst) : l.filter (·.1 ≠ pivot) = l := by
    refine List.filter_eq_self.mpr fun c hc => ?_
    have hne : c.1 ≠ pivot := fun heq => hl (heq ▸ List.mem_map_of_mem hc)
    simpa using hne
  rw [others, List.filter_append, List.filter_cons_of_neg (by simp), hkeep front hnodup.1.1,
    hkeep back hnodup.1.2]
  exact List.perm_middle.symm

theorem parts_perm (hnodup : (cells.map Prod.fst).Nodup) (hpivot : (pivot, v) ∈ cells) :
    (lowerPart pivot v cells ++ (pivot, v) :: higherPart pivot v cells).Perm cells := by
  have hnot : higherPart pivot v cells =
      (others pivot cells).filter fun c => !decide (c.2 < v) := by
    simp only [higherPart, ← not_lt, decide_not]
  refine List.perm_middle.trans (List.Perm.trans (List.Perm.cons _ ?_) (others_perm hnodup hpivot))
  rw [hnot]
  exact List.filter_append_perm (fun c => decide (c.2 < v)) (others pivot cells)

/-- The lists of both kinds of nodes that have been met, in the memory that was `mem₀` at first. -/
structure Parting (mem₀ mem : Memory) (pivot : ℕ) (lower higher : Chain) (lo hi : List (ℕ × ℤ)) :
    Prop where
  lower : Linked mem lower lo
  higher : Linked mem higher hi
  nodup : ((lo ++ hi).map Prod.fst).Nodup
  pivot_notMem : pivot ∉ (lo ++ hi).map Prod.fst
  same : ∀ a, a ∉ (lo ++ hi).map Prod.fst → mem a = mem₀ a

variable {lower higher : Chain}

theorem Parting.symm (h : Parting mem₀ mem pivot lower higher lo hi) :
    Parting mem₀ mem pivot higher lower hi lo := by
  have hperm : ((hi ++ lo).map Prod.fst).Perm ((lo ++ hi).map Prod.fst) :=
    List.perm_append_comm.map _
  refine ⟨h.higher, h.lower, hperm.nodup_iff.mpr h.nodup, ?_, fun a ha => h.same a ?_⟩
  · rw [hperm.mem_iff]
    exact h.pivot_notMem
  · rwa [← hperm.mem_iff]

/-- One more node comes to the lower ones. -/
theorem Parting.push (h : Parting mem₀ mem pivot lower higher lo hi) {next : Option ℕ}
    (ha : a ∉ (lo ++ hi).map Prod.fst) (hne : a ≠ pivot) (hcell : mem₀ a = some ⟨v, next⟩) :
    ∃ mem' lower', lower.push mem a = some (mem', lower') ∧ follow mem' (some a) = some next ∧
      Parting mem₀ mem' pivot lower' higher (lo ++ [(a, v)]) hi := by
  have hnodup := h.nodup
  have hpivot := h.pivot_notMem
  rw [List.map_append, List.nodup_append'] at hnodup
  rw [List.map_append, List.mem_append, not_or] at ha hpivot
  have hread : mem a = mem₀ a := h.same a (by rw [List.map_append, List.mem_append]; tauto)
  obtain ⟨mem', lower', hpush, hlinked, hsame⟩ :=
    h.lower.push hnodup.1 ha.1 (hread.trans hcell)
  have hperm : ((lo ++ [(a, v)] ++ hi).map Prod.fst).Perm (a :: (lo ++ hi).map Prod.fst) := by
    rw [List.append_assoc]
    exact (List.perm_middle (a := (a, v))).map Prod.fst
  have hfollow := follow_of_cell ((hsame a ha.1).trans (hread.trans hcell))
  refine ⟨mem', lower', hpush, hfollow, hlinked, ?_, ?_, ?_, fun b hb => ?_⟩
  · exact h.higher.congr fun b hb => hsame b fun hlo => hnodup.2.2 hlo hb
  · rw [hperm.nodup_iff, List.nodup_cons, List.map_append, List.mem_append, not_or]
    exact ⟨ha, List.map_append ▸ h.nodup⟩
  · rw [hperm.mem_iff, List.mem_cons, not_or]
    exact ⟨hne.symm, h.pivot_notMem⟩
  · rw [hperm.mem_iff, List.mem_cons, not_or] at hb
    rw [hsame b fun hlo => hb.2 (by rw [List.map_append]; exact List.mem_append_left _ hlo)]
    exact h.same b hb.2

theorem Parting.pushHigher (h : Parting mem₀ mem pivot lower higher lo hi) {next : Option ℕ}
    (ha : a ∉ (lo ++ hi).map Prod.fst) (hne : a ≠ pivot) (hcell : mem₀ a = some ⟨v, next⟩) :
    ∃ mem' higher', higher.push mem a = some (mem', higher') ∧
      follow mem' (some a) = some next ∧
      Parting mem₀ mem' pivot lower higher' lo (hi ++ [(a, v)]) := by
  rw [List.map_append, List.mem_append, or_comm, ← List.mem_append, ← List.map_append] at ha
  obtain ⟨mem', higher', hpush, hfollow, hnext⟩ := h.symm.push ha hne hcell
  exact ⟨mem', higher', hpush, hfollow, hnext.symm⟩

theorem perm_move {α : Type*} (l m n : List α) (x : α) :
    (l ++ [x] ++ m ++ n).Perm (l ++ m ++ x :: n) := by
  rw [List.append_assoc l, List.append_assoc l, List.append_assoc l]
  exact (List.perm_middle.symm.trans (.of_eq (by simp))).append_left l

theorem partitionLoop_eq (h : Parting mem₀ mem pivot lower higher lo hi) {next : Option ℕ}
    (hpivot : mem₀ pivot = some ⟨v, next⟩) (hrest : Holds mem₀ head rest)
    (hnodup : ((lo ++ hi ++ rest).map Prod.fst).Nodup) (hfuel : rest.length < fuel) :
    ∃ mem' lower' higher', partitionLoop pivot fuel mem lower higher head =
        some (mem', lower', higher') ∧
      Parting mem₀ mem' pivot lower' higher' (lo ++ lowerPart pivot v rest)
        (hi ++ higherPart pivot v rest) := by
  unfold lowerPart higherPart
  induction rest generalizing head fuel mem lower higher lo hi with
  | nil =>
    cases fuel with
    | zero => exact absurd hfuel (Nat.not_lt_zero _)
    | succ fuel =>
      obtain rfl : head = none := hrest
      exact ⟨mem, lower, higher, rfl, by simpa [others] using h⟩
  | cons cell rest ih =>
    cases fuel with
    | zero => exact absurd hfuel (Nat.not_lt_zero _)
    | succ fuel =>
      obtain ⟨a, w⟩ := cell
      obtain ⟨rfl, after, hcell, hrest'⟩ := hrest
      have hperm : ((lo ++ hi ++ (a, w) :: rest).map Prod.fst).Perm
          (a :: (lo ++ hi ++ rest).map Prod.fst) :=
        (List.perm_middle (a := (a, w))).map Prod.fst
      obtain ⟨ha, hnodup'⟩ := List.nodup_cons.mp (hperm.nodup_iff.mp hnodup)
      have hmet : a ∉ (lo ++ hi).map Prod.fst := fun hmem => ha (by
        rw [List.map_append]
        exact List.mem_append_left _ hmem)
      have hread := h.same a hmet
      rw [List.length_cons] at hfuel
      rw [partitionLoop]
      by_cases heq : a = pivot
      · have hothers : others pivot ((a, w) :: rest) = others pivot rest :=
          List.filter_cons_of_neg (by simpa using heq)
        rw [if_pos heq, follow_of_cell (hread.trans hcell), hothers]
        exact ih h hrest' hnodup' (by omega)
      · have hothers : others pivot ((a, w) :: rest) = (a, w) :: others pivot rest :=
          List.filter_cons_of_pos (by simpa using heq)
        rw [if_neg heq, hread, hcell, h.same pivot h.pivot_notMem, hpivot, hothers]
        simp only [Option.bind_eq_bind, Option.bind_some]
        by_cases hlt : w < v
        · obtain ⟨mem', lower', hpush, hfollow, hnext⟩ := h.push hmet heq hcell
          rw [if_pos hlt, hpush, List.filter_cons_of_pos (by simpa using hlt),
            List.filter_cons_of_neg (by simpa using hlt)]
          simp only [Option.bind_some, hfollow]
          obtain ⟨mem'', lower'', higher'', hloop, hparts⟩ := ih hnext hrest'
            (((perm_move lo hi rest (a, w)).map Prod.fst).nodup_iff.mpr hnodup)
            (Nat.lt_of_succ_lt_succ hfuel)
          exact ⟨mem'', lower'', higher'', hloop, by simpa using hparts⟩
        · obtain ⟨mem', higher', hpush, hfollow, hnext⟩ := h.pushHigher hmet heq hcell
          rw [if_neg hlt, hpush, List.filter_cons_of_neg (by simpa using hlt),
            List.filter_cons_of_pos (by simpa using hlt)]
          simp only [Option.bind_some, hfollow]
          have hmoved : lo ++ (hi ++ [(a, w)]) ++ rest = lo ++ hi ++ (a, w) :: rest := by simp
          obtain ⟨mem'', lower'', higher'', hloop, hparts⟩ := ih hnext hrest'
            (hmoved ▸ hnodup) (Nat.lt_of_succ_lt_succ hfuel)
          exact ⟨mem'', lower'', higher'', hloop, by simpa using hparts⟩

theorem Parting.join (h : Parting mem₀ mem pivot lower higher lo hi) {next : Option ℕ}
    (hpivot : mem₀ pivot = some ⟨v, next⟩) :
    ∃ mem' head', joinParts pivot mem lower higher = some (mem', head') ∧
      Holds mem' head' (lo ++ (pivot, v) :: hi) ∧
        ∀ a, a ∉ (lo ++ (pivot, v) :: hi).map Prod.fst → mem' a = mem₀ a := by
  have hnodup := h.nodup
  have hnew := h.pivot_notMem
  rw [List.map_append, List.nodup_append'] at hnodup
  rw [List.map_append, List.mem_append, not_or] at hnew
  have hcell := (h.same pivot h.pivot_notMem).trans hpivot
  have hall : ((lo ++ [(pivot, v)]).map Prod.fst).Nodup := by
    rw [List.map_append, List.nodup_append']
    exact ⟨hnodup.1, List.nodup_singleton _, List.disjoint_singleton.mpr hnew.1⟩
  have hapart : ∀ a ∈ (lo ++ [(pivot, v)]).map Prod.fst, a ∉ hi.map Prod.fst := by
    intro a ha
    rw [List.map_append, List.mem_append] at ha
    rcases ha with ha | ha
    · exact fun hmem => hnodup.2.2 ha hmem
    · rw [List.mem_singleton.mp ha]
      exact hnew.2
  obtain ⟨mem₁, lower₁, hpush, hlower₁, hsame₁⟩ := h.lower.push hnodup.1 hnew.1 hcell
  have hhigher := h.higher.congr fun a ha => hsame₁ a fun hlo => hnodup.2.2 hlo ha
  obtain ⟨mem₂, higher₂, hset, hhigher₂, hsame₂⟩ := hhigher.setNext hnodup.2.1 none
  have hlower₂ := hlower₁.congr fun a ha => hsame₂ a (hapart a ha)
  obtain ⟨mem₃, lower₃, hset', hlower₃, hsame₃⟩ := hlower₂.setNext hall higher₂.next
  have hhigher₃ := hhigher₂.congr fun a ha => hsame₃ a fun hlo => hapart a hlo ha
  have hholds := segment_append.mpr ⟨_, hlower₃, hhigher₃⟩
  refine ⟨mem₃, lower₃.next, ?_, by simpa using hholds, fun a ha => ?_⟩
  · simp only [joinParts, Option.bind_eq_bind, hpush, hset, hset', Option.bind_some]
    rfl
  · rw [List.map_append, List.map_cons, List.mem_append, List.mem_cons, not_or, not_or] at ha
    have hlo : a ∉ (lo ++ [(pivot, v)]).map Prod.fst := by
      rw [List.map_append, List.mem_append, not_or]
      exact ⟨ha.1, fun hmem => ha.2.1 (List.mem_singleton.mp hmem)⟩
    rw [hsame₃ a hlo, hsame₂ a ha.2.2, hsame₁ a ha.1]
    refine h.same a ?_
    rw [List.map_append, List.mem_append, not_or]
    exact ⟨ha.1, ha.2.2⟩

theorem partition_eq (h : Holds mem head cells) (hpivot : (pivot, v) ∈ cells)
    (hfuel : cells.length < fuel) :
    ∃ mem' head', partition fuel mem head pivot = some (mem', head') ∧
      Holds mem' head' (lowerPart pivot v cells ++ (pivot, v) :: higherPart pivot v cells) ∧
        ∀ a, a ∉ cells.map Prod.fst → mem' a = mem a := by
  have hperm := (parts_perm h.nodup hpivot).map Prod.fst
  obtain ⟨next, hcell⟩ := h.cell hpivot
  have hhead : head ≠ none := by
    rintro rfl
    have hnil : Holds mem none [] := rfl
    rw [Holds.unique h hnil] at hpivot
    cases hpivot
  have hstart : Parting mem mem pivot ⟨none, none⟩ ⟨none, none⟩ [] [] :=
    ⟨.nil, .nil, .nil, List.not_mem_nil, fun _ _ => rfl⟩
  obtain ⟨mem₁, lower, higher, hloop, hparts⟩ := partitionLoop_eq hstart hcell h h.nodup hfuel
  obtain ⟨mem', head', hjoin, hholds, hsame⟩ := hparts.join hcell
  refine ⟨mem', head', ?_, hholds, fun a ha => hsame a (hperm.mem_iff.not.mpr ha)⟩
  rw [partition, if_neg hhead, hloop]
  exact hjoin

/-! ## `quicksort` -/

/-- The value of the last node is larger than the others. -/
def LastMax (cells : List (ℕ × ℤ)) : Prop :=
  ∃ init c, cells = init ++ [c] ∧ ∀ d ∈ init, d.2 < c.2

/-- How deep the calls can nest. Where nothing is above the pivot, the list stays as long as it was,
but the pivot comes last. -/
structure DeepEnough (depth : ℕ) (cells : List (ℕ × ℤ)) : Prop where
  twice : 2 * cells.length < depth
  once : ¬ LastMax cells → 2 * cells.length + 1 < depth

/-- The list of these nodes becomes a sorted list of them, and nothing else is written to. -/
structure Sorts (mem mem' : Memory) (head' : Option ℕ) (cells : List (ℕ × ℤ)) : Prop where
  sorted : ∃ cells', Holds mem' head' cells' ∧ cells'.Perm cells ∧ cells'.Pairwise (·.2 ≤ ·.2)
  same : ∀ a, a ∉ cells.map Prod.fst → mem' a = mem a

theorem DeepEnough.of_shorter (h : DeepEnough (depth + 1) cells)
    (hlt : rest.length < cells.length) : DeepEnough depth rest := by
  have hdepth := h.twice
  exact ⟨by omega, fun _ => by omega⟩

/-- The pivot is not the last node, so that the last node is above it when its value is the
largest. -/
theorem DeepEnough.of_lower (h : DeepEnough (depth + 1) cells)
    (hperm : (lo ++ (pivot, v) :: hi).Perm cells) (hlo : ∀ c ∈ lo, c.2 < v)
    (hlast : LastMax cells → hi ≠ []) : DeepEnough depth (lo ++ [(pivot, v)]) := by
  have hlen := hperm.length_eq
  rw [List.length_append, List.length_cons] at hlen
  cases hi with
  | nil =>
    have hmax : LastMax (lo ++ [(pivot, v)]) := ⟨lo, (pivot, v), rfl, hlo⟩
    have hdepth := h.once fun hmax => hlast hmax rfl
    refine ⟨?_, fun hnot => absurd hmax hnot⟩
    rw [List.length_append, List.length_singleton]
    rw [List.length_nil] at hlen
    omega
  | cons c hi =>
    rw [List.length_cons] at hlen
    apply h.of_shorter
    rw [List.length_append, List.length_singleton]
    omega

/-- The pivot is cut off from what comes after it. -/
theorem cut (h : Holds mem head (lo ++ (pivot, v) :: hi)) :
    ∃ next, follow mem (some pivot) = some next ∧
      setNext mem pivot none = some (Function.update mem pivot (some ⟨v, none⟩)) ∧
      Holds (Function.update mem pivot (some ⟨v, none⟩)) head (lo ++ [(pivot, v)]) ∧
      Holds (Function.update mem pivot (some ⟨v, none⟩)) next hi := by
  have hnodup := h.nodup
  rw [List.map_append, List.map_cons, List.nodup_middle, List.nodup_cons, List.mem_append,
    not_or] at hnodup
  obtain ⟨middle, hlo, rfl, next, hcell, hhi⟩ := segment_append.mp h
  refine ⟨next, follow_of_cell hcell, setNext_eq hcell none, ?_, hhi.update hnodup.1.2 _⟩
  exact segment_append.mpr
    ⟨some pivot, hlo.update hnodup.1.1 _, rfl, none, Function.update_self .., rfl⟩

/-- One list is put behind another. -/
theorem append_lists (hlo : Holds mem (some a) lo) (hhi : Holds mem p hi)
    (hapart : ∀ b ∈ lo.map Prod.fst, b ∉ hi.map Prod.fst) (hfuel : lo.length ≤ fuel) :
    ∃ last mem', findLast mem fuel a = some last ∧ setNext mem last p = some mem' ∧
      Holds mem' (some a) (lo ++ hi) ∧ ∀ b, b ∉ lo.map Prod.fst → mem' b = mem b := by
  have hnodup := hlo.nodup
  rcases List.eq_nil_or_concat lo with rfl | ⟨init, ⟨last, w⟩, rfl⟩
  · cases hlo
  · rw [List.concat_eq_append] at *
    rw [List.length_append, List.length_singleton] at hfuel
    rw [List.map_append, List.nodup_append'] at hnodup
    have hlast : last ∈ (init ++ [(last, w)]).map Prod.fst := by simp
    have hnew : last ∉ init.map Prod.fst := fun hmem =>
      hnodup.2.2 hmem (List.mem_singleton_self last)
    refine ⟨last, _, findLast_eq hlo hfuel, setNext_eq hlo.last p, ?_, fun b hb => ?_⟩
    · exact segment_append.mpr ⟨p, hlo.redirect hnew p, hhi.update (hapart last hlast) _⟩
    · have hne : b ≠ last := ne_of_mem_of_not_mem hlast hb |>.symm
      exact Function.update_of_ne hne ..

/-- The node that `find_middle` finds is not the last one. -/
theorem exists_middle (h : Holds mem (some a) cells) (hlen : 1 < cells.length)
    (hfuel : cells.length ≤ fuel) :
    ∃ front pivot v back, cells = front ++ (pivot, v) :: back ∧ back ≠ [] ∧
      findMiddle fuel mem (some a) = some (some pivot) := by
  have hmiddle := findMiddle_eq h hfuel
  have hlt : (cells.length - 1) / 2 < cells.length := by omega
  rw [List.getElem?_eq_getElem hlt, Option.map_some] at hmiddle
  obtain ⟨front, back, hsplit, hfront⟩ := exists_append_cons (List.getElem?_eq_getElem hlt)
  refine ⟨front, _, _, back, hsplit, ?_, hmiddle⟩
  rintro rfl
  have hall := congrArg List.length hsplit
  rw [List.length_append, List.length_singleton] at hall
  omega

theorem higherPart_ne_nil (hnodup : (cells.map Prod.fst).Nodup)
    (hsplit : cells = front ++ (pivot, v) :: back) (hback : back ≠ []) (hmax : LastMax cells) :
    higherPart pivot v cells ≠ [] := by
  obtain ⟨init, c, hinit, hlt⟩ := hmax
  obtain ⟨before, d, rfl⟩ : ∃ before d, back = before ++ [d] := by
    rcases List.eq_nil_or_concat back with hnil | ⟨before, d, hconcat⟩
    · exact absurd hnil hback
    · exact ⟨before, d, hconcat.trans List.concat_eq_append⟩
  have hsame : init ++ [c] = front ++ (pivot, v) :: before ++ [d] := by
    rw [← hinit, hsplit]
    simp
  obtain ⟨rfl, hd⟩ := List.append_inj' hsame rfl
  obtain rfl := List.singleton_inj.mp hd
  have hvalue : v < c.2 := hlt (pivot, v) (by simp)
  have hne : c.1 ≠ pivot := by
    rintro rfl
    rw [hinit, List.map_append, List.nodup_append'] at hnodup
    have hpivot : c.1 ∈ (front ++ (c.1, v) :: before).map Prod.fst := by simp
    exact hnodup.2.2 hpivot (List.mem_singleton_self c.1)
  have hmem : c ∈ higherPart pivot v cells := by
    rw [higherPart, others, List.mem_filter, List.mem_filter, hinit]
    simp [hne, hvalue.le]
  exact List.ne_nil_of_mem hmem

theorem Sorts.holds (h : Sorts mem mem' p cells) (hrest : Holds mem head rest)
    (hapart : ∀ a ∈ rest.map Prod.fst, a ∉ cells.map Prod.fst) : Holds mem' head rest :=
  hrest.congr fun a ha => h.same a (hapart a ha)

/-- Both sorted lists together. -/
theorem Sorts.append {mem₁ mem₂ : Memory} (hhigh : Sorts mem mem₁ head hi)
    (hlow : Sorts mem₁ mem₂ p lo) (hne : lo ≠ [])
    (hapart : ∀ a ∈ lo.map Prod.fst, a ∉ hi.map Prod.fst)
    (hle : ∀ c ∈ lo, ∀ d ∈ hi, c.2 ≤ d.2) (hfuel : lo.length ≤ fuel) :
    ∃ a last mem', p = some a ∧ findLast mem₂ fuel a = some last ∧
      setNext mem₂ last head = some mem' ∧ Sorts mem mem' (some a) (lo ++ hi) := by
  obtain ⟨hi', hholds, hperm, hsorted⟩ := hhigh.sorted
  obtain ⟨lo', hholds', hperm', hsorted'⟩ := hlow.sorted
  have hlo' := hperm'.map Prod.fst
  have hhi' := hperm.map Prod.fst
  obtain ⟨a, rfl⟩ : ∃ a, p = some a := by
    cases lo' with
    | nil => exact absurd hperm'.symm.eq_nil hne
    | cons c lo' => exact ⟨c.1, hholds'.1⟩
  have hapart' : ∀ b ∈ lo'.map Prod.fst, b ∉ hi'.map Prod.fst := fun b hb =>
    hhi'.mem_iff.not.mpr (hapart b (hlo'.mem_iff.mp hb))
  have hkept : Holds mem₂ head hi' := hlow.holds hholds fun b hb hmem =>
    hapart b hmem (hhi'.mem_iff.mp hb)
  obtain ⟨last, mem', hlast, hset, hall, hsame⟩ :=
    append_lists hholds' hkept hapart' (hperm'.length_eq.trans_le hfuel)
  refine ⟨a, last, mem', rfl, hlast, hset, ⟨_, hall, hperm'.append hperm, ?_⟩, fun b hb => ?_⟩
  · refine List.pairwise_append.mpr ⟨hsorted', hsorted, fun c hc d hd => ?_⟩
    exact hle c (hperm'.mem_iff.mp hc) d (hperm.mem_iff.mp hd)
  · rw [List.map_append, List.mem_append, not_or] at hb
    rw [hsame b (hlo'.mem_iff.not.mpr hb.1), hlow.same b hb.1, hhigh.same b hb.2]

/-- The two lists that are sorted, the first one with the pivot at its end. -/
structure Halves (mem mem' : Memory) (head next : Option ℕ) (pivot : ℕ) (v : ℤ)
    (lo hi cells : List (ℕ × ℤ)) : Prop where
  low : Holds mem' head (lo ++ [(pivot, v)])
  high : Holds mem' next hi
  perm : (lo ++ (pivot, v) :: hi).Perm cells
  apart : ∀ a ∈ (lo ++ [(pivot, v)]).map Prod.fst, a ∉ hi.map Prod.fst
  lt : ∀ c ∈ lo, c.2 < v
  le : ∀ c ∈ hi, v ≤ c.2
  last : LastMax cells → hi ≠ []
  same : ∀ a, a ∉ cells.map Prod.fst → mem' a = mem a

theorem Halves.le_high (h : Halves mem mem' head p pivot v lo hi cells) :
    ∀ c ∈ lo ++ [(pivot, v)], ∀ d ∈ hi, c.2 ≤ d.2 := by
  refine List.forall_mem_append.mpr ⟨fun c hc d hd => ?_, fun c hc d hd => ?_⟩
  · exact (h.lt c hc).le.trans (h.le d hd)
  · rw [List.mem_singleton.mp hc]
    exact h.le d hd

theorem exists_halves (h : Holds mem (some a) cells) (hlen : 1 < cells.length)
    (hfuel : cells.length < fuel) :
    ∃ pivot v lo hi mem₁ mem₂ head₁ next,
      findMiddle fuel mem (some a) = some (some pivot) ∧
      partition fuel mem (some a) pivot = some (mem₁, head₁) ∧
      follow mem₁ (some pivot) = some next ∧ setNext mem₁ pivot none = some mem₂ ∧
      Halves mem mem₂ head₁ next pivot v lo hi cells := by
  obtain ⟨front, pivot, v, back, hsplit, hback, hmiddle⟩ := exists_middle h hlen hfuel.le
  have hpivot : (pivot, v) ∈ cells := hsplit ▸ List.mem_append_right _ List.mem_cons_self
  have hperm := parts_perm h.nodup hpivot
  obtain ⟨mem₁, head₁, hpart, hholds, hsame⟩ := partition_eq h hpivot hfuel
  obtain ⟨next, hfollow, hset, hlow, hhigh⟩ := cut hholds
  have hnodup := (hperm.map Prod.fst).nodup_iff.mpr h.nodup
  rw [List.append_cons, List.map_append, List.nodup_append'] at hnodup
  refine ⟨pivot, v, _, _, mem₁, _, head₁, next, hmiddle, hpart, hfollow, hset, hlow, hhigh, hperm,
    fun a ha hmem => hnodup.2.2 ha hmem, fun c hc => ?_, fun c hc => ?_,
    higherPart_ne_nil h.nodup hsplit hback, fun c hc => ?_⟩
  · simpa using (List.mem_filter.mp hc).2
  · simpa using (List.mem_filter.mp hc).2
  · have hne : c ≠ pivot := ne_of_mem_of_not_mem (List.mem_map_of_mem hpivot) hc |>.symm
    rw [Function.update_of_ne hne, hsame c hc]

theorem sorts_of_deepEnough (h : Holds mem head cells) (hfuel : cells.length < fuel)
    (hdepth : DeepEnough depth cells) :
    ∃ mem' head', quicksort fuel depth mem head = some (mem', head') ∧
      Sorts mem mem' head' cells := by
  induction depth generalizing mem head cells with
  | zero => exact absurd hdepth.twice (Nat.not_lt_zero _)
  | succ depth ih =>
    match cells, h with
    | [], h =>
      obtain rfl : head = none := h
      exact ⟨mem, none, rfl, ⟨[], rfl, .refl _, .nil⟩, fun _ _ => rfl⟩
    | [(a, v)], h =>
      obtain ⟨next, hnext, hrest⟩ := follow_eq h
      obtain rfl := h.1
      obtain rfl : next = none := hrest
      refine ⟨mem, some a, ?_, ⟨_, h, .refl _, List.pairwise_singleton _ _⟩, fun _ _ => rfl⟩
      simp only [quicksort, hnext, Option.bind_eq_bind, Option.bind_some]
      rfl
    | (a, u) :: (b, w) :: rest, h =>
      obtain ⟨next, hnext, hrest⟩ := follow_eq h
      obtain rfl := h.1
      obtain rfl := hrest.1
      generalize hcells : (a, u) :: (b, w) :: rest = cells at *
      have hlen : 1 < cells.length := by
        rw [← hcells, List.length_cons, List.length_cons]
        omega
      obtain ⟨pivot, v, lo, hi, mem₁, mem₂, head₁, next, hmiddle, hpart, hfollow, hset, hhalves⟩ :=
        exists_halves h hlen hfuel
      have hdeep := hdepth.of_lower hhalves.perm hhalves.lt hhalves.last
      have hconcat : lo ++ (pivot, v) :: hi = lo ++ [(pivot, v)] ++ hi := by simp
      have hperm := hhalves.perm
      have hlen' := hperm.length_eq
      rw [List.length_append, List.length_cons] at hlen'
      rw [hconcat] at hperm
      obtain ⟨mem₃, afterMid, hcall, hsorts⟩ :=
        ih hhalves.high (by omega) (hdepth.of_shorter (by omega))
      obtain ⟨mem₄, head₄, hcall', hsorts'⟩ := ih (hsorts.holds hhalves.low hhalves.apart)
        (by rw [List.length_append, List.length_singleton]; omega) hdeep
      obtain ⟨first, last, mem', rfl, hfound, hset', hall⟩ := hsorts.append hsorts'
        (List.append_ne_nil_of_right_ne_nil _ (List.cons_ne_nil _ _)) hhalves.apart hhalves.le_high
        (by rw [List.length_append, List.length_singleton]; omega : _ ≤ fuel)
      obtain ⟨sorted, hholds, hperm', hsorted⟩ := hall.sorted
      refine ⟨mem', some first, ?_, ⟨sorted, hholds, hperm'.trans hperm, hsorted⟩, fun c hc => ?_⟩
      · simp only [quicksort, hnext, hmiddle, hpart, hfollow, hset, hcall, hcall', hfound, hset',
          Option.bind_eq_bind, Option.bind_some]
        exact if_neg (Option.some_ne_none b)
      · have hc' := (hperm.map Prod.fst).mem_iff.not.mpr hc
        rw [hall.same c hc', hhalves.same c hc]

/-- The calls end, and the list is the sorted list of its nodes. -/
theorem quicksort_spec (h : Holds mem head cells) (hfuel : cells.length < fuel)
    (hdepth : 2 * cells.length + 1 < depth) :
    ∃ mem' head', quicksort fuel depth mem head = some (mem', head') ∧
      Sorts mem mem' head' cells :=
  sorts_of_deepEnough h hfuel ⟨Nat.lt_of_succ_lt hdepth, fun _ => hdepth⟩

/-- 1, 3, 2: nothing is above the first pivot. -/
def threeNodes : Memory := fun a =>
  ([⟨1, some 1⟩, ⟨3, some 2⟩, ⟨2, none⟩] : List (Cell ℕ ℤ))[a]?

theorem quicksort_threeNodes :
    ∃ mem' head', quicksort 4 8 threeNodes (some 0) = some (mem', head') ∧
      Sorts threeNodes mem' head' [(0, 1), (1, 3), (2, 2)] := by
  have h : Holds threeNodes (some 0) [(0, 1), (1, 3), (2, 2)] := by
    simp [Segment, threeNodes]
  exact quicksort_spec h (by decide) (by decide)

example : (quicksort 4 8 threeNodes (some 0)).bind (fun s => follow s.1 (some 0)) =
    some (some 2) := by decide

end InterviewQuestions.ListQuicksort
