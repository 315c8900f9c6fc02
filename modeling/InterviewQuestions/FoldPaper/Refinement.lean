import InterviewQuestions.FoldPaper.Model
import InterviewQuestions.Library.LinkedLists

/-! The array of linked nodes against the row of stacks. A stack of the row is the list of the
indices of its nodes. -/
namespace InterviewQuestions.FoldPaper

open Library Scanf LinkChain

variable {n : ℕ}

/-! ## The links of the nodes -/

def links (arr : Arr n) (node : Fin n) : Sym2 (Option (Fin n)) := s((arr node).up, (arr node).down)

theorem links_congr {arr arr' : Arr n} {node : Fin n} (h : arr' node = arr node) :
    links arr' node = links arr node := by
  unfold links
  rw [h]

def setLinks (arr : Arr n) (node : Fin n) (up down : Option (Fin n)) : Arr n :=
  Function.update arr node { arr node with up := up, down := down }

theorem update_same {γ : Type*} (f : ArrayNode n → γ) (arr : Arr n) (node : Fin n)
    (new : ArrayNode n) (h : f new = f (arr node)) (other : Fin n) :
    f (Function.update arr node new other) = f (arr other) := by
  by_cases heq : other = node
  · rw [heq, Function.update_self, h]
  · rw [Function.update_of_ne heq]

@[simp] theorem value_setLinks (arr : Arr n) (node other : Fin n) (up down : Option (Fin n)) :
    (setLinks arr node up down other).value = (arr other).value := by
  apply update_same ArrayNode.value
  rfl

theorem links_setLinks_self (arr : Arr n) (node : Fin n) (up down : Option (Fin n)) :
    links (setLinks arr node up down) node = s(up, down) := by
  unfold links setLinks
  rw [Function.update_self]

theorem setLinks_of_ne (arr : Arr n) {node other : Fin n} (up down : Option (Fin n))
    (hne : other ≠ node) : setLinks arr node up down other = arr other :=
  Function.update_of_ne hne _ arr

@[simp] theorem value_setTop (arr : Arr n) (node top other : Fin n) :
    (setTop arr node top other).value = (arr other).value := by
  apply update_same ArrayNode.value
  rfl

@[simp] theorem links_setTop (arr : Arr n) (node top other : Fin n) :
    links (setTop arr node top) other = links arr other := by
  apply update_same (fun record => s(record.up, record.down))
  rfl

theorem top_setTop_self (arr : Arr n) (node top : Fin n) :
    (setTop arr node top node).top = top := by
  unfold setTop
  rw [Function.update_self]

theorem setTop_of_ne (arr : Arr n) {node other : Fin n} (top : Fin n) (hne : other ≠ node) :
    setTop arr node top other = arr other :=
  Function.update_of_ne hne _ arr

/-- The free link of an end is found. -/
theorem link_eq {arr : Arr n} {node : Fin n} {inner : Option (Fin n)}
    (h : links arr node = s(none, inner)) (other : Fin n) :
    ∃ up down, link arr node other = some (setLinks arr node up down) ∧
      s(up, down) = s(some other, inner) := by
  unfold links at h
  unfold link
  by_cases hup : (arr node).up = none
  · rw [hup] at h
    have hdown : (arr node).down = inner := by
      cases Sym2.eq_iff.mp h with
      | inl hfirst => exact hfirst.2
      | inr hsecond => rw [hsecond.2, hsecond.1]
    exact ⟨some other, (arr node).down, if_pos hup, by rw [hdown]⟩
  · have hlinks : (arr node).up = inner ∧ (arr node).down = none := by
      cases Sym2.eq_iff.mp h with
      | inl hfirst => exact absurd hfirst.1 hup
      | inr hsecond => exact hsecond
    refine ⟨(arr node).up, some other, ?_, ?_⟩
    · rw [if_neg hup, if_pos hlinks.2]
      rfl
    · rw [hlinks.1, Sym2.eq_swap]

/-- What a merge does to the ends, `below` and `above`, of two stacks, and to nothing else. -/
structure Merged (arr arr' : Arr n) (below above : Fin n) (inBelow inAbove : Option (Fin n)) :
    Prop where
  value : ∀ node, (arr' node).value = (arr node).value
  links_below : links arr' below = s(some above, inBelow)
  links_above : links arr' above = s(some below, inAbove)
  other : ∀ node, node ≠ below → node ≠ above → arr' node = arr node

theorem mergeStacks_spec {arr : Arr n} {below above : Fin n} {inBelow inAbove : Option (Fin n)}
    (hne : below ≠ above) (hbelow : links arr below = s(none, inBelow))
    (habove : links arr above = s(none, inAbove)) :
    ∃ arr', mergeStacks arr below above = some arr' ∧
      Merged arr arr' below above inBelow inAbove := by
  obtain ⟨up, down, hlink, hbelow'⟩ := link_eq hbelow above
  rw [← links_congr (setLinks_of_ne arr up down hne.symm)] at habove
  obtain ⟨up', down', hlink', habove'⟩ := link_eq habove below
  refine ⟨setLinks (setLinks arr below up down) above up' down', ?_, ?_⟩
  · unfold mergeStacks
    rw [hlink, Option.bind_eq_bind, Option.bind_some]
    exact hlink'
  · constructor
    case value => simp
    case links_below =>
      rw [links_congr (setLinks_of_ne _ up' down' hne), links_setLinks_self]
      exact hbelow'
    case links_above =>
      rw [links_setLinks_self]
      exact habove'
    case other =>
      intro node hnode hnode'
      rw [setLinks_of_ne _ up' down' hnode', setLinks_of_ne _ up down hnode]

/-- A chain that begins with `above`, turned round, on one that begins with `below`. -/
theorem mergeStacks_chain {arr : Arr n} {below above : Fin n} {xs ys : List (Fin n)}
    (hxs : Chain (links arr) none (above :: xs) none)
    (hys : Chain (links arr) none (below :: ys) none)
    (hnodup : (above :: xs ++ below :: ys).Nodup) :
    ∃ arr', mergeStacks arr below above = some arr' ∧
      Merged arr arr' below above ys.head? xs.head? ∧
      Chain (links arr') none (put (above :: xs) (below :: ys)) none := by
  obtain ⟨hnodupx, hnodupy, hapart⟩ := List.nodup_append.mp hnodup
  have hne : below ≠ above :=
    (hapart above List.mem_cons_self below List.mem_cons_self).symm
  have hlinkx := hxs.1
  have hlinky := hys.1
  rw [Option.or_none] at hlinkx hlinky
  obtain ⟨arr', hmerge, hmerged⟩ := mergeStacks_spec hne hlinky hlinkx
  refine ⟨arr', hmerge, hmerged, ?_⟩
  apply chain_join hxs hys hmerged.links_above hmerged.links_below
  · intro node hnode
    apply links_congr
    apply hmerged.other
    · exact hapart node (List.mem_cons_of_mem above hnode) below List.mem_cons_self
    · exact ne_of_mem_of_not_mem hnode (List.nodup_cons.mp hnodupx).1
  · intro node hnode
    apply links_congr
    apply hmerged.other
    · exact ne_of_mem_of_not_mem hnode (List.nodup_cons.mp hnodupy).1
    · exact (hapart above List.mem_cons_self node (List.mem_cons_of_mem below hnode)).symm

/-! ## The stacks in the array -/

/-- Only the last node of a stack knows its top. -/
structure IsStack (arr : Arr n) (stack : List (Fin n)) : Prop where
  chain : Chain (links arr) none stack none
  top : ∀ base ∈ stack.getLast?, stack.head? = some (arr base).top

theorem IsStack.congr {arr arr' : Arr n} {stack : List (Fin n)} (h : IsStack arr stack)
    (hsame : ∀ node ∈ stack, arr' node = arr node) : IsStack arr' stack where
  chain := chain_congr h.chain fun node hnode => links_congr (hsame node hnode)
  top base hbase := by
    rw [hsame base (List.mem_of_getLast? hbase)]
    exact h.top base hbase

/-- What a merge with the change of a top that comes after it does to two stacks. -/
theorem IsStack.put {arr : Arr n} {folded other : List (Fin n)} {f o : Fin n}
    (hfolded : IsStack arr folded) (hother : IsStack arr other)
    (hnodup : (folded ++ other).Nodup) (hf : folded.getLast? = some f)
    (ho : other.getLast? = some o) :
    ∃ arr', mergeStacks arr (arr o).top (arr f).top = some arr' ∧
      IsStack (setTop arr' o f) (FoldPaper.put folded other) ∧
      (∀ node, (setTop arr' o f node).value = (arr node).value) ∧
      ∀ node, node ∉ folded ++ other → setTop arr' o f node = arr node := by
  obtain ⟨xs, hxs⟩ := List.head?_eq_some_iff.mp (hfolded.top f hf)
  obtain ⟨ys, hys⟩ := List.head?_eq_some_iff.mp (hother.top o ho)
  have hchainx := hfolded.chain
  have hchainy := hother.chain
  rw [hxs] at hchainx
  rw [hys] at hchainy
  rw [hxs, hys] at hnodup
  obtain ⟨arr', hmerge, hmerged, hchain⟩ := mergeStacks_chain hchainx hchainy hnodup
  rw [← hxs, ← hys] at hchain
  have htopf : (arr f).top ∈ folded ++ other := by
    rw [hxs]
    exact List.mem_append_left _ List.mem_cons_self
  have htopo : (arr o).top ∈ folded ++ other := by
    rw [hys]
    exact List.mem_append_right _ List.mem_cons_self
  have hbase : o ∈ folded ++ other := List.mem_append_right _ (List.mem_of_getLast? ho)
  refine ⟨arr', hmerge, ⟨?_, ?_⟩, ?_, ?_⟩
  · apply chain_congr hchain
    intro node _
    exact links_setTop arr' o f node
  · intro base hlast
    rw [FoldPaper.put, List.getLast?_append, ho, Option.some_or, Option.mem_def,
      Option.some.injEq] at hlast
    rw [← hlast, top_setTop_self, FoldPaper.put, List.head?_append, List.head?_reverse, hf,
      Option.some_or]
  · intro node
    rw [value_setTop, hmerged.value]
  · intro node hnode
    rw [setTop_of_ne arr' f (ne_of_mem_of_not_mem hbase hnode).symm]
    apply hmerged.other
    · exact (ne_of_mem_of_not_mem htopo hnode).symm
    · exact (ne_of_mem_of_not_mem htopf hnode).symm

/-- The array is made of the stacks of the row. -/
structure Represents (arr : Arr n) (row : List (List (Fin n))) : Prop where
  value : ∀ node, (arr node).value = node + 1
  isStack : ∀ stack ∈ row, IsStack arr stack
  nodup : row.flatten.Nodup

namespace Represents

variable {arr : Arr n} {row row' : List (List (Fin n))}

theorem perm (h : Represents arr row) (hperm : row.Perm row') : Represents arr row' where
  value := h.value
  isStack stack hstack := h.isStack stack (hperm.mem_iff.mpr hstack)
  nodup := hperm.flatten.nodup_iff.mp h.nodup

theorem put {folded other : List (Fin n)} {f o : Fin n}
    (h : Represents arr (folded :: other :: row)) (hf : folded.getLast? = some f)
    (ho : other.getLast? = some o) :
    ∃ arr', mergeStacks arr (arr o).top (arr f).top = some arr' ∧
      Represents (setTop arr' o f) (FoldPaper.put folded other :: row) := by
  have hnodup : (folded ++ other ++ row.flatten).Nodup := by
    rw [List.append_assoc]
    exact h.nodup
  obtain ⟨hboth, _, hapart⟩ := List.nodup_append.mp hnodup
  have hfolded := h.isStack folded List.mem_cons_self
  have hother := h.isStack other (List.mem_cons_of_mem folded List.mem_cons_self)
  obtain ⟨arr', hmerge, hput, hvalue, hsame⟩ := hfolded.put hother hboth hf ho
  refine ⟨arr', hmerge, ?_, ?_, ?_⟩
  · intro node
    rw [hvalue, h.value]
  · intro stack hstack
    cases List.mem_cons.mp hstack with
    | inl heq => exact heq ▸ hput
    | inr hrow =>
      have hold := h.isStack stack (List.mem_cons_of_mem folded (List.mem_cons_of_mem other hrow))
      apply hold.congr
      intro node hnode
      apply hsame
      intro hmem
      exact hapart node hmem node (List.mem_flatten_of_mem hrow hnode) rfl
  · rw [List.flatten_cons]
    exact ((put_perm folded other).append_right row.flatten).nodup_iff.mpr hnodup

end Represents

/-! ## The loops -/

def Side.char : Side → UInt8
  | .left => 76
  | .right => 82

/-- A stack of the left half and its mirror image in the right half. -/
def Side.put {α : Type*} : Side → List α → List α → List α
  | .left, first, second => FoldPaper.put first second
  | .right, first, second => FoldPaper.put second first

/-- The index of the node that a stack stands on. -/
def base (stack : List (Fin n)) : Option ℕ := stack.getLast?.map Fin.val

theorem nodeAt_base {stack : List (Fin n)} {j : ℕ} (h : base stack = some j) :
    ∃ node, stack.getLast? = some node ∧ nodeAt n j = some node := by
  obtain ⟨node, hnode, hj⟩ := Option.map_eq_some_iff.mp h
  refine ⟨node, hnode, ?_⟩
  unfold nodeAt
  rw [← hj, dif_pos node.isLt]

theorem base_put (above : List (Fin n)) {below : List (Fin n)} {j : ℕ} (h : base below = some j) :
    base (put above below) = some j := by
  obtain ⟨node, hnode, _⟩ := Option.map_eq_some_iff.mp h
  unfold base at h ⊢
  rw [put, List.getLast?_append, hnode, Option.some_or, ← hnode, h]

theorem map_base_zipWith_put {folded other : List (List (Fin n))} {bases : List ℕ}
    (hlength : folded.length = other.length) (hother : other.map base = bases.map some) :
    (List.zipWith put folded other).map base = bases.map some := by
  rw [← hother]
  induction folded generalizing other bases with
  | nil =>
    rw [List.length_eq_zero_iff.mp hlength.symm]
    rfl
  | cons above folded ih =>
    cases other with
    | nil => cases hlength
    | cons below other =>
      cases bases with
      | nil => cases hother
      | cons j bases =>
        obtain ⟨hbelow, hrest⟩ := List.cons.inj hother
        rw [List.zipWith_cons_cons, List.map_cons, List.map_cons, base_put above hbelow, hbelow,
          ih (Nat.succ.inj hlength) hrest]

section Loops

variable {arr : Arr n} {row : List (List (Fin n))}

theorem foldCell_spec (side : Side) {first second : List (Fin n)} {j k : ℕ}
    (h : Represents arr (first :: second :: row)) (hj : base first = some j)
    (hk : base second = some k) :
    ∃ arr', foldCell side.char (arr, k) j = some (arr', k - 1) ∧
      Represents arr' (side.put first second :: row) := by
  obtain ⟨left, hleft, hnodej⟩ := nodeAt_base hj
  obtain ⟨right, hright, hnodek⟩ := nodeAt_base hk
  simp only [foldCell, hnodej, hnodek, Option.bind_eq_bind, Option.bind_some]
  cases side with
  | left =>
    obtain ⟨arr', hmerge, hrow⟩ := h.put hleft hright
    rw [Side.char, if_pos rfl, hmerge]
    exact ⟨setTop arr' right left, rfl, hrow⟩
  | right =>
    obtain ⟨arr', hmerge, hrow⟩ := (h.perm (List.Perm.swap _ _ _)).put hright hleft
    rw [Side.char, if_neg (by decide), if_pos rfl, hmerge]
    exact ⟨setTop arr' left right, rfl, hrow⟩

/-- The inner loop, from the outer ends `j` and `k` of the two halves inwards. -/
theorem foldCells_spec (side : Side) {count j k start : ℕ} {firsts seconds : List (List (Fin n))}
    (h : Represents arr (firsts ++ (seconds ++ row)))
    (hfirsts : firsts.map base = (List.range' j count).map some)
    (hseconds : seconds.map base = ((List.range' start count).map some).reverse)
    (hk : k = start + count - 1) :
    ∃ arr' k', (List.range' j count).foldlM (foldCell side.char) (arr, k) = some (arr', k') ∧
      Represents arr' (List.zipWith side.put firsts seconds ++ row) := by
  induction count generalizing arr row j k firsts seconds with
  | zero =>
    have hnil : firsts = [] := List.map_eq_nil_iff.mp hfirsts
    have hnil' : seconds = [] := List.map_eq_nil_iff.mp hseconds
    rw [hnil, hnil'] at h ⊢
    exact ⟨arr, k, rfl, h⟩
  | succ count ih =>
    rw [List.range'_succ, List.map_cons] at hfirsts
    rw [List.range'_1_concat, List.map_append, List.reverse_append] at hseconds
    obtain ⟨first, firsts, rfl, hfirst, hfirsts⟩ := List.map_eq_cons_iff.mp hfirsts
    obtain ⟨second, seconds, rfl, hsecond, hseconds⟩ := List.map_eq_cons_iff.mp hseconds
    have hbefore : (first :: firsts ++ (second :: seconds ++ row)).Perm
        (first :: second :: (firsts ++ (seconds ++ row))) := List.perm_middle.cons first
    have hk' : k = start + count := by omega
    rw [← hk'] at hsecond
    obtain ⟨arr', hcell, hput⟩ := foldCell_spec side (h.perm hbefore) hfirst hsecond
    have hafter : (side.put first second :: (firsts ++ (seconds ++ row))).Perm
        (firsts ++ (seconds ++ side.put first second :: row)) :=
      List.perm_middle.symm.trans (List.perm_middle.symm.append_left firsts)
    obtain ⟨arr'', k', hloop, hrow⟩ :=
      ih (hput.perm hafter) hfirsts hseconds (show k - 1 = start + count - 1 by omega)
    refine ⟨arr'', k', ?_, hrow.perm List.perm_middle⟩
    rw [List.range'_succ, List.foldlM_cons, hcell]
    exact hloop

end Loops

/-- The window of the array, and the row with it. -/
structure Shows (s : State n) (row : List (List (Fin n))) : Prop where
  represents : Represents s.arr row
  bases : row.map base = (List.range' s.beg s.arrSz).map some

namespace Shows

variable {s : State n} {row : List (List (Fin n))} {half : ℕ}

theorem length (h : Shows s row) : row.length = s.arrSz := by
  have hlength := congrArg List.length h.bases
  rwa [List.length_map, List.length_map, List.length_range'] at hlength

theorem take (h : Shows s row) (hhalf : s.arrSz = half + half) :
    (row.take half).map base = (List.range' s.beg half).map some := by
  rw [List.map_take, h.bases, ← List.map_take, List.take_range'_of_length_ge (by omega)]

theorem drop (h : Shows s row) (hhalf : s.arrSz = half + half) :
    (row.drop half).map base = (List.range' (s.beg + half) half).map some := by
  rw [List.map_drop, h.bases, ← List.map_drop, List.drop_range', hhalf, Nat.mul_one,
    Nat.add_sub_cancel]

theorem length_halves (h : Shows s row) (hhalf : s.arrSz = half + half) :
    (row.take half).length = (row.drop half).length := by
  rw [List.length_take, List.length_drop, h.length]
  omega

/-- What the inner loop leaves is the folded row, from the middle outwards or inwards. -/
theorem zipWith_put_perm (h : Shows s row) (hhalf : s.arrSz = half + half) (side : Side) :
    (List.zipWith side.put (row.take half) (row.drop half).reverse).Perm (foldStacks row side) := by
  have hlength := h.length_halves hhalf
  have hrow : row.length / 2 = half := by
    rw [h.length]
    omega
  cases side with
  | left =>
    have hreverse := List.reverse_zipWith (f := FoldPaper.put)
      (show (row.take half).length = (row.drop half).reverse.length by
        rwa [List.length_reverse])
    rw [List.reverse_reverse] at hreverse
    rw [foldStacks, hrow, onto, ← hreverse]
    exact (List.reverse_perm _).symm
  | right =>
    rw [foldStacks, hrow, onto, List.zipWith_comm]
    rfl

theorem bases_foldStacks (h : Shows s row) (hhalf : s.arrSz = half + half) (side : Side) :
    (foldStacks row side).map base =
      (List.range' (if side.char = 76 then s.beg + half else s.beg) half).map some := by
  have hlength := h.length_halves hhalf
  have hrow : row.length / 2 = half := by
    rw [h.length]
    omega
  cases side with
  | left =>
    rw [foldStacks, hrow, Side.char, if_pos rfl]
    apply map_base_zipWith_put
    · rwa [List.length_reverse]
    · exact h.drop hhalf
  | right =>
    rw [foldStacks, hrow, Side.char, if_neg (by decide)]
    apply map_base_zipWith_put
    · rw [List.length_reverse, hlength]
    · exact h.take hhalf

theorem foldOnce (h : Shows s row) (hhalf : s.arrSz = half + half) (side : Side) :
    ∃ s', FoldPaper.foldOnce s side.char = some s' ∧ Shows s' (foldStacks row side) ∧
      s'.arrSz = half := by
  have hdiv : s.arrSz / 2 = half := by omega
  have hrow : row.Perm (row.take half ++ ((row.drop half).reverse ++ [])) := by
    rw [List.append_nil]
    apply (List.Perm.of_eq (List.take_append_drop half row).symm).trans
    exact (List.reverse_perm _).symm.append_left _
  have hseconds : ((row.drop half).reverse).map base =
      ((List.range' (s.beg + half) half).map some).reverse := by
    rw [List.map_reverse, h.drop hhalf]
  have hk : s.beg + s.arrSz - 1 = s.beg + half + half - 1 := by rw [hhalf, Nat.add_assoc]
  obtain ⟨arr', k', hloop, hput⟩ :=
    foldCells_spec side (h.represents.perm hrow) (h.take hhalf) hseconds hk
  rw [List.append_nil] at hput
  refine ⟨⟨arr', if side.char = 76 then s.beg + half else s.beg, half⟩, ?_, ⟨?_, ?_⟩, rfl⟩
  · unfold FoldPaper.foldOnce
    rw [hdiv, hloop]
    rfl
  · exact hput.perm (h.zipWith_put_perm hhalf side)
  · exact h.bases_foldStacks hhalf side

theorem foldAll (sides : List Side) (h : Shows s row) (hsize : s.arrSz = 2 ^ sides.length) :
    ∃ s', (sides.map Side.char).foldlM FoldPaper.foldOnce s = some s' ∧
      Shows s' (FoldPaper.foldAll sides row) ∧ s'.arrSz = 1 := by
  induction sides generalizing s row with
  | nil => exact ⟨s, rfl, h, hsize⟩
  | cons side sides ih =>
    rw [List.length_cons, Nat.pow_succ, Nat.mul_two] at hsize
    obtain ⟨s', honce, hshows, hhalf⟩ := h.foldOnce hsize side
    obtain ⟨s'', hrest, hlast⟩ := ih hshows hhalf
    refine ⟨s'', ?_, hlast⟩
    rw [List.map_cons, List.foldlM_cons, honce]
    exact hrest

end Shows

/-! ## The walk -/

theorem walk_succ (arr : Arr n) (len : ℕ) (prev : Option (Fin n)) (node : Fin n) :
    walk arr (len + 1) prev (some node) =
      (walk arr len (some node) (onward (arr node).up (arr node).down prev)).bind fun printed =>
        some (printInt (arr node).value ++ 32 :: printed) :=
  rfl

theorem walk_eq {arr : Arr n} {before : Option (Fin n)} {stack : List (Fin n)}
    (hchain : Chain (links arr) before stack none) (hnodup : (before.toList ++ stack).Nodup) :
    walk arr stack.length before stack.head? =
      some (stack.flatMap fun node => printInt (arr node).value ++ [32]) := by
  induction stack generalizing before with
  | nil => rfl
  | cons node stack ih =>
    have hrest : ((some node).toList ++ stack).Nodup := hnodup.of_append_right
    have hnext : walk arr stack.length (some node)
        (onward (arr node).up (arr node).down before) =
          walk arr stack.length (some node) stack.head? := by
      cases stack with
      | nil => rfl
      | cons next stack =>
        have hne : before ≠ some next := by
          rintro rfl
          have hmem : next ∈ node :: next :: stack := List.mem_cons_of_mem node List.mem_cons_self
          exact (List.nodup_cons.mp hnodup).1 hmem
        rw [onward_eq hchain.1 hne]
        rfl
    rw [List.length_cons, List.head?_cons, walk_succ, hnext, ih hchain.2 hrest, List.flatMap_cons,
      List.append_assoc]
    rfl

/-- What is printed of the numbers of a stack. -/
def text (stack : List ℤ) : List UInt8 :=
  (stack.flatMap fun value => printInt value ++ [32]) ++ [10]

/-- The last stack, read from its top. -/
theorem Shows.walk {s : State n} {stack : List (Fin n)} (h : Shows s [stack])
    (hsize : s.arrSz = 1) :
    ∃ node, nodeAt n s.beg = some node ∧
      FoldPaper.walk s.arr stack.length none (some (s.arr node).top) =
        some ((stack.map fun (node : Fin n) => (node : ℤ) + 1).flatMap
          fun value => printInt value ++ [32]) := by
  have hbases := h.bases
  rw [hsize, List.map_singleton, List.range'_one, List.map_singleton, List.singleton_inj] at hbases
  obtain ⟨node, hlast, hnode⟩ := nodeAt_base hbases
  have hstack := h.represents.isStack stack (List.mem_singleton_self stack)
  have hnodup := h.represents.nodup
  rw [List.flatten_singleton] at hnodup
  refine ⟨node, hnode, ?_⟩
  rw [← hstack.top node hlast, walk_eq hstack.chain hnodup, List.flatMap_map]
  simp only [h.represents.value]

/-! ## All folds -/

/-- Before the first fold every node is a stack. -/
def singles (n : ℕ) : List (List (Fin n)) := (List.finRange n).map fun node => [node]

theorem singles_flatten (n : ℕ) : (singles n).flatten = List.finRange n := by
  unfold singles
  rw [← List.flatMap_def, List.flatMap_singleton']

theorem shows_singles (n : ℕ) : Shows ⟨values n, 0, n⟩ (singles n) := by
  constructor
  case represents =>
    refine ⟨fun node => rfl, ?_, ?_⟩
    · intro stack hstack
      obtain ⟨node, _, rfl⟩ := List.mem_map.mp hstack
      refine ⟨⟨rfl, trivial⟩, ?_⟩
      intro base hbase
      rw [List.getLast?_singleton, Option.mem_def, Option.some.injEq] at hbase
      rw [← hbase]
      rfl
    · rw [singles_flatten]
      exact List.nodup_finRange n
  case bases =>
    unfold singles
    rw [← List.range_eq_range', ← List.map_coe_finRange_eq_range, List.map_map, List.map_map]
    rfl

theorem singles_map (n : ℕ) :
    (singles n).map (List.map fun (node : Fin n) => (node : ℤ) + 1) = paper n := by
  unfold singles paper
  rw [List.map_map, ← List.map_coe_finRange_eq_range, List.map_map]
  rfl

/-- The fold prints what the row of stacks comes to: every number of the paper once. -/
theorem fold_paper (sides : List Side) (h : sides.length < 31) :
    ∃ stack, foldAll sides (paper (2 ^ sides.length)) = [stack] ∧
      stack.Perm ((List.range (2 ^ sides.length)).map fun (i : ℕ) => (i : ℤ) + 1) ∧
      fold (values (2 ^ sides.length)) (sides.map Side.char) = some (text stack) := by
  have hlength : (singles (2 ^ sides.length)).length = 2 ^ sides.length := by
    rw [singles, List.length_map, List.length_finRange]
  obtain ⟨stack, hsingle, hperm⟩ := foldAll_single sides (singles (2 ^ sides.length)) hlength
  rw [singles_flatten] at hperm
  obtain ⟨s, hloop, hshows, hsize⟩ := (shows_singles (2 ^ sides.length)).foldAll sides rfl
  rw [hsingle] at hshows
  obtain ⟨node, hnode, hwalk⟩ := hshows.walk hsize
  rw [hperm.length_eq, List.length_finRange] at hwalk
  refine ⟨stack.map fun (node : Fin _) => (node : ℤ) + 1, ?_, ?_, ?_⟩
  · rw [← singles_map, foldAll_map, hsingle]
    rfl
  · rw [← List.map_coe_finRange_eq_range, List.map_map]
    exact hperm.map _
  · unfold fold
    rw [List.length_map, shifted, if_pos h, Nat.one_shiftLeft, Option.bind_eq_bind,
      Option.bind_some, hloop, Option.bind_eq_bind, Option.bind_some, if_pos hsize, hnode,
      Option.bind_eq_bind, Option.bind_some, hwalk]
    rfl

/-- The example of the source. -/
theorem fold_paper_example :
    ∃ stack, foldAll [.left, .right, .left] (paper 8) = [stack] ∧
      stack.Perm ((List.range 8).map fun (i : ℕ) => (i : ℤ) + 1) ∧
      fold (values 8) [76, 82, 76] = some (text stack) :=
  fold_paper [.left, .right, .left] (by decide)

example : foldAll [.left, .right, .left] (paper 8) = [[5, 4, 1, 8, 7, 2, 3, 6]] := by decide

end InterviewQuestions.FoldPaper
