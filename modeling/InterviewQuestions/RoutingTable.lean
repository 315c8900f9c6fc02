import InterviewQuestions.Library.LongestMatch
import Mathlib.Data.Nat.Notation

/-! The routing table of `knowledge_based/networking/routing/rtable.c`: a binary
trie on address bits, walked with a one-bit mask. Node pointers are trees,
which the code never shares. -/
namespace InterviewQuestions.RoutingTable

abbrev Address := BitVec 32

/-- A `struct trie_node *`. -/
inductive TrieNode where
  | null
  | node (isEnd : Bool) (dest : Address) (child0 child1 : TrieNode)
deriving DecidableEq, Repr

/-- `static struct trie_node root` -/
def root : TrieNode := .node true (~~~0) .null .null

def setDeflGateway (ip : Address) : TrieNode → TrieNode
  | .null => .null
  | .node isEnd _ child0 child1 => .node isEnd ip child0 child1

/-- `!!(ip & curr_mask)` -/
def currVal (ip currMask : Address) : Bool := ip &&& currMask ≠ 0

namespace AddEntry

variable (ip maskLim dest : Address) (junk : ℕ → Address)

/-- The second loop, from a node it has just allocated: the rest of the path and
the assignments after the loop. The `dest` of an inner node is what the
allocator left there. -/
def grow : ℕ → Address → Option TrieNode
  | fuel, currMask =>
      if currMask = maskLim then some (.node true dest .null .null)
      else match fuel with
        | 0 => none
        | fuel + 1 =>
            (grow fuel (currMask >>> 1)).map fun child =>
              if currVal ip currMask then .node false (junk fuel) .null child
              else .node false (junk fuel) child .null

/-- The first loop, which follows the path while the children exist. At a child
that is `NULL` the second loop takes over. -/
def walk : TrieNode → Address → Option TrieNode
  | .null, currMask => grow ip maskLim dest junk 32 currMask
  | .node isEnd was child0 child1, currMask =>
      if currMask = maskLim then some (.node true dest child0 child1)
      else if currVal ip currMask then
        (walk child1 (currMask >>> 1)).map fun child => .node isEnd was child0 child
      else
        (walk child0 (currMask >>> 1)).map fun child => .node isEnd was child child1

end AddEntry

/-- `none` when the loops do not end. Allocations succeed. -/
def addEntry (ip : Address) (cidrVal : ℕ) (dest : Address) (junk : ℕ → Address)
    (table : TrieNode) : Option TrieNode :=
  let maskLim : Address := if cidrVal < 32 then (1 : Address) <<< (31 - cidrVal) else 0
  AddEntry.walk ip maskLim dest junk table ((1 : Address) <<< 31)

/-- The loop of `lookup`, from the child it is about to test; `lastWord` is the
destination of the last marked node. -/
def lookupLoop (ip : Address) : TrieNode → Address → Address → Address
  | .null, _, lastWord => lastWord
  | .node isEnd dest child0 child1, currMask, lastWord =>
      let lastWord := if isEnd then dest else lastWord
      if currVal ip currMask then lookupLoop ip child1 (currMask >>> 1) lastWord
      else lookupLoop ip child0 (currMask >>> 1) lastWord

def lookup (ip : Address) : TrieNode → Option Address
  | .null => none
  | .node _ dest child0 child1 =>
      let currMask := (1 : Address) <<< 31
      some (if currVal ip currMask then lookupLoop ip child1 (currMask >>> 1) dest
        else lookupLoop ip child0 (currMask >>> 1) dest)

inductive Op where
  | setDeflGateway (ip : Address)
  | addEntry (ip : Address) (cidrVal : Fin 33) (dest : Address) (junk : ℕ → Address)

def step (table : TrieNode) : Op → Option TrieNode
  | .setDeflGateway ip => some (setDeflGateway ip table)
  | .addEntry ip cidrVal dest junk => addEntry ip cidrVal dest junk table

end InterviewQuestions.RoutingTable

/-! Lookups in the trie are longest-prefix matches over the entries given so far. -/
namespace InterviewQuestions.RoutingTable

open Library.LongestMatch

/-! ## Masks and paths -/

/-- The value of `curr_mask` at depth `d` of a walk. -/
def maskAt (d : ℕ) : Address := ((1 : Address) <<< 31) >>> d

@[simp] theorem maskAt_shift (d : ℕ) : maskAt d >>> 1 = maskAt (d + 1) := by
  unfold maskAt
  rw [← BitVec.shiftRight_add]

private theorem maskAt_of_lt {d : ℕ} (hd : d < 32) : maskAt d = BitVec.twoPow 32 (31 - d) := by
  have h : ∀ d : Fin 32, maskAt d = BitVec.twoPow 32 (31 - d) := by decide +kernel
  exact h ⟨d, hd⟩

private theorem maskAt_of_le {d : ℕ} (hd : 32 ≤ d) : maskAt d = 0 := by
  unfold maskAt
  exact BitVec.ushiftRight_eq_zero hd

@[simp] theorem currVal_maskAt (ip : Address) (d : ℕ) :
    currVal ip (maskAt d) = ip.getMsbD d := by
  unfold currVal
  by_cases hd : d < 32
  · have hne : ∀ d : Fin 32, BitVec.twoPow 32 (31 - d) ≠ 0 := by decide +kernel
    rw [maskAt_of_lt hd, BitVec.and_twoPow, BitVec.getMsbD_eq_getLsbD]
    cases h : ip.getLsbD (31 - d)
    · simp
    · simpa [hd, h] using hne ⟨d, hd⟩
  · rw [maskAt_of_le (Nat.le_of_not_lt hd), BitVec.getMsbD_eq_getLsbD]
    simp [hd]

/-- `add_entry` stops at the mask of depth `cidr_val`, also for the special values 0 and 32. -/
theorem maskLim_eq {n : ℕ} (hn : n ≤ 32) :
    (if n < 32 then (1 : Address) <<< (31 - n) else 0) = maskAt n := by
  have h : ∀ n : Fin 33, (if (n : ℕ) < 32 then (1 : Address) <<< (31 - (n : ℕ)) else 0) =
      maskAt n := by decide +kernel
  exact h ⟨n, by omega⟩

theorem maskAt_inj {d n : ℕ} (hd : d ≤ 32) (hn : n ≤ 32) : maskAt d = maskAt n ↔ d = n := by
  have h : ∀ d n : Fin 33, maskAt d = maskAt n → d = n := by decide +kernel
  constructor
  · intro heq
    exact congrArg Fin.val (h ⟨d, by omega⟩ ⟨n, by omega⟩ heq)
  · rintro rfl
    rfl

/-- `n` address bits from depth `d` on, the most significant first. -/
def bits (ip : Address) : ℕ → ℕ → List Bool
  | _, 0 => []
  | d, n + 1 => ip.getMsbD d :: bits ip (d + 1) n

@[simp] theorem length_bits (ip : Address) (d n : ℕ) : (bits ip d n).length = n := by
  induction n generalizing d with
  | zero => rfl
  | succ n ih => simp [bits, ih]

theorem bits_isPrefix (ip : Address) (d : ℕ) {n m : ℕ} (h : n ≤ m) :
    bits ip d n <+: bits ip d m := by
  induction n generalizing d m with
  | zero => exact List.nil_prefix
  | succ n ih =>
    cases m with
    | zero => omega
    | succ m => exact List.cons_prefix_cons.mpr ⟨rfl, ih (d + 1) (by omega)⟩

theorem bits_eq_iff (ip a : Address) (d n : ℕ) :
    bits ip d n = bits a d n ↔ ∀ i < n, ip.getMsbD (d + i) = a.getMsbD (d + i) := by
  induction n generalizing d with
  | zero => simp [bits]
  | succ n ih =>
    simp only [bits, List.cons.injEq, ih]
    constructor
    · rintro ⟨hfirst, hrest⟩ i hi
      cases i with
      | zero => exact hfirst
      | succ i => simpa [Nat.add_assoc, Nat.add_comm 1] using hrest i (by omega)
    · intro h
      refine ⟨h 0 (by omega), fun i hi => ?_⟩
      simpa [Nat.add_assoc, Nat.add_comm 1] using h (i + 1) (by omega)

/-! ## What a trie stores -/

/-- The destination of the marked node at the end of a path. -/
def destAt : TrieNode → List Bool → Option Address
  | .null, _ => none
  | .node isEnd dest _ _, [] => if isEnd then some dest else none
  | .node _ _ child0 child1, b :: p => destAt (if b then child1 else child0) p

@[simp] theorem destAt_null (p : List Bool) : destAt .null p = none := by
  unfold destAt
  rfl

theorem grow_spec (ip dest : Address) (junk : ℕ → Address) {n : ℕ} (hn : n ≤ 32) {d fuel : ℕ}
    (hd : d ≤ n) (hfuel : n - d ≤ fuel) :
    ∃ t, AddEntry.grow ip (maskAt n) dest junk fuel (maskAt d) = some t ∧
      ∀ p, destAt t p = if p = bits ip d (n - d) then some dest else none := by
  induction fuel generalizing d with
  | zero =>
    obtain rfl : d = n := by omega
    refine ⟨.node true dest .null .null, by simp [AddEntry.grow], fun p => ?_⟩
    cases p <;> simp [destAt, bits]
  | succ fuel ih =>
    rw [AddEntry.grow]
    by_cases hstop : d = n
    · subst hstop
      refine ⟨.node true dest .null .null, by simp, fun p => ?_⟩
      cases p <;> simp [destAt, bits]
    · rw [if_neg (by rwa [maskAt_inj (hd.trans hn) hn]), currVal_maskAt, maskAt_shift]
      obtain ⟨child, hchild, hdest⟩ := ih (d := d + 1) (by omega) (by omega)
      rw [hchild]
      have hbits : bits ip d (n - d) = ip.getMsbD d :: bits ip (d + 1) (n - (d + 1)) := by
        rw [show n - d = n - (d + 1) + 1 by omega]
        rfl
      rw [hbits]
      cases hbit : ip.getMsbD d
      · refine ⟨.node false (junk fuel) child .null, by simp, fun p => ?_⟩
        rcases p with _ | ⟨b, p⟩
        · simp [destAt]
        · cases b <;> simp [destAt, hdest]
      · refine ⟨.node false (junk fuel) .null child, by simp, fun p => ?_⟩
        rcases p with _ | ⟨b, p⟩
        · simp [destAt]
        · cases b <;> simp [destAt, hdest]

theorem walk_spec (ip dest : Address) (junk : ℕ → Address) {n : ℕ} (hn : n ≤ 32) (t : TrieNode)
    {d : ℕ} (hd : d ≤ n) :
    ∃ t', AddEntry.walk ip (maskAt n) dest junk t (maskAt d) = some t' ∧
      ∀ p, destAt t' p = if p = bits ip d (n - d) then some dest else destAt t p := by
  induction t generalizing d with
  | null =>
    have hfuel : n - d ≤ 32 := by omega
    obtain ⟨t', hgrow, hdest⟩ := grow_spec ip dest junk hn hd hfuel
    exact ⟨t', hgrow, fun p => by simpa using hdest p⟩
  | node isEnd was child0 child1 ih0 ih1 =>
    rw [AddEntry.walk]
    by_cases hstop : d = n
    · subst hstop
      refine ⟨.node true dest child0 child1, by simp, fun p => ?_⟩
      cases p <;> simp [destAt, bits]
    · rw [if_neg (by rwa [maskAt_inj (hd.trans hn) hn]), currVal_maskAt, maskAt_shift]
      have hbits : bits ip d (n - d) = ip.getMsbD d :: bits ip (d + 1) (n - (d + 1)) := by
        rw [show n - d = n - (d + 1) + 1 by omega]
        rfl
      rw [hbits]
      cases hbit : ip.getMsbD d
      · obtain ⟨child, hchild, hdest⟩ := ih0 (d := d + 1) (by omega)
        refine ⟨.node isEnd was child child1, by simp [hchild], fun p => ?_⟩
        rcases p with _ | ⟨b, p⟩
        · simp [destAt]
        · cases b <;> simp [destAt, hdest]
      · obtain ⟨child, hchild, hdest⟩ := ih1 (d := d + 1) (by omega)
        refine ⟨.node isEnd was child0 child, by simp [hchild], fun p => ?_⟩
        rcases p with _ | ⟨b, p⟩
        · simp [destAt]
        · cases b <;> simp [destAt, hdest]

/-- One `add_entry` sets the destination of its own path and of no other. -/
theorem addEntry_spec (ip dest : Address) (junk : ℕ → Address) {n : ℕ} (hn : n ≤ 32)
    (table : TrieNode) :
    ∃ table', addEntry ip n dest junk table = some table' ∧
      ∀ p, destAt table' p = if p = bits ip 0 n then some dest else destAt table p := by
  unfold addEntry
  rw [maskLim_eq hn]
  exact walk_spec ip dest junk hn table (d := 0) (Nat.zero_le n)

/-- The default gateway is the destination of the empty path, once the root is marked. -/
theorem setDeflGateway_spec (ip : Address) {table : TrieNode} (hroot : (destAt table []).isSome)
    (p : List Bool) :
    destAt (setDeflGateway ip table) p = if p = [] then some ip else destAt table p := by
  cases table with
  | null => simp at hroot
  | node isEnd dest child0 child1 =>
    cases p with
    | nil => simpa [setDeflGateway, destAt] using hroot
    | cons b p => rfl

/-- `r` is the destination of the deepest marked node on the address's path below `t`, or
`lastWord` when no node there is marked. -/
def IsDeepest (a : Address) (t : TrieNode) (d : ℕ) (lastWord r : Address) : Prop :=
  (∃ n, destAt t (bits a d n) = some r ∧ ∀ m, (destAt t (bits a d m)).isSome → m ≤ n) ∨
  (r = lastWord ∧ ∀ m, destAt t (bits a d m) = none)

theorem IsDeepest.node {a dest lastWord r : Address} {isEnd : Bool} {child0 child1 : TrieNode}
    {d : ℕ} (h : IsDeepest a (if a.getMsbD d then child1 else child0) (d + 1)
      (if isEnd then dest else lastWord) r) :
    IsDeepest a (.node isEnd dest child0 child1) d lastWord r := by
  have hstep : ∀ n, destAt (.node isEnd dest child0 child1) (bits a d (n + 1)) =
      destAt (if a.getMsbD d then child1 else child0) (bits a (d + 1) n) := fun n => rfl
  rcases h with ⟨n, hdest, hmax⟩ | ⟨hlast, hnone⟩
  · refine Or.inl ⟨n + 1, hdest, fun m hm => ?_⟩
    cases m with
    | zero => exact Nat.zero_le _
    | succ m => exact Nat.succ_le_succ (hmax m (by rwa [← hstep]))
  · cases isEnd
    · refine Or.inr ⟨hlast, fun m => ?_⟩
      cases m with
      | zero => rfl
      | succ m => rw [hstep, hnone]
    · refine Or.inl ⟨0, by rw [hlast]; rfl, fun m hm => ?_⟩
      cases m with
      | zero => exact le_rfl
      | succ m =>
        rw [hstep, hnone] at hm
        exact absurd hm (by simp)

theorem lookupLoop_isDeepest (a : Address) (t : TrieNode) (d : ℕ) (lastWord : Address) :
    IsDeepest a t d lastWord (lookupLoop a t (maskAt d) lastWord) := by
  induction t generalizing d lastWord with
  | null => exact Or.inr ⟨rfl, fun m => destAt_null _⟩
  | node isEnd dest child0 child1 ih0 ih1 =>
    apply IsDeepest.node
    simp only [lookupLoop, currVal_maskAt, maskAt_shift]
    cases a.getMsbD d
    · exact ih0 (d + 1) _
    · exact ih1 (d + 1) _

/-- A lookup below a marked root finds the destination of the longest marked prefix. -/
theorem lookup_spec (a : Address) {table : TrieNode} (hroot : (destAt table []).isSome) :
    ∃ n dest, lookup a table = some dest ∧ destAt table (bits a 0 n) = some dest ∧
      ∀ m, (destAt table (bits a 0 m)).isSome → m ≤ n := by
  cases table with
  | null => simp at hroot
  | node isEnd dest child0 child1 =>
    have hmark : isEnd = true := by simpa [destAt] using hroot
    have hdeep : IsDeepest a (.node isEnd dest child0 child1) 0 dest
        (if a.getMsbD 0 then lookupLoop a child1 (maskAt 1) dest
          else lookupLoop a child0 (maskAt 1) dest) := by
      apply IsDeepest.node
      simp only [ite_self]
      cases a.getMsbD 0
      · exact lookupLoop_isDeepest a child0 1 dest
      · exact lookupLoop_isDeepest a child1 1 dest
    have hlookup : lookup a (.node isEnd dest child0 child1) =
        some (if a.getMsbD 0 then lookupLoop a child1 (maskAt 1) dest
          else lookupLoop a child0 (maskAt 1) dest) := by
      rw [← currVal_maskAt]
      rfl
    rcases hdeep with ⟨n, hdest, hmax⟩ | ⟨_, hnone⟩
    · exact ⟨n, _, hlookup, hdest, hmax⟩
    · rw [show ([] : List Bool) = bits a 0 0 from rfl, hnone 0] at hroot
      exact absurd hroot (by simp)

/-! ## Histories of entries -/

structure Entry where
  ip : Address
  len : ℕ
  dest : Address

def Entry.path (e : Entry) : List Bool := bits e.ip 0 e.len

/-- The `n` most significant bits of the entry and the address agree. -/
def Entry.Matches (e : Entry) (a : Address) : Prop :=
  ∀ i < e.len, e.ip.getMsbD i = a.getMsbD i

/-- What a call adds to the table; the default gateway is an entry of length 0. -/
def Op.entry : Op → Entry
  | .setDeflGateway ip => ⟨0, 0, ip⟩
  | .addEntry ip cidrVal dest _ => ⟨ip, cidrVal, dest⟩

/-- All entries so far, the initial one of length 0 first. -/
def history (ops : List Op) : List Entry := ⟨0, 0, ~~~0⟩ :: ops.map Op.entry

/-- The calls in order; `none` if one of them does not return. -/
def runOps (table : TrieNode) (ops : List Op) : Option TrieNode := ops.foldlM step table

theorem Entry.path_isPrefix {e : Entry} (hlen : e.len ≤ 32) (a : Address) :
    e.path <+: bits a 0 32 ↔ e.Matches a := by
  have hbits : e.path <+: bits a 0 32 ↔ e.path = bits a 0 e.len := by
    constructor
    · intro h
      have h' := bits_isPrefix a 0 hlen
      exact (List.prefix_of_prefix_length_le h h' (by simp [Entry.path])).eq_of_length
        (by simp [Entry.path])
    · intro h
      rw [h]
      exact bits_isPrefix a 0 hlen
  rw [hbits, Entry.path, bits_eq_iff]
  simp [Entry.Matches]

/-- The table stores, for every path, the destination last given for it. -/
def Stores (table : TrieNode) (entries : List Entry) : Prop :=
  ∀ p, destAt table p = (lastFor Entry.path entries p).map Entry.dest

theorem stores_root : Stores root (history []) := by
  intro p
  rcases p with _ | ⟨b, p⟩
  · rfl
  · have hpath : ∀ e ∈ history [], e.path ≠ b :: p := by
      intro e he
      rw [List.mem_singleton.mp he]
      exact (List.cons_ne_nil _ _).symm
    have hnone : lastFor Entry.path (history []) (b :: p) = none := by
      unfold lastFor
      simpa [history] using hpath
    rw [hnone]
    cases b <;> simp [root, destAt]

theorem Stores.step {table : TrieNode} {entries : List Entry} (h : Stores table entries)
    (hroot : (destAt table []).isSome) (op : Op) :
    ∃ table', step table op = some table' ∧ Stores table' (entries ++ [op.entry]) ∧
      (destAt table' []).isSome := by
  have hnext : ∀ table', (∀ p, destAt table' p =
      if p = op.entry.path then some op.entry.dest else destAt table p) →
      Stores table' (entries ++ [op.entry]) ∧ (destAt table' []).isSome := by
    intro table' htable
    constructor
    · intro p
      rw [htable, lastFor_append, h p]
      by_cases hp : op.entry.path = p
      · simp [hp]
      · simp [hp, Ne.symm hp]
    · rw [htable]
      split
      · rfl
      · exact hroot
  cases op with
  | setDeflGateway ip =>
    exact ⟨_, rfl, hnext _ fun p => setDeflGateway_spec ip hroot p⟩
  | addEntry ip cidrVal dest junk =>
    obtain ⟨table', hadd, htable⟩ :=
      addEntry_spec ip dest junk (Nat.lt_succ_iff.mp cidrVal.isLt) table
    exact ⟨table', hadd, hnext table' htable⟩

theorem runOps_stores (ops : List Op) :
    ∃ table, runOps root ops = some table ∧ Stores table (history ops) ∧
      (destAt table []).isSome := by
  suffices hrun : ∀ (ops : List Op) table entries, Stores table entries →
      (destAt table []).isSome → ∃ table', runOps table ops = some table' ∧
        Stores table' (entries ++ ops.map Op.entry) ∧ (destAt table' []).isSome from
    hrun ops root (history []) stores_root rfl
  intro ops
  induction ops with
  | nil =>
    intro table entries hstores hroot
    exact ⟨table, rfl, by simpa using hstores, hroot⟩
  | cons op ops ih =>
    intro table entries hstores hroot
    obtain ⟨table', hstep, hstores', hroot'⟩ := hstores.step hroot op
    obtain ⟨last, hlast, hstores'', hroot''⟩ := ih table' _ hstores' hroot'
    refine ⟨last, ?_, by simpa using hstores'', hroot''⟩
    simpa [runOps, hstep] using hlast

/-- After any calls on the initial table, `lookup` returns the destination of the entry
that longest-prefix matching selects: no matching entry is longer, and no later one is
as long. -/
theorem lookup_longest_match (ops : List Op) (a : Address) :
    ∃ table e, runOps root ops = some table ∧ lookup a table = some e.dest ∧
      Selects Entry.len (fun x => x.Matches a) (history ops) e := by
  obtain ⟨table, hrun, hstores, hroot⟩ := runOps_stores ops
  obtain ⟨n, dest, hlookup, hdest, hmax⟩ := lookup_spec a hroot
  rw [hstores, Option.map_eq_some_iff] at hdest
  obtain ⟨e, hlast, rfl⟩ := hdest
  have hlen : ∀ x ∈ history ops, x.len ≤ 32 := by
    intro x hx
    rcases List.mem_cons.mp hx with rfl | hx
    · exact Nat.zero_le _
    · obtain ⟨op, _, rfl⟩ := List.mem_map.mp hx
      cases op with
      | setDeflGateway ip => exact Nat.zero_le _
      | addEntry ip cidrVal dest junk => exact Nat.lt_succ_iff.mp cidrVal.isLt
  refine ⟨table, e, hrun, hlookup, ?_⟩
  have hpath := (lastFor_eq_some Entry.path hlast).1
  have hmem : e ∈ history ops := by
    obtain ⟨_, before, after, hsplit, _⟩ := lastFor_eq_some Entry.path hlast
    rw [hsplit]
    simp
  have hn : n ≤ 32 := by
    have := congrArg List.length hpath
    rw [length_bits, Entry.path, length_bits] at this
    exact this ▸ hlen e hmem
  have hselect := selects_of_lastFor Entry.path hlast (bits_isPrefix a 0 hn) (fun q hq hsome => by
    have hqbits : q = bits a 0 q.length := by
      have hle : q.length ≤ 32 := by simpa using hq.length_le
      exact (List.prefix_of_prefix_length_le hq (bits_isPrefix a 0 hle) (by simp)).eq_of_length
        (by simp)
    rw [length_bits]
    apply hmax
    rw [← hqbits, hstores]
    simpa using hsome)
  obtain ⟨hcover, before, after, hsplit, hbefore, hafter⟩ := hselect
  have hmatch : ∀ x ∈ history ops, (x.path <+: bits a 0 32 ↔ x.Matches a) := fun x hx =>
    Entry.path_isPrefix (hlen x hx) a
  have hlenPath : ∀ x : Entry, x.path.length = x.len := fun x => length_bits _ _ _
  simp only [hlenPath] at hbefore hafter
  refine ⟨(hmatch e hmem).mp hcover, before, after, hsplit, ?_, ?_⟩
  · intro x hx hxa
    exact hbefore x hx ((hmatch x (by simp [hsplit, hx])).mpr hxa)
  · intro x hx hxa
    exact hafter x hx ((hmatch x (by simp [hsplit, hx])).mpr hxa)

end InterviewQuestions.RoutingTable
