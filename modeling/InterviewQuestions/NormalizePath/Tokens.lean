import InterviewQuestions.Library.CString
import InterviewQuestions.Library.Components

/-! `normalize_path` of `arrays_strings/normalize_path/solution.c`. The path is an array of
characters that is read and written by index, with a `NUL` at the end of the string. -/
namespace InterviewQuestions.NormalizePath

open Library

inductive Errno where
  | ENOMEM
  | EINVAL
deriving DecidableEq

/-- `struct stack_node` -/
structure StackNode where
  begin : ℕ
  len : ℕ
deriving DecidableEq

def sizeofStackNode : ℕ := 16

/-- `path[i]` -/
def char (path : List UInt8) (i : ℕ) : UInt8 := path.getD i 0

def nextToken (path : List UInt8) (currI : ℕ) : ℕ :=
  let i := currI + ((path.drop currI).takeWhile fun c => c ≠ 0 ∧ c ≠ 47).length
  if char path i = 0 then i else i + 1

/-- `!strcmp(&path[i], token)` -/
def tokenIs (path : List UInt8) (i : ℕ) (token : List UInt8) : Bool :=
  (CString.ofBuffer (path.drop i)).bytes = token

/-- The loop over the tokens. The last node pushed comes first; none are returned when a `..`
finds the stack empty. -/
def pushTokens : ℕ → List UInt8 → List StackNode → ℕ → List UInt8 × Option (List StackNode)
  | 0, path, stack, _ => (path, some stack)
  | fuel + 1, path, stack, i =>
      if char path i = 0 then (path, some stack)
      else
        let j := nextToken path i
        let tmp := char path j
        let cut := path.set j 0
        if tokenIs cut i [46, 46, 47] || tokenIs cut i [46, 46] then
          match stack with
          | [] => (cut.set j tmp, none)
          | _ :: below => pushTokens fuel (cut.set j tmp) below j
        else if !tokenIs cut i [46, 47] && !tokenIs cut i [46] then
          pushTokens fuel (cut.set j tmp) (⟨i, j - i⟩ :: stack) j
        else pushTokens fuel (cut.set j tmp) stack j

/-- The values of `st_top` at which the loop over the tokens stores one. -/
def storedTokens : ℕ → List UInt8 → List StackNode → ℕ → List ℕ
  | 0, _, _, _ => []
  | fuel + 1, path, stack, i =>
      if char path i = 0 then []
      else
        let j := nextToken path i
        let tmp := char path j
        let cut := path.set j 0
        if tokenIs cut i [46, 46, 47] || tokenIs cut i [46, 46] then
          match stack with
          | [] => []
          | _ :: below => storedTokens fuel (cut.set j tmp) below j
        else if !tokenIs cut i [46, 47] && !tokenIs cut i [46] then
          stack.length :: storedTokens fuel (cut.set j tmp) (⟨i, j - i⟩ :: stack) j
        else storedTokens fuel (cut.set j tmp) stack j

/-- `strncpy(&path[dest], &path[src], n)`, byte by byte from the front. -/
def strncpy (path : List UInt8) (dest src : ℕ) : ℕ → List UInt8
  | 0 => path
  | n + 1 =>
      if char path src = 0 then
        (List.range (n + 1)).foldl (fun path k => path.set (dest + k) 0) path
      else strncpy (path.set dest (char path src)) (dest + 1) (src + 1) n

/-- The second loop, over the nodes from the bottom of the stack, and `j` after it. -/
def compact (path : List UInt8) (j : ℕ) : List StackNode → List UInt8 × ℕ
  | [] => (path, j)
  | node :: nodes => compact (strncpy path j node.begin node.len) (j + node.len) nodes

/-- The number of nodes that the stack has room for. -/
def stackSz (path : List UInt8) : ℕ := ((CString.ofBuffer path).length - 1) / 2 + 1

/-- The result 0, or -1 with `errno`, and the path afterwards. -/
def normalizePath (malloc : ℕ → Bool) (path : List UInt8) : Except Errno Unit × List UInt8 :=
  if char path 0 = 0 then (.ok (), path)
  else if malloc (sizeofStackNode * stackSz path) then
    match pushTokens path.length path [] 0 with
    | (path, none) => (.error .EINVAL, path)
    | (path, some stack) =>
        let (path, j) := compact path 0 stack.reverse
        (.ok (), path.set j 0)
  else (.error .ENOMEM, path)

/-- The indices into `stack` at which `normalize_path` stores a token. -/
def storedIndices (malloc : ℕ → Bool) (path : List UInt8) : List ℕ :=
  if char path 0 = 0 then []
  else if malloc (sizeofStackNode * stackSz path) then storedTokens path.length path [] 0
  else []

/-! The first loop of `normalize_path` finds the components of the path one by one, and keeps
on its stack the places of those that are left. -/

open Library Library.Component

theorem char_append (front : List UInt8) (b : UInt8) (back : List UInt8) :
    char (front ++ b :: back) front.length = b := by
  simp [char]

theorem set_append_cons (front : List UInt8) (b c : UInt8) (back : List UInt8) :
    (front ++ b :: back).set front.length c = front ++ c :: back := by
  simp

/-- The characters of a token that the loop of `next_token` passes over. -/
theorem takeWhile_name {name : List UInt8} (hname : 47 ∉ name) (hnul : 0 ∉ name) {b : UInt8}
    (hb : b = 0 ∨ b = 47) (back : List UInt8) :
    (name ++ b :: back).takeWhile (fun c => c ≠ 0 ∧ c ≠ 47) = name := by
  rw [List.takeWhile_append_of_pos]
  · cases hb with
    | inl hzero => simp [hzero]
    | inr hslash => simp [hslash]
  · intro c hc
    rw [decide_eq_true_eq]
    constructor
    · intro hzero
      exact hnul (hzero ▸ hc)
    · intro hslash
      exact hname (hslash ▸ hc)

/-- A token ends behind the next `/` or at the end of the string. -/
theorem nextToken_append (before : List UInt8) {c : Component} {cs : List Component}
    (h : WellCut (c :: cs)) (hnul : 0 ∉ join (c :: cs)) (rest : List UInt8) :
    nextToken (before ++ (join (c :: cs) ++ 0 :: rest)) before.length =
      before.length + c.text.length := by
  have hname := (h.names c List.mem_cons_self).1
  have hnul' : 0 ∉ c.name := fun hmem => hnul (by simp [text, hmem])
  cases hslash : c.slash with
  | true =>
    have hsplit : join (c :: cs) ++ 0 :: rest = c.name ++ 47 :: (join cs ++ 0 :: rest) := by
      simp [text_of_slash hslash]
    have hchar : char (before ++ (c.name ++ 47 :: (join cs ++ 0 :: rest)))
        (before.length + c.name.length) = 47 := by
      rw [← List.append_assoc, ← List.length_append, char_append]
    rw [hsplit, nextToken, List.drop_left, takeWhile_name hname hnul' (Or.inr rfl), hchar,
      text_of_slash hslash, List.length_append]
    rfl
  | false =>
    have hsplit : join (c :: cs) ++ 0 :: rest = c.name ++ 0 :: rest := by
      simp [text_of_not_slash hslash, (h.last hslash).1]
    have hchar : char (before ++ (c.name ++ 0 :: rest)) (before.length + c.name.length) = 0 := by
      rw [← List.append_assoc, ← List.length_append, char_append]
    rw [hsplit, nextToken, List.drop_left, takeWhile_name hname hnul' (Or.inl rfl), hchar,
      text_of_not_slash hslash]
    rfl

/-- While the character behind it is overwritten, the token is a string of its own. -/
theorem tokenIs_append (before : List UInt8) {token : List UInt8} (hnul : 0 ∉ token)
    (back other : List UInt8) :
    tokenIs (before ++ token ++ 0 :: back) before.length other = decide (token = other) := by
  rw [tokenIs, List.append_assoc, List.drop_left, CString.bytes_ofBuffer hnul]

/-- A token is compared with `..` with and without its `/`. -/
theorem text_eq {c : Component} (hname : 47 ∉ c.name) (name : List UInt8) (hother : 47 ∉ name) :
    (decide (c.text = name ++ [47]) || decide (c.text = name)) = decide (c.name = name) := by
  cases hslash : c.slash with
  | true =>
    have hne : c.name ++ [47] ≠ name := by
      intro heq
      exact hother (by rw [← heq]; simp)
    rw [text_of_slash hslash]
    simp [hne]
  | false =>
    have hne : c.name ≠ name ++ [47] := by
      intro heq
      exact hname (by rw [heq]; simp)
    rw [text_of_not_slash hslash]
    simp [hne]

theorem text_ne_nil {c : Component} {cs : List Component} (h : WellCut (c :: cs)) :
    c.text ≠ [] := by
  cases hslash : c.slash with
  | true => simp [text_of_slash hslash]
  | false =>
    rw [text_of_not_slash hslash]
    exact (h.last hslash).2

/-- A token does not begin with the end of the string. -/
theorem char_text (before : List UInt8) {token : List UInt8} (hne : token ≠ []) (hnul : 0 ∉ token)
    (back : List UInt8) : char (before ++ token ++ back) before.length ≠ 0 := by
  cases token with
  | nil => exact absurd rfl hne
  | cons d token =>
    rw [List.append_assoc, List.cons_append, char_append]
    rintro rfl
    exact hnul List.mem_cons_self

/-! ## The stack -/

/-- The characters of a token. -/
def slice (path : List UInt8) (node : StackNode) : List UInt8 :=
  (path.drop node.begin).take node.len

/-- The nodes on the stack are the places of these components, one before the other and all
before `i`. -/
structure Stacked (path : List UInt8) (i : ℕ) (cs : List Component) (nodes : List StackNode) :
    Prop where
  texts : nodes.map (slice path) = cs.map text
  below : ∀ node ∈ nodes, node.begin + node.len ≤ i
  ordered : nodes.Pairwise fun later earlier => earlier.begin + earlier.len ≤ later.begin

theorem stacked_nil (path : List UInt8) : Stacked path 0 [] [] :=
  ⟨rfl, fun _ h => absurd h List.not_mem_nil, List.Pairwise.nil⟩

variable {path : List UInt8} {i j : ℕ} {cs : List Component} {nodes : List StackNode}

theorem Stacked.mono (h : Stacked path i cs nodes) (hij : i ≤ j) : Stacked path j cs nodes :=
  ⟨h.texts, fun node hnode => (h.below node hnode).trans hij, h.ordered⟩

/-- A component on the stack is one node. -/
theorem Stacked.pop {c : Component} (h : Stacked path i (c :: cs) nodes) :
    ∃ node below, nodes = node :: below ∧ Stacked path i cs below := by
  have htexts := h.texts
  cases nodes with
  | nil => cases htexts
  | cons node below =>
    exists node, below
    constructor
    · rfl
    constructor
    · exact (List.cons.inj htexts).2
    · exact fun other hother => h.below other (List.mem_cons_of_mem node hother)
    · exact (List.pairwise_cons.mp h.ordered).2

theorem Stacked.push (h : Stacked path i cs nodes) {c : Component} {len : ℕ}
    (htext : slice path ⟨i, len⟩ = c.text) :
    Stacked path (i + len) (c :: cs) (⟨i, len⟩ :: nodes) := by
  constructor
  · rw [List.map_cons, List.map_cons, htext, h.texts]
  · rw [List.forall_mem_cons]
    exact ⟨Nat.le_refl _, fun node hnode => (h.below node hnode).trans (Nat.le_add_right i len)⟩
  · exact List.pairwise_cons.mpr ⟨h.below, h.ordered⟩

/-- The outcome of the loop for a stack of components, or none. -/
def Outcome (path : List UInt8) (i : ℕ) : Option (List Component) → Option (List StackNode) → Prop
  | none, nodes => nodes = none
  | some kept, nodes => ∃ kept', nodes = some kept' ∧ Stacked path i kept kept'

/-- The token at `i` is the component `c`: where it ends, what the two pairs of comparisons
say of it, and that the character behind it is written back. -/
structure TokenAt (path : List UInt8) (i : ℕ) (c : Component) : Prop where
  first : char path i ≠ 0
  next : nextToken path i = i + c.text.length
  restored : (path.set (i + c.text.length) 0).set (i + c.text.length)
    (char path (i + c.text.length)) = path
  dotdot : (tokenIs (path.set (i + c.text.length) 0) i [46, 46, 47] ||
    tokenIs (path.set (i + c.text.length) 0) i [46, 46]) = c.isDotDot
  dot : (tokenIs (path.set (i + c.text.length) 0) i [46, 47] ||
    tokenIs (path.set (i + c.text.length) 0) i [46]) = c.isDot

/-- The next token of a path is the first component of what remains of it. -/
theorem tokenAt_append (rest before : List UInt8) {c : Component} (hcut : WellCut (c :: cs))
    (hnul : 0 ∉ join (c :: cs)) (hpath : path = before ++ (join (c :: cs) ++ 0 :: rest)) :
    TokenAt path before.length c := by
  have hname := (hcut.names c List.mem_cons_self).1
  have hnext : nextToken path before.length = before.length + c.text.length := by
    rw [hpath, nextToken_append before hcut hnul]
  rw [join_cons, List.mem_append, not_or] at hnul
  have hassoc : path = before ++ c.text ++ (join cs ++ 0 :: rest) := by
    rw [hpath, join_cons, List.append_assoc, List.append_assoc]
  cases hback : join cs ++ 0 :: rest with
  | nil => simp at hback
  | cons b back =>
    rw [hback] at hassoc
    have hlength : before.length + c.text.length = (before ++ c.text).length :=
      List.length_append.symm
    have htmp : char path (before ++ c.text).length = b := by rw [hassoc, char_append]
    have hset : path.set (before ++ c.text).length 0 = before ++ c.text ++ 0 :: back := by
      rw [hassoc, set_append_cons]
    constructor
    · rw [hassoc]
      exact char_text before (text_ne_nil hcut) hnul.1 _
    · exact hnext
    · rw [hlength, hset, htmp, set_append_cons, hassoc]
    · rw [hlength, hset, tokenIs_append before hnul.1, tokenIs_append before hnul.1]
      exact text_eq hname [46, 46] (by decide)
    · rw [hlength, hset, tokenIs_append before hnul.1, tokenIs_append before hnul.1]
      exact text_eq hname [46] (by decide)

/-- The loop stops at the end of the string. -/
theorem char_end (rest before : List UInt8)
    (hpath : path = before ++ (join [] ++ 0 :: rest)) : char path before.length = 0 := by
  rw [hpath]
  exact char_append before 0 rest

/-- One pass of the loop, in terms of the component that it finds. -/
theorem pushTokens_succ {c : Component} (h : TokenAt path i c) (fuel : ℕ) :
    pushTokens (fuel + 1) path nodes i =
      if c.isDotDot then
        match nodes with
        | [] => (path, none)
        | _ :: below => pushTokens fuel path below (i + c.text.length)
      else if c.isDot then pushTokens fuel path nodes (i + c.text.length)
      else pushTokens fuel path (⟨i, c.text.length⟩ :: nodes) (i + c.text.length) := by
  rw [pushTokens, if_neg h.first]
  simp only [h.next, h.restored, h.dotdot, ← Bool.not_or, h.dot, Nat.add_sub_cancel_left]
  cases c.isDotDot with
  | true => rfl
  | false => cases c.isDot <;> rfl

/-- The loop stops at the end of the string, or at a `..` too many. -/
theorem pushTokens_append (rest before : List UInt8) {stack : List Component}
    (hcut : WellCut cs) (hnul : 0 ∉ join cs) (hpath : path = before ++ (join cs ++ 0 :: rest))
    (h : Stacked path before.length stack nodes) {fuel : ℕ} (hfuel : cs.length < fuel) :
    ∃ outcome, pushTokens fuel path nodes before.length = (path, outcome) ∧
      Outcome path (before ++ join cs).length (reduce stack cs) outcome := by
  induction cs generalizing before stack nodes fuel with
  | nil =>
    cases fuel with
    | zero => cases hfuel
    | succ fuel =>
      exists some nodes
      constructor
      · rw [pushTokens, if_pos (char_end rest before hpath)]
      · exact ⟨nodes, rfl, by simpa using h⟩
  | cons c cs ih =>
    cases fuel with
    | zero => cases hfuel
    | succ fuel =>
      have htoken := tokenAt_append rest before hcut hnul hpath
      have hcut' : WellCut cs := hcut.sublist (List.sublist_cons_self c cs)
      have hfuel' : cs.length < fuel := Nat.lt_of_succ_lt_succ hfuel
      rw [join_cons, List.mem_append, not_or] at hnul
      have hassoc : path = before ++ c.text ++ (join cs ++ 0 :: rest) := by
        rw [hpath, join_cons, List.append_assoc, List.append_assoc]
      have hslice : slice path ⟨before.length, c.text.length⟩ = c.text := by
        rw [slice, hassoc, List.append_assoc, List.drop_left, List.take_left]
      have hlength : before.length + c.text.length = (before ++ c.text).length :=
        List.length_append.symm
      have hbelow : before.length ≤ (before ++ c.text).length := by omega
      have hjoin : before ++ join (c :: cs) = before ++ c.text ++ join cs := by
        rw [join_cons, List.append_assoc]
      rw [pushTokens_succ htoken, reduce_cons, hjoin, hlength]
      cases hdotdot : c.isDotDot with
      | true =>
        cases stack with
        | nil =>
          have hempty : nodes = [] := by simpa using h.texts
          rw [hempty, step_eq_none_iff.mpr ⟨hdotdot, rfl⟩]
          exact ⟨none, rfl, rfl⟩
        | cons d stack =>
          obtain ⟨node, below, hnodes, hstacked⟩ := h.pop
          rw [hnodes, step_dotdot hdotdot]
          exact ih (before ++ c.text) hcut' hnul.2 hassoc (hstacked.mono hbelow) hfuel'
      | false =>
        cases hdot : c.isDot with
        | true =>
          rw [step_dot hdotdot hdot]
          exact ih (before ++ c.text) hcut' hnul.2 hassoc (h.mono hbelow) hfuel'
        | false =>
          have hpushed := h.push hslice
          rw [hlength] at hpushed
          rw [step_name hdotdot hdot]
          exact ih (before ++ c.text) hcut' hnul.2 hassoc hpushed hfuel'

end InterviewQuestions.NormalizePath
