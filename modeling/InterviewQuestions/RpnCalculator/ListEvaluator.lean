import InterviewQuestions.RpnCalculator.StackEvaluator

/-! The recursion of `solution_recursive.c` replaces the tokens of an expression by its value, in
the node of the first of them. What follows in the list plays no part until then. -/
namespace InterviewQuestions.RpnCalculator

open Library LinkedCells

open Arithmetic (Op int)

open ReversePolish (Expression)

variable {t : Expr} {mem mem' result : Memory} {head curr b c : ℕ} {next stop : Option ℕ}
  {cells : List (ℕ × Token)} {op : Op} {x y v : ℤ} {tok : Token}

def token : ExprToken → Token
  | .value z => .val z
  | .operator op => .op op.char

/-- The recursion ends with this memory, whenever it may be deep enough. -/
def Runs (head curr : ℕ) (mem result : Memory) : Prop :=
  ∃ least, ∀ depth ≥ least, evalExprAux head depth curr mem = some result

theorem runs_of_head (hcurr : mem curr = some ⟨tok, some head⟩) : Runs head curr mem mem := by
  refine ⟨1, fun depth hdepth => ?_⟩
  obtain ⟨depth, rfl⟩ := Nat.exists_eq_add_of_le' hdepth
  rw [evalExprAux, hcurr]
  simp only [Option.bind_eq_bind, Option.bind_some, if_true]
  rfl

theorem runs_of_operator (hcurr : mem curr = some ⟨tok, some c⟩)
    (hc : mem c = some ⟨.op op.char, next⟩) : Runs head curr mem mem := by
  refine ⟨1, fun depth hdepth => ?_⟩
  obtain ⟨depth, rfl⟩ := Nat.exists_eq_add_of_le' hdepth
  rw [evalExprAux, hcurr]
  simp only [Option.bind_eq_bind, Option.bind_some, hc]
  split
  · rfl
  · rfl

/-- The next operand is evaluated first. -/
theorem runs_of_operand {mem₁ mem₂ : Memory} (hcurr : mem curr = some ⟨tok, some b⟩)
    (hne : b ≠ head) (hb : mem b = some ⟨.val y, next⟩) (hnext : Runs head b mem mem₁)
    (happly : applyNext mem₁ curr = some mem₂) (hlater : Runs head curr mem₂ result) :
    Runs head curr mem result := by
  obtain ⟨least, hleast⟩ := hnext
  obtain ⟨least', hleast'⟩ := hlater
  refine ⟨max least least' + 1, fun depth hdepth => ?_⟩
  obtain ⟨depth, rfl⟩ := Nat.exists_eq_add_of_le' ((Nat.le_add_left 1 _).trans hdepth)
  have hbefore := hleast depth (by omega)
  have hafter := hleast' depth (by omega)
  rw [evalExprAux, hcurr]
  simp only [Option.bind_eq_bind, Option.bind_some, if_neg hne, hb, hbefore, happly, hafter]

theorem applyNext_eq (hcurr : mem curr = some ⟨.val x, some b⟩) (hb : mem b = some ⟨.val y, some c⟩)
    (hc : mem c = some ⟨.op op.char, stop⟩) (hbcurr : b ≠ curr) (hccurr : c ≠ curr) (hbc : b ≠ c)
    (hv : op.apply x y = some v) :
    applyNext mem curr = some (Function.update (Function.update
      (Function.update mem curr (some ⟨.val v, stop⟩)) c none) b none) := by
  have hwrite := setData_setNext (Option.isSome_of_eq_some hcurr) (.val v) stop
  have hfree : free (Function.update mem curr (some ⟨.val v, stop⟩)) c =
      some (Function.update (Function.update mem curr (some ⟨.val v, stop⟩)) c none) := by
    rw [free, Function.update_of_ne hccurr, hc, Option.map_some]
  have hfree' : free (Function.update (Function.update mem curr (some ⟨.val v, stop⟩)) c none) b =
      some (Function.update (Function.update
        (Function.update mem curr (some ⟨.val v, stop⟩)) c none) b none) := by
    rw [free, Function.update_of_ne hbc, Function.update_of_ne hbcurr, hb, Option.map_some]
  rw [applyNext, hcurr]
  simp only [Option.bind_eq_bind, Option.bind_some, hb, hc, Token.asOp, Token.asVal, compute_char,
    hv]
  rw [← Option.bind_assoc, hwrite, Option.bind_some, hfree, Option.bind_some, hfree']

/-- The first node holds the value, the others are free, and the rest is as it was. -/
structure Collapsed (mem mem' : Memory) (curr : ℕ) (cells : List (ℕ × Token)) (v : ℤ)
    (stop : Option ℕ) : Prop where
  value : mem' curr = some ⟨.val v, stop⟩
  freed : ∀ a ∈ cells.map Prod.fst, mem' a = none
  same : ∀ a, a ≠ curr → a ∉ cells.map Prod.fst → mem' a = mem a

/-- The nodes of both operands and of their operator are different ones. -/
structure Parts (curr : ℕ) (xs : List ℕ) (b : ℕ) (ys : List ℕ) (c : ℕ) : Prop where
  left : (curr :: xs).Nodup
  right : (b :: ys).Nodup
  next : b ≠ curr ∧ b ∉ xs
  operator : c ≠ curr ∧ c ∉ xs ∧ c ≠ b ∧ c ∉ ys
  apart : curr ∉ ys ∧ ∀ a ∈ xs, a ∉ ys

theorem parts_of_nodup {xs ys : List ℕ} (h : (curr :: (xs ++ b :: (ys ++ [c]))).Nodup) :
    Parts curr xs b ys c := by
  simp only [List.nodup_cons, List.nodup_append, List.mem_append, List.mem_cons, not_or,
    List.not_mem_nil, or_false, List.nodup_nil, not_false_eq_true, true_and] at h
  obtain ⟨⟨hcurrx, hcurrb, hcurry, hcurrc⟩, hxs, ⟨⟨hby, hbc⟩, hys, hyc⟩, hxb⟩ := h
  refine ⟨List.nodup_cons.mpr ⟨hcurrx, hxs⟩, List.nodup_cons.mpr ⟨hby, hys⟩, ?_, ?_, hcurry, ?_⟩
  · exact ⟨Ne.symm hcurrb, fun hb => hxb b hb b (.inl rfl) rfl⟩
  · exact ⟨Ne.symm hcurrc, fun hc => hxb c hc c (.inr (.inr rfl)) rfl, Ne.symm hbc,
      fun hc => hyc c hc c rfl rfl⟩
  · exact fun a ha hay => hxb a ha a (.inr (.inl hay)) rfl

/-- The tokens of an operator node after the first. -/
theorem exists_cells {l r : Expr}
    (h : cells.map Prod.snd = (Expression.node op l r).later.map token) :
    ∃ cells₁ b cells₂ c,
      cells = cells₁ ++ (b, Token.val r.first) :: (cells₂ ++ [(c, .op op.char)]) ∧
      cells₁.map Prod.snd = l.later.map token ∧ cells₂.map Prod.snd = r.later.map token := by
  rw [Expression.later, List.map_append, List.map_cons, List.map_append] at h
  obtain ⟨cells₁, rest, rfl, hleft, hrest⟩ := List.map_eq_append_iff.mp h
  obtain ⟨cell, rest, rfl, hcell, hrest⟩ := List.map_eq_cons_iff.mp hrest
  obtain ⟨cells₂, last, rfl, hright, hlast⟩ := List.map_eq_append_iff.mp hrest
  obtain ⟨cell', last, rfl, hcell', hnil⟩ := List.map_eq_cons_iff.mp hlast
  obtain ⟨b, tok⟩ := cell
  obtain ⟨c, tok'⟩ := cell'
  cases hcell
  cases hcell'
  rw [List.map_nil, List.map_eq_nil_iff] at hnil
  subst hnil
  exact ⟨cells₁, b, cells₂, c, rfl, hleft, hright⟩

theorem mem_addresses {cells₁ cells₂ : List (ℕ × Token)} {a : ℕ} {tok tok' : Token} :
    a ∈ (cells₁ ++ (b, tok) :: (cells₂ ++ [(c, tok')])).map Prod.fst ↔
      a ∈ cells₁.map Prod.fst ∨ a = b ∨ a ∈ cells₂.map Prod.fst ∨ a = c := by
  rw [List.map_append, List.map_cons, List.map_append, List.mem_append, List.mem_cons,
    List.mem_append, List.map_singleton, List.mem_singleton]

/-- Both operands are collapsed, and then their values into the first node. -/
theorem Collapsed.node {mem₁ mem₂ : Memory} {cells₁ cells₂ : List (ℕ × Token)} {tok tok' : Token}
    (h₁ : Collapsed mem mem₁ curr cells₁ x (some b))
    (h₂ : Collapsed mem₁ mem₂ b cells₂ y (some c))
    (hparts : Parts curr (cells₁.map Prod.fst) b (cells₂.map Prod.fst) c) (v : ℤ)
    (stop : Option ℕ) :
    Collapsed mem (Function.update (Function.update
        (Function.update mem₂ curr (some ⟨.val v, stop⟩)) c none) b none) curr
      (cells₁ ++ (b, tok) :: (cells₂ ++ [(c, tok')])) v stop := by
  constructor
  case value =>
    rw [Function.update_of_ne hparts.next.1.symm, Function.update_of_ne hparts.operator.1.symm,
      Function.update_self]
  case freed =>
    intro a ha
    rw [mem_addresses] at ha
    by_cases hab : a = b
    · rw [hab, Function.update_self]
    · by_cases hac : a = c
      · rw [hac, Function.update_of_ne hparts.operator.2.2.1, Function.update_self]
      · rw [Function.update_of_ne hab, Function.update_of_ne hac]
        rcases ha with ha | ha | ha | ha
        · have hne : a ≠ curr := ne_of_mem_of_not_mem ha (List.nodup_cons.mp hparts.left).1
          rw [Function.update_of_ne hne, h₂.same a hab (hparts.apart.2 a ha)]
          exact h₁.freed a ha
        · exact absurd ha hab
        · have hne : a ≠ curr := ne_of_mem_of_not_mem ha hparts.apart.1
          rw [Function.update_of_ne hne]
          exact h₂.freed a ha
        · exact absurd ha hac
  case same =>
    intro a hacurr ha
    rw [mem_addresses, not_or, not_or, not_or] at ha
    rw [Function.update_of_ne ha.2.1, Function.update_of_ne ha.2.2.2,
      Function.update_of_ne hacurr, h₂.same a ha.2.1 ha.2.2.1, h₁.same a hacurr ha.1]

theorem collapse (hv : t.eval Op.apply = some v) (hcurr : mem curr = some ⟨.val t.first, next⟩)
    (hcells : Segment mem next cells stop) (htokens : cells.map Prod.snd = t.later.map token)
    (hnodup : (curr :: cells.map Prod.fst).Nodup) (hhead : head ∉ cells.map Prod.fst) :
    ∃ mem', Collapsed mem mem' curr cells v stop ∧
      ∀ result, Runs head curr mem' result → Runs head curr mem result := by
  induction t generalizing mem curr next cells stop v with
  | leaf w =>
    cases hv
    rw [Expression.later, List.map_nil, List.map_eq_nil_iff] at htokens
    subst htokens
    refine ⟨mem, ⟨?_, fun a ha => absurd ha List.not_mem_nil, fun _ _ _ => rfl⟩, fun _ h => h⟩
    rw [hcurr, show next = stop from hcells]
    rfl
  | node op l r ihl ihr =>
    obtain ⟨x, hx, hrest⟩ := Option.bind_eq_some_iff.mp hv
    obtain ⟨y, hy, hop⟩ := Option.bind_eq_some_iff.mp hrest
    obtain ⟨cells₁, b, cells₂, c, rfl, hleft, hright⟩ := exists_cells htokens
    obtain ⟨middle, hcells₁, rfl, next₂, hb, hrest⟩ := segment_append.mp hcells
    obtain ⟨middle, hcells₂, rfl, stop', hc, hstop⟩ := segment_append.mp hrest
    obtain rfl : stop' = stop := hstop
    have hparts : Parts curr (cells₁.map Prod.fst) b (cells₂.map Prod.fst) c :=
      parts_of_nodup (by simpa using hnodup)
    rw [mem_addresses, not_or, not_or, not_or] at hhead
    obtain ⟨hhead₁, hheadb, hhead₂, -⟩ := hhead
    -- the left operand
    obtain ⟨mem₁, hmem₁, hruns₁⟩ := ihl hx hcurr hcells₁ hleft hparts.left hhead₁
    have hb₁ : mem₁ b = some ⟨.val r.first, next₂⟩ := by
      rw [hmem₁.same b hparts.next.1 hparts.next.2, hb]
    have hc₁ : mem₁ c = some ⟨.op op.char, stop'⟩ := by
      rw [hmem₁.same c hparts.operator.1 hparts.operator.2.1, hc]
    have hcells₂' : Segment mem₁ next₂ cells₂ (some c) := by
      apply hcells₂.congr
      intro a ha
      apply hmem₁.same a
      · rintro rfl
        exact hparts.apart.1 ha
      · exact fun ha₁ => hparts.apart.2 a ha₁ ha
    -- the right operand
    obtain ⟨mem₂, hmem₂, hruns₂⟩ := ihr hy hb₁ hcells₂' hright hparts.right hhead₂
    have hcurr₂ : mem₂ curr = some ⟨.val x, some b⟩ := by
      rw [hmem₂.same curr hparts.next.1.symm hparts.apart.1, hmem₁.value]
    have hc₂ : mem₂ c = some ⟨.op op.char, stop'⟩ := by
      rw [hmem₂.same c hparts.operator.2.2.1 hparts.operator.2.2.2, hc₁]
    have hnext := hruns₂ mem₂ (runs_of_operator hmem₂.value hc₂)
    -- the operator
    have happly := applyNext_eq hcurr₂ hmem₂.value hc₂ hparts.next.1 hparts.operator.1
      hparts.operator.2.2.1.symm hop
    exact ⟨_, hmem₁.node hmem₂ hparts v stop', fun result hresult => hruns₁ result
      (runs_of_operand hmem₁.value (Ne.symm hheadb) hb₁ hnext happly hresult)⟩

/-- A circular list with the tokens of an expression gives its value, and has no nodes left. -/
theorem evalExprList_spec {first : Option ℕ} (hv : t.eval Op.apply = some v)
    (hhead : mem head = some ⟨tok, first⟩) (hcells : Segment mem first cells (some head))
    (htokens : cells.map Prod.snd = t.tokens.map token)
    (hnodup : (head :: cells.map Prod.fst).Nodup) :
    ∃ least, ∀ depth ≥ least, ∃ mem', evalExprList depth mem head = some (mem', v) ∧
      mem' head = some ⟨tok, some head⟩ := by
  rw [t.tokens_eq, List.map_cons] at htokens
  obtain ⟨cell, cells, rfl, hcell, hlater⟩ := List.map_eq_cons_iff.mp htokens
  obtain ⟨curr, w⟩ := cell
  cases hcell
  obtain ⟨rfl, next, hcurr, hcells⟩ := hcells
  rw [List.map_cons, List.nodup_cons, List.mem_cons, not_or] at hnodup
  obtain ⟨⟨hne, hnotMem⟩, hnodup⟩ := hnodup
  obtain ⟨mem', hmem', hruns⟩ := collapse hv hcurr hcells hlater hnodup hnotMem
  obtain ⟨least, hleast⟩ := hruns mem' (runs_of_head hmem'.value)
  have hhead' : mem' head = some ⟨tok, some curr⟩ := (hmem'.same head hne hnotMem).trans hhead
  have hfree : free mem' curr = some (Function.update mem' curr none) := by
    rw [free, hmem'.value, Option.map_some]
  have hlast : setNext (Function.update mem' curr none) head (some head) =
      some (Function.update (Function.update mem' curr none) head (some ⟨tok, some head⟩)) := by
    apply setNext_eq
    rw [Function.update_of_ne hne, hhead']
  refine ⟨least, fun depth hdepth => ⟨Function.update (Function.update mem' curr none) head
    (some ⟨tok, some head⟩), ?_, Function.update_self ..⟩⟩
  rw [evalExprList, hhead]
  simp only [Option.bind_eq_bind, Option.bind_some, hleast depth hdepth, hhead', hmem'.value,
    Token.asVal, hfree, hlast]
  rfl

/-! ## Reading -/

variable {mem₀ : Memory} {blocks : ℕ → ℕ} {line : List UInt8} {toks : List ExprToken}
  {tok₀ : Token} {prev count offset fuel : ℕ}

/-- The list that has been read so far: `prev` is its last node, which may be the head itself. -/
structure Building (mem : Memory) (head : ℕ) (blocks : ℕ → ℕ) (tok₀ : Token) (prev : ℕ)
    (toks : List ExprToken) : Prop where
  row : ∃ cells v, Segment mem (some head) (cells ++ [(prev, v)]) (some head) ∧
    (cells ++ [(prev, v)]).map Prod.fst = head :: (List.range toks.length).map blocks ∧
    (cells ++ [(prev, v)]).map Prod.snd = tok₀ :: toks.map token

/-- The addresses differ. -/
structure Fresh (head : ℕ) (blocks : ℕ → ℕ) : Prop where
  injective : Function.Injective blocks
  ne_head : ∀ n, blocks n ≠ head

theorem Fresh.notMem (h : Fresh head blocks) (n : ℕ) :
    blocks n ∉ head :: (List.range n).map blocks := by
  intro hmem
  rcases List.mem_cons.mp hmem with heq | hmem
  · exact h.ne_head n heq
  · obtain ⟨m, hm, heq⟩ := List.mem_map.mp hmem
    rw [h.injective heq] at hm
    exact absurd (List.mem_range.mp hm) (Nat.lt_irrefl n)

theorem Fresh.nodup (h : Fresh head blocks) (n : ℕ) :
    (head :: (List.range n).map blocks).Nodup := by
  apply List.nodup_cons.mpr
  constructor
  · intro hmem
    obtain ⟨m, -, heq⟩ := List.mem_map.mp hmem
    exact h.ne_head m heq
  · exact List.nodup_range.map h.injective

theorem Building.append (h : Building mem head blocks tok₀ prev toks) (hfresh : Fresh head blocks)
    (tok : ExprToken) :
    ∃ mem', appendNode mem head prev (blocks toks.length) (token tok) = some mem' ∧
      Building mem' head blocks tok₀ (blocks toks.length) (toks ++ [tok]) := by
  obtain ⟨cells, v, hsegment, haddresses, htokens⟩ := h.row
  have hnotMem := hfresh.notMem toks.length
  rw [← haddresses] at hnotMem
  have hnodup := hfresh.nodup toks.length
  rw [← haddresses, List.map_append, List.nodup_append] at hnodup
  have hprev : prev ∉ cells.map Prod.fst := fun hmem => hnodup.2.2 prev hmem prev
    List.mem_cons_self rfl
  have hne : prev ≠ blocks toks.length := by
    rintro rfl
    apply hnotMem
    rw [List.map_append]
    exact List.mem_append_right _ List.mem_cons_self
  have hwritten := hsegment.update hnotMem (some ⟨token tok, some head⟩)
  have hlink := setNext_eq hwritten.last (some (blocks toks.length))
  refine ⟨_, hlink, ⟨cells ++ [(prev, v)], token tok, ?_, ?_, ?_⟩⟩
  · have hsnoc := hwritten.snoc hprev (Function.update_self ..) hne
    rwa [List.append_assoc]
  · rw [List.map_append, haddresses, List.length_append, List.length_singleton, List.range_succ,
      List.map_append]
    rfl
  · rw [List.map_append, htokens, List.map_append]
    rfl

/-- One iteration reads a token and appends a node for it. -/
theorem readLoop_token {tok : ExprToken} (hspelled : Spelled (tok :: toks) (line.drop offset))
    (hint : ∀ z, tok = .value z → int z = some z)
    (happend : appendNode mem head prev (blocks count) (token tok) = some mem') :
    ∃ incr, Spelled toks (line.drop (offset + incr)) ∧
      ∀ fuel, readLoop line head blocks (fuel + 1) count mem prev offset =
        readLoop line head blocks fuel (count + 1) mem' (blocks count) (offset + incr) := by
  cases tok with
  | value z =>
    obtain ⟨incr, hscan, -, hspelled'⟩ := hspelled.value
    rw [List.drop_drop] at hspelled'
    refine ⟨incr, hspelled', fun fuel => ?_⟩
    rw [readLoop, hscan]
    simp only [Option.bind_eq_bind, Option.bind_some, hint z rfl]
    rw [token] at happend
    rw [happend, Option.bind_some]
  | operator op =>
    obtain ⟨hnone, incr, hscan, -, hspelled'⟩ := hspelled.operator
    rw [List.drop_drop] at hspelled'
    have hop : op.char = 43 ∨ op.char = 45 ∨ op.char = 42 ∨ op.char = 47 := by
      cases op <;> decide
    refine ⟨incr, hspelled', fun fuel => ?_⟩
    rw [readLoop, hnone]
    dsimp only
    rw [hscan]
    dsimp only
    rw [token] at happend
    rw [if_pos hop, happend, Option.bind_eq_bind, Option.bind_some]

theorem readLoop_spec {done : List ExprToken} (h : Building mem head blocks tok₀ prev done)
    (hfresh : Fresh head blocks) (hspelled : Spelled toks (line.drop offset))
    (hint : ∀ z, .value z ∈ toks → int z = some z) (hfuel : toks.length < fuel) :
    ∃ mem' prev', readLoop line head blocks fuel done.length mem prev offset = some mem' ∧
      Building mem' head blocks tok₀ prev' (done ++ toks) := by
  induction toks generalizing fuel mem prev done offset with
  | nil =>
    cases fuel with
    | zero => exact absurd hfuel (Nat.not_lt_zero _)
    | succ fuel =>
      obtain ⟨cells, v, hsegment, haddresses, htokens⟩ := h.row
      have hnotMem := hfresh.notMem done.length
      rw [← haddresses] at hnotMem
      refine ⟨_, prev, ?_, ⟨cells, v, hsegment.update hnotMem none, ?_, ?_⟩⟩
      · rw [readLoop, hspelled.nil.1]
        dsimp only
        rw [hspelled.nil.2]
      · rwa [List.append_nil]
      · rwa [List.append_nil]
  | cons tok toks ih =>
    cases fuel with
    | zero => exact absurd hfuel (Nat.not_lt_zero _)
    | succ fuel =>
      obtain ⟨mem₁, happend, hbuilding⟩ := h.append hfresh tok
      obtain ⟨incr, hspelled', hread⟩ := readLoop_token hspelled
        (fun z hz => hint z (hz ▸ List.mem_cons_self)) happend
      obtain ⟨mem', prev', hloop, hlast⟩ := ih hbuilding hspelled'
        (fun z hz => hint z (List.mem_cons_of_mem tok hz)) (Nat.lt_of_succ_lt_succ hfuel)
      rw [List.length_append, List.length_singleton] at hloop
      rw [List.append_assoc, List.singleton_append] at hlast
      exact ⟨mem', prev', (hread fuel).trans hloop, hlast⟩

/-- The list that is read is circular and has the tokens of the line. -/
theorem readExpr_spec {headCell : Cell ℕ Token} (hhead : mem head = some headCell)
    (hfresh : Fresh head blocks) (hspelled : Spelled toks line)
    (hint : ∀ z, .value z ∈ toks → int z = some z) :
    ∃ mem' first cells, readExpr mem head blocks line = some mem' ∧
      mem' head = some ⟨headCell.data, first⟩ ∧ Segment mem' first cells (some head) ∧
      cells.map Prod.snd = toks.map token ∧ (head :: cells.map Prod.fst).Nodup := by
  have hset : setNext mem head (some head) =
      some (Function.update mem head (some ⟨headCell.data, some head⟩)) := setNext_eq hhead _
  have hstart : Building (Function.update mem head (some ⟨headCell.data, some head⟩)) head blocks
      headCell.data head [] :=
    ⟨[], headCell.data, ⟨rfl, some head, Function.update_self .., rfl⟩, rfl, rfl⟩
  have hspelled' : Spelled toks (line.drop 0) := by rwa [List.drop_zero]
  obtain ⟨mem', prev, hloop, cells, v, hsegment, haddresses, htokens⟩ :=
    readLoop_spec hstart hfresh hspelled' hint (Nat.lt_succ_of_le hspelled.length_le)
  rw [List.nil_append] at haddresses htokens
  have hread : readExpr mem head blocks line = some mem' := by
    rw [readExpr, hset]
    exact hloop
  generalize cells ++ [(prev, v)] = row at hsegment haddresses htokens
  cases row with
  | nil => cases haddresses
  | cons cell row =>
    obtain ⟨-, first, hcell, hrow⟩ := hsegment
    rw [List.map_cons, List.cons.injEq] at haddresses htokens
    refine ⟨mem', first, row, hread, ?_, hrow, htokens.2, ?_⟩
    · rw [← haddresses.1, hcell, ← htokens.1]
    · rw [haddresses.2]
      exact hfresh.nodup toks.length

/-- Both programs find the value of an expression from its text. -/
theorem evaluators_agree {text : List UInt8} {stack : List ℤ} (hspelled : Spelled t.tokens text)
    (hv : t.eval Op.apply = some v) (hint : ∀ z, .value z ∈ t.tokens → int z = some z)
    (hroom : t.height + stack.length ≤ stackSz) (hlength : text.length < 2 ^ 31) :
    evalExpr stack text = some (v, stack) ∧
      ∀ mem head blocks, (mem head).isSome → Fresh head blocks →
        ∃ mem' least, readExpr mem head blocks text = some mem' ∧
          ∀ depth ≥ least, ∃ mem'', evalExprList depth mem' head = some (mem'', v) := by
  constructor
  · exact evalExpr_eq hspelled hv hint hroom hlength
  · intro mem head blocks hhead hfresh
    obtain ⟨headCell, hcell⟩ := Option.isSome_iff_exists.mp hhead
    obtain ⟨mem', first, cells, hread, hfirst, hcells, htokens, hnodup⟩ :=
      readExpr_spec hcell hfresh hspelled hint
    obtain ⟨least, hleast⟩ := evalExprList_spec hv hfirst hcells htokens hnodup
    refine ⟨mem', least, hread, fun depth hdepth => ?_⟩
    obtain ⟨mem'', heval, -⟩ := hleast depth hdepth
    exact ⟨mem'', heval⟩

/-- `3 4 -` -/
theorem spelled_difference :
    Spelled (Expression.node .sub (.leaf 3) (.leaf 4) : Expr).tokens [51, 32, 52, 32, 45] := by
  have hspace : ∀ b ∈ ([32] : List UInt8), Scanf.isspace b = true := by simp [Scanf.isspace]
  refine ⟨[], [32, 52, 32, 45], ?_, by simp, ?_, [32], [32, 45], ?_, hspace, ?_, [32], [], rfl,
    hspace, by simp, by simp [Spelled]⟩
  · simp [spell, Scanf.printInt, Scanf.printNat]
  · simp [Scanf.isspace]
  · simp [spell, Scanf.printInt, Scanf.printNat]
  · simp [Scanf.isspace]

theorem evaluators_agree_difference :
    evalExpr [] [51, 32, 52, 32, 45] = some (-1, []) :=
  (evaluators_agree spelled_difference (by decide) (by
    intro z hz
    simp only [Expression.tokens, List.mem_append, List.mem_singleton] at hz
    rcases hz with hz | hz | hz
    · cases hz
      rfl
    · cases hz
      rfl
    · cases hz) (by decide) (by decide)).1

end InterviewQuestions.RpnCalculator
