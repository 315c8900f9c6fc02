import InterviewQuestions.Library.Machine
import InterviewQuestions.Stdio.Model
import Mathlib.Data.List.Basic

/-! Streams opened for reading. `getc` hands out what `read` delivered, byte by
byte; a `putc` in between is harmless exactly while the buffer is empty. -/
namespace InterviewQuestions.Stdio

open Library

/-- The bytes of the buffer that `getc` has not returned yet. -/
def unread (f : StdioBuff) : List UInt8 :=
  match f.buff with
  | none => []
  | some buff => (buff.drop f.next).take f.buffCnt.toNat

/-- A stream that `fopen` opened for reading only: the flags, and a counter that stays
inside the buffer. -/
structure Reader (f : StdioBuff) : Prop where
  flags : f.flags = FL_READ ∨ f.flags = FL_READ ||| FL_EOF ∨ f.flags = FL_READ ||| FL_ERR
  inside : 0 < f.buffCnt → ∃ buff, f.buff = some buff ∧ f.next + f.buffCnt.toNat ≤ buff.length

/-- At most one allocation lies between the two worlds. -/
def Allocated (w w' : World) : Prop :=
  w' = w ∨ (w.mallocs 0).isSome ∧ w' = { w with mallocs := fun i => w.mallocs (i + 1) }

/-- What a `getc` of a reader can do. -/
inductive GetcStep (f : StdioBuff) (w : World) : ℤ → StdioBuff → World → Prop where
  | buffered {c : UInt8} {f' : StdioBuff} (hunread : unread f = c :: unread f')
      (hflags : f'.flags = f.flags) : GetcStep f w c.toNat f' w
  | stopped {f' : StdioBuff} (hunread : unread f = []) (hunread' : unread f' = [])
      (hflags : f.flags ≠ FL_READ) (hflags' : f'.flags = f.flags) : GetcStep f w EOF f' w
  | noMemory {f' : StdioBuff} {w' : World} (hunread : unread f = []) (hunread' : unread f' = [])
      (hnull : w.mallocs 0 = none) (hflags : f'.flags = f.flags)
      (hw : w' = { w with mallocs := fun i => w.mallocs (i + 1) }) : GetcStep f w EOF f' w'
  | failed {f' : StdioBuff} {w₁ w' : World} (hunread : unread f = []) (hunread' : unread f' = [])
      (halloc : Allocated w w₁) (hread : w₁.read f.fd BUFF_SIZE = (none, w')) :
      GetcStep f w EOF f' w'
  | atEnd {f' : StdioBuff} {w₁ w' : World} (hunread : unread f = []) (hunread' : unread f' = [])
      (halloc : Allocated w w₁) (hread : w₁.read f.fd BUFF_SIZE = (some [], w')) :
      GetcStep f w EOF f' w'
  | refilled {c : UInt8} {f' : StdioBuff} {w₁ w' : World} (hunread : unread f = [])
      (halloc : Allocated w w₁)
      (hread : w₁.read f.fd BUFF_SIZE = (some (c :: unread f'), w'))
      (hflags : f'.flags = f.flags) : GetcStep f w c.toNat f' w'

theorem unread_of_nonpos {f : StdioBuff} (h : f.buffCnt ≤ 0) : unread f = [] := by
  unfold unread
  split
  · rfl
  · rw [Int.toNat_of_nonpos h, List.take_zero]

private theorem unread_refill {f : StdioBuff} {c : UInt8} {bytes rest : List UInt8}
    (hbuff : f.buff = some (c :: bytes ++ rest)) (hnext : f.next = 1)
    (hcnt : f.buffCnt = bytes.length) : unread f = bytes := by
  unfold unread
  simp [hbuff, hnext, hcnt]

theorem refill_step {f : StdioBuff} {w w₁ : World} (hflags : f.flags = FL_READ)
    (hunread : unread f = []) (halloc : Allocated w w₁) (g : StdioBuff) (hg : g.flags = FL_READ)
    (hfd : g.fd = f.fd) (buff : List UInt8) :
    GetcStep f w (refill g w₁ buff BUFF_SIZE).1 (refill g w₁ buff BUFF_SIZE).2.1
        (refill g w₁ buff BUFF_SIZE).2.2 ∧
      Reader (refill g w₁ buff BUFF_SIZE).2.1 ∧
      (refill g w₁ buff BUFF_SIZE).2.1.fd = f.fd := by
  unfold refill
  rw [hfd]
  rcases hread : w₁.read f.fd BUFF_SIZE with ⟨_ | _ | ⟨c, bytes⟩, w'⟩
  · refine ⟨.failed hunread (unread_of_nonpos ?_) halloc hread, ⟨?_, ?_⟩, rfl⟩
    · simp
    · simp [hg]
    · simp
  · refine ⟨.atEnd hunread (unread_of_nonpos ?_) halloc hread, ⟨?_, ?_⟩, rfl⟩
    · simp
    · simp [hg]
    · simp
  · refine ⟨.refilled hunread halloc ?_ (by simp [hg, hflags]), ⟨Or.inl hg, ?_⟩, rfl⟩
    · rw [unread_refill rfl rfl rfl, hread]
    · intro _
      refine ⟨_, rfl, ?_⟩
      simp
      omega

theorem Reader.buffered {f : StdioBuff} (h : Reader f) (hpos : 0 < f.buffCnt) :
    ∃ c, f.buff.bind (·[f.next]?) = some c ∧
      unread f = c :: unread { f with buffCnt := f.buffCnt - 1, next := f.next + 1 } := by
  obtain ⟨buff, hbuff, hinside⟩ := h.inside hpos
  have hlt : f.next < buff.length := by omega
  refine ⟨buff[f.next], by simp [hbuff, hlt], ?_⟩
  obtain ⟨n, hn⟩ : ∃ n, f.buffCnt.toNat = n + 1 := ⟨f.buffCnt.toNat - 1, by omega⟩
  have hn' : (f.buffCnt - 1).toNat = n := by omega
  simp only [unread, hbuff, hn, hn']
  rw [List.drop_eq_getElem_cons hlt, List.take_succ_cons]

/-- `fillbuff` of a reader whose buffer is empty. -/
theorem fillbuff_step {f g : StdioBuff} (h : Reader f) (hempty : f.buffCnt ≤ 0) (w : World)
    (hg : g = { f with lastOp := FL_READ }) :
    GetcStep f w (fillbuff g w).1 (fillbuff g w).2.1 (fillbuff g w).2.2 ∧
      Reader (fillbuff g w).2.1 ∧ (fillbuff g w).2.1.fd = f.fd := by
  have hunread := unread_of_nonpos hempty
  have hunread' : unread g = [] := by
    rw [hg]
    exact unread_of_nonpos hempty
  have hreader : Reader g := by
    rw [hg]
    exact ⟨h.flags, fun hpos => absurd hpos (Int.not_lt.mpr hempty)⟩
  have hgflags : g.flags = f.flags := by rw [hg]
  have hgfd : g.fd = f.fd := by rw [hg]
  unfold fillbuff
  cases h.flags with
  | inl hread =>
    rw [if_neg (by rw [hgflags, hread]; decide), if_neg (by rw [hgflags, hread]; decide)]
    have hgread : g.flags = FL_READ := by rw [hgflags, hread]
    split
    · exact refill_step hread hunread (Or.inl rfl) g hgread hgfd _
    · rcases hnull : w.mallocs 0 with _ | fill
      · simp only [World.malloc, hnull, Option.map_none]
        exact ⟨.noMemory hunread hunread' hnull hgflags rfl, hreader, hgfd⟩
      · have hsome : (w.mallocs 0).isSome := by rw [hnull, Option.isSome_some]
        simp only [World.malloc, hnull, Option.map_some]
        exact refill_step hread hunread (Or.inr ⟨hsome, rfl⟩) { g with buff := some _ }
          hgread hgfd _
  | inr hstop =>
    have hflags : g.flags &&& (FL_READ ||| FL_EOF ||| FL_ERR) ≠ FL_READ := by
      rw [hgflags]
      rcases hstop with heq | heq <;> rw [heq] <;> decide
    rw [if_pos hflags]
    refine ⟨.stopped hunread hunread' ?_ hgflags, hreader, hgfd⟩
    rcases hstop with heq | heq <;> rw [heq] <;> decide

/-- A `getc` of a reader returns, takes one of the steps above and leaves a reader. -/
theorem getc_step {f : StdioBuff} (h : Reader f) (w : World) :
    ∃ r f' w', getc f w = some (r, f', w') ∧ GetcStep f w r f' w' ∧ Reader f' ∧ f'.fd = f.fd := by
  unfold getc
  by_cases hpos : 0 < f.buffCnt
  · obtain ⟨c, hget, hunread⟩ := h.buffered hpos
    obtain ⟨buff, hbuff, hinside⟩ := h.inside hpos
    refine ⟨c.toNat, { f with
      buffCnt := f.buffCnt - 1, next := f.next + 1, lastOp := FL_READ }, w, ?_,
      .buffered hunread rfl, ⟨h.flags, ?_⟩, rfl⟩
    · simp only [gt_iff_lt, hpos, if_true, hget]
      rfl
    · intro hpos'
      exact ⟨buff, hbuff, by simp only at hpos' ⊢; omega⟩
  · obtain ⟨hstep, hreader, hfd⟩ := fillbuff_step h (Int.not_lt.mp hpos) w rfl
    refine ⟨_, _, _, ?_, hstep, hreader, hfd⟩
    rw [if_neg hpos]

/-! ## Interleaving `putc` -/

inductive StreamOp where
  | getc
  | putc (c : ℤ)
deriving DecidableEq

/-- One call on a stream; the state is `none` after an access outside a buffer. -/
def streamStep : Option (StdioBuff × World) → StreamOp →
    Option (StdioBuff × World) × Option ℤ
  | none, _ => (none, none)
  | some (f, w), op =>
      let res := match op with
        | .getc => getc f w
        | .putc c => putc c f w
      (res.map fun r => (r.2.1, r.2.2), res.map fun r => r.1)

/-- A `putc` meets a stream with no unread byte in its buffer. -/
def Drained : Option (StdioBuff × World) → StreamOp → Prop
  | some (f, _), .putc _ => f.buffCnt ≤ 0
  | _, _ => True

instance : ∀ s op, Decidable (Drained s op)
  | none, .getc => isTrue trivial
  | none, .putc _ => isTrue trivial
  | some _, .getc => isTrue trivial
  | some (f, _), .putc _ => inferInstanceAs (Decidable (f.buffCnt ≤ 0))

/-- The results of the `getc` calls among the results of all calls. -/
def getcResults (ops : List StreamOp) (results : List (Option ℤ)) : List (Option ℤ) :=
  ((ops.zip results).filter fun p => p.1 = .getc).map Prod.snd

/-- The bytes that a list of `getc` results stands for. -/
def returned (results : List (Option ℤ)) : List UInt8 :=
  results.filterMap fun
    | some r => if r = EOF then none else some (toByte r)
    | none => none

/-- Every `putc` returns `EOF`, the `getc` calls return what they return without the `putc`
calls, and the bytes they return are the delivered ones, up to those still unread. -/
def ActsAsReader (f : StdioBuff) (w : World) (ops : List StreamOp) : Prop :=
  let res := Machine.run streamStep (some (f, w)) ops
  (∀ p ∈ ops.zip res.2, p.1 ≠ .getc → p.2 = some EOF) ∧
  getcResults ops res.2 =
    (Machine.run streamStep (some (f, w)) (ops.filter fun op => op = .getc)).2 ∧
  ∃ f' w', res.1 = some (f', w') ∧
    w'.delivered f.fd = w.delivered f.fd ++ returned (getcResults ops res.2) ++ unread f'

theorem read_delivered {w w' : World} {fd : ℤ} {count : ℕ} {bytes : List UInt8}
    (h : w.read fd count = (some bytes, w')) : w'.delivered fd = w.delivered fd ++ bytes := by
  unfold World.read at h
  split at h
  · obtain ⟨hbytes, rfl⟩ := Prod.mk.inj h
    obtain rfl := Option.some.inj hbytes
    rw [List.append_nil]
  · cases h
  · obtain ⟨hbytes, rfl⟩ := Prod.mk.inj h
    obtain rfl := Option.some.inj hbytes
    exact Function.update_self ..

theorem read_failed {w w' : World} {fd : ℤ} {count : ℕ} (h : w.read fd count = (none, w')) :
    w'.delivered fd = w.delivered fd := by
  unfold World.read at h
  split at h
  · cases h
  · obtain ⟨_, rfl⟩ := Prod.mk.inj h
    rfl
  · cases h

theorem Allocated.delivered {w w' : World} (h : Allocated w w') : w'.delivered = w.delivered := by
  rcases h with rfl | ⟨_, rfl⟩ <;> rfl

@[simp] theorem toByte_toNat (c : UInt8) : toByte c.toNat = c := by
  have hlt := UInt8.toNat_lt c
  unfold toByte
  rw [Int.emod_eq_of_lt (by omega) (by omega), Int.toNat_natCast, UInt8.ofNat_toNat]

theorem toNat_ne_EOF (c : UInt8) : (c.toNat : ℤ) ≠ EOF := by
  unfold EOF
  omega

@[simp] theorem returned_byte (c : UInt8) : returned [some c.toNat] = [c] := by
  simp [returned, toNat_ne_EOF]

@[simp] theorem returned_EOF : returned [some EOF] = [] := rfl

/-- The bytes returned so far and the unread ones make up what was delivered. -/
theorem GetcStep.delivered {f f' : StdioBuff} {w w' : World} {r : ℤ} (h : GetcStep f w r f' w')
    {before : List UInt8} (hw : w.delivered f.fd = before ++ unread f) :
    w'.delivered f.fd = before ++ returned [some r] ++ unread f' := by
  cases h with
  | buffered hunread hflags => simp [hw, hunread]
  | stopped hunread hunread' hflags hflags' => simp [hw, hunread, hunread']
  | noMemory hunread hunread' hnull hflags hw' => simp [hw, hw', hunread, hunread']
  | failed hunread hunread' halloc hread =>
    simp [read_failed hread, halloc.delivered, hw, hunread, hunread']
  | atEnd hunread hunread' halloc hread =>
    simp [read_delivered hread, halloc.delivered, hw, hunread, hunread']
  | refilled hunread halloc hread hflags =>
    simp [read_delivered hread, halloc.delivered, hw, hunread]

/-- The direction check of `flushbuf` turns a drained `putc` away. -/
theorem Reader.putc_drained {f : StdioBuff} (h : Reader f) (hempty : f.buffCnt ≤ 0) (c : ℤ)
    (w : World) : putc c f w = some (EOF, { f with lastOp := FL_WRITE }, w) := by
  unfold putc flushbuf
  have hflags : f.flags &&& (FL_WRITE ||| FL_EOF ||| FL_ERR) ≠ FL_WRITE := by
    rcases h.flags with heq | heq | heq <;> rw [heq] <;> decide
  simp only
  rw [if_neg (Int.not_lt.mpr hempty), if_pos hflags]

theorem getc_lastOp (f : StdioBuff) (w : World) (op : Flags) :
    getc { f with lastOp := op } w = getc f w := rfl

theorem returned_append (xs ys : List (Option ℤ)) :
    returned (xs ++ ys) = returned xs ++ returned ys :=
  List.filterMap_append

private theorem actsAsReader_of_drained {f : StdioBuff} (h : Reader f) (w : World) (op : Flags)
    (ops : List StreamOp) {before : List UInt8} (hw : w.delivered f.fd = before ++ unread f)
    (hops : Machine.Admits streamStep Drained (some (f, w)) ops) :
    let res := Machine.run streamStep (some (f, w)) ops
    (∀ p ∈ ops.zip res.2, p.1 ≠ .getc → p.2 = some EOF) ∧
    getcResults ops res.2 = (Machine.run streamStep (some ({ f with lastOp := op }, w))
      (ops.filter fun op => op = .getc)).2 ∧
    ∃ f' w', res.1 = some (f', w') ∧
      w'.delivered f.fd = before ++ returned (getcResults ops res.2) ++ unread f' := by
  induction ops generalizing f w op before with
  | nil => exact ⟨by simp, rfl, f, w, rfl, by simpa [getcResults, returned] using hw⟩
  | cons first ops ih =>
    cases first with
    | putc c =>
      have hempty : f.buffCnt ≤ 0 := hops.1
      have hputc := h.putc_drained hempty c w
      have hstep : streamStep (some (f, w)) (.putc c) =
          (some ({ f with lastOp := FL_WRITE }, w), some EOF) := by
        simp [streamStep, hputc]
      have hrest := hops.2
      rw [hstep] at hrest
      have hreader : Reader { f with lastOp := FL_WRITE } := ⟨h.flags, h.inside⟩
      obtain ⟨hputs, hgets, f', w', hlast, hdelivered⟩ := ih hreader w op hw hrest
      simp only [Machine.run_cons, hstep]
      refine ⟨?_, ?_, f', w', hlast, ?_⟩
      · intro p hp hne
        rcases List.mem_cons.mp hp with rfl | hp
        · rfl
        · exact hputs p hp hne
      · simpa [getcResults] using hgets
      · simpa [getcResults] using hdelivered
    | getc =>
      obtain ⟨r, f', w', hgetc, hget, hreader, hfd⟩ := getc_step h w
      have hstep : streamStep (some (f, w)) .getc = (some (f', w'), some r) := by
        simp [streamStep, hgetc]
      have hstep' : streamStep (some ({ f with lastOp := op }, w)) .getc =
          (some (f', w'), some r) := by
        simp [streamStep, getc_lastOp, hgetc]
      have hrest := hops.2
      rw [hstep] at hrest
      have hw' := hget.delivered hw
      rw [← hfd] at hw'
      obtain ⟨hputs, hgets, f'', w'', hlast, hdelivered⟩ := ih hreader w' f'.lastOp hw' hrest
      have hfilter : (StreamOp.getc :: ops).filter (fun op => op = .getc) =
          .getc :: ops.filter fun op => op = .getc := rfl
      have hresults : ∀ results, getcResults (.getc :: ops) (some r :: results) =
          some r :: getcResults ops results := fun results => rfl
      simp only [Machine.run_cons, hstep, hfilter, hstep', hresults]
      refine ⟨?_, ?_, f'', w'', hlast, ?_⟩
      · intro p hp hne
        rcases List.mem_cons.mp hp with rfl | hp
        · exact absurd rfl hne
        · exact hputs p hp hne
      · rw [hgets]
      · rw [← List.singleton_append, returned_append, ← hfd, hdelivered]
        simp only [List.append_assoc]

/-- A stream just opened by `fopen` in mode `r` is an empty reader. -/
theorem fopen_reader {table table' : Iob} {name : String} {w w' : World} {slot : Fin OPEN_MAX}
    (h : fopen table name "r" w = (some slot, table', w')) :
    Reader (table' slot) ∧ unread (table' slot) = [] := by
  have hmode : modeFlags "r" = some (⟨true, false, false, false, false⟩, FL_READ) := by
    simp [modeFlags]
  simp only [fopen, hmode] at h
  split at h
  · cases h
  · split at h
    · cases h
    · obtain ⟨hslot, htable, _⟩ := by simpa only [Prod.mk.injEq, Option.some.injEq] using h
      rw [← htable, ← hslot, Function.update_self]
      exact ⟨⟨Or.inl rfl, fun hpos => absurd hpos (Int.lt_irrefl _)⟩, rfl⟩

/-- On a stream opened in mode `r`, `putc` calls that meet an empty buffer return `EOF` and
do not disturb the input. -/
theorem reader_ignores_drained_putc {table table' : Iob} {name : String} {w w' : World}
    {slot : Fin OPEN_MAX} (hopen : fopen table name "r" w = (some slot, table', w'))
    (ops : List StreamOp)
    (hops : Machine.Admits streamStep Drained (some (table' slot, w')) ops) :
    ActsAsReader (table' slot) w' ops := by
  obtain ⟨hreader, hunread⟩ := fopen_reader hopen
  have hw : w'.delivered (table' slot).fd =
      w'.delivered (table' slot).fd ++ unread (table' slot) := by
    rw [hunread, List.append_nil]
  exact actsAsReader_of_drained hreader w' (table' slot).lastOp ops hw hops

/-- A file of two bytes on descriptor 3. -/
def twoBytes : World where
  mallocs _ := some fun _ => 0
  reads fd := if fd = 3 then [some [65, 66]] else []
  writes _ n := n
  opens _ _ _ := 3
  closes _ := 0
  delivered _ := []
  output _ := []

theorem reader_ignores_drained_putc_at_ends :
    ActsAsReader ((fopen iob "f" "r" twoBytes).2.1 ⟨3, by decide⟩) (fopen iob "f" "r" twoBytes).2.2
      [.putc 122, .getc, .getc, .putc 122, .getc] :=
  @reader_ignores_drained_putc iob _ "f" twoBytes _ _ rfl _ (by decide +kernel)

/-- With the second byte still in the buffer, `putc` returns the character it was given and
replaces that byte. -/
theorem reader_disturbed_by_putc :
    ¬ ActsAsReader ((fopen iob "f" "r" twoBytes).2.1 ⟨3, by decide⟩)
      (fopen iob "f" "r" twoBytes).2.2 [.getc, .putc 122, .getc] := by
  intro h
  have hputc := h.1 (.putc 122, some 122) (by decide +kernel) (by decide)
  exact absurd hputc (by decide)

end InterviewQuestions.Stdio
