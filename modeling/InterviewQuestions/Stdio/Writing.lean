import InterviewQuestions.Stdio.Reading

/-! Streams opened for writing. What `putc` stores reaches the file in order, but
the results misreport it: `fflush` never returns 0, so neither does `fclose`. -/
namespace InterviewQuestions.Stdio

open Library

/-- The bytes that were put into the buffer and not written yet. -/
def unwritten (f : StdioBuff) : List UInt8 := (f.buff.getD []).take f.next

/-- The file as the stream's user sees it. -/
def written (f : StdioBuff) (w : World) : List UInt8 := w.output f.fd ++ unwritten f

/-- A buffered stream open for writing only: the counter and the position share out the
buffer, which is not there before the first `putc`. -/
structure Writer (f : StdioBuff) : Prop where
  flags : f.flags = FL_WRITE
  unallocated : f.buff = none → f.next = 0 ∧ f.buffCnt = 0
  allocated : ∀ buff, f.buff = some buff →
    buff.length = BUFF_SIZE ∧ f.next + f.buffCnt = BUFF_SIZE ∧ 0 ≤ f.buffCnt
  lastOp : 0 < f.next → f.lastOp = FL_WRITE

/-- Every allocation succeeds. -/
def AllocOk (w : World) : Prop := ∀ i, (w.mallocs i).isSome

/-- Every `write` writes all it is given. -/
def WritesAll (w : World) : Prop := ∀ i count, w.writes i count = count

/-- Every `close` succeeds. -/
def ClosesOk (w : World) : Prop := ∀ i, w.closes i = 0

/-- What a writer does to the system: it allocates and writes. -/
structure WriteOnly (w w' : World) : Prop where
  mallocs : AllocOk w → AllocOk w'
  writes : WritesAll w → WritesAll w'
  closes : w'.closes = w.closes
  reads : w'.reads = w.reads
  delivered : w'.delivered = w.delivered

theorem WriteOnly.refl (w : World) : WriteOnly w w := ⟨id, id, rfl, rfl, rfl⟩

theorem WriteOnly.trans {w₁ w₂ w₃ : World} (h : WriteOnly w₁ w₂) (h' : WriteOnly w₂ w₃) :
    WriteOnly w₁ w₃ where
  mallocs := h'.mallocs ∘ h.mallocs
  writes := h'.writes ∘ h.writes
  closes := h'.closes.trans h.closes
  reads := h'.reads.trans h.reads
  delivered := h'.delivered.trans h.delivered

theorem write_writeOnly (w : World) (fd : ℤ) (bytes : List UInt8) :
    WriteOnly w (w.write fd bytes).2 :=
  ⟨id, fun h i count => h (i + 1) count, rfl, rfl, rfl⟩

theorem WritesAll.write {w : World} (h : WritesAll w) (fd : ℤ) (bytes : List UInt8) :
    (w.write fd bytes).1 = bytes.length ∧
      (w.write fd bytes).2.output = Function.update w.output fd (w.output fd ++ bytes) := by
  simp [World.write, h 0 bytes.length]

theorem WritesAll.write_take {w : World} (h : WritesAll w) (fd : ℤ) {buff : List UInt8} {n : ℕ}
    (hn : n ≤ buff.length) : (w.write fd (buff.take n)).1 = n ∧
      (w.write fd (buff.take n)).2.output =
        Function.update w.output fd (w.output fd ++ buff.take n) := by
  obtain ⟨hres, hout⟩ := h.write fd (buff.take n)
  rw [List.length_take, min_eq_left hn] at hres
  exact ⟨hres, hout⟩

theorem AllocOk.malloc {w : World} (h : AllocOk w) (size : ℕ) :
    ∃ buff w', w.malloc size = (some buff, w') ∧ buff.length = size ∧ WriteOnly w w' ∧
      w'.output = w.output := by
  obtain ⟨fill, hfill⟩ := Option.isSome_iff_exists.mp (h 0)
  refine ⟨(List.range size).map fill, { w with mallocs := fun i => w.mallocs (i + 1) }, ?_, by simp,
    ⟨fun h i => h (i + 1), id, rfl, rfl, rfl⟩, rfl⟩
  simp [World.malloc, hfill]

/-! ## One call -/

/-- A call on a writer leaves a writer of the same file. -/
structure WriterStep (f f' : StdioBuff) (w w' : World) : Prop where
  writer : Writer f'
  fd : f'.fd = f.fd
  frame : WriteOnly w w'

/-- Storing a byte into a buffer that has room for it. -/
theorem store_spec {f : StdioBuff} {buff : List UInt8} (hbuff : f.buff = some buff)
    (hsize : buff.length = BUFF_SIZE) (hcnt : f.next + f.buffCnt = BUFF_SIZE)
    (hroom : 0 < f.buffCnt) (hflags : f.flags = FL_WRITE) (hlast : f.lastOp = FL_WRITE) (c : ℤ) :
    ∃ f', store f c = some f' ∧ Writer f' ∧ f'.fd = f.fd ∧
      unwritten f' = unwritten f ++ [toByte c] := by
  have hlt : f.next < buff.length := by omega
  refine ⟨{ f with
    buffCnt := f.buffCnt - 1
    next := f.next + 1
    buff := some (buff.set f.next (toByte c)) }, ?_, ⟨hflags, ?_, ?_, fun _ => hlast⟩, rfl, ?_⟩
  · simp [store, hbuff, hlt]
  · intro h
    cases h
  · intro buff' h
    cases h
    refine ⟨by rw [List.length_set, hsize], ?_⟩
    simp only
    omega
  · simp only [unwritten, hbuff, Option.getD_some]
    rw [List.take_add_one, List.take_set_of_le (le_refl _)]
    simp [hlt]

/-- The end of `flushbuf` on a buffer that is empty or full. -/
theorem flushStore_spec {f : StdioBuff} {buff : List UInt8} (h : Writer f)
    (hbuff : f.buff = some buff) (hlast : f.lastOp = FL_WRITE)
    (hcnt : 0 < f.next ∨ 0 < f.buffCnt) {w : World} (hwrites : WritesAll w) (c : ℤ) :
    ∃ f' w', flushStore c f w buff = some (((toByte c).toNat : ℤ), f', w') ∧ WriterStep f f' w w' ∧
      written f' w' = written f w ++ [toByte c] := by
  obtain ⟨hsize, hsum, hnonneg⟩ := h.allocated buff hbuff
  unfold flushStore
  by_cases hnext : 0 < f.next
  · obtain ⟨hres, hout⟩ := hwrites.write_take f.fd (show f.next ≤ buff.length by omega)
    have hroom : (0 : ℤ) < (BUFF_SIZE : ℤ) := by decide
    obtain ⟨f', hstore, hwriter, hfd, hunwritten⟩ :=
      store_spec (f := { f with next := 0, buffCnt := BUFF_SIZE }) hbuff hsize
        (by simp) hroom h.flags hlast c
    refine ⟨f', (w.write f.fd (buff.take f.next)).2, ?_,
      ⟨hwriter, hfd, write_writeOnly ..⟩, ?_⟩
    · simp only [gt_iff_lt, hnext, if_true, hres, ne_eq, not_true, if_false, hstore]
      rfl
    · unfold written
      rw [hunwritten, hfd, hout, Function.update_self]
      simp [unwritten, hbuff]
  · have hroom : 0 < f.buffCnt := by omega
    obtain ⟨f', hstore, hwriter, hfd, hunwritten⟩ :=
      store_spec hbuff hsize hsum hroom h.flags hlast c
    refine ⟨f', w, ?_, ⟨hwriter, hfd, WriteOnly.refl w⟩, ?_⟩
    · rw [if_neg hnext, hstore]
      rfl
    · unfold written
      rw [hunwritten, hfd, List.append_assoc]

theorem Writer.buffered {f : StdioBuff} (h : Writer f) (hcnt : 0 < f.buffCnt) :
    ∃ buff, f.buff = some buff := by
  cases hbuff : f.buff with
  | none =>
    have hzero := (h.unallocated hbuff).2
    omega
  | some buff => exact ⟨buff, rfl⟩

/-- The fast path. -/
theorem putc_buffered {f : StdioBuff} (h : Writer f) (hcnt : 0 < f.buffCnt) (w : World) (c : ℤ) :
    ∃ f', putc c f w = some (charValue (toByte c), f', w) ∧ WriterStep f f' w w ∧
      written f' w = written f w ++ [toByte c] := by
  obtain ⟨buff, hbuff⟩ := h.buffered hcnt
  obtain ⟨hsize, hsum, _⟩ := h.allocated buff hbuff
  obtain ⟨f', hstore, hwriter, hfd, hunwritten⟩ :=
    store_spec (f := { f with lastOp := FL_WRITE }) hbuff hsize hsum hcnt h.flags rfl c
  refine ⟨f', ?_, ⟨hwriter, hfd, WriteOnly.refl w⟩, ?_⟩
  · unfold putc
    simp only [gt_iff_lt, hcnt, if_true, hstore]
    rfl
  · unfold written
    rw [hunwritten, hfd, List.append_assoc]
    rfl

/-- `putc` appends its byte, on the fast path and through `flushbuf`; the two differ in what
they return for the bytes from 128 on. -/
theorem putc_spec {f : StdioBuff} (h : Writer f) {w : World} (halloc : AllocOk w)
    (hwrites : WritesAll w) (c : ℤ) :
    ∃ f' w', putc c f w = some (if 0 < f.buffCnt then charValue (toByte c) else (toByte c).toNat,
        f', w') ∧ WriterStep f f' w w' ∧ written f' w' = written f w ++ [toByte c] := by
  by_cases hcnt : 0 < f.buffCnt
  · obtain ⟨f', hputc, hstep⟩ := putc_buffered h hcnt w c
    rw [if_pos hcnt]
    exact ⟨f', w, hputc, hstep⟩
  · unfold putc
    simp only [gt_iff_lt, hcnt, if_false]
    unfold flushbuf
    rw [if_neg (by rw [h.flags]; decide), if_neg (by rw [h.flags]; decide)]
    cases hbuff : f.buff with
    | none =>
      obtain ⟨buff, w₁, hmalloc, hsize, hframe, hout⟩ := halloc.malloc BUFF_SIZE
      let g : StdioBuff :=
        { f with buff := some buff, buffCnt := BUFF_SIZE, next := 0, lastOp := FL_WRITE }
      have hroom : (0 : ℤ) < (BUFF_SIZE : ℤ) := by decide
      have hwriter : Writer g := by
        refine ⟨h.flags, fun hnone => ?_, fun buff' hsome => ?_, fun _ => rfl⟩
        · cases hnone
        · cases hsome
          exact ⟨hsize, by simp [g], Int.le_of_lt hroom⟩
      obtain ⟨f', w', hstore, hstep, hwritten⟩ :=
        flushStore_spec (f := g) hwriter rfl rfl (Or.inr hroom) (hframe.writes hwrites) c
      refine ⟨f', w', ?_, ⟨hstep.writer, hstep.fd, hframe.trans hstep.frame⟩, ?_⟩
      · rw [hmalloc]
        exact hstore
      · rw [hwritten]
        simp [written, unwritten, hout, hbuff, g]
    | some buff =>
      have hwriter : Writer { f with lastOp := FL_WRITE } :=
        ⟨h.flags, h.unallocated, h.allocated, fun _ => rfl⟩
      obtain ⟨_, hsum, _⟩ := h.allocated buff hbuff
      have hfull : 0 < f.next ∨ 0 < f.buffCnt := by
        left
        unfold BUFF_SIZE at hsum
        omega
      obtain ⟨f', w', hstore, hstep, hwritten⟩ := flushStore_spec hwriter hbuff rfl hfull hwrites c
      rw [hbuff] at hstore
      refine ⟨f', w', hstore, ⟨hstep.writer, hstep.fd, hstep.frame⟩, ?_⟩
      rw [hwritten]
      rfl

/-- `fflush` writes what the buffer holds, and returns `EOF`. -/
theorem fflush_spec {f : StdioBuff} (h : Writer f) {w : World} (hwrites : WritesAll w) :
    ∃ f' w', fflush f w = (EOF, f', w') ∧ WriterStep f f' w w' ∧
      w'.output f.fd = written f w ∧ unwritten f' = [] := by
  unfold fflush
  cases hbuff : f.buff with
  | none =>
    refine ⟨f, w, rfl, ⟨h, rfl, WriteOnly.refl w⟩, ?_, ?_⟩ <;> simp [written, unwritten, hbuff]
  | some buff =>
    obtain ⟨hsize, hsum, hnonneg⟩ := h.allocated buff hbuff
    by_cases hnext : 0 < f.next
    · obtain ⟨hres, hout⟩ := hwrites.write_take f.fd (show f.next ≤ buff.length by omega)
      have hne : (f.next : ℤ) ≠ 0 := by omega
      have hflush : f.flags &&& FL_WRITE ≠ 0 ∧ f.flags &&& FL_UNBUF = 0 ∧ f.next > 0 ∧
          f.lastOp = FL_WRITE := by
        refine ⟨?_, ?_, hnext, h.lastOp hnext⟩ <;> rw [h.flags] <;> decide
      simp only [if_pos hflush, hres, hne, if_false]
      refine ⟨_, _, rfl, ⟨⟨h.flags, fun hnone => ?_, fun buff' hsome => ?_, ?_⟩, rfl,
        write_writeOnly ..⟩, ?_, ?_⟩
      · cases hnone
      · cases hsome
        exact ⟨hsize, by simp, by simp⟩
      · simp
      · rw [hout, Function.update_self]
        simp [written, unwritten, hbuff]
      · simp [unwritten]
    · have hzero : f.next = 0 := by omega
      simp only [hnext, and_false, false_and, if_false]
      refine ⟨f, w, rfl, ⟨h, rfl, WriteOnly.refl w⟩, ?_, ?_⟩ <;> simp [written, unwritten, hzero]

/-! ## Whole runs -/

inductive WriteOp where
  | putc (c : ℤ)
  | fflush
deriving DecidableEq

/-- One call on a stream; the state is `none` after an access outside a buffer. -/
def writeStep : Option (StdioBuff × World) → WriteOp → Option (StdioBuff × World) × Option ℤ
  | none, _ => (none, none)
  | some (f, w), op =>
      let res := match op with
        | .putc c => putc c f w
        | .fflush => some (fflush f w)
      (res.map fun r => (r.2.1, r.2.2), res.map fun r => r.1)

/-- The bytes that the calls of a run put into the stream. -/
def putBytes (ops : List WriteOp) : List UInt8 :=
  ops.filterMap fun
    | .putc c => some (toByte c)
    | .fflush => none

/-- Every `putc` returns its byte as an unsigned value. -/
def PutcsReport (ops : List WriteOp) (results : List (Option ℤ)) : Prop :=
  ∀ p ∈ ops.zip results, ∀ c, p.1 = .putc c → p.2 = some ((toByte c).toNat : ℤ)

/-- Every `fflush` returns `res`. -/
def FlushesReturn (res : ℤ) (ops : List WriteOp) (results : List (Option ℤ)) : Prop :=
  ∀ p ∈ ops.zip results, p.1 = .fflush → p.2 = some res

/-- The calls, and the `fclose` that ends them, report success. -/
def ReportsSuccess (f : StdioBuff) (w : World) (ops : List WriteOp) : Prop :=
  let res := Machine.run writeStep (some (f, w)) ops
  PutcsReport ops res.2 ∧ FlushesReturn 0 ops res.2 ∧
    ∃ f' w', res.1 = some (f', w') ∧ (closeStream f' w').1 = 0

/-- A `putc` on the fast path is given a byte below 128. -/
def PlainOnFastPath : Option (StdioBuff × World) → WriteOp → Prop
  | some (f, _), .putc c => 0 < f.buffCnt → (toByte c).toNat < 128
  | _, _ => True

theorem charValue_eq_iff (b : UInt8) : charValue b = b.toNat ↔ b.toNat < 128 := by
  unfold charValue
  split <;> omega

theorem writeStep_putc {f : StdioBuff} (h : Writer f) {w : World} (halloc : AllocOk w)
    (hwrites : WritesAll w) (c : ℤ) :
    ∃ f' w' r, writeStep (some (f, w)) (.putc c) = (some (f', w'), some r) ∧
      WriterStep f f' w w' ∧ written f' w' = written f w ++ [toByte c] ∧
      (r = ((toByte c).toNat : ℤ) ↔ PlainOnFastPath (some (f, w)) (.putc c)) := by
  obtain ⟨f', w', hputc, hstep, hwritten⟩ := putc_spec h halloc hwrites c
  refine ⟨f', w', _, by simp only [writeStep, hputc, Option.map_some]; rfl, hstep, hwritten, ?_⟩
  unfold PlainOnFastPath
  by_cases hcnt : 0 < f.buffCnt
  · simp [hcnt, charValue_eq_iff]
  · simp [hcnt]

theorem writeStep_fflush {f : StdioBuff} (h : Writer f) {w : World} (hwrites : WritesAll w) :
    ∃ f' w', writeStep (some (f, w)) .fflush = (some (f', w'), some EOF) ∧
      WriterStep f f' w w' ∧ written f' w' = written f w := by
  obtain ⟨f', w', hflush, hstep, hout, hempty⟩ := fflush_spec h hwrites
  refine ⟨f', w', by simp [writeStep, hflush], hstep, ?_⟩
  unfold written
  rw [hempty, hstep.fd, hout, List.append_nil]
  rfl

/-- A run on a writer goes through, appends its bytes, and each `fflush` returns `EOF`. -/
theorem writer_run {f : StdioBuff} (h : Writer f) {w : World} (halloc : AllocOk w)
    (hwrites : WritesAll w) (ops : List WriteOp) :
    let res := Machine.run writeStep (some (f, w)) ops
    (∃ f' w', res.1 = some (f', w') ∧ WriterStep f f' w w' ∧
      written f' w' = written f w ++ putBytes ops) ∧
    FlushesReturn EOF ops res.2 ∧
    (PutcsReport ops res.2 ↔ Machine.Admits writeStep PlainOnFastPath (some (f, w)) ops) := by
  induction ops generalizing f w with
  | nil =>
    refine ⟨⟨f, w, rfl, ⟨h, rfl, WriteOnly.refl w⟩, by simp [putBytes]⟩, ?_, ?_⟩
    · intro p hp
      cases hp
    · exact iff_of_true (fun p hp => by cases hp) trivial
  | cons op ops ih =>
    cases op with
    | putc c =>
      obtain ⟨f₁, w₁, r, hcall, hstep, hwritten, hres⟩ := writeStep_putc h halloc hwrites c
      obtain ⟨⟨f', w', hlast, hsteps, hall⟩, hflushes, hputcs⟩ :=
        ih hstep.writer (hstep.frame.mallocs halloc) (hstep.frame.writes hwrites)
      simp only [Machine.run_cons, hcall]
      refine ⟨⟨f', w', hlast, ⟨hsteps.writer, hsteps.fd.trans hstep.fd,
        hstep.frame.trans hsteps.frame⟩, ?_⟩, ?_, ?_⟩
      · rw [hall, hwritten, List.append_assoc]
        rfl
      · intro p hp hflush
        rcases List.mem_cons.mp hp with rfl | hp
        · cases hflush
        · exact hflushes p hp hflush
      · rw [Machine.Admits, hcall, ← hputcs, ← hres]
        simp [PutcsReport]
    | fflush =>
      obtain ⟨f₁, w₁, hcall, hstep, hwritten⟩ := writeStep_fflush h hwrites
      obtain ⟨⟨f', w', hlast, hsteps, hall⟩, hflushes, hputcs⟩ :=
        ih hstep.writer (hstep.frame.mallocs halloc) (hstep.frame.writes hwrites)
      simp only [Machine.run_cons, hcall]
      refine ⟨⟨f', w', hlast, ⟨hsteps.writer, hsteps.fd.trans hstep.fd,
        hstep.frame.trans hsteps.frame⟩, ?_⟩, ?_, ?_⟩
      · rw [hall, hwritten]
        rfl
      · intro p hp hflush
        rcases List.mem_cons.mp hp with rfl | hp
        · rfl
        · exact hflushes p hp hflush
      · rw [Machine.Admits, hcall, ← hputcs]
        simp [PutcsReport, PlainOnFastPath]

theorem closeStream_fails {f : StdioBuff} (h : Writer f) {w : World} (hwrites : WritesAll w) :
    (closeStream f w).1 = EOF := by
  obtain ⟨f', w', hflush, _⟩ := fflush_spec h hwrites
  unfold closeStream
  rw [hflush]
  rfl

/-- A stream just opened by `fopen` in mode `w` or `a` is an empty writer. -/
theorem fopen_writer {table table' : Iob} {name mode : String} {w w' : World}
    {slot : Fin OPEN_MAX} (hmode : mode = "w" ∨ mode = "a")
    (h : fopen table name mode w = (some slot, table', w')) : Writer (table' slot) := by
  obtain ⟨oflags, hflags⟩ : ∃ oflags, modeFlags mode = some (oflags, FL_WRITE) := by
    rcases hmode with rfl | rfl <;> simp [modeFlags]
  simp only [fopen, hflags] at h
  split at h
  · cases h
  · split at h
    · cases h
    · obtain ⟨hslot, htable, _⟩ := by simpa only [Prod.mk.injEq, Option.some.injEq] using h
      rw [← htable, ← hslot, Function.update_self]
      refine ⟨rfl, fun _ => ⟨rfl, rfl⟩, fun buff hsome => ?_, fun hpos => ?_⟩
      · cases hsome
      · exact absurd hpos (Nat.lt_irrefl _)

/-- No run on a stream opened in mode `w` or `a` reports success: every `fflush` and the
`fclose` return `EOF`. The `putc` calls alone do when the fast path meets bytes below 128
only. -/
theorem writer_never_reports_success {table table' : Iob} {name mode : String} {w w' : World}
    {slot : Fin OPEN_MAX} (hmode : mode = "w" ∨ mode = "a")
    (hopen : fopen table name mode w = (some slot, table', w')) (halloc : AllocOk w')
    (hwrites : WritesAll w') (hcloses : ClosesOk w') (ops : List WriteOp) :
    let res := Machine.run writeStep (some (table' slot, w')) ops
    ¬ ReportsSuccess (table' slot) w' ops ∧ FlushesReturn EOF ops res.2 ∧
      (PutcsReport ops res.2 ↔
        Machine.Admits writeStep PlainOnFastPath (some (table' slot, w')) ops) ∧
      ∃ f' w'', res.1 = some (f', w'') ∧ ClosesOk w'' ∧ (closeStream f' w'').1 = EOF := by
  obtain ⟨⟨f', w'', hlast, hstep, _⟩, hflushes, hputcs⟩ :=
    writer_run (fopen_writer hmode hopen) halloc hwrites ops
  have hclose : (closeStream f' w'').1 = EOF :=
    closeStream_fails hstep.writer (hstep.frame.writes hwrites)
  have hcloses' : ClosesOk w'' := fun i => by rw [hstep.frame.closes, hcloses i]
  refine ⟨?_, hflushes, hputcs, f', w'', hlast, hcloses', hclose⟩
  intro hreports
  obtain ⟨_, _, g, v, hlast', hzero⟩ := hreports
  rw [hlast] at hlast'
  cases hlast'
  rw [hclose] at hzero
  exact absurd hzero (by decide)

theorem writer_never_reports_success_sample :
    ¬ ReportsSuccess ((fopen iob "f" "w" quiet).2.1 ⟨3, by decide⟩) (fopen iob "f" "w" quiet).2.2
      [.putc 65, .putc 255, .fflush, .putc 66] :=
  (@writer_never_reports_success iob _ "f" "w" quiet _ _ (Or.inl rfl) rfl (fun _ => rfl)
    (fun _ _ => rfl) (fun _ => rfl) [.putc 65, .putc 255, .fflush, .putc 66]).1

/-- With every system call succeeding, the `putc` of byte 255 on the fast path, the `fflush`
and the `fclose` all return `EOF`. -/
theorem fclose_reports_failure :
    AllocOk quiet ∧ WritesAll quiet ∧ ClosesOk quiet ∧
      (Machine.run writeStep
        (some ((fopen iob "f" "w" quiet).2.1 ⟨3, by decide⟩, (fopen iob "f" "w" quiet).2.2))
        [.putc 65, .putc 255, .fflush]).2 = [some 65, some EOF, some EOF] ∧
      ¬ ReportsSuccess ((fopen iob "f" "w" quiet).2.1 ⟨3, by decide⟩)
        (fopen iob "f" "w" quiet).2.2 [.putc 65, .putc 255, .fflush] := by
  refine ⟨fun _ => rfl, fun _ _ => rfl, fun _ => rfl, by decide +kernel, ?_⟩
  intro h
  have hflush := h.2.1 (.fflush, some EOF) (by decide +kernel) rfl
  exact absurd hflush (by decide)

/-! The loop of `main` that copies standard input to standard output. Reader and
writer share nothing but the system below them. -/

/-- The descriptor is going to deliver these bytes, in chunks of any size, and then end. -/
def Delivers (w : World) (fd : ℤ) (bytes : List UInt8) : Prop :=
  ∃ chunks : List (List UInt8),
    (∀ chunk ∈ chunks, chunk ≠ []) ∧ w.reads fd = chunks.map some ∧ chunks.flatten = bytes

/-- What a reader does to the system: it allocates and reads. -/
structure ReadOnly (w w' : World) : Prop where
  mallocs : AllocOk w → AllocOk w'
  writes : w'.writes = w.writes
  output : w'.output = w.output

theorem ReadOnly.refl (w : World) : ReadOnly w w := ⟨id, rfl, rfl⟩

theorem ReadOnly.trans {w₁ w₂ w₃ : World} (h : ReadOnly w₁ w₂) (h' : ReadOnly w₂ w₃) :
    ReadOnly w₁ w₃ :=
  ⟨h'.mallocs ∘ h.mallocs, h'.writes.trans h.writes, h'.output.trans h.output⟩

theorem Allocated.readOnly {w w' : World} (h : Allocated w w') : ReadOnly w w' := by
  rcases h with rfl | ⟨_, rfl⟩
  · exact ReadOnly.refl w'
  · exact ⟨fun h i => h (i + 1), rfl, rfl⟩

theorem Allocated.delivers {w w' : World} (h : Allocated w w') {fd : ℤ} {bytes : List UInt8}
    (hdelivers : Delivers w fd bytes) : Delivers w' fd bytes := by
  rcases h with rfl | ⟨_, rfl⟩
  · exact hdelivers
  · exact hdelivers

theorem read_readOnly {w w' : World} {fd : ℤ} {count : ℕ} {bytes : Option (List UInt8)}
    (h : w.read fd count = (bytes, w')) : ReadOnly w w' := by
  unfold World.read at h
  split at h <;> cases h <;> exact ⟨id, rfl, rfl⟩

/-- A `read` takes a non-empty part from the front of what is to come, unless that is over. -/
theorem Delivers.read {w : World} {fd : ℤ} {bytes : List UInt8} (h : Delivers w fd bytes)
    {count : ℕ} (hcount : 0 < count) :
    ∃ taken rest w', w.read fd count = (some taken, w') ∧ bytes = taken ++ rest ∧
      (taken = [] → bytes = [] ∧ w'.reads fd = []) ∧ Delivers w' fd rest := by
  obtain ⟨chunks, hne, hreads, hflatten⟩ := h
  cases chunks with
  | nil =>
    refine ⟨[], [], w, ?_, hflatten.symm, fun _ => ⟨hflatten.symm, hreads⟩, [], hne, hreads, rfl⟩
    simp [World.read, hreads]
  | cons chunk chunks =>
    obtain ⟨hchunk, hne⟩ := List.forall_mem_cons.mp hne
    rw [List.flatten_cons] at hflatten
    have htaken : chunk.take count ≠ [] := by
      intro hnil
      cases List.take_eq_nil_iff.mp hnil with
      | inl hzero => omega
      | inr hzero => exact hchunk hzero
    refine ⟨chunk.take count, chunk.drop count ++ chunks.flatten,
      (w.read fd count).2, ?_, ?_, fun h => absurd h htaken, ?_⟩
    · simp [World.read, hreads]
    · rw [← List.append_assoc, List.take_append_drop, hflatten]
    · by_cases hlong : chunk.length ≤ count
      · refine ⟨chunks, hne, ?_, by rw [List.drop_eq_nil_of_le hlong, List.nil_append]⟩
        simp [World.read, hreads, hlong]
      · refine ⟨chunk.drop count :: chunks, ?_, ?_, by rw [List.flatten_cons]⟩
        · rw [List.forall_mem_cons]
          refine ⟨fun hnil => hlong (List.drop_eq_nil_iff.mp hnil), hne⟩
        · simp [World.read, hreads, hlong]

/-! ## One `getc` -/

theorem GetcStep.readOnly {f f' : StdioBuff} {w w' : World} {r : ℤ} (h : GetcStep f w r f' w') :
    ReadOnly w w' := by
  cases h with
  | buffered hunread hflags => exact ReadOnly.refl w
  | stopped hunread hunread' hflags hflags' => exact ReadOnly.refl w
  | noMemory hunread hunread' hnull hflags hw => exact hw ▸ ⟨fun h i => h (i + 1), rfl, rfl⟩
  | failed hunread hunread' halloc hread => exact halloc.readOnly.trans (read_readOnly hread)
  | atEnd hunread hunread' halloc hread => exact halloc.readOnly.trans (read_readOnly hread)
  | refilled hunread halloc hread hflags => exact halloc.readOnly.trans (read_readOnly hread)

/-- `getc` returns the next byte of those buffered and still to come, or `EOF` when there is
none. -/
theorem GetcStep.next {f f' : StdioBuff} {w w' : World} {r : ℤ} (h : GetcStep f w r f' w')
    (hflags : f.flags = FL_READ) (halloc : AllocOk w) {rest : List UInt8}
    (hrest : Delivers w f.fd rest) :
    (∃ c rest', r = (c.toNat : ℤ) ∧ unread f ++ rest = c :: (unread f' ++ rest') ∧
      Delivers w' f.fd rest' ∧ f'.flags = FL_READ) ∨
    (r = EOF ∧ unread f ++ rest = [] ∧ unread f' = [] ∧ w'.reads f.fd = []) := by
  have hsize : 0 < BUFF_SIZE := by decide
  cases h with
  | @buffered c f' hunread hflags' =>
    left
    exact ⟨c, rest, rfl, by rw [hunread, List.cons_append], hrest, hflags'.trans hflags⟩
  | stopped hunread hunread' hstop hflags' => exact absurd hflags hstop
  | noMemory hunread hunread' hnull hflags' hw =>
    have hsome := halloc 0
    rw [hnull] at hsome
    cases hsome
  | failed hunread hunread' hallocated hread =>
    obtain ⟨taken, rest', w₂, hread', _⟩ := (hallocated.delivers hrest).read hsize
    rw [hread] at hread'
    cases hread'
  | atEnd hunread hunread' hallocated hread =>
    obtain ⟨taken, rest', w₂, hread', _, hend, _⟩ := (hallocated.delivers hrest).read hsize
    rw [hread] at hread'
    cases hread'
    right
    exact ⟨rfl, by rw [hunread, (hend rfl).1, List.nil_append], hunread', (hend rfl).2⟩
  | @refilled c f' w₁ w' hunread hallocated hread hflags' =>
    obtain ⟨taken, rest', w₂, hread', hbytes, _, hrest'⟩ := (hallocated.delivers hrest).read hsize
    rw [hread] at hread'
    cases hread'
    left
    refine ⟨c, rest', rfl, ?_, hrest', hflags'.trans hflags⟩
    rw [hunread, hbytes, List.nil_append, List.cons_append]

/-! ## The loop -/

theorem ReadOnly.writesAll {w w' : World} (h : ReadOnly w w') (hwrites : WritesAll w) :
    WritesAll w' := fun i count => by rw [h.writes, hwrites i count]

theorem WriteOnly.delivers {w w' : World} (h : WriteOnly w w') {fd : ℤ} {bytes : List UInt8}
    (hdelivers : Delivers w fd bytes) : Delivers w' fd bytes := by
  obtain ⟨chunks, hne, hreads, hflatten⟩ := hdelivers
  exact ⟨chunks, hne, by rw [h.reads, hreads], hflatten⟩

/-- One pass of the loop moves one byte, so the bytes to come bound the passes. -/
theorem copyLoop_spec {fuel : ℕ} {input output : StdioBuff} {w : World} (hreader : Reader input)
    (hflags : input.flags = FL_READ) (hwriter : Writer output) (halloc : AllocOk w)
    (hwrites : WritesAll w) {rest : List UInt8} (hrest : Delivers w input.fd rest)
    (hfuel : (unread input ++ rest).length < fuel) :
    ∃ input' output' w', copyLoop fuel input output w = some (input', output', w') ∧
      unread input' = [] ∧ w'.reads input.fd = [] ∧ Writer output' ∧ WritesAll w' ∧
      output'.fd = output.fd ∧ written output' w' = written output w ++ (unread input ++ rest) := by
  induction fuel generalizing input output w rest with
  | zero => exact absurd hfuel (Nat.not_lt_zero _)
  | succ fuel ih =>
    obtain ⟨r, input₁, w₁, hgetc, hstep, hreader₁, hfd₁⟩ := getc_step hreader w
    have hframe := hstep.readOnly
    have hwritten : written output w₁ = written output w := by
      unfold written
      rw [hframe.output]
    rcases hstep.next hflags halloc hrest with
      ⟨c, rest₁, rfl, hnext, hrest₁, hflags₁⟩ | ⟨rfl, hnil, hunread₁, hreads₁⟩
    · obtain ⟨output₂, w₂, hputc, hput, happend⟩ :=
        putc_spec hwriter (hframe.mallocs halloc) (hframe.writesAll hwrites) c.toNat
      have hrest₂ : Delivers w₂ input₁.fd rest₁ := by
        rw [hfd₁]
        exact hput.frame.delivers hrest₁
      rw [hnext, List.length_cons] at hfuel
      obtain ⟨input', output', w', hloop, hunread, hreads, hwriter', hwrites', hfd', hall⟩ :=
        ih hreader₁ hflags₁ hput.writer (hput.frame.mallocs (hframe.mallocs halloc))
          (hput.frame.writes (hframe.writesAll hwrites)) hrest₂ (Nat.lt_of_succ_lt_succ hfuel)
      refine ⟨input', output', w', ?_, hunread, hfd₁ ▸ hreads, hwriter', hwrites',
        hfd'.trans hput.fd, ?_⟩
      · simp [copyLoop, hgetc, toNat_ne_EOF, hputc, hloop]
      · rw [hall, happend, hwritten, hnext, toByte_toNat, List.append_assoc]
        rfl
    · refine ⟨input₁, output, w₁, ?_, hunread₁, hreads₁, hwriter, hframe.writesAll hwrites,
        rfl, ?_⟩
      · simp [copyLoop, hgetc]
      · rw [hwritten, hnil, List.append_nil]

theorem stdin_reader : Reader (iob stdin) :=
  ⟨Or.inl rfl, fun h => absurd h (Int.lt_irrefl 0)⟩

theorem stdout_writer : Writer (iob stdout) where
  flags := rfl
  unallocated _ := ⟨rfl, rfl⟩
  allocated _ h := by cases h
  lastOp h := absurd h (Nat.lt_irrefl 0)

/-- The loop ends with the input used up and, after `fflush(stdout)`, copied to the output. -/
def CopiesInput (w : World) (chunks : List (List UInt8)) : Prop :=
  ∀ fuel > chunks.flatten.length, ∃ input output w',
    copyLoop fuel (iob stdin) (iob stdout) w = some (input, output, w') ∧
    unread input = [] ∧ w'.reads 0 = [] ∧
    (fflush output w').2.2.output 1 = w.output 1 ++ chunks.flatten

/-- The copy loop works for every way of splitting the input, given memory for the two
buffers. -/
theorem copies_input {w : World} {chunks : List (List UInt8)} (hne : ∀ chunk ∈ chunks, chunk ≠ [])
    (hreads : w.reads 0 = chunks.map some) (halloc : AllocOk w) (hwrites : WritesAll w) :
    CopiesInput w chunks := by
  intro fuel hfuel
  obtain ⟨input, output, w', hloop, hunread, hend, hwriter, hwrites', hfd, hall⟩ :=
    copyLoop_spec stdin_reader rfl stdout_writer halloc hwrites ⟨chunks, hne, hreads, rfl⟩ hfuel
  refine ⟨input, output, w', hloop, hunread, hend, ?_⟩
  obtain ⟨output', w'', hflush, _, hout, _⟩ := fflush_spec hwriter hwrites'
  have hone : output.fd = 1 := hfd
  rw [hflush, ← hone, hout, hall, hone]
  have hstart : written (iob stdout) w = w.output 1 := List.append_nil _
  rw [hstart]
  rfl

/-- Bytes 0 and 255 and a second chunk, on a system where the allocations are `memory`. -/
def threeBytes (memory : Option (ℕ → UInt8)) : World where
  mallocs _ := memory
  reads fd := if fd = 0 then [some [0, 255], some [65]] else []
  writes _ n := n
  opens _ _ _ := 3
  closes _ := 0
  delivered _ := []
  output _ := []

theorem copies_input_threeBytes :
    CopiesInput (threeBytes (some fun _ => 0)) [[0, 255], [65]] :=
  copies_input (by decide) rfl (fun _ => rfl) fun _ _ => rfl

/-- Without memory for its buffer `getchar` returns `EOF` at once. -/
theorem copy_stops_without_memory : ¬ CopiesInput (threeBytes none) [[0, 255], [65]] := by
  intro h
  obtain ⟨input, output, w', hloop, _, hreads, _⟩ := h 4 (by decide)
  have hstart : copyLoop 4 (iob stdin) (iob stdout) (threeBytes none) =
      some ({ iob stdin with lastOp := FL_READ }, iob stdout, threeBytes none) := rfl
  rw [hstart] at hloop
  cases hloop
  exact absurd hreads (by decide)

end InterviewQuestions.Stdio
