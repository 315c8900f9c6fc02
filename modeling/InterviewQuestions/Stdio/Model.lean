import Mathlib.Data.Int.Notation
import Mathlib.Data.Nat.Notation
import Mathlib.Logic.Function.Basic

/-! The buffered streams of `knowledge_based/linux_internals/stdio/stdio.c`. The
allocator and the system calls answer from scripts in a `World`; a function
returns `none` when it would access memory outside a buffer. -/
namespace InterviewQuestions.Stdio

def OPEN_MAX : ℕ := 20
def BUFF_SIZE : ℕ := 1024
def EOF : ℤ := -1

abbrev Flags := BitVec 32

def FL_READ : Flags := 1
def FL_WRITE : Flags := 2
def FL_EOF : Flags := 4
def FL_ERR : Flags := 8
def FL_UNBUF : Flags := 16

/-- `struct stdio_buff`, with `next` as an offset from `buff` (0 while both are `NULL`). -/
structure StdioBuff where
  buffCnt : ℤ
  next : ℕ
  buff : Option (List UInt8)
  flags : Flags
  fd : ℤ
  lastOp : Flags

/-- The flags that `fopen` passes to `open`. -/
structure OpenFlags where
  read : Bool
  write : Bool
  create : Bool
  truncate : Bool
  append : Bool
deriving DecidableEq

/-! ## The system below the library -/

/-- What the coming allocations and system calls will answer, and what the calls so
far have moved. `mallocs` gives `none` for `NULL` and otherwise the bytes the new block
happens to hold; a descriptor's reads are `none` for an error or the bytes available. -/
structure World where
  mallocs : ℕ → Option (ℕ → UInt8)
  reads : ℤ → List (Option (List UInt8))
  writes : ℕ → ℕ → ℤ
  opens : ℕ → String → OpenFlags → ℤ
  closes : ℕ → ℤ
  delivered : ℤ → List UInt8
  output : ℤ → List UInt8

/-- A system in which every call succeeds and nothing can be read. -/
def quiet : World where
  mallocs _ := some fun _ => 0
  reads _ := []
  writes _ n := n
  opens _ _ _ := 3
  closes _ := 0
  delivered _ := []
  output _ := []

namespace World

def malloc (w : World) (size : ℕ) : Option (List UInt8) × World :=
  ((w.mallocs 0).map fun fill => (List.range size).map fill,
    { w with mallocs := fun i => w.mallocs (i + 1) })

/-- `none` for -1. At most `count` bytes are delivered; the rest of a longer chunk stays
available. The end of the script is the end of the file. -/
def read (w : World) (fd : ℤ) (count : ℕ) : Option (List UInt8) × World :=
  match w.reads fd with
  | [] => (some [], w)
  | none :: rest => (none, { w with reads := Function.update w.reads fd rest })
  | some chunk :: rest =>
      let rest := if chunk.length ≤ count then rest else some (chunk.drop count) :: rest
      (some (chunk.take count), { w with
        reads := Function.update w.reads fd rest
        delivered := Function.update w.delivered fd (w.delivered fd ++ chunk.take count) })

def write (w : World) (fd : ℤ) (bytes : List UInt8) : ℤ × World :=
  let res := w.writes 0 bytes.length
  (res, { w with
    writes := fun i => w.writes (i + 1)
    output := Function.update w.output fd (w.output fd ++ bytes.take res.toNat) })

def open' (w : World) (name : String) (oflags : OpenFlags) : ℤ × World :=
  (w.opens 0 name oflags, { w with opens := fun i => w.opens (i + 1) })

def close (w : World) : ℤ × World :=
  (w.closes 0, { w with closes := fun i => w.closes (i + 1) })

end World

/-! ## Reading -/

/-- The conversion of an `int` to the `char` that is stored. -/
def toByte (c : ℤ) : UInt8 := UInt8.ofNat (c % 256).toNat

/-- The value of a stored `char`, which is signed. -/
def charValue (b : UInt8) : ℤ := if b.toNat < 128 then b.toNat else b.toNat - 256

/-- The end of `fillbuff`, once the stream has a buffer. -/
def refill (f : StdioBuff) (w : World) (buff : List UInt8) (buffsize : ℕ) :
    ℤ × StdioBuff × World :=
  match w.read f.fd buffsize with
  | (none, w) =>
      (EOF, { f with next := 0, buffCnt := -1, flags := f.flags ||| FL_ERR }, w)
  | (some [], w) =>
      (EOF, { f with next := 0, buffCnt := 0, flags := f.flags ||| FL_EOF }, w)
  | (some (c :: bytes), w) =>
      -- `read` stores at the start of the buffer, and the first byte is returned
      (c.toNat, { f with
        next := 1
        buffCnt := bytes.length
        buff := some ((c :: bytes) ++ buff.drop (bytes.length + 1)) }, w)

def fillbuff (f : StdioBuff) (w : World) : ℤ × StdioBuff × World :=
  if f.flags &&& (FL_READ ||| FL_EOF ||| FL_ERR) ≠ FL_READ then (EOF, f, w)
  else
    let buffsize := if f.flags &&& FL_UNBUF ≠ 0 then 1 else BUFF_SIZE
    match f.buff with
    | some buff => refill f w buff buffsize
    | none =>
        match w.malloc buffsize with
        | (none, w) => (EOF, f, w)
        | (some buff, w) => refill { f with buff := some buff } w buff buffsize

def getc (f : StdioBuff) (w : World) : Option (ℤ × StdioBuff × World) :=
  let f := { f with lastOp := FL_READ }
  if f.buffCnt > 0 then
    (f.buff.bind (·[f.next]?)).map fun c =>
      (c.toNat, { f with buffCnt := f.buffCnt - 1, next := f.next + 1 }, w)
  else some (fillbuff f w)

/-! ## Writing -/

/-- `f->buff_cnt--` and `*f->next++ = c` -/
def store (f : StdioBuff) (c : ℤ) : Option StdioBuff :=
  f.buff.bind fun buff =>
    if f.next < buff.length then
      some { f with
        buffCnt := f.buffCnt - 1
        next := f.next + 1
        buff := some (buff.set f.next (toByte c)) }
    else none

/-- The end of `flushbuf`, once the stream has a buffer. -/
def flushStore (c : ℤ) (f : StdioBuff) (w : World) (buff : List UInt8) :
    Option (ℤ × StdioBuff × World) :=
  if f.next > 0 then
    let (res, w) := w.write f.fd (buff.take f.next)
    if res ≠ f.next then some (EOF, { f with flags := f.flags ||| FL_ERR }, w)
    else
      (store { f with next := 0, buffCnt := BUFF_SIZE } c).map fun f => ((toByte c).toNat, f, w)
  else (store f c).map fun f => ((toByte c).toNat, f, w)

def flushbuf (c : ℤ) (f : StdioBuff) (w : World) : Option (ℤ × StdioBuff × World) :=
  if f.flags &&& (FL_WRITE ||| FL_EOF ||| FL_ERR) ≠ FL_WRITE then some (EOF, f, w)
  else if f.flags &&& FL_UNBUF ≠ 0 then
    let (res, w) := w.write f.fd [toByte c]
    if res ≠ 1 then some (EOF, { f with flags := f.flags ||| FL_ERR }, w) else some (c, f, w)
  else
    match f.buff with
    | some buff => flushStore c f w buff
    | none =>
        match w.malloc BUFF_SIZE with
        | (none, w) => some (EOF, { f with buffCnt := BUFF_SIZE, next := 0 }, w)
        | (some buff, w) =>
            flushStore c { f with buff := some buff, buffCnt := BUFF_SIZE, next := 0 } w buff

/-- The fast path returns the stored `char`, the slow one what `flushbuf` returns. -/
def putc (c : ℤ) (f : StdioBuff) (w : World) : Option (ℤ × StdioBuff × World) :=
  let f := { f with lastOp := FL_WRITE }
  if f.buffCnt > 0 then (store f c).map fun f => (charValue (toByte c), f, w)
  else flushbuf c f w

def fflush (f : StdioBuff) (w : World) : ℤ × StdioBuff × World :=
  match f.buff with
  | none => (EOF, f, w)
  | some buff =>
      if f.flags &&& FL_WRITE ≠ 0 ∧ f.flags &&& FL_UNBUF = 0 ∧ f.next > 0 ∧ f.lastOp = FL_WRITE then
        let (writeRes, w) := w.write f.fd (buff.take f.next)
        (if writeRes = 0 then 0 else EOF, { f with next := 0, buffCnt := BUFF_SIZE }, w)
      else (EOF, f, w)

/-! ## Streams -/

/-- The static table `iob`. -/
abbrev Iob := Fin OPEN_MAX → StdioBuff

def iob : Iob := fun slot =>
  match slot.val with
  | 0 => ⟨0, 0, none, FL_READ, 0, 0⟩
  | 1 => ⟨0, 0, none, FL_WRITE, 1, 0⟩
  | 2 => ⟨0, 0, none, FL_WRITE ||| FL_UNBUF, 2, 0⟩
  | _ => ⟨0, 0, none, 0, 0, 0⟩

def stdin : Fin OPEN_MAX := ⟨0, by decide⟩
def stdout : Fin OPEN_MAX := ⟨1, by decide⟩
def stderr : Fin OPEN_MAX := ⟨2, by decide⟩

/-- The modes that `fopen` accepts, with its `oflags` and `iolib_flags`. -/
def modeFlags (mode : String) : Option (OpenFlags × Flags) :=
  if mode = "r" ∨ mode = "rb" then
    some (⟨true, false, false, false, false⟩, FL_READ)
  else if mode = "r+" ∨ mode = "r+b" ∨ mode = "rb+" then
    some (⟨true, true, false, false, false⟩, FL_READ)
  else if mode = "w" ∨ mode = "wb" then
    some (⟨false, true, true, true, false⟩, FL_WRITE)
  else if mode = "w+" ∨ mode = "w+b" ∨ mode = "wb+" then
    some (⟨true, true, true, true, false⟩, FL_WRITE)
  else if mode = "a" ∨ mode = "ab" then
    some (⟨false, true, true, false, true⟩, FL_WRITE)
  else if mode = "a+" ∨ mode = "a+b" ∨ mode = "ab+" then
    some (⟨true, true, true, false, true⟩, FL_WRITE)
  else none

/-- The loop that looks for a slot with no flags. -/
def freeSlot (iob : Iob) : Option (Fin OPEN_MAX) :=
  (List.finRange OPEN_MAX).find? fun slot => (iob slot).flags = 0

def fopen (iob : Iob) (name mode : String) (w : World) : Option (Fin OPEN_MAX) × Iob × World :=
  match modeFlags mode with
  | none => (none, iob, w)
  | some (oflags, iolibFlags) =>
      match freeSlot iob with
      | none => (none, iob, w)
      | some slot =>
          let (fd, w) := w.open' name oflags
          if fd < 0 then (none, iob, w)
          else
            let f := { iob slot with
              buffCnt := 0, next := 0, buff := none, flags := iolibFlags, fd := fd }
            (some slot, Function.update iob slot f, w)

/-- `fclose` of a stream that is not `NULL`. The freed buffer stays in the structure. -/
def closeStream (f : StdioBuff) (w : World) : ℤ × StdioBuff × World :=
  let (flushRes, f, w) := fflush f w
  let (closeRes, w) := w.close
  (if flushRes = 0 ∧ closeRes = 0 then 0 else EOF, f, w)

def fclose (iob : Iob) (f : Option (Fin OPEN_MAX)) (w : World) : ℤ × Iob × World :=
  match f with
  | none => (EOF, iob, w)
  | some slot =>
      let (res, f, w) := closeStream (iob slot) w
      (res, Function.update iob slot f, w)

/-- The loop of `main` that copies `stdin` to `stdout`, for at most `fuel` calls of `getchar`. -/
def copyLoop : ℕ → StdioBuff → StdioBuff → World → Option (StdioBuff × StdioBuff × World)
  | 0, _, _, _ => none
  | fuel + 1, input, output, w => do
      let (c, input, w) ← getc input w
      if c = EOF then some (input, output, w)
      else
        let (_, output, w) ← putc c output w
        copyLoop fuel input output w

end InterviewQuestions.Stdio
