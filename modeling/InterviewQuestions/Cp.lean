import InterviewQuestions.Library.Extents

/-! `cp_no_holes.c` of `linux_internals/cp`: a copy that seeks over zero bytes. -/
namespace InterviewQuestions.Cp

open Library

/-- The bytes that successive calls of `read` return before the end of the file. -/
structure Reads (source : List UInt8) where
  chunks : List (List UInt8)
  nonempty : ∀ buf ∈ chunks, buf ≠ []
  fits : ∀ buf ∈ chunks, buf.length ≤ 4096
  flatten : chunks.flatten = source

/-- The destination, and all bytes passed to `write` so far. -/
structure Output where
  dest : SparseFile
  written : List UInt8
deriving DecidableEq

def Output.lseek (out : Output) (offset : ℕ) : Output := { out with dest := out.dest.seek offset }

def Output.write (out : Output) (bytes : List UInt8) : Output :=
  ⟨out.dest.write bytes, out.written ++ bytes⟩

/-- `while (i < n)`, where `rest` is `buf` from `i` to `n`; each pass takes a byte or more. -/
def copyChunk : ℕ → List UInt8 → Output → Output
  | 0, _, out => out
  | fuel + 1, rest, out =>
      if rest = [] then out
      else
        let zeros := rest.takeWhile (· = 0)
        let rest := rest.dropWhile (· = 0)
        let bytes := rest.takeWhile (· ≠ 0)
        copyChunk fuel (rest.dropWhile (· ≠ 0)) ((out.lseek zeros.length).write bytes)

/-- `while ((n = read(src, buf, sizeof(buf))) > 0)`, with a destination that `open` has
truncated. -/
def cpNoHoles {source : List UInt8} (reads : Reads source) : Output :=
  reads.chunks.foldl (fun out buf => copyChunk buf.length buf out) ⟨SparseFile.empty, []⟩

/-! The copy lacks the zeros at the end of the source, since a seek alone does not extend a
file; everything before them is there. -/

/-- The destination mirrors what has been read, without a zero byte written. -/
structure Copied (text : List UInt8) (out : Output) : Prop where
  mirrors : out.dest.Mirrors text
  written : 0 ∉ out.written

variable {text : List UInt8} {out : Output}

/-- One pass: a run of zeros and a run of other bytes. -/
theorem Copied.pass (h : Copied text out) (zeros bytes : List UInt8) (hzeros : ∀ b ∈ zeros, b = 0)
    (hbytes : ∀ b ∈ bytes, b ≠ 0) :
    Copied (text ++ zeros ++ bytes) ((out.lseek zeros.length).write bytes) := by
  constructor
  · rw [List.eq_replicate_iff.mpr ⟨rfl, hzeros⟩]
    apply SparseFile.Mirrors.write
    · rw [List.length_replicate]
      exact h.mirrors.seek zeros.length
    · exact fun hne => hbytes _ (List.getLast_mem hne)
  · rw [Output.write, List.mem_append, not_or]
    exact ⟨h.written, fun hmem => hbytes 0 hmem rfl⟩

/-- A pass leaves less of the chunk. -/
theorem pass_shorter {rest : List UInt8} (hrest : rest ≠ []) :
    ((rest.dropWhile (· = 0)).dropWhile (· ≠ 0)).length < rest.length := by
  cases rest with
  | nil => exact absurd rfl hrest
  | cons b rest =>
    rw [List.length_cons, Nat.lt_succ_iff]
    by_cases hb : b = 0
    · rw [List.dropWhile_cons_of_pos (by simpa using hb)]
      exact (List.length_dropWhile_le _ _).trans (List.length_dropWhile_le _ _)
    · rw [List.dropWhile_cons_of_neg (by simpa using hb),
        List.dropWhile_cons_of_pos (by simpa using hb)]
      exact List.length_dropWhile_le _ _

theorem Copied.copyChunk {fuel : ℕ} {rest : List UInt8} (h : Copied text out)
    (hfuel : rest.length ≤ fuel) : Copied (text ++ rest) (copyChunk fuel rest out) := by
  induction fuel generalizing text rest out with
  | zero =>
    rw [List.length_eq_zero_iff.mp (Nat.le_zero.mp hfuel), List.append_nil]
    exact h
  | succ fuel ih =>
    rw [Cp.copyChunk]
    by_cases hrest : rest = []
    · rw [if_pos hrest, hrest, List.append_nil]
      exact h
    · rw [if_neg hrest]
      simp only
      have hpass := h.pass (rest.takeWhile (· = 0)) ((rest.dropWhile (· = 0)).takeWhile (· ≠ 0))
        (fun b hb => by simpa using List.mem_takeWhile_imp hb)
        (fun b hb => by simpa using List.mem_takeWhile_imp hb)
      have hsplit : rest = rest.takeWhile (· = 0) ++
          ((rest.dropWhile (· = 0)).takeWhile (· ≠ 0) ++
            (rest.dropWhile (· = 0)).dropWhile (· ≠ 0)) := by
        rw [List.takeWhile_append_dropWhile, List.takeWhile_append_dropWhile]
      have hnext := ih hpass (Nat.le_of_lt_succ (Nat.lt_of_lt_of_le (pass_shorter hrest) hfuel))
      rwa [List.append_assoc, List.append_assoc, ← hsplit] at hnext

theorem Copied.copyChunks (h : Copied text out) (chunks : List (List UInt8)) :
    Copied (text ++ chunks.flatten)
      (chunks.foldl (fun out buf => Cp.copyChunk buf.length buf out) out) := by
  induction chunks generalizing text out with
  | nil =>
    rw [List.flatten_nil, List.append_nil]
    exact h
  | cons buf chunks ih =>
    rw [List.flatten_cons, ← List.append_assoc, List.foldl_cons]
    exact ih (h.copyChunk (Nat.le_refl _))

/-- What the destination holds in every case. -/
theorem copied_cpNoHoles {source : List UInt8} (reads : Reads source) :
    Copied source (cpNoHoles reads) := by
  have hempty : Copied [] ⟨SparseFile.empty, []⟩ :=
    ⟨SparseFile.mirrors_empty, List.not_mem_nil⟩
  have hcopied := hempty.copyChunks reads.chunks
  rwa [List.nil_append, reads.flatten] at hcopied

/-- However `read` splits the source, the destination is a copy made without writing a zero byte
if and only if the source does not end in a zero byte. -/
theorem cp_no_holes_copies {source : List UInt8} (reads : Reads source) :
    ((cpNoHoles reads).dest.content = source ∧ 0 ∉ (cpNoHoles reads).written) ↔
      source.getLast? ≠ some 0 := by
  obtain ⟨⟨_, hcontent⟩, hwritten⟩ := copied_cpNoHoles reads
  rw [and_iff_left hwritten, hcontent, List.rdropWhile_eq_self_iff]
  cases hsource : source.getLast? with
  | none =>
    rw [List.getLast?_eq_none_iff] at hsource
    simp [hsource]
  | some b =>
    rw [List.getLast?_eq_some_iff] at hsource
    obtain ⟨before, hbefore⟩ := hsource
    simp [hbefore]

/-- A single zero byte is copied to an empty file. -/
theorem cp_no_holes_truncates :
    (cpNoHoles (⟨[[0]], List.forall_mem_singleton.mpr (List.cons_ne_nil 0 []),
      List.forall_mem_singleton.mpr (by decide), rfl⟩ : Reads [0])).dest.content ≠ [0] := by
  decide

end InterviewQuestions.Cp
