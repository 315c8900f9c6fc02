import InterviewQuestions.Library.Machine
import InterviewQuestions.Library.Threads
import Mathlib.Data.Fintype.Order

/-! `copy_buf` of `threads/copy_buffers/solution.c`. A step is one lock, one unlock or one byte
of `memcpy`. -/
namespace InterviewQuestions.CopyBuffers

variable {Tid : Type*}

def BUF_SIZE : ℕ := 1024

def BUFFERS : ℕ := 100

/-- A valid index into `bufs` and `buf_locks`. -/
abbrev Index := Fin BUFFERS

/-- What a call copies. -/
structure Call where
  dest_idx : Index
  src_idx : Index
deriving DecidableEq

def Call.first (c : Call) : Index := min c.dest_idx c.src_idx

def Call.second (c : Call) : Index := max c.dest_idx c.src_idx

abbrev Buffers := Index → Fin BUF_SIZE → UInt8

/-- What a thread is about to do in its call. -/
inductive Pc where
  | outside
  | compare (c : Call)
  | lockFirst (c : Call)
  | lockSecond (c : Call)
  -- `memcpy` has copied this many bytes
  | copyByte (c : Call) (copied : ℕ)
  | unlockSecond (c : Call)
  | unlockFirst (c : Call)
deriving DecidableEq

/-- The buffers, their locks and the threads, with the calls made so far, in order. -/
structure State (Tid : Type*) where
  bufs : Buffers
  bufLocks : Index → Option Tid
  pc : Tid → Pc
  called : List (Tid × Call)

def init (bufs : Buffers) : State Tid where
  bufs := bufs
  bufLocks _ := none
  pc _ := .outside
  called := []

variable [DecidableEq Tid]

namespace State

def goto (s : State Tid) (t : Tid) (p : Pc) : State Tid :=
  { s with pc := Function.update s.pc t p }

def lock (s : State Tid) (t : Tid) (b : Index) (p : Pc) : State Tid :=
  { s.goto t p with bufLocks := Function.update s.bufLocks b (some t) }

def unlock (s : State Tid) (t : Tid) (b : Index) (p : Pc) : State Tid :=
  { s.goto t p with bufLocks := Function.update s.bufLocks b none }

/-- One byte of `memcpy(bufs[dest_idx], bufs[src_idx], BUF_SIZE)`. -/
def copyByte (s : State Tid) (t : Tid) (c : Call) (copied : ℕ) : State Tid :=
  if hlt : copied < BUF_SIZE then
    { s.goto t (.copyByte c (copied + 1)) with
      bufs := Function.update s.bufs c.dest_idx
        (Function.update (s.bufs c.dest_idx) ⟨copied, hlt⟩ (s.bufs c.src_idx ⟨copied, hlt⟩)) }
  else s.goto t (.unlockSecond c)

def exec (s : State Tid) (t : Tid) : State Tid :=
  match s.pc t with
  | .outside => s
  | .compare c => s.goto t (if c.dest_idx = c.src_idx then .outside else .lockFirst c)
  | .lockFirst c => s.lock t c.first (.lockSecond c)
  | .lockSecond c => s.lock t c.second (.copyByte c 0)
  | .copyByte c copied => s.copyByte t c copied
  | .unlockSecond c => s.unlock t c.second (.unlockFirst c)
  | .unlockFirst c => s.unlock t c.first .outside

/-- Whether a thread can go on with its call. -/
def ready (s : State Tid) : Pc → Bool
  | .outside => false
  | .lockFirst c => (s.bufLocks c.first).isNone
  | .lockSecond c => (s.bufLocks c.second).isNone
  | _ => true

end State

inductive Action (Tid : Type*) where
  | copyBuf (t : Tid) (c : Call)
  | exec (t : Tid)

def step (s : State Tid) : Action Tid → State Tid × Unit
  | .copyBuf t c => ({ s.goto t (.compare c) with called := s.called ++ [(t, c)] }, ())
  | .exec t => (s.exec t, ())

def Enabled (s : State Tid) : Action Tid → Prop
  | .copyBuf t _ => s.pc t = .outside
  | .exec t => s.ready (s.pc t)

instance decidableEnabled (s : State Tid) : ∀ a, Decidable (Enabled s a)
  | .copyBuf t _ => inferInstanceAs (Decidable (s.pc t = .outside))
  | .exec t => inferInstanceAs (Decidable (s.ready (s.pc t) = true))

end InterviewQuestions.CopyBuffers

/-! Concurrent copies are serializable and never deadlock. A call takes effect when its last
byte is copied, with both locks held; the locks are taken in ascending order. -/
namespace InterviewQuestions.CopyBuffers

open Library Library.Threads

variable {Tid : Type*}

/-- What a call does when nothing else runs. -/
def Call.copy (c : Call) (bufs : Buffers) : Buffers :=
  Function.update bufs c.dest_idx (bufs c.src_idx)

/-- The calls of a list, one after another. -/
def sequential (bufs : Buffers) (order : List (Tid × Call)) : Buffers :=
  order.foldl (fun bufs call => call.2.copy bufs) bufs

@[simp] theorem sequential_concat (bufs : Buffers) (order : List (Tid × Call)) (t : Tid)
    (c : Call) : sequential bufs (order ++ [(t, c)]) = c.copy (sequential bufs order) := by
  simp [sequential]

theorem Call.copy_self {c : Call} (hself : c.dest_idx = c.src_idx) (bufs : Buffers) :
    c.copy bufs = bufs := by
  rw [Call.copy, hself, Function.update_eq_self]

theorem Call.first_lt_second {c : Call} (hne : c.dest_idx ≠ c.src_idx) : c.first < c.second :=
  min_lt_max.mpr hne

namespace Pc

/-- The statements executed with `buf_locks[b]` locked. -/
def holds (b : Index) : Pc → Bool
  | .lockSecond c | .unlockFirst c => decide (c.first = b)
  | .copyByte c _ | .unlockSecond c => decide (c.first = b) || decide (c.second = b)
  | _ => false

/-- The lock that a thread is about to take. -/
def wants : Pc → Option Index
  | .lockFirst c => some c.first
  | .lockSecond c => some c.second
  | _ => none

/-- The call of a thread that has not taken effect. -/
def pending : Pc → Option Call
  | .compare c | .lockFirst c | .lockSecond c | .copyByte c _ => some c
  | _ => none

/-- The call of a thread that has found its two indices to differ. -/
def locking : Pc → Option Call
  | .lockFirst c | .lockSecond c | .copyByte c _ | .unlockSecond c | .unlockFirst c => some c
  | _ => none

theorem holds_dest (c : Call) (copied : ℕ) : (copyByte c copied).holds c.dest_idx = true := by
  cases le_total c.dest_idx c.src_idx with
  | inl hle => simp [holds, Call.first, Call.second, hle]
  | inr hle => simp [holds, Call.first, Call.second, hle]

theorem holds_src (c : Call) (copied : ℕ) : (copyByte c copied).holds c.src_idx = true := by
  cases le_total c.dest_idx c.src_idx with
  | inl hle => simp [holds, Call.first, Call.second, hle]
  | inr hle => simp [holds, Call.first, Call.second, hle]

end Pc

variable [DecidableEq Tid]

/-- In this order the calls that have taken effect would have left the buffers as they are, but
for the bytes that the calls under way have copied. -/
structure Serial (bufs : Buffers) (order : List (Tid × Call)) (s : State Tid) : Prop where
  owner : ∀ b, Owned (Pc.holds b) s.pc (s.bufLocks b)
  distinct : ∀ t c, (s.pc t).locking = some c → c.dest_idx ≠ c.src_idx
  history : ∀ t, s.called.filter (fun call => call.1 = t) =
    order.filter (fun call => call.1 = t) ++ (s.pc t).pending.toList.map fun c => (t, c)
  settled : ∀ b, (∀ t c copied, s.pc t = .copyByte c copied → c.dest_idx ≠ b) →
    s.bufs b = sequential bufs order b
  copying : ∀ t c copied, s.pc t = .copyByte c copied → ∀ i, s.bufs c.dest_idx i =
    if i.val < copied then sequential bufs order c.src_idx i
    else sequential bufs order c.dest_idx i

variable {bufs : Buffers} {order : List (Tid × Call)} {s : State Tid} {t : Tid} {p : Pc}

theorem serial_init (bufs : Buffers) : Serial bufs [] (init bufs : State Tid) where
  owner b := owned_init rfl
  distinct t c h := by cases h
  history t := rfl
  settled b _ := rfl
  copying t c copied h := by cases h

/-- Two calls that copy at the same time write different buffers, and neither reads what the
other writes. -/
theorem Serial.apart (h : Serial bufs order s) {u : Tid} {c c' : Call} {copied copied' : ℕ}
    (ht : s.pc t = .copyByte c copied) (hu : s.pc u = .copyByte c' copied') (hne : u ≠ t) :
    c'.dest_idx ≠ c.dest_idx ∧ c'.dest_idx ≠ c.src_idx := by
  have hdest : (s.pc t).holds c.dest_idx = true := by rw [ht, Pc.holds_dest]
  have hsrc : (s.pc t).holds c.src_idx = true := by rw [ht, Pc.holds_src]
  have hother : (s.pc u).holds c'.dest_idx = true := by rw [hu, Pc.holds_dest]
  constructor
  · intro heq
    rw [heq] at hother
    exact hne ((h.owner _).unique hdest hother)
  · intro heq
    rw [heq] at hother
    exact hne ((h.owner _).unique hsrc hother)

theorem Serial.distinct_goto (h : Serial bufs order s)
    (hdistinct : ∀ c, p.locking = some c → c.dest_idx ≠ c.src_idx) (u : Tid) (c : Call) :
    (Function.update s.pc t p u).locking = some c → c.dest_idx ≠ c.src_idx :=
  (Function.forall_update_iff s.pc fun _ q =>
    ∀ c, q.locking = some c → c.dest_idx ≠ c.src_idx).mpr ⟨hdistinct, fun u _ => h.distinct u⟩ u c

theorem Serial.distinct_keep (h : Serial bufs order s) (hkeep : p.locking = (s.pc t).locking)
    (u : Tid) (c : Call) :
    (Function.update s.pc t p u).locking = some c → c.dest_idx ≠ c.src_idx :=
  h.distinct_goto (fun c' hc => h.distinct t c' (hkeep ▸ hc)) u c

/-- A buffer that neither the thread nor any other copies into. -/
theorem Serial.settled_elsewhere (h : Serial bufs order s) {c : Call} {copied : ℕ}
    (hpc : s.pc t = .copyByte c copied) {b : Index} (hb : b ≠ c.dest_idx)
    (hnone : ∀ u c' copied', Function.update s.pc t p u = .copyByte c' copied' →
      c'.dest_idx ≠ b) : s.bufs b = sequential bufs order b := by
  apply h.settled b
  intro u c' copied' hu
  by_cases hut : u = t
  · rw [hut, hpc] at hu
    cases hu
    exact Ne.symm hb
  · apply hnone u c' copied'
    rw [Function.update_of_ne hut, hu]

/-! ## Steps -/

/-- A thread that is not copying goes on to another such statement. -/
theorem Serial.move (h : Serial bufs order s) {bufLocks : Index → Option Tid}
    {called order' : List (Tid × Call)}
    (howner : ∀ b, Owned (Pc.holds b) (Function.update s.pc t p) (bufLocks b))
    (hdistinct : ∀ c, p.locking = some c → c.dest_idx ≠ c.src_idx)
    (hhistory : ∀ u, called.filter (fun call => call.1 = u) =
      order'.filter (fun call => call.1 = u) ++
        (Function.update s.pc t p u).pending.toList.map fun c => (u, c))
    (hbefore : ∀ c copied, s.pc t ≠ .copyByte c copied)
    (hafter : ∀ c copied, p ≠ .copyByte c copied)
    (horder : sequential bufs order' = sequential bufs order) :
    Serial bufs order' { s.goto t p with bufLocks := bufLocks, called := called } where
  owner := howner
  distinct := h.distinct_goto hdistinct
  history := hhistory
  settled b hnone := by
    rw [horder]
    apply h.settled b
    intro u c copied hu
    apply hnone u c copied
    have hut : u ≠ t := by
      intro heq
      rw [heq] at hu
      exact hbefore c copied hu
    simp only [State.goto, Function.update_of_ne hut, hu]
  copying u c copied hu := by
    rw [horder]
    exact h.copying u c copied (stood hu (hafter c copied))

/-- A thread that is outside calls `copy_buf`. -/
theorem Serial.call (h : Serial bufs order s) (hpc : s.pc t = .outside) (c : Call) :
    Serial bufs order (step s (.copyBuf t c)).1 := by
  apply h.move (p := .compare c)
  · exact fun b => (h.owner b).goto (by rw [hpc]; rfl)
  · intro c' hc
    cases hc
  · intro u
    have hhistory := h.history u
    by_cases hut : u = t
    · subst hut
      rw [hpc] at hhistory
      simp [List.filter_append, hhistory, Pc.pending]
    · simp [List.filter_append, hhistory, Function.update_of_ne hut, Ne.symm hut]
  · simp [hpc]
  · simp
  · rfl

/-- The history when the call of a thread takes effect. -/
theorem Serial.history_commit (h : Serial bufs order s) {c : Call}
    (hbefore : (s.pc t).pending = some c) (hafter : p.pending = none) (u : Tid) :
    s.called.filter (fun call => call.1 = u) =
      (order ++ [(t, c)]).filter (fun call => call.1 = u) ++
        (Function.update s.pc t p u).pending.toList.map fun c => (u, c) := by
  have hhistory := h.history u
  by_cases hut : u = t
  · subst hut
    simp [List.filter_append, hhistory, hbefore, hafter]
  · simp [List.filter_append, hhistory, Function.update_of_ne hut, Ne.symm hut]

/-- The history when a thread keeps its call, or has none. -/
theorem Serial.history_keep (h : Serial bufs order s) (hkeep : p.pending = (s.pc t).pending)
    (u : Tid) : s.called.filter (fun call => call.1 = u) =
      order.filter (fun call => call.1 = u) ++
        (Function.update s.pc t p u).pending.toList.map fun c => (u, c) := by
  by_cases hut : u = t
  · subst hut
    rw [Function.update_self, hkeep]
    exact h.history u
  · rw [Function.update_of_ne hut]
    exact h.history u

/-- A lock is taken, and the other locks stay with their holders. -/
theorem Serial.owner_lock (h : Serial bufs order s) {b : Index} (hfree : s.bufLocks b = none)
    (hheld : p.holds b = true) (hothers : ∀ b', b' ≠ b → p.holds b' = (s.pc t).holds b')
    (b' : Index) :
    Owned (Pc.holds b') (Function.update s.pc t p) (Function.update s.bufLocks b (some t) b') := by
  by_cases hb : b' = b
  · subst hb
    rw [Function.update_self]
    have howner := h.owner b'
    rw [hfree] at howner
    exact howner.lock hheld
  · rw [Function.update_of_ne hb]
    exact (h.owner b').goto (hothers b' hb)

theorem Serial.owner_unlock (h : Serial bufs order s) {b : Index}
    (hbefore : (s.pc t).holds b = true) (hafter : p.holds b = false)
    (hothers : ∀ b', b' ≠ b → p.holds b' = (s.pc t).holds b') (b' : Index) :
    Owned (Pc.holds b') (Function.update s.pc t p) (Function.update s.bufLocks b none b') := by
  by_cases hb : b' = b
  · subst hb
    rw [Function.update_self]
    exact (h.owner b').unlock hbefore hafter
  · rw [Function.update_of_ne hb]
    exact (h.owner b').goto (hothers b' hb)

theorem Serial.compare (h : Serial bufs order s) {c : Call} (hpc : s.pc t = .compare c) :
    ∃ order', Serial bufs order' (s.exec t) := by
  have hpending : (s.pc t).pending = some c := by rw [hpc, Pc.pending]
  rw [State.exec, hpc]
  simp only
  by_cases heq : c.dest_idx = c.src_idx
  · rw [if_pos heq]
    exists order ++ [(t, c)]
    apply h.move
    · exact fun b => (h.owner b).goto (by rw [hpc]; rfl)
    · intro c' hc
      cases hc
    · exact h.history_commit hpending rfl
    · simp [hpc]
    · simp
    · rw [sequential_concat, Call.copy_self heq]
  · rw [if_neg heq]
    exists order
    apply h.move
    · exact fun b => (h.owner b).goto (by rw [hpc]; rfl)
    · intro c' hc
      cases hc
      exact heq
    · exact h.history_keep hpending.symm
    · simp [hpc]
    · simp
    · rfl

theorem Serial.lockFirst (h : Serial bufs order s) {c : Call} (hpc : s.pc t = .lockFirst c)
    (hfree : s.bufLocks c.first = none) : Serial bufs order (s.exec t) := by
  rw [State.exec, hpc]
  apply h.move
  · apply h.owner_lock hfree
    · exact decide_eq_true rfl
    · intro b' hb
      rw [hpc]
      exact decide_eq_false (Ne.symm hb)
  · exact fun c' hc => h.distinct t c' (by rw [hpc]; exact hc)
  · exact h.history_keep (by rw [hpc]; rfl)
  · simp [hpc]
  · simp
  · rfl

/-- With both locks held nobody else copies into either buffer, so nothing of the call's
destination has been copied. -/
theorem Serial.lockSecond (h : Serial bufs order s) {c : Call} (hpc : s.pc t = .lockSecond c)
    (hfree : s.bufLocks c.second = none) : Serial bufs order (s.exec t) := by
  have howner : ∀ b, Owned (Pc.holds b) (Function.update s.pc t (.copyByte c 0))
      (Function.update s.bufLocks c.second (some t) b) := by
    apply h.owner_lock hfree
    · simp [Pc.holds]
    · intro b' hb
      rw [hpc]
      simp [Pc.holds, Ne.symm hb]
  have hothers : ∀ u c' copied, s.pc u = .copyByte c' copied → c'.dest_idx ≠ c.dest_idx := by
    intro u c' copied hu heq
    have hut : u ≠ t := by
      intro hut
      rw [hut, hpc] at hu
      cases hu
    apply hut
    apply (howner c.dest_idx).unique
    · rw [Function.update_self, Pc.holds_dest]
    · rw [Function.update_of_ne hut, hu, ← heq, Pc.holds_dest]
  rw [State.exec, hpc]
  constructor
  case owner => exact howner
  case distinct => exact h.distinct_keep (by rw [hpc]; rfl)
  case history => exact h.history_keep (by rw [hpc]; rfl)
  case settled =>
    intro b hnone
    apply h.settled b
    intro u c' copied hu
    apply hnone u c' copied
    have hut : u ≠ t := by
      intro hut
      rw [hut, hpc] at hu
      cases hu
    simp only [State.lock, State.goto, Function.update_of_ne hut, hu]
  case copying =>
    intro u c' copied hu i
    by_cases hut : u = t
    · simp only [State.lock, State.goto, hut, Function.update_self, Pc.copyByte.injEq] at hu
      rw [← hu.1, ← hu.2, if_neg (Nat.not_lt_zero _)]
      exact congrFun (h.settled c.dest_idx hothers) i
    · simp only [State.lock, State.goto, Function.update_of_ne hut] at hu
      exact h.copying u c' copied hu i

/-- One more byte is copied. -/
theorem Serial.copyByte (h : Serial bufs order s) {c : Call} {copied : ℕ}
    (hpc : s.pc t = .copyByte c copied) (hlt : copied < BUF_SIZE) :
    Serial bufs order (s.copyByte t c copied) := by
  have hdistinct := h.distinct t c (by rw [hpc, Pc.locking])
  have hsrc : s.bufs c.src_idx = sequential bufs order c.src_idx := by
    apply h.settled
    intro u c' copied' hu
    by_cases hut : u = t
    · rw [hut, hpc] at hu
      cases hu
      exact hdistinct
    · exact (h.apart hpc hu hut).2
  rw [State.copyByte, dif_pos hlt]
  constructor
  case owner => exact fun b => (h.owner b).goto (by rw [hpc]; rfl)
  case distinct => exact h.distinct_keep (by rw [hpc]; rfl)
  case history => exact h.history_keep (by rw [hpc]; rfl)
  case settled =>
    intro b hnone
    have hb : b ≠ c.dest_idx := Ne.symm (hnone t c (copied + 1) (by simp [State.goto]))
    simp only [Function.update_of_ne hb]
    exact h.settled_elsewhere hpc hb hnone
  case copying =>
    intro u c' copied' hu i
    by_cases hut : u = t
    · simp only [State.goto, hut, Function.update_self, Pc.copyByte.injEq] at hu
      obtain ⟨hcall, hcopied⟩ := hu
      subst hcall hcopied
      have hbefore := h.copying t c copied hpc i
      simp only [Function.update_self]
      by_cases hi : i = ⟨copied, hlt⟩
      · subst hi
        rw [Function.update_self, if_pos (Nat.lt_succ_self copied), hsrc]
      · have hne : i.val ≠ copied := fun hval => hi (Fin.ext hval)
        rw [Function.update_of_ne hi, hbefore]
        simp only [Nat.lt_succ_iff_lt_or_eq, hne, or_false]
    · simp only [State.goto, Function.update_of_ne hut] at hu
      have hapart := (h.apart hpc hu hut).1
      simp only [Function.update_of_ne hapart]
      exact h.copying u c' copied' hu i

/-- After the last byte the call has taken effect. -/
theorem Serial.commit (h : Serial bufs order s) {c : Call} {copied : ℕ}
    (hpc : s.pc t = .copyByte c copied) (hge : BUF_SIZE ≤ copied) :
    Serial bufs (order ++ [(t, c)]) (s.copyByte t c copied) := by
  rw [State.copyByte, dif_neg (Nat.not_lt_of_le hge)]
  constructor
  case owner => exact fun b => (h.owner b).goto (by rw [hpc]; rfl)
  case distinct => exact h.distinct_keep (by rw [hpc]; rfl)
  case history => exact h.history_commit (by rw [hpc, Pc.pending]) rfl
  case settled =>
    intro b hnone
    rw [sequential_concat, Call.copy]
    by_cases hb : b = c.dest_idx
    · rw [hb, Function.update_self]
      funext i
      have hall := h.copying t c copied hpc i
      rw [if_pos (Nat.lt_of_lt_of_le i.isLt hge)] at hall
      exact hall
    · rw [Function.update_of_ne hb]
      exact h.settled_elsewhere hpc hb hnone
  case copying =>
    intro u c' copied' hu i
    have hu' : s.pc u = .copyByte c' copied' := stood hu (by simp)
    have hut : u ≠ t := by
      intro hut
      rw [hut] at hu
      simp [State.goto] at hu
    have hapart := h.apart hpc hu' hut
    have hsrc := (h.apart hu' hpc (Ne.symm hut)).2
    rw [sequential_concat, Call.copy, Function.update_of_ne (Ne.symm hsrc),
      Function.update_of_ne hapart.1]
    exact h.copying u c' copied' hu' i

theorem Serial.unlockSecond (h : Serial bufs order s) {c : Call} (hpc : s.pc t = .unlockSecond c) :
    Serial bufs order (s.exec t) := by
  have hlt := Call.first_lt_second (h.distinct t c (by rw [hpc, Pc.locking]))
  rw [State.exec, hpc]
  apply h.move
  · apply h.owner_unlock
    · simp [hpc, Pc.holds]
    · simp [Pc.holds, hlt.ne]
    · intro b' hb
      simp [hpc, Pc.holds, Ne.symm hb]
  · exact fun c' hc => h.distinct t c' (by rw [hpc]; exact hc)
  · exact h.history_keep (by rw [hpc]; rfl)
  · simp [hpc]
  · simp
  · rfl

theorem Serial.unlockFirst (h : Serial bufs order s) {c : Call} (hpc : s.pc t = .unlockFirst c) :
    Serial bufs order (s.exec t) := by
  rw [State.exec, hpc]
  apply h.move
  · apply h.owner_unlock
    · simp [hpc, Pc.holds]
    · rfl
    · intro b' hb
      simp [hpc, Pc.holds, Ne.symm hb]
  · intro c' hc
    cases hc
  · exact h.history_keep (by rw [hpc]; rfl)
  · simp [hpc]
  · simp
  · rfl

theorem Serial.step (h : Serial bufs order s) {a : Action Tid} (ha : Enabled s a) :
    ∃ order', Serial bufs order' (step s a).1 := by
  cases a with
  | copyBuf t c => exact ⟨order, h.call ha c⟩
  | exec t =>
    have hready : s.ready (s.pc t) = true := ha
    cases hpc : s.pc t with
    | outside =>
      rw [hpc] at hready
      cases hready
    | compare c => exact h.compare hpc
    | lockFirst c =>
      rw [hpc] at hready
      exact ⟨order, h.lockFirst hpc (Option.isNone_iff_eq_none.mp hready)⟩
    | lockSecond c =>
      rw [hpc] at hready
      exact ⟨order, h.lockSecond hpc (Option.isNone_iff_eq_none.mp hready)⟩
    | copyByte c copied =>
      rw [CopyBuffers.step, State.exec, hpc]
      cases Nat.lt_or_ge copied BUF_SIZE with
      | inl hlt => exact ⟨order, h.copyByte hpc hlt⟩
      | inr hge => exact ⟨order ++ [(t, c)], h.commit hpc hge⟩
    | unlockSecond c => exact ⟨order, h.unlockSecond hpc⟩
    | unlockFirst c => exact ⟨order, h.unlockFirst hpc⟩

/-! ## Whole runs -/

/-- A thread that waits for its second lock holds the first, which is lower. -/
theorem Serial.ascending (h : Serial bufs order s) (t : Tid) (b b' : Index)
    (hheld : s.bufLocks b = some t) (hwants : (s.pc t).wants = some b') : b < b' := by
  have hholds := (h.owner b t).mpr hheld
  cases hpc : s.pc t with
  | lockFirst c =>
    rw [hpc] at hholds
    cases hholds
  | lockSecond c =>
    rw [hpc] at hholds hwants
    have hfirst : c.first = b := of_decide_eq_true hholds
    have hsecond : c.second = b' := Option.some.inj hwants
    rw [← hfirst, ← hsecond]
    exact Call.first_lt_second (h.distinct t c (by rw [hpc, Pc.locking]))
  | _ =>
    rw [hpc] at hwants
    cases hwants

theorem Serial.proceeds (h : Serial bufs order s) (hpc : s.pc t ≠ .outside) :
    ∃ u, Enabled s (.exec u) := by
  obtain ⟨u, hbusy, hfree⟩ := LockOrder.exists_proceeds h.ascending t
  exists u
  have hinside : s.pc u ≠ .outside := by
    cases hbusy with
    | inl heq => rwa [heq]
    | inr hholds =>
      obtain ⟨b, hb⟩ := hholds
      have hheld := (h.owner b u).mpr hb
      intro houtside
      rw [houtside] at hheld
      cases hheld
  rw [Enabled]
  cases hplace : s.pc u with
  | outside => exact absurd hplace hinside
  | lockFirst c => exact Option.isNone_iff_eq_none.mpr (hfree c.first (by rw [hplace]; rfl))
  | lockSecond c => exact Option.isNone_iff_eq_none.mpr (hfree c.second (by rw [hplace]; rfl))
  | _ => rfl

/-- Whenever a call is unfinished some call can go on. Whenever all calls have finished, the
calls one after another would have left the buffers as they are, in an order that keeps the
calls of each thread in theirs. -/
def Safe (bufs : Buffers) (s : State Tid) : Prop :=
  ((∃ t, s.pc t ≠ .outside) → ∃ t, Enabled s (.exec t)) ∧
    ((∀ t, s.pc t = .outside) → ∃ order : List (Tid × Call), order.Perm s.called ∧
      (∀ t, order.filter (fun call => call.1 = t) = s.called.filter fun call => call.1 = t) ∧
      s.bufs = sequential bufs order)

theorem Serial.safe (h : Serial bufs order s) : Safe bufs s := by
  constructor
  · intro hbusy
    obtain ⟨t, ht⟩ := hbusy
    exact h.proceeds ht
  · intro hdone
    have hhistory : ∀ t, order.filter (fun call => call.1 = t) =
        s.called.filter fun call => call.1 = t := by
      intro t
      rw [h.history t, hdone t]
      simp [Pc.pending]
    exists order
    constructor
    · rw [List.perm_iff_count]
      intro call
      have hcount := congrArg (List.count call) (hhistory call.1)
      rwa [List.count_filter (by simp), List.count_filter (by simp)] at hcount
    constructor
    · exact hhistory
    · funext b
      apply h.settled b
      intro t c copied hpc
      rw [hdone t] at hpc
      cases hpc

/-- Every run of any number of threads and calls is safe. -/
theorem copy_buf_safe (bufs : Buffers) (actions : List (Action Tid))
    (hactions : Machine.Admits step Enabled (init bufs) actions) :
    Safe bufs (Machine.run step (init bufs) actions).1 := by
  have hserial := Machine.run_invariant
    (fun s : State Tid => ∃ order, Serial bufs order s)
    (fun s a h ha => by
      obtain ⟨order, hserial⟩ := h
      exact hserial.step ha)
    ⟨[], serial_init bufs⟩ hactions
  obtain ⟨order, hlast⟩ := hserial
  exact hlast.safe

/-- Two calls that copy two buffers into each other, the first under way and the second waiting
for a lock, and a third call of a buffer with itself, which has finished. -/
theorem copy_buf_safe_sample :
    Safe (fun b _ => UInt8.ofNat b.val) (Machine.run step (init fun b _ => UInt8.ofNat b.val)
      ([.copyBuf 0 ⟨⟨7, by decide⟩, ⟨3, by decide⟩⟩, .copyBuf 1 ⟨⟨3, by decide⟩, ⟨7, by decide⟩⟩,
        .copyBuf 2 ⟨⟨5, by decide⟩, ⟨5, by decide⟩⟩, .exec 0, .exec 1, .exec 2,
        .exec 0, .exec 0, .exec 0, .exec 0] : List (Action (Fin 3)))).1 :=
  copy_buf_safe (fun b _ => UInt8.ofNat b.val) _ (by decide +kernel)

end InterviewQuestions.CopyBuffers
