import InterviewQuestions.Library.Digits
import InterviewQuestions.Library.Machine
import Mathlib.Logic.Function.Basic

/-! The frames of `networking/netsimul`: what end systems write to their links and what the link
layer of the router makes of it. -/
namespace InterviewQuestions.NetSimul

open Library Machine BigEndian

variable {ι : Type*} [DecidableEq ι]

/-! ## `endsystem.cpp` -/

def preamble : List UInt8 := List.replicate 7 0xAA ++ [0xAB]

/-- `mac_mask` -/
def macMask : UInt64 := 0xFF0000000000

/-- The loop over the bytes of an address. -/
def macBytes (mac : UInt64) : List UInt8 :=
  ([5, 4, 3, 2, 1, 0] : List UInt64).map fun shift =>
    ((mac &&& macMask >>> ((5 - shift) * 8)) >>> (shift * 8)).toUInt8

/-- What `send_frame` writes. -/
def sendFrame (macAddress destMac : UInt64) (data : List UInt8) : List UInt8 :=
  preamble ++ macBytes macAddress ++ macBytes destMac ++ [0, 0] ++ data ++ [0, 0, 0, 0]

/-! ## `linklayer.cpp` -/

/-- `eth_frame`; the CRC is not read. -/
structure EthFrame where
  srcMac : UInt64
  dstMac : UInt64
  type : UInt16
  data : List UInt8
deriving DecidableEq

/-- The loop over the bytes of an address that begins at `offset`. -/
def readMac (frameBuffer : List UInt8) (offset : ℕ) : UInt64 :=
  (List.range 6).foldl (fun mac i => mac <<< 8 ||| (frameBuffer.getD (i + offset) 0).toUInt64) 0

def parseFrame (frameBuffer : List UInt8) (frameSz : ℕ) : Option EthFrame :=
  if (List.range 7).all (fun i => frameBuffer.getD i 0 = 0xAA) then
    if frameBuffer.getD 7 0 = 0xAB then
      some {
        srcMac := readMac frameBuffer 8
        dstMac := readMac frameBuffer 14
        type := (frameBuffer.getD 20 0).toUInt16 <<< 8 ||| (frameBuffer.getD 21 0).toUInt16
        data := (List.range' 22 (frameSz - 26)).map fun i => frameBuffer.getD i 0 }
    else none
  else none

/-- `ETHERNET_FRAME_MAX_LEN` -/
abbrev frameMaxLen : ℕ := 1526

/-- `ETHERNET_FRAME_MIN_LEN` -/
abbrev frameMinLen : ℕ := 72

/-- What the main loop makes of the bytes that it has read from the link of an interface. -/
def accept (macAddr : UInt64) (frameBuffer : List UInt8) (n : ℕ) : Option EthFrame :=
  if n < frameMinLen then none
  else
    match parseFrame frameBuffer n with
    | none => none
    | some frame => if frame.dstMac ≠ macAddr then none else some frame

/-! ## The network -/

/-- A link from an end system to an interface of the router. -/
structure Link where
  macAddress : UInt64
  iface : UInt64

/-- What is on each link, the buffer that all of them are read into, what has been sent and what
has been accepted. -/
structure State (ι : Type*) where
  fifo : ι → List UInt8
  frameBuffer : List UInt8
  sent : ι → List (UInt64 × List UInt8)
  accepted : ι → List EthFrame

def State.init (ι : Type*) : State ι where
  fifo _ := []
  frameBuffer := List.replicate frameMaxLen 0
  sent _ := []
  accepted _ := []

inductive Label (ι : Type*) where
  | send (i : ι) (destMac : UInt64) (data : List UInt8)
  | read (i : ι)

def State.send (links : ι → Link) (i : ι) (destMac : UInt64) (data : List UInt8) (s : State ι) :
    State ι :=
  { s with
    fifo := Function.update s.fifo i (s.fifo i ++ sendFrame (links i).macAddress destMac data)
    sent := Function.update s.sent i (s.sent i ++ [(destMac, data)]) }

/-- One turn of the main loop for a link from which something can be read. -/
def State.read (links : ι → Link) (i : ι) (s : State ι) : State ι :=
  let bytes := (s.fifo i).take frameMaxLen
  let frameBuffer := bytes ++ s.frameBuffer.drop bytes.length
  { s with
    fifo := Function.update s.fifo i ((s.fifo i).drop frameMaxLen)
    frameBuffer
    accepted := Function.update s.accepted i
      (s.accepted i ++ (accept (links i).iface frameBuffer bytes.length).toList) }

def step (links : ι → Link) (s : State ι) : Label ι → State ι × Unit
  | .send i destMac data => (s.send links i destMac data, ())
  | .read i => (s.read links i, ())

/-- A frame is written when the one before has been read, and with no more data than fits. -/
def Timely (s : State ι) : Label ι → Prop
  | .send i _ data => s.fifo i = [] ∧ data.length ≤ 1500
  | .read i => s.fifo i ≠ []

/-! ## Bytes and words -/

theorem toNat_shiftLeft_or (a : UInt64) (b : UInt8) (ha : a.toNat < 2 ^ 56) :
    (a <<< 8 ||| b.toUInt64).toNat = a.toNat * 256 + b.toNat := by
  have hb := b.toNat_lt
  rw [UInt64.toNat_or, UInt64.toNat_shiftLeft, UInt8.toNat_toUInt64]
  have hshift : a.toNat <<< ((8 : UInt64).toNat % 64) % 2 ^ 64 = a.toNat <<< 8 := by
    rw [Nat.shiftLeft_eq, Nat.shiftLeft_eq]
    apply Nat.mod_eq_of_lt
    change a.toNat * 2 ^ 8 < 2 ^ 64
    omega
  rw [hshift, ← Nat.shiftLeft_add_eq_or_of_lt hb, Nat.shiftLeft_eq]

theorem toNat_foldl (bs : List UInt8) (hlen : bs.length ≤ 8) :
    (bs.foldl (fun (mac : UInt64) b => mac <<< 8 ||| b.toUInt64) 0).toNat = word bs := by
  induction bs using List.reverseRecOn with
  | nil => rfl
  | append_singleton bs b ih =>
    rw [List.length_append, List.length_singleton] at hlen
    have hword := ih (by omega)
    have hlt := word_lt bs
    have hpow : 256 ^ bs.length ≤ 256 ^ 7 := Nat.pow_le_pow_right (by decide) (by omega)
    rw [List.foldl_append, List.foldl_cons, List.foldl_nil, toNat_shiftLeft_or _ _ (by omega),
      hword, word_append]

/-- A byte that is masked and shifted down. -/
theorem toUInt8_masked (mac mask shift : UInt64) {k : ℕ} (hshift : shift.toNat = 8 * k)
    (hk : k < 8) (hmask : mask.toNat = 255 <<< (8 * k)) :
    ((mac &&& mask) >>> shift).toUInt8 = UInt8.ofNat (mac.toNat / 256 ^ k) := by
  apply UInt8.toNat_inj.mp
  have hmod : shift.toNat % 64 = 8 * k := by omega
  have hpow : 256 ^ k = 2 ^ (8 * k) := by rw [Nat.pow_mul]
  rw [UInt64.toNat_toUInt8, UInt64.toNat_shiftRight, UInt64.toNat_and, hmod, hmask,
    Nat.shiftRight_and_distrib, Nat.shiftLeft_shiftRight, UInt8.toNat_ofNat',
    Nat.shiftRight_eq_div_pow, hpow, Nat.and_two_pow_sub_one_eq_mod _ 8, Nat.mod_mod]

theorem macBytes_eq (mac : UInt64) : macBytes mac = bytes 6 mac.toNat := by
  have hbyte : ∀ k < 6, ((mac &&& macMask >>> ((5 - UInt64.ofNat k) * 8)) >>>
      (UInt64.ofNat k * 8)).toUInt8 = UInt8.ofNat (mac.toNat / 256 ^ k) := by
    intro k hk
    apply toUInt8_masked
    · revert k
      decide
    · omega
    · revert k
      decide
  simp only [macBytes, List.map_cons, List.map_nil, bytes, List.cons.injEq, and_true]
  exact ⟨hbyte 5 (by decide), hbyte 4 (by decide), hbyte 3 (by decide), hbyte 2 (by decide),
    hbyte 1 (by decide), hbyte 0 (by decide)⟩

/-! ## Parts of a frame -/

/-- The bytes from `offset` on. -/
def part (frame : List UInt8) (offset len : ℕ) : List UInt8 := (frame.drop offset).take len

variable {frame stale crc : List UInt8} {offset len n : ℕ} {f : EthFrame}

theorem map_getD (h : offset + len ≤ frame.length) (stale : List UInt8) :
    (List.range' offset len).map (fun i => (frame ++ stale).getD i 0) = part frame offset len := by
  apply List.ext_getElem
  · simp [part]
    omega
  · intro i hi hi'
    simp [part] at hi hi' ⊢
    rw [List.getElem?_append_left (by omega), List.getElem?_eq_getElem (by omega)]
    rfl

theorem readMac_append (h : offset + 6 ≤ frame.length) (stale : List UInt8) :
    (readMac (frame ++ stale) offset).toNat = word (part frame offset 6) := by
  have hfold := toNat_foldl (part frame offset 6) (by simp [part])
  rw [← hfold, ← map_getD h stale, readMac, List.range'_eq_map_range, List.map_map,
    List.foldl_map]
  simp [Nat.add_comm]

theorem preamble_iff (h : 8 ≤ frame.length) (stale : List UInt8) :
    ((List.range 7).all (fun i => (frame ++ stale).getD i 0 = 0xAA) = true ∧
      (frame ++ stale).getD 7 0 = 0xAB) ↔ part frame 0 8 = preamble := by
  rw [← map_getD (by omega) stale]
  simp [preamble, List.range_succ, List.range'_succ, and_assoc]

theorem part_append (frame : List UInt8) (offset len n : ℕ) :
    part frame offset len ++ part frame (offset + len) n = part frame offset (len + n) := by
  rw [part, part, part, ← List.drop_drop, ← List.take_add]

theorem length_part (h : offset + len ≤ frame.length) : (part frame offset len).length = len := by
  simp [part]
  omega

theorem part_left {front back : List UInt8} (h : front.length = len) :
    part (front ++ back) 0 len = front := by
  rw [part, List.drop_zero, ← h, List.take_left]

theorem part_right {front back : List UInt8} (h : front.length = n) :
    part (front ++ back) (n + offset) len = part back offset len := by
  rw [part, part, ← h, ← List.drop_drop, List.drop_left]

theorem toNat_type (a b : UInt8) : (a.toUInt16 <<< 8 ||| b.toUInt16).toNat = word [a, b] := by
  have ha := a.toNat_lt
  have hb := b.toNat_lt
  have hshift : a.toNat <<< ((8 : UInt16).toNat % 16) % 2 ^ 16 = a.toNat <<< 8 := by
    rw [Nat.shiftLeft_eq, Nat.shiftLeft_eq]
    apply Nat.mod_eq_of_lt
    change a.toNat * 2 ^ 8 < 2 ^ 16
    omega
  rw [UInt16.toNat_or, UInt16.toNat_shiftLeft, UInt8.toNat_toUInt16, UInt8.toNat_toUInt16, hshift,
    ← Nat.shiftLeft_add_eq_or_of_lt hb, Nat.shiftLeft_eq]
  simp [word]

theorem part_two (h : offset + 2 ≤ frame.length) (stale : List UInt8) :
    part frame offset 2 =
      [(frame ++ stale).getD offset 0, (frame ++ stale).getD (offset + 1) 0] := by
  rw [← map_getD h stale]
  rfl

theorem parseFrame_append (h : 26 ≤ frame.length) (stale : List UInt8) :
    parseFrame (frame ++ stale) frame.length =
      if part frame 0 8 = preamble then
        some ⟨UInt64.ofNat (word (part frame 8 6)), UInt64.ofNat (word (part frame 14 6)),
          UInt16.ofNat (word (part frame 20 2)), part frame 22 (frame.length - 26)⟩
      else none := by
  have hbegin := preamble_iff (show 8 ≤ frame.length by omega) stale
  unfold parseFrame
  rw [← ite_and]
  by_cases hpreamble : part frame 0 8 = preamble
  · rw [if_pos hpreamble, if_pos (hbegin.mpr hpreamble), ← readMac_append (by omega) stale,
      ← readMac_append (by omega) stale, part_two (by omega) stale, ← toNat_type,
      map_getD (by omega) stale]
    simp only [UInt64.ofNat_toNat, UInt16.ofNat_toNat]
  · rw [if_neg hpreamble, if_neg fun hall => hpreamble (hbegin.mp hall)]

theorem length_preamble : preamble.length = 8 := rfl

/-- A frame with the CRC that the end system has computed. -/
def EthFrame.bytes (f : EthFrame) (crc : List UInt8) : List UInt8 :=
  preamble ++ BigEndian.bytes 6 f.srcMac.toNat ++ BigEndian.bytes 6 f.dstMac.toNat ++
    BigEndian.bytes 2 f.type.toNat ++ f.data ++ crc

theorem parts_bytes (f : EthFrame) (crc : List UInt8) :
    part (f.bytes crc) 0 8 = preamble ∧
      part (f.bytes crc) 8 6 = BigEndian.bytes 6 f.srcMac.toNat ∧
      part (f.bytes crc) 14 6 = BigEndian.bytes 6 f.dstMac.toNat ∧
      part (f.bytes crc) 20 2 = BigEndian.bytes 2 f.type.toNat ∧
      part (f.bytes crc) 22 f.data.length = f.data := by
  have hbytes : f.bytes crc = preamble ++ (BigEndian.bytes 6 f.srcMac.toNat ++
      (BigEndian.bytes 6 f.dstMac.toNat ++ (BigEndian.bytes 2 f.type.toNat ++
        (f.data ++ crc)))) := by
    simp only [EthFrame.bytes, List.append_assoc]
  have hsrc := length_bytes 6 f.srcMac.toNat
  have hdst := length_bytes 6 f.dstMac.toNat
  have htype := length_bytes 2 f.type.toNat
  rw [hbytes]
  refine ⟨part_left length_preamble, ?_, ?_, ?_, ?_⟩
  · exact (part_right length_preamble).trans (part_left hsrc)
  · exact (part_right length_preamble).trans ((part_right hsrc).trans (part_left hdst))
  · exact (part_right length_preamble).trans ((part_right hsrc).trans ((part_right hdst).trans
      (part_left htype)))
  · exact (part_right length_preamble).trans ((part_right hsrc).trans ((part_right hdst).trans
      ((part_right htype).trans (part_left rfl))))

/-- `parse_frame` accepts exactly the frames with the right preamble, and what it makes of one
determines all its bytes but the CRC. -/
theorem parse_frame_iff (h : 26 ≤ frame.length) (stale : List UInt8) (f : EthFrame) :
    parseFrame (frame ++ stale) frame.length = some f ↔
      f.srcMac.toNat < 2 ^ 48 ∧ f.dstMac.toNat < 2 ^ 48 ∧
        ∃ crc, crc.length = 4 ∧ frame = f.bytes crc := by
  rw [parseFrame_append h stale]
  constructor
  · intro hparse
    obtain ⟨hpreamble, hf⟩ := Option.ite_none_right_eq_some.mp hparse
    obtain rfl := Option.some.inj hf
    have hword : ∀ {offset len}, offset + len ≤ frame.length →
        word (part frame offset len) < 256 ^ len ∧
          BigEndian.bytes len (word (part frame offset len)) = part frame offset len := by
      intro offset len hle
      have hlength := length_part hle
      have hlt := word_lt (part frame offset len)
      have hbytes := bytes_word (part frame offset len)
      rw [hlength] at hlt hbytes
      exact ⟨hlt, hbytes⟩
    obtain ⟨hsrc, hsrc'⟩ := @hword 8 6 (by omega)
    obtain ⟨hdst, hdst'⟩ := @hword 14 6 (by omega)
    obtain ⟨htype, htype'⟩ := @hword 20 2 (by omega)
    have hsrcNat : (UInt64.ofNat (word (part frame 8 6))).toNat = word (part frame 8 6) :=
      Nat.mod_eq_of_lt (by omega)
    have hdstNat : (UInt64.ofNat (word (part frame 14 6))).toNat = word (part frame 14 6) :=
      Nat.mod_eq_of_lt (by omega)
    have htypeNat : (UInt16.ofNat (word (part frame 20 2))).toNat = word (part frame 20 2) :=
      Nat.mod_eq_of_lt (by omega)
    refine ⟨hsrcNat.trans_lt (by omega), hdstNat.trans_lt (by omega),
      part frame (22 + (frame.length - 26)) 4, length_part (by omega), ?_⟩
    have hall : part frame 0 (22 + (frame.length - 26) + 4) = frame := by
      rw [part, List.drop_zero, List.take_of_length_le (by omega)]
    have happend := part_append frame 0
    simp only [Nat.zero_add] at happend
    rw [EthFrame.bytes, hsrcNat, hdstNat, htypeNat, hsrc', hdst', htype', ← hpreamble,
      happend 8 6, happend 14 6, happend 20 2, happend 22, happend (22 + (frame.length - 26)) 4,
      hall]
  · rintro ⟨hsrc, hdst, crc, hcrc, rfl⟩
    have hlen : (f.bytes crc).length - 26 = f.data.length := by
      simp [EthFrame.bytes, hcrc, preamble]
      omega
    obtain ⟨hpart, hsrc', hdst', htype', hdata⟩ := parts_bytes f crc
    rw [if_pos hpart, hlen, hsrc', hdst', htype', hdata, word_bytes, word_bytes, word_bytes,
      Nat.mod_eq_of_lt (by omega), Nat.mod_eq_of_lt (by omega),
      Nat.mod_eq_of_lt (show f.type.toNat < 256 ^ 2 from f.type.toNat_lt)]
    simp only [UInt64.ofNat_toNat, UInt16.ofNat_toNat]

theorem parse_frame_iff_sample :
    parseFrame (preamble ++ List.replicate 64 0 ++ []) (preamble ++ List.replicate 64 0).length =
        some ⟨0, 0, 0, List.replicate 46 0⟩ ↔
      (0 : UInt64).toNat < 2 ^ 48 ∧ (0 : UInt64).toNat < 2 ^ 48 ∧ ∃ crc, crc.length = 4 ∧
        preamble ++ List.replicate 64 0 = EthFrame.bytes ⟨0, 0, 0, List.replicate 46 0⟩ crc :=
  parse_frame_iff (by decide) [] ⟨0, 0, 0, List.replicate 46 0⟩

/-! ## Runs -/

/-- The bytes of an address that stand in a frame. -/
def address (mac : UInt64) : UInt64 := UInt64.ofNat (mac.toNat % 2 ^ 48)

/-- What comes out of a link. -/
def Link.delivers (link : Link) (frame : UInt64 × List UInt8) : Option EthFrame :=
  if 46 ≤ frame.2.length ∧ address frame.1 = link.iface then
    some ⟨address link.macAddress, address frame.1, 0, frame.2⟩
  else none

theorem toNat_address (mac : UInt64) : (address mac).toNat = mac.toNat % 2 ^ 48 :=
  Nat.mod_eq_of_lt (by omega)

theorem macBytes_address (mac : UInt64) : macBytes mac = BigEndian.bytes 6 (address mac).toNat := by
  have hbytes := bytes_word (BigEndian.bytes 6 mac.toNat)
  rw [length_bytes, word_bytes] at hbytes
  rw [macBytes_eq, toNat_address]
  exact hbytes.symm

theorem sendFrame_eq (macAddress destMac : UInt64) (data : List UInt8) :
    sendFrame macAddress destMac data =
      EthFrame.bytes ⟨address macAddress, address destMac, 0, data⟩ [0, 0, 0, 0] := by
  have htype : BigEndian.bytes 2 (0 : UInt16).toNat = [0, 0] := by decide
  simp only [sendFrame, EthFrame.bytes, macBytes_address, htype]

theorem length_sendFrame (macAddress destMac : UInt64) (data : List UInt8) :
    (sendFrame macAddress destMac data).length = data.length + 26 := by
  simp [sendFrame, preamble, macBytes]

/-- A frame that arrives alone. -/
theorem accept_sendFrame (link : Link) (destMac : UInt64) (data stale : List UInt8) :
    accept link.iface (sendFrame link.macAddress destMac data ++ stale)
      (sendFrame link.macAddress destMac data).length = link.delivers (destMac, data) := by
  have hlen := length_sendFrame link.macAddress destMac data
  have hparse := (parse_frame_iff (by omega) stale
    ⟨address link.macAddress, address destMac, 0, data⟩).mpr
      ⟨by rw [toNat_address]; omega, by rw [toNat_address]; omega, [0, 0, 0, 0], rfl,
        sendFrame_eq link.macAddress destMac data⟩
  rw [accept, hparse, hlen, Link.delivers]
  by_cases hshort : data.length + 26 < frameMinLen
  · rw [if_pos hshort, if_neg ?_]
    rintro ⟨hlong, -⟩
    simp only [frameMinLen] at hshort hlong
    omega
  · rw [if_neg hshort]
    have hlong : 46 ≤ data.length := by simp only [frameMinLen] at hshort; omega
    by_cases haddress : address destMac = link.iface
    · simp [haddress, hlong]
    · simp [haddress]

/-- All frames that have been sent have come out of the link, or all but the last one. -/
inductive Carried (link : Link) (fifo : List UInt8) (sent : List (UInt64 × List UInt8))
    (accepted : List EthFrame) : Prop
  | empty (hfifo : fifo = []) (haccepted : accepted = sent.filterMap link.delivers)
  | pending (before : List (UInt64 × List UInt8)) (destMac : UInt64) (data : List UInt8)
      (hsent : sent = before ++ [(destMac, data)])
      (hfifo : fifo = sendFrame link.macAddress destMac data) (hdata : data.length ≤ 1500)
      (haccepted : accepted = before.filterMap link.delivers)

variable {links : ι → Link} {s : State ι} {i : ι}

def Inv (links : ι → Link) (s : State ι) : Prop :=
  ∀ i, Carried (links i) (s.fifo i) (s.sent i) (s.accepted i)

theorem Inv.send (h : Inv links s) {destMac : UInt64} {data : List UInt8} (hfree : s.fifo i = [])
    (hdata : data.length ≤ 1500) : Inv links (s.send links i destMac data) := by
  intro j
  by_cases hj : j = i
  · subst hj
    cases h j with
    | empty hfifo haccepted =>
      refine .pending (s.sent j) destMac data ?_ ?_ hdata haccepted
      · simp [State.send]
      · simp [State.send, hfifo]
    | pending before destMac' data' hsent hfifo =>
      have hlen := length_sendFrame (links j).macAddress destMac' data'
      rw [← hfifo, hfree] at hlen
      cases hlen
  · simpa [State.send, Function.update_of_ne hj] using h j

theorem Inv.read (h : Inv links s) (hready : s.fifo i ≠ []) : Inv links (s.read links i) := by
  intro j
  by_cases hj : j = i
  · subst hj
    cases h j with
    | empty hfifo => exact absurd hfifo hready
    | pending before destMac data hsent hfifo hdata haccepted =>
      have hlen := length_sendFrame (links j).macAddress destMac data
      have htake : (s.fifo j).take frameMaxLen =
          sendFrame (links j).macAddress destMac data := by
        rw [hfifo, List.take_of_length_le (by rw [hlen]; simp only [frameMaxLen]; omega)]
      refine .empty ?_ ?_
      · simp only [State.read, Function.update_self]
        rw [hfifo, List.drop_eq_nil_of_le (by rw [hlen]; simp only [frameMaxLen]; omega)]
      · simp only [State.read, Function.update_self, htake, accept_sendFrame, haccepted, hsent,
          List.filterMap_append]
        cases hdelivers : (links j).delivers (destMac, data) <;> simp [hdelivers]
  · simpa [State.read, Function.update_of_ne hj] using h j

theorem Inv.step (h : Inv links s) (l : Label ι) (hl : Timely s l) :
    Inv links (step links s l).1 := by
  cases l with
  | send i destMac data => exact h.send hl.1 hl.2
  | read i => exact h.read hl

end InterviewQuestions.NetSimul
