import NetLib.Buffer.Ring
import NetLib.Buffer.SendBuffer
/-!
# `Encode` and `Decode` undo each other

`Encode` runs over the linear bytes of a send buffer, `Decode` over a
packet at the front of the ring, wherever header and body wrap. What one
makes of a packet the other turns back, and nothing but the body of that
packet changes. The first section is about the types the two loops are
written with.
-/

namespace NetLib

variable {b : CSendBuffer} {r : CRingBuffer}

/-! ## The types of the loops -/

section Types

/-- A `char` and an `unsigned char` as the `int` they are promoted to. -/
def promote (c : Byte) : BitVec 32 := c.signExtend 32

def promoteUnsigned (c : Byte) : BitVec 32 := c.setWidth 32

theorem setWidth_promote (c : Byte) : (promote c).setWidth 8 = c := by
  refine BitVec.eq_of_getLsbD_eq fun i hi => ?_
  have hi' : i < 32 := by omega
  simp only [promote, BitVec.getLsbD_setWidth, BitVec.getLsbD_signExtend, hi, hi', decide_true,
    Bool.true_and, if_true]

theorem setWidth_promoteUnsigned (c : Byte) : (promoteUnsigned c).setWidth 8 = c := by
  rw [promoteUnsigned, BitVec.setWidth_setWidth_of_le c (by decide), BitVec.setWidth_eq]

/-- `a ^ (x + y + z)` of promoted bytes, kept in a byte. -/
theorem setWidth_xor_add (a x y z : BitVec 32) : (a ^^^ (x + y + z)).setWidth 8 =
    a.setWidth 8 ^^^ (x.setWidth 8 + y.setWidth 8 + z.setWidth 8) := by
  rw [BitVec.setWidth_xor, BitVec.setWidth_add _ _ (by decide), BitVec.setWidth_add _ _ (by decide)]

/-- The loop of `Encode` as it is typed: `p` and `e` are `char`, the key is an
`unsigned char`, and `i` is a `short`. -/
def CSendBuffer.encodeFor (staticKey randomKey : Byte) (encodeLen : ℤ) :
    ℕ → BitVec 16 → ℕ → Byte → Byte → (ℕ → Byte) → Option (ℕ → Byte)
  | 0, _, _, _, _, _ => none
  | fuel + 1, i, encodeData, p, e, buffer =>
    if i.toInt ≤ encodeLen then
      let p := (promoteUnsigned (buffer encodeData) ^^^
        (promote p + promoteUnsigned randomKey + i.signExtend 32)).setWidth 8
      let e := (promote p ^^^ (promote e + promote staticKey + i.signExtend 32)).setWidth 8
      CSendBuffer.encodeFor staticKey randomKey encodeLen fuel (i + 1) (encodeData + 1) p e
        (Function.update buffer encodeData e)
    else some buffer

/-- The low byte of the counter. -/
theorem setWidth_counter {i : ℕ} : ((BitVec.ofNat 16 i).signExtend 32).setWidth 8 =
    BitVec.ofNat 8 i := by
  refine BitVec.eq_of_getLsbD_eq fun j hj => ?_
  have hj' : j < 32 := by omega
  have hj'' : j < 16 := by omega
  simp only [BitVec.getLsbD_setWidth, BitVec.getLsbD_signExtend, BitVec.getLsbD_ofNat, hj, hj',
    hj'', decide_true, Bool.true_and, if_true]

/-- **The typed loop is the loop on bytes**, as long as the `short` can count
to the end. -/
theorem CSendBuffer.encodeFor_eq (staticKey randomKey : Byte) {n i start fuel : ℕ} {p e : Byte}
    (buffer : ℕ → Byte) (hfuel : n < fuel) (hi : 0 < i) (hn : i + n < 2 ^ 15) :
    encodeFor staticKey randomKey (i + n - 1) fuel (BitVec.ofNat 16 i) start p e buffer =
      some (encodeLoop staticKey randomKey n i start p e buffer) := by
  have hint {k : ℕ} (hk : k < 2 ^ 15) : (BitVec.ofNat 16 k).toInt = k := by
    rw [BitVec.toInt_ofNat', Int.bmod_eq_of_le] <;> omega
  induction n generalizing i start fuel p e buffer with
  | zero =>
    obtain ⟨fuel, rfl⟩ := Nat.exists_eq_succ_of_ne_zero (Nat.ne_of_gt hfuel)
    rw [encodeFor, if_neg (by rw [hint (by omega)]; omega)]
    rfl
  | succ n ih =>
    obtain ⟨fuel, rfl⟩ := Nat.exists_eq_succ_of_ne_zero (by omega : fuel ≠ 0)
    have hstep : BitVec.ofNat 16 i + 1 = BitVec.ofNat 16 (i + 1) := (BitVec.ofNat_add i 1).symm
    rw [encodeFor, if_pos (by rw [hint (by omega)]; omega), encodeLoop]
    simp only [setWidth_xor_add, setWidth_promote, setWidth_promoteUnsigned,
      setWidth_counter, hstep]
    rw [← ih _ (Nat.lt_of_succ_lt_succ hfuel) (Nat.succ_pos i) (by omega)]
    congr 1
    push_cast
    omega

/-- One round of `Decode` as it is typed: `p`, `e` and `oldP` are
`unsigned char`, the static key is a `char`, and `i` is an `int`. -/
theorem CRingBuffer.decodeRound_eq (staticKey randomKey tmp e oldP : Byte) (i : ℕ) :
    let p := (promoteUnsigned tmp ^^^
      (promoteUnsigned e + promote staticKey + BitVec.ofNat 32 i)).setWidth 8
    p = tmp ^^^ (e + staticKey + BitVec.ofNat 8 i) ∧
      (promoteUnsigned p ^^^ (promoteUnsigned oldP + promoteUnsigned randomKey +
        BitVec.ofNat 32 i)).setWidth 8 = p ^^^ (oldP + randomKey + BitVec.ofNat 8 i) := by
  have hcounter : (BitVec.ofNat 32 i).setWidth 8 = BitVec.ofNat 8 i :=
    BitVec.setWidth_ofNat_of_le (by decide) i
  simp only [setWidth_xor_add, setWidth_promote, setWidth_promoteUnsigned, hcounter, and_self]

end Types

/-! ## A packet and its body -/

/-- The header bytes up to the checksum stay, the rest is encoded. -/
def encodePacket (staticKey : Byte) (bytes : List Byte) : List Byte :=
  bytes.take 4 ++ encodeBytes staticKey (NetHeader.ofBytes bytes).randomKey (bytes.drop 4)

/-- Or decoded. -/
def decodePacket (staticKey : Byte) (bytes : List Byte) : List Byte :=
  bytes.take 4 ++ decodeBytes staticKey (NetHeader.ofBytes bytes).randomKey (bytes.drop 4)

/-- The bytes before the checksum decide every other field. -/
theorem ofBytes_take_append {bytes body : List Byte} (h : 4 ≤ bytes.length)
    (hbody : 0 < body.length) : NetHeader.ofBytes (bytes.take 4 ++ body) =
      { NetHeader.ofBytes bytes with checkSum := body.headD 0 } := by
  cases body with
  | nil => exact absurd hbody (lt_irrefl 0)
  | cons c body => exact NetHeader.ofBytes_checkSum h c body

theorem take_drop_of_take {bytes : List Byte} (h : 4 ≤ bytes.length) (body : List Byte) :
    (bytes.take 4 ++ body).take 4 = bytes.take 4 ∧ (bytes.take 4 ++ body).drop 4 = body := by
  have hfour : (bytes.take 4).length = 4 := by
    rw [List.length_take]
    omega
  exact ⟨List.take_left' hfour, List.drop_left' hfour⟩

theorem decodePacket_encodePacket (staticKey : Byte) {bytes : List Byte} (h : 5 ≤ bytes.length) :
    decodePacket staticKey (encodePacket staticKey bytes) = bytes := by
  have hpos : 0 < (encodeBytes staticKey (NetHeader.ofBytes bytes).randomKey
      (bytes.drop 4)).length := by
    rw [encodeBytes, Feedback.length_encode, List.length_drop]
    omega
  obtain ⟨htake, hdrop⟩ := take_drop_of_take (show 4 ≤ bytes.length by omega)
    (encodeBytes staticKey (NetHeader.ofBytes bytes).randomKey (bytes.drop 4))
  rw [decodePacket, encodePacket, ofBytes_take_append (by omega) hpos, htake, hdrop,
    decodeBytes_encodeBytes, List.take_append_drop]

theorem encodePacket_decodePacket (staticKey : Byte) {bytes : List Byte} (h : 5 ≤ bytes.length) :
    encodePacket staticKey (decodePacket staticKey bytes) = bytes := by
  have hpos : 0 < (decodeBytes staticKey (NetHeader.ofBytes bytes).randomKey
      (bytes.drop 4)).length := by
    rw [decodeBytes, Feedback.length_decode, List.length_drop]
    omega
  obtain ⟨htake, hdrop⟩ := take_drop_of_take (show 4 ≤ bytes.length by omega)
    (decodeBytes staticKey (NetHeader.ofBytes bytes).randomKey (bytes.drop 4))
  rw [encodePacket, decodePacket, ofBytes_take_append (by omega) hpos, htake, hdrop,
    encodeBytes_decodeBytes, List.take_append_drop]

/-! ## In the send buffer -/

/-- The first `n` bytes from `GetHead()` on. -/
def CSendBuffer.packet (b : CSendBuffer) (n : ℕ) : List Byte := readBytes b.buffer b.head n

theorem readBytes_take (buffer : ℕ → Byte) (start : ℕ) {k n : ℕ} (h : k ≤ n) :
    (readBytes buffer start n).take k = readBytes buffer start k ∧
      (readBytes buffer start n).drop k = readBytes buffer (start + k) (n - k) := by
  have hsplit := readBytes_add buffer start k (n - k)
  rw [Nat.add_sub_cancel' h] at hsplit
  rw [hsplit]
  exact ⟨List.take_left' (length_readBytes _ _ _), List.drop_left' (length_readBytes _ _ _)⟩

/-- **`Encode` encodes the packet at the head.** -/
theorem CSendBuffer.packet_encode (staticKey : Byte) {n : ℕ}
    (hlen : (NetHeader.ofBytes (b.packet (5 + n))).len.toNat = n) :
    (b.encode staticKey).packet (5 + n) = encodePacket staticKey (b.packet (5 + n)) := by
  have hsplit := readBytes_take b.buffer b.head (show 4 ≤ 5 + n by omega)
  change (b.packet (5 + n)).take 4 = _ ∧ (b.packet (5 + n)).drop 4 = _ at hsplit
  have hheader : NetHeader.ofBytes (readBytes b.buffer b.head Header.NetHeader.size) =
      NetHeader.ofBytes (b.packet (5 + n)) := by
    rw [CSendBuffer.packet, ← NetHeader.ofBytes_take (l := readBytes b.buffer b.head (5 + n))
      (by rw [length_readBytes]; omega),
      (readBytes_take b.buffer b.head (show 5 ≤ 5 + n by omega)).1]
    rfl
  obtain ⟨hread, hsame⟩ := encodeLoop_spec staticKey
    (NetHeader.ofBytes (b.packet (5 + n))).randomKey (n + 1) 1 (b.head + 4) 0 0 b.buffer
  rw [encodePacket, hsplit.1, hsplit.2, encodeBytes, show 5 + n - 4 = n + 1 by omega, ← hread]
  have hjoin (buffer : ℕ → Byte) : readBytes buffer b.head (5 + n) =
      readBytes buffer b.head 4 ++ readBytes buffer (b.head + 4) (n + 1) := by
    rw [← readBytes_add]
    congr 1
    omega
  rw [CSendBuffer.packet]
  simp only [encode, hheader, hlen, NetHeader.checkSumOffset]
  rw [hjoin]
  congr 1
  exact readBytes_congr b.buffer fun i hi => hsame _ (.inl (by omega))

/-! ## In the ring -/

namespace CRingBuffer

/-- The first `n` bytes from the front on, wherever they wrap. -/
def packet (r : CRingBuffer) (n : ℕ) : List Byte :=
  (List.range n).map fun i => r.buffer (getIndex (r.front + BitVec.ofNat 32 i))

/-- The cells of the checksum and of a payload of `n` bytes. -/
def bodyCells (r : CRingBuffer) (n : ℕ) : List ℕ :=
  (List.range (n + 1)).map fun i => getIndex (r.front + BitVec.ofNat 32 (4 + i))

@[simp] theorem length_packet (r : CRingBuffer) (n : ℕ) : (r.packet n).length = n := by
  simp [packet]

theorem getIndex_front_add (r : CRingBuffer) (i : ℕ) :
    getIndex (r.front + BitVec.ofNat 32 i) = (r.front.toNat + i) % 8192 := by
  rw [getIndex_add, getIndex_eq]
  omega

theorem reads_packet (r : CRingBuffer) (n : ℕ) : Reads r.buffer r.front.toNat (r.packet n) := by
  intro i hi
  rw [length_packet] at hi
  simp [packet, List.getElem?_range hi, getIndex_front_add]

theorem packet_of_reads {n : ℕ} {bytes : List Byte} (h : Reads r.buffer r.front.toNat bytes)
    (hlen : bytes.length = n) : r.packet n = bytes := by
  refine List.ext_getElem? fun i => ?_
  by_cases hi : i < n
  · rw [reads_packet r n i (by rwa [length_packet]), h i (by omega)]
  · rw [List.getElem?_eq_none (by rw [length_packet]; omega), List.getElem?_eq_none (by omega)]

theorem packet_take (r : CRingBuffer) {k n : ℕ} (h : k ≤ n) : (r.packet n).take k = r.packet k := by
  rw [packet, packet, ← List.map_take, List.take_range, Nat.min_eq_left h]

/-- **`Peek` reads the bytes at the front**, in whatever state the ring is. -/
theorem peek_eq_packet {n : ℕ} (hn : n ≤ r.size) : r.peek n = some (r.packet n) := by
  have hsize := size_eq_mod r
  have hrear : getIndex (r.front + BitVec.ofNat 32 r.size) = getIndex r.rear := by
    have := getIndex_eq r.rear
    have := getIndex_eq r.front
    rw [getIndex_add]
    omega
  have hholds : Holds { r with rear := r.front + BitVec.ofNat 32 r.size } r.front.toNat
      (r.packet r.size) := by
    refine ⟨?_, ?_, ?_, reads_packet r r.size⟩
    · simp
    · simp [BitVec.ofNat_add]
    · rw [length_packet]
      omega
  have hpeek := hholds.peek_eq (n := n) (by rwa [length_packet])
  rw [packet_take r hn] at hpeek
  rw [← hpeek]
  generalize r.front + BitVec.ofNat 32 r.size = rear at hrear
  simp only [peek, directDequeueSize, size, hrear]
  rfl

/-- **`Decode` decodes the packet at the front**, and touches nothing else. -/
theorem packet_decode (staticKey : Byte) {n : ℕ} (hsize : 5 + n ≤ r.size)
    (hlen : (NetHeader.ofBytes (r.packet (5 + n))).len.toNat = n) :
    ∃ r', r.decode staticKey = some r' ∧ r'.front = r.front ∧ r'.rear = r.rear ∧
      r'.packet (5 + n) = decodePacket staticKey (r.packet (5 + n)) ∧
      ∀ c, c ∉ r.bodyCells n → r'.buffer c = r.buffer c := by
  have hle : r.size < 8192 := by
    rw [size_eq_mod]
    omega
  have hheader : NetHeader.ofBytes (r.packet 5) = NetHeader.ofBytes (r.packet (5 + n)) := by
    rw [← packet_take r (show 5 ≤ 5 + n by omega), NetHeader.ofBytes_take
      (by rw [length_packet]; omega)]
  generalize hrk : (NetHeader.ofBytes (r.packet (5 + n))).randomKey = randomKey
  have hpeek : r.peek Header.NetHeader.size = some (r.packet 5) :=
    peek_eq_packet (show 5 ≤ r.size by omega)
  have hcount : ((NetHeader.ofBytes (r.packet (5 + n))).len +
      BitVec.ofNat 16 (Header.NetHeader.size - NetHeader.checkSumOffset)).toNat = n + 1 := by
    simp only [Header.size, NetHeader.checkSumOffset, BitVec.toNat_add, BitVec.toNat_ofNat, hlen]
    omega
  have hbody : ((r.packet (5 + n)).drop 4).length = n + 1 := by
    rw [List.length_drop, length_packet]
    omega
  obtain ⟨hreads, hsame⟩ := Holds.decodeLoop_spec staticKey randomKey (i := 1) (e := 0) (p := 0)
    ((reads_packet r (5 + n)).drop 4) (by rw [hbody]; omega)
  rw [hbody] at hreads hsame
  have hstart : getIndex (r.front + BitVec.ofNat 32 NetHeader.checkSumOffset) =
      (r.front.toNat + 4) % 8192 := getIndex_front_add r 4
  simp only [decode, hpeek, Option.map_some, hheader, hcount, hstart, hrk]
  have hplain : (decodeBytes staticKey randomKey ((r.packet (5 + n)).drop 4)).length = n + 1 := by
    rw [decodeBytes, Feedback.length_decode, hbody]
  have hfour : ((r.packet (5 + n)).take 4).length = 4 := by
    rw [List.length_take, length_packet]
    omega
  refine ⟨_, rfl, rfl, rfl, packet_of_reads ?_ ?_, fun c hc => hsame c fun k hk heq => ?_⟩
  · rw [decodePacket, hrk]
    refine Reads.append (((reads_packet r (5 + n)).take 4).congr fun i hi => hsame _ ?_) ?_
    · intro k hk
      rw [hfour] at hi
      omega
    · rw [hfour]
      exact hreads
  · rw [decodePacket, hrk, List.length_append, hfour, hplain]
    omega
  · refine hc (List.mem_map.2 ⟨k, List.mem_range.2 hk, ?_⟩)
    rw [getIndex_front_add, heq]
    congr 1
    omega

/-- **`Decode` and `Encode` undo each other**, at whatever cell the packet
starts: a packet that `Encode` made decodes to what it was made of, and a
decoded packet encodes to what it was. -/
theorem decode_encode_inverse (staticKey : Byte) {n : ℕ} (hsize : 5 + n ≤ r.size)
    (hlen : (NetHeader.ofBytes (r.packet (5 + n))).len.toNat = n) :
    ∃ r', r.decode staticKey = some r' ∧ r'.front = r.front ∧ r'.rear = r.rear ∧
      (∀ c, c ∉ r.bodyCells n → r'.buffer c = r.buffer c) ∧
      (∀ b : CSendBuffer, (NetHeader.ofBytes (b.packet (5 + n))).len.toNat = n →
        (b.encode staticKey).packet (5 + n) = r.packet (5 + n) →
        r'.packet (5 + n) = b.packet (5 + n)) ∧
      ∀ b : CSendBuffer, b.packet (5 + n) = r'.packet (5 + n) →
        (b.encode staticKey).packet (5 + n) = r.packet (5 + n) := by
  obtain ⟨r', hdec, hfront, hrear, hpacket, hsame⟩ := packet_decode staticKey hsize hlen
  refine ⟨r', hdec, hfront, hrear, hsame, fun b hb henc => ?_, fun b hb => ?_⟩
  · rw [hpacket, ← henc, b.packet_encode staticKey hb, decodePacket_encodePacket]
    rw [CSendBuffer.packet, length_readBytes]
    omega
  · have hfive : 5 ≤ (r.packet (5 + n)).length := by
      rw [length_packet]
      omega
    have hlen' : (NetHeader.ofBytes (b.packet (5 + n))).len.toNat = n := by
      rw [hb, hpacket, decodePacket, ofBytes_take_append (by omega), hlen]
      rw [decodeBytes, Feedback.length_decode, List.length_drop]
      omega
    rw [b.packet_encode staticKey hlen', hb, hpacket, encodePacket_decodePacket staticKey hfive]

/-- Three bytes of payload behind their header. -/
def three : CSendBuffer where
  buffer := writeBytes (fun _ => 0) 0 [dfPACKET_CODE, 3, 0, 0x31, 12, 3, 4, 5]
  head := 0
  front := 5
  rear := 8
  isEncrypt := 0

/-- The packet that `Encode` makes of them, the last two bytes at the start of
the array. -/
def wrapped : CRingBuffer where
  buffer c :=
    if 8186 ≤ c then [dfPACKET_CODE, 3, 0, 0x31, 0x65, 0xb3].getD (c - 8186) 0
    else [0xb2, 0xc2].getD c 0
  front := 8186
  rear := 8194

theorem decode_encode_inverse_wrapped : ∃ r', wrapped.decode 0x5A = some r' ∧
    r'.packet 8 = three.packet 8 ∧ (three.encode 0x5A).packet 8 = wrapped.packet 8 := by
  obtain ⟨r', hdecode, -, -, -, hencoded, hdecoded⟩ :=
    decode_encode_inverse (r := wrapped) (n := 3) 0x5A (by decide) (by decide)
  have hpacket : r'.packet 8 = three.packet 8 := hencoded three (by decide) (by decide)
  exact ⟨r', hdecode, hpacket, hdecoded three hpacket.symm⟩

end CRingBuffer

end NetLib
