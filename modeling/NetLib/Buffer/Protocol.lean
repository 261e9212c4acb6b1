import Mathlib.Data.Nat.Notation
import NetLib.Library.Feedback
import NetLib.Library.Framing
/-!
# Packet headers and the packet cipher

The two headers of `Protocol.h`, packed and little-endian, the checksum,
and the cipher that `CSendBuffer::Encode` and `CRingBuffer::Decode` run
over checksum and payload.
-/

namespace NetLib

abbrev Byte := BitVec 8

/-- `buffer[start]`, …, `buffer[start + n - 1]`, as `memcpy_s` copies them. -/
def readBytes (buffer : ℕ → Byte) (start n : ℕ) : List Byte :=
  (List.range n).map fun i => buffer (start + i)

/-- `data` written from `buffer[start]` on. -/
def writeBytes (buffer : ℕ → Byte) (start : ℕ) (data : List Byte) : ℕ → Byte := fun i =>
  if start ≤ i ∧ i < start + data.length then data.getD (i - start) 0 else buffer i

@[simp] theorem length_readBytes (buffer : ℕ → Byte) (start n : ℕ) :
    (readBytes buffer start n).length = n := by
  simp [readBytes]

theorem readBytes_getElem? {n i : ℕ} (hi : i < n) (buffer : ℕ → Byte) (start : ℕ) :
    (readBytes buffer start n)[i]? = some (buffer (start + i)) := by
  simp [readBytes, List.getElem?_range hi]

/-- What is read depends on the cells read. -/
theorem readBytes_congr (buffer : ℕ → Byte) {buffer' : ℕ → Byte} {start n : ℕ}
    (h : ∀ i < n, buffer' (start + i) = buffer (start + i)) :
    readBytes buffer' start n = readBytes buffer start n :=
  List.map_congr_left fun i hi => h i (List.mem_range.1 hi)

theorem readBytes_add (buffer : ℕ → Byte) (start m n : ℕ) :
    readBytes buffer start (m + n) =
      readBytes buffer start m ++ readBytes buffer (start + m) n := by
  simp [readBytes, List.range_add, Nat.add_assoc]

/-- What was written is read. -/
theorem readBytes_writeBytes (buffer : ℕ → Byte) (start : ℕ) (data : List Byte) :
    readBytes (writeBytes buffer start data) start data.length = data := by
  refine List.ext_getElem? fun i => ?_
  by_cases hi : i < data.length
  · rw [readBytes_getElem? hi, writeBytes, if_pos (by omega), Nat.add_sub_cancel_left,
      List.getD_eq_getElem?_getD, List.getElem?_eq_getElem hi, Option.getD_some]
  · rw [List.getElem?_eq_none (by simpa using hi), List.getElem?_eq_none (by omega)]

/-- And nothing else. -/
theorem writeBytes_of_not_mem {buffer : ℕ → Byte} {start i : ℕ} {data : List Byte}
    (h : i < start ∨ start + data.length ≤ i) : writeBytes buffer start data i = buffer i :=
  if_neg (by omega)

/-- `dfPACKET_CODE` -/
def dfPACKET_CODE : Byte := 0x77

/-- The low and the high byte of an `unsigned short`. -/
def loByte (n : BitVec 16) : Byte := n.extractLsb' 0 8

def hiByte (n : BitVec 16) : Byte := n.extractLsb' 8 8

/-- The `unsigned short` with the bytes `lo` and `hi`. -/
def wordOf (lo hi : Byte) : BitVec 16 := hi ++ lo

@[simp] theorem wordOf_bytes (n : BitVec 16) : wordOf (loByte n) (hiByte n) = n :=
  BitVec.extractLsb'_append_extractLsb'

structure LANHeader where
  len : BitVec 16

structure NetHeader where
  code : Byte
  len : BitVec 16
  randomKey : Byte
  checkSum : Byte

/-- Which header a session's packets carry, the template parameter of
`RecvHandler`. -/
inductive Header
  | NetHeader
  | LANHeader
  deriving DecidableEq

/-- `sizeof(Header)` -/
def Header.size : Header → ℕ
  | .NetHeader => 5
  | .LANHeader => 2

namespace NetHeader

/-- `offsetof(NetHeader, checkSum)` -/
def checkSumOffset : ℕ := 4

/-- The header with the bytes `bs`, as `Peek` fills it in. -/
def ofBytes (bs : List Byte) : NetHeader where
  code := bs.getD 0 0
  len := wordOf (bs.getD 1 0) (bs.getD 2 0)
  randomKey := bs.getD 3 0
  checkSum := bs.getD 4 0

def bytes (h : NetHeader) : List Byte :=
  [h.code, loByte h.len, hiByte h.len, h.randomKey, h.checkSum]

/-- A header is read as it was written, whatever follows. -/
theorem ofBytes_bytes (h : NetHeader) (l : List Byte) : ofBytes (h.bytes ++ l) = h := by
  simp [ofBytes, bytes]

end NetHeader

namespace LANHeader

def ofBytes (bs : List Byte) : LANHeader where
  len := wordOf (bs.getD 0 0) (bs.getD 1 0)

def bytes (h : LANHeader) : List Byte := [loByte h.len, hiByte h.len]

theorem ofBytes_bytes (h : LANHeader) (l : List Byte) : ofBytes (h.bytes ++ l) = h := by
  simp [ofBytes, bytes]

end LANHeader

/-- The checksum of a payload: the sum of its bytes in an `unsigned char`. -/
def checkSumOf (payload : List Byte) : Byte := payload.foldl (· + ·) 0

/-! ## The cipher -/

/-- The key for the plain text at position `i`, after the plain text `p`. -/
def plainKey (randomKey : Byte) (i : ℕ) (p : Byte) : Byte := p + randomKey + BitVec.ofNat 8 i

/-- The key for the cipher text at position `i`, after the cipher text `e`. -/
def cipherKey (staticKey : Byte) (i : ℕ) (e : Byte) : Byte := e + staticKey + BitVec.ofNat 8 i

/-- Checksum and payload, encoded. -/
def encodeBytes (staticKey randomKey : Byte) (bs : List Byte) : List Byte :=
  Feedback.encode (· ^^^ ·) (plainKey randomKey) (cipherKey staticKey) 1 0 0 bs

/-- And decoded. -/
def decodeBytes (staticKey randomKey : Byte) (bs : List Byte) : List Byte :=
  Feedback.decode (· ^^^ ·) (plainKey randomKey) (cipherKey staticKey) 1 0 0 bs

/-- **The receiver decodes what the sender encoded.** -/
theorem decodeBytes_encodeBytes (staticKey randomKey : Byte) (bs : List Byte) :
    decodeBytes staticKey randomKey (encodeBytes staticKey randomKey bs) = bs := by
  refine Feedback.decode_encode (fun a b => ?_) 1 0 0 bs
  rw [BitVec.xor_assoc, BitVec.xor_self, BitVec.xor_zero]

/-- **And whatever decoded to these bytes is what encodes them.** -/
theorem encodeBytes_decodeBytes (staticKey randomKey : Byte) (bs : List Byte) :
    encodeBytes staticKey randomKey (decodeBytes staticKey randomKey bs) = bs := by
  refine Feedback.encode_decode (fun a b => ?_) 1 0 0 bs
  rw [BitVec.xor_assoc, BitVec.xor_self, BitVec.xor_zero]

/-- **With another key the first byte comes out wrong.** -/
theorem headD_decodeBytes_encodeBytes {k₁ k₂ : Byte} (randomKey c : Byte) (l : List Byte) :
    (decodeBytes k₂ randomKey (encodeBytes k₁ randomKey (c :: l))).headD 0 = c ↔ k₁ = k₂ := by
  have hxor (a x y : Byte) : c ^^^ a ^^^ x ^^^ y ^^^ a = c ↔ x = y := by
    have hc : c ^^^ a ^^^ a = c := by rw [BitVec.xor_assoc, BitVec.xor_self, BitVec.xor_zero]
    conv_lhs => rw [← hc, BitVec.xor_left_inj, hc]
    rw [BitVec.xor_assoc (c ^^^ a)]
    conv_lhs => rhs; rw [← BitVec.xor_zero (x := c ^^^ a)]
    rw [BitVec.xor_right_inj, BitVec.xor_eq_zero_iff]
  simp only [encodeBytes, decodeBytes, Feedback.encode, Feedback.decode, List.headD_cons, hxor,
    cipherKey]
  rw [BitVec.add_left_inj, BitVec.add_right_inj]

/-! ## The reference parsers -/

/-- A packet with a `NetHeader`: close on a wrong code or a length above the
limit, wait for the payload, decode, close on a wrong checksum. -/
def netFrame (staticKey : Byte) (maxPacketLen : ℕ) (l : List Byte) : Frame (List Byte) :=
  if l.length < 5 then .more
  else
    let header := NetHeader.ofBytes l
    if header.code ≠ dfPACKET_CODE ∨ maxPacketLen < header.len.toNat then .bad
    else if l.length < 5 + header.len.toNat then .more
    else
      let plain := decodeBytes staticKey header.randomKey ((l.drop 4).take (header.len.toNat + 1))
      if plain.headD 0 = checkSumOf plain.tail then .item plain.tail (5 + header.len.toNat)
      else .bad

/-- A packet with a `LANHeader`. -/
def lanFrame (l : List Byte) : Frame (List Byte) :=
  if l.length < 2 then .more
  else
    let header := LANHeader.ofBytes l
    if l.length < 2 + header.len.toNat then .more
    else .item ((l.drop 2).take header.len.toNat) (2 + header.len.toNat)

theorem NetHeader.ofBytes_append {l : List Byte} (h : 5 ≤ l.length) (m : List Byte) :
    NetHeader.ofBytes (l ++ m) = NetHeader.ofBytes l := by
  simp only [NetHeader.ofBytes, List.getD_eq_getElem?_getD]
  rw [List.getElem?_append_left (by omega), List.getElem?_append_left (by omega),
    List.getElem?_append_left (by omega), List.getElem?_append_left (by omega),
    List.getElem?_append_left (by omega)]

theorem LANHeader.ofBytes_append {l : List Byte} (h : 2 ≤ l.length) (m : List Byte) :
    LANHeader.ofBytes (l ++ m) = LANHeader.ofBytes l := by
  simp only [LANHeader.ofBytes, List.getD_eq_getElem?_getD]
  rw [List.getElem?_append_left (by omega), List.getElem?_append_left (by omega)]

/-- The header is in the first bytes. -/
theorem NetHeader.ofBytes_take {l : List Byte} (h : 5 ≤ l.length) :
    NetHeader.ofBytes (l.take 5) = NetHeader.ofBytes l := by
  have := NetHeader.ofBytes_append (l := l.take 5) (by rw [List.length_take]; omega) (l.drop 5)
  rw [← this, List.take_append_drop]

theorem LANHeader.ofBytes_take {l : List Byte} (h : 2 ≤ l.length) :
    LANHeader.ofBytes (l.take 2) = LANHeader.ofBytes l := by
  have := LANHeader.ofBytes_append (l := l.take 2) (by rw [List.length_take]; omega) (l.drop 2)
  rw [← this, List.take_append_drop]

/-- Decoding changes no more of a header than its checksum. -/
theorem NetHeader.ofBytes_checkSum {l : List Byte} (h : 4 ≤ l.length) (c : Byte) (m : List Byte) :
    NetHeader.ofBytes (l.take 4 ++ c :: m) = { NetHeader.ofBytes l with checkSum := c } := by
  have hfour : (l.take 4).length = 4 := by
    rw [List.length_take]
    omega
  have hget (i : ℕ) (hi : i < 4) : (l.take 4 ++ c :: m)[i]? = l[i]? := by
    rw [List.getElem?_append_left (by omega), List.getElem?_take_of_lt hi]
  simp only [NetHeader.ofBytes, List.getD_eq_getElem?_getD]
  rw [hget 0 (by omega), hget 1 (by omega), hget 2 (by omega), hget 3 (by omega),
    List.getElem?_append_right (by omega), hfour]
  rfl

/-- What has arrived of a payload stays where it is. -/
theorem take_drop_append {l : List Byte} {k n : ℕ} (h : k + n ≤ l.length) (m : List Byte) :
    ((l ++ m).drop k).take n = (l.drop k).take n := by
  rw [List.drop_append_of_le_length (by omega), List.take_append_of_le_length]
  rw [List.length_drop]
  omega

theorem netFrame_append {staticKey : Byte} {maxPacketLen : ℕ} {l : List Byte} (m : List Byte)
    (h : netFrame staticKey maxPacketLen l ≠ .more) :
    netFrame staticKey maxPacketLen (l ++ m) = netFrame staticKey maxPacketLen l := by
  have hlen : (l ++ m).length = l.length + m.length := List.length_append
  by_cases h5 : l.length < 5
  · exact absurd (if_pos h5) h
  unfold netFrame at h ⊢
  rw [if_neg h5] at h ⊢
  rw [if_neg (by omega), NetHeader.ofBytes_append (by omega)]
  generalize NetHeader.ofBytes l = header at h ⊢
  by_cases hbad : header.code ≠ dfPACKET_CODE ∨ maxPacketLen < header.len.toNat
  · rw [if_pos hbad, if_pos hbad]
  · rw [if_neg hbad] at h
    rw [if_neg hbad, if_neg hbad]
    by_cases hshort : l.length < 5 + header.len.toNat
    · exact absurd (if_pos hshort) h
    · rw [if_neg hshort, if_neg (by omega), take_drop_append (by omega)]

theorem lanFrame_append {l : List Byte} (m : List Byte) (h : lanFrame l ≠ .more) :
    lanFrame (l ++ m) = lanFrame l := by
  have hlen : (l ++ m).length = l.length + m.length := List.length_append
  by_cases h2 : l.length < 2
  · exact absurd (if_pos h2) h
  unfold lanFrame at h ⊢
  rw [if_neg h2] at h ⊢
  rw [if_neg (by omega), LANHeader.ofBytes_append (by omega)]
  generalize LANHeader.ofBytes l = header at h ⊢
  by_cases hshort : l.length < 2 + header.len.toNat
  · exact absurd (if_pos hshort) h
  · rw [if_neg hshort, if_neg (by omega), take_drop_append (by omega)]

/-- A packet that is there is longer than nothing, and no longer than what
has arrived. -/
theorem netFrame_item {staticKey : Byte} {maxPacketLen n : ℕ} {l x : List Byte}
    (h : netFrame staticKey maxPacketLen l = .item x n) :
    5 ≤ n ∧ n ≤ l.length ∧ n = 5 + x.length := by
  unfold netFrame at h
  split at h
  · cases h
  · dsimp only at h
    split at h
    · cases h
    · split at h
      · cases h
      · split at h
        · obtain ⟨rfl, rfl⟩ := Frame.item.inj h
          refine ⟨by omega, by omega, ?_⟩
          rw [List.length_tail, decodeBytes, Feedback.length_decode, List.length_take,
            List.length_drop]
          omega
        · cases h

theorem lanFrame_item {n : ℕ} {l x : List Byte} (h : lanFrame l = .item x n) :
    2 ≤ n ∧ n ≤ l.length ∧ n = 2 + x.length := by
  unfold lanFrame at h
  split at h
  · cases h
  · dsimp only at h
    split at h
    · cases h
    · obtain ⟨rfl, rfl⟩ := Frame.item.inj h
      refine ⟨by omega, by omega, ?_⟩
      rw [List.length_take, List.length_drop]
      omega

/-- The packets of a session: with a `NetHeader`, or with a `LANHeader`. -/
def framing (header : Header) (staticKey : Byte) (maxPacketLen : ℕ) : Framing Byte (List Byte) where
  next :=
    match header with
    | .NetHeader => netFrame staticKey maxPacketLen
    | .LANHeader => lanFrame
  pos h := by
    cases header with
    | NetHeader =>
      have := netFrame_item h
      omega
    | LANHeader =>
      have := lanFrame_item h
      omega
  item_append m h := by
    cases header with
    | NetHeader => exact (netFrame_append m (by rw [show netFrame _ _ _ = _ from h]; simp)).trans h
    | LANHeader => exact (lanFrame_append m (by rw [show lanFrame _ = _ from h]; simp)).trans h
  bad_append m h := by
    cases header with
    | NetHeader => exact (netFrame_append m (by rw [show netFrame _ _ _ = _ from h]; simp)).trans h
    | LANHeader => exact (lanFrame_append m (by rw [show lanFrame _ = _ from h]; simp)).trans h

/-- Of a packet with a `NetHeader` that is not complete, less than a header
and the longest payload has arrived. -/
theorem length_of_netFrame_more {staticKey : Byte} {maxPacketLen : ℕ} {l : List Byte}
    (h : netFrame staticKey maxPacketLen l = .more) : l.length < 5 + maxPacketLen := by
  unfold netFrame at h
  split at h
  · omega
  · dsimp only at h
    split at h
    · cases h
    · rename_i hbad
      split at h
      · omega
      · split at h <;> cases h

end NetLib
