import Mathlib.Data.Int.Notation
import Mathlib.Logic.Function.Basic
import NetLib.Buffer.Protocol
/-!
# `CSendBuffer`

The buffer a packet is written to. The payload starts behind the room for a
`NetHeader`; `RealSend` writes the header in front of it, and with a static
key encodes checksum and payload in place. What goes to the socket is what
lies between `_head` and `_rear`.
-/

namespace NetLib

/-- The buffer; the pointers are indices into `_buffer`, and `_data` is
always `sizeof(NetHeader)`. -/
structure CSendBuffer where
  buffer : ℕ → Byte
  head : ℕ
  front : ℕ
  rear : ℕ
  isEncrypt : Byte

namespace CSendBuffer

abbrev BUFFER_SIZE : ℕ := 2048

/-- `_data` -/
abbrev data : ℕ := 5

def clear (b : CSendBuffer) : CSendBuffer :=
  { b with head := 0, front := data, rear := data, isEncrypt := 0 }

def getDataSize (b : CSendBuffer) : BitVec 16 := BitVec.ofNat 16 (b.rear - data)

def sendDataSize (b : CSendBuffer) : ℕ := b.rear - b.head

/-- Negative once too much was written. -/
def canPushSize (b : CSendBuffer) : ℤ := (BUFFER_SIZE : ℤ) - ((b.rear : ℤ) - (data : ℤ))

/-- `SetCstr`, which throws if there is no room. -/
def setCstr (b : CSendBuffer) (arr : List Byte) : Option CSendBuffer :=
  if b.canPushSize < arr.length then none
  else some { b with buffer := writeBytes b.buffer b.rear arr, rear := b.rear + arr.length }

def writeLanHeader (b : CSendBuffer) : CSendBuffer :=
  { b with
    buffer := writeBytes b.buffer (b.front - 2) (LANHeader.mk b.getDataSize).bytes
    head := b.front - 2 }

def writeNetHeader (b : CSendBuffer) (code : Byte) : CSendBuffer :=
  let tmpHeader : NetHeader := {
    code := code
    len := b.getDataSize
    randomKey := 0x31
    checkSum := (List.range b.getDataSize.toNat).foldl
      (fun sum i => sum + b.buffer (data + i)) 0 }
  { b with buffer := writeBytes b.buffer b.head tmpHeader.bytes }

/-- The loop of `Encode`, with `n` bytes to go. -/
def encodeLoop (staticKey randomKey : Byte) :
    ℕ → ℕ → ℕ → Byte → Byte → (ℕ → Byte) → ℕ → Byte
  | 0, _, _, _, _, buffer => buffer
  | n + 1, i, encodeData, p, e, buffer =>
    let p := buffer encodeData ^^^ (p + randomKey + BitVec.ofNat 8 i)
    let e := p ^^^ (e + staticKey + BitVec.ofNat 8 i)
    encodeLoop staticKey randomKey n (i + 1) (encodeData + 1) p e
      (Function.update buffer encodeData e)

def encode (b : CSendBuffer) (staticKey : Byte) : CSendBuffer :=
  let head := NetHeader.ofBytes (readBytes b.buffer b.head Header.NetHeader.size)
  { b with
    buffer := encodeLoop staticKey head.randomKey (head.len.toNat + 1) 1
      (b.head + NetHeader.checkSumOffset) 0 0 b.buffer
    isEncrypt := b.isEncrypt + 1 }

def tryEncode (b : CSendBuffer) (staticKey : Byte) : CSendBuffer :=
  if b.isEncrypt = 0 then (b.writeNetHeader dfPACKET_CODE).encode staticKey else b

/-- What `RealSend` does with the buffer. -/
def prepare (staticKey : Byte) (b : CSendBuffer) : CSendBuffer :=
  if staticKey ≠ 0 then b.tryEncode staticKey else b.writeLanHeader

/-- The bytes from `GetHead()` on, `SendDataSize()` of them. -/
def wire (b : CSendBuffer) : List Byte := readBytes b.buffer b.head b.sendDataSize

/-- A buffer that `payload` was written to and that was not sent yet. -/
structure Written (b : CSendBuffer) (payload : List Byte) : Prop where
  head : b.head = 0
  front : b.front = 5
  rear : b.rear = 5 + payload.length
  plain : b.isEncrypt = 0
  le : payload.length ≤ 2048
  holds : readBytes b.buffer 5 payload.length = payload

/-- `Alloc` and a write of at most 2048 bytes make one. -/
theorem written_setCstr (b : CSendBuffer) {payload : List Byte} (h : payload.length ≤ 2048) :
    ∃ b', b.clear.setCstr payload = some b' ∧ b'.Written payload := by
  refine ⟨_, if_neg ?_, rfl, rfl, rfl, rfl, h, readBytes_writeBytes _ _ _⟩
  simp only [canPushSize, clear, BUFFER_SIZE, data]
  omega

variable {b : CSendBuffer} {payload : List Byte}

theorem Written.getDataSize_eq (h : b.Written payload) :
    b.getDataSize.toNat = payload.length := by
  have := h.le
  rw [getDataSize, h.rear, data, Nat.add_sub_cancel_left, BitVec.toNat_ofNat, Nat.mod_eq_of_lt]
  omega

/-- **The bytes of a packet with a `LANHeader`.** -/
theorem wire_writeLanHeader (h : b.Written payload) :
    b.writeLanHeader.wire = (LANHeader.mk b.getDataSize).bytes ++ payload := by
  have hsize : b.writeLanHeader.sendDataSize = 2 + payload.length := by
    simp only [sendDataSize, writeLanHeader, h.rear, h.front]
    omega
  have hfront : b.front - 2 = 3 := by rw [h.front]
  have hlen : (LANHeader.mk b.getDataSize).bytes.length = 2 := rfl
  rw [wire, hsize, readBytes_add]
  simp only [writeLanHeader, hfront]
  congr 1
  rw [readBytes_congr b.buffer fun i _ => writeBytes_of_not_mem (by omega)]
  exact h.holds

/-- **The loop of `Encode`** encodes the bytes from `encodeData` on, and
leaves the others alone. -/
theorem encodeLoop_spec (staticKey randomKey : Byte) (n i start : ℕ) (p e : Byte)
    (buffer : ℕ → Byte) :
    let buffer' := encodeLoop staticKey randomKey n i start p e buffer
    readBytes buffer' start n = Feedback.encode (· ^^^ ·) (plainKey randomKey) (cipherKey staticKey)
        i p e (readBytes buffer start n) ∧
      ∀ j, j < start ∨ start + n ≤ j → buffer' j = buffer j := by
  induction n generalizing i start p e buffer with
  | zero => exact ⟨rfl, fun _ _ => rfl⟩
  | succ n ih =>
    have hcons (buffer : ℕ → Byte) :
        readBytes buffer start (n + 1) = buffer start :: readBytes buffer (start + 1) n := by
      rw [Nat.add_comm n 1, readBytes_add]
      rfl
    simp only [encodeLoop, hcons, Feedback.encode]
    generalize hp : buffer start ^^^ (p + randomKey + BitVec.ofNat 8 i) = p'
    generalize he : p' ^^^ (e + staticKey + BitVec.ofNat 8 i) = e'
    obtain ⟨hread, hsame⟩ := ih (i + 1) (start + 1) p' e' (Function.update buffer start e')
    have hrest : readBytes (Function.update buffer start e') (start + 1) n =
        readBytes buffer (start + 1) n :=
      readBytes_congr buffer fun i _ => Function.update_of_ne (by omega) _ _
    refine ⟨?_, fun j hj => ?_⟩
    · rw [hread, hrest, hsame start (.inl (Nat.lt_succ_self start)), Function.update_self]
      simp only [plainKey, cipherKey, hp, he]
    · rw [hsame j (by omega)]
      exact Function.update_of_ne (by omega) _ _

/-- **The bytes of a packet with a `NetHeader`.** -/
theorem wire_tryEncode (h : b.Written payload) (staticKey : Byte) :
    (b.tryEncode staticKey).wire =
      [dfPACKET_CODE, loByte b.getDataSize, hiByte b.getDataSize, 0x31] ++
        encodeBytes staticKey 0x31 (checkSumOf payload :: payload) := by
  have hsum : (List.range b.getDataSize.toNat).foldl
      (fun sum i => sum + b.buffer (data + i)) 0 = checkSumOf payload := by
    rw [h.getDataSize_eq, checkSumOf]
    conv_rhs => rw [← h.holds, readBytes, List.foldl_map]
  -- the header is written
  let header : NetHeader := ⟨dfPACKET_CODE, b.getDataSize, 0x31, checkSumOf payload⟩
  have hnet : b.writeNetHeader dfPACKET_CODE =
      { b with buffer := writeBytes b.buffer 0 header.bytes } := by
    simp only [writeNetHeader, hsum, h.head, header]
  have hbytes : readBytes (writeBytes b.buffer 0 header.bytes) 0 5 = header.bytes :=
    readBytes_writeBytes b.buffer 0 header.bytes
  have hpayload : readBytes (writeBytes b.buffer 0 header.bytes) 5 payload.length = payload := by
    rw [readBytes_congr b.buffer fun i _ => writeBytes_of_not_mem (by
      rw [show header.bytes.length = 5 from rfl]
      omega)]
    exact h.holds
  generalize hbuf : writeBytes b.buffer 0 header.bytes = buffer at hnet hbytes hpayload
  have hheader : NetHeader.ofBytes (readBytes buffer 0 Header.NetHeader.size) = header := by
    rw [show readBytes buffer 0 Header.NetHeader.size = header.bytes ++ [] from
      hbytes.trans (List.append_nil _).symm, NetHeader.ofBytes_bytes]
  -- and the rest encoded
  obtain ⟨hread, hsame⟩ := encodeLoop_spec staticKey 0x31 (payload.length + 1) 1 4 0 0 buffer
  have hplain : readBytes buffer 4 (payload.length + 1) = checkSumOf payload :: payload := by
    rw [Nat.add_comm, readBytes_add, hpayload]
    have hfour := congrArg (·[4]?) hbytes
    simp only [readBytes_getElem? (show 4 < 5 by decide), Nat.zero_add] at hfour
    exact congrArg (· :: payload) (Option.some.inj hfour)
  have hfirst : readBytes buffer 0 4 =
      [dfPACKET_CODE, loByte b.getDataSize, hiByte b.getDataSize, 0x31] := by
    have hsplit := readBytes_add buffer 0 4 1
    rw [hbytes] at hsplit
    exact (List.append_inj (hsplit.symm.trans
      (show header.bytes = [_, _, _, _] ++ [_] from rfl)) rfl).1
  have hsize : (b.tryEncode staticKey).sendDataSize = 4 + (payload.length + 1) := by
    simp only [tryEncode, h.plain, if_true, hnet, encode, sendDataSize, h.rear, h.head]
    omega
  rw [wire, hsize, readBytes_add]
  simp only [tryEncode, h.plain, if_true, hnet, encode, h.head, hheader, header, Nat.zero_add,
    NetHeader.checkSumOffset, h.getDataSize_eq]
  rw [hread, hplain, readBytes_congr buffer fun i hi => hsame _ (.inl (by omega)), hfirst,
    encodeBytes]

end CSendBuffer

end NetLib
