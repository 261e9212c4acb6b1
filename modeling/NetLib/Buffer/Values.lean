import NetLib.Buffer.Push
import NetLib.Buffer.Pop
/-!
# Values through a packet

What is pushed into a `CSendBuffer` is read back from a `CRecvBuffer` that the
payload has reached. Writer and reader each keep their own books: the one
counts what was written behind `_data`, the other what is left of the packet,
and the ring may wrap inside any value. `CRecvBuffer.Ahead` ties the reader to
the bytes it has still to read.
-/

namespace NetLib

/-- The bytes of a scalar of `n` bytes, the lowest first. -/
def scalarBytes : ℕ → ℕ → List Byte
  | 0, _ => []
  | n + 1, value => BitVec.ofNat 8 value :: scalarBytes n (value / 256)

/-- The number with the bytes `bytes`. -/
def ofScalarBytes : List Byte → ℕ
  | [] => 0
  | b :: bytes => b.toNat + 256 * ofScalarBytes bytes

/-- The wide characters with the bytes `bytes`. -/
def wideChars : List Byte → WString
  | lo :: hi :: bytes => wordOf lo hi :: wideChars bytes
  | _ => []

@[simp] theorem length_scalarBytes (n value : ℕ) : (scalarBytes n value).length = n := by
  induction n generalizing value with
  | zero => rfl
  | succ n ih => rw [scalarBytes, List.length_cons, ih]

theorem ofScalarBytes_scalarBytes (n value : ℕ) :
    ofScalarBytes (scalarBytes n value) = value % 256 ^ n := by
  induction n generalizing value with
  | zero => simp [scalarBytes, ofScalarBytes, Nat.mod_one]
  | succ n ih =>
    have hsplit : value % 256 ^ (n + 1) = value % 256 + 256 * (value / 256 % 256 ^ n) := by
      rw [pow_succ', Nat.mod_mul]
    rw [scalarBytes, ofScalarBytes, ih, BitVec.toNat_ofNat, hsplit]

@[simp] theorem wideChars_wideBytes (s : WString) : wideChars (wideBytes s) = s := by
  induction s with
  | nil => rfl
  | cons c s ih =>
    change wordOf (loByte c) (hiByte c) :: wideChars (wideBytes s) = c :: s
    rw [ih, wordOf_bytes]

/-- A value that is written to a packet. -/
inductive Value
  /-- A scalar of `n` bytes. -/
  | scalar (n : ℕ) (value : BitVec (8 * n))
  /-- A `String`, with its length. -/
  | string (value : WString)
  /-- A block of wide characters whose length the reader knows. -/
  | wstr (arr : WString)
  /-- A block of characters whose length the reader knows. -/
  | cstr (arr : List Byte)

namespace Value

/-- The push that writes it. -/
def push : Value → CSendBuffer.Push
  | .scalar n value => .scalar (scalarBytes n value.toNat)
  | .string value => .string value
  | .wstr arr => .wstr arr
  | .cstr arr => .cstr arr

/-- The read that asks for one of its type. -/
def read : Value → CRecvBuffer.Read
  | .scalar n _ => .scalar n
  | .string _ => .string
  | .wstr arr => .wstr arr.length
  | .cstr arr => .cstr arr.length

/-- What it takes in a packet. -/
def encode (value : Value) : List Byte := value.push.bytes

end Value

/-- What a read leaves in its argument, by the bytes `Peek` copies there. -/
def CRecvBuffer.Read.value : CRecvBuffer.Read → List Byte → Value
  | .scalar n, bytes => .scalar n (BitVec.ofNat (8 * n) (ofScalarBytes bytes))
  | .string, bytes => .string (wideChars bytes)
  | .wstr _, bytes => .wstr (wideChars bytes)
  | .cstr _, bytes => .cstr bytes

namespace CSendBuffer

/-- The pushes of the values, in order. -/
def pushValues : List Value → PushM Unit
  | [] => pure ()
  | value :: values => do
    value.push.run
    pushValues values

variable {b : CSendBuffer}

/-- The two bytes give the length back. -/
theorem len_ofBytes_lengthBytes {value : WString} (h : value.length < 2 ^ 16) :
    (LANHeader.ofBytes (lengthBytes value)).len.toNat = value.length := by
  have hof := LANHeader.ofBytes_bytes ⟨BitVec.ofNat 16 value.length⟩ []
  rw [List.append_nil] at hof
  refine (congrArg (fun header => header.len.toNat) hof).trans ?_
  rw [BitVec.toNat_ofNat, Nat.mod_eq_of_lt h]

/-- **A value that fits is appended.** -/
theorem push_run {value : Value} (h : (value.encode.length : ℤ) ≤ b.canPushSize) :
    value.push.run b = .ok () (b.append value.encode) := by
  cases value with
  | scalar n value =>
    change ((scalarBytes n value.toNat).length : ℤ) ≤ _ at h
    change pushScalar _ b = _
    rw [pushScalar_run, if_neg (not_lt.2 h)]
    rfl
  | cstr arr =>
    change (arr.length : ℤ) ≤ _ at h
    change pushCstr _ b = _
    rw [pushCstr_run, if_neg (not_lt.2 h)]
    rfl
  | wstr arr =>
    change ((wideBytes arr).length : ℤ) ≤ _ at h
    rw [length_wideBytes] at h
    change setWstr _ _ b = _
    rw [setWstr_run, if_neg (by omega), if_neg (by omega), Int.toNat_natCast, List.take_length]
    rfl
  | string value =>
    change ((lengthBytes value ++ wideBytes value).length : ℤ) ≤ _ at h
    have htwo : (lengthBytes value).length = 2 := rfl
    rw [List.length_append, htwo, length_wideBytes] at h
    -- the length fits in an `int`
    have hint : toInt value.length = value.length := by
      have hroom : b.canPushSize ≤ 2053 := by
        simp only [canPushSize, BUFFER_SIZE, data]
        omega
      rw [toInt, BitVec.toInt_ofNat']
      exact Int.bmod_eq_of_le (by omega) (by omega)
    change pushString _ b = _
    rw [pushString_run, if_neg (by omega), setWstr_run, canPushSize_append, htwo, hint,
      if_neg (by omega), if_neg (by omega), Int.toNat_natCast, List.take_length, append_append]
    rfl

theorem pushValues_run {values : List Value}
    (h : ((values.flatMap Value.encode).length : ℤ) ≤ b.canPushSize) :
    pushValues values b = .ok () (b.append (values.flatMap Value.encode)) := by
  induction values generalizing b with
  | nil => rw [List.flatMap_nil, append_nil]; rfl
  | cons value values ih =>
    rw [List.flatMap_cons, List.length_append] at h
    have hvalue : value.push.run b = .ok () (b.append value.encode) := push_run (by omega)
    have hrest := ih (b := b.append value.encode) (by rw [canPushSize_append]; omega)
    rw [append_append] at hrest
    simp only [pushValues, bind, EStateM.bind, hvalue, hrest, List.flatMap_cons]

/-- **Values that fit into the buffer are all written.** -/
theorem pushValues_clear (b : CSendBuffer) {values : List Value}
    (h : (values.flatMap Value.encode).length ≤ BUFFER_SIZE) :
    ∃ b', pushValues values b.clear = .ok () b' ∧ b'.Written (values.flatMap Value.encode) := by
  have hroom : b.clear.canPushSize = 2048 := by simp [canPushSize, clear]
  obtain ⟨b', hset, hwritten⟩ := written_setCstr b h
  refine ⟨b', ?_, hwritten⟩
  rw [pushValues_run (by rw [hroom]; exact_mod_cast h)]
  rw [setCstr, if_neg (by rw [hroom]; exact not_lt.2 (by exact_mod_cast h))] at hset
  exact congrArg _ (Option.some.inj hset)

end CSendBuffer

namespace CRecvBuffer

/-- The reads, in order, with the values they leave. -/
def readValues : List Read → PopM (List Value)
  | [] => pure []
  | op :: ops => do
    let bytes ← op.run
    let values ← readValues ops
    pure (op.value bytes :: values)

/-- What is left of the packet is `bytes`, at the front of the ring. -/
structure Ahead (b : CRecvBuffer) (bytes : List Byte) : Prop where
  size : b.size = bytes.length
  le : bytes.length ≤ b.buffer.size
  packet : b.buffer.packet bytes.length = bytes

variable {b : CRecvBuffer} {x y : List Byte}

/-- The bytes behind the first `m`. -/
theorem packet_add (r : CRingBuffer) (m n : ℕ) :
    r.packet (m + n) = r.packet m ++ (removed r m).packet n := by
  simp [CRingBuffer.packet, removed, List.range_add, BitVec.ofNat_add, BitVec.add_assoc]

/-- **The next bytes are popped** if the check asks for no more than they
are. -/
theorem Ahead.pop (h : b.Ahead (x ++ y)) {c : ℕ} (hc : c ≤ x.length) :
    (canPop c >>= fun _ => CRecvBuffer.pop x.length) b =
        .ok x ⟨removed b.buffer x.length, b.size - x.length⟩ ∧
      Ahead ⟨removed b.buffer x.length, b.size - x.length⟩ y := by
  obtain ⟨hsize, hle, hpacket⟩ := h
  rw [List.length_append] at hsize hle hpacket
  have hring := CRingBuffer.size_eq_mod b.buffer
  rw [packet_add] at hpacket
  obtain ⟨hx, hy⟩ := List.append_inj hpacket (CRingBuffer.length_packet _ _)
  refine ⟨?_, ?_, ?_, hy⟩
  · rw [canPop_bind, if_neg (by omega), pop_run (by omega), hx]
  · simp only
    omega
  · rw [size_removed (by omega)]
    omega

/-- **A value that is ahead is read.** -/
theorem Ahead.read {value : Value} (h : b.Ahead (value.encode ++ y)) :
    ∃ bytes, value.read.run b =
        .ok bytes ⟨removed b.buffer value.encode.length, b.size - value.encode.length⟩ ∧
      value.read.value bytes = value ∧
      Ahead ⟨removed b.buffer value.encode.length, b.size - value.encode.length⟩ y := by
  cases value with
  | scalar n value =>
    have hlen : (Value.scalar n value).encode.length = n := length_scalarBytes n value.toNat
    obtain ⟨hrun, hahead⟩ := h.pop le_rfl
    refine ⟨scalarBytes n value.toNat, ?_, ?_, hahead⟩
    · change _ = EStateM.Result.ok (Value.scalar n value).encode _
      rw [← hrun, hlen]
      rfl
    · have hlt : value.toNat < 256 ^ n := by
        have := value.isLt
        rwa [pow_mul] at this
      simp only [Value.read, Read.value, ofScalarBytes_scalarBytes, Nat.mod_eq_of_lt hlt,
        BitVec.ofNat_toNat, BitVec.setWidth_eq]
  | cstr arr =>
    obtain ⟨hrun, hahead⟩ := h.pop le_rfl
    exact ⟨arr, hrun, rfl, hahead⟩
  | wstr arr =>
    have hlen : (Value.wstr arr).encode.length = 2 * arr.length := length_wideBytes arr
    -- `CanPop` is asked for the characters only
    obtain ⟨hrun, hahead⟩ := h.pop (c := arr.length) (by omega)
    refine ⟨wideBytes arr, ?_, ?_, hahead⟩
    · change getWstr arr.length b = EStateM.Result.ok (Value.wstr arr).encode _
      rw [← hrun, hlen]
      rfl
    · simp only [Value.read, Read.value, wideChars_wideBytes]
  | string value =>
    change b.Ahead (CSendBuffer.lengthBytes value ++ wideBytes value ++ y) at h
    have hring := CRingBuffer.size_eq_mod b.buffer
    have hle := h.le
    rw [List.append_assoc] at h
    obtain ⟨hlength, hahead⟩ := h.pop (c := 2) (le_refl 2)
    obtain ⟨hchars, hahead'⟩ := hahead.pop (c := 2 * value.length) (by rw [length_wideBytes])
    have hbytes : (LANHeader.ofBytes (CSendBuffer.lengthBytes value)).len.toNat =
        value.length := by
      refine CSendBuffer.len_ofBytes_lengthBytes ?_
      simp only [List.length_append, length_wideBytes] at hle
      omega
    have hsplit : removed (removed b.buffer (CSendBuffer.lengthBytes value).length)
        (wideBytes value).length = removed b.buffer (Value.string value).encode.length := by
      rw [removed_removed, Value.encode, Value.push, CSendBuffer.Push.bytes, List.length_append]
    have hleft : b.size - (CSendBuffer.lengthBytes value).length - (wideBytes value).length =
        b.size - (Value.string value).encode.length := by
      rw [Value.encode, Value.push, CSendBuffer.Push.bytes, List.length_append]
      push_cast
      omega
    simp only [hsplit, hleft] at hchars hahead'
    refine ⟨wideBytes value, ?_, ?_, hahead'⟩
    · change popString b = _
      rw [popString_ok hlength, ← hchars, popChars, hbytes, length_wideBytes]
    · simp only [Value.read, Read.value, wideChars_wideBytes]

theorem Ahead.readValues {values : List Value} (h : b.Ahead (values.flatMap Value.encode)) :
    readValues (values.map Value.read) b =
      .ok values ⟨removed b.buffer (values.flatMap Value.encode).length, 0⟩ := by
  induction values generalizing b with
  | nil =>
    have hzero : b.size = 0 := h.size
    have hsame : removed b.buffer 0 = b.buffer := by simp [removed]
    change EStateM.Result.ok [] b = EStateM.Result.ok [] ⟨removed b.buffer 0, 0⟩
    rw [hsame, ← hzero]
  | cons value values ih =>
    rw [List.flatMap_cons] at h
    obtain ⟨bytes, hrun, hvalue, hahead⟩ := h.read
    have hrest := ih hahead
    rw [removed_removed] at hrest
    simp only [List.map_cons, CRecvBuffer.readValues, bind, EStateM.bind, hrun, hrest, hvalue,
      List.flatMap_cons, List.length_append]
    rfl

end CRecvBuffer

/-- **Values that fit into a packet are read back as they were written**,
wherever the payload lies in the ring: nothing is thrown, nothing of the packet
is left, and the front is just past it. -/
theorem values_round_trip (b : CSendBuffer) (values : List Value)
    (h : (values.flatMap Value.encode).length ≤ CSendBuffer.BUFFER_SIZE) :
    ∃ b' payload, CSendBuffer.pushValues values b.clear = .ok () b' ∧ b'.Written payload ∧
      ∀ r : CRingBuffer, payload.length ≤ r.size → r.packet payload.length = payload →
        CRecvBuffer.readValues (values.map Value.read) ⟨r, payload.length⟩ =
          .ok values ⟨CRecvBuffer.removed r payload.length, 0⟩ := by
  obtain ⟨b', hpush, hwritten⟩ := CSendBuffer.pushValues_clear b h
  refine ⟨b', _, hpush, hwritten, fun r hle hpacket => ?_⟩
  exact CRecvBuffer.Ahead.readValues ⟨rfl, hle, hpacket⟩

/-- The bytes of a scalar of four bytes and a string behind it. -/
def greeting : List Byte := [1, 2, 0, 0, 2, 0, 0x41, 0, 0x42, 0]

/-- A ring that holds them, and wraps inside the scalar. -/
def greeted : CRingBuffer where
  buffer c := if 8189 ≤ c then greeting.getD (c - 8189) 0 else greeting.getD (c + 3) 0
  front := 8189
  rear := 8199

theorem values_round_trip_greeting : ∃ b',
    CSendBuffer.pushValues [.scalar 4 513, .string [0x41, 0x42]] CSendBuffer.fresh.clear =
        .ok () b' ∧ b'.Written greeting ∧
      CRecvBuffer.readValues [.scalar 4, .string] ⟨greeted, 10⟩ =
        .ok [.scalar 4 513, .string [0x41, 0x42]] ⟨CRecvBuffer.removed greeted 10, 0⟩ := by
  obtain ⟨b', payload, hpush, hwritten, hread⟩ :=
    values_round_trip CSendBuffer.fresh [.scalar 4 513, .string [0x41, 0x42]] (by decide)
  obtain ⟨b, hb, hrear, hbytes⟩ : ∃ b,
      CSendBuffer.pushValues [.scalar 4 513, .string [0x41, 0x42]] CSendBuffer.fresh.clear =
        .ok () b ∧ b.rear = 15 ∧ readBytes b.buffer 5 10 = greeting :=
    ⟨_, rfl, rfl, by decide⟩
  obtain rfl : b' = b := by
    rw [hpush] at hb
    exact (EStateM.Result.ok.inj hb).2
  have hlen : payload.length = 10 := by
    have := hwritten.rear
    omega
  obtain rfl : payload = greeting := by
    rw [← hbytes, ← hlen]
    exact hwritten.holds.symm
  exact ⟨b', hpush, hwritten, hread greeted (by decide) (by decide)⟩

end NetLib
