import Mathlib.Algebra.Order.Ring.Nat
import Mathlib.Logic.Function.Basic
import Mathlib.Data.Nat.Bitwise
import NetLib.Buffer.Protocol
/-!
# `CRingBuffer`

The receive ring of a session: 8192 bytes and two `int`s that only grow and
wrap. A throw, a `__debugbreak()` and a failed `ASSERT_CRASH` answer `none`.
`Holds` says which bytes the ring holds; every operation is described by
what it does to them.
-/

namespace NetLib

/-- The ring. The cells are indexed by naturals; `getIndex` keeps every
access below `BUFFER_SIZE`. -/
structure CRingBuffer where
  buffer : ℕ → Byte
  front : BitVec 32
  rear : BitVec 32

/-- `WSABUF`, its pointer as an index into `_buffer`. -/
structure WSABUF where
  buf : ℕ
  len : ℕ
  deriving DecidableEq

namespace CRingBuffer

abbrev BUFFER_SIZE : ℕ := 8192

/-- `num & INDEX_MASK` -/
def getIndex (num : BitVec 32) : ℕ := (num &&& BitVec.ofNat 32 (BUFFER_SIZE - 1)).toNat

def size (r : CRingBuffer) : ℕ :=
  let rear := getIndex r.rear
  let front := getIndex r.front
  if front ≤ rear then rear - front else BUFFER_SIZE - (front - rear)

def freeSize (r : CRingBuffer) : ℕ := BUFFER_SIZE - r.size - 1

def directEnqueueSize (r : CRingBuffer) : Option ℕ :=
  let rear := getIndex r.rear
  let front := getIndex r.front
  if getIndex (BitVec.ofNat 32 (rear + 1)) = front then some 0
  else
    let result :=
      if rear < front then front - rear - 1
      else if front = 0 then BUFFER_SIZE - rear - 1 else BUFFER_SIZE - rear
    if 0 < result then some result else none

def directDequeueSize (r : CRingBuffer) : ℕ :=
  let rear := getIndex r.rear
  let front := getIndex r.front
  if front ≤ rear then rear - front else BUFFER_SIZE - front

/-- Throws if there is less than `size`. -/
def peek (r : CRingBuffer) (size : ℕ) : Option (List Byte) :=
  let front := getIndex r.front
  if r.size < size then none
  else if size ≤ r.directDequeueSize then some (readBytes r.buffer front size)
  else some (readBytes r.buffer front r.directDequeueSize ++
    readBytes r.buffer 0 (size - r.directDequeueSize))

/-- How much was dequeued, and the ring after it. -/
def dequeue (r : CRingBuffer) (deqSize : ℕ) : Option (ℕ × CRingBuffer) :=
  if r.size = 0 then some (0, r)
  else if r.size < deqSize then none
  else some (deqSize, { r with front := r.front + BitVec.ofNat 32 deqSize })

def moveRear (r : CRingBuffer) (size : ℕ) : CRingBuffer :=
  { r with rear := r.rear + BitVec.ofNat 32 size }

/-- The loop of `Decode`, with `n` bytes to go. -/
def decodeLoop (staticKey randomKey : Byte) :
    ℕ → ℕ → ℕ → Byte → Byte → (ℕ → Byte) → ℕ → Byte
  | 0, _, _, _, _, buffer => buffer
  | n + 1, i, decodeStart, e, oldP, buffer =>
    let tmp := buffer decodeStart
    let p := tmp ^^^ (e + staticKey + BitVec.ofNat 8 i)
    decodeLoop staticKey randomKey n (i + 1) (getIndex (BitVec.ofNat 32 (decodeStart + 1))) tmp p
      (Function.update buffer decodeStart (p ^^^ (oldP + randomKey + BitVec.ofNat 8 i)))

def decode (r : CRingBuffer) (staticKey : Byte) : Option CRingBuffer :=
  (r.peek Header.NetHeader.size).map fun bytes =>
    let header := NetHeader.ofBytes bytes
    let decodeStart := getIndex (r.front + BitVec.ofNat 32 NetHeader.checkSumOffset)
    let decodeLen := header.len + BitVec.ofNat 16 (Header.NetHeader.size - NetHeader.checkSumOffset)
    { r with
      buffer := decodeLoop staticKey header.randomKey decodeLen.toNat 1 decodeStart 0 0 r.buffer }

def checksumValid (r : CRingBuffer) : Option Bool :=
  (r.peek Header.NetHeader.size).map fun bytes =>
    let header := NetHeader.ofBytes bytes
    let payloadIndex := getIndex (r.front + BitVec.ofNat 32 Header.NetHeader.size)
    let payloadChecksum := (List.range header.len.toNat).foldl
      (fun sum i => sum + r.buffer (getIndex (BitVec.ofNat 32 (payloadIndex + i)))) 0
    payloadChecksum = header.checkSum

/-! ## What the kernel writes -/

/-- A receive of `data` into the posted buffers, one after the other. One
that reaches past the array would overwrite other memory. -/
def scatter (buffer : ℕ → Byte) : List WSABUF → List Byte → Option (ℕ → Byte)
  | _, [] => some buffer
  | [], _ :: _ => none
  | b :: bufs, c :: data =>
    if b.buf + b.len ≤ BUFFER_SIZE then
      scatter (writeBytes buffer b.buf ((c :: data).take b.len)) bufs ((c :: data).drop b.len)
    else none

/-- The buffers `RecvNotIncrease` posts: the free cells up to the end of the
array, and those at its start. -/
def recvBufs (r : CRingBuffer) : Option (List WSABUF) :=
  r.directEnqueueSize.map fun direct =>
    ⟨getIndex r.rear, direct⟩ ::
      if direct < r.freeSize then [⟨0, r.freeSize - direct⟩] else []

/-! ## What the ring holds -/

/-- The cells from the position `f` on hold `bs`, wherever they wrap. -/
def Reads (buffer : ℕ → Byte) (f : ℕ) (bs : List Byte) : Prop :=
  ∀ i < bs.length, bs[i]? = some (buffer ((f + i) % 8192))

/-- The ring holds `bs`; `f` bytes went through it before. -/
structure Holds (r : CRingBuffer) (f : ℕ) (bs : List Byte) : Prop where
  front : r.front = BitVec.ofNat 32 f
  rear : r.rear = BitVec.ofNat 32 (f + bs.length)
  lt : bs.length < 8192
  reads : Reads r.buffer f bs

variable {r : CRingBuffer} {f n : ℕ} {bs : List Byte}

theorem getIndex_ofNat (n : ℕ) : getIndex (BitVec.ofNat 32 n) = n % 8192 := by
  simp only [getIndex, BUFFER_SIZE, BitVec.toNat_and, BitVec.toNat_ofNat]
  rw [Nat.mod_eq_of_lt (by decide : 8192 - 1 < 2 ^ 32),
    show 8192 - 1 = 2 ^ 13 - 1 from rfl, Nat.and_two_pow_sub_one_eq_mod]
  exact Nat.mod_mod_of_dvd n (Nat.pow_dvd_pow 2 (by decide))

theorem Reads.drop {buffer : ℕ → Byte} (h : Reads buffer f bs) (n : ℕ) :
    Reads buffer (f + n) (bs.drop n) := by
  intro i hi
  rw [List.length_drop] at hi
  rw [List.getElem?_drop, h (n + i) (by omega), Nat.add_assoc]

theorem Reads.append {buffer : ℕ → Byte} {bs' : List Byte} (h : Reads buffer f bs)
    (h' : Reads buffer (f + bs.length) bs') : Reads buffer f (bs ++ bs') := by
  intro i hi
  rw [List.length_append] at hi
  by_cases hlt : i < bs.length
  · rw [List.getElem?_append_left hlt, h i hlt]
  · rw [List.getElem?_append_right (by omega), h' (i - bs.length) (by omega)]
    congr 3
    omega

theorem Reads.take {buffer : ℕ → Byte} (h : Reads buffer f bs) (n : ℕ) :
    Reads buffer f (bs.take n) := by
  intro i hi
  rw [List.length_take] at hi
  rw [List.getElem?_take_of_lt (by omega), h i (by omega)]

/-- Cells that did not change are read as before. -/
theorem Reads.congr {buffer buffer' : ℕ → Byte} (h : Reads buffer f bs)
    (hsame : ∀ i < bs.length, buffer' ((f + i) % 8192) = buffer ((f + i) % 8192)) :
    Reads buffer' f bs := by
  intro i hi
  rw [h i hi, hsame i hi]

namespace Holds

theorem getIndex_front (h : Holds r f bs) : getIndex r.front = f % 8192 := by
  rw [h.front, getIndex_ofNat]

theorem getIndex_rear (h : Holds r f bs) : getIndex r.rear = (f + bs.length) % 8192 := by
  rw [h.rear, getIndex_ofNat]

theorem size_eq (h : Holds r f bs) : r.size = bs.length := by
  have hlt := h.lt
  simp only [size, h.getIndex_front, h.getIndex_rear, BUFFER_SIZE]
  split <;> omega

theorem freeSize_eq (h : Holds r f bs) : r.freeSize = 8191 - bs.length := by
  simp only [freeSize, h.size_eq, BUFFER_SIZE]
  omega

theorem readBytes_eq (h : Holds r f bs) {k start : ℕ} (hk : k + n ≤ bs.length)
    (hstart : ∀ i < n, start + i = (f + (k + i)) % 8192) :
    readBytes r.buffer start n = (bs.drop k).take n := by
  refine List.ext_getElem? fun i => ?_
  by_cases hi : i < n
  · rw [List.getElem?_take_of_lt hi, List.getElem?_drop, h.reads _ (by omega),
      readBytes_getElem? hi, hstart i hi]
  · rw [List.getElem?_eq_none (by simpa using hi), List.getElem?_eq_none (by simp; omega)]

theorem directDequeueSize_eq (h : Holds r f bs) :
    r.directDequeueSize = min bs.length (8192 - f % 8192) := by
  have hlt := h.lt
  simp only [directDequeueSize, h.getIndex_front, h.getIndex_rear, BUFFER_SIZE]
  split <;> omega

/-- **`Peek` reads from the front.** -/
theorem peek_eq (h : Holds r f bs) (hn : n ≤ bs.length) : r.peek n = some (bs.take n) := by
  have hlt := h.lt
  rw [peek, if_neg (by rw [h.size_eq]; omega), h.getIndex_front, h.directDequeueSize_eq]
  generalize hd : min bs.length (8192 - f % 8192) = d
  by_cases hfit : n ≤ d
  · rw [if_pos hfit, h.readBytes_eq (k := 0) (by omega) (fun i hi => by omega), List.drop_zero]
  · rw [if_neg hfit, h.readBytes_eq (k := 0) (by omega) (fun i hi => by omega),
      h.readBytes_eq (k := d) (by omega) (fun i hi => by omega), List.drop_zero, ← List.take_add,
      Nat.add_sub_cancel' (by omega)]

/-- **`Dequeue` drops from the front.** -/
theorem dequeue_eq (h : Holds r f bs) (hn : n ≤ bs.length) :
    ∃ m r', r.dequeue n = some (m, r') ∧ Holds r' (f + n) (bs.drop n) := by
  by_cases hzero : bs.length = 0
  · obtain rfl : n = 0 := by omega
    exact ⟨0, r, if_pos (h.size_eq.trans hzero), h⟩
  · have hdeq : r.dequeue n = some (n, { r with front := r.front + BitVec.ofNat 32 n }) := by
      rw [dequeue, if_neg (by rw [h.size_eq]; exact hzero), if_neg (by rw [h.size_eq]; omega)]
    have hlt := h.lt
    refine ⟨n, _, hdeq, ?_, ?_, ?_, h.reads.drop n⟩
    · change r.front + _ = _
      rw [h.front, BitVec.ofNat_add]
    · change r.rear = _
      rw [h.rear, List.length_drop]
      congr 1
      omega
    · rw [List.length_drop]
      omega

/-! ## Decoding -/

/-- **The loop of `Decode`** decodes what its cells hold, and leaves the
others alone. -/
theorem decodeLoop_spec (staticKey randomKey : Byte) {buffer : ℕ → Byte} {i : ℕ} {e p : Byte}
    (h : Reads buffer f bs) (hlt : bs.length ≤ 8192) :
    let buffer' := decodeLoop staticKey randomKey bs.length i (f % 8192) e p buffer
    Reads buffer' f
        (Feedback.decode (· ^^^ ·) (plainKey randomKey) (cipherKey staticKey) i p e bs) ∧
      ∀ j, (∀ k < bs.length, j ≠ (f + k) % 8192) → buffer' j = buffer j := by
  induction bs generalizing buffer f i e p with
  | nil => exact ⟨fun i hi => absurd hi (Nat.not_lt_zero i), fun _ _ => rfl⟩
  | cons c bs ih =>
    rw [List.length_cons] at hlt
    have hc : c = buffer (f % 8192) := Option.some.inj (h 0 (Nat.succ_pos _))
    -- the rest is read past the cell that is written
    have htail (x : Byte) : Reads (Function.update buffer (f % 8192) x) (f + 1) bs := by
      refine (h.drop 1).congr fun k hk => Function.update_of_ne ?_ _ _
      rw [List.drop_succ_cons, List.drop_zero] at hk
      omega
    have hnext : getIndex (BitVec.ofNat 32 (f % 8192 + 1)) = (f + 1) % 8192 := by
      rw [getIndex_ofNat]
      omega
    simp only [List.length_cons, decodeLoop, hnext, Feedback.decode]
    generalize hx : buffer (f % 8192) ^^^ (e + staticKey + BitVec.ofNat 8 i) ^^^
      (p + randomKey + BitVec.ofNat 8 i) = x
    obtain ⟨hreads, hsame⟩ := ih (i := i + 1) (e := buffer (f % 8192))
      (p := buffer (f % 8192) ^^^ (e + staticKey + BitVec.ofNat 8 i)) (htail x) (by omega)
    refine ⟨?_, fun j hj => ?_⟩
    · rintro (_ | k) hk
      · rw [List.getElem?_cons_zero, hsame _ (fun k hk => by omega)]
        simp only [Nat.add_zero, Function.update_self, ← hx, plainKey, cipherKey, hc]
      · rw [List.getElem?_cons_succ]
        simp only [List.length_cons, Feedback.length_decode] at hk
        have := hreads k (by rw [Feedback.length_decode]; omega)
        rw [hc, Nat.add_comm k 1, ← Nat.add_assoc]
        exact this
    · rw [hsame j fun k hk => by
        have := hj (k + 1) (Nat.succ_lt_succ hk)
        rwa [Nat.add_comm k 1, ← Nat.add_assoc] at this]
      exact Function.update_of_ne (hj 0 (Nat.succ_pos _)) _ _

/-- **`Decode`** decodes the checksum and the payload of the packet at the
front. -/
theorem decode_eq (h : Holds r f bs) (staticKey : Byte) {header : NetHeader}
    (hheader : NetHeader.ofBytes bs = header) (hlen : header.len.toNat < 2 ^ 16 - 1)
    (hn : 5 + header.len.toNat ≤ bs.length) :
    ∃ r', r.decode staticKey = some r' ∧ Holds r' f (bs.take 4 ++
      decodeBytes staticKey header.randomKey ((bs.drop 4).take (header.len.toNat + 1)) ++
        bs.drop (5 + header.len.toNat)) := by
  have hlt := h.lt
  have hpeek : r.peek Header.NetHeader.size = some (bs.take 5) := h.peek_eq (n := 5) (by omega)
  have hbytes : NetHeader.ofBytes (bs.take 5) = header := by
    rw [NetHeader.ofBytes_take (by omega), hheader]
  have hstart : getIndex (r.front + BitVec.ofNat 32 NetHeader.checkSumOffset) = (f + 4) % 8192 := by
    rw [h.front, NetHeader.checkSumOffset, ← BitVec.ofNat_add, getIndex_ofNat]
  have hcount :
      (header.len + BitVec.ofNat 16 (Header.NetHeader.size - NetHeader.checkSumOffset)).toNat
      = header.len.toNat + 1 := by
    simp only [Header.size, NetHeader.checkSumOffset, BitVec.toNat_add, BitVec.toNat_ofNat]
    omega
  simp only [decode, hpeek, Option.map_some, hbytes, hstart, hcount]
  -- the cipher text, and what is around it
  have hmid : ((bs.drop 4).take (header.len.toNat + 1)).length = header.len.toNat + 1 := by
    rw [List.length_take, List.length_drop]
    omega
  obtain ⟨hreads, hsame⟩ := decodeLoop_spec staticKey header.randomKey (i := 1) (e := 0) (p := 0)
    ((h.reads.drop 4).take (header.len.toNat + 1)) (by omega)
  rw [hmid] at hreads hsame
  have hplain : (decodeBytes staticKey header.randomKey
      ((bs.drop 4).take (header.len.toNat + 1))).length = header.len.toNat + 1 := by
    rw [decodeBytes, Feedback.length_decode, hmid]
  have hfour : (bs.take 4).length = 4 := by
    rw [List.length_take]
    omega
  have htotal : (bs.take 4 ++
      decodeBytes staticKey header.randomKey ((bs.drop 4).take (header.len.toNat + 1)) ++
        bs.drop (5 + header.len.toNat)).length = bs.length := by
    simp only [List.length_append, hfour, hplain, List.length_drop]
    omega
  refine ⟨_, rfl, h.front, by rw [htotal]; exact h.rear, by rw [htotal]; exact hlt, ?_⟩
  refine Reads.append (Reads.append ?_ ?_) ?_
  · exact (h.reads.take 4).congr fun i hi => hsame _ fun k hk => by
      rw [hfour] at hi
      omega
  · rw [hfour]
    exact hreads
  · rw [List.length_append, hfour, hplain]
    have hrest := h.reads.drop (5 + header.len.toNat)
    rw [show f + (5 + header.len.toNat) = f + (4 + (header.len.toNat + 1)) by omega] at hrest
    refine hrest.congr fun i hi => hsame _ fun k hk => ?_
    rw [List.length_drop] at hi
    omega

/-- **`ChecksumValid`** compares the checksum of the payload at the front. -/
theorem checksumValid_eq (h : Holds r f bs) {header : NetHeader}
    (hheader : NetHeader.ofBytes bs = header) (hn : 5 + header.len.toNat ≤ bs.length) :
    r.checksumValid =
      some (decide (checkSumOf ((bs.drop 5).take header.len.toNat) = header.checkSum)) := by
  have hpeek : r.peek Header.NetHeader.size = some (bs.take 5) := h.peek_eq (n := 5) (by omega)
  have hbytes : NetHeader.ofBytes (bs.take 5) = header := by
    rw [NetHeader.ofBytes_take (by omega), hheader]
  have hstart : getIndex (r.front + BitVec.ofNat 32 Header.NetHeader.size) = (f + 5) % 8192 := by
    rw [h.front, Header.size, ← BitVec.ofNat_add, getIndex_ofNat]
  simp only [checksumValid, hpeek, Option.map_some, hbytes, hstart, getIndex_ofNat]
  have hpayload : (List.range header.len.toNat).map
      (fun i => r.buffer (((f + 5) % 8192 + i) % 8192)) = (bs.drop 5).take header.len.toNat := by
    refine List.ext_getElem? fun i => ?_
    by_cases hi : i < header.len.toNat
    · rw [List.getElem?_take_of_lt hi, List.getElem?_drop, h.reads _ (by omega)]
      simp [List.getElem?_range hi, Nat.add_assoc]
    · rw [List.getElem?_eq_none (by simp; omega), List.getElem?_eq_none (by simp; omega)]
  rw [checkSumOf, ← hpayload, List.foldl_map]

end Holds

/-! ## Sizes, whatever the cells hold -/

section Sizes

variable {r r' : CRingBuffer} {n m : ℕ}

theorem getIndex_eq (num : BitVec 32) : getIndex num = num.toNat % 8192 := by
  have h := getIndex_ofNat num.toNat
  rwa [BitVec.ofNat_toNat, BitVec.setWidth_eq] at h

theorem getIndex_add (num : BitVec 32) (n : ℕ) :
    getIndex (num + BitVec.ofNat 32 n) = (getIndex num + n) % 8192 := by
  rw [getIndex_eq, getIndex_eq, BitVec.toNat_add, BitVec.toNat_ofNat]
  omega

theorem size_eq_mod (r : CRingBuffer) :
    r.size = (getIndex r.rear + 8192 - getIndex r.front) % 8192 := by
  have hrear := getIndex_eq r.rear
  have hfront := getIndex_eq r.front
  simp only [size, BUFFER_SIZE]
  split <;> omega

theorem freeSize_add_size (r : CRingBuffer) : r.freeSize + r.size = 8191 := by
  have := size_eq_mod r
  simp only [freeSize, BUFFER_SIZE]
  omega

/-- What is dequeued is gone. -/
theorem size_of_dequeue (h : r.dequeue n = some (m, r')) : r'.size = r.size - n := by
  simp only [dequeue] at h
  split at h
  · obtain ⟨-, rfl⟩ := Prod.mk.inj (Option.some.inj h)
    omega
  · split at h
    · cases h
    · obtain ⟨-, rfl⟩ := Prod.mk.inj (Option.some.inj h)
      have hsize := size_eq_mod r
      have hrear := getIndex_eq r.rear
      have hfront := getIndex_eq r.front
      rw [size_eq_mod]
      simp only [getIndex_add]
      omega

/-- A `Dequeue` that leaves as much as there was leaves the ring. -/
theorem eq_of_dequeue (h : r.dequeue n = some (m, r')) (hsize : r.size ≤ r'.size) : r' = r := by
  have hle := size_of_dequeue h
  simp only [dequeue] at h
  split at h
  · exact (Prod.mk.inj (Option.some.inj h)).2.symm
  · split at h
    · cases h
    · obtain rfl : n = 0 := by omega
      rw [← (Prod.mk.inj (Option.some.inj h)).2]
      simp

theorem le_size_of_peek {bytes : List Byte} (h : r.peek n = some bytes) : n ≤ r.size := by
  simp only [peek] at h
  split at h
  · cases h
  · omega

/-- The free cells up to the end of the array. -/
theorem directEnqueueSize_eq (r : CRingBuffer) :
    r.directEnqueueSize = some (min r.freeSize (8192 - getIndex r.rear)) := by
  have hfree := freeSize_add_size r
  have hsize := size_eq_mod r
  have hrear := getIndex_eq r.rear
  have hfront := getIndex_eq r.front
  simp only [directEnqueueSize, getIndex_ofNat, BUFFER_SIZE]
  split
  · rw [Nat.min_eq_left (by omega)]
    exact congrArg some (by omega)
  · have hres : (if getIndex r.rear < getIndex r.front then
        getIndex r.front - getIndex r.rear - 1
        else if getIndex r.front = 0 then 8192 - getIndex r.rear - 1
          else 8192 - getIndex r.rear) = min r.freeSize (8192 - getIndex r.rear) := by
      split
      · omega
      · split <;> omega
    rw [hres, if_pos (by omega)]

end Sizes

/-! ## Receiving -/

/-- What is written behind the bytes is held behind them. -/
theorem Reads.write {buffer : ℕ → Byte} (h : Reads buffer f bs) (data : List Byte)
    (hin : (f + bs.length) % 8192 + data.length ≤ 8192) (hle : bs.length + data.length ≤ 8192) :
    Reads (writeBytes buffer ((f + bs.length) % 8192) data) f (bs ++ data) := by
  refine (h.congr fun i hi => ?_).append fun i hi => ?_
  · exact if_neg (by omega)
  · have hmod : (f + bs.length + i) % 8192 = (f + bs.length) % 8192 + i := by omega
    rw [writeBytes, hmod, if_pos (by omega), Nat.add_sub_cancel_left,
      List.getD_eq_getElem _ _ hi, List.getElem?_eq_getElem hi]

/-- A receive that fits into the first buffer. -/
theorem scatter_last {buffer : ℕ → Byte} {b : WSABUF} {data : List Byte}
    (hle : data.length ≤ b.len) (hin : b.buf + b.len ≤ BUFFER_SIZE) (bufs : List WSABUF) :
    scatter buffer (b :: bufs) data = some (writeBytes buffer b.buf data) := by
  cases data with
  | nil =>
    refine congrArg some (funext fun i => (if_neg ?_).symm)
    rw [List.length_nil]
    omega
  | cons c data =>
    rw [scatter, if_pos hin, List.take_of_length_le hle, List.drop_of_length_le hle]
    cases bufs <;> rfl

/-- And one that does not. -/
theorem scatter_more {buffer : ℕ → Byte} {b : WSABUF} {data : List Byte}
    (hlt : b.len < data.length) (hin : b.buf + b.len ≤ BUFFER_SIZE) (bufs : List WSABUF) :
    scatter buffer (b :: bufs) data =
      scatter (writeBytes buffer b.buf (data.take b.len)) bufs (data.drop b.len) := by
  cases data with
  | nil => exact absurd hlt (Nat.not_lt_zero _)
  | cons c data => rw [scatter, if_pos hin]

/-- **A receive into the posted buffers appends.** Together they take what
is free, and they lie inside the array. -/
theorem Holds.recv (h : Holds r f bs) : ∃ bufs, r.recvBufs = some bufs ∧
    (bufs.map WSABUF.len).sum = 8191 - bs.length ∧
    ∀ data : List Byte, data.length ≤ 8191 - bs.length →
      ∃ buffer, scatter r.buffer bufs data = some buffer ∧
        Holds (({ r with buffer := buffer } : CRingBuffer).moveRear data.length) f
          (bs ++ data) := by
  have hlt := h.lt
  have hholds {data : List Byte} {buffer : ℕ → Byte} (hd : data.length ≤ 8191 - bs.length)
      (hreads : Reads buffer f (bs ++ data)) :
      Holds (({ r with buffer := buffer } : CRingBuffer).moveRear data.length) f (bs ++ data) := by
    refine ⟨h.front, ?_, ?_, hreads⟩
    · simp only [moveRear, h.rear, List.length_append, ← Nat.add_assoc, BitVec.ofNat_add]
    · rw [List.length_append]
      omega
  have hone {data : List Byte} {len : ℕ} (hd : data.length ≤ 8191 - bs.length)
      (hle : data.length ≤ len) (hin : (f + bs.length) % 8192 + len ≤ 8192) (bufs : List WSABUF) :
      ∃ buffer, scatter r.buffer (⟨(f + bs.length) % 8192, len⟩ :: bufs) data = some buffer ∧
        Holds (({ r with buffer := buffer } : CRingBuffer).moveRear data.length) f (bs ++ data) :=
    ⟨_, scatter_last hle hin bufs, hholds hd (h.reads.write data (by omega) (by omega))⟩
  rw [recvBufs, directEnqueueSize_eq, h.getIndex_rear, h.freeSize_eq, Option.map_some]
  generalize hdirect : min (8191 - bs.length) (8192 - (f + bs.length) % 8192) = direct
  by_cases hmore : direct < 8191 - bs.length
  · -- what is free lies in two pieces, the second at the start of the array
    rw [if_pos hmore]
    refine ⟨_, rfl, ?_, fun data hd => ?_⟩
    · simp only [List.map_cons, List.map_nil, List.sum_cons, List.sum_nil]
      omega
    by_cases hle : data.length ≤ direct
    · exact hone hd hle (by omega) _
    · have htake : (data.take direct).length = direct := by
        rw [List.length_take]
        omega
      have hdrop : (data.drop direct).length = data.length - direct := List.length_drop
      have hlen : (bs ++ data.take direct).length = bs.length + direct := by
        rw [List.length_append, htake]
      have hfirst := h.reads.write (data.take direct) (by omega) (by omega)
      have hsecond := hfirst.write (data.drop direct) (by omega) (by omega)
      rw [List.append_assoc, List.take_append_drop, hlen,
        show (f + (bs.length + direct)) % 8192 = 0 by omega] at hsecond
      refine ⟨_, ?_, hholds hd hsecond⟩
      have hin : (f + bs.length) % 8192 + direct ≤ BUFFER_SIZE := by
        rw [BUFFER_SIZE]
        omega
      have hin' : 0 + (8191 - bs.length - direct) ≤ BUFFER_SIZE := by
        rw [BUFFER_SIZE]
        omega
      rw [scatter_more (not_le.1 hle) hin, scatter_last (by dsimp only; omega) hin']
  · -- or in one
    rw [if_neg hmore]
    refine ⟨_, rfl, ?_, fun data hd => hone hd (by omega) (by omega) _⟩
    simp only [List.map_cons, List.map_nil, List.sum_cons, List.sum_nil]
    omega

end CRingBuffer

end NetLib
