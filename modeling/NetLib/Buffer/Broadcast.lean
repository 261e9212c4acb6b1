import NetLib.Library.Pool
import NetLib.Receive.RoundTrip
/-!
# One buffer, many sessions

`SendPacket` puts the same `CSendBuffer` in the queues of any number of
sessions, and each session's `RealSend` prepares it on its own: with a
static key under `_encodeLock` and at most once, without one by writing the
header again. The bytes a session hands to `WSASend` are its own as long as
all the sessions have one key (`broadcast_iff`).
-/

namespace NetLib

namespace Broadcast

open CSendBuffer

/-- What the sessions share: the buffer, and whether `_encodeLock` is
held. -/
structure Shared where
  buffer : CSendBuffer
  encodeLock : Bool

/-- The program points of `RealSend` for this buffer. -/
inductive Pc
  | start
  -- TryEncode: the first test, the lock, the second test
  | tryEncode
  | acquire
  | recheck
  | writeNetHeader
  -- Encode: `n` bytes to go, with the locals of the loop
  | encode
  | encodeLoop (randomKey : Byte) (n i encodeData : ℕ) (p e : Byte)
  | isEncrypt
  | release
  -- WriteLanHeader: the length, then `_head`
  | writeLen
  | writeHead
  -- the WSABUF
  | getHead
  | sendDataSize (buf : ℕ)
  -- WSASend is called or under way
  | send (buf : WSABUF)
  | done

/-- A session that sends the buffer. -/
structure Sender where
  /-- `_staticKey` -/
  staticKey : Byte
  pc : Pc

/-- The next access of a session. A session that waits for the lock has
none. -/
def nextPc (s : Shared) (staticKey : Byte) : Pc → Option (Shared × Pc)
  | .start => some (s, if staticKey ≠ 0 then .tryEncode else .writeLen)
  | .tryEncode => some (s, if s.buffer.isEncrypt = 0 then .acquire else .getHead)
  | .acquire => if s.encodeLock then none else some ({ s with encodeLock := true }, .recheck)
  | .recheck => some (s, if s.buffer.isEncrypt = 0 then .writeNetHeader else .release)
  | .writeNetHeader =>
    some ({ s with buffer := s.buffer.writeNetHeader dfPACKET_CODE }, .encode)
  | .encode =>
    let head := NetHeader.ofBytes (readBytes s.buffer.buffer s.buffer.head Header.NetHeader.size)
    some (s, .encodeLoop head.randomKey (head.len.toNat + 1) 1
      (s.buffer.head + NetHeader.checkSumOffset) 0 0)
  | .encodeLoop _ 0 _ _ _ _ => some (s, .isEncrypt)
  | .encodeLoop randomKey (n + 1) i encodeData p e =>
    let p := s.buffer.buffer encodeData ^^^ (p + randomKey + BitVec.ofNat 8 i)
    let e := p ^^^ (e + staticKey + BitVec.ofNat 8 i)
    some ({ s with buffer := { s.buffer with
      buffer := Function.update s.buffer.buffer encodeData e } },
      .encodeLoop randomKey n (i + 1) (encodeData + 1) p e)
  | .isEncrypt =>
    some ({ s with buffer := { s.buffer with isEncrypt := s.buffer.isEncrypt + 1 } }, .release)
  | .release => some ({ s with encodeLock := false }, .getHead)
  | .writeLen =>
    some ({ s with buffer := { s.buffer with
      buffer := writeBytes s.buffer.buffer (s.buffer.front - 2)
        (LANHeader.mk s.buffer.getDataSize).bytes } }, .writeHead)
  | .writeHead =>
    some ({ s with buffer := { s.buffer with head := s.buffer.front - 2 } }, .getHead)
  | .getHead => some (s, .sendDataSize s.buffer.head)
  | .sendDataSize buf => some (s, .send ⟨buf, s.buffer.sendDataSize⟩)
  | .send _ => some (s, .done)
  | .done => none

def next (s : Shared) (t : Sender) (_ : Unit) : Option (Shared × Sender) :=
  (nextPc s t.staticKey t.pc).map fun r => (r.1, { t with pc := r.2 })

abbrev World := Pool Shared Sender

abbrev step : World → ℕ × Unit → Option World := Pool.step next

/-- Sessions with the static keys `keys`, before any of them prepares the
buffer. -/
def World.initial (b : CSendBuffer) (keys : List Byte) : World :=
  ⟨⟨b, false⟩, keys.map fun k => ⟨k, .start⟩⟩

/-- The bytes decode to `payload`, under the framing and the key of a
session with this static key. -/
def Decodes (staticKey : Byte) (bytes payload : List Byte) : Prop :=
  (framing (if staticKey ≠ 0 then .NetHeader else .LANHeader) staticKey (2 ^ 16 - 1)).next bytes =
    .item payload bytes.length

/-- Every send under way has bytes that decode, as they stand. -/
def Delivers (payload : List Byte) (w : World) : Prop :=
  ∀ t ∈ w.threads, ∀ buf, t.pc = .send buf →
    Decodes t.staticKey (readBytes w.shared.buffer.buffer buf.buf buf.len) payload

variable {b₀ b : CSendBuffer} {k : Byte} {s s' : Shared} {pc pc' : Pc} {payload : List Byte}

/-! ## Sessions with one key, not zero -/

/-- Does the session hold `_encodeLock`? -/
def Pc.holds : Pc → ℕ
  | .recheck | .writeNetHeader | .encode | .encodeLoop _ _ _ _ _ _ | .isEncrypt | .release => 1
  | _ => 0

/-- What a session at a program point knows of the buffer, when `b₀` is
what was written and all the sessions have the key `k`. -/
def Pc.Net (k : Byte) (b₀ b : CSendBuffer) : Pc → Prop
  | .start | .tryEncode | .acquire | .done => True
  | .recheck => b = b₀ ∨ b = b₀.tryEncode k
  | .writeNetHeader => b = b₀
  | .encode => b = b₀.writeNetHeader dfPACKET_CODE
  -- the bytes still to go lead to the encoded buffer
  | .encodeLoop randomKey n i encodeData p e =>
    b.isEncrypt = 0 ∧ { b with
      buffer := CSendBuffer.encodeLoop k randomKey n i encodeData p e b.buffer
      isEncrypt := 1 } = b₀.tryEncode k
  | .isEncrypt => b.isEncrypt = 0 ∧ { b with isEncrypt := 1 } = b₀.tryEncode k
  | .release | .getHead => b = b₀.tryEncode k
  | .sendDataSize buf => b = b₀.tryEncode k ∧ buf = (b₀.tryEncode k).head
  | .send buf =>
    b = b₀.tryEncode k ∧ buf = ⟨(b₀.tryEncode k).head, (b₀.tryEncode k).sendDataSize⟩
  | .writeLen | .writeHead => False

theorem isEncrypt_tryEncode (h : b₀.isEncrypt = 0) : (b₀.tryEncode k).isEncrypt = 1 := by
  rw [tryEncode, if_pos h]
  change b₀.isEncrypt + 1 = 1
  rw [h]
  rfl

/-- **What one access does**, in a session that knows the buffer. -/
theorem net_next (h₀ : b₀.isEncrypt = 0) (hk : k ≠ 0) (h : pc.Net k b₀ s.buffer)
    (hseen : s.buffer.isEncrypt = 0 ∨ s.buffer = b₀.tryEncode k)
    (hfree : s.encodeLock = false → s.buffer = b₀ ∨ s.buffer = b₀.tryEncode k)
    (hnext : nextPc s k pc = some (s', pc')) :
    pc'.Net k b₀ s'.buffer ∧
      (s'.buffer = s.buffer ∨ pc.holds = 1 ∧ s.buffer.isEncrypt = 0) ∧
      (s'.encodeLock = s.encodeLock ∧ pc'.holds = pc.holds ∨
        s.encodeLock = false ∧ s'.encodeLock = true ∧ pc.holds = 0 ∧ pc'.holds = 1 ∨
        s'.encodeLock = false ∧ pc.holds = 1 ∧ pc'.holds = 0 ∧ s'.buffer = b₀.tryEncode k) := by
  have hT := isEncrypt_tryEncode (k := k) h₀
  cases pc with
  | start =>
    simp only [nextPc, if_pos hk, Option.some.injEq, Prod.mk.injEq] at hnext
    obtain ⟨rfl, rfl⟩ := hnext
    exact ⟨trivial, .inl rfl, .inl ⟨rfl, rfl⟩⟩
  | tryEncode =>
    obtain ⟨rfl, rfl⟩ := Prod.mk.inj (Option.some.inj hnext)
    refine ⟨?_, .inl rfl, .inl ⟨rfl, ?_⟩⟩
    · rcases hseen with hzero | heq
      · rw [if_pos hzero]
        trivial
      · rw [heq, hT, if_neg (by decide)]
        rfl
    · split <;> rfl
  | acquire =>
    simp only [nextPc] at hnext
    split at hnext
    · cases hnext
    · rename_i hlock
      obtain ⟨rfl, rfl⟩ := Prod.mk.inj (Option.some.inj hnext)
      have hopen : s.encodeLock = false := Bool.eq_false_of_not_eq_true hlock
      exact ⟨hfree hopen, .inl rfl, .inr (.inl ⟨hopen, rfl, rfl, rfl⟩)⟩
  | recheck =>
    obtain ⟨rfl, rfl⟩ := Prod.mk.inj (Option.some.inj hnext)
    refine ⟨?_, .inl rfl, .inl ⟨rfl, ?_⟩⟩
    · rcases h with heq | heq
      · rw [heq, if_pos h₀]
        rfl
      · rw [heq, hT, if_neg (by decide)]
        rfl
    · split <;> rfl
  | writeNetHeader =>
    obtain ⟨rfl, rfl⟩ := Prod.mk.inj (Option.some.inj hnext)
    have heq : s.buffer = b₀ := h
    exact ⟨congrArg (fun b : CSendBuffer => b.writeNetHeader dfPACKET_CODE) heq,
      .inr ⟨rfl, heq ▸ h₀⟩, .inl ⟨rfl, rfl⟩⟩
  | encode =>
    obtain ⟨rfl, rfl⟩ := Prod.mk.inj (Option.some.inj hnext)
    have heq : s.buffer = b₀.writeNetHeader dfPACKET_CODE := h
    refine ⟨⟨heq ▸ h₀, ?_⟩, .inl rfl, .inl ⟨rfl, rfl⟩⟩
    have hone : (b₀.writeNetHeader dfPACKET_CODE).isEncrypt + 1 = 1 := by
      rw [show (b₀.writeNetHeader dfPACKET_CODE).isEncrypt = b₀.isEncrypt from rfl, h₀]
      rfl
    rw [heq, tryEncode, if_pos h₀, encode, hone]
  | encodeLoop randomKey n i encodeData p e =>
    obtain ⟨hzero, hrest⟩ := h
    cases n with
    | zero =>
      obtain ⟨rfl, rfl⟩ := Prod.mk.inj (Option.some.inj hnext)
      exact ⟨⟨hzero, hrest⟩, .inl rfl, .inl ⟨rfl, rfl⟩⟩
    | succ n =>
      obtain ⟨rfl, rfl⟩ := Prod.mk.inj (Option.some.inj hnext)
      exact ⟨⟨hzero, hrest⟩, .inr ⟨rfl, hzero⟩, .inl ⟨rfl, rfl⟩⟩
  | isEncrypt =>
    obtain ⟨rfl, rfl⟩ := Prod.mk.inj (Option.some.inj hnext)
    obtain ⟨hzero, hrest⟩ := h
    refine ⟨?_, .inr ⟨rfl, hzero⟩, .inl ⟨rfl, rfl⟩⟩
    change { s.buffer with isEncrypt := s.buffer.isEncrypt + 1 } = _
    rw [hzero]
    exact hrest
  | release =>
    obtain ⟨rfl, rfl⟩ := Prod.mk.inj (Option.some.inj hnext)
    exact ⟨h, .inl rfl, .inr (.inr ⟨rfl, rfl, rfl, h⟩)⟩
  | getHead =>
    obtain ⟨rfl, rfl⟩ := Prod.mk.inj (Option.some.inj hnext)
    exact ⟨⟨h, congrArg CSendBuffer.head h⟩, .inl rfl, .inl ⟨rfl, rfl⟩⟩
  | sendDataSize buf =>
    obtain ⟨rfl, rfl⟩ := Prod.mk.inj (Option.some.inj hnext)
    obtain ⟨hb, rfl⟩ := h
    exact ⟨⟨hb, by rw [hb]⟩, .inl rfl, .inl ⟨rfl, rfl⟩⟩
  | send buf =>
    obtain ⟨rfl, rfl⟩ := Prod.mk.inj (Option.some.inj hnext)
    exact ⟨trivial, .inl rfl, .inl ⟨rfl, rfl⟩⟩
  | writeLen | writeHead => exact h.elim
  | done => cases hnext

/-- The sessions share the key `k`: the lock has one holder, and each
session is right about the buffer. -/
structure Encoded (k : Byte) (b₀ : CSendBuffer) (w : World) : Prop where
  keys : ∀ t ∈ w.threads, t.staticKey = k
  lock : w.total (fun t => t.pc.holds) = if w.shared.encodeLock then 1 else 0
  seen : w.shared.buffer.isEncrypt = 0 ∨ w.shared.buffer = b₀.tryEncode k
  free : w.shared.encodeLock = false →
    w.shared.buffer = b₀ ∨ w.shared.buffer = b₀.tryEncode k
  knows : ∀ t ∈ w.threads, t.pc.Net k b₀ w.shared.buffer

/-- What the holder of the lock knows is one of the two. -/
theorem Pc.Net.seen (h₀ : b₀.isEncrypt = 0) (h : pc.Net k b₀ b) (hp : pc.holds = 1) :
    b.isEncrypt = 0 ∨ b = b₀.tryEncode k := by
  cases pc with
  | recheck =>
    rcases h with rfl | rfl
    · exact .inl h₀
    · exact .inr rfl
  | writeNetHeader =>
    obtain rfl : b = b₀ := h
    exact .inl h₀
  | encode =>
    obtain rfl : b = b₀.writeNetHeader dfPACKET_CODE := h
    exact .inl h₀
  | encodeLoop => exact .inl h.1
  | isEncrypt => exact .inl h.1
  | release => exact .inr h
  | _ => cases hp

/-- While the lock is held and the buffer is not encoded, the others know
nothing of it. -/
theorem Pc.Net.other (h₀ : b₀.isEncrypt = 0) (h : pc.Net k b₀ b) (hp : pc.holds = 0)
    (hzero : b.isEncrypt = 0) (b' : CSendBuffer) : pc.Net k b₀ b' := by
  have hT {b : CSendBuffer} (h : b = b₀.tryEncode k) : b.isEncrypt ≠ 0 := by
    rw [h, isEncrypt_tryEncode h₀]
    decide
  cases pc with
  | start | tryEncode | acquire | done => trivial
  | getHead => exact absurd hzero (hT h)
  | sendDataSize buf | send buf => exact absurd hzero (hT h.1)
  | writeLen | writeHead => exact h
  | _ => cases hp

theorem Encoded.initial {keys : List Byte} (h₀ : b₀.isEncrypt = 0) (hk : ∀ k' ∈ keys, k' = k) :
    Encoded k b₀ (World.initial b₀ keys) := by
  refine ⟨fun t ht => ?_, ?_, .inl h₀, fun _ => .inl rfl, fun t ht => ?_⟩
  · obtain ⟨k', hk', rfl⟩ := List.mem_map.1 ht
    exact hk k' hk'
  · refine Pool.total_eq_zero fun t ht => ?_
    obtain ⟨k', -, rfl⟩ := List.mem_map.1 ht
    rfl
  · obtain ⟨k', -, rfl⟩ := List.mem_map.1 ht
    trivial

theorem Encoded.step {w w' : World} {e : ℕ × Unit} (h₀ : b₀.isEncrypt = 0) (hk : k ≠ 0)
    (h : Encoded k b₀ w) (hst : Broadcast.step w e = some w') : Encoded k b₀ w' := by
  obtain ⟨t, t', ht, hnext, hthreads⟩ := Pool.step_eq_some hst
  obtain ⟨⟨s', pc'⟩, hpc, heq⟩ := Option.map_eq_some_iff.1 hnext
  obtain ⟨hs', rfl⟩ := Prod.mk.inj heq
  change s' = w'.shared at hs'
  subst hs'
  have hmem := List.mem_of_getElem? ht
  rw [h.keys t hmem] at hpc
  obtain ⟨hnew, hbuf, hlock⟩ := net_next h₀ hk (h.knows t hmem) h.seen h.free hpc
  have htotal := Pool.total_step (fun t : Sender => t.pc.holds) ht hthreads
  have hsum := h.lock
  simp only at htotal
  refine ⟨?keys, ?lock, ?seen, ?free, ?knows⟩
  case keys => exact Pool.forall_threads hthreads h.keys (h.keys t hmem)
  case lock =>
    rcases hlock with ⟨hl, hp⟩ | ⟨hl, hl', hp, hp'⟩ | ⟨hl', hp, hp', -⟩
    · rw [hl, ← hsum]
      omega
    · rw [hl, if_neg (by decide)] at hsum
      rw [hl', if_pos rfl]
      omega
    · rw [hl', if_neg (by decide)]
      split at hsum <;> omega
  case seen =>
    rcases hlock with ⟨-, hp⟩ | ⟨-, -, -, hp'⟩ | ⟨-, -, -, hT⟩
    · rcases hbuf with heq | ⟨hhold, -⟩
      · exact heq ▸ h.seen
      · exact hnew.seen h₀ (hp.trans hhold)
    · exact hnew.seen h₀ hp'
    · exact .inr hT
  case free =>
    intro hopen
    rcases hlock with ⟨hl, -⟩ | ⟨-, hl', -⟩ | ⟨-, -, -, hT⟩
    · rw [hl] at hopen
      rcases hbuf with heq | ⟨hhold, -⟩
      · exact heq ▸ h.free hopen
      · rw [hopen, if_neg (by decide)] at hsum
        have := Pool.eq_zero_of_total hsum hmem
        omega
    · rw [hl'] at hopen
      cases hopen
    · exact .inr hT
  case knows =>
    refine Pool.forall_threads_of_others hthreads (fun j q hj hq => ?_) hnew
    have hqknows := h.knows q (List.mem_of_getElem? hq)
    rcases hbuf with heq | ⟨hhold, hzero⟩
    · exact heq ▸ hqknows
    · have hone : w.total (fun t : Sender => t.pc.holds) ≤ t.pc.holds := by
        rw [hsum, hhold]
        split <;> omega
      have hq0 := Pool.eq_zero_of_other (f := fun t : Sender => t.pc.holds) hone hj ht hq
      exact hqknows.other h₀ hq0 hzero _

/-- **With one key, every send decodes.** -/
theorem Encoded.delivers {w : World} (hw : b₀.Written payload) (hk : k ≠ 0)
    (h : Encoded k b₀ w) : Delivers payload w := by
  intro t ht buf hpc
  have hknows := h.knows t ht
  rw [hpc] at hknows
  obtain ⟨hb, rfl⟩ := hknows
  have hmax : payload.length ≤ 2 ^ 16 - 1 := by
    have := hw.le
    omega
  have hframe : netFrame k _ _ = _ := netFrame_wire hw hmax []
  rw [List.append_nil] at hframe
  rw [Decodes, h.keys t ht, if_pos hk, hb]
  exact hframe

/-! ## Sessions without a key -/

/-- What a session without a key knows of the buffer, when all are without
one. -/
def Pc.Lan (b₀ b : CSendBuffer) : Pc → Prop
  | .start | .writeLen | .done => True
  | .writeHead => b.buffer = b₀.writeLanHeader.buffer
  | .getHead => b = b₀.writeLanHeader
  | .sendDataSize buf => b = b₀.writeLanHeader ∧ buf = b₀.writeLanHeader.head
  | .send buf => b = b₀.writeLanHeader ∧
      buf = ⟨b₀.writeLanHeader.head, b₀.writeLanHeader.sendDataSize⟩
  | _ => False

/-- The header can be written over itself. -/
theorem writeBytes_writeBytes (buffer : ℕ → Byte) (start : ℕ) (bytes : List Byte) :
    writeBytes (writeBytes buffer start bytes) start bytes = writeBytes buffer start bytes := by
  funext i
  simp only [writeBytes]
  split <;> rfl

/-- **What one access does**, in a session without a key: writing the whole
header again would still give the same buffer. -/
theorem lan_next (h : pc.Lan b₀ s.buffer) (hsame : s.buffer.writeLanHeader = b₀.writeLanHeader)
    (hnext : nextPc s 0 pc = some (s', pc')) :
    pc'.Lan b₀ s'.buffer ∧ s'.buffer.writeLanHeader = b₀.writeLanHeader ∧
      ∀ q : Pc, q.Lan b₀ s.buffer → q.Lan b₀ s'.buffer := by
  cases pc with
  | start =>
    obtain ⟨rfl, rfl⟩ := Prod.mk.inj (Option.some.inj hnext)
    exact ⟨trivial, hsame, fun _ => id⟩
  | writeLen =>
    obtain ⟨rfl, rfl⟩ := Prod.mk.inj (Option.some.inj hnext)
    have hbuf : writeBytes s.buffer.buffer (s.buffer.front - 2)
        (LANHeader.mk s.buffer.getDataSize).bytes = b₀.writeLanHeader.buffer :=
      congrArg CSendBuffer.buffer hsame
    refine ⟨hbuf, ?_, fun q hq => ?_⟩
    · rw [← hsame]
      simp only [writeLanHeader, getDataSize, writeBytes_writeBytes]
    · have hback (heq : s.buffer = b₀.writeLanHeader) : { s.buffer with
          buffer := writeBytes s.buffer.buffer (s.buffer.front - 2)
            (LANHeader.mk s.buffer.getDataSize).bytes } = b₀.writeLanHeader := by
        rw [hbuf, heq]
      cases q with
      | start | writeLen | done => trivial
      | writeHead => exact hbuf
      | getHead => exact hback hq
      | sendDataSize buf | send buf => exact ⟨hback hq.1, hq.2⟩
      | _ => exact hq.elim
  | writeHead =>
    obtain ⟨rfl, rfl⟩ := Prod.mk.inj (Option.some.inj hnext)
    have hbuf : s.buffer.buffer = b₀.writeLanHeader.buffer := h
    have hdone : { s.buffer with head := s.buffer.front - 2 } = b₀.writeLanHeader := by
      rw [← hsame] at hbuf ⊢
      exact congrArg (fun buffer => { s.buffer with
        buffer := buffer, head := s.buffer.front - 2 }) hbuf
    refine ⟨hdone, hsame, fun q hq => ?_⟩
    cases q with
    | start | writeLen | done => trivial
    | writeHead => exact hbuf
    | getHead => exact hdone
    | sendDataSize buf | send buf => exact ⟨hdone, hq.2⟩
    | _ => exact hq.elim
  | getHead =>
    obtain ⟨rfl, rfl⟩ := Prod.mk.inj (Option.some.inj hnext)
    exact ⟨⟨h, congrArg CSendBuffer.head h⟩, hsame, fun _ => id⟩
  | sendDataSize buf =>
    obtain ⟨rfl, rfl⟩ := Prod.mk.inj (Option.some.inj hnext)
    obtain ⟨hb, rfl⟩ := h
    exact ⟨⟨hb, by rw [hb]⟩, hsame, fun _ => id⟩
  | send buf =>
    obtain ⟨rfl, rfl⟩ := Prod.mk.inj (Option.some.inj hnext)
    exact ⟨trivial, hsame, fun _ => id⟩
  | done => cases hnext
  | _ => exact h.elim

/-- The sessions are without a key, and each is right about the buffer. -/
structure Plain (b₀ : CSendBuffer) (w : World) : Prop where
  keys : ∀ t ∈ w.threads, t.staticKey = 0
  same : w.shared.buffer.writeLanHeader = b₀.writeLanHeader
  knows : ∀ t ∈ w.threads, t.pc.Lan b₀ w.shared.buffer

theorem Plain.initial {keys : List Byte} (hk : ∀ k' ∈ keys, k' = 0) :
    Plain b₀ (World.initial b₀ keys) := by
  refine ⟨fun t ht => ?_, rfl, fun t ht => ?_⟩
  · obtain ⟨k', hk', rfl⟩ := List.mem_map.1 ht
    exact hk k' hk'
  · obtain ⟨k', -, rfl⟩ := List.mem_map.1 ht
    trivial

theorem Plain.step {w w' : World} {e : ℕ × Unit} (h : Plain b₀ w)
    (hst : Broadcast.step w e = some w') : Plain b₀ w' := by
  obtain ⟨t, t', ht, hnext, hthreads⟩ := Pool.step_eq_some hst
  obtain ⟨⟨s', pc'⟩, hpc, heq⟩ := Option.map_eq_some_iff.1 hnext
  obtain ⟨hs', rfl⟩ := Prod.mk.inj heq
  change s' = w'.shared at hs'
  subst hs'
  have hmem := List.mem_of_getElem? ht
  rw [h.keys t hmem] at hpc
  obtain ⟨hnew, hsame, hothers⟩ := lan_next (h.knows t hmem) h.same hpc
  exact ⟨Pool.forall_threads hthreads h.keys (h.keys t hmem), hsame,
    Pool.forall_threads hthreads (fun q hq => hothers _ (h.knows q hq)) hnew⟩

/-- **Without keys, every send decodes.** -/
theorem Plain.delivers {w : World} (hw : b₀.Written payload) (h : Plain b₀ w) :
    Delivers payload w := by
  intro t ht buf hpc
  have hknows := h.knows t ht
  rw [hpc] at hknows
  obtain ⟨hb, rfl⟩ := hknows
  have hframe := lanFrame_wire hw []
  rw [List.append_nil] at hframe
  rw [Decodes, h.keys t ht, if_neg (by decide), hb]
  exact hframe

/-! ## Sessions with different keys -/

/-- The loop of `Encode`, by one session alone. -/
theorem encodeLoop_solo {randomKey : Byte} {n i encodeData : ℕ} {p e : Byte} :
    Pool.solo next s ⟨k, .encodeLoop randomKey n i encodeData p e⟩ (List.replicate (n + 1) ()) =
      some ({ s with buffer := { s.buffer with
        buffer := CSendBuffer.encodeLoop k randomKey n i encodeData p e s.buffer.buffer } },
        ⟨k, .isEncrypt⟩) := by
  induction n generalizing s i encodeData p e with
  | zero => rfl
  | succ n ih =>
    rw [List.replicate_succ]
    exact ih

/-- A session that prepares the buffer alone comes to `WSASend` with what
`prepare` makes of it. -/
theorem prepare_solo (k : Byte) (b : CSendBuffer) :
    ∃ es, Pool.solo next ⟨b, false⟩ ⟨k, .start⟩ es = some (⟨b.prepare k, false⟩,
      ⟨k, .send ⟨(b.prepare k).head, (b.prepare k).sendDataSize⟩⟩) := by
  by_cases hk : k = 0
  · subst hk
    exact ⟨List.replicate 5 (), rfl⟩
  have hstart : nextPc ⟨b, false⟩ k .start = some (⟨b, false⟩, .tryEncode) := by
    simp only [nextPc, if_pos hk]
  by_cases hzero : b.isEncrypt = 0
  · have htest : nextPc ⟨b, false⟩ k .tryEncode = some (⟨b, false⟩, .acquire) := by
      simp only [nextPc, if_pos hzero]
    let head := NetHeader.ofBytes (readBytes (b.writeNetHeader dfPACKET_CODE).buffer
      (b.writeNetHeader dfPACKET_CODE).head Header.NetHeader.size)
    have hbefore : Pool.solo next ⟨b, false⟩ ⟨k, .start⟩ (List.replicate 6 ()) =
        some (⟨b.writeNetHeader dfPACKET_CODE, true⟩, ⟨k, .encodeLoop head.randomKey
          (head.len.toNat + 1) 1 ((b.writeNetHeader dfPACKET_CODE).head + NetHeader.checkSumOffset)
          0 0⟩) := by
      simp only [List.replicate, Pool.solo, next, hstart, htest, Option.map_some, Option.bind_some]
      simp only [nextPc, Bool.false_eq_true, if_false, Option.map_some, Option.bind_some]
      rw [if_pos hzero]
      rfl
    have hafter := Pool.solo_append hbefore (encodeLoop_solo (k := k)
      (s := ⟨b.writeNetHeader dfPACKET_CODE, true⟩))
    have hprepare : b.prepare k = (b.writeNetHeader dfPACKET_CODE).encode k := by
      rw [prepare, if_pos hk, tryEncode, if_pos hzero]
    rw [hprepare]
    exact ⟨_, Pool.solo_append hafter (show Pool.solo next _ _ (List.replicate 4 ()) = _ from rfl)⟩
  · have hprepare : b.prepare k = b := by rw [prepare, if_pos hk, tryEncode, if_neg hzero]
    have htest : nextPc ⟨b, false⟩ k .tryEncode = some (⟨b, false⟩, .getHead) := by
      simp only [nextPc, if_neg hzero]
    refine ⟨List.replicate 4 (), ?_⟩
    rw [hprepare]
    simp only [List.replicate, Pool.solo, next, hstart, htest, Option.map_some, Option.bind_some]
    rfl

/-- Two sessions, one after the other. -/
theorem prepare_run (b : CSendBuffer) {keys : List Byte} {i j : ℕ} {k₁ k₂ : Byte} (hij : i ≠ j)
    (hi : keys[i]? = some k₁) (hj : keys[j]? = some k₂) :
    ∃ w, Runs Broadcast.step (fun _ _ _ => True) (World.initial b keys) w ∧
      w.shared.buffer = (b.prepare k₁).prepare k₂ ∧
      (⟨k₂, .send ⟨w.shared.buffer.head, w.shared.buffer.sendDataSize⟩⟩ : Sender) ∈ w.threads := by
  have hstart {l : ℕ} {k : Byte} (hl : keys[l]? = some k) :
      (World.initial b keys).threads[l]? = some ⟨k, .start⟩ := by
    rw [World.initial, List.getElem?_map, hl]
    rfl
  obtain ⟨es, hfirst⟩ := prepare_solo k₁ b
  obtain ⟨es', hsecond⟩ := prepare_solo k₂ (b.prepare k₁)
  have hrun := Pool.exec_of_solo (w := World.initial b keys) (hstart hi) hfirst
  have hj' := hstart hj
  let t : Sender := ⟨k₁, .send ⟨(b.prepare k₁).head, (b.prepare k₁).sendDataSize⟩⟩
  rw [← List.getElem?_set_ne hij (a := t)] at hj'
  have hrun' := Pool.exec_of_solo (w := (⟨⟨b.prepare k₁, false⟩, _⟩ : World)) hj' hsecond
  obtain ⟨hlt, -⟩ := List.getElem?_eq_some_iff.1 hj'
  exact ⟨_, Runs.of_exec (exec_append hrun hrun'), rfl, List.mem_set hlt _⟩

/-- **The second key does not fit.** A packet encoded with another key has
the wrong checksum, and a packet that has its `LANHeader` already is too
short. -/
theorem not_decodes (hw : b.Written payload) {k₁ k₂ : Byte} (hne : k₁ ≠ k₂) (hk₂ : k₂ ≠ 0) :
    ¬Decodes k₂ ((b.prepare k₁).prepare k₂).wire payload := by
  intro hdec
  rw [Decodes, if_pos hk₂] at hdec
  by_cases hk₁ : k₁ = 0
  · have hwire : ((b.prepare k₁).prepare k₂).wire.length = 2 + payload.length := by
      rw [wire, length_readBytes, prepare, if_pos hk₂, prepare, hk₁, if_neg (not_not.2 rfl),
        tryEncode, if_pos (show b.writeLanHeader.isEncrypt = 0 from hw.plain)]
      change b.rear - (b.front - 2) = _
      rw [hw.rear, hw.front]
      omega
    obtain ⟨-, -, hlen⟩ := netFrame_item hdec
    omega
  · have hprepare : (b.prepare k₁).prepare k₂ = b.tryEncode k₁ := by
      rw [prepare, if_pos hk₂, prepare, if_pos hk₁, tryEncode,
        if_neg (by rw [isEncrypt_tryEncode hw.plain]; decide)]
    rw [hprepare] at hdec
    have hmax : payload.length ≤ 2 ^ 16 - 1 := by
      have := hw.le
      omega
    have hread : netFrame k₂ _ ((b.tryEncode k₁).wire ++ []) = _ :=
      netFrame_tryEncode hw k₂ hmax []
    rw [List.append_nil] at hread
    have hboth := hread.symm.trans hdec
    dsimp only at hboth
    split at hboth
    · rename_i hsum
      obtain ⟨htail, -⟩ := Frame.item.inj hboth
      -- the first byte decoded is the checksum
      rw [htail, headD_decodeBytes_encodeBytes] at hsum
      exact hne hsum
    · cases hboth

/-! ## All the sessions together -/

/-- **A broadcast reaches every session exactly when all have one key.** For
every payload, every list of sessions and every interleaving of their
`RealSend` calls on the buffer, the bytes of each send under way decode
under the session's own framing and key, if and only if the static keys of
the sessions are all the same. -/
theorem broadcast_iff (hw : b.Written payload) (keys : List Byte) :
    (∀ w, Runs Broadcast.step (fun _ _ _ => True) (World.initial b keys) w → Delivers payload w) ↔
      ∀ k₁ ∈ keys, ∀ k₂ ∈ keys, k₁ = k₂ := by
  constructor
  · intro hall k₁ hk₁ k₂ hk₂
    by_contra hne
    have hlater {k₁ k₂ : Byte} (hk₁ : k₁ ∈ keys) (hk₂ : k₂ ∈ keys) (hne : k₁ ≠ k₂)
        (hkey : k₂ ≠ 0) : False := by
      obtain ⟨i, hi⟩ := List.mem_iff_getElem?.1 hk₁
      obtain ⟨j, hj⟩ := List.mem_iff_getElem?.1 hk₂
      have hij : i ≠ j := fun heq =>
        hne (Option.some.inj (hi.symm.trans (heq ▸ hj)))
      obtain ⟨w, hrun, hbuf, hmem⟩ := prepare_run (b := b) hij hi hj
      have hdec := hall w hrun _ hmem _ rfl
      rw [hbuf] at hdec
      exact not_decodes hw hne hkey hdec
    -- one of the two keys is not zero, and goes second
    by_cases hzero : k₂ = 0
    · exact hlater hk₂ hk₁ (Ne.symm hne) fun h => hne (h.trans hzero.symm)
    · exact hlater hk₁ hk₂ hne hzero
  · intro hsame w hrun
    obtain ⟨k, hk⟩ : ∃ k, ∀ k' ∈ keys, k' = k := by
      cases keys with
      | nil => exact ⟨0, fun k' hk' => absurd hk' List.not_mem_nil⟩
      | cons k rest => exact ⟨k, fun k' hk' => hsame k' hk' k List.mem_cons_self⟩
    by_cases hzero : k = 0
    · subst hzero
      exact (hrun.invariant (Plain.initial hk) fun h hst _ => h.step hst).delivers hw
    · exact (hrun.invariant (Encoded.initial hw.plain hk) fun h hst _ =>
        h.step hw.plain hzero hst).delivers hw hzero

/-- One payload for two sessions that share a key. -/
theorem broadcast_nine : ∃ w,
    Runs Broadcast.step (fun _ _ _ => True) (World.initial Session.nine [7, 7]) w ∧
      (⟨7, .send ⟨w.shared.buffer.head, w.shared.buffer.sendDataSize⟩⟩ : Sender) ∈ w.threads ∧
      Delivers [9] w := by
  have hiff := broadcast_iff Session.written_nine [7, 7]
  obtain ⟨w, hrun, -, hmem⟩ := prepare_run Session.nine (by decide : 0 ≠ 1)
    (rfl : [(7 : Byte), 7][0]? = some 7) rfl
  exact ⟨w, hrun, hmem, hiff.2 (by decide) w hrun⟩

/-- **The second session sends what the first one encoded.** With the keys 7
and 8 the buffer is encoded once, with 7, and the client of the other
session cannot decode it. -/
theorem broadcast_other_key : ∃ w,
    Runs Broadcast.step (fun _ _ _ => True) (World.initial Session.nine [7, 8]) w ∧
      (⟨8, .send ⟨w.shared.buffer.head, w.shared.buffer.sendDataSize⟩⟩ : Sender) ∈ w.threads ∧
      ¬Decodes 8 w.shared.buffer.wire [9] ∧ ¬Delivers [9] w := by
  obtain ⟨w, hrun, hbuf, hmem⟩ := prepare_run Session.nine (by decide : 0 ≠ 1)
    (rfl : [(7 : Byte), 8][0]? = some 7) rfl
  have hnot : ¬Decodes 8 w.shared.buffer.wire [9] := by
    rw [hbuf]
    exact not_decodes Session.written_nine (by decide) (by decide)
  exact ⟨w, hrun, hmem, hnot, fun h => hnot (h _ hmem _ rfl)⟩

end Broadcast

end NetLib
