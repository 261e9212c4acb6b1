import Mathlib.Data.List.Induction
import NetLib.Buffer.Cipher
/-!
# Reading a packet

`operator>>`, `GetWstr` and `GetCstr` of `CRecvBuffer`, which read a packet
where it lies in the ring. `CanPop` compares with the bytes left of the
packet, `Peek` with the bytes in the ring; a wide string is checked by its
characters and read by its bytes, so that it may reach into the next packet,
or to the throw without an exception in `Peek`.
-/

namespace NetLib

/-- `_buffer` and `_size`, the bytes of the packet not yet read. -/
structure CRecvBuffer where
  buffer : CRingBuffer
  size : ℤ

namespace CRecvBuffer

/-- How a read ends other than by returning. -/
inductive Fault
  /-- `std::invalid_argument` -/
  | invalidArgument
  /-- `throw;` with nothing to throw again: the process ends. -/
  | bareThrow
  /-- `__debugbreak()` in `Dequeue`. -/
  | debugBreak
  deriving DecidableEq

abbrev PopM := EStateM Fault CRecvBuffer

/-- `CanPop`: the `int` is compared as an unsigned number of 64 bits. In a
debug build `ASSERT_CRASH` stops before the throw. -/
def canPop (popByte : ℕ) : PopM Unit := do
  if (← get).size % 2 ^ 64 < popByte then throw .invalidArgument

/-- `Peek`, `Dequeue` and the new `_size`. -/
def pop (n : ℕ) : PopM (List Byte) := fun b =>
  match b.buffer.peek n with
  | none => .error .bareThrow b
  | some bytes =>
    match b.buffer.dequeue n with
    | none => .error .debugBreak b
    | some (_, buffer) => .ok bytes ⟨buffer, b.size - n⟩

/-- `operator>>` of a scalar of `n` bytes. -/
def popScalar (n : ℕ) : PopM (List Byte) := do
  canPop n
  pop n

/-- The characters of a string, `len` the bytes of its length. -/
def popChars (len : List Byte) : PopM (List Byte) := do
  let popBytes := 2 * (LANHeader.ofBytes len).len.toNat
  canPop popBytes
  pop popBytes

/-- `operator>>(String&)` -/
def popString : PopM (List Byte) := do
  let len ← popScalar 2
  popChars len

def getWstr (strLen : ℕ) : PopM (List Byte) := do
  canPop strLen
  pop (2 * strLen)

def getCstr (size : ℕ) : PopM (List Byte) := do
  canPop size
  pop size

/-- A read, by the operation called. -/
inductive Read
  | scalar (n : ℕ)
  | string
  | wstr (strLen : ℕ)
  | cstr (size : ℕ)
  deriving DecidableEq

namespace Read

def run : Read → PopM (List Byte)
  | .scalar n => popScalar n
  | .string => popString
  | .wstr strLen => getWstr strLen
  | .cstr size => getCstr size

/-- The state after a read, by return or by exception. -/
def after (op : Read) (b : CRecvBuffer) : CRecvBuffer :=
  match op.run b with
  | .ok _ b' => b'
  | .error _ b' => b'

end Read

/-- The ring with `k` bytes removed. -/
def removed (r : CRingBuffer) (k : ℕ) : CRingBuffer :=
  { r with front := r.front + BitVec.ofNat 32 k }

/-- Of the packet of `len` bytes at the front of `r`, `k` are read, and
`CanPopSize()` knows. -/
def Inside (r : CRingBuffer) (len : ℕ) (b : CRecvBuffer) : Prop :=
  ∃ k ≤ len, b.buffer = removed r k ∧ b.size = len - k

/-- The length in front of the next string. -/
def prefixLen (b : CRecvBuffer) : ℕ := (LANHeader.ofBytes (b.buffer.packet 2)).len.toNat

/-- How many bytes a read needs. -/
def needs (b : CRecvBuffer) : Read → ℕ
  | .scalar n | .cstr n => n
  | .wstr strLen => 2 * strLen
  | .string => if b.size < 2 then 2 else 2 + 2 * b.prefixLen

/-- A read that gets what it needs, or throws `std::invalid_argument` if that
is more than remains; either way it stays inside the packet. -/
def Stays (r : CRingBuffer) (len : ℕ) (b : CRecvBuffer) (op : Read) : Prop :=
  (op.after b).Inside r len ∧
    if b.size < b.needs op then op.run b = .error .invalidArgument (op.after b)
    else ∃ bytes, op.run b = .ok bytes (op.after b)

/-- The packet has fewer bytes than the wide string has characters, or no
fewer than it has bytes. -/
def Read.Fits (size : ℤ) : Read → Prop
  | .wstr strLen => size < strLen ∨ 2 * strLen ≤ size
  | _ => True

variable {b : CRecvBuffer} {r : CRingBuffer} {len : ℕ}

/-! ## What each operation does -/

theorem canPop_run (n : ℕ) (b : CRecvBuffer) : canPop n b =
    if b.size % 2 ^ 64 < n then .error .invalidArgument b else .ok () b := by
  show (if b.size % 2 ^ 64 < n then throw Fault.invalidArgument else pure () : PopM Unit) b = _
  split <;> rfl

/-- What follows a check is done if the check lets it. -/
theorem canPop_bind {α : Type} (n : ℕ) (m : PopM α) (b : CRecvBuffer) :
    (canPop n >>= fun _ => m) b =
      if b.size % 2 ^ 64 < n then .error .invalidArgument b else m b := by
  by_cases h : b.size % 2 ^ 64 < n
  · simp only [bind, EStateM.bind, canPop_run, if_pos h]
  · simp only [bind, EStateM.bind, canPop_run, if_neg h]

theorem popString_ok {bytes : List Byte} {b' : CRecvBuffer} (h : popScalar 2 b = .ok bytes b') :
    popString b = popChars bytes b' := by
  simp only [popString, bind, EStateM.bind, h]

theorem popString_error {e : Fault} {b' : CRecvBuffer} (h : popScalar 2 b = .error e b') :
    popString b = .error e b' := by
  simp only [popString, bind, EStateM.bind, h]

/-- **A pop of bytes that are in the ring** returns them and removes them. -/
theorem pop_run {n : ℕ} (h : n ≤ b.buffer.size) :
    pop n b = .ok (b.buffer.packet n) ⟨removed b.buffer n, b.size - n⟩ := by
  have hdeq : ∃ m, b.buffer.dequeue n = some (m, removed b.buffer n) := by
    rw [CRingBuffer.dequeue]
    by_cases hzero : b.buffer.size = 0
    · obtain rfl : n = 0 := by omega
      refine ⟨0, ?_⟩
      rw [if_pos hzero]
      simp [removed]
    · rw [if_neg hzero, if_neg (not_lt.2 h)]
      exact ⟨n, rfl⟩
  obtain ⟨m, hdeq⟩ := hdeq
  simp only [pop, CRingBuffer.peek_eq_packet h, hdeq]

/-- And of more than that ends the process. -/
theorem pop_run_short {n : ℕ} (h : b.buffer.size < n) : pop n b = .error .bareThrow b := by
  simp only [pop, CRingBuffer.peek, if_pos h]

/-! ## Inside the packet -/

theorem removed_removed (r : CRingBuffer) (j k : ℕ) :
    removed (removed r j) k = removed r (j + k) := by
  simp only [removed, BitVec.ofNat_add, BitVec.add_assoc]

theorem size_removed {k : ℕ} (h : k ≤ r.size) : (removed r k).size = r.size - k := by
  have hsize := CRingBuffer.size_eq_mod r
  have hrear := CRingBuffer.getIndex_eq r.rear
  have hfront := CRingBuffer.getIndex_eq r.front
  rw [CRingBuffer.size_eq_mod]
  simp only [removed, CRingBuffer.getIndex_add]
  omega

/-- What is left of the packet is in the ring. -/
theorem Inside.size_le (h : b.Inside r len) (hlen : len ≤ r.size) :
    0 ≤ b.size ∧ b.size ≤ b.buffer.size ∧ b.size % 2 ^ 64 = b.size := by
  obtain ⟨k, hk, hbuffer, hsize⟩ := h
  have hring := CRingBuffer.size_eq_mod r
  have hleft := size_removed (show k ≤ r.size by omega)
  rw [hbuffer, hleft]
  omega

theorem Inside.pop {n : ℕ} (h : b.Inside r len) (hn : n ≤ b.size) :
    Inside r len ⟨removed b.buffer n, b.size - n⟩ := by
  obtain ⟨k, hk, hbuffer, hsize⟩ := h
  refine ⟨k + n, by omega, by rw [hbuffer, removed_removed], ?_⟩
  simp only
  omega

/-- A check of `c` bytes and a pop of `n`, inside the packet. -/
theorem Inside.checked_run (h : b.Inside r len) (hlen : len ≤ r.size) (c n : ℕ) :
    (canPop c >>= fun _ => CRecvBuffer.pop n) b =
      if b.size < c then .error .invalidArgument b else CRecvBuffer.pop n b := by
  rw [canPop_bind, (h.size_le hlen).2.2]

theorem Inside.pop_run (h : b.Inside r len) (hlen : len ≤ r.size) {n : ℕ} (hn : n ≤ b.size) :
    CRecvBuffer.pop n b = .ok (b.buffer.packet n) ⟨removed b.buffer n, b.size - n⟩ := by
  have := (h.size_le hlen).2.1
  exact CRecvBuffer.pop_run (by omega)

theorem stays_of_error {op : Read} {b' : CRecvBuffer} (hrun : op.run b = .error .invalidArgument b')
    (hin : b'.Inside r len) (hneeds : b.size < b.needs op) : b.Stays r len op := by
  have hafter : op.after b = b' := by rw [Read.after, hrun]
  refine ⟨hafter.symm ▸ hin, ?_⟩
  rw [if_pos hneeds, hafter, hrun]

theorem stays_of_ok {op : Read} {bytes : List Byte} {b' : CRecvBuffer}
    (hrun : op.run b = .ok bytes b') (hin : b'.Inside r len) (hneeds : b.needs op ≤ b.size) :
    b.Stays r len op := by
  have hafter : op.after b = b' := by rw [Read.after, hrun]
  refine ⟨hafter.symm ▸ hin, ?_⟩
  rw [if_neg (not_lt.2 hneeds), hafter]
  exact ⟨bytes, hrun⟩

/-- A read that checks for the bytes it removes stays inside. -/
theorem Inside.stays_checked (h : b.Inside r len) (hlen : len ≤ r.size) {op : Read} {n : ℕ}
    (hrun : op.run b = (canPop n >>= fun _ => CRecvBuffer.pop n) b) (hneeds : b.needs op = n) :
    b.Stays r len op := by
  rw [h.checked_run hlen] at hrun
  by_cases hn : b.size < n
  · rw [if_pos hn] at hrun
    exact stays_of_error hrun h (hneeds ▸ hn)
  · rw [if_neg hn, h.pop_run hlen (not_lt.1 hn)] at hrun
    exact stays_of_ok hrun (h.pop (not_lt.1 hn)) (hneeds ▸ not_lt.1 hn)

/-- A string stays inside: a length that reaches too far is refused. -/
theorem Inside.stays_string (h : b.Inside r len) (hlen : len ≤ r.size) :
    b.Stays r len .string := by
  have hscalar : popScalar 2 b = _ := h.checked_run hlen 2 2
  by_cases htwo : b.size < (2 : ℕ)
  · rw [if_pos htwo] at hscalar
    refine stays_of_error (popString_error hscalar) h ?_
    rw [needs, if_pos (by exact_mod_cast htwo)]
    exact htwo
  rw [if_neg htwo, h.pop_run hlen (not_lt.1 htwo)] at hscalar
  have hin := h.pop (not_lt.1 htwo)
  have hrun : Read.string.run b = _ := popString_ok hscalar
  have hneeds : b.needs .string = 2 + 2 * b.prefixLen :=
    if_neg (by exact_mod_cast htwo)
  have hchars := hin.checked_run hlen (2 * b.prefixLen) (2 * b.prefixLen)
  change popChars _ _ = _ at hchars
  by_cases hp : b.size - 2 < 2 * b.prefixLen
  · rw [if_pos (by push_cast; exact hp)] at hchars
    refine stays_of_error (hrun.trans hchars) hin ?_
    rw [hneeds]
    push_cast
    omega
  · rw [if_neg (by push_cast; exact hp), hin.pop_run hlen (by push_cast; omega)] at hchars
    refine stays_of_ok (hrun.trans hchars) (hin.pop (by push_cast; omega)) ?_
    rw [hneeds]
    push_cast
    omega

/-- **When a read stays inside its packet.** -/
theorem Inside.stays_iff (h : b.Inside r len) (hlen : len ≤ r.size) (op : Read) :
    b.Stays r len op ↔ op.Fits b.size := by
  cases op with
  | scalar n => exact iff_of_true (h.stays_checked hlen (n := n) rfl rfl) trivial
  | cstr n => exact iff_of_true (h.stays_checked hlen (n := n) rfl rfl) trivial
  | string => exact iff_of_true (h.stays_string hlen) trivial
  | wstr strLen =>
    have hrun : (Read.wstr strLen).run b = _ := h.checked_run hlen strLen (2 * strLen)
    have hneeds : b.needs (.wstr strLen) = 2 * strLen := rfl
    by_cases hshort : b.size < strLen
    · rw [if_pos hshort] at hrun
      refine iff_of_true (stays_of_error hrun h ?_) (.inl hshort)
      rw [hneeds]
      push_cast
      omega
    rw [if_neg hshort] at hrun
    by_cases hfit : 2 * (strLen : ℤ) ≤ b.size
    · rw [h.pop_run hlen (by push_cast; exact hfit)] at hrun
      refine iff_of_true (stays_of_ok hrun (h.pop (by push_cast; exact hfit)) ?_) (.inr hfit)
      rw [hneeds]
      push_cast
      exact hfit
    · -- it is let through, and does not throw
      refine iff_of_false (fun hstays => ?_) fun hfits => hfits.elim hshort hfit
      have herror := hstays.2
      rw [if_pos (by rw [hneeds]; push_cast; omega), hrun] at herror
      by_cases hring : 2 * strLen ≤ b.buffer.size
      · rw [CRecvBuffer.pop_run hring] at herror
        cases herror
      · rw [pop_run_short (by omega)] at herror
        cases herror

/-! ## Any sequence of reads -/

/-- The reader after some reads, each exception caught. -/
def readAll : List Read → CRecvBuffer → CRecvBuffer
  | [], b => b
  | op :: ops, b => readAll ops (op.after b)

theorem readAll_append (ops ops' : List Read) (b : CRecvBuffer) :
    readAll (ops ++ ops') b = readAll ops' (readAll ops b) := by
  induction ops generalizing b with
  | nil => rfl
  | cons op ops ih => exact ih (op.after b)

/-- **All reads stay inside the packet if and only if** none is for a wide
string with its characters, but not its bytes, within what is left. -/
theorem reads_stay_iff (h : len ≤ r.size) (ops : List Read) :
    (∀ pre op, pre ++ [op] <+: ops →
      (readAll pre ⟨r, len⟩).Inside r len ∧ (readAll pre ⟨r, len⟩).Stays r len op) ↔
    ∀ pre op, pre ++ [op] <+: ops → op.Fits (readAll pre ⟨r, len⟩).size := by
  constructor
  · exact fun hstay pre op hpre =>
      ((hstay pre op hpre).1.stays_iff h op).1 (hstay pre op hpre).2
  · intro hfits
    have hinside (pre : List Read) (hpre : pre <+: ops) : (readAll pre ⟨r, len⟩).Inside r len := by
      induction pre using List.reverseRecOn with
      | nil => exact ⟨0, Nat.zero_le len, by simp [readAll, removed], by simp [readAll]⟩
      | append_singleton pre op ih =>
        have hin := ih ((List.prefix_append pre [op]).trans hpre)
        rw [readAll_append]
        exact ((hin.stays_iff h op).2 (hfits pre op hpre)).1
    intro pre op hpre
    have hin := hinside pre ((List.prefix_append pre [op]).trans hpre)
    exact ⟨hin, (hin.stays_iff h op).2 (hfits pre op hpre)⟩

/-- Three bytes after a length, from a packet of six. -/
theorem reads_stay_wrapped :
    (readAll [.scalar 2] ⟨CRingBuffer.wrapped, (6 : ℕ)⟩).Inside CRingBuffer.wrapped 6 ∧
      (readAll [.scalar 2] ⟨CRingBuffer.wrapped, (6 : ℕ)⟩).Stays CRingBuffer.wrapped 6
        (.cstr 3) := by
  have hlen : 6 ≤ CRingBuffer.wrapped.size := by decide
  refine (reads_stay_iff hlen [.scalar 2, .cstr 3]).2 (fun pre op hpre => ?_) [.scalar 2] (.cstr 3)
    List.prefix_rfl
  have hmem : op ∈ [Read.scalar 2, Read.cstr 3] :=
    hpre.subset (List.mem_append_right _ List.mem_cons_self)
  simp only [List.mem_cons, List.not_mem_nil, or_false] at hmem
  rcases hmem with rfl | rfl <;> trivial

/-- **Three wide characters are read from a packet of three bytes**, and three
bytes of the packet behind it are gone. -/
theorem getWstr_past_packet :
    (Read.wstr 3).run ⟨CRingBuffer.wrapped, 3⟩ =
        .ok (CRingBuffer.wrapped.packet 6) ⟨removed CRingBuffer.wrapped 6, -3⟩ ∧
      ¬Stays CRingBuffer.wrapped 3 ⟨CRingBuffer.wrapped, 3⟩ (.wstr 3) := by
  refine ⟨?_, fun hstays => ?_⟩
  · have hrun := canPop_bind 3 (pop (2 * 3)) ⟨CRingBuffer.wrapped, 3⟩
    rw [if_neg (by decide), pop_run (by decide)] at hrun
    exact hrun
  · have hin : Inside CRingBuffer.wrapped 3 ⟨CRingBuffer.wrapped, 3⟩ :=
      ⟨0, by decide, by simp [removed], rfl⟩
    rcases (hin.stays_iff (by decide) _).1 hstays with hfits | hfits
    · exact absurd hfits (by decide)
    · exact absurd hfits (by decide)

end CRecvBuffer

end NetLib
