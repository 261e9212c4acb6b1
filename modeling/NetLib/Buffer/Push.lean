import Mathlib.Algebra.Order.Ring.Int
import Mathlib.Data.List.Induction
import NetLib.Buffer.SendBuffer
import NetLib.Types
/-!
# Writing a packet

`operator<<`, `SetWstr` and `SetCstr` of `CSendBuffer`. Each checks the room
first and throws if there is too little; what was written before the throw
stays. `CanPush` counts bytes. Where a caller gives it a number of wide
characters, it lets through twice as many bytes as it was asked for.
-/

namespace NetLib

/-- The bytes of wide characters. -/
def wideBytes (s : List WChar) : List Byte := s.flatMap fun c => [loByte c, hiByte c]

@[simp] theorem length_wideBytes (s : List WChar) : (wideBytes s).length = 2 * s.length := by
  induction s with
  | nil => rfl
  | cons c s ih =>
    simp only [wideBytes, List.flatMap_cons, List.length_append] at ih ⊢
    simp only [List.length_cons, List.length_nil, ih]
    omega

/-- A `size_t` where an `int` is expected. -/
def toInt (n : ℕ) : ℤ := (BitVec.ofNat 32 n).toInt

namespace CSendBuffer

/-- How a push ends other than by returning. -/
inductive Fault
  /-- `std::invalid_argument` -/
  | invalidArgument
  /-- A `memcpy` of nearly `2 ^ 64` bytes. -/
  | accessViolation
  deriving DecidableEq

abbrev PushM := EStateM Fault CSendBuffer

def canPush (byteSize : ℤ) : PushM Unit := do
  if (← get).canPushSize < byteSize then throw .invalidArgument

/-- The buffer with `bytes` written at `_rear`. -/
def append (b : CSendBuffer) (bytes : List Byte) : CSendBuffer :=
  { b with buffer := writeBytes b.buffer b.rear bytes, rear := b.rear + bytes.length }

/-- `operator<<` of a scalar, given by its bytes. -/
def pushScalar (value : List Byte) : PushM Unit := do
  canPush value.length
  modify (append · value)

/-- `SetWstr`, which reads `size` characters from `arr`. -/
def setWstr (arr : List WChar) (size : ℤ) : PushM Unit := do
  canPush size
  if size < 0 then throw .accessViolation
  modify (append · (wideBytes (arr.take size.toNat)))

/-- `operator<<(LPWSTR)`, with `value` up to its terminator. -/
def pushLPWSTR (value : List WChar) : PushM Unit := do
  let strlen := value.length + 1
  canPush strlen
  modify (append · (wideBytes (value ++ [0])))

/-- `operator<<(LPCWSTR)` -/
def pushLPCWSTR (value : List WChar) : PushM Unit :=
  setWstr (value ++ [0]) (toInt (value.length + 1))

/-- The bytes of `static_cast<uint16>(value.length())`. -/
def lengthBytes (value : List WChar) : List Byte :=
  [loByte (BitVec.ofNat 16 value.length), hiByte (BitVec.ofNat 16 value.length)]

/-- `operator<<(const String&)` -/
def pushString (value : List WChar) : PushM Unit := do
  pushScalar (lengthBytes value)
  setWstr value (toInt value.length)

/-- `SetCstr`, with the state it leaves. -/
def pushCstr (arr : List Byte) : PushM Unit := fun b =>
  match b.setCstr arr with
  | some b' => .ok () b'
  | none => .error .invalidArgument b

/-- A push, by the operation called. -/
inductive Push
  | scalar (value : List Byte)
  | lpwstr (value : List WChar)
  | lpcwstr (value : List WChar)
  | string (value : List WChar)
  | wstr (arr : List WChar)
  | cstr (arr : List Byte)
  deriving DecidableEq

namespace Push

def run : Push → PushM Unit
  | .scalar value => pushScalar value
  | .lpwstr value => pushLPWSTR value
  | .lpcwstr value => pushLPCWSTR value
  | .string value => pushString value
  | .wstr arr => setWstr arr arr.length
  | .cstr arr => pushCstr arr

/-- The bytes of the argument. -/
def bytes : Push → List Byte
  | .scalar value => value
  | .lpwstr value | .lpcwstr value => wideBytes (value ++ [0])
  | .string value => lengthBytes value ++ wideBytes value
  | .wstr arr => wideBytes arr
  | .cstr arr => arr

/-- The state after a push, by return or by exception. -/
def after (op : Push) (b : CSendBuffer) : CSendBuffer :=
  match op.run b with
  | .ok _ b' => b'
  | .error _ b' => b'

end Push

/-- `_rear` is inside the buffer, and what is computed from it is right. -/
structure Inside (b : CSendBuffer) : Prop where
  data_le : data ≤ b.rear
  le : b.rear - data ≤ BUFFER_SIZE
  canPushSize : 0 ≤ b.canPushSize
  getDataSize : b.getDataSize.toNat = b.rear - data

/-- A push of `bytes` that appends them or throws `std::invalid_argument`, and
writes nothing past the end. -/
def Exact (b : CSendBuffer) (bytes : List Byte) : EStateM.Result Fault CSendBuffer Unit → Prop
  | .ok _ b' => b'.Inside ∧ b' = b.append bytes
  | .error e b' => b'.Inside ∧ e = .invalidArgument

/-- A check of `size` lets through `len` wide characters: only if they are as
many, and if their bytes fit as well. -/
def WideFits (room size : ℤ) (len : ℕ) : Prop := room < size ∨ size = len ∧ 2 * len ≤ room

instance decidableWideFits (room size : ℤ) (len : ℕ) : Decidable (WideFits room size len) :=
  inferInstanceAs (Decidable (_ ∨ _))

/-- The room does not lie between a wide string's characters and its bytes. -/
def Push.Fits (room : ℤ) : Push → Prop
  | .scalar _ | .cstr _ => True
  | .lpwstr value => WideFits room (value.length + 1) (value.length + 1)
  | .lpcwstr value => WideFits room (toInt (value.length + 1)) (value.length + 1)
  | .string value => room < 2 ∨ WideFits (room - 2) (toInt value.length) value.length
  | .wstr arr => WideFits room arr.length arr.length

variable {b : CSendBuffer}

/-! ## What each operation does -/

theorem canPush_run (n : ℤ) (b : CSendBuffer) : canPush n b =
    if b.canPushSize < n then .error .invalidArgument b else .ok () b := by
  show (if b.canPushSize < n then throw Fault.invalidArgument else pure () : PushM Unit) b = _
  split <;> rfl

/-- What follows a check is done if the check lets it. -/
theorem canPush_bind (n : ℤ) (m : PushM Unit) (b : CSendBuffer) :
    (canPush n >>= fun _ => m) b =
      if b.canPushSize < n then .error .invalidArgument b else m b := by
  by_cases h : b.canPushSize < n
  · simp only [bind, EStateM.bind, canPush_run, if_pos h]
  · simp only [bind, EStateM.bind, canPush_run, if_neg h]

theorem pushScalar_run (value : List Byte) (b : CSendBuffer) : pushScalar value b =
    if b.canPushSize < value.length then .error .invalidArgument b
    else .ok () (b.append value) := canPush_bind value.length _ b

theorem pushLPWSTR_run (value : List WChar) (b : CSendBuffer) : pushLPWSTR value b =
    if b.canPushSize < (value.length + 1 : ℕ) then .error .invalidArgument b
    else .ok () (b.append (wideBytes (value ++ [0]))) := canPush_bind (value.length + 1 : ℕ) _ b

theorem setWstr_run (arr : List WChar) (size : ℤ) (b : CSendBuffer) : setWstr arr size b =
    if b.canPushSize < size then .error .invalidArgument b
    else if size < 0 then .error .accessViolation b
    else .ok () (b.append (wideBytes (arr.take size.toNat))) := by
  refine (canPush_bind size _ b).trans ?_
  by_cases h : size < 0
  · rw [if_pos h, if_pos h]
    rfl
  · rw [if_neg h, if_neg h]
    rfl

/-- The other wide string is written alike. -/
theorem pushLPWSTR_eq_setWstr (value : List WChar) (b : CSendBuffer) :
    pushLPWSTR value b = setWstr (value ++ [0]) ((value ++ [0]).length : ℕ) b := by
  rw [pushLPWSTR_run, setWstr_run, if_neg (not_lt.2 (Int.natCast_nonneg _)), Int.toNat_natCast,
    List.take_length, List.length_append]
  rfl

theorem pushString_run (value : List WChar) (b : CSendBuffer) : pushString value b =
    if b.canPushSize < 2 then .error .invalidArgument b
    else setWstr value (toInt value.length) (b.append (lengthBytes value)) := by
  have hscalar := pushScalar_run (lengthBytes value) b
  rw [show ((lengthBytes value).length : ℤ) = 2 from rfl] at hscalar
  by_cases h : b.canPushSize < 2
  · rw [if_pos h] at hscalar ⊢
    simp only [pushString, bind, EStateM.bind, hscalar]
  · rw [if_neg h] at hscalar ⊢
    simp only [pushString, bind, EStateM.bind, hscalar]

theorem pushCstr_run (arr : List Byte) (b : CSendBuffer) : pushCstr arr b =
    if b.canPushSize < arr.length then .error .invalidArgument b
    else .ok () (b.append arr) := by
  by_cases h : b.canPushSize < arr.length
  · simp only [pushCstr, setCstr, if_pos h]
  · simp only [pushCstr, setCstr, if_neg h]
    rfl

/-! ## In bounds -/

@[simp] theorem append_rear (b : CSendBuffer) (bytes : List Byte) :
    (b.append bytes).rear = b.rear + bytes.length := rfl

theorem canPushSize_append (b : CSendBuffer) (bytes : List Byte) :
    (b.append bytes).canPushSize = b.canPushSize - bytes.length := by
  simp only [canPushSize, append_rear, Int.natCast_add]
  omega

/-- Writing on is writing all at once. -/
theorem append_append (b : CSendBuffer) (x y : List Byte) :
    (b.append x).append y = b.append (x ++ y) := by
  have hbuffer : writeBytes (writeBytes b.buffer b.rear x) (b.rear + x.length) y =
      writeBytes b.buffer b.rear (x ++ y) := by
    funext i
    simp only [writeBytes, List.length_append, List.getD_eq_getElem?_getD]
    by_cases hx : i < b.rear + x.length
    · rw [if_neg (by omega)]
      by_cases hle : b.rear ≤ i
      · rw [if_pos ⟨hle, hx⟩, if_pos (by omega), List.getElem?_append_left (by omega)]
      · rw [if_neg (by omega), if_neg (by omega)]
    · by_cases hy : i < b.rear + x.length + y.length
      · rw [if_pos (by omega), if_pos (by omega), List.getElem?_append_right (by omega),
          Nat.sub_sub]
      · rw [if_neg (by omega), if_neg (by omega), if_neg (by omega)]
  simp only [append, hbuffer, List.length_append, Nat.add_assoc]

theorem inside_iff (b : CSendBuffer) :
    b.Inside ↔ 5 ≤ b.rear ∧ 0 ≤ b.canPushSize := by
  constructor
  · exact fun h => ⟨h.data_le, h.canPushSize⟩
  · rintro ⟨hdata, hroom⟩
    have hle : b.rear - 5 ≤ 2048 := by
      simp only [canPushSize, BUFFER_SIZE, data] at hroom
      omega
    refine ⟨hdata, hle, hroom, ?_⟩
    rw [getDataSize, BitVec.toNat_ofNat, Nat.mod_eq_of_lt]
    simp only [data]
    omega

theorem Inside.append_iff (h : b.Inside) (bytes : List Byte) :
    (b.append bytes).Inside ↔ (bytes.length : ℤ) ≤ b.canPushSize := by
  have hdata := h.data_le
  rw [inside_iff, canPushSize_append, append_rear]
  simp only [data] at hdata
  constructor
  · rintro ⟨-, hroom⟩
    omega
  · intro hroom
    exact ⟨by omega, by omega⟩

@[simp] theorem append_nil (b : CSendBuffer) : b.append [] = b := by
  have hbuffer : writeBytes b.buffer b.rear [] = b.buffer := funext fun i => if_neg (by
    rw [List.length_nil]
    omega)
  rw [append, hbuffer]
  rfl

/-- A push that checks for the bytes it writes is exact. -/
theorem Inside.exact_append (h : b.Inside) (bytes : List Byte) : b.Exact bytes
    (if b.canPushSize < bytes.length then .error .invalidArgument b
      else .ok () (b.append bytes)) := by
  by_cases hroom : b.canPushSize < bytes.length
  · rw [if_pos hroom]
    exact ⟨h, rfl⟩
  · rw [if_neg hroom]
    exact ⟨(h.append_iff bytes).2 (not_lt.1 hroom), rfl⟩

/-- **`SetWstr` is exact** where its check does not let through more bytes
than there is room for; `x` is what the push has written before. -/
theorem exact_setWstr_iff {x : List Byte} {arr : List WChar} {size : ℤ}
    (h : (b.append x).Inside) (hsize : size ≤ arr.length) :
    b.Exact (x ++ wideBytes arr) (setWstr arr size (b.append x)) ↔
      WideFits (b.append x).canPushSize size arr.length := by
  rw [setWstr_run]
  by_cases hroom : (b.append x).canPushSize < size
  · rw [if_pos hroom]
    exact ⟨fun _ => .inl hroom, fun _ => ⟨h, rfl⟩⟩
  rw [if_neg hroom]
  by_cases hneg : size < 0
  · rw [if_pos hneg]
    refine ⟨fun hexact => absurd hexact.2 (by decide), ?_⟩
    rintro (hlt | ⟨heq, -⟩)
    · exact absurd hlt hroom
    · omega
  rw [if_neg hneg]
  have hlen : ((wideBytes (arr.take size.toNat)).length : ℤ) = 2 * size := by
    rw [length_wideBytes, List.length_take]
    omega
  constructor
  · rintro ⟨hin, happend⟩
    have hrear := congrArg rear happend
    simp only [append_rear, List.length_append, length_wideBytes] at hrear
    have hfit := (h.append_iff _).1 hin
    have heq : size = arr.length := by
      rw [length_wideBytes] at hlen
      omega
    exact .inr ⟨heq, by omega⟩
  · rintro (hlt | ⟨rfl, hfit⟩)
    · exact absurd hlt hroom
    · rw [Int.toNat_natCast, List.take_length]
      refine ⟨(h.append_iff _).2 (by rw [length_wideBytes]; omega), append_append b x _⟩

theorem toInt_le (n : ℕ) : toInt n ≤ n := by
  rw [toInt, BitVec.toInt_ofNat']
  have := Int.bmod_le (x := (n : ℤ)) (m := 2 ^ 32) (by decide)
  have := Int.le_bmod (x := (n : ℤ)) (m := 2 ^ 32) (by decide)
  have hmod := Int.bmod_emod (x := (n : ℤ)) (m := 2 ^ 32)
  omega

/-- **When a push is exact.** -/
theorem exact_iff (op : Push) (h : b.Inside) :
    b.Exact op.bytes (op.run b) ↔ op.Fits b.canPushSize := by
  cases op with
  | scalar value => exact iff_of_true (by
      rw [Push.run, pushScalar_run]
      exact h.exact_append value) trivial
  | cstr arr => exact iff_of_true (by
      rw [Push.run, pushCstr_run]
      exact h.exact_append arr) trivial
  | wstr arr =>
    have := exact_setWstr_iff (x := []) (by rwa [append_nil]) (le_refl (arr.length : ℤ))
    rwa [List.nil_append, append_nil] at this
  | lpcwstr value =>
    have hsize : toInt (value.length + 1) ≤ (value ++ [0]).length := by
      rw [List.length_append]
      exact toInt_le _
    have := exact_setWstr_iff (x := []) (by rwa [append_nil]) hsize
    rw [List.nil_append, append_nil, List.length_append] at this
    exact this
  | lpwstr value =>
    have := exact_setWstr_iff (x := []) (by rwa [append_nil]) (le_refl ((value ++ [0]).length : ℤ))
    rw [List.nil_append, append_nil, ← pushLPWSTR_eq_setWstr, List.length_append] at this
    exact this
  | string value =>
    simp only [Push.run, Push.bytes, Push.Fits, pushString_run]
    by_cases hroom : b.canPushSize < 2
    · rw [if_pos hroom]
      exact iff_of_true ⟨h, rfl⟩ (.inl hroom)
    · have hin : (b.append (lengthBytes value)).Inside :=
        (h.append_iff _).2 (not_lt.1 hroom)
      have := exact_setWstr_iff (x := lengthBytes value) hin (toInt_le value.length)
      rw [canPushSize_append] at this
      rw [if_neg hroom, this]
      exact ⟨.inr, fun hfit => hfit.resolve_left hroom⟩

/-! ## Any sequence of pushes -/

/-- The buffer after some pushes, each exception caught. -/
def pushAll : List Push → CSendBuffer → CSendBuffer
  | [], b => b
  | op :: ops, b => pushAll ops (op.after b)

theorem pushAll_append (ops ops' : List Push) (b : CSendBuffer) :
    pushAll (ops ++ ops') b = pushAll ops' (pushAll ops b) := by
  induction ops generalizing b with
  | nil => rfl
  | cons op ops ih => exact ih (op.after b)

theorem Exact.inside {op : Push} (h : b.Exact op.bytes (op.run b)) : (op.after b).Inside := by
  unfold Push.after
  cases hrun : op.run b with
  | ok a b' =>
    rw [hrun] at h
    exact h.1
  | error e b' =>
    rw [hrun] at h
    exact h.1

/-- A buffer fresh from `Alloc`. -/
theorem inside_clear (b : CSendBuffer) : b.clear.Inside := by
  rw [inside_iff]
  simp only [clear, canPushSize, BUFFER_SIZE, data]
  omega

/-- **Every push onto a fresh buffer is exact if and only if** none meets the
buffer with room for its characters but not for their bytes. -/
theorem pushes_exact_iff (b : CSendBuffer) (ops : List Push) :
    (∀ pre op, pre ++ [op] <+: ops →
      (pushAll pre b.clear).Inside ∧
        (pushAll pre b.clear).Exact op.bytes (op.run (pushAll pre b.clear))) ↔
    ∀ pre op, pre ++ [op] <+: ops → op.Fits (pushAll pre b.clear).canPushSize := by
  constructor
  · exact fun h pre op hpre => (exact_iff op (h pre op hpre).1).1 (h pre op hpre).2
  · intro h
    have hinside (pre : List Push) (hpre : pre <+: ops) : (pushAll pre b.clear).Inside := by
      induction pre using List.reverseRecOn with
      | nil => exact inside_clear b
      | append_singleton pre op ih =>
        have hin := ih ((List.prefix_append pre [op]).trans hpre)
        rw [pushAll_append]
        exact ((exact_iff op hin).2 (h pre op hpre)).inside
    intro pre op hpre
    have hin := hinside pre ((List.prefix_append pre [op]).trans hpre)
    exact ⟨hin, (exact_iff op hin).2 (h pre op hpre)⟩

/-- A buffer as constructed. -/
def fresh : CSendBuffer := ⟨fun _ => 0, 0, data, data, 0⟩

/-- **1500 wide characters go into a buffer for 2048 bytes**: the check finds
room for 1500. -/
theorem setWstr_past_end :
    (Push.wstr (List.replicate 1500 0x41)).run fresh =
        .ok () (fresh.append (wideBytes (List.replicate 1500 0x41))) ∧
      (fresh.append (wideBytes (List.replicate 1500 0x41))).rear - data = 3000 ∧
      ¬(fresh.append (wideBytes (List.replicate 1500 0x41))).Inside := by
  have hlen : (wideBytes (List.replicate 1500 0x41)).length = 3000 := by
    rw [length_wideBytes, List.length_replicate]
  refine ⟨?_, ?_, fun hin => ?_⟩
  · have hroom : ¬fresh.canPushSize < ((1500 : ℕ) : ℤ) := by decide
    rw [Push.run, setWstr_run, List.length_replicate, if_neg hroom, if_neg (by decide),
      Int.toNat_natCast, List.take_of_length_le (by rw [List.length_replicate])]
  · rw [append_rear, hlen]
    rfl
  · have := hin.le
    rw [append_rear, hlen] at this
    exact absurd this (by decide)

end CSendBuffer

end NetLib
