import NetLib.Buffer.Push
import NetLib.Buffer.Pop
/-!
# What an exception leaves behind

A push or a read that throws has changed nothing, but for strings: their
length is written or read before the room, or the bytes, for the characters
are checked.
-/

namespace NetLib

namespace CSendBuffer

/-- Room for the length of a string is room for its characters too. -/
def Push.Atomic (room : ℤ) : Push → Prop
  | .string value => room < 2 ∨ toInt value.length ≤ room - 2
  | _ => True

variable {b : CSendBuffer}

theorem setWstr_unchanged {arr : List WChar} {size : ℤ} {b' : CSendBuffer}
    (h : setWstr arr size b = .error .invalidArgument b') : b' = b := by
  rw [setWstr_run] at h
  split at h
  · exact (EStateM.Result.error.inj h).2.symm
  · split at h
    · cases (EStateM.Result.error.inj h).1
    · cases h

/-- **When a push that throws leaves the buffer as it was.** -/
theorem push_unchanged_iff (op : Push) (b : CSendBuffer) :
    (∀ b', op.run b = .error .invalidArgument b' → b' = b) ↔ op.Atomic b.canPushSize := by
  have hcheck {n : ℤ} {x b' : CSendBuffer}
      (h : (if b.canPushSize < n then EStateM.Result.error Fault.invalidArgument b
        else .ok () x) = .error .invalidArgument b') : b' = b := by
    split at h
    · exact (EStateM.Result.error.inj h).2.symm
    · cases h
  cases op with
  | scalar value =>
    exact iff_of_true (fun b' h => hcheck ((pushScalar_run value b).symm.trans h)) trivial
  | lpwstr value =>
    exact iff_of_true (fun b' h => hcheck ((pushLPWSTR_run value b).symm.trans h)) trivial
  | cstr arr =>
    exact iff_of_true (fun b' h => hcheck ((pushCstr_run arr b).symm.trans h)) trivial
  | lpcwstr value => exact iff_of_true (fun b' h => setWstr_unchanged h) trivial
  | wstr arr => exact iff_of_true (fun b' h => setWstr_unchanged h) trivial
  | string value =>
    simp only [Push.run, Push.Atomic, pushString_run]
    by_cases hroom : b.canPushSize < 2
    · rw [if_pos hroom]
      exact iff_of_true (fun b' h => (EStateM.Result.error.inj h).2.symm) (.inl hroom)
    rw [if_neg hroom, setWstr_run, canPushSize_append]
    have htwo : ((lengthBytes value).length : ℤ) = 2 := rfl
    rw [htwo]
    by_cases hshort : b.canPushSize - 2 < toInt value.length
    · rw [if_pos hshort]
      refine iff_of_false (fun h => ?_) fun h => ?_
      · -- the length is in the buffer
        have := congrArg rear (h _ rfl)
        rw [append_rear] at this
        omega
      · omega
    · rw [if_neg hshort]
      refine iff_of_true (fun b' h => ?_) (.inr (not_lt.1 hshort))
      split at h
      · cases (EStateM.Result.error.inj h).1
      · cases h

end CSendBuffer

namespace CRecvBuffer

/-- The packet and the ring have the length of a string, and the packet its
characters too; or the length is not there either. -/
def Read.Atomic (b : CRecvBuffer) : Read → Prop
  | .string => b.size % 2 ^ 64 < 2 ∨ b.buffer.size < 2 ∨ 2 * b.prefixLen ≤ (b.size - 2) % 2 ^ 64
  | _ => True

variable {b : CRecvBuffer}

/-- Only `CanPop` throws `std::invalid_argument`. -/
theorem pop_ne_invalidArgument {n : ℕ} {b' : CRecvBuffer} :
    pop n b ≠ .error .invalidArgument b' := by
  unfold pop
  split
  · exact fun h => by cases (EStateM.Result.error.inj h).1
  · split
    · exact fun h => by cases (EStateM.Result.error.inj h).1
    · exact fun h => by cases h

theorem checked_unchanged {c n : ℕ} {b' : CRecvBuffer}
    (h : (canPop c >>= fun _ => pop n) b = .error .invalidArgument b') : b' = b := by
  rw [canPop_bind] at h
  split at h
  · exact (EStateM.Result.error.inj h).2.symm
  · exact absurd h pop_ne_invalidArgument

/-- **When a read that throws leaves the reader as it was.** -/
theorem read_unchanged_iff (op : Read) (b : CRecvBuffer) :
    (∀ b', op.run b = .error .invalidArgument b' → b' = b) ↔ op.Atomic b := by
  cases op with
  | scalar n => exact iff_of_true (fun b' h => checked_unchanged h) trivial
  | cstr n => exact iff_of_true (fun b' h => checked_unchanged h) trivial
  | wstr strLen => exact iff_of_true (fun b' h => checked_unchanged h) trivial
  | string =>
    have hscalar : popScalar 2 b = _ := canPop_bind 2 (pop 2) b
    by_cases htwo : b.size % 2 ^ 64 < 2
    · rw [if_pos (by exact_mod_cast htwo)] at hscalar
      refine iff_of_true (fun b' h => ?_) (.inl htwo)
      exact (EStateM.Result.error.inj ((popString_error hscalar).symm.trans h)).2.symm
    rw [if_neg (by exact_mod_cast htwo)] at hscalar
    by_cases hring : b.buffer.size < 2
    · rw [pop_run_short hring] at hscalar
      refine iff_of_true (fun b' h => ?_) (.inr (.inl hring))
      cases (EStateM.Result.error.inj ((popString_error hscalar).symm.trans h)).1
    rw [pop_run (not_lt.1 hring)] at hscalar
    have hrun : Read.string.run b = _ := popString_ok hscalar
    have hchars : popChars (b.buffer.packet 2) ⟨removed b.buffer 2, b.size - (2 : ℕ)⟩ = _ :=
      canPop_bind (2 * b.prefixLen) (pop (2 * b.prefixLen)) _
    by_cases hp : (b.size - 2) % 2 ^ 64 < 2 * b.prefixLen
    · rw [if_pos (by push_cast; exact hp)] at hchars
      refine iff_of_false (fun h => ?_) fun h => ?_
      · -- the length is out of the packet
        have := congrArg CRecvBuffer.size (h _ (hrun.trans hchars))
        simp only [Nat.cast_ofNat] at this
        omega
      · rcases h with h | h | h
        · exact htwo h
        · exact hring h
        · omega
    · rw [if_neg (by push_cast; exact hp)] at hchars
      refine iff_of_true (fun b' h => ?_) (.inr (.inr (not_lt.1 hp)))
      exact absurd ((hrun.trans hchars).symm.trans h) pop_ne_invalidArgument

end CRecvBuffer

/-- **What throws changes nothing if and only if** it is not a string cut
between its length and its characters, for every push in every state of a
send buffer, and every read in every state of a reader. -/
theorem failed_unchanged_iff (push : CSendBuffer.Push) (b : CSendBuffer)
    (read : CRecvBuffer.Read) (r : CRecvBuffer) :
    ((∀ b', push.run b = .error .invalidArgument b' → b' = b) ↔ push.Atomic b.canPushSize) ∧
      ((∀ r', read.run r = .error .invalidArgument r' → r' = r) ↔ read.Atomic r) :=
  ⟨CSendBuffer.push_unchanged_iff push b, CRecvBuffer.read_unchanged_iff read r⟩

/-- **A string that does not fit leaves its length**: 2047 characters pushed
onto a fresh buffer, and one of 375 read from a packet of six bytes. -/
theorem string_leaves_length :
    (∃ b', (CSendBuffer.Push.string (List.replicate 2047 0x41)).run .fresh =
      .error .invalidArgument b' ∧ b'.rear = CSendBuffer.fresh.rear + 2) ∧
    ∃ b', CRecvBuffer.Read.string.run ⟨CRingBuffer.wrapped, 6⟩ = .error .invalidArgument b' ∧
      b'.size = 4 ∧ b'.buffer = CRecvBuffer.removed CRingBuffer.wrapped 2 := by
  constructor
  · refine ⟨CSendBuffer.fresh.append (CSendBuffer.lengthBytes (List.replicate 2047 0x41)), ?_, rfl⟩
    have hroom : (2046 : ℤ) < toInt 2047 := by decide
    rw [CSendBuffer.Push.run, CSendBuffer.pushString_run, if_neg (by decide),
      CSendBuffer.setWstr_run, CSendBuffer.canPushSize_append, List.length_replicate, if_pos]
    exact hroom
  · have hscalar : CRecvBuffer.popScalar 2 ⟨CRingBuffer.wrapped, 6⟩ = _ :=
      CRecvBuffer.canPop_bind 2 (CRecvBuffer.pop 2) ⟨CRingBuffer.wrapped, 6⟩
    rw [if_neg (by decide), CRecvBuffer.pop_run (by decide)] at hscalar
    refine ⟨_, (CRecvBuffer.popString_ok hscalar).trans
      ((CRecvBuffer.canPop_bind _ _ _).trans (if_pos ?_)), rfl, rfl⟩
    decide

end NetLib
