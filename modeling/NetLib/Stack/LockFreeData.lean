import Mathlib.Data.Nat.Bitwise
import Mathlib.Tactic.Common
/-!
# Tagged pointers

A `_top` of the lock free containers is a word of 64 bits: a pointer of 47
bits below a tag of 17 bits.
-/

namespace NetLib

/-- The pointer to a node. -/
abbrev Address := BitVec 47

namespace LockFreeData

def pointerMask : BitVec 64 := 0x00007FFFFFFFFFFF
def indexInc : BitVec 64 := 0x0000800000000000
def indexMask : BitVec 64 := 0xFFFF800000000000

/-- `(Node*)(top & pointerMask)` -/
def pointer (top : BitVec 64) : Address := (top &&& pointerMask).setWidth 47

/-- The new top of a push: `node | ((top + indexInc) & indexMask)`. -/
def pushTop (node : Address) (top : BitVec 64) : BitVec 64 :=
  node.setWidth 64 ||| ((top + indexInc) &&& indexMask)

/-- The new top of a pop: `next | (top & indexMask)`. -/
def popTop (next : Address) (top : BitVec 64) : BitVec 64 :=
  next.setWidth 64 ||| (top &&& indexMask)

/-- The tag of a top. -/
def tag (top : BitVec 64) : ℕ := top.toNat / 2 ^ 47

theorem pointer_toNat (top : BitVec 64) : (pointer top).toNat = top.toNat % 2 ^ 47 := by
  rw [pointer, BitVec.toNat_setWidth, BitVec.toNat_and]
  change (top.toNat &&& 2 ^ 47 - 1) % 2 ^ 47 = _
  rw [Nat.and_two_pow_sub_one_eq_mod, Nat.mod_mod]

/-- The high bits of a word. -/
theorem and_indexMask_toNat (w : BitVec 64) : (w &&& indexMask).toNat = 2 ^ 47 * tag w := by
  have hmask : w &&& indexMask = (w >>> 47) <<< 47 := by
    refine BitVec.eq_of_getLsbD_eq fun i hi => ?_
    have hbit : indexMask = BitVec.allOnes 64 <<< 47 := by decide
    rw [hbit, BitVec.getLsbD_and, BitVec.getLsbD_shiftLeft, BitVec.getLsbD_shiftLeft,
      BitVec.getLsbD_ushiftRight]
    by_cases hlt : i < 47
    · simp [hlt]
    · rw [Nat.add_sub_cancel' (by omega), BitVec.getLsbD_allOnes]
      simp [hlt, hi, (by omega : i - 47 < 64)]
  have hlt := w.isLt
  rw [hmask, BitVec.toNat_shiftLeft, BitVec.toNat_ushiftRight, Nat.shiftLeft_eq,
    Nat.shiftRight_eq_div_pow, tag]
  omega

/-- A pointer below a tag. -/
theorem or_toNat (node : Address) (w : BitVec 64) :
    (node.setWidth 64 ||| (w &&& indexMask)).toNat = 2 ^ 47 * tag w + node.toNat := by
  have hlt := node.isLt
  rw [BitVec.toNat_or, and_indexMask_toNat, BitVec.toNat_setWidth,
    Nat.mod_eq_of_lt (by omega), Nat.or_comm, ← Nat.two_pow_add_eq_or_of_lt hlt]

theorem tag_lt (top : BitVec 64) : tag top < 2 ^ 17 := by
  have := top.isLt
  rw [tag]
  omega

@[simp] theorem pointer_pushTop (node : Address) (top : BitVec 64) :
    pointer (pushTop node top) = node := by
  have := node.isLt
  refine BitVec.eq_of_toNat_eq ?_
  rw [pointer_toNat, pushTop, or_toNat]
  omega

@[simp] theorem pointer_popTop (next : Address) (top : BitVec 64) :
    pointer (popTop next top) = next := by
  have := next.isLt
  refine BitVec.eq_of_toNat_eq ?_
  rw [pointer_toNat, popTop, or_toNat]
  omega

/-- A push increments the tag, -/
theorem tag_pushTop (node : Address) (top : BitVec 64) :
    tag (pushTop node top) = (tag top + 1) % 2 ^ 17 := by
  have := node.isLt
  have hinc : tag (top + indexInc) = (tag top + 1) % 2 ^ 17 := by
    have hval : indexInc.toNat = 2 ^ 47 := by decide
    have htop := top.isLt
    rw [tag, tag, BitVec.toNat_add, hval]
    omega
  rw [tag, pushTop, or_toNat, hinc]
  omega

/-- a pop keeps it. -/
theorem tag_popTop (next : Address) (top : BitVec 64) : tag (popTop next top) = tag top := by
  have := next.isLt
  have := tag_lt top
  rw [tag, popTop, or_toNat]
  omega

end LockFreeData

end NetLib
