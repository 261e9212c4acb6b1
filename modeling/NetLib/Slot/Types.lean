import Mathlib.Algebra.Order.Ring.Nat
import Mathlib.Data.Int.Notation
/-!
# Session ids, group ids and the constants around them
-/

namespace NetLib

/-- `SessionID`: the 64-bit id as its two parts, the serial number drawn
from `g_sessionId` and the slot index of its top 16 bits. Two ids are equal
when both parts are. -/
structure SessionID where
  serial : ℕ
  index : ℕ
  deriving DecidableEq, Repr

/-- `GroupID`; `0` is the base group, which is no group. -/
abbrev GroupID := ℕ

/-- `GroupManager::BaseGroupID()` -/
abbrev BaseGroupID : GroupID := 0

/-- `NormalIOCP::MAX_SESSIONS` -/
def MAX_SESSIONS : ℕ := 15000

/-- `Session::RELEASE_FLAG`, bit 20 of `_refCount`. -/
def RELEASE_FLAG : ℤ := 0x00100000

/-- `Session::MAX_SEND_COUNT`, 512. -/
abbrev MAX_SEND_COUNT : ℕ := 2 ^ 9

/-- `InterlockedBitTestAndReset(&_refCount, 20)`, by its effect on the
counter. -/
def bitTestAndReset20 (n : ℤ) : ℤ := if n / RELEASE_FLAG % 2 = 1 then n - RELEASE_FLAG else n

end NetLib
