import Mathlib.Data.Nat.Notation
import Mathlib.Tactic.Common
/-!
# Chained ciphers

Each element is mixed twice, once with what the plain text has become so
far and once with the cipher text so far, both by an operation that undoes
itself. Position, keys and chaining values enter through `f` and `g` in any
way whatever.
-/

namespace Feedback

variable {α : Type*} (xor : α → α → α) (f g : ℕ → α → α)

/-- Encodes from position `i` on, with `p` and `e` the chaining values. -/
def encode (i : ℕ) (p e : α) : List α → List α
  | [] => []
  | d :: l =>
    let p' := xor d (f i p)
    let e' := xor p' (g i e)
    e' :: encode (i + 1) p' e' l

/-- Decodes from position `i` on. -/
def decode (i : ℕ) (p e : α) : List α → List α
  | [] => []
  | c :: l =>
    let p' := xor c (g i e)
    xor p' (f i p) :: decode (i + 1) p' c l

variable {xor f g}

@[simp] theorem length_encode (i : ℕ) (p e : α) (l : List α) :
    (encode xor f g i p e l).length = l.length := by
  induction l generalizing i p e with
  | nil => rfl
  | cons d l ih => simp only [encode, List.length_cons, ih]

@[simp] theorem length_decode (i : ℕ) (p e : α) (l : List α) :
    (decode xor f g i p e l).length = l.length := by
  induction l generalizing i p e with
  | nil => rfl
  | cons d l ih => simp only [decode, List.length_cons, ih]

/-- **Decoding undoes encoding**, both starting from the same values. -/
theorem decode_encode (hxor : ∀ a b, xor (xor a b) b = a) (i : ℕ) (p e : α) (l : List α) :
    decode xor f g i p e (encode xor f g i p e l) = l := by
  induction l generalizing i p e with
  | nil => rfl
  | cons d l ih => simp only [encode, decode, hxor, ih]

/-- **And encoding undoes decoding.** -/
theorem encode_decode (hxor : ∀ a b, xor (xor a b) b = a) (i : ℕ) (p e : α) (l : List α) :
    encode xor f g i p e (decode xor f g i p e l) = l := by
  induction l generalizing i p e with
  | nil => rfl
  | cons c l ih => simp only [encode, decode, hxor, ih]

end Feedback
