import Mathlib.Init
/-!
# Lifetimes

What happens to the storage of an object pool, one event after another; the
last event comes first.
-/

namespace NetLib

/-- What happens to the storage of an object. -/
inductive Lifetime (Args : Type)
  | defaultConstruct
  | construct (args : Args)
  | destroy
  deriving DecidableEq

namespace Lifetime

variable {Args : Type}

/-- What was constructed in the storage since it was last destroyed. -/
def since (events : List (Lifetime Args)) : List (Lifetime Args) :=
  events.takeWhile fun e => !(e matches .destroy)

/-- Every object was destroyed once before the next was made in its storage;
there is an object now if `alive`. -/
def Alternates : Bool → List (Lifetime Args) → Prop
  | false, [] => True
  | true, .construct _ :: events => Alternates false events
  | false, .destroy :: events => Alternates true events
  | _, _ => False

end Lifetime

end NetLib
