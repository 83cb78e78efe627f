import Mathlib.Algebra.Group.Int.Defs
import Mathlib.Algebra.Group.Nat.Defs
import RecoverOs.Logic.Transition

namespace RecoverOs

/-- Ways a modelled kernel path ends without returning. `panic` is a failed `ASSERT` or a `PANIC`, `stuck` a
    task that waits for itself or loops for ever, `fault` an access outside every mapped object, and `refused`
    an action the machine does not offer in that state. -/
inductive Halt where
  | panic
  | stuck
  | fault
  | refused
  deriving DecidableEq, Repr

def assert (condition : Bool) : Except Halt Unit :=
  if condition then .ok () else .error .panic

def offer (condition : Bool) : Except Halt Unit :=
  if condition then .ok () else .error .refused

@[simp] theorem assert_ok (condition : Bool) (u : Unit) : assert condition = .ok u ↔ condition = true := by
  cases condition <;> simp [assert]

@[simp] theorem offer_ok (condition : Bool) (u : Unit) : offer condition = .ok u ↔ condition = true := by
  cases condition <;> simp [offer]

theorem offer_refused {condition : Bool} (closed : ¬ condition = true) : offer condition = .error .refused := by
  rw [offer, if_neg closed]

def pgSize : Nat := 4096

end RecoverOs
