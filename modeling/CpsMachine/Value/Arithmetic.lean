import CpsMachine.Value.Basic

/-!
# Integer operations

`IntOp.apply` gives the value of an integer operation on two integers. Division and remainder
truncate toward zero, so a remainder has the sign of the dividend; a zero divisor gives an error
value, as does an exponent outside `0 ≤ e < 2 ^ 32`. Comparisons give truth values.

`IntOp.eval` is the operation as the host runs it: a zero divisor of `div` or `mod` is answered
with the error value first, and only then does the division run, which has no answer (`none`,
an abort) for a zero divisor. The guard comes first, so the division always answers
(`IntOp.eval_eq_apply`).
-/

namespace CpsMachine

namespace IntOp

/-- Exponents are unsigned 32-bit words: below `2 ^ 32`. -/
def maxExponent : Nat := 4294967296

/-- The value of `op` on `a` and `b`. -/
def apply : IntOp → Int → Int → Value
  | .add, a, b => .int (a + b)
  | .sub, a, b => .int (a - b)
  | .mul, a, b => .int (a * b)
  | .div, a, b => if b = 0 then .error "div: division by zero" else .int (a.tdiv b)
  | .mod, a, b => if b = 0 then .error "mod: division by zero" else .int (a.tmod b)
  | .pow, a, b =>
    if 0 ≤ b ∧ b < maxExponent then .int (Int.pow a b.toNat)
    else .error ("pow: exponent " ++ toString b ++ " out of range")
  | .lt, a, b => Value.bool (decide (a < b))
  | .lte, a, b => Value.bool (decide (a ≤ b))
  | .gt, a, b => Value.bool (decide (b < a))
  | .gte, a, b => Value.bool (decide (b ≤ a))

/-- The quotient truncated toward zero; the host's division aborts on a zero divisor. -/
def tdiv? (a b : Int) : Option Int :=
  if b = 0 then none else some (a.tdiv b)

/-- The remainder of the quotient truncated toward zero; it aborts on a zero divisor too. -/
def tmod? (a b : Int) : Option Int :=
  if b = 0 then none else some (a.tmod b)

/-- `op` on `a` and `b` with no guard of its own. -/
def compute : IntOp → Int → Int → Option Value
  | .add, a, b => some (.int (a + b))
  | .sub, a, b => some (.int (a - b))
  | .mul, a, b => some (.int (a * b))
  | .div, a, b => (tdiv? a b).map .int
  | .mod, a, b => (tmod? a b).map .int
  | .pow, a, b =>
    some (if 0 ≤ b ∧ b < maxExponent then .int (Int.pow a b.toNat)
      else .error ("pow: exponent " ++ toString b ++ " out of range"))
  | .lt, a, b => some (Value.bool (decide (a < b)))
  | .lte, a, b => some (Value.bool (decide (a ≤ b)))
  | .gt, a, b => some (Value.bool (decide (b < a)))
  | .gte, a, b => some (Value.bool (decide (b ≤ a)))

/-- `op` on `a` and `b` as the host runs it: a zero divisor of `div` or `mod` gives an error value
before the division is tried. -/
def eval (op : IntOp) (a b : Int) : Option Value :=
  if (op = .div ∨ op = .mod) ∧ b = 0 then some (.error (op.name ++ ": division by zero"))
  else op.compute a b

/-- The guard keeps every zero divisor from the division: the host's operation always answers,
with the operation's value. -/
theorem eval_eq_apply (op : IntOp) (a b : Int) : op.eval a b = some (op.apply a b) := by
  unfold eval
  by_cases hb : b = 0
  · -- `div` and `mod` answer at the guard; the other operations have none to pass
    cases op <;> simp [hb, apply, compute, name]
  · cases op <;> simp [hb, apply, compute, tdiv?, tmod?]

end IntOp

end CpsMachine
