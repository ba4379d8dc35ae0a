import CpsMachine.Value.Basic

/-!
# The prelude

The bindings every program starts from: `false` and `true`, the record `Ints` of integer
operations and the function `equal`. Primitives that take operands are offered as closures whose
bodies invoke the primitive, so they are applied like any other function and their steps count.

* `Prelude.unary p`: `fun k x -> letV r = prim p x in appC k r`.
* `Prelude.curried p`: `fun k x -> letV f = (fun j y -> letV r = prim p x y in appC j r) in
  appC k f`, a function that takes its two operands one at a time.

The prelude's closures have the identities `0` to `10`; the machine numbers every closure it
makes from `Prelude.firstFreeId` on.
-/

namespace CpsMachine

namespace Prelude

/-- A one-operand function whose body invokes `p` on its argument. -/
def unary (p : Primitive) : Lambda :=
  ⟨"k", "x", .letV "r" (.prim p ["x"]) (.appC (.named "k") "r")⟩

/-- A two-operand function taken one operand at a time: applied to `x` it returns a function
that, applied to `y`, invokes `p` on `x` and `y`. -/
def curried (p : Primitive) : Lambda :=
  ⟨"k", "x",
    .letV "f" (.function ⟨"j", "y", .letV "r" (.prim p ["x", "y"]) (.appC (.named "j") "r")⟩)
      (.appC (.named "k") "f")⟩

/-- The record of integer operations, field `op.name` holding the closure of `op`. -/
def ints : Value :=
  .record (IntOp.all.mapIdx fun i op => (op.name, .function i .empty (curried (.int op))))

/-- Structural equality as a closure. -/
def equal : Value :=
  .function IntOp.all.length .empty (curried .equal)

/-- The first identity not taken by a closure of the prelude. -/
def firstFreeId : Nat :=
  IntOp.all.length + 1

/-- The environment every program starts from. -/
def env : Env :=
  ((((Env.empty.extend "false" (Value.bool false)).extend "true" (Value.bool true)).extend
    "Ints" ints).extend "equal" equal)

end Prelude

end CpsMachine
