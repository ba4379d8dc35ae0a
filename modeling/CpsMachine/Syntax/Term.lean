import CpsMachine.Syntax.Primitive

/-!
# Terms

A program is a `Term`: binding forms (`letV`, `letC`, `letF`) that end in a transfer of control
(`halt`, `appC`, `appF`, `caseV`). Every transfer is a tail call, so a term never returns a value
to an enclosing term: control moves on until the halt continuation receives one.

* `ContRef`: a continuation position, the halt continuation itself or a name.
* `ValueExpr`: what a `letV` binds (literals, composites of bound names, functions, primitives).
* `Lambda`: an abstraction over a continuation parameter and a value parameter.
-/

namespace CpsMachine

/-- A continuation position: the halt continuation, or a name bound to a continuation. -/
inductive ContRef where
  | halt
  | named (name : String)
  deriving DecidableEq, Repr

mutual

/-- A term of the CPS language. -/
inductive Term where
  /-- Ends the run with the value bound to `arg`. -/
  | halt (arg : String)
  /-- Binds `name` to the value of `value` in `body`. -/
  | letV (name : String) (value : ValueExpr) (body : Term)
  /-- Binds `name` to a continuation with parameter `param` and body `contBody`, in `body`. -/
  | letC (name param : String) (contBody body : Term)
  /-- Binds each name of `defs` to one member of a group of mutually recursive functions. -/
  | letF (defs : List (String × Lambda)) (body : Term)
  /-- Passes the value bound to `arg` to a continuation. -/
  | appC (cont : ContRef) (arg : String)
  /-- Calls the function bound to `func` with a continuation and the value bound to `arg`. -/
  | appF (func : String) (cont : ContRef) (arg : String)
  /-- Passes the payload of a variant to the continuation listed for its tag. -/
  | caseV (scrutinee : String) (cases : List (String × String))

/-- The right-hand side of a `letV`. Operands are names bound in the environment. -/
inductive ValueExpr where
  | int (n : Int)
  | str (s : String)
  /-- Field names paired with the operand that gives each field's value. -/
  | record (fields : List (String × String))
  | variant (tag arg : String)
  | vector (items : List String)
  | function (fn : Lambda)
  | prim (op : Primitive) (args : List String)

/-- An abstraction over a continuation parameter and a value parameter. -/
inductive Lambda where
  | mk (contParam param : String) (body : Term)

end

namespace Lambda

/-- The name the continuation is bound to in the body. -/
def contParam : Lambda → String
  | ⟨k, _, _⟩ => k

/-- The name the argument is bound to in the body. -/
def param : Lambda → String
  | ⟨_, x, _⟩ => x

def body : Lambda → Term
  | ⟨_, _, b⟩ => b

end Lambda

end CpsMachine
