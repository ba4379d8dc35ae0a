/-!
# Primitive operations

The operations a value expression can invoke directly: record selection and concatenation,
integer arithmetic and comparison, structural equality, program arguments, and the three
capability operations (acquire, read, write).

* `Primitive.name` is how a primitive is written in descriptions and fault messages.
* `Primitive.arity` is the number of operand names it takes.
-/

namespace CpsMachine

/-- Arithmetic and comparison on unbounded integers. -/
inductive IntOp where
  | add
  | sub
  | mul
  /-- Quotient truncated toward zero. -/
  | div
  /-- Remainder of the truncated quotient: it has the sign of the dividend. -/
  | mod
  | pow
  | lt
  | lte
  | gt
  | gte
  deriving DecidableEq, Repr

namespace IntOp

/-- Every operation, in the order the prelude's `Ints` record lists them. -/
def all : List IntOp := [.add, .sub, .mul, .div, .mod, .pow, .lt, .lte, .gt, .gte]

/-- The field name of the operation in the `Ints` record. -/
def name : IntOp → String
  | .add => "add"
  | .sub => "sub"
  | .mul => "mul"
  | .div => "div"
  | .mod => "mod"
  | .pow => "pow"
  | .lt => "lt"
  | .lte => "lte"
  | .gt => "gt"
  | .gte => "gte"

end IntOp

/-- What an acquired capability grants on its resource. -/
inductive Capability where
  | reader
  | writer
  | readerWriter
  deriving DecidableEq, Repr

namespace Capability

def name : Capability → String
  | .reader => "Reader"
  | .writer => "Writer"
  | .readerWriter => "ReaderWriter"

/-- Whether the capability grants reading. -/
def reads : Capability → Bool
  | .reader | .readerWriter => true
  | .writer => false

/-- Whether the capability grants writing. -/
def writes : Capability → Bool
  | .writer | .readerWriter => true
  | .reader => false

end Capability

/-- A primitive operation. Resources and argument indices are part of the primitive, not
operands. -/
inductive Primitive where
  /-- The first field of a record with a given name; the second operand is the name itself. -/
  | select
  /-- The fields of the left record followed by those of the right. -/
  | concat
  /-- Checks access to a resource once and returns a record of functions bound to it. -/
  | acquire (kind : Capability)
  /-- The whole content of a resource. Its operand is never looked up. -/
  | read (resource : String)
  /-- Appends an integer or a string to a resource. -/
  | write (resource : String)
  /-- A program argument, by position. -/
  | argument (index : Nat)
  | int (op : IntOp)
  /-- Structural equality. -/
  | equal
  deriving DecidableEq, Repr

namespace Primitive

/-- How the primitive is written in a description. -/
def name : Primitive → String
  | .select => "select"
  | .concat => "concat"
  | .acquire kind => "cap " ++ kind.name
  | .read resource => "readerRead " ++ resource
  | .write resource => "writerWrite " ++ resource
  | .argument index => "arg " ++ toString index
  | .int op => "Ints." ++ op.name
  | .equal => "equal"

/-- The number of operand names the primitive takes. -/
def arity : Primitive → Nat
  | .argument _ => 0
  | .acquire _ | .read _ | .write _ => 1
  | .select | .concat | .int _ | .equal => 2

end Primitive

end CpsMachine
