import CpsMachine.Syntax.Describe
import CpsMachine.Value.Display
import CpsMachine.Resource.Files

/-!
# Faults

A fault ends a run: the program is malformed at the node being run (a name is unbound, a value
has the wrong kind, no case matches, a primitive has the wrong number of operands), or a
resource failed when a capability was used. Every fault names its node, and its message starts
with the node's description.

Failures that a program can handle, such as a division by zero or a denied capability, are not
faults but error values.

A panic is where the host itself would abort rather than report a fault: an operand read past a
call's operands, a group member past its group's definitions, a division by a zero divisor. The
machine never reaches one (see `Proofs/Panics`), but it is kept apart from the faults so that
this can be stated.
-/

namespace CpsMachine

/-- Why a primitive refused its operands. -/
inductive PrimitiveFault where
  /-- A record has no field of the name selected. -/
  | missingField (field : String) (fields : List (String × Value))
  /-- The operand of a selection is not a record. -/
  | selectFromNonRecord (operand field : String) (found : Value)
  /-- The left operand of a concatenation is not a record. -/
  | concatLeft (operand : String) (found : Value)
  /-- The right operand of a concatenation is not a record. -/
  | concatRight (operand : String) (found : Value)
  /-- The operand of an acquisition is not a string. -/
  | notAResourceName (operand : String) (found : Value)
  /-- An operand of an integer operation is not an integer. -/
  | notAnInteger (operand : String) (found : Value)
  /-- Only integers and strings can be written. -/
  | notWritable (found : Value)

/-- The reason as it stands in a message. -/
def PrimitiveFault.message : PrimitiveFault → String
  | .missingField field fields =>
    "can't find field " ++ field ++ " in " ++ (Value.record fields).display
  | .selectFromNonRecord operand field found =>
    operand ++ " is " ++ found.display ++ ", looking for field " ++ field
  | .concatLeft operand found =>
    "left argument " ++ operand ++ " of & is non-record " ++ found.display
  | .concatRight operand found =>
    "right argument " ++ operand ++ " of & is non-record " ++ found.display
  | .notAResourceName operand found =>
    operand ++ " is " ++ found.display ++ ", expected a resource name"
  | .notAnInteger operand found =>
    operand ++ " is " ++ found.display ++ ", expected an integer"
  | .notWritable found => "can't write " ++ found.display

/-- Where the host would abort. -/
inductive Panic where
  /-- Operand `index` of a call that has fewer operands. -/
  | operand (index : Nat)
  /-- Member `index` of a group that has fewer definitions. -/
  | member (index : Nat)
  | divisionByZero

def Panic.message : Panic → String
  | .operand index => "operand " ++ toString index ++ " out of bounds"
  | .member index => "member " ++ toString index ++ " out of bounds"
  | .divisionByZero => "attempt to divide by zero"

/-- A fault, with the node at which it arose. -/
inductive Fault where
  | unbound (node : Term) (name : String)
  | notAClosure (node : Term) (name : String) (found : Value)
  | notAVariant (node : Term) (name : String) (found : Value)
  | noMatchingCase (node : Term) (tag : String)
  | arity (node : Term) (op : Primitive) (expected found : Nat)
  | primitive (node : Term) (op : Primitive) (reason : PrimitiveFault)
  | io (node : Term) (resource : String) (error : Files.IoError)
  | panic (node : Term) (cause : Panic)

namespace Fault

/-- The node at which the fault arose. -/
def node : Fault → Term
  | .unbound t .. | .notAClosure t .. | .notAVariant t .. | .noMatchingCase t ..
  | .arity t .. | .primitive t .. | .io t .. | .panic t .. => t

/-- The text after the node's description. -/
def detail : Fault → String
  | .unbound _ name => name ++ " is not bound"
  | .notAClosure _ name found => name ++ " is " ++ found.display ++ ", expected a closure"
  | .notAVariant _ name found => name ++ " is " ++ found.display ++ ", expected a variant"
  | .noMatchingCase _ tag => "can't find case for variant " ++ tag
  | .arity _ op expected found =>
    op.name ++ ": expected " ++ toString expected ++ " arg(s), got " ++ toString found
  | .primitive _ op reason => op.name ++ ": " ++ reason.message
  | .io _ resource error => resource ++ ": " ++ error.message
  | .panic _ cause => cause.message

/-- The message: the node's description, a colon, and the detail. -/
def message (f : Fault) : String :=
  f.node.describe ++ ": " ++ f.detail

end Fault

end CpsMachine
