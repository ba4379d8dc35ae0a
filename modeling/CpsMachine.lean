import CpsMachine.Syntax.Primitive
import CpsMachine.Syntax.Term
import CpsMachine.Syntax.Describe
import CpsMachine.Text.Escape
import CpsMachine.Value.Basic
import CpsMachine.Value.Display
import CpsMachine.Value.Order
import CpsMachine.Value.Arithmetic
import CpsMachine.Resource.Path
import CpsMachine.Resource.Files
import CpsMachine.Resource.Console
import CpsMachine.Machine.Fault
import CpsMachine.Prelude
import CpsMachine.Machine.Basic
import CpsMachine.Machine.Primitive
import CpsMachine.Machine.Step
import CpsMachine.Machine.Run
import CpsMachine.Proofs.Exec
import CpsMachine.Proofs.Anchors
import CpsMachine.Proofs.Scope
import CpsMachine.Proofs.Moves
import CpsMachine.Proofs.Faults
import CpsMachine.Proofs.Unbound
import CpsMachine.Proofs.ErrorFree
import CpsMachine.Proofs.Panics
import CpsMachine.Proofs.Capability
import CpsMachine.Proofs.Related
import CpsMachine.Proofs.Locality
import CpsMachine.Proofs.Frame
import CpsMachine.Proofs.Effects
import CpsMachine.Proofs.Groups
import CpsMachine.Proofs.Curried
import CpsMachine.Proofs.Escape
import CpsMachine.Proofs.Order
import CpsMachine.Proofs.Equality
import CpsMachine.Proofs.Composite
