import CpsMachine.Machine.Fault
import CpsMachine.Resource.Console
import CpsMachine.Prelude

/-!
# The machine

What the machine keeps from one evaluation to the next: its configuration, the console, the file
store, the number of steps taken so far and the next closure identity. Evaluation runs in
`EvalM`, where a fault ends the computation but keeps the machine as it was when the fault arose,
so output written before a fault is not lost.
-/

namespace CpsMachine

/-- How a machine is set up. -/
structure Config where
  /-- Program arguments, read by the `arg` primitive. -/
  args : List String := []
  /-- A continuation name that halts wherever it is used, bound or not. -/
  halt : String := "$halt"
  /-- The resource name of the console. -/
  console : String := "-"
  deriving Repr

/-- The state of a machine between and during evaluations. -/
structure Machine where
  config : Config := {}
  console : Console := {}
  files : Files.Store := {}
  /-- Term nodes entered so far, over all evaluations. -/
  steps : Nat := 0
  /-- The identity the next closure made gets. -/
  nextId : Nat := Prelude.firstFreeId

/-- A computation of the machine that may fault. -/
abbrev EvalM := ExceptT Fault (StateM Machine)

namespace Machine

/-- A fresh machine with the given configuration, console input and files. -/
def new (config : Config) (input : String) (files : Files.Store) : Machine :=
  { config, console := { input }, files }

end Machine

/-- A closure identity not used before. -/
def freshId : EvalM Nat :=
  modifyGet fun m => (m.nextId, { m with nextId := m.nextId + 1 })

/-- The value of `name` in `env`; a fault at `node` if it is unbound. -/
def fetch (node : Term) (env : Env) (name : String) : EvalM Value :=
  match env.lookup name with
  | some v => pure v
  | none => throw (.unbound node name)

end CpsMachine
