import CpsMachine.Machine.Basic
import CpsMachine.Value.Arithmetic
import CpsMachine.Value.Order

/-!
# Primitives at work

`invoke` runs a primitive on the operands a `letV` names. A call whose number of operands is not
the primitive's arity faults before any operand is read; after that check each primitive reads
its operands by position (`operand`, which would abort past the last one). So a call runs its
primitive on exactly its operands (`invoke_eq`). Operands are looked up left to right, each when
it is needed; an error value among them is usually the result, and an operand of the wrong kind
faults.

Capabilities are the only way to the console and the files: acquiring one checks once that the
resource is the console or an existing file that opens for reading (or appending), and returns a
record of closures bound to it. The `read` and `write` primitives in those closures do the I/O.
-/

namespace CpsMachine

namespace Invoke

/-- The first field named `field` of a record. -/
def select (node : Term) (env : Env) (operand field : String) : EvalM Value := do
  match ← fetch node env operand with
  | .record fields =>
    match fields.lookup field with
    | some v => pure v
    | none => throw (.primitive node .select (.missingField field fields))
  | .error m => pure (.error m)
  | other => throw (.primitive node .select (.selectFromNonRecord operand field other))

/-- The fields of the left record followed by those of the right. Both operands are looked up
before either is checked, and an error value on the left wins over one on the right. -/
def concat (node : Term) (env : Env) (left right : String) : EvalM Value := do
  let l ← fetch node env left
  let r ← fetch node env right
  match l, r with
  | .record a, .record b => pure (.record (a ++ b))
  | .error m, _ => pure (.error m)
  | _, .error m => pure (.error m)
  | .record _, other => throw (.primitive node .concat (.concatRight right other))
  | other, _ => throw (.primitive node .concat (.concatLeft left other))

/-- A closure whose body invokes `p` on its argument, with a fresh identity. -/
def operation (p : Primitive) : EvalM Value := do
  let id ← freshId
  pure (.function id .empty (Prelude.unary p))

/-- A field `name` holding a fresh closure of `op` if `offered`, else no field. -/
def field (offered : Bool) (name : String) (op : Primitive) : EvalM (List (String × Value)) :=
  if offered then do pure [(name, ← operation op)] else pure []

/-- The fields of a capability of `kind` on `resource`: `read` if the kind reads, then `write` if
it writes. -/
def offer (kind : Capability) (resource : String) : EvalM (List (String × Value)) := do
  let reader ← field kind.reads "read" (.read resource)
  let writer ← field kind.writes "write" (.write resource)
  pure (reader ++ writer)

/-- Acquires a capability of `kind` on the resource named by the operand: a record with a
`read` closure if the kind reads and a `write` closure if it writes. The resource must be the
console or an existing file that opens for reading, if the kind reads, and for appending, if it
writes; otherwise the result is an error value, reading checked first. -/
def acquire (node : Term) (env : Env) (kind : Capability) (operand : String) : EvalM Value := do
  match ← fetch node env operand with
  | .str resource =>
    let m ← get
    let console := resource == m.config.console
    if kind.reads && !console && !m.files.opens .read resource then
      pure (.error ("Reader capability unavailable: can't read " ++ resource))
    else if kind.writes && !console && !m.files.opens .append resource then
      pure (.error ("Writer capability unavailable: can't write " ++ resource))
    else
      pure (.record (← offer kind resource))
  | .error m => pure (.error m)
  | other => throw (.primitive node (.acquire kind) (.notAResourceName operand other))

/-- The whole content of the resource: the console's remaining input, or a file's text. -/
def read (node : Term) (resource : String) : EvalM Value := do
  let m ← get
  if resource == m.config.console then
    let (text, console) := m.console.read
    set { m with console }
    pure (.str text)
  else
    match m.files.readText resource with
    | .ok text => pure (.str text)
    | .error e => throw (.io node resource e)

/-- Writes an integer in decimal or a string as it is to the resource, at the end. -/
def write (node : Term) (env : Env) (resource operand : String) : EvalM Value := do
  let text ← match ← fetch node env operand with
    | .int n => pure (toString n)
    | .str s => pure s
    | other => throw (.primitive node (.write resource) (.notWritable other))
  let m ← get
  if resource == m.config.console then
    set { m with console := m.console.write text }
    pure Value.unit
  else
    match m.files.append resource text.toUTF8.toList with
    | .ok files =>
      set { m with files }
      pure Value.unit
    | .error e => throw (.io node resource e)

/-- The program argument at `index`, or an error value if there is none. -/
def argument (index : Nat) : EvalM Value := do
  let args := (← get).config.args
  match args[index]? with
  | some a => pure (.str a)
  | none =>
    pure (.error ("command-line argument " ++ toString index ++ " does not exist (arg count = " ++
      toString args.length ++ ")"))

/-- An integer operation; the left operand is checked before the right is looked up. -/
def integer (node : Term) (env : Env) (op : IntOp) (left right : String) : EvalM Value := do
  match ← fetch node env left with
  | .int a =>
    match ← fetch node env right with
    | .int b =>
      match op.eval a b with
      | some v => pure v
      | none => throw (.panic node .divisionByZero)
    | .error m => pure (.error m)
    | other => throw (.primitive node (.int op) (.notAnInteger right other))
  | .error m => pure (.error m)
  | other => throw (.primitive node (.int op) (.notAnInteger left other))

/-- The guard comes before the division, so the host never aborts: on two integers the
operation gives `IntOp.apply` of them. -/
theorem integer_eq (node : Term) (env : Env) (op : IntOp) (left right : String) :
    integer node env op left right = (do
      match ← fetch node env left with
      | .int a =>
        match ← fetch node env right with
        | .int b => pure (op.apply a b)
        | .error m => pure (.error m)
        | other => throw (.primitive node (.int op) (.notAnInteger right other))
      | .error m => pure (.error m)
      | other => throw (.primitive node (.int op) (.notAnInteger left other))) := by
  simp only [integer, IntOp.eval_eq_apply]

/-- Whether the two operands are equal, as a truth value. -/
def equal (node : Term) (env : Env) (left right : String) : EvalM Value := do
  let a ← fetch node env left
  let b ← fetch node env right
  pure (Value.bool (a.equal b))

end Invoke

/-- The name of operand `index` of a call at `node`; the host aborts past the last operand. -/
def operand (node : Term) (args : List String) (index : Nat) : EvalM String :=
  match args[index]? with
  | some a => pure a
  | none => throw (.panic node (.operand index))

/-- Runs primitive `p` on the operands `args` for the `letV` at `node`: the number of operands
is checked against the arity first, then the primitive reads them by position. -/
def invoke (node : Term) (env : Env) (p : Primitive) (args : List String) : EvalM Value :=
  if args.length ≠ p.arity then throw (.arity node p p.arity args.length)
  else
    match p with
    | .select => do Invoke.select node env (← operand node args 0) (← operand node args 1)
    | .concat => do Invoke.concat node env (← operand node args 0) (← operand node args 1)
    | .acquire kind => do Invoke.acquire node env kind (← operand node args 0)
    | .read resource => Invoke.read node resource
    | .write resource => do Invoke.write node env resource (← operand node args 0)
    | .argument index => Invoke.argument index
    | .int op => do Invoke.integer node env op (← operand node args 0) (← operand node args 1)
    | .equal => do Invoke.equal node env (← operand node args 0) (← operand node args 1)

/-- A call runs its primitive on exactly its operands: with as many as the arity, every read by
position finds one, and with any other number the call faults. -/
theorem invoke_eq (node : Term) (env : Env) (p : Primitive) (args : List String) :
    invoke node env p args =
      (match p, args with
      | .select, [r, field] => Invoke.select node env r field
      | .concat, [l, r] => Invoke.concat node env l r
      | .acquire kind, [r] => Invoke.acquire node env kind r
      | .read resource, [_] => Invoke.read node resource
      | .write resource, [x] => Invoke.write node env resource x
      | .argument index, [] => Invoke.argument index
      | .int op, [a, b] => Invoke.integer node env op a b
      | .equal, [a, b] => Invoke.equal node env a b
      | p, args => throw (.arity node p p.arity args.length)) := by
  cases p <;> rcases args with _ | ⟨a, _ | ⟨b, _ | ⟨c, rest⟩⟩⟩ <;> rfl

end CpsMachine
