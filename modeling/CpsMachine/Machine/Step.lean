import CpsMachine.Machine.Primitive

/-!
# One step

`step` runs the node at the head of a term in an environment. A binding node extends the
environment and moves to its body; a transfer moves to the body of the closure it applies, in
that closure's environment, or halts with a value. No step waits for another: the machine's
state is only the current term and environment, however deep the pending continuations are.

* `evalExpr` gives the value a `letV` binds. Record, variant and vector operands are looked up
  left to right; the first error value among them is the result.
* `contValue` gives the continuation a position leads to: the halt continuation for the halt
  reference and for the configured halt name, else the value bound to the name, which must be a
  continuation or the halt continuation.
-/

namespace CpsMachine

/-- What follows a step: another node in an environment, or the end with a value. -/
inductive Control where
  | next (term : Term) (env : Env)
  | halt (value : Value)

/-- Operand values, or the first error value met among them. -/
inductive Operands where
  | values (vs : List Value)
  | stopped (message : String)

/-- Looks up operands left to right, stopping at the first that is unbound (a fault) or bound
to an error value. -/
def gather (node : Term) (env : Env) : List String → Except Fault Operands
  | [] => .ok (.values [])
  | n :: rest =>
    match env.lookup n with
    | none => .error (.unbound node n)
    | some (.error m) => .ok (.stopped m)
    | some v =>
      match gather node env rest with
      | .ok (.values vs) => .ok (.values (v :: vs))
      | r => r

/-- The value a `letV` at `node` binds. -/
def evalExpr (node : Term) (env : Env) : ValueExpr → EvalM Value
  | .int n => pure (.int n)
  | .str s => pure (.str s)
  | .record fields =>
    match gather node env (fields.map Prod.snd) with
    | .ok (.values vs) => pure (.record ((fields.map Prod.fst).zip vs))
    | .ok (.stopped m) => pure (.error m)
    | .error f => throw f
  | .variant tag arg => do
    match ← fetch node env arg with
    | .error m => pure (.error m)
    | payload => pure (.variant tag payload)
  | .vector items =>
    match gather node env items with
    | .ok (.values vs) => pure (.vector vs)
    | .ok (.stopped m) => pure (.error m)
    | .error f => throw f
  | .function fn => do
    let id ← freshId
    pure (.function id env fn)
  | .prim p args => invoke node env p args

/-- The continuation the position `k` leads to at `node`. -/
def contValue (node : Term) (env : Env) : ContRef → EvalM Value
  | .halt => pure .halt
  | .named name => do
    if name == (← get).config.halt then pure .halt
    else
      match ← fetch node env name with
      | .halt => pure .halt
      | k@(.cont ..) => pure k
      | other => throw (.notAClosure node name other)

/-- Passes a value to a continuation: the halt continuation ends the run with it, a `letC`
continuation runs its body with its parameter bound to it. -/
def Value.resume : Value → Value → Control
  | .cont _ env param body, v => .next body (env.extend param v)
  | _, v => .halt v

/-- The environment and body a function value runs in when applied; a fault at `node` if the
value named `func` is not a function. A member reads its definition by position, where the host
would abort past the last one, and runs in its group's member environment. -/
def callee (node : Term) (func : String) : Value → EvalM (Env × Lambda)
  | .function _ env fn => pure (env, fn)
  | .member group index =>
    match group.defs[index]? with
    | some d => pure (group.memberEnv, d.2)
    | none => throw (.panic node (.member index))
  | other => throw (.notAClosure node func other)

/-- Runs the node at the head of `t` in `env`. -/
def step (t : Term) (env : Env) : EvalM Control :=
  match t with
  | .halt arg => do
    let v ← fetch t env arg
    pure (.halt v)
  | .letV name e body => do
    let v ← evalExpr t env e
    pure (.next body (env.extend name v))
  | .letC name param contBody body => do
    let id ← freshId
    pure (.next body (env.extend name (.cont id env param contBody)))
  | .letF defs body => do
    let group ← freshId
    pure (.next body (env.withGroup group defs))
  | .appC cont arg => do
    let v ← fetch t env arg
    let k ← contValue t env cont
    pure (k.resume v)
  | .appF func cont arg => do
    let (fenv, fn) ← callee t func (← fetch t env func)
    let k ← contValue t env cont
    let v ← fetch t env arg
    pure (.next fn.body ((fenv.extend fn.contParam k).extend fn.param v))
  | .caseV scrutinee cases => do
    match ← fetch t env scrutinee with
    | .variant tag payload =>
      match cases.lookup tag with
      | some k => pure ((← contValue t env (.named k)).resume payload)
      | none => throw (.noMatchingCase t tag)
    | other => throw (.notAVariant t scrutinee other)

end CpsMachine
