import CpsMachine.Machine.Step

/-!
# Runs

`Machine.run` steps a term until it halts or faults, counting one step for every node entered,
over at most `fuel` steps. `Machine.eval` runs with a limit that no real run reaches. The machine
that comes back holds the console, the files, the step count and the next closure identity as the
run left them, also after a fault.
-/

namespace CpsMachine

/-- How a run ended. -/
inductive Outcome where
  | halted (value : Value)
  | failed (fault : Fault)
  /-- The run took every step it was allowed without ending. -/
  | exhausted

namespace Machine

/-- Runs `t` in `env` for at most `fuel` steps. -/
def run : Nat → Term → Env → Machine → Outcome × Machine
  | 0, _, _, m => (.exhausted, m)
  | fuel + 1, t, env, m =>
    match (step t env).run.run { m with steps := m.steps + 1 } with
    | (.ok (.next t' env'), m') => run fuel t' env' m'
    | (.ok (.halt v), m') => (.halted v, m')
    | (.error f, m') => (.failed f, m')

/-- The step limit of `eval`: `2 ^ 63 - 1`, more than any run can take. -/
def stepLimit : Nat := 9223372036854775807

/-- Runs `t` in `env` until it halts or faults. -/
def eval (m : Machine) (t : Term) (env : Env) : Outcome × Machine :=
  run stepLimit t env m

/-- Runs `t` in the prelude's environment extended by `bindings`, in order. -/
def evalWith (m : Machine) (bindings : List (String × Value)) (t : Term) : Outcome × Machine :=
  m.eval t (Prelude.env.extendAll bindings)

end Machine

end CpsMachine
