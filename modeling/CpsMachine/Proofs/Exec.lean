import Mathlib.Logic.Relation
import CpsMachine.Machine.Run

/-!
# Running computations of the machine

`EvalM.exec x m` is what running `x` on the machine `m` gives: a value or a fault, with the
machine after. Proofs about the machine open a computation one `bind` at a time with
`EvalM.bind_ok` and `EvalM.bind_error`, and never unfold the monad itself.

A run is a sequence of `State`s, each the node to run next, its environment and the machine.
`State.advance` runs one node, exactly as `Machine.run` does (`run_succ`), and `State.Reaches` is
the reachability of one state from another. `run_within` is the induction every property of
whole runs goes through: what holds of the first state and is kept by each step bounds how the
run ends.
-/

namespace CpsMachine

namespace EvalM

variable {α β : Type} {x : EvalM α} {f : α → EvalM β} {m m' : Machine}

/-- The result of running `x` on `m`, with the machine it leaves. -/
def exec (x : EvalM α) (m : Machine) : Except Fault α × Machine :=
  x.run.run m

@[simp]
theorem exec_pure (a : α) (m : Machine) : (pure a : EvalM α).exec m = (.ok a, m) := rfl

@[simp]
theorem exec_throw (e : Fault) (m : Machine) : (throw e : EvalM α).exec m = (.error e, m) := rfl

@[simp]
theorem exec_get (m : Machine) : (get : EvalM Machine).exec m = (.ok m, m) := rfl

@[simp]
theorem exec_set (m m' : Machine) : (set m' : EvalM PUnit).exec m = (.ok ⟨⟩, m') := rfl

theorem exec_get_bind (f : Machine → EvalM α) (m : Machine) : (get >>= f).exec m = (f m).exec m :=
  rfl

theorem exec_bind (x : EvalM α) (f : α → EvalM β) (m : Machine) :
    (x >>= f).exec m = match x.exec m with
      | (.ok a, m1) => (f a).exec m1
      | (.error e, m1) => (.error e, m1) := by
  simp only [exec, ExceptT.run_bind, StateT.run_bind]
  rcases x.run.run m with ⟨_ | _, m1⟩ <;> rfl

/-- A bound computation that returns a value ran both of its parts to a value. -/
theorem bind_ok {b : β} (h : (x >>= f).exec m = (.ok b, m')) :
    ∃ a m1, x.exec m = (.ok a, m1) ∧ (f a).exec m1 = (.ok b, m') := by
  rw [exec_bind] at h
  rcases hx : x.exec m with ⟨_ | a, m1⟩ <;> rw [hx] at h
  · cases h
  · exact ⟨a, m1, rfl, h⟩

theorem bind_error {e : Fault} (h : (x >>= f).exec m = (.error e, m')) :
    x.exec m = (.error e, m') ∨
      ∃ a m1, x.exec m = (.ok a, m1) ∧ (f a).exec m1 = (.error e, m') := by
  rw [exec_bind] at h
  rcases hx : x.exec m with ⟨_ | a, m1⟩ <;> rw [hx] at h
  · left
    cases h
    rfl
  · exact .inr ⟨a, m1, rfl, h⟩

end EvalM

open EvalM

theorem fetch_exec (node : Term) (env : Env) (name : String) (m : Machine) :
    (fetch node env name).exec m =
      ((match env.lookup name with
        | some v => .ok v
        | none => .error (.unbound node name)), m) := by
  unfold fetch
  cases env.lookup name <;> rfl

theorem fetch_ok {node : Term} {env : Env} {name : String} {m m' : Machine} {v : Value}
    (h : (fetch node env name).exec m = (.ok v, m')) : env.lookup name = some v ∧ m' = m := by
  rw [fetch_exec] at h
  split at h <;> simp_all

theorem fetch_error {node : Term} {env : Env} {name : String} {m m' : Machine} {e : Fault}
    (h : (fetch node env name).exec m = (.error e, m')) :
    env.lookup name = none ∧ e = .unbound node name ∧ m' = m := by
  rw [fetch_exec] at h
  split at h <;> simp_all

theorem freshId_exec (m : Machine) :
    freshId.exec m = (.ok m.nextId, { m with nextId := m.nextId + 1 }) := rfl

theorem step_appF_exec {f a : String} {k : ContRef} {env fenv : Env} {F K v : Value} {fn : Lambda}
    {m : Machine} (hf : env.lookup f = some F)
    (hc : (callee (.appF f k a) f F).exec m = (.ok (fenv, fn), m))
    (hk : (contValue (.appF f k a) env k).exec m = (.ok K, m)) (ha : env.lookup a = some v) :
    (step (.appF f k a) env).exec m =
      (.ok (.next fn.body ((fenv.extend fn.contParam K).extend fn.param v)), m) := by
  simp only [step]
  rw [exec_bind, fetch_exec, hf]
  dsimp only
  rw [exec_bind, hc]
  dsimp only
  rw [exec_bind, hk]
  dsimp only
  rw [exec_bind, fetch_exec, ha]
  rfl

/-! ### States and steps -/

/-- A state of a run: the node to run next, its environment, and the machine. -/
structure State where
  term : Term
  env : Env
  machine : Machine

namespace State

/-- Runs the node of `s`, counting the step first. -/
def advance (s : State) : Except Fault Control × Machine :=
  (step s.term s.env).exec { s.machine with steps := s.machine.steps + 1 }

/-- `s'` is the state `s` moves to in one step. -/
def Next (s s' : State) : Prop :=
  s.advance = (.ok (.next s'.term s'.env), s'.machine)

/-- The states a run from `s` passes through, `s` itself included. -/
def Reaches : State → State → Prop :=
  Relation.ReflTransGen Next

end State

theorem run_succ (fuel : Nat) (t : Term) (env : Env) (m : Machine) :
    Machine.run (fuel + 1) t env m =
      match (State.mk t env m).advance with
      | (.ok (.next t' env'), m') => Machine.run fuel t' env' m'
      | (.ok (.halt v), m') => (.halted v, m')
      | (.error e, m') => (.failed e, m') := rfl

/-- What a step may end in: a state `I` holds of, a value `Q` holds of, or a fault `F` holds
of. -/
def StepWithin (I : State → Prop) (Q : Value → Prop) (F : Fault → Prop) :
    Except Fault Control × Machine → Prop
  | (.ok (.next t env), m) => I ⟨t, env, m⟩
  | (.ok (.halt v), _) => Q v
  | (.error e, _) => F e

/-- What a run may end in: a value `Q` holds of, a fault `F` holds of, or the end of its fuel. -/
def Outcome.Within (Q : Value → Prop) (F : Fault → Prop) : Outcome → Prop
  | .halted v => Q v
  | .failed e => F e
  | .exhausted => True

section Invariant

variable {I : State → Prop} {Q : Value → Prop} {F : Fault → Prop}

/-- A property that every step keeps bounds how every run ends. -/
theorem run_within (hstep : ∀ s, I s → StepWithin I Q F s.advance) :
    ∀ (fuel : Nat) (s : State), I s →
      (Machine.run fuel s.term s.env s.machine).1.Within Q F := by
  intro fuel
  induction fuel with
  | zero => intro s _; trivial
  | succ fuel ih =>
    rintro ⟨t, env, m⟩ hs
    have hnext := hstep _ hs
    rw [run_succ]
    -- the step's own result decides whether the run goes on
    rcases hadv : (State.mk t env m).advance with ⟨_ | _ | _, m'⟩ <;>
      rw [hadv] at hnext
    · exact hnext
    · exact ih ⟨_, _, m'⟩ hnext
    · exact hnext

theorem reaches_invariant (hstep : ∀ s s', I s → s.Next s' → I s') {s s' : State}
    (hreach : s.Reaches s') (hs : I s) : I s' := by
  induction hreach with
  | refl => exact hs
  | tail _ hnext ih => exact hstep _ _ ih hnext

/-- A property that every step keeps holds of every state a run reaches. -/
theorem reaches_within (hstep : ∀ s, I s → StepWithin I Q F s.advance) {s s' : State}
    (hreach : s.Reaches s') (hs : I s) : I s' := by
  refine reaches_invariant (fun s s' hs hnext => ?_) hreach hs
  have hwithin := hstep s hs
  rw [show s.advance = _ from hnext] at hwithin
  exact hwithin

end Invariant

end CpsMachine
