import CpsMachine.Proofs.Effects

/-!
# The prelude's closures apply their primitives

`curried_closures_apply_their_primitive`: on a machine whose halt name is neither `k` nor `j`, a
curried closure of the prelude (`Ints.add` to `Ints.gte`, and `equal`) applied to `v` with a
continuation `K` takes exactly three steps (the application, `letV f`, `appC k f`) and passes
`K` the function of the second operand; that function applied to `w` with a continuation `K'`
takes exactly three steps (the application, `letV r`, `appC j r`) and passes `K'` the
primitive's value on `v` and `w`: `IntOp.apply` of two integers, or the truth value of
`Value.equal`. Passing a value to the halt continuation halts with it; passing it to a `letC`
continuation runs that continuation's body.

The closures' bodies name their continuations `k` and `j`, and a continuation position whose
name is the configured halt name halts before the name is looked up. So the condition on the
halt name is needed: when it is `k`, the first application halts with the function of the
second operand whatever continuation it was given (`run_curried_apply_halt_name_k`,
`halt_name_k_ends_curried_application`).

Proof. `ContRef.target` is the continuation a position leads to, as `contValue` finds it
(`contValue_exec_iff_target`); each of the six steps is one `State.advance` lemma, and
`run_succ_of_advance` chains them into a run.
-/

namespace CpsMachine

open EvalM

/-! ### Continuation positions -/

/-- A value as a continuation, if it is one: the halt continuation or a `letC` continuation. -/
def Value.asCont? : Value → Option Value
  | .halt => some .halt
  | k@(.cont ..) => some k
  | _ => none

/-- The continuation that the position `k` leads to in `env` when the halt name is `halt`, if
it leads to one. -/
def ContRef.target (halt : String) (env : Env) : ContRef → Option Value
  | .halt => some .halt
  | .named k => if k = halt then some .halt else (env.lookup k).bind Value.asCont?

theorem Value.asCont?_idem {v K : Value} (h : v.asCont? = some K) : K.asCont? = some K := by
  cases v <;> simp only [Value.asCont?, reduceCtorEq, Option.some.injEq] at h <;> subst h <;> rfl

theorem ContRef.target_asCont {halt : String} {env : Env} {k : ContRef} {K : Value}
    (h : k.target halt env = some K) : K.asCont? = some K := by
  cases k with
  | halt =>
    cases h
    rfl
  | named name =>
    simp only [ContRef.target] at h
    split at h
    · cases h
      rfl
    · obtain ⟨v, _, hv⟩ := Option.bind_eq_some_iff.1 h
      exact Value.asCont?_idem hv

theorem ContRef.target_named {halt n : String} {env : Env} {K : Value} (hn : n ≠ halt)
    (hl : env.lookup n = some K) (hK : K.asCont? = some K) :
    (ContRef.named n).target halt env = some K := by
  simp only [ContRef.target, hn, if_false, hl, Option.bind_some, hK]

/-- `contValue` returns exactly the continuation its position leads to, and leaves the machine
alone. -/
theorem contValue_exec_iff_target {node : Term} {env : Env} {k : ContRef} {K : Value}
    (m : Machine) :
    (contValue node env k).exec m = (.ok K, m) ↔ k.target m.config.halt env = some K := by
  cases k with
  | halt =>
    constructor <;> intro h <;> cases h <;> rfl
  | named name =>
    simp only [contValue]
    rw [exec_get_bind]
    by_cases hn : name = m.config.halt
    · simp only [ContRef.target, hn, beq_self_eq_true, if_true, exec_pure, Prod.mk.injEq,
        Except.ok.injEq, Option.some.injEq, and_true]
    · simp only [ContRef.target, beq_iff_eq, hn, if_false]
      rw [exec_bind, fetch_exec]
      -- an unbound name faults, and a bound value that is no continuation faults too
      cases hv : env.lookup name with
      | none => simp
      | some v => cases v <;> simp [Value.asCont?]

/-! ### Steps and runs -/

/-- Where a control leads over `fuel` more steps: on from the next node, or nowhere after a
halt. -/
def Control.runOn (fuel : Nat) : Control → Machine → Outcome × Machine
  | .next t env, m => Machine.run fuel t env m
  | .halt v, m => (.halted v, m)

theorem run_succ_of_advance {fuel : Nat} {t : Term} {env : Env} {m m' : Machine} {c : Control}
    (h : (State.mk t env m).advance = (.ok c, m')) :
    Machine.run (fuel + 1) t env m = c.runOn fuel m' := by
  rw [run_succ, h]
  cases c <;> rfl

section Steps

variable {env E : Env} {m : Machine}

theorem advance_appF_function {f a : String} {k : ContRef} {c : Nat} {fn : Lambda} {K v : Value}
    (hf : env.lookup f = some (.function c E fn)) (hk : k.target m.config.halt env = some K)
    (ha : env.lookup a = some v) :
    (State.mk (.appF f k a) env m).advance =
      (.ok (.next fn.body ((E.extend fn.contParam K).extend fn.param v)),
        { m with steps := m.steps + 1 }) :=
  step_appF_exec hf rfl ((contValue_exec_iff_target { m with steps := m.steps + 1 }).2 hk) ha

theorem advance_letV_function (y : String) (fn : Lambda) (b : Term) :
    (State.mk (.letV y (.function fn) b) env m).advance =
      (.ok (.next b (env.extend y (.function m.nextId env fn))),
        { m with steps := m.steps + 1, nextId := m.nextId + 1 }) := rfl

theorem advance_letV_prim {y : String} {p : Primitive} {args : List String} {b : Term} {v : Value}
    (hp : ∀ m', (invoke (.letV y (.prim p args) b) env p args).exec m' = (.ok v, m')) :
    (State.mk (.letV y (.prim p args) b) env m).advance =
      (.ok (.next b (env.extend y v)), { m with steps := m.steps + 1 }) := by
  simp only [State.advance]
  rw [step_letV_exec]
  simp only [evalExpr]
  rw [hp]

theorem advance_appC {k : ContRef} {a : String} {K v : Value}
    (hk : k.target m.config.halt env = some K) (ha : env.lookup a = some v) :
    (State.mk (.appC k a) env m).advance = (.ok (K.resume v), { m with steps := m.steps + 1 }) := by
  simp only [State.advance, step]
  rw [exec_bind, fetch_exec, ha]
  dsimp only
  rw [exec_bind, (contValue_exec_iff_target { m with steps := m.steps + 1 }).2 hk]
  rfl

end Steps

/-! ### The primitives of curried closures -/

section Operands

variable {node : Term} {env : Env}

theorem integer_exec_ints {op : IntOp} {l r : String} {x y : Int}
    (hl : env.lookup l = some (.int x)) (hr : env.lookup r = some (.int y)) (m : Machine) :
    (Invoke.integer node env op l r).exec m = (.ok (op.apply x y), m) := by
  rw [Invoke.integer_eq, exec_bind, fetch_exec, hl]
  dsimp only
  rw [exec_bind, fetch_exec, hr]
  rfl

theorem equal_exec {l r : String} {v w : Value}
    (hl : env.lookup l = some v) (hr : env.lookup r = some w) (m : Machine) :
    (Invoke.equal node env l r).exec m = (.ok (Value.bool (v.equal w)), m) := by
  unfold Invoke.equal
  rw [exec_bind, fetch_exec, hl]
  dsimp only
  rw [exec_bind, fetch_exec, hr]
  rfl

theorem select_ints (op : IntOp) (m : Machine) :
    (Invoke.select node Prelude.env "Ints" op.name).exec m =
      (.ok (.function (IntOp.all.idxOf op) .empty (Prelude.curried (.int op))), m) := by
  cases op <;> rfl

end Operands

namespace Prelude

/-- The function a curried closure returns: applied to `y`, it invokes `p` on `x` and `y`. -/
def curriedInner (p : Primitive) : Lambda :=
  ⟨"j", "y", .letV "r" (.prim p ["x", "y"]) (.appC (.named "j") "r")⟩

theorem curried_eq (p : Primitive) :
    curried p = ⟨"k", "x", .letV "f" (.function (curriedInner p)) (.appC (.named "k") "f")⟩ := rfl

end Prelude

section Applications

variable {fuel : Nat} {env E : Env} {m : Machine} {c : Nat} {p : Primitive} {kr : ContRef}
  {K v : Value}

theorem run_curried_head {f a : String}
    (hf : env.lookup f = some (.function c E (Prelude.curried p)))
    (hk : kr.target m.config.halt env = some K) (ha : env.lookup a = some v) :
    Machine.run (fuel + 3) (.appF f kr a) env m =
      Machine.run (fuel + 1) (.appC (.named "k") "f")
        (((E.extend "k" K).extend "x" v).extend "f"
          (.function m.nextId ((E.extend "k" K).extend "x" v) (Prelude.curriedInner p)))
        { m with steps := m.steps + 2, nextId := m.nextId + 1 } := by
  rw [run_succ_of_advance (advance_appF_function hf hk ha), Control.runOn,
    Prelude.curried_eq]
  simp only [Lambda.body, Lambda.contParam, Lambda.param]
  rw [run_succ_of_advance (advance_letV_function _ _ _)]
  rfl

/-- Applied to `v` with the continuation `K`, a curried closure passes `K` the function of its
second operand, three steps on. -/
theorem run_curried_apply {f a : String} (hhalt : m.config.halt ≠ "k")
    (hf : env.lookup f = some (.function c E (Prelude.curried p)))
    (hk : kr.target m.config.halt env = some K) (ha : env.lookup a = some v) :
    Machine.run (fuel + 3) (.appF f kr a) env m =
      (K.resume (.function m.nextId ((E.extend "k" K).extend "x" v) (Prelude.curriedInner p))).runOn
        fuel { m with steps := m.steps + 3, nextId := m.nextId + 1 } := by
  -- the closure's `k` is bound to `K`, and it is not the halt name
  have hk' : (ContRef.named "k").target m.config.halt
      (((E.extend "k" K).extend "x" v).extend "f"
        (.function m.nextId ((E.extend "k" K).extend "x" v) (Prelude.curriedInner p))) = some K :=
    ContRef.target_named (Ne.symm hhalt) (by simp) (ContRef.target_asCont hk)
  rw [run_curried_head hf hk ha,
    run_succ_of_advance (advance_appC (m := { m with steps := m.steps + 2, nextId := m.nextId + 1 })
      hk' rfl)]

theorem run_curried_apply_halt_name_k {f a : String} (hhalt : m.config.halt = "k")
    (hf : env.lookup f = some (.function c E (Prelude.curried p)))
    (hk : kr.target m.config.halt env = some K) (ha : env.lookup a = some v) :
    Machine.run (fuel + 3) (.appF f kr a) env m =
      (.halted (.function m.nextId ((E.extend "k" K).extend "x" v) (Prelude.curriedInner p)),
        { m with steps := m.steps + 3, nextId := m.nextId + 1 }) := by
  have hk' : (ContRef.named "k").target m.config.halt
      (((E.extend "k" K).extend "x" v).extend "f"
        (.function m.nextId ((E.extend "k" K).extend "x" v) (Prelude.curriedInner p))) =
        some .halt := by
    simp only [ContRef.target, hhalt, if_true]
  rw [run_curried_head hf hk ha,
    run_succ_of_advance (advance_appC (m := { m with steps := m.steps + 2, nextId := m.nextId + 1 })
      hk' rfl)]
  rfl

theorem run_curriedInner_apply {g b : String} {w r : Value} (hhalt : m.config.halt ≠ "j")
    (hg : env.lookup g = some (.function c E (Prelude.curriedInner p)))
    (hk : kr.target m.config.halt env = some K) (hb : env.lookup b = some w)
    (hp : ∀ node m', (invoke node ((E.extend "j" K).extend "y" w) p ["x", "y"]).exec m' =
      (.ok r, m')) :
    Machine.run (fuel + 3) (.appF g kr b) env m =
      (K.resume r).runOn fuel { m with steps := m.steps + 3 } := by
  have hk' : (ContRef.named "j").target m.config.halt
      (((E.extend "j" K).extend "y" w).extend "r" r) = some K :=
    ContRef.target_named (Ne.symm hhalt) (by simp) (ContRef.target_asCont hk)
  rw [run_succ_of_advance (advance_appF_function hg hk hb), Control.runOn]
  simp only [Prelude.curriedInner, Lambda.body, Lambda.contParam, Lambda.param]
  rw [run_succ_of_advance (advance_letV_prim (hp _)), Control.runOn,
    run_succ_of_advance (advance_appC (m := { m with steps := m.steps + 2 }) hk' rfl)]

end Applications

theorem curried_closures_apply_their_primitive (m : Machine)
    (hk : m.config.halt ≠ "k") (hj : m.config.halt ≠ "j") :
    (∀ op node m', (Invoke.select node Prelude.env "Ints" op.name).exec m' =
      (.ok (.function (IntOp.all.idxOf op) .empty (Prelude.curried (.int op))), m')) ∧
    Prelude.env.lookup "equal" = some (.function IntOp.all.length .empty (Prelude.curried .equal)) ∧
    (∀ fuel env f kr a c E p K v, env.lookup f = some (.function c E (Prelude.curried p)) →
      kr.target m.config.halt env = some K → env.lookup a = some v →
      Machine.run (fuel + 3) (.appF f kr a) env m =
        (K.resume (.function m.nextId ((E.extend "k" K).extend "x" v)
          (Prelude.curriedInner p))).runOn fuel
          { m with steps := m.steps + 3, nextId := m.nextId + 1 }) ∧
    (∀ fuel env g kr b c E op K x y,
      env.lookup g = some (.function c E (Prelude.curriedInner (.int op))) →
      E.lookup "x" = some (.int x) → kr.target m.config.halt env = some K →
      env.lookup b = some (.int y) →
      Machine.run (fuel + 3) (.appF g kr b) env m =
        (K.resume (op.apply x y)).runOn fuel { m with steps := m.steps + 3 }) ∧
    (∀ fuel env g kr b c E K v w,
      env.lookup g = some (.function c E (Prelude.curriedInner .equal)) →
      E.lookup "x" = some v → kr.target m.config.halt env = some K → env.lookup b = some w →
      Machine.run (fuel + 3) (.appF g kr b) env m =
        (K.resume (Value.bool (v.equal w))).runOn fuel { m with steps := m.steps + 3 }) := by
  refine ⟨fun op _ m' => select_ints op m', rfl,
    fun _ _ _ _ _ _ _ _ _ _ hf hK ha => run_curried_apply hk hf hK ha, ?_, ?_⟩
  · intro fuel env g kr b c E op K x y hg hx hK hb
    -- the operands are the closure's `x` and the argument `y`
    refine run_curriedInner_apply hj hg hK hb fun node m' => integer_exec_ints ?_ (by simp) m'
    simpa using hx
  · intro fuel env g kr b c E K v w hg hx hK hb
    refine run_curriedInner_apply hj hg hK hb fun node m' => equal_exec ?_ (by simp) m'
    simpa using hx

theorem curried_add_returns_partial_function :
    ({} : Machine).config.halt ≠ "k" ∧ ({} : Machine).config.halt ≠ "j" ∧
      (Machine.run 3 (.appF "add" .halt "a")
          ((Env.empty.extend "add" (.function 0 .empty (Prelude.curried (.int .add)))).extend "a"
            (.int 3)) {}).1 =
        .halted (.function Prelude.firstFreeId ((Env.empty.extend "k" .halt).extend "x" (.int 3))
          (Prelude.curriedInner (.int .add))) := by
  obtain ⟨_, _, hfirst, _, _⟩ := curried_closures_apply_their_primitive {} (by decide) (by decide)
  refine ⟨by decide, by decide, ?_⟩
  rw [hfirst 0 _ "add" .halt "a" 0 .empty (.int .add) .halt (.int 3) rfl rfl rfl]
  rfl

/-- With the halt name `k`, a program that applies `Ints.add` to `3` and passes the resulting
function to a continuation that applies it to `4` halts after seven steps with that function,
where the default machine gives `7` after ten. -/
theorem halt_name_k_ends_curried_application :
    ∃ E m', Machine.eval { config := { halt := "k" } }
        (.letV "add" (.prim .select ["Ints", "add"]) (.letV "a" (.int 3) (.letV "b" (.int 4)
          (.letC "k1" "partial" (.appF "partial" .halt "b") (.appF "add" (.named "k1") "a")))))
        Prelude.env =
      (.halted (.function 12 E (Prelude.curriedInner (.int .add))), m') ∧ m'.steps = 7 :=
  ⟨_, _, rfl, rfl⟩

end CpsMachine
