import CpsMachine.Proofs.Faults

/-!
# No run reaches a panic

The host aborts, where the machine would otherwise fault, at three places: reading an operand
past a call's operands, reading a definition past a group's definitions, and dividing by zero.
The machine keeps these apart as `Fault.panic`. `runs_never_panic`: from an environment whose
members all lie inside their groups, no run ends in a panic, however long it runs, whatever the
configuration, the console and the files.

Primitives never panic (`invoke_fault`): a call's arity is checked before its operands are read
by position, and the divisor before the division. What is left is applying a member past its
group's definitions (`step_fault`), and the invariant `Value.Indexed` rules that out: every member
reachable in a bound value has an index below its group's length. The only members a step makes
are those of `Env.withGroup`, whose indices range over the group's own definitions.
-/

namespace CpsMachine

/-- Every member reachable in the value, through fields, payloads, items and the environments
closures and groups capture, has an index below its group's length. -/
inductive Value.Indexed : Value → Prop
  | int {n} : Value.Indexed (.int n)
  | str {s} : Value.Indexed (.str s)
  | error {msg} : Value.Indexed (.error msg)
  | halt : Value.Indexed .halt
  | record {fs} : (∀ p ∈ fs, Value.Indexed p.2) → Value.Indexed (.record fs)
  | variant {tag v} : Value.Indexed v → Value.Indexed (.variant tag v)
  | vector {vs} : (∀ v ∈ vs, Value.Indexed v) → Value.Indexed (.vector vs)
  | cont {id env p b} : (∀ n v, env.lookup n = some v → Value.Indexed v) →
      Value.Indexed (.cont id env p b)
  | function {id env fn} : (∀ n v, env.lookup n = some v → Value.Indexed v) →
      Value.Indexed (.function id env fn)
  | member {g i} : i < g.defs.length → (∀ n v, g.env.lookup n = some v → Value.Indexed v) →
      Value.Indexed (.member g i)

/-- What a step leads to: a node in an environment of indexed values, or the end with an indexed
value. -/
def Control.Indexed : Control → Prop
  | .next _ env => env.All Value.Indexed
  | .halt v => v.Indexed

theorem Value.Flat.indexed {v : Value} (hv : v.Flat) : v.Indexed := by
  cases hv with
  | int => exact .int
  | str => exact .str
  | error => exact .error
  | unit => exact .record fun _ hp => nomatch hp
  | bool => exact .variant (.record fun _ hp => nomatch hp)

theorem Prelude.env_indexed : Prelude.env.All Value.Indexed := by
  have hints : Prelude.ints.Indexed := by
    refine .record fun q hq => ?_
    obtain ⟨i, op, -, rfl⟩ := List.mem_mapIdx.1 hq
    exact .function (Env.all_empty _)
  exact Prelude.env_all (fun _ hv => hv.indexed) hints (.function (Env.all_empty _))

/-! ### What a step keeps -/

section Steps

variable {m : Machine} {env : Env}

theorem ValueExpr.Yields.indexed {e : ValueExpr} {v : Value} (hy : e.Yields m env v)
    (henv : env.All Value.Indexed) : v.Indexed := by
  cases hy with
  | flat hv => exact hv.indexed
  | operandError _ _ => exact .error
  | record hfs =>
    refine .record fun p hp => ?_
    obtain ⟨⟨n, hn⟩, -⟩ := hfs p hp
    exact henv n _ hn
  | variant hlook _ => exact .variant (henv _ _ hlook)
  | vector hvs =>
    refine .vector fun v hv => ?_
    obtain ⟨⟨n, hn⟩, -⟩ := hvs v hv
    exact henv n _ hn
  | function => exact .function henv
  | select hlook hmem =>
    obtain ⟨p, hp, rfl⟩ := List.mem_map.1 hmem
    cases henv _ _ hlook with
    | record hfs => exact hfs p hp
  | concat hl hr =>
    cases henv _ _ hl with
    | record ha =>
      cases henv _ _ hr with
      | record hb => exact .record fun p hp => (List.mem_append.1 hp).elim (ha p) (hb p)
  | acquire _ _ hfs =>
    refine .record fun p hp => ?_
    obtain ⟨id, op, hval, -⟩ := hfs p hp
    rw [hval]
    exact .function (Env.all_empty _)

theorem Value.Indexed.resume {K v : Value} (hK : K.Indexed) (hv : v.Indexed) :
    (K.resume v).Indexed := by
  cases hK with
  | cont hcenv => exact Env.All.extend hcenv hv
  | _ => exact hv

theorem Value.Enters.indexed {F : Value} {fenv : Env} {fn : Lambda} (he : F.Enters fenv fn)
    (hF : F.Indexed) : fenv.All Value.Indexed := by
  cases he with
  | function =>
    cases hF with
    | function henv => exact henv
  | member =>
    -- the members the group's environment binds are its own definitions
    cases hF with
    | member _ henv => exact Env.All.withGroup henv fun j => .member j.isLt henv

theorem Term.Moves.indexed {t : Term} {c : Control} (hmove : t.Moves m env c)
    (henv : env.All Value.Indexed) : c.Indexed := by
  cases hmove with
  | halt hlook => exact henv _ _ hlook
  | letV hy => exact henv.extend (hy.indexed henv)
  | letC => exact henv.extend (.cont henv)
  | letF => exact henv.withGroup fun j => .member j.isLt henv
  | appC hlook hk => exact (hk.all .halt henv).resume (henv _ _ hlook)
  | appF hlookf hentry hk hlooka =>
    exact ((hentry.indexed (henv _ _ hlookf)).extend (hk.all .halt henv)).extend (henv _ _ hlooka)
  | caseV hlook _ hk =>
    cases henv _ _ hlook with
    | variant hp => exact (hk.all .halt henv).resume hp

end Steps

/-! ### Runs -/

/-- A step from an environment of indexed values leads to another, ends with an indexed value,
or faults without a panic. -/
theorem State.advance_indexed {s : State} (hs : s.env.All Value.Indexed) :
    StepWithin (fun s => s.env.All Value.Indexed) Value.Indexed
      (fun e => ∀ node cause, e ≠ .panic node cause) s.advance := by
  obtain ⟨t, env, m⟩ := s
  unfold State.advance
  rcases hstep : (step t env).exec { m with steps := m.steps + 1 } with ⟨_ | c, m'⟩
  · rintro node cause rfl
    rcases step_fault hstep with hwithin | ⟨f, g, i, hlook, hpast, -⟩
    · exact hwithin
    · -- the member applied is bound in the environment, hence inside its group
      cases hs f _ hlook with
      | member hlt _ => exact absurd hlt (Nat.not_lt.2 hpast)
  · have hc := (step_moves hstep).1.indexed hs
    cases c with
    | next t' env' => exact hc
    | halt v => exact hc

/-- From an environment whose members all lie inside their groups, whatever the configuration,
the console and the files, every state a run reaches binds only such values, and no run ends in
a panic, however long it runs. -/
theorem runs_never_panic (m : Machine) (t : Term) (env : Env)
    (hindexed : env.All Value.Indexed) :
    (∀ s, State.Reaches ⟨t, env, m⟩ s → s.env.All Value.Indexed) ∧
      ∀ fuel node cause, (Machine.run fuel t env m).1 ≠ .failed (.panic node cause) := by
  have hstep : ∀ s : State, s.env.All Value.Indexed →
      StepWithin (fun s => s.env.All Value.Indexed) Value.Indexed
        (fun e => ∀ node cause, e ≠ .panic node cause) s.advance :=
    fun _ hs => State.advance_indexed hs
  refine ⟨fun s hreach => reaches_within hstep hreach hindexed, fun fuel node cause hfail => ?_⟩
  have hwithin := run_within hstep fuel ⟨t, env, m⟩ hindexed
  rw [hfail] at hwithin
  exact hwithin node cause rfl

/-- Dividing by zero through the prelude gives an error value, and no run from the prelude
panics. -/
theorem prelude_division_never_panics :
    Prelude.env.All Value.Indexed ∧
      (Machine.run 4 (.letV "zero" (.int 0) (.letV "one" (.int 1)
        (.letV "q" (.prim (.int .div) ["one", "zero"]) (.halt "q")))) Prelude.env {}).1 =
        .halted (.error "div: division by zero") ∧
      ∀ fuel node cause, (Machine.run fuel (.letV "zero" (.int 0) (.letV "one" (.int 1)
        (.letV "q" (.prim (.int .div) ["one", "zero"]) (.halt "q")))) Prelude.env {}).1 ≠
        .failed (.panic node cause) :=
  ⟨Prelude.env_indexed, rfl, (runs_never_panic {} _ _ Prelude.env_indexed).2⟩

end CpsMachine
