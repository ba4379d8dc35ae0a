import CpsMachine.Proofs.Faults

/-!
# Well-scoped programs never meet an unbound name

A value is scoped (`Value.Scoped h`) when every closure reachable in it, through fields, payloads,
items and the environments closures capture, reads only names its own environment binds, its
parameters and the halt name `h`. `scoped_run_never_unbound`: a run of a term closed over the
names a scoped environment binds never faults on an unbound name, however long it runs.

The invariant is `State.Scoped`: the node reads only names its environment binds, and every
value bound is scoped. A binding node extends the scope its body is closed over by the name it
binds. A transfer enters the body of a closure in the closure's environment extended by the
closure's parameters, and the closure's own scoping says that this covers what the body reads;
for a member of a group, the group's environment binds every name of the group. The closures
the machine makes for primitives read only their parameters. An unbound-name fault names a name
that every scope of the node contains (`step_fault`), which the invariant rules out.
-/

namespace CpsMachine

/-- Every closure reachable in the value reads only names bound in its own environment, its
parameters and the halt name `h`. -/
inductive Value.Scoped (h : String) : Value → Prop
  | int {n} : Value.Scoped h (.int n)
  | str {s} : Value.Scoped h (.str s)
  | error {msg} : Value.Scoped h (.error msg)
  | halt : Value.Scoped h .halt
  | record {fs} : (∀ p ∈ fs, Value.Scoped h p.2) → Value.Scoped h (.record fs)
  | variant {tag v} : Value.Scoped h v → Value.Scoped h (.variant tag v)
  | vector {vs} : (∀ v ∈ vs, Value.Scoped h v) → Value.Scoped h (.vector vs)
  | cont {id env p b} : (∀ n v, env.lookup n = some v → Value.Scoped h v) →
      b.Closed h (p :: env.names) → Value.Scoped h (.cont id env p b)
  | function {id env fn} : (∀ n v, env.lookup n = some v → Value.Scoped h v) →
      fn.Closed h env.names → Value.Scoped h (.function id env fn)
  | member {g i} : (∀ n v, g.env.lookup n = some v → Value.Scoped h v) →
      (∀ d ∈ g.defs, d.2.Closed h (g.defs.map Prod.fst ++ g.env.names)) →
      Value.Scoped h (.member g i)

/-- The invariant of a run: the node reads only names its environment binds, and every value
bound is scoped. -/
def State.Scoped (s : State) : Prop :=
  s.term.Closed s.machine.config.halt s.env.names ∧ s.env.All (Value.Scoped s.machine.config.halt)

section Values

variable {h : String}

theorem Value.Flat.scoped {v : Value} (hv : v.Flat) : v.Scoped h := by
  cases hv with
  | int => exact .int
  | str => exact .str
  | error => exact .error
  | unit => exact .record fun _ hp => nomatch hp
  | bool => exact .variant (.record fun _ hp => nomatch hp)

theorem Prelude.unary_closed (p : Primitive) : (Prelude.unary p).Closed h [] := by
  refine .mk (.letV (.prim fun a ha => ?_) (.appC (.inr (by simp)) (by simp)))
  have := p.operands_subset ["x"] ha
  simp_all

theorem Prelude.curried_closed (p : Primitive) : (Prelude.curried p).Closed h [] := by
  refine .mk (.letV (.function (.mk (.letV (.prim fun a ha => ?_) ?_))) ?_)
  · have := p.operands_subset ["x", "y"] ha
    simp only [List.mem_cons, List.not_mem_nil, or_false] at this
    rcases this with rfl | rfl <;> simp
  · exact .appC (.inr (by simp)) (by simp)
  · exact .appC (.inr (by simp)) (by simp)

theorem Prelude.env_scoped : Prelude.env.All (Value.Scoped h) := by
  have hclosure : ∀ id p, (Value.function id .empty (Prelude.curried p)).Scoped h :=
    fun _ p => .function (Env.all_empty _) (Prelude.curried_closed p)
  have hints : Prelude.ints.Scoped h := by
    refine .record fun q hq => ?_
    obtain ⟨i, op, -, rfl⟩ := List.mem_mapIdx.1 hq
    exact hclosure _ _
  exact Prelude.env_all (fun _ hv => hv.scoped) hints (hclosure _ _)

end Values

/-! ### What a step keeps -/

/-- What a step leads to, read against the halt name `h`: a node closed over the names its
environment binds, with every value bound scoped, or the end. -/
def Control.Scoped (h : String) : Control → Prop
  | .next t env => t.Closed h env.names ∧ env.All (Value.Scoped h)
  | .halt _ => True

section Steps

variable {h : String} {m : Machine} {env : Env}

theorem ValueExpr.Yields.scoped {e : ValueExpr} {v : Value} (hy : e.Yields m env v)
    (he : e.Closed h env.names) (henv : env.All (Value.Scoped h)) : v.Scoped h := by
  cases hy with
  | flat hv => exact hv.scoped
  | operandError _ _ => exact .error
  | record hfs =>
    refine .record fun p hp => ?_
    obtain ⟨⟨n, hn⟩, -⟩ := hfs p hp
    exact henv n _ hn
  | variant hlook _ => exact .variant (henv _ _ hlook)
  | vector hvs =>
    refine .vector fun v hv => ?_
    obtain ⟨⟨n, hn⟩, -⟩ := hvs v hv
    exact henv n _ hn
  | function =>
    cases he with
    | function hfn => exact .function henv hfn
  | select hlook hmem =>
    obtain ⟨p, hp, rfl⟩ := List.mem_map.1 hmem
    cases henv _ _ hlook with
    | record hfs => exact hfs p hp
  | concat hl hr =>
    cases henv _ _ hl with
    | record ha =>
      cases henv _ _ hr with
      | record hb => exact .record fun p hp => (List.mem_append.1 hp).elim (ha p) (hb p)
  | acquire _ _ hfs =>
    refine .record fun p hp => ?_
    obtain ⟨id, op, hval, -⟩ := hfs p hp
    rw [hval]
    exact .function (Env.all_empty _) (Prelude.unary_closed op)

theorem Value.Scoped.resume {K v : Value} (hK : K.Scoped h) (hv : v.Scoped h) :
    (K.resume v).Scoped h := by
  cases hK with
  | cont hcenv hbody =>
    exact And.intro (hbody.mono _ (Env.names_extend_subset _ _ _)) (Env.All.extend hcenv hv)
  | _ => trivial

theorem Value.Enters.scoped {F : Value} {fenv : Env} {fn : Lambda} (he : F.Enters fenv fn)
    (hF : F.Scoped h) : fenv.All (Value.Scoped h) ∧ fn.Closed h fenv.names := by
  cases he with
  | function =>
    cases hF with
    | function henv hfn => exact ⟨henv, hfn⟩
  | member =>
    cases hF with
    | member henv hdefs =>
      -- the group's environment binds the group's names over the captured ones
      refine ⟨Env.All.withGroup henv fun _ => .member henv hdefs, ?_⟩
      exact (hdefs _ (List.get_mem _ _)).mono fun n hn => (mem_names_withGroup _ _ _).2 hn

/-- Every move of a scoped state leads to a scoped state or to the end. -/
theorem Term.Moves.scoped {t : Term} {c : Control} (hmove : t.Moves m env c)
    (ht : t.Closed m.config.halt env.names) (henv : env.All (Value.Scoped m.config.halt)) :
    c.Scoped m.config.halt := by
  cases hmove with
  | halt _ => trivial
  | letV hy =>
    cases ht with
    | letV he hb =>
      exact And.intro (hb.mono _ (Env.names_extend_subset _ _ _)) (henv.extend (hy.scoped he henv))
  | letC =>
    cases ht with
    | letC hcb hb =>
      exact And.intro (hb.mono _ (Env.names_extend_subset _ _ _)) (henv.extend (.cont henv hcb))
  | letF =>
    cases ht with
    | letF hdefs hb =>
      refine And.intro (hb.mono _ fun n hn => (mem_names_withGroup _ _ _).2 hn) ?_
      exact henv.withGroup fun _ => .member henv hdefs
  | appC hlook hk => exact (hk.all .halt henv).resume (henv _ _ hlook)
  | @appF f k a F fenv fn K v hlookf hentry hk hlooka =>
    obtain ⟨hfenv, hfn⟩ := hentry.scoped (henv _ _ hlookf)
    cases hfn with
    | @mk _ k' x b hbody =>
      -- the parameter and the continuation parameter come in front of the callee's names
      have hsub : x :: k' :: fenv.names ⊆ ((fenv.extend k' K).extend x v).names :=
        List.Subset.trans (List.cons_subset_cons x (Env.names_extend_subset fenv k' K))
          (Env.names_extend_subset _ x v)
      exact And.intro (hbody.mono _ hsub) ((hfenv.extend (hk.all .halt henv)).extend (henv _ _ hlooka))
  | caseV hlook _ hk =>
    cases henv _ _ hlook with
    | variant hp => exact (hk.all .halt henv).resume hp

end Steps

/-! ### Runs -/

theorem State.Scoped.advance {s : State} (hs : s.Scoped) :
    StepWithin State.Scoped (fun _ => True) (fun e => ∀ node n, e ≠ .unbound node n)
      s.advance := by
  obtain ⟨t, env, m⟩ := s
  obtain ⟨ht, henv⟩ := hs
  unfold State.advance
  rcases hstep : (step t env).exec { m with steps := m.steps + 1 } with ⟨_ | c, m'⟩
  · rintro node n rfl
    rcases step_fault hstep with ⟨hmem, hlook⟩ | ⟨f, g, i, -, -, hpanic⟩
    · -- the node reads the name, so the environment it is closed over binds it
      have hbound := Env.lookup_isSome_iff.2 (hmem _ ht)
      rw [hlook] at hbound
      cases hbound
    · cases hpanic
  · obtain ⟨hmove, hconfig⟩ := step_moves hstep
    have hc := hmove.scoped ht henv
    cases c with
    | next t' env' =>
      show State.Scoped ⟨t', env', m'⟩
      rw [State.Scoped, hconfig]
      exact hc
    | halt v => trivial

/-- A run of a term closed over the names a scoped environment binds never faults on an unbound
name, however long it runs, whatever the configuration, the console and the files. -/
theorem scoped_run_never_unbound (m : Machine) (t : Term) (env : Env)
    (hclosed : t.Closed m.config.halt env.names) (hscoped : env.All (Value.Scoped m.config.halt))
    (fuel : Nat) (node : Term) (n : String) :
    (Machine.run fuel t env m).1 ≠ .failed (.unbound node n) := by
  intro hfail
  have hwithin : (Machine.run fuel t env m).1.Within (fun _ => True)
      (fun e => ∀ node n, e ≠ .unbound node n) :=
    run_within (fun s (hs : s.Scoped) => hs.advance) fuel ⟨t, env, m⟩ ⟨hclosed, hscoped⟩
  rw [hfail] at hwithin
  exact hwithin node n rfl

theorem prelude_application_never_unbound :
    (Term.letC "k" "r" (.halt "r") (.appF "equal" (.named "k") "true")).Closed
        ({} : Machine).config.halt Prelude.env.names ∧
      Prelude.env.All (Value.Scoped ({} : Machine).config.halt) ∧
      (Machine.eval {} (.letC "k" "r" (.halt "r") (.appF "equal" (.named "k") "true"))
        Prelude.env).1 ≠ .failed (.unbound (.halt "r") "r") := by
  have hclosed : (Term.letC "k" "r" (.halt "r") (.appF "equal" (.named "k") "true")).Closed
      ({} : Machine).config.halt Prelude.env.names :=
    .letC (.halt (by simp)) (.appF
      (List.mem_cons_of_mem _ (Env.lookup_isSome_iff.1 (by simp [Prelude.env])))
      (.inr (by simp))
      (List.mem_cons_of_mem _ (Env.lookup_isSome_iff.1 (by simp [Prelude.env]))))
  exact ⟨hclosed, Prelude.env_scoped,
    scoped_run_never_unbound {} _ _ hclosed Prelude.env_scoped _ _ _⟩

end CpsMachine
