import CpsMachine.Proofs.Moves

/-!
# Error values stay at the top

An error value travels like any other value, but never inside another one: no record field,
variant payload or vector item is an error, at any depth, and every value a closure or a group
captures is again of this kind. `Value.Clean` says this of one value; an error value itself is
clean.

`clean_run_keeps_errors_outside`: from an environment of clean values, every state a run reaches
binds only clean values, and a run that halts halts with a clean value. A composite value is
built only from operands that are not errors (`ValueExpr.Yields`); a select or a concat only
takes apart or joins the fields of clean records; and a closure made by a step captures the
current environment, which the invariant makes clean. So every step keeps the invariant
(`Term.Moves.clean`), and `reaches_within` and `run_within` carry it along the run.
-/

namespace CpsMachine

/-- No error value sits inside the value, at any depth, and every value its closures capture is
again clean. -/
inductive Value.Clean : Value → Prop
  | int {n} : Value.Clean (.int n)
  | str {s} : Value.Clean (.str s)
  | error {msg} : Value.Clean (.error msg)
  | halt : Value.Clean .halt
  | record {fs} : (∀ p ∈ fs, p.2.isError = false) → (∀ p ∈ fs, Value.Clean p.2) →
      Value.Clean (.record fs)
  | variant {tag v} : v.isError = false → Value.Clean v → Value.Clean (.variant tag v)
  | vector {vs} : (∀ v ∈ vs, v.isError = false) → (∀ v ∈ vs, Value.Clean v) →
      Value.Clean (.vector vs)
  | cont {id env p b} : (∀ n v, env.lookup n = some v → Value.Clean v) →
      Value.Clean (.cont id env p b)
  | function {id env fn} : (∀ n v, env.lookup n = some v → Value.Clean v) →
      Value.Clean (.function id env fn)
  | member {g i} : (∀ n v, g.env.lookup n = some v → Value.Clean v) →
      Value.Clean (.member g i)

/-- What a step leads to: a node in an environment of clean values, or the end with a clean
value. -/
def Control.Clean : Control → Prop
  | .next _ env => env.All Value.Clean
  | .halt v => v.Clean

theorem Value.Flat.clean {v : Value} (hv : v.Flat) : v.Clean := by
  cases hv with
  | int => exact .int
  | str => exact .str
  | error => exact .error
  | unit => exact .record (fun _ hp => nomatch hp) (fun _ hp => nomatch hp)
  | bool => exact .variant rfl (.record (fun _ hp => nomatch hp) (fun _ hp => nomatch hp))

theorem Value.clean_record_of_closures {fs : List (String × Value)}
    (hfs : ∀ p ∈ fs, ∃ id fn, p.2 = .function id .empty fn) : (Value.record fs).Clean := by
  refine .record (fun p hp => ?_) (fun p hp => ?_)
  · obtain ⟨id, fn, hval⟩ := hfs p hp
    rw [hval]
    rfl
  · obtain ⟨id, fn, hval⟩ := hfs p hp
    rw [hval]
    exact .function (Env.all_empty _)

theorem Prelude.env_clean : Prelude.env.All Value.Clean := by
  have hints : Prelude.ints.Clean := by
    refine Value.clean_record_of_closures fun q hq => ?_
    obtain ⟨i, op, -, rfl⟩ := List.mem_mapIdx.1 hq
    exact ⟨_, _, rfl⟩
  exact Prelude.env_all (fun _ hv => hv.clean) hints (.function (Env.all_empty _))

/-! ### What a step keeps -/

section Steps

variable {m : Machine} {env : Env}

theorem ValueExpr.Yields.clean {e : ValueExpr} {v : Value} (hy : e.Yields m env v)
    (henv : env.All Value.Clean) : v.Clean := by
  cases hy with
  | flat hv => exact hv.clean
  | operandError _ _ => exact .error
  | record hfs =>
    refine .record (fun p hp => (hfs p hp).2) (fun p hp => ?_)
    obtain ⟨⟨n, hn⟩, -⟩ := hfs p hp
    exact henv n _ hn
  | variant hlook hnot => exact .variant hnot (henv _ _ hlook)
  | vector hvs =>
    refine .vector (fun v hv => (hvs v hv).2) (fun v hv => ?_)
    obtain ⟨⟨n, hn⟩, -⟩ := hvs v hv
    exact henv n _ hn
  | function => exact .function henv
  | select hlook hmem =>
    obtain ⟨p, hp, rfl⟩ := List.mem_map.1 hmem
    cases henv _ _ hlook with
    | record _ hfs => exact hfs p hp
  | concat hl hr =>
    cases henv _ _ hl with
    | record hna ha =>
      cases henv _ _ hr with
      | record hnb hb =>
        exact .record (fun p hp => (List.mem_append.1 hp).elim (hna p) (hnb p))
          (fun p hp => (List.mem_append.1 hp).elim (ha p) (hb p))
  | acquire _ _ hfs =>
    refine Value.clean_record_of_closures fun p hp => ?_
    obtain ⟨id, op, hval, -⟩ := hfs p hp
    exact ⟨id, _, hval⟩

theorem Value.Clean.resume {K v : Value} (hK : K.Clean) (hv : v.Clean) : (K.resume v).Clean := by
  cases hK with
  | cont hcenv => exact Env.All.extend hcenv hv
  | _ => exact hv

theorem Value.Enters.clean {F : Value} {fenv : Env} {fn : Lambda} (he : F.Enters fenv fn)
    (hF : F.Clean) : fenv.All Value.Clean := by
  cases he with
  | function =>
    cases hF with
    | function henv => exact henv
  | member =>
    cases hF with
    | member henv => exact Env.All.withGroup henv fun _ => .member henv

/-- Every move from an environment of clean values leads to another, or ends with a clean
value. -/
theorem Term.Moves.clean {t : Term} {c : Control} (hmove : t.Moves m env c)
    (henv : env.All Value.Clean) : c.Clean := by
  cases hmove with
  | halt hlook => exact henv _ _ hlook
  | letV hy => exact henv.extend (hy.clean henv)
  | letC => exact henv.extend (.cont henv)
  | letF => exact henv.withGroup fun _ => .member henv
  | appC hlook hk => exact (hk.all .halt henv).resume (henv _ _ hlook)
  | appF hlookf hentry hk hlooka =>
    exact ((hentry.clean (henv _ _ hlookf)).extend (hk.all .halt henv)).extend (henv _ _ hlooka)
  | caseV hlook _ hk =>
    cases henv _ _ hlook with
    | variant _ hp => exact (hk.all .halt henv).resume hp

end Steps

/-! ### Runs -/

theorem State.advance_clean {s : State} (hs : s.env.All Value.Clean) :
    StepWithin (fun s => s.env.All Value.Clean) Value.Clean (fun _ => True) s.advance := by
  obtain ⟨t, env, m⟩ := s
  unfold State.advance
  rcases hstep : (step t env).exec { m with steps := m.steps + 1 } with ⟨_ | c, m'⟩
  · trivial
  · have hc := (step_moves hstep).1.clean hs
    cases c with
    | next t' env' => exact hc
    | halt v => exact hc

/-- From an environment of clean values, whatever the configuration, the console and the files,
every state a run reaches binds only clean values, and a run that halts halts with a clean
value: an error value is the whole result or appears nowhere in it. -/
theorem clean_run_keeps_errors_outside (m : Machine) (t : Term) (env : Env)
    (hclean : env.All Value.Clean) :
    (∀ s, State.Reaches ⟨t, env, m⟩ s → s.env.All Value.Clean) ∧
      ∀ fuel v, (Machine.run fuel t env m).1 = .halted v → v.Clean := by
  have hstep : ∀ s : State, s.env.All Value.Clean →
      StepWithin (fun s => s.env.All Value.Clean) Value.Clean (fun _ => True) s.advance :=
    fun _ hs => State.advance_clean hs
  refine ⟨fun s hreach => reaches_within hstep hreach hclean, fun fuel v hhalt => ?_⟩
  have hwithin : (Machine.run fuel t env m).1.Within Value.Clean (fun _ => True) :=
    run_within hstep fuel ⟨t, env, m⟩ hclean
  rw [hhalt] at hwithin
  exact hwithin

theorem prelude_ints_halts_clean :
    Prelude.env.All Value.Clean ∧
      (Machine.eval {} (.halt "Ints") Prelude.env).1 = .halted Prelude.ints ∧
      Prelude.ints.Clean := by
  have hrun : (Machine.eval {} (.halt "Ints") Prelude.env).1 = .halted Prelude.ints := rfl
  exact ⟨Prelude.env_clean, hrun,
    (clean_run_keeps_errors_outside {} _ _ Prelude.env_clean).2 _ _ hrun⟩

end CpsMachine
