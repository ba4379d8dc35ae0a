import CpsMachine.Proofs.Locality

/-!
# Composites stop at their first failing operand

A record, variant or vector expression looks its operands up from left to right and stops at the
first one that is unbound or bound to an error value (`composites_stop_at_first_failure`): an
unbound operand faults the `letV`, naming that operand, and an error value is the result as it
was bound, whatever the operands after it are. When every operand is bound to a value that is not
an error, the result is the composite of those values in order: a record keeps its field names in
order, repeated names included. In every case the machine is left as it was.

Operands that pass are passed over (`gather_append_of_passes`), so gathering operands that first
fail at `n` is gathering from `n` on, and that stops at once.
-/

namespace CpsMachine

open EvalM

namespace Env

/-- `n` is bound to a value that is not an error: gathering goes on past it. -/
def Passes (env : Env) (n : String) : Prop :=
  ∃ v, env.lookup n = some v ∧ v.isError = false

/-- `vs` are the values the operands `ns` are bound to, in order, none of them an error. -/
def OperandValues (env : Env) (ns : List String) (vs : List Value) : Prop :=
  List.Forall₂ (fun n v => env.lookup n = some v ∧ v.isError = false) ns vs

end Env

/-- `x` stops at the first of the operands `ns` that fails: where the operands before `n` pass,
an unbound `n` faults naming `n`, and an `n` bound to an error value gives that value, whatever
follows `n`; either way the machine is left alone. -/
def StopsAtFirstFailure (node : Term) (env : Env) (ns : List String) (x : EvalM Value) : Prop :=
  ∀ pre n post, ns = pre ++ n :: post → (∀ p ∈ pre, env.Passes p) → ∀ m : Machine,
    (env.lookup n = none → x.exec m = (.error (.unbound node n), m)) ∧
      ∀ msg, env.lookup n = some (.error msg) → x.exec m = (.ok (.error msg), m)

section Gather

variable {node : Term} {env : Env}

theorem Operands.push_of_stopped {r : Except Fault Operands} (hr : ∀ vs, r ≠ .ok (.values vs))
    (v : Value) : Operands.push v r = r := by
  rcases r with e | vs | msg
  · rfl
  · exact absurd rfl (hr vs)
  · rfl

theorem gather_append_of_passes {pre rest : List String} (hpre : ∀ p ∈ pre, env.Passes p)
    (hrest : ∀ vs, gather node env rest ≠ .ok (.values vs)) :
    gather node env (pre ++ rest) = gather node env rest := by
  induction pre with
  | nil => rfl
  | cons p pre ih =>
    rw [List.forall_mem_cons] at hpre
    obtain ⟨v, hlook, hv⟩ := hpre.1
    rw [List.cons_append, gather_cons_of_not_error hlook hv, ih hpre.2]
    exact Operands.push_of_stopped hrest v

theorem gather_first_unbound {pre post : List String} {n : String}
    (hpre : ∀ p ∈ pre, env.Passes p) (hn : env.lookup n = none) :
    gather node env (pre ++ n :: post) = .error (.unbound node n) := by
  have hstop : gather node env (n :: post) = .error (.unbound node n) := by
    simp only [gather, hn]
  rw [gather_append_of_passes hpre (by simp [hstop]), hstop]

theorem gather_first_error {pre post : List String} {n msg : String}
    (hpre : ∀ p ∈ pre, env.Passes p) (hn : env.lookup n = some (.error msg)) :
    gather node env (pre ++ n :: post) = .ok (.stopped msg) := by
  have hstop : gather node env (n :: post) = .ok (.stopped msg) := by
    simp only [gather, hn]
  rw [gather_append_of_passes hpre (by simp [hstop]), hstop]

theorem gather_eq_values_iff {ns : List String} {vs : List Value} :
    gather node env ns = .ok (.values vs) ↔ env.OperandValues ns vs := by
  refine ⟨gather_values, fun h => ?_⟩
  induction h with
  | nil => rfl
  | cons hv _ ih =>
    rw [gather_cons_of_not_error hv.1 hv.2, ih]
    rfl

end Gather

/-! ### The three composites -/

section Composites

variable {node : Term} {env : Env}

/-- A value built from gathered operands stops where the gathering does. -/
theorem build_stops_at_first_failure {ns : List String} (build : List Value → Value) :
    StopsAtFirstFailure node env ns
      (match gather node env ns with
        | .ok (.values vs) => pure (build vs)
        | .ok (.stopped msg) => pure (.error msg)
        | .error e => throw e) := by
  rintro pre n post rfl hpre m
  constructor
  · intro hn
    rw [gather_first_unbound hpre hn]
    rfl
  · intro msg hn
    rw [gather_first_error hpre hn]
    rfl

theorem build_exec_of_values {ns : List String} {vs : List Value} (build : List Value → Value)
    (h : env.OperandValues ns vs) (m : Machine) :
    (match gather node env ns with
      | .ok (.values vs) => pure (build vs)
      | .ok (.stopped msg) => pure (.error msg)
      | .error e => throw e : EvalM Value).exec m = (.ok (build vs), m) := by
  rw [gather_eq_values_iff.2 h]
  rfl

theorem evalExpr_record_stops (fields : List (String × String)) :
    StopsAtFirstFailure node env (fields.map Prod.snd) (evalExpr node env (.record fields)) :=
  build_stops_at_first_failure _

theorem evalExpr_vector_stops (items : List String) :
    StopsAtFirstFailure node env items (evalExpr node env (.vector items)) :=
  build_stops_at_first_failure _

theorem evalExpr_variant_stops (tag arg : String) :
    StopsAtFirstFailure node env [arg] (evalExpr node env (.variant tag arg)) := by
  intro pre n post hns _ m
  obtain ⟨rfl, rfl⟩ : n = arg ∧ post = [] := by
    cases pre with
    | nil => simpa using hns.symm
    | cons p pre => simp at hns
  constructor
  · intro hn
    simp only [evalExpr]
    rw [exec_bind, fetch_exec, hn]
  · intro msg hn
    simp only [evalExpr]
    rw [exec_bind, fetch_exec, hn]
    rfl

theorem evalExpr_record_exec {fields : List (String × String)} {vs : List Value}
    (h : env.OperandValues (fields.map Prod.snd) vs) (m : Machine) :
    (evalExpr node env (.record fields)).exec m =
      (.ok (.record ((fields.map Prod.fst).zip vs)), m) :=
  build_exec_of_values _ h m

theorem evalExpr_vector_exec {items : List String} {vs : List Value}
    (h : env.OperandValues items vs) (m : Machine) :
    (evalExpr node env (.vector items)).exec m = (.ok (.vector vs), m) :=
  build_exec_of_values _ h m

theorem evalExpr_variant_exec {tag arg : String} {v : Value} (hlook : env.lookup arg = some v)
    (hv : v.isError = false) (m : Machine) :
    (evalExpr node env (.variant tag arg)).exec m = (.ok (.variant tag v), m) := by
  simp only [evalExpr]
  rw [exec_bind, fetch_exec, hlook]
  cases v with
  | error msg => cases hv
  | _ => rfl

end Composites

/-- Record, variant and vector expressions look their operands up from left to right and stop at
the first that is unbound, faulting with its name, or bound to an error value, which is then the
result; the operands after it are never read. When all operands are bound to values that are not
errors, the result is the composite of those values in order, a record keeping its field names in
order, repeated names included. The machine is left as it was. -/
theorem composites_stop_at_first_failure (node : Term) (env : Env) :
    (∀ fields : List (String × String),
      StopsAtFirstFailure node env (fields.map Prod.snd) (evalExpr node env (.record fields)) ∧
        ∀ vs m, env.OperandValues (fields.map Prod.snd) vs →
          (evalExpr node env (.record fields)).exec m =
            (.ok (.record ((fields.map Prod.fst).zip vs)), m)) ∧
    (∀ tag arg : String,
      StopsAtFirstFailure node env [arg] (evalExpr node env (.variant tag arg)) ∧
        ∀ v m, env.lookup arg = some v → v.isError = false →
          (evalExpr node env (.variant tag arg)).exec m = (.ok (.variant tag v), m)) ∧
    (∀ items : List String,
      StopsAtFirstFailure node env items (evalExpr node env (.vector items)) ∧
        ∀ vs m, env.OperandValues items vs →
          (evalExpr node env (.vector items)).exec m = (.ok (.vector vs), m)) :=
  ⟨fun fields => ⟨evalExpr_record_stops fields, fun _ m h => evalExpr_record_exec h m⟩,
    fun tag arg =>
      ⟨evalExpr_variant_stops tag arg, fun _ m hlook hv => evalExpr_variant_exec hlook hv m⟩,
    fun items => ⟨evalExpr_vector_stops items, fun _ m h => evalExpr_vector_exec h m⟩⟩

theorem record_stops_before_unbound_operand :
    (∀ p ∈ ["a"], ((Env.empty.extend "a" (.int 1)).extend "boom" (.error "boom")).Passes p) ∧
      ((Env.empty.extend "a" (.int 1)).extend "boom" (.error "boom")).lookup "boom" =
        some (.error "boom") ∧
      ((Env.empty.extend "a" (.int 1)).extend "boom" (.error "boom")).lookup "other" = none ∧
      (evalExpr (.letV "r" (.record [("a", "a"), ("b", "boom"), ("c", "other")]) (.halt "r"))
          ((Env.empty.extend "a" (.int 1)).extend "boom" (.error "boom"))
          (.record [("a", "a"), ("b", "boom"), ("c", "other")])).exec {} =
        (.ok (.error "boom"), {}) := by
  have hpass :
      ∀ p ∈ ["a"], ((Env.empty.extend "a" (.int 1)).extend "boom" (.error "boom")).Passes p := by
    intro p hp
    rw [List.mem_singleton.1 hp]
    exact ⟨.int 1, rfl, rfl⟩
  have hstops := ((composites_stop_at_first_failure
    (.letV "r" (.record [("a", "a"), ("b", "boom"), ("c", "other")]) (.halt "r"))
    ((Env.empty.extend "a" (.int 1)).extend "boom" (.error "boom"))).1
    [("a", "a"), ("b", "boom"), ("c", "other")]).1 ["a"] "boom" ["other"] rfl hpass {}
  exact ⟨hpass, rfl, rfl, hstops.2 "boom" rfl⟩

end CpsMachine
