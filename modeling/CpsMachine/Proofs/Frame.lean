import CpsMachine.Proofs.Exec

/-!
# What a computation leaves alone

A `Frame` is a relation between the machine before and after a computation that every machine
bears to itself, that composes, and that taking a fresh identity or counting a step keeps.
`EvalM.Keeps F x` says that run on any machine, `x` leaves one that `F` relates to it.

Only primitives touch the console and the files: the rest of a step fetches names, takes fresh
identities and reads the configuration. So a step keeps every frame that the primitive it may
invoke keeps (`step_keeps`), and every primitive but `read` and `write` keeps every frame
(`invoke_keeps`). The two that do touch the console and the files are computed exactly
(`read_exec`, `write_exec_text`).
-/

namespace CpsMachine

/-- A relation between the machine before and after a computation that fresh identities and
step counts keep. -/
structure Frame where
  rel : Machine → Machine → Prop
  refl : ∀ m, rel m m
  trans : ∀ {m1 m2 m3}, rel m1 m2 → rel m2 m3 → rel m1 m3
  fresh : ∀ m, rel m { m with nextId := m.nextId + 1 }
  tick : ∀ m, rel m { m with steps := m.steps + 1 }

namespace EvalM

variable {α β : Type}

/-- Run on any machine, `x` leaves a machine that `F` relates to it. -/
def Keeps (F : Frame) (x : EvalM α) : Prop :=
  ∀ m, F.rel m (x.exec m).2

variable {F : Frame}

theorem keeps_pure (a : α) : (pure a : EvalM α).Keeps F :=
  fun m => F.refl m

theorem keeps_throw (e : Fault) : (throw e : EvalM α).Keeps F :=
  fun m => F.refl m

theorem keeps_get : (get : EvalM Machine).Keeps F :=
  fun m => F.refl m

theorem Keeps.bind {x : EvalM α} {f : α → EvalM β} (hx : x.Keeps F) (hf : ∀ a, (f a).Keeps F) :
    (x >>= f).Keeps F := by
  intro m
  rw [exec_bind]
  have hxm := hx m
  rcases hexec : x.exec m with ⟨_ | a, m1⟩ <;> rw [hexec] at hxm
  · exact hxm
  · exact F.trans hxm (hf a m1)

end EvalM

open EvalM

section Keeps

variable {F : Frame} {node : Term} {env : Env}

theorem fetch_keeps (name : String) : (fetch node env name).Keeps F := by
  intro m
  rw [fetch_exec]
  exact F.refl m

theorem freshId_keeps : freshId.Keeps F := by
  intro m
  rw [freshId_exec]
  exact F.fresh m

theorem contValue_keeps (k : ContRef) : (contValue node env k).Keeps F := by
  cases k with
  | halt => exact keeps_pure _
  | named name =>
    refine keeps_get.bind fun m => ?_
    split
    · exact keeps_pure _
    · refine (fetch_keeps name).bind fun v => ?_
      split
      · exact keeps_pure _
      · exact keeps_pure _
      · exact keeps_throw _

theorem callee_keeps (func : String) (F' : Value) : (callee node func F').Keeps F := by
  cases F' with
  | member g i =>
    simp only [callee]
    split
    · exact keeps_pure _
    · exact keeps_throw _
  | _ => first | exact keeps_pure _ | exact keeps_throw _

/-! ### Primitives -/

theorem select_keeps (r f : String) : (Invoke.select node env r f).Keeps F := by
  refine (fetch_keeps r).bind fun v => ?_
  split
  · split
    · exact keeps_pure _
    · exact keeps_throw _
  · exact keeps_pure _
  · exact keeps_throw _

theorem concat_keeps (l r : String) : (Invoke.concat node env l r).Keeps F := by
  refine (fetch_keeps l).bind fun a => (fetch_keeps r).bind fun b => ?_
  split
  all_goals first | exact keeps_pure _ | exact keeps_throw _

theorem operation_keeps (p : Primitive) : (Invoke.operation p).Keeps F :=
  freshId_keeps.bind fun _ => keeps_pure _

theorem field_keeps (offered : Bool) (name : String) (op : Primitive) :
    (Invoke.field offered name op).Keeps F := by
  unfold Invoke.field
  split
  · exact (operation_keeps _).bind fun _ => keeps_pure _
  · exact keeps_pure _

theorem acquire_keeps (kind : Capability) (r : String) :
    (Invoke.acquire node env kind r).Keeps F := by
  refine (fetch_keeps r).bind fun v => ?_
  split
  · refine keeps_get.bind fun m => ?_
    dsimp only
    split
    · exact keeps_pure _
    · split
      · exact keeps_pure _
      · -- the record takes a fresh closure for each operation the kind offers
        refine ((field_keeps _ _ _).bind fun _ => (field_keeps _ _ _).bind fun _ => ?_).bind
          fun _ => keeps_pure _
        exact keeps_pure _
  · exact keeps_pure _
  · exact keeps_throw _

theorem argument_keeps (i : Nat) : (Invoke.argument i).Keeps F := by
  refine keeps_get.bind fun m => ?_
  dsimp only
  split
  · exact keeps_pure _
  · exact keeps_pure _

theorem integer_keeps (op : IntOp) (a b : String) : (Invoke.integer node env op a b).Keeps F := by
  rw [Invoke.integer_eq]
  refine (fetch_keeps a).bind fun va => ?_
  split
  · refine (fetch_keeps b).bind fun vb => ?_
    split
    · exact keeps_pure _
    · exact keeps_pure _
    · exact keeps_throw _
  · exact keeps_pure _
  · exact keeps_throw _

theorem equal_keeps (a b : String) : (Invoke.equal node env a b).Keeps F :=
  (fetch_keeps a).bind fun _ => (fetch_keeps b).bind fun _ => keeps_pure _

theorem invoke_keeps {p : Primitive} {args : List String}
    (hread : ∀ r a, p = .read r → args = [a] → (Invoke.read node r).Keeps F)
    (hwrite : ∀ r a, p = .write r → args = [a] → (Invoke.write node env r a).Keeps F) :
    (invoke node env p args).Keeps F := by
  rw [invoke_eq]
  split
  · exact select_keeps _ _
  · exact concat_keeps _ _
  · exact acquire_keeps _ _
  · exact hread _ _ rfl rfl
  · exact hwrite _ _ rfl rfl
  · exact argument_keeps _
  · exact integer_keeps _ _ _
  · exact equal_keeps _ _
  · exact keeps_throw _

/-! ### Reads and writes -/

/-- The text a write puts out for a value: an integer in decimal, a string as it is. -/
def Value.text? : Value → Option String
  | .int n => some (toString n)
  | .str s => some s
  | _ => none

/-- A read of the console takes all of its remaining input; a read of a file gives its text. -/
theorem read_exec (res : String) (m : Machine) :
    (Invoke.read node res).exec m =
      if res = m.config.console then
        (.ok (.str m.console.input), { m with console := { m.console with input := "" } })
      else
        match m.files.readText res with
        | .ok text => (.ok (.str text), m)
        | .error e => (.error (.io node res e), m) := by
  unfold Invoke.read
  rw [exec_get_bind]
  by_cases hc : res = m.config.console
  · simp only [hc, beq_self_eq_true, if_true, Console.read, exec_bind, exec_set, exec_pure]
  · simp only [hc, if_false, beq_iff_eq]
    -- the file's text, or an I/O fault, with the machine as it was
    cases m.files.readText res with
    | ok text => rfl
    | error e => rfl

/-- A write of an integer or a string goes to the console's output, or is appended to the
file the resource names; a file that cannot take it faults with the machine as it was. -/
theorem write_exec_text {res a : String} {v : Value} {text : String}
    (hlook : env.lookup a = some v) (htext : v.text? = some text) (m : Machine) :
    (Invoke.write node env res a).exec m =
      if res = m.config.console then (.ok Value.unit, { m with console := m.console.write text })
      else
        match m.files.append res text.toUTF8.toList with
        | .ok files => (.ok Value.unit, { m with files })
        | .error e => (.error (.io node res e), m) := by
  unfold Invoke.write
  rw [exec_bind, fetch_exec, hlook]
  -- an integer and a string differ only in the text written
  cases v <;> simp only [Value.text?, reduceCtorEq, Option.some.injEq] at htext <;>
  · dsimp only
    rw [exec_bind, exec_pure]
    dsimp only
    rw [exec_get_bind, htext]
    by_cases hc : res = m.config.console
    · simp only [hc, beq_self_eq_true, if_true, exec_bind, exec_set, exec_pure]
    · simp only [hc, if_false, beq_iff_eq]
      -- the file takes the text, or the write faults with the machine as it was
      cases m.files.append res text.toUTF8.toList with
      | ok files => rfl
      | error e => rfl

theorem write_exec_unbound {res a : String} (hlook : env.lookup a = none) (m : Machine) :
    (Invoke.write node env res a).exec m = (.error (.unbound node a), m) := by
  unfold Invoke.write
  rw [exec_bind, fetch_exec, hlook]

theorem write_exec_untext {res a : String} {v : Value} (hlook : env.lookup a = some v)
    (htext : v.text? = none) (m : Machine) :
    (Invoke.write node env res a).exec m =
      (.error (.primitive node (.write res) (.notWritable v)), m) := by
  unfold Invoke.write
  rw [exec_bind, fetch_exec, hlook]
  cases v <;> simp only [Value.text?, reduceCtorEq] at htext <;> rfl

/-! ### Steps -/

theorem evalExpr_keeps {e : ValueExpr}
    (hprim : ∀ p args, e = .prim p args → (invoke node env p args).Keeps F) :
    (evalExpr node env e).Keeps F := by
  cases e with
  | int n => exact keeps_pure _
  | str s => exact keeps_pure _
  | record fields =>
    simp only [evalExpr]
    split
    · exact keeps_pure _
    · exact keeps_pure _
    · exact keeps_throw _
  | variant tag a =>
    refine (fetch_keeps a).bind fun v => ?_
    split
    · exact keeps_pure _
    · exact keeps_pure _
  | vector items =>
    simp only [evalExpr]
    split
    · exact keeps_pure _
    · exact keeps_pure _
    · exact keeps_throw _
  | function fn => exact freshId_keeps.bind fun _ => keeps_pure _
  | prim p args => exact hprim p args rfl

/-- A step keeps every frame that the primitive its node may invoke keeps. -/
theorem step_keeps {t : Term}
    (hprim : ∀ y p args b, t = .letV y (.prim p args) b → (invoke t env p args).Keeps F) :
    (step t env).Keeps F := by
  cases t with
  | halt a => exact (fetch_keeps a).bind fun _ => keeps_pure _
  | letV y e b =>
    refine (evalExpr_keeps fun p args he => ?_).bind fun _ => keeps_pure _
    exact hprim y p args b (by rw [he])
  | letC x p cb b => exact freshId_keeps.bind fun _ => keeps_pure _
  | letF defs b => exact freshId_keeps.bind fun _ => keeps_pure _
  | appC k a =>
    exact (fetch_keeps a).bind fun _ => (contValue_keeps k).bind fun _ => keeps_pure _
  | appF f k a =>
    refine (fetch_keeps f).bind fun F' => (callee_keeps f F').bind fun c => ?_
    exact (contValue_keeps k).bind fun _ => (fetch_keeps a).bind fun _ => keeps_pure _
  | caseV s cases =>
    refine (fetch_keeps s).bind fun v => ?_
    split
    · split
      · exact (contValue_keeps _).bind fun _ => keeps_pure _
      · exact keeps_throw _
    · exact keeps_throw _

theorem State.advance_keeps {s : State}
    (hprim : ∀ y p args b, s.term = .letV y (.prim p args) b →
      (invoke s.term s.env p args).Keeps F) :
    F.rel s.machine s.advance.2 :=
  F.trans (F.tick s.machine) (step_keeps hprim _)

end Keeps

end CpsMachine
