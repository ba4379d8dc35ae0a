import CpsMachine.Proofs.Moves
import CpsMachine.Proofs.Related

/-!
# A run reads only the bindings its term reads

`run_ignores_unread_bindings`: two runs of one term on one machine, in environments that bind
every name the term reads alike, agree step for step. After any number of steps both are still
running, or both halted with values that display alike, or both failed with faults of one kind
and one message; and they leave the same machine, so they took the same steps and wrote the same
console and files.

The two runs make values that differ only where no closure reads (`Value.Sim`), and the two
computations of each step are related by `EvalM.Rel`: run on one machine, both return related
values or agreeing faults, and leave one machine. The relation is built up the way the machine
computes: a fetch of a name in scope (`fetch_rel`), each primitive, each value expression, a
continuation, a callee and last a step (`step_agree`). A computation that reads no environment is
related to itself (`EvalM.Rel.refl`). The halt name is read from the machine, so the lemmas
about continuations hold on machines with the halt name the scopes are read against.
-/

namespace CpsMachine

/-- Which rule of the machine a fault breaks. -/
inductive Fault.Kind where
  | unbound
  | notAClosure
  | notAVariant
  | noMatchingCase
  | arity
  | primitive
  | io
  | panic
  deriving DecidableEq, Repr

def Fault.kind : Fault → Fault.Kind
  | .unbound .. => .unbound
  | .notAClosure .. => .notAClosure
  | .notAVariant .. => .notAVariant
  | .noMatchingCase .. => .noMatchingCase
  | .arity .. => .arity
  | .primitive .. => .primitive
  | .io .. => .io
  | .panic .. => .panic

/-- Two faults of one kind with one message. -/
def Fault.Agree (e e' : Fault) : Prop :=
  e.kind = e'.kind ∧ e.message = e'.message

/-- Two outcomes an observer cannot tell apart: both runs still going, both halted with values
that display alike, or both failed with faults of one kind and one message. -/
def Outcome.Agree : Outcome → Outcome → Prop
  | .exhausted, .exhausted => True
  | .halted v, .halted w => v.display = w.display
  | .failed e, .failed e' => e.Agree e'
  | _, _ => False

/-! ### Related computations -/

/-- Results of two computations: related values or agreeing faults, on one machine. -/
def Agree {α β : Type} (R : α → β → Prop) : Except Fault α × Machine → Except Fault β × Machine →
    Prop
  | (.ok a, m), (.ok b, m') => R a b ∧ m = m'
  | (.error e, m), (.error e', m') => e.Agree e' ∧ m = m'
  | _, _ => False

theorem Fault.agree_refl (e : Fault) : e.Agree e :=
  ⟨rfl, rfl⟩

theorem agree_bind {α β γ δ : Type} {R : α → β → Prop} {S : γ → δ → Prop} {x : EvalM α}
    {y : EvalM β} {f : α → EvalM γ} {g : β → EvalM δ} {m : Machine}
    (hxy : Agree R (x.exec m) (y.exec m))
    (hfg : ∀ a b m1, R a b → x.exec m = (.ok a, m1) → Agree S ((f a).exec m1) ((g b).exec m1)) :
    Agree S ((x >>= f).exec m) ((y >>= g).exec m) := by
  rw [EvalM.exec_bind, EvalM.exec_bind]
  revert hxy hfg
  rcases x.exec m with ⟨_ | a, m1⟩ <;> rcases y.exec m with ⟨_ | b, m2⟩
  all_goals intro hxy hfg
  · exact hxy
  · exact hxy.elim
  · exact hxy.elim
  · obtain ⟨hab, rfl⟩ := hxy
    exact hfg a b m1 hab rfl

namespace EvalM

variable {α β γ δ : Type} {R : α → β → Prop} {S : γ → δ → Prop}

/-- Run on any one machine, the two computations agree. -/
def Rel (R : α → β → Prop) (x : EvalM α) (y : EvalM β) : Prop :=
  ∀ m, Agree R (x.exec m) (y.exec m)

theorem Rel.pure {a : α} {b : β} (h : R a b) : Rel R (pure a) (pure b) :=
  fun _ => ⟨h, rfl⟩

theorem Rel.throw {e e' : Fault} (h : e.Agree e') : Rel R (throw e : EvalM α) (throw e') :=
  fun _ => ⟨h, rfl⟩

theorem Rel.refl {R : α → α → Prop} (hR : ∀ a, R a a) (x : EvalM α) : Rel R x x := by
  intro m
  rcases x.exec m with ⟨_ | a, m'⟩
  · exact ⟨Fault.agree_refl _, rfl⟩
  · exact ⟨hR a, rfl⟩

/-- Related first parts followed by parts related on related results. -/
theorem Rel.bind {x : EvalM α} {y : EvalM β} {f : α → EvalM γ} {g : β → EvalM δ}
    (hxy : Rel R x y) (hfg : ∀ a b, R a b → Rel S (f a) (g b)) : Rel S (x >>= f) (y >>= g) :=
  fun m => agree_bind (hxy m) fun a b m1 hab _ => hfg a b hab m1

theorem Rel.throw_bind {e e' : Fault} {f : α → EvalM γ} {g : β → EvalM δ} (h : e.Agree e') :
    Rel S (MonadExcept.throw e >>= f) (MonadExcept.throw e' >>= g) :=
  Rel.bind (R := fun _ _ => False) (Rel.throw h) fun _ _ hfalse => hfalse.elim

end EvalM

open EvalM

/-! ### Faults that read related values -/

section Faults

variable {h : String}

theorem Fault.agree_of_detail {e e' : Fault} (hkind : e.kind = e'.kind) (hnode : e.node = e'.node)
    (hdetail : e.detail = e'.detail) : e.Agree e' :=
  ⟨hkind, by rw [Fault.message, Fault.message, hnode, hdetail]⟩

-- The texts are compared through `congrArg` on the found value's display: rewriting with the
-- equations of `Fault.detail` or `PrimitiveFault.message` makes Lean build them first, which
-- runs out of heartbeats.
theorem Value.Sim.notAClosure_agree {v w : Value} (hvw : Value.Sim h v w) (node : Term)
    (name : String) : (Fault.notAClosure node name v).Agree (.notAClosure node name w) :=
  Fault.agree_of_detail rfl rfl
    (congrArg (fun d => name ++ " is " ++ d ++ ", expected a closure") hvw.display_eq)

theorem Value.Sim.notAVariant_agree {v w : Value} (hvw : Value.Sim h v w) (node : Term)
    (name : String) : (Fault.notAVariant node name v).Agree (.notAVariant node name w) :=
  Fault.agree_of_detail rfl rfl
    (congrArg (fun d => name ++ " is " ++ d ++ ", expected a variant") hvw.display_eq)

/-- Reasons for refusing operands that name related values. -/
inductive PrimitiveFault.Sim (h : String) : PrimitiveFault → PrimitiveFault → Prop
  | missingField {field fs gs} : Value.FieldsSim h fs gs →
      PrimitiveFault.Sim h (.missingField field fs) (.missingField field gs)
  | selectFromNonRecord {operand field v w} : Value.Sim h v w →
      PrimitiveFault.Sim h (.selectFromNonRecord operand field v)
        (.selectFromNonRecord operand field w)
  | concatLeft {operand v w} : Value.Sim h v w →
      PrimitiveFault.Sim h (.concatLeft operand v) (.concatLeft operand w)
  | concatRight {operand v w} : Value.Sim h v w →
      PrimitiveFault.Sim h (.concatRight operand v) (.concatRight operand w)
  | notAResourceName {operand v w} : Value.Sim h v w →
      PrimitiveFault.Sim h (.notAResourceName operand v) (.notAResourceName operand w)
  | notAnInteger {operand v w} : Value.Sim h v w →
      PrimitiveFault.Sim h (.notAnInteger operand v) (.notAnInteger operand w)
  | notWritable {v w} : Value.Sim h v w → PrimitiveFault.Sim h (.notWritable v) (.notWritable w)

theorem PrimitiveFault.Sim.message_eq {r r' : PrimitiveFault} (hr : PrimitiveFault.Sim h r r') :
    r.message = r'.message := by
  cases hr with
  | @missingField field _ _ hfs =>
    exact congrArg (fun d => "can't find field " ++ field ++ " in " ++ d)
      (Value.Sim.record hfs).display_eq
  | @selectFromNonRecord operand field _ _ hvw =>
    exact congrArg (fun d => operand ++ " is " ++ d ++ ", looking for field " ++ field)
      hvw.display_eq
  | @concatLeft operand _ _ hvw =>
    exact congrArg (fun d => "left argument " ++ operand ++ " of & is non-record " ++ d)
      hvw.display_eq
  | @concatRight operand _ _ hvw =>
    exact congrArg (fun d => "right argument " ++ operand ++ " of & is non-record " ++ d)
      hvw.display_eq
  | @notAResourceName operand _ _ hvw =>
    exact congrArg (fun d => operand ++ " is " ++ d ++ ", expected a resource name")
      hvw.display_eq
  | @notAnInteger operand _ _ hvw =>
    exact congrArg (fun d => operand ++ " is " ++ d ++ ", expected an integer") hvw.display_eq
  | notWritable hvw => exact congrArg (fun d => "can't write " ++ d) hvw.display_eq

theorem PrimitiveFault.Sim.agree {r r' : PrimitiveFault} (hr : PrimitiveFault.Sim h r r')
    (node : Term) (op : Primitive) : (Fault.primitive node op r).Agree (.primitive node op r') :=
  Fault.agree_of_detail rfl rfl (congrArg (fun d => op.name ++ ": " ++ d) hr.message_eq)

end Faults

/-! ### Looking up names in scope -/

section Lookup

variable {h : String} {G : List String} {env env' : Env}

theorem fetch_rel (hE : env.SimOn h G env') {n : String} (hn : n ∈ G) (node : Term) :
    Rel (Value.Sim h) (fetch node env n) (fetch node env' n) := by
  intro m
  rw [fetch_exec, fetch_exec]
  rcases hE.lookup hn with ⟨h1, h2⟩ | ⟨v, w, h1, h2, hvw⟩
  · rw [h1, h2]
    exact ⟨Fault.agree_refl _, rfl⟩
  · rw [h1, h2]
    exact ⟨hvw, rfl⟩

theorem fetch_bind_agree {γ δ : Type} {S : γ → δ → Prop} (hE : env.SimOn h G env') {n : String}
    (hn : n ∈ G) (node : Term) {f : Value → EvalM γ} {g : Value → EvalM δ} {m : Machine}
    (hfg : ∀ v w, Value.Sim h v w → Agree S ((f v).exec m) ((g w).exec m)) :
    Agree S ((fetch node env n >>= f).exec m) ((fetch node env' n >>= g).exec m) := by
  refine agree_bind (fetch_rel hE hn node m) fun v w m1 hvw hfetch => ?_
  obtain ⟨-, rfl⟩ := fetch_ok hfetch
  exact hfg v w hvw

theorem Value.Sim.isError_eq {v w : Value} (hvw : Value.Sim h v w) : v.isError = w.isError := by
  cases hvw <;> rfl

/-- Operands gathered alike: the same fault, related values, or the same error value. -/
def Gathered (h : String) : Except Fault Operands → Except Fault Operands → Prop
  | .error e, .error e' => e = e'
  | .ok (.values vs), .ok (.values ws) => Value.ItemsSim h vs ws
  | .ok (.stopped msg), .ok (.stopped msg') => msg = msg'
  | _, _ => False

/-- An operand that is not an error value, put in front of the operands gathered after it. -/
def Operands.push (v : Value) : Except Fault Operands → Except Fault Operands
  | .ok (.values vs) => .ok (.values (v :: vs))
  | r => r

theorem gather_cons_of_not_error {node : Term} {n : String} {rest : List String} {v : Value}
    (hlook : env.lookup n = some v) (hv : v.isError = false) :
    gather node env (n :: rest) = Operands.push v (gather node env rest) := by
  cases v with
  | error msg => cases hv
  | _ =>
    simp only [gather, hlook]
    rcases gather node env rest with _ | _ | _ <;> rfl

theorem Gathered.push {r r' : Except Fault Operands} (hr : Gathered h r r') {v w : Value}
    (hvw : Value.Sim h v w) : Gathered h (Operands.push v r) (Operands.push w r') := by
  rcases r with e | (vs | msg) <;> rcases r' with e' | (ws | msg')
  all_goals simp only [Gathered, Operands.push] at hr ⊢
  · exact hr
  · exact .consItems hvw hr
  · exact hr

theorem gather_rel (hE : env.SimOn h G env') (node : Term) :
    ∀ ns, (∀ n ∈ ns, n ∈ G) → Gathered h (gather node env ns) (gather node env' ns)
  | [], _ => .nilItems
  | n :: rest, hsub => by
    have ih := gather_rel hE node rest fun a ha => hsub a (List.mem_cons_of_mem n ha)
    rcases hE.lookup (hsub n List.mem_cons_self) with ⟨h1, h2⟩ | ⟨v, w, h1, h2, hvw⟩
    · simp only [gather, h1, h2, Gathered]
    · cases hv : v.isError
      · have hw : w.isError = false := hvw.isError_eq ▸ hv
        rw [gather_cons_of_not_error h1 hv, gather_cons_of_not_error h2 hw]
        exact ih.push hvw
      · -- an error value stops both gatherings, with the same message
        cases hvw with
        | error => simp only [gather, h1, h2, Gathered]
        | _ => cases hv

theorem Gathered.build_rel {r r' : Except Fault Operands} (build : List Value → Value)
    (hbuild : ∀ vs ws, Value.ItemsSim h vs ws → Value.Sim h (build vs) (build ws)) :
    Gathered h r r' → Rel (Value.Sim h)
      (match r with
        | .ok (.values vs) => pure (build vs)
        | .ok (.stopped msg) => pure (.error msg)
        | .error e => throw e)
      (match r' with
        | .ok (.values vs) => pure (build vs)
        | .ok (.stopped msg) => pure (.error msg)
        | .error e => throw e) := by
  intro hg
  rcases r with e1 | (vs | msg) <;> rcases r' with e2 | (ws | msg')
  all_goals simp only [Gathered] at hg
  · subst hg
    exact Rel.throw (Fault.agree_refl _)
  · exact Rel.pure (hbuild vs ws hg)
  · subst hg
    exact Rel.pure .error

theorem Value.ItemsSim.zip : (names : List String) → {vs ws : List Value} →
    Value.ItemsSim h vs ws → Value.FieldsSim h (names.zip vs) (names.zip ws)
  | [], _, _, _ => .nil
  | n :: names, _, _, hvs => by
    cases hvs with
    | nilItems => exact .nil
    | consItems hvw hrest => exact .cons hvw (Value.ItemsSim.zip names hrest)

end Lookup

/-! ### Primitives -/

section Primitives

variable {h : String} {G : List String} {env env' : Env}

theorem select_rel (hE : env.SimOn h G env') {r f : String} (hr : r ∈ G) (node : Term) :
    Rel (Value.Sim h) (Invoke.select node env r f) (Invoke.select node env' r f) := by
  refine Rel.bind (fetch_rel hE hr node) fun w w' hww' => ?_
  have hsim := hww'
  cases hww' with
  | record hfs =>
    rcases hfs.lookup f with ⟨h1, h2⟩ | ⟨v, v', h1, h2, hvv'⟩
    · simp only [h1, h2]
      exact Rel.throw ((PrimitiveFault.Sim.missingField hfs).agree node .select)
    · simp only [h1, h2]
      exact Rel.pure hvv'
  | error => exact Rel.pure .error
  | _ => exact Rel.throw ((PrimitiveFault.Sim.selectFromNonRecord hsim).agree node .select)

theorem concat_rel (hE : env.SimOn h G env') {l r : String} (hl : l ∈ G) (hr : r ∈ G)
    (node : Term) : Rel (Value.Sim h) (Invoke.concat node env l r) (Invoke.concat node env' l r) := by
  refine Rel.bind (fetch_rel hE hl node) fun a a' haa' =>
    Rel.bind (fetch_rel hE hr node) fun b b' hbb' => ?_
  have hsa := haa'
  have hsb := hbb'
  -- an error on the left wins, then one on the right, then a non-record on the right
  cases haa' with
  | record ha =>
    cases hbb' with
    | record hb => exact Rel.pure (.record (ha.append hb))
    | error => exact Rel.pure .error
    | _ => exact Rel.throw ((PrimitiveFault.Sim.concatRight hsb).agree node .concat)
  | error => exact Rel.pure .error
  | _ =>
    cases hbb' with
    | error => exact Rel.pure .error
    | _ => exact Rel.throw ((PrimitiveFault.Sim.concatLeft hsa).agree node .concat)

theorem acquire_rel (hE : env.SimOn h G env') {kind : Capability} {r : String} (hr : r ∈ G)
    (node : Term) :
    Rel (Value.Sim h) (Invoke.acquire node env kind r) (Invoke.acquire node env' kind r) := by
  refine Rel.bind (fetch_rel hE hr node) fun w w' hww' => ?_
  have hsim := hww'
  cases hww' with
  | str => exact Rel.refl (Value.sim_refl h) _
  | error => exact Rel.pure .error
  | _ => exact Rel.throw ((PrimitiveFault.Sim.notAResourceName hsim).agree node _)

theorem write_rel (hE : env.SimOn h G env') {res a : String} (ha : a ∈ G) (node : Term) :
    Rel (Value.Sim h) (Invoke.write node env res a) (Invoke.write node env' res a) := by
  refine Rel.bind (fetch_rel hE ha node) fun w w' hww' => ?_
  have hsim := hww'
  -- an integer or a string is written the same way on both sides
  cases hww' with
  | int => exact Rel.refl (Value.sim_refl h) _
  | str => exact Rel.refl (Value.sim_refl h) _
  | _ => exact Rel.throw_bind ((PrimitiveFault.Sim.notWritable hsim).agree node _)

theorem integer_rel (hE : env.SimOn h G env') {op : IntOp} {a b : String} (ha : a ∈ G)
    (hb : b ∈ G) (node : Term) :
    Rel (Value.Sim h) (Invoke.integer node env op a b) (Invoke.integer node env' op a b) := by
  refine Rel.bind (fetch_rel hE ha node) fun x x' hxx' => ?_
  have hsx := hxx'
  cases hxx' with
  | int =>
    refine Rel.bind (fetch_rel hE hb node) fun y y' hyy' => ?_
    have hsy := hyy'
    cases hyy' with
    | int => exact Rel.refl (Value.sim_refl h) _
    | error => exact Rel.pure .error
    | _ => exact Rel.throw ((PrimitiveFault.Sim.notAnInteger hsy).agree node _)
  | error => exact Rel.pure .error
  | _ => exact Rel.throw ((PrimitiveFault.Sim.notAnInteger hsx).agree node _)

theorem equal_rel (hE : env.SimOn h G env') {a b : String} (ha : a ∈ G) (hb : b ∈ G)
    (node : Term) : Rel (Value.Sim h) (Invoke.equal node env a b) (Invoke.equal node env' a b) := by
  refine Rel.bind (fetch_rel hE ha node) fun x x' hxx' =>
    Rel.bind (fetch_rel hE hb node) fun y y' hyy' => Rel.pure ?_
  rw [hxx'.equal_eq y y' hyy']
  exact Value.sim_refl h _

theorem invoke_rel (hE : env.SimOn h G env') {p : Primitive} {args : List String}
    (hargs : ∀ a ∈ p.operands args, a ∈ G) (node : Term) :
    Rel (Value.Sim h) (invoke node env p args) (invoke node env' p args) := by
  rw [invoke_eq, invoke_eq]
  split
  · exact select_rel hE (hargs _ (by simp [Primitive.operands])) node
  · exact concat_rel hE (hargs _ (by simp [Primitive.operands]))
      (hargs _ (by simp [Primitive.operands])) node
  · exact acquire_rel hE (hargs _ (by simp [Primitive.operands])) node
  · exact Rel.refl (Value.sim_refl h) _
  · exact write_rel hE (hargs _ (by simp [Primitive.operands])) node
  · exact Rel.refl (Value.sim_refl h) _
  · exact integer_rel hE (hargs _ (by simp [Primitive.operands]))
      (hargs _ (by simp [Primitive.operands])) node
  · exact equal_rel hE (hargs _ (by simp [Primitive.operands]))
      (hargs _ (by simp [Primitive.operands])) node
  · exact Rel.throw (Fault.agree_refl _)

end Primitives

/-! ### Value expressions, continuations and steps -/

section Steps

variable {h : String} {G : List String} {env env' : Env}

theorem evalExpr_rel (hE : env.SimOn h G env') {e : ValueExpr} (he : e.Closed h G) (node : Term) :
    Rel (Value.Sim h) (evalExpr node env e) (evalExpr node env' e) := by
  have hops := he.operands
  cases e with
  | int n => exact Rel.pure .int
  | str s => exact Rel.pure .str
  | record fields =>
    exact Gathered.build_rel (fun vs => .record ((fields.map Prod.fst).zip vs))
      (fun _ _ hvs => .record (hvs.zip _)) (gather_rel hE node (fields.map Prod.snd) hops)
  | variant tag a =>
    refine Rel.bind (fetch_rel hE (hops a (List.mem_singleton_self a)) node) fun w w' hww' => ?_
    have hsim := hww'
    cases hww' with
    | error => exact Rel.pure .error
    | _ => exact Rel.pure (.variant hsim)
  | vector items =>
    exact Gathered.build_rel Value.vector (fun _ _ hvs => .vector hvs) (gather_rel hE node items hops)
  | function fn =>
    cases he with
    | function hfn =>
      -- both closures get the same identity and capture related environments
      refine Rel.bind (Rel.refl (fun _ => rfl) freshId) fun id id' hid => ?_
      subst hid
      exact Rel.pure (.function hfn hE.1 hE.2)
  | prim p args =>
    cases he with
    | prim hargs => exact invoke_rel hE hargs node

theorem contValue_agree (hE : env.SimOn h G env') {k : ContRef} (hk : k.Bound h G) (node : Term)
    {m : Machine} (hm : m.config.halt = h) :
    Agree (Value.Sim h) ((contValue node env k).exec m) ((contValue node env' k).exec m) := by
  cases k with
  | halt => exact ⟨.halt, rfl⟩
  | named name =>
    simp only [contValue]
    rw [exec_get_bind, exec_get_bind]
    by_cases hname : (name == m.config.halt) = true
    · rw [if_pos hname, if_pos hname]
      exact ⟨.halt, rfl⟩
    · rw [if_neg hname, if_neg hname]
      -- a name other than the halt name is bound only by being in scope
      have hn : name ∈ G := Or.resolve_left hk fun heq => hname (by simp [heq, hm])
      refine Rel.bind (fetch_rel hE hn node) (fun w w' hww' => ?_) m
      have hsim := hww'
      cases hww' with
      | halt => exact Rel.pure .halt
      | cont => exact Rel.pure hsim
      | _ => exact Rel.throw (hsim.notAClosure_agree node name)

theorem callee_rel {F F' : Value} (hF : Value.Sim h F F') (node : Term) (func : String) :
    Rel (fun (a b : Env × Lambda) => a.2 = b.2 ∧ ∃ G, a.2.Closed h G ∧ a.1.SimOn h G b.1)
      (callee node func F) (callee node func F') := by
  have hsim := hF
  cases hF with
  | function hfn h1 h2 => exact Rel.pure ⟨rfl, _, hfn, h1, h2⟩
  | member hdefs h1 h2 =>
    simp only [callee, Group.defs_mk]
    split
    · next d hd =>
      -- one definition on both sides, within the group
      obtain ⟨hlt, rfl⟩ := List.getElem?_eq_some_iff.1 hd
      exact Rel.pure ⟨rfl, _, hdefs _ (List.getElem_mem hlt), Env.SimOn.withGroup ⟨h1, h2⟩ hdefs⟩
    · exact Rel.throw (Fault.agree_refl _)
  | _ => exact Rel.throw (hsim.notAClosure_agree node func)

/-- What two steps lead to: one node, closed over a scope on which the two environments are
related, or the end with related values. -/
def Control.Sim (h : String) : Control → Control → Prop
  | .next t env, .next t' env' => t = t' ∧ ∃ G, t.Closed h G ∧ env.SimOn h G env'
  | .halt v, .halt w => Value.Sim h v w
  | _, _ => False

theorem Value.Sim.resume {K K' v v' : Value} (hK : Value.Sim h K K') (hv : Value.Sim h v v') :
    Control.Sim h (K.resume v) (K'.resume v') := by
  cases hK with
  | cont hb h1 h2 => exact ⟨rfl, _, hb, Env.SimOn.extend ⟨h1, h2⟩ _ hv⟩
  | _ => exact hv

end Steps

/-! ### Runs -/

section Run

variable {h : String} {G : List String} {env env' : Env}

/-- On a machine whose halt name is `h`, a node closed over `G` steps alike in environments
related on `G`. -/
theorem step_agree {t : Term} (ht : t.Closed h G) (hE : env.SimOn h G env') {m : Machine}
    (hm : m.config.halt = h) :
    Agree (Control.Sim h) ((step t env).exec m) ((step t env').exec m) := by
  cases ht with
  | halt ha =>
    exact Rel.bind (fetch_rel hE ha _)
      (fun v w hvw => Rel.pure (show Control.Sim h (.halt v) (.halt w) from hvw)) m
  | letV he hb =>
    exact Rel.bind (evalExpr_rel hE he _)
      (fun _ _ hvw => Rel.pure ⟨rfl, _, hb, hE.extend _ hvw⟩) m
  | letC hcb hb =>
    refine Rel.bind (Rel.refl (fun _ => rfl) freshId) (fun id id' hid => ?_) m
    subst hid
    exact Rel.pure ⟨rfl, _, hb, hE.extend _ (.cont hcb hE.1 hE.2)⟩
  | letF hdefs hb =>
    refine Rel.bind (Rel.refl (fun _ => rfl) freshId) (fun g g' hg => ?_) m
    subst hg
    exact Rel.pure ⟨rfl, _, hb, hE.withGroup hdefs⟩
  | appC hk ha =>
    refine fetch_bind_agree hE ha _ fun v w hvw => ?_
    refine agree_bind (contValue_agree hE hk _ hm) fun K K' m2 hKK' _ => ?_
    exact Rel.pure (hKK'.resume hvw) m2
  | appF hf hk ha =>
    refine fetch_bind_agree hE hf _ fun F F' hFF' => ?_
    refine agree_bind (callee_rel hFF' _ _ _) ?_
    rintro ⟨fenv, fn⟩ ⟨fenv', fn'⟩ m2 ⟨hfn, G', hclosed, hE'⟩ hcallee
    obtain ⟨-, rfl⟩ := callee_enters hcallee
    refine agree_bind (contValue_agree hE hk _ hm) fun K K' m3 hKK' _ => ?_
    refine Rel.bind (fetch_rel hE ha _) (fun v w hvw => ?_) m3
    dsimp only at hfn hclosed hE' ⊢
    subst hfn
    -- the body is closed over both parameters and the scope the closure captured
    cases hclosed with
    | mk hbody => exact Rel.pure ⟨rfl, _, hbody, (hE'.extend _ hKK').extend _ hvw⟩
  | @caseV _ s alts hs halts =>
    refine fetch_bind_agree hE hs _ fun w w' hww' => ?_
    have hsim := hww'
    cases hww' with
    | @variant tag p p' hp =>
      -- related variants have one tag, so both runs take the same case
      cases hcase : alts.lookup tag with
      | none =>
        simp only [hcase]
        exact Rel.throw (Fault.agree_refl _) _
      | some c =>
        simp only [hcase]
        obtain ⟨q, hq, rfl⟩ := List.mem_map.1 (mem_map_snd_of_lookup hcase)
        exact agree_bind (contValue_agree hE (halts q hq) _ hm)
          fun K K' m2 hKK' _ => Rel.pure (hKK'.resume hp) m2
    | _ => exact Rel.throw (hsim.notAVariant_agree _ _) _

theorem run_agree : ∀ (fuel : Nat) (t : Term) (env env' : Env) (m : Machine) (G : List String),
    t.Closed m.config.halt G → env.SimOn m.config.halt G env' →
      (Machine.run fuel t env m).1.Agree (Machine.run fuel t env' m).1 ∧
        (Machine.run fuel t env m).2 = (Machine.run fuel t env' m).2
  | 0, _, _, _, _, _, _, _ => ⟨trivial, rfl⟩
  | fuel + 1, t, env, env', m, G, ht, hE => by
    have hstep : Agree (Control.Sim m.config.halt) (State.mk t env m).advance
        (State.mk t env' m).advance :=
      step_agree ht hE rfl
    rw [run_succ, run_succ]
    revert hstep
    rcases hadv : (State.mk t env m).advance with ⟨_ | c, m1⟩ <;>
      rcases hadv' : (State.mk t env' m).advance with ⟨_ | c', m2⟩
    all_goals intro hstep
    · exact hstep
    · exact hstep.elim
    · exact hstep.elim
    · obtain ⟨hc, rfl⟩ := hstep
      -- a step keeps the configuration, so the next scope is read against the same halt name
      have hconfig : m1.config = m.config := (step_moves hadv).2
      cases c with
      | next t1 env1 =>
        cases c' with
        | next t2 env2 =>
          obtain ⟨rfl, G', ht', hE'⟩ := hc
          rw [← hconfig] at ht' hE'
          exact run_agree fuel t1 env1 env2 m1 G' ht' hE'
        | halt _ => exact hc.elim
      | halt v =>
        cases c' with
        | next _ _ => exact hc.elim
        | halt w => exact ⟨hc.display_eq, rfl⟩

end Run

/-- Two runs of one term on one machine, in environments that bind alike every name the term
reads, are indistinguishable for any number of steps: both still running, both halted with
values that display alike, or both failed with faults of one kind and one message, and both
leave the same machine: the same steps, console and files. -/
theorem run_ignores_unread_bindings (m : Machine) (t : Term) (G : List String) (env env' : Env)
    (hclosed : t.Closed m.config.halt G) (hagree : ∀ n ∈ G, env.lookup n = env'.lookup n)
    (fuel : Nat) :
    (Machine.run fuel t env m).1.Agree (Machine.run fuel t env' m).1 ∧
      (Machine.run fuel t env m).2 = (Machine.run fuel t env' m).2 :=
  run_agree fuel t env env' m G hclosed (Env.simOn_of_lookup_eq _ hagree)

theorem closure_run_ignores_extra_binding :
    (Term.letV "f" (.function ⟨"k", "a", .appC (.named "k") "x"⟩) (.appF "f" .halt "x")).Closed
        ({} : Machine).config.halt ["x"] ∧
      (∀ n ∈ ["x"], (Env.empty.extend "x" (.int 1)).lookup n =
        ((Env.empty.extend "y" (.int 2)).extend "x" (.int 1)).lookup n) ∧
      (Machine.run 3 (.letV "f" (.function ⟨"k", "a", .appC (.named "k") "x"⟩)
          (.appF "f" .halt "x")) (Env.empty.extend "x" (.int 1)) {}).1.Agree
        (Machine.run 3 (.letV "f" (.function ⟨"k", "a", .appC (.named "k") "x"⟩)
          (.appF "f" .halt "x")) ((Env.empty.extend "y" (.int 2)).extend "x" (.int 1)) {}).1 := by
  have hclosed : (Term.letV "f" (.function ⟨"k", "a", .appC (.named "k") "x"⟩)
      (.appF "f" .halt "x")).Closed ({} : Machine).config.halt ["x"] :=
    .letV (.function (.mk (.appC (.inr (by simp)) (by simp)))) (.appF (by simp) trivial (by simp))
  have hagree : ∀ n ∈ ["x"], (Env.empty.extend "x" (.int 1)).lookup n =
      ((Env.empty.extend "y" (.int 2)).extend "x" (.int 1)).lookup n := by
    intro n hn
    rw [List.mem_singleton.1 hn]
    rfl
  exact ⟨hclosed, hagree, (run_ignores_unread_bindings {} _ _ _ _ hclosed hagree 3).1⟩

end CpsMachine
