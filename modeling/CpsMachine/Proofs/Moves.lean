import Mathlib.Data.List.Forall2
import CpsMachine.Proofs.Exec
import CpsMachine.Proofs.Scope

/-!
# What one step can do

This module says once, for every node, what a step can bind and where it can move, so that a
property of every run is proved by one case per constructor below and never by opening the
machine's code again.

* `ValueExpr.Yields m env e v`: `v` is a value that a `letV` of `e` can bind in `env` on the
  machine `m`. A value is bound as it was found (an operand's error value, a record's field), is
  made of bound values that are not errors (a record, variant or vector), is a new closure of
  `env`, is a record of capability closures whose resource passed the check
  (`Capability.Grants`), or holds neither a closure nor an error inside (`Value.Flat`).
* `Term.Moves m env t c`: `c` is what a step from `t` in `env` can lead to: the body of a binding
  node in `env` extended, the body of the closure a transfer applies in the closure's own
  environment, or the end of the run with a value bound in `env`.

`evalExpr_yields` and `step_moves` prove that every step that does not fault is of these forms,
and that it leaves the configuration as it was.
-/

namespace CpsMachine

open EvalM

/-! ### Values bound in an environment -/

namespace Env

/-- Some name of the environment is bound to `v`. -/
def Holds (env : Env) (v : Value) : Prop :=
  ∃ n, env.lookup n = some v

/-- Every value bound in the environment satisfies `P`. -/
def All (P : Value → Prop) (env : Env) : Prop :=
  ∀ n v, env.lookup n = some v → P v

variable {P : Value → Prop} {env : Env}

theorem all_empty (P : Value → Prop) : Env.empty.All P :=
  fun _ _ hlook => nomatch hlook

theorem All.extend (henv : env.All P) {n : String} {v : Value} (hv : P v) :
    (env.extend n v).All P := by
  intro n' v' hlook
  rw [lookup_extend] at hlook
  split at hlook
  · cases hlook
    exact hv
  · exact henv n' v' hlook

theorem All.withGroup (henv : env.All P) {g : Nat} {defs : List (String × Lambda)}
    (hmember : ∀ i : Fin defs.length, P (.member (.mk g defs env) i)) :
    (env.withGroup g defs).All P := by
  intro n v hlook
  rw [lookup_withGroup] at hlook
  cases hi : memberIndex? defs n with
  | some i =>
    rw [hi] at hlook
    cases hlook
    exact hmember i
  | none =>
    rw [hi] at hlook
    exact henv n v hlook

end Env

/-! ### What a value expression can bind -/

/-- A value with no closure in it and no error inside it. -/
inductive Value.Flat : Value → Prop
  | int {n} : Value.Flat (.int n)
  | str {s} : Value.Flat (.str s)
  | error {msg} : Value.Flat (.error msg)
  | unit : Value.Flat .unit
  | bool {b} : Value.Flat (.bool b)

theorem Prelude.env_all {P : Value → Prop} (hflat : ∀ v, v.Flat → P v) (hints : P Prelude.ints)
    (hequal : P Prelude.equal) : Prelude.env.All P :=
  ((((Env.all_empty P).extend (hflat _ .bool)).extend (hflat _ .bool)).extend hints).extend hequal

theorem IntOp.apply_flat (op : IntOp) (a b : Int) : (op.apply a b).Flat := by
  cases op with
  | add | sub | mul => exact .int
  | div | mod =>
    simp only [IntOp.apply]
    split
    · exact .error
    · exact .int
  | pow =>
    simp only [IntOp.apply]
    split
    · exact .int
    · exact .error
  | lt | lte | gt | gte => exact .bool

/-- The names a value expression looks up. -/
def ValueExpr.operands : ValueExpr → List String
  | .record fields => fields.map Prod.snd
  | .variant _ a => [a]
  | .vector items => items
  | .prim p args => p.operands args
  | .int _ | .str _ | .function _ => []

theorem ValueExpr.Closed.operands {h : String} {G : List String} {e : ValueExpr}
    (he : e.Closed h G) : ∀ a ∈ e.operands, a ∈ G := by
  intro a ha
  cases he with
  | int | str | function _ => cases ha
  | record hfields =>
    obtain ⟨f, hf, rfl⟩ := List.mem_map.1 ha
    exact hfields f hf
  | variant harg =>
    rw [List.mem_singleton.1 ha]
    exact harg
  | vector hitems => exact hitems a ha
  | prim hargs => exact hargs a ha

/-- The closure a capability of `kind` on `resource` may hold: one for `read` if the kind reads,
one for `write` if it writes. -/
def Capability.Offers (kind : Capability) (resource : String) (op : Primitive) : Prop :=
  op = .read resource ∧ kind.reads = true ∨ op = .write resource ∧ kind.writes = true

/-- The check a capability of `kind` on `resource` passes on the machine `m`: the resource is the
console, or a file that opens for reading if the kind reads and for appending if it writes. -/
def Capability.Grants (kind : Capability) (m : Machine) (resource : String) : Prop :=
  resource = m.config.console ∨
    ((kind.reads = true → m.files.opens .read resource = true) ∧
      (kind.writes = true → m.files.opens .append resource = true))

/-- The values a `letV` of `e` can bind in `env` on the machine `m`. -/
inductive ValueExpr.Yields (m : Machine) (env : Env) : ValueExpr → Value → Prop
  /-- A literal, an integer result, a truth value, a text read, the unit value, or an error a
  primitive made. -/
  | flat {e v} : v.Flat → ValueExpr.Yields m env e v
  /-- The error value an operand is bound to, passed on unchanged. -/
  | operandError {e a msg} : a ∈ e.operands → env.lookup a = some (.error msg) →
      ValueExpr.Yields m env e (.error msg)
  | record {fields fs} : (∀ p ∈ fs, env.Holds p.2 ∧ p.2.isError = false) →
      ValueExpr.Yields m env (.record fields) (.record fs)
  | variant {tag a v} : env.lookup a = some v → v.isError = false →
      ValueExpr.Yields m env (.variant tag a) (.variant tag v)
  | vector {items vs} : (∀ v ∈ vs, env.Holds v ∧ v.isError = false) →
      ValueExpr.Yields m env (.vector items) (.vector vs)
  /-- A new function closure of the environment. -/
  | function {fn id} : ValueExpr.Yields m env (.function fn) (.function id env fn)
  /-- A field of the record the first operand is bound to. -/
  | select {r f fs v} : env.lookup r = some (.record fs) → v ∈ fs.map Prod.snd →
      ValueExpr.Yields m env (.prim .select [r, f]) v
  | concat {l r a b} : env.lookup l = some (.record a) → env.lookup r = some (.record b) →
      ValueExpr.Yields m env (.prim .concat [l, r]) (.record (a ++ b))
  /-- A capability: the resource passed the check, and the record holds closures of the empty
  environment that run the operations the kind offers on it. -/
  | acquire {kind r res fs} : env.lookup r = some (.str res) → kind.Grants m res →
      (∀ p ∈ fs, ∃ id op, p.2 = .function id .empty (Prelude.unary op) ∧ kind.Offers res op) →
      ValueExpr.Yields m env (.prim (.acquire kind) [r]) (.record fs)

/-! ### Gathering operands -/

section Gather

variable {node : Term} {env : Env}

theorem gather_values {ns : List String} {vs : List Value}
    (h : gather node env ns = .ok (.values vs)) :
    List.Forall₂ (fun n v => env.lookup n = some v ∧ v.isError = false) ns vs := by
  induction ns generalizing vs with
  | nil =>
    cases h
    exact .nil
  | cons n rest ih =>
    simp only [gather] at h
    split at h
    · cases h
    · cases h
    · rename_i v hnot hlook
      have hv : v.isError = false := by
        cases v <;> simp_all [Value.isError]
      split at h
      · rename_i vs' hrest
        cases h
        exact .cons ⟨hlook, hv⟩ (ih hrest)
      · rename_i r hr
        exact absurd h (hr _)

theorem gather_stopped {ns : List String} {msg : String}
    (h : gather node env ns = .ok (.stopped msg)) : ∃ n ∈ ns, env.lookup n = some (.error msg) := by
  induction ns with
  | nil => cases h
  | cons n rest ih =>
    simp only [gather] at h
    split at h
    · cases h
    · rename_i msg' hlook
      cases h
      exact ⟨n, List.mem_cons_self, hlook⟩
    · split at h
      · cases h
      · obtain ⟨n', hmem, hlook⟩ := ih h
        exact ⟨n', List.mem_cons_of_mem _ hmem, hlook⟩

theorem gather_error {ns : List String} {e : Fault} (h : gather node env ns = .error e) :
    ∃ n ∈ ns, env.lookup n = none ∧ e = .unbound node n := by
  induction ns with
  | nil => cases h
  | cons n rest ih =>
    simp only [gather] at h
    split at h
    · rename_i hlook
      cases h
      exact ⟨n, List.mem_cons_self, hlook, rfl⟩
    · cases h
    · split at h
      · cases h
      · obtain ⟨n', hmem, hlook, rfl⟩ := ih h
        exact ⟨n', List.mem_cons_of_mem _ hmem, hlook, rfl⟩

theorem holds_of_forall₂ {ns : List String} {vs : List Value}
    (h : List.Forall₂ (fun n v => env.lookup n = some v ∧ v.isError = false) ns vs) :
    ∀ v ∈ vs, env.Holds v ∧ v.isError = false := by
  induction h with
  | nil => intro v hv; cases hv
  | cons hhead _ ih =>
    intro v hv
    rcases List.mem_cons.1 hv with rfl | hv
    · exact ⟨⟨_, hhead.1⟩, hhead.2⟩
    · exact ih v hv

end Gather

/-! ### Primitives -/

section Primitives

variable {node : Term} {env : Env} {m m' : Machine} {v : Value}

theorem mem_map_snd_of_lookup {β : Type} {fs : List (String × β)} {f : String} {b : β}
    (h : fs.lookup f = some b) : b ∈ fs.map Prod.snd := by
  obtain ⟨l₁, l₂, rfl, -⟩ := List.lookup_eq_some_iff.1 h
  simp

theorem select_yields {r f : String} (h : (Invoke.select node env r f).exec m = (.ok v, m')) :
    (ValueExpr.prim .select [r, f]).Yields m env v ∧ m'.config = m.config := by
  obtain ⟨w, m1, hfetch, hrest⟩ := bind_ok h
  obtain ⟨hlook, rfl⟩ := fetch_ok hfetch
  split at hrest
  · split at hrest
    · rename_i hfield
      cases hrest
      exact ⟨.select hlook (mem_map_snd_of_lookup hfield), rfl⟩
    · cases hrest
  · cases hrest
    exact ⟨.operandError (by simp [ValueExpr.operands, Primitive.operands]) hlook, rfl⟩
  · cases hrest

theorem concat_yields {l r : String} (h : (Invoke.concat node env l r).exec m = (.ok v, m')) :
    (ValueExpr.prim .concat [l, r]).Yields m env v ∧ m'.config = m.config := by
  obtain ⟨wl, m1, hl, hrest1⟩ := bind_ok h
  obtain ⟨hlookl, rfl⟩ := fetch_ok hl
  obtain ⟨wr, m2, hr, hrest⟩ := bind_ok hrest1
  obtain ⟨hlookr, rfl⟩ := fetch_ok hr
  have hmem : l ∈ (ValueExpr.prim .concat [l, r]).operands ∧
      r ∈ (ValueExpr.prim .concat [l, r]).operands := by
    simp [ValueExpr.operands, Primitive.operands]
  split at hrest
  · cases hrest
    exact ⟨.concat hlookl hlookr, rfl⟩
  · cases hrest
    exact ⟨.operandError hmem.1 hlookl, rfl⟩
  · cases hrest
    exact ⟨.operandError hmem.2 hlookr, rfl⟩
  · cases hrest
  · cases hrest

theorem operation_ok {p : Primitive} (h : (Invoke.operation p).exec m = (.ok v, m')) :
    ∃ id, v = .function id .empty (Prelude.unary p) ∧ m'.config = m.config := by
  obtain ⟨id, m1, hid, hrest⟩ := bind_ok h
  rw [freshId_exec] at hid
  cases hid
  cases hrest
  exact ⟨_, rfl, rfl⟩

theorem Capability.offers_read {kind : Capability} {res : String} (h : kind.reads = true) :
    kind.Offers res (.read res) :=
  .inl ⟨rfl, h⟩

theorem Capability.offers_write {kind : Capability} {res : String} (h : kind.writes = true) :
    kind.Offers res (.write res) :=
  .inr ⟨rfl, h⟩

theorem field_ok {offered : Bool} {name : String} {op : Primitive} {fs : List (String × Value)}
    (h : (Invoke.field offered name op).exec m = (.ok fs, m')) :
    (∀ p ∈ fs, ∃ id, p.2 = .function id .empty (Prelude.unary op) ∧ offered = true) ∧
      m'.config = m.config := by
  cases offered with
  | false =>
    cases h
    exact ⟨fun _ hp => (nomatch hp), rfl⟩
  | true =>
    obtain ⟨f, m1, hf, hrest⟩ := bind_ok h
    obtain ⟨id, rfl, hc⟩ := operation_ok hf
    cases hrest
    refine ⟨fun p hp => ?_, hc⟩
    rw [List.mem_singleton.1 hp]
    exact ⟨id, rfl, rfl⟩

theorem offer_ok {kind : Capability} {res : String} {fs : List (String × Value)}
    (h : (Invoke.offer kind res).exec m = (.ok fs, m')) :
    (∀ p ∈ fs, ∃ id op, p.2 = .function id .empty (Prelude.unary op) ∧ kind.Offers res op) ∧
      m'.config = m.config := by
  obtain ⟨reader, m1, hreader, hrest⟩ := bind_ok h
  obtain ⟨writer, m2, hwriter, hrest1⟩ := bind_ok hrest
  cases hrest1
  obtain ⟨hr, hc1⟩ := field_ok hreader
  obtain ⟨hw, hc2⟩ := field_ok hwriter
  refine ⟨fun p hp => ?_, hc2.trans hc1⟩
  rcases List.mem_append.1 hp with hp | hp
  · obtain ⟨id, hval, hreads⟩ := hr p hp
    exact ⟨id, _, hval, Capability.offers_read hreads⟩
  · obtain ⟨id, hval, hwrites⟩ := hw p hp
    exact ⟨id, _, hval, Capability.offers_write hwrites⟩

theorem acquire_yields {kind : Capability} {r : String}
    (h : (Invoke.acquire node env kind r).exec m = (.ok v, m')) :
    (ValueExpr.prim (.acquire kind) [r]).Yields m env v ∧ m'.config = m.config := by
  obtain ⟨w, m1, hfetch, hrest⟩ := bind_ok h
  obtain ⟨hlook, rfl⟩ := fetch_ok hfetch
  split at hrest
  · rename_i res
    obtain ⟨m2, m3, hget, hcheck⟩ := bind_ok hrest
    rw [exec_get, Prod.mk.injEq, Except.ok.injEq] at hget
    obtain ⟨rfl, rfl⟩ := hget
    dsimp only at hcheck
    split at hcheck
    · cases hcheck
      exact ⟨.flat .error, rfl⟩
    · split at hcheck
      · cases hcheck
        exact ⟨.flat .error, rfl⟩
      · rename_i hnoread hnowrite
        -- the check passed: the console, or a file that opens as the kind needs
        have hfound : kind.Grants m1 res := by
          by_cases hc : res = m1.config.console
          · exact .inl hc
          · exact .inr ⟨fun hr => by simp_all, fun hw => by simp_all⟩
        obtain ⟨fs, m4, hoffer, hrecord⟩ := bind_ok hcheck
        cases hrecord
        obtain ⟨hfs, hc⟩ := offer_ok hoffer
        exact ⟨.acquire hlook hfound hfs, hc⟩
  · cases hrest
    exact ⟨.operandError (by simp [ValueExpr.operands, Primitive.operands]) hlook, rfl⟩
  · cases hrest

theorem read_flat {res : String} (h : (Invoke.read node res).exec m = (.ok v, m')) :
    v.Flat ∧ m'.config = m.config := by
  obtain ⟨m1, m2, hget, hrest⟩ := bind_ok h
  rw [exec_get, Prod.mk.injEq, Except.ok.injEq] at hget
  obtain ⟨rfl, rfl⟩ := hget
  split at hrest
  · obtain ⟨u, m3, hset, hpure⟩ := bind_ok hrest
    cases hset
    cases hpure
    exact ⟨.str, rfl⟩
  · split at hrest
    · cases hrest
      exact ⟨.str, rfl⟩
    · cases hrest

theorem write_flat {res a : String} (h : (Invoke.write node env res a).exec m = (.ok v, m')) :
    v.Flat ∧ m'.config = m.config := by
  obtain ⟨w, m1, hfetch, hrest1⟩ := bind_ok h
  obtain ⟨-, rfl⟩ := fetch_ok hfetch
  dsimp only at hrest1
  split at hrest1
  rotate_left 2
  · obtain ⟨text, m2, htext, -⟩ := bind_ok hrest1
    cases htext
  -- an integer and a string differ only in the text written
  all_goals
    obtain ⟨text, m2, htext, hrest⟩ := bind_ok hrest1
    cases htext
    obtain ⟨m3, m4, hget, hrest⟩ := bind_ok hrest
    rw [exec_get, Prod.mk.injEq, Except.ok.injEq] at hget
    obtain ⟨rfl, rfl⟩ := hget
    split at hrest
    · obtain ⟨u, m5, hset, hpure⟩ := bind_ok hrest
      cases hset
      cases hpure
      exact ⟨.unit, rfl⟩
    · split at hrest
      · obtain ⟨u, m5, hset, hpure⟩ := bind_ok hrest
        cases hset
        cases hpure
        exact ⟨.unit, rfl⟩
      · cases hrest

theorem argument_flat {i : Nat} (h : (Invoke.argument i).exec m = (.ok v, m')) :
    v.Flat ∧ m'.config = m.config := by
  obtain ⟨m1, m2, hget, hrest⟩ := bind_ok h
  rw [exec_get, Prod.mk.injEq, Except.ok.injEq] at hget
  obtain ⟨rfl, rfl⟩ := hget
  dsimp only at hrest
  split at hrest <;> cases hrest
  · exact ⟨.str, rfl⟩
  · exact ⟨.error, rfl⟩

theorem integer_yields {op : IntOp} {a b : String}
    (h : (Invoke.integer node env op a b).exec m = (.ok v, m')) :
    (ValueExpr.prim (.int op) [a, b]).Yields m env v ∧ m'.config = m.config := by
  rw [Invoke.integer_eq] at h
  have hmem : a ∈ (ValueExpr.prim (.int op) [a, b]).operands ∧
      b ∈ (ValueExpr.prim (.int op) [a, b]).operands := by
    simp [ValueExpr.operands, Primitive.operands]
  obtain ⟨wa, m1, ha, hrest⟩ := bind_ok h
  obtain ⟨hlooka, rfl⟩ := fetch_ok ha
  split at hrest
  · obtain ⟨wb, m2, hb, hrest1⟩ := bind_ok hrest
    obtain ⟨hlookb, rfl⟩ := fetch_ok hb
    split at hrest1
    · cases hrest1
      exact ⟨.flat (IntOp.apply_flat op _ _), rfl⟩
    · cases hrest1
      exact ⟨.operandError hmem.2 hlookb, rfl⟩
    · cases hrest1
  · cases hrest
    exact ⟨.operandError hmem.1 hlooka, rfl⟩
  · cases hrest

theorem equal_flat {a b : String} (h : (Invoke.equal node env a b).exec m = (.ok v, m')) :
    v.Flat ∧ m'.config = m.config := by
  obtain ⟨wa, m1, ha, hrest⟩ := bind_ok h
  obtain ⟨-, rfl⟩ := fetch_ok ha
  obtain ⟨wb, m2, hb, hrest1⟩ := bind_ok hrest
  obtain ⟨-, rfl⟩ := fetch_ok hb
  cases hrest1
  exact ⟨.bool, rfl⟩

theorem invoke_yields {p : Primitive} {args : List String}
    (h : (invoke node env p args).exec m = (.ok v, m')) :
    (ValueExpr.prim p args).Yields m env v ∧ m'.config = m.config := by
  rw [invoke_eq] at h
  split at h
  · exact select_yields h
  · exact concat_yields h
  · exact acquire_yields h
  · exact (read_flat h).imp_left .flat
  · exact (write_flat h).imp_left .flat
  · exact (argument_flat h).imp_left .flat
  · exact integer_yields h
  · exact (equal_flat h).imp_left .flat
  · cases h

end Primitives

/-- What a `letV` can bind, and that binding leaves the configuration alone. -/
theorem evalExpr_yields {node : Term} {env : Env} {e : ValueExpr} {m m' : Machine} {v : Value}
    (h : (evalExpr node env e).exec m = (.ok v, m')) : e.Yields m env v ∧ m'.config = m.config := by
  cases e with
  | int n =>
    cases h
    exact ⟨.flat .int, rfl⟩
  | str s =>
    cases h
    exact ⟨.flat .str, rfl⟩
  | record fields =>
    simp only [evalExpr] at h
    split at h
    · rename_i vs hgather
      cases h
      have hvs := holds_of_forall₂ (gather_values hgather)
      exact ⟨.record fun p hp => hvs p.2 (List.of_mem_zip hp).2, rfl⟩
    · rename_i msg hgather
      cases h
      obtain ⟨a, ha, hlook⟩ := gather_stopped hgather
      exact ⟨.operandError ha hlook, rfl⟩
    · cases h
  | variant tag a =>
    obtain ⟨w, m1, hfetch, hrest⟩ := bind_ok h
    obtain ⟨hlook, rfl⟩ := fetch_ok hfetch
    split at hrest
    · cases hrest
      exact ⟨.operandError (List.mem_singleton_self a) hlook, rfl⟩
    · rename_i hnot
      cases hrest
      have hv : w.isError = false := by
        cases w <;> simp_all [Value.isError]
      exact ⟨.variant hlook hv, rfl⟩
  | vector items =>
    simp only [evalExpr] at h
    split at h
    · rename_i vs hgather
      cases h
      exact ⟨.vector (holds_of_forall₂ (gather_values hgather)), rfl⟩
    · rename_i msg hgather
      cases h
      obtain ⟨a, ha, hlook⟩ := gather_stopped hgather
      exact ⟨.operandError ha hlook, rfl⟩
    · cases h
  | function fn =>
    obtain ⟨id, m1, hid, hrest⟩ := bind_ok h
    rw [freshId_exec] at hid
    cases hid
    cases hrest
    exact ⟨.function, rfl⟩
  | prim p args => exact invoke_yields h

/-! ### Where a step moves -/

/-- Where the continuation position `k` leads in `env`, given the halt name `h`. -/
inductive ContRef.Leads (h : String) (env : Env) : ContRef → Value → Prop
  | halt : ContRef.Leads h env .halt .halt
  /-- The halt name halts, bound or not. -/
  | haltName : ContRef.Leads h env (.named h) .halt
  /-- Any other name leads to the continuation it is bound to. -/
  | bound {k K} : env.lookup k = some K → (K = .halt ∨ ∃ id cenv p b, K = .cont id cenv p b) →
      ContRef.Leads h env (.named k) K

/-- A continuation position leads to the halt continuation or to a value bound in the
environment, so whatever holds of both holds of where it leads. -/
theorem ContRef.Leads.all {P : Value → Prop} {h : String} {env : Env} {k : ContRef} {K : Value}
    (hk : k.Leads h env K) (hhalt : P .halt) (henv : env.All P) : P K := by
  cases hk with
  | halt => exact hhalt
  | haltName => exact hhalt
  | bound hlook _ => exact henv _ _ hlook

/-- Applying the function value runs `fn` in `fenv`: a function runs in the environment it was
made in, a member of a group, within the group's definitions, in the group's environment. -/
inductive Value.Enters : Value → Env → Lambda → Prop
  | function {id env fn} : Value.Enters (.function id env fn) env fn
  | member {g defs env} {i : Fin defs.length} :
      Value.Enters (.member (.mk g defs env) i) (env.withGroup g defs) (defs.get i).2

/-- Where a step from `t` in `env` on the machine `m` can lead. -/
inductive Term.Moves (m : Machine) (env : Env) : Term → Control → Prop
  | halt {a v} : env.lookup a = some v → Term.Moves m env (.halt a) (.halt v)
  | letV {x e b v} : e.Yields m env v → Term.Moves m env (.letV x e b) (.next b (env.extend x v))
  | letC {x p cb b id} :
      Term.Moves m env (.letC x p cb b) (.next b (env.extend x (.cont id env p cb)))
  | letF {defs b g} : Term.Moves m env (.letF defs b) (.next b (env.withGroup g defs))
  | appC {k a v K} : env.lookup a = some v → k.Leads m.config.halt env K →
      Term.Moves m env (.appC k a) (K.resume v)
  | appF {f k a F fenv fn K v} : env.lookup f = some F → F.Enters fenv fn →
      k.Leads m.config.halt env K → env.lookup a = some v →
      Term.Moves m env (.appF f k a) (.next fn.body ((fenv.extend fn.contParam K).extend fn.param v))
  | caseV {s cases tag p c K} : env.lookup s = some (.variant tag p) → cases.lookup tag = some c →
      (ContRef.named c).Leads m.config.halt env K → Term.Moves m env (.caseV s cases) (K.resume p)

section Step

variable {node : Term} {env : Env} {m m' : Machine}

theorem contValue_leads {k : ContRef} {K : Value} (h : (contValue node env k).exec m = (.ok K, m')) :
    k.Leads m.config.halt env K ∧ m' = m := by
  cases k with
  | halt =>
    cases h
    exact ⟨.halt, rfl⟩
  | named name =>
    obtain ⟨m1, m2, hget, hrest⟩ := bind_ok h
    rw [exec_get, Prod.mk.injEq, Except.ok.injEq] at hget
    obtain ⟨rfl, rfl⟩ := hget
    split at hrest
    · rename_i hhalt
      cases hrest
      rw [beq_iff_eq] at hhalt
      subst hhalt
      exact ⟨.haltName, rfl⟩
    · obtain ⟨w, m3, hfetch, hrest1⟩ := bind_ok hrest
      obtain ⟨hlook, rfl⟩ := fetch_ok hfetch
      split at hrest1
      · cases hrest1
        exact ⟨.bound hlook (.inl rfl), rfl⟩
      · cases hrest1
        exact ⟨.bound hlook (.inr ⟨_, _, _, _, rfl⟩), rfl⟩
      · cases hrest1

theorem callee_enters {func : String} {F : Value} {fenv : Env} {fn : Lambda}
    (h : (callee node func F).exec m = (.ok (fenv, fn), m')) : F.Enters fenv fn ∧ m' = m := by
  cases F with
  | function id env fn =>
    cases h
    exact ⟨.function, rfl⟩
  | member g index =>
    obtain ⟨id, defs, env⟩ := g
    simp only [callee, Group.defs_mk] at h
    split at h
    · next d hd =>
      cases h
      -- the definition read is the one at a position within the group
      obtain ⟨hlt, rfl⟩ := List.getElem?_eq_some_iff.1 hd
      exact ⟨.member (i := ⟨index, hlt⟩), rfl⟩
    · cases h
  | _ => cases h

/-- Where a step can lead, and that it leaves the configuration alone. -/
theorem step_moves {t : Term} {c : Control} (h : (step t env).exec m = (.ok c, m')) :
    t.Moves m env c ∧ m'.config = m.config := by
  cases t with
  | halt a =>
    obtain ⟨v, m1, hfetch, hrest⟩ := bind_ok h
    obtain ⟨hlook, rfl⟩ := fetch_ok hfetch
    cases hrest
    exact ⟨.halt hlook, rfl⟩
  | letV x e b =>
    obtain ⟨v, m1, hexpr, hrest⟩ := bind_ok h
    obtain ⟨hyields, hconfig⟩ := evalExpr_yields hexpr
    cases hrest
    exact ⟨.letV hyields, hconfig⟩
  | letC x p cb b =>
    obtain ⟨id, m1, hid, hrest⟩ := bind_ok h
    rw [freshId_exec] at hid
    cases hid
    cases hrest
    exact ⟨.letC, rfl⟩
  | letF defs b =>
    obtain ⟨g, m1, hid, hrest⟩ := bind_ok h
    rw [freshId_exec] at hid
    cases hid
    cases hrest
    exact ⟨.letF, rfl⟩
  | appC k a =>
    obtain ⟨v, m1, hfetch, hrest⟩ := bind_ok h
    obtain ⟨hlook, rfl⟩ := fetch_ok hfetch
    obtain ⟨K, m2, hcont, hrest1⟩ := bind_ok hrest
    obtain ⟨hleads, rfl⟩ := contValue_leads hcont
    cases hrest1
    exact ⟨.appC hlook hleads, rfl⟩
  | appF f k a =>
    obtain ⟨F, m1, hfetch, hrest⟩ := bind_ok h
    obtain ⟨hlookf, rfl⟩ := fetch_ok hfetch
    obtain ⟨⟨fenv, fn⟩, m2, hcallee, hrest1⟩ := bind_ok hrest
    obtain ⟨henters, rfl⟩ := callee_enters hcallee
    obtain ⟨K, m3, hcont, hrest2⟩ := bind_ok hrest1
    obtain ⟨hleads, rfl⟩ := contValue_leads hcont
    obtain ⟨v, m4, hfetcha, hrest3⟩ := bind_ok hrest2
    obtain ⟨hlooka, rfl⟩ := fetch_ok hfetcha
    cases hrest3
    exact ⟨.appF hlookf henters hleads hlooka, rfl⟩
  | caseV s cases =>
    obtain ⟨w, m1, hfetch, hrest⟩ := bind_ok h
    obtain ⟨hlook, rfl⟩ := fetch_ok hfetch
    split at hrest
    · split at hrest
      · rename_i hcase
        obtain ⟨K, m2, hcont, hrest1⟩ := bind_ok hrest
        obtain ⟨hleads, rfl⟩ := contValue_leads hcont
        cases hrest1
        exact ⟨.caseV hlook hcase hleads, rfl⟩
      · cases hrest
    · cases hrest

end Step

end CpsMachine
