import CpsMachine.Proofs.Moves
import CpsMachine.Proofs.Frame

/-!
# What one step can fault with

The counterpart of `Proofs/Moves` for the steps that fault, said once for every primitive and
every node.

* `Fault.Within env reads e`: `e` is a fault that a computation reading only the names `reads`
  in `env` can raise by itself: one of those names unbound, or a refusal (of an operand's kind,
  a resource, a number of operands), but never a panic.
* `invoke_fault`: every fault of a primitive call is within its operands. A call checks its arity
  before it reads an operand by position, and an integer operation checks its divisor before it
  divides, so the host's bounds and division checks are never the ones that fire.
* `step_fault`: a step faults within the names its node reads, or panics in exactly one way:
  applying a member of a group past the group's definitions.
-/

namespace CpsMachine

open EvalM

/-- A fault that a computation reading only names satisfying `reads` in `env` can raise: one of
those names unbound, or a fault that is neither an unbound name nor a panic. -/
def Fault.Within (env : Env) (reads : String → Prop) : Fault → Prop
  | .unbound _ n => reads n ∧ env.lookup n = none
  | .panic .. => False
  | _ => True

section Faults

variable {node : Term} {env : Env} {m m' : Machine} {e : Fault}

theorem Fault.within_unbound {P : String → Prop} {n : String} (hn : P n)
    (hlook : env.lookup n = none) : (Fault.unbound node n).Within env P :=
  And.intro hn hlook

theorem Fault.Within.mono {P Q : String → Prop} (h : e.Within env P) (hPQ : ∀ n, P n → Q n) :
    e.Within env Q := by
  cases e with
  | unbound _ n => exact Fault.within_unbound (hPQ n h.1) h.2
  | panic => exact h.elim
  | _ => trivial

theorem fetch_bind_fault {α : Type} {a : String} {f : Value → EvalM α}
    (h : (fetch node env a >>= f).exec m = (.error e, m')) :
    (e = .unbound node a ∧ env.lookup a = none) ∨
      ∃ v, env.lookup a = some v ∧ (f v).exec m = (.error e, m') := by
  rcases bind_error h with hfetch | ⟨v, m1, hfetch, hrest⟩
  · obtain ⟨hlook, rfl, -⟩ := fetch_error hfetch
    exact .inl ⟨rfl, hlook⟩
  · obtain ⟨hlook, rfl⟩ := fetch_ok hfetch
    exact .inr ⟨v, hlook, hrest⟩

theorem get_bind_fault {α : Type} {f : Machine → EvalM α}
    (h : (get >>= f).exec m = (.error e, m')) : (f m).exec m = (.error e, m') := by
  rwa [exec_get_bind] at h

/-! ### Primitives -/

theorem select_fault {r f : String}
    (h : (Invoke.select node env r f).exec m = (.error e, m')) : e.Within env (· ∈ [r]) := by
  rcases fetch_bind_fault h with ⟨rfl, hlook⟩ | ⟨w, -, hrest⟩
  · exact Fault.within_unbound (List.mem_singleton_self r) hlook
  -- past the fetch a selection refuses a missing field or a value that is not a record
  split at hrest
  · split at hrest
    · cases hrest
    · cases hrest
      trivial
  · cases hrest
  · cases hrest
    trivial

theorem concat_fault {l r : String}
    (h : (Invoke.concat node env l r).exec m = (.error e, m')) : e.Within env (· ∈ [l, r]) := by
  rcases fetch_bind_fault h with ⟨rfl, hlook⟩ | ⟨wl, -, hrest⟩
  · exact Fault.within_unbound (by simp) hlook
  rcases fetch_bind_fault hrest with ⟨rfl, hlook⟩ | ⟨wr, -, hrest1⟩
  · exact Fault.within_unbound (by simp) hlook
  -- both operands found: two records or an error value pass, any other kind is refused
  split at hrest1
  · cases hrest1
  · cases hrest1
  · cases hrest1
  · cases hrest1
    trivial
  · cases hrest1
    trivial

theorem field_never_faults {offered : Bool} {name : String} {op : Primitive}
    (h : (Invoke.field offered name op).exec m = (.error e, m')) : False := by
  cases offered with
  | false => cases h
  | true =>
    rcases bind_error h with hop | ⟨f, m1, -, hrest⟩
    · cases hop
    · cases hrest

theorem offer_never_faults {kind : Capability} {res : String}
    (h : (Invoke.offer kind res).exec m = (.error e, m')) : False := by
  rcases bind_error h with hreader | ⟨reader, m1, -, hrest⟩
  · exact field_never_faults hreader
  rcases bind_error hrest with hwriter | ⟨writer, m2, -, hrest1⟩
  · exact field_never_faults hwriter
  · cases hrest1

theorem acquire_fault {kind : Capability} {r : String}
    (h : (Invoke.acquire node env kind r).exec m = (.error e, m')) : e.Within env (· ∈ [r]) := by
  rcases fetch_bind_fault h with ⟨rfl, hlook⟩ | ⟨w, -, hrest⟩
  · exact Fault.within_unbound (List.mem_singleton_self r) hlook
  split at hrest
  · -- a resource name: refused with an error value, or granted a record of closures
    have hcheck := get_bind_fault hrest
    dsimp only at hcheck
    split at hcheck
    · cases hcheck
    · split at hcheck
      · cases hcheck
      · rcases bind_error hcheck with hoffer | ⟨fs, m1, -, hrecord⟩
        · exact (offer_never_faults hoffer).elim
        · cases hrecord
  · cases hrest
  · cases hrest
    trivial

theorem read_fault {res : String} (h : (Invoke.read node res).exec m = (.error e, m')) :
    e.Within env (· ∈ []) := by
  rw [read_exec] at h
  split at h
  · -- reading the console's input never fails
    cases h
  · -- reading a file fails with the store's error
    split at h
    · cases h
    · cases h
      trivial

theorem write_fault {res a : String}
    (h : (Invoke.write node env res a).exec m = (.error e, m')) : e.Within env (· ∈ [a]) := by
  cases hlook : env.lookup a with
  | none =>
    rw [write_exec_unbound hlook] at h
    cases h
    exact Fault.within_unbound (List.mem_singleton_self a) hlook
  | some v =>
    cases htext : v.text? with
    | none =>
      -- only a value that is neither an integer nor a string cannot be written
      rw [write_exec_untext hlook htext] at h
      cases h
      trivial
    | some text =>
      -- the console takes any text; a file can refuse the append
      rw [write_exec_text hlook htext] at h
      split at h
      · cases h
      · split at h
        · cases h
        · cases h
          trivial

theorem argument_never_faults {i : Nat} (h : (Invoke.argument i).exec m = (.error e, m')) :
    False := by
  have h := get_bind_fault h
  -- a missing argument is an error value
  dsimp only at h
  split at h
  · cases h
  · cases h

theorem integer_fault {op : IntOp} {a b : String}
    (h : (Invoke.integer node env op a b).exec m = (.error e, m')) :
    e.Within env (· ∈ [a, b]) := by
  -- the divisor is checked before the division, so only the operands' kinds are refused
  rw [Invoke.integer_eq] at h
  rcases fetch_bind_fault h with ⟨rfl, hlook⟩ | ⟨wa, -, hrest⟩
  · exact Fault.within_unbound (by simp) hlook
  split at hrest
  · rcases fetch_bind_fault hrest with ⟨rfl, hlook⟩ | ⟨wb, -, hrest1⟩
    · exact Fault.within_unbound (by simp) hlook
    split at hrest1
    · cases hrest1
    · cases hrest1
    · cases hrest1
      trivial
  · cases hrest
  · cases hrest
    trivial

theorem equal_fault {a b : String}
    (h : (Invoke.equal node env a b).exec m = (.error e, m')) : e.Within env (· ∈ [a, b]) := by
  rcases fetch_bind_fault h with ⟨rfl, hlook⟩ | ⟨wa, -, hrest⟩
  · exact Fault.within_unbound (by simp) hlook
  rcases fetch_bind_fault hrest with ⟨rfl, hlook⟩ | ⟨wb, -, hrest1⟩
  · exact Fault.within_unbound (by simp) hlook
  · cases hrest1

/-- Every fault of a primitive call is within the operands it reads: a primitive never panics. -/
theorem invoke_fault {p : Primitive} {args : List String}
    (h : (invoke node env p args).exec m = (.error e, m')) :
    e.Within env (· ∈ p.operands args) := by
  rw [invoke_eq] at h
  split at h
  · exact select_fault h
  · exact concat_fault h
  · exact acquire_fault h
  · exact read_fault h
  · exact write_fault h
  · exact (argument_never_faults h).elim
  · exact integer_fault h
  · exact equal_fault h
  · -- a call with the wrong number of operands
    cases h
    trivial

/-! ### Nodes -/

theorem gather_build_fault {ns : List String} (build : List Value → Value)
    (h : (match gather node env ns with
        | .ok (.values vs) => pure (build vs)
        | .ok (.stopped msg) => pure (.error msg)
        | .error e => throw e : EvalM Value).exec m = (.error e, m')) :
    e.Within env (· ∈ ns) := by
  split at h
  · cases h
  · cases h
  · next f hgather =>
    cases h
    obtain ⟨a, ha, hlook, rfl⟩ := gather_error hgather
    exact Fault.within_unbound ha hlook

theorem evalExpr_fault {ex : ValueExpr}
    (h : (evalExpr node env ex).exec m = (.error e, m')) : e.Within env (· ∈ ex.operands) := by
  cases ex with
  | int _ | str _ => cases h
  | record fields => exact gather_build_fault (fun vs => .record ((fields.map Prod.fst).zip vs)) h
  | variant tag a =>
    rcases fetch_bind_fault h with ⟨rfl, hlook⟩ | ⟨w, -, hrest⟩
    · exact Fault.within_unbound (List.mem_singleton_self a) hlook
    · -- the payload, or the error value found in its place
      split at hrest <;> cases hrest
  | vector items => exact gather_build_fault Value.vector h
  | function fn =>
    rcases bind_error h with hid | ⟨id, m1, -, hrest⟩
    · cases hid
    · cases hrest
  | prim p args => exact invoke_fault h

theorem contValue_fault {k : ContRef}
    (h : (contValue node env k).exec m = (.error e, m')) :
    e.Within env fun n => ∀ G, k.Bound m.config.halt G → n ∈ G := by
  cases k with
  | halt => cases h
  | named name =>
    have h := get_bind_fault h
    split at h
    · cases h
    · next hnothalt =>
      rcases fetch_bind_fault h with ⟨rfl, hlook⟩ | ⟨w, -, hrest⟩
      · -- a name other than the halt name is bound only by being in scope
        refine Fault.within_unbound (fun G hbound => Or.resolve_left hbound ?_) hlook
        simpa using hnothalt
      · split at hrest
        · cases hrest
        · cases hrest
        · cases hrest
          trivial

theorem callee_fault {func : String} {F : Value}
    (h : (callee node func F).exec m = (.error e, m')) :
    e.Within env (· ∈ []) ∨
      ∃ g i, F = .member g i ∧ g.defs.length ≤ i ∧ e = .panic node (.member i) := by
  cases F with
  | function id fenv fn => cases h
  | member g i =>
    simp only [callee] at h
    split at h
    · cases h
    · next hnone =>
      cases h
      exact .inr ⟨g, i, rfl, List.getElem?_eq_none_iff.1 hnone, rfl⟩
  | _ =>
    cases h
    exact .inl trivial

/-- A step faults within the names its node reads, those of every scope it is closed over, or
panics applying a member bound in its environment past its group's definitions. -/
theorem step_fault {t : Term} (h : (step t env).exec m = (.error e, m')) :
    e.Within env (fun n => ∀ G, t.Closed m.config.halt G → n ∈ G) ∨
      ∃ f g i, env.lookup f = some (.member g i) ∧ g.defs.length ≤ i ∧
        e = .panic t (.member i) := by
  cases t with
  | halt a =>
    rcases fetch_bind_fault h with ⟨rfl, hlook⟩ | ⟨v, -, hrest⟩
    · exact .inl (Fault.within_unbound (fun G ht => by cases ht with | halt ha => exact ha) hlook)
    · cases hrest
  | letV x ex b =>
    rcases bind_error h with hexpr | ⟨v, m1, -, hrest⟩
    · refine .inl ((evalExpr_fault hexpr).mono fun n hn G ht => ?_)
      cases ht with
      | letV he _ => exact he.operands n hn
    · cases hrest
  | letC x p cb b =>
    rcases bind_error h with hid | ⟨id, m1, -, hrest⟩
    · cases hid
    · cases hrest
  | letF defs b =>
    rcases bind_error h with hid | ⟨g, m1, -, hrest⟩
    · cases hid
    · cases hrest
  | appC k a =>
    rcases fetch_bind_fault h with ⟨rfl, hlook⟩ | ⟨v, -, hrest⟩
    · exact .inl (Fault.within_unbound (fun G ht => by cases ht with | appC _ ha => exact ha) hlook)
    rcases bind_error hrest with hcont | ⟨K, m1, -, hrest1⟩
    · refine .inl ((contValue_fault hcont).mono fun n hn G ht => ?_)
      cases ht with
      | appC hk _ => exact hn G hk
    · cases hrest1
  | appF f k a =>
    rcases fetch_bind_fault h with ⟨rfl, hlook⟩ | ⟨F, hlookf, hrest⟩
    · exact .inl (Fault.within_unbound (fun G ht => by cases ht with | appF hf _ _ => exact hf) hlook)
    rcases bind_error hrest with hcallee | ⟨⟨fenv, fn⟩, m1, hcallee, hrest1⟩
    · -- the only panic: the value bound to the function's name is a member past its group
      rcases callee_fault hcallee with hwithin | ⟨g, i, rfl, hpast, rfl⟩
      · exact .inl (hwithin.mono fun _ hn => nomatch hn)
      · exact .inr ⟨f, g, i, hlookf, hpast, rfl⟩
    obtain ⟨-, rfl⟩ := callee_enters hcallee
    rcases bind_error hrest1 with hcont | ⟨K, m2, hcont, hrest2⟩
    · refine .inl ((contValue_fault hcont).mono fun n hn G ht => ?_)
      cases ht with
      | appF _ hk _ => exact hn G hk
    obtain ⟨-, rfl⟩ := contValue_leads hcont
    rcases fetch_bind_fault hrest2 with ⟨rfl, hlook⟩ | ⟨v, -, hrest3⟩
    · exact .inl (Fault.within_unbound (fun G ht => by cases ht with | appF _ _ ha => exact ha) hlook)
    · cases hrest3
  | caseV s cases =>
    rcases fetch_bind_fault h with ⟨rfl, hlook⟩ | ⟨w, -, hrest⟩
    · exact .inl (Fault.within_unbound (fun G ht => by cases ht with | caseV hs _ => exact hs) hlook)
    split at hrest
    · split at hrest
      · next hcase =>
        rcases bind_error hrest with hcont | ⟨K, m1, -, hrest1⟩
        · refine .inl ((contValue_fault hcont).mono fun n hn G ht => ?_)
          cases ht with
          | caseV _ hcases =>
            obtain ⟨p, hp, rfl⟩ := List.mem_map.1 (mem_map_snd_of_lookup hcase)
            exact hn G (hcases p hp)
        · cases hrest1
      · cases hrest
        exact .inl trivial
    · cases hrest
      exact .inl trivial

end Faults

end CpsMachine
