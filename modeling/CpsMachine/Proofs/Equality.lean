import Mathlib.Data.List.Forall2
import CpsMachine.Proofs.Order
import CpsMachine.Proofs.Curried

/-!
# Equality of values is an equivalence

`Value.equal` is reflexive, symmetric and transitive on all values (`Value.equal_equivalence`):
on integers, strings and errors it compares their contents; records are equal when they have
the same length and pairwise the same names and equal values, repeated names included; variants
when their tags are the same and their payloads equal; vectors when they are pairwise equal; and
closures by identity, two group members being the same member when their groups and indices are.
So the `equal` primitive gives the same truth value whichever way round its operands are named
(`invoke_equal_swap_of_ok`).

Records and vectors are equal when their items are, pairwise (`fieldsEqual_iff`,
`itemsEqual_iff`). Symmetry and transitivity of a pairwise relation follow from the same laws on
the items of the first list (`forall₂_symm_of_mem`, `forall₂_trans_of_mem`), which is what the
induction on values provides.
-/

namespace CpsMachine

open EvalM

/-! ### Pairwise relations -/

section Pairwise

variable {α : Type} {R : α → α → Prop}

theorem forall₂_symm_of_mem {xs ys : List α} (h : ∀ x ∈ xs, ∀ y, R x y → R y x)
    (hxy : List.Forall₂ R xs ys) : List.Forall₂ R ys xs := by
  induction hxy with
  | nil => exact .nil
  | cons hab _ ih =>
    rw [List.forall_mem_cons] at h
    exact .cons (h.1 _ hab) (ih h.2)

theorem forall₂_trans_of_mem {xs ys zs : List α} (h : ∀ x ∈ xs, ∀ y z, R x y → R y z → R x z)
    (hxy : List.Forall₂ R xs ys) (hyz : List.Forall₂ R ys zs) : List.Forall₂ R xs zs := by
  induction hxy generalizing zs with
  | nil =>
    cases hyz
    exact .nil
  | cons hab _ ih =>
    rw [List.forall_mem_cons] at h
    cases hyz with
    | cons hbc hrest => exact .cons (h.1 _ _ hab hbc) (ih h.2 hrest)

end Pairwise

/-! ### Records and vectors -/

namespace Value

theorem fieldsEqual_iff {fs gs : List (String × Value)} :
    Value.fieldsEqual fs gs = true ↔
      List.Forall₂ (fun p q => p.1 = q.1 ∧ p.2.equal q.2 = true) fs gs := by
  induction fs generalizing gs with
  | nil => cases gs <;> simp [fieldsEqual]
  | cons p fs ih =>
    obtain ⟨n, v⟩ := p
    cases gs with
    | nil => simp [fieldsEqual]
    | cons q gs =>
      obtain ⟨n', w⟩ := q
      simp [fieldsEqual, ih, and_assoc]

theorem itemsEqual_iff {vs ws : List Value} :
    Value.itemsEqual vs ws = true ↔ List.Forall₂ (fun v w => v.equal w = true) vs ws := by
  induction vs generalizing ws with
  | nil => cases ws <;> simp [itemsEqual]
  | cons v vs ih =>
    cases ws with
    | nil => simp [itemsEqual]
    | cons w ws => simp [itemsEqual, ih]

theorem equal_record (fs gs : List (String × Value)) :
    (Value.record fs).equal (.record gs) = Value.fieldsEqual fs gs := by
  simp only [equal]

theorem equal_vector (vs ws : List Value) :
    (Value.vector vs).equal (.vector ws) = Value.itemsEqual vs ws := by
  simp only [equal]

/-! ### The laws -/

theorem equal_symm (a : Value) : ∀ {b}, a.equal b = true → b.equal a = true := by
  induction a using Value.induction with
  | record fs ih =>
    intro b h
    cases b with
    | record gs =>
      rw [equal_record, fieldsEqual_iff] at h ⊢
      exact forall₂_symm_of_mem (fun p hp q hpq => ⟨hpq.1.symm, ih p hp hpq.2⟩) h
    | _ => cases h
  | variant t p ih =>
    intro b h
    cases b with
    | variant u q =>
      simp only [equal, Bool.and_eq_true, beq_iff_eq] at h ⊢
      exact ⟨h.1.symm, ih h.2⟩
    | _ => cases h
  | vector vs ih =>
    intro b h
    cases b with
    | vector ws =>
      rw [equal_vector, itemsEqual_iff] at h ⊢
      exact forall₂_symm_of_mem (fun v hv w hvw => ih v hv hvw) h
    | _ => cases h
  | int | str | halt | cont | function | member | error =>
    -- a leaf equals only a leaf of its kind with the same content or identity
    intro b h
    cases b <;> simp_all [equal]

theorem equal_trans (a : Value) :
    ∀ {b c}, a.equal b = true → b.equal c = true → a.equal c = true := by
  induction a using Value.induction with
  | record fs ih =>
    intro b c hab hbc
    cases b with
    | record gs =>
      cases c with
      | record hs =>
        rw [equal_record, fieldsEqual_iff] at hab hbc ⊢
        exact forall₂_trans_of_mem
          (fun p hp q r hpq hqr => ⟨hpq.1.trans hqr.1, ih p hp hpq.2 hqr.2⟩) hab hbc
      | _ => cases hbc
    | _ => cases hab
  | variant t p ih =>
    intro b c hab hbc
    cases b with
    | variant u q =>
      cases c with
      | variant w r =>
        simp only [equal, Bool.and_eq_true, beq_iff_eq] at hab hbc ⊢
        exact ⟨hab.1.trans hbc.1, ih hab.2 hbc.2⟩
      | _ => cases hbc
    | _ => cases hab
  | vector vs ih =>
    intro b c hab hbc
    cases b with
    | vector ws =>
      cases c with
      | vector us =>
        rw [equal_vector, itemsEqual_iff] at hab hbc ⊢
        exact forall₂_trans_of_mem (fun v hv w u hvw hwu => ih v hv hvw hwu) hab hbc
      | _ => cases hbc
    | _ => cases hab
  | int | str | halt | cont | function | member | error =>
    -- `b` and `c` are leaves of the kind of `a`, with its content or identity
    intro b c hab hbc
    cases b <;> cases c <;> simp_all [equal]

theorem equal_comm (a b : Value) : a.equal b = b.equal a :=
  Bool.eq_iff_iff.2 ⟨equal_symm a, equal_symm b⟩

theorem equal_equivalence : Equivalence fun a b : Value => a.equal b = true :=
  ⟨equal_self, fun {a _} => equal_symm a, fun {a _ _} => equal_trans a⟩

end Value

/-! ### The `equal` primitive -/

section Primitive

variable {node : Term} {env : Env}

/-- The `equal` primitive gives a value only when both operands are bound, and then the truth
value of their equality, leaving the machine alone. -/
theorem invoke_equal_ok {a b : String} {m m' : Machine} {v : Value}
    (h : (invoke node env .equal [a, b]).exec m = (.ok v, m')) :
    ∃ va vb, env.lookup a = some va ∧ env.lookup b = some vb ∧
      v = Value.bool (va.equal vb) ∧ m' = m := by
  rw [invoke_eq] at h
  obtain ⟨va, m1, ha, hrest⟩ := bind_ok h
  obtain ⟨hlooka, rfl⟩ := fetch_ok ha
  obtain ⟨vb, m2, hb, hpure⟩ := bind_ok hrest
  obtain ⟨hlookb, rfl⟩ := fetch_ok hb
  cases hpure
  exact ⟨va, vb, hlooka, hlookb, rfl, rfl⟩

theorem invoke_equal_swap_of_ok {a b : String} {m m' : Machine} {v : Value}
    (h : (invoke node env .equal [a, b]).exec m = (.ok v, m')) :
    (invoke node env .equal [b, a]).exec m = (.ok v, m') := by
  obtain ⟨va, vb, ha, hb, rfl, rfl⟩ := invoke_equal_ok h
  rw [Value.equal_comm]
  exact equal_exec hb ha _

end Primitive

/-- `Value.equal` is an equivalence relation on all values, closures included, and so the `equal`
primitive is symmetric: it gives a truth value on the operands `a`, `b` exactly when it gives
that same value on `b`, `a`. -/
theorem equal_equivalence_and_primitive_swap :
    Equivalence (fun a b : Value => a.equal b = true) ∧
      ∀ (node : Term) (env : Env) (a b : String) (m m' : Machine) (v : Value),
        (invoke node env .equal [a, b]).exec m = (.ok v, m') ↔
          (invoke node env .equal [b, a]).exec m = (.ok v, m') :=
  ⟨Value.equal_equivalence, fun _ _ _ _ _ _ _ =>
    ⟨invoke_equal_swap_of_ok, invoke_equal_swap_of_ok⟩⟩

end CpsMachine
