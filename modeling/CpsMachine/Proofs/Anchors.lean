import CpsMachine.Value.Basic

/-!
# Every built environment holds the groups it binds

A member binding is a weak reference: it reads as its member only while the environment holds
a group of that identity. The environments the machine makes are built from the empty one by
binding a value (`Env.extend`) and by making the member environment of a new group
(`Env.withGroup`), `Env.Built`. In each of them every member binding is of a group the
environment holds, at an index below the group's number of definitions, so every name with a
binding reads as a value (`built_envs_are_anchored`).

What the member environment of a group binds (`lookup_withGroup`): a name of the group reads as
its last member of that name, and every other name as in the environment the group was made in.
It carries over the bindings that environment reads (`Env.readable`), and it holds every group
that environment holds and the new one, so what was read there is read the same way
(`Env.read_of_subset`).

`Env.names` lists the names an environment reads (`Env.lookup_isSome_iff`).
-/

namespace CpsMachine

namespace Env

/-! ### Reading bindings -/

section Reading

variable {env env' : Env}

theorem holds_of_subset (h : env.anchors ⊆ env'.anchors) {g : Group} (hg : env.holds g = true) :
    env'.holds g = true := by
  simp only [holds, List.any_eq_true] at hg ⊢
  obtain ⟨a, ha, hid⟩ := hg
  exact ⟨a, h ha, hid⟩

theorem read_of_subset (h : env.anchors ⊆ env'.anchors) {b : Binding} {v : Value}
    (hb : env.read b = some v) : env'.read b = some v := by
  cases b with
  | value w => exact hb
  | member g i =>
    simp only [read] at hb ⊢
    by_cases hg : env.holds g = true
    · rw [if_pos (holds_of_subset h hg)]
      rwa [if_pos hg] at hb
    · rw [if_neg hg] at hb
      cases hb

theorem holds_of_mem {g : Group} (hg : g ∈ env.anchors) : env.holds g = true :=
  List.any_eq_true.2 ⟨g, hg, beq_self_eq_true _⟩

theorem lookup_filter_name (p : String → Bool) (bs : List (String × Binding)) (n : String) :
    (bs.filter fun b => p b.1).lookup n = if p n then bs.lookup n else none := by
  induction bs with
  | nil => simp
  | cons b bs ih =>
    obtain ⟨k, x⟩ := b
    by_cases hk : n = k
    · subst hk
      by_cases hp : p n <;> simp [hp, ih]
    · by_cases hp : p k <;> simp [hp, ih, List.lookup_cons, beq_false_of_ne hk]

theorem lookup_readable (env : Env) (n : String) :
    env.readable.lookup n = if (env.lookup n).isSome then env.bindings.lookup n else none :=
  lookup_filter_name (fun n => (env.lookup n).isSome) env.bindings n

theorem lookup_foldl_cons {ι : Type} (key : ι → String) (val : ι → Binding) (is : List ι)
    (bs : List (String × Binding)) (n : String) :
    (is.foldl (fun bs i => (key i, val i) :: bs) bs).lookup n =
      ((is.reverse.find? fun i => key i = n).map val).or (bs.lookup n) := by
  induction is generalizing bs with
  | nil => rfl
  | cons i is ih =>
    rw [List.foldl_cons, ih, List.reverse_cons, List.find?_append]
    cases is.reverse.find? (fun i => key i = n) with
    | some j => rfl
    | none =>
      by_cases hkey : key i = n
      · subst hkey
        simp
      · simp [hkey, List.lookup_cons, beq_false_of_ne (Ne.symm hkey)]

theorem mem_foldl_cons {ι : Type} (key : ι → String) (val : ι → Binding) (is : List ι)
    (bs : List (String × Binding)) (x : String × Binding) :
    x ∈ is.foldl (fun bs i => (key i, val i) :: bs) bs ↔ (∃ i ∈ is, x = (key i, val i)) ∨ x ∈ bs := by
  induction is generalizing bs with
  | nil => simp
  | cons i is ih =>
    rw [List.foldl_cons, ih]
    simp only [List.mem_cons, exists_eq_or_imp]
    -- the binding of `i` is the newest of the list it is pushed on
    constructor
    · rintro (hin | hnew | hold)
      · exact .inl (.inr hin)
      · exact .inl (.inl hnew)
      · exact .inr hold
    · rintro ((hnew | hin) | hold)
      · exact .inr (.inl hnew)
      · exact .inl hin
      · exact .inr (.inr hold)

end Reading

/-! ### The names an environment reads -/

/-- The names the environment reads, newest binding first; a name bound twice is listed twice. -/
def names (env : Env) : List String :=
  (env.bindings.map Prod.fst).filter fun n => (env.lookup n).isSome

theorem lookup_isSome_iff {env : Env} {n : String} : (env.lookup n).isSome ↔ n ∈ env.names := by
  simp only [names, List.mem_filter, List.mem_map]
  refine ⟨fun hn => ⟨?_, hn⟩, And.right⟩
  -- a name that reads has a binding
  obtain ⟨v, hv⟩ := Option.isSome_iff_exists.1 hn
  have hv' : (env.bindings.lookup n).bind env.read = some v := hv
  obtain ⟨b, hb, -⟩ := Option.bind_eq_some_iff.1 hv'
  obtain ⟨p, hp, hnp⟩ := List.lookup_isSome_iff.1 (Option.isSome_iff_exists.2 ⟨b, hb⟩)
  exact ⟨p, hp, (beq_iff_eq.1 hnp).symm⟩

theorem exists_lookup_of_mem {env : Env} {n : String} (hn : n ∈ env.names) :
    ∃ v, env.lookup n = some v :=
  Option.isSome_iff_exists.1 (lookup_isSome_iff.2 hn)

theorem mem_names_extend {env : Env} {n m : String} {v : Value} :
    m ∈ (env.extend n v).names ↔ m = n ∨ m ∈ env.names := by
  rw [← lookup_isSome_iff, ← lookup_isSome_iff, lookup_extend]
  by_cases h : n = m
  · subst h
    simp
  · simp [h, Ne.symm h]

theorem names_extend_subset (env : Env) (n : String) (v : Value) :
    n :: env.names ⊆ (env.extend n v).names := by
  intro m hm
  exact mem_names_extend.2 (List.mem_cons.1 hm)

end Env

/-! ### The member environment of a group -/

/-- The last definition of `defs` named `n`, which the environment of the group binds `n` to. -/
def memberIndex? (defs : List (String × Lambda)) (n : String) : Option (Fin defs.length) :=
  (List.finRange defs.length).reverse.find? (fun i => (defs.get i).1 = n)

section MemberEnv

variable (env : Env) (id : Nat) (defs : List (String × Lambda))

theorem bindings_withGroup :
    (env.withGroup id defs).bindings =
      (List.finRange defs.length).foldl
        (fun bs i => ((defs.get i).1, Binding.member (.mk id defs env) i) :: bs) env.readable :=
  rfl

theorem anchors_withGroup :
    (env.withGroup id defs).anchors = env.anchors ++ [.mk id defs env] :=
  rfl

/-- In the environment of a group, a name of the group is its last member of that name, and every
other name is as before. -/
theorem lookup_withGroup (n : String) :
    (env.withGroup id defs).lookup n =
      ((memberIndex? defs n).map fun i => .member (.mk id defs env) i).or (env.lookup n) := by
  have hsub : env.anchors ⊆ (env.withGroup id defs).anchors := by
    rw [anchors_withGroup]
    exact List.subset_append_left _ _
  have hheld : (env.withGroup id defs).holds (.mk id defs env) = true :=
    Env.holds_of_mem (by rw [anchors_withGroup]; exact List.mem_append_right _ (List.mem_singleton_self _))
  rw [Env.lookup, bindings_withGroup, Env.lookup_foldl_cons, Env.lookup_readable]
  cases hi : memberIndex? defs n with
  | some i =>
    -- the group's own binding, read while the environment holds the group
    have hfind : ((List.finRange defs.length).reverse.find? fun i => (defs.get i).1 = n) = some i := hi
    simp only [hfind, Option.map_some, Option.some_or, Option.bind_some, Env.read, hheld, if_true]
  | none =>
    have hfind : ((List.finRange defs.length).reverse.find? fun i => (defs.get i).1 = n) = none := hi
    simp only [hfind, Option.map_none, Option.none_or]
    -- a binding the old environment reads is read the same way
    cases hlook : env.lookup n with
    | none => simp
    | some v =>
      have hlook' : (env.bindings.lookup n).bind env.read = some v := hlook
      obtain ⟨b, hb, hread⟩ := Option.bind_eq_some_iff.1 hlook'
      simp only [Option.isSome_some, if_true, hb, Option.bind_some]
      exact Env.read_of_subset hsub hread

theorem mem_names_withGroup {n : String} :
    n ∈ (env.withGroup id defs).names ↔ n ∈ defs.map Prod.fst ++ env.names := by
  rw [← Env.lookup_isSome_iff, lookup_withGroup, List.mem_append, ← Env.lookup_isSome_iff]
  cases hi : memberIndex? defs n with
  | some i =>
    have hname : (defs.get i).1 = n := by
      simpa using List.find?_some hi
    simp only [Option.map_some, Option.some_or, Option.isSome_some, true_iff]
    exact .inl (List.mem_map.2 ⟨defs.get i, List.get_mem _ _, hname⟩)
  | none =>
    have hnot : n ∉ defs.map Prod.fst := by
      intro hn
      obtain ⟨d, hd, rfl⟩ := List.mem_map.1 hn
      obtain ⟨j, rfl⟩ := List.get_of_mem hd
      have := List.find?_eq_none.1 hi j (List.mem_reverse.2 (List.mem_finRange j))
      simp at this
    simp [hnot]

end MemberEnv

/-! ### Built environments hold their groups -/

/-- The environments the machine builds: from the empty one, by binding a value and by making the
member environment of a new group. -/
inductive Env.Built : Env → Prop
  | empty : Env.Built .empty
  | extend {env : Env} (n : String) (v : Value) : Env.Built env → Env.Built (env.extend n v)
  | withGroup {env : Env} (id : Nat) (defs : List (String × Lambda)) :
      Env.Built env → Env.Built (env.withGroup id defs)

namespace Env

/-- Every member binding is of a group the environment holds, at an index below the group's
number of definitions. -/
def Anchored (env : Env) : Prop :=
  ∀ n g i, (n, Binding.member g i) ∈ env.bindings → g ∈ env.anchors ∧ i < g.defs.length

theorem Anchored.empty : Env.empty.Anchored :=
  fun _ _ _ h => nomatch h

theorem Anchored.extend {env : Env} (h : env.Anchored) (n : String) (v : Value) :
    (env.extend n v).Anchored := by
  intro m g i hmem
  rw [bindings_extend, List.mem_cons] at hmem
  rcases hmem with hnew | hold
  · cases hnew
  · exact h m g i hold

theorem Anchored.withGroup {env : Env} (h : env.Anchored) (id : Nat)
    (defs : List (String × Lambda)) : (env.withGroup id defs).Anchored := by
  intro m g i hmem
  rw [bindings_withGroup, mem_foldl_cons] at hmem
  rw [anchors_withGroup]
  rcases hmem with ⟨j, -, hj⟩ | hold
  · -- a binding of the group's own
    simp only [Prod.mk.injEq, Binding.member.injEq] at hj
    obtain ⟨-, rfl, rfl⟩ := hj
    exact ⟨List.mem_append_right _ (List.mem_singleton_self _), j.isLt⟩
  · have hb : (m, Binding.member g i) ∈ env.bindings := (List.mem_filter.1 hold).1
    obtain ⟨hg, hi⟩ := h m g i hb
    exact ⟨List.mem_append_left _ hg, hi⟩

theorem Built.anchored {env : Env} (h : env.Built) : env.Anchored := by
  induction h with
  | empty => exact Anchored.empty
  | extend n v _ ih => exact ih.extend n v
  | withGroup id defs _ ih => exact ih.withGroup id defs

theorem Anchored.lookup_isSome {env : Env} (h : env.Anchored) (n : String) :
    (env.lookup n).isSome = env.contains n := by
  unfold lookup contains
  cases hb : env.bindings.lookup n with
  | none => rfl
  | some b =>
    cases b with
    | value v => rfl
    | member g i =>
      obtain ⟨l₁, l₂, hbs, -⟩ := List.lookup_eq_some_iff.1 hb
      have hmem : (n, Binding.member g i) ∈ env.bindings := by
        rw [hbs]
        exact List.mem_append_right _ List.mem_cons_self
      simp [read, holds_of_mem (h n g i hmem).1]

end Env

/-- Every environment built from the empty one by binding values and by making member
environments of groups holds the group of each of its member bindings, at an index below the
group's number of definitions; so every name it has a binding for reads as a value. -/
theorem built_envs_are_anchored {env : Env} (h : env.Built) :
    (∀ n g i, (n, Binding.member g i) ∈ env.bindings → g ∈ env.anchors ∧ i < g.defs.length) ∧
      ∀ n, (env.lookup n).isSome = env.contains n :=
  ⟨h.anchored, h.anchored.lookup_isSome⟩

theorem member_env_reads_its_names :
    ((Env.empty.extend "outer" (.int 1)).withGroup 0
        [("f", ⟨"k", "x", .appC (.named "k") "x"⟩)]).Built ∧
      (∀ n g i, (n, Binding.member g i) ∈ ((Env.empty.extend "outer" (.int 1)).withGroup 0
          [("f", ⟨"k", "x", .appC (.named "k") "x"⟩)]).bindings →
        g ∈ ((Env.empty.extend "outer" (.int 1)).withGroup 0
          [("f", ⟨"k", "x", .appC (.named "k") "x"⟩)]).anchors ∧ i < g.defs.length) ∧
      ∀ n, (((Env.empty.extend "outer" (.int 1)).withGroup 0
          [("f", ⟨"k", "x", .appC (.named "k") "x"⟩)]).lookup n).isSome =
        ((Env.empty.extend "outer" (.int 1)).withGroup 0
          [("f", ⟨"k", "x", .appC (.named "k") "x"⟩)]).contains n := by
  have hbuilt : ((Env.empty.extend "outer" (.int 1)).withGroup 0
      [("f", ⟨"k", "x", .appC (.named "k") "x"⟩)]).Built :=
    .withGroup _ _ (.extend _ _ .empty)
  exact ⟨hbuilt, built_envs_are_anchored hbuilt⟩

end CpsMachine
