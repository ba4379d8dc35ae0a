import CpsMachine.Proofs.Effects
import CpsMachine.Proofs.Scope

/-!
# A recursive group is one shared fixed point

`letF_builds_one_fixed_point`: a `letF` in an environment `E` on a machine whose next identity is
`g` runs its body in `M = E.withGroup g defs`, which binds each name of the group to the member of
greatest index with that name (the later definition wins) and every other name as `E` does. Every
application of member `i`, under whatever name it is reached, runs `defs[i]`'s body in `M`
extended by the continuation and the argument: one environment, the same for every member and
every call. A value read from `M` under a group name is equal to the member bound there, and the
members of two `letF` steps of a sequence of evaluations on one machine are never equal.

The last holds because identities are never taken twice: the next identity only grows
(`Frame.ids`), and a `letF` step takes it (`Machine.IdsGrow`, carried along the trail by
`run_trail`).
-/

namespace CpsMachine

open EvalM

/-! ### The member a name of the group is bound to -/

section MemberIndex

variable {defs : List (String × Lambda)} {n : String}

theorem memberIndex?_some {i : Fin defs.length} (h : memberIndex? defs n = some i) :
    (defs.get i).1 = n ∧ ∀ j : Fin defs.length, (defs.get j).1 = n → j ≤ i := by
  unfold memberIndex? at h
  obtain ⟨hi, before, after, hsplit, hbefore⟩ := List.find?_eq_some_iff_append.1 h
  refine ⟨of_decide_eq_true hi, fun j hj => ?_⟩
  -- the search runs from the last index down, so what it passed is above `i`, what is left below
  have hdesc : (before ++ i :: after).Pairwise (· > ·) := by
    rw [← hsplit, List.pairwise_reverse]
    exact List.pairwise_lt_finRange _
  have hmem : j ∈ before ++ i :: after := by
    rw [← hsplit, List.mem_reverse]
    exact List.mem_finRange j
  rcases List.mem_append.1 hmem with hj' | hj'
  · have hnot := hbefore j hj'
    simp only [hj, decide_true, Bool.not_true, Bool.false_eq_true] at hnot
  · rcases List.mem_cons.1 hj' with rfl | hj''
    · exact Fin.le_refl _
    · exact Fin.le_of_lt (List.rel_of_pairwise_cons (List.pairwise_append.1 hdesc).2.1 hj'')

theorem memberIndex?_of_last {i : Fin defs.length} (hi : (defs.get i).1 = n)
    (hlast : ∀ j : Fin defs.length, (defs.get j).1 = n → j ≤ i) : memberIndex? defs n = some i := by
  cases h : memberIndex? defs n with
  | none =>
    unfold memberIndex? at h
    have hnot := List.find?_eq_none.1 h i (List.mem_reverse.2 (List.mem_finRange i))
    simp only [hi, decide_true, not_true_eq_false] at hnot
  | some j =>
    obtain ⟨hj, hjlast⟩ := memberIndex?_some h
    exact congrArg some (Fin.le_antisymm (hlast j hj) (hjlast i hi))

theorem memberIndex?_of_not_mem (hn : n ∉ defs.map Prod.fst) : memberIndex? defs n = none := by
  unfold memberIndex?
  rw [List.find?_eq_none]
  intro i _ hi
  exact hn (List.mem_map.2 ⟨defs.get i, List.get_mem defs i, of_decide_eq_true hi⟩)

theorem memberIndex?_of_mem (hn : n ∈ defs.map Prod.fst) : ∃ i, memberIndex? defs n = some i := by
  cases h : memberIndex? defs n with
  | some i => exact ⟨i, rfl⟩
  | none =>
    obtain ⟨d, hd, rfl⟩ := List.mem_map.1 hn
    obtain ⟨i, rfl⟩ := List.get_of_mem hd
    unfold memberIndex? at h
    have hnot := List.find?_eq_none.1 h i (List.mem_reverse.2 (List.mem_finRange i))
    simp at hnot

end MemberIndex

section Bindings

variable {E : Env} {g : Nat} {defs : List (String × Lambda)} {n : String}

/-- In the environment of a group, a name of the group is bound to its last member of that
name. -/
theorem lookup_withGroup_last {i : Fin defs.length} (hi : (defs.get i).1 = n)
    (hlast : ∀ j : Fin defs.length, (defs.get j).1 = n → j ≤ i) :
    (E.withGroup g defs).lookup n = some (.member (.mk g defs E) i) := by
  rw [lookup_withGroup, memberIndex?_of_last hi hlast]
  rfl

theorem lookup_withGroup_other (hn : n ∉ defs.map Prod.fst) :
    (E.withGroup g defs).lookup n = E.lookup n := by
  rw [lookup_withGroup, memberIndex?_of_not_mem hn]
  rfl

theorem lookup_withGroup_mem (hn : n ∈ defs.map Prod.fst) :
    ∃ i : Fin defs.length, (E.withGroup g defs).lookup n = some (.member (.mk g defs E) i) ∧
      (defs.get i).1 = n ∧ ∀ j : Fin defs.length, (defs.get j).1 = n → j ≤ i := by
  obtain ⟨i, hi⟩ := memberIndex?_of_mem hn
  obtain ⟨hname, hlast⟩ := memberIndex?_some hi
  exact ⟨i, lookup_withGroup_last hname hlast, hname, hlast⟩

end Bindings

/-! ### Steps of a group -/

theorem Value.equal_member (g g' : Group) (i j : Nat) :
    (Value.member g i).equal (.member g' j) = (g.id == g'.id && i == j) := by
  simp only [Value.equal]

/-- A member within its group's definitions runs its definition in the group's member
environment. -/
theorem callee_member_exec {node : Term} {f : String} (g : Group) (i : Fin g.defs.length)
    (m : Machine) :
    (callee node f (.member g i)).exec m = (.ok (g.memberEnv, (g.defs.get i).2), m) := by
  simp only [callee, List.getElem?_eq_getElem i.isLt, List.get_eq_getElem]
  rfl

theorem advance_letF (defs : List (String × Lambda)) (body : Term) (E : Env) (m : Machine) :
    (State.mk (.letF defs body) E m).advance =
      (.ok (.next body (E.withGroup m.nextId defs)),
        { m with steps := m.steps + 1, nextId := m.nextId + 1 }) := rfl

theorem step_appF_member {f a : String} {k : ContRef} {env E : Env} {g : Nat}
    {defs : List (String × Lambda)} {i : Fin defs.length} {K v : Value} {m : Machine}
    (hf : env.lookup f = some (.member (.mk g defs E) i))
    (hk : (contValue (.appF f k a) env k).exec m = (.ok K, m)) (ha : env.lookup a = some v) :
    (step (.appF f k a) env).exec m =
      (.ok (.next (defs.get i).2.body
        (((E.withGroup g defs).extend (defs.get i).2.contParam K).extend (defs.get i).2.param v)),
        m) :=
  step_appF_exec hf (callee_member_exec (.mk g defs E) i m) hk ha

/-! ### Identities are never taken twice -/

/-- The next identity only grows. -/
def Frame.ids : Frame where
  rel m m' := m.nextId ≤ m'.nextId
  refl _ := Nat.le_refl _
  trans h₁ h₂ := Nat.le_trans h₁ h₂
  fresh _ := Nat.le_succ _
  tick _ := Nat.le_refl _

theorem read_keeps_ids (node : Term) (res : String) : (Invoke.read node res).Keeps Frame.ids := by
  intro m
  rw [read_exec]
  split
  · exact Nat.le_refl _
  · split <;> exact Nat.le_refl _

theorem write_keeps_ids (node : Term) (env : Env) (res a : String) :
    (Invoke.write node env res a).Keeps Frame.ids := by
  intro m
  cases hlook : env.lookup a with
  | none =>
    rw [write_exec_unbound hlook]
    exact Nat.le_refl _
  | some v =>
    cases htext : v.text? with
    | none =>
      rw [write_exec_untext hlook htext]
      exact Nat.le_refl _
    | some text =>
      rw [write_exec_text hlook htext]
      split
      · exact Nat.le_refl _
      · split <;> exact Nat.le_refl _

theorem State.nextId_le_advance (s : State) : s.machine.nextId ≤ s.advance.2.nextId :=
  State.advance_keeps fun _ _ _ _ _ =>
    invoke_keeps (fun _ _ _ _ => read_keeps_ids _ _) (fun _ _ _ _ => write_keeps_ids _ _ _ _)

/-- `ss` are states entered in order between the machines `m` and `m'`, as far as identities
go: each state's step leaves an identity no larger than the next identity of every later state
and of `m'`. -/
structure Machine.IdsGrow (m : Machine) (ss : List State) (m' : Machine) : Prop where
  start : ∀ q ∈ ss, m.nextId ≤ q.machine.nextId
  finish : ∀ q ∈ ss, q.advance.2.nextId ≤ m'.nextId
  order : ss.Pairwise fun q q' => q.advance.2.nextId ≤ q'.machine.nextId
  grows : m.nextId ≤ m'.nextId

namespace Machine.IdsGrow

theorem nil (m : Machine) : m.IdsGrow [] m where
  start _ h := nomatch h
  finish _ h := nomatch h
  order := .nil
  grows := Nat.le_refl _

theorem single (s : State) : s.machine.IdsGrow [s] s.advance.2 where
  start q hq := by
    obtain rfl := List.mem_singleton.1 hq
    exact Nat.le_refl _
  finish q hq := by
    obtain rfl := List.mem_singleton.1 hq
    exact Nat.le_refl _
  order := List.pairwise_singleton _ _
  grows := s.nextId_le_advance

theorem append {m₁ m₂ m₃ : Machine} {ss ss' : List State} (h₁ : m₁.IdsGrow ss m₂)
    (h₂ : m₂.IdsGrow ss' m₃) : m₁.IdsGrow (ss ++ ss') m₃ where
  start q hq := (List.mem_append.1 hq).elim (h₁.start q)
    fun hq => Nat.le_trans h₁.grows (h₂.start q hq)
  finish q hq := (List.mem_append.1 hq).elim (fun hq => Nat.le_trans (h₁.finish q hq) h₂.grows)
    (h₂.finish q)
  order := List.pairwise_append.2 ⟨h₁.order, h₂.order,
    fun q hq q' hq' => Nat.le_trans (h₁.finish q hq) (h₂.start q' hq')⟩
  grows := Nat.le_trans h₁.grows h₂.grows

end Machine.IdsGrow

theorem evalAll_groups_increase (m : Machine) (evs : List (Term × Env)) :
    (m.evalAll evs).1.Pairwise fun q q' => ∀ defs b, q.term = .letF defs b →
      q.machine.nextId < q'.machine.nextId := by
  have hgrow : m.IdsGrow (m.evalAll evs).1 (m.evalAll evs).2 :=
    evalAll_trail Machine.IdsGrow.nil Machine.IdsGrow.single Machine.IdsGrow.append m evs
  refine hgrow.order.imp fun {q q'} hle defs b hterm => ?_
  obtain ⟨t, env, mq⟩ := q
  dsimp only at hterm hle ⊢
  subst hterm
  rw [advance_letF] at hle
  exact Nat.lt_of_succ_le hle

/-! ### The fixed point -/

/-- `letF` builds one shared fixed point. Its body runs in `M`, the environment `E` with each
name of the group bound to the member of greatest index with that name and every other name as
in `E`; a name of the group reads a value equal to that member; every application of member `i`,
under any name, runs `defs[i]`'s body in `M` extended by the continuation and the argument; and
the members of two `letF` steps of a sequence of evaluations on one machine are never equal. -/
theorem letF_builds_one_fixed_point (defs : List (String × Lambda)) (body : Term) (E : Env)
    (m : Machine) :
    (State.mk (.letF defs body) E m).advance =
      (.ok (.next body (E.withGroup m.nextId defs)),
        { m with steps := m.steps + 1, nextId := m.nextId + 1 }) ∧
    (∀ (n : String) (i : Fin defs.length), (defs.get i).1 = n →
      (∀ j : Fin defs.length, (defs.get j).1 = n → j ≤ i) →
      (E.withGroup m.nextId defs).lookup n = some (.member (.mk m.nextId defs E) i)) ∧
    (∀ n, n ∉ defs.map Prod.fst → (E.withGroup m.nextId defs).lookup n = E.lookup n) ∧
    (∀ n w, n ∈ defs.map Prod.fst → (E.withGroup m.nextId defs).lookup n = some w →
      ∃ i : Fin defs.length, (defs.get i).1 = n ∧
        w.equal (.member (.mk m.nextId defs E) i) = true) ∧
    (∀ (i : Fin defs.length) (env : Env) (f a : String) (k : ContRef) (K v : Value) (m' : Machine),
      env.lookup f = some (.member (.mk m.nextId defs E) i) →
      (contValue (.appF f k a) env k).exec m' = (.ok K, m') → env.lookup a = some v →
      (step (.appF f k a) env).exec m' =
        (.ok (.next (defs.get i).2.body
          ((((E.withGroup m.nextId defs).extend (defs.get i).2.contParam K).extend
            (defs.get i).2.param v))), m')) ∧
    (∀ (m₀ : Machine) (evs : List (Term × Env)),
      (m₀.evalAll evs).1.Pairwise fun q q' =>
        ∀ defs b defs' b' (i : Fin defs.length) (j : Fin defs'.length),
          q.term = .letF defs b → q'.term = .letF defs' b' →
          (Value.member (.mk q.machine.nextId defs q.env) i).equal
            (.member (.mk q'.machine.nextId defs' q'.env) j) = false) := by
  refine ⟨advance_letF defs body E m, fun n i hi hlast => lookup_withGroup_last hi hlast,
    fun n hn => lookup_withGroup_other hn, ?_, fun i env f a k K v m' hf hk ha =>
      step_appF_member hf hk ha, ?_⟩
  · intro n w hn hw
    obtain ⟨i, hlook, hname, -⟩ := lookup_withGroup_mem (E := E) (g := m.nextId) hn
    rw [hlook, Option.some.injEq] at hw
    subst hw
    refine ⟨i, hname, ?_⟩
    simp [Value.equal_member]
  · intro m₀ evs
    refine (evalAll_groups_increase m₀ evs).imp fun {q q'} hlt defs b defs' b' i j hq _ => ?_
    have hne : q.machine.nextId ≠ q'.machine.nextId := Nat.ne_of_lt (hlt defs b hq)
    simp [Value.equal_member, hne]

end CpsMachine
