import CpsMachine.Proofs.Scope

/-!
# Values that differ only where nothing reads

Two runs of one term in environments that agree on the names the term reads make values that
differ only in bindings no closure reads. `Value.Sim h v w` relates such values: they have the
same shape, the same data and the same closure identities, parameters and bodies, and the
environments two related closures capture agree, up to the relation, on a scope the body is
closed over (`Env.SimOn`), read against the halt name `h`.

Related values are observed alike: they display alike (`Value.Sim.displayTo_eq`) and the
machine's equality cannot tell them apart (`Value.Sim.equal_eq`). Every value is related to
itself (`Value.sim_refl`), since every body is closed over some scope. The relation is kept by
extending both environments with related values and by binding a recursive group over both
(`Env.SimOn.extend`, `Env.SimOn.withGroup`).
-/

namespace CpsMachine

mutual

/-- `v` and `w` differ only in bindings that their closures' bodies never read. -/
inductive Value.Sim (h : String) : Value → Value → Prop
  | int {n} : Value.Sim h (.int n) (.int n)
  | str {s} : Value.Sim h (.str s) (.str s)
  | error {msg} : Value.Sim h (.error msg) (.error msg)
  | halt : Value.Sim h .halt .halt
  | record {fs gs} : Value.FieldsSim h fs gs → Value.Sim h (.record fs) (.record gs)
  | variant {tag v w} : Value.Sim h v w → Value.Sim h (.variant tag v) (.variant tag w)
  | vector {vs ws} : Value.ItemsSim h vs ws → Value.Sim h (.vector vs) (.vector ws)
  | cont {id env env' p b G} : b.Closed h (p :: G) →
      (∀ n ∈ G, (env.lookup n).isSome = (env'.lookup n).isSome) →
      (∀ n ∈ G, ∀ v w, env.lookup n = some v → env'.lookup n = some w → Value.Sim h v w) →
      Value.Sim h (.cont id env p b) (.cont id env' p b)
  | function {id env env' fn G} : fn.Closed h G →
      (∀ n ∈ G, (env.lookup n).isSome = (env'.lookup n).isSome) →
      (∀ n ∈ G, ∀ v w, env.lookup n = some v → env'.lookup n = some w → Value.Sim h v w) →
      Value.Sim h (.function id env fn) (.function id env' fn)
  | member {g defs env env' i G} : (∀ d ∈ defs, d.2.Closed h (defs.map Prod.fst ++ G)) →
      (∀ n ∈ G, (env.lookup n).isSome = (env'.lookup n).isSome) →
      (∀ n ∈ G, ∀ v w, env.lookup n = some v → env'.lookup n = some w → Value.Sim h v w) →
      Value.Sim h (.member (.mk g defs env) i) (.member (.mk g defs env') i)

/-- Fields with the same names in the same order, pairwise related values. -/
inductive Value.FieldsSim (h : String) : List (String × Value) → List (String × Value) → Prop
  | nil : Value.FieldsSim h [] []
  | cons {n v w fs gs} : Value.Sim h v w → Value.FieldsSim h fs gs →
      Value.FieldsSim h ((n, v) :: fs) ((n, w) :: gs)

/-- Items pairwise related. -/
inductive Value.ItemsSim (h : String) : List Value → List Value → Prop
  | nilItems : Value.ItemsSim h [] []
  | consItems {v w vs ws} : Value.Sim h v w → Value.ItemsSim h vs ws →
      Value.ItemsSim h (v :: vs) (w :: ws)

end

/-- On the names of `G`, both environments bind a name or neither does, and to related values. -/
def Env.SimOn (h : String) (G : List String) (env env' : Env) : Prop :=
  (∀ n ∈ G, (env.lookup n).isSome = (env'.lookup n).isSome) ∧
    ∀ n ∈ G, ∀ v w, env.lookup n = some v → env'.lookup n = some w → Value.Sim h v w

/-! ### Related environments -/

namespace Env.SimOn

variable {h : String} {G G' : List String} {env env' : Env}

theorem lookup (hE : env.SimOn h G env') {n : String} (hn : n ∈ G) :
    (env.lookup n = none ∧ env'.lookup n = none) ∨
      ∃ v w, env.lookup n = some v ∧ env'.lookup n = some w ∧ Value.Sim h v w := by
  have hsome := hE.1 n hn
  cases hv : env.lookup n with
  | none =>
    rw [hv, Option.isSome_none] at hsome
    exact .inl ⟨rfl, Option.not_isSome_iff_eq_none.1 (by rw [← hsome]; simp)⟩
  | some v =>
    rw [hv, Option.isSome_some] at hsome
    obtain ⟨w, hw⟩ := Option.isSome_iff_exists.1 hsome.symm
    exact .inr ⟨v, w, rfl, hw, hE.2 n hn v w hv hw⟩

theorem mono (hE : env.SimOn h G env') (hsub : G' ⊆ G) : env.SimOn h G' env' :=
  ⟨fun n hn => hE.1 n (hsub hn), fun n hn => hE.2 n (hsub hn)⟩

theorem extend (hE : env.SimOn h G env') (x : String) {v w : Value} (hvw : Value.Sim h v w) :
    (env.extend x v).SimOn h (x :: G) (env'.extend x w) := by
  constructor
  · intro n hn
    rw [Env.lookup_extend, Env.lookup_extend]
    by_cases hx : x = n
    · simp [hx]
    · rw [if_neg hx, if_neg hx]
      exact hE.1 n ((List.mem_cons.1 hn).resolve_left (Ne.symm hx))
  · intro n hn v' w' hv hw
    rw [Env.lookup_extend] at hv hw
    by_cases hx : x = n
    · rw [if_pos hx] at hv hw
      cases hv
      cases hw
      exact hvw
    · rw [if_neg hx] at hv hw
      exact hE.2 n ((List.mem_cons.1 hn).resolve_left (Ne.symm hx)) v' w' hv hw

end Env.SimOn

theorem not_mem_of_memberIndex_none {defs : List (String × Lambda)} {n : String}
    (h : memberIndex? defs n = none) : n ∉ defs.map Prod.fst := by
  intro hn
  obtain ⟨d, hd, rfl⟩ := List.mem_map.1 hn
  obtain ⟨i, rfl⟩ := List.get_of_mem hd
  have := List.find?_eq_none.1 h i (by simp)
  simp at this

theorem Env.SimOn.withGroup {h : String} {G : List String} {env env' : Env}
    (hE : env.SimOn h G env') {g : Nat} {defs : List (String × Lambda)}
    (hdefs : ∀ d ∈ defs, d.2.Closed h (defs.map Prod.fst ++ G)) :
    (env.withGroup g defs).SimOn h (defs.map Prod.fst ++ G) (env'.withGroup g defs) := by
  constructor
  · intro n hn
    rw [lookup_withGroup, lookup_withGroup]
    cases hi : memberIndex? defs n with
    | some i => rfl
    | none =>
      -- a name of no definition is in the scope the group extends
      have hnG := (List.mem_append.1 hn).resolve_left (not_mem_of_memberIndex_none hi)
      simpa [Option.or] using hE.1 n hnG
  · intro n hn v w hv hw
    rw [lookup_withGroup] at hv hw
    cases hi : memberIndex? defs n with
    | some i =>
      rw [hi] at hv hw
      cases hv
      cases hw
      exact .member hdefs hE.1 hE.2
    | none =>
      rw [hi] at hv hw
      have hnG := (List.mem_append.1 hn).resolve_left (not_mem_of_memberIndex_none hi)
      exact hE.2 n hnG v w hv hw

/-! ### Related values are observed alike -/

section Observed

variable {h : String}

theorem Value.Sim.displayTo_eq {v w : Value} (hvw : Value.Sim h v w) :
    ∀ out, v.displayTo out = w.displayTo out := by
  induction hvw using Value.Sim.rec
    (motive_2 := fun fs gs _ => ∀ out, Value.fieldsDisplayTo out fs = Value.fieldsDisplayTo out gs)
    (motive_3 := fun vs ws _ => ∀ out, Value.itemsDisplayTo out vs = Value.itemsDisplayTo out ws)
    with
  | int | str | error | halt | cont | function | member => intro out; rfl
  | record _ ih => intro out; simp only [Value.displayTo, ih]
  | variant _ ih => intro out; simp only [Value.displayTo, ih]
  | vector _ ih => intro out; simp only [Value.displayTo, ih]
  | nil out => rfl
  | cons _ hrest ihv ihrest out =>
    -- the last field is written without a separator after it
    cases hrest with
    | nil => simp only [Value.fieldsDisplayTo, ihv]
    | cons => simp only [Value.fieldsDisplayTo, ihv, ihrest]
  | nilItems out => rfl
  | consItems _ hrest ihv ihrest out =>
    cases hrest with
    | nilItems => simp only [Value.itemsDisplayTo, ihv]
    | consItems => simp only [Value.itemsDisplayTo, ihv, ihrest]

theorem Value.Sim.display_eq {v w : Value} (hvw : Value.Sim h v w) : v.display = w.display :=
  hvw.displayTo_eq ""

theorem Value.Sim.equal_eq {v v' : Value} (hv : Value.Sim h v v') :
    ∀ w w', Value.Sim h w w' → v.equal w = v'.equal w' := by
  induction hv using Value.Sim.rec
    (motive_2 := fun fs fs' _ => ∀ gs gs', Value.FieldsSim h gs gs' →
      Value.fieldsEqual fs gs = Value.fieldsEqual fs' gs')
    (motive_3 := fun vs vs' _ => ∀ ws ws', Value.ItemsSim h ws ws' →
      Value.itemsEqual vs ws = Value.itemsEqual vs' ws')
    with
  | int | str | error | halt | cont | function | member => intro w w' hw; cases hw <;> rfl
  | record _ ih =>
    intro w w' hw
    cases hw with
    | record hgs => exact ih _ _ hgs
    | _ => rfl
  | variant _ ih =>
    intro w w' hw
    cases hw with
    | variant hp => simp only [Value.equal, ih _ _ hp]
    | _ => rfl
  | vector _ ih =>
    intro w w' hw
    cases hw with
    | vector hws => exact ih _ _ hws
    | _ => rfl
  | nil gs gs' hgs => cases hgs <;> rfl
  | cons _ _ ihv ihrest gs gs' hgs =>
    cases hgs with
    | nil => rfl
    | cons hw hrest => simp only [Value.fieldsEqual, ihv _ _ hw, ihrest _ _ hrest]
  | nilItems ws ws' hws => cases hws <;> rfl
  | consItems _ _ ihv ihrest ws ws' hws =>
    cases hws with
    | nilItems => rfl
    | consItems hw hrest => simp only [Value.itemsEqual, ihv _ _ hw, ihrest _ _ hrest]

end Observed

/-! ### Every value is related to itself -/

section Refl

variable (h : String)

theorem Env.simOn_self {env : Env} (G : List String)
    (hrefl : ∀ n v, env.lookup n = some v → Value.Sim h v v) : env.SimOn h G env := by
  refine ⟨fun _ _ => rfl, fun n _ v w hv hw => ?_⟩
  rw [hv, Option.some.injEq] at hw
  subst hw
  exact hrefl n v hv

mutual

/-- Every value is related to itself: each body is closed over some scope, on which the captured
environment agrees with itself. -/
theorem Value.sim_refl : (v : Value) → Value.Sim h v v
  | .int _ => .int
  | .str _ => .str
  | .error _ => .error
  | .halt => .halt
  | .record fs => .record (Value.fieldsSim_refl fs)
  | .variant _ v => .variant (Value.sim_refl v)
  | .vector vs => .vector (Value.itemsSim_refl vs)
  | .cont _ env p b => by
    obtain ⟨G, hb⟩ := Term.closed_exists (h := h) b
    have hE := Env.simOn_self h G (Env.sim_refl_lookup env)
    exact .cont (hb.mono _ (List.subset_cons_self p G)) hE.1 hE.2
  | .function _ env fn => by
    obtain ⟨G, hfn⟩ := Lambda.closed_exists (h := h) fn
    have hE := Env.simOn_self h G (Env.sim_refl_lookup env)
    exact .function hfn hE.1 hE.2
  | .member g i => Group.sim_refl_member g i

theorem Value.fieldsSim_refl : (fs : List (String × Value)) → Value.FieldsSim h fs fs
  | [] => .nil
  | (_, v) :: fs => .cons (Value.sim_refl v) (Value.fieldsSim_refl fs)

theorem Value.itemsSim_refl : (vs : List Value) → Value.ItemsSim h vs vs
  | [] => .nilItems
  | v :: vs => .consItems (Value.sim_refl v) (Value.itemsSim_refl vs)

theorem Group.sim_refl_member : (g : Group) → ∀ i, Value.Sim h (.member g i) (.member g i)
  | .mk _ defs env => fun _ => by
    obtain ⟨G, hdefs⟩ := defs_closed_exists (h := h) defs
    have hE := Env.simOn_self h G (Env.sim_refl_lookup env)
    exact .member (fun d hd => (hdefs d hd).mono (List.subset_append_right _ _)) hE.1 hE.2

theorem Binding.sim_refl_read : (b : Binding) → ∀ (env : Env) v, env.read b = some v →
    Value.Sim h v v
  | .value w => fun _ v hread => by
    cases hread
    exact Value.sim_refl w
  | .member g i => fun env v hread => by
    simp only [Env.read] at hread
    split at hread
    · cases hread
      exact Group.sim_refl_member g i
    · cases hread

theorem Binding.sim_refl_list : (bs : List (String × Binding)) → ∀ p ∈ bs, ∀ (env : Env) v,
    env.read p.2 = some v → Value.Sim h v v
  | [] => fun _ hp => nomatch hp
  | (_, b) :: bs => fun p hp env v hread => by
    rcases List.mem_cons.1 hp with rfl | hp
    · exact Binding.sim_refl_read b env v hread
    · exact Binding.sim_refl_list bs p hp env v hread

theorem Env.sim_refl_lookup : (env : Env) → ∀ n v, env.lookup n = some v → Value.Sim h v v
  | .mk bs gs => fun n v hlook => by
    have hlook' : (bs.lookup n).bind (Env.mk bs gs).read = some v := hlook
    obtain ⟨b, hb, hread⟩ := Option.bind_eq_some_iff.1 hlook'
    -- the value is read from a binding of the environment
    obtain ⟨l₁, l₂, hbs, -⟩ := List.lookup_eq_some_iff.1 hb
    have hmem : (n, b) ∈ bs := by
      rw [hbs]
      exact List.mem_append_right _ List.mem_cons_self
    exact Binding.sim_refl_list bs (n, b) hmem _ v hread

end

/-- Environments that bind the names of `G` alike are related on `G`. -/
theorem Env.simOn_of_lookup_eq {G : List String} {env env' : Env}
    (heq : ∀ n ∈ G, env.lookup n = env'.lookup n) : env.SimOn h G env' := by
  refine ⟨fun n hn => by rw [heq n hn], fun n hn v w hv hw => ?_⟩
  rw [heq n hn, hw, Option.some.injEq] at hv
  subst hv
  exact Env.sim_refl_lookup h env' n w hw

end Refl

/-! ### Fields of related records -/

section Fields

variable {h : String}

theorem Value.FieldsSim.lookup (f : String) : {fs gs : List (String × Value)} →
    Value.FieldsSim h fs gs → (fs.lookup f = none ∧ gs.lookup f = none) ∨
      ∃ v w, fs.lookup f = some v ∧ gs.lookup f = some w ∧ Value.Sim h v w
  | [], _, hfs => by
    cases hfs
    exact .inl ⟨rfl, rfl⟩
  | (n, v) :: _, _, hfs => by
    cases hfs with
    | @cons _ _ w _ _ hvw hrest =>
      by_cases hn : f = n
      · subst hn
        exact .inr ⟨v, w, List.lookup_cons_self, List.lookup_cons_self, hvw⟩
      · simp only [List.lookup_cons, beq_false_of_ne hn]
        exact Value.FieldsSim.lookup f hrest

theorem Value.FieldsSim.append : {fs gs fs' gs' : List (String × Value)} →
    Value.FieldsSim h fs gs → Value.FieldsSim h fs' gs' → Value.FieldsSim h (fs ++ fs') (gs ++ gs')
  | [], _, _, _, hfs, hfs' => by
    cases hfs
    exact hfs'
  | _ :: _, _, _, _, hfs, hfs' => by
    cases hfs with
    | cons hvw hrest => exact .cons hvw (Value.FieldsSim.append hrest hfs')

end Fields

end CpsMachine
