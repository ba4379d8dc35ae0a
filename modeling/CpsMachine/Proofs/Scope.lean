import CpsMachine.Machine.Step
import CpsMachine.Proofs.Anchors

/-!
# Scopes

`Term.Closed h G t` says that every name `t` reads is in scope, given that the names `G` are in
scope at its root and that `h` is the configured halt name. A term reads the argument of `halt`;
the argument and the continuation of `appC`; the function, continuation and argument of `appF`;
the scrutinee and every case continuation of `caseV`; and the operands of the value expressions
it binds (`Primitive.operands`: the first of `select`, whose second operand is a field name,
none of `read` and `arg`, all of the others). A continuation named `h` needs no binding.

A `letV` or `letC` name is in scope in that node's body only; a `letC` parameter in its
continuation's body only, which does not see the `letC` name. The names of a `letF` are in scope
in its body and in every definition's body, and each definition's continuation parameter and
parameter in its own body.

Closedness only grows with the scope (`Term.Closed.mono`), and every term is closed over some
scope (`Term.closed_exists`).
-/

namespace CpsMachine

namespace ContRef

/-- The continuation position is the halt continuation, the halt name `h`, or a name of `G`. -/
def Bound (h : String) (G : List String) : ContRef → Prop
  | .halt => True
  | .named k => k = h ∨ k ∈ G

theorem Bound.mono {h : String} {G G' : List String} {k : ContRef} (hk : k.Bound h G)
    (hsub : G ⊆ G') : k.Bound h G' := by
  cases k with
  | halt => trivial
  | named k => exact hk.imp_right (fun hmem => hsub hmem)

end ContRef

namespace Primitive

/-- The operand names the primitive looks up. -/
def operands : Primitive → List String → List String
  | .select, args => args.take 1
  | .read _, _ | .argument _, _ => []
  | _, args => args

theorem operands_subset (p : Primitive) (args : List String) : p.operands args ⊆ args := by
  cases p <;> simp [operands, List.take_subset]

end Primitive

mutual

/-- Every name the term reads is in scope. -/
inductive Term.Closed (h : String) : List String → Term → Prop
  | halt {G a} : a ∈ G → Term.Closed h G (.halt a)
  | letV {G x e b} : ValueExpr.Closed h G e → Term.Closed h (x :: G) b →
      Term.Closed h G (.letV x e b)
  | letC {G x p cb b} : Term.Closed h (p :: G) cb → Term.Closed h (x :: G) b →
      Term.Closed h G (.letC x p cb b)
  | letF {G defs b} : (∀ d ∈ defs, Lambda.Closed h (defs.map Prod.fst ++ G) d.2) →
      Term.Closed h (defs.map Prod.fst ++ G) b → Term.Closed h G (.letF defs b)
  | appC {G k a} : k.Bound h G → a ∈ G → Term.Closed h G (.appC k a)
  | appF {G f k a} : f ∈ G → k.Bound h G → a ∈ G → Term.Closed h G (.appF f k a)
  | caseV {G s cases} : s ∈ G → (∀ c ∈ cases, (ContRef.named c.2).Bound h G) →
      Term.Closed h G (.caseV s cases)

/-- Every operand the value expression looks up is in scope, and so is every name the body of
a function reads. -/
inductive ValueExpr.Closed (h : String) : List String → ValueExpr → Prop
  | int {G n} : ValueExpr.Closed h G (.int n)
  | str {G s} : ValueExpr.Closed h G (.str s)
  | record {G fields} : (∀ f ∈ fields, f.2 ∈ G) → ValueExpr.Closed h G (.record fields)
  | variant {G tag a} : a ∈ G → ValueExpr.Closed h G (.variant tag a)
  | vector {G items} : (∀ a ∈ items, a ∈ G) → ValueExpr.Closed h G (.vector items)
  | function {G fn} : Lambda.Closed h G fn → ValueExpr.Closed h G (.function fn)
  | prim {G p args} : (∀ a ∈ p.operands args, a ∈ G) → ValueExpr.Closed h G (.prim p args)

/-- The body reads only the parameter, the continuation parameter and names in scope. -/
inductive Lambda.Closed (h : String) : List String → Lambda → Prop
  | mk {G k x b} : Term.Closed h (x :: k :: G) b → Lambda.Closed h G ⟨k, x, b⟩

end

section Mono

variable {h : String}

/-- A term closed over a scope is closed over every larger one. -/
theorem Term.Closed.mono {G : List String} {t : Term} (ht : t.Closed h G) :
    ∀ G', G ⊆ G' → t.Closed h G' := by
  induction ht using Term.Closed.rec
    (motive_2 := fun G e _ => ∀ G', G ⊆ G' → e.Closed h G')
    (motive_3 := fun G fn _ => ∀ G', G ⊆ G' → fn.Closed h G') with
  | halt ha => exact fun _ hsub => .halt (hsub ha)
  | letV _ _ ihe ihb =>
    intro G' hsub
    exact .letV (ihe G' hsub) (ihb _ (List.cons_subset_cons _ hsub))
  | letC _ _ ihc ihb =>
    intro G' hsub
    exact .letC (ihc _ (List.cons_subset_cons _ hsub)) (ihb _ (List.cons_subset_cons _ hsub))
  | @letF G defs _ _ _ ihd ihb =>
    intro G' hsub
    -- the group's names stay in front of the larger scope
    have hsub' : defs.map Prod.fst ++ G ⊆ defs.map Prod.fst ++ G' :=
      List.append_subset.2 ⟨List.subset_append_left _ _, List.subset_append_of_subset_right _ hsub⟩
    exact .letF (fun d hd => ihd d hd _ hsub') (ihb _ hsub')
  | appC hk ha => exact fun _ hsub => .appC (hk.mono hsub) (hsub ha)
  | appF hf hk ha => exact fun _ hsub => .appF (hsub hf) (hk.mono hsub) (hsub ha)
  | caseV hs hc => exact fun _ hsub => .caseV (hsub hs) (fun c hmem => (hc c hmem).mono hsub)
  | int => exact .int
  | str => exact .str
  | record hf _ hsub => exact .record (fun f hmem => hsub (hf f hmem))
  | variant ha _ hsub => exact .variant (hsub ha)
  | vector ha _ hsub => exact .vector (fun a hmem => hsub (ha a hmem))
  | function _ ih G' hsub => exact .function (ih G' hsub)
  | prim ha _ hsub => exact .prim (fun a hmem => hsub (ha a hmem))
  | mk _ ih G' hsub =>
    exact .mk (ih _ (List.cons_subset_cons _ (List.cons_subset_cons _ hsub)))

theorem Lambda.Closed.mono {G G' : List String} {fn : Lambda} (hfn : fn.Closed h G)
    (hsub : G ⊆ G') : fn.Closed h G' := by
  obtain ⟨hb⟩ := hfn
  exact .mk (hb.mono _ (List.cons_subset_cons _ (List.cons_subset_cons _ hsub)))

theorem ValueExpr.Closed.mono {G G' : List String} {e : ValueExpr} (he : e.Closed h G)
    (hsub : G ⊆ G') : e.Closed h G' := by
  cases he with
  | function hfn => exact .function (hfn.mono hsub)
  | int => exact .int
  | str => exact .str
  | record hf => exact .record (fun f hmem => hsub (hf f hmem))
  | variant ha => exact .variant (hsub ha)
  | vector ha => exact .vector (fun a hmem => hsub (ha a hmem))
  | prim ha => exact .prim (fun a hmem => hsub (ha a hmem))

end Mono

/-! ### Every term has a scope -/

section Exists

variable {h : String}

theorem ContRef.bound_exists (h : String) : (k : ContRef) → ∃ G, k.Bound h G
  | .halt => ⟨[], trivial⟩
  | .named n => ⟨[n], .inr (List.mem_singleton_self n)⟩

mutual

/-- Every term is closed over some scope: the names it mentions will do. -/
theorem Term.closed_exists : (t : Term) → ∃ G, t.Closed h G
  | .halt a => ⟨[a], .halt (List.mem_singleton_self a)⟩
  | .letV _ e b => by
    obtain ⟨G1, he⟩ := ValueExpr.closed_exists e
    obtain ⟨G2, hb⟩ := Term.closed_exists b
    exact ⟨G1 ++ G2, .letV (he.mono (List.subset_append_left _ _))
      (hb.mono _ (List.subset_cons_of_subset _ (List.subset_append_right _ _)))⟩
  | .letC _ _ cb b => by
    obtain ⟨G1, hcb⟩ := Term.closed_exists cb
    obtain ⟨G2, hb⟩ := Term.closed_exists b
    exact ⟨G1 ++ G2,
      .letC (hcb.mono _ (List.subset_cons_of_subset _ (List.subset_append_left _ _)))
        (hb.mono _ (List.subset_cons_of_subset _ (List.subset_append_right _ _)))⟩
  | .letF defs b => by
    obtain ⟨G1, hdefs⟩ := defs_closed_exists defs
    obtain ⟨G2, hb⟩ := Term.closed_exists b
    have hsub1 : G1 ⊆ defs.map Prod.fst ++ (G1 ++ G2) :=
      List.subset_append_of_subset_right _ (List.subset_append_left _ _)
    have hsub2 : G2 ⊆ defs.map Prod.fst ++ (G1 ++ G2) :=
      List.subset_append_of_subset_right _ (List.subset_append_right _ _)
    exact ⟨G1 ++ G2, .letF (fun d hd => (hdefs d hd).mono hsub1) (hb.mono _ hsub2)⟩
  | .appC k a => by
    obtain ⟨G, hk⟩ := k.bound_exists h
    exact ⟨a :: G, .appC (hk.mono (List.subset_cons_self _ _)) List.mem_cons_self⟩
  | .appF f k a => by
    obtain ⟨G, hk⟩ := k.bound_exists h
    exact ⟨f :: a :: G, .appF List.mem_cons_self
      (hk.mono (List.subset_cons_of_subset _ (List.subset_cons_self _ _)))
      (List.mem_cons_of_mem _ List.mem_cons_self)⟩
  | .caseV s cases =>
    ⟨s :: cases.map Prod.snd, .caseV List.mem_cons_self
      (fun _ hc => .inr (List.mem_cons_of_mem _ (List.mem_map_of_mem hc)))⟩

theorem ValueExpr.closed_exists : (e : ValueExpr) → ∃ G, e.Closed h G
  | .int _ => ⟨[], .int⟩
  | .str _ => ⟨[], .str⟩
  | .record fields => ⟨fields.map Prod.snd, .record (fun _ hf => List.mem_map_of_mem hf)⟩
  | .variant _ a => ⟨[a], .variant (List.mem_singleton_self a)⟩
  | .vector items => ⟨items, .vector (fun _ ha => ha)⟩
  | .function fn => (Lambda.closed_exists fn).imp fun _ hfn => .function hfn
  | .prim p args => ⟨args, .prim (fun _ ha => p.operands_subset args ha)⟩

theorem Lambda.closed_exists : (fn : Lambda) → ∃ G, fn.Closed h G
  | ⟨k, x, b⟩ => by
    obtain ⟨G, hb⟩ := Term.closed_exists b
    have hsub : G ⊆ x :: k :: G :=
      List.subset_cons_of_subset _ (List.subset_cons_self _ _)
    exact ⟨G, .mk (hb.mono _ hsub)⟩

theorem defs_closed_exists : (defs : List (String × Lambda)) → ∃ G, ∀ d ∈ defs, d.2.Closed h G
  | [] => ⟨[], fun _ hd => nomatch hd⟩
  | (_, fn) :: rest => by
    obtain ⟨G1, hfn⟩ := Lambda.closed_exists fn
    obtain ⟨G2, hrest⟩ := defs_closed_exists rest
    refine ⟨G1 ++ G2, fun d hd => ?_⟩
    rcases List.mem_cons.1 hd with rfl | hd
    · exact hfn.mono (List.subset_append_left _ _)
    · exact (hrest d hd).mono (List.subset_append_right _ _)

end

end Exists

end CpsMachine
