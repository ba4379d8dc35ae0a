import CpsMachine.Value.Order

/-!
# The order of values is a strict partial order

`Value.compare?` reverses when its arguments are swapped, gives `eq` only between equal values and
is transitive on `lt`; so it is a strict partial order in which `eq` is a congruence
(`compare_strict_partial_order`). It gives `eq` exactly where `Value.equal` holds and no closure
occurs (`compare?_eq_iff_equal`): the two agree on closure-free values, while a value with a closure
in it is equal to itself and yet unordered against itself (`Value.compare?_self`).

Records and vectors are compared as sequences (`lexCompare?`): the first pair that is not `eq`
decides, an unordered pair reached before it leaves the sequences unordered, and a proper prefix
comes first. A record field and a variant are pairs of a text and a value, compared text first
(`pairCompare?`). Texts are compared in the library's lexicographic order of character lists
(`compareText_eq_compare`), whose laws the library proves. So the laws are proved once for
sequences and once for pairs, from the same laws for their items, and the laws for values follow
by induction on values, through records, variants and vectors, with closures as leaves
(`Value.induction`).
-/

namespace CpsMachine

/-! ### Induction on values -/

/-- Induction on a value through the fields of its records, the payloads of its variants and the
items of its vectors. A closure is a leaf: no comparison looks into its environment. -/
@[elab_as_elim]
theorem Value.induction {motive : Value → Prop}
    (int : ∀ n, motive (.int n)) (str : ∀ s, motive (.str s))
    (record : ∀ fs, (∀ p ∈ fs, motive p.2) → motive (.record fs))
    (variant : ∀ tag payload, motive payload → motive (.variant tag payload))
    (vector : ∀ vs, (∀ v ∈ vs, motive v) → motive (.vector vs))
    (halt : motive .halt)
    (cont : ∀ id env param body, motive (.cont id env param body))
    (function : ∀ id env fn, motive (.function id env fn))
    (member : ∀ group index, motive (.member group index))
    (error : ∀ message, motive (.error message)) (v : Value) : motive v :=
  -- environments, bindings and groups are not looked into
  Value.rec (motive_1 := motive) (motive_2 := fun _ => True) (motive_3 := fun _ => True)
    (motive_4 := fun _ => True) (motive_5 := fun fs => ∀ p ∈ fs, motive p.2)
    (motive_6 := fun vs => ∀ v ∈ vs, motive v) (motive_7 := fun _ => True)
    (motive_8 := fun _ => True) (motive_9 := fun p => motive p.2) (motive_10 := fun _ => True)
    int str record variant vector halt (fun id env param body _ => cont id env param body)
    (fun id env fn _ => function id env fn) (fun group index _ => member group index)
    error (fun _ _ => trivial) (fun _ _ _ => trivial) (fun _ _ _ _ => trivial)
    (fun _ _ _ _ => trivial)
    (fun _ hp => nomatch hp) (fun _ _ hp hfs => List.forall_mem_cons.2 ⟨hp, hfs⟩)
    (fun _ hv => nomatch hv) (fun _ _ hv hvs => List.forall_mem_cons.2 ⟨hv, hvs⟩)
    trivial (fun _ _ _ _ => trivial) trivial (fun _ _ _ _ => trivial)
    (fun _ _ h => h) (fun _ _ _ => trivial) v

/-! ### Texts -/

theorem compare_char (c d : Char) : compare c d = compare c.toNat d.toNat := by
  have hlt : c < d ↔ c.toNat < d.toNat := Char.lt_def.trans UInt32.lt_iff_toNat_lt
  simp only [compare, compareOfLessAndEq, hlt, ← Char.toNat_inj]

theorem compareChars_eq_compare (a b : List Char) : compareChars a b = compare a b := by
  induction a generalizing b with
  | nil => cases b <;> rfl
  | cons c r ih =>
    cases b with
    | nil => rfl
    | cons d s =>
      rw [List.compare_cons_cons, ← ih s, compareChars, compare_char]
      by_cases hcd : c.toNat < d.toNat
      · rw [if_pos hcd, Nat.compare_eq_lt.2 hcd]
        rfl
      · by_cases hdc : d.toNat < c.toNat
        · rw [if_neg hcd, if_pos hdc, Nat.compare_eq_gt.2 hdc]
          rfl
        · rw [if_neg hcd, if_neg hdc, Nat.compare_eq_eq.2 (by omega)]
          rfl

theorem compareText_eq_compare (a b : String) : compareText a b = compare a.toList b.toList :=
  compareChars_eq_compare a.toList b.toList

theorem compareText_swap (a b : String) : compareText b a = (compareText a b).swap := by
  rw [compareText_eq_compare, compareText_eq_compare]
  exact Std.OrientedCmp.eq_swap

theorem eq_of_compareText_eq {a b : String} (h : compareText a b = .eq) : a = b := by
  rw [compareText_eq_compare] at h
  exact String.toList_inj.1 (Std.LawfulEqCmp.eq_of_compare h)

theorem compareText_self (a : String) : compareText a a = .eq := by
  rw [compareText_eq_compare]
  exact Std.ReflCmp.compare_self

theorem compareText_lt_trans {a b c : String} (hab : compareText a b = .lt)
    (hbc : compareText b c = .lt) : compareText a c = .lt := by
  rw [compareText_eq_compare] at hab hbc ⊢
  exact Std.TransCmp.lt_trans hab hbc

/-! ### Sequences -/

section Lex

variable {α : Type} (cmp : α → α → Option Ordering)

/-- Sequences compared item by item: the first pair that is not `eq` decides, an unordered pair
reached before it leaves the sequences unordered, and a proper prefix comes first. -/
def lexCompare? : List α → List α → Option Ordering
  | [], [] => some .eq
  | [], _ :: _ => some .lt
  | _ :: _, [] => some .gt
  | x :: xs, y :: ys =>
    match cmp x y with
    | some .eq => lexCompare? xs ys
    | o => o

variable {cmp}

theorem lexCompare?_cons_eq {x y : α} {xs ys : List α} :
    lexCompare? cmp (x :: xs) (y :: ys) = some .eq ↔
      cmp x y = some .eq ∧ lexCompare? cmp xs ys = some .eq := by
  simp only [lexCompare?]
  cases cmp x y with
  | none => simp
  | some o => cases o <;> simp

theorem lexCompare?_cons_lt {x y : α} {xs ys : List α} :
    lexCompare? cmp (x :: xs) (y :: ys) = some .lt ↔
      cmp x y = some .lt ∨ cmp x y = some .eq ∧ lexCompare? cmp xs ys = some .lt := by
  simp only [lexCompare?]
  cases cmp x y with
  | none => simp
  | some o => cases o <;> simp

theorem lexCompare?_swap {xs : List α}
    (h : ∀ x ∈ xs, ∀ y, cmp y x = (cmp x y).map Ordering.swap) :
    ∀ ys, lexCompare? cmp ys xs = (lexCompare? cmp xs ys).map Ordering.swap := by
  induction xs with
  | nil => intro ys; cases ys <;> rfl
  | cons x xs ih =>
    rw [List.forall_mem_cons] at h
    intro ys
    cases ys with
    | nil => rfl
    | cons y ys =>
      simp only [lexCompare?, h.1 y]
      cases cmp x y with
      | none => rfl
      | some o => cases o <;> simp [ih h.2 ys]

theorem eq_of_lexCompare?_eq {xs : List α} (h : ∀ x ∈ xs, ∀ y, cmp x y = some .eq → x = y) :
    ∀ {ys}, lexCompare? cmp xs ys = some .eq → xs = ys := by
  induction xs with
  | nil =>
    intro ys hys
    cases ys with
    | nil => rfl
    | cons => cases hys
  | cons x xs ih =>
    rw [List.forall_mem_cons] at h
    intro ys hys
    cases ys with
    | nil => cases hys
    | cons y ys =>
      obtain ⟨hxy, hrest⟩ := lexCompare?_cons_eq.1 hys
      rw [h.1 y hxy, ih h.2 hrest]

theorem lexCompare?_lt_trans (heq : ∀ x y, cmp x y = some .eq → x = y) {xs : List α}
    (hlt : ∀ x ∈ xs, ∀ y z, cmp x y = some .lt → cmp y z = some .lt → cmp x z = some .lt) :
    ∀ ys zs, lexCompare? cmp xs ys = some .lt → lexCompare? cmp ys zs = some .lt →
      lexCompare? cmp xs zs = some .lt := by
  induction xs with
  | nil =>
    intro ys zs hxy hyz
    cases zs with
    | nil =>
      -- no sequence lies strictly between the empty one and the empty one
      cases ys with
      | nil => cases hxy
      | cons => cases hyz
    | cons => rfl
  | cons x xs ih =>
    rw [List.forall_mem_cons] at hlt
    intro ys zs hxy hyz
    cases ys with
    | nil => cases hxy
    | cons y ys =>
      cases zs with
      | nil => cases hyz
      | cons z zs =>
        rw [lexCompare?_cons_lt] at hxy hyz ⊢
        -- the sequences first differ where one of the two comparisons first differs
        rcases hxy with hxy | ⟨hxy, hrest⟩ <;> rcases hyz with hyz | ⟨hyz, hrest'⟩
        · exact .inl (hlt.1 y z hxy hyz)
        · rw [← heq y z hyz]
          exact .inl hxy
        · rw [heq x y hxy]
          exact .inl hyz
        · rw [heq x y hxy]
          exact .inr ⟨hyz, ih hlt.2 ys zs hrest hrest'⟩

theorem lexCompare?_self {p : α → Bool} {xs : List α}
    (h : ∀ x ∈ xs, cmp x x = if p x then some .eq else none) :
    lexCompare? cmp xs xs = if xs.all p then some .eq else none := by
  induction xs with
  | nil => rfl
  | cons x xs ih =>
    rw [List.forall_mem_cons] at h
    simp only [lexCompare?, h.1, List.all_cons]
    by_cases hx : p x
    · simp [hx, ih h.2]
    · simp [hx]

end Lex

/-! ### Pairs of a text and an item -/

section Pair

variable {α : Type} (cmp : α → α → Option Ordering)

/-- Pairs of a text and an item, compared by the text first and then by the item: a record field
by its name and then its value, a variant by its tag and then its payload. -/
def pairCompare? (x y : String × α) : Option Ordering :=
  match compareText x.1 y.1 with
  | .eq => cmp x.2 y.2
  | o => some o

variable {cmp}

theorem pairCompare?_eq {x y : String × α} :
    pairCompare? cmp x y = some .eq ↔ x.1 = y.1 ∧ cmp x.2 y.2 = some .eq := by
  unfold pairCompare?
  cases hxy : compareText x.1 y.1 with
  | eq => simp [eq_of_compareText_eq hxy]
  | lt | gt =>
    constructor
    · intro h
      cases h
    · rintro ⟨h1, -⟩
      rw [h1, compareText_self] at hxy
      cases hxy

theorem pairCompare?_lt {x y : String × α} :
    pairCompare? cmp x y = some .lt ↔
      compareText x.1 y.1 = .lt ∨ x.1 = y.1 ∧ cmp x.2 y.2 = some .lt := by
  unfold pairCompare?
  cases hxy : compareText x.1 y.1 with
  | eq => simp [eq_of_compareText_eq hxy]
  | lt => simp
  | gt =>
    constructor
    · intro h
      cases h
    · rintro (h | ⟨h1, -⟩)
      · cases h
      · rw [h1, compareText_self] at hxy
        cases hxy

theorem pairCompare?_swap {x : String × α} (h : ∀ y, cmp y x.2 = (cmp x.2 y).map Ordering.swap)
    (y : String × α) : pairCompare? cmp y x = (pairCompare? cmp x y).map Ordering.swap := by
  unfold pairCompare?
  rw [compareText_swap x.1 y.1]
  cases compareText x.1 y.1 with
  | eq => exact h y.2
  | lt => rfl
  | gt => rfl

theorem eq_of_pairCompare?_eq {x : String × α} (h : ∀ y, cmp x.2 y = some .eq → x.2 = y)
    {y : String × α} (hxy : pairCompare? cmp x y = some .eq) : x = y := by
  obtain ⟨h1, h2⟩ := pairCompare?_eq.1 hxy
  exact Prod.ext h1 (h y.2 h2)

theorem pairCompare?_lt_trans {x : String × α}
    (hlt : ∀ y z, cmp x.2 y = some .lt → cmp y z = some .lt → cmp x.2 z = some .lt)
    (y z : String × α) (hxy : pairCompare? cmp x y = some .lt)
    (hyz : pairCompare? cmp y z = some .lt) : pairCompare? cmp x z = some .lt := by
  rw [pairCompare?_lt] at hxy hyz ⊢
  rcases hxy with hxy | ⟨hxy, hxy'⟩ <;> rcases hyz with hyz | ⟨hyz, hyz'⟩
  · exact .inl (compareText_lt_trans hxy hyz)
  · rw [← hyz]
    exact .inl hxy
  · rw [hxy]
    exact .inl hyz
  · exact .inr ⟨hxy.trans hyz, hlt y.2 z.2 hxy' hyz'⟩

theorem pairCompare?_self (x : String × α) : pairCompare? cmp x x = cmp x.2 x.2 := by
  simp [pairCompare?, compareText_self]

end Pair

/-! ### Values -/

mutual

/-- No closure occurs in the value, at any depth of its records, variants and vectors. -/
def Value.closureFree : Value → Bool
  | .int _ | .str _ | .error _ => true
  | .record fs => Value.fieldsClosureFree fs
  | .variant _ payload => payload.closureFree
  | .vector vs => Value.itemsClosureFree vs
  | .halt | .cont .. | .function .. | .member .. => false

/-- No closure occurs in the values of the fields. -/
def Value.fieldsClosureFree : List (String × Value) → Bool
  | [] => true
  | (_, v) :: fs => v.closureFree && Value.fieldsClosureFree fs

/-- No closure occurs in the items. -/
def Value.itemsClosureFree : List Value → Bool
  | [] => true
  | v :: vs => v.closureFree && Value.itemsClosureFree vs

end

namespace Value

@[simp]
theorem closureFree_record (fs : List (String × Value)) :
    (Value.record fs).closureFree = fs.all (·.2.closureFree) := by
  induction fs with
  | nil => rfl
  | cons p fs ih =>
    simp only [closureFree, fieldsClosureFree] at ih ⊢
    rw [ih, List.all_cons]

@[simp]
theorem closureFree_vector (vs : List Value) :
    (Value.vector vs).closureFree = vs.all Value.closureFree := by
  induction vs with
  | nil => rfl
  | cons v vs ih =>
    simp only [closureFree, itemsClosureFree] at ih ⊢
    rw [ih, List.all_cons]

theorem compare?_record (fs gs : List (String × Value)) :
    (Value.record fs).compare? (.record gs) = lexCompare? (pairCompare? Value.compare?) fs gs := by
  induction fs generalizing gs with
  | nil => cases gs <;> rfl
  | cons p fs ih =>
    cases gs with
    | nil => rfl
    | cons q gs =>
      have hrest := ih gs
      simp only [compare?] at hrest ⊢
      simp only [compareFields, lexCompare?, pairCompare?, hrest]
      cases compareText p.1 q.1 <;> rfl

theorem compare?_vector (vs ws : List Value) :
    (Value.vector vs).compare? (.vector ws) = lexCompare? Value.compare? vs ws := by
  induction vs generalizing ws with
  | nil => cases ws <;> rfl
  | cons v vs ih =>
    cases ws with
    | nil => rfl
    | cons w ws =>
      have hrest := ih ws
      simp only [compare?] at hrest ⊢
      cases hvw : v.compare? w with
      | none => simp [compareItems, lexCompare?, hvw]
      | some o => cases o <;> simp [compareItems, lexCompare?, hvw, hrest]

theorem compare?_variant (t u : String) (p q : Value) :
    (Value.variant t p).compare? (.variant u q) = pairCompare? Value.compare? (t, p) (u, q) := rfl

theorem compare?_swap (a : Value) : ∀ b, b.compare? a = (a.compare? b).map Ordering.swap := by
  induction a using Value.induction with
  | int x =>
    intro b
    cases b with
    | int y => exact congrArg some (Int.compare_swap x y).symm
    | _ => rfl
  | str s =>
    intro b
    cases b with
    | str s' => exact congrArg some (compareText_swap s s')
    | _ => rfl
  | record fs ih =>
    intro b
    cases b with
    | record gs =>
      rw [compare?_record, compare?_record]
      exact lexCompare?_swap (fun p hp => pairCompare?_swap (ih p hp)) gs
    | _ => rfl
  | variant t p ih =>
    intro b
    cases b with
    | variant u q =>
      rw [compare?_variant, compare?_variant]
      exact pairCompare?_swap (x := (t, p)) ih (u, q)
    | _ => rfl
  | vector vs ih =>
    intro b
    cases b with
    | vector ws =>
      rw [compare?_vector, compare?_vector]
      exact lexCompare?_swap ih ws
    | _ => rfl
  | halt | cont | function | member => intro b; cases b <;> rfl
  | error m =>
    intro b
    cases b with
    | error m' => exact congrArg some (compareText_swap m m')
    | _ => rfl

theorem eq_of_compare?_eq (a : Value) : ∀ {b}, a.compare? b = some .eq → a = b := by
  induction a using Value.induction with
  | int x =>
    intro b h
    cases b with
    | int y => simpa [compare?] using h
    | _ => cases h
  | str s =>
    intro b h
    cases b with
    | str s' => rw [eq_of_compareText_eq (Option.some.inj h)]
    | _ => cases h
  | record fs ih =>
    intro b h
    cases b with
    | record gs =>
      rw [compare?_record] at h
      rw [eq_of_lexCompare?_eq (fun p hp _ => eq_of_pairCompare?_eq (fun _ => ih p hp)) h]
    | _ => cases h
  | variant t p ih =>
    intro b h
    cases b with
    | variant u q =>
      rw [compare?_variant] at h
      obtain ⟨h1, h2⟩ := pairCompare?_eq.1 h
      simp only at h1 h2
      rw [h1, ih h2]
    | _ => cases h
  | vector vs ih =>
    intro b h
    cases b with
    | vector ws =>
      rw [compare?_vector] at h
      rw [eq_of_lexCompare?_eq ih h]
    | _ => cases h
  | halt | cont | function | member => intro b h; cases h
  | error m =>
    intro b h
    cases b with
    | error m' => rw [eq_of_compareText_eq (Option.some.inj h)]
    | _ => cases h

theorem compare?_lt_trans (a : Value) :
    ∀ b c, a.compare? b = some .lt → b.compare? c = some .lt → a.compare? c = some .lt := by
  induction a using Value.induction with
  | int x =>
    intro b c hab hbc
    cases b with
    | int y =>
      cases c with
      | int z =>
        simp only [compare?, Option.some.injEq, Int.compare_eq_lt] at hab hbc ⊢
        exact Int.lt_trans hab hbc
      | _ => cases hbc
    | _ => cases hab
  | str s =>
    intro b c hab hbc
    cases b with
    | str s' =>
      cases c with
      | str s'' => exact congrArg some (compareText_lt_trans (Option.some.inj hab) (Option.some.inj hbc))
      | _ => cases hbc
    | _ => cases hab
  | record fs ih =>
    intro b c hab hbc
    cases b with
    | record gs =>
      cases c with
      | record hs =>
        rw [compare?_record] at hab hbc ⊢
        refine lexCompare?_lt_trans (fun _ _ => eq_of_pairCompare?_eq fun _ => eq_of_compare?_eq _)
          (fun p hp q r => pairCompare?_lt_trans (ih p hp) q r)
          gs hs hab hbc
      | _ => cases hbc
    | _ => cases hab
  | variant t p ih =>
    intro b c hab hbc
    cases b with
    | variant u q =>
      cases c with
      | variant w r =>
        rw [compare?_variant] at hab hbc ⊢
        exact pairCompare?_lt_trans (x := (t, p)) ih (u, q) (w, r) hab hbc
      | _ => cases hbc
    | _ => cases hab
  | vector vs ih =>
    intro b c hab hbc
    cases b with
    | vector ws =>
      cases c with
      | vector us =>
        rw [compare?_vector] at hab hbc ⊢
        exact lexCompare?_lt_trans (fun _ _ => eq_of_compare?_eq _) ih ws us hab hbc
      | _ => cases hbc
    | _ => cases hab
  | halt | cont | function | member => intro b c hab; cases hab
  | error m =>
    intro b c hab hbc
    cases b with
    | error m' =>
      cases c with
      | error m'' => exact congrArg some (compareText_lt_trans (Option.some.inj hab) (Option.some.inj hbc))
      | _ => cases hbc
    | _ => cases hab

theorem compare?_self (a : Value) : a.compare? a = if a.closureFree then some .eq else none := by
  induction a using Value.induction with
  | int x => simp [compare?, closureFree]
  | str s => simp [compare?, closureFree, compareText_self]
  | record fs ih =>
    rw [compare?_record, closureFree_record]
    exact lexCompare?_self fun p hp => (pairCompare?_self p).trans (ih p hp)
  | variant t p ih => rw [compare?_variant, pairCompare?_self]; exact ih
  | vector vs ih =>
    rw [compare?_vector, closureFree_vector]
    exact lexCompare?_self ih
  | halt | cont | function | member => rfl
  | error m => simp [compare?, closureFree, compareText_self]

/-! ### Equality -/

theorem fieldsEqual_self {fs : List (String × Value)} (h : ∀ p ∈ fs, p.2.equal p.2 = true) :
    Value.fieldsEqual fs fs = true := by
  induction fs with
  | nil => rfl
  | cons p fs ih =>
    rw [List.forall_mem_cons] at h
    simp [fieldsEqual, h.1, ih h.2]

theorem itemsEqual_self {vs : List Value} (h : ∀ v ∈ vs, v.equal v = true) :
    Value.itemsEqual vs vs = true := by
  induction vs with
  | nil => rfl
  | cons v vs ih =>
    rw [List.forall_mem_cons] at h
    simp [itemsEqual, h.1, ih h.2]

theorem equal_self (a : Value) : a.equal a = true := by
  induction a using Value.induction with
  | record fs ih => exact fieldsEqual_self ih
  | variant t p ih => simp [equal, ih]
  | vector vs ih => exact itemsEqual_self ih
  | halt => rfl
  | int | str | cont | function | member | error => simp [equal]

theorem eq_of_fieldsEqual {fs : List (String × Value)}
    (h : ∀ p ∈ fs, ∀ w, p.2.equal w = true → p.2 = w) :
    ∀ {gs}, Value.fieldsEqual fs gs = true → fs = gs := by
  induction fs with
  | nil =>
    intro gs hgs
    cases gs with
    | nil => rfl
    | cons => cases hgs
  | cons p fs ih =>
    rw [List.forall_mem_cons] at h
    intro gs hgs
    obtain ⟨n, v⟩ := p
    cases gs with
    | nil => cases hgs
    | cons q gs =>
      obtain ⟨m, w⟩ := q
      simp only [fieldsEqual, Bool.and_eq_true, beq_iff_eq] at hgs
      obtain ⟨⟨rfl, hvw⟩, hrest⟩ := hgs
      have hv : v = w := h.1 w hvw
      rw [hv, ih h.2 hrest]

theorem eq_of_itemsEqual {vs : List Value} (h : ∀ v ∈ vs, ∀ w, v.equal w = true → v = w) :
    ∀ {ws}, Value.itemsEqual vs ws = true → vs = ws := by
  induction vs with
  | nil =>
    intro ws hws
    cases ws with
    | nil => rfl
    | cons => cases hws
  | cons v vs ih =>
    rw [List.forall_mem_cons] at h
    intro ws hws
    cases ws with
    | nil => cases hws
    | cons w ws =>
      simp only [itemsEqual, Bool.and_eq_true] at hws
      rw [h.1 w hws.1, ih h.2 hws.2]

theorem eq_of_equal (a : Value) : a.closureFree = true → ∀ {b}, a.equal b = true → a = b := by
  induction a using Value.induction with
  | int x =>
    intro _ b h
    cases b with
    | int y => simpa [equal] using h
    | _ => cases h
  | str s =>
    intro _ b h
    cases b with
    | str s' => simpa [equal] using h
    | _ => cases h
  | record fs ih =>
    intro hfree b h
    rw [closureFree_record, List.all_eq_true] at hfree
    cases b with
    | record gs => rw [eq_of_fieldsEqual (fun p hp _ => ih p hp (hfree p hp)) h]
    | _ => cases h
  | variant t p ih =>
    intro hfree b h
    cases b with
    | variant u q =>
      simp only [equal, Bool.and_eq_true, beq_iff_eq] at h
      rw [h.1, ih hfree h.2]
    | _ => cases h
  | vector vs ih =>
    intro hfree b h
    rw [closureFree_vector, List.all_eq_true] at hfree
    cases b with
    | vector ws => rw [eq_of_itemsEqual (fun v hv _ => ih v hv (hfree v hv)) h]
    | _ => cases h
  | halt | cont | function | member => intro hfree; cases hfree
  | error m =>
    intro _ b h
    cases b with
    | error m' => simpa [equal] using h
    | _ => cases h

end Value

/-- `Value.compare?` is a strict partial order in which `eq` is a congruence: swapping the
arguments reverses the order (and keeps it undefined where it is), values in `eq` compare alike
with every value, `lt` is irreflexive and `lt` is transitive. -/
theorem compare_strict_partial_order (a b c : Value) :
    b.compare? a = (a.compare? b).map Ordering.swap ∧
      (a.compare? b = some .eq → a.compare? c = b.compare? c) ∧
      a.compare? a ≠ some .lt ∧
      (a.compare? b = some .lt → b.compare? c = some .lt → a.compare? c = some .lt) := by
  refine ⟨Value.compare?_swap a b, fun h => by rw [Value.eq_of_compare?_eq a h], ?_,
    Value.compare?_lt_trans a b c⟩
  rw [Value.compare?_self]
  split <;> simp

/-- The order's `eq` holds exactly between values that are equal and have no closure in them. So
the order and the equality agree on closure-free values, while a value with a closure in it, which
is equal to itself by identity, is in `eq` with nothing. -/
theorem compare?_eq_iff_equal (a b : Value) :
    a.compare? b = some .eq ↔ a.equal b = true ∧ a.closureFree = true := by
  constructor
  · intro h
    obtain rfl := Value.eq_of_compare?_eq a h
    refine ⟨Value.equal_self a, ?_⟩
    cases hfree : a.closureFree with
    | true => rfl
    | false => simp [Value.compare?_self, hfree] at h
  · rintro ⟨heq, hfree⟩
    obtain rfl := Value.eq_of_equal a hfree heq
    rw [Value.compare?_self, if_pos hfree]

/-- The halt continuation is equal to itself and unordered against itself. -/
example : Value.halt.equal .halt = true ∧ Value.halt.compare? .halt = none := ⟨rfl, rfl⟩

end CpsMachine
