import CpsMachine.Proofs.Moves

/-!
# I/O only through acquired capabilities

Only the `read` and `write` primitives touch the console and the files. A program whose own
terms invoke neither reaches them through the closures a capability holds:
`io_only_through_acquired_capabilities`. In any sequence of evaluations on one machine, each
started from a term that does no I/O (`Term.IoFree`) in an environment whose closures are the
prelude's or come from values earlier evaluations returned (`Value.Confined`), every state that
invokes `read` or `write` on a resource runs the body of a closure the previous state applied,
and an earlier state acquired that closure: a capability of a kind that offers the operation, on
that very resource, which it found to be the console or an existing file that opens for reading
(or appending), and whose record holds the closure (`State.Grants`).

A `Session` is the list of states of such a sequence, newest first. The invariant
(`State.Sound`) is that every closure reachable from the environment does no I/O, or was granted
by an earlier state (`Value.Safe`), and that the node does no I/O unless it is the body of a
granted closure just entered. Values built by a step are made of values already bound, closures
capture the current environment, and the only closures made with an I/O body are those of an
acquisition, which the acquiring state itself grants. A value an evaluation returns is bound or
passed to the halt continuation, so it is safe, and the next evaluation may start from it.
-/

namespace CpsMachine

/-- Whether the primitive reads or writes a resource. -/
def Primitive.isIO : Primitive → Bool
  | .read _ | .write _ => true
  | _ => false

mutual

/-- No node of the term, of a continuation body or of a function body invokes a primitive that
does I/O. -/
inductive Term.IoFree : Term → Prop
  | halt {a} : Term.IoFree (.halt a)
  | letV {x e b} : ValueExpr.IoFree e → Term.IoFree b → Term.IoFree (.letV x e b)
  | letC {x p cb b} : Term.IoFree cb → Term.IoFree b → Term.IoFree (.letC x p cb b)
  | letF {defs b} : (∀ d ∈ defs, Lambda.IoFree d.2) → Term.IoFree b →
      Term.IoFree (.letF defs b)
  | appC {k a} : Term.IoFree (.appC k a)
  | appF {f k a} : Term.IoFree (.appF f k a)
  | caseV {s cases} : Term.IoFree (.caseV s cases)

/-- The value expression invokes no primitive that does I/O, and a function it makes does none. -/
inductive ValueExpr.IoFree : ValueExpr → Prop
  | int {n} : ValueExpr.IoFree (.int n)
  | str {s} : ValueExpr.IoFree (.str s)
  | record {fields} : ValueExpr.IoFree (.record fields)
  | variant {tag a} : ValueExpr.IoFree (.variant tag a)
  | vector {items} : ValueExpr.IoFree (.vector items)
  | function {fn} : Lambda.IoFree fn → ValueExpr.IoFree (.function fn)
  | prim {p args} : p.isIO = false → ValueExpr.IoFree (.prim p args)

/-- The body of the abstraction does no I/O. -/
inductive Lambda.IoFree : Lambda → Prop
  | mk {k x b} : Term.IoFree b → Lambda.IoFree ⟨k, x, b⟩

end

/-! ### Sessions -/

/-- The node of the state invokes `op` on one operand, as a read or a write does. -/
def State.Performs (s : State) (op : Primitive) : Prop :=
  ∃ y a b, s.term = .letV y (.prim op [a]) b

/-- The node of the state applies the closure `F`. -/
def State.Applies (s : State) (F : Value) : Prop :=
  ∃ f k a, s.term = .appF f k a ∧ s.env.lookup f = some F

/-- The state acquires a capability that offers `op` on a resource it finds to be the console or
an existing file that opens as the capability's kind needs, and its step binds a record of
closures, one of them `F`. -/
def State.Grants (acq : State) (op : Primitive) (F : Value) : Prop :=
  ∃ y kind a res body fs m', acq.term = .letV y (.prim (.acquire kind) [a]) body ∧
    acq.env.lookup a = some (.str res) ∧ kind.Offers res op ∧ kind.Grants acq.machine res ∧
    acq.advance = (.ok (.next body (acq.env.extend y (.record fs))), m') ∧ F ∈ fs.map Prod.snd

/-- `w` is `v` or sits inside it, as a field, a payload or an item. -/
inductive Value.Part : Value → Value → Prop
  | refl {v} : Value.Part v v
  | field {w fs p} : p ∈ fs → Value.Part w p.2 → Value.Part w (.record fs)
  | payload {w tag v} : Value.Part w v → Value.Part w (.variant tag v)
  | item {w vs v} : v ∈ vs → Value.Part w v → Value.Part w (.vector vs)

/-- A value whose only closures are those of the prelude or of values the evaluations of the
trace returned: data without closures, composites of such values, and parts of a value the
prelude binds or a state of the trace halted with. -/
inductive Value.Confined (tr : List State) : Value → Prop
  | int {n} : Value.Confined tr (.int n)
  | str {s} : Value.Confined tr (.str s)
  | error {msg} : Value.Confined tr (.error msg)
  | record {fs} : (∀ p ∈ fs, Value.Confined tr p.2) → Value.Confined tr (.record fs)
  | variant {tag v} : Value.Confined tr v → Value.Confined tr (.variant tag v)
  | vector {vs} : (∀ v ∈ vs, Value.Confined tr v) → Value.Confined tr (.vector vs)
  | prelude {v w} : Prelude.env.Holds v → w.Part v → Value.Confined tr w
  | returned {q v m w} : q ∈ tr → q.advance = (.ok (.halt v), m) → w.Part v →
      Value.Confined tr w

/-- The states of a sequence of evaluations on one machine, newest first. An evaluation starts
from a term that does no I/O, in an environment of confined values, and runs step by step; a
new one may start after any state, on any machine. -/
inductive Session : List State → Prop
  | start {t env m} : t.IoFree → env.All (Value.Confined []) → Session [⟨t, env, m⟩]
  | step {s s' tr} : Session (s :: tr) → s.Next s' → Session (s' :: s :: tr)
  | eval {s tr t env m} : Session (s :: tr) → t.IoFree → env.All (Value.Confined (s :: tr)) →
      Session (⟨t, env, m⟩ :: s :: tr)

/-! ### The invariant -/

/-- Every closure reachable in the value does no I/O, or is one that a state of the trace
acquired for a primitive its capability offers. -/
inductive Value.Safe (tr : List State) : Value → Prop
  | int {n} : Value.Safe tr (.int n)
  | str {s} : Value.Safe tr (.str s)
  | error {msg} : Value.Safe tr (.error msg)
  | halt : Value.Safe tr .halt
  | record {fs} : (∀ p ∈ fs, Value.Safe tr p.2) → Value.Safe tr (.record fs)
  | variant {tag v} : Value.Safe tr v → Value.Safe tr (.variant tag v)
  | vector {vs} : (∀ v ∈ vs, Value.Safe tr v) → Value.Safe tr (.vector vs)
  | cont {id env p b} : (∀ n v, env.lookup n = some v → Value.Safe tr v) → b.IoFree →
      Value.Safe tr (.cont id env p b)
  | function {id env fn} : (∀ n v, env.lookup n = some v → Value.Safe tr v) → fn.IoFree →
      Value.Safe tr (.function id env fn)
  | member {g i} : (∀ n v, g.env.lookup n = some v → Value.Safe tr v) →
      (∀ d ∈ g.defs, d.2.IoFree) → Value.Safe tr (.member g i)
  | granted {id op acq} : acq ∈ tr → acq.Grants op (.function id .empty (Prelude.unary op)) →
      Value.Safe tr (.function id .empty (Prelude.unary op))

/-- The node runs the body of a capability's closure for `op`, which the previous state, the
first of `tr`, applied, and which a state before that acquired. -/
def State.InCapability (tr : List State) (s : State) (op : Primitive) : Prop :=
  ∃ p tr' id, tr = p :: tr' ∧ p.Next s ∧ s.term = (Prelude.unary op).body ∧
    p.Applies (.function id .empty (Prelude.unary op)) ∧
    ∃ acq ∈ tr', acq.Grants op (.function id .empty (Prelude.unary op))

/-- The invariant of a session at a state whose history is `tr`. -/
def State.Sound (tr : List State) (s : State) : Prop :=
  s.env.All (Value.Safe tr) ∧ (s.term.IoFree ∨ ∃ op, s.InCapability tr op)

/-- What a step from `s`, whose history is `tr`, leads to: a node in an environment of safe values
that does no I/O or is the body of a granted closure `s` applies, or the end with a safe value. -/
def Control.Sound (tr : List State) (s : State) : Control → Prop
  | .next t env => env.All (Value.Safe (s :: tr)) ∧ (t.IoFree ∨ ∃ op id, ∃ acq ∈ tr,
      t = (Prelude.unary op).body ∧ s.Applies (.function id .empty (Prelude.unary op)) ∧
      acq.Grants op (.function id .empty (Prelude.unary op)))
  | .halt v => v.Safe (s :: tr)

section Safe

variable {tr : List State}

theorem Value.Safe.mono {v : Value} (hv : v.Safe tr) (q : State) : v.Safe (q :: tr) := by
  induction hv with
  | int => exact .int
  | str => exact .str
  | error => exact .error
  | halt => exact .halt
  | record _ ih => exact .record ih
  | variant _ ih => exact .variant ih
  | vector _ ih => exact .vector ih
  | cont _ hb ih => exact .cont ih hb
  | function _ hfn ih => exact .function ih hfn
  | member _ hdefs ih => exact .member ih hdefs
  | granted hacq hgrant => exact .granted (List.mem_cons_of_mem q hacq) hgrant

theorem Env.All.safe_mono {env : Env} (henv : env.All (Value.Safe tr)) (q : State) :
    env.All (Value.Safe (q :: tr)) :=
  fun n v hlook => (henv n v hlook).mono q

theorem Value.Safe.part {v w : Value} (hv : v.Safe tr) (hw : w.Part v) : w.Safe tr := by
  induction hw with
  | refl => exact hv
  | field hp _ ih =>
    cases hv with
    | record hfs => exact ih (hfs _ hp)
  | payload _ ih =>
    cases hv with
    | variant hv => exact ih hv
  | item hmem _ ih =>
    cases hv with
    | vector hvs => exact ih (hvs _ hmem)

theorem Value.Flat.safe {v : Value} (hv : v.Flat) : v.Safe tr := by
  cases hv with
  | int => exact .int
  | str => exact .str
  | error => exact .error
  | unit => exact .record fun _ hp => nomatch hp
  | bool => exact .variant (.record fun _ hp => nomatch hp)

theorem Prelude.curried_ioFree {p : Primitive} (hp : p.isIO = false) :
    (Prelude.curried p).IoFree :=
  .mk (.letV (.function (.mk (.letV (.prim hp) .appC))) .appC)

theorem Prelude.env_safe : Prelude.env.All (Value.Safe tr) := by
  have hclosure : ∀ id (p : Primitive), p.isIO = false →
      (Value.function id .empty (Prelude.curried p)).Safe tr :=
    fun _ _ hp => .function (Env.all_empty _) (Prelude.curried_ioFree hp)
  have hints : Prelude.ints.Safe tr := by
    refine .record fun q hq => ?_
    obtain ⟨i, op, -, rfl⟩ := List.mem_mapIdx.1 hq
    exact hclosure _ _ rfl
  exact Prelude.env_all (fun _ hv => hv.safe) hints (hclosure _ _ rfl)

/-- Every value a state of the trace halted with is safe. -/
def Returns (tr : List State) : Prop :=
  ∀ q ∈ tr, ∀ v m, q.advance = (.ok (.halt v), m) → v.Safe tr

theorem Value.Confined.safe {v : Value} (hv : v.Confined tr) (hret : Returns tr) : v.Safe tr := by
  induction hv with
  | int => exact .int
  | str => exact .str
  | error => exact .error
  | record _ ih => exact .record ih
  | variant _ ih => exact .variant ih
  | vector _ ih => exact .vector ih
  | prelude hholds hpart =>
    obtain ⟨n, hn⟩ := hholds
    exact (Prelude.env_safe n _ hn).part hpart
  | returned hq hhalt hpart => exact (hret _ hq _ _ hhalt).part hpart

end Safe

/-! ### What a step keeps -/

section Steps

variable {tr : List State} {m : Machine} {env : Env}

theorem ValueExpr.Yields.safe {e : ValueExpr} {v : Value} (hy : e.Yields m env v)
    (henv : env.All (Value.Safe tr)) (hfn : ∀ fn, e = .function fn → fn.IoFree)
    (hacq : ∀ kind a res fs, e = .prim (.acquire kind) [a] → env.lookup a = some (.str res) →
      kind.Grants m res → v = .record fs →
      (∀ p ∈ fs, ∃ id op, p.2 = .function id .empty (Prelude.unary op) ∧ kind.Offers res op) →
      v.Safe tr) :
    v.Safe tr := by
  cases hy with
  | flat hv => exact hv.safe
  | operandError _ _ => exact .error
  | record hfs =>
    refine .record fun p hp => ?_
    obtain ⟨⟨n, hn⟩, -⟩ := hfs p hp
    exact henv n _ hn
  | variant hlook _ => exact .variant (henv _ _ hlook)
  | vector hvs =>
    refine .vector fun v hv => ?_
    obtain ⟨⟨n, hn⟩, -⟩ := hvs v hv
    exact henv n _ hn
  | function => exact .function henv (hfn _ rfl)
  | select hlook hmem =>
    obtain ⟨p, hp, rfl⟩ := List.mem_map.1 hmem
    cases henv _ _ hlook with
    | record hfs => exact hfs p hp
  | concat hl hr =>
    cases henv _ _ hl with
    | record ha =>
      cases henv _ _ hr with
      | record hb => exact .record fun p hp => (List.mem_append.1 hp).elim (ha p) (hb p)
  | acquire hlook hfound hfs => exact hacq _ _ _ _ rfl hlook hfound rfl hfs

theorem Value.Safe.resume {s : State} {K v : Value} (hK : K.Safe (s :: tr))
    (hv : v.Safe (s :: tr)) : (K.resume v).Sound tr s := by
  cases hK with
  | cont hcenv hbody => exact ⟨Env.All.extend hcenv hv, .inl hbody⟩
  | _ => exact hv

theorem Value.Enters.safe {F : Value} {fenv : Env} {fn : Lambda} (he : F.Enters fenv fn)
    (hF : F.Safe tr) :
    fenv.All (Value.Safe tr) ∧ (fn.IoFree ∨ ∃ id op, ∃ acq ∈ tr,
      F = .function id .empty (Prelude.unary op) ∧ fn = Prelude.unary op ∧ acq.Grants op F) := by
  cases he with
  | function =>
    cases hF with
    | function henv hfn => exact ⟨henv, .inl hfn⟩
    | granted hacq hgrant => exact ⟨Env.all_empty _, .inr ⟨_, _, _, hacq, rfl, rfl, hgrant⟩⟩
  | member =>
    cases hF with
    | member henv hdefs =>
      exact ⟨Env.All.withGroup henv fun _ => .member henv hdefs, .inl (hdefs _ (List.get_mem _ _))⟩

end Steps

/-! ### Sessions keep the invariant -/

section Run

variable {tr : List State}

/-- Every step from a sound state leads to what `Control.Sound` allows. -/
theorem State.Sound.advance {s : State} {c : Control} {m' : Machine} (hs : s.Sound tr)
    (hadv : s.advance = (.ok c, m')) : c.Sound tr s := by
  obtain ⟨t, env, m⟩ := s
  obtain ⟨henv, hterm⟩ := hs
  have henv' := henv.safe_mono ⟨t, env, m⟩
  -- the node does no I/O, or it is the body of a capability's closure, a `letV` of the primitive
  have hshape : t.IoFree ∨ ∃ op, t = (Prelude.unary op).body :=
    hterm.imp_right fun ⟨op, _, _, _, _, _, hbody, _⟩ => ⟨op, hbody⟩
  obtain ⟨hmove, -⟩ := step_moves hadv
  cases hmove with
  | halt hlook => exact henv' _ _ hlook
  | @letV x e b v hy =>
    have hparts : (∀ fn, e = .function fn → fn.IoFree) ∧ b.IoFree := by
      rcases hshape with hfree | ⟨op, heq⟩
      · cases hfree with
        | letV he hb =>
          refine ⟨fun fn hfn => ?_, hb⟩
          subst hfn
          cases he with
          | function hfn => exact hfn
      · cases heq
        exact ⟨(fun fn hfn => nomatch hfn), .appC⟩
    refine ⟨henv'.extend (hy.safe henv' hparts.1 ?_), .inl hparts.2⟩
    -- the closures of an acquisition are granted by the acquiring state itself
    rintro kind a res fs rfl hlook hfound rfl hfs
    refine .record fun p hp => ?_
    obtain ⟨id, op, hval, hoffers⟩ := hfs p hp
    have hmem : Value.function id .empty (Prelude.unary op) ∈ fs.map Prod.snd := by
      rw [← hval]
      exact List.mem_map_of_mem hp
    rw [hval]
    exact .granted (List.mem_cons_self ..)
      ⟨x, kind, a, res, b, fs, m', rfl, hlook, hoffers, hfound, hadv, hmem⟩
  | letC =>
    rcases hshape with hfree | ⟨op, heq⟩
    · cases hfree with
      | letC hcb hb => exact ⟨henv'.extend (.cont henv' hcb), .inl hb⟩
    · cases heq
  | letF =>
    rcases hshape with hfree | ⟨op, heq⟩
    · cases hfree with
      | letF hdefs hb => exact ⟨henv'.withGroup fun _ => .member henv' hdefs, .inl hb⟩
    · cases heq
  | appC hlook hk => exact (hk.all .halt henv').resume (henv' _ _ hlook)
  | appF hlookf hentry hk hlooka =>
    -- the closure is read against the history before this step, where its grant lies
    obtain ⟨hfenv, hfn⟩ := hentry.safe (henv _ _ hlookf)
    refine ⟨((hfenv.safe_mono _).extend (hk.all .halt henv')).extend (henv' _ _ hlooka), ?_⟩
    rcases hfn with hfree | ⟨id, op, acq, hacq, rfl, rfl, hgrant⟩
    · cases hfree with
      | mk hb => exact .inl hb
    · exact .inr ⟨op, id, acq, hacq, rfl, ⟨_, _, _, rfl, hlookf⟩, hgrant⟩
  | caseV hlook _ hk =>
    cases henv' _ _ hlook with
    | variant hp => exact (hk.all .halt henv').resume hp

theorem State.Sound.next {s s' : State} (hs : s.Sound tr) (hnext : s.Next s') :
    s'.Sound (s :: tr) := by
  obtain ⟨henv, hterm⟩ := hs.advance hnext
  refine ⟨henv, hterm.imp_right ?_⟩
  rintro ⟨op, id, acq, hacq, hbody, happ, hgrant⟩
  exact ⟨op, s, tr, id, rfl, hnext, hbody, happ, acq, hacq, hgrant⟩

/-- What a session keeps: its newest state is sound, and every value it returned is safe. -/
def Session.Invariant : List State → Prop
  | [] => True
  | s :: tr => s.Sound tr ∧ Returns (s :: tr)

theorem Session.Invariant.cons {s : State} (hs : s.Sound tr) (hret : Returns tr) :
    Session.Invariant (s :: tr) := by
  refine ⟨hs, fun q hq v m hhalt => ?_⟩
  rcases List.mem_cons.1 hq with rfl | hq
  · exact hs.advance hhalt
  · exact (hret q hq v m hhalt).mono s

theorem Session.invariant {l : List State} (h : Session l) : Session.Invariant l := by
  induction h with
  | start hfree hconf =>
    refine Session.Invariant.cons ⟨fun n v hlook => (hconf n v hlook).safe ?_, .inl hfree⟩ ?_
    all_goals exact fun q hq => nomatch hq
  | step _ hnext ih => exact Session.Invariant.cons (ih.1.next hnext) ih.2
  | eval _ hfree hconf ih =>
    exact Session.Invariant.cons ⟨fun n v hlook => (hconf n v hlook).safe ih.2, .inl hfree⟩ ih.2

end Run

/-- In a sequence of evaluations on one machine, from terms that do no I/O and environments whose
closures are the prelude's or were returned earlier, every read or write of a resource runs the
body of a closure the previous state applied, which an earlier acquisition of a capability
offering that very operation, on a resource it found to be the console or an existing file that
opens for that operation, put in the record it returned. -/
theorem io_only_through_acquired_capabilities {s : State} {tr : List State}
    (hsess : Session (s :: tr)) {op : Primitive} (hio : op.isIO = true) (hperf : s.Performs op) :
    s.InCapability tr op := by
  obtain ⟨⟨-, hterm⟩, -⟩ := hsess.invariant
  obtain ⟨y, a, b, hnode⟩ := hperf
  rcases hterm with hfree | ⟨op', p, tr', id, htr, hnext, hbody, hrest⟩
  · -- a node that does no I/O invokes no primitive that does
    rw [hnode] at hfree
    cases hfree with
    | letV he _ =>
      cases he with
      | prim hp => exact absurd hio (by simp [hp])
  · -- the body of the closure for `op'` invokes `op'` itself
    rw [hnode] at hbody
    cases hbody
    exact ⟨p, tr', id, htr, hnext, hnode, hrest⟩

theorem console_read_runs_in_acquired_capability :
    ∃ s tr, Session (s :: tr) ∧ (Primitive.read "-").isIO = true ∧ s.Performs (.read "-") ∧
      s.InCapability tr (.read "-") := by
  have hsess : Session
      [⟨(Prelude.unary (.read "-")).body, (Env.empty.extend "k" .halt).extend "x" (.str "-"),
          { steps := 3, nextId := 12 }⟩,
        ⟨.appF "rd" .halt "n", (((Env.empty.extend "n" (.str "-")).extend "c"
            (.record [("read", .function 11 .empty (Prelude.unary (.read "-")))])).extend "rd"
            (.function 11 .empty (Prelude.unary (.read "-")))),
          { steps := 2, nextId := 12 }⟩,
        ⟨.letV "rd" (.prim .select ["c", "read"]) (.appF "rd" .halt "n"),
          (Env.empty.extend "n" (.str "-")).extend "c"
            (.record [("read", .function 11 .empty (Prelude.unary (.read "-")))]),
          { steps := 1, nextId := 12 }⟩,
        ⟨.letV "c" (.prim (.acquire .reader) ["n"])
            (.letV "rd" (.prim .select ["c", "read"]) (.appF "rd" .halt "n")),
          Env.empty.extend "n" (.str "-"), {}⟩] := by
    refine .step (.step (.step (.start ?_ ?_) rfl) rfl) rfl
    · exact .letV (.prim rfl) (.letV (.prim rfl) .appF)
    · exact (Env.all_empty _).extend .str
  exact ⟨_, _, hsess, rfl, ⟨_, _, _, rfl⟩,
    io_only_through_acquired_capabilities hsess rfl ⟨_, _, _, rfl⟩⟩

end CpsMachine
