import CpsMachine.Proofs.Frame

/-!
# Files only grow, by appends in the order they are made

`writes_append_in_order`: over any sequence of evaluations on one machine, whether each ends by
halting, by a fault or at its step limit,

* files and directories are neither created nor removed, and a file stays a file
  (`Files.Store.SameLayout`);
* the bytes of every file are its bytes at the start followed by the texts the writes of the
  evaluations appended to it, in the order the writes ran (`State.appends`): an integer in
  decimal, a string as it is;
* the console's output is its output at the start followed by the texts written to the console
  marker, in order (`State.printed`), and none of those goes to a file;
* a write that the named file cannot take faults with I/O and changes nothing, and a read gives
  the current text of the file, or faults with I/O.

The store side is that appending keeps the layout (`Files.Store.append_ok`), and that where every
name leads depends on the layout alone (`Files.Store.SameLayout.locate`), so a resource names the
same file all along. The machine side is one step lemma (`State.advance_afterWrites`): a step that
does not write keeps the files and the output (`Frame.output`), and a write adds exactly its text.
`run_afterWrites` adds the steps up along a run, and `evalAll_afterWrites` along the evaluations.
-/

namespace CpsMachine

namespace Files

/-- Whether an entry is a directory: all that the walk of a name looks at. -/
def Entry.isDir : Entry → Bool
  | .dir => true
  | .file _ => false

namespace Store

/-- The two stores hold entries at the same paths, of the same kinds, and lock the same files:
nothing was created or removed, and a file stayed a file. -/
structure SameLayout (s s' : Store) : Prop where
  entries : ∀ p, (s.find? p).map Entry.isDir = (s'.find? p).map Entry.isDir
  locked : s'.locked = s.locked

theorem SameLayout.refl (s : Store) : s.SameLayout s :=
  ⟨fun _ => rfl, rfl⟩

theorem SameLayout.trans {s₁ s₂ s₃ : Store} (h₁ : s₁.SameLayout s₂) (h₂ : s₂.SameLayout s₃) :
    s₁.SameLayout s₃ :=
  ⟨fun p => (h₁.entries p).trans (h₂.entries p), h₂.locked.trans h₁.locked⟩

section Layout

variable {s s' : Store}

theorem SameLayout.child (h : s.SameLayout s') (d : Dir) (c : String) :
    s.child d c = s'.child d c := by
  cases d with
  | host p => rfl
  | store p =>
    have hp := h.entries (p ++ [c])
    simp only [Store.child]
    -- the two entries at the path are both absent, both files or both directories
    rcases hs : s.find? (p ++ [c]) with _ | (_ | _) <;>
      rcases hs' : s'.find? (p ++ [c]) with _ | (_ | _) <;>
      simp_all [Entry.isDir]

theorem SameLayout.walk (h : s.SameLayout s') :
    ∀ (cs : List String) (d : Dir), s.walk d cs = s'.walk d cs
  | [], _ => rfl
  | c :: rest, d => by
    simp only [Store.walk, h.child, SameLayout.walk h rest]

theorem SameLayout.locate (h : s.SameLayout s') (name : String) :
    s.locate name = s'.locate name := by
  simp only [Store.locate, Store.dirOf, h.walk, h.child]

theorem SameLayout.opens (h : s.SameLayout s') (access : Access) (name : String) :
    s.opens access name = s'.opens access name := by
  simp only [Store.opens, Store.permits, h.locate, h.locked]

end Layout

/-! ### Setting and appending -/

section Entries

variable (entries : List (Path × Entry)) (p q : Path) (e : Entry)

theorem find?_map_replace (hany : entries.any (fun e' => e'.1 == p) = true) :
    ((entries.map fun e' => if e'.1 == p then (p, e) else e').find? (fun e' => e'.1 == q)).map
        Prod.snd =
      if q = p then some e else (entries.find? (fun e' => e'.1 == q)).map Prod.snd := by
  rw [List.find?_map]
  have hkey : ((fun e' : Path × Entry => e'.1 == q) ∘
      fun e' => if e'.1 == p then (p, e) else e') = fun e' => e'.1 == q := by
    funext e'
    by_cases h : e'.1 = p <;> simp [h]
  rw [hkey]
  split
  · subst q
    obtain ⟨x, hx, hxp⟩ := List.any_eq_true.1 hany
    cases hfind : entries.find? (fun e' => e'.1 == p) with
    | none =>
      simp only [List.find?_eq_none, beq_iff_eq] at hfind
      exact absurd (beq_iff_eq.1 hxp) (hfind x hx)
    | some y =>
      have hy := List.find?_some hfind
      simp only [beq_iff_eq] at hy
      simp [hy]
  · rename_i hqp
    cases hfind : entries.find? (fun e' => e'.1 == q) with
    | none => rfl
    | some y =>
      have hy := List.find?_some hfind
      simp only [beq_iff_eq] at hy
      simp [hy, hqp]

theorem find?_append_new (hany : ¬entries.any (fun e' => e'.1 == p) = true) :
    ((entries ++ [(p, e)]).find? (fun e' => e'.1 == q)).map Prod.snd =
      if q = p then some e else (entries.find? (fun e' => e'.1 == q)).map Prod.snd := by
  rw [List.find?_append]
  split
  · subst q
    have hnone : entries.find? (fun e' => e'.1 == p) = none := by
      rw [List.find?_eq_none]
      intro x hx hxp
      exact hany (List.any_eq_true.2 ⟨x, hx, hxp⟩)
    simp [hnone]
  · rename_i hqp
    cases entries.find? (fun e' => e'.1 == q) <;> simp [Ne.symm hqp]

end Entries

theorem find?_set (s : Store) (p : Path) (e : Entry) (q : Path) :
    (s.set p e).find? q = if q = p then some e else s.find? q := by
  unfold set find?
  split
  · exact find?_map_replace _ _ _ _ ‹_›
  · exact find?_append_new _ _ _ _ ‹_›

theorem bytesAt_set_file (s : Store) (p q : Path) (bytes : List UInt8) :
    (s.set p (.file bytes)).bytesAt q = if q = p then bytes else s.bytesAt q := by
  unfold bytesAt
  rw [find?_set]
  by_cases hq : q = p <;> simp [hq]

theorem locked_set (s : Store) (p : Path) (e : Entry) : (s.set p e).locked = s.locked := by
  unfold set
  split <;> rfl

theorem sameLayout_set_file {s : Store} {p : Path} {old : List UInt8}
    (h : s.find? p = some (.file old)) (bytes : List UInt8) :
    s.SameLayout (s.set p (.file bytes)) := by
  refine ⟨fun q => ?_, locked_set s p _⟩
  rw [find?_set]
  split
  · subst q
    rw [h]
    rfl
  · rfl

theorem child_file {s : Store} {d : Dir} {c : String} {p : Path}
    (h : s.child d c = some (.file p)) :
    ∃ old, s.find? p = some (.file old) := by
  cases d with
  | store q =>
    simp only [Store.child] at h
    split at h
    · rename_i old hfind
      cases h
      exact ⟨old, hfind⟩
    · cases h
    · cases h
  | host q =>
    simp only [Store.child] at h
    split at h <;> cases h

theorem locate_file {s : Store} {name : String} {p : Path} (h : s.locate name = .ok (.file p)) :
    ∃ old, s.find? p = some (.file old) := by
  simp only [Store.locate, bind, Except.bind] at h
  -- the walk and the checks of the last component give no file; only its lookup can
  split at h
  · cases h
  split at h
  · cases h
  split at h
  · cases h
  split at h
  · cases h
  split at h
  · cases h
  split at h
  · cases h
  split at h
  · cases h
  · cases h
  · rename_i node _ hchild
    split at h
    · cases h
    · cases h
      exact child_file hchild

/-- The bytes that appending `bytes` to `name` adds to the file at `p`: all of them if the name
leads to that file and it opens for appending, none otherwise. -/
def addedAt (s : Store) (name : String) (bytes : List UInt8) (p : Path) : List UInt8 :=
  match s.locate name with
  | .ok (.file q) => if q = p ∧ s.permits q .append then bytes else []
  | _ => []

theorem append_file {s : Store} {name : String} {p : Path} (h : s.locate name = .ok (.file p))
    (bytes : List UInt8) :
    s.append name bytes =
      if s.permits p .append then .ok (s.set p (.file (s.bytesAt p ++ bytes)))
      else .error .permissionDenied := by
  unfold append
  rw [h]
  show (if !s.permits p .append then (throw IoError.permissionDenied : Except IoError Store)
    else pure (s.set p (.file (s.bytesAt p ++ bytes)))) = _
  cases s.permits p .append <;> rfl

theorem append_of_locate_error {s : Store} {name : String} {e : IoError}
    (h : s.locate name = .error e) (bytes : List UInt8) : s.append name bytes = .error e := by
  unfold append
  rw [h]
  rfl

theorem append_ok {s s' : Store} {name : String} {bytes : List UInt8}
    (h : s.append name bytes = .ok s') :
    s.SameLayout s' ∧ ∀ p, s'.bytesAt p = s.bytesAt p ++ s.addedAt name bytes p := by
  unfold addedAt
  cases hloc : s.locate name with
  | error e => rw [append_of_locate_error hloc] at h; cases h
  | ok node =>
    cases node with
    | dir d => unfold append at h; rw [hloc] at h; cases h
    | null =>
      unfold append at h
      rw [hloc] at h
      cases h
      exact ⟨SameLayout.refl _, fun p => by simp⟩
    | file q =>
      rw [append_file hloc] at h
      -- a locked file refuses the append
      by_cases hperm : s.permits q .append
      · rw [if_pos hperm] at h
        cases h
        obtain ⟨old, hold⟩ := locate_file hloc
        refine ⟨sameLayout_set_file hold _, fun p => ?_⟩
        rw [bytesAt_set_file]
        by_cases hpq : p = q
        · subst p
          simp [hperm]
        · simp [hpq, Ne.symm hpq]
      · rw [if_neg hperm] at h
        cases h

theorem append_error {s : Store} {name : String} {bytes : List UInt8} {e : IoError}
    (h : s.append name bytes = .error e) (p : Path) : s.addedAt name bytes p = [] := by
  unfold addedAt
  cases hloc : s.locate name with
  | error e' => rfl
  | ok node =>
    cases node with
    | dir d => rfl
    | null => rfl
    | file q =>
      rw [append_file hloc] at h
      by_cases hperm : s.permits q .append
      · rw [if_pos hperm] at h
        cases h
      · simp [hperm]

theorem append_of_locked {s : Store} {name : String} {p : Path} (h : s.locate name = .ok (.file p))
    (hlocked : s.permits p .append = false) (bytes : List UInt8) :
    s.append name bytes = .error .permissionDenied := by
  rw [append_file h, hlocked]
  rfl

theorem readText_file {s : Store} {name : String} {p : Path} (h : s.locate name = .ok (.file p)) :
    s.readText name =
      if s.permits p .read then
        match String.fromUTF8? ⟨(s.bytesAt p).toArray⟩ with
        | some text => .ok text
        | none => .error .invalidText
      else .error .permissionDenied := by
  unfold readText
  rw [h]
  show (if !s.permits p .read then (throw IoError.permissionDenied : Except IoError String)
    else match String.fromUTF8? ⟨(s.bytesAt p).toArray⟩ with
      | some text => pure text
      | none => throw IoError.invalidText) = _
  cases s.permits p .read <;> rfl

theorem readText_of_locate_error {s : Store} {name : String} {e : IoError}
    (h : s.locate name = .error e) : s.readText name = .error e := by
  unfold readText
  rw [h]
  rfl

end Store

end Files

open EvalM

/-! ### What one step writes -/

/-- The files, the console's output and the configuration stay as they are. -/
def Frame.output : Frame where
  rel m m' := m'.files = m.files ∧ m'.console.output = m.console.output ∧ m'.config = m.config
  refl _ := ⟨rfl, rfl, rfl⟩
  trans h₁ h₂ := ⟨h₂.1.trans h₁.1, h₂.2.1.trans h₁.2.1, h₂.2.2.trans h₁.2.2⟩
  fresh _ := ⟨rfl, rfl, rfl⟩
  tick _ := ⟨rfl, rfl, rfl⟩

theorem read_keeps_output (node : Term) (res : String) :
    (Invoke.read node res).Keeps Frame.output := by
  intro m
  rw [read_exec]
  split
  · exact ⟨rfl, rfl, rfl⟩
  · split <;> exact ⟨rfl, rfl, rfl⟩

/-- The resource and the text the node of `s` writes, if it writes an integer or a string. -/
def State.written (s : State) : Option (String × String) :=
  match s.term with
  | .letV _ (.prim (.write res) [a]) _ =>
    match s.env.lookup a with
    | some v => v.text?.map fun text => (res, text)
    | none => none
  | _ => none

/-- The bytes the node of `s` appends to the file at `p`: what it writes, if it writes to a
resource other than the console marker that leads to that file. -/
def State.appends (s : State) (p : Files.Path) : List UInt8 :=
  match s.written with
  | some (res, text) =>
    if res = s.machine.config.console then [] else s.machine.files.addedAt res text.toUTF8.toList p
  | none => []

/-- The text the node of `s` writes to the console marker. -/
def State.printed (s : State) : String :=
  match s.written with
  | some (res, text) => if res = s.machine.config.console then text else ""
  | none => ""

/-- `m'` is `m` after the writes of the states `ss`: the files keep their layout, every file's
bytes are followed by what the states append to it, in order, the console's output by what
they print, and the configuration is as it was. -/
structure Machine.AfterWrites (m : Machine) (ss : List State) (m' : Machine) : Prop where
  layout : m.files.SameLayout m'.files
  bytes : ∀ p, m'.files.bytesAt p = m.files.bytesAt p ++ ss.flatMap (·.appends p)
  output : m'.console.output = m.console.output ++ String.join (ss.map State.printed)
  config : m'.config = m.config

namespace Machine.AfterWrites

theorem nil (m : Machine) : m.AfterWrites [] m :=
  ⟨Files.Store.SameLayout.refl _, fun _ => by simp, by simp, rfl⟩

theorem append {m m₁ m₂ : Machine} {ss ss' : List State} (h₁ : m.AfterWrites ss m₁)
    (h₂ : m₁.AfterWrites ss' m₂) : m.AfterWrites (ss ++ ss') m₂ where
  layout := h₁.layout.trans h₂.layout
  bytes p := by rw [h₂.bytes, h₁.bytes, List.flatMap_append, List.append_assoc]
  output := by rw [h₂.output, h₁.output, List.map_append, String.join_append, String.append_assoc]
  config := h₂.config.trans h₁.config

theorem of_output {m' : Machine} {s : State} (hs : s.written = none)
    (h : Frame.output.rel s.machine m') : s.machine.AfterWrites [s] m' where
  layout := by rw [h.1]; exact Files.Store.SameLayout.refl _
  bytes p := by simp [h.1, State.appends, hs]
  output := by simp [h.2.1, State.printed, hs]
  config := h.2.2

end Machine.AfterWrites

theorem step_letV_exec (y : String) (e : ValueExpr) (b : Term) (env : Env) (m : Machine) :
    (step (.letV y e b) env).exec m =
      match (evalExpr (.letV y e b) env e).exec m with
      | (.ok v, m') => (.ok (.next b (env.extend y v)), m')
      | (.error f, m') => (.error f, m') := by
  simp only [step]
  rw [exec_bind]
  rcases (evalExpr (.letV y e b) env e).exec m with ⟨_ | v, m'⟩ <;> rfl

theorem advance_write_machine {y res a : String} {b : Term} {env : Env} {m : Machine} :
    (State.mk (.letV y (.prim (.write res) [a]) b) env m).advance.2 =
      ((Invoke.write (.letV y (.prim (.write res) [a]) b) env res a).exec
        { m with steps := m.steps + 1 }).2 := by
  have hexpr : evalExpr (.letV y (.prim (.write res) [a]) b) env (.prim (.write res) [a]) =
      Invoke.write (.letV y (.prim (.write res) [a]) b) env res a := rfl
  simp only [State.advance, step_letV_exec, hexpr]
  rcases (Invoke.write (.letV y (.prim (.write res) [a]) b) env res a).exec
    { m with steps := m.steps + 1 } with ⟨_ | _, _⟩ <;> rfl

theorem State.write_afterWrites {y res a : String} {b : Term} {env : Env} {m : Machine} :
    m.AfterWrites [⟨.letV y (.prim (.write res) [a]) b, env, m⟩]
      (State.mk (.letV y (.prim (.write res) [a]) b) env m).advance.2 := by
  rw [advance_write_machine]
  cases hlook : env.lookup a with
  | none =>
    -- the operand is unbound: the fetch faults and nothing is written
    have hwritten : State.written ⟨.letV y (.prim (.write res) [a]) b, env, m⟩ = none := by
      simp [State.written, hlook]
    refine Machine.AfterWrites.of_output hwritten ?_
    rw [write_exec_unbound hlook]
    exact ⟨rfl, rfl, rfl⟩
  | some v =>
    cases htext : v.text? with
    | none =>
      have hwritten : State.written ⟨.letV y (.prim (.write res) [a]) b, env, m⟩ = none := by
        simp [State.written, hlook, htext]
      refine Machine.AfterWrites.of_output hwritten ?_
      rw [write_exec_untext hlook htext]
      exact ⟨rfl, rfl, rfl⟩
    | some text =>
      have hwritten : State.written ⟨.letV y (.prim (.write res) [a]) b, env, m⟩ =
          some (res, text) := by
        simp [State.written, hlook, htext]
      have happends : ∀ p, State.appends ⟨.letV y (.prim (.write res) [a]) b, env, m⟩ p =
          if res = m.config.console then [] else m.files.addedAt res text.toUTF8.toList p := by
        intro p
        simp only [State.appends, hwritten]
      have hprinted : State.printed ⟨.letV y (.prim (.write res) [a]) b, env, m⟩ =
          if res = m.config.console then text else "" := by
        simp only [State.printed, hwritten]
      rw [write_exec_text hlook htext]
      by_cases hc : res = m.config.console
      · -- the console marker: the text goes to the output and to no file
        rw [if_pos hc]
        refine ⟨Files.Store.SameLayout.refl _, fun p => ?_, ?_, rfl⟩
        · simp only [happends, if_pos hc, List.flatMap_cons, List.flatMap_nil, List.append_nil]
        · simp only [hprinted, if_pos hc, List.map_cons, List.map_nil, String.join_cons,
            String.join_nil, String.append_empty, Console.write]
      · rw [if_neg hc]
        split
        · rename_i files happ
          obtain ⟨hlayout, hbytes⟩ := Files.Store.append_ok happ
          refine ⟨hlayout, fun p => ?_, ?_, rfl⟩
          · simp only [hbytes, happends, if_neg hc, List.flatMap_cons, List.flatMap_nil,
              List.append_nil]
          · simp [hprinted, hc]
        · rename_i e happ
          refine ⟨Files.Store.SameLayout.refl _, fun p => ?_, ?_, rfl⟩
          · simp only [happends, if_neg hc, List.flatMap_cons, List.flatMap_nil, List.append_nil]
            rw [Files.Store.append_error happ p, List.append_nil]
          · simp [hprinted, hc]

/-- Every step appends exactly what its node writes, and changes no layout. -/
theorem State.advance_afterWrites (s : State) : s.machine.AfterWrites [s] s.advance.2 := by
  obtain ⟨t, env, m⟩ := s
  by_cases hw : ∃ y res a b, t = .letV y (.prim (.write res) [a]) b
  · obtain ⟨y, res, a, b, rfl⟩ := hw
    exact State.write_afterWrites
  · -- a node that writes nothing keeps the files and the output: its primitive is no write
    have hwritten : State.written ⟨t, env, m⟩ = none := by
      simp only [State.written]
      split
      · exact absurd ⟨_, _, _, _, rfl⟩ hw
      · rfl
    refine Machine.AfterWrites.of_output hwritten (State.advance_keeps ?_)
    intro y p args b hterm
    refine invoke_keeps (fun r a _ _ => read_keeps_output _ r) ?_
    rintro r a rfl rfl
    exact absurd ⟨y, r, a, b, hterm⟩ hw

/-! ### Runs and sequences of evaluations -/

/-- The states a run of at most `fuel` steps from `s` enters, in order. -/
def State.trail : Nat → State → List State
  | 0, _ => []
  | fuel + 1, s => s :: match s.advance with
    | (.ok (.next t env), m) => State.trail fuel ⟨t, env, m⟩
    | _ => []

section Trail

variable {R : Machine → List State → Machine → Prop}

theorem run_trail (hnil : ∀ m, R m [] m) (hstep : ∀ s : State, R s.machine [s] s.advance.2)
    (happ : ∀ {m₁ m₂ m₃ ss ss'}, R m₁ ss m₂ → R m₂ ss' m₃ → R m₁ (ss ++ ss') m₃) :
    ∀ (fuel : Nat) (s : State),
      R s.machine (s.trail fuel) (Machine.run fuel s.term s.env s.machine).2
  | 0, s => hnil _
  | fuel + 1, s => by
    have hs := hstep s
    rw [run_succ]
    simp only [State.trail]
    rcases hadv : s.advance with ⟨_ | _ | _, m'⟩ <;> rw [hadv] at hs
    · exact hs
    · exact happ hs (run_trail hnil hstep happ fuel ⟨_, _, m'⟩)
    · exact hs

/-- Evaluations run one after another on one machine: the states they enter, in order, and the
machine they leave. -/
def Machine.evalAll (m : Machine) : List (Term × Env) → List State × Machine
  | [] => ([], m)
  | (t, env) :: rest =>
    let after := (m.eval t env).2.evalAll rest
    (State.trail Machine.stepLimit ⟨t, env, m⟩ ++ after.1, after.2)

theorem evalAll_trail (hnil : ∀ m, R m [] m) (hstep : ∀ s : State, R s.machine [s] s.advance.2)
    (happ : ∀ {m₁ m₂ m₃ ss ss'}, R m₁ ss m₂ → R m₂ ss' m₃ → R m₁ (ss ++ ss') m₃) (m : Machine) :
    ∀ evs : List (Term × Env), R m (m.evalAll evs).1 (m.evalAll evs).2
  | [] => hnil m
  | (t, env) :: rest =>
    happ (run_trail hnil hstep happ Machine.stepLimit ⟨t, env, m⟩)
      (evalAll_trail hnil hstep happ (m.eval t env).2 rest)

end Trail

/-- A run appends to the files and prints what the states it enters write, in order. -/
theorem run_afterWrites (fuel : Nat) (s : State) :
    s.machine.AfterWrites (s.trail fuel) (Machine.run fuel s.term s.env s.machine).2 :=
  run_trail Machine.AfterWrites.nil State.advance_afterWrites Machine.AfterWrites.append fuel s

theorem evalAll_afterWrites (m : Machine) (evs : List (Term × Env)) :
    m.AfterWrites (m.evalAll evs).1 (m.evalAll evs).2 :=
  evalAll_trail Machine.AfterWrites.nil State.advance_afterWrites Machine.AfterWrites.append m evs

theorem trail_layout : ∀ (fuel : Nat) (s : State), ∀ q ∈ s.trail fuel,
    s.machine.files.SameLayout q.machine.files
  | 0, s => by simp [State.trail]
  | fuel + 1, s => by
    intro q hq
    have hstep := s.advance_afterWrites.layout
    simp only [State.trail, List.mem_cons] at hq
    rcases hq with rfl | hq
    · exact Files.Store.SameLayout.refl _
    · rcases hadv : s.advance with ⟨_ | _ | _, m'⟩ <;> rw [hadv] at hq hstep
      · cases hq
      · exact hstep.trans (trail_layout fuel ⟨_, _, m'⟩ q hq)
      · cases hq

theorem evalAll_layout (m : Machine) :
    ∀ evs : List (Term × Env), ∀ q ∈ (m.evalAll evs).1, m.files.SameLayout q.machine.files
  | [] => fun _ hq => nomatch hq
  | (t, env) :: rest => by
    intro q hq
    rcases List.mem_append.1 hq with hq | hq
    · exact trail_layout Machine.stepLimit ⟨t, env, m⟩ q hq
    · exact (run_afterWrites Machine.stepLimit ⟨t, env, m⟩).layout.trans
        (evalAll_layout (m.eval t env).2 rest q hq)

/-! ### Failed writes and reads -/

theorem State.advance_write_error {s : State} {y res a : String} {b : Term} {v : Value}
    {text : String} {e : Files.IoError} (hterm : s.term = .letV y (.prim (.write res) [a]) b)
    (hlook : s.env.lookup a = some v) (htext : v.text? = some text)
    (hres : res ≠ s.machine.config.console)
    (happ : s.machine.files.append res text.toUTF8.toList = .error e) :
    s.advance = (.error (.io s.term res e), { s.machine with steps := s.machine.steps + 1 }) := by
  obtain ⟨t, env, m⟩ := s
  dsimp only at hterm hlook hres happ ⊢
  subst hterm
  simp only [State.advance, step_letV_exec]
  show (match (Invoke.write _ env res a).exec _ with
    | (.ok v, m') => _ | (.error f, m') => _) = _
  rw [write_exec_text hlook htext]
  simp only [hres, if_false, happ]

theorem State.advance_read {s : State} {y res a : String} {b : Term}
    (hterm : s.term = .letV y (.prim (.read res) [a]) b) (hres : res ≠ s.machine.config.console) :
    s.advance =
      match s.machine.files.readText res with
      | .ok text => (.ok (.next b (s.env.extend y (.str text))),
          { s.machine with steps := s.machine.steps + 1 })
      | .error e =>
        (.error (.io s.term res e), { s.machine with steps := s.machine.steps + 1 }) := by
  obtain ⟨t, env, m⟩ := s
  dsimp only at hterm hres ⊢
  subst hterm
  simp only [State.advance, step_letV_exec]
  show (match (Invoke.read _ res).exec _ with
    | (.ok v, m') => _ | (.error f, m') => _) = _
  rw [read_exec]
  simp only [hres, if_false]
  cases m.files.readText res <;> rfl

theorem State.advance_read_console {s : State} {y res a : String} {b : Term}
    (hterm : s.term = .letV y (.prim (.read res) [a]) b) (hres : res = s.machine.config.console) :
    s.advance = (.ok (.next b (s.env.extend y (.str s.machine.console.input))),
      { s.machine with steps := s.machine.steps + 1,
                       console := { s.machine.console with input := "" } }) := by
  obtain ⟨t, env, m⟩ := s
  dsimp only at hterm hres ⊢
  subst hterm
  simp only [State.advance, step_letV_exec]
  show (match (Invoke.read _ res).exec _ with
    | (.ok v, m') => _ | (.error f, m') => _) = _
  rw [read_exec]
  simp only [hres, if_true]

/-- Files only grow, by appends in the order they are made. Over any sequence of evaluations on
one machine: files and directories are neither created nor removed, and every state sees the
layout of the start; each file's bytes are followed by what the writes appended to it, in order;
the console's output by the texts written to the console marker, in order. A write that its file
cannot take, a missing or a locked one among them, faults with I/O and changes nothing but the
step count; a read gives the current text of the file its resource leads to, if that file opens
for reading, or faults with I/O; and a read of the console takes all of its remaining input. -/
theorem writes_append_in_order (m : Machine) (evs : List (Term × Env)) :
    m.files.SameLayout (m.evalAll evs).2.files ∧
    (∀ q ∈ (m.evalAll evs).1, m.files.SameLayout q.machine.files) ∧
    (∀ p, (m.evalAll evs).2.files.bytesAt p =
      m.files.bytesAt p ++ (m.evalAll evs).1.flatMap (·.appends p)) ∧
    (m.evalAll evs).2.console.output =
      m.console.output ++ String.join ((m.evalAll evs).1.map State.printed) ∧
    (∀ (s : State) (y res a : String) (b : Term) (v : Value) (text : String) (e : Files.IoError),
      s.term = .letV y (.prim (.write res) [a]) b → s.env.lookup a = some v → v.text? = some text →
      res ≠ s.machine.config.console → s.machine.files.locate res = .error e →
      s.advance = (.error (.io s.term res e), { s.machine with steps := s.machine.steps + 1 })) ∧
    (∀ (s : State) (y res a : String) (b : Term) (v : Value) (text : String) (p : Files.Path),
      s.term = .letV y (.prim (.write res) [a]) b → s.env.lookup a = some v → v.text? = some text →
      res ≠ s.machine.config.console → s.machine.files.locate res = .ok (.file p) →
      s.machine.files.permits p .append = false →
      s.advance = (.error (.io s.term res .permissionDenied),
        { s.machine with steps := s.machine.steps + 1 })) ∧
    (∀ (s : State) (y res a : String) (b : Term) (p : Files.Path),
      s.term = .letV y (.prim (.read res) [a]) b → res ≠ s.machine.config.console →
      s.machine.files.locate res = .ok (.file p) →
      s.advance =
        if s.machine.files.permits p .read then
          match String.fromUTF8? ⟨(s.machine.files.bytesAt p).toArray⟩ with
          | some text => (.ok (.next b (s.env.extend y (.str text))),
              { s.machine with steps := s.machine.steps + 1 })
          | none => (.error (.io s.term res .invalidText),
              { s.machine with steps := s.machine.steps + 1 })
        else (.error (.io s.term res .permissionDenied),
          { s.machine with steps := s.machine.steps + 1 })) ∧
    (∀ (s : State) (y res a : String) (b : Term) (e : Files.IoError),
      s.term = .letV y (.prim (.read res) [a]) b → res ≠ s.machine.config.console →
      s.machine.files.locate res = .error e →
      s.advance = (.error (.io s.term res e), { s.machine with steps := s.machine.steps + 1 })) ∧
    (∀ (s : State) (y res a : String) (b : Term),
      s.term = .letV y (.prim (.read res) [a]) b → res = s.machine.config.console →
      s.advance = (.ok (.next b (s.env.extend y (.str s.machine.console.input))),
        { s.machine with steps := s.machine.steps + 1,
                         console := { s.machine.console with input := "" } })) := by
  have hall := evalAll_afterWrites m evs
  refine ⟨hall.layout, evalAll_layout m evs, hall.bytes, hall.output, ?_, ?_, ?_, ?_, ?_⟩
  · intro s y res a b v text e hterm hlook htext hres hloc
    exact State.advance_write_error hterm hlook htext hres
      (Files.Store.append_of_locate_error hloc _)
  · intro s y res a b v text p hterm hlook htext hres hloc hlocked
    exact State.advance_write_error hterm hlook htext hres
      (Files.Store.append_of_locked hloc hlocked _)
  · intro s y res a b p hterm hres hloc
    rw [State.advance_read hterm hres, Files.Store.readText_file hloc]
    cases s.machine.files.permits p .read
    · rfl
    · cases String.fromUTF8? ⟨(s.machine.files.bytesAt p).toArray⟩ <;> rfl
  · intro s y res a b e hterm hres hloc
    rw [State.advance_read hterm hres, Files.Store.readText_of_locate_error hloc]
  · intro s y res a b hterm hres
    exact State.advance_read_console hterm hres

end CpsMachine
