import CpsMachine.Syntax.Term

/-!
# Values and environments

A value is an integer, a string, a record, a tagged variant, a vector, a closure or an error.
Errors are values: a failed primitive yields one, and it travels on like any other value.

Closures carry an identity, a number drawn from the machine when the closure is made, because
two closures are equal only if they are the same closure. A member of a recursive group is
identified by its group and its position in it.

An environment binds names, newest first, to values or to members of recursive groups, and holds
the groups whose members it may bind (its anchors). Extending one leaves it unchanged, so a
closure keeps the environment it was made in.

* `Env.lookup` finds the newest binding of a name. A member binding is a weak reference to its
  group: it reads as the member only while the environment holds a group of that identity.
* `Group.memberEnv` is the environment the members of a group run in: the group's environment
  with each of its names bound to its member (`Env.withMembers`), holding the group itself
  (`Env.anchored`). `Env.withGroup` makes the group of a `letF` and gives that environment.
-/

namespace CpsMachine

mutual

/-- A value of the machine. -/
inductive Value where
  | int (n : Int)
  | str (s : String)
  /-- Fields in order; a name may occur more than once. -/
  | record (fields : List (String × Value))
  | variant (tag : String) (payload : Value)
  | vector (items : List Value)
  /-- The halt continuation: passing a value to it ends the run. -/
  | halt
  /-- A continuation made by `letC`, with the environment it was made in. -/
  | cont (id : Nat) (env : Env) (param : String) (body : Term)
  /-- A function made by a `fun` expression, with the environment it was made in. -/
  | function (id : Nat) (env : Env) (fn : Lambda)
  /-- Member `index` of the recursive group `group`. -/
  | member (group : Group) (index : Nat)
  | error (message : String)

/-- What a name is bound to: a value, or member `index` of a recursive group, held weakly. -/
inductive Binding where
  | value (v : Value)
  | member (group : Group) (index : Nat)

/-- Bindings, newest first, and the groups the environment holds. -/
inductive Env where
  | mk (bindings : List (String × Binding)) (anchors : List Group)

/-- The definitions of one `letF`, the identity it was given and the environment it ran in. -/
inductive Group where
  | mk (id : Nat) (defs : List (String × Lambda)) (env : Env)

end

namespace Value

/-- The unit value is the empty record. -/
def unit : Value := .record []

/-- Truth values are variants tagged `true` and `false` with the unit payload. -/
def bool (b : Bool) : Value :=
  .variant (if b then "true" else "false") unit

def isError : Value → Bool
  | .error _ => true
  | _ => false

def isClosure : Value → Bool
  | .halt | .cont .. | .function .. | .member .. => true
  | _ => false

end Value

namespace Group

def id : Group → Nat
  | .mk id _ _ => id

def defs : Group → List (String × Lambda)
  | .mk _ defs _ => defs

def env : Group → Env
  | .mk _ _ env => env

@[simp] theorem id_mk (i : Nat) (defs : List (String × Lambda)) (env : Env) :
    (Group.mk i defs env).id = i := rfl

@[simp] theorem defs_mk (i : Nat) (defs : List (String × Lambda)) (env : Env) :
    (Group.mk i defs env).defs = defs := rfl

@[simp] theorem env_mk (i : Nat) (defs : List (String × Lambda)) (env : Env) :
    (Group.mk i defs env).env = env := rfl

end Group

namespace Env

def bindings : Env → List (String × Binding)
  | .mk bindings _ => bindings

def anchors : Env → List Group
  | .mk _ anchors => anchors

@[simp] theorem bindings_mk (bs : List (String × Binding)) (gs : List Group) :
    (Env.mk bs gs).bindings = bs := rfl

@[simp] theorem anchors_mk (bs : List (String × Binding)) (gs : List Group) :
    (Env.mk bs gs).anchors = gs := rfl

/-- No bindings and no groups. -/
def empty : Env := .mk [] []

/-- Whether the environment holds a group of the identity of `g`. -/
def holds (env : Env) (g : Group) : Bool :=
  env.anchors.any fun a => a.id == g.id

/-- What a binding reads as in `env`: a member only while `env` holds its group. -/
def read (env : Env) : Binding → Option Value
  | .value v => some v
  | .member g i => if env.holds g then some (.member g i) else none

/-- The value of the newest binding of `name`. -/
def lookup (env : Env) (name : String) : Option Value :=
  (env.bindings.lookup name).bind env.read

/-- Whether `name` has a binding, readable or not. -/
def contains (env : Env) (name : String) : Bool :=
  (env.bindings.lookup name).isSome

/-- `env` with `name` bound to `value`. -/
def extend (env : Env) (name : String) (value : Value) : Env :=
  .mk ((name, .value value) :: env.bindings) env.anchors

@[simp] theorem bindings_extend (env : Env) (n : String) (v : Value) :
    (env.extend n v).bindings = (n, .value v) :: env.bindings := rfl

@[simp] theorem anchors_extend (env : Env) (n : String) (v : Value) :
    (env.extend n v).anchors = env.anchors := rfl

@[simp]
theorem lookup_empty (name : String) : Env.empty.lookup name = none := rfl

theorem read_extend (env : Env) (n : String) (v : Value) : (env.extend n v).read = env.read := rfl

/-- A binding hides older bindings of its name and no other. -/
@[simp]
theorem lookup_extend (env : Env) (n m : String) (v : Value) :
    (env.extend n v).lookup m = if n = m then some v else env.lookup m := by
  by_cases h : n = m
  · subst h
    simp [lookup, extend, read]
  · simp only [lookup, bindings_extend, read_extend, List.lookup_cons,
      beq_false_of_ne (Ne.symm h), h, if_false]

/-- Binds `name` to each value in turn; a later binding of a name hides an earlier one. -/
def extendAll (env : Env) (bindings : List (String × Value)) : Env :=
  bindings.foldl (fun e b => e.extend b.1 b.2) env

/-- The bindings of `env` whose names it reads as values. A binding of a name it cannot read
stays unreadable wherever the bindings are carried, so it is left behind. -/
def readable (env : Env) : List (String × Binding) :=
  env.bindings.filter fun b => (env.lookup b.1).isSome

/-- `env` with each name of `g`'s definitions, in order, bound to its member, weakly. Where two
definitions share a name the later one wins. -/
def withMembers (env : Env) (g : Group) : Env :=
  .mk ((List.finRange g.defs.length).foldl
      (fun bs i => ((g.defs.get i).1, Binding.member g i) :: bs) env.readable)
    env.anchors

/-- `env` holding `g` as well. -/
def anchored (env : Env) (g : Group) : Env :=
  .mk env.bindings (env.anchors ++ [g])

end Env

/-- The environment the members of the group run in: its environment with each of its names
bound to its member, holding the group. -/
def Group.memberEnv (g : Group) : Env :=
  (g.env.withMembers g).anchored g

/-- The environment in which the body of a `letF` runs: the group of `defs`, with identity `id`,
made in `env`, gives its member environment. -/
def Env.withGroup (env : Env) (id : Nat) (defs : List (String × Lambda)) : Env :=
  (Group.mk id defs env).memberEnv

end CpsMachine
