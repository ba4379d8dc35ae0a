import CpsMachine.Value.Basic

/-!
# Equality and order of values

* `Value.equal` is structural equality, except that a closure is equal only to itself: two
  continuations or functions are equal when they are the same closure, two group members when
  they are the same member of the same group, and the halt continuation equals itself.
* `Value.compare?` orders two values of the same kind: integers by size, strings and errors by
  their text, records field by field (name, then value) and vectors item by item, with a proper
  prefix first, and variants by tag and then payload. Closures, and values of different kinds,
  are unordered (`none`), and so is any sequence in which such a pair is reached.
-/

namespace CpsMachine

/-- Lexicographic order of character lists by code point. -/
def compareChars : List Char → List Char → Ordering
  | [], [] => .eq
  | [], _ :: _ => .lt
  | _ :: _, [] => .gt
  | c :: r, d :: s =>
    if c.toNat < d.toNat then .lt
    else if d.toNat < c.toNat then .gt
    else compareChars r s

/-- Texts ordered by code point, which is also the order of their UTF-8 bytes. -/
def compareText (a b : String) : Ordering :=
  compareChars a.toList b.toList

mutual

/-- Structural equality with closures compared by identity. -/
def Value.equal : Value → Value → Bool
  | .int a, .int b => a == b
  | .str a, .str b => a == b
  | .error a, .error b => a == b
  | .record a, .record b => Value.fieldsEqual a b
  | .variant t p, .variant u q => t == u && p.equal q
  | .vector a, .vector b => Value.itemsEqual a b
  | .halt, .halt => true
  | .cont i .., .cont j .. => i == j
  | .function i .., .function j .. => i == j
  | .member g i, .member h j => g.id == h.id && i == j
  | _, _ => false

/-- Same length, and pairwise the same names and equal values. -/
def Value.fieldsEqual : List (String × Value) → List (String × Value) → Bool
  | [], [] => true
  | (n, v) :: r, (m, w) :: s => n == m && v.equal w && Value.fieldsEqual r s
  | _, _ => false

/-- Same length and pairwise equal. -/
def Value.itemsEqual : List Value → List Value → Bool
  | [], [] => true
  | v :: r, w :: s => v.equal w && Value.itemsEqual r s
  | _, _ => false

end

mutual

/-- The order of two values of the same kind, if they are ordered. -/
def Value.compare? : Value → Value → Option Ordering
  | .int a, .int b => some (compare a b)
  | .str a, .str b => some (compareText a b)
  | .error a, .error b => some (compareText a b)
  | .record a, .record b => Value.compareFields a b
  | .variant t p, .variant u q =>
    match compareText t u with
    | .eq => p.compare? q
    | o => some o
  | .vector a, .vector b => Value.compareItems a b
  | _, _ => none

/-- Fields compared pairwise, by name and then value; the first unequal pair decides, and a
proper prefix comes first. -/
def Value.compareFields : List (String × Value) → List (String × Value) → Option Ordering
  | [], [] => some .eq
  | [], _ :: _ => some .lt
  | _ :: _, [] => some .gt
  | (n, v) :: r, (m, w) :: s =>
    match compareText n m with
    | .eq =>
      match v.compare? w with
      | some .eq => Value.compareFields r s
      | o => o
    | o => some o

/-- Items compared pairwise; the first unequal pair decides, and a proper prefix comes first. -/
def Value.compareItems : List Value → List Value → Option Ordering
  | [], [] => some .eq
  | [], _ :: _ => some .lt
  | _ :: _, [] => some .gt
  | v :: r, w :: s =>
    match v.compare? w with
    | some .eq => Value.compareItems r s
    | o => o

end

end CpsMachine
