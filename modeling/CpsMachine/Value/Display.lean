import CpsMachine.Value.Basic
import CpsMachine.Text.Escape

/-!
# Displaying values

The text of a value: integers in decimal, strings quoted with their text escaped, records as
`{a = 1, b = 2}`, variants as `<<tag = payload>>`, vectors as `[1, 2]`, every closure as
`<function>` and an error as `<error: message>`.
-/

namespace CpsMachine

mutual

/-- `out` followed by the text of a value. -/
def Value.displayTo (out : String) : Value → String
  | .int n => out ++ toString n
  | .str s => out ++ "\"" ++ Text.escapeString s ++ "\""
  | .record fields => Value.fieldsDisplayTo (out ++ "\x7b") fields ++ "\x7d"
  | .variant tag payload => payload.displayTo (out ++ "<<" ++ tag ++ " = ") ++ ">>"
  | .vector items => Value.itemsDisplayTo (out ++ "[") items ++ "]"
  | .halt | .cont .. | .function .. | .member .. => out ++ "<function>"
  | .error message => out ++ "<error: " ++ message ++ ">"

/-- `out` followed by fields as `name = value`, separated by a comma and a space. -/
def Value.fieldsDisplayTo (out : String) : List (String × Value) → String
  | [] => out
  | [(name, v)] => v.displayTo (out ++ name ++ " = ")
  | (name, v) :: rest => Value.fieldsDisplayTo (v.displayTo (out ++ name ++ " = ") ++ ", ") rest

/-- `out` followed by items separated by a comma and a space. -/
def Value.itemsDisplayTo (out : String) : List Value → String
  | [] => out
  | [v] => v.displayTo out
  | v :: rest => Value.itemsDisplayTo (v.displayTo out ++ ", ") rest

end

/-- The text of a value. It is written left to right onto one string, so it takes time linear
in its length. -/
def Value.display (v : Value) : String :=
  v.displayTo ""

end CpsMachine
