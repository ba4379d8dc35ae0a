import CpsMachine.Syntax.Term

/-!
# Describing a term node

A fault names the node at which it arose by a one-line description: the keyword of the node and
the names it mentions, never its sub-terms. A `letV` also shows a short form of what it binds.
-/

namespace CpsMachine

namespace ContRef

/-- The halt continuation is written `halt`, a named one by its name. -/
def describe : ContRef → String
  | .halt => "halt"
  | .named name => name

end ContRef

namespace ValueExpr

/-- Literals of integers show their value; other expressions only their kind. A primitive shows
its name and operand names. -/
def describe : ValueExpr → String
  | .int n => toString n
  | .str _ => "string"
  | .record _ => "record"
  | .variant tag _ => "<<" ++ tag ++ ">>"
  | .vector _ => "vector"
  | .function _ => "fun"
  | .prim op [] => "prim " ++ op.name
  | .prim op args => "prim " ++ op.name ++ " " ++ " ".intercalate args

end ValueExpr

namespace Term

/-- The node's keyword followed by the names it binds or uses. -/
def describe : Term → String
  | .halt arg => "halt " ++ arg
  | .letV name value _ => "letV " ++ name ++ " = " ++ value.describe
  | .letC name param _ _ => "letC " ++ name ++ " " ++ param
  | .letF defs _ => "letF " ++ " ".intercalate (defs.map Prod.fst)
  | .appC cont arg => "appC " ++ cont.describe ++ " " ++ arg
  | .appF func cont arg => "appF " ++ func ++ " " ++ cont.describe ++ " " ++ arg
  | .caseV scrutinee _ => "casV " ++ scrutinee

end Term

end CpsMachine
