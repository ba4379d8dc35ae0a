/-!
# The console

Standard input and output as a program sees them: the input not yet read and the output written
so far. A read takes all of the remaining input, so every later read gets the empty text.
-/

namespace CpsMachine

/-- The console: input still to be read, and output written so far. -/
structure Console where
  input : String := ""
  output : String := ""
  deriving Repr

namespace Console

/-- All of the remaining input, and the console with none left. -/
def read (c : Console) : String × Console :=
  (c.input, { c with input := "" })

/-- The console with `text` written at the end of its output. -/
def write (c : Console) (text : String) : Console :=
  { c with output := c.output ++ text }

end Console

end CpsMachine
