/-!
# Escaped text

How string text is written between double quotes. The backspace, tab, line feed, form feed and
carriage return, the double quote, the apostrophe and the backslash have a named escape (a
backslash and one letter or the character itself); every other control character is a backslash
and three octal digits; all else stands for itself.

* `escape` writes text in that form.
* `unescape` reads it back and refuses a lone backslash, an unknown escape letter or an octal
  escape with fewer than three digits.
-/

namespace CpsMachine

namespace Text

/-- The control characters: U+0000 to U+001F and U+007F to U+009F. -/
def isControl (c : Char) : Bool :=
  c.toNat < 0x20 || (0x7f ≤ c.toNat && c.toNat ≤ 0x9f)

/-- The letter that follows the backslash in the named escape of `c`, if `c` has one. -/
def escapeLetter? (c : Char) : Option Char :=
  if c = '\x08' then some 'b'
  else if c = '\t' then some 't'
  else if c = '\n' then some 'n'
  else if c = '\x0c' then some 'f'
  else if c = '\r' then some 'r'
  else if c = '\x22' || c = '\x27' || c = '\\' then some c
  else none

/-- The character a named escape stands for, from the letter after the backslash. -/
def unescapeLetter? (e : Char) : Option Char :=
  if e = 'b' then some '\x08'
  else if e = 't' then some '\t'
  else if e = 'n' then some '\n'
  else if e = 'f' then some '\x0c'
  else if e = 'r' then some '\r'
  else if e = '\x22' || e = '\x27' || e = '\\' then some e
  else none

/-- The octal digit for `d < 8`. -/
def octalDigit (d : Nat) : Char :=
  Char.ofNat (48 + d)

/-- The value of an octal digit. -/
def octalValue? (c : Char) : Option Nat :=
  if 48 ≤ c.toNat ∧ c.toNat < 56 then some (c.toNat - 48) else none

/-- Three octal digits for a code below 512, most significant first. -/
def octal3 (n : Nat) : List Char :=
  [octalDigit (n / 64 % 8), octalDigit (n / 8 % 8), octalDigit (n % 8)]

/-- The escaped form of one character. -/
def escapeChar (c : Char) : List Char :=
  match escapeLetter? c with
  | some e => ['\\', e]
  | none => if isControl c then '\\' :: octal3 c.toNat else [c]

/-- Text in escaped form: each character is replaced by its escaped form. -/
def escape (s : List Char) : List Char :=
  s.flatMap escapeChar

/-- Reads escaped text back; `none` if an escape is malformed. -/
def unescape : List Char → Option (List Char)
  | [] => some []
  | c :: r =>
    if c = '\\' then
      match r with
      | [] => none
      | e :: r =>
        match unescapeLetter? e with
        | some d => (unescape r).map (d :: ·)
        | none =>
          match octalValue? e, r with
          | some a, d1 :: d2 :: r =>
            match octalValue? d1, octalValue? d2 with
            | some b, some d => (unescape r).map (Char.ofNat (a * 64 + b * 8 + d) :: ·)
            | _, _ => none
          | _, _ => none
    else (unescape r).map (c :: ·)

/-- `escape` on a string. -/
def escapeString (s : String) : String :=
  String.ofList (escape s.toList)

/-- `unescape` on a string. -/
def unescapeString? (s : String) : Option String :=
  (unescape s.toList).map String.ofList

end Text

end CpsMachine
