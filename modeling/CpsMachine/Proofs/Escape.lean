import Mathlib.Tactic.SplitIfs
import CpsMachine.Value.Display

/-!
# Reading escaped text back

Escaped text is a sequence of tokens (`Text.Token`), each standing for one character: a character
other than the backslash stands for itself, a backslash and a letter for a named escape
(`Text.NamedEscape`), and a backslash and three octal digits for the character with that code. A
code of three octal digits is below 512, far below the surrogates, so it is always a character.

* `unescapeString?_eq_some_iff`: reading escaped text succeeds exactly on the texts of token
  sequences, and gives the characters the tokens stand for. So a trailing backslash, an unknown
  escape letter or an octal escape with fewer than three digits makes it fail.
* `escape_round_trip`: escaping writes one token for each character (`escape_tokens`), so reading
  gives the text back. None of these tokens is a control character or a bare double quote, so the
  escaped form holds neither, and a reader of quoted text (`quoted?`) finds the display of a string
  value ending exactly at its closing quote.

Both directions of the grammar rest on one fact per token: reading the token's text, followed by
anything, reads the token's character and goes on with the rest (`unescape_text_append`). The
other direction follows the reader's own recursion (`unescape.induct`), one token per round.
-/

namespace CpsMachine

namespace Text

/-! ### The grammar -/

/-- The escapes written as a backslash and one character. -/
inductive NamedEscape where
  | backspace | tab | lineFeed | formFeed | carriageReturn | doubleQuote | apostrophe | backslash
  deriving DecidableEq

/-- The character written after the backslash. -/
def NamedEscape.letter : NamedEscape → Char
  | .backspace => 'b'
  | .tab => 't'
  | .lineFeed => 'n'
  | .formFeed => 'f'
  | .carriageReturn => 'r'
  | .doubleQuote => '\x22'
  | .apostrophe => '\x27'
  | .backslash => '\\'

/-- The character the escape stands for. -/
def NamedEscape.char : NamedEscape → Char
  | .backspace => '\x08'
  | .tab => '\t'
  | .lineFeed => '\n'
  | .formFeed => '\x0c'
  | .carriageReturn => '\r'
  | .doubleQuote => '\x22'
  | .apostrophe => '\x27'
  | .backslash => '\\'

theorem octal_code_valid (a b d : Fin 8) : (64 * a.val + 8 * b.val + d.val).isValidChar :=
  Or.inl (by omega)

/-- One token of escaped text. -/
inductive Token where
  /-- A character other than the backslash, standing for itself. -/
  | plain (c : Char) (h : c ≠ '\\')
  | named (e : NamedEscape)
  /-- A backslash and three octal digits, the most significant first. -/
  | octal (a b d : Fin 8)

/-- How a token is written. -/
def Token.text : Token → List Char
  | .plain c _ => [c]
  | .named e => ['\\', e.letter]
  | .octal a b d => ['\\', octalDigit a, octalDigit b, octalDigit d]

/-- The character a token stands for. -/
def Token.char : Token → Char
  | .plain c _ => c
  | .named e => e.char
  | .octal a b d => Char.ofNatAux (64 * a.val + 8 * b.val + d.val) (octal_code_valid a b d)

theorem Token.toNat_char_octal (a b d : Fin 8) :
    (Token.octal a b d).char.toNat = 64 * a.val + 8 * b.val + d.val := rfl

/-! ### Characters of the tables -/

theorem unescapeLetter?_letter (e : NamedEscape) : unescapeLetter? e.letter = some e.char := by
  cases e <;> rfl

theorem unescapeLetter?_eq_some {l c : Char} (h : unescapeLetter? l = some c) :
    ∃ e : NamedEscape, e.letter = l ∧ e.char = c := by
  unfold unescapeLetter? at h
  split_ifs at h with hb ht hn hf hr hother <;> cases h
  · exact ⟨.backspace, hb.symm, rfl⟩
  · exact ⟨.tab, ht.symm, rfl⟩
  · exact ⟨.lineFeed, hn.symm, rfl⟩
  · exact ⟨.formFeed, hf.symm, rfl⟩
  · exact ⟨.carriageReturn, hr.symm, rfl⟩
  · simp only [Bool.or_eq_true, decide_eq_true_eq] at hother
    rcases hother with (rfl | rfl) | rfl
    · exact ⟨.doubleQuote, rfl, rfl⟩
    · exact ⟨.apostrophe, rfl, rfl⟩
    · exact ⟨.backslash, rfl, rfl⟩

theorem escapeLetter?_eq_some {c l : Char} (h : escapeLetter? c = some l) :
    ∃ e : NamedEscape, e.letter = l ∧ e.char = c := by
  unfold escapeLetter? at h
  split_ifs at h with hb ht hn hf hr hother <;> cases h
  · exact ⟨.backspace, rfl, hb.symm⟩
  · exact ⟨.tab, rfl, ht.symm⟩
  · exact ⟨.lineFeed, rfl, hn.symm⟩
  · exact ⟨.formFeed, rfl, hf.symm⟩
  · exact ⟨.carriageReturn, rfl, hr.symm⟩
  · simp only [Bool.or_eq_true, decide_eq_true_eq] at hother
    rcases hother with (rfl | rfl) | rfl
    · exact ⟨.doubleQuote, rfl, rfl⟩
    · exact ⟨.apostrophe, rfl, rfl⟩
    · exact ⟨.backslash, rfl, rfl⟩

theorem octalValue?_digit (a : Fin 8) : octalValue? (octalDigit a) = some a.val := by
  revert a
  decide

theorem unescapeLetter?_digit (a : Fin 8) : unescapeLetter? (octalDigit a) = none := by
  revert a
  decide

theorem octalValue?_eq_some {c : Char} {a : Nat} (h : octalValue? c = some a) :
    ∃ h8 : a < 8, c = octalDigit (⟨a, h8⟩ : Fin 8) := by
  unfold octalValue? at h
  split_ifs at h with hc
  cases h
  refine ⟨by omega, ?_⟩
  rw [octalDigit, show 48 + (c.toNat - 48) = c.toNat by omega, Char.ofNat_toNat]

theorem ofNat_octal (a b d : Fin 8) :
    Char.ofNat (a.val * 64 + b.val * 8 + d.val) = (Token.octal a b d).char := by
  have hcode : a.val * 64 + b.val * 8 + d.val = 64 * a.val + 8 * b.val + d.val := by omega
  rw [hcode, Char.ofNat, dif_pos (octal_code_valid a b d)]
  rfl

/-! ### Reading tokens -/

theorem unescape_plain {c : Char} (hc : c ≠ '\\') (r : List Char) :
    unescape (c :: r) = (unescape r).map (c :: ·) := by
  rw [unescape.eq_def]
  simp [hc]

theorem unescape_named {l c : Char} (hl : unescapeLetter? l = some c) (r : List Char) :
    unescape ('\\' :: l :: r) = (unescape r).map (c :: ·) := by
  rw [unescape.eq_def]
  simp [hl]

theorem unescape_octal {l d1 d2 : Char} {a b d : Nat} (hl : unescapeLetter? l = none)
    (ha : octalValue? l = some a) (hb : octalValue? d1 = some b) (hd : octalValue? d2 = some d)
    (r : List Char) :
    unescape ('\\' :: l :: d1 :: d2 :: r) =
      (unescape r).map (Char.ofNat (a * 64 + b * 8 + d) :: ·) := by
  rw [unescape.eq_def]
  simp [hl, ha, hb, hd]

theorem unescape_text_append (t : Token) (r : List Char) :
    unescape (t.text ++ r) = (unescape r).map (t.char :: ·) := by
  cases t with
  | plain c hc => exact unescape_plain hc r
  | named e => exact unescape_named (unescapeLetter?_letter e) r
  | octal a b d =>
    simp only [Token.text, List.cons_append, List.nil_append]
    rw [unescape_octal (unescapeLetter?_digit a) (octalValue?_digit a) (octalValue?_digit b)
      (octalValue?_digit d), ofNat_octal]

theorem unescape_flatMap_append (ts : List Token) (r : List Char) :
    unescape (ts.flatMap Token.text ++ r) = (unescape r).map (ts.map Token.char ++ ·) := by
  induction ts with
  | nil => simp
  | cons t ts ih =>
    rw [List.flatMap_cons, List.append_assoc, unescape_text_append, ih, Option.map_map]
    rfl

/-- The text of a token sequence reads as the tokens' characters. -/
theorem unescape_flatMap (ts : List Token) :
    unescape (ts.flatMap Token.text) = some (ts.map Token.char) := by
  simpa [unescape.eq_1] using unescape_flatMap_append ts []

theorem tokens_of_unescape {s t : List Char} (h : unescape s = some t) :
    ∃ ts : List Token, s = ts.flatMap Token.text ∧ t = ts.map Token.char := by
  fun_induction unescape s generalizing t with
  | case1 => exact ⟨[], rfl, (Option.some.inj h).symm⟩
  -- a trailing backslash: the reader fails
  | case2 => cases h
  | case3 l r c hc ih =>
    obtain ⟨u, hu, rfl⟩ := Option.map_eq_some_iff.1 h
    obtain ⟨ts, rfl, rfl⟩ := ih hu
    obtain ⟨e, rfl, rfl⟩ := unescapeLetter?_eq_some hc
    exact ⟨.named e :: ts, rfl, rfl⟩
  | case4 l hl a d1 d2 r ha b d hd hb ih =>
    obtain ⟨u, hu, rfl⟩ := Option.map_eq_some_iff.1 h
    obtain ⟨ts, rfl, rfl⟩ := ih hu
    obtain ⟨ha8, rfl⟩ := octalValue?_eq_some ha
    obtain ⟨hb8, rfl⟩ := octalValue?_eq_some hb
    obtain ⟨hd8, rfl⟩ := octalValue?_eq_some hd
    refine ⟨.octal ⟨a, ha8⟩ ⟨b, hb8⟩ ⟨d, hd8⟩ :: ts, rfl, ?_⟩
    rw [List.map_cons, ← ofNat_octal]
  -- a non-digit among the three octal digits, or an unknown escape letter: the reader fails
  | case5 => cases h
  | case6 => cases h
  | case7 c r hc ih =>
    obtain ⟨u, hu, rfl⟩ := Option.map_eq_some_iff.1 h
    obtain ⟨ts, rfl, rfl⟩ := ih hu
    exact ⟨.plain c hc :: ts, rfl, rfl⟩

theorem unescape_eq_some_iff {s t : List Char} :
    unescape s = some t ↔ ∃ ts : List Token, s = ts.flatMap Token.text ∧ t = ts.map Token.char := by
  constructor
  · exact tokens_of_unescape
  · rintro ⟨ts, rfl, rfl⟩
    exact unescape_flatMap ts

/-- Reading escaped text succeeds exactly on the texts of token sequences, and reads each token
as the character it stands for. -/
theorem unescapeString?_eq_some_iff (s t : String) :
    unescapeString? s = some t ↔
      ∃ ts : List Token, s.toList = ts.flatMap Token.text ∧ t.toList = ts.map Token.char := by
  rw [unescapeString?, Option.map_eq_some_iff]
  constructor
  · rintro ⟨u, hu, rfl⟩
    simpa using unescape_eq_some_iff.1 hu
  · rintro ⟨ts, hs, ht⟩
    exact ⟨t.toList, unescape_eq_some_iff.2 ⟨ts, hs, ht⟩, String.ofList_toList⟩

/-- Two octal digits are no token. -/
example : unescape ['\\', '0', '1'] = none := rfl

/-! ### What escaping writes -/

/-- A token that may stand between double quotes: an escape, or a plain character that is neither
a control character nor a double quote. -/
def Token.Quotable : Token → Prop
  | .plain c _ => c ≠ '\x22' ∧ isControl c = false
  | _ => True

theorem isControl_digit (a : Fin 8) : isControl (octalDigit a) = false := by
  revert a
  decide

theorem escapeChar_token (c : Char) :
    ∃ t : Token, escapeChar c = t.text ∧ t.char = c ∧ t.Quotable := by
  unfold escapeChar
  cases hl : escapeLetter? c with
  | some l =>
    obtain ⟨e, rfl, rfl⟩ := escapeLetter?_eq_some hl
    exact ⟨.named e, rfl, rfl, trivial⟩
  | none =>
    by_cases hc : isControl c
    · -- a control character without a named escape has a code below 160, three octal digits
      have hlt : c.toNat < 160 := by
        simp only [isControl, Bool.or_eq_true, decide_eq_true_eq, Bool.and_eq_true] at hc
        omega
      refine ⟨.octal ⟨c.toNat / 64 % 8, by omega⟩ ⟨c.toNat / 8 % 8, by omega⟩
        ⟨c.toNat % 8, by omega⟩, by simp [hc, octal3, Token.text], ?_, trivial⟩
      rw [← Char.toNat_inj, Token.toNat_char_octal]
      show 64 * (c.toNat / 64 % 8) + 8 * (c.toNat / 8 % 8) + c.toNat % 8 = c.toNat
      omega
    · -- the backslash and the double quote have named escapes
      have hbs : c ≠ '\\' := by
        rintro rfl
        simp [escapeLetter?] at hl
      have hq : c ≠ '\x22' := by
        rintro rfl
        simp [escapeLetter?] at hl
      exact ⟨.plain c hbs, by simp [hc, Token.text], rfl, hq, by simpa using hc⟩

theorem escape_tokens (s : List Char) :
    ∃ ts : List Token, escape s = ts.flatMap Token.text ∧ ts.map Token.char = s ∧
      ∀ t ∈ ts, t.Quotable := by
  induction s with
  | nil => exact ⟨[], rfl, rfl, by simp⟩
  | cons c s ih =>
    obtain ⟨ts, hts, hs, hq⟩ := ih
    obtain ⟨t, ht, hc, htq⟩ := escapeChar_token c
    refine ⟨t :: ts, ?_, by rw [List.map_cons, hc, hs], ?_⟩
    · rw [List.flatMap_cons, ← ht, ← hts]
      rfl
    · simpa using ⟨htq, hq⟩

theorem unescape_escape (s : List Char) : unescape (escape s) = some s := by
  obtain ⟨ts, hts, hs, -⟩ := escape_tokens s
  rw [hts, unescape_flatMap, hs]

theorem Token.not_control {t : Token} (ht : t.Quotable) : ∀ x ∈ t.text, isControl x = false := by
  have hbs : isControl '\\' = false := rfl
  cases t with
  | plain c _ => simpa [Token.text] using ht.2
  | named e =>
    have hl : isControl e.letter = false := by cases e <;> rfl
    simp [Token.text, hbs, hl]
  | octal a b d => simp [Token.text, hbs, isControl_digit]

/-! ### Quoted text -/

/-- The text before the first double quote that is not part of an escape, and the text after that
quote; a backslash and the character after it are read together. `none` if there is no such
quote. -/
def untilQuote? : List Char → Option (List Char × List Char)
  | [] => none
  | '\\' :: e :: r => (untilQuote? r).map fun p => ('\\' :: e :: p.1, p.2)
  | c :: r => if c = '\x22' then some ([], r) else (untilQuote? r).map fun p => (c :: p.1, p.2)

/-- A quoted text at the head of the input: its body, up to the closing quote, and what follows. -/
def quoted? : List Char → Option (List Char × List Char)
  | c :: r => if c = '\x22' then untilQuote? r else none
  | [] => none

theorem octalDigit_ne_backslash (a : Fin 8) : octalDigit a ≠ '\\' := by
  revert a
  decide

theorem octalDigit_ne_quote (a : Fin 8) : octalDigit a ≠ '\x22' := by
  revert a
  decide

theorem untilQuote?_text_append {t : Token} (ht : t.Quotable) (r : List Char) :
    untilQuote? (t.text ++ r) = (untilQuote? r).map fun p => (t.text ++ p.1, p.2) := by
  cases t with
  | plain c hc => simp [Token.text, untilQuote?, hc, ht.1]
  | named e => simp [Token.text, untilQuote?]
  | octal a b d =>
    simp [Token.text, untilQuote?, octalDigit_ne_backslash, octalDigit_ne_quote, Option.map_map,
      Function.comp_def]

theorem untilQuote?_flatMap {ts : List Token} (hts : ∀ t ∈ ts, t.Quotable) (rest : List Char) :
    untilQuote? (ts.flatMap Token.text ++ '\x22' :: rest) = some (ts.flatMap Token.text, rest) := by
  induction ts with
  | nil => simp [untilQuote?]
  | cons t ts ih =>
    rw [List.forall_mem_cons] at hts
    rw [List.flatMap_cons, List.append_assoc, untilQuote?_text_append hts.1, ih hts.2]
    rfl

theorem display_str (s : String) :
    (Value.str s).display.toList = '\x22' :: ((escapeString s).toList ++ ['\x22']) := by
  simp [Value.display, Value.displayTo]

/-- Escaping round-trips on every string. The escaped form holds no control character and no
double quote outside an escape, so the display of a string value, read as quoted text, ends
exactly at its closing quote whatever follows it. -/
theorem escape_round_trip (s : String) :
    unescapeString? (escapeString s) = some s ∧
      (∀ c ∈ (escapeString s).toList, isControl c = false) ∧
      ∀ rest : List Char,
        quoted? ((Value.str s).display.toList ++ rest) = some ((escapeString s).toList, rest) := by
  obtain ⟨ts, hts, hs, hq⟩ := escape_tokens s.toList
  have hbody : (escapeString s).toList = ts.flatMap Token.text := by
    rw [escapeString, String.toList_ofList, hts]
  refine ⟨?_, ?_, fun rest => ?_⟩
  · simp [unescapeString?, escapeString, unescape_escape]
  · intro c hc
    rw [hbody, List.mem_flatMap] at hc
    obtain ⟨t, ht, hct⟩ := hc
    exact Token.not_control (hq t ht) c hct
  · rw [display_str, List.cons_append, List.append_assoc, List.singleton_append, quoted?,
      if_pos rfl, hbody]
    exact untilQuote?_flatMap hq rest

end Text

end CpsMachine
