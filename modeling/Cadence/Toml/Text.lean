import Cadence.Number.Digits

/-!
# TOML characters and texts

Blanks, comments and line ends, and the four spellings of a text: in double quotes with escapes or
in single quotes without, on one line or, between three quotes, on several.
-/

namespace Cadence.Toml

/-- A blank within a line. -/
def isBlank (c : Char) : Bool := c = ' ' || c = '\t'

/-- A character that can stand in a text or a comment: every one but the control characters. The
tabulator is allowed. -/
def isPrintable (c : Char) : Bool := c = '\t' || (32 ≤ c.toNat && c.toNat ≠ 127)

/-- Skips blanks. -/
def skipBlanks (cs : List Char) : List Char := cs.dropWhile isBlank

/-- Skips blanks, comments and line ends. -/
def skipGap (commenting : Bool) : List Char → List Char
  | [] => []
  | '\r' :: '\n' :: rest => skipGap false rest
  | c :: rest =>
    if c = '\n' then skipGap false rest
    else if commenting && isPrintable c then skipGap true rest
    else if !commenting && isBlank c then skipGap false rest
    else if !commenting && c = '#' then skipGap true rest
    else c :: rest

/-- What follows the line end at the head. The end of the document ends a line too. -/
def lineEnd? : List Char → Option (List Char)
  | [] => some []
  | '\n' :: rest => some rest
  | '\r' :: '\n' :: rest => some rest
  | _ => none

/-- What follows the line, if nothing is left of it but blanks and a comment. -/
def lineRest? (cs : List Char) : Option (List Char) :=
  match skipBlanks cs with
  | '#' :: rest => lineEnd? (rest.dropWhile isPrintable)
  | rest => lineEnd? rest

/-- The character of a given number. Halves of surrogate pairs are none. -/
def scalarChar? (n : Nat) : Option Char := if h : n.isValidChar then some (Char.ofNatAux n h) else none

/-- The character named by so many hexadecimal digits at the head, with what follows them. -/
def hexChar? (count : Nat) (cs : List Char) : Option (Char × List Char) := do
  let digits := cs.take count
  if digits.length < count then none
  else
    let n ← Number.radixDigitsValue? 16 digits
    pure (← scalarChar? n, cs.drop count)

/-- The character that one escape names, with what follows it. -/
def escape? : List Char → Option (Char × List Char)
  | '"' :: rest => some ('"', rest)
  | '\\' :: rest => some ('\\', rest)
  | 'b' :: rest => some (Char.ofNat 8, rest)
  | 't' :: rest => some ('\t', rest)
  | 'n' :: rest => some ('\n', rest)
  | 'f' :: rest => some (Char.ofNat 12, rest)
  | 'r' :: rest => some ('\r', rest)
  | 'u' :: rest => hexChar? 4 rest
  | 'U' :: rest => hexChar? 8 rest
  | _ => none

/-- A text in double quotes on one line, from after the opening quote, with what follows it. The
fuel bounds the number of characters. -/
def quotedBody? (fuel : Nat) (cs : List Char) : Option (List Char × List Char) :=
  match fuel, cs with
  | 0, _ | _, [] => none
  | fuel + 1, c :: rest =>
    if c = '"' then some ([], rest)
    else if c = '\\' then do
      let (named, rest) ← escape? rest
      let (more, rest) ← quotedBody? fuel rest
      pure (named :: more, rest)
    else if isPrintable c then do
      let (more, rest) ← quotedBody? fuel rest
      pure (c :: more, rest)
    else none

/-- A text in single quotes on one line, from after the opening quote, with what follows it. -/
def literalBody? (cs : List Char) : Option (List Char × List Char) :=
  let stands (c : Char) : Bool := isPrintable c && c ≠ '\''
  match cs.dropWhile stands with
  | '\'' :: rest => some (cs.takeWhile stands, rest)
  | _ => none

/-- Skips blanks and line ends. -/
def skipLines : List Char → List Char
  | [] => []
  | '\r' :: '\n' :: rest => skipLines rest
  | c :: rest => if c = '\n' || isBlank c then skipLines rest else c :: rest

/-- What follows a line break that is escaped, the blanks and line breaks after it included; absent
if there is none. -/
def escapedBreak? (cs : List Char) : Option (List Char) :=
  match skipBlanks cs with
  | '\n' :: rest => some (skipLines rest)
  | '\r' :: '\n' :: rest => some (skipLines rest)
  | _ => none

/-- A text on several lines, from after the opening quotes, with what follows it. One or two quotes
may stand in it anywhere, also right before the three that close it. The fuel bounds the number of
characters. -/
def longBody? (quote : Char) (escapes : Bool) (fuel : Nat) (cs : List Char) :
    Option (List Char × List Char) :=
  match fuel with
  | 0 => none
  | fuel + 1 =>
    let quotes := cs.takeWhile (· = quote)
    if quotes.length ≥ 3 then
      if quotes.length ≤ 5 then some (quotes.drop 3, cs.drop quotes.length) else none
    else match cs with
      | [] => none
      | '\r' :: '\n' :: rest => do
        let (more, rest) ← longBody? quote escapes fuel rest
        pure ('\n' :: more, rest)
      | c :: rest =>
        if escapes && c = '\\' then
          match escapedBreak? rest with
          | some rest => longBody? quote escapes fuel rest
          | none => do
            let (named, rest) ← escape? rest
            let (more, rest) ← longBody? quote escapes fuel rest
            pure (named :: more, rest)
        else if c = '\n' || isPrintable c then do
          let (more, rest) ← longBody? quote escapes fuel rest
          pure (c :: more, rest)
        else none

/-- Skips the line break right after the quotes that open a text on several lines. -/
def skipFirstBreak : List Char → List Char
  | '\n' :: rest => rest
  | '\r' :: '\n' :: rest => rest
  | rest => rest

/-- The text on one line at the head, with what follows it. -/
def shortText? : List Char → Option (List Char × List Char)
  | '"' :: rest => quotedBody? (rest.length + 1) rest
  | '\'' :: rest => literalBody? rest
  | _ => none

/-- The text at the head, with what follows it. -/
def text? : List Char → Option (List Char × List Char)
  | '"' :: '"' :: '"' :: rest => longBody? '"' true (rest.length + 1) (skipFirstBreak rest)
  | '\'' :: '\'' :: '\'' :: rest => longBody? '\'' false (rest.length + 1) (skipFirstBreak rest)
  | cs => shortText? cs

end Cadence.Toml
