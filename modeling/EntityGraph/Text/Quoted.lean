import EntityGraph.Text.Printable

/-!
# Quoted text

Messages show text in quotes. The quote is `'`, or `"` when the text holds `'` and no `"`. A
backslash stands before itself and before the quote; line feed, carriage return and tab have
letters; other characters that are not printable are written by their code in two, four or eight
hexadecimal digits.
-/

namespace EntityGraph.Text

/-- The character `'`. -/
def apostrophe : Char := Char.ofNat 39

/-- The character `"`. -/
def doubleQuote : Char := Char.ofNat 34

/-- The character that escapes others. -/
def backslash : Char := Char.ofNat 92

/-- The last `count` hexadecimal digits of `n`. -/
def hexText : Nat → Nat → List Char
  | 0, _ => []
  | count + 1, n =>
    let d := n % 16
    hexText count (n / 16) ++ [if d < 10 then Char.ofNat (48 + d) else Char.ofNat (87 + d)]

/-- The quote for a text. -/
def quoteFor (cs : List Char) : Char :=
  if cs.contains apostrophe && !cs.contains doubleQuote then doubleQuote else apostrophe

/-- How a character is written inside quotes. -/
def escapeChar (quote : Char) (c : Char) : List Char :=
  if c = quote ∨ c = backslash then [backslash, c]
  else if c = '\n' then [backslash, 'n']
  else if c = '\r' then [backslash, 'r']
  else if c = '\t' then [backslash, 't']
  else if isPrintable c then [c]
  else
    let n := c.toNat
    if n < 256 then backslash :: 'x' :: hexText 2 n
    else if n < 65536 then backslash :: 'u' :: hexText 4 n
    else backslash :: 'U' :: hexText 8 n

/-- The text in quotes. -/
def quoted (s : String) : String :=
  let cs := s.toList
  let q := quoteFor cs
  String.ofList (q :: cs.flatMap (escapeChar q) ++ [q])

/-- Texts joined by a separator. -/
def join (separator : String) : List String → String
  | [] => ""
  | [s] => s
  | s :: rest => s ++ separator ++ join separator rest

/-- A list of names in brackets, each quoted. -/
def quotedList (names : List String) : String := "[" ++ join ", " (names.map quoted) ++ "]"

end EntityGraph.Text
