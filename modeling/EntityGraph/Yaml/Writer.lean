import EntityGraph.Decimal.Shortest
import EntityGraph.Text.Quoted
import EntityGraph.Yaml.Scalar

/-!
# Writing YAML

Values are written in block style, entries in their order. A text is written plain when reading it
back gives the same text, in single quotes when it would not be one or holds marks of the format,
and in double quotes, with escapes, when it holds characters outside printable ASCII. Long texts are
folded at spaces past the eightieth column.
-/

namespace EntityGraph.Yaml

/-- The column past which texts are folded. -/
def bestWidth : Nat := 80

/-- Doubles are written as elsewhere, but infinity and the number that is none begin with a
point. -/
def doubleLayout : Decimal.Layout :=
    { Decimal.plainLayout with infinity := ".inf", notANumber := ".nan" }

/-- The text of a double: a mantissa before an exponent always has a point. -/
def doubleText (x : Float) : String :=
  let s := doubleLayout.text x
  let cs := s.toList
  if cs.contains '.' then s
  else String.ofList (cs.flatMap fun c => if c = 'e' then ['.', '0', 'e'] else [c])

/-- Line breaks. -/
def isBreak (c : Char) : Bool :=
  let n := c.toNat
  n = 10 || n = 133 || n = 8232 || n = 8233

/-- Characters around which marks of the format count. -/
def isSpaceAround (c : Char) : Bool :=
  let n := c.toNat
  n = 0 || n = 32 || n = 9 || n = 13 || isBreak c

/-- Printable ASCII and the line feed. -/
def isOrdinary (c : Char) : Bool :=
  let n := c.toNat
  n = 10 || (32 ≤ n && n ≤ 126)

/-- Characters that structure the format wherever they begin a scalar. -/
def leadingMarks : List Char :=
  ['#', ',', '[', ']', '\x7b', '\x7d', '&', '*', '!', '|', '>', Text.apostrophe, Text.doubleQuote,
    '%', '@', Char.ofNat 96]

/-- Does the end of the text or a space follow? -/
def spaceFollows : List Char → Bool
  | [] => true
  | c :: _ => isSpaceAround c

/-- Does a text hold marks of the format past its first character? -/
def holdsMarks : Char → List Char → Bool
  | _, [] => false
  | before, c :: rest =>
    (c = ':' && spaceFollows rest) || (c = '#' && isSpaceAround before) || holdsMarks c rest

/-- Does a text begin or go on with marks of the format? -/
def hasMarks (cs : List Char) : Bool :=
  match cs with
  | [] => false
  | c :: rest =>
    leadingMarks.contains c || ((c = '?' || c = ':' || c = '-') && spaceFollows rest) ||
      holdsMarks c rest || ['-', '-', '-'].isPrefixOf cs || ['.', '.', '.'].isPrefixOf cs

/-- Do two neighbours satisfy a test? -/
def neighbours (test : Char → Char → Bool) : List Char → Bool
  | a :: b :: rest => test a b || neighbours test (b :: rest)
  | _ => false

/-- Does a space or break stand at an end of the text? -/
def hasOuterSpace (cs : List Char) : Bool :=
  let outer (c : Option Char) := c.any fun c => c = ' ' || isBreak c
  outer cs.head? || outer cs.getLast?

/-- How a text is written. -/
inductive Style where
  | plain
  | single
  | double
  deriving DecidableEq

/-- Does a plain scalar read back as the text? -/
def readsAsText (cs : List Char) : Bool :=
  match resolvePlain cs with
  | .text s => !isDate cs && !markWords.contains s
  | _ => false

/-- The style of a text. -/
def styleOf (cs : List Char) : Style :=
  let special := cs.any fun c => !isOrdinary c
  let spaceThenBreak := neighbours (fun a b => a = ' ' && isBreak b) cs
  let breakThenSpace := neighbours (fun a b => isBreak a && b = ' ') cs
  let quotable := !special && !spaceThenBreak && !breakThenSpace
  if readsAsText cs && quotable && !cs.any isBreak && !hasOuterSpace cs && !hasMarks cs then .plain
  else if quotable then .single
  else .double

/-- What is written so far, in reverse, and the column. -/
structure Page where
  written : List Char
  column : Nat

namespace Page

/-- Write characters on the line at hand. -/
def put (p : Page) (cs : List Char) : Page := ⟨cs.reverse ++ p.written, p.column + cs.length⟩

/-- Go to the next line, at an indentation. -/
def newLine (p : Page) (indent : Nat) : Page :=
  ⟨List.replicate indent ' ' ++ '\n' :: p.written, indent⟩

end Page

/-- Runs of spaces, runs of breaks, and runs of other characters. -/
inductive Run where
  | spaces (count : Nat)
  | breaks (count : Nat)
  | word (cs : List Char)

/-- Put a character in front of the runs of a text. -/
def Run.cons (c : Char) : List Run → List Run
  | .spaces n :: rest => if c = ' ' then .spaces (n + 1) :: rest else start c (.spaces n :: rest)
  | .breaks n :: rest => if c = '\n' then .breaks (n + 1) :: rest else start c (.breaks n :: rest)
  | .word cs :: rest =>
    if c = ' ' || c = '\n' then start c (.word cs :: rest) else .word (c :: cs) :: rest
  | [] => start c []
where
  /-- Begin a new run. -/
  start (c : Char) (rest : List Run) : List Run :=
    if c = ' ' then .spaces 1 :: rest
    else if c = '\n' then .breaks 1 :: rest
    else .word [c] :: rest

/-- The runs of a text. -/
def Run.ofText (cs : List Char) : List Run := cs.foldr Run.cons []

/-- Write a plain text. A single space past the width becomes a line break. -/
def writePlain (indent : Nat) : List Run → Page → Page
  | [], p => p
  | .word cs :: rest, p => writePlain indent rest (p.put cs)
  | .breaks n :: rest, p => writePlain indent rest (p.put (List.replicate n '\n'))
  | .spaces n :: rest, p =>
    if n = 1 && p.column > bestWidth then writePlain indent rest (p.newLine indent)
    else writePlain indent rest (p.put (List.replicate n ' '))

/-- Write the inside of a single-quoted text. -/
def writeSingle (indent : Nat) (first : Bool) : List Run → Page → Page
  | [], p => p
  | .word cs :: rest, p =>
    let doubled := cs.flatMap fun c => if c = Text.apostrophe then [c, c] else [c]
    writeSingle indent false rest (p.put doubled)
  | .breaks n :: rest, p =>
    let p := List.foldl (fun q _ => Page.newLine q 0) p (List.range n)
    writeSingle indent false rest (p.newLine indent)
  | .spaces n :: rest, p =>
    if n = 1 && p.column > bestWidth && !first && !rest.isEmpty then
      writeSingle indent false rest (p.newLine indent)
    else writeSingle indent false rest (p.put (List.replicate n ' '))

/-- The letters of escapes. -/
def escapeLetters : List (Nat × Char) :=
  [(0, '0'), (7, 'a'), (8, 'b'), (9, 't'), (10, 'n'), (11, 'v'), (12, 'f'), (13, 'r'), (27, 'e'),
    (34, Text.doubleQuote), (92, Text.backslash), (133, 'N'), (160, '_'), (8232, 'L'), (8233, 'P')]

/-- The last `count` hexadecimal digits of `n`, with capital letters. -/
def capitalHex : Nat → Nat → List Char
  | 0, _ => []
  | count + 1, n =>
    let d := n % 16
    capitalHex count (n / 16) ++ [if d < 10 then Char.ofNat (48 + d) else Char.ofNat (55 + d)]

/-- How a character is written in double quotes. -/
def doubleChar (c : Char) : List Char :=
  let n := c.toNat
  match escapeLetters.lookup n with
  | some letter => [Text.backslash, letter]
  | none =>
    if 32 ≤ n && n ≤ 126 then [c]
    else if n ≤ 255 then Text.backslash :: 'x' :: capitalHex 2 n
    else if n ≤ 65535 then Text.backslash :: 'u' :: capitalHex 4 n
    else Text.backslash :: 'U' :: capitalHex 8 n

/-- Write the inside of a double-quoted text. Past the width the line ends in a backslash, at a
space or after an escape; a space that then begins the next line gets a backslash too. -/
def writeDouble (indent : Nat) (first : Bool) : List Char → Page → Page
  | [], p => p
  | c :: rest, p =>
    let shown := doubleChar c
    let escaped := shown.length != 1
    let inner := !first && !rest.isEmpty && rest.length > 0
    if c = ' ' && inner && p.column > bestWidth then
      let p := (p.put [Text.backslash]).newLine indent
      writeDouble indent false rest (p.put [Text.backslash, ' '])
    else
      let p := p.put shown
      if escaped && inner && rest.length > 0 && p.column > bestWidth then
        let p := (p.put [Text.backslash]).newLine indent
        let p := if rest.head? = some ' ' then p.put [Text.backslash] else p
        writeDouble indent false rest p
      else writeDouble indent false rest p

/-- Write a text after a space; lines that it is folded into begin at `indent`. -/
def writeText (indent : Nat) (s : String) (p : Page) : Page :=
  let cs := s.toList
  match styleOf cs with
  | .plain => writePlain indent (Run.ofText cs) p
  | .single =>
    (writeSingle indent true (Run.ofText cs) (p.put [Text.apostrophe])).put [Text.apostrophe]
  | .double =>
    (writeDouble indent true cs (p.put [Text.doubleQuote])).put [Text.doubleQuote]

/-- Write a value that stands on the line at hand. -/
def writeLeaf (indent : Nat) (v : Value) (p : Page) : Page :=
  match v with
  | .null => p.put "null".toList
  | .bool b => p.put (if b then "true" else "false").toList
  | .int i => p.put (toString i).toList
  | .float x => p.put (doubleText x).toList
  | .text s => writeText indent s p
  | .id o => p.put o.toHex.toList
  | .moment m => p.put (m.text " ").toList
  | .list _ => p.put "[]".toList
  | .object _ => p.put "\x7b\x7d".toList
  | .member e n => writeText indent (e ++ "." ++ n) p

mutual

/-- Write the value of an entry whose key stands at `indent`. -/
def writeEntryValue (indent : Nat) : Value → Page → Page
  | .list (v :: rest), p => writeItems indent (v :: rest) (p.newLine indent)
  | .object (e :: rest), p => writeEntries (indent + 2) (e :: rest) (p.newLine (indent + 2))
  | v, p => writeLeaf (indent + 2) v (p.put [' '])

/-- Write an item whose dash stands at `indent`. -/
def writeItem (indent : Nat) : Value → Page → Page
  | .list (v :: rest), p => writeItems (indent + 2) (v :: rest) (p.put [' '])
  | .object (e :: rest), p => writeEntries (indent + 2) (e :: rest) (p.put [' '])
  | v, p => writeLeaf (indent + 2) v (p.put [' '])

/-- Write items, the first on the line at hand. -/
def writeItems (indent : Nat) : List Value → Page → Page
  | [], p => p
  | v :: rest, p =>
    let p := writeItem indent v (p.put ['-'])
    writeItems indent rest (if rest.isEmpty then p else p.newLine indent)

/-- Write entries, the first on the line at hand. -/
def writeEntries (indent : Nat) : List (String × Value) → Page → Page
  | [], p => p
  | (key, v) :: rest, p =>
    let p := writeEntryValue indent v ((writeText indent key p).put [':'])
    writeEntries indent rest (if rest.isEmpty then p else p.newLine indent)

end

/-- The text of an object. -/
def write (fs : Document) : String :=
  if fs.isEmpty then "\x7b\x7d\n"
  else String.ofList (writeEntries 0 fs ⟨[], 0⟩).written.reverse ++ "\n"

end EntityGraph.Yaml
