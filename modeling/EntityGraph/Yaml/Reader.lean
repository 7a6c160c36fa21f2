import EntityGraph.Text.Quoted
import EntityGraph.Yaml.Scalar

/-!
# Reading YAML

The part of YAML 1.1 that configurations and schema documents are written in: block mappings and
lists by indentation, flow mappings and lists, comments, and plain, single-quoted and double-quoted
scalars, which may go over several lines. Keys are texts. The reader goes through the text line by
line; a flow value takes the lines that it needs. Every step is given fuel, of which there is enough
for any text of the length at hand.
-/

namespace EntityGraph.Yaml

/-- The lines that are still to be read. -/
abbrev Lines := List (List Char)

/-- A place in the text: the rest of the line at hand and the lines after it. -/
structure Source where
  line : List Char
  rest : Lines

/-- A character that separates. -/
def isGap (c : Char) : Bool := c = ' ' || c = '\t'

/-- The number of spaces in front. -/
def indentOf (line : List Char) : Nat := (line.takeWhile (· = ' ')).length

/-- The line without what separates in front. -/
def dropGaps (line : List Char) : List Char := line.dropWhile isGap

/-- The line without what separates at the end. -/
def trimEnd (line : List Char) : List Char := (line.reverse.dropWhile isGap).reverse

/-- Does the line hold nothing but a comment? -/
def isBlankLine (line : List Char) : Bool :=
  match dropGaps line with
  | [] => true
  | c :: _ => c = '#'

/-- Skip lines that hold nothing but comments. -/
def skipBlank (lines : Lines) : Lines := lines.dropWhile isBlankLine

/-- Does the rest of a line begin with a gap or end here? -/
def endsToken : List Char → Bool
  | [] => true
  | c :: _ => isGap c

/-! ## Quoted scalars -/

/-- The line breaks between two parts of a scalar: one break is a space, more are one fewer. -/
def foldedBreaks (emptyLines : Nat) : List Char :=
  if emptyLines = 0 then [' '] else List.replicate emptyLines '\n'

/-- Go to the next line of a scalar that has something in it, counting the empty ones. -/
def nextPart : Lines → Option (Nat × Source)
  | [] => none
  | line :: rest =>
    match dropGaps line with
    | [] => (nextPart rest).map fun (n, s) => (n + 1, s)
    | content => some (0, ⟨content, rest⟩)

/-- Put folded breaks behind what was read, whose end loses its gaps. What was read is held in
reverse, with a mark on characters that were written by escapes. -/
def foldInto (read : List (Char × Bool)) (emptyLines : Nat) : List (Char × Bool) :=
  ((foldedBreaks emptyLines).reverse.map fun c => (c, true)) ++
    read.dropWhile fun e => isGap e.1 && !e.2

/-- The characters that were read. -/
def readChars (read : List (Char × Bool)) : List Char := read.reverse.map Prod.fst

/-- Read a single-quoted scalar after its opening quote. -/
def singleQuoted : Nat → List (Char × Bool) → Source → Option (List Char × Source)
  | 0, _, _ => none
  | fuel + 1, read, s =>
    match s.line with
    | [] =>
      match nextPart s.rest with
      | none => none
      | some (n, t) => singleQuoted fuel (foldInto read n) t
    | c :: tail =>
      if c = Text.apostrophe then
        match tail with
        | d :: more =>
          if d = Text.apostrophe then singleQuoted fuel ((c, false) :: read) ⟨more, s.rest⟩
          else some (readChars read, ⟨tail, s.rest⟩)
        | [] => some (readChars read, ⟨[], s.rest⟩)
      else singleQuoted fuel ((c, false) :: read) ⟨tail, s.rest⟩

/-- Escapes of one character: the code of the letter and the code that it stands for. -/
def escapeCodes : List (Nat × Nat) :=
  [(48, 0), (97, 7), (98, 8), (116, 9), (9, 9), (110, 10), (118, 11), (102, 12), (114, 13),
    (101, 27), (32, 32), (34, 34), (92, 92), (47, 47), (78, 133), (95, 160), (76, 8232), (80, 8233)]

/-- How many hexadecimal digits an escape takes. -/
def codeWidth? (c : Char) : Option Nat :=
  if c = 'x' then some 2 else if c = 'u' then some 4 else if c = 'U' then some 8 else none

/-- Read an escape after its backslash. -/
def escapeSequence? : List Char → Option (Char × List Char)
  | [] => none
  | c :: rest =>
    match codeWidth? c with
    | some width => do
      let n ← inBase? 16 (rest.take width)
      if (rest.take width).length = width then some (Char.ofNat n, rest.drop width) else none
    | none => (escapeCodes.lookup c.toNat).map fun n => (Char.ofNat n, rest)

/-- Read a double-quoted scalar after its opening quote. -/
def doubleQuoted : Nat → List (Char × Bool) → Source → Option (List Char × Source)
  | 0, _, _ => none
  | fuel + 1, read, s =>
    match s.line with
    | [] =>
      match nextPart s.rest with
      | none => none
      | some (n, t) => doubleQuoted fuel (foldInto read n) t
    | c :: tail =>
      if c = Text.doubleQuote then some (readChars read, ⟨tail, s.rest⟩)
      else if c = Text.backslash then
        if tail.isEmpty then
          match nextPart s.rest with
          | none => none
          | some (_, t) => doubleQuoted fuel read t
        else
          match escapeSequence? tail with
          | some (d, more) => doubleQuoted fuel ((d, true) :: read) ⟨more, s.rest⟩
          | none => none
      else doubleQuoted fuel ((c, false) :: read) ⟨tail, s.rest⟩

/-! ## Flow values -/

/-- Characters that structure flow values. -/
def isFlowMark (c : Char) : Bool := c = ',' || c = '[' || c = ']' || c = '\x7b' || c = '\x7d'

/-- Characters that no plain scalar begins with. -/
def isReserved (c : Char) : Bool :=
  isFlowMark c || c = '#' || c = '&' || c = '*' || c = '!' || c = '|' || c = '>' || c =
    '%' || c = '@' || c = Text.apostrophe || c = Text.doubleQuote || c.toNat = 96

/-- Does a plain scalar in a flow value end here? -/
def endsFlowPlain : List Char → Bool
  | [] => false
  | ':' :: rest =>
    match rest with
    | [] => true
    | c :: _ => isGap c || isFlowMark c
  | c :: _ => isFlowMark c

/-- Skip gaps, comments and line breaks. -/
def skipSpace : Nat → Source → Source
  | 0, s => s
  | fuel + 1, s =>
    match dropGaps s.line with
    | [] =>
      match s.rest with
      | [] => ⟨[], []⟩
      | line :: rest => skipSpace fuel ⟨line, rest⟩
    | c :: tail => if c = '#' then skipSpace fuel ⟨[], s.rest⟩ else ⟨c :: tail, s.rest⟩

/-- Read a plain scalar of a flow value. -/
def flowPlain : Nat → List (Char × Bool) → Source → Option (List Char × Source)
  | 0, _, _ => none
  | fuel + 1, read, s =>
    if endsFlowPlain s.line then some (trimEnd (readChars read), s)
    else
      match s.line with
      | [] =>
        match nextPart s.rest with
        | none => some (trimEnd (readChars read), ⟨[], []⟩)
        | some (n, t) =>
          if endsFlowPlain t.line || isBlankLine t.line then some (trimEnd (readChars read), t)
          else flowPlain fuel (foldInto read n) t
      | c :: tail =>
        let afterGap := match read with
          | (d, _) :: _ => isGap d
          | [] => true
        if c = '#' && afterGap then some (trimEnd (readChars read), s)
        else flowPlain fuel ((c, false) :: read) ⟨tail, s.rest⟩

/-- The text of a key. -/
def keyText (v : Value) : Option String :=
  match v with
  | .text s => some s
  | .bool b => some (if b then "True" else "False")
  | .null => some "None"
  | .int i => some (toString i)
  | _ => none

mutual

/-- Read a flow value. -/
def flowValue : Nat → Source → Option (Value × Source)
  | 0, _ => none
  | fuel + 1, s =>
    let s := skipSpace fuel s
    match s.line with
    | [] => none
    | c :: tail =>
      if c = '[' then flowItems fuel [] ⟨tail, s.rest⟩
      else if c = '\x7b' then flowEntries fuel [] ⟨tail, s.rest⟩
      else if c = Text.apostrophe then
        (singleQuoted fuel [] ⟨tail, s.rest⟩).map fun (cs, t) => (.text (String.ofList cs), t)
      else if c = Text.doubleQuote then
        (doubleQuoted fuel [] ⟨tail, s.rest⟩).map fun (cs, t) => (.text (String.ofList cs), t)
      else if isReserved c then none
      else (flowPlain fuel [] s).map fun (cs, t) => (resolvePlain cs, t)

/-- Read what follows a key: a colon with a value, or nothing. -/
def flowAfterKey : Nat → Source → Option (Option Value × Source)
  | 0, _ => none
  | fuel + 1, s =>
    let s := skipSpace fuel s
    match s.line with
    | ':' :: tail =>
      let t := skipSpace fuel ⟨tail, s.rest⟩
      match t.line with
      | c :: _ =>
        if c = ',' || c = ']' || c = '\x7d' then some (some .null, t)
        else (flowValue fuel t).map fun (v, u) => (some v, u)
      | [] => none
    | _ => some (none, s)

/-- Read the items of a flow list after its bracket. An item may be a single entry. -/
def flowItems : Nat → List Value → Source → Option (Value × Source)
  | 0, _, _ => none
  | fuel + 1, read, s =>
    let s := skipSpace fuel s
    match s.line with
    | ']' :: tail => some (.list read.reverse, ⟨tail, s.rest⟩)
    | _ => do
      let (v, s) ← flowValue fuel s
      let (entry, s) ← flowAfterKey fuel s
      let item ← match entry with
        | none => some v
        | some w => (keyText v).map fun k => .object [(k, w)]
      match s.line with
      | ',' :: tail => flowItems fuel (item :: read) ⟨tail, s.rest⟩
      | ']' :: tail => some (.list (item :: read).reverse, ⟨tail, s.rest⟩)
      | _ => none

/-- Read the entries of a flow mapping after its brace. -/
def flowEntries : Nat → Document → Source → Option (Value × Source)
  | 0, _, _ => none
  | fuel + 1, read, s =>
    let s := skipSpace fuel s
    match s.line with
    | '\x7d' :: tail => some (.object read, ⟨tail, s.rest⟩)
    | _ => do
      let (v, s) ← flowValue fuel s
      let (entry, s) ← flowAfterKey fuel s
      let key ← keyText v
      let read := Record.put read key (entry.getD .null)
      match s.line with
      | ',' :: tail => flowEntries fuel read ⟨tail, s.rest⟩
      | '\x7d' :: tail => some (.object read, ⟨tail, s.rest⟩)
      | _ => none

end

/-! ## Block values -/

/-- The rest of the line after a dash that begins an item. -/
def afterDash? : List Char → Option (List Char)
  | '-' :: rest => if endsToken rest then some rest else none
  | _ => none

/-- A plain key: what stands before a colon that ends a token. -/
def plainKey? : List Char → List Char → Option (List Char × List Char)
  | _, [] => none
  | read, ':' :: rest =>
    if endsToken rest then some (trimEnd read.reverse, rest) else plainKey? (':' :: read) rest
  | read, c :: rest =>
    if c = '#' && read.head?.any isGap then none else plainKey? (c :: read) rest

/-- The key that a line begins with, and the rest of the line after its colon. -/
def lineKey? (content : List Char) : Option (String × List Char) :=
  match content with
  | [] => none
  | c :: tail =>
    if c = Text.apostrophe || c = Text.doubleQuote then
      let quoted :=
        if c = Text.apostrophe then singleQuoted (tail.length + 1) [] ⟨tail, []⟩
        else doubleQuoted (tail.length + 1) [] ⟨tail, []⟩
      match quoted with
      | some (cs, s) =>
        match dropGaps s.line with
        | ':' :: rest => if endsToken rest then some (String.ofList cs, rest) else none
        | _ => none
      | none => none
    else if isReserved c then none
    else do
      let (cs, rest) ← plainKey? [] content
      let k ← keyText (resolvePlain cs)
      some (k, rest)

/-- The part of a plain scalar that stands on a line: up to a comment. -/
def plainPart : List Char → List Char → List Char
  | read, [] => trimEnd read.reverse
  | read, c :: rest =>
    if c = '#' && (read.isEmpty || read.head?.any isGap) then trimEnd read.reverse
    else plainPart (c :: read) rest

/-- Read a plain scalar that may go on in lines further to the right than `indent`. -/
def blockPlain (indent : Nat) : Nat → List Char → Lines → List Char × Lines
  | 0, read, lines => (read, lines)
  | fuel + 1, read, lines =>
    match nextPart lines with
    | none => (read, lines)
    | some (n, s) =>
      let depth := indentOf ((lines.drop n).headD [])
      if depth > indent && !isBlankLine s.line && (lineKey? s.line).isNone then
        blockPlain indent fuel (read ++ foldedBreaks n ++ plainPart [] s.line) s.rest
      else (read, lines)

/-- Read a value that begins on the line: a flow value, a quoted scalar or a plain one. -/
def inlineValue (fuel indent : Nat) (content : List Char) (rest : Lines) : Option (Value × Lines) :=
  match content with
  | [] => none
  | c :: _ =>
    if c = '[' || c = '\x7b' || c = Text.apostrophe || c = Text.doubleQuote then do
      let (v, s) ← flowValue fuel ⟨content, rest⟩
      if isBlankLine s.line then some (v, s.rest) else none
    else if isReserved c || (plainKey? [] content).isSome || (afterDash? content).isSome then none
    else
      let (cs, lines) := blockPlain indent fuel (plainPart [] content) rest
      some (resolvePlain cs, lines)

mutual

/-- Read the value that the lines hold at indentation `least` or further to the right; null if there
is none. -/
def blockValue : Nat → Nat → Lines → Option (Value × Lines)
  | 0, _, _ => none
  | fuel + 1, least, lines =>
    match skipBlank lines with
    | [] => some (.null, [])
    | line :: rest =>
      let indent := indentOf line
      let content := line.drop indent
      if indent < least then some (.null, line :: rest)
      else if (afterDash? content).isSome then blockItems fuel indent [] (line :: rest)
      else if (lineKey? content).isSome then blockEntries fuel indent [] (line :: rest)
      else inlineValue fuel (least - 1) content rest

/-- Read the items of a list whose dashes stand at `indent`. -/
def blockItems : Nat → Nat → List Value → Lines → Option (Value × Lines)
  | 0, _, _, _ => none
  | fuel + 1, indent, read, lines =>
    match skipBlank lines with
    | [] => some (.list read.reverse, [])
    | line :: rest =>
      if indentOf line > indent then none
      else
        match (if indentOf line = indent then afterDash? (line.drop indent) else none) with
        | none => some (.list read.reverse, line :: rest)
        | some tail => do
          let (v, lines) ←
            if isBlankLine tail then blockValue fuel (indent + 1) rest
            else blockValue fuel (indent + 1) ((List.replicate (indent + 1) ' ' ++ tail) :: rest)
          blockItems fuel indent (v :: read) lines

/-- Read the entries of a mapping whose keys stand at `indent`. -/
def blockEntries : Nat → Nat → Document → Lines → Option (Value × Lines)
  | 0, _, _, _ => none
  | fuel + 1, indent, read, lines =>
    match skipBlank lines with
    | [] => some (.object read, [])
    | line :: rest =>
      if indentOf line < indent then some (.object read, line :: rest)
      else if indentOf line > indent then none
      else do
        let content := line.drop indent
        if (afterDash? content).isSome then none
        let (key, tail) ← lineKey? content
        let (v, lines) ←
          if isBlankLine tail then entryBelow fuel indent rest
          else inlineValue fuel indent (dropGaps tail) rest
        blockEntries fuel indent (Record.put read key v) lines

/-- Read the value of an entry whose line ends after the key: further to the right, or a list whose
dashes stand under the key. -/
def entryBelow : Nat → Nat → Lines → Option (Value × Lines)
  | 0, _, _ => none
  | fuel + 1, indent, lines =>
    match skipBlank lines with
    | [] => some (.null, [])
    | line :: rest =>
      if indentOf line = indent && (afterDash? (line.drop indent)).isSome then
        blockItems fuel indent [] (line :: rest)
      else blockValue fuel (indent + 1) (line :: rest)

end

/-- Cut a text into lines. -/
def linesOf : List Char → List Char × Lines
  | [] => ([], [])
  | c :: rest =>
    let (first, others) := linesOf rest
    if c = '\n' then ([], first :: others)
    else if c = '\r' then (first, others)
    else (c :: first, others)

/-- The lines before the mark that ends a document, and those after it. -/
def cutAtEnd (lines : Lines) : Lines × Lines :=
  let (body, rest) := lines.span (· != ['.', '.', '.'])
  (body, rest.drop 1)

/-- Read a document. A text with nothing but comments is null. -/
def read? (text : String) : Option Value :=
  let (first, others) := linesOf text.toList
  let (body, after) := cutAtEnd (first :: others)
  let lines := skipBlank body
  let lines := match lines with
    | ['-', '-', '-'] :: rest => rest
    | _ => lines
  let fuel := 4 * text.length + 16
  match blockValue fuel 0 lines with
  | some (v, rest) => if (skipBlank (rest ++ after)).isEmpty then some v else none
  | none => none

end EntityGraph.Yaml
