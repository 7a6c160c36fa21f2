import EntityGraph.Text.Quoted

/-!
# Text patterns

A substring search is stored as a pattern: the text with a backslash before every character that has
a meaning in patterns, between two wildcards. A pattern is read into pieces, one after the other,
and a text matches when a part of it, at any place, is what the pieces describe.

The signs read are those of such patterns, the backslash, the dot and the star; the others stand for
themselves.
-/

namespace EntityGraph.Text

/-- The codes of the characters that have a meaning in patterns: tab, line feed, vertical tab, form
feed, carriage return, space and `# $ & ( ) * + - . ? [ \ ] ^ { | } ~`. -/
def patternCodes : List Nat :=
  [9, 10, 11, 12, 13, 32, 35, 36, 38, 40, 41, 42, 43, 45, 46, 63, 91, 92, 93, 94, 123, 124, 125,
    126]

/-- Does the character have a meaning in patterns? -/
def isPatternChar (c : Char) : Bool := patternCodes.contains c.toNat

/-- Put a backslash before the characters that have a meaning in patterns. -/
def escapePattern (cs : List Char) : List Char :=
  cs.flatMap fun c => if isPatternChar c then [backslash, c] else [c]

/-- The wildcard that matches any characters of a line. -/
def wildcard : List Char := ['.', '*']

/-- The pattern that finds a text anywhere. -/
def containsPattern (s : String) : String :=
  String.ofList (wildcard ++ escapePattern s.toList ++ wildcard)

/-- What one character of a text may be. -/
inductive PatternSign where
  /-- this character -/
  | exactly (c : Char)
  /-- any character but a line feed -/
  | inLine
  deriving DecidableEq, Repr

/-- Is the character what the sign stands for? -/
def PatternSign.accepts : PatternSign → Char → Bool
  | exactly d, c => c == d
  | inLine, c => c != '\n'

/-- A piece of a pattern: a sign for one character, or for any number of them. -/
inductive PatternPiece where
  | one (s : PatternSign)
  | many (s : PatternSign)
  deriving DecidableEq, Repr

/-- A pattern while it is read: its pieces so far, the last one first, and whether a backslash was
read that the next character follows. -/
structure PatternReading where
  pieces : List PatternPiece
  escaped : Bool

namespace PatternReading

/-- A star repeats the sign before it. -/
def repeatLast : List PatternPiece → List PatternPiece
  | .one s :: before => .many s :: before
  | pieces => pieces

/-- Read one character of a pattern. -/
def next (r : PatternReading) (c : Char) : PatternReading :=
  if r.escaped then ⟨.one (.exactly c) :: r.pieces, false⟩
  else if c = backslash then ⟨r.pieces, true⟩
  else if c = '.' then ⟨.one .inLine :: r.pieces, false⟩
  else if c = '*' then ⟨repeatLast r.pieces, false⟩
  else ⟨.one (.exactly c) :: r.pieces, false⟩

end PatternReading

/-- The pieces of a pattern. -/
def readPattern (pattern : List Char) : List PatternPiece :=
  (pattern.foldl PatternReading.next ⟨[], false⟩).pieces.reverse

/-- Does the rest of a text pass a test, after any number of characters that a sign accepts? -/
def afterMany (s : PatternSign) (test : List Char → Bool) : List Char → Bool
  | [] => test []
  | c :: rest => test (c :: rest) || (s.accepts c && afterMany s test rest)

/-- Does a text start with what the pieces describe? -/
def startsWith : List PatternPiece → List Char → Bool
  | [], _ => true
  | .one _ :: _, [] => false
  | .one s :: pieces, c :: rest => s.accepts c && startsWith pieces rest
  | .many s :: pieces, cs => afterMany s (startsWith pieces) cs

/-- Is what the pieces describe found anywhere in a text? -/
def found (pieces : List PatternPiece) : List Char → Bool
  | [] => startsWith pieces []
  | c :: rest => startsWith pieces (c :: rest) || found pieces rest

/-- Does a text match a pattern? -/
def matchesPattern (pattern s : String) : Bool := found (readPattern pattern.toList) s.toList

/-- Does a list of characters occur in another one in sequence? -/
def occursIn (needle : List Char) : List Char → Bool
  | [] => needle.isEmpty
  | c :: rest => needle.isPrefixOf (c :: rest) || occursIn needle rest

end EntityGraph.Text
