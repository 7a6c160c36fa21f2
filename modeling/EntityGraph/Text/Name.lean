import EntityGraph.Text.LetterCase

/-!
# Derived names

Endpoint and shape names are derived from entity and field names: underscores are dropped with the
letter after them capitalised, and the first letter is raised or lowered.
-/

namespace EntityGraph.Text

/-- Is this one of the letters `a` to `z`? -/
def isSmallLetter (c : Char) : Bool := 'a' ≤ c && c ≤ 'z'

/-- Join words at underscores before a small letter, which becomes a capital one. -/
def camelChars : List Char → List Char
  | [] => []
  | [c] => [c]
  | c :: d :: rest =>
    if c = '_' ∧ isSmallLetter d = true then Char.ofNat (d.toNat - 32) :: camelChars rest
    else c :: camelChars (d :: rest)

/-- `line_items` becomes `lineItems`. -/
def camelCase (name : String) : String := String.ofList (camelChars name.toList)

/-- `line_items` and `lineItems` become `LineItems`. -/
def pascalCase (name : String) : String :=
  match camelChars name.toList with
  | [] => ""
  | c :: rest => String.ofList (upperChar c ++ rest)

/-- The name with its first letter lowered; an empty name has none. -/
def lowerFirst? (name : String) : Option String :=
  match name.toList with
  | [] => none
  | c :: rest => some (String.ofList (lowerChar c ++ rest))

end EntityGraph.Text
