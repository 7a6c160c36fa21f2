import EntityGraph.Fault
import EntityGraph.Text.Split

/-!
# Paths

A dotted path addresses values inside a document. Reading goes through lists, so a path may address
several values; writing goes through objects only and makes those that are missing.
-/

namespace EntityGraph

/-- The value of a field, for a value that is an object with that field. -/
def fieldOf? (name : String) : Value → Option Value
  | .object fs => Record.get? fs name
  | _ => none

/-- The values that one segment leads to; a list leads on from each of its items. -/
def descend (segment : String) : Value → List Value
  | .list items => items.filterMap (fieldOf? segment)
  | v => (fieldOf? segment v).toList

/-- The values that a list of segments leads to. -/
def resolveSegments : List String → List Value → List Value
  | [], values => values
  | s :: rest, values => resolveSegments rest (values.flatMap (descend s))

/-- All values that a path addresses in a document. -/
def resolve (document : Document) (path : String) : List Value :=
  resolveSegments (Text.segments path) [.object document]

/-- The values with the items of lists in their place, one level deep. -/
def flatten (values : List Value) : List Value :=
  values.flatMap fun
    | .list items => items
    | v => [v]

/-- Write a value at the end of a list of segments. A value on the way that is no object refuses
it. -/
def setSegments : List String → Value → Document → Outcome Document
  | [], _, fs => pure fs
  | [leaf], v, fs => pure (Record.put fs leaf v)
  | s :: rest, v, fs =>
    match Record.get? fs s with
    | none => do
      let inner ← setSegments rest v []
      pure (Record.put fs s (.object inner))
    | some (.object inner) => do
      let inner ← setSegments rest v inner
      pure (Record.put fs s (.object inner))
    | some _ => throw .illTyped

/-- Write a value at a path. -/
def setPath (document : Document) (path : String) (v : Value) : Outcome Document :=
  setSegments (Text.segments path) v document

/-- Remove what a list of segments leads to through objects. -/
def unsetSegments : List String → Document → Document
  | [], fs => fs
  | [leaf], fs => Record.erase fs leaf
  | s :: rest, fs =>
    match Record.get? fs s with
    | some (.object inner) => Record.put fs s (.object (unsetSegments rest inner))
    | _ => fs

/-- Remove what a path leads to through objects. -/
def unsetPath (document : Document) (path : String) : Document :=
  unsetSegments (Text.segments path) document

end EntityGraph
