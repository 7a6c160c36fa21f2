import EntityGraph.Registry

/-!
# Storage definitions

Each entity with a collection has a **storage definition**: a validator for its documents and the
dotted paths whose values are unique in the collection. Referenced objects are stored as their
connection field, lists of related documents live on the other side, and embedded relations are
written out in place. Embedded relations that lead back to a type on the way down have no
definition.
-/

namespace EntityGraph

/-- The storage definition of a collection. -/
structure CollectionSchema where
  collection : String
  validator : Value
  uniquePaths : List String

namespace CollectionSchema

/-- An object value. -/
def obj (fields : List (String × Value)) : Value := .object fields

/-- The storage types of a scalar; a value of type `JSON` may be anything. -/
def storageTypes : ScalarType → List String
  | .id => ["objectId"]
  | .string => ["string"]
  | .int => ["int", "long"]
  | .float => ["double", "int", "long"]
  | .boolean => ["bool"]
  | .dateTime => ["date"]
  | .date => ["date"]
  | .time => ["date"]
  | .json => []

/-- What a validator says of a scalar. A single type is written as a text, several as a list. -/
def scalarRule (t : ScalarType) (nullable : Bool) : Value :=
  match storageTypes t, nullable with
  | [], _ => obj []
  | types, true => obj [("bsonType", .list ((types ++ ["null"]).map .text))]
  | [type], false => obj [("bsonType", .text type)]
  | types, false => obj [("bsonType", .list (types.map .text))]

/-- May a scalar type carry a unique index? -/
def uniqueCapable : ScalarType → Bool
  | .string => true
  | .int => true
  | .float => true
  | _ => false

/-- What a field contributes: entries of the validator and unique paths. -/
structure Part where
  properties : Document
  uniquePaths : List String

/-- Parts one after the other; a later entry of the same key wins. -/
def Part.append (a b : Part) : Part :=
  ⟨Record.merge a.properties b.properties, a.uniquePaths ++ b.uniquePaths⟩

/-- The part of a single scalar. -/
def scalarPart (f : FieldDef) (path : String) (t : ScalarType) : Part :=
  if f.isIdentifier && t == .id then ⟨[("_id", obj [("bsonType", .text "objectId")])], []⟩
  else ⟨[(f.name, scalarRule t f.nullable)], if f.unique && uniqueCapable t then [path] else []⟩

/-- The part of a single member of an enumeration. -/
def memberPart (f : FieldDef) (path : String) (values : List String) : Part :=
  let allowed := values.map Value.text ++ (if f.nullable then [.null] else [])
  ⟨[(f.name, obj [("enum", .list allowed)])], if f.unique then [path] else []⟩

/-- The part of a field that does not embed objects. -/
def plainPart (f : FieldDef) (path : String) : Part :=
  match f.kind?, f.type with
  | some .scalar, .scalar t => scalarPart f path t
  | some .enumeration, .enumeration e => memberPart f path e.values
  | some .scalarList, _ =>
    let items := (f.scalarType.map (scalarRule · false)).getD (obj [])
    ⟨[(f.name, obj [("bsonType", .text "array"), ("items", items)])], []⟩
  | some .referencedObject, _ => ⟨[(f.connectionField, scalarRule .id true)], []⟩
  | _, _ => ⟨[], []⟩

/-- What a validator says of an embedded object. -/
def objectRule (properties : Document) : Value :=
  obj [("bsonType", .text "object"), ("properties", obj properties)]

/-- How many registered entities are not on the way down yet. -/
def remaining (r : Registry) (way : List String) : Nat :=
  ((Record.keys r.descriptors).filter fun n => !way.contains n).length

/-- A stricter test that drops one more member keeps fewer. -/
theorem length_filter_lt {p q : String → Bool} {x : String} (hpq : ∀ n, p n = true → q n = true)
    (hq : q x = true) (hp : p x = false) :
    ∀ {names : List String}, x ∈ names → (names.filter p).length < (names.filter q).length
  | [], h => by simp at h
  | k :: rest, h => by
    have hle : (rest.filter p).length ≤ (rest.filter q).length := by
      clear h
      induction rest with
      | nil => simp
      | cons n rest ih =>
        cases hn : p n
        · cases hm : q n <;> simp [hn, hm] <;> omega
        · simp [hn, hpq n hn, ih]
    by_cases hk : k = x
    · subst hk
      simp only [List.filter_cons, hp, hq, if_true, List.length_cons, Bool.false_eq_true, if_false]
      omega
    · have hlt := length_filter_lt hpq hq hp (List.mem_of_ne_of_mem (Ne.symm hk) h)
      cases hn : p k
      · cases hm : q k <;> simp [hn, hm] <;> omega
      · simp [hn, hpq k hn, hlt]

theorem remaining_cons_lt {r : Registry} {way : List String} {name : String}
    (hname : Record.has r.descriptors name = true) (hway : way.contains name = false) :
    remaining r (name :: way) < remaining r way := by
  refine length_filter_lt ?_ (by simpa using hway) (by simp)
    ((Record.mem_keys_iff _ _).2 hname)
  intro n
  simp only [List.contains_cons, Bool.not_or, Bool.and_eq_true]
  exact fun h => h.2

/-- An entity that a relation leads to is registered. -/
theorem has_of_require {r : Registry} {target referrer : String} {d : Descriptor}
    (h : r.require (some target) referrer = .ok d) : Record.has r.descriptors target = true := by
  unfold Registry.require at h
  unfold Record.has
  dsimp only at h
  cases hget : Record.get? r.descriptors target with
  | none => rw [hget] at h; cases h
  | some d => rfl

mutual

/-- The parts of the fields in order. `way` holds the entities on the way down, the innermost
first. -/
def fieldParts (r : Registry) (path : String) (way : List String) :
    List FieldDef → Outcome Part
  | [] => pure ⟨[], []⟩
  | f :: rest => do
    let first ← fieldPart r path way f
    let others ← fieldParts r path way rest
    pure (first.append others)
termination_by fields => (remaining r way, fields.length, 1)

/-- The part of a field. -/
def fieldPart (r : Registry) (path : String) (way : List String) (f : FieldDef) : Outcome Part := do
  let kind ← f.kind
  match kind with
  | .embeddedObject => do
    let inner ← embeddedPart r path way f
    pure ⟨[(f.name, objectRule inner.properties)], inner.uniquePaths⟩
  | .embeddedList => do
    let inner ← embeddedPart r path way f
    pure ⟨[(f.name, obj [("bsonType", .text "array"), ("items", objectRule inner.properties)])],
      inner.uniquePaths⟩
  | _ => pure (plainPart f (path ++ f.name))
termination_by (remaining r way, 0, 1)

/-- The parts of an embedded entity. -/
def embeddedPart (r : Registry) (path : String) (way : List String) (f : FieldDef) : Outcome Part :=
  let owner := way.headD ""
  match f.target with
  | none => throw (Reason.unknownTarget (owner ++ "." ++ f.name) Value.null.plain).fault
  | some target =>
    if hway : way.contains target then throw (Reason.embeddedRecursion owner f.name).fault
    else
      match hget : r.require (some target) (owner ++ "." ++ f.name) with
      | .error e => throw e
      | .ok d =>
        have : remaining r (target :: way) < remaining r way :=
          remaining_cons_lt (has_of_require hget) (by simpa using hway)
        fieldParts r (path ++ f.name ++ ".") (target :: way) d.entity.fields
termination_by (remaining r way, 0, 0)

end

/-- The storage definition of an entity. -/
def build (r : Registry) (d : Descriptor) : Outcome CollectionSchema := do
  let part ← fieldParts r "" [d.name] d.entity.fields
  let rule := obj [("bsonType", .text "object"), ("title", .text d.name),
    ("properties", obj part.properties)]
  pure ⟨d.collection, obj [("$jsonSchema", rule)], part.uniquePaths⟩

/-- The storage definitions of all entities with a collection of their own. -/
def buildAll (r : Registry) : Outcome (List CollectionSchema) :=
  (r.descriptors.filter fun e => e.2.hasEndpoints).mapM fun e => build r e.2

end CollectionSchema

end EntityGraph
