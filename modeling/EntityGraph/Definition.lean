import EntityGraph.Registry

/-!
# Definitions as objects

Entities and shapes that are defined one by one, each by an object with an entry for every property.
What an object leaves out has the standard value, and entries that are not understood are left
alone, so reading never fails; only an entity whose fields share a name is refused. Whole services
are declared by schema documents instead, which are checked.
-/

namespace EntityGraph

namespace Value

/-- The entry of an object, or null. -/
def entry (v : Value) (key : String) : Value :=
  match v with
  | .object fs => (Record.get? fs key).getD .null
  | _ => .null

/-- The entry of an object, unless it is absent or null. -/
def present? (v : Value) (key : String) : Option Value :=
  match v.entry key with
  | .null => none
  | w => some w

/-- The text in an entry. -/
def textAt? (v : Value) (key : String) : Option String := (v.entry key).text?

/-- The text in an entry, or the empty text. -/
def textAt (v : Value) (key : String) : String := (v.textAt? key).getD ""

/-- The items in an entry. -/
def itemsAt (v : Value) (key : String) : List Value := ((v.entry key).items?).getD []

/-- The texts in an entry. -/
def textsAt (v : Value) (key : String) : List String := (v.itemsAt key).filterMap text?

/-- The truth value in an entry, or the standard. -/
def flagAt (v : Value) (key : String) (standard : Bool) : Bool :=
  match v.entry key with
  | .bool b => b
  | _ => standard

/-- The integer in an entry. -/
def intAt? (v : Value) (key : String) : Option Int :=
  match v.entry key with
  | .int i => some i
  | _ => none

/-- The name and the rest of an item that is a pair. -/
def namedItem? (v : Value) : Option (String × Value) :=
  match v with
  | .list [.text name, w] => some (name, w)
  | _ => none

end Value

open Value (entry textAt textAt? itemsAt textsAt flagAt)

/-- Read an enumeration. -/
def Enumeration.ofValue (v : Value) : Enumeration := ⟨v.textAt "enum", v.textsAt "values"⟩

/-- Read the type of a field: a type name, or the object of an enumeration. -/
def FieldType.ofValue : Value → FieldType
  | .text s => .ofName s
  | .object fs => .enumeration (.ofValue (.object fs))
  | v => .unnamed v

/-- Read a relation. -/
def Relation.ofValue (v : Value) : Relation :=
  ⟨v.flagAt "embedded" false, v.textAt "connection_field", v.entry "display_field"⟩

/-- Read a field. -/
def FieldDef.ofValue (v : Value) : FieldDef where
  name := v.textAt "name"
  type := .ofValue (v.entry "type")
  many := v.flagAt "many" false
  nullable := v.flagAt "nullable" true
  readOnly := v.flagAt "read_only" false
  unique := v.flagAt "unique" false
  relation := (v.present? "relation").map Relation.ofValue
  description := v.entry "description"

/-- Read an entity. -/
def Entity.ofValue (v : Value) : Outcome Entity :=
  Entity.ofFields (v.textAt "name") ((v.itemsAt "fields").map FieldDef.ofValue)
    (v.entry "description")

/-- Read a state action. -/
def StateAction.ofValue (v : Value) : StateAction :=
  ⟨v.entry "from", v.entry "to", v.entry "description"⟩

/-- Read a state machine, whose actions are pairs of a name and an object. -/
def StateMachine.ofValue (v : Value) : StateMachine :=
  ⟨v.entry "initial", Record.ofEntries (((v.itemsAt "actions").filterMap Value.namedItem?).map
    fun a => (a.1, StateAction.ofValue a.2))⟩

/-- Read how an entity is to be registered. -/
def Connection.ofValue (v : Value) : Connection where
  collection := v.textAt? "collection"
  single := v.textAt? "single"
  list := v.textAt? "list"
  machine := (v.present? "state_machine").map StateMachine.ofValue

/-- Register the entity that an object defines, with a collection of its own unless the object
declines. -/
def Registry.define (r : Registry) (v : Value) : Outcome (Entity × Registry) := do
  let e ← Entity.ofValue v
  let r ← if v.flagAt "endpoint" true then r.connect e (.ofValue v) else r.addEmbedded e
  pure (e, r)

mutual

/-- Read an input field; shapes may be nested as deep as `fuel`. -/
def InputField.ofValueTo (fuel : Nat) (v : Value) : InputField :=
  ⟨v.textAt "name", ((v.textAt? "kind").bind InputKind.ofName?).getD .scalar,
    InputType.ofValueTo fuel (v.entry "type"), v.flagAt "nullable" true, v.entry "description"⟩

/-- Read what an input field accepts. -/
def InputType.ofValueTo : Nat → Value → InputType
  | _, .text s => .named s
  | 0, _ => .named ""
  | fuel + 1, v =>
    match v.present? "shape", v.present? "enum" with
    | some s, _ => .nested (InputShape.ofValueTo fuel s)
    | none, some _ => .enumeration (.ofValue v)
    | none, none => .shape .reference

/-- Read a shape, which stays open. -/
def InputShape.ofValueTo (fuel : Nat) (v : Value) : InputShape :=
  InputShape.ofFields (v.textAt "name") ((v.itemsAt "fields").map (InputField.ofValueTo fuel))

end

/-- How deep the shapes of a definition may be nested. -/
def InputShape.nestingLimit : Nat := 1000

/-- Read an input field. -/
def InputField.ofValue (v : Value) : InputField := .ofValueTo InputShape.nestingLimit v

/-- Read a shape, which stays open. -/
def InputShape.ofValue (v : Value) : InputShape := .ofValueTo InputShape.nestingLimit v

/-- Read a custom mutation. -/
def Mutation.ofValue (v : Value) : Mutation :=
  ⟨v.textAt "name", v.entry "description", (v.present? "input").map InputShape.ofValue,
    v.entry "output"⟩

end EntityGraph
