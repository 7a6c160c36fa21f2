import EntityGraph.Query.Term
import EntityGraph.Schema.Document
import EntityGraph.Schema.Storage

/-!
# Descriptions

Definitions shown as values, for tools that list what a service knows: shapes, state machines,
registered entities, compiled schemas, storage definitions and the arguments of a list. A
description holds what was derived as well as what was declared, such as the kind of a field and the
key it is stored under.
-/

namespace EntityGraph

/-- A text or null. -/
def Value.ofText? : Option String → Value
  | some s => .text s
  | none => .null

/-- A list of texts. -/
def Value.ofTexts (texts : List String) : Value := .list (texts.map .text)

/-- A shape: its definition, whether it is sealed, the kinds of its fields and what they say of
themselves. -/
def InputShape.describe (s : InputShape) : Value :=
  .object [
    ("sdl", .text s.definition),
    ("sealed", .bool s.isSealed),
    ("kinds", .list (s.fields.map fun f => .list [.text f.1, .text f.2.kind.name])),
    ("descriptions", .object ((s.fields.filter fun f => !f.2.description.isNull).map
      fun f => (f.1, f.2.description)))]

/-- A state machine, with its states by name. -/
def StateMachine.describe (m : StateMachine) : Value :=
  .object [
    ("initial", stateName m.initial),
    ("actions", .list (m.actions.map fun a =>
      .list [.text a.1, stateName a.2.source, stateName a.2.target, a.2.description]))]

/-- A state machine or null. -/
def StateMachine.describe? (m : Option StateMachine) : Value :=
  (m.map StateMachine.describe).getD .null

/-- A registered entity, with the shapes of its arguments once it has them. -/
def Descriptor.describe (d : Descriptor) : Value :=
  .object [
    ("name", .text d.name),
    ("collection", .text d.collection),
    ("single", .ofText? d.single),
    ("list", .ofText? d.list),
    ("endpoint", .bool d.hasEndpoints),
    ("machine", StateMachine.describe? d.machine),
    ("machine_owned", .ofTexts (sortTexts d.machineOwned)),
    ("description", d.entity.description),
    ("fields", .ofTexts (d.entity.fields.map FieldDef.name)),
    ("add", (d.shapes.map fun s => s.add.describe).getD .null),
    ("update", (d.shapes.map fun s => s.update.describe).getD .null)]

/-- The name of a field's type, or null. -/
def FieldType.describe : FieldType → Value
  | .scalar t => .text t.name
  | .enumeration e => .text e.name
  | .entity n => .text n
  | .unnamed v => v

/-- A field, with its kind and stored key. -/
def FieldDef.describe (f : FieldDef) : Outcome Value := do
  let kind ← f.kind
  pure (.object [
    ("name", .text f.name),
    ("type", f.type.describe),
    ("kind", .text kind.name),
    ("many", .bool f.many),
    ("nullable", .bool f.nullable),
    ("read_only", .bool f.readOnly),
    ("unique", .bool f.unique),
    ("relation", match f.relation with
      | none => .null
      | some r => .list [.bool r.embedded, .text r.connectionField, r.displayField]),
    ("description", f.description),
    ("stored_key", .text f.storedKey)])

/-- A compiled entity. -/
def EntitySpec.describe (s : EntitySpec) : Outcome Value := do
  let fields ← s.entity.fields.mapM FieldDef.describe
  pure (.object [
    ("name", .text s.entity.name),
    ("description", s.entity.description),
    ("endpoint", .bool s.hasEndpoints),
    ("collection", s.collection),
    ("single", s.single),
    ("list", s.list),
    ("machine", StateMachine.describe? s.machine),
    ("fields", .list fields)])

/-- A compiled schema. -/
def SchemaDocument.describe (s : SchemaDocument) : Outcome Value := do
  let entities ← s.entities.mapM fun e => e.2.describe
  pure (.object [
    ("enums", .list (s.enumerations.map fun e => .list [.text e.1, .ofTexts e.2.values])),
    ("entities", .list entities)])

/-- A storage definition. -/
def CollectionSchema.describe (s : CollectionSchema) : Value :=
  .object [
    ("collection", .text s.collection),
    ("validator", s.validator),
    ("unique", .ofTexts s.uniquePaths)]

/-- The entries of a filter term. -/
def FilterTerm.entries (t : FilterTerm) : Document :=
  [("operator", match t.operator with
      | none => .null
      | some o => .member "Operator" o.name),
    ("value", t.value)]

/-- A filter. -/
def Filter.describe : Filter → Value
  | .term t => .object t.entries
  | .expression ts => .object [
      ("terms", .list (ts.map fun t => .object (t.entries.concat ("path", .text t.path))))]

/-- A sort key. -/
def SortTerm.describe (t : SortTerm) : Value :=
  .list [.text t.field, .member "SortOrder" (if t.descending then "DESC" else "ASC")]

/-- A page. -/
def Pagination.describe (p : Pagination) : Value :=
  .object [("page", .int p.page), ("size", .int p.size), ("count", .bool p.count)]

/-- The arguments of a list. -/
def ListArguments.describe (a : ListArguments) : Value :=
  .object [
    ("filters", .list (a.filters.map fun f => .list [.text f.1, f.2.describe])),
    ("sort", (a.sort.map fun ts => .list (ts.map SortTerm.describe)).getD .null),
    ("pagination", (a.pagination.map Pagination.describe).getD .null),
    ("empty", .bool a.isEmpty)]

end EntityGraph
