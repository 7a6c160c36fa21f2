import EntityGraph.Mutation.Behaviour
import EntityGraph.Store.Path

/-!
# From arguments to documents

An argument tree becomes a document by walking the entity's fields in order of declaration: the
validators of a field see its raw argument, then the argument is converted and put under the key
that stores it. Embedded values are documents made in the same way. An explicit null for a nullable
field is noted as a key to unset. Changes to lists of related documents take no part in the
document; `deltaOf?` reads them off the arguments again once the document is stored.
-/

namespace EntityGraph

/-- A document made from arguments. -/
structure Materialized where
  document : Document
  /-- stored keys whose argument was an explicit null -/
  unset : List String

/-- Changes to a list of related documents. -/
structure Delta where
  added : List Value
  updated : List Value
  deleted : List Value

namespace Delta

/-- A list among the changes; what counts as false is an empty list. A text or an object is taken
for a list too, of items that are no objects: nothing can be saved from them. -/
def listAt? (fs : Document) (key : String) : Option (List Value) :=
  match Record.get? fs key with
  | none => some []
  | some (.list items) => some items
  | some (.text s) => some (if s = "" then [] else [.null])
  | some (.object entries) => some (if entries.isEmpty then [] else [.null])
  | some v => if v.truthy then none else some []

/-- Read changes. -/
def ofValue? : Value → Option Delta
  | .object fs => do
    let added ← listAt? fs "added"
    let updated ← listAt? fs "updated"
    let deleted ← listAt? fs "deleted"
    some ⟨added, updated, deleted⟩
  | _ => none

theorem sizeOf_listAt?_lt {fs : Document} {key : String} {items : List Value}
    (h : listAt? fs key = some items) : sizeOf items < sizeOf (Value.object fs) := by
  have hnil : sizeOf ([] : List Value) < sizeOf (Value.object fs) := by
    have : 0 < sizeOf fs := by cases fs <;> simp +arith
    simp
    omega
  unfold listAt? at h
  split at h
  · cases h
    exact hnil
  · rename_i xs hx
    cases h
    have hlt := Record.sizeOf_lt_of_get?_eq_some hx
    simp at hlt ⊢
    omega
  · rename_i s hx
    have hlt := Record.sizeOf_lt_of_get?_eq_some hx
    split at h <;> cases h
    · exact hnil
    · have : 0 < sizeOf s := by cases s; simp +arith
      simp at hlt ⊢
      omega
  · rename_i entries hx
    have hlt := Record.sizeOf_lt_of_get?_eq_some hx
    split at h <;> cases h
    · exact hnil
    · have : 0 < sizeOf entries := by cases entries <;> simp +arith
      simp at hlt ⊢
      omega
  · split at h
    · exact absurd h (by simp)
    · cases h
      exact hnil

theorem sizeOf_ofValue?_lt {v : Value} {d : Delta} (h : ofValue? v = some d) :
    sizeOf d.added < sizeOf v ∧ sizeOf d.updated < sizeOf v := by
  unfold ofValue? at h
  split at h
  · simp only [Option.bind_eq_bind, Option.bind_eq_some_iff, Option.some.injEq] at h
    obtain ⟨a, ha, u, hu, x, _, rfl⟩ := h
    exact ⟨sizeOf_listAt?_lt ha, sizeOf_listAt?_lt hu⟩
  · exact absurd h (by simp)

end Delta

theorem sizeOf_fieldOf?_lt {v w : Value} {name : String} (h : fieldOf? name v = some w) :
    sizeOf w < sizeOf v := by
  unfold fieldOf? at h
  split at h
  · have hlt := Record.sizeOf_lt_of_get?_eq_some h
    simp
    omega
  · exact absurd h (by simp)

/-- The argument of a field, unless it counts as absent. -/
def presentArgument? (f : FieldDef) (args : Value) : Option Value :=
  (fieldOf? f.name args).filter fun v => !v.isEmpty

/-- Is the field a list of related documents? -/
def FieldDef.isReferencedList (f : FieldDef) : Bool := f.kind? = some .referencedList

/-- The changes that the arguments hold for a list of related documents. The identifier is no such
list, whatever its type. -/
def deltaOf? (f : FieldDef) (args : Value) : Option Delta :=
  if f.isReferencedList && !f.isIdentifier then (presentArgument? f args).bind Delta.ofValue?
  else none

theorem sizeOf_deltaOf?_lt {f : FieldDef} {args : Value} {d : Delta}
    (h : deltaOf? f args = some d) :
    sizeOf d.added < sizeOf args ∧ sizeOf d.updated < sizeOf args := by
  unfold deltaOf? at h
  split at h
  · obtain ⟨v, hv, hd⟩ := Option.bind_eq_some_iff.1 h
    have hlt := sizeOf_fieldOf?_lt (Option.filter_eq_some_iff.1 hv).1
    have := Delta.sizeOf_ofValue?_lt hd
    omega
  · exact absurd h (by simp)

/-- Convert a single scalar: members of enumerations are stored by name, identifiers as references,
calendar and clock values as moments. -/
def coerceScalar (f : FieldDef) (v : Value) : Outcome Value :=
  match v with
  | .member _ _ => pure (stateName v)
  | _ =>
    if f.isIdTyped then do
      let o ← toReference v
      pure (.id o)
    else
      match f.momentType? with
      | some type => coerceMoment type.name v
      | none => pure v

/-- Convert the items of a scalar list. -/
def coerceScalars (f : FieldDef) : List Value → Outcome (List Value)
  | [] => pure []
  | v :: rest => do
    let w ← coerceScalar f v
    let ws ← coerceScalars f rest
    pure (w :: ws)

/-- A key that links a document to its parent, and the parent's identifier. -/
abbrev ParentLink := String × Value

/-- What a run of materialization is bound to. -/
structure Materializer (τ S : Type) where
  registry : Registry
  behaviour : Behaviour τ S
  operation : Operation
  session : S

namespace Materializer

variable {τ S : Type}

/-- Run the validators of a field. -/
def checkField (m : Materializer τ S) (entity : String) (f : FieldDef) (v : Value) :
    Action τ Unit :=
  ((m.behaviour.entity entity).fieldChecks m.operation f.name).forM fun check =>
    check entity f.name v m.session

/-- Run the validators of an entity; each sees the document as the one before left it. -/
def checkEntity (m : Materializer τ S) (entity : String) (args : Value) (d : Document) :
    Action τ Document :=
  ((m.behaviour.entity entity).entityChecks m.operation).foldlM
    (fun d check => check entity args d m.session) d

/-- Put a value of the document under a key. -/
def put (r : Materialized) (key : String) (v : Value) : Materialized :=
  { r with document := Record.put r.document key v }

mutual

/-- Make a document of an entity from arguments. -/
def materialize (m : Materializer τ S) (entity : Entity) (link : Option ParentLink) (args : Value) :
    Action τ Materialized := do
  let r ← materializeFields m entity.name args entity.fields ⟨[], []⟩
  let linked := match link with
    | some (key, parent) => Record.put r.document key parent
    | none => r.document
  let d ← m.checkEntity entity.name args linked
  pure { r with document := d }
termination_by (sizeOf args, 3, 0)

/-- Walk the fields in order. -/
def materializeFields (m : Materializer τ S) (entity : String) (args : Value) :
    List FieldDef → Materialized → Action τ Materialized
  | [], r => pure r
  | f :: rest, r => do
    if args.fields?.isNone then throw .illTyped
    m.checkField entity f ((fieldOf? f.name args).getD .null)
    let r ← (
      if f.isIdentifier then pure r
      else
        match h : fieldOf? f.name args with
        | none => pure r
        | some v =>
          have := sizeOf_fieldOf?_lt h
          if v.isEmpty then
            pure (if v.isNull && f.nullable then { r with unset := r.unset ++ [f.storedKey] } else
              r)
          else materializeValue m f v r)
    materializeFields m entity args rest r
termination_by fields => (sizeOf args, 2, fields.length)

/-- Convert the argument of a field and put it into the document. -/
def materializeValue (m : Materializer τ S) (f : FieldDef) (v : Value) (r : Materialized) :
    Action τ Materialized := do
  let kind ← f.kind
  match kind with
  | .scalar => do
    let w ← coerceScalar f v
    pure (put r f.name w)
  | .enumeration => do
    let w ← coerceScalar f v
    pure (put r f.name w)
  | .scalarList =>
    match v with
    | .list items => do
      let ws ← coerceScalars f items
      pure (put r f.name (.list ws))
    | _ => throw (Reason.listExpected f.name).fault
  | .referencedObject => do
    let o ← toReference v
    pure (put r f.connectionField (.id o))
  | .embeddedObject =>
    match v with
    | .object fs => do
      let target ← m.registry.lookup (f.target.getD "")
      let inner ← materialize m target.entity none (.object fs)
      pure (put r f.name (.object inner.document))
    | _ => throw (Reason.objectExpected f.name).fault
  | .embeddedList =>
    match v with
    | .list items => do
      let target ← m.registry.lookup (f.target.getD "")
      let ds ← materializeItems m f target.entity items
      pure (put r f.name (.list ds))
    | _ => throw (Reason.listExpected f.name).fault
  | .referencedList =>
    match Delta.ofValue? v with
    | some _ => pure r
    | none => throw .illTyped
termination_by (sizeOf v, 4, 0)

/-- Make the documents of an embedded list. -/
def materializeItems (m : Materializer τ S) (f : FieldDef) (entity : Entity) :
    List Value → Action τ (List Value)
  | [] => pure []
  | .object fs :: rest => do
    let inner ← materialize m entity none (.object fs)
    let others ← materializeItems m f entity rest
    pure (.object inner.document :: others)
  | _ :: _ => throw (Reason.objectsExpected f.name).fault
termination_by items => (sizeOf items, 0, 0)

end

end Materializer

end EntityGraph
