import EntityGraph.Registry

/-!
# Endpoints

Every entity with a collection is reached through named endpoints: one document, a list, adding,
updating, deleting, and one endpoint for each of its state actions. Custom mutations are reached
under their own names. Inclusion lists restrict what is exposed.
-/

namespace EntityGraph

/-- The kinds of endpoints. -/
inductive EndpointKind where
  | get
  | find
  | save
  | update
  | delete
  | state
  | custom
  deriving DecidableEq, Repr

namespace EndpointKind

/-- The name of a kind. -/
def name : EndpointKind → String
  | get => "get"
  | find => "find"
  | save => "save"
  | update => "update"
  | delete => "delete"
  | state => "state"
  | custom => "custom"

/-- Does the kind only read? -/
def isRead : EndpointKind → Bool
  | get => true
  | find => true
  | _ => false

end EndpointKind

/-- A named way into the service. -/
structure Endpoint where
  name : String
  kind : EndpointKind
  /-- the entity, except for custom mutations -/
  entity : Option String
  /-- the state action -/
  action : Option String
  deriving DecidableEq

/-- What is exposed; a list that is absent includes everything. -/
structure Exposure where
  /-- entities that can be read -/
  queries : Option (List String)
  /-- entities that can be written -/
  mutations : Option (List String)
  /-- custom mutations that can be called -/
  customMutations : Option (List String)

/-- Everything is exposed. -/
def Exposure.everything : Exposure := ⟨none, none, none⟩

/-- Is a name included? -/
def included (names : Option (List String)) (name : String) : Bool :=
  match names with
  | none => true
  | some ns => ns.contains name

namespace Endpoint

/-- The endpoints that read an entity. -/
def reading (name : String) (d : Descriptor) : List Endpoint :=
  [⟨d.single.getD "", .get, some name, none⟩, ⟨d.list.getD "", .find, some name, none⟩]

/-- The endpoints that write an entity. -/
def writing (name : String) (d : Descriptor) : List Endpoint :=
  let pascal := Text.pascalCase (d.single.getD "")
  let actions := (d.machine.map fun m => Record.keys m.actions).getD []
  [⟨"add" ++ pascal, .save, some name, none⟩, ⟨"update" ++ pascal, .update, some name, none⟩,
    ⟨"delete" ++ pascal, .delete, some name, none⟩] ++
    actions.map fun a => ⟨a ++ "_" ++ pascal, .state, some name, some a⟩

/-- The endpoints of one entity. -/
def ofEntity (e : Exposure) (name : String) (d : Descriptor) : List Endpoint :=
  if d.hasEndpoints then
    (if included e.queries name then reading name d else []) ++
      (if included e.mutations name then writing name d else [])
  else []

/-- All endpoints that are exposed, in order. -/
def all (e : Exposure) (r : Registry) : List Endpoint :=
  r.descriptors.flatMap (fun d => ofEntity e d.1 d.2) ++
    ((Record.keys r.mutations).filter (included e.customMutations)).map
      fun name => ⟨name, .custom, none, none⟩

/-- Enter endpoints into a table, refused when a name is used twice. -/
def enter : List Endpoint → Record Endpoint → Outcome (Record Endpoint)
  | [], table => pure table
  | e :: rest, table =>
    if Record.has table e.name then throw (Reason.duplicateEndpoint e.name).fault
    else enter rest (Record.put table e.name e)

/-- The table of the endpoints that are exposed. -/
def table (e : Exposure) (r : Registry) : Outcome (Record Endpoint) := enter (all e r) []

end Endpoint

end EntityGraph
