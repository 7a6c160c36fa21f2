import EntityGraph.Registry

/-!
# Finalizing a registry

Finalizing gives every entity the shapes of its arguments. First every relation must lead to a
registered entity. Then passes go over the entities without shapes: an entity waits until every
entity that it embeds has its own, and a pass that gets no entity further means a cycle. Last, the
lists of related documents, which never block, are attached to the shapes, and the shapes are
sealed.

An entity's shapes are visible to the entities after it in the same pass. When finalizing fails,
what was visible so far stays in the registry.
-/

namespace EntityGraph

/-- An entity's shapes while they are built. -/
structure ShapeDraft where
  add : InputShape
  update : InputShape
  /-- lists of related documents, to be attached later -/
  deferred : List FieldDef
  /-- fields that only the state machine writes -/
  machineOwned : List String

/-- Why the shapes of an entity cannot be built now. -/
inductive DraftStop where
  /-- an embedded entity has no shapes yet -/
  | waitsFor (target : String)
  | fault (f : Fault)

namespace ShapeDraft

/-- The draft before its first field. -/
def start (name : String) : ShapeDraft :=
  ⟨InputShape.empty (ShapeRef.add name).name, InputShape.empty (ShapeRef.update name).name, [], []⟩

/-- Add a field to one of the open shapes. -/
def extend (s : InputShape) (f : Option InputField) : InputShape :=
  match f with
  | none => s
  | some f => { s with fields := Record.put s.fields f.name f }

/-- Add a field to both shapes. -/
def put (d : ShapeDraft) (add update : Option InputField) : ShapeDraft :=
  { d with add := extend d.add add, update := extend d.update update }

/-- The input type of a field that holds scalars or members of an enumeration. -/
def leafType (f : FieldDef) : InputType :=
  match f.type with
  | .scalar t => .named t.name
  | .enumeration e => .enumeration e
  | .entity n => .named n
  | .unnamed v => .named v.plain

/-- A single scalar or member: required on creation as declared, on update only when it
identifies. -/
def leaf (d : ShapeDraft) (f : FieldDef) (kind : InputKind) : ShapeDraft :=
  let required := f.isIdentifier || f.isIdTyped
  d.put (if f.isIdentifier then none else
    some ⟨f.name, kind, leafType f, f.nullable, f.description⟩)
      (some ⟨f.name, kind, leafType f, !required, f.description⟩)

/-- A field that embeds objects of a target. -/
def embed (d : ShapeDraft) (f : FieldDef) (kind : InputKind) (target : String) : ShapeDraft :=
  d.put (some ⟨f.name, kind, .shape (.add target), true, f.description⟩)
    (some ⟨f.name, kind, .shape (.update target), true, f.description⟩)

/-- The entity that a field embeds, once it has shapes of its own. -/
def embeddedTarget (r : Registry) (owner : String) (f : FieldDef) : Except DraftStop String := do
  if f.target = some owner then throw (.fault (Reason.embedsItself owner f.name).fault)
  match r.require f.target (owner ++ "." ++ f.name) with
  | .error e => throw (.fault e)
  | .ok target => if target.shapes.isNone then throw (.waitsFor target.name) else pure target.name

/-- Add a field to the draft of `owner`. -/
def addField (r : Registry) (owner : String) (d : ShapeDraft) (f : FieldDef) :
    Except DraftStop ShapeDraft :=
  match f.kind with
  | .error e => throw (.fault e)
  | .ok .scalar => pure (d.leaf f .scalar)
  | .ok .enumeration => pure (d.leaf f .enumeration)
  | .ok .scalarList =>
    pure (d.put (some ⟨f.name, .scalarList, leafType f, f.nullable, f.description⟩)
      (some ⟨f.name, .scalarList, leafType f, true, f.description⟩))
  | .ok .referencedObject =>
    pure (d.put (some ⟨f.name, .id, .shape .reference, f.nullable, f.description⟩)
      (some ⟨f.name, .id, .shape .reference, true, f.description⟩))
  | .ok .embeddedObject => do
    let target ← embeddedTarget r owner f
    pure (d.embed f .object target)
  | .ok .embeddedList => do
    let target ← embeddedTarget r owner f
    pure (d.embed f .objectList target)
  | .ok .referencedList =>
    match r.require f.target (owner ++ "." ++ f.name) with
    | .error e => throw (.fault e)
    | .ok _ => pure { d with deferred := d.deferred ++ [f] }

/-- Add the fields in order, as far as that goes. Read-only fields take no arguments, and neither
does the state field of a state machine. -/
def addFields (r : Registry) (owner : String) (hasMachine : Bool) :
    ShapeDraft → List FieldDef → ShapeDraft × Option DraftStop
  | d, [] => (d, none)
  | d, f :: rest =>
    if f.readOnly then addFields r owner hasMachine d rest
    else if hasMachine && f.name == stateField then
      addFields r owner hasMachine { d with machineOwned := [f.name] } rest
    else
      match addField r owner d f with
      | .error stop => (d, some stop)
      | .ok d => addFields r owner hasMachine d rest

/-- The lists of related documents, as fields of the entity's shapes. -/
def withDeltas (name : String) (d : ShapeDraft) : ShapeDraft :=
  d.deferred.foldl (fun acc f =>
    acc.put (some ⟨f.name, .delta, .shape (.delta false name f.name), true, f.description⟩)
      (some ⟨f.name, .delta, .shape (.delta true name f.name), true, f.description⟩)) d

end ShapeDraft

namespace Registry

/-- How far the passes have come: the entities that still wait, those that are done, and who waits
for whom. -/
structure Progress where
  waiting : List String
  done : List (String × ShapeDraft)
  blockers : List (String × String)

/-- Try to build the shapes of one entity. -/
def tryDraft (p : Progress) (name : String) : Action Registry Progress := do
  let r ← get
  match Record.get? r.descriptors name with
  | none => pure p
  | some d =>
    let (draft, stop) :=
      ShapeDraft.addFields r name d.machine.isSome (ShapeDraft.start name) d.entity.fields
    let owned := if draft.machineOwned.isEmpty then d.machineOwned else draft.machineOwned
    set (r.change name ({ · with machineOwned := owned }))
    match stop with
    | some (.fault e) => throw e
    | some (.waitsFor target) =>
      pure { p with waiting := p.waiting ++ [name], blockers := p.blockers ++ [(name, target)] }
    | none =>
      modify (·.change name ({ · with shapes := some ⟨draft.add, draft.update⟩ }))
      pure { p with done := p.done ++ [(name, draft)] }

/-- One pass over the entities that wait. -/
def onePass (p : Progress) : Action Registry Progress :=
  p.waiting.foldlM tryDraft ⟨[], p.done, []⟩

/-- Passes until no entity waits, at most `fuel` of them. A pass that builds nothing ends in an
error that names who waits for whom. -/
def passes : Nat → Progress → Action Registry Progress
  | 0, p => throw (Reason.embeddedCycle (p.blockers.mergeSort fun a b => decide (a.1 ≤ b.1))).fault
  | fuel + 1, p => do
    let q ← onePass p
    if q.waiting.isEmpty then pure q
    else if q.waiting.length = p.waiting.length then
      throw (Reason.embeddedCycle (q.blockers.mergeSort fun a b => decide (a.1 ≤ b.1))).fault
    else passes fuel q

/-- Attach the lists of related documents to the drafts and close the shapes. -/
def attachDrafts (r : Registry) (done : List (String × ShapeDraft)) : Registry :=
  done.foldl (fun acc e =>
    let d := e.2.withDeltas e.1
    acc.change e.1 ({ · with shapes := some ⟨d.add.close, d.update.close⟩ })) r

/-- The entities without shapes. -/
def unshaped (r : Registry) : List String :=
  (r.descriptors.filter fun e => e.2.shapes.isNone).map Prod.fst

/-- Build the shapes of every entity that has none. -/
def synthesize : Action Registry Unit := do
  let waiting := (← get).unshaped
  if waiting.isEmpty then pure ()
  else
    let p ← passes waiting.length ⟨waiting, [], []⟩
    modify (·.attachDrafts p.done)

/-- Check that the relations of an entity lead to registered entities. -/
def checkRelations (r : Registry) (owner : String) : List FieldDef → Outcome Unit
  | [] => pure ()
  | f :: rest => do
    let kind ← f.kind
    if kind.isObject then
      let _ ← r.require f.target (owner ++ "." ++ f.name)
    checkRelations r owner rest

/-- Check that every relation leads to a registered entity. -/
def checkTargets (r : Registry) : List (String × Descriptor) → Outcome Unit
  | [] => pure ()
  | (name, d) :: rest => do
    r.checkRelations name d.entity.fields
    checkTargets r rest

/-- Check all relations and give every entity its shapes. What was done before a failure stays. -/
def finalize : Action Registry Unit := do
  let r ← get
  if r.finalized then pure ()
  else
    r.checkTargets r.descriptors
    synthesize
    modify ({ · with finalized := true })

end Registry

end EntityGraph
