import EntityGraph.Proofs.Upkeep

/-!
# Required values over whole runs

Additions supply what is required, as their shape asks for it; updates need not. What an update lays
over an object may leave to that object what it holds already, but what it puts in anew is stored as
it is given, and so are the items of lists. So documents stay whole as long as calls are careful
(`Registry.Careful`): additions give no empty text for a required value, updates give what they put
in anew completely, and no update removes what is required. Then every committed document holds all
its required values, and so do the objects that it embeds at any depth
(`Dispatcher.keeps_required`). An update that is not careful leaves a part behind that is not whole
(`depot_keeps_part`).
-/

namespace EntityGraph

open MemoryStore (applyUpdate)

variable {τ S : Type}

/-! ## Careful arguments -/

/-- **A key that an update removes**: the argument of a nullable field that is stored under it is
null. -/
def Descriptor.Removes (d : Descriptor) (fs : Document) (key : String) : Prop :=
  ∃ f ∈ d.entity.fields, f.nullable = true ∧ f.storedKey = key ∧ Record.get? fs f.name = some .null

/-- Where documents are counted on to have objects, by their entity and their identifier. -/
abbrev Objects : Type := Descriptor → ObjectId → FieldDef → Prop

/-- The document has the objects that it is counted on to have. -/
def Objects.Found (has : Objects) (d : Descriptor) (o : ObjectId) (doc : Option Document) : Prop :=
  ∀ f, has d o f → ∃ found old, doc = some found ∧ Record.get? found f.name = some (.object old)

namespace Registry

/-- **Arguments that mend a document**: the objects and items among them supply what is required.
Only an object that goes where the document has one, by `has`, may leave it to that one, and then
its own parts may not. -/
def Mends (r : Registry) (has : FieldDef → Prop) (d : Descriptor) (fs : Document) : Prop :=
  ∀ f e inner, r.Part d fs f e inner → r.Supplies e inner ∨
    (f.kind = .ok .embeddedObject ∧ has f) ∧
    r.PartsAre (Descriptor.Fills FieldDef.name Given) e inner

/-- **An update that leaves its document whole**: it mends the document, and removes neither what is
required nor an object that is counted on. -/
structure Mending (r : Registry) (has : Objects) (d : Descriptor) (fs : Document) : Prop where
  required : ∀ f, d.Requires f → ¬ d.Removes fs f.documentKey
  parts : ∀ o, NamesDocument (.object fs) o → r.Mends (has d o) d fs
  objects : ∀ o, NamesDocument (.object fs) o → ∀ f, has d o f → ¬ d.Removes fs f.name

/-- **A child** among arguments: what a list of related documents adds or updates. -/
inductive Child (r : Registry) (d : Descriptor) (fs : Document) : Operation → Descriptor →
    Document → Prop where
  | added {f : FieldDef} {delta : Delta} {e : Descriptor} {g : Document} (hf : f ∈ d.entity.fields)
      (hdelta : deltaOf? f (.object fs) = some delta) (he : r.lookup (f.target.getD "") = .ok e)
      (hg : Value.object g ∈ delta.added) : r.Child d fs .create e g
  | updated {f : FieldDef} {delta : Delta} {e : Descriptor} {g : Document}
    (hf : f ∈ d.entity.fields)
      (hdelta : deltaOf? f (.object fs) = some delta) (he : r.lookup (f.target.getD "") = .ok e)
      (hg : Value.object g ∈ delta.updated) : r.Child d fs .update e g

/-- **Careful arguments**: additions give no empty text for a required value, updates leave their
documents whole, and the children are careful too. -/
inductive Careful (r : Registry) (has : Objects) : Operation → Descriptor → Document → Prop where
  | create {d : Descriptor} {fs : Document} (here : r.Spares d fs)
      (children : ∀ operation e g, r.Child d fs operation e g → r.Careful has operation e g) :
      r.Careful has .create d fs
  | update {d : Descriptor} {fs : Document} (here : r.Mending has d fs)
      (children : ∀ operation e g, r.Child d fs operation e g → r.Careful has operation e g) :
      r.Careful has .update d fs

namespace Careful

variable {r : Registry} {has : Objects} {operation : Operation} {d : Descriptor} {fs : Document}

theorem spares (h : r.Careful has .create d fs) : r.Spares d fs := by
  cases h with
  | create here _ => exact here

theorem mending (h : r.Careful has .update d fs) : r.Mending has d fs := by
  cases h with
  | update here _ => exact here

theorem child (h : r.Careful has operation d fs) {operation' : Operation} {e : Descriptor}
    {g : Document} (hchild : r.Child d fs operation' e g) : r.Careful has operation' e g := by
  cases h with
  | create _ children => exact children _ e g hchild
  | update _ children => exact children _ e g hchild

end Careful

/-- The states of all machines have names. -/
def NamesStates (r : Registry) : Prop :=
  ∀ n d m, Record.get? r.descriptors n = some d → d.machine = some m → m.Named

end Registry

/-- A state that is put in removes nothing. -/
theorem Descriptor.Moved.removes {d : Descriptor} {fs fs' : Document} (h : d.Moved fs fs')
    (hnamed : ∀ m, d.machine = some m → m.Named) {key : String} (hremoves : d.Removes fs' key) :
    d.Removes fs key := by
  rcases h with rfl | ⟨v, ⟨m, hm, hv⟩, rfl⟩
  · exact hremoves
  obtain ⟨f, hf, hnullable, hkey, hnull⟩ := hremoves
  refine ⟨f, hf, hnullable, hkey, ?_⟩
  rw [Record.get?_put] at hnull
  split at hnull
  · obtain ⟨s, rfl, -⟩ := (hnamed m hm).entered hv
    cases hnull
  · exact hnull

/-- What is removed was asked to be. -/
theorem Assembled.removes {r : Registry} {P : OfParts} {d : Descriptor} {link : Option ParentLink}
    {args : Document} {taken : List FieldDef} {made : Materialized}
    (h : Assembled r P d link args taken made) {key : String} (hkey : key ∈ made.unset) :
    d.Removes args key := by
  obtain ⟨f, hf, -, hnullable, rfl, hnull⟩ := h.unset key hkey
  exact ⟨f, hf, hnullable, rfl, hnull⟩

/-! ## Making documents -/

/-- What is held stays so when a new document gets its state and its identifier. -/
theorem Held.filed {d : Descriptor} (hnamed : ∀ m, d.machine = some m → m.Named) {made : Document}
    {key : String} (h : Held (Record.get? made key)) (m : MemoryStore) :
    Held (Record.get? (m.filed (Executor.inFirstState d made)) key) := by
  have hfirst : Held (Record.get? (Executor.inFirstState d made) key) := by
    unfold Executor.inFirstState
    split
    · rename_i machine hmachine
      obtain ⟨s, hs, -⟩ := (hnamed machine hmachine).initial
      exact h.put (by rw [hs]; simp)
    · exact h
  unfold MemoryStore.filed
  split
  · exact hfirst
  · exact hfirst.put (by simp)

/-- **What an update lays over a document** is made from arguments that mend it. -/
theorem Materializer.moves_materialize_mending {m : Materializer τ S} (hm : m.LeavesDocuments)
    {has : FieldDef → Prop} {d : Descriptor} {fs : Document} (hmends : m.registry.Mends has d fs)
    {link : Option ParentLink} (hlink : ∀ l, link = some l → l.2.isKey = true ∧ l.2 ≠ .null) :
    Moves (fun _ _ => True)
      (Assembled m.registry (m.registry.Laid (Descriptor.Fills FieldDef.documentKey Held)
        (fun _ _ => True) has) d link fs d.entity.fields)
      (m.materialize d.entity link (.object fs)) := by
  have hnone : ∀ l, (none : Option ParentLink) = some l → l.2.isKey = true ∧ l.2 ≠ .null :=
    fun _ h => by cases h
  refine moves_materialize_assembled hm (fun f e g hpart => ?_) hlink
  rcases hmends f e g hpart with hsupplies | ⟨hhas, hparts⟩
  · refine (moves_materialize_whole hm hsupplies hnone).mono (fun _ _ => id) fun made hmade => ?_
    exact ⟨hmade.2, trivial, hmade.1.parts, .inl hmade.1.here⟩
  · refine (moves_materialize_assembled (Q := fun _ e inner => m.registry.Whole e inner ∧
      Neat inner) hm (fun f' e' g' hpart' =>
      moves_materialize_whole hm (hparts f' e' g' hpart') hnone) hnone).mono (fun _ _ => id)
        fun made hmade => ?_
    exact ⟨hmade.neat, trivial, fun f' e' inner hpart' => (hmade.parts f' e' inner hpart').1,
      .inr hhas⟩

/-! ## Upkeep -/

namespace Executor.Bare

variable {p : τ → MemoryStore} {x : Executor τ SessionId} {has : Objects} {d : Descriptor}
  {link : Option ParentLink} {fs fs' : Document} {o : ObjectId}

/-- **Whole documents are made** from careful additions. -/
theorem moves_materialize_filed (h : x.Bare p) (hbuilt : x.registry.Built)
    (hnamed : x.registry.NamesStates)
    (hw : x.registry.Writable (x.registry.Careful has .create) .add d link fs) (s : SessionId) :
    Moves (fun _ _ => True)
      (fun made => ∀ m : MemoryStore, x.registry.Whole d (m.filed (inFirstState d made.document)))
      ((x.materializer .create s).materialize d.entity link (.object fs)) := by
  have hsupplies := hw.accepted.supplies hbuilt hw.known.1 hw.suitable.spares
  refine (Materializer.moves_materialize_whole (h.leavesDocuments .create) hsupplies
    (h.linked_value hw.linked)).mono (fun _ _ => id) fun made hmade m => ?_
  exact .intro (fun f hf => (hmade.1.here f hf).filed (hnamed _ _ · hw.known.1) m)
    fun f e inner hpart => hmade.1.parts f e inner (h.part_of_filed hw.known m hpart)

/-- **Careful updates** leave whole documents whole. -/
theorem whole_applyUpdate (h : x.Bare p) (hnamed : x.registry.NamesStates)
    (hhas : ∀ f, has d o f → f ∈ d.entity.fields ∧ f.kind = .ok .embeddedObject)
    (hw : x.registry.Writable (x.registry.Careful has .update) .update d link fs)
    (hmoved : d.Moved fs fs') (hnames : NamesDocument (.object fs) o) {made : Materialized}
    (hmade : Assembled x.registry (x.registry.Laid (Descriptor.Fills FieldDef.documentKey Held)
      (fun _ _ => True) (has d o)) d link fs' d.entity.fields made) :
    made.Revises d fun doc => x.registry.Whole d doc ∧ has.Found d o (some doc) := by
  rintro current before changes after ⟨hcurrent, hfound⟩ ⟨hbefore, hfound'⟩ hmerge hupdate
  have hmending := hw.suitable.mending
  have hkeys := h.isSegment_keys hw.known
  have hlink := h.isSegment_link hw.linked
  have hkept : ∀ key, ¬ d.Removes fs key → key ∉ made.unset := fun key hnot hkey =>
    hnot (hmoved.removes (hnamed _ _ · hw.known.1) (hmade.removes hkey))
  have hobject : ∀ {doc}, has.Found d o (some doc) → ∀ f, has d o f →
      ∃ old, Record.get? doc f.name = some (.object old) := fun hfound f hf => by
    obtain ⟨_, old, heq, hold⟩ := hfound f hf
    cases heq
    exact ⟨old, hold⟩
  refine ⟨.intro (fun f hf => ?_) ?_, fun f hf => ?_⟩
  · exact hmade.held_applyUpdate hmerge (hkept _ (hmending.required f hf))
      (hbefore.here f hf) hupdate
  · exact hmade.parts_applyUpdate hmerge hkeys hlink hupdate (fun e old new hold hneat _ =>
      e.fills_merge hold hneat) (hobject hfound) hcurrent.parts hbefore.parts
  · obtain ⟨hmem, hk⟩ := hhas f hf
    obtain ⟨new, hnew⟩ := hmade.object_applyUpdate hmerge hkeys hlink hupdate hmem hk
      (hkept _ (hmending.objects o hnames f hf)) (hobject hfound f hf) (hobject hfound' f hf)
    exact ⟨_, new, rfl, hnew⟩

/-- **Wholeness is kept** by careful writes. -/
theorem upkeep_whole (h : x.Bare p) (hbuilt : x.registry.Built) (hnamed : x.registry.NamesStates)
    (hhas : ∀ d, x.registry.Knows d → ∀ o f, has d o f →
      f ∈ d.entity.fields ∧ f.kind = .ok .embeddedObject) :
    x.Upkeep p x.registry.Whole has.Found (x.registry.Careful has .create)
      (x.registry.Careful has .update) where
  toBare := h
  children := fun d fs hcareful f hf delta hdelta e he => by
    rcases hcareful with hcareful | hcareful <;>
      exact ⟨fun g hg => hcareful.child (.added hf hdelta he hg), fun g hg =>
      hcareful.child (.updated hf hdelta he hg)⟩
  create := fun d link fs s hw => h.moves_materialize_filed hbuilt hnamed hw s
  fresh := fun d o doc hnone f hf => by
    obtain ⟨_, _, heq, -⟩ := hnone f hf
    cases heq
  update := fun d link fs fs' o s hw hmoved hnames => by
    have hmends : x.registry.Mends (has d o) d fs' := fun f e inner hpart =>
      hw.suitable.mending.parts o hnames f e inner (h.part_moved hw.known hmoved hpart)
    exact (Materializer.moves_materialize_mending (h.leavesDocuments .update) hmends
      (h.linked_value hw.linked)).mono (fun _ _ => id) fun made hmade =>
      h.whole_applyUpdate hnamed (hhas d hw.known o) hw hmoved hnames hmade

end Executor.Bare

/-! ## Careful calls -/

namespace Dispatcher

variable {x : Dispatcher τ SessionId} {c : Component τ MemoryStore}

/-- **A careful call**, where `has` says which objects its updates count on: these are in the
committed documents, and the arguments of the call are careful. -/
structure CarefulCall (x : Dispatcher τ SessionId) (c : Component τ MemoryStore) (has : Objects)
    (t : τ) (name : String) (q : Call) : Prop where
  fields : ∀ d, x.executor.registry.Knows d → ∀ o f, has d o f →
    f ∈ d.entity.fields ∧ f.kind = .ok .embeddedObject
  found : ∀ d, x.executor.registry.Knows d → ∀ o,
    has.Found d o (((c.get t).collections.get d.collection).get? (.id o))
  arguments : ∀ ep fs, Record.get? x.endpoints name = some ep → callArguments q.args = .ok fs →
    x.Suits (x.executor.registry.Careful has .create)
    (x.executor.registry.Careful has .update) ep fs

/-- **Required values are kept.** Whatever was called with care before, and whatever failures were
injected: every committed document holds a value other than null for each of its required fields,
and so does every object and every item of a list that it embeds, at any depth. -/
theorem keeps_required (h : x.Bare c) (hnamed : x.executor.registry.NamesStates) {t : τ}
    (ht : x.Led c (fun t name q => ∃ has, x.CarefulCall c has t name q) t) {d : Descriptor}
    (hd : x.executor.registry.Knows d) {doc : Document}
    (hdoc : doc ∈ (c.get t).documents d.collection) {e : Descriptor} {inner : Document}
    (hin : x.executor.registry.Within d doc e inner) {f : FieldDef} (hf : e.Requires f) :
    Held (Record.get? inner f.documentKey) := by
  have hall := ht.allAre h fun t name q hcareful hall => by
    obtain ⟨has, hcareful⟩ := hcareful
    exact allAre_call h (h.executor.upkeep_whole h.built hnamed hcareful.fields) ⟨hall,
      hcareful.found⟩ name q hcareful.arguments
  obtain ⟨entry, hentry, rfl⟩ := List.mem_map.1 hdoc
  exact (hall.documents d hd entry hentry).within hin f hf

end Dispatcher

/-! ## A service of crates -/

/-- The label of a parcel is required. -/
def labelField : FieldDef := ⟨"label", .scalar .string, false, false, false, false, none, .null⟩

/-- A parcel has a label, and perhaps a note. -/
def parcel : Entity where
  name := "Parcel"
  fields := [labelField, textField "note"]
  description := .null
  names_nodup := by decide

/-- The field that holds a parcel. -/
def parcelField : FieldDef :=
  ⟨"parcel", .entity "Parcel", false, true, false, false, some ⟨true, "", .null⟩, .null⟩

/-- A crate may hold a parcel. -/
def crate : Entity where
  name := "Crate"
  fields := [⟨"id", .scalar .id, false, true, false, false, none, .null⟩, parcelField]
  description := .null
  names_nodup := by decide

/-- The entities of the service. -/
def depotEntities : Registry :=
  ⟨[("Parcel", ⟨parcel, "Parcel", none, none, none, false, none, []⟩),
    ("Crate", ⟨crate, "crates", some "crate", some "crates", none, true, none, []⟩)], [], false⟩

/-- The registry of the service. -/
def depotRegistry : Registry := (Registry.finalize.run.run depotEntities).2

/-- A service of crates. -/
def depot : Dispatcher MemoryStore SessionId where
  executor := {
    registry := depotRegistry
    behaviour := ⟨fun _ => .none, fun _ _ _ => throw .illTyped⟩
    store := MemoryStore.documentStore.within ⟨id, fun m _ => m⟩
    policy := ⟨2, fun n => .ok (.whole n), fun _ => pure (), Nat.two_pos⟩ }
  endpoints := (Endpoint.table .everything depotRegistry).toOption.getD []
  middleware := []
  defaultLimit := 10

/-- A crate is added with a parcel in it. -/
def addCrate : Call := ⟨.object [("parcel", .object [("label", .text "Maps")])], []⟩

/-- A crate is added with nothing in it. -/
def addEmptyCrate : Call := ⟨.object [], []⟩

/-- A note is put on the parcel in the crate. -/
def noteParcel : Call :=
  ⟨.object [("id", .id (.ofNat 1)), ("parcel", .object [("note", .text "Keep dry")])], []⟩

/-- The store after the crate was added. -/
def afterCrate : MemoryStore := ((depot.call "addCrate").run.run (.empty, addCrate)).2.1

/-- The store after a note was put on the parcel. -/
def afterNote : MemoryStore := ((depot.call "updateCrate").run.run (afterCrate, noteParcel)).2.1

/-- The store after the empty crate was added. -/
def afterEmptyCrate : MemoryStore := ((depot.call "addCrate").run.run (.empty, addEmptyCrate)).2.1

/-- The store after a note was put into the empty crate. -/
def afterNoteAlone : MemoryStore :=
    ((depot.call "updateCrate").run.run (afterEmptyCrate, noteParcel)).2.1

/-- The entities that the registry knows. -/
theorem depot_descriptor {n : String} {d : Descriptor}
    (h : Record.get? depotRegistry.descriptors n = some d) :
    (n = "Parcel" ∧ d.entity = parcel ∧ d.hasEndpoints = false ∨
      n = "Crate" ∧ d.entity = crate ∧ d.collection = "crates" ∧ d.hasEndpoints = true) ∧
        d.machine = none := by
  obtain ⟨p, q, hdescriptors⟩ : ∃ p q, depotRegistry.descriptors = [
      ("Parcel", ⟨parcel, "Parcel", none, none, none, false, p, []⟩),
      ("Crate", ⟨crate, "crates", some "crate", some "crates", none, true, q, []⟩)] := ⟨_, _, rfl⟩
  have hmem := Record.mem_of_get?_eq_some h
  rw [hdescriptors] at hmem
  rcases List.mem_cons.1 hmem with hmem | hmem
  · cases hmem
    exact ⟨.inl ⟨rfl, rfl, rfl⟩, rfl⟩
  · cases List.mem_singleton.1 hmem
    exact ⟨.inr ⟨rfl, rfl, rfl, rfl⟩, rfl⟩

/-- Crates have a collection. -/
theorem depot_crate {d : Descriptor} (h : depotRegistry.Knows d) :
    d.entity = crate ∧ d.collection = "crates" := by
  rcases (depot_descriptor h.1).1 with ⟨-, -, hnone⟩ | ⟨-, hentity, hcollection, -⟩
  · rw [h.2] at hnone
    cases hnone
  · exact ⟨hentity, hcollection⟩

theorem depot_built : depotRegistry.Built := by
  have hparcel : Registry.empty.addEmbedded parcel =
    .ok ⟨depotEntities.descriptors.take 1, [], false⟩ := rfl
  have hcrate : Registry.connect ⟨depotEntities.descriptors.take 1, [], false⟩ crate
      ⟨some "crates", none, none, none⟩ = .ok depotEntities := rfl
  exact .finalize (.connect (.embed .empty hparcel) hcrate)

theorem depot_bare : depot.Bare ⟨id, fun m _ => m⟩ where
  component := fun _ _ => rfl
  store := rfl
  sleep := fun _ _ => rfl
  validates := fun _ => EntityBehaviour.validates_none _
  noMutations := rfl
  middleware := rfl
  built := depot_built
  storable := .of_fields (parcel.fields ++ crate.fields) (fun n d hd => by
    obtain ⟨⟨-, hentity, -⟩ | ⟨-, hentity, -⟩, hmachine⟩ := depot_descriptor hd <;> rw [hentity]
    · exact ⟨fun f => List.mem_append_left _, hmachine⟩
    · exact ⟨fun f => List.mem_append_right _, hmachine⟩) (by unfold IsSegment; decide)
  apart := fun d e hd he _ => hd.eq_of_name he (by
    rw [Descriptor.name, Descriptor.name, (depot_crate hd).1, (depot_crate he).1])

/-- Where crates have parcels, the entity of the parcels is found. -/
theorem depot_part {d e : Descriptor} (hd : d.entity = crate) {fs inner : Document} {f : FieldDef}
    (h : depotRegistry.Part d fs f e inner) :
    f = parcelField ∧ e.entity = parcel ∧ Record.get? fs "parcel" = some (.object inner) := by
  have hf := h.mem
  rw [hd] at hf
  simp only [crate, List.mem_cons, List.not_mem_nil, or_false] at hf
  rcases hf with rfl | rfl
  · cases h.plain
  · have hfound := h.lookup
    rw [Registry.lookup] at hfound
    split at hfound <;> cases hfound
    rename_i hget
    obtain ⟨-, hentity, -⟩ | ⟨hname, -⟩ := (depot_descriptor hget).1
    · cases h with
      | object _ _ _ _ h => exact ⟨rfl, hentity, h⟩
      | item _ _ hk _ _ _ => cases hk
    · exact absurd hname (by decide)

/-- Parcels have no parts. -/
theorem parcel_part {e e' : Descriptor} (he : e.entity = parcel) {fs inner : Document}
    {f : FieldDef} :
    ¬ depotRegistry.Part e fs f e' inner := fun h => by
  have hf := h.mem
  rw [he] at hf
  simp only [parcel, List.mem_cons, List.not_mem_nil, or_false] at hf
  rcases hf with rfl | rfl <;> cases h with
    | object _ _ hk _ _ => cases hk
    | item _ _ hk _ _ _ => cases hk

/-- Of a crate nothing is required. -/
theorem crate_requires {d : Descriptor} (hd : d.entity = crate) {f : FieldDef} : ¬ d.Requires f :=
    fun h => by
  obtain ⟨hf, hrequired⟩ := h
  rw [hd] at hf
  simp only [crate, List.mem_cons, List.not_mem_nil, or_false] at hf
  rcases hf with rfl | rfl <;> cases hrequired.strict

/-- Of a parcel the label is required. -/
theorem parcel_requires {e : Descriptor} (he : e.entity = parcel) {f : FieldDef} :
    e.Requires f ↔ f = labelField := by
  refine ⟨fun ⟨hf, hrequired⟩ => ?_, ?_⟩
  · rw [he] at hf
    simp only [parcel, List.mem_cons, List.not_mem_nil, or_false] at hf
    rcases hf with rfl | rfl
    · rfl
    · cases hrequired.strict
  · rintro rfl
    refine ⟨?_, ⟨rfl, fun hstate => absurd hstate.2 (by decide)⟩, rfl, rfl, .inl rfl⟩
    rw [he]
    exact List.mem_cons_self ..

/-- Crates have no children. -/
theorem crate_child {d e : Descriptor} (hd : d.entity = crate) {fs g : Document}
    {operation : Operation} :
    ¬ depotRegistry.Child d fs operation e g := fun h => by
  obtain ⟨f, delta, hf, hdelta⟩ :
    ∃ f delta, f ∈ d.entity.fields ∧ deltaOf? f (.object fs) = some delta := by
    cases h with
    | added hf hdelta _ _ => exact ⟨_, _, hf, hdelta⟩
    | updated hf hdelta _ _ => exact ⟨_, _, hf, hdelta⟩
  have hlist := isReferencedList_of_deltaOf? hdelta
  rw [hd] at hf
  simp only [crate, List.mem_cons, List.not_mem_nil, or_false] at hf
  rcases hf with rfl | rfl <;> cases hlist

/-- The crate and its parcel are added with care. -/
theorem addCrate_careful :
    depot.CarefulCall ⟨id, fun m _ => m⟩ (fun _ _ _ => False) .empty "addCrate" addCrate where
  fields := fun _ _ _ _ hfalse => hfalse.elim
  found := fun _ _ _ _ hfalse => hfalse.elim
  arguments := fun ep fs hep hfs => by
    have hadd : Record.get? depot.endpoints "addCrate" =
      some ⟨"addCrate", .save, some "Crate", none⟩ := rfl
    obtain rfl := Option.some.inj (hadd.symm.trans hep)
    cases hfs
    refine ⟨fun _ d hd _ _ => ?_, fun hk => by rcases hk with hk | hk <;> cases hk⟩
    have hcrate := (depot_crate hd).1
    refine .create (.intro (fun f hf => absurd hf (crate_requires hcrate)) fun f e inner hpart =>
      ?_) fun _ _ _ hchild => absurd hchild (crate_child hcrate)
    obtain ⟨-, hparcel, hget⟩ := depot_part hcrate hpart
    cases hget
    refine .intro (fun f hf => ?_) fun f e inner hpart => absurd hpart (parcel_part hparcel)
    obtain rfl := (parcel_requires hparcel).1 hf
    exact fun hblank => absurd hblank (by simp [labelField, Record.get?])

/-- The parcel in the crate. -/
def cratesParcel : Objects := fun _ o f => o = .ofNat 1 ∧ f = parcelField

/-- The note is put with care on the parcel in the crate. -/
theorem noteParcel_careful :
    depot.CarefulCall ⟨id, fun m _ => m⟩ cratesParcel afterCrate "updateCrate" noteParcel where
  fields := by
    rintro d hd o f ⟨-, rfl⟩
    rw [(depot_crate hd).1]
    exact ⟨List.mem_cons_of_mem _ (List.mem_singleton_self _), rfl⟩
  found := by
    rintro d hd o f ⟨rfl, rfl⟩
    have hstored : (afterCrate.collections.get "crates").get? (.id (.ofNat 1)) =
        some [("parcel", .object [("label", .text "Maps")]), ("_id", .id (.ofNat 1))] := by cbv
    rw [(depot_crate hd).2]
    exact ⟨_, _, hstored, rfl⟩
  arguments := fun ep fs hep hfs => by
    have hupdate : Record.get? depot.endpoints "updateCrate" =
      some ⟨"updateCrate", .update, some "Crate", none⟩ := rfl
    obtain rfl := Option.some.inj (hupdate.symm.trans hep)
    cases hfs
    refine ⟨fun hk => (by cases hk), fun _ d hd _ _ => ?_⟩
    have hcrate := (depot_crate hd).1
    refine .update ⟨fun f hf => absurd hf (crate_requires hcrate), ?_, ?_⟩
      fun _ _ _ hchild => absurd hchild (crate_child hcrate)
    · rintro o ⟨_, ⟨⟩, ⟨⟩⟩ f e inner hpart
      obtain ⟨rfl, hparcel, hget⟩ := depot_part hcrate hpart
      exact .inr ⟨⟨rfl, rfl, rfl⟩, fun _ _ _ hpart => absurd hpart (parcel_part hparcel)⟩
    · rintro o - f ⟨-, rfl⟩ ⟨g, hg, -, -, hnull⟩
      rw [hcrate] at hg
      simp only [crate, List.mem_cons, List.not_mem_nil, or_false] at hg
      rcases hg with rfl | rfl <;> cases hnull

theorem depot_namesStates : depotRegistry.NamesStates := fun n d m hd hm => by
  rw [(depot_descriptor hd).2] at hm
  cases hm

/-- The entity of crates, and that of the parcels in them. -/
theorem exists_crate :
    ∃ d e, depotRegistry.Knows d ∧ depotRegistry.lookup "Parcel" = .ok e ∧ e.entity = parcel := by
  obtain ⟨d, hd⟩ : ∃ d, Record.get? depotRegistry.descriptors "Crate" = some d := ⟨_, rfl⟩
  obtain ⟨e, he⟩ : ∃ e, depotRegistry.lookup "Parcel" = .ok e := ⟨_, rfl⟩
  obtain ⟨⟨hname, -⟩ | ⟨-, hcrate, -, hendpoints⟩, -⟩ := depot_descriptor hd
  · exact absurd hname (by decide)
  obtain ⟨hget, hname⟩ := depot_built.shaped.get?_of_lookup he
  refine ⟨d, e, ⟨by rwa [Descriptor.name, hcrate], hendpoints⟩, he, ?_⟩
  obtain ⟨⟨-, hparcel, -⟩ | ⟨hother, -⟩, -⟩ := depot_descriptor hget
  · exact hparcel
  · exact absurd (hname.symm.trans hother) (by decide)

/-- The object under the field of a crate is in the crate. -/
theorem within_crate {d e : Descriptor} (hd : d.entity = crate)
    (he : depotRegistry.lookup "Parcel" = .ok e) {fs inner : Document}
    (h : Record.get? fs "parcel" = some (.object inner)) : depotRegistry.Within d fs e inner := by
  refine .part (f := parcelField) (.object ?_ rfl rfl he h) .here
  rw [hd]
  exact List.mem_cons_of_mem _ (List.mem_singleton_self _)

/-- The parcel with the note has its label. -/
theorem depot_keeps_label : ∃ doc ∈ afterNote.documents "crates", ∃ inner,
    Record.get? doc "parcel" = some (.object inner) ∧ Held (Record.get? inner "label") := by
  obtain ⟨d, e, hd, hparcel, he⟩ := exists_crate
  obtain ⟨hcrate, hcollection⟩ := depot_crate hd
  have hled : depot.Led ⟨id, fun m _ => m⟩
      (fun t name q => ∃ has, depot.CarefulCall ⟨id, fun m _ => m⟩ has t name q) afterNote :=
    .call (.call (.start fun _ => rfl) "addCrate" addCrate ⟨_, addCrate_careful⟩)
      "updateCrate" noteParcel ⟨_, noteParcel_careful⟩
  have hstored : afterNote.documents "crates" = [[("parcel", .object [("label", .text "Maps"),
      ("note", .text "Keep dry")]), ("_id", .id (.ofNat 1))]] := by cbv
  have hdoc : [("parcel", Value.object [("label", .text "Maps"), ("note", .text "Keep dry")]),
      ("_id", .id (.ofNat 1))] ∈ afterNote.documents d.collection := by
    rw [hcollection, hstored]
    exact List.mem_singleton_self _
  refine ⟨_, hcollection ▸ hdoc, _, rfl, ?_⟩
  exact Dispatcher.keeps_required depot_bare depot_namesStates hled hd hdoc
    (within_crate hcrate hparcel rfl) ((parcel_requires he).2 rfl)

/-- **A note for a parcel that is not there.** The update takes it for the parcel of the crate, and
the label, which is required of parcels, is missing. -/
theorem depot_keeps_part : depot.Bare ⟨id, fun m _ => m⟩ ∧ depotRegistry.NamesStates ∧
    depot.Led ⟨id, fun m _ => m⟩ (fun _ _ _ => True) afterNoteAlone ∧
    ∃ d e, depotRegistry.Knows d ∧ ∃ doc ∈ afterNoteAlone.documents d.collection, ∃ inner,
      depotRegistry.Within d doc e inner ∧ ∃ f, e.Requires f ∧
        ¬ Held (Record.get? inner f.documentKey) := by
  obtain ⟨d, e, hd, hparcel, he⟩ := exists_crate
  obtain ⟨hcrate, hcollection⟩ := depot_crate hd
  have hstored : afterNoteAlone.documents "crates" =
      [[("_id", .id (.ofNat 1)), ("parcel", .object [("note", .text "Keep dry")])]] := by cbv
  refine ⟨depot_bare, depot_namesStates,
    .call (.call (.start fun _ => rfl) "addCrate" addEmptyCrate trivial) "updateCrate" noteParcel
    trivial, d, e, hd, [("_id", .id (.ofNat 1)), ("parcel", .object
      [("note", .text "Keep dry")])], ?_, _, within_crate hcrate hparcel rfl, labelField,
    (parcel_requires he).2 rfl, ?_⟩
  · rw [hcollection, hstored]
    exact List.mem_singleton_self _
  · rintro ⟨v, hv, -⟩
    cases hv

end EntityGraph
