import EntityGraph.Proofs.Refusals
import EntityGraph.Proofs.Revisions
import EntityGraph.Proofs.States

/-!
# Documents over whole runs

What is true of every document of an entity when it is made, and stays true when the document is
updated, is true of every document that is ever committed (`Dispatcher.documents_call`). What an
update keeps may depend on what is stored before the call under the identifiers that the call names;
so the invariant of a session says two things (`Registry.Stores`): `Q` of every document of an
entity, and `P` of what is found under an identifier.

A service whose user code only validates is `Executor.Bare`. What its documents are to keep are
rules for single writes (`Executor.Upkeep`): they are followed through the tree of a write inside a
session, from there through the attempt that is committed, and through the call.
-/

namespace EntityGraph

open MemoryStore (Quiet Wrote applyUpdate)

variable {τ α : Type}

/-! ## Invariants of a part of the state -/

/-- An action that acts on a part of its state keeps what the part's action keeps. -/
theorem ActsOn.keeps {σ : Type} {p : τ → σ} {a : Action τ α} {b : Action σ α} (h : ActsOn p a b)
    {I : σ → Prop} {Q : α → Prop} (hb : Keeps I Q b) : Keeps (fun t => I (p t)) Q a := by
  intro t ht
  obtain ⟨h₁, h₂⟩ := h t
  dsimp only
  rw [h₁, h₂]
  exact hb (p t) ht

namespace Keeps

variable {σ β : Type} {I : σ → Prop} {Q : α → Prop}

/-- Movements that keep `I` are invariance. -/
theorem of_moves {a : Action σ α} (h : Moves (fun t t' => I t → I t') Q a) : Keeps I Q a :=
  fun t ht => ⟨(h t).1 ht, (h t).2⟩

theorem moves {a : Action σ α} (h : Keeps I Q a) :
    Moves (fun t t' => I t → I t') (fun _ => True) a :=
  fun t => ⟨fun ht => (h t ht).1, fun _ _ => trivial⟩

theorem mono {Q' : α → Prop} {a : Action σ α} (h : Keeps I Q a) (hQ : ∀ v, Q v → Q' v) :
    Keeps I Q' a :=
  fun t ht => ⟨(h t ht).1, fun v hv => hQ v ((h t ht).2 v hv)⟩

theorem lift_bind {Q' : β → Prop} {o : Outcome α} {f : α → Action σ β}
    (hf : ∀ v, o = .ok v → Keeps I Q' (f v)) :
    Keeps I Q' (liftM o >>= f) := by
  intro t ht
  rcases o with e | v
  · exact throw e t ht
  · exact hf v rfl t ht

theorem guard {c : Prop} [Decidable c] {e : Fault} {f : PUnit → Action σ α}
    (hf : ¬ c → Keeps I Q (f ⟨⟩)) :
    Keeps I Q (if c then MonadExcept.throw e >>= f else f ⟨⟩) := by
  split
  · exact throw e
  · exact hf ‹_›

end Keeps

/-! ## User code that only validates -/

/-- **User code that only validates**: validators accept or raise, leave the store alone and return
documents as they are given; there is nothing else. -/
structure EntityBehaviour.Validates (p : τ → MemoryStore)
    (b : EntityBehaviour τ SessionId) : Prop where
  fieldChecks : ∀ operation f, ∀ check ∈ b.fieldChecks operation f,
    ∀ entity field v s, Moves (fun t t' => p t' = p t) (fun _ => True) (check entity field v s)
  entityChecks : ∀ operation, ∀ check ∈ b.entityChecks operation, ∀ entity args d s,
    Moves (fun t t' => p t' = p t) (fun d' => d' = d) (check entity args d s)
  hooks : b.hooks = .none
  effects : ∀ action, b.effect? action = Option.none

theorem EntityBehaviour.Validates.onlyChecks {p : τ → MemoryStore} {b : EntityBehaviour τ SessionId}
    (h : b.Validates p) : b.OnlyChecks p where
  fieldChecks := h.fieldChecks
  entityChecks := fun operation check hcheck entity args d s =>
    (h.entityChecks operation check hcheck entity args d s).mono (fun _ _ => id) fun _ heq _ hw =>
      heq ▸ hw
  hooks := h.hooks
  effects := h.effects

theorem EntityBehaviour.validates_none (p : τ → MemoryStore) :
    (EntityBehaviour.none : EntityBehaviour τ SessionId).Validates p :=
  ⟨fun _ _ _ h => absurd h List.not_mem_nil, fun _ _ h => absurd h List.not_mem_nil, rfl, fun _ =>
    rfl⟩

/-! ## What collections store -/

/-- Every document of an entity is as `Q` says. -/
structure Registry.AllAre (r : Registry) (Q : Descriptor → Document → Prop)
    (cs : Collections) : Prop where
  distinct : cs.Distinct
  documents : ∀ d, r.Knows d → ∀ e ∈ cs.get d.collection, Q d e.2

/-- Every document of an entity is as `Q` says, and what is found under an identifier is as `P`
says. -/
structure Registry.Stores (r : Registry) (Q : Descriptor → Document → Prop)
    (P : Descriptor → ObjectId → Option Document → Prop)
    (cs : Collections) : Prop extends r.AllAre Q cs where
  found : ∀ d, r.Knows d → ∀ o, P d o ((cs.get d.collection).get? (.id o))

/-- Entities with a collection have one of their own. -/
def Registry.Apart (r : Registry) : Prop :=
  ∀ d e, r.Knows d → r.Knows e → d.collection = e.collection → d = e

/-- Entities without states can be stored when their fields can. -/
theorem Registry.Storable.of_fields {r : Registry} (fields : List FieldDef)
    (h : ∀ n d, Record.get? r.descriptors n = some d → (∀ f ∈ d.entity.fields, f ∈ fields) ∧
      d.machine = none)
    (hkeys : ∀ f ∈ fields, IsSegment f.name ∧ IsSegment f.connectionField ∧ f.storedKey ≠ "_id" ∧
      f.name ≠ "_id" ∧
      f.connectionField ≠ "_id") : r.Storable where
  fields := fun n d hd f hf => by
    obtain ⟨hname, hconnection, hkey, hvalue, hlink⟩ := hkeys f ((h n d hd).1 f hf)
    exact ⟨hname, hconnection, hkey, fun _ => hvalue, fun _ => hlink⟩
  states := fun n d hd hmachine _ _ _ => by
    rw [(h n d hd).2] at hmachine
    cases hmachine

theorem Registry.Knows.eq_of_name {r : Registry} {d e : Descriptor} (hd : r.Knows d)
    (he : r.Knows e) (h : d.name = e.name) : d = e := by
  have hget := hd.1
  rw [h, he.1] at hget
  exact (Option.some.inj hget).symm

namespace Registry

variable {r : Registry} {Q : Descriptor → Document → Prop}
  {P : Descriptor → ObjectId → Option Document → Prop} {cs : Collections} {d : Descriptor}
  {doc : Document}

theorem AllAre.of_get? (h : r.AllAre Q cs) (hd : r.Knows d) {id : Value}
    (hdoc : (cs.get d.collection).get? id = some doc) : Q d doc := by
  obtain ⟨k, hm, -⟩ := Collection.exists_mem_of_get? hdoc
  exact h.documents d hd _ hm

theorem AllAre.empty (hcs : ∀ name, cs.get name = []) : r.AllAre Q cs where
  distinct := fun name => by
    rw [hcs]
    exact Collection.distinct_nil
  documents := fun d _ e he => by
    rw [hcs] at he
    cases he

/-- Filing a document that is as it should be. -/
theorem AllAre.put (h : r.AllAre Q cs) (hapart : r.Apart) (hd : r.Knows d) (id : Value)
    (hQ : Q d doc) :
    r.AllAre Q (cs.after ⟨d.collection, id, some doc⟩) where
  distinct := MemoryStore.distinct_writeTo h.distinct _ _ _
  documents := fun e he entry hentry => by
    rw [Collections.after] at hentry
    by_cases hc : d.collection = e.collection
    · obtain rfl := hapart d e hd he hc
      rw [MemoryStore.get_writeTo_some] at hentry
      rcases Collection.mem_put hentry with hold | hnew
      · exact h.documents d hd entry hold
      · rw [hnew]
        exact hQ
    · rw [MemoryStore.get_writeTo_of_ne hc] at hentry
      exact h.documents e he entry hentry

theorem AllAre.shrinks {cs' : Collections} (h : r.AllAre Q cs) (hs : Collections.Shrinks cs cs') :
    r.AllAre Q cs' where
  distinct := (hs h.distinct).1
  documents := fun d hd e he => h.documents d hd e (((hs h.distinct).2 d.collection).1.subset he)

/-- A write to a document, when what is found afterwards under its identifier is as it should be. -/
theorem Stores.put (h : r.Stores Q P cs) (hapart : r.Apart) (hd : r.Knows d) {id : Value}
    (hkey : id.isKey = true) (hQ : Q d doc) (hP : ∀ o, id = .id o → P d o (some doc)) :
    r.Stores Q P (cs.after ⟨d.collection, id, some doc⟩) where
  toAllAre := h.toAllAre.put hapart hd id hQ
  found := fun e he o => by
    rw [Collections.after, MemoryStore.get_writeTo h.distinct hkey]
    split
    · rename_i hsame
      obtain rfl := hapart d e hd he hsame.1
      refine hP o ?_
      have heq := hsame.2
      cases id <;> simp_all [Value.eq, Value.eqNumber, Value.number?]
    · exact h.found e he o

end Registry

/-! ## Inside a session -/

/-- The private copy of a session is as `I` says. -/
def InCopy (p : τ → MemoryStore) (s : SessionId) (I : Collections → Prop) (t : τ) : Prop :=
  ∃ tr, (p t).transaction? (some s) = some tr ∧ I tr.working

/-- What an operation does with an open transaction decides what the private copy keeps. -/
theorem keeps_of_open {a : Action MemoryStore α} {s : SessionId} {I : Collections → Prop}
    {Q : α → Prop} (h : ∀ m tr r m', m.transaction? (some s) = some tr → I tr.working →
      a.run.run m = (r, m') →
      (∃ ws, Wrote s ws m m' ∧ I (tr.working.afterAll ws)) ∧ ∀ v, r = .ok v → Q v) :
    Keeps (InCopy id s I) Q a := by
  rintro m ⟨tr, htr, hI⟩
  obtain ⟨⟨ws, hw, hI'⟩, hQ⟩ := h m tr _ _ htr hI rfl
  refine ⟨⟨tr.afterAll ws, ?_, ?_⟩, hQ⟩
  · exact hw.transaction?.trans (congrArg (Option.map (·.afterAll ws)) htr)
  · rwa [Transaction.working_afterAll]

namespace Executor

/-- **A bare service**: it runs on the memory store `p`, its user code only validates, its documents
can be stored, and its entities have collections of their own. -/
structure Bare (x : Executor τ SessionId) (p : τ → MemoryStore) : Prop where
  store : x.store.OnMemory p
  validates : ∀ n, (x.behaviour.entity n).Validates p
  shaped : x.registry.Shaped
  storable : x.registry.Storable
  apart : x.registry.Apart

end Executor

/-- A link that a list of related documents makes. -/
def Registry.LinksChild (r : Registry) (d : Descriptor) (link : Option ParentLink) : Prop :=
  ∀ l, link = some l → ∃ e f o, Record.get? r.descriptors e.name = some e ∧ f ∈ e.entity.fields ∧
    f.kind = .ok .referencedList ∧ f.target = some d.name ∧ l = (f.connectionField, .id o)

theorem Registry.linksChild_none (r : Registry) (d : Descriptor) : r.LinksChild d none :=
    fun _ hl => by cases hl

/-- **Arguments to be written**: the shape of their entity accepts them, and `A` is known of
them. -/
structure Registry.Writable (r : Registry) (A : Descriptor → Document → Prop)
    (ref : String → ShapeRef) (d : Descriptor) (link : Option ParentLink)
    (fs : Document) : Prop where
  known : r.Knows d
  linked : r.LinksChild d link
  accepted : r.Accepts (ref d.name) (.object fs)
  suitable : A d fs

/-- A state that documents of the entity get into. -/
def Descriptor.Enters (d : Descriptor) (v : Value) : Prop :=
  ∃ m, d.machine = some m ∧ v ∈ m.entered

theorem Descriptor.Enters.machine {d : Descriptor} {v : Value} (h : d.Enters v) :
    d.machine.isSome = true := by
  obtain ⟨m, hm, -⟩ := h
  rw [hm]
  rfl

/-- **Arguments of an update**: those that were given, or these with a state put in. -/
def Descriptor.Moved (d : Descriptor) (fs fs' : Document) : Prop :=
  fs' = fs ∨ ∃ v, d.Enters v ∧ fs' = Record.put fs stateField v

/-- A state that is put in leaves the identifier among the arguments. -/
theorem Descriptor.Moved.argument_id {d : Descriptor} {fs fs' : Document} (h : d.Moved fs fs') :
    Executor.argument (.object fs') "id" = Executor.argument (.object fs) "id" := by
  rcases h with rfl | ⟨v, -, rfl⟩
  · rfl
  · rw [Executor.argument, Executor.argument, Record.get?_put, if_neg (by decide)]

/-- **An update that keeps `Q`**: laid over a document, what was made keeps `Q` of this document. -/
def Materialized.Revises (made : Materialized) (d : Descriptor) (Q : Document → Prop) : Prop :=
  ∀ current before changes after, Q current → Q before →
    Executor.mergeEmbedded current d.entity.fields made.document = .ok changes →
    applyUpdate (.object (Executor.updateParts (if changes.isEmpty then none else some changes)
    made.unset)) before =
      .ok after → Q after

theorem FieldDef.Storable.documentKey {f : FieldDef} (h : f.Storable) :
    IsStorable f.documentKey := by
  by_cases hk : f.kind = .ok .referencedObject
  · rw [FieldDef.documentKey_of_reference hk, ← FieldDef.storedKey_of_kind hk]
    exact h.storedKey
  · rw [FieldDef.documentKey_of_ne hk]
    exact ⟨h.name, h.value hk⟩

/-- **Rules of upkeep**: what is made from suitable arguments is as `Q` says, suitable updates keep
`Q` and `P`, and the children among suitable arguments are suitable. -/
structure Executor.Upkeep (x : Executor τ SessionId) (p : τ → MemoryStore)
    (Q : Descriptor → Document → Prop) (P : Descriptor → ObjectId → Option Document → Prop)
    (Adds Changes : Descriptor → Document → Prop) : Prop extends x.Bare p where
  children : ∀ d fs, Adds d fs ∨ Changes d fs → ∀ f ∈ d.entity.fields, ∀ delta,
    deltaOf? f (.object fs) = some delta → ∀ e, x.registry.lookup (f.target.getD "") = .ok e →
      (∀ g, Value.object g ∈ delta.added → Adds e g) ∧ ∀ g, Value.object g ∈ delta.updated →
      Changes e g
  create : ∀ d link fs s, x.registry.Writable Adds .add d link fs →
    Moves (fun _ _ => True) (fun made => ∀ m : MemoryStore,
    Q d (m.filed (Executor.inFirstState d made.document)))
      ((x.materializer .create s).materialize d.entity link (.object fs))
  fresh : ∀ d o doc, P d o none → P d o (some doc)
  update : ∀ d link fs fs' o s, x.registry.Writable Changes .update d link fs → d.Moved fs fs' →
    NamesDocument (.object fs) o →
    Moves (fun _ _ => True) (fun made => made.Revises d fun doc => Q d doc ∧ P d o (some doc))
      ((x.materializer .update s).materialize d.entity link (.object fs'))

namespace Executor

variable {p : τ → MemoryStore} {x : Executor τ SessionId} {s : SessionId}
  {ops : Operations τ SessionId} {Q : Descriptor → Document → Prop}
  {P : Descriptor → ObjectId → Option Document → Prop} {Adds Changes : Descriptor → Document → Prop}

/-- Validators that only validate leave documents alone. -/
theorem leavesDocuments_of_validates (hb : ∀ n, (x.behaviour.entity n).Validates p)
    (operation : Operation) :
    (x.materializer operation s).LeavesDocuments := fun n args d =>
  Moves.foldlM_any (Q := fun d' => d' = d) (fun check hcheck d' hd' =>
    ((hb n).entityChecks operation check hcheck n args d' s).mono (fun _ _ _ => trivial)
      fun _ heq => heq.trans hd') rfl

namespace Bare

/-- Making a document keeps the private copy, whatever is known of it. -/
theorem keeps_materialize (h : x.Bare p) (I : Collections → Prop) {R : Materialized → Prop}
    {operation : Operation} {entity : Entity} {link : Option ParentLink} {args : Value}
    (hmade : Moves (fun _ _ => True) R
      ((x.materializer operation s).materialize entity link args)) :
    Keeps (InCopy p s I) R ((x.materializer operation s).materialize entity link args) := by
  have hstays : ∀ t t', p t' = p t → InCopy p s I t → InCopy p s I t' := fun t t' heq ht => by
    rw [InCopy, heq]
    exact ht
  have hchecked : (x.materializer operation s).Checked fun t t' => InCopy p s I t →
      InCopy p s I t' :=
    checked_of_onlyChecks (fun n => (h.validates n).onlyChecks) hstays (fun _ _ _ h h' =>
      h' ∘ h) operation
  exact (Keeps.of_moves ((Materializer.moves_materialize hchecked entity link args).also
    hmade)).mono fun _ h => h.2

theorem leavesDocuments (h : x.Bare p) (operation : Operation) :
    (x.materializer operation s).LeavesDocuments :=
  leavesDocuments_of_validates h.validates operation

/-- A link of the registry is one to an identifier, under a key that can be stored. -/
theorem linked (h : x.Bare p) {d : Descriptor} {link : Option ParentLink}
    (hlinked : x.registry.LinksChild d link) {l : ParentLink} (hl : link = some l) :
    IsStorable l.1 ∧ ∃ o, l.2 = .id o := by
  obtain ⟨e, f, o, he, hf, hk, -, rfl⟩ := hlinked l hl
  have hfield := h.storable.fields _ _ he f hf
  exact ⟨⟨hfield.connection, hfield.link hk⟩, o, rfl⟩

theorem linked_value (h : x.Bare p) {d : Descriptor} {link : Option ParentLink}
    (hlinked : x.registry.LinksChild d link) (l : ParentLink) (hl : link = some l) :
    l.2.isKey = true ∧ l.2 ≠ .null := by
  obtain ⟨-, o, ho⟩ := h.linked hlinked hl
  rw [ho]
  exact ⟨rfl, by simp⟩

/-- Links are put under single segments. -/
theorem isSegment_link (h : x.Bare p) {d : Descriptor} {link : Option ParentLink}
    (hlinked : x.registry.LinksChild d link) (l : ParentLink) (hl : link = some l) :
    IsSegment l.1 := (h.linked hlinked hl).1.1

/-- Fields are stored under single segments. -/
theorem isSegment_keys (h : x.Bare p) {d : Descriptor} (hd : x.registry.Knows d) (f : FieldDef)
    (hf : f ∈ d.entity.fields) : IsSegment f.documentKey ∧ IsSegment f.storedKey :=
  have hfield := h.storable.fields _ _ hd.1 f hf
  ⟨hfield.documentKey.1, hfield.storedKey.1⟩

/-- What is made for an entity can be stored. -/
theorem moves_materialize_keys (h : x.Bare p) {d : Descriptor} (hd : x.registry.Knows d)
    {link : Option ParentLink} (hlinked : x.registry.LinksChild d link) (operation : Operation)
    (fs : Document) :
    Moves (fun _ _ => True) (fun made => ∀ e ∈ made.document, IsStorable e.1)
      ((x.materializer operation s).materialize d.entity link (.object fs)) := by
  refine (Materializer.moves_materialize_assembled (Q := fun _ _ _ =>
    True) (h.leavesDocuments operation) (fun _ _ _ _ => Moves.any _)
    (h.linked_value hlinked)).mono (fun _ _ => id) fun made hmade e he => ?_
  rcases hmade.entries e he with ⟨f, hf, -, -, -, -, hkey⟩ | hl
  · rw [hkey]
    exact (h.storable.fields _ _ hd.1 f hf).documentKey
  · exact (h.linked hlinked hl).1

/-- Nothing is embedded under the name of the state. -/
theorem name_ne_state (h : x.Bare p) {d : Descriptor} (hd : x.registry.Knows d)
    (hmachine : d.machine.isSome = true) {fs : Document} {f : FieldDef} {e : Descriptor}
    {inner : Document} (hpart : x.registry.Part d fs f e inner) :
    stateField ≠ f.name := fun hname => by
  rcases h.storable.states _ _ hd.1 hmachine f hpart.mem hname.symm with hs | hs <;>
    cases hpart with
    | object _ _ hk _ _ => cases hk.symm.trans hs
    | item _ _ hk _ _ _ => cases hk.symm.trans hs

/-- A state that is put in brings no part. -/
theorem part_put_state (h : x.Bare p) {d : Descriptor} (hd : x.registry.Knows d)
    (hmachine : d.machine.isSome = true) {fs : Document} {v : Value} {f : FieldDef} {e : Descriptor}
    {inner : Document} (hpart : x.registry.Part d (Record.put fs stateField v) f e inner) :
    x.registry.Part d fs f e inner := by
  refine hpart.congr ?_
  rw [Record.get?_put, if_neg (h.name_ne_state hd hmachine hpart)]

theorem part_moved (h : x.Bare p) {d : Descriptor} (hd : x.registry.Knows d) {fs fs' : Document}
    (hmoved : d.Moved fs fs') {f : FieldDef} {e : Descriptor} {inner : Document}
    (hpart : x.registry.Part d fs' f e inner) : x.registry.Part d fs f e inner := by
  rcases hmoved with rfl | ⟨v, hv, rfl⟩
  · exact hpart
  · exact h.part_put_state hd hv.machine hpart

/-- A new document is stored with the parts that it was made with. -/
theorem part_of_filed (h : x.Bare p) {d : Descriptor} (hd : x.registry.Knows d) {made : Document}
    (m : MemoryStore) {f : FieldDef} {e : Descriptor} {inner : Document}
    (hpart : x.registry.Part d (m.filed (inFirstState d made)) f e inner) :
    x.registry.Part d made f e inner := by
  have hfirst : x.registry.Part d (inFirstState d made) f e inner := by
    unfold MemoryStore.filed at hpart
    split at hpart
    · exact hpart
    · exact hpart.of_put rfl
  unfold inFirstState at hfirst
  split at hfirst
  · rename_i machine hmachine
    exact h.part_put_state hd (by rw [hmachine]; rfl) hfirst
  · exact hfirst

/-- A state that is put in changes no list of related documents. -/
theorem deltaOf?_moved (h : x.Bare p) {d : Descriptor} (hd : x.registry.Knows d) {fs fs' : Document}
    (hmoved : d.Moved fs fs') {f : FieldDef} (hf : f ∈ d.entity.fields) :
    deltaOf? f (.object fs') = deltaOf? f (.object fs) := by
  rcases hmoved with rfl | ⟨v, hv, rfl⟩
  · rfl
  unfold deltaOf?
  by_cases hlist : f.isReferencedList = true
  · have hname : stateField ≠ f.name := fun hname => by
      have hk := FieldDef.kind_of_isReferencedList hlist
      rcases h.storable.states _ _ hd.1 hv.machine f hf hname.symm with hs | hs <;>
        cases hk.symm.trans hs
    have hargument : presentArgument? f (.object (Record.put fs stateField v)) =
        presentArgument? f (.object fs) := by
      unfold presentArgument? fieldOf?
      dsimp only
      rw [Record.get?_put, if_neg hname]
    rw [hargument]
  · rw [Bool.eq_false_iff.2 hlist]
    rfl

end Bare

namespace Upkeep

/-- **Creation** of a document that is as it should be. -/
theorem keeps_create (h : x.Upkeep p Q P Adds Changes) {d : Descriptor} (hd : x.registry.Knows d)
    {doc : Document} (hid : IdGiven doc) (hQ : ∀ m : MemoryStore, Q d (m.filed doc)) :
    Keeps (InCopy p s (x.registry.Stores Q P)) (fun stored => ∃ o, documentId stored = .ok (.id o))
      (x.store.create d.collection doc (some s)) := by
  refine (h.store.create _ _ _).keeps (keeps_of_open fun m tr r m' htr hI hr => ?_)
  rcases MemoryStore.run_create htr hr with ⟨⟨e, rfl⟩, hw⟩ | ⟨id, rfl, hfiled, hfree, hw⟩
  · exact ⟨⟨_, hw, hI⟩, fun v hv => by cases hv⟩
  · obtain ⟨o, ho⟩ := MemoryStore.get?_id_filed (m := m) hid
    obtain rfl := Option.some.inj (hfiled.symm.trans ho)
    refine ⟨⟨_, hw, hI.put h.apart hd rfl (hQ m) fun o' ho' => ?_⟩, fun v hv => ?_⟩
    · cases ho'
      exact h.fresh d o _ (hfree ▸ hI.found d hd o)
    · cases hv
      exact ⟨o, by rw [documentId, ho]; rfl⟩

/-- A document that is found is as it should be. -/
theorem keeps_findById (h : x.Upkeep p Q P Adds Changes) {d : Descriptor} (hd : x.registry.Knows d)
    (o : ObjectId) :
    Keeps (InCopy p s (x.registry.Stores Q P))
      (fun found => ∀ current, found = some current → Q d current ∧ P d o (some current))
      (x.store.findById d.collection (.id o) (some s)) := by
  refine (h.store.findById _ _ _).keeps (keeps_of_open fun m tr r m' htr hI hr => ?_)
  rw [MemoryStore.run_findById_id, MemoryStore.view, htr] at hr
  cases hr
  refine ⟨⟨[], Wrote.refl s m, hI⟩, fun found hfound current hcurrent => ?_⟩
  rw [hcurrent] at hfound
  have hget := Except.ok.inj hfound
  exact ⟨hI.of_get? hd hget, hget ▸ hI.found d hd o⟩

/-- **The end of an update** that keeps what is asked of its document. -/
theorem keeps_revise (h : x.Upkeep p Q P Adds Changes) {d : Descriptor} (hd : x.registry.Knows d)
    {rawId : Value} {o : ObjectId} {made : Materialized}
    (hmade : made.Revises d fun doc => Q d doc ∧ P d o (some doc)) :
    Keeps (InCopy p s (x.registry.Stores Q P)) (fun _ => True) (x.revise d s rawId o made) := by
  refine (h.keeps_findById hd o).bind fun found hfound => ?_
  cases found with
  | none => exact .throw _
  | some current =>
    refine .lift_bind fun changes hchanges => ?_
    have hupdate : Keeps (InCopy p s (x.registry.Stores Q P)) (fun _ => True)
        (x.store.update d.collection (.id o)
        (.object (updateParts (if changes.isEmpty then none else some changes)
          made.unset)) (some s)) := by
      refine (h.store.update _ _ _ _).keeps (keeps_of_open fun m tr r m' htr hI hr => ?_)
      rcases MemoryStore.run_update htr hr with ⟨-, hw⟩ | ⟨before, after, -, -, hbefore, happly, hw⟩
      · exact ⟨⟨_, hw, hI⟩, fun _ _ => trivial⟩
      · obtain ⟨hQ, hP⟩ := hmade current before changes after (hfound current rfl)
          ⟨hI.of_get? hd hbefore, hbefore ▸ hI.found d hd o⟩ hchanges happly
        refine ⟨⟨_, hw, hI.put h.apart hd rfl hQ fun o' ho' => ?_⟩, fun _ _ => trivial⟩
        cases ho'
        exact hP
    dsimp only
    generalize updateParts (if changes.isEmpty then none else some changes) made.unset =
      parts at hupdate ⊢
    split
    · exact .pure trivial
    · exact hupdate

/-- **Adding a document**, when its children keep what is asked of them. -/
theorem keeps_saveIn (h : x.Upkeep p Q P Adds Changes) {d : Descriptor} {link : Option ParentLink}
    {fs : Document} (hw : x.registry.Writable Adds .add d link fs)
    (hdeltas : ∀ o, Keeps (InCopy p s (x.registry.Stores Q P)) (fun _ => True)
      (x.applyDeltas ops d (.id o) s (.object fs) d.entity.fields)) :
    Keeps (InCopy p s (x.registry.Stores Q P)) (fun _ => True)
      (x.saveIn ops d link s (.object fs)) := by
  rw [saveIn_eq (h.validates d.name).hooks]
  refine (h.keeps_materialize _ ((h.moves_materialize_keys hw.known hw.linked .create fs).also
    (h.create d link fs s hw))).bind fun made hmade => ?_
  refine (h.keeps_create hw.known (idGiven_inFirstState hmade.1) hmade.2).bind fun stored hstored =>
    ?_
  obtain ⟨o, ho⟩ := hstored
  refine .lift_bind fun id hid => ?_
  obtain rfl := Except.ok.inj (ho.symm.trans hid)
  exact (hdeltas o).bind fun _ _ => .pure trivial

/-- **Updating a document**, when its children keep what is asked of them. -/
theorem keeps_updateIn (h : x.Upkeep p Q P Adds Changes) {d : Descriptor} {link : Option ParentLink}
    {fs fs' : Document} (hw : x.registry.Writable Changes .update d link fs)
    (hmoved : d.Moved fs fs') (hdeltas : ∀ o,
      Keeps (InCopy p s (x.registry.Stores Q P)) (fun _ => True)
      (x.applyDeltas ops d (.id o) s (.object fs') d.entity.fields)) :
    Keeps (InCopy p s (x.registry.Stores Q P)) (fun _ => True)
      (x.updateIn ops d link s (.object fs')) := by
  rw [updateIn_eq (h.validates d.name).hooks]
  refine .lift_bind fun rawId hraw => .guard fun _ => .lift_bind fun o ho => ?_
  have hnames : NamesDocument (.object fs) o := ⟨rawId, hmoved.argument_id ▸ hraw, ho⟩
  refine (h.keeps_materialize _ (h.update d link fs fs' o s hw hmoved hnames)).bind
    fun made hmade => ?_
  exact (hdeltas o).bind fun _ _ => h.keeps_revise hw.known hmade

/-- The children among arguments of `d`, linked to their parent, are arguments to be written. -/
theorem children_writable (h : x.Upkeep p Q P Adds Changes) {d : Descriptor}
    (hd : x.registry.Knows d) {ref : ShapeRef} (href : ref.IsFor d.name) {fs : Document}
    (haccepted : x.registry.Accepts ref (.object fs)) (hsuitable : Adds d fs ∨ Changes d fs)
    {f : FieldDef} (hf : f ∈ d.entity.fields) {delta : Delta}
    (hdelta : deltaOf? f (.object fs) = some delta) {e : Descriptor}
    (he : x.descriptor (f.target.getD "") = .ok e) (o : ObjectId) :
    (∀ v ∈ delta.added, ∃ g, v = .object g ∧
      x.registry.Writable Adds .add e (some (f.connectionField, .id o)) g) ∧
    ∀ v ∈ delta.updated, ∃ g, v = .object g ∧
      x.registry.Writable Changes .update e (some (f.connectionField, .id o)) g := by
  obtain ⟨target, htarget, hadded, hupdated⟩ := haccepted.children h.shaped hd.1 href hf hdelta
  have hlookup : x.registry.lookup (f.target.getD "") = .ok e := by
    obtain ⟨e', he', hown⟩ := bind_eq_ok he
    split at hown
    · cases hown
      exact he'
    · cases hown
  rw [htarget, Option.getD_some] at he
  obtain ⟨hknown, rfl⟩ := knows_of_descriptor h.shaped he
  obtain ⟨hadds, hchanges⟩ := h.children d fs hsuitable f hf delta hdelta e hlookup
  have hlinked : x.registry.LinksChild e (some (f.connectionField, .id o)) := by
    rintro _ ⟨⟩
    exact ⟨d, f, o, hd.1, hf, FieldDef.kind_of_isReferencedList
      (isReferencedList_of_deltaOf? hdelta), htarget, rfl⟩
  refine ⟨fun v hv => ?_, fun v hv => ?_⟩
  · obtain ⟨g, rfl, -⟩ := (hadded v hv).offered h.shaped hknown.1 (.inl rfl)
    exact ⟨g, rfl, hknown, hlinked, hadded _ hv, hadds g hv⟩
  · obtain ⟨g, rfl, -⟩ := (hupdated v hv).offered h.shaped hknown.1 (.inr rfl)
    exact ⟨g, rfl, hknown, hlinked, hupdated _ hv, hchanges g hv⟩

/-- **Trees of writes** keep what is asked of documents. -/
theorem linkedRules (h : x.Upkeep p Q P Adds Changes) :
    LinkedRules x ops s (fun t t' => InCopy p s (x.registry.Stores Q P) t →
      InCopy p s (x.registry.Stores Q P) t') (fun parent => ∃ o, parent = .id o)
      (fun d link args => ∃ fs, args = .object fs ∧ x.registry.Writable Adds .add d link fs)
      (fun d link args => ∃ fs fs', args = .object fs' ∧ d.Moved fs fs' ∧
        x.registry.Writable Changes .update d link fs) where
  refl := fun _ => id
  trans := fun _ _ _ h h' => h' ∘ h
  children := by
    rintro d link _ (⟨fs, rfl, hw⟩ | ⟨fs, fs', rfl, hmoved, hw⟩) f hf delta hdelta e he _ ⟨o, rfl⟩
    · obtain ⟨hadded, hupdated⟩ :=
        h.children_writable hw.known (.inl rfl) hw.accepted (.inl hw.suitable) hf hdelta he o
      refine ⟨hadded, fun v hv => ?_⟩
      obtain ⟨g, rfl, hg⟩ := hupdated v hv
      exact ⟨g, g, rfl, .inl rfl, hg⟩
    · rw [h.deltaOf?_moved hw.known hmoved hf] at hdelta
      obtain ⟨hadded, hupdated⟩ :=
        h.children_writable hw.known (.inr rfl) hw.accepted (.inr hw.suitable) hf hdelta he o
      refine ⟨hadded, fun v hv => ?_⟩
      obtain ⟨g, rfl, hg⟩ := hupdated v hv
      exact ⟨g, g, rfl, .inl rfl, hg⟩
  save := by
    rintro d link _ ⟨fs, rfl, hw⟩ hdeltas
    exact (h.keeps_saveIn hw fun o => .of_moves (hdeltas (.id o) ⟨o, rfl⟩)).moves
  update := by
    rintro d link _ ⟨fs, fs', rfl, hmoved, hw⟩ hdeltas
    exact (h.keeps_updateIn hw hmoved fun o => .of_moves (hdeltas (.id o) ⟨o, rfl⟩)).moves

/-- **A state action** is an update with a state put in. -/
theorem keeps_transition (h : x.Upkeep p Q P Adds Changes) {d : Descriptor} {fs : Document}
    (hw : x.registry.Writable Changes .update d none fs) {name : String} {action : StateAction}
    (haction : stateAction d name = .ok action) :
    Keeps (InCopy p s (x.registry.Stores Q P)) (fun _ => True)
    (x.transition ops d name action (.object fs) s) := by
  obtain ⟨m, hm, hget⟩ := Executor.get?_of_stateAction haction
  have hentered : stateName action.target ∈ m.entered :=
    List.mem_cons_of_mem _ (List.mem_map.2 ⟨_, Record.mem_of_get?_eq_some hget, rfl⟩)
  refine .lift_bind fun rawId _ => .guard fun _ => .lift_bind fun o _ => ?_
  refine (h.keeps_findById hw.known o).bind fun found _ => ?_
  cases found with
  | none => exact .throw _
  | some current =>
    refine .guard fun _ => ?_
    have hmoved : d.Moved fs (Record.put fs stateField (stateName action.target)) :=
      .inr ⟨_, ⟨m, hm, hentered⟩, rfl⟩
    exact Keeps.of_moves (h.linkedRules.moves_updateIn d none _ ⟨fs, _, rfl, hmoved, hw⟩)

end Upkeep

/-! ## Transactions and operations -/

namespace Bare

variable {t t' : τ}

/-- Removing a document keeps what is asked of the others. -/
theorem keeps_deleteIn (h : x.Bare p) (d : Descriptor) (target : Value) :
    Keeps (InCopy p s (x.registry.AllAre Q)) (fun _ => True) (x.deleteIn ops d s target) := by
  have hfind : ∀ id, Keeps (InCopy p s (x.registry.AllAre Q)) (fun _ => True)
      (x.store.findById d.collection id (some s)) := fun id => by
    refine (h.store.findById _ _ _).keeps (keeps_of_open fun m tr r m' htr hI hr => ?_)
    cases hr
    exact ⟨⟨[], Wrote.refl s m, hI⟩, fun _ _ => trivial⟩
  have hdelete : ∀ id, Keeps (InCopy p s (x.registry.AllAre Q)) (fun _ => True)
      (x.store.delete d.collection id (some s)) := fun id => by
    refine (h.store.delete _ _ _).keeps (keeps_of_open fun m tr r m' htr hI hr => ?_)
    rcases MemoryStore.run_delete htr hr with ⟨-, hw⟩ | ⟨_, -, hkey, -, hw⟩
    · exact ⟨⟨_, hw, hI⟩, fun _ _ => trivial⟩
    · exact ⟨⟨_, hw, hI.shrinks (Collections.Shrinks.after_delete hkey _)⟩, fun _ _ => trivial⟩
  rw [deleteIn_eq (h.validates d.name).hooks]
  refine .guard fun _ => .lift_bind fun o _ => ?_
  refine (h.keeps_materialize _ (Moves.any _)).bind fun _ _ => ?_
  refine (hfind _).bind fun found _ => ?_
  cases found with
  | none => exact .throw _
  | some current => exact hdelete _

/-- **A transaction** whose body keeps `I` in its private copy leaves documents as they should be.
What was committed are the writes of the last attempt, which started from a copy of what was
committed before. -/
theorem allAre_transact (h : x.Bare p) (hsleep : ∀ d t, p ((x.policy.sleep d).run.run t).2 = p t)
    {I : Collections → Prop} (hI : ∀ cs, I cs → x.registry.AllAre Q cs)
    {body : SessionId → Action τ α} (hbody : ∀ s, Confined p s (body s))
    (hkeeps : ∀ s, Keeps (InCopy p s I) (fun _ => True) (body s)) (hs : I (p t).collections) :
    x.registry.AllAre Q (p ((x.transact body none).run.run t).2).collections := by
  rcases hr : (x.transact body none).run.run t with ⟨r, t'⟩
  have hbefore := hI _ hs
  rcases transact_atomic h.store hsleep hbody hbefore.distinct hr with ⟨-, hquiet⟩ |
    ⟨v, s, t₁, t₂, ws, -, hc⟩
  · dsimp only
    rw [hquiet.1]
    exact hbefore
  · obtain ⟨tr, htr, hafter⟩ := (hkeeps s t₁ ⟨_, hc.fresh, hs⟩).1
    rw [hc.ran, hc.wrote.transaction?, hc.fresh] at htr
    obtain rfl := Option.some.inj htr
    rw [Transaction.working_afterAll] at hafter
    refine ⟨hc.distinct, fun d hd e he => ?_⟩
    rcases hc.filed d.collection e he with hold | ⟨id, hnew⟩
    · exact hbefore.documents d hd e hold
    · exact (hI _ hafter).of_get? hd hnew

/-- Showing what an action gives does not move the state. -/
theorem moves_bind_pure {σ β : Type} {R : σ → σ → Prop} {a : Action σ α}
    (h : Moves R (fun _ => True) a) (g : α → β) :
    Moves R (fun _ => True) (do let v ← a; pure (g v)) := by
  intro t
  have ht := (h t).1
  rw [Action.run_bind]
  rcases hr : a.run.run t with ⟨e | v, t'⟩ <;> rw [hr] at ht <;> exact ⟨ht, fun _ _ => trivial⟩

theorem confined (h : x.Bare p) (n : String) : (x.behaviour.entity n).Confined p :=
  (h.validates n).onlyChecks.confined

theorem confined_operations (h : x.Bare p) (s : SessionId) (depth : Nat) :
    (x.operationsTo depth).Confined p s :=
  confined_operationsTo h.store h.confined s depth

end Bare

namespace Upkeep

/-- Between two states a store as it should be stayed so, as far as its documents go. -/
abbrev Kept (x : Executor τ SessionId) (p : τ → MemoryStore) (Q : Descriptor → Document → Prop)
    (P : Descriptor → ObjectId → Option Document → Prop) (t t' : τ) : Prop :=
  x.registry.Stores Q P (p t).collections → x.registry.AllAre Q (p t').collections

theorem Kept.refl (t : τ) : Kept x p Q P t t := fun h => h.toAllAre

variable (h : x.Upkeep p Q P Adds Changes)
  (hsleep : ∀ d t, p ((x.policy.sleep d).run.run t).2 = p t)

include h hsleep

/-- **Adding documents** keeps what is asked of documents. -/
theorem moves_save {d : Descriptor} (hd : x.registry.Knows d) {fs : Document}
    (haccepted : x.registry.Accepts (.add d.name) (.object fs)) (hsuitable : Adds d fs) :
    Moves (Kept x p Q P) (fun _ => True) (x.operations.save d.name (.object fs) none) := by
  refine Moves.lift_bind Kept.refl fun d' hd' =>
    Bare.moves_bind_pure (fun t => ⟨fun hs => ?_, fun _ _ => trivial⟩) _
  obtain ⟨hd', hname⟩ := knows_of_descriptor h.shaped hd'
  obtain rfl := hd'.eq_of_name hd hname
  refine h.allAre_transact hsleep (fun _ hI => hI.toAllAre) (fun s => ?_) (fun s => ?_) hs
  · exact confined_saveIn h.store h.confined (h.confined_operations s _) _ none _
  · exact .of_moves (h.linkedRules.moves_saveIn _ none _
      ⟨fs, rfl, hd, x.registry.linksChild_none _, haccepted, hsuitable⟩)

/-- **Updating documents** keeps what is asked of documents. -/
theorem moves_update {d : Descriptor} (hd : x.registry.Knows d) {fs : Document}
    (haccepted : x.registry.Accepts (.update d.name) (.object fs)) (hsuitable : Changes d fs) :
    Moves (Kept x p Q P) (fun _ => True) (x.operations.update d.name (.object fs) none) := by
  refine Moves.lift_bind Kept.refl fun d' hd' =>
    Bare.moves_bind_pure (fun t => ⟨fun hs => ?_, fun _ _ => trivial⟩) _
  obtain ⟨hd', hname⟩ := knows_of_descriptor h.shaped hd'
  obtain rfl := hd'.eq_of_name hd hname
  refine h.allAre_transact hsleep (fun _ hI => hI.toAllAre) (fun s => ?_) (fun s => ?_) hs
  · exact confined_updateIn h.store h.confined (h.confined_operations s _) _ none _
  · exact .of_moves (h.linkedRules.moves_updateIn _ none _
      ⟨fs, fs, rfl, .inl rfl, hd, x.registry.linksChild_none _, haccepted, hsuitable⟩)

/-- **State actions** keep what is asked of documents. -/
theorem moves_changeState {d : Descriptor} (hd : x.registry.Knows d) (name : String) {fs : Document}
    (haccepted : x.registry.Accepts (.update d.name) (.object fs)) (hsuitable : Changes d fs) :
    Moves (Kept x p Q P) (fun _ => True)
    (x.operations.changeState d.name name (.object fs) none) := by
  refine Moves.lift_bind Kept.refl fun d' hd' => Moves.lift_bind Kept.refl fun action haction => ?_
  refine Bare.moves_bind_pure (fun t => ⟨fun hs => ?_, fun _ _ => trivial⟩) _
  obtain ⟨hd', hname⟩ := knows_of_descriptor h.shaped hd'
  obtain rfl := hd'.eq_of_name hd hname
  rw [transactWith_changeStateIn ((h.validates d'.name).effects name)]
  refine h.allAre_transact hsleep (fun _ hI => hI.toAllAre) (fun s => ?_) (fun s => ?_) hs
  · exact confined_transition_of_checks h.store (fun n => (h.validates n).onlyChecks)
      (h.confined_operations s _) _ _ _ _
  · exact h.keeps_transition ⟨hd, x.registry.linksChild_none _, haccepted, hsuitable⟩ haction

/-- **Removing documents** keeps what is asked of documents. -/
theorem moves_delete (n : String) (id : Value) :
    Moves (Kept x p Q P) (fun _ => True) (x.operations.delete n id none) := by
  refine Moves.lift_bind Kept.refl fun d' _ =>
    Bare.moves_bind_pure (fun t => ⟨fun hs => ?_, fun _ _ => trivial⟩) _
  refine h.allAre_transact hsleep (fun _ hI => hI) (fun s => ?_) (fun s =>
    h.keeps_deleteIn d' id) hs.toAllAre
  exact confined_deleteIn h.store h.confined (h.confined_operations s _) d' id

end Upkeep

end Executor

/-! ## Calls -/

namespace Dispatcher

/-- **A bare service** on the memory store `c`: of the user code there are only validators, the
registry was built as registries are, its documents can be stored, and its entities have collections
of their own. -/
structure Bare (x : Dispatcher τ SessionId) (c : Component τ MemoryStore) : Prop where
  component : ∀ s t, c.get (c.set s t) = s
  store : x.executor.store = MemoryStore.documentStore.within c
  sleep : ∀ d t, c.get ((x.executor.policy.sleep d).run.run t).2 = c.get t
  validates : ∀ n, (x.executor.behaviour.entity n).Validates c.get
  noMutations : x.executor.registry.mutations = []
  middleware : x.middleware = []
  built : x.executor.registry.Built
  storable : x.executor.registry.Storable
  apart : x.executor.registry.Apart

/-- **The states that calls reach**, when of every call in the state in which it is made `May` is
known: the service starts without documents, failures are injected, and endpoints are called, in any
order. -/
inductive Led {S : Type} (x : Dispatcher τ S) (c : Component τ MemoryStore)
    (May : τ → String → Call → Prop) :
    τ → Prop where
  | start {t : τ} (h : ∀ name, (c.get t).collections.get name = []) : Led x c May t
  | inject {t : τ} (h : Led x c May t) (count : Int) (operation : String) :
      Led x c May (((MemoryStore.inject count operation).within c).run.run t).2
  | call {t : τ} (h : Led x c May t) (name : String) (q : Call) (hq : May t name q) :
      Led x c May ((x.call name).run.run (t, q)).2.1

variable {x : Dispatcher τ SessionId} {c : Component τ MemoryStore}

theorem Bare.executor (h : x.Bare c) : x.executor.Bare c.get where
  store := h.store ▸ MemoryStore.onMemory_within h.component
  validates := h.validates
  shaped := h.built.shaped
  storable := h.storable
  apart := h.apart

/-- **Arguments that suit an endpoint**: additions are suitable as such, and so are changes. -/
structure Suits (x : Dispatcher τ SessionId) (Adds Changes : Descriptor → Document → Prop)
    (ep : Endpoint) (fs : Document) : Prop where
  adds : ep.kind = .save → ∀ d, x.executor.registry.Knows d → d.name = ep.entity.getD "" →
    x.executor.registry.Accepts (.add d.name) (.object fs) → Adds d fs
  changes : ep.kind = .update ∨ ep.kind = .state → ∀ d, x.executor.registry.Knows d →
    d.name = ep.entity.getD "" →
    x.executor.registry.Accepts (.update d.name) (.object fs) → Changes d fs

variable {Q : Descriptor → Document → Prop} {P : Descriptor → ObjectId → Option Document → Prop}
  {Adds Changes : Descriptor → Document → Prop}

/-- An entity without a collection has no operations that write. -/
theorem moves_own (h : x.Bare c) {d : Descriptor}
    (hd : Record.get? x.executor.registry.descriptors d.name = some d)
    {a : Descriptor → Action τ Value}
    (ha : x.executor.registry.Knows d →
      Moves (Executor.Upkeep.Kept x.executor c.get Q P) (fun _ => True) (do
      let e ← x.executor.descriptor d.name
      a e)) :
    Moves (Executor.Upkeep.Kept x.executor c.get Q P) (fun _ => True) (do
      let e ← x.executor.descriptor d.name
      a e) := by
  by_cases hendpoints : d.hasEndpoints = true
  · exact ha ⟨hd, hendpoints⟩
  · refine Moves.lift_bind .refl fun e he => ?_
    obtain ⟨hknows, hsame⟩ := Executor.knows_of_descriptor h.built.shaped he
    have hget := hknows.1
    rw [hsame, hd] at hget
    exact absurd ((Option.some.inj hget) ▸ hknows.2) hendpoints

/-- The operation of an endpoint on an entity keeps what is asked of documents. -/
theorem moves_onEntity (h : x.Bare c) (hkeep : x.executor.Upkeep c.get Q P Adds Changes)
    {ep : Endpoint} {d : Descriptor}
    (hd : Record.get? x.executor.registry.descriptors d.name = some d)
    (hname : d.name = ep.entity.getD "") {fs : Document} (hsuits : x.Suits Adds Changes ep fs) :
    Moves (fun q q' : τ × Call => Executor.Upkeep.Kept x.executor c.get Q P q.1 q'.1)
    (fun _ => True) (x.onEntity ep d (.object fs)) := by
  have hrefl : ∀ q : τ × Call, Executor.Upkeep.Kept x.executor c.get Q P q.1 q.1 :=
    fun q => .refl q.1
  have hperform : ∀ {a : Action τ Value},
      Moves (Executor.Upkeep.Kept x.executor c.get Q P) (fun _ => True) a →
      Moves (fun q q' : τ × Call => Executor.Upkeep.Kept x.executor c.get Q P q.1 q'.1) (fun _ =>
      True) (perform a) :=
    fun ha => ha.within fun _ _ => id
  have hreads : ep.kind = .get ∨ ep.kind = .find →
      Moves (fun q q' : τ × Call => Executor.Upkeep.Kept x.executor c.get Q P q.1 q'.1) (fun _ =>
      True)
        (x.onEntity ep d (.object fs)) := fun hk =>
    (stays_onEntity h.component h.store hk d _).mono
      (fun q q' hstays hs => by rw [hstays.1]; exact hs.toAllAre) fun _ => id
  cases hk : ep.kind with
  | get => exact hreads (.inl hk)
  | find => exact hreads (.inr hk)
  | save =>
    unfold onEntity
    rw [hk]
    refine Moves.lift_bind hrefl fun _ hcheck => hperform (moves_own h hd fun hknows => ?_)
    have haccepted := accepts_of_checkWrite hcheck
    exact hkeep.moves_save h.sleep hknows haccepted (hsuits.adds hk d hknows hname haccepted)
  | update =>
    unfold onEntity
    rw [hk]
    refine Moves.lift_bind hrefl fun _ hcheck => hperform (moves_own h hd fun hknows => ?_)
    have haccepted := accepts_of_checkWrite hcheck
    exact hkeep.moves_update h.sleep hknows haccepted
      (hsuits.changes (.inl hk) d hknows hname haccepted)
  | delete =>
    unfold onEntity
    rw [hk]
    exact Moves.lift_bind hrefl fun rawId _ => hperform (hkeep.moves_delete h.sleep d.name rawId)
  | state =>
    unfold onEntity
    rw [hk]
    refine Moves.lift_bind hrefl fun _ hcheck => hperform (moves_own h hd fun hknows => ?_)
    have haccepted := accepts_of_checkWrite hcheck
    exact hkeep.moves_changeState h.sleep hknows _ haccepted
      (hsuits.changes (.inr hk) d hknows hname haccepted)
  | custom =>
    unfold onEntity
    rw [hk]
    exact Moves.throw hrefl _

/-- **Every call keeps what is asked of documents**, when its arguments suit its endpoint and what
is stored before it is as `P` says. -/
theorem allAre_call (h : x.Bare c) (hkeep : x.executor.Upkeep c.get Q P Adds Changes) {t : τ}
    (hs : x.executor.registry.Stores Q P (c.get t).collections) (name : String) (q : Call)
    (hsuits : ∀ ep fs, Record.get? x.endpoints name = some ep → callArguments q.args = .ok fs →
      x.Suits Adds Changes ep fs) :
    x.executor.registry.AllAre Q (c.get ((x.call name).run.run (t, q)).2.1).collections := by
  rcases hep : Record.get? x.endpoints name with _ | ep
  · rw [call, hep]
    exact hs.toAllAre
  rcases hfs : callArguments q.args with f | fs
  · rw [call, hep]
    dsimp only
    rw [Action.run_bind_ok (run_arguments t q), hfs]
    exact hs.toAllAre
  have hentity : Moves (fun q q' : τ × Call => Executor.Upkeep.Kept x.executor c.get Q P q.1 q'.1)
    (fun _ => True) (do
      let d ← x.executor.registry.lookup (ep.entity.getD "")
      x.onEntity ep d (.object fs)) := by
    refine Moves.lift_bind (fun q => .refl q.1) fun d hd => ?_
    obtain ⟨hget, hname⟩ := h.built.shaped.get?_of_lookup hd
    exact moves_onEntity h hkeep hget hname (hsuits ep fs hep hfs)
  have hexecute : x.executor.registry.AllAre Q
      (c.get ((x.execute ep).run.run (t, { q with args := .object fs })).2.1).collections := by
    unfold execute
    dsimp only
    rw [Action.run_bind_ok (run_arguments t _)]
    cases hk : ep.kind with
    | custom =>
      rw [Registry.mutation, h.noMutations]
      exact hs.toAllAre
    | _ => exact (hentity _).1 hs
  rw [run_call_eq hep hfs, h.middleware, chain, pure_bind]
  exact hexecute

/-- **Documents over whole runs**: what each call keeps is true of every document that is ever
committed. -/
theorem Led.allAre (h : x.Bare c) {May : τ → String → Call → Prop}
    (hcall : ∀ t name q, May t name q → x.executor.registry.AllAre Q (c.get t).collections →
      x.executor.registry.AllAre Q (c.get ((x.call name).run.run (t, q)).2.1).collections) {t : τ}
    (ht : x.Led c May t) : x.executor.registry.AllAre Q (c.get t).collections := by
  induction ht with
  | start hempty => exact .empty hempty
  | inject _ count operation ih =>
    rw [Action.run_within, h.component]
    exact ih
  | call _ name q hq ih => exact hcall _ name q hq ih

end Dispatcher

end EntityGraph
