import EntityGraph.Proofs.Completion
import EntityGraph.Proofs.ReadyStore
import EntityGraph.Proofs.States

/-!
# Refused writes

A write without user code ends with a document or with a refusal, never with an unexpected failure
(`Dispatcher.call_answers`). Once its arguments have passed the check in front of it, they suit the
entity; so does every part of them that is written along the way. The documents made from them can
be stored, and what is stored already is in order, so that each step of the write answers or refuses
(`Executor.Plain.serves_saveIn` and its siblings), and so does the transaction around it.

This takes a registry whose documents can be stored (`Registry.Storable`), without references under
the names of embedded objects (`Registry.SparesObjects`): an update cannot lay a reference over an
object (`shelving_fails`).
-/

namespace EntityGraph

variable {τ : Type}

/-! ## Registries whose documents can be stored -/

/-- **Registries whose documents can be stored**: every field is stored under a single segment other
than the one of the identifier, and states are scalars. -/
structure Registry.Storable (r : Registry) : Prop where
  fields : ∀ n d, Record.get? r.descriptors n = some d → ∀ f ∈ d.entity.fields, f.Storable
  states : ∀ n d, Record.get? r.descriptors n = some d → d.machine.isSome = true →
    ∀ f ∈ d.entity.fields, f.name = stateField → f.kind = .ok .scalar ∨ f.kind = .ok .enumeration

/-- **Registries that spare embedded objects**: no reference is stored where an object is embedded,
neither one of the entity itself nor one that a list of related documents puts there. -/
structure Registry.SparesObjects (r : Registry) : Prop where
  references : ∀ n d, Record.get? r.descriptors n = some d → ∀ f ∈ d.entity.fields,
    f.kind = .ok .referencedObject → d.entity.Spares f.connectionField
  links : ∀ n d, Record.get? r.descriptors n = some d → ∀ f ∈ d.entity.fields,
    f.kind = .ok .referencedList → ∀ n' e, f.target = some n' →
    Record.get? r.descriptors n' = some e →
      e.entity.Spares f.connectionField

/-- A link that can be stored in the documents of an entity. -/
def Entity.Takes (e : Entity) (link : Option ParentLink) : Prop :=
  ∀ l, link = some l → IsStorable l.1 ∧ e.Spares l.1

theorem Entity.takes_none (e : Entity) : e.Takes none := fun _ hl => by cases hl

/-- A new document brings no identifier when none of its keys is that of the identifier. -/
theorem idGiven_inFirstState {d : Descriptor} {made : Document} (h : ∀ e ∈ made, IsStorable e.1) :
    IdGiven (Executor.inFirstState d made) := by
  have hkeys : ∀ e ∈ Executor.inFirstState d made, e.1 ≠ "_id" := by
    intro e he
    unfold Executor.inFirstState at he
    split at he
    · rcases Record.mem_put he with he | rfl
      · exact (h e he).2
      · exact ne_of_beq_false rfl
    · exact (h e he).2
  exact fun v hv => absurd rfl (hkeys ("_id", v) (Record.mem_of_get?_eq_some hv))

/-- A new document that can be stored brings no identifier. -/
theorem Materialized.Storable.idGiven {fields : List FieldDef} {m : Materialized}
    (h : m.Storable fields) (d : Descriptor) : IdGiven (Executor.inFirstState d m.document) :=
      idGiven_inFirstState h.keys

namespace Executor

/-- **Services without user code** on the memory store `p` whose documents can be stored. -/
structure Plain (x : Executor τ SessionId) (p : τ → MemoryStore) : Prop where
  store : x.store.OnMemory p
  behaviour : ∀ n, x.behaviour.entity n = .none
  shaped : x.registry.Shaped
  storable : x.registry.Storable
  spares : x.registry.SparesObjects

/-! ## Inside a session -/

section Session

variable {p : τ → MemoryStore} {x : Executor τ SessionId} {ops : Operations τ SessionId}
  {s : SessionId} {d : Descriptor}

/-- The identifier among arguments that are an object. -/
theorem answers_argument {args : Value} (h : ∃ fs, args = .object fs) (name : String) :
    Answers (fun _ => True) (argument args name) := by
  obtain ⟨fs, rfl⟩ := h
  trivial

/-- A lookup in a session finds a document, and what follows runs on a store with this document; or
it finds none. -/
theorem served_findById_bind {α : Type} {Q : α → Prop} {collection : String} {o : ObjectId}
    {f : Option Document → Action τ α} (hstore : x.store.OnMemory p) {t : τ} (ht : (p t).Working s)
    (hnone : Serves (fun t => (p t).Working s) Q (f none))
    (hsome : ∀ current t, (p t).Working s →
      (((p t).view (some s)).get collection).get? (.id o) = some current →
      Served (fun t => (p t).Working s) Q ((f (some current)).run.run t)) :
    Served (fun t => (p t).Working s) Q
      ((x.store.findById collection (.id o) (some s) >>= f).run.run t) := by
  rcases hfind : (x.store.findById collection (.id o) (some s)).run.run t with ⟨r, t'⟩
  have hrun := (hstore.findById _ _ _).run hfind
  rw [MemoryStore.run_findById_id] at hrun
  obtain ⟨rfl, hsame⟩ := Prod.mk.inj hrun
  rw [Action.run_bind_ok hfind]
  rw [hsame] at ht
  rcases hfound : (((p t).view (some s)).get collection).get? (.id o) with _ | current
  · exact hnone t' ht
  · rw [hsame] at hfound
    exact hsome current t' ht hfound

namespace Plain

/-- What is made from suitable arguments can be stored. -/
theorem serves_materialize (h : x.Plain p) (hd : x.registry.Knows d) {link : Option ParentLink}
    (hlink : d.entity.Takes link) (operation : Operation) {args : Value}
    (hargs : x.registry.Suits d.entity args) :
    Serves (fun t => (p t).Working s) (fun m => m.Storable d.entity.fields)
      ((x.materializer operation s).materialize d.entity link args) :=
  ((Materializer.serves_materialize h.behaviour h.shaped d.entity link args hargs).also
    (Materializer.moves_materialize_storable h.behaviour (h.storable.fields _ _ hd.1)
      (h.spares.references _ _ hd.1) hlink args)).mono fun _ hm => hm.2

/-- **The end of a change**: the document is there and is changed, or its absence is refused. -/
theorem serves_revise (h : x.Plain p) (rawId : Value) (o : ObjectId) {m : Materialized}
    (hm : m.Storable d.entity.fields) :
    Serves (fun t => (p t).Working s) (fun u => u.isSome = true) (x.revise d s rawId o m) := by
  intro t ht
  refine served_findById_bind h.store ht (.refuse rfl) fun current t ht hfound => ?_
  obtain ⟨merged, hmerge, hkeys⟩ := exists_mergeEmbedded current hm.keys hm.objects
  obtain ⟨_, ⟨⟩, hid⟩ := Collection.exists_id_of_get? (ht.view d.collection) hfound
  have hchanges : ∀ e ∈ (if merged.isEmpty then none else some merged).getD [], IsStorable e.1 := by
    intro e he
    split at he
    · cases he
    · exact hkeys e he
  obtain ⟨updated, hupdate, hid'⟩ := exists_applyUpdate hchanges hm.unset hid
  dsimp only
  rw [hmerge, Action.run_bind_ok (Action.run_lift _ _)]
  generalize updateParts (if merged.isEmpty then none else some merged) m.unset = parts at hupdate ⊢
  split
  · exact ⟨ht, rfl⟩
  · exact (h.store.update _ _ _ _).served (MemoryStore.served_update ht hfound hupdate hid')

/-- The children that suitable arguments hold suit their entity, and so does their link to the
parent. -/
theorem child (h : x.Plain p) (hd : x.registry.Knows d) {args : Value}
    (hargs : x.registry.Suits d.entity args) {f : FieldDef} (hf : f ∈ d.entity.fields)
    {delta : Delta} (hdelta : deltaOf? f args = some delta) {e : Descriptor}
    (he : x.descriptor (f.target.getD "") = .ok e) (parent : Value) :
    x.registry.Knows e ∧ e.entity.Takes (some (f.connectionField, parent)) ∧
      (∀ w ∈ delta.added, x.registry.Suits e.entity w) ∧ ∀ w ∈ delta.updated,
        x.registry.Suits e.entity w := by
  obtain ⟨hk, target, htarget, hadded, hupdated⟩ := hargs.children hf hdelta
  rw [htarget, Option.getD_some] at he
  obtain ⟨hknows, rfl⟩ := knows_of_descriptor h.shaped he
  refine ⟨hknows, ?_, fun w hw => (hadded w hw).suits h.shaped hknows.1 (.inl rfl),
    fun w hw => (hupdated w hw).suits h.shaped hknows.1 (.inr rfl)⟩
  rintro _ ⟨⟩
  have hfield := h.storable.fields _ _ hd.1 f hf
  exact ⟨⟨hfield.connection, hfield.link hk⟩, h.spares.links _ _ hd.1 f hf hk _ _ htarget hknows.1⟩

mutual

/-- **A tree of new documents** is stored, or refused. -/
theorem serves_saveIn (h : x.Plain p) {d : Descriptor} (hd : x.registry.Knows d)
    {link : Option ParentLink} (hlink : d.entity.Takes link) (args : Value)
    (hargs : x.registry.Suits d.entity args) :
    Serves (fun t => (p t).Working s) (fun _ => True) (x.saveIn ops d link s args) := by
  rw [saveIn_eq (hooks_none h.behaviour _)]
  refine (h.serves_materialize hd hlink .create hargs).bind fun m hm => ?_
  refine ((h.store.create _ _ _).serves (MemoryStore.serves_create (hm.idGiven d))).bind
    fun stored hstored => ?_
  obtain ⟨id, hid⟩ := hstored
  refine Serves.lift_bind (Q := fun _ => True) (by rw [documentId, hid]; trivial) fun id _ _ => ?_
  refine (serves_applyDeltas h hd id args hargs d.entity.fields fun _ hf => hf).bind fun _ _ => ?_
  exact .pure trivial
termination_by (sizeOf args, 2, 0)

/-- **A tree of changes** is made, or refused. -/
theorem serves_updateIn (h : x.Plain p) {d : Descriptor} (hd : x.registry.Knows d)
    {link : Option ParentLink} (hlink : d.entity.Takes link) (args : Value)
    (hargs : x.registry.Suits d.entity args) :
    Serves (fun t => (p t).Working s) (fun u => u.isSome = true)
    (x.updateIn ops d link s args) := by
  rw [updateIn_eq (hooks_none h.behaviour _)]
  refine .lift_bind (answers_argument hargs.object "id") fun rawId _ _ => .guard rfl fun _ => ?_
  refine .lift_bind (answers_toReference rawId) fun o _ _ => ?_
  refine (h.serves_materialize hd hlink .update hargs).bind fun m hm => ?_
  refine (serves_applyDeltas h hd (.id o) args hargs d.entity.fields fun _ hf => hf).bind fun _ _ =>
    ?_
  exact h.serves_revise rawId o hm
termination_by (sizeOf args, 2, 0)

theorem serves_applyDeltas (h : x.Plain p) {d : Descriptor} (hd : x.registry.Knows d)
    (parent args : Value) (hargs : x.registry.Suits d.entity args) :
    ∀ fields : List FieldDef, (∀ f ∈ fields, f ∈ d.entity.fields) →
    Serves (fun t => (p t).Working s) (fun _ => True) (x.applyDeltas ops d parent s args fields)
  | [], _ => by
    rw [applyDeltas]
    exact .pure trivial
  | f :: rest, hfields => by
    rw [applyDeltas]
    have hrest := serves_applyDeltas h hd parent args hargs rest fun g hg =>
      hfields g (List.mem_cons_of_mem _ hg)
    split
    · exact hrest
    · rename_i delta hdelta
      have := sizeOf_deltaOf?_lt hdelta
      refine .guard rfl fun _ => .lift_bind (answers_descriptor x _) fun e he _ => ?_
      obtain ⟨hknows, hlink, hadded, hupdated⟩ :=
        h.child hd hargs (hfields f (List.mem_cons_self ..)) hdelta he parent
      refine (serves_saveAll h hknows hlink delta.added hadded).bind fun _ _ => ?_
      exact (serves_updateAll h hknows hlink delta.updated hupdated).bind fun _ _ => hrest
termination_by fields => (sizeOf args, 1, fields.length)

theorem serves_saveAll (h : x.Plain p) {d : Descriptor} (hd : x.registry.Knows d)
    {link : ParentLink} (hlink : d.entity.Takes (some link)) :
    ∀ items : List Value, (∀ v ∈ items, x.registry.Suits d.entity v) →
    Serves (fun t => (p t).Working s) (fun _ => True) (x.saveAll ops d link s items)
  | [], _ => by
    rw [saveAll]
    exact .pure trivial
  | v :: rest, hitems => by
    rw [saveAll]
    refine (serves_saveIn h hd hlink v (hitems v (List.mem_cons_self ..))).bind fun _ _ => ?_
    exact serves_saveAll h hd hlink rest fun w hw => hitems w (List.mem_cons_of_mem _ hw)
termination_by items => (sizeOf items, 0, 0)

theorem serves_updateAll (h : x.Plain p) {d : Descriptor} (hd : x.registry.Knows d)
    {link : ParentLink} (hlink : d.entity.Takes (some link)) :
    ∀ items : List Value, (∀ v ∈ items, x.registry.Suits d.entity v) →
    Serves (fun t => (p t).Working s) (fun _ => True) (x.updateAll ops d link s items)
  | [], _ => by
    rw [updateAll]
    exact .pure trivial
  | v :: rest, hitems => by
    rw [updateAll]
    refine (serves_updateIn h hd hlink v (hitems v (List.mem_cons_self ..))).bind fun _ _ => ?_
    exact serves_updateAll h hd hlink rest fun w hw => hitems w (List.mem_cons_of_mem _ hw)
termination_by items => (sizeOf items, 0, 0)

end

/-- **Removal** returns the document removed, or is refused. -/
theorem serves_deleteIn (h : x.Plain p) (hd : x.registry.Knows d) (target : Value) :
    Serves (fun t => (p t).Working s) (fun u => u.isSome = true) (x.deleteIn ops d s target) := by
  rw [deleteIn_eq (hooks_none h.behaviour _)]
  refine .guard rfl fun _ => .lift_bind (answers_toReference _) fun o _ _ => ?_
  refine (h.serves_materialize hd d.entity.takes_none .delete (x.registry.suits_id d.entity _)).bind
    fun _ _ => ?_
  intro t ht
  refine served_findById_bind h.store ht (.refuse rfl) fun current t ht hfound => ?_
  exact (h.store.delete _ _ _).served (MemoryStore.served_delete ht hfound)

/-- **A state action** changes the document, or is refused. -/
theorem serves_transition (h : x.Plain p) (hd : x.registry.Knows d) {name : String}
    {action : StateAction} (haction : stateAction d name = .ok action) (args : Value)
    (hargs : x.registry.Suits d.entity args) :
    Serves (fun t => (p t).Working s) (fun u => u.isSome = true)
    (x.transition ops d name action args s) := by
  obtain ⟨machine, hmachine, -⟩ := get?_of_stateAction haction
  obtain ⟨fs, rfl⟩ := hargs.object
  have hmoved :=
    hargs.put (stateName action.target) (h.storable.states _ _ hd.1 (by rw [hmachine]; rfl))
  refine .lift_bind (answers_argument ⟨fs, rfl⟩ "id") fun rawId _ _ => .guard rfl fun _ => ?_
  refine .lift_bind (answers_toReference rawId) fun o _ _ => ?_
  intro t ht
  refine served_findById_bind h.store ht (.refuse rfl) fun current t ht _ => ?_
  exact Serves.guard rfl (fun _ => h.serves_updateIn hd d.entity.takes_none _ hmoved) t ht

end Plain

end Session

/-! ## Operations -/

section Operations

variable {p : τ → MemoryStore} {x : Executor τ SessionId} {n : String} {args : Value}

/-- An answer that is a document. -/
def IsDocument (v : Value) : Prop := ∃ d, v = .object d

theorem isDocument_documentOrNull {u : Option Document} (h : u.isSome = true) :
    IsDocument (documentOrNull u) := by
  obtain ⟨d, rfl⟩ := Option.isSome_iff_exists.1 h
  exact ⟨d, rfl⟩

namespace Plain

theorem serves_save (h : x.Plain p) (hargs : x.registry.Accepts (.add n) args) :
    Serves (fun t => (p t).Ready) IsDocument (x.operations.save n args none) := by
  refine .lift_bind (answers_descriptor x n) fun d hd _ => ?_
  obtain ⟨hknows, rfl⟩ := knows_of_descriptor h.shaped hd
  refine Serves.bind (Q := fun _ => True) (SessionStore.serves_transact h.store.sessions fun s =>
    ?_) fun stored _ => .pure ⟨stored, rfl⟩
  exact h.serves_saveIn hknows d.entity.takes_none args (hargs.suits h.shaped hknows.1 (.inl rfl))

theorem serves_update (h : x.Plain p) (hargs : x.registry.Accepts (.update n) args) :
    Serves (fun t => (p t).Ready) IsDocument (x.operations.update n args none) := by
  refine .lift_bind (answers_descriptor x n) fun d hd _ => ?_
  obtain ⟨hknows, rfl⟩ := knows_of_descriptor h.shaped hd
  refine Serves.bind (SessionStore.serves_transact h.store.sessions fun s => ?_) fun u hu =>
    .pure (isDocument_documentOrNull hu)
  exact h.serves_updateIn hknows d.entity.takes_none args (hargs.suits h.shaped hknows.1 (.inr rfl))

theorem serves_delete (h : x.Plain p) (n : String) (id : Value) :
    Serves (fun t => (p t).Ready) IsDocument (x.operations.delete n id none) := by
  refine .lift_bind (answers_descriptor x n) fun d hd _ => ?_
  obtain ⟨hknows, rfl⟩ := knows_of_descriptor h.shaped hd
  refine Serves.bind (SessionStore.serves_transact h.store.sessions fun s => ?_) fun u hu =>
    .pure (isDocument_documentOrNull hu)
  exact h.serves_deleteIn hknows id

theorem serves_changeState (h : x.Plain p) (hargs : x.registry.Accepts (.update n) args)
    (action : String) :
    Serves (fun t => (p t).Ready) IsDocument (x.operations.changeState n action args none) := by
  refine .lift_bind (answers_descriptor x n) fun d hd _ => ?_
  obtain ⟨hknows, rfl⟩ := knows_of_descriptor h.shaped hd
  have hstateAction : Answers (fun _ => True) (stateAction d action) := by
    rw [stateAction]
    split
    · trivial
    · exact .refuse rfl
  refine .lift_bind hstateAction fun a ha _ => ?_
  have heffect : (x.behaviour.entity d.name).effect? action = none := by
    rw [h.behaviour]
    rfl
  rw [transactWith_changeStateIn heffect]
  refine Serves.bind (SessionStore.serves_transact h.store.sessions fun s => ?_) fun u hu =>
    .pure (isDocument_documentOrNull hu)
  exact h.serves_transition hknows ha args (hargs.suits h.shaped hknows.1 (.inr rfl))

end Plain

end Operations

end Executor

/-! ## Calls -/

/-- Endpoints that write. -/
def Endpoint.Writes (ep : Endpoint) : Prop :=
  ep.kind = .save ∨ ep.kind = .update ∨ ep.kind = .delete ∨ ep.kind = .state

namespace Dispatcher

/-- **A plain service**: a finalized registry whose documents can be stored, on the memory store,
without user code, middleware or custom mutations. -/
structure Plain (x : Dispatcher τ SessionId) (c : Component τ MemoryStore) : Prop where
  component : ∀ s t, c.get (c.set s t) = s
  store : x.executor.store = MemoryStore.documentStore.within c
  behaviour : ∀ n, x.executor.behaviour.entity n = .none
  middleware : x.middleware = []
  noMutations : x.executor.registry.mutations = []
  built : x.executor.registry.Built
  finalized : x.executor.registry.finalized = true
  storable : x.executor.registry.Storable

/-- **The states that calls reach**: the service starts without documents and without injected
conflicts, and endpoints are called, in any order and with any arguments. -/
inductive Called {S : Type} (x : Dispatcher τ S) (c : Component τ MemoryStore) : τ → Prop where
  | start {t : τ} (h : ∀ name, (c.get t).collections.get name = []) (hcalm : (c.get t).Calm) :
    Called x c t
  | call {t : τ} (h : Called x c t) (name : String) (q : Call) :
    Called x c ((x.call name).run.run (t, q)).2.1

variable {x : Dispatcher τ SessionId} {c : Component τ MemoryStore} {ep : Endpoint}

theorem Plain.executor (h : x.Plain c) (hs : x.executor.registry.SparesObjects) :
    x.executor.Plain c.get where
  store := h.store ▸ MemoryStore.onMemory_within h.component
  behaviour := h.behaviour
  shaped := h.built.shaped
  storable := h.storable
  spares := hs

/-- The check in front of a write passes or refuses. -/
theorem answers_checkWrite {r : Registry} (hr : r.Shaped) (hc : r.Complete) {name : String}
    {d : Descriptor} (hd : Record.get? r.descriptors name = some d) {ref : ShapeRef}
    (href : ref.IsFor name) (args : Value) :
    Answers (fun _ => True) (checkWrite r ref args) := by
  obtain ⟨s, hs⟩ := hc.exists_shape hd href
  rw [checkWrite, argumentShape, hs]
  exact answers_checkInput (hc.closed hr) (hc.closed hr ref s hs) "" args

/-- What the executor serves is served beside a call. -/
theorem serves_perform {α : Type} {Q : α → Prop} {a : Action τ α}
    (h : Serves (fun t => (c.get t).Ready) Q a) :
    Serves (fun q : τ × Call => (c.get q.1).Ready) Q (perform a) := by
  change Serves (fun q => (c.get ((Component.ofCall τ).get q)).Ready) Q (a.within (.ofCall τ))
  exact h.within fun _ _ => rfl

/-- **The operation of an endpoint that writes** returns a document, or is refused. -/
theorem serves_onEntity (h : x.Plain c) (hs : x.executor.registry.SparesObjects) (hw : ep.Writes)
    {name : String} {d : Descriptor}
    (hd : Record.get? x.executor.registry.descriptors name = some d) {args : Value}
    (hargs : ∃ fs, args = .object fs) :
    Serves (fun q : τ × Call => (c.get q.1).Ready) Executor.IsDocument (x.onEntity ep d args) := by
  have hexecutor := h.executor hs
  have hcomplete := h.built.complete h.finalized
  obtain rfl := h.built.shaped.named name d hd
  have hcheck : ∀ {ref : ShapeRef}, ref.IsFor d.name →
      Answers (fun _ => True) (checkWrite x.executor.registry ref args) := fun href =>
    answers_checkWrite h.built.shaped hcomplete hd href args
  unfold onEntity
  dsimp only
  rcases hw with hk | hk | hk | hk <;> rw [hk]
  · refine .lift_bind (hcheck (.inl rfl)) fun _ hok _ => serves_perform ?_
    exact hexecutor.serves_save (accepts_of_checkWrite hok)
  · refine .lift_bind (hcheck (.inr rfl)) fun _ hok _ => serves_perform ?_
    exact hexecutor.serves_update (accepts_of_checkWrite hok)
  · refine .lift_bind (Executor.answers_argument hargs "id") fun rawId _ _ => serves_perform ?_
    exact hexecutor.serves_delete d.name rawId
  · refine .lift_bind (hcheck (.inr rfl)) fun _ hok _ => serves_perform ?_
    exact hexecutor.serves_changeState (accepts_of_checkWrite hok) _

/-- **A call of an endpoint that writes**, with arguments that are an object, returns a document or
is refused. -/
theorem served_call (h : x.Plain c) (hs : x.executor.registry.SparesObjects) {name : String}
    (hep : Record.get? x.endpoints name = some ep) (hw : ep.Writes) {t : τ} (ht : (c.get t).Ready)
    {q : Call} {fs : Document} (hfs : callArguments q.args = .ok fs) :
    Served (fun q : τ × Call => (c.get q.1).Ready) Executor.IsDocument
      ((x.call name).run.run (t, q)) := by
  have hentity : Serves (fun q : τ × Call => (c.get q.1).Ready) Executor.IsDocument (do
      let d ← x.executor.registry.lookup (ep.entity.getD "")
      x.onEntity ep d (.object fs)) :=
    .lift_bind (answers_lookup _ _) fun d _ hd => serves_onEntity h hs hw hd ⟨fs, rfl⟩
  have hexecute : Served (fun q : τ × Call => (c.get q.1).Ready) Executor.IsDocument
      ((x.execute ep).run.run (t, { q with args := .object fs })) := by
    unfold execute
    dsimp only
    rw [Action.run_bind_ok (run_arguments t _)]
    rcases hw with hk | hk | hk | hk <;> rw [hk] <;> exact hentity (t, _) ht
  rw [run_call_eq hep hfs, h.middleware, chain, pure_bind]
  rcases hr : (x.execute ep).run.run (t, { q with args := .object fs }) with ⟨f | v, s⟩ <;>
    rw [hr] at hexecute
  · obtain ⟨hready, hrefused⟩ := hexecute
    refine ⟨hready, ?_⟩
    change f.normalize.IsRefusal
    rw [Fault.IsRefusal.normalize hrefused]
    exact hrefused
  · exact hexecute

/-- **Every call leaves the store ready.** -/
theorem ready_call (h : x.Plain c) (hs : x.executor.registry.SparesObjects) (name : String) {t : τ}
    (ht : (c.get t).Ready) (q : Call) : (c.get ((x.call name).run.run (t, q)).2.1).Ready := by
  rcases hep : Record.get? x.endpoints name with _ | ep
  · rw [call, hep]
    exact ht
  rcases hfs : callArguments q.args with f | fs
  · rw [call, hep]
    dsimp only
    rw [Action.run_bind_ok (run_arguments t q), hfs]
    exact ht
  by_cases hw : ep.Writes
  · exact (served_call h hs hep hw ht hfs).1
  have hreads : ep.kind = .get ∨ ep.kind = .find → Moves (Stays c.get) (fun _ => True) (do
      let d ← x.executor.registry.lookup (ep.entity.getD "")
      x.onEntity ep d (.object fs)) := fun hreads =>
    Moves.lift_bind Stays.refl fun d _ => stays_onEntity h.component h.store hreads d _
  have hexecute :
      c.get ((x.execute ep).run.run (t, { q with args := .object fs })).2.1 = c.get t := by
    unfold execute
    dsimp only
    rw [Action.run_bind_ok (run_arguments t _)]
    cases hk : ep.kind with
    | get => exact (hreads (.inl hk) _).1.1
    | find => exact (hreads (.inr hk) _).1.1
    | custom =>
      rw [Registry.mutation, h.noMutations]
      rfl
    | save => exact absurd (.inl hk) hw
    | update => exact absurd (.inr (.inl hk)) hw
    | delete => exact absurd (.inr (.inr (.inl hk))) hw
    | state => exact absurd (.inr (.inr (.inr hk))) hw
  rw [run_call_eq hep hfs, h.middleware, chain, pure_bind]
  dsimp only
  rw [hexecute]
  exact ht

theorem Called.ready (h : x.Plain c) (hs : x.executor.registry.SparesObjects) {t : τ}
    (ht : x.Called c t) :
    (c.get t).Ready := by
  induction ht with
  | start hempty hcalm => exact .empty hcalm hempty
  | call _ name q ih => exact ready_call h hs name ih q

/-- **Writes answer or refuse.** In every state that calls reach, a call of an endpoint that writes
returns a document, or fails with a service error that does not stand for an unexpected failure,
whatever the entries of its arguments. -/
theorem call_answers (h : x.Plain c) (hs : x.executor.registry.SparesObjects) {t : τ}
    (ht : x.Called c t) {name : String} (hep : Record.get? x.endpoints name = some ep)
    (hw : ep.Writes) {q : Call} {fs : Document} (hfs : callArguments q.args = .ok fs) :
    (∃ d, ((x.call name).run.run (t, q)).1 = .ok (.object d)) ∨
      ∃ e, ((x.call name).run.run (t, q)).1 = .error (.service e) ∧ e.kind ≠ .internal := by
  have hserved := (served_call h hs hep hw (ht.ready h hs) hfs).2
  rcases hr : ((x.call name).run.run (t, q)).1 with f | v <;> rw [hr] at hserved
  · obtain ⟨e, rfl, he⟩ := hserved.typed
    exact .inr ⟨e, rfl, he⟩
  · obtain ⟨d, rfl⟩ := hserved
    exact .inl ⟨d, rfl⟩

end Dispatcher

/-! ## The service of tasks -/

theorem desk_storable : deskRegistry.Storable where
  fields := by
    have hkeys : ∀ f ∈ project.fields ++ task.fields, IsSegment f.name ∧
      IsSegment f.connectionField ∧
        f.storedKey ≠ "_id" ∧ f.name ≠ "_id" ∧ f.connectionField ≠ "_id" := by
      unfold IsSegment
      decide
    intro n d hd f hf
    have hmem : f ∈ project.fields ++ task.fields := by
      obtain ⟨hentity, -⟩ | ⟨hentity, -⟩ := desk_descriptor hd <;> rw [hentity] at hf
      · exact List.mem_append_left _ hf
      · exact List.mem_append_right _ hf
    obtain ⟨hname, hconnection, hkey, hvalue, hlink⟩ := hkeys f hmem
    exact ⟨hname, hconnection, hkey, fun _ => hvalue, fun _ => hlink⟩
  states := by
    intro n d hd hmachine f hf hname
    obtain ⟨-, -, hnone, -⟩ | ⟨hentity, -⟩ := desk_descriptor hd
    · rw [hnone] at hmachine
      cases hmachine
    · rw [hentity] at hf
      simp only [task, List.mem_cons, List.not_mem_nil, or_false] at hf
      rcases hf with rfl | rfl | rfl <;> exact .inl rfl

theorem desk_sparesObjects : deskRegistry.SparesObjects := by
  have hnone : ∀ n d, Record.get? deskRegistry.descriptors n = some d →
      ∀ key, d.entity.Spares key := by
    intro n d hd key f hf hk
    obtain ⟨hentity, -⟩ | ⟨hentity, -⟩ := desk_descriptor hd <;> rw [hentity] at hf
    · obtain rfl := List.mem_singleton.1 hf
      cases hk
    · simp only [task, List.mem_cons, List.not_mem_nil, or_false] at hf
      rcases hf with rfl | rfl | rfl <;> cases hk
  exact ⟨fun n d hd _ _ _ => hnone n d hd _, fun _ _ _ _ _ _ n e _ he => hnone n e he _⟩

theorem desk_plain : desk.Plain ⟨id, fun m _ => m⟩ where
  component := fun _ _ => rfl
  store := rfl
  behaviour := fun _ => rfl
  middleware := rfl
  noMutations := rfl
  built := desk_built
  finalized := by cbv
  storable := desk_storable

theorem MemoryStore.calm_empty : empty.Calm := fun _ h => absurd h (Int.lt_irrefl 0)

/-- Closing the task that was added with its project returns the task. -/
theorem desk_answers :
    ∃ d, ((desk.call "close_Task").run.run (afterAdding, closeTask)).1 = .ok (.object d) := by
  have hcalled : desk.Called ⟨id, fun m _ => m⟩ afterAdding :=
    .call (.start (fun _ => rfl) MemoryStore.calm_empty) "addProject" addProject
  have hep : Record.get? desk.endpoints "close_Task" =
    some ⟨"close_Task", .state, some "Task", some "close"⟩ := rfl
  obtain hanswered | ⟨e, he, -⟩ := Dispatcher.call_answers desk_plain desk_sparesObjects hcalled hep
    (.inr (.inr (.inr rfl))) (q := closeTask) rfl
  · exact hanswered
  · have hrun : ((desk.call "close_Task").run.run (afterAdding, closeTask)).1.isOk = true := by cbv
    rw [he] at hrun
    cases hrun

/-! ## A service of shelves -/

/-- Boxes have a label. -/
def box : Entity where
  name := "Box"
  fields := [textField "label"]
  description := .null
  names_nodup := by decide

/-- Shelves hold a box, and the shelf before them under the same key. -/
def boxShelf : Entity where
  name := "Shelf"
  fields := [⟨"id", .scalar .id, false, true, false, false, none, .null⟩,
    ⟨"box", .entity "Box", false, true, false, false, some ⟨true, "", .null⟩, .null⟩,
    ⟨"before", .entity "Shelf", false, true, false, false, some ⟨false, "box", .null⟩, .null⟩]
  description := .null
  names_nodup := by decide

/-- The entities of the service. -/
def shelvingEntities : Registry :=
  ⟨[("Box", ⟨box, "Box", none, none, none, false, none, []⟩),
    ("Shelf", ⟨boxShelf, "shelves", some "shelf", some "shelves", none, true, none, []⟩)], [],
    false⟩

/-- The registry of the service. -/
def shelvingRegistry : Registry := (Registry.finalize.run.run shelvingEntities).2

/-- A service of shelves. -/
def shelving : Dispatcher MemoryStore SessionId where
  executor := {
    registry := shelvingRegistry
    behaviour := ⟨fun _ => .none, fun _ _ _ => throw .illTyped⟩
    store := MemoryStore.documentStore.within ⟨id, fun m _ => m⟩
    policy := ⟨2, fun n => .ok (.whole n), fun _ => pure (), Nat.two_pos⟩ }
  endpoints := (Endpoint.table .everything shelvingRegistry).toOption.getD []
  middleware := []
  defaultLimit := 10

/-- A shelf is added with a box on it. -/
def addShelf : Call := ⟨.object [("box", .object [("label", .text "Maps")])], []⟩

/-- The shelf is put before itself. -/
def moveShelf : Call :=
    ⟨.object [("id", .id (.ofNat 1)), ("before", .object [("id", .id (.ofNat 1))])], []⟩

/-- The store after the shelf was added. -/
def afterShelving : MemoryStore := ((shelving.call "addShelf").run.run (.empty, addShelf)).2.1

theorem shelving_built : shelvingRegistry.Built := by
  have hbox : Registry.empty.addEmbedded box =
    .ok ⟨shelvingEntities.descriptors.take 1, [], false⟩ := rfl
  have hshelf : Registry.connect ⟨shelvingEntities.descriptors.take 1, [], false⟩ boxShelf
      ⟨some "shelves", none, some "shelves", none⟩ = .ok shelvingEntities := rfl
  exact .finalize (.connect (.embed .empty hbox) hshelf)

theorem shelving_storable : shelvingRegistry.Storable := by
  have hkeys : ∀ f ∈ box.fields ++ boxShelf.fields, IsSegment f.name ∧ IsSegment f.connectionField ∧
      f.storedKey ≠ "_id" ∧ f.name ≠ "_id" ∧ f.connectionField ≠ "_id" := by
    unfold IsSegment
    decide
  have hentities : ∀ n d, Record.get? shelvingRegistry.descriptors n = some d →
      (d.entity = box ∨ d.entity = boxShelf) ∧ d.machine = none := by
    obtain ⟨p, q, hdescriptors⟩ : ∃ p q, shelvingRegistry.descriptors = [
        ("Box", ⟨box, "Box", none, none, none, false, p, []⟩),
        ("Shelf", ⟨boxShelf, "shelves", some "shelf", some "shelves", none, true, q, []⟩)] :=
        ⟨_, _, rfl⟩
    intro n d hd
    have hmem := Record.mem_of_get?_eq_some hd
    rw [hdescriptors] at hmem
    rcases List.mem_cons.1 hmem with hmem | hmem
    · cases hmem
      exact ⟨.inl rfl, rfl⟩
    · cases List.mem_singleton.1 hmem
      exact ⟨.inr rfl, rfl⟩
  refine ⟨fun n d hd f hf => ?_, fun n d hd hmachine _ _ _ => ?_⟩
  · have hmem : f ∈ box.fields ++ boxShelf.fields := by
      rcases (hentities n d hd).1 with hentity | hentity <;> rw [hentity] at hf
      · exact List.mem_append_left _ hf
      · exact List.mem_append_right _ hf
    obtain ⟨hname, hconnection, hkey, hvalue, hlink⟩ := hkeys f hmem
    exact ⟨hname, hconnection, hkey, fun _ => hvalue, fun _ => hlink⟩
  · rw [(hentities n d hd).2] at hmachine
    cases hmachine

theorem shelving_plain : shelving.Plain ⟨id, fun m _ => m⟩ where
  component := fun _ _ => rfl
  store := rfl
  behaviour := fun _ => rfl
  middleware := rfl
  noMutations := rfl
  built := shelving_built
  finalized := by cbv
  storable := shelving_storable

/-- **A reference over an object.** The documents of the service can be stored, and a shelf that was
added with a box is moved: the reference to the shelf before it goes where the box is, and the call
ends in an unexpected failure. -/
theorem shelving_fails : shelving.Plain ⟨id, fun m _ => m⟩ ∧
    shelving.Called ⟨id, fun m _ => m⟩ afterShelving ∧
    ∃ e, ((shelving.call "updateShelf").run.run (afterShelving, moveShelf)).1 =
      .error (.service e) ∧
      e.kind = .internal := by
  refine ⟨shelving_plain, .call (.start (fun _ => rfl) MemoryStore.calm_empty) "addShelf" addShelf,
    ?_⟩
  have hrun : ((shelving.call "updateShelf").run.run (afterShelving, moveShelf)).1 =
      .error (.ofKind .internal "" (some .illTyped)) := by cbv
  exact ⟨_, hrun, rfl⟩

end EntityGraph
