import EntityGraph.Proofs.Tours

/-!
# New trees of documents

Arguments that only add to lists of related documents, at every level, plant a tree
(`Registry.Plants`): a document for the root, and one for each item that is added anywhere. All of
them are new. They have the identifiers that the store made last, one after the other in the order
of the tour; a child is linked to the document that it was added to, and a document with states
starts in the first one. What was stored before stays as it is (`Dispatcher.call_plants`).

The items are those in lists of related documents other than a field of the name `id`: the
identifier is skipped when a document is made, whatever its type, and what is added there is not
looked at (`fleet_ignores_sailors`).
-/

namespace EntityGraph

variable {τ : Type}

/-! ## Creations -/

/-- **Arguments that only add**: they change nothing in lists of related documents, and neither do
the items that they add. -/
inductive Registry.Plants (r : Registry) : String → Value → Prop where
  | intro {n : String} {args : Value}
      (unchanged : ∀ d, r.lookup n = .ok d → ∀ f ∈ d.entity.fields, ∀ delta,
      deltaOf? f args = some delta →
        delta.updated = [])
      (added : ∀ d, r.lookup n = .ok d → ∀ f ∈ d.entity.fields, ∀ delta,
        deltaOf? f args = some delta →
        ∀ item ∈ delta.added, r.Plants (f.target.getD "") item) : r.Plants n args

/-- **A tour of arguments that only add** creates documents only. -/
theorem Registry.Tours.creates {r : Registry} {js : List Job} {vs : List Visit} (h : r.Tours js vs)
    (hjs : ∀ j ∈ js, j.operation = .create ∧ r.Plants j.target j.args) :
    ∀ v ∈ vs, v.operation = .create := by
  have hjobs := h.forall_job (P := fun j => j.operation = .create ∧ r.Plants j.target j.args)
    (fun v hentity hv j hj => ?_) hjs
  · exact fun v hv => (hjobs v hv).1
  obtain ⟨f, hf, delta, hdelta, hj⟩ := Visit.mem_jobs.1 hj
  cases hv.2 with
  | intro unchanged added =>
    rcases hj with ⟨item, hitem, rfl⟩ | ⟨item, hitem, rfl⟩
    · exact ⟨rfl, added _ hentity f hf delta hdelta item hitem⟩
    · rw [unchanged _ hentity f hf delta hdelta] at hitem
      cases hitem

/-- **A new document at its place**: it has the identifier of the visit, the link, and the first
state. -/
structure Visit.IsNew (v : Visit) (doc : Document) : Prop where
  identifier : Record.get? doc "_id" = some v.id
  linked : ∀ key parent, v.link = some (key, parent) → Record.get? doc key = some parent
  initial : ∀ m, v.entity.machine = some m → Record.get? doc stateField = some (stateName m.initial)

/-- **What a creation writes.** -/
theorem Visit.Writes.isNew {r : Registry} {v : Visit} {c c' : Holdings} {doc : Document}
    (h : v.Writes r c doc c') (hop : v.operation = .create) (hv : v.SparesId)
    (hstate : ∀ l, v.link = some l → l.1 ≠ stateField) :
    v.IsNew doc := by
  obtain ⟨made, hmade, rfl, hid, -⟩ := h.of_create hop
  refine ⟨hid, fun key parent hlink => ?_, fun m hm => ?_⟩
  · rw [Holdings.get?_filed_of_ne _ _ (hv.link _ hlink), Executor.inFirstState]
    split
    · rw [Record.get?_put, if_neg (hstate _ hlink).symm, hmade.get?_link hlink]
    · exact hmade.get?_link hlink
  · rw [Holdings.get?_filed_of_ne _ _ (ne_of_beq_false rfl), Executor.inFirstState, hm]
    exact Record.get?_put_self ..

/-! ## Runs of creations -/

/-- Visits that create documents and leave their identifiers to the store. -/
def Log.Creates (log : Log) : Prop := ∀ e ∈ log, e.1.operation = .create ∧ e.1.SparesId

namespace Registry.Follows

variable {r : Registry} {c c' : Holdings} {log : Log}

/-- **Identifiers are made one after the other.** -/
theorem numbered (h : r.Follows c log c') (hlog : log.Creates) : c'.lastId = c.lastId + log.length ∧
    log.map (fun e => e.1.id) = (List.range' (c.lastId + 1) log.length).map fun i =>
      .id (.ofNat i) := by
  induction h with
  | nil => exact ⟨rfl, rfl⟩
  | @cons c₀ c₁ _ v doc rest hwrites _ ih =>
    obtain ⟨hop, hv⟩ := hlog _ (List.mem_cons_self ..)
    obtain ⟨hlast, hids⟩ := ih fun e he => hlog e (List.mem_cons_of_mem _ he)
    obtain ⟨-, -, -, -, -, hnext⟩ := hwrites.of_create hop
    rw [hnext] at hlast hids
    refine ⟨by rw [hlast, List.length_cons]; omega, ?_⟩
    rw [List.map_cons, hwrites.id_of_create hop hv, hids, List.length_cons, List.range'_succ,
      List.map_cons]

/-- What is written by a creation is found, under an identifier that has one of the forms that the
store makes. -/
theorem exists_id (h : r.Follows c log c') (hlog : log.Creates) {e : Visit × Document}
    (he : e ∈ log) :
    ∃ o, e.1.id = .id o := by
  obtain ⟨_, _, _, _, -, -, hwrites, -⟩ := h.writes_of_mem he
  obtain ⟨hop, hv⟩ := hlog e he
  exact ⟨_, hwrites.id_of_create hop hv⟩

/-- **A new document** was not there before, and is there in the end as it was created. -/
theorem found_of_creation (h : r.Follows c log c') (hlog : log.Creates) {v : Visit} {doc : Document}
    (hmem : (v, doc) ∈ log) :
    c.found v.entity.collection v.id = none ∧ c'.found v.entity.collection v.id = some doc := by
  obtain ⟨o, ho⟩ := h.exists_id hlog hmem
  obtain ⟨before, after, c₁, c₂, rfl, hbefore, hwrites, hafter⟩ := h.writes_of_mem hmem
  obtain ⟨-, -, -, -, hfree, -⟩ := hwrites.of_create (hlog _ hmem).1
  have hdoc := hwrites.found_self ho
  rw [ho] at hfree ⊢
  constructor
  · refine Option.eq_none_iff_forall_ne_some.2 fun doc' hthere => ?_
    have := hbefore.found_isSome (Option.isSome_of_eq_some hthere)
    rw [hfree] at this
    cases this
  · rw [hafter.found_of_not_visited fun e he =>
      hafter.not_created (Option.isSome_of_eq_some hdoc) e he
        (hlog e (List.mem_append_right _ (List.mem_cons_of_mem _ he))).1, hdoc]

/-- No two documents are created in one place. -/
theorem nodup_creations (h : r.Follows c log c') (hlog : log.Creates) :
    (log.map fun e => (e.1.entity.collection, e.1.id)).Nodup := by
  induction h with
  | nil => exact List.nodup_nil
  | @cons c₀ c₁ _ v doc rest hwrites hrest ih =>
    have hlog' : Log.Creates rest := fun e he => hlog e (List.mem_cons_of_mem _ he)
    rw [List.map_cons, List.nodup_cons]
    refine ⟨fun hmem => ?_, ih hlog'⟩
    obtain ⟨e, he, hsame⟩ := List.mem_map.1 hmem
    obtain ⟨hcollection, hid⟩ := Prod.mk.inj hsame
    obtain ⟨o, ho⟩ := hrest.exists_id hlog' he
    have hdoc := hwrites.found_self (hid ▸ ho)
    exact hrest.not_created (Option.isSome_of_eq_some hdoc) e he (hlog' e he).1
      (Visit.isAt_id_iff.2 ⟨hcollection, ho⟩)

/-- What was there stays as it is. -/
theorem found_of_found (h : r.Follows c log c') (hlog : log.Creates) {name : String} {id : Value}
    {doc : Document} (hfound : c.found name id = some doc) : c'.found name id = some doc := by
  rw [h.found_of_not_visited fun e he hat => ?_, hfound]
  obtain ⟨o, ho⟩ := h.exists_id hlog he
  obtain ⟨hcollection, hid⟩ := hat
  rw [ho] at hid
  obtain rfl := Value.eq_id_iff.1 hid
  exact h.not_created (Option.isSome_of_eq_some hfound) e he (hlog e he).1
    (Visit.isAt_id_iff.2 ⟨hcollection, ho⟩)

end Registry.Follows

/-! ## Planted trees -/

/-- **A tree was planted** between two stores: every visit of the log left a new document, and
nothing else changed. -/
structure MemoryStore.Planted (m m' : MemoryStore) (log : Log) : Prop where
  /-- the identifiers are those that the store made last -/
  numbered : ∃ n, m'.lastId = n + log.length ∧
    log.map (fun e => e.1.id) = (List.range' (n + 1) log.length).map fun i => .id (.ofNat i)
  distinct : (log.map fun e => (e.1.entity.collection, e.1.id)).Nodup
  free : ∀ e ∈ log, (m.collections.get e.1.entity.collection).get? e.1.id = none
  stored : ∀ e ∈ log, (m'.collections.get e.1.entity.collection).get? e.1.id = some e.2 ∧
    e.1.IsNew e.2
  kept : ∀ name id doc, (m.collections.get name).get? id = some doc →
    (m'.collections.get name).get? id = some doc
  others : ∀ name id, (∀ e ∈ log, ¬ e.1.IsAt name id) →
    (m'.collections.get name).get? id = (m.collections.get name).get? id

/-- **A committed tour of creations plants a tree.** -/
theorem Executor.Commits.planted {r : Registry} {js : List Job} {log : Log} {m m' : MemoryStore}
    (h : Executor.Commits r js log m m') (hspares : r.SparesId)
    (hstate : ∀ n d, r.lookup n = .ok d → ∀ f ∈ d.entity.fields, f.connectionField ≠ stateField)
    (hjs : ∀ j ∈ js, j.operation = .create ∧ j.link = none ∧ r.Plants j.target j.args) :
    (∀ e ∈ log, e.1.operation = .create) ∧ MemoryStore.Planted m m' log := by
  obtain ⟨n, hfollows⟩ := h.follows
  have hnone : ∀ j ∈ js, j.link = none := fun j hj => (hjs j hj).2.1
  have hcreates : log.Creates := fun e he =>
    have hvisit := List.mem_map_of_mem (f := Prod.fst) he
    ⟨h.tours.creates (fun j hj => ⟨(hjs j hj).1, (hjs j hj).2.2⟩) e.1 hvisit,
      hspares.visits h.tours hnone e.1 hvisit⟩
  have hlinks := h.tours.link_ne hstate fun j hj l hl => by cases (hnone j hj).symm.trans hl
  refine ⟨fun e he => (hcreates e he).1, ⟨n, hfollows.numbered hcreates⟩,
    hfollows.nodup_creations hcreates, fun e he => (hfollows.found_of_creation hcreates he).1,
    fun e he => ⟨(hfollows.found_of_creation hcreates he).2, ?_⟩,
    fun name id doc => hfollows.found_of_found hcreates, fun name id =>
    hfollows.found_of_not_visited⟩
  obtain ⟨_, _, _, _, -, -, hwrites, -⟩ := hfollows.writes_of_mem he
  exact hwrites.isNew (hcreates e he).1 (hcreates e he).2 (hlinks e.1 (List.mem_map_of_mem he))

namespace Dispatcher

variable {x : Dispatcher τ SessionId} {c : Component τ MemoryStore}

/-- **An addition plants the tree of its arguments.** A call that adds documents, from arguments
that only add, and returns, has made a tour: one visit for the root and one for each item that is
added to a list of related documents, all of them creations. Each visit left a new document in the
collection of its entity, with an identifier that the store made; a document with states is in the
first one; a child has the identifier of the document that it was added to under the connection
field. Everything that was stored before is stored as it was. -/
theorem call_plants (h : x.Checking c) (hspares : x.executor.registry.SparesId)
    (hstate : ∀ n d, x.executor.registry.lookup n = .ok d → ∀ f ∈ d.entity.fields,
      f.connectionField ≠ stateField)
    {name : String} {ep : Endpoint} (hep : Record.get? x.endpoints name = some ep)
      (hk : ep.kind = .save)
    {d : Descriptor} (hroot : x.executor.registry.lookup (ep.entity.getD "") = .ok d) {t t₁ t' : τ}
      {q q₁ q' : Call}
    (hpasses : x.Passes ep t q t₁ q₁) (hd : (c.get t₁).collections.Distinct)
    (hplants : x.executor.registry.Plants d.name q₁.args) {v : Value}
    (hr : (x.call name).run.run (t, q) = (.ok v, (t', q'))) :
    ∃ log, x.executor.registry.Tours [⟨.create, d.name, none, q₁.args⟩] (log.map Prod.fst) ∧
      (∀ e ∈ log, e.1.operation = .create) ∧ MemoryStore.Planted (c.get t₁) (c.get t') log ∧
      ∀ e ∈ log, ∀ f ∈ e.1.entity.entity.fields, ∀ delta, deltaOf? f e.1.args = some delta →
        ∀ item ∈ delta.added, ∃ child ∈ log,
          child.1.toJob = ⟨.create, f.target.getD "", some (f.connectionField, e.1.id), item⟩ ∧
          Record.get? child.2 f.connectionField = some e.1.id := by
  obtain ⟨job, log, hasked, hcommits⟩ := h.commits_call hep (.inl hk) hpasses hd hr
  obtain rfl : job = ⟨.create, d.name, none, q₁.args⟩ := by
    cases hasked with
    | save _ hd' =>
      obtain rfl := Except.ok.inj (hroot.symm.trans hd')
      rfl
    | update hk' => cases hk.symm.trans hk'
    | state hk' => cases hk.symm.trans hk'
  obtain ⟨hcreates, hplanted⟩ := hcommits.planted hspares hstate fun j hj => by
    obtain rfl := List.mem_singleton.1 hj
    exact ⟨rfl, rfl, hplants⟩
  refine ⟨log, hcommits.tours, hcreates, hplanted, fun e he f hf delta hdelta item hitem => ?_⟩
  obtain ⟨w, hw, hjob⟩ := hcommits.tours.exists_child_visit (List.mem_map_of_mem he)
    (Visit.mem_jobs.2 ⟨f, hf, delta, hdelta, .inl ⟨item, hitem, rfl⟩⟩)
  obtain ⟨child, hchild, rfl⟩ := List.mem_map.1 hw
  exact ⟨child, hchild, hjob, (hplanted.stored child hchild).2.linked _ _ (Job.mk.inj hjob).2.2.1⟩

end Dispatcher

/-! ## Projects and ships -/

theorem desk_checking : desk.Checking ⟨id, fun m _ => m⟩ where
  component := fun _ _ => rfl
  store := rfl
  sleep := fun _ _ => rfl
  validates := fun _ => EntityBehaviour.validates_none _

/-- The keys of the desk are neither that of the identifier nor that of the state, but for the state
itself. -/
theorem desk_keys {n : String} {d : Descriptor} (hd : deskRegistry.lookup n = .ok d) :
    ∀ f ∈ d.entity.fields, (f.documentKey ≠ "_id" ∧ f.storedKey ≠ "_id" ∧
      f.connectionField ≠ "_id") ∧
      f.connectionField ≠ stateField := by
  obtain ⟨hentity, -⟩ | ⟨hentity, -⟩ := desk_descriptor (Registry.get?_of_lookup hd) <;>
    · rw [hentity]
      decide

/-- Without lists of related documents there is nothing to plant. -/
theorem plants_task (item : Value) : deskRegistry.Plants "Task" item := by
  have hnone : ∀ d, deskRegistry.lookup "Task" = .ok d → ∀ f ∈ d.entity.fields, ∀ delta,
      deltaOf? f item = some delta → False := by
    intro d hd f hf delta hdelta
    obtain ⟨-, -, -, hname⟩ | ⟨hentity, -⟩ := desk_descriptor (Registry.get?_of_lookup hd)
    · exact absurd hname (by decide)
    · rw [hentity] at hf
      have hlist := (by decide : ∀ f ∈ task.fields, f.isReferencedList = false) f hf
      rw [isReferencedList_of_deltaOf? hdelta] at hlist
      cases hlist
  exact .intro (fun d hd f hf delta hdelta => (hnone d hd f hf delta hdelta).elim)
    fun d hd f hf delta hdelta => (hnone d hd f hf delta hdelta).elim

theorem plants_project : deskRegistry.Plants "Project" addProject.args := by
  have hdelta : ∀ d, deskRegistry.lookup "Project" = .ok d → ∀ f ∈ d.entity.fields, ∀ delta,
      deltaOf? f addProject.args = some delta → delta.updated = [] ∧ f.target.getD "" = "Task" := by
    intro d hd f hf delta hdelta
    obtain ⟨hentity, -⟩ | ⟨-, -, -, hname⟩ := desk_descriptor (Registry.get?_of_lookup hd)
    · rw [hentity] at hf
      obtain rfl := List.mem_singleton.1 hf
      cases hdelta
      exact ⟨rfl, rfl⟩
    · exact absurd hname (by decide)
  refine .intro (fun d hd f hf delta h => (hdelta d hd f hf delta h).1)
    fun d hd f hf delta h item _ => ?_
  rw [(hdelta d hd f hf delta h).2]
  exact plants_task item

/-- The project is planted with its task, which is open. -/
theorem desk_plants : ∃ p q project task,
    (afterAdding.collections.get "projects").get? p = some project ∧
    Record.get? project "_id" = some p ∧ (afterAdding.collections.get "tasks").get? q = some task ∧
      Record.get? task "_id" = some q ∧ Record.get? task "project" = some p ∧
        Record.get? task stateField = some (.text "open") := by
  have hep : Record.get? desk.endpoints "addProject" =
    some ⟨"addProject", .save, some "Project", none⟩ := rfl
  obtain ⟨d, hd⟩ : ∃ d, deskRegistry.lookup "Project" = .ok d := ⟨_, rfl⟩
  obtain ⟨hentity, hcollection, -⟩ | ⟨-, -, -, hname⟩ :=
    desk_descriptor (Registry.get?_of_lookup hd)
  swap
  · exact absurd hname (by decide)
  have hname : d.name = "Project" := by
    rw [Descriptor.name, hentity]
    rfl
  obtain ⟨v, hv⟩ : ∃ v, ((desk.call "addProject").run.run (.empty, addProject)).1 = .ok v :=
    ⟨_, by cbv⟩
  obtain ⟨log, htours, -, hplanted, hchildren⟩ := Dispatcher.call_plants desk_checking
    (fun n d hd f hf => (desk_keys hd f hf).1) (fun n d hd f hf => (desk_keys hd f hf).2) hep rfl hd
    (Dispatcher.passes_of_none rfl rfl _ _) (Collections.distinct_of_forall fun e he =>
    absurd he List.not_mem_nil) (by rw [hname]; exact plants_project) (Prod.ext hv rfl)
  rw [hname] at htours
  obtain ⟨u, hu, hjob⟩ := htours.exists_visit (List.mem_singleton_self _)
  obtain ⟨-, htarget, -, hargs⟩ := Job.mk.inj hjob
  have hroot := htours.lookup hu
  rw [htarget] at hroot
  obtain rfl := Except.ok.inj (hd.symm.trans hroot)
  obtain ⟨⟨u, doc⟩, hmem, rfl⟩ := List.mem_map.1 hu
  obtain ⟨hproject, hnew⟩ := hplanted.stored _ hmem
  obtain ⟨⟨w, child⟩, hw, hjob, hlink⟩ :=
    hchildren _ hmem ⟨"tasks", .entity "Task", true, true, false, false,
      some ⟨false, "project", .null⟩, .null⟩ (by rw [hentity]; exact List.mem_singleton_self _)
    ⟨[.object [("title", .text "Read")]], [], []⟩ (by rw [hargs]; rfl) _ (List.mem_singleton_self _)
  obtain ⟨-, htarget, -⟩ := Job.mk.inj hjob
  have htask := htours.lookup (List.mem_map_of_mem hw)
  rw [htarget] at htask
  obtain ⟨-, -, -, hname⟩ | ⟨-, htasks, hmachine, -⟩ :=
    desk_descriptor (Registry.get?_of_lookup htask)
  · exact absurd hname (by decide)
  obtain ⟨hchild, hnew'⟩ := hplanted.stored _ hw
  rw [hcollection] at hproject
  rw [htasks] at hchild
  exact ⟨_, _, _, _, hproject, hnew.identifier, hchild, hnew'.identifier, hlink,
    hnew'.initial _ hmachine⟩

/-- The list of the sailors of a ship, under the name of the identifier. -/
def sailorsField : FieldDef :=
  ⟨"id", .entity "Sailor", true, true, false, false, some ⟨false, "ship", .null⟩, .null⟩

/-- A ship has sailors. -/
def ship : Entity where
  name := "Ship"
  fields := [sailorsField]
  description := .null
  names_nodup := by decide

/-- A sailor has a name. -/
def sailor : Entity where
  name := "Sailor"
  fields := [textField "name"]
  description := .null
  names_nodup := by decide

/-- The registry of the service. -/
def fleetRegistry : Registry :=
  (Registry.finalize.run.run ⟨[
    ("Ship", ⟨ship, "ships", some "ship", some "ships", none, true, none, []⟩),
    ("Sailor", ⟨sailor, "sailors", some "sailor", some "sailors", none, true, none, []⟩)], [],
    false⟩).2

/-- A service of ships and sailors. -/
def fleet : Dispatcher MemoryStore SessionId where
  executor := {
    registry := fleetRegistry
    behaviour := ⟨fun _ => .none, fun _ _ _ => throw .illTyped⟩
    store := MemoryStore.documentStore.within ⟨id, fun m _ => m⟩
    policy := ⟨2, fun n => .ok (.whole n), fun _ => pure (), Nat.two_pos⟩ }
  endpoints := (Endpoint.table .everything fleetRegistry).toOption.getD []
  middleware := []
  defaultLimit := 10

/-- A ship is added with a sailor. -/
def addShip : Call :=
    ⟨.object [("id", .object [("added", .list [.object [("name", .text "Ann")]])])], []⟩

/-- The store after the ship was added. -/
def afterShip : MemoryStore := ((fleet.call "addShip").run.run (.empty, addShip)).2.1

theorem fleet_checking : fleet.Checking ⟨id, fun m _ => m⟩ where
  component := fun _ _ => rfl
  store := rfl
  sleep := fun _ _ => rfl
  validates := fun _ => EntityBehaviour.validates_none _

/-- The keys of the fleet are neither that of the identifier nor that of the state. -/
theorem fleet_keys {n : String} {d : Descriptor} (hd : fleetRegistry.lookup n = .ok d) :
    ∀ f ∈ d.entity.fields, (f.documentKey ≠ "_id" ∧ f.storedKey ≠ "_id" ∧
      f.connectionField ≠ "_id") ∧
      f.connectionField ≠ stateField := by
  obtain ⟨p, q, hdescriptors⟩ : ∃ p q, fleetRegistry.descriptors = [
      ("Ship", ⟨ship, "ships", some "ship", some "ships", none, true, p, []⟩),
      ("Sailor", ⟨sailor, "sailors", some "sailor", some "sailors", none, true, q, []⟩)] :=
      ⟨_, _, rfl⟩
  have hmem := Record.mem_of_get?_eq_some (Registry.get?_of_lookup hd)
  rw [hdescriptors] at hmem
  have hentity : d.entity = ship ∨ d.entity = sailor := by
    rcases List.mem_cons.1 hmem with hmem | hmem
    · cases hmem
      exact .inl rfl
    · cases List.mem_singleton.1 hmem
      exact .inr rfl
  rcases hentity with hentity | hentity <;>
    · rw [hentity]
      decide

/-- **Items that are not planted.** The sailors of a ship are a list of related documents, and one
is added with the ship; the call returns, and there is no sailor. -/
theorem fleet_ignores_sailors : fleet.Checking ⟨id, fun m _ => m⟩ ∧
    (∀ n d, fleetRegistry.lookup n = .ok d → ∀ f ∈ d.entity.fields,
      (f.documentKey ≠ "_id" ∧ f.storedKey ≠ "_id" ∧ f.connectionField ≠ "_id") ∧
        f.connectionField ≠ stateField) ∧
    sailorsField ∈ ship.fields ∧ sailorsField.kind = .ok .referencedList ∧
      sailorsField.target = some "Sailor" ∧
    (presentArgument? sailorsField addShip.args).bind Delta.ofValue? =
      some ⟨[.object [("name", .text "Ann")]], [], []⟩ ∧
    ((fleet.call "addShip").run.run (.empty, addShip)).1 = .ok (.object [("_id", .id (.ofNat 1))]) ∧
    afterShip.documents "sailors" = [] := by
  refine ⟨fleet_checking, fun n d hd => fleet_keys hd, List.mem_singleton_self _, rfl, rfl, rfl, ?_,
    ?_⟩ <;> cbv

end EntityGraph
