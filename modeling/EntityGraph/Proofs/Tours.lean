import EntityGraph.Proofs.Composition
import EntityGraph.Proofs.Upkeep

/-!
# The tour of a write

A write visits documents one after the other. What there is to do can be read off its arguments: a
document is created or updated, and every item that they add to a list of related documents, or
change there, is a job of its own, linked to the document (`Visit.jobs`). A new document is written
before its children, a changed one after them (`Visit.around`). So the jobs of a write determine its
visits, but for the identifiers of new documents (`Registry.Tours`). What a visit writes is a matter
of its arguments, of its link and of the document that it finds (`Visit.Writes`).

A write that returns has made such a tour, and what it wrote is what the visits write in their order
(`Executor.Checking.toured_saveIn`, `toured_updateIn`). A service call commits all of it
(`logs_transact`).
-/

namespace EntityGraph

open MemoryStore (applyUpdate Wrote)

variable {τ α : Type}

/-! ## Jobs and visits -/

/-- **A job**: a document of an entity is to be created or updated from arguments, and linked. -/
structure Job where
  operation : Operation
  target : String
  link : Option ParentLink
  args : Value

/-- **A visit** does a job at a document of the entity, stored under the identifier. -/
structure Visit extends Job where
  entity : Descriptor
  id : Value

/-- What was written at each visit. -/
abbrev Log : Type := List (Visit × Document)

/-- The jobs among the arguments of a field, linked to the parent: what is added to a list of
related documents, and then what is updated there. -/
def FieldDef.jobs (parent args : Value) (f : FieldDef) : List Job :=
  match deltaOf? f args with
  | none => []
  | some delta =>
    delta.added.map (⟨.create, f.target.getD "", some (f.connectionField, parent), ·⟩) ++
      delta.updated.map (⟨.update, f.target.getD "", some (f.connectionField, parent), ·⟩)

namespace Visit

/-- The jobs that the arguments of a visit bring with them, linked to its document. -/
def jobs (v : Visit) : List Job := v.entity.entity.fields.flatMap (FieldDef.jobs v.id v.args)

/-- A visit among those to its children: a document is created before them, and updated after
them. -/
def around (v : Visit) (children : List α) (a : α) : List α :=
  match v.operation with
  | .create => a :: children
  | _ => children ++ [a]

/-- The jobs of a visit come from the changes in its arguments. -/
theorem mem_jobs {v : Visit} {j : Job} : j ∈ v.jobs ↔ ∃ f ∈ v.entity.entity.fields, ∃ delta,
    deltaOf? f v.args = some delta ∧
      ((∃ item ∈ delta.added, j = ⟨.create, f.target.getD "", some (f.connectionField, v.id),
        item⟩) ∨
        ∃ item ∈ delta.updated, j = ⟨.update, f.target.getD "", some (f.connectionField, v.id),
          item⟩) := by
  unfold jobs FieldDef.jobs
  rw [List.mem_flatMap]
  refine exists_congr fun f => and_congr_right fun _ => ?_
  cases deltaOf? f v.args with
  | none => simp
  | some delta => simp [eq_comm]

theorem mem_around {v : Visit} {children : List α} {a b : α} :
    b ∈ v.around children a ↔ b = a ∨ b ∈ children := by
  unfold around
  split
  · exact List.mem_cons
  · rw [List.mem_append, List.mem_singleton, or_comm]

end Visit

/-- An entity that is looked up is registered. -/
theorem Registry.get?_of_lookup {r : Registry} {n : String} {d : Descriptor}
    (h : r.lookup n = .ok d) :
    Record.get? r.descriptors n = some d := by
  rw [Registry.lookup] at h
  split at h
  · rename_i d' hd'
    cases h
    exact hd'
  · cases h

/-- **The visits that do jobs**, one job after the other, each with the jobs that it brings with
it. -/
inductive Registry.Tours (r : Registry) : List Job → List Visit → Prop where
  | nil : r.Tours [] []
  | cons {v : Visit} {jobs : List Job} {children rest : List Visit}
    (hentity : r.lookup v.target = .ok v.entity)
      (hown : v.entity.hasEndpoints = true) (hchildren : r.Tours v.jobs children)
      (hrest : r.Tours jobs rest) :
      r.Tours (v.toJob :: jobs) (v.around children v ++ rest)

namespace Registry.Tours

variable {r : Registry} {js ks : List Job} {vs ws : List Visit}

theorem append (h : r.Tours js vs) (h' : r.Tours ks ws) : r.Tours (js ++ ks) (vs ++ ws) := by
  induction h with
  | nil => exact h'
  | cons hentity hown hchildren _ _ ih =>
    rw [List.cons_append, List.append_assoc]
    exact .cons hentity hown hchildren ih

/-- A single job. -/
theorem single {v : Visit} (hentity : r.lookup v.target = .ok v.entity)
    (hown : v.entity.hasEndpoints = true) (h : r.Tours v.jobs vs) :
    r.Tours [v.toJob] (v.around vs v) := by
  have htour := Tours.cons hentity hown h .nil
  rwa [List.append_nil] at htour

/-- The first job and the others. -/
theorem exists_first {j : Job} (h : r.Tours (j :: js) vs) :
    ∃ (v : Visit) (children rest : List Visit), v.toJob = j ∧ r.lookup v.target = .ok v.entity ∧
      r.Tours v.jobs children ∧ r.Tours js rest ∧
      vs = v.around children v ++ rest := by
  cases h with
  | cons hentity _ hchildren hrest => exact ⟨_, _, _, rfl, hentity, hchildren, hrest, rfl⟩

/-- Without jobs there are no visits. -/
theorem eq_nil (h : r.Tours [] vs) : vs = [] := by
  cases h
  rfl

/-- A visit is to a document of its entity. -/
theorem lookup (h : r.Tours js vs) {v : Visit} (hv : v ∈ vs) :
    r.lookup v.target = .ok v.entity := by
  induction h with
  | nil => cases hv
  | cons hentity _ _ _ ihchildren ihrest =>
    rcases List.mem_append.1 hv with hv | hv
    · rcases Visit.mem_around.1 hv with rfl | hv
      · exact hentity
      · exact ihchildren hv
    · exact ihrest hv

/-- **What holds of the jobs** of a tour: `P` does when visits pass it on to the jobs that they
bring with them. -/
theorem forall_job {P : Job → Prop} (h : r.Tours js vs)
    (hstep : ∀ v : Visit, r.lookup v.target = .ok v.entity → P v.toJob → ∀ j ∈ v.jobs, P j)
    (hjs : ∀ j ∈ js, P j) :
    ∀ v ∈ vs, P v.toJob := by
  induction h with
  | nil => exact fun _ hv => absurd hv List.not_mem_nil
  | cons hentity _ _ _ ihchildren ihrest =>
    intro u hu
    have hv := hjs _ (List.mem_cons_self ..)
    rcases List.mem_append.1 hu with hu | hu
    · rcases Visit.mem_around.1 hu with rfl | hu
      · exact hv
      · exact ihchildren (hstep _ hentity hv) u hu
    · exact ihrest (fun j hj => hjs j (List.mem_cons_of_mem _ hj)) u hu

/-- **Every job is done**, at one of the visits. -/
theorem exists_visit (h : r.Tours js vs) {j : Job} (hj : j ∈ js) : ∃ v ∈ vs, v.toJob = j := by
  induction h with
  | nil => cases hj
  | cons _ _ _ _ _ ih =>
    rcases List.mem_cons.1 hj with rfl | hj
    · exact ⟨_, List.mem_append_left _ (Visit.mem_around.2 (.inl rfl)), rfl⟩
    · obtain ⟨v, hv, hjob⟩ := ih hj
      exact ⟨v, List.mem_append_right _ hv, hjob⟩

/-- So are the jobs that a visit brings with it. -/
theorem exists_child_visit (h : r.Tours js vs) {u : Visit} (hu : u ∈ vs) {j : Job}
    (hj : j ∈ u.jobs) :
    ∃ v ∈ vs, v.toJob = j := by
  induction h with
  | nil => cases hu
  | cons _ _ hchildren _ ihchildren ihrest =>
    rcases List.mem_append.1 hu with hu | hu
    · rcases Visit.mem_around.1 hu with rfl | hu
      · obtain ⟨v, hv, hjob⟩ := hchildren.exists_visit hj
        exact ⟨v, List.mem_append_left _ (Visit.mem_around.2 (.inr hv)), hjob⟩
      · obtain ⟨v, hv, hjob⟩ := ihchildren hu
        exact ⟨v, List.mem_append_left _ (Visit.mem_around.2 (.inr hv)), hjob⟩
    · obtain ⟨v, hv, hjob⟩ := ihrest hu
      exact ⟨v, List.mem_append_right _ hv, hjob⟩

end Registry.Tours

/-! ## Documents and their changes -/

/-- **What there is**: the document under each identifier of each collection, and the number of the
last identifier that was made. -/
structure Holdings where
  found : (collection : String) → (id : Value) → Option Document
  lastId : Nat

/-- What collections hold. -/
def Collections.holdings (cs : Collections) (lastId : Nat) : Holdings :=
    ⟨fun name id => (cs.get name).get? id, lastId⟩

/-- Collections are distinct when each of them is. -/
theorem Collections.distinct_of_forall {cs : Collections} (h : ∀ e ∈ cs, e.2.Distinct) :
    cs.Distinct := by
  intro name
  unfold Collections.get
  rcases hget : Record.get? cs name with _ | c
  · exact Collection.distinct_nil
  · exact h _ (Record.mem_of_get?_eq_some hget)

namespace Holdings

/-- Put a document under an identifier. -/
def put (c : Holdings) (collection : String) (id : Value) (doc : Document) : Holdings :=
  { c with found := fun name other =>
      if collection = name ∧ id.eq other = true then some doc else c.found name other }

/-- The document that is filed when another one is to be: one with an identifier, which is made if
need be. -/
def filed (c : Holdings) (doc : Document) : Document :=
  if Record.has doc "_id" then doc else Record.put doc "_id" (.id (ObjectId.ofNat (c.lastId + 1)))

/-- One more identifier was made. -/
def numbered (c : Holdings) : Holdings := { c with lastId := c.lastId + 1 }

end Holdings

/-- **What an update makes of a document**: what was made is laid over it, and the keys of nulls are
removed. -/
def Materialized.Turns (made : Materialized) (fields : List FieldDef)
    (current doc : Document) : Prop :=
  ∃ changes, Executor.mergeEmbedded current fields made.document = .ok changes ∧
    applyUpdate (.object (Executor.updateParts (if changes.isEmpty then none else some changes)
    made.unset)) current =
      .ok doc

/-- **What a visit writes**, with what there is before and after it. -/
inductive Visit.Writes (r : Registry) (v : Visit) (c : Holdings) : Document → Holdings → Prop where
  | create {made : Materialized} (hop : v.operation = .create)
    (hmade : r.Makes v.entity.entity v.link v.args made)
      (hid : Record.get? (c.filed (Executor.inFirstState v.entity made.document)) "_id" = some v.id)
      (hkey : v.id.isKey = true) (hfree : c.found v.entity.collection v.id = none) :
      v.Writes r c (c.filed (Executor.inFirstState v.entity made.document))
        (c.put v.entity.collection v.id
        (c.filed (Executor.inFirstState v.entity made.document))).numbered
  | update {made : Materialized} {o : ObjectId} {current doc : Document}
    (hop : v.operation = .update)
      (hnames : NamesDocument v.args o) (hid : v.id = .id o)
      (hmade : r.Makes v.entity.entity v.link v.args made)
      (hcurrent : c.found v.entity.collection (.id o) = some current)
      (hturns : made.Turns v.entity.entity.fields current doc) :
      v.Writes r c doc (c.put v.entity.collection (.id o) doc)

/-- **The visits of a log**, one after the other. -/
inductive Registry.Follows (r : Registry) : Holdings → Log → Holdings → Prop where
  | nil {c : Holdings} : r.Follows c [] c
  | cons {c c' c'' : Holdings} {v : Visit} {doc : Document} {log : Log} (h : v.Writes r c doc c')
      (hrest : r.Follows c' log c'') : r.Follows c ((v, doc) :: log) c''

theorem Registry.Follows.append {r : Registry} {c c' c'' : Holdings} {log log' : Log}
    (h : r.Follows c log c') (h' : r.Follows c' log' c'') : r.Follows c (log ++ log') c'' := by
  induction h with
  | nil => exact h'
  | cons h _ ih => exact .cons h (ih h')

theorem Registry.Follows.single {r : Registry} {c c' : Holdings} {v : Visit} {doc : Document}
    (h : v.Writes r c doc c') : r.Follows c [(v, doc)] c' := .cons h .nil

/-! ## What visits change -/

/-- What equals the identifier of an object is this identifier. -/
theorem Value.eq_id_iff {o : ObjectId} {v : Value} : (Value.id o).eq v = true ↔ v = .id o := by
  cases v with
  | id o' =>
    change (o == o') = true ↔ _
    rw [beq_iff_eq, Value.id.injEq, eq_comm]
  | _ => simp [Value.eq]

theorem Value.eq_of_eq_id {o : ObjectId} {v : Value} (h : v.eq (.id o) = true) : v = .id o := by
  cases v with
  | id o' => exact (Value.eq_id_iff.1 h).symm
  | _ => simp [Value.eq, Value.eqNumber, Value.number?] at h

/-- A visit is to the document of an identifier. -/
def Visit.IsAt (v : Visit) (collection : String) (id : Value) : Prop :=
  v.entity.collection = collection ∧ v.id.eq id = true

theorem Visit.isAt_id_iff {v : Visit} {collection : String} {o : ObjectId} :
    v.IsAt collection (.id o) ↔ v.entity.collection = collection ∧ v.id = .id o :=
  and_congr_right fun _ => ⟨Value.eq_of_eq_id, fun hid => by rw [hid]; exact Value.eq_id_iff.2 rfl⟩

/-- **A visit changes one document**, its own. -/
theorem Visit.Writes.found {r : Registry} {v : Visit} {c c' : Holdings} {doc : Document}
    (h : v.Writes r c doc c') (name : String) (id : Value) :
    v.IsAt name id ∧ c'.found name id = some doc ∨ ¬ v.IsAt name id ∧
      c'.found name id = c.found name id := by
  have hput : ∀ c₁ : Holdings, c₁.found name id =
    (c.put v.entity.collection v.id doc).found name id →
      v.IsAt name id ∧ c₁.found name id = some doc ∨ ¬ v.IsAt name id ∧
      c₁.found name id = c.found name id :=
    fun c₁ heq => by
      rw [heq, Holdings.put]
      by_cases hat : v.IsAt name id
      · exact .inl ⟨hat, if_pos hat⟩
      · exact .inr ⟨hat, if_neg hat⟩
  cases h with
  | create => exact hput _ rfl
  | update _ _ hid =>
    rw [← hid]
    exact hput _ rfl

/-- What a visit writes is found at its own place. -/
theorem Visit.Writes.found_self {r : Registry} {v : Visit} {c c' : Holdings} {doc : Document}
    {o : ObjectId} (h : v.Writes r c doc c') (hid : v.id = .id o) :
    c'.found v.entity.collection (.id o) = some doc := by
  rcases h.found v.entity.collection (.id o) with ⟨-, hdoc⟩ | ⟨hnot, -⟩
  · exact hdoc
  · exact absurd (Visit.isAt_id_iff.2 ⟨rfl, hid⟩) hnot

/-- An update finds the document that its arguments name, and turns it. -/
theorem Visit.Writes.of_update {r : Registry} {v : Visit} {c c' : Holdings} {doc : Document}
    (h : v.Writes r c doc c') (hop : v.operation = .update) :
    ∃ o made current, NamesDocument v.args o ∧ v.id = .id o ∧
      r.Makes v.entity.entity v.link v.args made ∧
      c.found v.entity.collection (.id o) = some current ∧
      made.Turns v.entity.entity.fields current doc := by
  cases h with
  | create hop' => cases hop.symm.trans hop'
  | update _ hnames hid hmade hcurrent hturns =>
    exact ⟨_, _, _, hnames, hid, hmade, hcurrent, hturns⟩

/-- A creation files a document under an identifier that was free. -/
theorem Visit.Writes.of_create {r : Registry} {v : Visit} {c c' : Holdings} {doc : Document}
    (h : v.Writes r c doc c') (hop : v.operation = .create) :
    ∃ made, r.Makes v.entity.entity v.link v.args made ∧
      doc = c.filed (Executor.inFirstState v.entity made.document) ∧
        Record.get? doc "_id" = some v.id ∧
      c.found v.entity.collection v.id = none ∧ c'.lastId = c.lastId + 1 := by
  cases h with
  | create _ hmade hid _ hfree => exact ⟨_, hmade, rfl, hid, hfree, rfl⟩
  | update hop' => cases hop.symm.trans hop'

/-- A visit creates a document or updates one. -/
theorem Visit.Writes.operation_cases {r : Registry} {v : Visit} {c c' : Holdings} {doc : Document}
    (h : v.Writes r c doc c') : v.operation = .create ∨ v.operation = .update := by
  cases h with
  | create hop => exact .inl hop
  | update hop => exact .inr hop

namespace Registry.Follows

variable {r : Registry} {c c' : Holdings} {log log' : Log} {name : String} {id : Value}

theorem split (h : r.Follows c (log ++ log') c') :
    ∃ c₁, r.Follows c log c₁ ∧ r.Follows c₁ log' c' := by
  induction log generalizing c with
  | nil => exact ⟨c, .nil, h⟩
  | cons e rest ih =>
    cases h with
    | cons hwrites hrest =>
      obtain ⟨c₁, hrest, h'⟩ := ih hrest
      exact ⟨c₁, .cons hwrites hrest, h'⟩

/-- Each visit of a log was made, between those before it and those after it. -/
theorem writes_of_mem (h : r.Follows c log c') {v : Visit} {doc : Document}
    (hmem : (v, doc) ∈ log) :
    ∃ before after c₁ c₂, log = before ++ (v, doc) ::
      after ∧ r.Follows c before c₁ ∧ v.Writes r c₁ doc c₂ ∧
      r.Follows c₂ after c' := by
  obtain ⟨before, after, rfl⟩ := List.append_of_mem hmem
  obtain ⟨c₁, hbefore, hrest⟩ := h.split
  cases hrest with
  | cons hwrites hrest => exact ⟨before, after, c₁, _, rfl, hbefore, hwrites, hrest⟩

/-- **A document that is not visited** stays as it is. -/
theorem found_of_not_visited (h : r.Follows c log c') (hnot : ∀ e ∈ log, ¬ e.1.IsAt name id) :
    c'.found name id = c.found name id := by
  induction h with
  | nil => rfl
  | cons hwrites _ ih =>
    rw [ih fun e he => hnot e (List.mem_cons_of_mem _ he)]
    rcases hwrites.found name id with ⟨hat, -⟩ | ⟨-, hsame⟩
    · exact absurd hat (hnot _ (List.mem_cons_self ..))
    · exact hsame

/-- No visit removes a document. -/
theorem found_isSome (h : r.Follows c log c') (hfound : (c.found name id).isSome = true) :
    (c'.found name id).isSome = true := by
  induction h with
  | nil => exact hfound
  | cons hwrites _ ih =>
    refine ih ?_
    rcases hwrites.found name id with ⟨-, hdoc⟩ | ⟨-, hsame⟩
    · rw [hdoc]
      rfl
    · rwa [hsame]

/-- What is there is not created again. -/
theorem not_created {o : ObjectId} (h : r.Follows c log c')
    (hfound : (c.found name (.id o)).isSome = true) :
    ∀ e ∈ log, e.1.operation = .create → ¬ e.1.IsAt name (.id o) := by
  rintro ⟨v, doc⟩ hmem hop hat
  obtain ⟨rfl, hid⟩ := Visit.isAt_id_iff.1 hat
  obtain ⟨before, after, rfl⟩ := List.append_of_mem hmem
  obtain ⟨c₁, hbefore, hrest⟩ := h.split
  have hthere := hbefore.found_isSome hfound
  cases hrest with
  | cons hwrites _ =>
    obtain ⟨-, -, -, -, hfree, -⟩ := hwrites.of_create hop
    rw [hid] at hfree
    rw [hfree] at hthere
    cases hthere

end Registry.Follows

/-! ## Identifiers -/

/-- **The identifier is kept apart**: no field and no link is stored under its key. -/
def Registry.SparesId (r : Registry) : Prop :=
  ∀ n d, r.lookup n = .ok d → ∀ f ∈ d.entity.fields,
    f.documentKey ≠ "_id" ∧ f.storedKey ≠ "_id" ∧ f.connectionField ≠ "_id"

/-- Visits are linked under connection fields. -/
theorem Registry.Tours.link_ne {r : Registry} {js : List Job} {vs : List Visit} (h : r.Tours js vs)
    {key : String} (hkey : ∀ n d, r.lookup n = .ok d → ∀ f ∈ d.entity.fields,
      f.connectionField ≠ key)
    (hjs : ∀ j ∈ js, ∀ l, j.link = some l → l.1 ≠ key) :
    ∀ v ∈ vs, ∀ l, v.link = some l → l.1 ≠ key := by
  refine h.forall_job (P := fun j => ∀ l, j.link = some l → l.1 ≠ key) (fun v hentity _ j hj l hl =>
    ?_) hjs
  obtain ⟨f, hf, delta, -, ⟨item, -, rfl⟩ | ⟨item, -, rfl⟩⟩ := Visit.mem_jobs.1 hj <;>
    · cases hl
      exact hkey _ _ hentity f hf

/-- **Fields that spare the identifier**, with a link that does. -/
structure Visit.SparesId (v : Visit) : Prop where
  document : ∀ f ∈ v.entity.entity.fields, f.documentKey ≠ "_id"
  stored : ∀ f ∈ v.entity.entity.fields, f.storedKey ≠ "_id"
  link : ∀ l, v.link = some l → l.1 ≠ "_id"

theorem Registry.SparesId.visits {r : Registry} (hr : r.SparesId) {js : List Job} {vs : List Visit}
    (h : r.Tours js vs) (hjs : ∀ j ∈ js, j.link = none) : ∀ v ∈ vs, v.SparesId := fun v hv =>
  have hfields := hr v.target v.entity (h.lookup hv)
  { document := fun f hf => (hfields f hf).1
    stored := fun f hf => (hfields f hf).2.1
    link := h.link_ne (fun n d hd f hf => (hr n d hd f hf).2.2)
      (fun j hj l hl => by cases (hjs j hj).symm.trans hl) v hv }

theorem Holdings.get?_filed_of_none {doc : Document} (h : Record.get? doc "_id" = none)
    (c : Holdings) :
    Record.get? (c.filed doc) "_id" = some (.id (.ofNat (c.lastId + 1))) := by
  rw [filed, Record.has, h, if_neg (by simp), Record.get?_put_self]

theorem Holdings.get?_filed_of_ne (c : Holdings) (doc : Document) {key : String} (h : key ≠ "_id") :
    Record.get? (c.filed doc) key = Record.get? doc key := by
  unfold filed
  split
  · rfl
  · rw [Record.get?_put, if_neg h.symm]

/-- **A new document has the next identifier** when nothing is stored under the key of the
identifier. -/
theorem Visit.Writes.id_of_create {r : Registry} {v : Visit} {c c' : Holdings} {doc : Document}
    (h : v.Writes r c doc c') (hop : v.operation = .create) (hv : v.SparesId) :
    v.id = .id (.ofNat (c.lastId + 1)) := by
  obtain ⟨made, hmade, rfl, hid, -⟩ := h.of_create hop
  have hnone : Record.get? (Executor.inFirstState v.entity made.document) "_id" = none := by
    unfold Executor.inFirstState
    split
    · rw [Record.get?_put, if_neg (ne_of_beq_false rfl), hmade.get?_of_apart hv.link hv.document]
    · exact hmade.get?_of_apart hv.link hv.document
  rw [Holdings.get?_filed_of_none hnone] at hid
  exact (Option.some.inj hid).symm

/-! ## Sessions -/

/-- **What a session finds**: its private copy, in which no identifier is filed twice. -/
def Finds (p : τ → MemoryStore) (s : SessionId) (t : τ) (c : Holdings) : Prop :=
  ∃ tr, (p t).transaction? (some s) = some tr ∧ tr.working.Distinct ∧
    tr.working.holdings (p t).lastId = c

/-- A document that is put in is found. -/
theorem Collections.holdings_after {cs : Collections} (h : cs.Distinct) (n : Nat)
    {collection : String} {id : Value} (hkey : id.isKey = true) (doc : Document) :
    (cs.after ⟨collection, id, some doc⟩).holdings n = (cs.holdings n).put collection id doc := by
  unfold holdings Holdings.put
  congr
  funext name other
  exact MemoryStore.get_writeTo h hkey ..

namespace Finds

variable {p : τ → MemoryStore} {s : SessionId} {t t' : τ} {c : Holdings}
  {r : Outcome (Option Document)}

theorem congr (h : Finds p s t c) (heq : p t' = p t) : Finds p s t' c := by
  rw [Finds, heq]
  exact h

/-- What is found in a session is what there is. -/
theorem get? (h : Finds p s t c) (collection : String) (id : Value) :
    (((p t).view (some s)).get collection).get? id = c.found collection id := by
  obtain ⟨tr, htr, -, rfl⟩ := h
  rw [MemoryStore.view_of_open htr]
  rfl

/-- After a write in the session. -/
theorem after {m : MemoryStore} (h : Finds id s m c) {collection : String} {key : Value}
    (hkey : key.isKey = true) (doc : Document) :
    Finds id s (m.after (some s) ⟨collection, key, some doc⟩) (c.put collection key doc) := by
  obtain ⟨tr, htr, hdistinct, rfl⟩ := h
  refine ⟨tr.after ⟨collection, key, some doc⟩, ?_, ?_, ?_⟩
  · have htr : m.transaction? (some s) = some tr := htr
    change (m.after (some s) ⟨collection, key, some doc⟩).transaction? (some s) = _
    rw [MemoryStore.transaction?_after, if_pos rfl, htr]
    rfl
  · exact MemoryStore.distinct_writeTo hdistinct collection key (some doc)
  · change (tr.working.after ⟨collection, key, some doc⟩).holdings
      (m.after (some s) ⟨collection, key, some doc⟩).lastId = _
    rw [MemoryStore.lastId_after, Collections.holdings_after hdistinct _ hkey]
    rfl

/-- **Creation** files a document under an identifier that was free. -/
theorem create {m m' : MemoryStore} (h : Finds id s m c) {collection : String}
    {doc stored : Document} (hr : (MemoryStore.create collection doc (some s)).run.run m =
      (.ok stored, m')) :
    stored = c.filed doc ∧ ∃ key, Record.get? (c.filed doc) "_id" = some key ∧ key.isKey = true ∧
      c.found collection key = none ∧
        Finds id s m' (c.put collection key (c.filed doc)).numbered := by
  have hfiled : m.filed doc = c.filed doc := by
    obtain ⟨tr, -, -, rfl⟩ := h
    rfl
  have hnumbered : Finds id s m.numbered c.numbered := by
    obtain ⟨tr, htr, hdistinct, rfl⟩ := h
    exact ⟨tr, htr, hdistinct, rfl⟩
  rw [MemoryStore.run_create_eq] at hr
  split at hr
  · cases hr
  split at hr
  · rename_i w hw
    cases hr
    obtain ⟨key, hid, hkey, hfree, -, rfl⟩ := MemoryStore.filing_eq_ok hw
    rw [hfiled] at hid
    have hfree : (((id m).view (some s)).get collection).get? key = none := hfree
    rw [h.get?] at hfree
    refine ⟨hfiled, key, hid, hkey, hfree, ?_⟩
    rw [hfiled]
    exact hnumbered.after hkey _
  · cases hr

/-- **An update** changes the document that is found. -/
theorem update {m m' : MemoryStore} (h : Finds id s m c) {collection : String} {o : ObjectId}
    {change : Value} {current : Document} (hcurrent : c.found collection (.id o) = some current)
    (hr : (MemoryStore.update collection (.id o) change (some s)).run.run m = (r, m'))
    {updated : Option Document} (hok : r = .ok updated) :
    ∃ doc, updated = some doc ∧ applyUpdate change current = .ok doc ∧
      Finds id s m' (c.put collection (.id o) doc) := by
  subst hok
  have hfound : (((id m).view (some s)).get collection).get? (.id o) = some current :=
    (h.get? ..).trans hcurrent
  rw [MemoryStore.run_update_eq] at hr
  split at hr
  · cases hr
  split at hr
  · rename_i w hw
    cases hr
    obtain ⟨before, doc, hkey, hbefore, happly, -, rfl⟩ := MemoryStore.changing_eq_ok hw
    obtain rfl := Option.some.inj (hfound.symm.trans hbefore)
    exact ⟨doc, rfl, happly, h.after hkey doc⟩
  · rename_i hnone
    obtain ⟨found, hlookup, hnone⟩ := bind_eq_ok hnone
    obtain ⟨-, hget⟩ := MemoryStore.lookupId_eq_ok hlookup
    obtain rfl := hfound.symm.trans hget
    obtain ⟨updated, -, hnone⟩ := bind_eq_ok hnone
    obtain ⟨_, -, hnone⟩ := bind_eq_ok hnone
    cases hnone
  · cases hr

/-- A session finds one thing. -/
theorem unique {c' : Holdings} (h : Finds p s t c) (h' : Finds p s t c') : c = c' := by
  obtain ⟨tr, htr, -, rfl⟩ := h
  obtain ⟨tr', htr', -, rfl⟩ := h'
  obtain rfl := Option.some.inj (htr.symm.trans htr')
  rfl

/-- After any writes in the session it is still open. -/
theorem of_wrote (h : Finds p s t c) {ws : List Write} (hw : Wrote s ws (p t) (p t')) :
    ∃ c', Finds p s t' c' := by
  obtain ⟨tr, htr, hdistinct, -⟩ := h
  refine ⟨_, tr.afterAll ws, ?_, ?_, rfl⟩
  · rw [hw.transaction?, htr]
    rfl
  · rw [Transaction.working_afterAll]
    exact MemoryStore.distinct_afterAll ws hdistinct

end Finds

/-! ## Committed attempts -/

namespace CommittedBy

variable {p : τ → MemoryStore} {body : SessionId → Action τ α} {v : α} {t t' t₁ t₂ : τ}
  {s : SessionId} {ws : List Write}

/-- The body starts from what was committed before. -/
theorem finds_start (h : CommittedBy p body v t t' s t₁ t₂ ws) (hd : (p t).collections.Distinct) :
    Finds p s t₁ ((p t).collections.holdings (p t₁).lastId) := ⟨_, h.fresh, hd, rfl⟩

/-- What the session finds in the end is committed. -/
theorem finds_end (h : CommittedBy p body v t t' s t₁ t₂ ws) (hd : (p t).collections.Distinct)
    (hlast : (p t').lastId = (p t₂).lastId) :
    Finds p s t₂ ((p t').collections.holdings (p t').lastId) := by
  obtain ⟨c, tr, htr, hdistinct, rfl⟩ := (h.finds_start hd).of_wrote h.wrote
  refine ⟨tr, htr, hdistinct, ?_⟩
  rw [h.wrote.transaction?, h.fresh] at htr
  obtain rfl := Option.some.inj htr
  rw [Transaction.working_afterAll]
  unfold Collections.holdings
  rw [hlast]
  congr
  funext name id
  exact (h.same.2 name id).symm

end CommittedBy

/-- **A committed session**: `W` says what was done in it. It began with the documents committed
before, and what it found in the end is committed. -/
def CommittedIn (p : τ → MemoryStore) (W : SessionId → τ → τ → Prop) (t t' : τ) : Prop :=
  ∃ s t₁ t₂ n, Finds p s t₁ ((p t).collections.holdings n) ∧ W s t₁ t₂ ∧
    Finds p s t₂ ((p t').collections.holdings (p t').lastId)

theorem CommittedIn.mono {p : τ → MemoryStore} {W W' : SessionId → τ → τ → Prop} {t t' : τ}
    (h : CommittedIn p W t t') (hW : ∀ s t₁ t₂ c, Finds p s t₁ c → W s t₁ t₂ → W' s t₁ t₂) :
    CommittedIn p W' t t' := by
  obtain ⟨s, t₁, t₂, n, hc, hw, hc'⟩ := h
  exact ⟨s, t₁, t₂, n, hc, hW s t₁ t₂ _ hc hw, hc'⟩

/-- A document that is put where it is already changes nothing. -/
theorem Holdings.put_self {c : Holdings} {collection : String} {o : ObjectId} {doc : Document}
    (h : c.found collection (.id o) = some doc) : c.put collection (.id o) doc = c := by
  unfold put
  congr
  funext name other
  split
  · rename_i hsame
    obtain ⟨rfl, hsame⟩ := hsame
    obtain rfl := Value.eq_id_iff.1 hsame
    exact h.symm
  · rfl

/-! ## Writing with visits -/

namespace Executor

/-- **A transaction commits a session** in which its body returned. -/
theorem committedIn_transact {p : τ → MemoryStore} {x : Executor τ SessionId} {t t' : τ}
    (hstore : x.store.OnMemory p) (hsleep : ∀ d t, p ((x.policy.sleep d).run.run t).2 = p t)
    {body : SessionId → Action τ α} (hbody : ∀ s, Confined p s (body s))
    (hd : (p t).collections.Distinct) {v : α}
    (hr : (x.transact body none).run.run t = (.ok v, t')) :
    CommittedIn p (fun s t₁ t₂ => (body s).run.run t₁ = (.ok v, t₂)) t t' := by
  rcases transact_numbered hstore hsleep hbody hd hr with ⟨⟨e, he⟩, -⟩ |
    ⟨v', s, t₁, t₂, ws, hv, hc, hlast⟩
  · cases he
  cases hv
  exact ⟨s, t₁, t₂, _, hc.finds_start hd, hc.ran, hc.finds_end hd hlast⟩

/-- **A service whose user code only validates**, on the memory store `p`. -/
structure Checking (x : Executor τ SessionId) (p : τ → MemoryStore) : Prop where
  store : x.store.OnMemory p
  sleep : ∀ d t, p ((x.policy.sleep d).run.run t).2 = p t
  validates : ∀ n, (x.behaviour.entity n).Validates p

/-- **A logged run**: whatever the session finds in `t`, visits were made with a log as `W` says,
and in `t'` the session finds what they wrote. -/
def Logs (x : Executor τ SessionId) (p : τ → MemoryStore) (s : SessionId) (W : Log → Prop)
    (t t' : τ) : Prop :=
  ∀ c, Finds p s t c → ∃ log c', W log ∧ x.registry.Follows c log c' ∧ Finds p s t' c'

/-- **A run that did jobs.** -/
abbrev Toured (x : Executor τ SessionId) (p : τ → MemoryStore) (s : SessionId) (js : List Job)
    (t t' : τ) : Prop :=
  x.Logs p s (fun log => x.registry.Tours js (log.map Prod.fst)) t t'

variable {p : τ → MemoryStore} {x : Executor τ SessionId} {s : SessionId}
  {ops : Operations τ SessionId} {t t' : τ} {c : Holdings} {d : Descriptor}
  {link : Option ParentLink} {args : Value}

theorem Toured.nil (h : p t' = p t) : x.Toured p s [] t t' :=
  fun c hc => ⟨[], c, .nil, .nil, hc.congr h⟩

theorem Toured.append {js ks : List Job} {t'' : τ} (h : x.Toured p s js t t')
    (h' : x.Toured p s ks t' t'') :
    x.Toured p s (js ++ ks) t t'' := by
  intro c hc
  obtain ⟨log, c', htour, hlog, hc'⟩ := h c hc
  obtain ⟨log', c'', htour', hlog', hc''⟩ := h' c' hc'
  refine ⟨log ++ log', c'', ?_, hlog.append hlog', hc''⟩
  dsimp only
  rw [List.map_append]
  exact htour.append htour'

/-- An entity with a collection of its own. -/
theorem descriptor_eq_ok {n : String} (h : x.descriptor n = .ok d) :
    x.registry.lookup n = .ok d ∧ d.hasEndpoints = true := by
  obtain ⟨d', hd', hown⟩ := bind_eq_ok h
  split at hown
  · rename_i hendpoints
    cases hown
    exact ⟨hd', hendpoints⟩
  · cases hown

/-- A visit that creates a document, and then the visits to its children. -/
theorem tours_create {v : Visit} {stored : Document} {c c₁ c' : Holdings} {log : Log}
    (hop : v.operation = .create) (hentity : x.descriptor v.target = .ok v.entity)
    (hwrites : v.Writes x.registry c stored c₁) (htour : x.registry.Tours v.jobs (log.map Prod.fst))
    (hlog : x.registry.Follows c₁ log c') :
    x.registry.Tours [v.toJob] (((v, stored) :: log).map Prod.fst) ∧
      x.registry.Follows c ((v, stored) :: log) c' := by
  obtain ⟨hlookup, hown⟩ := descriptor_eq_ok hentity
  have hsingle := htour.single hlookup hown
  rw [Visit.around, hop] at hsingle
  exact ⟨hsingle, .cons hwrites hlog⟩

/-- The visits to its children, and then a visit that updates the document. -/
theorem tours_update {v : Visit} {doc : Document} {c c₁ c' : Holdings} {log : Log}
    (hop : v.operation = .update) (hentity : x.descriptor v.target = .ok v.entity)
    (htour : x.registry.Tours v.jobs (log.map Prod.fst)) (hlog : x.registry.Follows c log c₁)
    (hwrites : v.Writes x.registry c₁ doc c') :
    x.registry.Tours [v.toJob] ((log ++ [(v, doc)]).map Prod.fst) ∧
      x.registry.Follows c (log ++ [(v, doc)]) c' := by
  obtain ⟨hlookup, hown⟩ := descriptor_eq_ok hentity
  have hsingle := htour.single hlookup hown
  rw [Visit.around, hop] at hsingle
  rw [List.map_append]
  exact ⟨hsingle, hlog.append (.single hwrites)⟩

namespace Checking

/-- What is made is made without the store. -/
theorem moves_materialize (h : x.Checking p) (operation : Operation) (entity : Entity)
    (link : Option ParentLink) (args : Value) :
    Moves (fun t t' => p t' = p t) (x.registry.Makes entity link args)
      ((x.materializer operation s).materialize entity link args) := by
  have hchecked : (x.materializer operation s).Checked fun t t' => p t' = p t :=
    checked_of_onlyChecks (fun n => (h.validates n).onlyChecks) (fun _ _ => id) (fun _ _ _ h h' =>
      h'.trans h) operation
  exact ((Materializer.moves_materialize hchecked entity link args).also
    (Materializer.moves_materialize_makes (leavesDocuments_of_validates h.validates operation)
    entity link args)).mono (fun _ _ => id) fun _ hmade => hmade.2

/-- **Saving a document** writes it, and goes on with its children. -/
theorem of_saveIn (h : x.Checking p) {stored : Document}
    (hr : (x.saveIn ops d link s args).run.run t = (.ok stored, t'))
    (hc : Finds p s t c) (target : String) :
    ∃ v : Visit, v.toJob = ⟨.create, target, link, args⟩ ∧ v.entity = d ∧ ∃ c₁ t₁,
      v.Writes x.registry c stored c₁ ∧
      Finds p s t₁ c₁ ∧ (x.applyDeltas ops d v.id s args d.entity.fields).run.run t₁ =
        (.ok ⟨⟩, t') := by
  rw [saveIn_eq (h.validates d.name).hooks] at hr
  obtain ⟨made, t₀, hmade, hr⟩ := Action.run_bind_eq_ok hr
  obtain ⟨hsame, hmakes⟩ := (h.moves_materialize .create d.entity link args).of_ok hmade
  obtain ⟨stored', t₁, hcreate, hr⟩ := Action.run_bind_eq_ok hr
  obtain ⟨rfl, key, hid, hkey, hfree, hc₁⟩ :=
    (hc.congr hsame).create ((h.store.create _ _ _).run hcreate)
  obtain ⟨id, hdocument, hr⟩ := Action.run_lift_bind_eq_ok hr
  obtain ⟨⟨⟩, t₂, hdeltas, hr⟩ := Action.run_bind_eq_ok hr
  obtain ⟨hstored, rfl⟩ := Prod.mk.inj hr
  cases hstored
  rw [documentId, hid] at hdocument
  cases hdocument
  exact ⟨⟨⟨.create, target, link, args⟩, d, key⟩, rfl, rfl, _, t₁,
    .create rfl hmakes hid hkey hfree, hc₁, hdeltas⟩

/-- **Revising a document** writes what an update makes of it. -/
theorem of_revise (h : x.Checking p) {rawId : Value} {o : ObjectId} {made : Materialized}
    {updated : Option Document} (hr : (x.revise d s rawId o made).run.run t = (.ok updated, t'))
    (hc : Finds p s t c) :
    ∃ current doc, c.found d.collection (.id o) = some current ∧
      made.Turns d.entity.fields current doc ∧
      updated = some doc ∧ Finds p s t' (c.put d.collection (.id o) doc) := by
  unfold revise at hr
  obtain ⟨found, t₁, hfind, hr⟩ := Action.run_bind_eq_ok hr
  have hfind := (h.store.findById _ _ _).run hfind
  rw [MemoryStore.run_findById_id, hc.get?] at hfind
  obtain ⟨hfound, hsame⟩ := Prod.mk.inj hfind
  have hc := hc.congr hsame.symm
  cases found with
  | none => cases hr
  | some current =>
    have hcurrent := Except.ok.inj hfound
    dsimp only at hr
    obtain ⟨changes, hmerge, hr⟩ := Action.run_lift_bind_eq_ok hr
    generalize hparts :
      updateParts (if changes.isEmpty then none else some changes) made.unset = parts at hr
    split at hr
    · rename_i hempty
      cases hr
      refine ⟨current, current, hcurrent, ⟨changes, hmerge, ?_⟩,
        rfl, by rwa [Holdings.put_self hcurrent]⟩
      rw [hparts, List.isEmpty_iff.1 hempty]
      rfl
    · rw [← hparts] at hr
      obtain ⟨doc, rfl, happly, hc'⟩ := hc.update hcurrent ((h.store.update _ _ _ _).run hr) rfl
      exact ⟨current, doc, hcurrent, ⟨changes, hmerge, happly⟩, rfl, hc'⟩

/-- **Updating a document** goes through its children, and then writes what it makes of the
document. -/
theorem of_updateIn (h : x.Checking p) {updated : Option Document}
    (hr : (x.updateIn ops d link s args).run.run t = (.ok updated, t'))
    (target : String) :
    ∃ v : Visit, v.toJob = ⟨.update, target, link, args⟩ ∧ v.entity = d ∧ ∃ t₁ t₂, p t₁ = p t ∧
      (x.applyDeltas ops d v.id s args d.entity.fields).run.run t₁ = (.ok ⟨⟩, t₂) ∧
      ∀ c, Finds p s t₂ c → ∃ doc c', v.Writes x.registry c doc c' ∧ updated = some doc ∧
        Finds p s t' c' := by
  rw [updateIn_eq (h.validates d.name).hooks] at hr
  obtain ⟨rawId, hraw, hr⟩ := Action.run_lift_bind_eq_ok hr
  obtain ⟨-, hr⟩ := Action.run_guard_eq_ok hr
  obtain ⟨o, ho, hr⟩ := Action.run_lift_bind_eq_ok hr
  obtain ⟨made, t₁, hmade, hr⟩ := Action.run_bind_eq_ok hr
  obtain ⟨hsame, hmakes⟩ := (h.moves_materialize .update d.entity link args).of_ok hmade
  obtain ⟨⟨⟩, t₂, hdeltas, hr⟩ := Action.run_bind_eq_ok hr
  refine ⟨⟨⟨.update, target, link, args⟩, d, .id o⟩, rfl, rfl, t₁, t₂, hsame, hdeltas, fun c hc =>
    ?_⟩
  obtain ⟨current, doc, hcurrent, hturns, hupdated, hc'⟩ := h.of_revise hr hc
  exact ⟨doc, _, .update rfl ⟨rawId, hraw, ho⟩ rfl hmakes hcurrent hturns, hupdated, hc'⟩

mutual

/-- **Saving a tree of documents** is a tour. -/
theorem toured_saveIn (h : x.Checking p) {target : String} {d : Descriptor}
    (hd : x.descriptor target = .ok d) (link : Option ParentLink) (args : Value) {t t' : τ}
    {stored : Document} (hr : (x.saveIn ops d link s args).run.run t = (.ok stored, t')) :
    x.Toured p s [⟨.create, target, link, args⟩] t t' := by
  intro c hc
  obtain ⟨v, hjob, rfl, c₁, t₁, hwrites, hc₁, hdeltas⟩ := h.of_saveIn hr hc target
  obtain ⟨log, c', htour, hlog, hc'⟩ :=
    toured_applyDeltas h v.entity v.id args v.entity.entity.fields hdeltas c₁ hc₁
  obtain ⟨hop, htarget, -, hargs⟩ := Job.mk.inj hjob
  obtain ⟨hsingle, hfollows⟩ :=
    tours_create hop (htarget ▸ hd) hwrites (by rwa [Visit.jobs, hargs]) hlog
  exact ⟨_, c', hjob ▸ hsingle, hfollows, hc'⟩
termination_by (sizeOf args, 2, 0)

/-- **Updating a tree of documents** is a tour. -/
theorem toured_updateIn (h : x.Checking p) {target : String} {d : Descriptor}
    (hd : x.descriptor target = .ok d) (link : Option ParentLink) (args : Value) {t t' : τ}
    {updated : Option Document}
    (hr : (x.updateIn ops d link s args).run.run t = (.ok updated, t')) :
    x.Toured p s [⟨.update, target, link, args⟩] t t' := by
  intro c hc
  obtain ⟨v, hjob, rfl, t₁, t₂, hsame, hdeltas, hwrites⟩ := h.of_updateIn hr target
  obtain ⟨log, c₁, htour, hlog, hc₁⟩ :=
    toured_applyDeltas h v.entity v.id args v.entity.entity.fields hdeltas c (hc.congr hsame)
  obtain ⟨doc, c', hwrites, -, hc'⟩ := hwrites c₁ hc₁
  obtain ⟨hop, htarget, -, hargs⟩ := Job.mk.inj hjob
  obtain ⟨hsingle, hfollows⟩ :=
    tours_update hop (htarget ▸ hd) (by rwa [Visit.jobs, hargs]) hlog hwrites
  exact ⟨_, c', hjob ▸ hsingle, hfollows, hc'⟩
termination_by (sizeOf args, 2, 0)

theorem toured_applyDeltas (h : x.Checking p) (d : Descriptor) (parent args : Value) :
    ∀ (fields : List FieldDef) {t t' : τ},
      (x.applyDeltas ops d parent s args fields).run.run t = (.ok ⟨⟩, t') →
      x.Toured p s (fields.flatMap (FieldDef.jobs parent args)) t t'
  | [], t, t', hr => by
    rw [applyDeltas] at hr
    cases hr
    exact .nil rfl
  | f :: rest, t, t', hr => by
    rw [applyDeltas] at hr
    rw [List.flatMap_cons, FieldDef.jobs]
    split at hr
    · rename_i hnone
      rw [hnone]
      exact toured_applyDeltas h d parent args rest hr
    · rename_i delta hdelta
      have := sizeOf_deltaOf?_lt hdelta
      rw [hdelta]
      obtain ⟨-, hr⟩ := Action.run_guard_eq_ok hr
      obtain ⟨e, he, hr⟩ := Action.run_lift_bind_eq_ok hr
      obtain ⟨⟨⟩, t₁, hadded, hr⟩ := Action.run_bind_eq_ok hr
      obtain ⟨⟨⟩, t₂, hupdated, hr⟩ := Action.run_bind_eq_ok hr
      exact ((toured_saveAll h he _ delta.added hadded).append
        (toured_updateAll h he _ delta.updated hupdated)).append
        (toured_applyDeltas h d parent args rest hr)
termination_by fields => (sizeOf args, 1, fields.length)

theorem toured_saveAll (h : x.Checking p) {target : String} {e : Descriptor}
    (he : x.descriptor target = .ok e) (link : ParentLink) :
    ∀ (items : List Value) {t t' : τ}, (x.saveAll ops e link s items).run.run t = (.ok ⟨⟩, t') →
      x.Toured p s (items.map (⟨.create, target, some link, ·⟩)) t t'
  | [], t, t', hr => by
    rw [saveAll] at hr
    cases hr
    exact .nil rfl
  | v :: rest, t, t', hr => by
    rw [saveAll] at hr
    obtain ⟨_, t₁, hsave, hr⟩ := Action.run_bind_eq_ok hr
    exact (toured_saveIn h he (some link) v hsave).append (toured_saveAll h he link rest hr)
termination_by items => (sizeOf items, 0, 0)

theorem toured_updateAll (h : x.Checking p) {target : String} {e : Descriptor}
    (he : x.descriptor target = .ok e) (link : ParentLink) :
    ∀ (items : List Value) {t t' : τ}, (x.updateAll ops e link s items).run.run t = (.ok ⟨⟩, t') →
      x.Toured p s (items.map (⟨.update, target, some link, ·⟩)) t t'
  | [], t, t', hr => by
    rw [updateAll] at hr
    cases hr
    exact .nil rfl
  | v :: rest, t, t', hr => by
    rw [updateAll] at hr
    obtain ⟨_, t₁, hupdate, hr⟩ := Action.run_bind_eq_ok hr
    exact (toured_updateIn h he (some link) v hupdate).append (toured_updateAll h he link rest hr)
termination_by items => (sizeOf items, 0, 0)

end

/-- **A transition** looks at the document first, and goes on as an update with the new state put
in. -/
theorem toured_transition (h : x.Checking p) {name action : String} {d : Descriptor}
    (hd : x.descriptor name = .ok d) {a : StateAction} {args : Value} {s : SessionId}
    {v : Option Document}
    (hr : (x.transition (x.operationsTo nestingLimit) d action a args s).run.run t = (.ok v, t')) :
    x.Logs p s (fun log => ∃ fs, args = .object fs ∧ x.registry.Tours
      [⟨.update, name, none, .object (Record.put fs stateField (stateName a.target))⟩]
      (log.map Prod.fst)) t t' := by
  intro c hc
  obtain ⟨rawId, -, hr⟩ := Action.run_lift_bind_eq_ok hr
  obtain ⟨-, hr⟩ := Action.run_guard_eq_ok hr
  obtain ⟨o, -, hr⟩ := Action.run_lift_bind_eq_ok hr
  obtain ⟨found, t₁, hfind, hr⟩ := Action.run_bind_eq_ok hr
  have hfind := (h.store.findById _ _ _).run hfind
  rw [MemoryStore.run_findById_id] at hfind
  have hc := hc.congr (Prod.mk.inj hfind).2.symm
  cases found with
  | none => cases hr
  | some current =>
    obtain ⟨-, hr⟩ := Action.run_guard_eq_ok hr
    cases args with
    | object fs =>
      obtain ⟨log, c', htour, hfollows, hc'⟩ := h.toured_updateIn hd none _ hr c hc
      exact ⟨log, c', ⟨fs, rfl, htour⟩, hfollows, hc'⟩
    | _ => cases hr

/-! ## Transactions -/

theorem confined (h : x.Checking p) (n : String) : (x.behaviour.entity n).Confined p :=
  (h.validates n).onlyChecks.confined

theorem confined_operations (h : x.Checking p) (s : SessionId) (depth : Nat) :
    (x.operationsTo depth).Confined p s := confined_operationsTo h.store h.confined s depth

/-- **What a transaction commits** is what the visits of its body write, with the identifiers that
were made last. -/
theorem logs_transact (h : x.Checking p) {body : SessionId → Action τ α} {W : α → Log → Prop}
    (hconfined : ∀ s, Confined p s (body s))
    (hbody : ∀ s t t' v, (body s).run.run t = (.ok v, t') → x.Logs p s (W v) t t')
    (hd : (p t).collections.Distinct) {v : α}
    (hr : (x.transact body none).run.run t = (.ok v, t')) :
    ∃ log n, W v log ∧
      x.registry.Follows ((p t).collections.holdings n) log
        ((p t').collections.holdings (p t').lastId) := by
  obtain ⟨s, t₁, t₂, n, hc, hran, hc'⟩ := committedIn_transact h.store h.sleep hconfined hd hr
  obtain ⟨log, c', hW, hfollows, hfound⟩ := hbody s t₁ t₂ v hran _ hc
  obtain rfl := hfound.unique hc'
  exact ⟨log, n, hW, hfollows⟩

end Checking

/-- **A committed tour**: the visits do the jobs, and what they write leads from the documents
before to those after. -/
structure Commits (r : Registry) (js : List Job) (log : Log) (m m' : MemoryStore) : Prop where
  tours : r.Tours js (log.map Prod.fst)
  follows : ∃ n, r.Follows (m.collections.holdings n) log (m'.collections.holdings m'.lastId)

namespace Checking

variable {name : String} {v : Value} (h : x.Checking p) (hd : (p t).collections.Distinct)

include h hd

/-- A transaction on an entity commits the tour that its body makes. -/
theorem commits_transact {js : List Job} {body : Descriptor → SessionId → Action τ α}
    {shown : α → Value} (hconfined : ∀ d s, Confined p s (body d s))
    (htour : ∀ d, x.descriptor name = .ok d → ∀ s t t' r,
      (body d s).run.run t = (.ok r, t') → x.Toured p s js t t')
    (hr : (do
      let d ← liftM (x.descriptor name)
      let r ← x.transact (body d) none
      pure (shown r) : Action τ Value).run.run t = (.ok v, t')) :
    ∃ log, Commits x.registry js log (p t) (p t') := by
  obtain ⟨d, hdescriptor, hr⟩ := Action.run_lift_bind_eq_ok hr
  obtain ⟨r, t₁, hr, hend⟩ := Action.run_bind_eq_ok hr
  cases hend
  obtain ⟨log, n, htours, hfollows⟩ := h.logs_transact (hconfined d) (htour d hdescriptor) hd hr
  exact ⟨log, htours, n, hfollows⟩

/-- **Adding documents** commits a tour. -/
theorem commits_save (hr : (x.operations.save name args none).run.run t = (.ok v, t')) :
    ∃ log, Commits x.registry [⟨.create, name, none, args⟩] log (p t) (p t') :=
  h.commits_transact hd
    (fun _ s => confined_saveIn h.store h.confined (h.confined_operations s _) _ none _)
    (fun _ hdescriptor _ _ _ _ hr => h.toured_saveIn hdescriptor none args hr) hr

/-- **Updating documents** commits a tour. -/
theorem commits_update (hr : (x.operations.update name args none).run.run t = (.ok v, t')) :
    ∃ log, Commits x.registry [⟨.update, name, none, args⟩] log (p t) (p t') :=
  h.commits_transact hd
    (fun _ s => confined_updateIn h.store h.confined (h.confined_operations s _) _ none _)
    (fun _ hdescriptor _ _ _ _ hr => h.toured_updateIn hdescriptor none args hr) hr

/-- **A state action** commits the tour of an update with the new state put in. -/
theorem commits_changeState {action : String}
    (hr : (x.operations.changeState name action args none).run.run t = (.ok v, t')) :
    ∃ d a fs, x.descriptor name = .ok d ∧ stateAction d action = .ok a ∧ args = .object fs ∧
      ∃ log, Commits x.registry [⟨.update, name, none,
        .object (Record.put fs stateField (stateName a.target))⟩] log (p t) (p t') := by
  obtain ⟨d, hdescriptor, hr⟩ := Action.run_lift_bind_eq_ok hr
  obtain ⟨a, haction, hr⟩ := Action.run_lift_bind_eq_ok hr
  obtain ⟨updated, t₁, hr, hend⟩ := Action.run_bind_eq_ok hr
  cases hend
  rw [transactWith_changeStateIn ((h.validates d.name).effects action)] at hr
  obtain ⟨log, n, ⟨fs, rfl, htour⟩, hfollows⟩ := h.logs_transact (fun s =>
    confined_transition_of_checks h.store (fun n => (h.validates n).onlyChecks)
      (h.confined_operations s _) d action a args) (fun s t t' _ hr =>
      h.toured_transition hdescriptor hr) hd hr
  exact ⟨d, a, fs, hdescriptor, haction, rfl, log, htour, n, hfollows⟩

end Checking

end Executor

/-! ## Calls -/

namespace Dispatcher

/-- **A service whose user code only validates**, on the memory store `c`. -/
structure Checking (x : Dispatcher τ SessionId) (c : Component τ MemoryStore) : Prop where
  component : ∀ s t, c.get (c.set s t) = s
  store : x.executor.store = MemoryStore.documentStore.within c
  sleep : ∀ d t, c.get ((x.executor.policy.sleep d).run.run t).2 = c.get t
  validates : ∀ n, (x.executor.behaviour.entity n).Validates c.get

variable {x : Dispatcher τ SessionId} {c : Component τ MemoryStore} {t t₁ t' : τ} {q q₁ q' : Call}

theorem Checking.executor (h : x.Checking c) : x.executor.Checking c.get where
  store := h.store ▸ MemoryStore.onMemory_within h.component
  sleep := h.sleep
  validates := h.validates

/-- **The root job of a call**, by the kind of its endpoint: the root of the tree of arguments is
added or updated, with a new state put in for a state action. -/
inductive RootJob (x : Dispatcher τ SessionId) (ep : Endpoint) (args : Value) : Job → Prop where
  | save {d : Descriptor} (hk : ep.kind = .save)
    (hd : x.executor.registry.lookup (ep.entity.getD "") = .ok d) :
      RootJob x ep args ⟨.create, d.name, none, args⟩
  | update {d : Descriptor} (hk : ep.kind = .update)
    (hd : x.executor.registry.lookup (ep.entity.getD "") = .ok d) :
      RootJob x ep args ⟨.update, d.name, none, args⟩
  | state {d e : Descriptor} {a : StateAction} {fs : Document} (hk : ep.kind = .state)
      (hd : x.executor.registry.lookup (ep.entity.getD "") = .ok d)
      (he : x.executor.descriptor d.name = .ok e) (ha : Executor.stateAction e (ep.action.getD "") =
      .ok a) (hargs : args = .object fs) :
      RootJob x ep args ⟨.update, d.name, none,
      .object (Record.put fs stateField (stateName a.target))⟩

/-- **A call that is passed on**: the chain of middleware returned in the state `t₁`, with the call
as `q₁`. -/
def Passes (x : Dispatcher τ SessionId) (ep : Endpoint) (t : τ) (q : Call) (t₁ : τ)
    (q₁ : Call) : Prop :=
  ∃ fs, callArguments q.args = .ok fs ∧
    (chain ep x.middleware).run.run (t, { q with args := .object fs }) = (.ok ⟨⟩, (t₁, q₁))

/-- Without middleware a call is passed on as it is. -/
theorem passes_of_none (h : x.middleware = []) {fs : Document} (hfs : callArguments q.args = .ok fs)
    (ep : Endpoint) (t : τ) : x.Passes ep t q t { q with args := .object fs } := by
  refine ⟨fs, hfs, ?_⟩
  rw [h]
  rfl

/-- The operation of an endpoint that writes commits a tour. -/
theorem Checking.commits_execute (h : x.Checking c) (hd : (c.get t).collections.Distinct)
    {ep : Endpoint} (hk : ep.kind = .save ∨ ep.kind = .update ∨ ep.kind = .state) {v : Value}
    (hr : (x.execute ep).run.run (t, q) = (.ok v, (t', q'))) :
    ∃ job log, x.RootJob ep q.args job ∧
      Executor.Commits x.executor.registry [job] log (c.get t) (c.get t') := by
  have hentity : ∃ d, x.executor.registry.lookup (ep.entity.getD "") = .ok d ∧
      (x.onEntity ep d q.args).run.run (t, q) = (.ok v, (t', q')) := by
    unfold execute at hr
    dsimp only at hr
    rw [Action.run_bind_ok (run_arguments t q)] at hr
    rcases hk with hk | hk | hk <;> rw [hk] at hr <;> exact Action.run_lift_bind_eq_ok hr
  obtain ⟨d, hlookup, hr⟩ := hentity
  have hperform : ∀ {a : Action τ Value}, (perform a).run.run (t, q) = (.ok v, (t', q')) →
      a.run.run t = (.ok v, t') := fun ha => by
    rw [perform, Action.run_within] at ha
    obtain ⟨hv, ht⟩ := Prod.mk.inj ha
    exact Prod.ext hv (Prod.mk.inj ht).1
  unfold onEntity at hr
  rcases hk with hk | hk | hk
  · rw [hk] at hr
    obtain ⟨-, -, hr⟩ := Action.run_lift_bind_eq_ok hr
    obtain ⟨log, hcommits⟩ := h.executor.commits_save hd (hperform hr)
    exact ⟨_, log, .save hk hlookup, hcommits⟩
  · rw [hk] at hr
    obtain ⟨-, -, hr⟩ := Action.run_lift_bind_eq_ok hr
    obtain ⟨log, hcommits⟩ := h.executor.commits_update hd (hperform hr)
    exact ⟨_, log, .update hk hlookup, hcommits⟩
  · rw [hk] at hr
    obtain ⟨-, -, hr⟩ := Action.run_lift_bind_eq_ok hr
    obtain ⟨e, a, fs, he, ha, hargs, log, hcommits⟩ :=
      h.executor.commits_changeState hd (hperform hr)
    exact ⟨_, log, .state hk hlookup he ha hargs, hcommits⟩

/-- **A call that writes and returns commits a tour** from the documents that its middleware
left. -/
theorem Checking.commits_call (h : x.Checking c) {name : String} {ep : Endpoint}
    (hep : Record.get? x.endpoints name = some ep)
    (hk : ep.kind = .save ∨ ep.kind = .update ∨ ep.kind = .state) (hpasses : x.Passes ep t q t₁ q₁)
    (hd : (c.get t₁).collections.Distinct) {v : Value}
    (hr : (x.call name).run.run (t, q) = (.ok v, (t', q'))) :
    ∃ job log, x.RootJob ep q₁.args job ∧
      Executor.Commits x.executor.registry [job] log (c.get t₁) (c.get t') := by
  obtain ⟨fs, hfs, hchain⟩ := hpasses
  rw [run_call_eq hep hfs, Action.run_bind_ok hchain] at hr
  dsimp only at hr
  rcases hexecute : (x.execute ep).run.run (t₁, q₁) with ⟨e | w, t₂, q₂⟩
  · rw [hexecute] at hr
    cases hr
  · rw [hexecute] at hr
    cases hr
    exact h.commits_execute hd hk hexecute

end Dispatcher

end EntityGraph
