import EntityGraph.Proofs.Uniqueness

/-!
# Sound stores

A memory store keeps its collections sound, the committed ones and every private copy, after any run
in which the unique paths of a collection are set up before its first document, identifiers are
given as such and not rewritten, and a transaction commits on the documents that it began with
(`Managed`). Creations and updates that would make a collection unsound are refused and change
nothing (`managed_sound`).
-/

namespace EntityGraph

/-- The fault is an error of validation. -/
def Fault.IsValidation (f : Fault) : Prop := ∃ e, f = .service e ∧ e.kind = .validation

theorem Reason.isValidation_fault {r : Reason} (h : r.kind = .validation) : r.fault.IsValidation :=
  ⟨_, rfl, h⟩

/-- The document brings an identifier as such, or none. -/
def IdGiven (d : Document) : Prop := ∀ v, Record.get? d "_id" = some v → ∃ o, v = .id o

namespace MemoryStore

/-- **A sound store**: the committed collections and those of every private copy are sound. -/
structure Sound (m : MemoryStore) : Prop where
  committed : ∀ name, (m.collections.get name).Sound (m.uniquePaths name)
  working : ∀ i t, m.transaction? (some i) = some t →
    ∀ name, (t.working.get name).Sound (m.uniquePaths name)

section Decisions

variable {m : MemoryStore} {caller : Option SessionId} {collection : String}

/-- What a caller sees of a sound store is sound. -/
theorem Sound.view (h : m.Sound) (caller : Option SessionId) (name : String) :
    ((m.view caller).get name).Sound (m.uniquePaths name) := by
  rcases ht : m.transaction? caller with _ | t
  · rw [MemoryStore.view, ht]
    exact h.committed name
  · obtain ⟨i, rfl⟩ := exists_of_transaction? ht
    rw [view_of_open ht]
    exact h.working i t ht name

/-- A document that is filed has an identifier as such. -/
theorem get?_id_filed {d : Document} (hd : IdGiven d) :
    ∃ o, Record.get? (m.filed d) "_id" = some (.id o) := by
  obtain ⟨v, hv⟩ := exists_id_filed m d
  unfold filed at hv ⊢
  split at hv
  · rename_i hhas
    obtain ⟨o, rfl⟩ := hd v hv
    rw [if_pos hhas]
    exact ⟨o, hv⟩
  · rename_i hhas
    rw [if_neg hhas]
    exact ⟨_, Record.get?_put_self ..⟩

/-- The creation of a document would put it in the place of another one, or make its collection
unsound. -/
def CreationBreaks (m : MemoryStore) (caller : Option SessionId) (collection : String)
    (d : Document) :
    Prop :=
  ∃ id, Record.get? (m.filed d) "_id" = some id ∧
    ((((m.view caller).get collection).get? id).isSome = true ∨
      ¬ (((m.view caller).get collection).put id (m.filed d)).Sound (m.uniquePaths collection))

/-- The update of a document would make its collection unsound. -/
def ChangeBreaks (m : MemoryStore) (caller : Option SessionId) (collection : String)
    (id change : Value) : Prop :=
  ∃ current updated, ((m.view caller).get collection).get? id = some current ∧
    applyUpdate change current = .ok updated ∧
      ¬ (((m.view caller).get collection).put id updated).Sound (m.uniquePaths collection)

/-- **A creation** in a sound store files the document soundly, or is refused by validation. -/
theorem filing_cases (h : m.Sound) {d : Document} (hd : IdGiven d) :
    (∃ o, m.filing collection d caller = .ok ⟨collection, .id o, some (m.filed d)⟩ ∧
      (((m.view caller).get collection).put (.id o) (m.filed d)).Sound (m.uniquePaths collection) ∧
      ¬ m.CreationBreaks caller collection d) ∨
    ∃ f, m.filing collection d caller = .error f ∧ f.IsValidation := by
  obtain ⟨o, hid⟩ := get?_id_filed hd
  have hview := h.view caller collection
  unfold filing
  dsimp only
  rw [hid, Option.getD_some]
  rcases hfree : ((m.view caller).get collection).get? (.id o) with _ | old
  · rcases checkUnique_cases hview.distinct hview.filed hid collection
      (m.uniquePaths collection) with
      ⟨hok, hapart⟩ | ⟨path, -, herror⟩
    · have hput := hview.put hid hapart
      refine .inl ⟨o, ?_, hput, ?_⟩
      · rw [hok]
        rfl
      · rintro ⟨id, hid', hbreaks⟩
        obtain rfl : .id o = id := Option.some.inj (hid.symm.trans hid')
        rw [hfree] at hbreaks
        exact hbreaks.elim (fun hsome => by cases hsome) fun hnot => hnot hput
    · refine .inr ⟨_, ?_, Reason.isValidation_fault (r := .duplicateValue collection path) rfl⟩
      rw [herror]
      rfl
  · exact .inr ⟨_, rfl, Reason.isValidation_fault (r := .duplicateId (.id o) collection) rfl⟩

/-- **An update** in a sound store writes nothing, or changes a document soundly, or fails; if there
is a document to write, it fails by validation. -/
theorem changing_cases (h : m.Sound) {id change : Value} (hkeeps : ¬ RewritesId change) :
    (m.changing collection id change caller = .ok none ∧
      ¬ m.ChangeBreaks caller collection id change) ∨
    (∃ updated, m.changing collection id change caller = .ok (some ⟨collection, id, some updated⟩) ∧
      (((m.view caller).get collection).put id updated).Sound (m.uniquePaths collection) ∧
      ¬ m.ChangeBreaks caller collection id change) ∨
    ∃ f, m.changing collection id change caller = .error f ∧
      (m.ChangeBreaks caller collection id change → f.IsValidation) := by
  have hview := h.view caller collection
  unfold changing
  rcases hkey : id.isKey with _ | _
  · refine .inr (.inr ⟨.illTyped, by rw [lookupId, hkey]; rfl, ?_⟩)
    rintro ⟨current, updated, hcurrent, -⟩
    obtain ⟨p, rfl, -⟩ := Collection.exists_id_of_get? hview.filed hcurrent
    cases hkey
  rw [lookupId, hkey, if_pos rfl]
  rcases hcurrent : ((m.view caller).get collection).get? id with _ | current
  · refine .inl ⟨rfl, ?_⟩
    rintro ⟨current, updated, hsome, -⟩
    rw [hcurrent] at hsome
    cases hsome
  refine .inr ?_
  obtain ⟨o, rfl, hid⟩ := Collection.exists_id_of_get? hview.filed hcurrent
  change (∃ updated, (applyUpdate change current >>= fun updated =>
      checkUnique ((m.view caller).get collection) collection updated (m.uniquePaths collection) >>=
        fun _ =>
      (pure (some ⟨collection, .id o, some updated⟩) : Outcome (Option Write))) =
        .ok (some ⟨collection, .id o, some updated⟩) ∧ _ ∧ _) ∨
    ∃ f, (applyUpdate change current >>= fun updated =>
      checkUnique ((m.view caller).get collection) collection updated (m.uniquePaths collection) >>=
        fun _ =>
      (pure (some ⟨collection, .id o, some updated⟩) : Outcome (Option Write))) = .error f ∧ _
  rcases hupdated : applyUpdate change current with f | updated
  · refine .inr ⟨f, rfl, ?_⟩
    rintro ⟨current', updated, hsome, hok, -⟩
    obtain rfl : current = current' := Option.some.inj (hcurrent.symm.trans hsome)
    rw [hupdated] at hok
    cases hok
  have hid' := get?_applyUpdate hid rfl hkeeps hupdated
  rw [Outcome.ok_bind]
  rcases checkUnique_cases hview.distinct hview.filed hid' collection
    (m.uniquePaths collection) with
    ⟨hok, hapart⟩ | ⟨path, -, herror⟩
  · have hput := hview.put hid' hapart
    refine .inl ⟨updated, by rw [hok]; rfl, hput, ?_⟩
    rintro ⟨current', updated', hsome, hok', hnot⟩
    obtain rfl : current = current' := Option.some.inj (hcurrent.symm.trans hsome)
    obtain rfl : updated = updated' := Except.ok.inj (hupdated.symm.trans hok')
    exact hnot hput
  · refine .inr ⟨_, by rw [herror]; rfl, fun _ => ?_⟩
    exact Reason.isValidation_fault (r := .duplicateValue collection path) rfl

end Decisions

end MemoryStore

/-! ## Events that keep a store sound -/

namespace Event

/-- What is asked of single calls: identifiers are given as such, and updates do not rewrite
them. -/
structure RespectsIds (e : Event) : Prop where
  given : ∀ caller collection d, e.call = .create caller collection d → IdGiven d
  kept : ∀ caller collection id change, e.call = .update caller collection id change →
    ¬ MemoryStore.RewritesId change

variable {e : Event} {m m' : MemoryStore}

/-- **What the event writes leaves the view of its caller sound.** -/
def WritesSoundly (m : MemoryStore) (e : Event) : Prop :=
  ∀ name, (((m.view e.call.caller).afterAll e.writes).get name).Sound (m.uniquePaths name)

theorem writesSoundly_of_nil (h : m.Sound) (hw : e.writes = []) : WritesSoundly m e := by
  intro name
  rw [hw]
  exact h.view _ name

theorem writesSoundly_of_single (h : m.Sound) {w : Write} (hw : e.writes = [w])
    (hsound : (((m.view e.call.caller).after w).get w.collection).Sound
      (m.uniquePaths w.collection)) :
    WritesSoundly m e := by
  intro name
  rw [hw]
  change (((m.view e.call.caller).after w).get name).Sound (m.uniquePaths name)
  by_cases hname : w.collection = name
  · subst hname
    exact hsound
  · rw [Collections.after, MemoryStore.get_writeTo_of_ne hname]
    exact h.view _ name

section Writing

variable {reply : Outcome StoreReply} {caller : Option SessionId} {collection : String}

/-- A creation writes soundly. -/
theorem writesSoundly_create {d : Document} (he : Happens ⟨.create caller collection d, reply⟩ m m')
    (h : m.Sound) (hd : IdGiven d) : WritesSoundly m ⟨.create caller collection d, reply⟩ := by
  rw [Happens, StoreCall.run, Action.run_bind, MemoryStore.run_create_eq] at he
  split_ifs at he
  · cases he
    exact writesSoundly_of_nil h rfl
  rcases m.filing_cases h hd with ⟨o, hok, hput, -⟩ | ⟨f, herror, -⟩
  · obtain ⟨id, hid, -, -, -, hw⟩ := MemoryStore.filing_eq_ok hok
    cases hw
    rw [hok] at he
    cases he
    have hw : writes ⟨.create caller collection d, .ok (.document (some (m.filed d)))⟩ =
        [⟨collection, .id o, some (m.filed d)⟩] := by simp [writes, hid]
    refine writesSoundly_of_single h hw ?_
    rw [Collections.after, MemoryStore.get_writeTo_some]
    exact hput
  · rw [herror] at he
    cases he
    exact writesSoundly_of_nil h rfl

/-- A change writes soundly, unless it rewrites identifiers. -/
theorem writesSoundly_update {id change : Value}
    (he : Happens ⟨.update caller collection id change, reply⟩ m m') (h : m.Sound)
    (hkeeps : ¬ MemoryStore.RewritesId change) :
    WritesSoundly m ⟨.update caller collection id change, reply⟩ := by
  rw [Happens, StoreCall.run, Action.run_bind, MemoryStore.run_update_eq] at he
  split_ifs at he
  · cases he
    exact writesSoundly_of_nil h rfl
  rcases m.changing_cases h hkeeps with ⟨hok, -⟩ | ⟨updated, hok, hput, -⟩ | ⟨f, herror, -⟩
  · rw [hok] at he
    cases he
    exact writesSoundly_of_nil h rfl
  · rw [hok] at he
    cases he
    refine writesSoundly_of_single h rfl ?_
    rw [Collections.after, MemoryStore.get_writeTo_some]
    exact hput
  · rw [herror] at he
    cases he
    exact writesSoundly_of_nil h rfl

/-- A deletion writes soundly. -/
theorem writesSoundly_delete {id : Value} (he : Happens ⟨.delete caller collection id, reply⟩ m m')
    (h : m.Sound) : WritesSoundly m ⟨.delete caller collection id, reply⟩ := by
  rw [Happens, StoreCall.run, Action.run_bind, MemoryStore.run_delete_eq] at he
  split_ifs at he
  · cases he
    exact writesSoundly_of_nil h rfl
  rcases hd : m.lookupId caller collection id with f | _ | d <;> rw [hd] at he <;> cases he
  · exact writesSoundly_of_nil h rfl
  · exact writesSoundly_of_nil h rfl
  · refine writesSoundly_of_single h rfl ?_
    rw [Collections.after, MemoryStore.get_writeTo_none]
    exact (h.view caller collection).erase id

end Writing

/-- Every event that respects identifiers writes soundly. -/
theorem Happens.writesSoundly (he : e.Happens m m') (h : m.Sound) (hids : e.RespectsIds) :
    WritesSoundly m e := by
  obtain ⟨call, reply⟩ := e
  cases call with
  | create caller collection d => exact writesSoundly_create he h (hids.given _ _ d rfl)
  | update caller collection id change =>
    exact writesSoundly_update he h (hids.kept _ _ _ _ rfl)
  | delete caller collection id => exact writesSoundly_delete he h
  | _ => exact writesSoundly_of_nil h rfl

end Event

/-! ## Runs -/

/-- **An allowed event** after the events `es`. Unique paths are set up before the first document of
their collection, identifiers are given as such and not rewritten, and nothing has disturbed a
transaction that is committed. -/
structure Event.Allowed (es : List Event) (e : Event) : Prop extends e.RespectsIds where
  setup : ∀ schema, e.call = .ensure schema → ∀ f ∈ es, ∀ w ∈ f.writes,
    w.collection ≠ schema.collection
  alone : ∀ i before during, e.Commits i → Inside i es before during → Undisturbed es before

/-- **A managed run**: allowed events, starting from an empty store. -/
inductive Managed : List Event → MemoryStore → Prop where
  | nil : Managed [] .empty
  | snoc {es : List Event} {e : Event} {m m' : MemoryStore} (hes : Managed es m) (ha : e.Allowed es)
      (he : e.Happens m m') : Managed (es ++ [e]) m'

/-- An allowed call may come after any managed run. -/
theorem Managed.call {es : List Event} {m : MemoryStore} (hes : Managed es m) (c : StoreCall)
    (ha : Event.Allowed es ⟨c, (c.run.run.run m).1⟩) :
    Managed (es ++ [⟨c, (c.run.run.run m).1⟩]) (c.run.run.run m).2 := hes.snoc ha rfl

theorem Managed.interleaving {es : List Event} {m : MemoryStore} (h : Managed es m) :
    Interleaving .empty es m := by
  induction h with
  | nil => exact .nil
  | snoc _ _ he ih => exact ih.snoc he

theorem Interleaving.traced_empty {es : List Event} {m : MemoryStore}
    (h : Interleaving .empty es m) :
    Traced .empty es m :=
  h.traced (fun _ => Collection.distinct_nil) fun _ => rfl

section Vacancy

variable {m m' : MemoryStore} {name : String}

/-- Nothing is filed in a collection, and no transaction has written it. -/
structure Vacant (m : MemoryStore) (name : String) : Prop where
  committed : m.collections.get name = []
  working : ∀ i t, m.transaction? (some i) = some t →
    t.working.get name = [] ∧ ∀ w ∈ t.written, w.1 ≠ name

theorem get_afterAll_of_ne {ws : List Write} (hws : ∀ w ∈ ws, w.collection ≠ name)
    (cs : Collections) :
    (cs.afterAll ws).get name = cs.get name := by
  induction ws generalizing cs with
  | nil => rfl
  | cons w rest ih =>
    have hother : (cs.after w).get name = cs.get name :=
      MemoryStore.get_writeTo_of_ne (hws w (List.mem_cons_self ..)) _ _ _
    rw [← hother]
    exact ih (fun v hv => hws v (List.mem_cons_of_mem _ hv)) (cs.after w)

theorem written_afterAll_of_ne {ws : List Write} (hws : ∀ w ∈ ws, w.collection ≠ name)
    {t : Transaction} (ht : ∀ w ∈ t.written, w.1 ≠ name) :
    ∀ w ∈ (t.afterAll ws).written, w.1 ≠ name := by
  induction ws generalizing t with
  | nil => exact ht
  | cons w rest ih =>
    refine ih (fun v hv => hws v (List.mem_cons_of_mem _ hv)) (t := t.after w) fun v hv => ?_
    change v ∈ MemoryStore.noteWrite t.written w.collection w.id at hv
    unfold MemoryStore.noteWrite at hv
    split at hv
    · exact ht v hv
    · rcases List.mem_append.1 hv with hv | hv
      · exact ht v hv
      · obtain rfl := List.mem_singleton.1 hv
        exact hws w (List.mem_cons_self ..)

theorem get_publish_of_ne {t : Transaction} (ht : ∀ w ∈ t.written, w.1 ≠ name) (cs : Collections) :
    (MemoryStore.publish t cs).get name = cs.get name := by
  unfold MemoryStore.publish
  generalize t.written = written at ht
  induction written generalizing cs with
  | nil => rfl
  | cons key rest ih =>
    have hother : (MemoryStore.publishOne t.working cs key).get name = cs.get name := by
      rw [MemoryStore.publishOne_eq]
      exact MemoryStore.get_writeTo_of_ne (ht key (List.mem_cons_self ..)) _ _ _
    rw [List.foldl_cons, ih (MemoryStore.publishOne t.working cs key) fun w hw =>
      ht w (List.mem_cons_of_mem _ hw), hother]

/-- A collection that no event writes stays vacant. -/
theorem Vacant.step {e : Event} (h : Vacant m name) (he : e.Effect m m')
    (hw : ∀ w ∈ e.writes, w.collection ≠ name) : Vacant m' name where
  committed := by
    by_cases hcommit : ∃ i, e.Commits i
    · obtain ⟨i, hcommit⟩ := hcommit
      obtain ⟨t, ht, hm'⟩ := he.committed i hcommit
      rw [hm', get_publish_of_ne (h.working i t ht).2]
      exact h.committed
    · rw [he.outside (fun i hi => hcommit ⟨i, hi⟩)]
      split
      · exact h.committed
      · rw [get_afterAll_of_ne hw]
        exact h.committed
  working := fun i t ht => by
    by_cases hbegins : e.Begins i
    · rw [(he.begun i hbegins).2] at ht
      cases ht
      exact ⟨h.committed, fun w hw => absurd hw List.not_mem_nil⟩
    by_cases hcloses : e.Closes i
    · rw [he.closed i hcloses] at ht
      cases ht
    rw [he.kept i fun hb => hb.elim hbegins hcloses] at ht
    obtain ⟨t₀, ht₀, rfl⟩ := Option.map_eq_some_iff.1 ht
    obtain ⟨hworking, hwritten⟩ := h.working i t₀ ht₀
    have hws : ∀ w ∈ e.writesOf i, w.collection ≠ name := fun w hm => hw w (Event.mem_writesOf hm)
    refine ⟨?_, written_afterAll_of_ne hws hwritten⟩
    rw [Transaction.working_afterAll, get_afterAll_of_ne hws, hworking]

/-- A collection is vacant as long as nothing is written to it. -/
theorem Interleaving.vacant {es : List Event} (h : Interleaving .empty es m)
    (hes : ∀ f ∈ es, ∀ w ∈ f.writes, w.collection ≠ name) : Vacant m name := by
  induction h with
  | nil => exact ⟨rfl, fun i t ht => by cases ht⟩
  | snoc _ he ih =>
    refine (ih fun f hf => hes f (List.mem_append_left _ hf)).step he.effect ?_
    exact hes _ (List.mem_append_right _ (List.mem_singleton_self _))

end Vacancy

/-! ## Soundness of runs -/

section Runs

variable {es : List Event} {m m' : MemoryStore} {e : Event}

/-- What is published comes from the private copy, under the identifier it has there. -/
theorem filed_publishOne {working cs : Collections} {name : String}
    (hworking : ∀ e ∈ working.get name, Collection.Filed e)
    (hcs : ∀ e ∈ cs.get name, Collection.Filed e) (key : String × Value) :
    ∀ e ∈ (MemoryStore.publishOne working cs key).get name, Collection.Filed e := by
  obtain ⟨collection, id⟩ := key
  rw [MemoryStore.publishOne_eq]
  by_cases hname : collection = name
  · subst hname
    rcases hd : (working.get collection).get? id with _ | d
    · rw [MemoryStore.get_writeTo_none]
      exact fun e he => hcs e ((Collection.erase_sublist _ _).subset he)
    · obtain ⟨o, rfl, hid⟩ := Collection.exists_id_of_get? hworking hd
      rw [MemoryStore.get_writeTo_some]
      exact Collection.filed_put hcs hid
  · rw [MemoryStore.get_writeTo_of_ne hname]
    exact hcs

theorem filed_publish {t : Transaction} {cs : Collections} {name : String}
    (hworking : ∀ e ∈ t.working.get name, Collection.Filed e)
    (hcs : ∀ e ∈ cs.get name, Collection.Filed e) :
    ∀ e ∈ (MemoryStore.publish t cs).get name, Collection.Filed e := by
  unfold MemoryStore.publish
  induction t.written generalizing cs with
  | nil => exact hcs
  | cons key rest ih => exact ih (filed_publishOne hworking hcs key)

/-- Publishing an undisturbed transaction gives the documents of its private copy, so it keeps
soundness. -/
theorem sound_publish {ws : List Write} {base cs : Collections} {name : String}
    {paths : List String} (hkeys : ∀ w ∈ ws, w.id.isKey = true) (hbase : base.Distinct)
    (hcs : cs.Distinct) (hstill : ∀ name, cs.get name = base.get name)
    (hcommitted : (cs.get name).Sound paths)
    (hworking : ((base.afterAll ws).get name).Sound paths) :
    ((MemoryStore.publish (Transaction.afterAll ⟨base, []⟩ ws) cs).get name).Sound paths := by
  have hframe := (MemoryStore.Frame.start hbase).afterAll hkeys
  have hsame : ∀ id : Value,
      ((MemoryStore.publish (Transaction.afterAll ⟨base, []⟩ ws) cs).get name).get? id =
        ((base.afterAll ws).get name).get? id := fun id => by
    rw [get?_publish hkeys hbase hcs, get?_afterAll hkeys hbase, hstill]
  refine Collection.Sound.of_get? ?_ ?_ fun path hpath o p d d' hop hd hd' => ?_
  · exact (MemoryStore.get_foldl_publishOne hcs hframe.keys "" .null).1 name
  · refine filed_publish ?_ hcommitted.filed
    rw [Transaction.working_afterAll]
    exact hworking.filed
  · rw [hsame] at hd hd'
    exact hworking.apart hpath hop hd hd'

theorem uniquePaths_of_happens (he : e.Happens m m') {name : String}
    (h : ∀ schema, e.call = .ensure schema → schema.collection ≠ name) :
    m'.uniquePaths name = m.uniquePaths name := by
  by_cases hensure : ∃ schema, e.call = .ensure schema
  · obtain ⟨schema, hcall⟩ := hensure
    have hm : m' = (e.call.run.run.run m).2 := (congrArg Prod.snd he).symm
    rw [hm, hcall]
    change ((Record.get? (Record.put m.schemas schema.collection schema) name).map _).getD [] = _
    rw [Record.get?_put, if_neg (h schema hcall)]
    rfl
  · unfold MemoryStore.uniquePaths
    rw [he.schemas fun schema hcall => hensure ⟨schema, hcall⟩]

/-- **Every allowed event keeps a store sound.** -/
theorem sound_step (hes : Interleaving .empty es m) (h : m.Sound) (ha : e.Allowed es)
    (he : e.Happens m m') : m'.Sound := by
  have htraced := hes.traced_empty
  have heffect := he.effect
  have hsetup : ∀ schema, e.call = .ensure schema → Vacant m' schema.collection := by
    intro schema hcall
    refine (hes.vacant (ha.setup schema hcall)).step heffect fun w hw => ?_
    unfold Event.writes at hw
    rw [hcall] at hw
    exact absurd hw List.not_mem_nil
  have hpaths : ∀ name, Vacant m' name ∨ m'.uniquePaths name = m.uniquePaths name := fun name => by
    by_cases hensure : ∃ schema, e.call = .ensure schema ∧ schema.collection = name
    · obtain ⟨schema, hcall, rfl⟩ := hensure
      exact .inl (hsetup schema hcall)
    · exact .inr (uniquePaths_of_happens he fun schema hcall hname =>
        hensure ⟨schema, hcall, hname⟩)
  refine ⟨fun name => ?_, fun i t ht name => ?_⟩
  · rcases hpaths name with hvacant | hpaths
    · rw [hvacant.committed]
      exact Collection.sound_nil _
    rw [hpaths]
    by_cases hcommit : ∃ i, e.Commits i
    · obtain ⟨i, hcommit⟩ := hcommit
      obtain ⟨before, during, m₁, hin, hs, hm'⟩ := htraced.committed heffect hcommit
      rw [hm']
      have hworking := h.working i _ hs.opened name
      rw [Transaction.working_afterAll] at hworking
      exact sound_publish hs.keys hs.distinct htraced.distinct
        (hs.still (ha.alone i before during hcommit hin)) (h.committed name) hworking
    · rw [heffect.outside fun i hi => hcommit ⟨i, hi⟩]
      split
      · exact h.committed name
      · rename_i hclosed
        have hw := he.writesSoundly h ha.toRespectsIds name
        rw [MemoryStore.view, Option.not_isSome_iff_eq_none.1 hclosed] at hw
        exact hw
  · rcases hpaths name with hvacant | hpaths
    · rw [(hvacant.working i t ht).1]
      exact Collection.sound_nil _
    rw [hpaths]
    by_cases hbegins : e.Begins i
    · rw [(heffect.begun i hbegins).2] at ht
      cases ht
      exact h.committed name
    by_cases hcloses : e.Closes i
    · rw [heffect.closed i hcloses] at ht
      cases ht
    rw [heffect.kept i fun hb => hb.elim hbegins hcloses] at ht
    obtain ⟨t₀, ht₀, rfl⟩ := Option.map_eq_some_iff.1 ht
    rw [Transaction.working_afterAll, Event.writesOf]
    split
    · rename_i hcaller
      have hw := he.writesSoundly h ha.toRespectsIds name
      rw [hcaller, MemoryStore.view_of_open ht₀] at hw
      exact hw
    · exact h.working i t₀ ht₀ name

/-- **Managed runs leave a sound store.** -/
theorem Managed.sound (h : Managed es m) : m.Sound := by
  induction h with
  | nil => exact ⟨fun _ => Collection.sound_nil _, fun i t ht => by cases ht⟩
  | snoc hes ha he ih => exact sound_step hes.interleaving ih ha he

/-- **Refusal.** A call fails, with the conflict that is injected for it or else by validation, and
changes neither the committed documents nor any open transaction. -/
structure Refused (operation : String) (m : MemoryStore) (reply : Outcome StoreReply)
    (m' : MemoryStore) : Prop where
  fails : ∃ f, reply = .error f ∧
    if m.conflicts operation then f = (Reason.writeConflict operation).fault else f.IsValidation
  committed : m'.collections = m.collections
  working : ∀ i, m'.transaction? (some i) = m.transaction? (some i)

/-- A creation that breaks a unique path is refused. -/
theorem create_refused {caller : Option SessionId} {collection : String} {d : Document}
    {reply : Outcome StoreReply} (h : m.Sound) (hd : IdGiven d)
    (hbreaks : m.CreationBreaks caller collection d)
    (he : Event.Happens ⟨.create caller collection d, reply⟩ m m') :
    Refused "create" m reply m' := by
  rw [Event.Happens, StoreCall.run, Action.run_bind, MemoryStore.run_create_eq] at he
  by_cases hc : m.conflicts "create"
  · rw [if_pos hc] at he
    cases he
    exact ⟨⟨_, rfl, by rw [if_pos hc]⟩, rfl, fun _ => rfl⟩
  · rw [if_neg hc] at he
    rcases m.filing_cases h hd with ⟨o, -, -, hnot⟩ | ⟨f, herror, hvalidation⟩
    · exact absurd hbreaks hnot
    · rw [herror] at he
      cases he
      exact ⟨⟨f, rfl, by rwa [if_neg hc]⟩, rfl, fun _ => rfl⟩

/-- A change that breaks a unique path is refused. -/
theorem update_refused {caller : Option SessionId} {collection : String} {id change : Value}
    {reply : Outcome StoreReply} (h : m.Sound) (hkeeps : ¬ MemoryStore.RewritesId change)
    (hbreaks : m.ChangeBreaks caller collection id change)
    (he : Event.Happens ⟨.update caller collection id change, reply⟩ m m') :
    Refused "update" m reply m' := by
  rw [Event.Happens, StoreCall.run, Action.run_bind, MemoryStore.run_update_eq] at he
  by_cases hc : m.conflicts "update"
  · rw [if_pos hc] at he
    cases he
    exact ⟨⟨_, rfl, by rw [if_pos hc]⟩, rfl, fun _ => rfl⟩
  · rw [if_neg hc] at he
    rcases m.changing_cases h hkeeps with ⟨-, hnot⟩ | ⟨updated, -, -, hnot⟩ |
      ⟨f, herror, hvalidation⟩
    · exact absurd hbreaks hnot
    · exact absurd hbreaks hnot
    · rw [herror] at he
      cases he
      exact ⟨⟨f, rfl, by rw [if_neg hc]; exact hvalidation hbreaks⟩, rfl, fun _ => rfl⟩

/-- **Unique values are not equal.** Values that name no key twice are equal both ways or not at
all, so no two documents that a caller sees in a managed store have equal ones at a unique path. -/
theorem Managed.eq_false_of_unique (h : Managed es m) {caller : Option SessionId}
    {name path : String} (hpath : path ∈ m.uniquePaths name) {e f : Value × Document}
    (he : e ∈ (m.view caller).get name) (hf : f ∈ (m.view caller).get name) (hne : e ≠ f)
    {v w : Value} (hv : v ∈ MemoryStore.uniqueValues e.2 path)
    (hw : w ∈ MemoryStore.uniqueValues f.2 path) (hv' : v.NamesOnce) (hw' : w.NamesOnce) :
    v.eq w = false :=
  Bool.eq_false_iff.2 fun heq => (h.sound.view caller name).unique path hpath e he f hf hne
    (sharesValue_of_namesOnce hv hw hv' hw' heq)

/-- **Managed stores are sound**: every document of the committed collections and of the private
copies is filed under its own identifier and shares no value at a unique path with another one. A
creation that would put a document in the place of another one or make a collection unsound is
refused, and so is an update that would. -/
theorem managed_sound (h : Managed es m) :
    m.Sound ∧
    (∀ caller collection d reply m', IdGiven d → m.CreationBreaks caller collection d →
      Event.Happens ⟨.create caller collection d, reply⟩ m m' → Refused "create" m reply m') ∧
    (∀ caller collection id change reply m', ¬ MemoryStore.RewritesId change →
      m.ChangeBreaks caller collection id change →
      Event.Happens ⟨.update caller collection id change, reply⟩ m m' →
      Refused "update" m reply m') :=
  ⟨h.sound, fun _ _ _ _ _ hd hbreaks he => create_refused h.sound hd hbreaks he,
    fun _ _ _ _ _ _ hkeeps hbreaks he => update_refused h.sound hkeeps hbreaks he⟩

end Runs

/-- A book without identifier. -/
def notes : Document := [("title", .text "Notes")]

/-- Titles of books are unique; a book is stored in a transaction, and the transaction commits. -/
def oneBook : List Event :=
  [⟨.ensure ⟨"books", .null, ["title"]⟩, .ok .done⟩, ⟨.openSession, .ok (.session 0)⟩,
    ⟨.begin 0, .ok .done⟩,
    ⟨.create (some 0) "books" notes,
    .ok (.document (some (Record.put notes "_id" (.id (.ofNat 1)))))⟩]

/-- Nothing disturbs the transaction. -/
theorem undisturbed_oneBook {before during : List Event} (h : Inside 0 oneBook before during) :
    Undisturbed oneBook before := by
  obtain ⟨begun, ⟨hbegin, -⟩, hes, -⟩ := h
  have hlen : before.length = 2 := by
    rcases before with _ | ⟨a, _ | ⟨b, _ | ⟨c, _ | ⟨d, rest⟩⟩⟩⟩
    · cases hes
      cases hbegin
    · cases hes
      cases hbegin
    · rfl
    · cases hes
      cases hbegin
    · simp [oneBook] at hes
  intro es₁ f es₂ hsplit hlt
  rcases es₁ with _ | ⟨a, _ | ⟨b, _ | ⟨c, _ | ⟨d, rest⟩⟩⟩⟩
  · cases hlt
  · exact absurd hlt (by simp [hlen])
  · exact absurd hlt (by simp [hlen])
  · cases hsplit
    rintro (⟨i, hi, -⟩ | ⟨-, hout⟩)
    · cases hi
    · exact hout 0 [_, _] [] rfl ⟨⟨.begin 0, .ok .done⟩, ⟨rfl, _, rfl⟩, rfl, fun e he =>
        absurd he List.not_mem_nil⟩
  · simp [oneBook] at hsplit

/-- The transaction commits, and a second book of the same title is refused. -/
theorem oneBook_sound : ∃ m, Managed (oneBook ++ [⟨.commit 0, .ok .done⟩]) m ∧ m.Sound ∧
    m.CreationBreaks none "books" notes ∧
    Refused "create" m (StateT.run (StoreCall.run (.create none "books" notes)).run m).1
      (StateT.run (StoreCall.run (.create none "books" notes)).run m).2 := by
  have hgiven : ∀ caller collection d, StoreCall.create (some 0) "books" notes =
      .create caller collection d → IdGiven d := by
    intro caller collection d hcall
    cases hcall
    intro v hv
    cases hv
  have hsession : ∀ (es : List Event) (e : Event), e.call = .openSession ∨ e.call = .begin 0 →
      e.Allowed es := by
    rintro es ⟨call, reply⟩ (rfl | rfl)
    · exact ⟨⟨fun _ _ _ h => (by cases h), fun _ _ _ _ h => (by cases h)⟩, fun _ h => (by cases h),
        fun _ _ _ h => (by cases h.1)⟩
    · exact ⟨⟨fun _ _ _ h => (by cases h), fun _ _ _ _ h => (by cases h)⟩, fun _ h => (by cases h),
        fun _ _ _ h => (by cases h.1)⟩
  have hensured := Managed.nil.call (.ensure ⟨"books", .null, ["title"]⟩)
    ⟨⟨fun _ _ _ h => (by cases h), fun _ _ _ _ h => (by cases h)⟩,
      fun _ _ f hf => absurd hf List.not_mem_nil, fun _ _ _ h => (by cases h.1)⟩
  have hbegun := (hensured.call .openSession (hsession _ _ (.inl rfl))).call (.begin 0)
    (hsession _ _ (.inr rfl))
  have hcreated : Managed oneBook _ := hbegun.call (.create (some 0) "books" notes)
    ⟨⟨hgiven, fun _ _ _ _ h => (by cases h)⟩, fun _ h => (by cases h), fun _ _ _ h =>
    (by cases h.1)⟩
  have hes : Managed (oneBook ++ [⟨.commit 0, .ok .done⟩]) _ := hcreated.call (.commit 0)
    ⟨⟨fun _ _ _ h => (by cases h), fun _ _ _ _ h => (by cases h)⟩, fun _ h => (by cases h),
      fun i before during hcommit hin => by
        cases hcommit.1
        exact undisturbed_oneBook hin⟩
  obtain ⟨hsound, hcreate, -⟩ := managed_sound hes
  refine ⟨_, hes, hsound, (fun hbreaks =>
    ⟨hbreaks, hcreate none "books" notes _ _ (hgiven _ _ _ rfl) hbreaks rfl⟩) ?_⟩
  refine ⟨.id (.ofNat 2), rfl, .inr fun hput => ?_⟩
  refine hput.unique "title" (List.mem_cons_self ..)
    (.id (.ofNat 1), Record.put notes "_id" (.id (.ofNat 1))) (List.mem_cons_self ..)
    (.id (.ofNat 2), Record.put notes "_id" (.id (.ofNat 2)))
    (List.mem_cons_of_mem _ (List.mem_cons_self ..)) (fun heq => by cases heq) ?_
  exact ⟨.text "Notes", List.mem_cons_self .., .text "Notes", List.mem_cons_self .., rfl, rfl⟩

end EntityGraph
