import EntityGraph.Proofs.Tours

/-!
# What an update changes

An update changes the document that its arguments name, and no other. Field by field, by the key
that the field is stored under (`FieldDef.Updated`): the value stays when the argument is absent or
counts as such, it is gone when the argument is null for a field that may be null, and otherwise it
is what the field makes of its argument; an object that is embedded is laid over the stored one.
Every other key is left alone (`Executor.update_changes`).

This is so when each field has its key alone, and keeps its values under the key that nulls remove
(`Entity.KeepsApart`). A relation on a field of a scalar tells the two apart: the value is kept
under the name of the field, but a null removes the connection field (`memos_keep_note`).
-/

namespace EntityGraph

open MemoryStore (applyUpdate)

variable {τ : Type}

/-! ## Fields and documents over an update -/

/-- **A field over an update**: what was stored under its key, and what is stored then. -/
structure FieldDef.Updated (r : Registry) (f : FieldDef) (args : Value)
    (old new : Option Value) : Prop where
  /-- the argument is absent, empty, or null where it may not be, or it is about other documents -/
  kept : presentArgument? f args = none ∨ f.kind = .ok .referencedList → ¬ f.IsNulled args →
    new = old
  removed : f.IsNulled args → new = none
  stored : ∀ v, presentArgument? f args = some v → f.kind ≠ .ok .referencedList →
    (f.kind = .ok .embeddedObject → ∀ o, old ≠ some (.object o)) →
    ∃ w, r.Yields f v w ∧ new = some w
  merged : ∀ v o, presentArgument? f args = some v → f.kind = .ok .embeddedObject →
    old = some (.object o) →
    ∃ w, r.Yields f v (.object w) ∧ new = some (.object (Record.merge o w))

/-- **A document over an update.** -/
structure Entity.Updated (r : Registry) (e : Entity) (args : Value)
    (current doc : Document) : Prop where
  fields : ∀ f ∈ e.fields, f.isIdentifier = false →
    f.Updated r args (Record.get? current f.documentKey) (Record.get? doc f.documentKey)
  others : ∀ key, (∀ f ∈ e.fields, f.isIdentifier = false → f.documentKey ≠ key) →
    Record.get? doc key = Record.get? current key

/-- **Fields with keys of their own**: no two fields are stored under one key, keys lead nowhere and
are not that of the identifier, and values are kept where nulls remove them. -/
structure Entity.KeepsApart (e : Entity) : Prop where
  nodup : (e.fields.map FieldDef.storedKey).Nodup
  storable : ∀ f ∈ e.fields, IsStorable f.storedKey
  same : ∀ f ∈ e.fields, f.storedKey = f.documentKey

namespace Entity.KeepsApart

variable {e : Entity} {f g : FieldDef}

theorem documentKeys (h : e.KeepsApart) : (e.fields.map FieldDef.documentKey).Nodup :=
  List.map_congr_left h.same ▸ h.nodup

theorem storableKey (h : e.KeepsApart) (hf : f ∈ e.fields) : IsStorable f.documentKey :=
    h.same f hf ▸ h.storable f hf

theorem inj (h : e.KeepsApart) (hf : f ∈ e.fields) (hg : g ∈ e.fields)
    (hkey : f.documentKey = g.documentKey) : f = g :=
  List.inj_on_of_nodup_map h.documentKeys hf hg hkey

end Entity.KeepsApart

/-! ## Laying changes over a document -/

/-- **An update under single segments**, key by key. -/
theorem Materialized.Turns.get? {made : Materialized} {fields : List FieldDef}
    {current doc : Document} (h : made.Turns fields current doc)
    (hnames : (fields.map FieldDef.name).Nodup) (hkeys : (Record.keys made.document).Nodup)
    (hsegments : ∀ key ∈ Record.keys made.document, IsSegment key)
    (hunset : ∀ key ∈ made.unset, IsSegment key) :
    ∃ changes, LaidOver current fields made.document changes ∧ ∀ key,
      Record.get? doc key =
        if key ∈ made.unset then none else
          (Record.get? changes key).or (Record.get? current key) := by
  obtain ⟨changes, hmerge, happly⟩ := h
  have hlaid := laidOver_mergeEmbedded hnames hmerge
  refine ⟨changes, hlaid, fun key => ?_⟩
  rw [applyUpdate_updateParts, Assembled.getD_ite_isEmpty, setPaths_eq_merge fun e he =>
    ?_] at happly
  · cases happly
    have hpaths :
      ∀ path,
      path ∈ Record.keys (Record.ofEntries (made.unset.map fun key => (key, Value.text ""))) ↔
        path ∈ made.unset := fun path =>
      ⟨mem_of_mem_unsetKeys, fun hpath =>
        Record.mem_keys_ofEntries (List.mem_map.2 ⟨path, hpath, rfl⟩)⟩
    rw [get?_unsetPaths_of_isSegment fun path hpath => hunset path ((hpaths path).1 hpath),
      Record.get?_merge (hlaid.keys ▸ hkeys)]
    simp only [hpaths]
  · exact hsegments e.1 (hlaid.keys ▸ List.mem_map_of_mem he)

section Updating

variable {r : Registry} {e : Entity} {args : Value} {made : Materialized} {current doc : Document}
  {f : FieldDef}

/-- What is made is stored under the keys of fields. -/
theorem Registry.Makes.isStorable (h : r.Makes e none args made) (hkeys : e.KeepsApart)
    {key : String} (hkey : key ∈ Record.keys made.document) : IsStorable key := by
  obtain ⟨w, hw⟩ := Option.isSome_iff_exists.1 ((Record.mem_keys_iff ..).1 hkey)
  rcases h.get?_cases hw with hnone | ⟨f, hf, -, rfl, -⟩
  · cases hnone
  · exact hkeys.storableKey hf

/-- A key is removed when it is that of a field whose argument is a null. -/
theorem Registry.Makes.mem_unset_iff {link : Option ParentLink} (h : r.Makes e link args made)
    (hkeys : e.KeepsApart) (hf : f ∈ e.fields) : f.documentKey ∈ made.unset ↔ f.IsNulled args := by
  rw [h.mem_unset]
  refine ⟨?_, fun hnull => ⟨f, hf, hnull, hkeys.same f hf⟩⟩
  rintro ⟨g, hg, hnull, hkey⟩
  rwa [hkeys.inj hf hg (hkey.symm.trans (hkeys.same g hg))]

/-- **A present argument over an update**: what its field makes of it is laid over the document as
it is, or merged into the object that the document embeds there. -/
theorem Registry.Composes.laid {composed changes : Document}
    (h : r.Composes args e.fields [] composed) (hkeys : e.KeepsApart)
    (hlaid : LaidOver current e.fields composed changes) (hf : f ∈ e.fields)
    (hid : f.isIdentifier = false) (hstored : f.kind ≠ .ok .referencedList) {v : Value}
    (hv : presentArgument? f args = some v) : ∃ w, r.Yields f v w ∧
      ((∃ old new, f.kind = .ok .embeddedObject ∧ Record.get? current f.documentKey =
        some (.object old) ∧
          w = .object new ∧ Record.get? changes f.documentKey =
            some (.object (Record.merge old new))) ∨
        (f.kind = .ok .embeddedObject →
          ∀ old, Record.get? current f.documentKey ≠ some (.object old)) ∧
          Record.get? changes f.documentKey = some w) := by
  obtain ⟨w, hw, hcomposed⟩ := h.get?_of_present hkeys.documentKeys hf hid hstored hv
  refine ⟨w, hw, ?_⟩
  by_cases hk : f.kind = .ok .embeddedObject
  · rw [FieldDef.documentKey_of_ne fun hk' => by cases hk.symm.trans hk'] at hcomposed ⊢
    rcases hlaid.merged f hf hk with ⟨new, old, hnew, hold, hmerged⟩ | ⟨hsame, hmissing⟩
    · cases hcomposed.symm.trans hnew
      exact .inl ⟨old, new, hk, hold, rfl, hmerged⟩
    · refine .inr ⟨fun _ old hold => ?_, hsame.trans hcomposed⟩
      cases (hmissing old hold).symm.trans hcomposed
  · refine .inr ⟨fun hk' => absurd hk' hk, ?_⟩
    rw [hlaid.other _ fun g hg hk' hname => ?_, hcomposed]
    rw [← FieldDef.documentKey_of_ne fun hk'' => by cases hk'.symm.trans hk''] at hname
    exact hk (hkeys.inj hg hf hname ▸ hk')

/-- **What an update makes of a document**, when each field has its key alone. -/
theorem Registry.Makes.updated (h : r.Makes e none args made) (hkeys : e.KeepsApart)
    (hturns : made.Turns e.fields current doc) : e.Updated r args current doc := by
  obtain ⟨changes, hlaid, hget⟩ := hturns.get? e.names_nodup h.nodup_keys
    (fun key hkey => (h.isStorable hkeys hkey).1) fun key hkey => by
      obtain ⟨f, hf, -, rfl⟩ := h.mem_unset.1 hkey
      exact (hkeys.storable f hf).1
  obtain ⟨composed, hcomposes, hmade⟩ := id h
  rw [show made.document = composed by rw [hmade]; rfl] at hlaid
  refine ⟨fun f hf hid => ?_, fun key hapart => ?_⟩
  · have hremoved : f.documentKey ∈ made.unset ↔ f.IsNulled args := h.mem_unset_iff hkeys hf
    have hkept : ¬ f.IsNulled args → Record.get? doc f.documentKey =
        (Record.get? changes f.documentKey).or (Record.get? current f.documentKey) := fun hnot => by
      rw [hget, if_neg (mt hremoved.1 hnot)]
    have hpresent : ∀ v, presentArgument? f args = some v → ¬ f.IsNulled args := by
      intro v hv hnull
      cases hnull.presentArgument?.symm.trans hv
    refine ⟨fun habsent hnot => ?_, fun hnull => ?_, fun v hv hstored hplain =>
      ?_, fun v o hv hk hold => ?_⟩
    · rw [hkept hnot, hlaid.get?_of_none (hcomposes.get?_of_absent hkeys.documentKeys hf habsent),
        Option.none_or]
    · rw [hget, if_pos (hremoved.2 hnull)]
    · obtain ⟨w, hw, ⟨old, -, hk, hold, -⟩ | ⟨-, hchanges⟩⟩ :=
        hcomposes.laid hkeys hlaid hf hid hstored hv
      · exact absurd hold (hplain hk old)
      · exact ⟨w, hw, by rw [hkept (hpresent v hv), hchanges, Option.some_or]⟩
    · obtain ⟨w, hw, ⟨old, new, -, hold', rfl, hchanges⟩ | ⟨hplain, -⟩⟩ :=
        hcomposes.laid hkeys hlaid hf hid (fun hk' => by cases hk.symm.trans hk') hv
      · cases hold.symm.trans hold'
        exact ⟨new, hw, by rw [hkept (hpresent v hv), hchanges, Option.some_or]⟩
      · exact absurd hold (hplain hk o)
  · have hkey : key ∉ made.unset := fun hm => by
      obtain ⟨g, hg, hnull, rfl⟩ := h.mem_unset.1 hm
      exact hapart g hg hnull.1 (hkeys.same g hg).symm
    rw [hget, if_neg hkey, hlaid.get?_of_none (hcomposes.get?_of_apart hapart), Option.none_or]

end Updating

/-! ## The operation -/

/-- The arguments change no list of related documents. -/
def Entity.NoChanges (e : Entity) (args : Value) : Prop :=
  ∀ f ∈ e.fields, ∀ delta, deltaOf? f args = some delta → delta.added = [] ∧ delta.updated = []

/-- Without changes to lists there are no further jobs. -/
theorem Entity.NoChanges.jobs {e : Entity} {args : Value} (h : e.NoChanges args) (parent : Value) :
    e.fields.flatMap (FieldDef.jobs parent args) = [] := by
  refine List.flatMap_eq_nil_iff.2 fun f hf => ?_
  rw [FieldDef.jobs]
  split
  · rfl
  · rename_i delta hdelta
    obtain ⟨hadded, hupdated⟩ := h f hf delta hdelta
    rw [hadded, hupdated]
    rfl

namespace Executor

variable {p : τ → MemoryStore} {x : Executor τ SessionId} {t t' : τ}

/-- **An update of a single document**: without changes to lists of related documents there are no
further visits. -/
theorem Checking.logs_update (h : x.Checking p) {d : Descriptor} {args : Value}
    (hnone : d.entity.NoChanges args) (name : String) {s : SessionId} {updated : Option Document}
    (hr : (x.updateIn (x.operationsTo nestingLimit) d none s args).run.run t = (.ok updated, t')) :
    x.Logs p s (fun log => ∃ (v : Visit) (doc : Document), log = [(v, doc)] ∧
      v.toJob = ⟨.update, name, none, args⟩ ∧ v.entity = d ∧ updated = some doc) t t' := by
  intro c hc
  obtain ⟨v, hjob, hentity, t₁, t₂, hsame, hdeltas, hwrites⟩ := h.of_updateIn hr name
  obtain ⟨log, c₁, htour, hlog, hc₁⟩ :=
    h.toured_applyDeltas d v.id args _ hdeltas c (hc.congr hsame)
  rw [hnone.jobs] at htour
  obtain rfl := List.map_eq_nil_iff.1 htour.eq_nil
  cases hlog
  obtain ⟨doc, c', hwrites, hupdated, hc'⟩ := hwrites c hc₁
  exact ⟨[(v, doc)], c', ⟨v, doc, rfl, hjob, hentity, hupdated⟩, .single hwrites, hc'⟩

/-- **What an update changes.** An update that returns has found a document under the identifier in
its arguments, and returns what it made of it: field by field what the arguments say, under all
other keys, that of the identifier among them, what was there. This document is stored in the place
of the one that was found, and everything else is stored as before. -/
theorem update_changes (h : x.Checking p) (hd : (p t).collections.Distinct) {name : String}
    {d : Descriptor} (hdescriptor : x.descriptor name = .ok d) (hkeys : d.entity.KeepsApart)
    {args : Value} (hnone : d.entity.NoChanges args) {v : Value}
    (hr : (x.operations.update name args none).run.run t = (.ok v, t')) :
    ∃ o current doc, NamesDocument args o ∧
      ((p t).collections.get d.collection).get? (.id o) = some current ∧
      v = .object doc ∧ d.entity.Updated x.registry args current doc ∧
      Record.get? doc "_id" = Record.get? current "_id" ∧
      ((p t').collections.get d.collection).get? (.id o) = some doc ∧
      ∀ collection id, (collection ≠ d.collection ∨ id ≠ .id o) →
        ((p t').collections.get collection).get? id =
          ((p t).collections.get collection).get? id := by
  obtain ⟨d', hd', hr⟩ := Action.run_lift_bind_eq_ok hr
  obtain rfl := Except.ok.inj (hdescriptor.symm.trans hd')
  obtain ⟨updated, t₁, hr, hend⟩ := Action.run_bind_eq_ok hr
  cases hend
  obtain ⟨_, n, ⟨v, doc, rfl, hjob, rfl, rfl⟩, hfollows⟩ := h.logs_transact (fun s =>
    confined_updateIn h.store h.confined (h.confined_operations s _) _ none _)
      (fun s t t' updated hr => h.logs_update hnone name hr) hd hr
  obtain ⟨hop, -, hlink, rfl⟩ := Job.mk.inj hjob
  cases hfollows with
  | cons hwrites hrest =>
    cases hrest
    obtain ⟨o, made, current, hnames, hid, hmade, hcurrent, hturns⟩ := hwrites.of_update hop
    rw [hlink] at hmade
    have hupdated := hmade.updated hkeys hturns
    refine ⟨o, current, doc, hnames, hcurrent, rfl, hupdated, hupdated.others "_id"
      fun f hf _ hkey => ?_, hwrites.found_self hid, ?_⟩
    · exact (hkeys.storableKey hf).2 hkey
    · intro collection id hother
      rcases hwrites.found collection id with ⟨⟨hcollection, hsame⟩, -⟩ | ⟨-, hunchanged⟩
      · rw [hid] at hsame
        rcases hother with hne | hne
        · exact absurd hcollection.symm hne
        · exact absurd (Value.eq_id_iff.1 hsame) hne
      · exact hunchanged

end Executor

/-! ## A service of memos -/

/-- A memo has a title and a text. -/
def memo : Entity where
  name := "Memo"
  fields := [⟨"id", .scalar .id, false, true, false, false, none, .null⟩, textField "title",
    textField "text"]
  description := .null
  names_nodup := by decide

/-- A note on a slip is a text with a relation. -/
def noteField : FieldDef :=
  ⟨"note", .scalar .string, false, true, false, false, some ⟨false, "note_ref", .null⟩, .null⟩

/-- A slip has a note. -/
def slip : Entity where
  name := "Slip"
  fields := [⟨"id", .scalar .id, false, true, false, false, none, .null⟩, noteField]
  description := .null
  names_nodup := by decide

/-- The registry of the service. -/
def memosRegistry : Registry :=
  ⟨[("Memo", ⟨memo, "memos", some "memo", some "memos", none, true, none, []⟩),
    ("Slip", ⟨slip, "slips", some "slip", some "slips", none, true, none, []⟩)], [], false⟩

/-- A service of memos and slips. -/
def memos : Executor MemoryStore SessionId where
  registry := memosRegistry
  behaviour := ⟨fun _ => .none, fun _ _ _ => throw .illTyped⟩
  store := MemoryStore.documentStore.within ⟨id, fun m _ => m⟩
  policy := ⟨2, fun n => .ok (.whole n), fun _ => pure (), Nat.two_pos⟩

/-- A store with a memo and a slip. -/
def memoStore : MemoryStore := { MemoryStore.empty with
  collections := [
    ("memos", [(.id (.ofNat 1), [("_id", .id (.ofNat 1)), ("title", .text "Plan"),
      ("text", .text "Buy bread")])]),
    ("slips", [(.id (.ofNat 1), [("_id", .id (.ofNat 1)), ("note", .text "x")])])] }

/-- The title of the memo is taken away, and its text replaced. -/
def rewriteMemo : Value :=
    .object [("id", .id (.ofNat 1)), ("title", .null), ("text", .text "Bake bread")]

/-- The note on the slip is taken away. -/
def clearNote : Value := .object [("id", .id (.ofNat 1)), ("note", .null)]

/-- The note on the slip is replaced. -/
def replaceNote : Value := .object [("id", .id (.ofNat 1)), ("note", .text "y")]

theorem memos_checking : memos.Checking id where
  store := MemoryStore.onMemory_within (c := ⟨id, fun m _ => m⟩) fun _ _ => rfl
  sleep := fun _ _ => rfl
  validates := fun _ => EntityBehaviour.validates_none _

theorem memoStore_distinct : memoStore.collections.Distinct :=
  Collections.distinct_of_forall (by unfold Collection.Distinct; decide)

/-- Entities without lists of related documents change none. -/
theorem Entity.NoChanges.of_kinds {e : Entity} (h : ∀ f ∈ e.fields, f.isReferencedList = false)
    (args : Value) :
    e.NoChanges args := fun f hf delta hdelta => by
  rw [deltaOf?, h f hf] at hdelta
  cases hdelta

theorem memo_keepsApart : memo.KeepsApart where
  nodup := by decide
  storable := by unfold IsStorable IsSegment; decide
  same := by decide

/-- The memo has lost its title and has another text; the slip is as it was. -/
theorem memos_rewrite : ∃ doc t',
    (memos.operations.update "Memo" rewriteMemo none).run.run memoStore =
      (.ok (.object doc), t') ∧ Record.get? doc "title" = none ∧ Record.get? doc "text" =
        some (.text "Bake bread") ∧
    (t'.collections.get "slips").get? (.id (.ofNat 1)) =
      some [("_id", .id (.ofNat 1)), ("note", .text "x")] := by
  have hdescriptor : memos.descriptor "Memo" =
      .ok ⟨memo, "memos", some "memo", some "memos", none, true, none, []⟩ := rfl
  obtain ⟨t', hr⟩ : ∃ t', (memos.operations.update "Memo" rewriteMemo none).run.run memoStore =
      (.ok (.object [("_id", .id (.ofNat 1)), ("text", .text "Bake bread")]), t') :=
      ⟨_, Prod.ext (by cbv) rfl⟩
  obtain ⟨o, current, doc, -, -, hdoc, hupdated, -, -, hothers⟩ :=
    Executor.update_changes memos_checking memoStore_distinct hdescriptor memo_keepsApart
      (.of_kinds (by decide) _) hr
  cases hdoc
  refine ⟨_, t', hr, ?_, ?_, ?_⟩
  · exact (hupdated.fields (textField "title") (by simp [memo]) rfl).removed ⟨rfl, rfl, rfl⟩
  · obtain ⟨w, hw, htext⟩ :=
      (hupdated.fields (textField "text") (by simp [memo]) rfl).stored (.text "Bake bread")
        rfl (fun h => by cases h) (fun h => by cases h)
    cases hw with
    | scalar _ h =>
      cases h
      exact htext
    | enumeration hk => cases hk
    | referencedObject hk => cases hk
  · exact hothers "slips" _ (.inl (by decide))

/-- **A note that cannot be cleared.** The note of a slip is kept under its name, though nulls
remove its connection field: a null leaves the note where it is, and a new note is not where nulls
would remove it. -/
theorem memos_keep_note : memos.Checking id ∧ memoStore.collections.Distinct ∧
    (slip.fields.map FieldDef.storedKey).Nodup ∧ (∀ f ∈ slip.fields, IsStorable f.storedKey) ∧
    slip.NoChanges clearNote ∧ slip.NoChanges replaceNote ∧ noteField ∈ slip.fields ∧
    noteField.IsNulled clearNote ∧
    ((memos.operations.update "Slip" clearNote none).run.run memoStore).1 =
      .ok (.object [("_id", .id (.ofNat 1)), ("note", .text "x")]) ∧
    ((memos.operations.update "Slip" replaceNote none).run.run memoStore).1 =
      .ok (.object [("_id", .id (.ofNat 1)), ("note", .text "y")]) ∧
        noteField.storedKey = "note_ref" := by
  refine ⟨memos_checking, memoStore_distinct, by decide, by unfold IsStorable IsSegment; decide,
    .of_kinds (by decide) _, .of_kinds (by decide) _,
    List.mem_cons_of_mem _ (List.mem_singleton_self _), ⟨rfl, rfl, rfl⟩, ?_, ?_, rfl⟩ <;> cbv

end EntityGraph
