import EntityGraph.Proofs.Coercion
import EntityGraph.Proofs.Upkeep

/-!
# Identifiers and moments in documents

Arguments are converted on their way into a document: identifiers become references, and calendar
and clock values become moments. What is found in a stored document comes from one of few sources
(`Registry.Source`): the argument of a field, which has the form that the field gives it, the link
to a parent, the state of the document, or its identifier. This is so when a document is made, and
it stays so when embedded objects are merged and when keys are removed. So references are found
under the keys that nothing else shares, and moments under theirs, at every depth of every committed
document (`Dispatcher.keeps_forms`). A list that is given for a single moment is converted item by
item and kept as a list of moments (`agenda_keeps_list`).
-/

namespace EntityGraph

open MemoryStore (applyUpdate)

variable {τ S : Type}

/-! ## Arguments without members -/

/-- **Data**: no member of an enumeration, at any depth. What can be written as JSON is data. -/
inductive Value.IsData : Value → Prop where
  | plain {v : Value} (hkey : v.isKey = true) (hmember : ∀ e n, v ≠ .member e n) : IsData v
  | list {items : List Value} (h : ∀ v ∈ items, IsData v) : IsData (.list items)
  | object {fs : Document} (h : ∀ e ∈ fs, IsData e.2) : IsData (.object fs)

namespace Value.IsData

variable {fs : Document} {items : List Value} {v : Value}

theorem not_member (h : v.IsData) (e n : String) : v ≠ .member e n := by
  rintro rfl
  cases h with
  | plain _ hmember => exact hmember e n rfl

theorem get? (h : (Value.object fs).IsData) {key : String} (hv : Record.get? fs key = some v) :
    v.IsData := by
  cases h with
  | plain hkey => cases hkey
  | object h => exact h (key, v) (Record.mem_of_get?_eq_some hv)

theorem item (h : (Value.list items).IsData) (hv : v ∈ items) : v.IsData := by
  cases h with
  | plain hkey => cases hkey
  | list h => exact h v hv

theorem null : Value.null.IsData := .plain rfl fun _ _ h => by cases h

/-- The parts of data are data. -/
theorem part (h : (Value.object fs).IsData) {r : Registry} {d e : Descriptor} {f : FieldDef}
    {inner : Document} (hpart : r.Part d fs f e inner) : (Value.object inner).IsData := by
  cases hpart with
  | object _ _ _ _ hget => exact h.get? hget
  | item _ _ _ _ hget hitem => exact (h.get? hget).item hitem

theorem listAt? (h : (Value.object fs).IsData) {key : String}
    (hitems : Delta.listAt? fs key = some items) (hv : v ∈ items) : v.IsData := by
  unfold Delta.listAt? at hitems
  split at hitems
  · cases hitems
    cases hv
  · rename_i hget
    cases hitems
    exact (h.get? hget).item hv
  · cases hitems
    split at hv
    · cases hv
    · exact List.mem_singleton.1 hv ▸ .null
  · cases hitems
    split at hv
    · cases hv
    · exact List.mem_singleton.1 hv ▸ .null
  · split at hitems <;> cases hitems
    cases hv

/-- The changes to a list of related documents are data. -/
theorem delta (h : (Value.object fs).IsData) {f : FieldDef} {delta : Delta}
    (hdelta : deltaOf? f (.object fs) = some delta) :
    (∀ v ∈ delta.added, v.IsData) ∧ ∀ v ∈ delta.updated, v.IsData := by
  unfold deltaOf? at hdelta
  split at hdelta
  · obtain ⟨w, hw, hread⟩ := Option.bind_eq_some_iff.1 hdelta
    have hdata := h.get? (Option.filter_eq_some_iff.1 hw).1
    unfold Delta.ofValue? at hread
    split at hread
    · simp only [Option.bind_eq_bind, Option.bind_eq_some_iff, Option.some.injEq] at hread
      obtain ⟨added, hadded, updated, hupdated, deleted, -, rfl⟩ := hread
      exact ⟨fun v => hdata.listAt? hadded, fun v => hdata.listAt? hupdated⟩
    · cases hread
  · cases hdelta

end Value.IsData

/-- What a list of results holds comes from a member of the list. -/
theorem exists_of_mem_mapM_ok {α β : Type} {f : α → Outcome β} {xs : List α} {ys : List β}
    (h : xs.mapM f = .ok ys) {y : β} (hy : y ∈ ys) : ∃ x ∈ xs, f x = .ok y := by
  induction xs generalizing ys with
  | nil =>
    cases h
    cases hy
  | cons x rest ih =>
    rw [List.mapM_cons] at h
    obtain ⟨z, hz, h⟩ := bind_eq_ok h
    obtain ⟨zs, hzs, h⟩ := bind_eq_ok h
    cases h
    rcases List.mem_cons.1 hy with rfl | hy
    · exact ⟨x, List.mem_cons_self .., hz⟩
    · obtain ⟨w, hw, hwy⟩ := ih hzs hy
      exact ⟨w, List.mem_cons_of_mem _ hw, hwy⟩

/-- The arguments of a call are data when those that were given are. -/
theorem Value.IsData.callArguments {v : Value} (h : v.IsData) {fs : Document}
    (hfs : Dispatcher.callArguments v = .ok fs) : (Value.object fs).IsData := by
  unfold Dispatcher.callArguments at hfs
  split at hfs
  · cases hfs
    exact h
  · obtain ⟨entries, hentries, hfs⟩ := bind_eq_ok hfs
    cases hfs
    refine .object fun e he => ?_
    obtain ⟨pair, hpair, he⟩ := exists_of_mem_mapM_ok hentries (Record.mem_ofEntries he)
    have hdata := h.item hpair
    split at he
    · cases he
      exact hdata.item (List.mem_cons_of_mem _ (List.mem_cons_self ..))
    · cases he
  · split at hfs <;> cases hfs
    exact .object fun _ he => absurd he List.not_mem_nil

/-! ## Forms of values -/

/-- **Momentary** values: a moment, or a list of momentary values and nulls. -/
inductive Value.Momentary : Value → Prop where
  | moment (m : Moment) : Momentary (.moment m)
  | list {items : List Value} (h : ∀ v ∈ items, v ≠ .null → Momentary v) : Momentary (.list items)

theorem momentary_of_single {type : String} {v w : Value} (h : coerceMoment.single type v = .ok w) :
    w.Momentary := by
  obtain ⟨m, rfl⟩ := exists_moment_of_single h
  exact .moment m

mutual

/-- **Conversion to moments** gives null or what is momentary. -/
theorem momentary_of_coerceMoment {type : String} :
    ∀ {v w : Value}, coerceMoment type v = .ok w → w ≠ .null → w.Momentary
  | .list items, w, h, _ => by
    rw [coerceMoment] at h
    obtain ⟨ws, hws, h⟩ := bind_eq_ok h
    cases h
    exact .list (momentary_of_coerceMoments hws)
  | .null, w, h, hw => by
    rw [coerceMoment] at h
    cases h
    exact absurd rfl hw
  | .moment m, w, h, _ => by
    rw [coerceMoment] at h
    cases h
    exact .moment m
  | .int i, w, h, _ => momentary_of_single (by rwa [coerceMoment] at h)
  | .float x, w, h, _ => momentary_of_single (by rwa [coerceMoment] at h)
  | .text s, w, h, _ => momentary_of_single (by rwa [coerceMoment] at h)
  | .bool b, w, h, _ => by
    rw [coerceMoment] at h
    cases h
  | .id o, w, h, _ => by
    rw [coerceMoment] at h
    cases h
  | .object fs, w, h, _ => by
    rw [coerceMoment] at h
    cases h
  | .member e n, w, h, _ => by
    rw [coerceMoment] at h
    cases h

theorem momentary_of_coerceMoments {type : String} :
    ∀ {vs ws : List Value}, coerceMoments type vs = .ok ws →
    ∀ w ∈ ws, w ≠ .null → w.Momentary
  | [], ws, h, w, hw => by
    cases h
    cases hw
  | v :: rest, ws, h, w, hw => by
    rw [coerceMoments] at h
    obtain ⟨u, hu, h⟩ := bind_eq_ok h
    obtain ⟨us, hus, h⟩ := bind_eq_ok h
    cases h
    rcases List.mem_cons.1 hw with rfl | hw
    · exact momentary_of_coerceMoment hu
    · exact momentary_of_coerceMoments hus w hw

end

/-- The field holds single identifiers or references. -/
def FieldDef.Refers (f : FieldDef) : Prop :=
  f.kind = .ok .referencedObject ∨ f.kind = .ok .scalar ∧ f.isIdTyped = true

/-- The field holds single calendar or clock values. -/
def FieldDef.Dates (f : FieldDef) : Prop := f.kind = .ok .scalar ∧ f.momentType?.isSome = true

/-- **The form of what a field stores**: references are identifiers, and calendar and clock values
are momentary. -/
structure FieldDef.Form (f : FieldDef) (v : Value) : Prop where
  reference : f.Refers → ∃ o, v = .id o
  moment : f.Dates → v.Momentary

/-- What is made from data has the form of its field. -/
theorem FieldDef.form_of_made {r : Registry} {Q : OfParts} {f : FieldDef} {v w : Value}
    (hdata : v.IsData) (h : MadeFor r Q f v w) : f.Form w := by
  refine ⟨fun hrefers => ?_, fun hdates => ?_⟩
  · rcases hrefers with hk | ⟨hk, hid⟩
    · exact h.reference hk
    · have hscalar := h.scalar hk
      rw [coerceScalar.eq_def] at hscalar
      split at hscalar
      · exact absurd rfl (hdata.not_member _ _)
      · rw [if_pos hid] at hscalar
        obtain ⟨o, -, hscalar⟩ := bind_eq_ok hscalar
        cases hscalar
        exact ⟨o, rfl⟩
  · obtain ⟨hk, htype⟩ := hdates
    obtain ⟨type, htype⟩ := Option.isSome_iff_exists.1 htype
    have hscalar := h.scalar hk
    rw [coerceScalar.eq_def] at hscalar
    split at hscalar
    · exact absurd rfl (hdata.not_member _ _)
    · rw [if_neg fun hid => ?_, htype] at hscalar
      · exact momentary_of_coerceMoment hscalar h.value
      · rw [momentType?_of_isIdTyped hid] at htype
        cases htype

/-- An object has the form of a field only if every object has. -/
theorem FieldDef.Form.object {f : FieldDef} {a b : Document} (h : f.Form (.object a)) :
    f.Form (.object b) := by
  refine ⟨fun hrefers => ?_, fun hdates => ?_⟩
  · obtain ⟨o, ho⟩ := h.reference hrefers
    cases ho
  · cases h.moment hdates

/-! ## Sources -/

/-- **Where an entry of a document comes from**: from the argument of a field, from the link to a
parent, from the state of the document, or from its identifier. -/
inductive Registry.Source (r : Registry) (d : Descriptor) (key : String) (v : Value) : Prop where
  | field (f : FieldDef) (hf : f ∈ d.entity.fields) (hid : f.isIdentifier = false)
      (hstored : f.kind ≠ .ok .referencedList) (hkey : key = f.documentKey) (hform : f.Form v)
  | link (h : r.LinksChild d (some (key, v)))
  | state (hmachine : d.machine.isSome = true) (hkey : key = stateField)
  | identifier (hkey : key = "_id")

/-- Every entry of the document has a source. -/
def Registry.Sourced (r : Registry) (d : Descriptor) (fs : Document) : Prop :=
  ∀ key v, Record.get? fs key = some v → r.Source d key v

namespace Registry

variable {r : Registry} {d : Descriptor}

/-- One object is as good as another. -/
theorem Source.object {key : String} {a b : Document} (h : r.Source d key (.object a)) :
    r.Source d key (.object b) := by
  cases h with
  | field f hf hid hstored hkey hform => exact .field f hf hid hstored hkey hform.object
  | link h =>
    obtain ⟨_, _, _, -, -, -, -, hlink⟩ := h _ rfl
    cases hlink
  | state hmachine hkey => exact .state hmachine hkey
  | identifier hkey => exact .identifier hkey

theorem Sourced.put {fs : Document} (h : r.Sourced d fs) {key : String} {v : Value}
    (hv : r.Source d key v) :
    r.Sourced d (Record.put fs key v) := by
  intro k w hw
  rw [Record.get?_put] at hw
  split at hw
  · rename_i hkey
    cases hw
    exact hkey ▸ hv
  · exact h k w hw

/-- A new document gets its state and its identifier on top of what was made. -/
theorem Sourced.filed {made : Document} (h : r.Sourced d made) (m : MemoryStore) :
    r.Sourced d (m.filed (Executor.inFirstState d made)) := by
  have hfirst : r.Sourced d (Executor.inFirstState d made) := by
    unfold Executor.inFirstState
    split
    · rename_i machine hmachine
      exact h.put (.state (by rw [hmachine]; rfl) rfl)
    · exact h
  unfold MemoryStore.filed
  split
  · exact hfirst
  · exact hfirst.put (.identifier rfl)

theorem Sourced.merge {old new : Document} (hold : r.Sourced d old) (hneat : Neat new)
    (hnew : r.Sourced d new) :
    r.Sourced d (Record.merge old new) := by
  intro k w hw
  rw [Record.get?_merge hneat.keys] at hw
  rcases hget : Record.get? new k with _ | v
  · rw [hget, Option.none_or] at hw
    exact hold k w hw
  · rw [hget, Option.some_or] at hw
    exact hnew k w (hget.trans hw)

end Registry

/-! ## Making documents -/

section Making

variable {r : Registry} {d : Descriptor} {link : Option ParentLink} {args : Document}
  {taken : List FieldDef} {made : Materialized}

/-- **What is made has sources**, when the arguments are data but for a state that was put in. -/
theorem Assembled.sourced {Q : OfParts} (h : Assembled r Q d link args taken made)
    (hdata : ∀ f ∈ d.entity.fields, ∀ v, Record.get? args f.name = some v →
      v.IsData ∨ d.machine.isSome = true ∧ f.documentKey = stateField)
    (hlink : r.LinksChild d link) : r.Sourced d made.document := by
  intro key v hv
  rcases h.entries _ (Record.mem_of_get?_eq_some hv) with ⟨f, hf, hid, a, ha, hmade, hkey⟩ | hl
  · rcases hdata f hf a ha with hdata | ⟨hmachine, hstate⟩
    · exact .field f hf hid hmade.stored hkey (FieldDef.form_of_made hdata hmade)
    · exact .state hmachine (hkey.trans hstate)
  · exact .link (hl ▸ hlink)

/-- **Documents made from data** have sources, at every depth. -/
theorem Materializer.moves_materialize_sourced {m : Materializer τ S} (hm : m.LeavesDocuments)
    (d : Descriptor) (fs : Document) (hdata : (Value.object fs).IsData) :
    Moves (fun _ _ => True)
      (fun made => m.registry.Throughout m.registry.Sourced d made.document ∧ Neat made.document)
      (m.materialize d.entity none (.object fs)) := by
  have hparts : ∀ f e g, m.registry.Part d fs f e g → Moves (fun _ _ => True)
      (fun made => m.registry.Throughout m.registry.Sourced e made.document ∧ Neat made.document)
      (m.materialize e.entity none (.object g)) := fun f e g hpart =>
    have := hpart.sizeOf_lt
    moves_materialize_sourced hm e g (hdata.part hpart)
  refine (moves_materialize_assembled (Q := fun _ e inner =>
    m.registry.Throughout m.registry.Sourced e inner ∧
    Neat inner) hm hparts fun _ hl => by cases hl).mono (fun _ _ => id) fun made hmade =>
      ⟨?_, hmade.neat⟩
  exact .intro (hmade.sourced (fun f _ v hv => .inl (hdata.get? hv)) (m.registry.linksChild_none d))
    fun f e inner hpart => (hmade.parts f e inner hpart).1
termination_by sizeOf fs

end Making

/-! ## Upkeep -/

namespace Executor.Bare

variable {p : τ → MemoryStore} {x : Executor τ SessionId} {d : Descriptor}
  {link : Option ParentLink} {fs fs' : Document}

/-- Arguments of an update are data but for the state that was put in. -/
theorem data_of_moved (h : x.Bare p) (hd : x.registry.Knows d) (hdata : (Value.object fs).IsData)
    (hmoved : d.Moved fs fs') {f : FieldDef} (hf : f ∈ d.entity.fields) {v : Value}
    (hv : Record.get? fs' f.name = some v) :
    v.IsData ∨ d.machine.isSome = true ∧ f.documentKey = stateField := by
  rcases hmoved with rfl | ⟨u, hu, rfl⟩
  · exact .inl (hdata.get? hv)
  rw [Record.get?_put] at hv
  split at hv
  · rename_i hname
    refine .inr ⟨hu.machine, ?_⟩
    rw [FieldDef.documentKey_of_ne fun hk => ?_, hname]
    rcases h.storable.states _ _ hd.1 hu.machine f hf hname.symm with hs | hs <;>
      cases hk.symm.trans hs
  · exact .inl (hdata.get? hv)

/-- **Making a document** of `d` from data, perhaps with a link and a state put in: the document has
sources, and so have its parts. -/
theorem moves_materialize_laid (h : x.Bare p) (hd : x.registry.Knows d)
    (hlinked : x.registry.LinksChild d link) (hdata : (Value.object fs).IsData)
    (hmoved : d.Moved fs fs') (operation : Operation) (s : SessionId) :
    Moves (fun _ _ => True)
      (fun made => Assembled x.registry (x.registry.Laid x.registry.Sourced x.registry.Sourced
        fun _ => False) d link fs' d.entity.fields made ∧ x.registry.Sourced d made.document)
      ((x.materializer operation s).materialize d.entity link (.object fs')) := by
  refine (Materializer.moves_materialize_assembled (h.leavesDocuments operation) (fun f e g hpart =>
    ?_) (h.linked_value hlinked)).mono (fun _ _ => id) fun made hmade =>
      ⟨hmade, hmade.sourced (fun f hf v => h.data_of_moved hd hdata hmoved hf) hlinked⟩
  exact (Materializer.moves_materialize_sourced (h.leavesDocuments operation) e g
    (hdata.part (h.part_moved hd hmoved hpart))).mono (fun _ _ => id)
    fun made hmade => ⟨hmade.2, hmade.1.here, hmade.1.parts, .inl hmade.1.here⟩

/-- **Updates from data keep sources**: what is found afterwards comes from the arguments, from what
was stored, or from both laid over each other. -/
theorem sourced_applyUpdate (h : x.Bare p) (hd : x.registry.Knows d)
    (hlinked : x.registry.LinksChild d link) {made : Materialized}
    (hmade : Assembled x.registry (x.registry.Laid x.registry.Sourced x.registry.Sourced fun _ =>
      False) d link fs' d.entity.fields made)
    (hsourced : x.registry.Sourced d made.document) :
    made.Revises d fun doc => x.registry.Throughout x.registry.Sourced d doc ∧ True := by
  rintro current before changes after ⟨hcurrent, -⟩ ⟨hbefore, -⟩ hmerge hupdate
  have hnamed := h.isSegment_keys hd
  have hlink := h.isSegment_link hlinked
  refine ⟨.intro (fun key v hv => ?_) (hmade.parts_applyUpdate hmerge hnamed hlink hupdate
    (fun e old new hold hneat hnew => hold.merge hneat hnew) (fun _ hfalse =>
    hfalse.elim) hcurrent.parts hbefore.parts), trivial⟩
  rcases hmade.found_after hmerge hnamed hlink hupdate hv with hold | hsame | ⟨a, b, ha, rfl⟩
  · exact hbefore.here key v hold
  · exact hsourced key v hsame
  · exact (hsourced key _ ha).object

/-- **Sources are kept** by all writes of data. -/
theorem upkeep_sourced (h : x.Bare p) :
    x.Upkeep p (x.registry.Throughout x.registry.Sourced) (fun _ _ _ => True)
    (fun _ fs => (Value.object fs).IsData) (fun _ fs => (Value.object fs).IsData) where
  toBare := h
  children := fun d fs hdata f _ delta hdelta e _ => by
    obtain ⟨hadded, hupdated⟩ := (or_self_iff.1 hdata).delta hdelta
    exact ⟨fun g => hadded _, fun g => hupdated _⟩
  create := fun d link fs s hw =>
    (h.moves_materialize_laid hw.known hw.linked hw.suitable (.inl rfl) .create s).mono (fun _ _ =>
      id) fun made hmade m => .intro (hmade.2.filed m) fun f e inner hpart => by
        obtain ⟨-, hsourced, hparts, -⟩ :=
          hmade.1.parts f e inner (h.part_of_filed hw.known m hpart)
        exact .intro hsourced hparts
  fresh := fun _ _ _ _ => trivial
  update := fun d link fs fs' o s hw hmoved _ =>
    (h.moves_materialize_laid hw.known hw.linked hw.suitable hmoved .update s).mono (fun _ _ => id)
      fun made hmade => h.sourced_applyUpdate hw.known hw.linked hmade.1 hmade.2

end Executor.Bare

/-! ## Keys that are not shared -/

/-- **A key of references**: in documents of `d` nothing but references is stored under it. -/
structure Registry.OnlyReferences (r : Registry) (d : Descriptor) (key : String) : Prop where
  plain : key ≠ "_id"
  state : d.machine.isSome = true → key ≠ stateField
  fields : ∀ f ∈ d.entity.fields, f.isIdentifier = false → f.kind ≠ .ok .referencedList →
    key = f.documentKey →
    f.Refers

/-- **A key of moments**: in documents of `d` nothing but calendar and clock values is stored under
it. -/
structure Registry.OnlyMoments (r : Registry) (d : Descriptor) (key : String) : Prop where
  plain : key ≠ "_id"
  state : d.machine.isSome = true → key ≠ stateField
  fields : ∀ f ∈ d.entity.fields, f.isIdentifier = false → f.kind ≠ .ok .referencedList →
    key = f.documentKey →
    f.Dates
  unlinked : ∀ v, ¬ r.LinksChild d (some (key, v))

namespace Registry.Source

variable {r : Registry} {d : Descriptor} {key : String} {v : Value}

theorem reference (h : r.Source d key v) (honly : r.OnlyReferences d key) : ∃ o, v = .id o := by
  cases h with
  | field f hf hid hstored hkey hform => exact hform.reference (honly.fields f hf hid hstored hkey)
  | link h =>
    obtain ⟨_, _, o, -, -, -, -, hlink⟩ := h _ rfl
    cases hlink
    exact ⟨o, rfl⟩
  | state hmachine hkey => exact absurd hkey (honly.state hmachine)
  | identifier hkey => exact absurd hkey honly.plain

theorem moment (h : r.Source d key v) (honly : r.OnlyMoments d key) : v.Momentary := by
  cases h with
  | field f hf hid hstored hkey hform => exact hform.moment (honly.fields f hf hid hstored hkey)
  | link h => exact absurd h (honly.unlinked v)
  | state hmachine hkey => exact absurd hkey (honly.state hmachine)
  | identifier hkey => exact absurd hkey honly.plain

end Registry.Source

namespace Dispatcher

variable {x : Dispatcher τ SessionId} {c : Component τ MemoryStore}

/-- **Stored references and moments.** Whatever was called with data before, and whatever failures
were injected: in every committed document, and in every object that it embeds at any depth, an
identifier is stored under each key under which nothing but single identifiers and references are
stored (be it by a field or by the link to a parent), and a moment or a list of moments under each
key of single calendar or clock values. -/
theorem keeps_forms (h : x.Bare c) {t : τ} (ht : x.Led c (fun _ _ q => q.args.IsData) t)
    {d : Descriptor} (hd : x.executor.registry.Knows d) {doc : Document}
    (hdoc : doc ∈ (c.get t).documents d.collection) {e : Descriptor} {inner : Document}
    (hin : x.executor.registry.Within d doc e inner) {key : String} {v : Value}
    (hv : Record.get? inner key = some v) :
    (x.executor.registry.OnlyReferences e key → ∃ o, v = .id o) ∧
      (x.executor.registry.OnlyMoments e key → v.Momentary) := by
  have hall := ht.allAre h fun t name q hdata hall => by
    refine allAre_call h h.executor.upkeep_sourced ⟨hall, fun _ _ _ => trivial⟩ name q
      fun ep fs _ hfs => ?_
    exact ⟨fun _ _ _ _ _ => hdata.callArguments hfs, fun _ _ _ _ _ => hdata.callArguments hfs⟩
  obtain ⟨entry, hentry, rfl⟩ := List.mem_map.1 hdoc
  have hsource := (hall.documents d hd entry hentry).within hin key v hv
  exact ⟨hsource.reference, hsource.moment⟩

end Dispatcher

/-! ## A service of events -/

/-- A field that holds an identifier. -/
def identifierField : FieldDef := ⟨"id", .scalar .id, false, true, false, false, none, .null⟩

/-- A venue has a name and events. -/
def venue : Entity where
  name := "Venue"
  fields := [identifierField, textField "name",
    ⟨"events", .entity "Event", true, true, false, false, some ⟨false, "venueId", .null⟩, .null⟩]
  description := .null
  names_nodup := by decide

/-- An event has a time and a venue. -/
def event : Entity where
  name := "Event"
  fields := [identifierField, ⟨"at", .scalar .dateTime, false, false, false, false, none, .null⟩,
    ⟨"venue", .entity "Venue", false, true, false, false, some ⟨false, "venueId", .null⟩, .null⟩]
  description := .null
  names_nodup := by decide

/-- The entities of the service. -/
def agendaEntities : Registry :=
  ⟨[("Venue", ⟨venue, "venues", some "venue", some "venues", none, true, none, []⟩),
    ("Event", ⟨event, "events", some "event", some "events", none, true, none, []⟩)], [], false⟩

/-- The registry of the service. -/
def agendaRegistry : Registry := (Registry.finalize.run.run agendaEntities).2

/-- A service of venues and their events. -/
def agenda : Dispatcher MemoryStore SessionId where
  executor := {
    registry := agendaRegistry
    behaviour := ⟨fun _ => .none, fun _ _ _ => throw .illTyped⟩
    store := MemoryStore.documentStore.within ⟨id, fun m _ => m⟩
    policy := ⟨2, fun n => .ok (.whole n), fun _ => pure (), Nat.two_pos⟩ }
  endpoints := (Endpoint.table .everything agendaRegistry).toOption.getD []
  middleware := []
  defaultLimit := 10

/-- An event is added with its venue. -/
def addEvent : Call :=
  ⟨.object [("at", .int 1714557600), ("venue", .object [("id", .text idText)])], []⟩

/-- An event is added with a list of times. -/
def addEventTwice : Call := ⟨.object [("at", .list [.int 1714557600, .null])], []⟩

/-- The entities that the registry knows. -/
theorem agenda_descriptor {n : String} {d : Descriptor}
    (h : Record.get? agendaRegistry.descriptors n = some d) :
    (d.entity = venue ∧ d.collection = "venues" ∨ d.entity = event ∧ d.collection = "events") ∧
      d.machine = none := by
  obtain ⟨p, q, hdescriptors⟩ : ∃ p q, agendaRegistry.descriptors = [
      ("Venue", ⟨venue, "venues", some "venue", some "venues", none, true, p, []⟩),
      ("Event", ⟨event, "events", some "event", some "events", none, true, q, []⟩)] := ⟨_, _, rfl⟩
  have hmem := Record.mem_of_get?_eq_some h
  rw [hdescriptors] at hmem
  rcases List.mem_cons.1 hmem with hmem | hmem
  · cases hmem
    exact ⟨.inl ⟨rfl, rfl⟩, rfl⟩
  · cases List.mem_singleton.1 hmem
    exact ⟨.inr ⟨rfl, rfl⟩, rfl⟩

theorem agenda_built : agendaRegistry.Built := by
  have hvenue : Registry.empty.connect venue ⟨some "venues", none, none, none⟩ =
      .ok ⟨agendaEntities.descriptors.take 1, [], false⟩ := rfl
  have hevent : Registry.connect ⟨agendaEntities.descriptors.take 1, [], false⟩ event
      ⟨some "events", none, none, none⟩ = .ok agendaEntities := rfl
  exact .finalize (.connect (.connect .empty hvenue) hevent)

theorem agenda_storable : agendaRegistry.Storable :=
  .of_fields (venue.fields ++ event.fields) (fun n d hd => by
    obtain ⟨⟨hentity, -⟩ | ⟨hentity, -⟩, hmachine⟩ := agenda_descriptor hd <;> rw [hentity]
    · exact ⟨fun f => List.mem_append_left _, hmachine⟩
    · exact ⟨fun f => List.mem_append_right _, hmachine⟩) (by unfold IsSegment; decide)

theorem agenda_bare : agenda.Bare ⟨id, fun m _ => m⟩ where
  component := fun _ _ => rfl
  store := rfl
  sleep := fun _ _ => rfl
  validates := fun _ => EntityBehaviour.validates_none _
  noMutations := rfl
  middleware := rfl
  built := agenda_built
  storable := agenda_storable
  apart := fun d e hd he hc => by
    refine hd.eq_of_name he ?_
    rcases (agenda_descriptor hd.1).1 with ⟨hd, hcd⟩ | ⟨hd, hcd⟩ <;>
      rcases (agenda_descriptor he.1).1 with ⟨he, hce⟩ | ⟨he, hce⟩
    · rw [Descriptor.name, Descriptor.name, hd, he]
    · exact absurd (hcd.symm.trans (hc.trans hce)) (by decide)
    · exact absurd (hcd.symm.trans (hc.trans hce)) (by decide)
    · rw [Descriptor.name, Descriptor.name, hd, he]

/-- The store after the event was added. -/
def afterEvent : MemoryStore := ((agenda.call "addEvent").run.run (.empty, addEvent)).2.1

/-- The store after the event with a list of times was added. -/
def afterEventTwice : MemoryStore := ((agenda.call "addEvent").run.run (.empty, addEventTwice)).2.1

theorem addEvent_isData : addEvent.args.IsData := by
  refine .object fun e he => ?_
  rcases List.mem_cons.1 he with rfl | he
  · exact .plain rfl fun _ _ h => by cases h
  · cases List.mem_singleton.1 he
    refine .object fun e he => ?_
    cases List.mem_singleton.1 he
    exact .plain rfl fun _ _ h => by cases h

theorem addEventTwice_isData : addEventTwice.args.IsData := by
  refine .object fun e he => ?_
  cases List.mem_singleton.1 he
  refine .list fun v hv => ?_
  rcases List.mem_cons.1 hv with rfl | hv
  · exact .plain rfl fun _ _ h => by cases h
  · cases List.mem_singleton.1 hv
    exact .null

theorem event_onlyReferences {e : Descriptor} (he : e.entity = event)
    (hmachine : e.machine = none) :
    agendaRegistry.OnlyReferences e "venueId" where
  plain := by decide
  state := fun h => by
    rw [hmachine] at h
    cases h
  fields := fun f hf hid _ hkey => by
    rw [he] at hf
    simp only [event, List.mem_cons, List.not_mem_nil, or_false] at hf
    rcases hf with rfl | rfl | rfl
    · cases hid
    · exact absurd hkey (by decide)
    · exact .inl rfl

theorem event_onlyMoments {e : Descriptor} (he : e.entity = event) (hmachine : e.machine = none) :
    agendaRegistry.OnlyMoments e "at" where
  plain := by decide
  state := fun h => by
    rw [hmachine] at h
    cases h
  fields := fun f hf hid _ hkey => by
    rw [he] at hf
    simp only [event, List.mem_cons, List.not_mem_nil, or_false] at hf
    rcases hf with rfl | rfl | rfl
    · cases hid
    · exact ⟨rfl, rfl⟩
    · exact absurd hkey (by decide)
  unlinked := fun v hlinked => by
    obtain ⟨g, f, o, hg, hf, -, -, hlink⟩ := hlinked _ rfl
    have hkey : "at" = f.connectionField := congrArg Prod.fst hlink
    rcases (agenda_descriptor hg).1 with ⟨hentity, -⟩ | ⟨hentity, -⟩ <;> rw [hentity] at hf
    · exact (by decide : ∀ f ∈ venue.fields, "at" ≠ f.connectionField) f hf hkey
    · exact (by decide : ∀ f ∈ event.fields, "at" ≠ f.connectionField) f hf hkey

/-- An event that was added holds a reference to its venue and a moment. -/
theorem agenda_keeps_forms : ∃ doc ∈ afterEvent.documents "events",
    (∃ v, Record.get? doc "venueId" = some v ∧ ∃ o, v = .id o) ∧
      ∃ v, Record.get? doc "at" = some v ∧ v.Momentary := by
  obtain ⟨e, he⟩ : ∃ e, Record.get? agendaRegistry.descriptors "Event" = some e := ⟨_, rfl⟩
  have hentity : e.entity = event := Option.some.inj he ▸ rfl
  have hcollection : e.collection = "events" := Option.some.inj he ▸ rfl
  have hmachine : e.machine = none := (agenda_descriptor he).2
  have hknows : agendaRegistry.Knows e := by
    have hname : e.name = "Event" := by
      rw [Descriptor.name, hentity]
      rfl
    exact ⟨by rw [hname, he], Option.some.inj he ▸ rfl⟩
  have hled : agenda.Led ⟨id, fun m _ => m⟩ (fun _ _ q => q.args.IsData) afterEvent :=
    .call (.start fun _ => rfl) "addEvent" addEvent addEvent_isData
  have hstored : afterEvent.documents "events" =
      [[("at", .moment ⟨1714557600000000, some 0⟩), ("venueId", .id (.ofNat 170)),
      ("_id", .id (.ofNat 1))]] := by cbv
  have hdoc : [("at", .moment ⟨1714557600000000, some 0⟩), ("venueId", .id (.ofNat 170)),
    ("_id", .id (.ofNat 1))] ∈
      afterEvent.documents e.collection := by
    rw [hcollection, hstored]
    exact List.mem_singleton_self _
  have hvenue : Record.get? [("at", Value.moment ⟨1714557600000000, some 0⟩),
    ("venueId", Value.id (.ofNat 170)),
      ("_id", Value.id (.ofNat 1))] "venueId" = some (.id (.ofNat 170)) := rfl
  have hat : Record.get? [("at", Value.moment ⟨1714557600000000, some 0⟩),
    ("venueId", Value.id (.ofNat 170)),
      ("_id", Value.id (.ofNat 1))] "at" = some (.moment ⟨1714557600000000, some 0⟩) := rfl
  refine ⟨_, hcollection ▸ hdoc, ⟨_, hvenue, ?_⟩, _, hat, ?_⟩
  · exact (Dispatcher.keeps_forms agenda_bare hled hknows hdoc .here hvenue).1
      (event_onlyReferences hentity hmachine)
  · exact (Dispatcher.keeps_forms agenda_bare hled hknows hdoc .here hat).2
      (event_onlyMoments hentity hmachine)

/-- **A list for a single time** is converted item by item, so that a list is stored where the event
has a single date and time. -/
theorem agenda_keeps_list : addEventTwice.args.IsData ∧ afterEventTwice.documents "events" =
    [[("at", .list [.moment ⟨1714557600000000, some 0⟩, .null]), ("_id", .id (.ofNat 1))]] := by
  refine ⟨addEventTwice_isData, ?_⟩
  cbv

end EntityGraph
