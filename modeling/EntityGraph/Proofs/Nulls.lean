import EntityGraph.Proofs.Links
import EntityGraph.Proofs.Updates

/-!
# Nulls inside embedded objects

A null for a field that may be null removes what is stored under the key of the field, as long as it
is an argument of the document itself. Inside an embedded object nothing is noted for removal: the
null only keeps the field out of the object that is made from the arguments
(`Registry.NullsInside.composed`).

Whether the stored entry goes away is then a matter of what becomes of the object. An object that
the document embeds itself is laid over the stored one, and entries that it does not have stay.
Whatever it embeds in turn is replaced, and has no more than what was made
(`Dispatcher.call_clears`). So a null clears its field in the depth, and does nothing at the first
level, where the stored object had an entry (`keptEntry`, `homes_keep_street`).
-/

namespace EntityGraph

open MemoryStore (setPaths)

variable {τ : Type}

/-! ## Updates of a single entry -/

section Paths

variable {segments : List String} {key : String} {v : Value} {d d' : Document}

/-- Writing at a path changes the entry that it leads into. -/
theorem get?_setSegments_of_head_ne (hne : segments.head? ≠ some key)
    (h : setSegments segments v d = .ok d') :
    Record.get? d' key = Record.get? d key := by
  rcases segments with _ | ⟨a, _ | ⟨b, rest⟩⟩
  · cases h
    rfl
  · cases h
    rw [Record.get?_put, if_neg fun ha => hne (by rw [ha]; rfl)]
  · have hput : ∀ inner : Outcome Document, (do
        let inner ← inner
        pure (Record.put d a (.object inner))) = Except.ok d' →
          Record.get? d' key = Record.get? d key := by
      intro inner hd'
      obtain ⟨e, -, he⟩ := bind_eq_ok hd'
      cases he
      rw [Record.get?_put, if_neg fun ha => hne (by rw [ha]; rfl)]
    rw [setSegments.eq_def] at h
    dsimp only at h
    split at h
    · exact hput _ h
    · exact hput _ h
    · cases h

/-- So does removing. -/
theorem get?_unsetSegments_of_head_ne (hne : segments.head? ≠ some key) (d : Document) :
    Record.get? (unsetSegments segments d) key = Record.get? d key := by
  rcases segments with _ | ⟨a, _ | ⟨b, rest⟩⟩
  · rfl
  · rw [unsetSegments, Record.get?_erase, if_neg fun ha => hne (by rw [ha]; rfl)]
  · rw [unsetSegments.eq_def]
    dsimp only
    split
    · rw [Record.get?_put, if_neg fun ha => hne (by rw [ha]; rfl)]
    · rfl

theorem get?_unsetPaths_of_head_ne {paths : List String}
    (h : ∀ path ∈ paths, (Text.segments path).head? ≠ some key) (d : Document) :
    Record.get? (paths.foldl unsetPath d) key = Record.get? d key := by
  induction paths generalizing d with
  | nil => rfl
  | cons path rest ih =>
    rw [List.foldl_cons, ih fun q hq => h q (List.mem_cons_of_mem _ hq)]
    exact get?_unsetSegments_of_head_ne (h path (List.mem_cons_self ..)) d

/-- **An entry that no other path leads into** is what was written under its own key, or what was
there. -/
theorem get?_setPaths_of_own {fs : Document} (hnodup : (Record.keys fs).Nodup)
    (hsegment : IsSegment key) (hothers : ∀ path ∈ Record.keys fs, path ≠ key →
      (Text.segments path).head? ≠ some key)
    (h : setPaths fs d = .ok d') :
      Record.get? d' key = (Record.get? fs key).or (Record.get? d key) := by
  induction fs generalizing d with
  | nil =>
    cases h
    rfl
  | cons e rest ih =>
    obtain ⟨path, u⟩ := e
    obtain ⟨hpath, hrest⟩ := List.nodup_cons.1 hnodup
    rw [setPaths] at h
    obtain ⟨d₁, hd₁, h⟩ := bind_eq_ok h
    rw [ih hrest (fun q hq => hothers q (List.mem_cons_of_mem _ hq)) h, Record.get?_cons]
    split
    · rename_i hkey
      subst hkey
      have hnone : Record.get? rest path = none :=
        Option.not_isSome_iff_eq_none.1 fun hsome => hpath ((Record.mem_keys_iff ..).2 hsome)
      rw [setPath, Text.segments_of_isSegment hsegment] at hd₁
      cases hd₁
      rw [hnone, Record.get?_put_self]
      rfl
    · rename_i hkey
      rw [get?_setSegments_of_head_ne (hothers path (List.mem_cons_self ..) hkey) hd₁]

end Paths

/-- **An entry over an update**, when no other key leads into it. -/
theorem Materialized.Turns.get?_of_own {made : Materialized} {fields : List FieldDef}
    {current doc : Document} {key : String} (h : made.Turns fields current doc)
    (hnames : (fields.map FieldDef.name).Nodup) (hnodup : (Record.keys made.document).Nodup)
    (hsegment : IsSegment key) (hothers : ∀ path ∈ Record.keys made.document, path ≠ key →
      (Text.segments path).head? ≠ some key)
    (hunset : ∀ path ∈ made.unset, (Text.segments path).head? ≠ some key) :
    ∃ changes, LaidOver current fields made.document changes ∧
      Record.get? doc key = (Record.get? changes key).or (Record.get? current key) := by
  obtain ⟨changes, d, hlaid, hset, rfl⟩ := h.halves hnames
  refine ⟨changes, hlaid, ?_⟩
  rw [get?_unsetPaths_of_head_ne fun path hpath => hunset path (mem_of_mem_unsetKeys hpath),
    get?_setPaths_of_own (hlaid.keys ▸ hnodup) hsegment (hlaid.keys ▸ hothers) hset]

/-! ## Nulls on the way through embedded objects -/

/-- The object that names lead to, from one embedded object to the next. -/
def embeddedAt? : Document → List String → Option Document
  | d, [] => some d
  | d, name :: rest =>
    match Record.get? d name with
    | some (.object inner) => embeddedAt? inner rest
    | _ => none

/-- **A reserved key**: of the fields that arguments are given for, only this one is kept under the
key. -/
def Entity.Reserves (e : Entity) (args : Value) (key : String) (f : FieldDef) : Prop :=
  ∀ g ∈ e.fields, g.isIdentifier = false → g.kind ≠ .ok .referencedList →
    presentArgument? g args ≠ none →
    g.documentKey = key → g = f

/-- **Arguments that null a field inside embedded objects**: names lead from the arguments of an
entity to those of an object that it embeds, and there the field is null. All fields on the way have
their keys to themselves. -/
inductive Registry.NullsInside (r : Registry) (g : FieldDef) : Entity → Value → List String →
    Prop where
  | here {e : Entity} {args : Value} (hg : g ∈ e.fields) (hnull : fieldOf? g.name args = some .null)
      (hkey : e.Reserves args g.storedKey g) : Registry.NullsInside r g e args []
  | inside {e : Entity} {args : Value} {f : FieldDef} {d : Descriptor} {fs : Document}
    {path : List String}
      (hf : f ∈ e.fields) (hid : f.isIdentifier = false) (hk : f.kind = .ok .embeddedObject)
      (hv : fieldOf? f.name args = some (.object fs)) (hd : r.lookup (f.target.getD "") = .ok d)
      (hkey : e.Reserves args f.name f) (h : Registry.NullsInside r g d.entity (.object fs) path) :
      Registry.NullsInside r g e args (f.name :: path)

section Composing

variable {r : Registry} {g f : FieldDef} {e : Entity} {args : Value} {path : List String}
  {doc : Document}

/-- **A present argument** is found under the key of its field, when the key is reserved for it. -/
theorem Registry.Composes.get?_of_reserved {fields : List FieldDef} {doc' : Document} {v : Value}
    (h : r.Composes args fields doc doc') (hid : f.isIdentifier = false)
    (hk : f.kind ≠ .ok .referencedList) (hv : presentArgument? f args = some v)
    (hkey : ∀ g ∈ fields, g.isIdentifier = false → g.kind ≠ .ok .referencedList →
      presentArgument? g args ≠ none →
      g.documentKey = f.documentKey → g = f)
    (hf : f ∈ fields ∨ ∃ w, r.Yields f v w ∧ Record.get? doc f.documentKey = some w) :
    ∃ w, r.Yields f v w ∧ Record.get? doc' f.documentKey = some w := by
  induction fields generalizing doc with
  | nil =>
    cases h
    exact hf.resolve_left List.not_mem_nil
  | cons g rest ih =>
    have hrest := fun g hg => hkey g (List.mem_cons_of_mem _ hg)
    cases h with
    | pass hpass hcomposes =>
      refine ih hcomposes hrest (hf.imp_left fun hm => (List.mem_cons.1 hm).resolve_left ?_)
      rintro rfl
      rcases hpass with hpass | hpass | hpass
      · cases hid.symm.trans hpass
      · cases hv.symm.trans hpass
      · exact hk hpass
    | @put _ v' w _ _ _ _ hgid hgv hyields hcomposes =>
      refine ih hcomposes hrest ?_
      by_cases heq : g.documentKey = f.documentKey
      · obtain rfl := hkey g (List.mem_cons_self ..) hgid hyields.stored (by rw [hgv]; simp) heq
        obtain rfl := Option.some.inj (hv.symm.trans hgv)
        exact .inr ⟨w, hyields, Record.get?_put_self ..⟩
      · rw [Record.get?_put, if_neg heq]
        refine hf.imp_left fun hm => (List.mem_cons.1 hm).resolve_left ?_
        rintro rfl
        exact heq rfl

/-- **An embedded object** is found under the name of its field, made from its own arguments. -/
theorem Registry.Composes.get?_of_object {d : Descriptor} {fs : Document}
    (h : r.Composes args e.fields [] doc) (hf : f ∈ e.fields) (hid : f.isIdentifier = false)
    (hk : f.kind = .ok .embeddedObject) (hv : fieldOf? f.name args = some (.object fs))
    (hd : r.lookup (f.target.getD "") = .ok d) (hkey : e.Reserves args f.name f) :
    ∃ inner, r.Composes (.object fs) d.entity.fields [] inner ∧ Record.get? doc f.name =
      some (.object inner) := by
  have hname : f.documentKey = f.name := FieldDef.documentKey_of_ne fun hk' => by
    cases hk.symm.trans hk'
  obtain ⟨w, hw, hget⟩ := h.get?_of_reserved hid (fun hk' => by cases hk.symm.trans hk')
    (presentArgument?_eq_some.2 ⟨hv, rfl⟩) (fun g hg => hname.symm ▸ hkey g hg) (.inl hf)
  rw [hname] at hget
  cases hw with
  | embeddedObject _ he hinner =>
    obtain rfl := Except.ok.inj (he.symm.trans hd)
    exact ⟨_, hinner, hget⟩
  | scalar hk' => cases hk.symm.trans hk'
  | enumeration hk' => cases hk.symm.trans hk'
  | referencedObject hk' => cases hk.symm.trans hk'

/-- **A null keeps its field out** of the object that is made. -/
theorem Registry.NullsInside.composed (h : r.NullsInside g e args path)
    (hdoc : r.Composes args e.fields [] doc) :
    ∃ inner, embeddedAt? doc path = some inner ∧ Record.get? inner g.storedKey = none := by
  induction h generalizing doc with
  | @here e args hg hnull hkey =>
    refine ⟨doc, rfl, Option.eq_none_iff_forall_ne_some.2 fun w hw => ?_⟩
    rcases hdoc.get?_cases hw with hnone | ⟨f, hf, hid, hsame, v, hv, hyields⟩
    · cases hnone
    · obtain rfl := hkey f hf hid hyields.stored (by rw [hv]; simp) hsame
      obtain ⟨hgiven, hpresent⟩ := presentArgument?_eq_some.1 hv
      obtain rfl := Option.some.inj (hnull.symm.trans hgiven)
      cases hpresent
  | inside hf hid hk hv hd hkey _ ih =>
    obtain ⟨inner, hinner, hget⟩ := hdoc.get?_of_object hf hid hk hv hd hkey
    rw [embeddedAt?, hget]
    exact ih hinner

end Composing

/-! ## What is stored then -/

/-- What the object that names lead to keeps of the stored one under a key: an object that the
document embeds itself keeps its entry, and one further inside keeps nothing. -/
def keptEntry (current : Document) (path : List String) (key : String) : Option Value :=
  match path with
  | [name] => (embeddedAt? current [name]).bind fun old => Record.get? old key
  | _ => none

/-- **A secluded entry**: its key is a single segment, and what arguments write or remove under
other keys, or link, does not lead into it. -/
structure Entity.Secludes (e : Entity) (link : Option ParentLink) (args : Value)
    (key : String) : Prop where
  segment : IsSegment key
  written : ∀ g ∈ e.fields, g.isIdentifier = false → presentArgument? g args ≠ none →
    g.documentKey ≠ key →
    (Text.segments g.documentKey).head? ≠ some key
  removed : ∀ g ∈ e.fields, g.IsNulled args → (Text.segments g.storedKey).head? ≠ some key
  linked : ∀ l, link = some l → (Text.segments l.1).head? ≠ some key

section Stored

variable {r : Registry} {g : FieldDef} {e : Entity} {link : Option ParentLink} {args : Value}
  {name : String} {rest : List String} {made : Materialized} {current doc : Document}

/-- What is in an object is in it when it is laid over another one. -/
theorem embeddedAt?_merge {old new inner : Document} (hnew : (Record.keys new).Nodup)
    (h : embeddedAt? new (name :: rest) = some inner) :
    embeddedAt? (Record.merge old new) (name :: rest) = some inner := by
  rw [embeddedAt?] at h ⊢
  rw [Record.get?_merge hnew]
  split at h
  · rename_i hget
    rw [hget]
    exact h
  · cases h

/-- **An embedded object over an update**, when the entry of the document that it is in is not
touched otherwise. -/
theorem Registry.Makes.get?_object {f : FieldDef} {d : Descriptor} {fs : Document}
    (h : r.Makes e link args made) (hturns : made.Turns e.fields current doc)
    (halone : e.Secludes link args f.name) (hf : f ∈ e.fields) (hid : f.isIdentifier = false)
    (hk : f.kind = .ok .embeddedObject) (hv : fieldOf? f.name args = some (.object fs))
    (hd : r.lookup (f.target.getD "") = .ok d) (hkey : e.Reserves args f.name f) :
    ∃ new, r.Composes (.object fs) d.entity.fields [] new ∧
      ((∃ old, Record.get? current f.name = some (.object old) ∧
          Record.get? doc f.name = some (.object (Record.merge old new))) ∨
        (∀ old, Record.get? current f.name ≠ some (.object old)) ∧ Record.get? doc f.name =
          some (.object new)) := by
  have hothers : ∀ path ∈ Record.keys made.document, path ≠ f.name →
      (Text.segments path).head? ≠ some f.name := by
    intro path hpath hne
    obtain ⟨w, hw⟩ := Option.isSome_iff_exists.1 ((Record.mem_keys_iff ..).1 hpath)
    rcases h.get?_cases hw with hlinked | ⟨g, hg, hgid, rfl, v, hgiven, -⟩
    · exact halone.linked (path, w) hlinked
    · exact halone.written g hg hgid (by rw [hgiven]; simp) hne
  have hunset : ∀ path ∈ made.unset, (Text.segments path).head? ≠ some f.name := by
    intro path hpath
    obtain ⟨g, hg, hnull, rfl⟩ := h.mem_unset.1 hpath
    exact halone.removed g hg hnull
  obtain ⟨changes, hlaid, hget⟩ :=
    hturns.get?_of_own e.names_nodup h.nodup_keys halone.segment hothers hunset
  obtain ⟨composed, hcomposes, hmade⟩ := h
  obtain ⟨new, hnew, hentry⟩ := hcomposes.get?_of_object hf hid hk hv hd hkey
  have hentry : Record.get? made.document f.name = some (.object new) := by
    rw [hmade]
    rcases link with _ | ⟨key, parent⟩
    · exact hentry
    · have hne : key ≠ f.name := by
        rintro rfl
        exact halone.linked _ rfl (by rw [Text.segments_of_isSegment halone.segment]; rfl)
      rw [Materializer.linked, Materializer.put, Record.get?_put, if_neg hne]
      exact hentry
  refine ⟨new, hnew, ?_⟩
  rcases hlaid.merged f hf hk with ⟨new', old, hnew', hold, hmerged⟩ | ⟨hsame, hmissing⟩
  · cases hentry.symm.trans hnew'
    exact .inl ⟨old, hold, by rw [hget, hmerged, Option.some_or]⟩
  · refine .inr ⟨fun old hold => ?_, by rw [hget, hsame, hentry, Option.some_or]⟩
    cases (hmissing old hold).symm.trans hentry

/-- **A null inside embedded objects**, over an update: the object that it is in has no entry under
the key of the field, except one that the stored object had, when the document embeds it itself. -/
theorem Registry.Makes.get?_null (h : r.Makes e link args made)
    (hturns : made.Turns e.fields current doc) (halone : e.Secludes link args name)
    (hnulls : r.NullsInside g e args (name :: rest)) :
    ∃ inner, embeddedAt? doc (name :: rest) = some inner ∧
      Record.get? inner g.storedKey = keptEntry current (name :: rest) g.storedKey := by
  cases hnulls with
  | inside hf hid hk hv hd hkey hinside =>
    obtain ⟨new, hnew, hstored⟩ := h.get?_object hturns halone hf hid hk hv hd hkey
    obtain ⟨inner, hat, hnone⟩ := hinside.composed hnew
    have hkeys : (Record.keys new).Nodup := hnew.nodup_keys List.nodup_nil
    rcases hstored with ⟨old, hold, hmerged⟩ | ⟨hplain, hentry⟩
    · rw [embeddedAt?, hmerged]
      cases rest with
      | nil =>
        cases hat
        refine ⟨_, rfl, ?_⟩
        rw [Record.get?_merge hkeys, hnone, Option.none_or, keptEntry, embeddedAt?, hold]
        rfl
      | cons next rest => exact ⟨inner, embeddedAt?_merge hkeys hat, hnone⟩
    · rw [embeddedAt?, hentry]
      refine ⟨inner, hat, hnone.trans ?_⟩
      cases rest with
      | nil =>
        rw [keptEntry, embeddedAt?]
        split
        · rename_i old hold
          exact absurd hold (hplain old)
        · rfl
      | cons next rest => rfl

end Stored

/-! ## Calls -/

/-- The document of the root is updated last. -/
theorem Registry.Tours.root_last {r : Registry} {j : Job} {vs : List Visit} (h : r.Tours [j] vs)
    (hop : j.operation = .update) : ∃ children v, vs = children ++ [v] ∧ v.toJob = j := by
  obtain ⟨v, children, rest, rfl, -, -, hrest, rfl⟩ := h.exists_first
  refine ⟨children, v, ?_, rfl⟩
  rw [hrest.eq_nil, List.append_nil, Visit.around, hop]

namespace Dispatcher

variable {x : Dispatcher τ SessionId} {c : Component τ MemoryStore}

/-- **What becomes of nulls inside embedded objects.** A call that adds or updates documents, or
moves one to another state, and returns, commits a tour of its arguments; if its own document is
updated, this is the last visit. At each visit that updates a document, let a field be null in the
arguments of an object that the document embeds, at the end of a way through any number of objects.
Then the document that is stored has this object there, and under the key of the field the object
has what `keptEntry` says of the document that the visit found: an entry that was stored, if the
document embeds the object itself, and nothing further inside. -/
theorem call_clears (h : x.Checking c) {name : String} {ep : Endpoint}
    (hep : Record.get? x.endpoints name = some ep)
    (hk : ep.kind = .save ∨ ep.kind = .update ∨ ep.kind = .state) {t t₁ t' : τ} {q q₁ q' : Call}
    (hpasses : x.Passes ep t q t₁ q₁) (hd : (c.get t₁).collections.Distinct) {v : Value}
    (hr : (x.call name).run.run (t, q) = (.ok v, (t', q'))) :
    ∃ job log, x.RootJob ep q₁.args job ∧
      Executor.Commits x.executor.registry [job] log (c.get t₁) (c.get t') ∧
      (job.operation = .update → ∃ before v doc, log = before ++ [(v, doc)] ∧ v.toJob = job) ∧
      ∀ before v doc after, log = before ++ (v, doc) :: after → v.operation = .update → ∃ o current,
        NamesDocument v.args o ∧ v.id = .id o ∧
        ((∀ e ∈ before, ¬ e.1.IsAt v.entity.collection (.id o)) →
          ((c.get t₁).collections.get v.entity.collection).get? (.id o) = some current) ∧
        ((∀ e ∈ after, ¬ e.1.IsAt v.entity.collection (.id o)) →
          ((c.get t').collections.get v.entity.collection).get? (.id o) = some doc) ∧
        ∀ g name rest, v.entity.entity.Secludes v.link v.args name →
          x.executor.registry.NullsInside g v.entity.entity v.args (name :: rest) →
          ∃ inner, embeddedAt? doc (name :: rest) = some inner ∧
            Record.get? inner g.storedKey = keptEntry current (name :: rest) g.storedKey := by
  obtain ⟨job, log, hasked, hcommits⟩ := h.commits_call hep hk hpasses hd hr
  refine ⟨job, log, hasked, hcommits, fun hop => ?_, ?_⟩
  · obtain ⟨children, v, hvisits, hjob⟩ := hcommits.tours.root_last hop
    obtain ⟨before, last, rfl, -, hlast⟩ := List.map_eq_append_iff.1 hvisits
    obtain ⟨⟨v', doc⟩, rfl, rfl⟩ := List.map_eq_singleton_iff.1 hlast
    exact ⟨before, v', doc, rfl, hjob⟩
  · rintro before v doc after rfl hop
    obtain ⟨n, hfollows⟩ := hcommits.follows
    obtain ⟨c₁, hbefore, hrest⟩ := hfollows.split
    cases hrest with
    | cons hwrites hafter =>
      obtain ⟨o, made, current, hnames, hid, hmade, hcurrent, hturns⟩ := hwrites.of_update hop
      refine ⟨o, current, hnames, hid, fun hnot => ?_, fun hnot =>
        ?_, fun g name rest halone hnulls =>
        hmade.get?_null hturns halone hnulls⟩
      · exact (hbefore.found_of_not_visited hnot).symm.trans hcurrent
      · exact (hafter.found_of_not_visited hnot).trans (hwrites.found_self hid)

end Dispatcher

/-! ## Homes -/

/-- A field that holds an embedded object. -/
def embeddedField (name target : String) : FieldDef :=
  ⟨name, .entity target, false, true, false, false, some ⟨true, "", .null⟩, .null⟩

/-- A place has a city and a code. -/
def place : Entity where
  name := "Place"
  fields := [textField "city", textField "zip"]
  description := .null
  names_nodup := by decide

/-- An address is a street in a place. -/
def address : Entity where
  name := "Address"
  fields := [textField "street", embeddedField "place" "Place"]
  description := .null
  names_nodup := by decide

/-- A person lives at an address. -/
def person : Entity where
  name := "Person"
  fields := [⟨"id", .scalar .id, false, true, false, false, none, .null⟩, textField "name",
    embeddedField "address" "Address"]
  description := .null
  names_nodup := by decide

/-- The registry of the service. -/
def homesRegistry : Registry :=
  (Registry.finalize.run.run ⟨[
    ("Place", ⟨place, "Place", none, none, none, false, none, []⟩),
    ("Address", ⟨address, "Address", none, none, none, false, none, []⟩),
    ("Person", ⟨person, "people", some "person", some "people", none, true, none, []⟩)], [],
    false⟩).2

/-- A service of people and their homes. -/
def homes : Dispatcher MemoryStore SessionId where
  executor := {
    registry := homesRegistry
    behaviour := ⟨fun _ => .none, fun _ _ _ => throw .illTyped⟩
    store := MemoryStore.documentStore.within ⟨id, fun m _ => m⟩
    policy := ⟨2, fun n => .ok (.whole n), fun _ => pure (), Nat.two_pos⟩ }
  endpoints := (Endpoint.table .everything homesRegistry).toOption.getD []
  middleware := []
  defaultLimit := 10

/-- A store with a person who lives in Rome. -/
def homesStore : MemoryStore := { MemoryStore.empty with
  collections := [("people", [(.id (.ofNat 1), [("_id", .id (.ofNat 1)), ("address", .object
    [("street", .text "Via Appia"),
      ("place", .object [("city", .text "Rome"), ("zip", .text "00179")])])])])] }

/-- The person moves to Oslo. Neither street nor code are known there. -/
def moveToOslo : Call :=
  ⟨.object [("id", .id (.ofNat 1)), ("address", .object
    [("street", .null), ("place", .object [("city", .text "Oslo"), ("zip", .null)])])], []⟩

/-- The store after the person moved. -/
def afterMove : MemoryStore := ((homes.call "updatePerson").run.run (homesStore, moveToOslo)).2.1

/-- The entities that the registry knows. -/
theorem homes_descriptor {n : String} {d : Descriptor}
    (h : Record.get? homesRegistry.descriptors n = some d) :
    n = "Place" ∧ d.entity = place ∨ n = "Address" ∧ d.entity = address ∨
      n = "Person" ∧ d.entity = person ∧ d.collection = "people" := by
  obtain ⟨p, q, o, hdescriptors⟩ : ∃ p q o, homesRegistry.descriptors = [
      ("Place", ⟨place, "Place", none, none, none, false, p, []⟩),
      ("Address", ⟨address, "Address", none, none, none, false, q, []⟩),
      ("Person", ⟨person, "people", some "person", some "people", none, true, o, []⟩)] :=
      ⟨_, _, _, rfl⟩
  have hmem := Record.mem_of_get?_eq_some h
  rw [hdescriptors] at hmem
  simp only [List.mem_cons, List.not_mem_nil, or_false] at hmem
  rcases hmem with hmem | hmem | hmem <;> cases hmem
  · exact .inl ⟨rfl, rfl⟩
  · exact .inr (.inl ⟨rfl, rfl⟩)
  · exact .inr (.inr ⟨rfl, rfl, rfl⟩)

theorem homes_checking : homes.Checking ⟨id, fun m _ => m⟩ where
  component := fun _ _ => rfl
  store := rfl
  sleep := fun _ _ => rfl
  validates := fun _ => EntityBehaviour.validates_none _

theorem homesStore_distinct : homesStore.collections.Distinct :=
  Collections.distinct_of_forall (by unfold Collection.Distinct; decide)

/-- A key that only one field has is reserved for it. -/
theorem Entity.Reserves.of_nodup {e : Entity} {f : FieldDef}
    (h : (e.fields.map FieldDef.documentKey).Nodup) (hf : f ∈ e.fields) (args : Value) :
    e.Reserves args f.documentKey f :=
  fun _ hg _ _ _ hkey => List.inj_on_of_nodup_map h hg hf hkey

/-- The address of the person is written on its own. -/
theorem person_secludes : person.Secludes none moveToOslo.args "address" where
  segment := by unfold IsSegment; decide
  written := fun f hf _ _ hne => by
    have hkeys : ∀ f ∈ person.fields, f.documentKey = "address" ∨
        (Text.segments f.documentKey).head? ≠ some "address" := by decide
    exact (hkeys f hf).resolve_left hne
  removed := fun f hf hnull => by
    simp only [person, List.mem_cons, List.not_mem_nil, or_false] at hf
    obtain ⟨-, -, hnull⟩ := hnull
    rcases hf with rfl | rfl | rfl <;> cases hnull
  linked := fun l hl => by cases hl

theorem address_reserved (args : Value) :
    person.Reserves args "address" (embeddedField "address" "Address") :=
  Entity.Reserves.of_nodup (e := person) (f := embeddedField "address" "Address") (by decide)
    (by simp [person]) args

/-- The arguments lead into the address, where the street is null. -/
theorem nulls_street :
    homesRegistry.NullsInside (textField "street") person moveToOslo.args ["address"] := by
  obtain ⟨d, hd, hentity⟩ : ∃ d, homesRegistry.lookup "Address" = .ok d ∧ d.entity = address :=
    ⟨_, rfl, rfl⟩
  have hkey : ∀ args, address.Reserves args "street" (textField "street") :=
    Entity.Reserves.of_nodup (e := address) (f := textField "street") (by decide)
      (by simp [address])
  refine .inside (f := embeddedField "address" "Address") (by simp [person]) rfl rfl rfl hd
    (address_reserved _) ?_
  rw [hentity]
  exact .here (by simp [address]) rfl (hkey _)

/-- They lead on to the place, where the code is null. -/
theorem nulls_zip :
    homesRegistry.NullsInside (textField "zip") person moveToOslo.args ["address", "place"] := by
  obtain ⟨d, hd, hentity⟩ : ∃ d, homesRegistry.lookup "Address" = .ok d ∧ d.entity = address :=
    ⟨_, rfl, rfl⟩
  obtain ⟨e, he, hentity'⟩ : ∃ e, homesRegistry.lookup "Place" = .ok e ∧ e.entity = place :=
    ⟨_, rfl, rfl⟩
  have hplace : ∀ args, address.Reserves args "place" (embeddedField "place" "Place") :=
    Entity.Reserves.of_nodup (e := address) (f := embeddedField "place" "Place") (by decide)
      (by simp [address])
  have hkey : ∀ args, place.Reserves args "zip" (textField "zip") :=
    Entity.Reserves.of_nodup (e := place) (f := textField "zip") (by decide) (by simp [place])
  refine .inside (f := embeddedField "address" "Address") (by simp [person]) rfl rfl rfl hd
    (address_reserved _) ?_
  rw [hentity]
  refine .inside (f := embeddedField "place" "Place") (by simp [address])
    rfl rfl rfl he (hplace _) ?_
  rw [hentity']
  exact .here (by simp [place]) rfl (hkey _)

/-- The code of the place is gone after the move. -/
theorem homes_clear_zip : ∃ doc inner,
    (afterMove.collections.get "people").get? (.id (.ofNat 1)) = some doc ∧
    embeddedAt? doc ["address", "place"] = some inner ∧ Record.get? inner "zip" = none := by
  have hep : Record.get? homes.endpoints "updatePerson" =
    some ⟨"updatePerson", .update, some "Person", none⟩ := rfl
  obtain ⟨v, hv⟩ : ∃ v, ((homes.call "updatePerson").run.run (homesStore, moveToOslo)).1 = .ok v :=
    ⟨_, by cbv⟩
  obtain ⟨job, log, hasked, hcommits, hlast, hvisits⟩ :=
    Dispatcher.call_clears homes_checking hep (.inr (.inl rfl))
      (Dispatcher.passes_of_none rfl rfl _ _) homesStore_distinct (Prod.ext hv rfl)
  obtain rfl : job = ⟨.update, "Person", none, moveToOslo.args⟩ := by
    cases hasked with
    | save hk => cases hk
    | state hk => cases hk
    | update _ hd =>
      obtain ⟨hname, -⟩ | ⟨hname, -⟩ | ⟨-, hentity, -⟩ :=
        homes_descriptor (Registry.get?_of_lookup hd)
      · exact absurd hname (by decide)
      · exact absurd hname (by decide)
      · rw [Descriptor.name, hentity]
        rfl
  obtain ⟨before, u, doc, rfl, hjob⟩ := hlast rfl
  obtain ⟨hop, htarget, hlink, hargs⟩ := Job.mk.inj hjob
  obtain ⟨hentity, hcollection⟩ : u.entity.entity = person ∧ u.entity.collection = "people" := by
    have hlookup := hcommits.tours.lookup
      (List.mem_map_of_mem (List.mem_append_right before (List.mem_singleton_self _)))
    rw [htarget] at hlookup
    obtain ⟨hname, -⟩ | ⟨hname, -⟩ | ⟨-, hfound⟩ :=
      homes_descriptor (Registry.get?_of_lookup hlookup)
    · exact absurd hname (by decide)
    · exact absurd hname (by decide)
    · exact hfound
  obtain ⟨o, current, ⟨_, hraw, ho⟩, -, -, hfound, hclears⟩ := hvisits before u doc [] rfl hop
  rw [hargs] at hraw
  cases hraw
  cases ho
  have hdoc := hfound fun e he => absurd he List.not_mem_nil
  rw [hentity, hargs, hlink] at hclears
  obtain ⟨inner, hinner, hzip⟩ := hclears _ _ _ person_secludes nulls_zip
  rw [hcollection] at hdoc
  exact ⟨doc, inner, hdoc, hinner, hzip⟩

/-- **A null that does nothing.** The street is null in the address of the same call, but the
address that was stored had one, and the address after the move still has it. -/
theorem homes_keep_street : homes.Checking ⟨id, fun m _ => m⟩ ∧ homesStore.collections.Distinct ∧
    homesRegistry.NullsInside (textField "street") person moveToOslo.args ["address"] ∧
    (textField "street").nullable = true ∧ (textField "street").storedKey = "street" ∧
    person.Secludes none moveToOslo.args "address" ∧
    (∃ v, ((homes.call "updatePerson").run.run (homesStore, moveToOslo)).1 = .ok v) ∧
    ∃ doc inner, (afterMove.collections.get "people").get? (.id (.ofNat 1)) = some doc ∧
      embeddedAt? doc ["address"] = some inner ∧ Record.get? inner "street" =
        some (.text "Via Appia") := by
  refine ⟨homes_checking, homesStore_distinct, nulls_street, rfl, rfl, person_secludes, ⟨_, by cbv⟩,
    [("_id", .id (.ofNat 1)), ("address", .object [("street", .text "Via Appia"),
      ("place", .object [("city", .text "Oslo")])])], _, by cbv, rfl, rfl⟩

end EntityGraph
