import EntityGraph.Proofs.Answers
import EntityGraph.Proofs.Documents
import EntityGraph.Proofs.RetakenWrites
import EntityGraph.Proofs.Shapes
import EntityGraph.Proofs.Uniqueness

/-!
# Arguments that suit an entity

Once a shape accepts arguments, they suit the entity (`Registry.Accepts.suits`): they are an object,
what they embed suits the entities embedded, and the changes that they hold can be read and suit the
children changed. The document is made from such arguments, or they are refused
(`Materializer.serves_materialize`): a value of the wrong structure is never met on the way down.

What is made can be stored (`Materialized.Storable`) when the keys of the entity are single segments
other than the one of the identifier and no reference is stored where an object is embedded: it can
be laid over every document, and leaves the identifier there alone (`exists_mergeEmbedded`,
`exists_applyUpdate`).
-/

namespace EntityGraph

variable {τ S : Type}

/-! ## Suitable arguments -/

/-- **Admitted arguments** of a field, by its kind: what it embeds is accepted by a shape of its
entity, and the changes to a list of related documents can be read and hold accepted children. -/
def Registry.Admits (r : Registry) (f : FieldDef) (v : Value) : Prop :=
  match f.kind with
  | .ok .embeddedObject => ∃ target ref, f.target = some target ∧ ref.IsFor target ∧ r.Accepts ref v
  | .ok .embeddedList => ∃ target ref, f.target = some target ∧ ref.IsFor target ∧
      ∀ items, v = .list items → ∀ w ∈ items, r.Accepts ref w
  | .ok .referencedList => ∃ target delta, f.target = some target ∧ Delta.ofValue? v = some delta ∧
      (∀ w ∈ delta.added, r.Accepts (.add target) w) ∧ ∀ w ∈ delta.updated,
      r.Accepts (.update target) w
  | _ => True

/-- **Arguments that suit an entity** are an object with admitted arguments. -/
structure Registry.Suits (r : Registry) (e : Entity) (args : Value) : Prop where
  object : ∃ fs, args = .object fs
  admits : ∀ f ∈ e.fields, f.isIdentifier = false → ∀ v, presentArgument? f args = some v →
    r.Admits f v

/-- A list among changes that were checked. -/
theorem exists_listAt? {fs : Document} {key : String}
    (h : ∀ v, Record.get? fs key = some v → v ≠ .null → ∃ items, v = .list items) :
    ∃ items, Delta.listAt? fs key = some items := by
  unfold Delta.listAt?
  split
  · exact ⟨_, rfl⟩
  · exact ⟨_, rfl⟩
  · exact ⟨_, rfl⟩
  · exact ⟨_, rfl⟩
  · rename_i v hlist _ _ hv
    by_cases hnull : v = .null
    · rw [hnull]
      exact ⟨[], rfl⟩
    · obtain ⟨items, hitems⟩ := h v hv hnull
      exact absurd hitems (hlist items)

/-- Changes that were checked can be read. -/
theorem exists_delta_of_checkInput {table : ShapeTable} {letter owner field path : String}
    {add update : InputType} {v : Value}
    (h : checkInput table (InputShape.delta letter owner field add update) path v = .ok ()) :
    ∃ delta, Delta.ofValue? v = some delta := by
  obtain ⟨fs, rfl, hfields⟩ := checkInput_ok h
  have hlists : ∀ key v, Record.get? fs key = some v → v ≠ .null → ∃ items, v = .list items := by
    intro key v hv hnull
    obtain ⟨f, hf, hchecked⟩ := hfields key v hv
    obtain ⟨place, hplace⟩ := hchecked hnull
    rcases InputShape.mem_delta hf with heq | heq | heq <;> cases heq
    · obtain ⟨items, rfl, -⟩ := checkValue_objectList rfl hplace
      exact ⟨items, rfl⟩
    · obtain ⟨items, rfl, -⟩ := checkValue_objectList rfl hplace
      exact ⟨items, rfl⟩
    · cases v with
      | list items => exact ⟨items, rfl⟩
      | _ =>
        rw [checkValue.eq_def] at hplace
        cases hplace
  obtain ⟨added, hadded⟩ := exists_listAt? (hlists "added")
  obtain ⟨updated, hupdated⟩ := exists_listAt? (hlists "updated")
  obtain ⟨deleted, hdeleted⟩ := exists_listAt? (hlists "deleted")
  exact ⟨⟨added, updated, deleted⟩, by rw [Delta.ofValue?, hadded, hupdated, hdeleted]; rfl⟩

namespace Registry

variable {r : Registry} {d : Descriptor}

/-- **Accepted arguments suit** the entity that accepts them. -/
theorem Accepts.suits (hr : r.Shaped) (hd : Record.get? r.descriptors d.name = some d)
    {ref : ShapeRef} (href : ref.IsFor d.name) {args : Value} (h : r.Accepts ref args) :
    r.Suits d.entity args := by
  obtain ⟨fs, rfl, hfields⟩ := h.offered hr hd href
  refine ⟨⟨fs, rfl⟩, fun f hf hid v hv => ?_⟩
  obtain ⟨hget, hpresent⟩ := Option.filter_eq_some_iff.1 hv
  have hnull : v ≠ .null := by
    rintro rfl
    cases hpresent
  obtain ⟨input, ⟨g, hg, hname, -, hasks⟩, hchecked⟩ := hfields f.name v hget
  obtain rfl := List.inj_on_of_nodup_map d.entity.names_nodup hg hf hname
  obtain ⟨place, hplace⟩ := hchecked hnull
  rw [checkValue.eq_def] at hplace
  unfold Admits
  rcases hk : g.kind with e | kind
  · trivial
  rw [FieldDef.Asks, hk] at hasks
  cases kind with
  | embeddedObject =>
    obtain ⟨hkind, target, ref, htarget, href, htype⟩ := hasks
    rw [hkind] at hplace
    dsimp only at hplace
    rw [htype] at hplace
    obtain ⟨s, hs, hinput⟩ := checkObject_ok hplace
    exact ⟨target, ref, htarget, href, s, place, hs, hinput⟩
  | embeddedList =>
    obtain ⟨hkind, target, ref, htarget, href, htype⟩ := hasks
    rw [hkind] at hplace
    refine ⟨target, ref, htarget, href, ?_⟩
    rintro items rfl w hw
    dsimp only at hplace
    obtain ⟨place', hplace'⟩ := checkItems_ok hplace hw
    rw [htype] at hplace'
    obtain ⟨s, hs, hinput⟩ := checkObject_ok hplace'
    exact ⟨s, place', hs, hinput⟩
  | referencedList =>
    obtain ⟨hkind, u, htype⟩ := hasks
    rw [hkind] at hplace
    dsimp only at hplace
    rw [htype] at hplace
    obtain ⟨s, hs, hinput⟩ := checkObject_ok hplace
    rw [shape?, hd] at hs
    simp only [Option.bind_eq_bind, Option.bind_some, Option.bind_eq_some_iff] at hs
    obtain ⟨_, -, _, -, hs⟩ := hs
    cases hs
    obtain ⟨delta, hdelta⟩ := exists_delta_of_checkInput hinput
    have hread : deltaOf? g (.object fs) = some delta := by
      have hlist : g.isReferencedList = true := by
        rw [FieldDef.isReferencedList, FieldDef.kind?, hk, decide_eq_true_iff]
        rfl
      rw [deltaOf?, if_pos (by rw [hlist, hid]; rfl), hv]
      exact hdelta
    obtain ⟨target, htarget, hadded, hupdated⟩ := h.children hr hd href hf hread
    exact ⟨target, delta, htarget, hdelta, hadded, hupdated⟩
  | _ => trivial

/-- Putting in a value for a field that holds scalars leaves suitable arguments suitable. -/
theorem Suits.put {e : Entity} {fs : Document} (h : r.Suits e (.object fs)) {key : String}
    (v : Value) (hkey : ∀ f ∈ e.fields, f.name = key → f.kind = .ok .scalar ∨
      f.kind = .ok .enumeration) :
    r.Suits e (.object (Record.put fs key v)) := by
  refine ⟨⟨_, rfl⟩, fun f hf hid w hw => ?_⟩
  by_cases hname : f.name = key
  · unfold Admits
    rcases hkey f hf hname with hk | hk <;> rw [hk] <;> trivial
  · refine h.admits f hf hid w ?_
    rw [presentArgument?, fieldOf?, Record.get?_put, if_neg (Ne.symm hname)] at hw
    exact hw

/-- Arguments with nothing but an identifier suit every entity. -/
theorem suits_id (r : Registry) (e : Entity) (v : Value) : r.Suits e (.object [("id", v)]) := by
  refine ⟨⟨_, rfl⟩, fun f _ hid w hw => ?_⟩
  obtain ⟨hget, -⟩ := Option.filter_eq_some_iff.1 hw
  rw [fieldOf?, Record.get?_cons] at hget
  split at hget
  · rename_i hname
    rw [FieldDef.isIdentifier, ← hname] at hid
    cases hid
  · cases hget

/-- The changes among suitable arguments: the children suit the entity of the list. -/
theorem Suits.children {e : Entity} {args : Value} (h : r.Suits e args) {f : FieldDef}
    (hf : f ∈ e.fields) {delta : Delta} (hdelta : deltaOf? f args = some delta) :
    f.kind = .ok .referencedList ∧ ∃ target, f.target = some target ∧
      (∀ w ∈ delta.added, r.Accepts (.add target) w) ∧ ∀ w ∈ delta.updated,
        r.Accepts (.update target) w := by
  unfold deltaOf? at hdelta
  split at hdelta
  · rename_i hlist
    obtain ⟨hlist, hid⟩ := Bool.and_eq_true_iff.1 hlist
    have hk := FieldDef.kind_of_isReferencedList hlist
    obtain ⟨v, hv, hread⟩ := Option.bind_eq_some_iff.1 hdelta
    have hadmits := h.admits f hf (by simpa using hid) v hv
    rw [Admits, hk] at hadmits
    obtain ⟨target, delta', htarget, hread', hadded, hupdated⟩ := hadmits
    obtain rfl := Option.some.inj (hread.symm.trans hread')
    exact ⟨hk, target, htarget, hadded, hupdated⟩
  · cases hdelta

end Registry

/-! ## Making documents -/

namespace Materializer

variable {registry : Registry} {b : Behaviour τ S} {operation : Operation} {s : S} {I : τ → Prop}

mutual

/-- **A document is made from suitable arguments**, or they are refused. -/
theorem serves_materialize (hb : ∀ n, b.entity n = .none) (hr : registry.Shaped) (entity : Entity)
    (link : Option ParentLink) (args : Value) (h : registry.Suits entity args) :
    Serves I (fun _ => True) ((mk registry b operation s).materialize entity link args) := by
  rw [materialize_eq hb]
  refine Serves.bind (serves_materializeFields hb hr entity.name args h.object
    entity.fields h.admits _) fun _ _ => Serves.pure trivial
termination_by (sizeOf args, 3, 0)

theorem serves_materializeFields (hb : ∀ n, b.entity n = .none) (hr : registry.Shaped)
    (entity : String) (args : Value) (hobject : ∃ fs, args = .object fs) : ∀ fields : List FieldDef,
    (∀ f ∈ fields, f.isIdentifier = false → ∀ v, presentArgument? f args = some v →
      registry.Admits f v) →
    ∀ made : Materialized,
      Serves I (fun _ => True)
      ((mk registry b operation s).materializeFields entity args fields made)
  | [], _, made => by
    rw [materializeFields]
    exact Serves.pure trivial
  | f :: rest, hadmits, made => by
    have hnone : ¬ args.fields?.isNone = true := by
      obtain ⟨fs, rfl⟩ := hobject
      exact Bool.false_ne_true
    rw [materializeFields_cons, if_neg hnone, checkField_none hb, pure_bind]
    refine Serves.bind (Q := fun _ => True) ?_ fun r _ =>
      serves_materializeFields hb hr entity args hobject rest
        (fun g hg => hadmits g (List.mem_cons_of_mem _ hg)) r
    unfold materializeField
    split
    · exact Serves.pure trivial
    rename_i hid
    split
    · exact Serves.pure trivial
    rename_i v hv
    have := sizeOf_fieldOf?_lt hv
    split
    · exact Serves.pure trivial
    rename_i hpresent
    refine serves_materializeValue hb hr f v
      (hadmits f (List.mem_cons_self ..) (Bool.eq_false_iff.2 hid) v ?_) made
    exact presentArgument?_eq_some.2 ⟨hv, Bool.eq_false_iff.2 hpresent⟩
termination_by fields => (sizeOf args, 2, fields.length)

theorem serves_materializeValue (hb : ∀ n, b.entity n = .none) (hr : registry.Shaped) (f : FieldDef)
    (v : Value) (h : registry.Admits f v) (made : Materialized) :
    Serves I (fun _ => True) ((mk registry b operation s).materializeValue f v made) := by
  rw [materializeValue.eq_def]
  refine Serves.lift_bind (answers_kind f) fun kind hk _ => ?_
  cases kind with
  | scalar => exact Serves.lift_bind (answers_coerceScalar f v) fun w _ _ => Serves.pure trivial
  | enumeration =>
    exact Serves.lift_bind (answers_coerceScalar f v) fun w _ _ => Serves.pure trivial
  | scalarList =>
    dsimp only
    split
    · exact Serves.lift_bind (answers_coerceScalars f _) fun ws _ _ => Serves.pure trivial
    · exact Serves.refuse rfl
  | referencedObject =>
    exact Serves.lift_bind (answers_toReference v) fun o _ _ => Serves.pure trivial
  | embeddedObject =>
    match v, h with
    | .object fs, h =>
      rw [Registry.Admits, hk] at h
      obtain ⟨target, ref, htarget, href, haccepts⟩ := h
      refine Serves.lift_bind (answers_lookup registry _) fun t _ ht => ?_
      rw [htarget, Option.getD_some] at ht
      obtain rfl := hr.named target t ht
      exact Serves.bind (serves_materialize hb hr t.entity none (.object fs)
        (haccepts.suits hr ht href)) fun _ _ => Serves.pure trivial
    | .list _, _ | .null, _ | .bool _, _ | .int _, _ | .float _, _ | .text _, _ | .id _, _
    | .moment _, _ | .member _ _, _ => exact Serves.refuse rfl
  | embeddedList =>
    match v, h with
    | .list items, h =>
      rw [Registry.Admits, hk] at h
      obtain ⟨target, ref, htarget, href, haccepts⟩ := h
      refine Serves.lift_bind (answers_lookup registry _) fun t _ ht => ?_
      rw [htarget, Option.getD_some] at ht
      obtain rfl := hr.named target t ht
      exact Serves.bind (serves_materializeItems hb hr f t.entity items fun w hw =>
        (haccepts items rfl w hw).suits hr ht href) fun _ _ => Serves.pure trivial
    | .object _, _ | .null, _ | .bool _, _ | .int _, _ | .float _, _ | .text _, _ | .id _, _
    | .moment _, _ | .member _ _, _ => exact Serves.refuse rfl
  | referencedList =>
    rw [Registry.Admits, hk] at h
    obtain ⟨_, delta, -, hdelta, -⟩ := h
    dsimp only
    rw [hdelta]
    exact Serves.pure trivial
termination_by (sizeOf v, 4, 0)

theorem serves_materializeItems (hb : ∀ n, b.entity n = .none) (hr : registry.Shaped) (f : FieldDef)
    (entity : Entity) : ∀ items : List Value, (∀ v ∈ items, registry.Suits entity v) →
    Serves I (fun _ => True) ((mk registry b operation s).materializeItems f entity items)
  | [], _ => by
    rw [materializeItems]
    exact Serves.pure trivial
  | v :: rest, h => by
    cases v with
    | object fs =>
      rw [materializeItems]
      refine Serves.bind (serves_materialize hb hr entity none (.object fs)
        (h _ (List.mem_cons_self ..))) fun _ _ => ?_
      refine Serves.bind (serves_materializeItems hb hr f entity rest
        fun w hw => h w (List.mem_cons_of_mem _ hw)) fun _ _ => Serves.pure trivial
    | _ =>
      rw [materializeItems.eq_def]
      exact Serves.refuse rfl
termination_by items => (sizeOf items, 0, 0)

end

end Materializer

/-! ## Storing documents -/

/-- Keys that a document may have beside its identifier: single segments other than the one of the
identifier. -/
def IsStorable (key : String) : Prop := IsSegment key ∧ key ≠ "_id"

/-- **Fields that are stored** under storable keys, their own and those of the documents that they
link. -/
structure FieldDef.Storable (f : FieldDef) : Prop where
  name : IsSegment f.name
  connection : IsSegment f.connectionField
  key : f.storedKey ≠ "_id"
  value : f.kind ≠ .ok .referencedObject → f.name ≠ "_id"
  link : f.kind = .ok .referencedList → f.connectionField ≠ "_id"

theorem FieldDef.Storable.storedKey {f : FieldDef} (h : f.Storable) : IsStorable f.storedKey := by
  refine ⟨?_, h.key⟩
  have hconnection := h.connection
  unfold FieldDef.connectionField at hconnection
  unfold FieldDef.storedKey
  split
  · rename_i rel hrel
    rw [hrel] at hconnection
    split
    · exact h.name
    · exact hconnection
  · exact h.name

/-- Keys under which a reference may be stored beside the fields of an entity: no object is embedded
there. -/
def Entity.Spares (e : Entity) (key : String) : Prop :=
  ∀ f ∈ e.fields, f.kind = .ok .embeddedObject → key ≠ f.name

/-- **Documents that can be stored** for fields: the keys are storable, and where a field embeds an
object there is an object. -/
structure Materialized.Storable (fields : List FieldDef) (m : Materialized) : Prop where
  keys : ∀ e ∈ m.document, IsStorable e.1
  unset : ∀ key ∈ m.unset, IsStorable key
  objects : ∀ f ∈ fields, f.kind = .ok .embeddedObject →
    ∀ v, Record.get? m.document f.name = some v →
    ∃ fs, v = .object fs

namespace Materialized.Storable

variable {e : Entity} {m : Materialized}

theorem nil (fields : List FieldDef) : Storable fields ⟨[], []⟩ where
  keys := fun _ h => absurd h List.not_mem_nil
  unset := fun _ h => absurd h List.not_mem_nil
  objects := fun _ _ _ _ h => nomatch h

/-- A reference put where no object is embedded. -/
theorem put_reference (h : Storable e.fields m) {key : String} (hkey : IsStorable key)
    (hspares : e.Spares key) (v : Value) : Storable e.fields (Materializer.put m key v) where
  keys := fun entry hentry => by
    rcases Record.mem_put hentry with hentry | rfl
    · exact h.keys entry hentry
    · exact hkey
  unset := h.unset
  objects := fun f hf hk w hw => by
    rw [Materializer.put, Record.get?_put, if_neg (hspares f hf hk)] at hw
    exact h.objects f hf hk w hw

/-- What the argument of a field does to a document that can be stored. -/
theorem took (h : Storable e.fields m) {f : FieldDef} (hf : f ∈ e.fields) (hstorable : f.Storable)
    (hspares : f.kind = .ok .referencedObject → e.Spares f.connectionField) {v : Value}
    {m' : Materialized} (ht : Took f v m m') : Storable e.fields m' := by
  cases ht with
  | @named kind w hk hne _ hembedded =>
    have hvalue : f.name ≠ "_id" := hstorable.value fun hreference => hne <| by
      rw [hk] at hreference
      cases hreference
      rfl
    refine ⟨fun entry hentry => ?_, h.unset, fun g hg hkind u hu => ?_⟩
    · rcases Record.mem_put hentry with hentry | rfl
      · exact h.keys entry hentry
      · exact ⟨hstorable.name, hvalue⟩
    · rw [Materializer.put, Record.get?_put] at hu
      split at hu
      · rename_i hname
        obtain rfl := List.inj_on_of_nodup_map e.names_nodup hf hg hname
        rw [hk] at hkind
        cases hkind
        cases hu
        exact hembedded rfl
      · exact h.objects g hg hkind u hu
  | reference hk =>
    refine h.put_reference ⟨hstorable.connection, ?_⟩ (hspares hk) _
    rw [← FieldDef.storedKey_of_kind hk]
    exact hstorable.key
  | changes => exact h

end Materialized.Storable

/-- **What is made for an entity can be stored.** -/
theorem Materializer.moves_materialize_storable {registry : Registry} {b : Behaviour τ S}
    {operation : Operation} {s : S} (hb : ∀ n, b.entity n = .none) {e : Entity}
    (hfields : ∀ f ∈ e.fields, f.Storable)
    (hspares : ∀ f ∈ e.fields, f.kind = .ok .referencedObject → e.Spares f.connectionField)
    {link : Option ParentLink} (hlink : ∀ l, link = some l → IsStorable l.1 ∧ e.Spares l.1)
    (args : Value) :
    Moves (fun _ _ => True) (Materialized.Storable e.fields)
      ((mk registry b operation s).materialize e link args) := by
  rw [materialize_eq hb]
  refine Moves.bind_any (moves_materializeFields_of_took (P := Materialized.Storable e.fields)
    (fun f hf v m m' _ hm ht => hm.took hf (hfields f hf) (hspares f hf) ht)
    (fun f hf m _ hm => ⟨hm.keys, fun key hkey => ?_, hm.objects⟩) (Materialized.Storable.nil _))
    fun m hm =>
      Moves.pure_any ?_
  · rcases List.mem_append.1 hkey with hkey | hkey
    · exact hm.unset key hkey
    · obtain rfl := List.mem_singleton.1 hkey
      exact (hfields f hf).storedKey
  · rcases link with _ | ⟨key, parent⟩
    · exact hm
    · obtain ⟨hkey, hspared⟩ := hlink _ rfl
      exact hm.put_reference hkey hspared parent

/-- Objects are laid over whatever is stored. -/
theorem exists_mergeEmbedded (current : Document) {fields : List FieldDef} {changes : Document}
    (hkeys : ∀ e ∈ changes, IsStorable e.1)
    (hobjects : ∀ f ∈ fields, f.kind = .ok .embeddedObject →
      ∀ v, Record.get? changes f.name = some v →
      ∃ fs, v = .object fs) :
    ∃ merged, Executor.mergeEmbedded current fields changes = .ok merged ∧ ∀ e ∈ merged,
      IsStorable e.1 := by
  induction fields generalizing changes with
  | nil => exact ⟨changes, rfl, hkeys⟩
  | cons f rest ih =>
    have hrest : ∀ g ∈ rest, g.kind = .ok .embeddedObject →
      ∀ v, Record.get? changes g.name = some v →
        ∃ fs, v = .object fs := fun g hg => hobjects g (List.mem_cons_of_mem _ hg)
    have hfield : ∃ changes', mergeField current f changes = .ok changes' ∧
        (changes' = changes ∨ ∃ old new, Record.get? changes f.name = some old ∧
          changes' = Record.put changes f.name (.object new)) := by
      unfold mergeField
      split
      · rename_i hkind
        have hk : f.kind = .ok .embeddedObject := by
          rw [FieldDef.kind?] at hkind
          rcases hk : f.kind with _ | kind <;> rw [hk] at hkind <;> cases hkind
          rfl
        rcases hnew : Record.get? changes f.name with _ | new
        · exact ⟨changes, rfl, .inl rfl⟩
        · obtain ⟨fs, rfl⟩ := hobjects f (List.mem_cons_self ..) hk new hnew
          rcases Record.get? current f.name with _ | old
          · exact ⟨changes, rfl, .inl rfl⟩
          · cases old with
            | object old => exact ⟨_, rfl, .inr ⟨_, _, rfl, rfl⟩⟩
            | _ => exact ⟨changes, rfl, .inl rfl⟩
      · exact ⟨changes, rfl, .inl rfl⟩
    obtain ⟨changes', hmerge, hchanges'⟩ := hfield
    rw [mergeEmbedded_cons, hmerge, Outcome.ok_bind]
    rcases hchanges' with rfl | ⟨old, new, hold, rfl⟩
    · exact ih hkeys hrest
    · refine ih (fun e he => ?_) fun g hg hk v hv => ?_
      · rcases Record.mem_put he with he | rfl
        · exact hkeys e he
        · exact hkeys (f.name, old) (Record.mem_of_get?_eq_some hold)
      · rw [Record.get?_put] at hv
        split at hv
        · cases hv
          exact ⟨new, rfl⟩
        · exact hrest g hg hk v hv

open MemoryStore in
/-- **Updates under storable keys** are possible for every document, and leave its identifier
alone. -/
theorem exists_applyUpdate {changes : Option Document} {unset : List String}
    (hchanges : ∀ e ∈ changes.getD [], IsStorable e.1) (hunset : ∀ key ∈ unset, IsStorable key)
    {d : Document} {o : ObjectId} (hid : Record.get? d "_id" = some (.id o)) :
    ∃ d', applyUpdate (.object (Executor.updateParts changes unset)) d = .ok d' ∧
      Record.get? d' "_id" = some (.id o) := by
  have hset := setPaths_eq_merge (fun e he => (hchanges e he).1) d
  rw [applyUpdate_updateParts, hset]
  refine ⟨_, rfl, entry_of_unsetPaths ?_ rfl fun hm => ?_⟩
  · refine get?_setPaths hid rfl (fun hm => ?_) hset
    obtain ⟨e, he, hkey⟩ := List.mem_map.1 hm
    exact (hchanges e he).2 hkey
  · obtain ⟨e, he, hkey⟩ := List.mem_map.1 hm
    obtain ⟨key, hmem, rfl⟩ := List.mem_map.1 (Record.mem_ofEntries he)
    exact (hunset key hmem).2 hkey

end EntityGraph
