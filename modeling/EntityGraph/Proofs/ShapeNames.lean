import EntityGraph.Proofs.FinalShapes

/-!
# The names of shapes

The name of a shape is glued together from the names of its entity and field and fixed words, with
nothing between them. So different shapes may share a name, in the three ways of
`ShapeRef.Confusable`, and in no other way (`ShapeRef.name_eq_iff`). The shapes that are reached
from those of the entities, in a registry that was finalized, are all there and have the names that
their references say (`Registry.reached_names`).
-/

namespace EntityGraph

namespace ShapeRef

/-- **Different shapes with one name**: the shape of a reference and the creations of an entity
`Id`; two lists of related documents whose owners and names are the same text when they are written
together; and a list of related documents and an entity that is called as its changes are. -/
inductive Confusable : ShapeRef → ShapeRef → Prop where
  | identifier : Confusable .reference (.add "Id")
  | lists (inUpdate : Bool) {e f e' f' : String}
    (h : e ++ Text.pascalCase f = e' ++ Text.pascalCase f') :
    Confusable (.delta inUpdate e f) (.delta inUpdate e' f')
  | creations (inUpdate : Bool) {e f w : String} (h : e ++ Text.pascalCase f = w ++ "Input") :
    Confusable (.delta inUpdate e f) (.add ("OneToMany" ++ deltaLetter inUpdate ++ w))
  | updates (inUpdate : Bool) {e f w : String}
    (h : e ++ Text.pascalCase f = w ++ "InputForUpdate") :
    Confusable (.delta inUpdate e f) (.update ("OneToMany" ++ deltaLetter inUpdate ++ w))

/-- The name of the changes to a list, with what belongs to the field behind what does not. -/
theorem name_delta (inUpdate : Bool) (e f : String) :
    (delta inUpdate e f).name = "OneToMany" ++ deltaLetter inUpdate ++
      (e ++ Text.pascalCase f) := by
  rw [name, deltaName, String.append_assoc]

theorem Confusable.name_eq {ref ref' : ShapeRef} (h : ref.Confusable ref') :
    ref.name = ref'.name := by
  cases h with
  | identifier => rfl
  | lists inUpdate h => rw [name_delta, name_delta, h]
  | creations inUpdate h => rw [name_delta, h, name, ← String.append_assoc]
  | updates inUpdate h => rw [name_delta, h, name, ← String.append_assoc]

/-- A text that ends in a word whose first letter is not in the beginning of the text: the word
stands behind the beginning. -/
theorem exists_of_append_eq {a b first : String} (word : String) {c : Char} {rest : List Char}
    (hword : word.toList = c :: rest) (hc : c ∉ first.toList) (h : a ++ word = first ++ b) :
    ∃ w, a = first ++ w ∧ b = w ++ word := by
  have hchars := congrArg String.toList h
  rw [String.toList_append, String.toList_append, List.append_eq_append_iff] at hchars
  rcases hchars with ⟨w, hfirst, hrest⟩ | ⟨w, ha, hb⟩
  · cases w with
    | nil =>
      refine ⟨"", ?_, ?_⟩
      · rw [String.append_empty, ← String.toList_inj, hfirst, List.append_nil]
      · rw [String.empty_append, ← String.toList_inj]
        exact hrest.symm
    | cons d w =>
      rw [hword, List.cons_append, List.cons.injEq] at hrest
      exact absurd (hfirst ▸ List.mem_append_right _ (hrest.1 ▸ List.mem_cons_self ..)) hc
  · refine ⟨String.ofList w, ?_, ?_⟩
    · rw [← String.toList_inj, String.toList_append, String.toList_ofList, ha]
    · rw [← String.toList_inj, String.toList_append, String.toList_ofList, hb]

/-- Creations and updates are told apart by their last letters. -/
theorem append_input_ne (e e' : String) : e ++ "Input" ≠ e' ++ "InputForUpdate" := by
  intro h
  have hlast := congrArg (fun t : String => t.toList.getLast?) h
  simp at hlast

/-- The changes to a list are told apart from the shape of a reference by their first letters. -/
theorem name_delta_ne_reference (inUpdate : Bool) (e f : String) :
    (delta inUpdate e f).name ≠ reference.name := by
  intro h
  rw [name_delta] at h
  have hfirst := congrArg (fun t : String => t.toList.head?) h
  cases inUpdate <;> simp [name, deltaLetter] at hfirst

/-- The changes to a list are told apart by what they belong to, and by the texts of owner and
field. -/
theorem of_name_delta {u u' : Bool} {e f e' f' : String}
    (h : (delta u e f).name = (delta u' e' f').name) :
    u = u' ∧ e ++ Text.pascalCase f = e' ++ Text.pascalCase f' := by
  rw [name_delta, name_delta, String.append_assoc, String.append_assoc,
    String.append_right_inj] at h
  have hletter := congrArg (fun t : String => t.toList.head?) h
  have hsame : u = u' := by
    cases u <;> cases u' <;> first | rfl | simp [deltaLetter] at hletter
  subst hsame
  exact ⟨rfl, (String.append_right_inj _).1 h⟩

theorem notMem_beginning (inUpdate : Bool) :
    'I' ∉ ("OneToMany" ++ deltaLetter inUpdate).toList := by
  cases inUpdate <;> decide

/-- Changes with the name of other shapes. -/
theorem confusable_of_name_delta {inUpdate : Bool} {e f : String} {ref : ShapeRef}
    (h : (delta inUpdate e f).name = ref.name) :
    delta inUpdate e f = ref ∨ (delta inUpdate e f).Confusable ref := by
  cases ref with
  | reference => exact absurd h (name_delta_ne_reference inUpdate e f)
  | delta u e' f' =>
    obtain ⟨rfl, htexts⟩ := of_name_delta h
    exact .inr (.lists _ htexts)
  | add e' =>
    rw [name_delta] at h
    obtain ⟨w, rfl, hw⟩ := exists_of_append_eq "Input" rfl (notMem_beginning inUpdate) h.symm
    exact .inr (.creations _ hw)
  | update e' =>
    rw [name_delta] at h
    obtain ⟨w, rfl, hw⟩ :=
      exists_of_append_eq "InputForUpdate" rfl (notMem_beginning inUpdate) h.symm
    exact .inr (.updates _ hw)

/-- **Which shapes have the same name.** -/
theorem name_eq_iff {ref ref' : ShapeRef} :
    ref.name = ref'.name ↔ ref = ref' ∨ ref.Confusable ref' ∨ ref'.Confusable ref := by
  constructor
  · intro h
    have hid : ∀ e, "IdInput" = e ++ "Input" → e = "Id" := fun e he =>
      ((String.append_left_inj "Input").1 (show "Id" ++ "Input" = e ++ "Input" from he)).symm
    cases ref with
    | delta u e f => exact (confusable_of_name_delta h).imp_right .inl
    | reference =>
      cases ref' with
      | delta u e f => exact (confusable_of_name_delta h.symm).imp Eq.symm .inr
      | reference => exact .inl rfl
      | add e =>
        obtain rfl := hid e h
        exact .inr (.inl .identifier)
      | update e => exact absurd h (append_input_ne "Id" e)
    | add e =>
      cases ref' with
      | delta u e' f => exact (confusable_of_name_delta h.symm).imp Eq.symm .inr
      | reference =>
        obtain rfl := hid e h.symm
        exact .inr (.inr .identifier)
      | add e' =>
        obtain rfl := (String.append_left_inj "Input").1 h
        exact .inl rfl
      | update e' => exact absurd h (append_input_ne e e')
    | update e =>
      cases ref' with
      | delta u e' f => exact (confusable_of_name_delta h.symm).imp Eq.symm .inr
      | reference => exact absurd h.symm (append_input_ne "Id" e)
      | add e' => exact absurd h.symm (append_input_ne e' e)
      | update e' =>
        obtain rfl := (String.append_left_inj "InputForUpdate").1 h
        exact .inl rfl
  · rintro (rfl | h | h)
    · rfl
    · exact h.name_eq
    · exact h.name_eq.symm

end ShapeRef

/-! ## Titles -/

/-- **A shape that is what its reference says**: it has the name, and its scalars refer to no
shape. -/
structure ShapeRef.Titles (ref : ShapeRef) (s : InputShape) : Prop where
  name_eq : s.name = ref.name
  scalars : ∀ e ∈ s.fields, e.2.kind = .scalar ∨ e.2.kind = .scalarList →
    ∀ table, e.2.type.shape? table = none

theorem ShapeRef.Titles.close {ref : ShapeRef} {s : InputShape} (h : ref.Titles s) :
    ref.Titles s.close :=
  ⟨h.name_eq, h.scalars⟩

theorem ShapeDraft.shape?_leafType (f : FieldDef) (table : ShapeTable) :
    (leafType f).shape? table = none := by
  unfold leafType
  split <;> rfl

/-- The arguments of scalars refer to no shape. -/
theorem FieldDef.shape?_of_argument {f : FieldDef} {owner : String} {inUpdate : Bool}
    {i : InputField} (h : f.argument owner inUpdate = some i)
    (hk : i.kind = .scalar ∨ i.kind = .scalarList) (table : ShapeTable) :
    i.type.shape? table = none := by
  have hleaf : ∀ {kind}, f.leafArgument kind inUpdate = some i → i.type.shape? table = none := by
    intro kind h
    cases inUpdate with
    | false =>
      obtain ⟨-, h⟩ := Option.ite_none_left_eq_some.1 h
      cases h
      exact ShapeDraft.shape?_leafType f table
    | true =>
      cases h
      exact ShapeDraft.shape?_leafType f table
  unfold argument at h
  split at h
  · exact hleaf h
  · exact hleaf h
  · cases h
    exact ShapeDraft.shape?_leafType f table
  · cases h
    simp at hk
  · obtain ⟨t, -, rfl⟩ := Option.map_eq_some_iff.1 h
    simp at hk
  · obtain ⟨t, -, rfl⟩ := Option.map_eq_some_iff.1 h
    simp at hk
  · cases h
    simp at hk
  · cases h

namespace ShapeDraft

variable {r : Registry} {owner : String} {d d' : ShapeDraft} {f : FieldDef}

/-- **A draft of the shapes of an entity**: both are what their references say. -/
def Titled (owner : String) (d : ShapeDraft) : Prop :=
    ∀ b, (ShapeRef.writing b owner).Titles (d.shape b)

theorem titled_start (owner : String) : (start owner).Titled owner := fun b => by
  cases b <;> exact ⟨rfl, fun e he => absurd he List.not_mem_nil⟩

theorem Titled.put (h : d.Titled owner) {add update : Option InputField}
    (ho : ∀ i, add = some i ∨ update = some i → i.kind = .scalar ∨ i.kind = .scalarList →
      ∀ table, i.type.shape? table = none) : (d.put add update).Titled owner := by
  intro b
  rw [shape_put]
  refine ⟨?_, fun e he => ?_⟩
  · rw [← (h b).name_eq]
    rcases (if b then update else add) with _ | i <;> rfl
  · rcases mem_extend he with he | ⟨i, hi, rfl⟩
    · exact (h b).scalars e he
    · cases b
      · exact ho i (.inl hi)
      · exact ho i (.inr hi)

theorem Titled.addField (h : d.Titled owner)
    (hr : ∀ name d, Record.get? r.descriptors name = some d → d.name = name)
    (hadd : ShapeDraft.addField r owner d f = .ok d') : d'.Titled owner := by
  rcases addField_cases hr hadd with ⟨-, rfl⟩ | ⟨-, rfl⟩
  · exact h
  · exact h.put fun i hi => hi.elim FieldDef.shape?_of_argument FieldDef.shape?_of_argument

/-- Adding fields in order, as far as that goes. -/
theorem Titled.addFields (h : d.Titled owner)
    (hr : ∀ name d, Record.get? r.descriptors name = some d → d.name = name) (hasMachine : Bool)
    (fields : List FieldDef) :
    (ShapeDraft.addFields r owner hasMachine d fields).1.Titled owner := by
  induction fields generalizing d with
  | nil => exact h
  | cons f rest ih =>
    rcases addFields_cases r owner hasMachine d f rest with
      ⟨-, marked, -, heq⟩ | ⟨-, ⟨stop, -, heq⟩ | ⟨d', hadd, heq⟩⟩ <;> rw [heq]
    · exact ih (d := { d with machineOwned := marked }) h
    · exact h
    · exact ih (h.addField hr hadd)

/-- Attaching the lists of related documents. -/
theorem Titled.withDeltas (h : d.Titled owner) : (d.withDeltas owner).Titled owner := by
  rw [withDeltas_eq]
  have hall : ∀ (deferred : List FieldDef) (acc : ShapeDraft), acc.Titled owner →
      (deferred.foldl (attach owner) acc).Titled owner := by
    intro deferred
    induction deferred with
    | nil => exact fun _ h => h
    | cons f rest ih =>
      refine fun acc hacc => ih _ (hacc.put fun i hi hk => ?_)
      rcases hi with hi | hi <;> cases hi <;> simp at hk
  exact hall d.deferred d h

end ShapeDraft

namespace Registry

variable {r r' : Registry}

/-- **Titled registries**: entities are found under their names, and their shapes are what their
references say. -/
structure Titled (r : Registry) : Prop where
  named : ∀ name d, Record.get? r.descriptors name = some d → d.name = name
  titles : ∀ name d p, Record.get? r.descriptors name = some d → d.shapes = some p → ∀ b,
    (ShapeRef.writing b name).Titles (p.shape b)

theorem Titled.change (h : r.Titled) {name : String} {change : Descriptor → Descriptor}
    (hentity : ∀ d, (change d).entity = d.entity)
    (hshapes : ∀ d p, (change d).shapes = some p →
      d.shapes = some p ∨ ∀ b, (ShapeRef.writing b name).Titles (p.shape b)) :
    (r.change name change).Titled where
  named := fun other d' hd' => by
    obtain ⟨d, hd, ⟨rfl, -⟩ | ⟨rfl, -⟩⟩ := exists_of_get?_change hd'
    · exact h.named other d' hd
    · rw [Descriptor.name, hentity d]
      exact h.named other d hd
  titles := fun other d' p hd' hp => by
    obtain ⟨d, hd, ⟨rfl, -⟩ | ⟨rfl, rfl⟩⟩ := exists_of_get?_change hd'
    · exact h.titles other d' p hd hp
    · exact (hshapes d p hp).elim (h.titles name d p hd) id

theorem Titled.add (h : r.Titled) {d : Descriptor} (hd : d.shapes = none) (hr : r.add d = .ok r') :
    r'.Titled := by
  obtain ⟨-, -, rfl⟩ := add_eq_ok hr
  refine ⟨fun name e he => ?_, fun name e p he hp => ?_⟩
  · rw [Record.get?_put] at he
    split at he
    · cases he
      assumption
    · exact h.named name e he
  · rw [Record.get?_put] at he
    split at he
    · cases he
      rw [hd] at hp
      cases hp
    · exact h.titles name e p he hp

theorem draftRules_titled : DraftRules Titled fun name draft => draft.Titled name where
  mark := fun r name owned hr => hr.change (fun _ => rfl) fun d p hp => .inl hp
  draft := fun r name d draft hr hd hadd => by
    have htitled :=
      (ShapeDraft.titled_start name).addFields hr.named d.machine.isSome d.entity.fields
    rw [hadd] at htitled
    exact htitled
  shape := fun r name draft hr hdraft => hr.change (fun _ => rfl) fun d p hp => .inr fun b => by
    cases hp
    cases b
    · exact hdraft false
    · exact hdraft true
  close := fun r name draft hr hdraft => hr.change (fun _ => rfl) fun d p hp => .inr fun b => by
    cases hp
    cases b
    · exact (hdraft.withDeltas false).close
    · exact (hdraft.withDeltas true).close

theorem keeps_titled_finalize : Keeps Titled (fun _ => True) finalize :=
  draftRules_titled.finalize fun _ hr => ⟨hr.named, hr.titles⟩

/-- The shapes of built registries are what their references say. -/
theorem Built.titled (h : Built r) : r.Titled :=
  h.keeps (I := Titled)
    ⟨fun _ _ h => (Option.some_ne_none _ h.symm).elim, fun _ _ _ h =>
    (Option.some_ne_none _ h.symm).elim⟩ (fun hr hd _ hadd => hr.add hd hadd) (fun _ hr =>
      ⟨hr.named, hr.titles⟩) fun _ hr => (keeps_titled_finalize _ hr).1

/-- Whatever is found under a reference is what the reference says. -/
theorem Titled.titles_shape? (h : r.Titled) {ref : ShapeRef} {s : InputShape}
    (hs : r.shape? ref = some s) :
    ref.Titles s := by
  cases shows_of_shape? hs with
  | reference => exact ⟨rfl, fun e he _ table => by rw [List.mem_singleton.1 he]; rfl⟩
  | add hd hp => exact h.titles _ _ _ hd hp false
  | update hd hp => exact h.titles _ _ _ hd hp true
  | delta =>
    refine ⟨rfl, fun e he hk table => ?_⟩
    rcases InputShape.mem_delta he with rfl | rfl | rfl
    · simp at hk
    · simp at hk
    · rfl

/-! ## Reached shapes -/

/-- **The shapes that the shapes of entities lead to**, field by field. -/
inductive Reaches (r : Registry) : ShapeRef → Prop where
  | entity (inUpdate : Bool) {name : String} (h : r.has name = true) :
    Reaches r (.writing inUpdate name)
  | field {ref ref' : ShapeRef} {s : InputShape} {e : String × InputField} (h : Reaches r ref)
      (hs : r.shape? ref = some s) (he : e ∈ s.fields) (ht : e.2.type = .shape ref') :
      Reaches r ref'

/-- In a complete registry there is a shape for whatever is reached. -/
theorem Reaches.exists_shape {ref : ShapeRef} (h : r.Reaches ref) (hcomplete : r.Complete)
    (hshaped : r.Shaped) (htitled : r.Titled) : ∃ s, r.shape? ref = some s := by
  induction h with
  | entity inUpdate h =>
    obtain ⟨d, hd⟩ := Option.isSome_iff_exists.1 h
    cases inUpdate with
    | false => exact hcomplete.exists_shape hd (.inl rfl)
    | true => exact hcomplete.exists_shape hd (.inr rfl)
  | @field ref ref' s e _ hs he ht _ =>
    have hfound : ∀ {ref s}, e.2.type = .shape ref ∧ r.shape? ref = some s →
        ∃ s, r.shape? ref' = some s := by
      rintro ref s ⟨htype, hs⟩
      obtain rfl := InputType.shape.inj (htype.symm.trans ht)
      exact ⟨s, hs⟩
    have hscalar : ¬ (e.2.kind = .scalar ∨ e.2.kind = .scalarList) := fun hk => by
      have hnone := (htitled.titles_shape? hs).scalars e he hk fun _ => some InputShape.reference
      rw [ht] at hnone
      cases hnone
    have hcheck := hcomplete.closed hshaped ref s hs e he
    unfold InputField.Checkable at hcheck
    split at hcheck
    · exact absurd (.inl ‹_›) hscalar
    · exact absurd (.inr ‹_›) hscalar
    · obtain ⟨_, htype⟩ := hcheck
      rw [ht] at htype
      cases htype
    · obtain ⟨_, _, h⟩ := hcheck
      exact hfound h

/-- With the shapes that finalizing gives, whatever the argument of a field refers to is reached. -/
theorem Settled.reaches_argument (h : r.Settled) (hcomplete : r.Complete) {d : Descriptor}
    (hd : Record.get? r.descriptors d.name = some d) {f : FieldDef} (hf : f ∈ d.entity.fields)
    (ht : f.TakesArguments d.machine.isSome) {inUpdate : Bool} {i : InputField}
    (hi : f.argument d.name inUpdate = some i) {ref : ShapeRef} (href : i.type = .shape ref) :
    r.Reaches ref := by
  obtain ⟨p, hp⟩ := Option.isSome_iff_exists.1 (hcomplete.shaped d.name d hd)
  obtain rfl := h d.name d p hd hp
  have hs : r.shape? (.writing inUpdate d.name) =
      some (d.entity.writeShape d.machine.isSome inUpdate) := by
    cases inUpdate <;> simp [ShapeRef.writing, shape?, hd, hp, Entity.writeShapes]
  have hinput : f ∈ d.entity.inputs d.machine.isSome := by
    rcases hlist : f.isReferencedList with _ | _
    · exact List.mem_append_left _ (List.mem_filter.2 ⟨hf, by rw [decide_eq_true ht, hlist]; rfl⟩)
    · exact List.mem_append_right _ (List.mem_filter.2 ⟨hf, by rw [decide_eq_true ht, hlist]; rfl⟩)
  have hmem : (f.name, i) ∈ (d.entity.writeShape d.machine.isSome inUpdate).fields :=
    List.mem_filterMap.2 ⟨f,
      hinput, by rw [show f.argument d.entity.name inUpdate = some i from hi]; rfl⟩
  exact .field (.entity inUpdate (Option.isSome_iff_exists.2 ⟨d, hd⟩)) hs hmem href

/-- What is reached is there, and has the name that its reference says. -/
theorem Reaches.exists_named {ref : ShapeRef} (h : r.Reaches ref) (hr : r.Built)
    (hdone : r.finalized = true) :
    ∃ s, r.shape? ref = some s ∧ s.name = ref.name := by
  obtain ⟨s, hs⟩ := h.exists_shape (hr.complete hdone) hr.shaped hr.titled
  exact ⟨s, hs, (hr.titled.titles_shape? hs).name_eq⟩

/-- Two different shapes that are reached and have one name. -/
def SharesName (r : Registry) (ref ref' : ShapeRef) : Prop :=
  ref ≠ ref' ∧ r.Reaches ref ∧ r.Reaches ref' ∧
    ∃ s s', r.shape? ref = some s ∧ r.shape? ref' = some s' ∧ s.name = s'.name

theorem Reaches.sharesName {ref ref' : ShapeRef} (h : r.Reaches ref) (h' : r.Reaches ref')
    (hr : r.Built) (hdone : r.finalized = true) (hne : ref ≠ ref') (hname : ref.name = ref'.name) :
    r.SharesName ref ref' := by
  obtain ⟨s, hs, hn⟩ := h.exists_named hr hdone
  obtain ⟨s', hs', hn'⟩ := h'.exists_named hr hdone
  exact ⟨hne, h, h', s, s', hs, hs', hn.trans (hname.trans hn'.symm)⟩

/-- **The names of reached shapes.** In a registry that was finalized, every reference that is
reached has a shape, which has the name of the reference. Two of them have one name only if they are
confusable; lists of related documents that are called alike in two entities never are. -/
theorem reached_names (hr : r.Built) (hrun : Registry.finalize.run.run r = (.ok (), r')) :
    (∀ ref, r'.Reaches ref → ∃ s, r'.shape? ref = some s ∧ s.name = ref.name) ∧
    (∀ ref ref' s s', r'.shape? ref = some s → r'.shape? ref' = some s' →
      (s.name = s'.name ↔ ref = ref' ∨ ref.Confusable ref' ∨ ref'.Confusable ref)) ∧
    ∀ inUpdate e e' f, (ShapeRef.delta inUpdate e f).name = (ShapeRef.delta inUpdate e' f).name →
      e = e' := by
  have hbuilt : r'.Built := by
    have h := hr.finalize
    rwa [hrun] at h
  refine ⟨fun ref h => h.exists_named hbuilt (finalized_of_finalize hrun),
    fun ref ref' s s' hs hs' => ?_, fun inUpdate e e' f h => ?_⟩
  · rw [(hbuilt.titled.titles_shape? hs).name_eq, (hbuilt.titled.titles_shape? hs').name_eq]
    exact ShapeRef.name_eq_iff
  · obtain ⟨-, htexts⟩ := ShapeRef.of_name_delta h
    exact (String.append_left_inj _).1 htexts

end Registry

/-! ## Orders -/

/-- A list of related items. -/
def itemList (name : String) : FieldDef :=
  ⟨name, .entity "Item", true, true, false, false, some ⟨false, "holder", .null⟩, .null⟩

/-- A reference to an item. -/
def itemReference (name : String) : FieldDef :=
  ⟨name, .entity "Item", false, true, false, false, some ⟨false, name, .null⟩, .null⟩

/-- Orders have items in a list, in the lines and as an extra, and the lines have items too. -/
def orderEntities : List Entity :=
  [⟨"Item", [], .null, List.nodup_nil⟩,
    ⟨"Order", [itemList "line_items", itemReference "extra"], .null, by decide⟩,
    ⟨"OrderLine", [itemList "items", itemList "input"], .null, by decide⟩,
    ⟨"OneToManyAOrderLine", [], .null, List.nodup_nil⟩,
    ⟨"Id", [], .null, List.nodup_nil⟩]

/-- The registry of some entities. -/
def filed (entities : List Entity) : Registry :=
  ⟨entities.map fun e => (e.name,
    ⟨e, e.name, some e.name, some (e.name ++ "s"), none, true, none, []⟩), [], false⟩

/-- The finalized registry of orders. -/
def ordering : Registry := (Registry.finalize.run.run (filed orderEntities)).2

theorem orderEntities_built : (filed orderEntities).Built := by
  have hconnect : ∀ n : Fin 5, (filed (orderEntities.take n)).connect orderEntities[n]
      ⟨none, some orderEntities[n].name, none, none⟩ = .ok (filed (orderEntities.take (n + 1))) :=
      fun n =>
    match n with
    | 0 | 1 | 2 | 3 | 4 => rfl
  exact .connect (.connect (.connect
    (.connect (.connect .empty (hconnect 0)) (hconnect 1)) (hconnect 2)) (hconnect 3)) (hconnect 4)

theorem finalize_orderEntities :
    Registry.finalize.run.run (filed orderEntities) = (.ok (), ordering) := rfl

theorem ordering_settled : ordering.Settled := by
  refine Registry.Settled.finalize (fun name d p hd hp => ?_) orderEntities_built.shaped.named
    finalize_orderEntities
  obtain ⟨e, -, he⟩ := List.mem_map.1 (Record.mem_of_get?_eq_some hd)
  cases he
  cases hp

theorem ordering_finalized : ordering.finalized = true :=
    Registry.finalized_of_finalize finalize_orderEntities

/-- The entities are found with their fields. -/
theorem exists_of_mem_orderEntities {e : Entity} (he : e ∈ orderEntities) :
    ∃ d, Record.get? ordering.descriptors e.name = some d ∧ d.entity = e ∧
      d.machine.isSome = false := by
  have halike := (Registry.keeps_finalize _ ⟨fun _ => rfl, orderEntities_built.shaped⟩).1.1 e.name
  have hget : ∃ d, Record.get? (filed orderEntities).descriptors e.name = some d ∧ d.entity = e ∧
      d.machine = none := by
    simp only [orderEntities, List.mem_cons, List.not_mem_nil, or_false] at he
    rcases he with rfl | rfl | rfl | rfl | rfl <;> exact ⟨_, rfl, rfl, rfl⟩
  obtain ⟨d, hd, hentity, hmachine⟩ := hget
  rw [hd, Option.map_some, hentity, hmachine] at halike
  obtain ⟨d', hd', hpair⟩ := Option.map_eq_some_iff.1 halike
  exact ⟨d', hd', (Prod.mk.inj hpair).1, (Prod.mk.inj hpair).2⟩

/-- What the arguments of orders and their lines refer to is reached. -/
theorem reaches_ordering {e : Entity} (he : e ∈ orderEntities) {f : FieldDef} (hf : f ∈ e.fields)
    (hopen : f.readOnly = false) {inUpdate : Bool} {i : InputField}
    (hi : f.argument e.name inUpdate = some i) {ref : ShapeRef} (href : i.type = .shape ref) :
    ordering.Reaches ref := by
  obtain ⟨d, hd, rfl, hmachine⟩ := exists_of_mem_orderEntities he
  exact ordering_settled.reaches_argument
    (orderEntities_built.finalize.complete ordering_finalized) hd hf ⟨hopen, fun h =>
    Bool.false_ne_true (hmachine.symm.trans h.1)⟩ hi href

/-- The lists of an order line are reached. -/
theorem reaches_ordering_line {name : String} (hname : name = "items" ∨ name = "input") :
    ordering.Reaches (.delta false "OrderLine" name) := by
  refine reaches_ordering (e := ⟨"OrderLine", [itemList "items", itemList "input"],
    .null, by decide⟩) (f := itemList name) (by simp [orderEntities]) ?_ rfl rfl rfl
  rcases hname with rfl | rfl
  · exact .head _
  · exact .tail _ (.head _)

/-- The items and the input of an order line have names of their own. -/
theorem ordering_names_apart : (filed orderEntities).Built ∧
    Registry.finalize.run.run (filed orderEntities) = (.ok (), ordering) ∧
    ∃ s s', ordering.shape? (.delta false "OrderLine" "items") = some s ∧
      ordering.shape? (.delta false "OrderLine" "input") = some s' ∧ s.name ≠ s'.name := by
  obtain ⟨hnamed, hnames, -⟩ := Registry.reached_names orderEntities_built finalize_orderEntities
  obtain ⟨s, hs, -⟩ := hnamed _ (reaches_ordering_line (.inl rfl))
  obtain ⟨s', hs', -⟩ := hnamed _ (reaches_ordering_line (.inr rfl))
  refine ⟨orderEntities_built, finalize_orderEntities, s, s', hs, hs', fun h => ?_⟩
  rcases (hnames _ _ s s' hs hs').1 h with href | h | h
  · exact absurd href (by decide)
  · cases h with
    | lists _ htexts => exact absurd htexts (by decide)
  · cases h with
    | lists _ htexts => exact absurd htexts (by decide)

/-- What an order refers to. -/
theorem reaches_ordering_order {f : FieldDef}
    (hf : f = itemList "line_items" ∨ f = itemReference "extra") {i : InputField}
    (hi : f.argument "Order" false = some i) {ref : ShapeRef} (href : i.type = .shape ref) :
    ordering.Reaches ref := by
  refine reaches_ordering (e := ⟨"Order", [itemList "line_items", itemReference "extra"],
    .null, by decide⟩) (f := f) (by simp [orderEntities]) (List.mem_pair.2 hf) ?_ hi href
  rcases hf with rfl | rfl <;> rfl

/-- **Different shapes of one name.** The items of an order, which are kept by line, are called as
those of the order's lines. The input of an order line is called as the creations of another entity,
and the creations of an entity `Id` as the shape of every reference. -/
theorem reached_names_repeat :
    ∃ r r' : Registry, r.Built ∧ Registry.finalize.run.run r = (.ok (), r') ∧
    r'.SharesName (.delta false "Order" "line_items") (.delta false "OrderLine" "items") ∧
    r'.SharesName (.delta false "OrderLine" "input") (.add "OneToManyAOrderLine") ∧
    r'.SharesName .reference (.add "Id") := by
  have hbuilt := orderEntities_built.finalize
  have hitems : ordering.Reaches (.delta false "Order" "line_items") :=
    reaches_ordering_order (.inl rfl) rfl rfl
  have hextra : ordering.Reaches .reference := reaches_ordering_order (.inr rfl) rfl rfl
  have hlineItems := reaches_ordering_line (.inl rfl)
  have hlineInput := reaches_ordering_line (.inr rfl)
  refine ⟨_, _, orderEntities_built, finalize_orderEntities, ?_, ?_, ?_⟩
  · exact hitems.sharesName hlineItems hbuilt ordering_finalized (by decide) rfl
  · exact hlineInput.sharesName (.entity false rfl) hbuilt ordering_finalized (by decide) rfl
  · exact hextra.sharesName (.entity false rfl) hbuilt ordering_finalized (by decide) rfl

end EntityGraph
