import EntityGraph.Proofs.Completion

/-!
# The arguments of an entity

Which argument a field has in the shape of creations, and which in that of updates, is settled by
the field itself (`FieldDef.argument`). A draft whose fields were all added has exactly these, but
for the lists of related documents, which come last (`ShapeDraft.Offers`,
`ShapeDraft.get?_withDeltas`). So the shapes that a registry shows at any time offer them
(`Registry.Built.offering`).
-/

namespace EntityGraph

/-- The shape that creations or updates of an entity go by. -/
def ShapeRef.writing : Bool → String → ShapeRef
  | false, e => .add e
  | true, e => .update e

/-- The shape of creations or of updates. -/
def ShapePair.shape (p : ShapePair) : Bool → InputShape
  | false => p.add
  | true => p.update

namespace FieldDef

/-- The argument of a field of a single scalar or member. Identifiers are not given on creation, and
are asked for on update. -/
def leafArgument (f : FieldDef) (kind : InputKind) : Bool → Option InputField
  | false =>
    if f.isIdentifier then none else
      some ⟨f.name, kind, ShapeDraft.leafType f, f.nullable, f.description⟩
  | true =>
    some ⟨f.name, kind, ShapeDraft.leafType f, !(f.isIdentifier || f.isIdTyped), f.description⟩

/-- **The argument of a field**, in the shape of creations or of updates of its owner. -/
def argument (f : FieldDef) (owner : String) (inUpdate : Bool) : Option InputField :=
  match f.kind with
  | .ok .scalar => f.leafArgument .scalar inUpdate
  | .ok .enumeration => f.leafArgument .enumeration inUpdate
  | .ok .scalarList =>
    some ⟨f.name, .scalarList, ShapeDraft.leafType f, inUpdate || f.nullable, f.description⟩
  | .ok .referencedObject =>
    some ⟨f.name, .id, .shape .reference, inUpdate || f.nullable, f.description⟩
  | .ok .embeddedObject =>
    f.target.map fun t => ⟨f.name, .object, .shape (.writing inUpdate t), true, f.description⟩
  | .ok .embeddedList =>
    f.target.map fun t => ⟨f.name, .objectList, .shape (.writing inUpdate t), true, f.description⟩
  | .ok .referencedList =>
    some ⟨f.name, .delta, .shape (.delta inUpdate owner f.name), true, f.description⟩
  | .error _ => none

/-- Is the field a list of related documents? Its argument comes last. -/
def Links (f : FieldDef) : Prop := f.kind = .ok .referencedList

variable {f : FieldDef} {owner : String} {inUpdate : Bool} {i : InputField}

theorem name_of_leafArgument {kind : InputKind} (h : f.leafArgument kind inUpdate = some i) :
    i.name = f.name := by
  cases inUpdate with
  | false =>
    obtain ⟨-, h⟩ := Option.ite_none_left_eq_some.1 h
    cases h
    rfl
  | true =>
    cases h
    rfl

/-- The argument of a field has its name. -/
theorem name_of_argument (h : f.argument owner inUpdate = some i) : i.name = f.name := by
  unfold argument at h
  split at h
  · exact name_of_leafArgument h
  · exact name_of_leafArgument h
  · cases h
    rfl
  · cases h
    rfl
  · obtain ⟨t, -, rfl⟩ := Option.map_eq_some_iff.1 h
    rfl
  · obtain ⟨t, -, rfl⟩ := Option.map_eq_some_iff.1 h
    rfl
  · cases h
    rfl
  · cases h

theorem argument_of_links (h : f.Links) : f.argument owner inUpdate =
    some ⟨f.name, .delta, .shape (.delta inUpdate owner f.name), true, f.description⟩ := by
  unfold Links at h
  rw [argument, h]

end FieldDef

/-! ## Drafts -/

namespace ShapeDraft

variable {r : Registry} {owner : String} {hasMachine : Bool} {fields : List FieldDef}
  {d d' : ShapeDraft} {f : FieldDef}

/-- The draft of the shape of creations or of updates. -/
def shape (d : ShapeDraft) : Bool → InputShape
  | false => d.add
  | true => d.update

theorem shape_put (add update : Option InputField) (b : Bool) :
    (d.put add update).shape b = extend (d.shape b) (if b then update else add) := by
  cases b <;> rfl

/-- What is found in a shape that a field was added to. -/
theorem get?_extend {s : InputShape} {o : Option InputField} {name : String}
    (ho : ∀ i, o = some i → i.name = name) (other : String) :
    Record.get? (extend s o).fields other =
      if name = other then o.or (Record.get? s.fields other) else Record.get? s.fields other := by
  cases o with
  | none =>
    rw [Option.none_or, ite_self]
    rfl
  | some i =>
    obtain rfl := ho i rfl
    rw [extend, Record.get?_put, Option.some_or]

/-- **Adding a field** puts its argument into both shapes, or puts a list of related documents
off. -/
theorem addField_cases (hr : ∀ name d, Record.get? r.descriptors name = some d → d.name = name)
    (h : addField r owner d f = .ok d') :
    (f.Links ∧ d' = { d with deferred := d.deferred ++ [f] }) ∨
      ¬ f.Links ∧ d' = d.put (f.argument owner false) (f.argument owner true) := by
  unfold addField at h
  unfold FieldDef.Links FieldDef.argument
  rcases hk : f.kind with e | kind
  · rw [hk] at h
    cases h
  rw [hk] at h
  cases kind with
  | scalar =>
    cases h
    exact .inr ⟨by simp, rfl⟩
  | enumeration =>
    cases h
    exact .inr ⟨by simp, rfl⟩
  | scalarList =>
    cases h
    exact .inr ⟨by simp, rfl⟩
  | referencedObject =>
    cases h
    exact .inr ⟨by simp, rfl⟩
  | embeddedObject =>
    dsimp only at h
    rcases htarget : embeddedTarget r owner f with stop | target
    · rw [htarget] at h
      cases h
    · rw [htarget] at h
      cases h
      rw [target_of_embeddedTarget hr htarget]
      exact .inr ⟨by simp, rfl⟩
  | embeddedList =>
    dsimp only at h
    rcases htarget : embeddedTarget r owner f with stop | target
    · rw [htarget] at h
      cases h
    · rw [htarget] at h
      cases h
      rw [target_of_embeddedTarget hr htarget]
      exact .inr ⟨by simp, rfl⟩
  | referencedList =>
    dsimp only at h
    split at h
    · cases h
    · cases h
      exact .inl ⟨rfl, rfl⟩

/-- **A draft that offers** the arguments of its fields. It has those of the lists of related
documents put off. -/
structure Offers (owner : String) (hasMachine : Bool) (fields : List FieldDef)
    (d : ShapeDraft) : Prop where
  arguments : ∀ f ∈ fields, f.TakesArguments hasMachine → ¬ f.Links → ∀ inUpdate,
    Record.get? (d.shape inUpdate).fields f.name = f.argument owner inUpdate
  later : ∀ f ∈ fields, f.TakesArguments hasMachine → f.Links → f ∈ d.deferred

/-- A draft has no argument under other names than those of its fields. -/
theorem Drawn.get?_eq_none (h : d.Drawn owner hasMachine fields) {name : String}
    (hname : name ∉ fields.map FieldDef.name) (b : Bool) :
    Record.get? (d.shape b).fields name = none := by
  rw [Option.eq_none_iff_forall_ne_some]
  intro i hi
  have hmem := Record.mem_of_get?_eq_some hi
  obtain ⟨f, hf, hfn, -⟩ :=
    h.offered (name, i) (by cases b <;> simp [shape] at hmem <;> simp [hmem])
  exact hname (List.mem_map.2 ⟨f, hf, hfn⟩)

theorem Drawn.append (h : d.Drawn owner hasMachine fields) (more : List FieldDef) :
    d.Drawn owner hasMachine (fields ++ more) where
  offered := fun e he => by
    obtain ⟨f, hf, hoffer⟩ := h.offered e he
    exact ⟨f, List.mem_append_left _ hf, hoffer⟩
  deferred := fun f hf => (h.deferred f hf).imp_left (List.mem_append_left _)

/-- A field that is passed over. -/
theorem Offers.skip (h : d.Offers owner hasMachine fields) (hf : ¬ f.TakesArguments hasMachine)
    (hadd : d'.add = d.add) (hupdate : d'.update = d.update)
    (hdeferred : d'.deferred = d.deferred) :
    d'.Offers owner hasMachine (fields ++ [f]) where
  arguments := fun g hg ht hlink b => by
    have hsame : d'.shape b = d.shape b := by cases b <;> assumption
    rcases List.mem_append.1 hg with hg | hg
    · rw [hsame]
      exact h.arguments g hg ht hlink b
    · obtain rfl := List.mem_singleton.1 hg
      exact absurd ht hf
  later := fun g hg ht hlink => by
    rcases List.mem_append.1 hg with hg | hg
    · rw [hdeferred]
      exact h.later g hg ht hlink
    · obtain rfl := List.mem_singleton.1 hg
      exact absurd ht hf

/-- A field whose argument is added. -/
theorem Offers.addField (h : d.Offers owner hasMachine fields)
    (hdrawn : d.Drawn owner hasMachine fields)
    (hr : ∀ name d, Record.get? r.descriptors name = some d → d.name = name)
    (hfresh : f.name ∉ fields.map FieldDef.name) (hd : ShapeDraft.addField r owner d f = .ok d') :
    d'.Offers owner hasMachine (fields ++ [f]) := by
  rcases addField_cases hr hd with ⟨hlink, rfl⟩ | ⟨hlink, rfl⟩
  · refine ⟨fun g hg ht hg' b => ?_, fun g hg ht hg' => ?_⟩
    · have hsame : ({ d with deferred := d.deferred ++ [f] } : ShapeDraft).shape b = d.shape b := by
        cases b <;> rfl
      rcases List.mem_append.1 hg with hg | hg
      · rw [hsame]
        exact h.arguments g hg ht hg' b
      · obtain rfl := List.mem_singleton.1 hg
        exact absurd hlink hg'
    · rcases List.mem_append.1 hg with hg | hg
      · exact List.mem_append_left _ (h.later g hg ht hg')
      · exact List.mem_append_right _ hg
  · have hget :
      ∀ b other,
      Record.get? ((d.put (f.argument owner false) (f.argument owner true)).shape b).fields
        other = if f.name = other then
        (f.argument owner b).or (Record.get? (d.shape b).fields other)
          else Record.get? (d.shape b).fields other := by
      intro b other
      rw [shape_put, ← get?_extend (o := f.argument owner b) fun i hi =>
        FieldDef.name_of_argument hi]
      cases b <;> rfl
    refine ⟨fun g hg ht hg' b => ?_, fun g hg ht hg' => ?_⟩
    · rcases List.mem_append.1 hg with hg | hg
      · have hne : f.name ≠ g.name := fun heq => hfresh (List.mem_map.2 ⟨g, hg, heq.symm⟩)
        rw [hget, if_neg hne]
        exact h.arguments g hg ht hg' b
      · obtain rfl := List.mem_singleton.1 hg
        rw [hget, if_pos rfl, hdrawn.get?_eq_none hfresh, Option.or_none]
    · rcases List.mem_append.1 hg with hg | hg
      · exact h.later g hg ht hg'
      · obtain rfl := List.mem_singleton.1 hg
        exact absurd hg' hlink

/-- Fields whose names differ: the next has none of the names before. -/
theorem name_notMem_of_nodup {f : FieldDef} {rest : List FieldDef}
    (h : ((fields ++ [f] ++ rest).map FieldDef.name).Nodup) :
    f.name ∉ fields.map FieldDef.name := by
  rw [List.map_append, List.map_append] at h
  have hapart := (List.nodup_append.1 h.of_append_left).2.2
  exact fun hmem => hapart _ hmem f.name (List.mem_singleton_self _) rfl

/-- **Adding all fields** gives a draft that offers their arguments. -/
theorem Offers.addFields (hr : ∀ name d, Record.get? r.descriptors name = some d → d.name = name)
    {rest : List FieldDef} (h : d.Offers owner hasMachine fields)
    (hdrawn : d.Drawn owner hasMachine fields) (hnodup : ((fields ++ rest).map FieldDef.name).Nodup)
    (hd : ShapeDraft.addFields r owner hasMachine d rest = (d', none)) :
    d'.Offers owner hasMachine (fields ++ rest) := by
  induction rest generalizing d fields with
  | nil =>
    cases hd
    rwa [List.append_nil]
  | cons f rest ih =>
    rw [List.append_cons] at hnodup ⊢
    rcases addFields_cases r owner hasMachine d f rest with
      ⟨hskip, marked, -, heq⟩ | ⟨ht, ⟨stop, -, heq⟩ | ⟨d₁, hadd, heq⟩⟩ <;> rw [heq] at hd
    · refine ih (d := { d with machineOwned := marked }) (h.skip hskip rfl rfl rfl) ?_ hnodup hd
      exact ⟨(hdrawn.append [f]).offered, (hdrawn.append [f]).deferred⟩
    · cases hd
    · exact ih (h.addField hdrawn hr (name_notMem_of_nodup hnodup) hadd)
        ((hdrawn.append [f]).addField hr
        (List.mem_append_right _ (List.mem_singleton_self _)) ht hadd) hnodup hd

/-! ### Lists of related documents -/

/-- Attach the argument of one list of related documents. -/
def attach (owner : String) (d : ShapeDraft) (f : FieldDef) : ShapeDraft :=
  d.put (some ⟨f.name, .delta, .shape (.delta false owner f.name), true, f.description⟩)
    (some ⟨f.name, .delta, .shape (.delta true owner f.name), true, f.description⟩)

theorem withDeltas_eq (owner : String) (d : ShapeDraft) :
    d.withDeltas owner = d.deferred.foldl (attach owner) d := rfl

theorem get?_attach (owner : String) (d : ShapeDraft) (f : FieldDef) (b : Bool) (other : String) :
    Record.get? ((attach owner d f).shape b).fields other =
      if f.name = other then some ⟨f.name, .delta, .shape (.delta b owner f.name), true,
        f.description⟩
      else Record.get? (d.shape b).fields other := by
  cases b <;> exact Record.get?_put ..

theorem get?_foldl_attach_of_notMem {deferred : List FieldDef} {name : String}
    (hname : name ∉ deferred.map FieldDef.name) (d : ShapeDraft) (b : Bool) :
    Record.get? ((deferred.foldl (attach owner) d).shape b).fields name =
      Record.get? (d.shape b).fields name := by
  induction deferred generalizing d with
  | nil => rfl
  | cons g rest ih =>
    rw [List.map_cons, List.mem_cons, not_or] at hname
    rw [List.foldl_cons, ih hname.2, get?_attach, if_neg (Ne.symm hname.1)]

theorem get?_foldl_attach_of_mem {deferred : List FieldDef} (hf : f ∈ deferred)
    (honly : ∀ g ∈ deferred, g.name = f.name → g = f) (d : ShapeDraft) (b : Bool) :
    Record.get? ((deferred.foldl (attach owner) d).shape b).fields f.name =
      some ⟨f.name, .delta, .shape (.delta b owner f.name), true, f.description⟩ := by
  induction deferred generalizing d with
  | nil => cases hf
  | cons g rest ih =>
    rw [List.foldl_cons]
    by_cases hrest : f ∈ rest
    · exact ih hrest (fun g hg => honly g (List.mem_cons_of_mem _ hg)) _
    · obtain rfl := (List.mem_cons.1 hf).resolve_right hrest
      have hname : f.name ∉ rest.map FieldDef.name := fun hmem => by
        obtain ⟨g, hg, hgn⟩ := List.mem_map.1 hmem
        exact hrest (honly g (List.mem_cons_of_mem _ hg) hgn ▸ hg)
      rw [get?_foldl_attach_of_notMem hname, get?_attach, if_pos rfl]

/-- **With the lists of related documents** a draft has the arguments of all fields. -/
theorem Offers.get?_withDeltas (h : d.Offers owner hasMachine fields)
    (hdrawn : d.Drawn owner hasMachine fields) (hnodup : (fields.map FieldDef.name).Nodup)
    (hf : f ∈ fields) (ht : f.TakesArguments hasMachine) (b : Bool) :
    Record.get? ((d.withDeltas owner).shape b).fields f.name = f.argument owner b := by
  have honly : ∀ g ∈ d.deferred, g.name = f.name → g = f := fun g hg hname =>
    List.inj_on_of_nodup_map hnodup (hdrawn.deferred g hg).1 hf hname
  rw [withDeltas_eq]
  by_cases hlink : f.Links
  · rw [get?_foldl_attach_of_mem (h.later f hf ht hlink) honly, FieldDef.argument_of_links hlink]
  · have hname : f.name ∉ d.deferred.map FieldDef.name := fun hmem => by
      obtain ⟨g, hg, hgn⟩ := List.mem_map.1 hmem
      exact hlink (honly g hg hgn ▸ (hdrawn.deferred g hg).2.2)
    rw [get?_foldl_attach_of_notMem hname]
    exact h.arguments f hf ht hlink b

end ShapeDraft

/-! ## Registries -/

/-- **Shapes that offer** the arguments of the fields, but perhaps for the lists of related
documents. -/
def Descriptor.Offers (d : Descriptor) (p : ShapePair) : Prop :=
  ∀ f ∈ d.entity.fields, f.TakesArguments d.machine.isSome → ¬ f.Links → ∀ inUpdate,
    Record.get? (p.shape inUpdate).fields f.name = f.argument d.name inUpdate

namespace Registry

/-- The shapes of all entities offer the arguments of the fields. -/
def Offering (r : Registry) : Prop :=
  ∀ name d p, Record.get? r.descriptors name = some d → d.shapes = some p → d.Offers p

/-- A draft that offers the arguments of the entity of a name. -/
def Equips (r₀ : Registry) (name : String) (draft : ShapeDraft) : Prop :=
  ∀ d, Record.get? r₀.descriptors name = some d →
    draft.Drawn name d.machine.isSome d.entity.fields ∧
    draft.Offers name d.machine.isSome d.entity.fields

theorem equips_addFields {r₀ r : Registry} (hr : KeptFrom r₀ r) {name : String} {d : Descriptor}
    {draft : ShapeDraft} (hd : Record.get? r.descriptors name = some d)
    (h : ShapeDraft.addFields r name d.machine.isSome (ShapeDraft.start name) d.entity.fields =
      (draft, none)) :
    Equips r₀ name draft := by
  intro d₀ hd₀
  refine ⟨draftFor_addFields hr hd h d₀ hd₀, ?_⟩
  obtain ⟨d₁, hd₁, hentity, hmachine⟩ := hr.1.exists_of_get? hd
  obtain rfl : d₁ = d₀ := Option.some.inj (hd₁.symm.trans hd₀)
  rw [hentity, hmachine]
  have hstart : (ShapeDraft.start name).Offers name d.machine.isSome [] :=
    ⟨fun _ hf => absurd hf List.not_mem_nil, fun _ hf => absurd hf List.not_mem_nil⟩
  exact hstart.addFields hr.2.named (ShapeDraft.drawn_start name) d.entity.names_nodup h

/-- Changing an entity, to shapes that offer what they should. -/
theorem Offering.change {r : Registry} (h : r.Offering) {name : String}
    {f : Descriptor → Descriptor} (hf : ∀ d, Record.get? r.descriptors name = some d →
      (f d).entity = d.entity ∧
      (f d).machine = d.machine ∧ ∀ p, (f d).shapes = some p → d.shapes = some p ∨ d.Offers p) :
    (r.change name f).Offering := by
  intro other d' p hd' hp
  rw [get?_change] at hd'
  split at hd'
  · rename_i ho
    obtain ⟨d, hd, rfl⟩ := Option.map_eq_some_iff.1 hd'
    obtain ⟨hentity, hmachine, hshapes⟩ := hf d (ho ▸ hd)
    have hoffers : d.Offers p := (hshapes p hp).elim (h other d p hd) id
    unfold Descriptor.Offers Descriptor.name
    rw [hentity, hmachine]
    exact hoffers
  · exact h other d' p hd' hp

section Finalizing

variable {r₀ r : Registry}

/-- The drafts of entities become shapes that offer the arguments of their fields. -/
theorem Equips.offers {name : String} {draft : ShapeDraft} (h : Equips r₀ name draft)
    (hr : KeptFrom r₀ r) {d : Descriptor} (hd : Record.get? r.descriptors name = some d)
    {p : ShapePair} (hp : ∀ d₀, Record.get? r₀.descriptors name = some d₀ → ∀ f ∈ d₀.entity.fields,
      f.TakesArguments d₀.machine.isSome → ¬ f.Links → ∀ b,
        Record.get? (p.shape b).fields f.name = Record.get? (draft.shape b).fields f.name) :
          d.Offers p := by
  obtain ⟨d₀, hd₀, hentity, hmachine⟩ := hr.1.exists_of_get? hd
  intro f hf ht hlink b
  rw [← hentity] at hf
  rw [← hmachine] at ht
  rw [hp d₀ hd₀ f hf ht hlink b, hr.2.named name d hd]
  exact (h d₀ hd₀).2.arguments f hf ht hlink b

/-- What finalizing keeps, with the arguments that the shapes offer. -/
def KeptOffering (r₀ r : Registry) : Prop := KeptFrom r₀ r ∧ r.Offering

theorem draftRules_offering : DraftRules (KeptOffering r₀) (Equips r₀) where
  mark := fun r name owned hr => ⟨draftRules_kept.mark r name owned hr.1,
    hr.2.change fun _ _ => ⟨rfl, rfl, fun p hp => .inl hp⟩⟩
  draft := fun r name d draft hr hd hadd => equips_addFields hr.1 hd hadd
  shape := fun r name draft hr hequips => by
    refine ⟨draftRules_kept.shape r name draft hr.1 fun d hd => (hequips d hd).1, hr.2.change
      fun d hd => ⟨rfl, rfl, ?_⟩⟩
    rintro p hp
    obtain rfl := Option.some.inj hp
    exact .inr (hequips.offers hr.1 hd fun _ _ _ _ _ _ b => by cases b <;> rfl)
  close := fun r name draft hr hequips => by
    refine ⟨draftRules_kept.close r name draft hr.1 fun d hd => (hequips d hd).1, hr.2.change
      fun d hd => ⟨rfl, rfl, ?_⟩⟩
    rintro p hp
    obtain rfl := Option.some.inj hp
    refine .inr (hequips.offers hr.1 hd fun d₀ hd₀ f hf ht hlink b => ?_)
    obtain ⟨hdrawn, hoffers⟩ := hequips d₀ hd₀
    have hall := hoffers.get?_withDeltas hdrawn d₀.entity.names_nodup hf ht b
    rw [hoffers.arguments f hf ht hlink b, ← hall]
    cases b <;> rfl

theorem keepsOffering_finalize : Keeps (KeptOffering r₀) (fun _ => True) finalize :=
  draftRules_offering.finalize fun _ hr => ⟨⟨hr.1.1, hr.1.2.named, hr.1.2.fits⟩, hr.2⟩

end Finalizing

theorem Offering.add {r r' : Registry} (h : r.Offering) {d : Descriptor} (hd : d.shapes = none)
    (hr : r.add d = .ok r') : r'.Offering := by
  obtain ⟨-, -, rfl⟩ := add_eq_ok hr
  intro name e p he hp
  rw [Record.get?_put] at he
  split at he
  · cases he
    rw [hd] at hp
    cases hp
  · exact h name e p he hp

/-- **Shapes of built registries offer** the arguments of the fields. -/
theorem Built.offering {r : Registry} (h : Built r) : r.Offering :=
  h.keeps (I := Offering) (fun _ _ _ h => (Option.some_ne_none _ h.symm).elim) (fun hr hd _ hadd =>
    hr.add hd hadd) (fun _ hr => hr) fun hbuilt hr =>
      (keepsOffering_finalize _ ⟨⟨fun _ => rfl, hbuilt.shaped⟩, hr⟩).1.2

end Registry

end EntityGraph
