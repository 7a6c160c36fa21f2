import EntityGraph.Proofs.Acyclicity

/-!
# The shapes that finalizing gives

What finalizing gives an entity for its shapes is settled by the entity alone (`Entity.writeShape`):
the arguments of its fields in the order of the fields, and after them the lists of related
documents. A draft whose fields were all added has just these (`ShapeDraft.Drafted`), in whatever
pass and next to whichever other entities that was. So when finalizing succeeds all shapes are the
settled ones (`Registry.Settled`), provided that the shapes from before were.
-/

namespace EntityGraph

instance (f : FieldDef) (hasMachine : Bool) : Decidable (f.TakesArguments hasMachine) :=
  inferInstanceAs (Decidable (_ ∧ _))

namespace FieldDef

/-- Does the shape of creations or of updates ask for the field? Creations do not ask for the
identifier, where it is a single scalar or member. -/
def isAsked (f : FieldDef) (inUpdate : Bool) : Bool :=
  inUpdate || !(f.isIdentifier && (f.kind? == some .scalar || f.kind? == some .enumeration))

variable {f : FieldDef}

theorem isReferencedList_iff : f.isReferencedList = true ↔ f.Links := by
  refine ⟨kind_of_isReferencedList, fun h => ?_⟩
  unfold Links at h
  rw [isReferencedList, kind?, h]
  rfl

end FieldDef

/-- The arguments of fields, in their order. -/
def argumentsOf (owner : String) (inUpdate : Bool) (fields : List FieldDef) :
    List (String × InputField) :=
  fields.filterMap fun f => (f.argument owner inUpdate).map (f.name, ·)

namespace Entity

/-- The fields that take arguments and are no lists of related documents. -/
def plainInputs (hasMachine : Bool) (fields : List FieldDef) : List FieldDef :=
  fields.filter fun f => f.TakesArguments hasMachine && !f.isReferencedList

/-- The lists of related documents that take arguments. -/
def listInputs (hasMachine : Bool) (fields : List FieldDef) : List FieldDef :=
  fields.filter fun f => f.TakesArguments hasMachine && f.isReferencedList

/-- The fields that take arguments: lists of related documents come last. -/
def inputs (e : Entity) (hasMachine : Bool) : List FieldDef :=
  plainInputs hasMachine e.fields ++ listInputs hasMachine e.fields

/-- **The shape of creations or of updates** that an entity is given. -/
def writeShape (e : Entity) (hasMachine inUpdate : Bool) : InputShape :=
  ⟨(ShapeRef.writing inUpdate e.name).name, argumentsOf e.name inUpdate (e.inputs hasMachine), true⟩

/-- Both shapes. -/
def writeShapes (e : Entity) (hasMachine : Bool) : ShapePair :=
  ⟨e.writeShape hasMachine false, e.writeShape hasMachine true⟩

end Entity

/-! ## Names -/

section Names

variable {r : Registry} {f : FieldDef} {owner : String} {inUpdate : Bool}

/-- **Which fields have arguments**: all, but for the identifier in the shape of creations. -/
theorem Registry.Leads.isSome_argument (h : r.Leads f) :
    (f.argument owner inUpdate).isSome = f.isAsked inUpdate := by
  obtain ⟨kind, hk, htarget⟩ := h
  have hkind : f.kind? = some kind := by
    rw [FieldDef.kind?, hk]
    rfl
  unfold FieldDef.argument FieldDef.isAsked
  rw [hk, hkind]
  have hleaf : ∀ input, (f.leafArgument input inUpdate).isSome = (inUpdate || !f.isIdentifier) := by
    intro input
    cases inUpdate
    · rw [FieldDef.leafArgument]
      cases f.isIdentifier <;> rfl
    · rfl
  cases kind with
  | scalar => simpa using hleaf .scalar
  | enumeration => simpa using hleaf .enumeration
  | embeddedObject =>
    obtain ⟨target, t, htarget, -⟩ := htarget rfl
    rw [htarget]
    simp
  | embeddedList =>
    obtain ⟨target, t, htarget, -⟩ := htarget rfl
    rw [htarget]
    simp
  | _ => simp

theorem keys_argumentsOf {fields : List FieldDef} (h : ∀ f ∈ fields, r.Leads f) :
    (argumentsOf owner inUpdate fields).map Prod.fst =
      (fields.filter (·.isAsked inUpdate)).map FieldDef.name := by
  induction fields with
  | nil => rfl
  | cons f rest ih =>
    have hsome : (f.argument owner inUpdate).isSome = f.isAsked inUpdate :=
      (h f (List.mem_cons_self ..)).isSome_argument
    have hrest := ih fun g hg => h g (List.mem_cons_of_mem _ hg)
    unfold argumentsOf at hrest ⊢
    rw [List.filterMap_cons, List.filter_cons, ← hsome]
    rcases f.argument owner inUpdate with _ | i
    · exact hrest
    · exact congrArg (f.name :: ·) hrest

/-- **The names of a shape** are those of the fields that it asks for, and lists of related
documents come last. -/
theorem Entity.keys_writeShape {e : Entity} (h : ∀ f ∈ e.fields, r.Leads f) (hasMachine : Bool) :
    (e.writeShape hasMachine inUpdate).fields.map Prod.fst =
      ((e.inputs hasMachine).filter (·.isAsked inUpdate)).map FieldDef.name := by
  refine keys_argumentsOf (r := r) fun f hf => ?_
  rcases List.mem_append.1 hf with hf | hf
  · exact h f (List.mem_of_mem_filter hf)
  · exact h f (List.mem_of_mem_filter hf)

end Names

/-! ## Drafts -/

namespace ShapeDraft

variable {r : Registry} {owner : String} {hasMachine : Bool} {fields : List FieldDef}
  {d d' : ShapeDraft} {f : FieldDef}

/-- **The draft of some fields**: it has the arguments of these, and the lists of related documents
put off. -/
structure Drafted (owner : String) (hasMachine : Bool) (fields : List FieldDef)
    (d : ShapeDraft) : Prop where
  shape : ∀ b, d.shape b =
    ⟨(ShapeRef.writing b owner).name, argumentsOf owner b (Entity.plainInputs hasMachine fields),
    false⟩
  deferred : d.deferred = Entity.listInputs hasMachine fields

theorem drafted_start : (start owner).Drafted owner hasMachine [] :=
  ⟨fun b => by cases b <;> rfl, rfl⟩

theorem mem_keys_argumentsOf {b : Bool} {name : String}
    (h : name ∈ (argumentsOf owner b fields).map Prod.fst) : name ∈ fields.map FieldDef.name := by
  obtain ⟨e, he, rfl⟩ := List.mem_map.1 h
  obtain ⟨f, hf, hfe⟩ := List.mem_filterMap.1 he
  obtain ⟨i, -, rfl⟩ := Option.map_eq_some_iff.1 hfe
  exact List.mem_map_of_mem hf

/-- A field of a new name comes at the end. -/
theorem extend_of_fresh {s : InputShape} {o : Option InputField} {name : String}
    (ho : ∀ i, o = some i → i.name = name) (hfresh : name ∉ s.fields.map Prod.fst) :
    extend s o = { s with fields := s.fields ++ (o.map (name, ·)).toList } := by
  cases o with
  | none =>
    rw [Option.map_none, Option.toList_none, List.append_nil]
    rfl
  | some i =>
    obtain rfl := ho i rfl
    rcases Record.put_cases s.fields i.name with ⟨-, hput⟩ | ⟨before, old, after, -, heq, -⟩
    · rw [extend, hput]
      rfl
    · refine absurd ?_ hfresh
      rw [heq]
      exact List.mem_map_of_mem (List.mem_append_right _ (List.mem_cons_self ..))

/-- The last of several fields. -/
theorem argumentsOf_concat (fields : List FieldDef) (f : FieldDef) (b : Bool) :
    argumentsOf owner b (fields ++ [f]) =
      argumentsOf owner b fields ++ ((f.argument owner b).map (f.name, ·)).toList := by
  unfold argumentsOf
  rw [List.filterMap_append, List.filterMap_cons, List.filterMap_nil]
  rcases f.argument owner b <;> rfl

/-- A field that takes no arguments changes nothing. -/
theorem Drafted.skip (h : d.Drafted owner hasMachine fields) (hf : ¬ f.TakesArguments hasMachine)
    (hshape : ∀ b, d'.shape b = d.shape b) (hdeferred : d'.deferred = d.deferred) :
    d'.Drafted owner hasMachine (fields ++ [f]) where
  shape := fun b => by
    rw [hshape, h.shape, Entity.plainInputs, Entity.plainInputs, List.filter_append,
      List.filter_singleton]
    simp [hf]
  deferred := by
    rw [hdeferred, h.deferred, Entity.listInputs, Entity.listInputs, List.filter_append,
      List.filter_singleton]
    simp [hf]

/-- **One more field** of the draft. -/
theorem Drafted.addField (h : d.Drafted owner hasMachine fields)
    (hr : ∀ name d, Record.get? r.descriptors name = some d → d.name = name)
    (ht : f.TakesArguments hasMachine) (hfresh : f.name ∉ fields.map FieldDef.name)
    (hd : ShapeDraft.addField r owner d f = .ok d') :
    d'.Drafted owner hasMachine (fields ++ [f]) := by
  rcases ShapeDraft.addField_cases hr hd with ⟨hlink, rfl⟩ | ⟨hlink, rfl⟩
  · have hlist := FieldDef.isReferencedList_iff.2 hlink
    refine ⟨fun b => ?_, ?_⟩
    · have hsame : ({ d with deferred := d.deferred ++ [f] } : ShapeDraft).shape b = d.shape b := by
        cases b <;> rfl
      rw [hsame, h.shape, Entity.plainInputs, Entity.plainInputs, List.filter_append,
        List.filter_singleton]
      simp [hlist]
    · rw [Entity.listInputs, List.filter_append, ← Entity.listInputs, ← h.deferred,
        List.filter_singleton]
      simp [ht, hlist]
  · have hlist : f.isReferencedList = false := Bool.eq_false_iff.2 fun hl =>
      hlink (FieldDef.isReferencedList_iff.1 hl)
    refine ⟨fun b => ?_, ?_⟩
    · have hextend := extend_of_fresh (s := d.shape b) (o := f.argument owner b)
        (fun i hi => FieldDef.name_of_argument hi) fun hmem => by
          rw [h.shape] at hmem
          obtain ⟨g, hg, hname⟩ := List.mem_map.1 (mem_keys_argumentsOf hmem)
          exact hfresh (List.mem_map.2 ⟨g, List.mem_of_mem_filter hg, hname⟩)
      have hinputs : Entity.plainInputs hasMachine (fields ++ [f]) =
          Entity.plainInputs hasMachine fields ++ [f] := by
        rw [Entity.plainInputs, List.filter_append, ← Entity.plainInputs, List.filter_singleton]
        simp [ht, hlist]
      rw [hinputs, argumentsOf_concat, shape_put]
      rw [h.shape] at hextend ⊢
      cases b <;> exact hextend
    · rw [Entity.listInputs, List.filter_append, ← Entity.listInputs, List.filter_singleton]
      simp [hlist, put, h.deferred]

/-- **All fields**: a draft that got through is the one of its fields. -/
theorem Drafted.addFields (hr : ∀ name d, Record.get? r.descriptors name = some d → d.name = name)
    {rest : List FieldDef} (h : d.Drafted owner hasMachine fields)
    (hnodup : ((fields ++ rest).map FieldDef.name).Nodup)
    (hd : ShapeDraft.addFields r owner hasMachine d rest = (d', none)) :
    d'.Drafted owner hasMachine (fields ++ rest) := by
  induction rest generalizing d fields with
  | nil =>
    cases hd
    rwa [List.append_nil]
  | cons f rest ih =>
    rw [List.append_cons] at hnodup ⊢
    rcases addFields_cases r owner hasMachine d f rest with
      ⟨hskip, marked, -, heq⟩ | ⟨ht, ⟨stop, -, heq⟩ | ⟨d₁, hadd, heq⟩⟩ <;> rw [heq] at hd
    · have hmarked : Drafted owner hasMachine (fields ++ [f]) { d with machineOwned := marked } :=
        h.skip hskip (fun b => by cases b <;> rfl) rfl
      exact ih hmarked hnodup hd
    · cases hd
    · exact ih (h.addField hr ht (name_notMem_of_nodup hnodup) hadd) hnodup hd

/-- Attaching lists of related documents of new names puts them at the end. -/
theorem shape_foldl_attach {deferred : List FieldDef} (hlinks : ∀ f ∈ deferred, f.Links)
    (hnodup : (deferred.map FieldDef.name).Nodup) (d : ShapeDraft)
    (hfresh : ∀ b, ∀ f ∈ deferred, f.name ∉ (d.shape b).fields.map Prod.fst) (b : Bool) :
    (deferred.foldl (attach owner) d).shape b =
      { d.shape b with fields := (d.shape b).fields ++ argumentsOf owner b deferred } := by
  induction deferred generalizing d with
  | nil =>
    rw [List.foldl_nil, argumentsOf, List.filterMap_nil, List.append_nil]
  | cons f rest ih =>
    have hargument : f.argument owner b = some ⟨f.name, .delta, .shape (.delta b owner f.name),
        true, f.description⟩ :=
      FieldDef.argument_of_links (hlinks f (List.mem_cons_self ..))
    have hattach : ∀ b, (attach owner d f).shape b =
        { d.shape b with fields := (d.shape b).fields ++
          [(f.name, ⟨f.name, .delta, .shape (.delta b owner f.name), true, f.description⟩)] } := by
      intro b
      have hextend := extend_of_fresh (s := d.shape b)
        (o := some ⟨f.name, .delta, .shape (.delta b owner f.name), true, f.description⟩)
        (fun i hi => by cases hi; rfl) (hfresh b f (List.mem_cons_self ..))
      rw [attach, shape_put]
      cases b <;> exact hextend
    rw [List.map_cons, List.nodup_cons] at hnodup
    rw [List.foldl_cons, ih (fun g hg => hlinks g (List.mem_cons_of_mem _ hg)) hnodup.2, hattach]
    · rw [argumentsOf, argumentsOf, List.filterMap_cons, hargument, List.append_assoc]
      rfl
    · intro b g hg hmem
      rw [hattach, List.map_append, List.mem_append] at hmem
      rcases hmem with hmem | hmem
      · exact hfresh b g (List.mem_cons_of_mem _ hg) hmem
      · exact hnodup.1 (List.mem_map.2 ⟨g, hg, List.mem_singleton.1 hmem⟩)

/-- **With the lists of related documents**, and closed, a draft is the shape of its entity. -/
theorem Drafted.withDeltas {e : Entity} (h : d.Drafted e.name hasMachine e.fields) (b : Bool) :
    ((d.withDeltas e.name).shape b).close = e.writeShape hasMachine b := by
  have hnodup := e.names_nodup
  rw [withDeltas_eq, h.deferred, shape_foldl_attach]
  · rw [h.shape, Entity.writeShape, Entity.inputs, argumentsOf, argumentsOf, argumentsOf,
      List.filterMap_append]
    rfl
  · intro f hf
    rw [Entity.listInputs, List.mem_filter, Bool.and_eq_true] at hf
    exact FieldDef.isReferencedList_iff.1 hf.2.2
  · exact hnodup.sublist (List.filter_sublist.map _)
  · intro b f hf hmem
    rw [h.shape] at hmem
    obtain ⟨g, hg, hname⟩ := List.mem_map.1 (mem_keys_argumentsOf hmem)
    rw [Entity.listInputs, List.mem_filter, Bool.and_eq_true] at hf
    rw [Entity.plainInputs, List.mem_filter, Bool.and_eq_true, Bool.not_eq_true'] at hg
    obtain rfl := List.inj_on_of_nodup_map hnodup hg.1 hf.1 hname
    rw [hf.2.2] at hg
    exact Bool.noConfusion hg.2.2

end ShapeDraft

/-! ## Registries -/

namespace Registry

/-- **Settled registries**: the shapes that are there are the ones that finalizing gives. -/
def Settled (r : Registry) : Prop :=
  ∀ name d p, Record.get? r.descriptors name = some d → d.shapes = some p →
    p = d.entity.writeShapes d.machine.isSome

/-- **Passes under way** from the registry `r₀`: whoever has shapes is done, or had settled ones
before; and what is done are the drafts of all fields. -/
structure Settling (r₀ r : Registry) (done : List (String × ShapeDraft)) : Prop where
  alike : Alike r₀ r
  named : ∀ name d, Record.get? r.descriptors name = some d → d.name = name
  drafted : ∀ e ∈ done, ∀ d, Record.get? r₀.descriptors e.1 = some d →
    e.2.Drafted e.1 d.machine.isSome d.entity.fields
  settled : ∀ name d p, Record.get? r.descriptors name = some d → d.shapes = some p →
    name ∈ done.map Prod.fst ∨ p = d.entity.writeShapes d.machine.isSome

variable {r₀ r r' : Registry} {done : List (String × ShapeDraft)} {name : String}

/-- Changing an entity, without giving it shapes that are not done. -/
theorem Settling.change (h : Settling r₀ r done) {change : Descriptor → Descriptor}
    (hsame : ∀ d, (change d).entity = d.entity ∧ (change d).machine = d.machine)
    (hshapes : ∀ d, (change d).shapes = d.shapes ∨ name ∈ done.map Prod.fst) :
    Settling r₀ (r.change name change) done where
  alike := h.alike.change hsame
  named := fun other d' hd' => by
    obtain ⟨d, hd, ⟨rfl, -⟩ | ⟨rfl, -⟩⟩ := exists_of_get?_change hd'
    · exact h.named other d' hd
    · rw [Descriptor.name, (hsame d).1]
      exact h.named other d hd
  drafted := h.drafted
  settled := fun other d' p hd' hp => by
    obtain ⟨d, hd, ⟨rfl, -⟩ | ⟨rfl, rfl⟩⟩ := exists_of_get?_change hd'
    · exact h.settled other d' p hd hp
    · rcases hshapes d with hkept | hdone
      · rw [(hsame d).1, (hsame d).2]
        exact h.settled name d p hd (hkept ▸ hp)
      · exact .inl hdone

/-- One more entity that is done. -/
theorem Settling.append (h : Settling r₀ r done) {draft : ShapeDraft}
    (hdraft : ∀ d, Record.get? r₀.descriptors name = some d →
      draft.Drafted name d.machine.isSome d.entity.fields) :
    Settling r₀ r (done ++ [(name, draft)]) where
  alike := h.alike
  named := h.named
  drafted := fun e he => by
    rcases List.mem_append.1 he with he | he
    · exact h.drafted e he
    · obtain rfl := List.mem_singleton.1 he
      exact hdraft
  settled := fun other d p hd hp => (h.settled other d p hd hp).imp_left fun hdone => by
    rw [List.map_append]
    exact List.mem_append_left _ hdone

/-- **One entity**: it gets the shapes of all its fields, or waits. -/
theorem Settling.tryDraft {p q : Progress} (h : Settling r₀ r p.done)
    (hrun : (Registry.tryDraft p name).run.run r = (.ok q, r')) : Settling r₀ r' q.done := by
  rcases run_tryDraft p name r with ⟨-, heq⟩ | ⟨d, draft, owned, hd, -, hcases⟩
  · rw [heq] at hrun
    cases hrun
    exact h
  have howned : Settling r₀ (r.change name ({ · with machineOwned := owned })) p.done :=
    h.change (fun _ => ⟨rfl, rfl⟩) fun _ => .inl rfl
  obtain ⟨hadd, heq⟩ | ⟨target, -, heq⟩ | ⟨e, -, heq⟩ := hcases
  · rw [heq] at hrun
    cases hrun
    refine (howned.append fun d₁ hd₁ => ?_).change (fun _ => ⟨rfl, rfl⟩) fun _ => .inr ?_
    · obtain ⟨d₀, hd₀, hentity, hmachine⟩ := h.alike.exists_of_get? hd
      obtain rfl : d₁ = d₀ := Option.some.inj (hd₁.symm.trans hd₀)
      rw [hentity, hmachine]
      exact ShapeDraft.drafted_start.addFields h.named d.entity.names_nodup hadd
    · rw [List.map_append]
      exact List.mem_append_right _ (List.mem_singleton_self _)
  · rw [heq] at hrun
    cases hrun
    exact howned
  · rw [heq] at hrun
    cases hrun

/-- One pass. -/
theorem Settling.foldlM {names : List String} {p q : Progress} (h : Settling r₀ r p.done)
    (hrun : (names.foldlM Registry.tryDraft p).run.run r = (.ok q, r')) :
    Settling r₀ r' q.done := by
  induction names generalizing p r with
  | nil =>
    cases hrun
    exact h
  | cons name rest ih =>
    rw [List.foldlM_cons] at hrun
    obtain ⟨p', r₁, hfirst, hrest⟩ := Action.run_bind_eq_ok hrun
    exact ih (h.tryDraft hfirst) hrest

/-- **All passes**. -/
theorem Settling.passes {fuel : Nat} {p q : Progress} (h : Settling r₀ r p.done)
    (hrun : (Registry.passes fuel p).run.run r = (.ok q, r')) : Settling r₀ r' q.done := by
  induction fuel generalizing p r with
  | zero => cases hrun
  | succ fuel ih =>
    rw [Registry.passes] at hrun
    obtain ⟨p', r₁, hpass, hrun⟩ := Action.run_bind_eq_ok hrun
    have hp' : Settling r₀ r₁ p'.done := h.foldlM (p := ⟨[], p.done, []⟩) hpass
    split at hrun
    · cases hrun
      exact hp'
    · split at hrun
      · cases hrun
      · exact ih hp' hrun

/-- Who is not done keeps the descriptor. -/
theorem get?_attachDrafts_of_notMem (h : name ∉ done.map Prod.fst) :
    Record.get? (r.attachDrafts done).descriptors name = Record.get? r.descriptors name := by
  unfold attachDrafts
  induction done generalizing r with
  | nil => rfl
  | cons e rest ih =>
    rw [List.map_cons, List.mem_cons, not_or] at h
    rw [List.foldl_cons, ih h.2, get?_change, if_neg (Ne.symm h.1)]

/-- **Attaching the lists of related documents** settles the shapes. -/
theorem Settling.attachDrafts (h : Settling r₀ r done) : (r.attachDrafts done).Settled := by
  have hsame : ∀ {done : List (String × ShapeDraft)} {r : Registry}, Alike r₀ r →
      Alike r₀ (r.attachDrafts done) := by
    intro done
    unfold Registry.attachDrafts
    induction done with
    | nil => exact id
    | cons e rest ih => exact fun h => ih (h.change fun _ => ⟨rfl, rfl⟩)
  intro name d p hd hp
  by_cases hname : name ∈ done.map Prod.fst
  · obtain ⟨draft, hdraft, hshapes⟩ := shapes_attachDrafts hd hname
    obtain ⟨d₀, hd₀, hentity, hmachine⟩ := (hsame h.alike).exists_of_get? hd
    have hnamed : d.entity.name = name := by
      have halike := h.alike name
      rw [hd₀, Option.map_some] at halike
      obtain ⟨d₁, hd₁, hpair⟩ := Option.map_eq_some_iff.1 halike
      rw [← hentity, ← (Prod.mk.inj hpair).1]
      exact h.named name d₁ hd₁
    have hdrafted := h.drafted _ hdraft d₀ hd₀
    rw [hentity, hmachine, ← hnamed] at hdrafted
    obtain rfl := Option.some.inj (hshapes.symm.trans hp)
    rw [← hnamed]
    exact congrArg₂ ShapePair.mk (hdrafted.withDeltas false) (hdrafted.withDeltas true)
  · rw [get?_attachDrafts_of_notMem hname] at hd
    exact (h.settled name d p hd hp).resolve_left hname

/-- Finalizing that succeeds leaves a registry that is finalized. -/
theorem finalized_of_finalize (hrun : Registry.finalize.run.run r = (.ok (), r')) :
    r'.finalized = true := by
  unfold Registry.finalize at hrun
  rw [Action.run_bind_ok (Action.run_get r)] at hrun
  split at hrun
  · cases hrun
    assumption
  · obtain ⟨-, -, hrun⟩ := Action.run_lift_bind_eq_ok hrun
    obtain ⟨⟨⟩, r₁, -, hrun⟩ := Action.run_bind_eq_ok hrun
    cases hrun
    rfl

/-- **Finalizing settles**: when it succeeds, the shapes are settled if those from before were. -/
theorem Settled.finalize (hr : r.Settled)
    (hnamed : ∀ name d, Record.get? r.descriptors name = some d → d.name = name)
    (hrun : Registry.finalize.run.run r = (.ok (), r')) : r'.Settled := by
  unfold Registry.finalize at hrun
  rw [Action.run_bind_ok (Action.run_get r)] at hrun
  split at hrun
  · cases hrun
    exact hr
  · obtain ⟨-, -, hrun⟩ := Action.run_lift_bind_eq_ok hrun
    obtain ⟨⟨⟩, r₁, hsynthesize, hrun⟩ := Action.run_bind_eq_ok hrun
    rw [Action.run_modify] at hrun
    cases hrun
    have hstart : Settling r r [] := ⟨fun _ => rfl, hnamed, fun _ he => absurd he List.not_mem_nil,
      fun name d p hd hp => .inr (hr name d p hd hp)⟩
    have hsettled : r₁.Settled := by
      unfold synthesize at hsynthesize
      rw [Action.run_bind_ok (Action.run_get r)] at hsynthesize
      dsimp only at hsynthesize
      split at hsynthesize
      · cases hsynthesize
        exact hr
      · obtain ⟨p, r₂, hpasses, hsynthesize⟩ := Action.run_bind_eq_ok hsynthesize
        rw [Action.run_modify] at hsynthesize
        cases hsynthesize
        exact (hstart.passes hpasses).attachDrafts
    exact hsettled

end Registry

end EntityGraph
