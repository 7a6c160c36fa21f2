import EntityGraph.Proofs.Action

/-!
# Trees of writes

Arguments are trees: embedded values inside a document, and children of a document in its lists of
related documents. What every node of such a tree does, the whole tree does. The first part says so
for the documents that are made from arguments, the second for the documents that are written
(`LinkedRules`, and `WriteRules` where nothing need be known of the parents that children are linked
to).
-/

namespace EntityGraph

variable {τ S : Type}

/-! ## The arguments of a field -/

/-- The argument of the field is an explicit null, and the field may be null. -/
def FieldDef.IsNulled (f : FieldDef) (args : Value) : Prop :=
  f.isIdentifier = false ∧ f.nullable = true ∧ fieldOf? f.name args = some .null

theorem presentArgument?_eq_some {f : FieldDef} {args v : Value} :
    presentArgument? f args = some v ↔ fieldOf? f.name args = some v ∧ v.isEmpty = false := by
  rw [presentArgument?, Option.filter_eq_some_iff, Bool.not_eq_true']

/-- An argument that is missing or counts as absent. -/
theorem presentArgument?_eq_none {f : FieldDef} {args : Value}
    (h : ∀ v, fieldOf? f.name args = some v → v.isEmpty = true) :
    presentArgument? f args = none := by
  refine Option.eq_none_iff_forall_ne_some.2 fun v hv => ?_
  obtain ⟨hget, hpresent⟩ := presentArgument?_eq_some.1 hv
  rw [h v hget] at hpresent
  cases hpresent

/-- An argument that is null is not present. -/
theorem FieldDef.IsNulled.presentArgument? {f : FieldDef} {args : Value} (h : f.IsNulled args) :
    presentArgument? f args = none :=
  presentArgument?_eq_none fun v hv => by
    rw [Option.some.inj (hv.symm.trans h.2.2)]
    rfl

/-! ## Making documents -/

/-- **What a field's argument becomes**, by the kind of the field. `Object` says what is made of the
object of an embedded field, and `Items` what is made of the items of an embedded list. -/
inductive Registry.Becomes (r : Registry) (Object : Descriptor → Document → Materialized → Prop)
    (Items : Descriptor → List Value → List Value → Prop) (f : FieldDef) (made : Materialized) :
    Value → Materialized → Prop where
  | scalar {v w : Value} (hk : f.kind = .ok .scalar) (hw : coerceScalar f v = .ok w) :
      Registry.Becomes r Object Items f made v (Materializer.put made f.name w)
  | enumeration {v w : Value} (hk : f.kind = .ok .enumeration) (hw : coerceScalar f v = .ok w) :
      Registry.Becomes r Object Items f made v (Materializer.put made f.name w)
  | scalarList {items ws : List Value} (hk : f.kind = .ok .scalarList)
    (hws : coerceScalars f items = .ok ws) :
      Registry.Becomes r Object Items f made (.list items) (Materializer.put made f.name (.list ws))
  /-- only references are put under another key than the name of the field -/
  | referencedObject {v : Value} {o : ObjectId} (hk : f.kind = .ok .referencedObject)
    (ho : toReference v = .ok o) :
      Registry.Becomes r Object Items f made v (Materializer.put made f.connectionField (.id o))
  | embeddedObject {e : Descriptor} {fs : Document} {inner : Materialized}
    (hk : f.kind = .ok .embeddedObject)
      (he : r.lookup (f.target.getD "") = .ok e) (hinner : Object e fs inner) :
      Registry.Becomes r Object Items f made (.object fs)
      (Materializer.put made f.name (.object inner.document))
  | embeddedList {e : Descriptor} {items ds : List Value} (hk : f.kind = .ok .embeddedList)
      (he : r.lookup (f.target.getD "") = .ok e) (hds : Items e items ds) :
      Registry.Becomes r Object Items f made (.list items) (Materializer.put made f.name (.list ds))
  /-- the changes of a list take no part in the document -/
  | referencedList {v : Value} (hk : f.kind = .ok .referencedList) :
    Registry.Becomes r Object Items f made v made

namespace Materializer

variable {m : Materializer τ S} {R : τ → τ → Prop}

/-- **The argument of a field becomes what its kind says**, given what the documents inside it
become. -/
theorem moves_materializeValue_becomes (hrefl : ∀ t, R t t)
    (htrans : ∀ t t' t'', R t t' → R t' t'' → R t t'')
    (Object : Descriptor → Document → Materialized → Prop)
    (Items : Descriptor → List Value → List Value → Prop) {f : FieldDef} {v : Value}
    (hobject : ∀ fs e, f.kind = .ok .embeddedObject → v = .object fs →
      m.registry.lookup (f.target.getD "") = .ok e →
      Moves R (Object e fs) (m.materialize e.entity none (.object fs)))
    (hitems : ∀ items e, f.kind = .ok .embeddedList → v = .list items →
      m.registry.lookup (f.target.getD "") = .ok e → Moves R (Items e items)
      (m.materializeItems f e.entity items))
    (made : Materialized) :
    Moves R (m.registry.Becomes Object Items f made v) (m.materializeValue f v made) := by
  rw [materializeValue.eq_def]
  refine Moves.lift_bind hrefl fun kind hk => ?_
  cases kind with
  | scalar => exact Moves.lift_bind hrefl fun w hw => Moves.pure hrefl (.scalar hk hw)
  | enumeration => exact Moves.lift_bind hrefl fun w hw => Moves.pure hrefl (.enumeration hk hw)
  | scalarList =>
    dsimp only
    split
    · exact Moves.lift_bind hrefl fun ws hws => Moves.pure hrefl (.scalarList hk hws)
    · exact Moves.throw hrefl _
  | referencedObject =>
    exact Moves.lift_bind hrefl fun o ho => Moves.pure hrefl (.referencedObject hk ho)
  | embeddedObject =>
    dsimp only
    split
    · refine Moves.lift_bind hrefl fun e he => Moves.bind htrans (hobject _ e hk rfl he)
        fun inner hinner => ?_
      exact Moves.pure hrefl (.embeddedObject hk he hinner)
    · exact Moves.throw hrefl _
  | embeddedList =>
    dsimp only
    split
    · refine Moves.lift_bind hrefl fun e he => Moves.bind htrans (hitems _ e hk rfl he)
        fun ds hds => ?_
      exact Moves.pure hrefl (.embeddedList hk he hds)
    · exact Moves.throw hrefl _
  | referencedList =>
    dsimp only
    split
    · exact Moves.pure hrefl (.referencedList hk)
    · exact Moves.throw hrefl _

/-- What one field does in the walk over the fields. -/
def materializeField (m : Materializer τ S) (args : Value) (f : FieldDef) (made : Materialized) :
    Action τ Materialized :=
  if f.isIdentifier then pure made
  else
    match fieldOf? f.name args with
    | none => pure made
    | some v =>
      if v.isEmpty then
        pure (if v.isNull && f.nullable then { made with unset := made.unset ++ [f.storedKey] } else
          made)
      else m.materializeValue f v made

/-- **One step of the walk.** The walk keeps the equation of the argument, for it ends where
arguments do. -/
theorem materializeFields_cons (entity : String) (args : Value) (f : FieldDef)
    (rest : List FieldDef) (made : Materialized) :
    m.materializeFields entity args (f :: rest) made = (do
      if args.fields?.isNone then throw .illTyped
      m.checkField entity f ((fieldOf? f.name args).getD .null)
      let made ← m.materializeField args f made
      m.materializeFields entity args rest made) := by
  rw [materializeFields.eq_2]
  unfold materializeField
  congr 1
  refine bind_congr fun _ => congrArg (· >>= _) ?_
  split
  · rfl
  · split <;> rename_i hget <;> simp only [hget]

/-- **One field** is passed over, notes its key when it is nulled, or puts in what its argument
becomes. -/
theorem moves_materializeField (hrefl : ∀ t, R t t) {args : Value} {f : FieldDef}
    {made : Materialized} {P : Materialized → Prop}
    (hskip : f.isIdentifier = true ∨ presentArgument? f args = none → ¬ f.IsNulled args → P made)
    (hnote : f.IsNulled args → P { made with unset := made.unset ++ [f.storedKey] })
    (hvalue : ∀ v, f.isIdentifier = false → presentArgument? f args = some v →
      Moves R P (m.materializeValue f v made)) :
    Moves R P (m.materializeField args f made) := by
  unfold materializeField
  split
  · rename_i hid
    exact Moves.pure hrefl (hskip (.inl hid) fun hnull => by cases hid.symm.trans hnull.1)
  rename_i hid
  have hid := Bool.eq_false_iff.2 hid
  split
  · rename_i hnone
    refine Moves.pure hrefl (hskip (.inr (presentArgument?_eq_none fun v hv => ?_)) fun hnull => ?_)
    · cases hnone.symm.trans hv
    · cases hnone.symm.trans hnull.2.2
  rename_i v hv
  split
  · rename_i hempty
    split
    · rename_i hnull
      obtain ⟨hisNull, hnullable⟩ := Bool.and_eq_true_iff.1 hnull
      refine Moves.pure hrefl (hnote ⟨hid, hnullable, ?_⟩)
      cases v with
      | null => exact hv
      | _ => cases hisNull
    · rename_i hnot
      refine Moves.pure hrefl (hskip (.inr (presentArgument?_eq_none fun w hw => ?_)) fun hnull =>
        hnot ?_)
      · rwa [← Option.some.inj (hv.symm.trans hw)]
      · rw [Option.some.inj (hv.symm.trans hnull.2.2), hnull.2.1]
        rfl
  · rename_i hpresent
    exact hvalue v hid (presentArgument?_eq_some.2 ⟨hv, Bool.eq_false_iff.2 hpresent⟩)

/-- **Walking the fields**: what is known before each field, of the fields that are left and of what
is made so far, is known at the end. -/
theorem moves_materializeFields_of_field (hrefl : ∀ t, R t t)
    (htrans : ∀ t t' t'', R t t' → R t' t'' → R t t'') {entity : String} {args : Value}
    (hcheck : ∀ f v, Moves R (fun _ => True) (m.checkField entity f v))
    {P : List FieldDef → Materialized → Prop} {fields : List FieldDef} {made : Materialized}
    (hfield : ∀ f ∈ fields, ∀ rest made, P (f :: rest) made →
      Moves R (P rest) (m.materializeField args f made)) (hmade : P fields made) :
    Moves R (P []) (m.materializeFields entity args fields made) := by
  induction fields generalizing made with
  | nil =>
    rw [materializeFields]
    exact Moves.pure hrefl hmade
  | cons f rest ih =>
    rw [materializeFields_cons]
    refine Moves.guard hrefl fun _ => Moves.bind htrans (hcheck f _) fun _ _ => ?_
    exact Moves.bind htrans (hfield f (List.mem_cons_self ..) rest made hmade) fun made' hmade' =>
      ih (fun g hg => hfield g (List.mem_cons_of_mem _ hg)) hmade'

/-- **Validators that move along `R`**, a reflexive and transitive relation. -/
structure Checked (m : Materializer τ S) (R : τ → τ → Prop) : Prop where
  refl : ∀ t, R t t
  trans : ∀ t t' t'', R t t' → R t' t'' → R t t''
  field : ∀ entity f v, Moves R (fun _ => True) (m.checkField entity f v)
  entity : ∀ entity args d, Moves R (fun _ => True) (m.checkEntity entity args d)

/-- Validators move along `R` when each of them does. -/
theorem Checked.of_checks (hrefl : ∀ t, R t t) (htrans : ∀ t t' t'', R t t' → R t' t'' → R t t'')
    (hfield : ∀ n f, ∀ check ∈ (m.behaviour.entity n).fieldChecks m.operation f,
      ∀ v, Moves R (fun _ => True) (check n f v m.session))
    (hentity : ∀ n, ∀ check ∈ (m.behaviour.entity n).entityChecks m.operation,
      ∀ args d, Moves R (fun _ => True) (check n args d m.session)) : m.Checked R where
  refl := hrefl
  trans := htrans
  field := fun n f v => Moves.forM hrefl htrans fun check hcheck => hfield n f.name check hcheck v
  entity := fun n args _ => Moves.foldlM hrefl htrans (fun check hcheck d _ =>
    hentity n check hcheck args d) trivial

mutual

/-- Making a document moves the state as the validators do. -/
theorem moves_materialize (h : m.Checked R) (entity : Entity) (link : Option ParentLink)
    (args : Value) : Moves R (fun _ => True) (m.materialize entity link args) := by
  rw [materialize]
  have hfields :
      Moves R (fun _ => True) (m.materializeFields entity.name args entity.fields ⟨[], []⟩) := by
    refine moves_materializeFields_of_field (P := fun _ _ => True) h.refl h.trans
      (h.field entity.name) (fun f _ rest made _ => ?_) trivial
    refine moves_materializeField h.refl (fun _ _ => trivial) (fun _ => trivial) fun v _ hv => ?_
    have hget := (presentArgument?_eq_some.1 hv).1
    refine (moves_materializeValue_becomes h.refl h.trans (fun _ _ _ => True) (fun _ _ _ => True)
      (fun fs e _ hfs _ => ?_) (fun items e _ hitems _ => ?_) made).mono (fun _ _ => id) fun _ _ =>
      trivial
    · have : 1 + sizeOf fs < sizeOf args :=
        Value.object.sizeOf_spec fs ▸ sizeOf_fieldOf?_lt (hfs ▸ hget)
      exact moves_materialize h e.entity none (.object fs)
    · have : 1 + sizeOf items < sizeOf args :=
        Value.list.sizeOf_spec items ▸ sizeOf_fieldOf?_lt (hitems ▸ hget)
      exact moves_materializeItems h f e.entity items
  refine Moves.bind h.trans hfields fun r _ => ?_
  refine Moves.bind h.trans (h.entity _ _ _) fun d _ => ?_
  exact Moves.pure h.refl trivial
termination_by (sizeOf args, 1)

theorem moves_materializeItems (h : m.Checked R) (f : FieldDef) (entity : Entity) :
    ∀ items : List Value, Moves R (fun _ => True) (m.materializeItems f entity items)
  | [] => by
    rw [materializeItems]
    exact Moves.pure h.refl trivial
  | v :: rest => by
    cases v with
    | object fs =>
      rw [materializeItems]
      refine Moves.bind h.trans (moves_materialize h entity none (.object fs)) fun inner _ => ?_
      refine Moves.bind h.trans (moves_materializeItems h f entity rest) fun others _ => ?_
      exact Moves.pure h.refl trivial
    | _ =>
      rw [materializeItems.eq_def]
      exact Moves.throw h.refl _
termination_by items => (sizeOf items, 0)

end

end Materializer

/-! ## Writing documents -/

namespace Executor

variable {x : Executor τ S} {ops : Operations τ S} {s : S} {R : τ → τ → Prop}
  {Saves Updates : Descriptor → Option ParentLink → Value → Prop}

/-- **Linked children**: what the arguments add to lists of related documents can be saved, and what
they change there can be updated, when they are linked to a parent of which `Parent` is known. -/
def ChildrenOf (x : Executor τ S) (Parent : Value → Prop)
    (Saves Updates : Descriptor → Option ParentLink → Value → Prop) (args : Value)
    (fields : List FieldDef) : Prop :=
  ∀ f ∈ fields, ∀ delta, deltaOf? f args = some delta →
    ∀ e, x.descriptor (f.target.getD "") = .ok e → ∀ parent, Parent parent →
      (∀ v ∈ delta.added, Saves e (some (f.connectionField, parent)) v) ∧
        ∀ v ∈ delta.updated, Updates e (some (f.connectionField, parent)) v

/-- **Rules for linked writes**: when the children of a document that can be saved or updated move
the state along `R`, linked to a parent of which `Parent` is known, the whole write does. -/
structure LinkedRules (x : Executor τ S) (ops : Operations τ S) (s : S) (R : τ → τ → Prop)
    (Parent : Value → Prop) (Saves Updates : Descriptor → Option ParentLink → Value → Prop) :
    Prop where
  refl : ∀ t, R t t
  trans : ∀ t t' t'', R t t' → R t' t'' → R t t''
  children : ∀ d link args, Saves d link args ∨ Updates d link args →
    x.ChildrenOf Parent Saves Updates args d.entity.fields
  save : ∀ d link args, Saves d link args →
    (∀ id, Parent id → Moves R (fun _ => True) (x.applyDeltas ops d id s args d.entity.fields)) →
    Moves R (fun _ => True) (x.saveIn ops d link s args)
  update : ∀ d link args, Updates d link args →
    (∀ id, Parent id → Moves R (fun _ => True) (x.applyDeltas ops d id s args d.entity.fields)) →
    Moves R (fun _ => True) (x.updateIn ops d link s args)

namespace LinkedRules

variable {Parent : Value → Prop}

mutual

/-- A tree of linked writes moves the state along `R`. -/
theorem moves_saveIn (h : LinkedRules x ops s R Parent Saves Updates) (d : Descriptor)
    (link : Option ParentLink) (args : Value) (hs : Saves d link args) :
    Moves R (fun _ => True) (x.saveIn ops d link s args) :=
  h.save d link args hs fun id hid =>
    moves_applyDeltas h d id hid args d.entity.fields (h.children d link args (.inl hs))
termination_by (sizeOf args, 2, 0)

theorem moves_updateIn (h : LinkedRules x ops s R Parent Saves Updates) (d : Descriptor)
    (link : Option ParentLink) (args : Value) (hu : Updates d link args) :
    Moves R (fun _ => True) (x.updateIn ops d link s args) :=
  h.update d link args hu fun id hid =>
    moves_applyDeltas h d id hid args d.entity.fields (h.children d link args (.inr hu))
termination_by (sizeOf args, 2, 0)

theorem moves_applyDeltas (h : LinkedRules x ops s R Parent Saves Updates) (d : Descriptor)
    (parent : Value) (hparent : Parent parent) (args : Value) : ∀ fields : List FieldDef,
      x.ChildrenOf Parent Saves Updates args fields →
      Moves R (fun _ => True) (x.applyDeltas ops d parent s args fields)
  | [], _ => by
    rw [applyDeltas]
    exact Moves.pure h.refl trivial
  | f :: rest, hc => by
    rw [applyDeltas]
    have hrest := moves_applyDeltas h d parent hparent args rest fun g hg =>
      hc g (List.mem_cons_of_mem _ hg)
    split
    · exact hrest
    · rename_i delta hdelta
      have := sizeOf_deltaOf?_lt hdelta
      refine Moves.guard h.refl fun _ => ?_
      refine Moves.lift_bind h.refl fun e he => ?_
      obtain ⟨hadd, hupd⟩ := hc f (List.mem_cons_self ..) delta hdelta e he parent hparent
      refine Moves.bind h.trans (moves_saveAll h e _ delta.added hadd) fun _ _ => ?_
      exact Moves.bind h.trans (moves_updateAll h e _ delta.updated hupd) fun _ _ => hrest
termination_by fields => (sizeOf args, 1, fields.length)

theorem moves_saveAll (h : LinkedRules x ops s R Parent Saves Updates) (d : Descriptor)
    (link : ParentLink) : ∀ items : List Value, (∀ v ∈ items, Saves d (some link) v) →
      Moves R (fun _ => True) (x.saveAll ops d link s items)
  | [], _ => by
    rw [saveAll]
    exact Moves.pure h.refl trivial
  | v :: rest, hs => by
    rw [saveAll]
    refine Moves.bind h.trans
      (moves_saveIn h d (some link) v (hs v (List.mem_cons_self ..))) fun _ _ => ?_
    exact moves_saveAll h d link rest fun w hw => hs w (List.mem_cons_of_mem _ hw)
termination_by items => (sizeOf items, 0, 0)

theorem moves_updateAll (h : LinkedRules x ops s R Parent Saves Updates) (d : Descriptor)
    (link : ParentLink) : ∀ items : List Value, (∀ v ∈ items, Updates d (some link) v) →
      Moves R (fun _ => True) (x.updateAll ops d link s items)
  | [], _ => by
    rw [updateAll]
    exact Moves.pure h.refl trivial
  | v :: rest, hu => by
    rw [updateAll]
    refine Moves.bind h.trans
      (moves_updateIn h d (some link) v (hu v (List.mem_cons_self ..))) fun _ _ => ?_
    exact moves_updateAll h d link rest fun w hw => hu w (List.mem_cons_of_mem _ hw)
termination_by items => (sizeOf items, 0, 0)

end

end LinkedRules

/-- **Children**: what the arguments add to lists of related documents can be saved, and what they
change there can be updated. -/
def Children (x : Executor τ S) (Saves Updates : Descriptor → Option ParentLink → Value → Prop)
    (args : Value) (fields : List FieldDef) : Prop :=
  ∀ f ∈ fields, ∀ delta, deltaOf? f args = some delta →
    ∀ e, x.descriptor (f.target.getD "") = .ok e → ∀ parent,
      (∀ v ∈ delta.added, Saves e (some (f.connectionField, parent)) v) ∧
        ∀ v ∈ delta.updated, Updates e (some (f.connectionField, parent)) v

/-- **Rules for writes**: when the children of a document that can be saved or updated move the
state along `R`, the whole write does. -/
structure WriteRules (x : Executor τ S) (ops : Operations τ S) (s : S) (R : τ → τ → Prop)
    (Saves Updates : Descriptor → Option ParentLink → Value → Prop) : Prop where
  refl : ∀ t, R t t
  trans : ∀ t t' t'', R t t' → R t' t'' → R t t''
  children : ∀ d link args, Saves d link args ∨ Updates d link args →
    x.Children Saves Updates args d.entity.fields
  save : ∀ d link args, Saves d link args →
    (∀ id, Moves R (fun _ => True) (x.applyDeltas ops d id s args d.entity.fields)) →
    Moves R (fun _ => True) (x.saveIn ops d link s args)
  update : ∀ d link args, Updates d link args →
    (∀ id, Moves R (fun _ => True) (x.applyDeltas ops d id s args d.entity.fields)) →
    Moves R (fun _ => True) (x.updateIn ops d link s args)

namespace WriteRules

/-- Nothing need be known of parents. -/
theorem linked (h : WriteRules x ops s R Saves Updates) :
    LinkedRules x ops s R (fun _ => True) Saves Updates where
  refl := h.refl
  trans := h.trans
  children := fun d link args hw f hf delta hdelta e he parent _ =>
    h.children d link args hw f hf delta hdelta e he parent
  save := fun d link args hs hdeltas => h.save d link args hs fun id => hdeltas id trivial
  update := fun d link args hu hdeltas => h.update d link args hu fun id => hdeltas id trivial

/-- A tree of writes moves the state along `R`. -/
theorem moves_saveIn (h : WriteRules x ops s R Saves Updates) (d : Descriptor)
    (link : Option ParentLink) (args : Value) (hs : Saves d link args) :
    Moves R (fun _ => True) (x.saveIn ops d link s args) := h.linked.moves_saveIn d link args hs

theorem moves_updateIn (h : WriteRules x ops s R Saves Updates) (d : Descriptor)
    (link : Option ParentLink) (args : Value) (hu : Updates d link args) :
    Moves R (fun _ => True) (x.updateIn ops d link s args) := h.linked.moves_updateIn d link args hu

theorem moves_applyDeltas (h : WriteRules x ops s R Saves Updates) (d : Descriptor) (parent : Value)
    (args : Value) (fields : List FieldDef) (hc : x.Children Saves Updates args fields) :
    Moves R (fun _ => True) (x.applyDeltas ops d parent s args fields) :=
  h.linked.moves_applyDeltas d parent trivial args fields fun f hf delta hdelta e he parent _ =>
    hc f hf delta hdelta e he parent

theorem moves_saveAll (h : WriteRules x ops s R Saves Updates) (d : Descriptor)
    (link : ParentLink) (items : List Value) (hs : ∀ v ∈ items, Saves d (some link) v) :
    Moves R (fun _ => True) (x.saveAll ops d link s items) := h.linked.moves_saveAll d link items hs

theorem moves_updateAll (h : WriteRules x ops s R Saves Updates) (d : Descriptor)
    (link : ParentLink) (items : List Value) (hu : ∀ v ∈ items, Updates d (some link) v) :
    Moves R (fun _ => True) (x.updateAll ops d link s items) :=
      h.linked.moves_updateAll d link items hu

end WriteRules

end Executor

end EntityGraph
