import EntityGraph.Proofs.Admission
import EntityGraph.Proofs.Tours

/-!
# Changes inside embedded values

The shapes of an entity that is embedded offer changes to its lists of related documents, so a write
accepts them. What is made of an embedded value is its document, though, and a write saves and
updates only the children that the arguments of the document itself hold. Two calls whose arguments
differ in nothing but changes inside embedded values (`Registry.Resembles`) make the same documents
(`Materializer.alongside_materialize`) and write the same (`Executor.saveIn_eq_of_resembles`,
`updateIn_eq_of_resembles`). So such changes make no difference to a call, whatever they add, update
or delete, unless user code looks into them (`Dispatcher.call_resembling`).
-/

namespace EntityGraph

variable {τ S α β : Type}

/-! ## Arguments that differ there -/

/-- A field of an entity, other than the identifier, of a kind. -/
structure Entity.Declares (e : Entity) (kind : FieldKind) (f : FieldDef) : Prop where
  mem : f ∈ e.fields
  notId : f.isIdentifier = false
  kind : f.kind = .ok kind

mutual

/-- **Resembling arguments** of an entity are objects that differ in nothing but changes inside
embedded values. The arguments may themselves be those of an embedded value. -/
inductive Registry.Resembles (r : Registry) : (embedded : Bool) → Entity → Value → Value →
    Prop where
  | object {embedded : Bool} {e : Entity} {fs fs' : Document}
      (h : ∀ key, Registry.ResemblesAt r embedded e key (Record.get? fs key)
      (Record.get? fs' key)) :
      Registry.Resembles r embedded e (.object fs) (.object fs')

/-- **Resembling entries** under a key: the same, or embedded values that resemble each other, or
changes to a list of related documents, which hold resembling children. Inside an embedded value,
any changes will do. -/
inductive Registry.ResemblesAt (r : Registry) : (embedded : Bool) → Entity → (key : String) →
    Option Value → Option Value → Prop where
  | same {embedded : Bool} {e : Entity} {key : String} (a : Option Value) :
      Registry.ResemblesAt r embedded e key a a
  | embeddedObject {embedded : Bool} {e : Entity} {f : FieldDef} {d : Descriptor} {v v' : Value}
      (hf : e.Declares .embeddedObject f) (hd : r.lookup (f.target.getD "") = .ok d)
      (h : Registry.Resembles r true d.entity v v') :
      Registry.ResemblesAt r embedded e f.name (some v) (some v')
  | embeddedList {embedded : Bool} {e : Entity} {f : FieldDef} {d : Descriptor}
    {vs vs' : List Value}
      (hf : e.Declares .embeddedList f) (hd : r.lookup (f.target.getD "") = .ok d)
      (h : Registry.ResemblesEach r true d.entity vs vs') :
      Registry.ResemblesAt r embedded e f.name (some (.list vs)) (some (.list vs'))
  | children {e : Entity} {f : FieldDef} {d : Descriptor} {v v' : Value} {delta delta' : Delta}
      (hf : e.Declares .referencedList f) (hd : r.lookup (f.target.getD "") = .ok d)
      (hread : Delta.ofValue? v = some delta) (hread' : Delta.ofValue? v' = some delta')
      (hadded : Registry.ResemblesEach r false d.entity delta.added delta'.added)
      (hupdated : Registry.ResemblesEach r false d.entity delta.updated delta'.updated)
      (hdeleted : delta.deleted = delta'.deleted) :
      Registry.ResemblesAt r false e f.name (some v) (some v')
  | lost {e : Entity} {f : FieldDef} (hf : e.Declares .referencedList f) (a a' : Option Value) :
      Registry.ResemblesAt r true e f.name a a'

/-- Lists of resembling arguments. -/
inductive Registry.ResemblesEach (r : Registry) : (embedded : Bool) → Entity → List Value →
    List Value → Prop where
  | nil {embedded : Bool} {e : Entity} : Registry.ResemblesEach r embedded e [] []
  | cons {embedded : Bool} {e : Entity} {v v' : Value} {vs vs' : List Value}
      (h : Registry.Resembles r embedded e v v')
      (hrest : Registry.ResemblesEach r embedded e vs vs') :
      Registry.ResemblesEach r embedded e (v :: vs) (v' :: vs')

end

/-- **User code that overlooks changes inside embedded values**: validators and hooks of the entity
do the same for resembling arguments. -/
structure EntityBehaviour.Overlooks (b : EntityBehaviour τ S) (r : Registry)
    (e : Entity) : Prop where
  fieldChecks : ∀ {embedded : Bool} {key : String} {a a' : Option Value},
    r.ResemblesAt embedded e key a a' →
    ∀ operation, ∀ check ∈ b.fieldChecks operation key, ∀ s,
      check e.name key (a.getD .null) s = check e.name key (a'.getD .null) s
  entityChecks : ∀ {embedded : Bool} {v v' : Value}, r.Resembles embedded e v v' →
    ∀ operation, ∀ check ∈ b.entityChecks operation, ∀ doc s,
    check e.name v doc s = check e.name v' doc s
  onSaving : ∀ {v v' : Value}, r.Resembles false e v v' → ∀ ops doc s,
    b.hooks.onSaving ops doc v s = b.hooks.onSaving ops doc v' s
  onSaved : ∀ {v v' : Value}, r.Resembles false e v v' → ∀ ops doc s,
    b.hooks.onSaved ops doc v s = b.hooks.onSaved ops doc v' s
  onUpdating : ∀ {v v' : Value}, r.Resembles false e v v' → ∀ ops id doc s,
    b.hooks.onUpdating ops id doc v s = b.hooks.onUpdating ops id doc v' s
  onUpdated : ∀ {v v' : Value}, r.Resembles false e v v' → ∀ ops doc s,
    b.hooks.onUpdated ops doc v s = b.hooks.onUpdated ops doc v' s

/-- Where there is no user code, nothing looks into them. -/
theorem EntityBehaviour.overlooks_none (r : Registry) (e : Entity) :
    (EntityBehaviour.none : EntityBehaviour τ S).Overlooks r e where
  fieldChecks _ _ _ hcheck := absurd hcheck List.not_mem_nil
  entityChecks _ _ _ hcheck := absurd hcheck List.not_mem_nil
  onSaving _ _ _ _ := rfl
  onSaved _ _ _ _ := rfl
  onUpdating _ _ _ _ _ := rfl
  onUpdated _ _ _ _ := rfl

/-- The user code of every entity overlooks them. -/
def Behaviour.Overlooks (b : Behaviour τ S) (r : Registry) : Prop :=
  ∀ d, Record.get? r.descriptors d.name = some d → (b.entity d.name).Overlooks r d.entity

/-- Changes that can be read are not absent. -/
theorem Delta.isEmpty_of_ofValue? {v : Value} {delta : Delta} (h : Delta.ofValue? v = some delta) :
    v.isEmpty = false := by
  unfold Delta.ofValue? at h
  split at h
  · rfl
  · cases h

section Arguments

variable {r : Registry} {embedded : Bool} {e : Entity} {args args' : Value}

theorem Registry.Resembles.at (h : r.Resembles embedded e args args') (key : String) :
    r.ResemblesAt embedded e key (fieldOf? key args) (fieldOf? key args') := by
  cases h with
  | object h => exact h key

/-- **Resembling arguments of a field**, by its kind. -/
theorem Registry.Resembles.field_cases (h : r.Resembles embedded e args args') {f : FieldDef}
    (hf : f ∈ e.fields) :
    fieldOf? f.name args = fieldOf? f.name args' ∨
    (∃ d fs fs', e.Declares .embeddedObject f ∧ r.lookup (f.target.getD "") = .ok d ∧
      fieldOf? f.name args = some (.object fs) ∧ fieldOf? f.name args' = some (.object fs') ∧
      r.Resembles true d.entity (.object fs) (.object fs')) ∨
    (∃ d vs vs', e.Declares .embeddedList f ∧ r.lookup (f.target.getD "") = .ok d ∧
      fieldOf? f.name args = some (.list vs) ∧ fieldOf? f.name args' = some (.list vs') ∧
      r.ResemblesEach true d.entity vs vs') ∨
    (embedded = false ∧ ∃ d v v' delta delta', e.Declares .referencedList f ∧
      r.lookup (f.target.getD "") = .ok d ∧ fieldOf? f.name args = some v ∧
        fieldOf? f.name args' = some v' ∧
      Delta.ofValue? v = some delta ∧ Delta.ofValue? v' = some delta' ∧
      r.ResemblesEach false d.entity delta.added delta'.added ∧
      r.ResemblesEach false d.entity delta.updated delta'.updated ∧
        delta.deleted = delta'.deleted) ∨
    (embedded = true ∧ e.Declares .referencedList f) := by
  have hat := h.at f.name
  generalize hkey : f.name = key at hat ⊢
  generalize fieldOf? key args = a at hat ⊢
  generalize fieldOf? key args' = a' at hat ⊢
  have hsame : ∀ {kind : FieldKind} {g : FieldDef}, e.Declares kind g → key = g.name → g = f :=
      fun hg hname =>
    List.inj_on_of_nodup_map e.names_nodup hg.mem hf (hkey.trans hname).symm
  cases hat with
  | same => exact .inl rfl
  | embeddedObject hg hd hinner =>
    obtain rfl := hsame hg rfl
    cases hinner with
    | object hfields => exact .inr (.inl ⟨_, _, _, hg, hd, rfl, rfl, .object hfields⟩)
  | embeddedList hg hd hinner =>
    obtain rfl := hsame hg rfl
    exact .inr (.inr (.inl ⟨_, _, _, hg, hd, rfl, rfl, hinner⟩))
  | children hg hd hread hread' hadded hupdated hdeleted =>
    obtain rfl := hsame hg rfl
    exact .inr (.inr (.inr (.inl ⟨rfl, _, _, _, _, _, hg, hd, rfl, rfl, hread, hread', hadded,
      hupdated, hdeleted⟩)))
  | lost hg =>
    obtain rfl := hsame hg rfl
    exact .inr (.inr (.inr (.inr ⟨rfl, hg⟩)))

/-- The identifiers are the same. -/
theorem Registry.Resembles.argument_id (h : r.Resembles embedded e args args') :
    Executor.argument args "id" = Executor.argument args' "id" := by
  have hsame : ∀ {a a' : Option Value}, r.ResemblesAt embedded e "id" a a' → a = a' := by
    intro a a' h
    generalize hkey : "id" = key at h
    have hname : ∀ {kind : FieldKind} {f : FieldDef}, e.Declares kind f → key ≠ f.name := by
      rintro kind f hf rfl
      have := hf.notId
      rw [FieldDef.isIdentifier, ← hkey] at this
      cases this
    cases h with
    | same => rfl
    | embeddedObject hf | embeddedList hf | children hf | lost hf => exact absurd rfl (hname hf)
  cases h with
  | object h => rw [Executor.argument, Executor.argument, hsame (h "id")]

end Arguments

/-! ## Actions side by side -/

theorem Action.lift_ok_bind (v : α) (f : α → Action τ β) :
    (liftM (.ok v : Outcome α) >>= f) = f v := rfl

/-- Two actions after the same computation. -/
theorem Action.lift_bind_congr {o : Outcome α} {f g : α → Action τ β}
    (h : ∀ v, o = .ok v → f v = g v) :
    (liftM o >>= f) = (liftM o >>= g) := by
  rcases o with e | v
  · rfl
  · exact h v rfl

/-- **Alongside each other** are two actions that can be exchanged for one another in front of
continuations that do the same for results related by `Q`. -/
structure Alongside (Q : α → α → Prop) (a a' : Action τ α) : Prop where
  exchange : ∀ {γ : Type} (k k' : α → Action τ γ), (∀ v v', Q v v' → k v = k' v') →
    a >>= k = a' >>= k'

namespace Alongside

variable {Q : α → α → Prop} {R : β → β → Prop} {a a' : Action τ α}

theorem pure {v v' : α} (h : Q v v') : Alongside Q (Pure.pure v : Action τ α) (Pure.pure v') where
  exchange k k' hk := by rw [pure_bind, pure_bind, hk v v' h]

theorem throw (e : Fault) :
    Alongside Q (MonadExcept.throw e : Action τ α) (MonadExcept.throw e) where
  exchange _ _ _ := rfl

theorem bind (h : Alongside Q a a') {f f' : α → Action τ β}
    (hf : ∀ v v', Q v v' → Alongside R (f v) (f' v')) :
    Alongside R (a >>= f) (a' >>= f') where
  exchange k k' hk := by
    rw [bind_assoc, bind_assoc]
    exact h.exchange _ _ fun v v' hv => (hf v v' hv).exchange k k' hk

/-- After the same action. -/
theorem after (a : Action τ α) {f f' : α → Action τ β} (hf : ∀ v, Alongside R (f v) (f' v)) :
    Alongside R (a >>= f) (a >>= f') where
  exchange k k' hk := by
    rw [bind_assoc, bind_assoc]
    exact bind_congr fun v => (hf v).exchange k k' hk

/-- Actions with the same results are the same. -/
theorem eq (h : Alongside Q a a') (hQ : ∀ v v', Q v v' → v = v') : a = a' := by
  have hpure := h.exchange Pure.pure Pure.pure fun v v' hv => by rw [hQ v v' hv]
  rwa [bind_pure, bind_pure] at hpure

end Alongside

/-! ## Making documents -/

/-- **Made alike**: the same document, and outside embedded values the same keys of nulls. -/
def Materialized.Matches (embedded : Bool) (made made' : Materialized) : Prop :=
  made.document = made'.document ∧ (embedded = false → made.unset = made'.unset)

theorem Materialized.Matches.put {embedded : Bool} {made made' : Materialized}
    (h : made.Matches embedded made') (key : String) (v : Value) :
    (Materializer.put made key v).Matches embedded (Materializer.put made' key v) :=
  ⟨congrArg (Record.put · key v) h.1, h.2⟩

namespace Registry.Suits

variable {r : Registry} {e : Entity} {args : Value} {f : FieldDef} {d : Descriptor}

/-- An embedded object among suitable arguments suits its own entity. -/
theorem embeddedObject (h : r.Suits e args) (hr : r.Shaped) (hf : e.Declares .embeddedObject f)
    (hd : r.lookup (f.target.getD "") = .ok d) {fs : Document}
    (hv : fieldOf? f.name args = some (.object fs)) :
    r.Suits d.entity (.object fs) := by
  have hadmits := h.admits f hf.mem hf.notId _ (presentArgument?_eq_some.2 ⟨hv, rfl⟩)
  rw [Admits, hf.kind] at hadmits
  obtain ⟨target, ref, htarget, href, haccepts⟩ := hadmits
  rw [htarget, Option.getD_some] at hd
  obtain rfl := hr.named target d (get?_of_lookup hd)
  exact haccepts.suits hr (get?_of_lookup hd) href

/-- So do the items of an embedded list. -/
theorem embeddedList (h : r.Suits e args) (hr : r.Shaped) (hf : e.Declares .embeddedList f)
    (hd : r.lookup (f.target.getD "") = .ok d) {items : List Value}
    (hv : fieldOf? f.name args = some (.list items)) :
    ∀ w ∈ items, r.Suits d.entity w := by
  have hadmits := h.admits f hf.mem hf.notId _ (presentArgument?_eq_some.2 ⟨hv, rfl⟩)
  rw [Admits, hf.kind] at hadmits
  obtain ⟨target, ref, htarget, href, haccepts⟩ := hadmits
  rw [htarget, Option.getD_some] at hd
  obtain rfl := hr.named target d (get?_of_lookup hd)
  exact fun w hw => (haccepts items rfl w hw).suits hr (get?_of_lookup hd) href

/-- So do the children among changes to a list of related documents. -/
theorem referencedList (h : r.Suits e args) (hr : r.Shaped) (hf : f ∈ e.fields)
    (hd : r.lookup (f.target.getD "") = .ok d) {delta : Delta}
    (hdelta : deltaOf? f args = some delta) :
    (∀ w ∈ delta.added, r.Suits d.entity w) ∧ ∀ w ∈ delta.updated, r.Suits d.entity w := by
  obtain ⟨-, target, htarget, hadded, hupdated⟩ := h.children hf hdelta
  obtain ⟨hget, hname⟩ := hr.get?_of_lookup hd
  rw [htarget, Option.getD_some] at hname
  obtain rfl := hname
  exact ⟨fun w hw => (hadded w hw).suits hr hget (.inl rfl), fun w hw =>
    (hupdated w hw).suits hr hget (.inr rfl)⟩

end Registry.Suits

namespace Materializer

variable {m : Materializer τ S} {embedded : Bool} {e : Entity} {f : FieldDef} {args args' : Value}
  {made made' : Materialized}

theorem checkField_eq (hcode : (m.behaviour.entity e.name).Overlooks m.registry e)
    {a a' : Option Value} (h : m.registry.ResemblesAt embedded e f.name a a') :
    m.checkField e.name f (a.getD .null) = m.checkField e.name f (a'.getD .null) := by
  have hchecks := hcode.fieldChecks h m.operation
  unfold checkField
  generalize (m.behaviour.entity e.name).fieldChecks m.operation f.name = checks at hchecks
  induction checks with
  | nil => rfl
  | cons check rest ih =>
    rw [List.forM, List.forM, hchecks check (List.mem_cons_self ..), ih fun c hc =>
      hchecks c (List.mem_cons_of_mem _ hc)]

theorem checkEntity_eq (hcode : (m.behaviour.entity e.name).Overlooks m.registry e)
    (h : m.registry.Resembles embedded e args args') (doc : Document) :
    m.checkEntity e.name args doc = m.checkEntity e.name args' doc := by
  have hchecks := hcode.entityChecks h m.operation
  unfold checkEntity
  generalize (m.behaviour.entity e.name).entityChecks m.operation = checks at hchecks
  induction checks generalizing doc with
  | nil => rfl
  | cons check rest ih =>
    rw [List.foldlM_cons, List.foldlM_cons, hchecks check (List.mem_cons_self ..)]
    exact bind_congr fun doc => ih doc fun c hc => hchecks c (List.mem_cons_of_mem _ hc)

/-- The same argument is put in alike. -/
theorem alongside_materializeValue (f : FieldDef) (v : Value) (h : made.Matches embedded made') :
    Alongside (Materialized.Matches embedded) (m.materializeValue f v made)
    (m.materializeValue f v made') := by
  rw [materializeValue.eq_def, materializeValue.eq_def]
  refine .after _ fun kind => ?_
  cases kind with
  | scalar | enumeration | referencedObject => exact .after _ fun w => .pure (h.put _ _)
  | scalarList =>
    dsimp only
    split
    · exact .after _ fun ws => .pure (h.put _ _)
    · exact .throw _
  | embeddedObject | embeddedList =>
    dsimp only
    split
    · exact .after _ fun d => .after _ fun inner => .pure (h.put _ _)
    · exact .throw _
  | referencedList =>
    dsimp only
    split
    · exact .pure h
    · exact .throw _

theorem alongside_materializeField_same (hsame : fieldOf? f.name args = fieldOf? f.name args')
    (h : made.Matches embedded made') :
    Alongside (Materialized.Matches embedded) (m.materializeField args f made)
    (m.materializeField args' f made') := by
  unfold materializeField
  rw [hsame]
  split
  · exact .pure h
  split
  · exact .pure h
  split
  · split
    · exact .pure ⟨h.1, fun hout => by rw [h.2 hout]⟩
    · exact .pure h
  · exact alongside_materializeValue f _ h

/-- A field with a present argument. -/
theorem materializeField_of_present (hid : f.isIdentifier = false) {v : Value}
    (hv : fieldOf? f.name args = some v) (hpresent : v.isEmpty = false) :
    m.materializeField args f made = m.materializeValue f v made := by
  rw [materializeField, if_neg (by rw [hid]; exact Bool.false_ne_true), hv]
  dsimp only
  rw [if_neg (by rw [hpresent]; exact Bool.false_ne_true)]

/-- An embedded object is put in as its document. -/
theorem materializeValue_object (hk : f.kind = .ok .embeddedObject) {d : Descriptor}
    (hd : m.registry.lookup (f.target.getD "") = .ok d) (fs : Document) (made : Materialized) :
    m.materializeValue f (.object fs) made = (do
      let inner ← m.materialize d.entity none (.object fs)
      pure (put made f.name (.object inner.document))) := by
  rw [materializeValue.eq_def, hk, Action.lift_ok_bind]
  dsimp only
  rw [hd, Action.lift_ok_bind]

/-- An embedded list is put in as its documents. -/
theorem materializeValue_list (hk : f.kind = .ok .embeddedList) {d : Descriptor}
    (hd : m.registry.lookup (f.target.getD "") = .ok d) (items : List Value) (made : Materialized) :
    m.materializeValue f (.list items) made = (do
      let ds ← m.materializeItems f d.entity items
      pure (put made f.name (.list ds))) := by
  rw [materializeValue.eq_def, hk, Action.lift_ok_bind]
  dsimp only
  rw [hd, Action.lift_ok_bind]

/-- Changes that can be read put nothing in. -/
theorem materializeValue_changes (hk : f.kind = .ok .referencedList) {v : Value} {delta : Delta}
    (hread : Delta.ofValue? v = some delta) (made : Materialized) :
    m.materializeValue f v made = pure made := by
  rw [materializeValue.eq_def, hk, Action.lift_ok_bind]
  dsimp only
  rw [hread]

/-- The changes among suitable arguments put nothing into the document. -/
theorem materializeField_changes (hf : e.Declares .referencedList f)
    (hargs : m.registry.Suits e args) (made : Materialized) :
    ∃ unset, m.materializeField args f made = pure { made with unset := unset } := by
  rcases hv : fieldOf? f.name args with _ | v
  · refine ⟨made.unset, ?_⟩
    rw [materializeField, hv]
    split <;> rfl
  rcases hpresent : v.isEmpty with _ | _
  · refine ⟨made.unset, ?_⟩
    have hadmits := hargs.admits f hf.mem hf.notId v (presentArgument?_eq_some.2 ⟨hv, hpresent⟩)
    rw [Registry.Admits, hf.kind] at hadmits
    obtain ⟨-, delta, -, hread, -⟩ := hadmits
    rw [materializeField_of_present hf.notId hv hpresent, materializeValue_changes hf.kind hread]
  · rw [materializeField, hf.notId, hv]
    dsimp only
    rw [if_neg Bool.false_ne_true, if_pos hpresent]
    split
    · exact ⟨_, rfl⟩
    · exact ⟨made.unset, rfl⟩

/-- **One step of the walk** over the fields, alongside each other, when embedded values are made
alike. -/
theorem alongside_materializeField (hr : m.registry.Shaped) (hf : f ∈ e.fields)
    (h : m.registry.Resembles embedded e args args') (hargs : m.registry.Suits e args)
    (hargs' : m.registry.Suits e args')
    (hobject : ∀ d fs fs', m.registry.lookup (f.target.getD "") = .ok d →
      fieldOf? f.name args = some (.object fs) →
      m.registry.Resembles true d.entity (.object fs) (.object fs') →
      m.registry.Suits d.entity (.object fs) →
      m.registry.Suits d.entity (.object fs') → Alongside (Materialized.Matches true)
        (m.materialize d.entity none (.object fs)) (m.materialize d.entity none (.object fs')))
    (hitems : ∀ d items items', m.registry.lookup (f.target.getD "") = .ok d →
      fieldOf? f.name args = some (.list items) →
        m.registry.ResemblesEach true d.entity items items' →
      (∀ w ∈ items, m.registry.Suits d.entity w) → (∀ w ∈ items', m.registry.Suits d.entity w) →
      Alongside (· = ·) (m.materializeItems f d.entity items)
        (m.materializeItems f d.entity items'))
    (hmade : made.Matches embedded made') :
    Alongside (Materialized.Matches embedded) (m.materializeField args f made)
      (m.materializeField args' f made') := by
  rcases h.field_cases hf with hsame | ⟨d, fs, fs', hg, hd, hv, hv', hinner⟩ |
    ⟨d, vs, vs', hg, hd, hv, hv', hinner⟩ |
    ⟨-, d, v, v', delta, delta', hg, hd, hv, hv', hread, hread', -⟩ | ⟨rfl, hg⟩
  · exact alongside_materializeField_same hsame hmade
  · rw [materializeField_of_present hg.notId hv rfl, materializeField_of_present hg.notId hv' rfl,
      materializeValue_object hg.kind hd, materializeValue_object hg.kind hd]
    refine .bind (hobject d fs fs' hd hv hinner (hargs.embeddedObject hr hg hd hv)
      (hargs'.embeddedObject hr hg hd hv')) fun inner inner' hmatches => .pure ?_
    rw [hmatches.1]
    exact hmade.put _ _
  · rw [materializeField_of_present hg.notId hv rfl, materializeField_of_present hg.notId hv' rfl,
      materializeValue_list hg.kind hd, materializeValue_list hg.kind hd]
    refine .bind (hitems d vs vs' hd hv hinner (hargs.embeddedList hr hg hd hv)
      (hargs'.embeddedList hr hg hd hv')) fun ds ds' hds => .pure ?_
    rw [hds]
    exact hmade.put _ _
  · rw [materializeField_of_present hg.notId hv (Delta.isEmpty_of_ofValue? hread),
      materializeField_of_present hg.notId hv' (Delta.isEmpty_of_ofValue? hread'),
      materializeValue_changes hg.kind hread, materializeValue_changes hg.kind hread']
    exact .pure hmade
  · obtain ⟨unset, hfield⟩ := materializeField_changes hg hargs made
    obtain ⟨unset', hfield'⟩ := materializeField_changes hg hargs' made'
    rw [hfield, hfield']
    exact .pure ⟨hmade.1, fun hout => by cases hout⟩

mutual

/-- **Resembling arguments make the same document.** -/
theorem alongside_materialize (hr : m.registry.Shaped) (hcode : m.behaviour.Overlooks m.registry)
    (embedded : Bool) (d : Descriptor) (hd : Record.get? m.registry.descriptors d.name = some d)
    (link : Option ParentLink) (args args' : Value)
    (h : m.registry.Resembles embedded d.entity args args') (hargs : m.registry.Suits d.entity args)
    (hargs' : m.registry.Suits d.entity args') :
    Alongside (Materialized.Matches embedded) (m.materialize d.entity link args)
      (m.materialize d.entity link args') := by
  rw [materialize, materialize]
  refine .bind (alongside_materializeFields hr hcode embedded d hd args args' h hargs
    hargs' d.entity.fields (fun _ => id) ⟨[], []⟩ ⟨[], []⟩ ⟨rfl, fun _ => rfl⟩)
    fun made made' hmade => ?_
  dsimp only
  rw [hmade.1, checkEntity_eq (hcode d hd) h]
  exact .after _ fun doc => .pure ⟨rfl, hmade.2⟩
termination_by (sizeOf args, 3, 0)

theorem alongside_materializeFields (hr : m.registry.Shaped)
    (hcode : m.behaviour.Overlooks m.registry) (embedded : Bool) (d : Descriptor)
    (hd : Record.get? m.registry.descriptors d.name = some d) (args args' : Value)
    (h : m.registry.Resembles embedded d.entity args args') (hargs : m.registry.Suits d.entity args)
    (hargs' : m.registry.Suits d.entity args') :
    ∀ fields : List FieldDef, (∀ f ∈ fields, f ∈ d.entity.fields) → ∀ made made' : Materialized,
      made.Matches embedded made' → Alongside (Materialized.Matches embedded)
        (m.materializeFields d.entity.name args fields made)
        (m.materializeFields d.entity.name args' fields made')
  | [], _, made, made', hmade => by
    rw [materializeFields, materializeFields]
    exact .pure hmade
  | f :: rest, hfields, made, made', hmade => by
    have hnone : ∀ {v : Value}, m.registry.Suits d.entity v → ¬ v.fields?.isNone = true := by
      intro v hv
      obtain ⟨fs, rfl⟩ := hv.object
      exact Bool.false_ne_true
    rw [materializeFields_cons, materializeFields_cons, if_neg (hnone hargs), if_neg (hnone hargs'),
      checkField_eq (hcode d hd) (h.at f.name)]
    refine .after _ fun _ =>
      .bind (alongside_materializeField hr (hfields f (List.mem_cons_self ..)) h hargs hargs'
        (fun e fs fs' he hfs hinner hsuits hsuits' =>
        ?_) (fun e items items' he hitems hinner hsuits hsuits' => ?_)
      hmade) fun made made' hmade =>
        alongside_materializeFields hr hcode embedded d hd args args' h hargs hargs' rest
          (fun g hg => hfields g (List.mem_cons_of_mem _ hg)) made made' hmade
    · have : 1 + sizeOf fs < sizeOf args := Value.object.sizeOf_spec fs ▸ sizeOf_fieldOf?_lt hfs
      exact alongside_materialize hr hcode true e (hr.get?_of_lookup he).1 none (.object fs)
        (.object fs') hinner hsuits hsuits'
    · have : 1 + sizeOf items < sizeOf args :=
        Value.list.sizeOf_spec items ▸ sizeOf_fieldOf?_lt hitems
      exact alongside_materializeItems hr hcode e (hr.get?_of_lookup he).1 f items items'
        hinner hsuits hsuits'
termination_by fields => (sizeOf args, 2, fields.length)

theorem alongside_materializeItems (hr : m.registry.Shaped)
    (hcode : m.behaviour.Overlooks m.registry) (d : Descriptor)
    (hd : Record.get? m.registry.descriptors d.name = some d) (f : FieldDef) :
    ∀ items items' : List Value, m.registry.ResemblesEach true d.entity items items' →
      (∀ w ∈ items, m.registry.Suits d.entity w) → (∀ w ∈ items', m.registry.Suits d.entity w) →
      Alongside (· = ·) (m.materializeItems f d.entity items) (m.materializeItems f d.entity items')
  | [], _, h, _, _ => by
    cases h
    rw [materializeItems]
    exact .pure rfl
  | v :: rest, _, h, hsuits, hsuits' => by
    cases h with
    | @cons _ _ _ v' _ rest' h hrest =>
      cases h with
      | @object _ _ fs fs' hfields =>
        rw [materializeItems, materializeItems]
        refine .bind (alongside_materialize hr hcode true d hd none (.object fs) (.object fs')
          (.object hfields) (hsuits _ (List.mem_cons_self ..)) (hsuits' _ (List.mem_cons_self ..)))
          fun inner inner' hmatches => ?_
        refine .bind (alongside_materializeItems hr hcode d hd f rest rest' hrest
          (fun w hw => hsuits w (List.mem_cons_of_mem _ hw)) fun w hw =>
          hsuits' w (List.mem_cons_of_mem _ hw)) fun ds ds' hds => .pure ?_
        rw [hmatches.1, hds]
termination_by items => (sizeOf items, 0, 0)

end

end Materializer

/-! ## Writing -/

namespace Executor

variable {x : Executor τ SessionId} {e : Entity} {f : FieldDef} {args args' : Value}

/-- Resembling arguments outside embedded values make the same. -/
theorem materialize_eq_of_resembles (hr : x.registry.Shaped)
    (hcode : x.behaviour.Overlooks x.registry) {d : Descriptor}
    (hd : Record.get? x.registry.descriptors d.name = some d)
    (h : x.registry.Resembles false d.entity args args') (hargs : x.registry.Suits d.entity args)
    (hargs' : x.registry.Suits d.entity args') (operation : Operation) (s : SessionId)
    (link : Option ParentLink) :
    (x.materializer operation s).materialize d.entity link args =
      (x.materializer operation s).materialize d.entity link args' := by
  refine (Materializer.alongside_materialize (m := x.materializer operation s) hr hcode false d hd
    link args args' h hargs hargs').eq fun made made' hmade => ?_
  obtain ⟨hdocument, hunset⟩ := hmade
  cases made
  cases made'
  cases hdocument
  cases hunset rfl
  rfl

/-- The changes that a field holds, read off its argument. -/
theorem deltaOf?_of_ofValue? (hf : e.Declares .referencedList f) {v : Value}
    (hv : fieldOf? f.name args = some v) {delta : Delta} (hread : Delta.ofValue? v = some delta) :
    deltaOf? f args = some delta := by
  have hlist : f.isReferencedList = true := by
    rw [FieldDef.isReferencedList, FieldDef.kind?, hf.kind]
    rfl
  rw [deltaOf?, if_pos (by rw [hlist, hf.notId]; rfl),
    presentArgument?_eq_some.2 ⟨hv, Delta.isEmpty_of_ofValue? hread⟩]
  exact hread

/-- Fields of another kind hold no changes. -/
theorem deltaOf?_eq_none {kind : FieldKind} (hf : e.Declares kind f)
    (hkind : kind ≠ .referencedList) :
    deltaOf? f args = none := by
  refine Option.eq_none_iff_forall_ne_some.2 fun delta hdelta => hkind ?_
  exact Except.ok.inj (hf.kind.symm.trans
    (FieldDef.kind_of_isReferencedList (isReferencedList_of_deltaOf? hdelta)))

/-- **The changes that resembling arguments hold** for a field are the same, or have resembling
children. -/
theorem deltaOf?_cases (h : x.registry.Resembles false e args args') (hf : f ∈ e.fields) :
    deltaOf? f args = deltaOf? f args' ∨
      ∃ d delta delta', x.registry.lookup (f.target.getD "") = .ok d ∧
        deltaOf? f args = some delta ∧
        deltaOf? f args' = some delta' ∧
        x.registry.ResemblesEach false d.entity delta.added delta'.added ∧
        x.registry.ResemblesEach false d.entity delta.updated delta'.updated ∧
        delta.deleted = delta'.deleted := by
  rcases h.field_cases hf with hsame | ⟨_, _, _, hg, -⟩ | ⟨_, _, _, hg, -⟩ |
    ⟨-, d, v, v', delta, delta', hg, hd, hv, hv', hread, hread', hchildren⟩ | ⟨hout, -⟩
  · exact .inl (by rw [deltaOf?, deltaOf?, presentArgument?, presentArgument?, hsame])
  · exact .inl (by rw [deltaOf?_eq_none hg (by decide), deltaOf?_eq_none hg (by decide)])
  · exact .inl (by rw [deltaOf?_eq_none hg (by decide), deltaOf?_eq_none hg (by decide)])
  · exact .inr ⟨d, delta, delta', hd, deltaOf?_of_ofValue? hg hv hread,
      deltaOf?_of_ofValue? hg hv' hread', hchildren⟩
  · cases hout

variable {ops : Operations τ SessionId} {s : SessionId} {d : Descriptor}

/-- Changes with children that do the same do the same. -/
theorem applyDelta_eq {e : Descriptor} (he : x.registry.lookup (f.target.getD "") = .ok e)
    (parent : Value) {delta delta' : Delta} (hdeleted : delta.deleted = delta'.deleted)
    (hsaved : ∀ link, x.saveAll ops e link s delta.added = x.saveAll ops e link s delta'.added)
    (hupdated : ∀ link, x.updateAll ops e link s delta.updated =
      x.updateAll ops e link s delta'.updated) :
    x.applyDelta ops d parent s f delta = x.applyDelta ops d parent s f delta' := by
  rw [applyDelta, applyDelta, hdeleted]
  split
  · rfl
  · refine Action.lift_bind_congr fun e' he' => ?_
    obtain rfl := Except.ok.inj (he.symm.trans (descriptor_eq_ok he').1)
    rw [hsaved, hupdated]

mutual

/-- **Resembling arguments are saved alike.** -/
theorem saveIn_eq_of_resembles (hr : x.registry.Shaped) (hcode : x.behaviour.Overlooks x.registry)
    (d : Descriptor) (hd : Record.get? x.registry.descriptors d.name = some d)
    (link : Option ParentLink) (args args' : Value)
    (h : x.registry.Resembles false d.entity args args') (hargs : x.registry.Suits d.entity args)
    (hargs' : x.registry.Suits d.entity args') :
    x.saveIn ops d link s args = x.saveIn ops d link s args' := by
  have hdeltas := fun parent =>
    applyDeltas_eq_of_resembles hr hcode d hd parent args args' h hargs hargs' d.entity.fields
      fun _ => id
  rw [saveIn, saveIn, materialize_eq_of_resembles hr hcode hd h hargs hargs']
  simp only [hooks, (hcode d hd).onSaving h, (hcode d hd).onSaved h, hdeltas]
termination_by (sizeOf args, 2, 0)

/-- **Resembling arguments are updated alike.** -/
theorem updateIn_eq_of_resembles (hr : x.registry.Shaped) (hcode : x.behaviour.Overlooks x.registry)
    (d : Descriptor) (hd : Record.get? x.registry.descriptors d.name = some d)
    (link : Option ParentLink) (args args' : Value)
    (h : x.registry.Resembles false d.entity args args') (hargs : x.registry.Suits d.entity args)
    (hargs' : x.registry.Suits d.entity args') :
    x.updateIn ops d link s args = x.updateIn ops d link s args' := by
  have hdeltas := fun parent =>
    applyDeltas_eq_of_resembles hr hcode d hd parent args args' h hargs hargs' d.entity.fields
      fun _ => id
  rw [updateIn, updateIn, h.argument_id, materialize_eq_of_resembles hr hcode hd h hargs hargs']
  simp only [hooks, (hcode d hd).onUpdating h, (hcode d hd).onUpdated h, hdeltas]
termination_by (sizeOf args, 2, 0)

theorem applyDeltas_eq_of_resembles (hr : x.registry.Shaped)
    (hcode : x.behaviour.Overlooks x.registry) (d : Descriptor)
    (hd : Record.get? x.registry.descriptors d.name = some d) (parent : Value) (args args' : Value)
    (h : x.registry.Resembles false d.entity args args') (hargs : x.registry.Suits d.entity args)
    (hargs' : x.registry.Suits d.entity args') :
    ∀ fields : List FieldDef, (∀ f ∈ fields, f ∈ d.entity.fields) →
      x.applyDeltas ops d parent s args fields = x.applyDeltas ops d parent s args' fields
  | [], _ => by rw [applyDeltas, applyDeltas]
  | f :: rest, hfields => by
    have hf := hfields f (List.mem_cons_self ..)
    rw [applyDeltas_cons, applyDeltas_cons,
      applyDeltas_eq_of_resembles hr hcode d hd parent args args' h hargs hargs' rest fun g hg =>
      hfields g (List.mem_cons_of_mem _ hg)]
    rcases deltaOf?_cases h hf with hsame |
      ⟨e, delta, delta', he, hdelta, hdelta', hadded, hupdated, hdeleted⟩
    · rw [hsame]
    · have := sizeOf_deltaOf?_lt hdelta
      have hget := (hr.get?_of_lookup he).1
      obtain ⟨hsaves, hupdates⟩ := hargs.referencedList hr hf he hdelta
      obtain ⟨hsaves', hupdates'⟩ := hargs'.referencedList hr hf he hdelta'
      rw [hdelta, hdelta']
      dsimp only
      rw [applyDelta_eq he parent hdeleted
        (fun link => saveAll_eq_of_resembles hr hcode e hget link delta.added delta'.added
        hadded hsaves hsaves') fun link =>
          updateAll_eq_of_resembles hr hcode e hget link delta.updated delta'.updated hupdated
            hupdates hupdates']
termination_by fields => (sizeOf args, 1, fields.length)

theorem saveAll_eq_of_resembles (hr : x.registry.Shaped) (hcode : x.behaviour.Overlooks x.registry)
    (d : Descriptor) (hd : Record.get? x.registry.descriptors d.name = some d) (link : ParentLink) :
    ∀ items items' : List Value, x.registry.ResemblesEach false d.entity items items' →
      (∀ w ∈ items, x.registry.Suits d.entity w) → (∀ w ∈ items', x.registry.Suits d.entity w) →
      x.saveAll ops d link s items = x.saveAll ops d link s items'
  | [], _, h, _, _ => by cases h; rfl
  | v :: rest, _, h, hsuits, hsuits' => by
    cases h with
    | @cons _ _ _ v' _ rest' h hrest =>
      rw [saveAll, saveAll, saveIn_eq_of_resembles hr hcode d hd (some link) v v' h
        (hsuits _ (List.mem_cons_self ..)) (hsuits' _ (List.mem_cons_self ..)),
        saveAll_eq_of_resembles hr hcode d hd link rest rest' hrest (fun w hw =>
        hsuits w (List.mem_cons_of_mem _ hw)) fun w hw => hsuits' w (List.mem_cons_of_mem _ hw)]
termination_by items => (sizeOf items, 0, 0)

theorem updateAll_eq_of_resembles (hr : x.registry.Shaped)
    (hcode : x.behaviour.Overlooks x.registry) (d : Descriptor)
    (hd : Record.get? x.registry.descriptors d.name = some d) (link : ParentLink) :
    ∀ items items' : List Value, x.registry.ResemblesEach false d.entity items items' →
      (∀ w ∈ items, x.registry.Suits d.entity w) → (∀ w ∈ items', x.registry.Suits d.entity w) →
      x.updateAll ops d link s items = x.updateAll ops d link s items'
  | [], _, h, _, _ => by cases h; rfl
  | v :: rest, _, h, hsuits, hsuits' => by
    cases h with
    | @cons _ _ _ v' _ rest' h hrest =>
      rw [updateAll, updateAll, updateIn_eq_of_resembles hr hcode d hd (some link) v v' h
        (hsuits _ (List.mem_cons_self ..)) (hsuits' _ (List.mem_cons_self ..)),
        updateAll_eq_of_resembles hr hcode d hd link rest rest' hrest
        (fun w hw => hsuits w (List.mem_cons_of_mem _ hw)) fun w hw =>
        hsuits' w (List.mem_cons_of_mem _ hw)]
termination_by items => (sizeOf items, 0, 0)

end

/-- A document is looked for in the collection of its own entity. -/
theorem eq_of_descriptor (hr : x.registry.Shaped) {n : String} (hd : x.registry.lookup n = .ok d)
    {e : Descriptor} (he : x.descriptor d.name = .ok e) : e = d := by
  obtain ⟨-, hname⟩ := hr.get?_of_lookup hd
  rw [hname] at he
  exact Except.ok.inj ((descriptor_eq_ok he).1.symm.trans hd)

/-- The operations of the service run those that user code may call. -/
theorem operations_eq : x.operations = x.operationsOver (x.operationsTo nestingLimit) := rfl

/-- **Adding documents** is the same for resembling arguments. -/
theorem save_eq_of_resembles (hr : x.registry.Shaped) (hcode : x.behaviour.Overlooks x.registry)
    {n : String} (hd : x.registry.lookup n = .ok d)
    (h : x.registry.Resembles false d.entity args args') (hargs : x.registry.Suits d.entity args)
    (hargs' : x.registry.Suits d.entity args') (session : Option SessionId) :
    x.operations.save d.name args session = x.operations.save d.name args' session := by
  rw [operations_eq]
  generalize x.operationsTo nestingLimit = ops
  refine Action.lift_bind_congr fun e he => ?_
  obtain rfl := eq_of_descriptor hr hd he
  have hsave : ∀ s, x.saveIn ops e none s args = x.saveIn ops e none s args' := fun s =>
    saveIn_eq_of_resembles hr hcode e (hr.get?_of_lookup hd).1 none args args' h hargs hargs'
  simp only [hsave]

/-- **Updating documents** is the same for resembling arguments. -/
theorem update_eq_of_resembles (hr : x.registry.Shaped) (hcode : x.behaviour.Overlooks x.registry)
    {n : String} (hd : x.registry.lookup n = .ok d)
    (h : x.registry.Resembles false d.entity args args') (hargs : x.registry.Suits d.entity args)
    (hargs' : x.registry.Suits d.entity args') (session : Option SessionId) :
    x.operations.update d.name args session = x.operations.update d.name args' session := by
  rw [operations_eq]
  generalize x.operationsTo nestingLimit = ops
  refine Action.lift_bind_congr fun e he => ?_
  obtain rfl := eq_of_descriptor hr hd he
  have hupdate : ∀ s, x.updateIn ops e none s args = x.updateIn ops e none s args' := fun s =>
    updateIn_eq_of_resembles hr hcode e (hr.get?_of_lookup hd).1 none args args' h hargs hargs'
  simp only [hupdate]

end Executor

/-! ## Calls -/

namespace Dispatcher

variable {x : Dispatcher τ SessionId}

/-- Arguments that pass the check suit the entity that they are written for. -/
theorem suits_of_checkWrite {r : Registry} (hr : r.Shaped) {n : String} {d : Descriptor}
    (hd : r.lookup n = .ok d) {ref : ShapeRef} (href : ref.IsFor d.name) {args : Value}
    (h : checkWrite r ref args = .ok ()) :
    r.Suits d.entity args :=
  (accepts_of_checkWrite h).suits hr (hr.get?_of_lookup hd).1 href

/-- **An endpoint that adds or updates** documents runs the operation on arguments that are
accepted. -/
theorem execute_write {ep : Endpoint} {d : Descriptor}
    (hd : x.executor.registry.lookup (ep.entity.getD "") = .ok d) {t : τ} {q : Call} :
    (ep.kind = .save → checkWrite x.executor.registry (.add d.name) q.args = .ok () →
      (x.execute ep).run.run (t, q) =
        (perform (x.executor.operations.save d.name q.args none)).run.run (t, q)) ∧
    (ep.kind = .update → checkWrite x.executor.registry (.update d.name) q.args = .ok () →
      (x.execute ep).run.run (t, q) =
        (perform (x.executor.operations.update d.name q.args none)).run.run (t, q)) := by
  constructor
  all_goals
    intro hk hargs
    unfold execute
    dsimp only
    rw [Action.run_bind_ok (run_arguments t q), hk]
    dsimp only
    rw [hd, Action.run_bind_ok (Action.run_lift _ _)]
    unfold onEntity
    rw [hk]
    dsimp only
    rw [hargs, Action.run_bind_ok (Action.run_lift _ _)]

/-- **Changes inside embedded values make no difference.** Let two calls add or update documents
with arguments that pass the check, and that differ in nothing but changes inside embedded values,
which user code overlooks, and let the middleware pass them on in the same state. Then both have the
same outcome, and leave the same state: what such changes add, update or delete is neither stored
nor refused. -/
theorem call_resembling (hr : x.executor.registry.Built)
    (hcode : x.executor.behaviour.Overlooks x.executor.registry) {name : String} {ep : Endpoint}
    (hep : Record.get? x.endpoints name = some ep) {d : Descriptor}
    (hd : x.executor.registry.lookup (ep.entity.getD "") = .ok d) {ref : ShapeRef}
    (hk : ep.kind = .save ∧ ref = .add d.name ∨ ep.kind = .update ∧ ref = .update d.name)
    {t t' t₁ : τ} {q q' q₁ q₁' : Call} (hpasses : x.Passes ep t q t₁ q₁)
    (hpasses' : x.Passes ep t' q' t₁ q₁')
    (hargs : checkWrite x.executor.registry ref q₁.args = .ok ())
    (hargs' : checkWrite x.executor.registry ref q₁'.args = .ok ())
    (h : x.executor.registry.Resembles false d.entity q₁.args q₁'.args) :
    ((x.call name).run.run (t, q)).1 = ((x.call name).run.run (t', q')).1 ∧
      ((x.call name).run.run (t, q)).2.1 = ((x.call name).run.run (t', q')).2.1 := by
  obtain ⟨fs, hfs, hchain⟩ := hpasses
  obtain ⟨fs', hfs', hchain'⟩ := hpasses'
  have hshaped := hr.shaped
  rw [run_call_eq hep hfs, run_call_eq hep hfs', Action.run_bind_ok hchain,
    Action.run_bind_ok hchain']
  dsimp only
  rcases hk with ⟨hk, rfl⟩ | ⟨hk, rfl⟩
  · have hsuits := suits_of_checkWrite hshaped hd (.inl rfl) hargs
    have hsuits' := suits_of_checkWrite hshaped hd (.inl rfl) hargs'
    rw [(execute_write hd).1 hk hargs, (execute_write hd).1 hk hargs',
      Executor.save_eq_of_resembles hshaped hcode hd h hsuits hsuits' none]
    exact ⟨rfl, rfl⟩
  · have hsuits := suits_of_checkWrite hshaped hd (.inr rfl) hargs
    have hsuits' := suits_of_checkWrite hshaped hd (.inr rfl) hargs'
    rw [(execute_write hd).2 hk hargs, (execute_write hd).2 hk hargs',
      Executor.update_eq_of_resembles hshaped hcode hd h hsuits hsuits' none]
    exact ⟨rfl, rfl⟩

end Dispatcher

/-! ## Books with remarks in their prefaces -/

/-- A remark is a text. -/
def remark : Entity where
  name := "Remark"
  fields := [⟨"id", .scalar .id, false, true, false, false, none, .null⟩, textField "text"]
  description := .null
  names_nodup := by decide

/-- A chapter has a list of remarks. -/
def remarksField : FieldDef :=
  ⟨"remarks", .entity "Remark", true, true, false, false, some ⟨false, "chapter", .null⟩, .null⟩

/-- A book embeds its preface. -/
def prefaceField : FieldDef :=
  ⟨"preface", .entity "Chapter", false, true, false, false, some ⟨true, "", .null⟩, .null⟩

/-- Chapters have a title and remarks. -/
def chapter : Entity where
  name := "Chapter"
  fields := [textField "title", remarksField]
  description := .null
  names_nodup := by decide

/-- Books have a title and a preface. -/
def book : Entity where
  name := "Book"
  fields := [textField "title", prefaceField]
  description := .null
  names_nodup := by decide

/-- The entities of the service. -/
def libraryEntities : Registry :=
  ⟨[("Remark", ⟨remark, "remarks", some "remark", some "remarks", none, true, none, []⟩),
    ("Chapter", ⟨chapter, "Chapter", none, none, none, false, none, []⟩),
    ("Book", ⟨book, "books", some "book", some "books", none, true, none, []⟩)], [], false⟩

/-- The registry of the service. -/
def libraryRegistry : Registry := (Registry.finalize.run.run libraryEntities).2

/-- A service of books and remarks. -/
def library : Dispatcher MemoryStore SessionId where
  executor := {
    registry := libraryRegistry
    behaviour := ⟨fun _ => .none, fun _ _ _ => throw .illTyped⟩
    store := MemoryStore.documentStore.within ⟨id, fun m _ => m⟩
    policy := ⟨2, fun n => .ok (.whole n), fun _ => pure (), Nat.two_pos⟩ }
  endpoints := (Endpoint.table .everything libraryRegistry).toOption.getD []
  middleware := []
  defaultLimit := 10

/-- A preface with a remark to add, and another one to delete. -/
def remarkedPreface : Value :=
  .object [("title", .text "To the reader"), ("remarks", .object
    [("added", .list [.object [("text", .text "Unsigned")]]), ("deleted", .list [.id (.ofNat 7)])])]

/-- A book is added with such a preface. -/
def addRemarkedBook : Call := ⟨.object [("title", .text "Maps"), ("preface", remarkedPreface)], []⟩

/-- It is added without remarks. -/
def addPlainBook : Call :=
  ⟨.object [("title", .text "Maps"), ("preface", .object [("title", .text "To the reader")])], []⟩

theorem library_built : libraryRegistry.Built := by
  have hremark : Registry.empty.connect remark ⟨some "remarks", none, none, none⟩ =
      .ok ⟨libraryEntities.descriptors.take 1, [], false⟩ := rfl
  have hchapter : Registry.addEmbedded ⟨libraryEntities.descriptors.take 1, [], false⟩ chapter =
      .ok ⟨libraryEntities.descriptors.take 2, [], false⟩ := rfl
  have hbook : Registry.connect ⟨libraryEntities.descriptors.take 2, [], false⟩ book
      ⟨some "books", none, none, none⟩ = .ok libraryEntities := rfl
  exact .finalize (.connect (.embed (.connect .empty hremark) hchapter) hbook)

theorem remarks_declared : chapter.Declares .referencedList remarksField :=
    ⟨by simp [chapter], rfl, rfl⟩

theorem preface_declared : book.Declares .embeddedObject prefaceField := ⟨by simp [book], rfl, rfl⟩

/-- The two calls differ in nothing but the remarks in the preface. -/
theorem books_resemble :
    libraryRegistry.Resembles false book addRemarkedBook.args addPlainBook.args := by
  obtain ⟨d, hd, hentity⟩ : ∃ d, libraryRegistry.lookup "Chapter" = .ok d ∧ d.entity = chapter :=
    ⟨_, rfl, rfl⟩
  refine .object fun key => ?_
  by_cases hkey : key = "preface"
  · subst hkey
    refine .embeddedObject (f := prefaceField) preface_declared hd ?_
    rw [hentity]
    refine .object fun key => ?_
    by_cases hkey : key = "remarks"
    · subst hkey
      exact .lost (f := remarksField) remarks_declared _ _
    · rw [Record.get?_cons, Record.get?_cons, Record.get?_cons, if_neg (Ne.symm hkey)]
      exact .same _
  · rw [Record.get?_cons, Record.get?_cons, Record.get?_cons, Record.get?_cons,
      if_neg (Ne.symm hkey), if_neg (Ne.symm hkey)]
    exact .same _

/-- A book with remarks in its preface is added as one without. -/
theorem books_added_alike :
    ((library.call "addBook").run.run (.empty, addRemarkedBook)).1 =
      ((library.call "addBook").run.run (.empty, addPlainBook)).1 ∧
    ((library.call "addBook").run.run (.empty, addRemarkedBook)).2.1 =
      ((library.call "addBook").run.run (.empty, addPlainBook)).2.1 := by
  have hep : Record.get? library.endpoints "addBook" = some ⟨"addBook", .save, some "Book", none⟩ :=
    rfl
  obtain ⟨d, hd, hentity⟩ : ∃ d, libraryRegistry.lookup "Book" = .ok d ∧ d.entity = book :=
    ⟨_, rfl, rfl⟩
  have hname : d.name = "Book" := by
    rw [Descriptor.name, hentity]
    rfl
  refine Dispatcher.call_resembling library_built (fun _ _ =>
    EntityBehaviour.overlooks_none _ _) hep hd (.inl ⟨rfl, rfl⟩)
      (Dispatcher.passes_of_none rfl rfl _ _) (Dispatcher.passes_of_none rfl rfl _ _) ?_ ?_ ?_
  · rw [hname]
    cbv
  · rw [hname]
    cbv
  · rw [hentity]
    exact books_resemble

/-- **Changes that are lost.** The arguments of the call pass the check. The preface holds a remark
to add and one to delete, but the book is added, nothing is refused, and there is no remark
afterwards. -/
theorem remarks_lost :
    Dispatcher.checkWrite libraryRegistry (.add "Book") addRemarkedBook.args = .ok () ∧
    book.Declares .embeddedObject prefaceField ∧ prefaceField.target = some "Chapter" ∧
    chapter.Declares .referencedList remarksField ∧
    fieldOf? "preface" addRemarkedBook.args = some remarkedPreface ∧
    (∃ delta, deltaOf? remarksField remarkedPreface = some delta ∧
      delta.added = [.object [("text", .text "Unsigned")]] ∧ delta.deleted = [.id (.ofNat 7)]) ∧
    (∃ v, ((library.call "addBook").run.run (.empty, addRemarkedBook)).1 = .ok v) ∧
    ((((library.call "addBook").run.run (.empty, addRemarkedBook)).2.1).collections.get
      "remarks").documents = [] := by
  refine
    ⟨by cbv, preface_declared, rfl, remarks_declared, rfl, ⟨_, rfl, rfl, rfl⟩, ⟨_, by cbv⟩, by cbv⟩

end EntityGraph
