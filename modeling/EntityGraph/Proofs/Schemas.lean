import EntityGraph.Proofs.Acyclicity
import EntityGraph.Schema.Document

/-!
# Compiled schemas

A compilation only adds to its errors, and where it adds none, the part that it compiled is sound
(`Compilation.Ensures`). So a schema that compiles without errors has an entity for every name of
the document, and all of its fields have kinds and lead to entities of the document
(`SchemaDocument.Sound`). These can be registered one after the other, and finalizing the registry
then only depends on the relations between them (`SchemaDocument.compile_sound`).
-/

namespace EntityGraph

/-! ## Texts that are not empty -/

section Texts

theorem Decimal.digits_ne_empty (c : Nat) (k : Int) : Decimal.plainLayout.digits c k ≠ "" := by
  unfold Decimal.Layout.digits
  dsimp only
  repeat' split
  all_goals simp [String.append_eq_empty_iff, String.ofList_eq_empty_iff, Decimal.plainLayout]

theorem Decimal.floatText_ne_empty (x : Float) : Decimal.floatText x ≠ "" := by
  unfold Decimal.floatText Decimal.Layout.text
  split
  · decide
  · simp [String.append_eq_empty_iff, Decimal.plainLayout]
  · rw [Ne, String.append_eq_empty_iff, not_and]
    exact fun _ => Decimal.digits_ne_empty _ _

theorem toString_int_ne_empty (i : Int) : toString i ≠ "" := by
  cases i with
  | ofNat n => exact Nat.repr_ne_empty
  | negSucc n =>
    change "-" ++ Nat.repr (n + 1) ≠ ""
    simp [String.append_eq_empty_iff]

theorem Moment.text_ne_empty (m : Moment) : m.text " " ≠ "" := by
  simp [Moment.text, String.append_eq_empty_iff]

/-- **What counts as true names a key.** -/
theorem SchemaDocument.keyName_ne_empty {v : Value} (h : v.truthy = true) : keyName v ≠ "" := by
  cases v with
  | null => cases h
  | bool b =>
    cases b
    · cases h
    · decide
  | int i => exact toString_int_ne_empty i
  | float x => exact Decimal.floatText_ne_empty x
  | text s => exact bne_iff_ne.1 h
  | list xs => simp [keyName, Value.plain, Value.literal, String.append_eq_empty_iff]
  | object fs => simp [keyName, Value.plain, Value.literal, String.append_eq_empty_iff]
  | id o => simp [keyName, Value.literal, String.append_eq_empty_iff]
  | moment m => exact m.text_ne_empty
  | member e n => simp [keyName, Value.plain, String.append_eq_empty_iff]

end Texts

/-! ## Compilations -/

namespace Compilation

variable {α β : Type} {Q : α → Prop} {Q' : β → Prop}

/-- **What a compilation ensures.** It only adds to the errors that were noted before, and if it
adds none, what it gives satisfies `Q`. -/
def Ensures (Q : α → Prop) (a : Compilation α) : Prop :=
  ∀ errors v errors', a.run errors = .ok (v, errors') → errors <+:
    errors' ∧ (errors' = errors → Q v)

namespace Ensures

theorem pure {v : α} (hv : Q v) : Ensures Q (pure v) := by
  intro errors w errors' h
  cases h
  exact ⟨List.prefix_refl _, fun _ => hv⟩

/-- What fails promises nothing. -/
theorem throw_bind (e : Fault) (f : α → Compilation β) : Ensures Q' (throw e >>= f) := by
  intro errors w errors' h
  cases h

theorem lift {o : Outcome α} (ho : ∀ v, o = .ok v → Q v) : Ensures Q (liftM o) := by
  intro errors w errors' h
  cases o with
  | error e => cases h
  | ok v =>
    cases h
    exact ⟨List.prefix_refl _, fun _ => ho w rfl⟩

/-- Noting an error is not to add none. -/
theorem flawed {entity field : Option String} {flaw : Flaw} :
    Ensures (fun _ => False) (SchemaDocument.flawed entity field flaw) := by
  intro errors w errors' h
  cases h
  exact ⟨List.prefix_append _ _, fun heq => List.cons_ne_nil _ _ (List.append_right_eq_self.1 heq)⟩

theorem mono {Q' : α → Prop} {a : Compilation α} (h : Ensures Q a) (hQ : ∀ v, Q v → Q' v) :
    Ensures Q' a := by
  intro errors v errors' hrun
  obtain ⟨hadds, hv⟩ := h errors v errors' hrun
  exact ⟨hadds, fun heq => hQ v (hv heq)⟩

/-- Sequencing: the second part adds errors in any case, and may count on what the first part
ensures. -/
theorem bind {a : Compilation α} {f : α → Compilation β} (ha : Ensures Q a)
    (hf : ∀ v, Ensures (fun w => Q v → Q' w) (f v)) : Ensures Q' (a >>= f) := by
  intro errors w errors'' h
  rw [StateT.run_bind] at h
  obtain ⟨⟨v, errors'⟩, hv, hw⟩ := bind_eq_ok h
  obtain ⟨hadds, hQ⟩ := ha _ _ _ hv
  obtain ⟨hadds', hQ'⟩ := hf v _ _ _ hw
  refine ⟨hadds.trans hadds', fun heq => ?_⟩
  subst heq
  obtain rfl : errors' = errors'' := hadds'.eq_of_length_le hadds.length_le
  exact hQ' rfl (hQ rfl)

/-- Sequencing, when the second part does not count on the first one. -/
theorem andThen {a : Compilation α} {f : α → Compilation β} (ha : Ensures Q a)
    (hf : ∀ v, Ensures Q' (f v)) : Ensures Q' (a >>= f) :=
  ha.bind fun v => (hf v).mono fun _ hw _ => hw

/-- Two ways to the same rest. -/
theorem branch {c : Prop} [Decidable c] {a b : Compilation α} {f : α → Compilation β}
    (ha : Ensures Q a) (hb : Ensures Q b) (hf : ∀ v, Ensures (fun w => Q v → Q' w) (f v)) :
    Ensures Q' (if c then a >>= f else b >>= f) := by
  split
  · exact ha.bind hf
  · exact hb.bind hf

/-- Noting an error on the way, or not. -/
theorem noting {c : Prop} [Decidable c] {R : Unit → Prop} {a : Compilation Unit}
    {f : Unit → Compilation β} (ha : Ensures R a) (hf : Ensures Q' (f ())) :
    Ensures Q' (if c then a >>= f else f ()) := by
  split
  · exact ha.andThen fun _ => hf
  · exact hf

end Ensures

end Compilation

namespace SchemaDocument

open Compilation

/-! ## Fields -/

/-- **Well-typed fields** have a kind, and if they hold objects, these are of a declared entity. -/
def WellTyped (entities : List String) (f : FieldDef) : Prop :=
  ∃ kind, f.kind = .ok kind ∧ (kind.isObject = true → ∃ target ∈ entities, f.target = some target)

/-- A relation that links documents by some key, if it does not embed them. -/
def Links (relation : Relation) : Prop := relation.embedded = true ∨ relation.connectionField ≠ ""

theorem ensures_compileRelation (entity field : String) (raw : Value) :
    Ensures (fun o => ∃ relation, o = some relation ∧ Links relation)
    (compileRelation entity field raw) := by
  refine .bind (.lift fun _ _ => trivial) fun keys => .bind (.lift fun _ _ => trivial)
    fun unknown => ?_
  split
  · exact .bind .flawed fun _ => .pure fun h => h.elim
  · refine .bind (.lift fun _ _ => trivial) fun fs => ?_
    dsimp only
    split
    · exact .bind .flawed fun _ => .pure fun h => h.elim
    · rename_i hlinks
      refine .pure fun _ _ _ => ⟨_, rfl, ?_⟩
      unfold Links
      rcases hembedded : switch fs "embedded" false with _ | _
      · rw [hembedded] at hlinks
        rcases htruthy : (part fs "connection_field").truthy with _ | _
        · rw [htruthy] at hlinks
          exact absurd rfl hlinks
        · exact .inr (keyName_ne_empty htruthy)
      · exact .inl rfl

theorem ensures_compileFieldRelation (entities : List String) (entity field : String)
    (type raw : Value) :
    Ensures (fun o => ∃ relation, o = some relation ∧ (namesEntity entities type = true →
      ∃ given, relation = some given ∧ Links given))
        (compileFieldRelation entities entity field type raw) := by
  unfold compileFieldRelation
  split
  · split
    · exact .bind .flawed fun _ => .pure fun h => h.elim
    · refine .bind (ensures_compileRelation entity field raw) fun o => .pure fun h => ?_
      obtain ⟨given, rfl, hlinks⟩ := h
      exact ⟨some given, rfl, fun _ => ⟨given, rfl, hlinks⟩⟩
  · rename_i hnot
    split
    · exact .bind .flawed fun _ => .pure fun h => h.elim
    · exact .pure ⟨none, rfl, fun h => absurd h hnot⟩

/-- What a type name stands for, with a relation where it has to have one, makes a well-typed
field. -/
theorem wellTyped_of_fieldType {enumerations : Record Enumeration} {entities : List String}
    {type : Value} {f : FieldDef} (htype : fieldType? enumerations entities type = some f.type)
    (hrelation : namesEntity entities type = true → ∃ given, f.relation = some given ∧
      Links given) :
    WellTyped entities f := by
  unfold fieldType? at htype
  split at htype
  · rename_i name
    split at htype
    · refine ⟨if f.many then .scalarList else .scalar, ?_, ?_⟩
      · rw [FieldDef.kind, ← Option.some.inj htype]
        rfl
      · split <;> exact fun h => absurd h Bool.false_ne_true
    · split at htype
      · refine ⟨if f.many then .scalarList else .enumeration, ?_, ?_⟩
        · rw [FieldDef.kind, ← Option.some.inj htype]
          rfl
        · split <;> exact fun h => absurd h Bool.false_ne_true
      · split at htype
        · rename_i hdeclared
          obtain ⟨given, hgiven, hlinks⟩ := hrelation hdeclared
          have htarget : f.target = some name := by
            rw [FieldDef.target, ← Option.some.inj htype]
          have hkind : ∃ kind, f.kind = .ok kind := by
            unfold FieldDef.kind
            rw [← Option.some.inj htype, hgiven]
            dsimp only
            split
            · exact ⟨_, rfl⟩
            · rename_i hembedded
              rw [if_neg (hlinks.resolve_left hembedded)]
              exact ⟨_, rfl⟩
          obtain ⟨kind, hk⟩ := hkind
          exact ⟨kind, hk, fun _ => ⟨name, List.contains_iff_mem.1 hdeclared, htarget⟩⟩
        · cases htype
  · cases htype

/-- **A field that compiles** without errors is there, and well-typed. -/
theorem ensures_compileField (enumerations : Record Enumeration) (entities : List String)
    (entity field : String) (raw : Value) :
    Ensures (fun o => ∃ f, o = some f ∧ WellTyped entities f)
    (compileField enumerations entities entity field raw) := by
  refine .bind (.lift fun _ _ => trivial) fun fs => .mono (Q := fun o => ∃ f, o = some f ∧
    WellTyped entities f) (.noting .flawed ?_) fun _ h _ => h
  dsimp only
  by_cases hkey : (!(part fs "type").isKey) = true
  · rw [if_pos hkey]
    exact .throw_bind _ _
  rw [if_neg hkey]
  split
  · exact .bind .flawed fun _ => .pure fun h => h.elim
  · rename_i type htype
    refine .bind (ensures_compileFieldRelation _ _ _ _ _) fun o => .pure fun h => ?_
    obtain ⟨relation, rfl, hrelation⟩ := h
    exact ⟨_, rfl, wellTyped_of_fieldType htype hrelation⟩

/-- All fields that compile without errors are well-typed. -/
theorem ensures_compileFields (enumerations : Record Enumeration) (entities : List String)
    (entity : String) (raws : List (String × Value)) :
    Ensures (fun fields => ∀ f ∈ fields, WellTyped entities f)
    (compileFields enumerations entities entity raws) := by
  induction raws with
  | nil => exact .pure fun f hf => absurd hf List.not_mem_nil
  | cons e rest ih =>
    refine .bind (ensures_compileField _ _ _ _ _) fun first => .bind ih fun others =>
      .pure fun hothers hfirst => ?_
    obtain ⟨f, rfl, hf⟩ := hfirst
    intro g hg
    rcases List.mem_cons.1 hg with rfl | hg
    · exact hf
    · exact hothers g hg

/-! ## State machines -/

/-- States only have to be known. -/
theorem ensures_checkState (entity : String) (known : Option (List String)) (state : Value)
    (place : String) :
    Ensures (fun _ => True) (checkState entity known state place) := by
  unfold checkState
  cases known with
  | none => exact .pure trivial
  | some names =>
    dsimp only
    by_cases hkey : (!state.isKey) = true
    · rw [if_pos hkey]
      exact .throw_bind _ _
    rw [if_neg hkey]
    split
    all_goals
      split
      · exact .mono .flawed fun _ _ => trivial
      · exact .pure trivial

theorem ensures_compileAction (entity : String) (known : Option (List String)) (name : String)
    (raw : Value) :
    Ensures (fun _ => True) (compileAction entity known name raw) := by
  have hobject : ∀ v, Ensures (fun _ => True) (liftM (objectOrEmpty v) : Compilation Document) :=
      fun v =>
    .lift fun _ _ => trivial
  have hpart :
    ∀ key, Ensures (fun _ => True) (liftM (hasKey (if raw.truthy then raw else .object []) key) :
      Compilation Bool) := fun key => .lift fun _ _ => trivial
  refine (hpart "from").andThen fun hasSource => ?_
  refine .branch (hpart "to") (.pure trivial) fun hasTarget => .mono (Q := fun _ => True) ?_
    fun _ _ _ => trivial
  dsimp only
  by_cases hincomplete : (!hasTarget) = true
  · rw [if_pos hincomplete]
    exact Ensures.flawed.andThen fun _ => .pure trivial
  · rw [if_neg hincomplete]
    exact (hobject _).andThen fun fs => (ensures_checkState _ _ _ _).andThen fun _ =>
      (ensures_checkState _ _ _ _).andThen fun _ => .pure trivial

theorem ensures_compileActions (entity : String) (known : Option (List String))
    (raws : List (String × Value)) :
    Ensures (fun _ => True) (compileActions entity known raws) := by
  induction raws with
  | nil => exact .pure trivial
  | cons e rest ih =>
    exact (ensures_compileAction _ _ _ _).andThen fun _ => ih.andThen fun _ => .pure trivial

/-- **A state machine that compiles** has a field for its state. -/
theorem ensures_compileMachine (entity : Entity) (raw : Value) :
    Ensures (fun _ => (entity.field? stateField).isSome = true) (compileMachine entity raw) := by
  unfold compileMachine
  split
  · exact .bind .flawed fun _ => .pure fun h => h.elim
  · rename_i f hf
    have hfields : ∀ v, Ensures (fun _ => True) (liftM (objectOrEmpty v) : Compilation Document) :=
        fun v =>
      .lift fun _ _ => trivial
    refine .mono (Q := fun _ => True) ((hfields _).andThen fun fs => ?_) fun _ _ => by rw [hf]; rfl
    dsimp only
    split
    · exact Ensures.flawed.andThen fun _ => .pure trivial
    · exact (ensures_checkState _ _ _ _).andThen fun _ => (hfields _).andThen fun _ =>
        (ensures_compileActions _ _ _).andThen fun _ => .pure trivial

/-! ## Entities -/

/-- **Sound entities**: the fields are well-typed, and a state machine has a field for its state. -/
structure SoundEntity (entities : List String) (s : EntitySpec) : Prop where
  typed : ∀ f ∈ s.entity.fields, WellTyped entities f
  state : s.machine.isSome = true → (s.entity.field? stateField).isSome = true

/-- **An entity that compiles** without errors is there, under its name, and sound. -/
theorem ensures_compileEntity (enumerations : Record Enumeration) (entities : List String)
    (name : String) (raw : Value) :
    Ensures (fun o => ∃ s, o = some s ∧ s.entity.name = name ∧ SoundEntity entities s)
    (compileEntity enumerations entities name raw) := by
  refine .bind (.lift fun _ _ => trivial) fun fs => .bind (.lift fun _ _ => trivial)
    fun rawFields => ?_
  split
  · exact .bind .flawed fun _ => .pure fun h => h.elim
  refine .bind (ensures_compileFields _ _ _ _) fun fields => ?_
  dsimp only
  refine .bind (Q := fun entity => entity.name = name ∧ entity.fields = fields) (.lift
    fun entity h => ?_) fun entity => ?_
  · unfold Entity.ofFields at h
    split at h
    · cases h
      exact ⟨rfl, rfl⟩
    · cases h
  refine .branch (Q := fun machine : Option StateMachine => machine.isSome = true →
    (entity.field? stateField).isSome = true) ?_ ?_ fun machine => ?_
  · exact (ensures_compileMachine entity _).mono fun _ h _ => h
  · exact .pure fun h => absurd h Bool.false_ne_true
  · refine .pure fun hmachine hentity hfields _ _ => ⟨_, rfl, hentity.1, fun f hf => ?_, hmachine⟩
    exact hfields f (hentity.2 ▸ hf)

/-- **All entities that compile** without errors are there, in the order of the document, and
sound. -/
theorem ensures_compileEntities (enumerations : Record Enumeration) (entities : List String)
    (raws : List (String × Value)) : Ensures (fun specs => Record.keys specs = Record.keys raws ∧
      ∀ e ∈ specs, e.2.entity.name = e.1 ∧ SoundEntity entities e.2)
      (compileEntities enumerations entities raws) := by
  induction raws with
  | nil => exact .pure ⟨rfl, fun e he => absurd he List.not_mem_nil⟩
  | cons e rest ih =>
    refine .bind (ensures_compileEntity _ _ _ _) fun first => .bind ih fun others =>
      .pure fun hothers hfirst => ?_
    obtain ⟨s, rfl, hname, hs⟩ := hfirst
    refine ⟨congrArg (e.1 :: ·) hothers.1, fun g hg => ?_⟩
    rcases List.mem_cons.1 hg with rfl | hg
    · exact ⟨hname, hs⟩
    · exact hothers.2 g hg

/-! ## Schemas -/

/-- The names of the entities that a document declares. -/
def entityNames (document : Value) : List String :=
  ((document.fields?.bind fun fs => (Record.get? fs "entities").bind Value.fields?).map
    Record.keys).getD []

theorem objectOrEmpty_ok {v : Option Value} {raws : Document} (h : objectOrEmpty v = .ok raws) :
    raws = (v.bind Value.fields?).getD [] := by
  unfold objectOrEmpty at h
  split at h
  · cases h
    rfl
  · cases h
    rfl
  · rename_i v hno
    split at h
    · cases h
    · cases h
      cases v <;> first | rfl | exact absurd rfl (hno _)

/-- **Sound schemas**: every entity is filed under its name, and sound with all of them as
targets. -/
def Sound (schema : SchemaDocument) : Prop :=
  ∀ e ∈ schema.entities, e.2.entity.name = e.1 ∧ SoundEntity (Record.keys schema.entities) e.2

theorem ensures_compileEnumerations (raws : List (String × Value)) :
    Ensures (fun _ => True) (compileEnumerations raws) := by
  induction raws with
  | nil => exact .pure trivial
  | cons e rest ih =>
    obtain ⟨name, v⟩ := e
    refine .andThen (Q := fun _ => True) ?_ fun first => ih.andThen fun _ => .pure trivial
    split
    · exact Ensures.flawed.andThen fun _ => .pure trivial
    · split
      · exact .pure trivial
      · exact Ensures.flawed.andThen fun _ => .pure trivial

/-- **A document that compiles** without errors has a sound schema of all its entities. -/
theorem ensures_compileDocument (document : Value) : Ensures (fun schema => schema.Sound ∧
    Record.keys schema.entities = entityNames document) (compileDocument document) := by
  unfold compileDocument
  split
  · rename_i fs
    refine .andThen (Q := fun _ => True) (.lift fun _ _ => trivial) fun rawEnumerations =>
      (ensures_compileEnumerations _).andThen fun enumerations => ?_
    refine .bind (Q := fun raws => Record.keys raws = entityNames (.object fs)) (.lift
      fun raws hraws => ?_) fun raws => ?_
    · rw [objectOrEmpty_ok hraws]
      unfold entityNames
      rw [Value.fields?, Option.bind_some]
      rcases (Record.get? fs "entities").bind Value.fields? with _ | raws <;> rfl
    · refine .noting .flawed ((ensures_compileEntities _ _ _).bind fun entities =>
        .pure fun h hnames => ?_)
      refine ⟨?_, h.1.trans hnames⟩
      unfold Sound
      rw [h.1]
      exact h.2
  · intro errors w errors' h
    cases h

/-- **What compiles is sound**, and has exactly the entities of the document. -/
theorem sound_of_compile {document : Value} {schema : SchemaDocument}
    (h : compile document = .ok (.compiled schema)) :
    schema.Sound ∧ Record.keys schema.entities = entityNames document := by
  obtain ⟨⟨schema', errors⟩, hrun, hresult⟩ := bind_eq_ok h
  obtain ⟨-, hsound⟩ := ensures_compileDocument document _ _ _ hrun
  dsimp only at hresult
  split at hresult
  · rename_i hnone
    cases hresult
    exact hsound (List.isEmpty_iff.1 hnone)
  · cases hresult

/-! ## Registration -/

/-- **A registered entity** has the fields of its specification, and its state machine if it has
endpoints. -/
structure Registers (s : EntitySpec) (d : Descriptor) : Prop where
  entity : d.entity = s.entity
  machine : d.machine = if s.hasEndpoints then s.machine else none
  bare : d.shapes = none

theorem Registers.hasMachine {s : EntitySpec} {d : Descriptor} (h : Registers s d) :
    d.machine.isSome = (s.hasEndpoints && s.machine.isSome) := by
  rw [h.machine]
  cases s.hasEndpoints <;> rfl

variable {r : Registry} {s : EntitySpec} {names : List String}

theorem exists_lowerFirst {name : String} (h : name ≠ "") :
    ∃ small, Text.lowerFirst? name = some small := by
  unfold Text.lowerFirst?
  split
  · rename_i hnil
    exact absurd (String.toList_eq_nil_iff.1 hnil) h
  · exact ⟨_, rfl⟩

/-- Connecting an entity adds a descriptor, if the entity has a name and a state machine finds its
field. -/
theorem connect_eq_add {entity : Entity} {c : Connection}
    (hstate : c.machine.isSome = true → (entity.field? stateField).isSome = true)
    (hname : entity.name ≠ "") :
    ∃ d, d.entity = entity ∧ d.machine = c.machine ∧ d.shapes = none ∧
      r.connect entity c = r.add d := by
  have hno : ¬ (c.machine.isSome && (entity.field? stateField).isNone) = true := by
    rw [Bool.and_eq_true, not_and, Option.isNone_iff_eq_none]
    exact fun hmachine => Option.isSome_iff_ne_none.1 (hstate hmachine)
  obtain ⟨small, hsmall⟩ := exists_lowerFirst hname
  unfold Registry.connect
  dsimp only
  rw [if_neg hno, hsmall]
  rcases Registry.given? c.single with _ | single
  · exact ⟨_, rfl, rfl, rfl, rfl⟩
  · exact ⟨_, rfl, rfl, rfl, rfl⟩

/-- **A sound entity can be registered** under a new name that is not empty. -/
theorem registerEntity_of_sound (hr : r.Built) (hs : SoundEntity names s)
    (hnew : r.has s.entity.name = false) (hname : s.entity.name ≠ "") :
    ∃ d r', Registers s d ∧ d.name = s.entity.name ∧ r'.Built ∧
      r'.descriptors = Record.put r.descriptors s.entity.name d ∧ registerEntity r s = .ok r' := by
  have hkinds : ∀ f ∈ s.entity.fields, ∃ kind, f.kind = .ok kind := by
    intro f hf
    obtain ⟨kind, hk, -⟩ := hs.typed f hf
    exact ⟨kind, hk⟩
  unfold registerEntity
  by_cases hendpoints : s.hasEndpoints = true
  · rw [if_pos hendpoints]
    obtain ⟨d, hentity, hmachine, hbare, hconnect⟩ :=
      connect_eq_add (r := r) (c := ⟨givenName? s.collection, givenName? s.single,
        givenName? s.list, s.machine⟩) hs.state hname
    have hdname : d.name = s.entity.name := congrArg Entity.name hentity
    rw [← hdname] at hnew ⊢
    rw [← hentity] at hkinds
    have hadd := hconnect.trans (Registry.add_of_kinds hnew hkinds)
    exact ⟨d, _, ⟨hentity, hmachine.trans (if_pos hendpoints).symm, hbare⟩, rfl, .connect hr hadd,
      rfl, hadd⟩
  · rw [if_neg hendpoints]
    have hadd : r.addEmbedded s.entity = .ok _ := Registry.add_of_kinds hnew hkinds
    exact ⟨_, _, ⟨rfl, (if_neg hendpoints).symm, rfl⟩, rfl, .embed hr hadd, rfl, hadd⟩

/-- **Sound entities can be registered** one after the other, if their names are new, distinct and
not empty. -/
theorem foldlM_registerEntity {specs : Record EntitySpec} (hr : r.Built)
    (hsound : ∀ e ∈ specs, e.2.entity.name = e.1 ∧ SoundEntity names e.2)
    (hnodup : (Record.keys specs).Nodup) (hnames : "" ∉ Record.keys specs)
    (hnew : ∀ name ∈ Record.keys specs, r.has name = false) :
    ∃ r' ds, specs.foldlM (fun r e => registerEntity r e.2) r = .ok r' ∧ r'.Built ∧
      r'.descriptors = r.descriptors ++ ds ∧
        List.Forall₂ (fun e e' => e'.1 = e.1 ∧ Registers e.2 e'.2) specs ds := by
  induction specs generalizing r with
  | nil => exact ⟨r, [], rfl, hr, (List.append_nil _).symm, .nil⟩
  | cons e rest ih =>
    obtain ⟨name, s⟩ := e
    have hs : SoundEntity names s := (hsound _ (List.mem_cons_self ..)).2
    have hname : s.entity.name = name := (hsound _ (List.mem_cons_self ..)).1
    subst hname
    obtain ⟨hfresh, hrest⟩ := List.nodup_cons.1 hnodup
    have hfirst := hnew s.entity.name (List.mem_cons_self ..)
    obtain ⟨d, r₁, hd, -, hr₁, hput, hrun⟩ := registerEntity_of_sound hr hs hfirst
      fun hempty => hnames (hempty ▸ List.mem_cons_self ..)
    have hnone : Record.get? r.descriptors s.entity.name = none :=
        Option.not_isSome_iff_eq_none.1 fun h =>
      absurd (h.symm.trans hfirst) Bool.noConfusion
    have happend : r₁.descriptors = r.descriptors ++ [(s.entity.name, d)] := by
      rcases Record.put_cases r.descriptors s.entity.name with ⟨-, hlast⟩ | ⟨_, old, _, hold, -⟩
      · exact hput.trans (hlast d)
      · cases hnone.symm.trans hold
    obtain ⟨r', ds, hruns, hr', hds, hall⟩ :=
      ih hr₁ (fun e he => hsound e (List.mem_cons_of_mem _ he)) hrest (fun h =>
        hnames (List.mem_cons_of_mem _ h)) fun other hother => by
        have hother' : ¬ s.entity.name = other := by
          rintro rfl
          exact hfresh hother
        rw [Registry.has, Record.has, hput, Record.get?_put, if_neg hother']
        exact hnew other (List.mem_cons_of_mem _ hother)
    refine ⟨r', (s.entity.name, d) :: ds, ?_, hr', ?_, .cons ⟨rfl, hd⟩ hall⟩
    · rw [List.foldlM_cons, hrun]
      exact hruns
    · rw [hds, happend, List.append_assoc, List.singleton_append]

/-! ## Cycles -/

/-- **Embedding**, as it shows in a schema: a field holds objects of the target inside its
documents, and it is not read-only, nor the state field of an entity that is registered with its
state machine. -/
def Embeds (schema : SchemaDocument) (e target : String) : Prop :=
  ∃ s, Record.get? schema.entities e = some s ∧ ∃ f ∈ s.entity.fields,
    f.TakesArguments (s.hasEndpoints && s.machine.isSome) ∧ f.IsEmbedding ∧ f.target = some target

/-- **No cycles**: no entity of the schema embeds itself, directly or through others. -/
def Acyclic (schema : SchemaDocument) : Prop := ∀ e, ¬ Relation.TransGen schema.Embeds e e

section Alike

variable {α β : Type} {R : α → β → Prop} {xs : Record α} {ys : Record β}

theorem keys_of_forall₂ (h : List.Forall₂ (fun e e' => e'.1 = e.1 ∧ R e.2 e'.2) xs ys) :
    Record.keys ys = Record.keys xs := by
  induction h with
  | nil => rfl
  | cons hhead _ ih => exact congrArg₂ List.cons hhead.1 ih

theorem exists_of_mem_of_forall₂ (h : List.Forall₂ (fun e e' => e'.1 = e.1 ∧ R e.2 e'.2) xs ys)
    {e' : String × β} (he' : e' ∈ ys) : ∃ e ∈ xs, e'.1 = e.1 ∧ R e.2 e'.2 := by
  induction h with
  | nil => cases he'
  | cons hhead _ ih =>
    rcases List.mem_cons.1 he' with rfl | he'
    · exact ⟨_, List.mem_cons_self .., hhead⟩
    · obtain ⟨e, he, hR⟩ := ih he'
      exact ⟨e, List.mem_cons_of_mem _ he, hR⟩

theorem get?_of_forall₂ (h : List.Forall₂ (fun e e' => e'.1 = e.1 ∧ R e.2 e'.2) xs ys)
    (name : String) :
    Option.Rel R (Record.get? xs name) (Record.get? ys name) := by
  induction h with
  | nil => exact .none
  | cons hhead _ ih =>
    obtain ⟨hkey, hR⟩ := hhead
    rw [Record.get?, Record.get?, hkey]
    split
    · exact .some hR
    · exact ih

end Alike

/-- The registry embeds what the schema embeds. -/
theorem embeds_iff {schema : SchemaDocument} {e target : String}
    (h : List.Forall₂ (fun e e' => e'.1 = e.1 ∧ Registers e.2 e'.2) schema.entities r.descriptors) :
    r.Embeds e target ↔ schema.Embeds e target := by
  have hrel := get?_of_forall₂ h e
  constructor
  · rintro ⟨d, hd, f, hf, ht, hwhat⟩
    rcases hs : Record.get? schema.entities e with _ | s
    all_goals
      rw [hd, hs] at hrel
      cases hrel
    rename_i hregisters
    rw [hregisters.hasMachine] at ht
    rw [hregisters.entity] at hf
    exact ⟨s, hs, f, hf, ht, hwhat⟩
  · rintro ⟨s, hs, f, hf, ht, hwhat⟩
    rcases hd : Record.get? r.descriptors e with _ | d
    all_goals
      rw [hd, hs] at hrel
      cases hrel
    rename_i hregisters
    rw [← hregisters.hasMachine] at ht
    rw [← hregisters.entity] at hf
    exact ⟨d, hd, f, hf, ht, hwhat⟩

/-- **What compiles can be registered, and finalized unless there is a cycle.** Let a document with
distinct entity names, none of them empty, compile without errors. Then all entities of the schema
can be registered into the empty registry. Every field has a kind, every state machine finds its
state field, and every relation leads to a registered entity. Finalizing that registry succeeds if
the schema has no cycle of embedded entities, and fails with a configuration error if it has one. -/
theorem compile_sound {document : Value} {schema : SchemaDocument}
    (hcompile : compile document = .ok (.compiled schema))
    (hdistinct : (entityNames document).Nodup) (hnamed : "" ∉ entityNames document) :
    ∃ r, schema.register .empty = .ok r ∧
      Record.keys r.descriptors = entityNames document ∧
      List.Forall₂ (fun e e' => e'.1 = e.1 ∧ Registers e.2 e'.2) schema.entities r.descriptors ∧
      (∀ e ∈ schema.entities, ∀ f ∈ e.2.entity.fields, ∃ kind, f.kind = .ok kind ∧
        (kind.isObject = true → ∃ target, f.target = some target ∧ r.has target = true)) ∧
      (∀ e ∈ schema.entities, e.2.machine.isSome = true →
        (e.2.entity.field? stateField).isSome = true) ∧
      (schema.Acyclic → ∃ r', Registry.finalize.run.run r = (.ok (), r') ∧ r'.finalized = true ∧
        r'.Finished) ∧
      (¬ schema.Acyclic → ∃ e r', Registry.finalize.run.run r = (.error e, r') ∧
        e.IsConfiguration) := by
  obtain ⟨hsound, hkeys⟩ := sound_of_compile hcompile
  rw [← hkeys] at hdistinct hnamed ⊢
  obtain ⟨r, ds, hrun, hbuilt, hds, hall⟩ := foldlM_registerEntity .empty hsound hdistinct hnamed
    fun _ _ => rfl
  rw [show Registry.empty.descriptors = [] from rfl, List.nil_append] at hds
  subst hds
  have hnames : Record.keys r.descriptors = Record.keys schema.entities := keys_of_forall₂ hall
  have hhas : ∀ target ∈ Record.keys schema.entities, r.has target = true := fun target htarget =>
    (Record.mem_keys_iff _ _).1 (hnames ▸ htarget)
  have htyped : ∀ e ∈ schema.entities, ∀ f ∈ e.2.entity.fields, ∃ kind, f.kind = .ok kind ∧
      (kind.isObject = true → ∃ target, f.target = some target ∧ r.has target = true) := by
    intro e he f hf
    obtain ⟨kind, hk, htarget⟩ := (hsound e he).2.typed f hf
    refine ⟨kind, hk, fun hobject => ?_⟩
    obtain ⟨target, hmem, hf⟩ := htarget hobject
    exact ⟨target, hf, hhas target hmem⟩
  have hlinked : r.Linked := by
    intro e' he' f hf kind hk hobject
    obtain ⟨e, he, -, hregisters⟩ := exists_of_mem_of_forall₂ hall he'
    obtain ⟨kind', hk', htarget⟩ := (hsound e he).2.typed f (hregisters.entity ▸ hf)
    obtain rfl : kind' = kind := Except.ok.inj (hk'.symm.trans hk)
    obtain ⟨target, hmem, hname⟩ := htarget hobject
    refine ⟨target, hname, ?_, hhas target hmem⟩
    rintro rfl
    exact hnamed hmem
  have hbare : ∀ name d, Record.get? r.descriptors name = some d → d.shapes = none := by
    intro name d hd
    obtain ⟨_, -, -, hregisters⟩ := exists_of_mem_of_forall₂ hall (Record.mem_of_get?_eq_some hd)
    exact hregisters.bare
  have hcycles : r.Acyclic ↔ schema.Acyclic := by
    have heq : r.Embeds = schema.Embeds := funext₂ fun e target => propext (embeds_iff hall)
    rw [Registry.Acyclic, Acyclic, heq]
  obtain ⟨hfree, hcyclic, -⟩ := Registry.finalize_decides hbuilt hlinked hbare
  refine ⟨r, hrun, hnames, hall, htyped, fun e he => (hsound e he).2.state, fun h => ?_, fun h =>
    ?_⟩
  · obtain ⟨r', hfinalize, hfinal, -, hfinished⟩ := hfree (hcycles.2 h)
    exact ⟨r', hfinalize, hfinal, hfinished⟩
  · exact hcyclic fun h' => h (hcycles.1 h')

/-! ## A document with a shared name -/

/-- A part of a document: a field that holds objects of a type inside the documents. -/
def embeddedField (type : String) : Value :=
  .object [("type", .text type), ("relation", .object [("embedded", .bool true)])]

/-- A case holds a lens and has a color. Both an enumeration and an entity are called `Color`. -/
def caseDocument : Value := .object [
  ("enums", .object [("Color", .list [.text "red", .text "blue"])]),
  ("entities", .object [
    ("Color", .object [("endpoint", .bool false),
      ("fields", .object [("shade", .object [("type", .text "String")])])]),
    ("Lens", .object [("endpoint", .bool false),
      ("fields", .object [("width", .object [("type", .text "Int")])])]),
    ("Case", .object [("fields", .object [("lens", embeddedField "Lens"),
      ("color", embeddedField "Color")])])])]

/-- A nullable field as it is compiled. -/
def compiledField (name : String) (type : FieldType) (relation : Option Relation) : FieldDef :=
  ⟨name, type, false, true, false, false, relation, .null⟩

/-- The schema of the case. The color of a case is a member of the enumeration. -/
def caseSchema : SchemaDocument where
  enumerations := [("Color", ⟨"Color", ["red", "blue"]⟩)]
  entities := [
    ("Color", ⟨⟨"Color", [compiledField "shade" (.scalar .string) none], .null, by decide⟩,
      false, .null, .null, .null, none⟩),
    ("Lens", ⟨⟨"Lens", [compiledField "width" (.scalar .int) none], .null, by decide⟩,
      false, .null, .null, .null, none⟩),
    ("Case", ⟨⟨"Case", [compiledField "lens" (.entity "Lens") (some ⟨true, "", .null⟩),
      compiledField "color" (.enumeration ⟨"Color", ["red", "blue"]⟩) (some ⟨true, "", .null⟩)],
      .null, by decide⟩, true, .null, .null, .null, none⟩)]

/-- A case embeds lenses, and that is all. -/
theorem caseSchema_embeds {e target : String} (h : caseSchema.Embeds e target) :
    e = "Case" ∧ target = "Lens" := by
  obtain ⟨s, hs, f, hf, -, he, htarget⟩ := h
  have hmem := Record.mem_of_get?_eq_some hs
  simp only [caseSchema, List.mem_cons, List.not_mem_nil, or_false, Prod.mk.injEq] at hmem
  rcases hmem with ⟨rfl, rfl⟩ | ⟨rfl, rfl⟩ | ⟨rfl, rfl⟩
  · obtain rfl := List.mem_singleton.1 hf
    rcases he with he | he <;> cases he
  · obtain rfl := List.mem_singleton.1 hf
    rcases he with he | he <;> cases he
  · rcases List.mem_cons.1 hf with rfl | hf
    · cases htarget
      exact ⟨rfl, rfl⟩
    · obtain rfl := List.mem_singleton.1 hf
      rcases he with he | he <;> cases he

theorem caseSchema_acyclic : caseSchema.Acyclic := by
  intro e hcycle
  obtain ⟨_, hfirst, -⟩ := Relation.TransGen.head'_iff.1 hcycle
  obtain ⟨_, -, hlast⟩ := Relation.TransGen.tail'_iff.1 hcycle
  have hnames := (caseSchema_embeds hfirst).1.symm.trans (caseSchema_embeds hlast).2
  exact absurd hnames (by decide)

/-- The case compiles, and can be registered and finalized. -/
theorem compile_sound_case : ∃ r, caseSchema.register .empty = .ok r ∧ r.has "Lens" = true ∧
    ∃ r', Registry.finalize.run.run r = (.ok (), r') ∧ r'.Finished := by
  have hcompile : compile caseDocument = .ok (.compiled caseSchema) := by with_unfolding_all rfl
  obtain ⟨r, hrun, hkeys, -, -, -, hfinalize, -⟩ := compile_sound hcompile (by decide) (by decide)
  obtain ⟨r', hrun', -, hfinished⟩ := hfinalize caseSchema_acyclic
  exact ⟨r, hrun, (Record.mem_keys_iff _ _).1 (hkeys ▸ by decide), r', hrun', hfinished⟩

/-- An entity without endpoints that declares a state machine, and holds another one of its kind as
its state. -/
def loopDocument : Value := .object [("entities", .object [("Loop", .object [
  ("endpoint", .bool false),
  ("state_machine", .object [("initial", .text "start")]),
  ("fields", .object [(stateField, embeddedField "Loop")])])])]

/-- The schema of the loop. -/
def loopSchema : SchemaDocument where
  enumerations := []
  entities := [("Loop", ⟨⟨"Loop",
    [compiledField stateField (.entity "Loop") (some ⟨true, "", .null⟩)], .null, by decide⟩, false,
    .null, .null, .null, some ⟨.text "start", []⟩⟩)]

/-- **A state machine that is not registered** protects no field: the only embedded relation of the
loop is the field of its state machine, but an entity without endpoints is registered without one.
So there is a cycle, and finalizing fails. -/
theorem unregistered_machine_refused : compile loopDocument = .ok (.compiled loopSchema) ∧
    (entityNames loopDocument).Nodup ∧ "" ∉ entityNames loopDocument ∧
    (∀ e ∈ loopSchema.entities, ∀ f ∈ e.2.entity.fields, ¬ f.TakesArguments e.2.machine.isSome) ∧
    ∃ r, loopSchema.register .empty = .ok r ∧ ∃ e, (Registry.finalize.run.run r).1 = .error e := by
  refine ⟨by with_unfolding_all rfl, by decide, by decide, fun e he f hf ht => ?_, _, rfl, _, rfl⟩
  obtain rfl := List.mem_singleton.1 he
  obtain rfl := List.mem_singleton.1 hf
  exact ht.2 ⟨rfl, rfl⟩

end SchemaDocument

end EntityGraph
