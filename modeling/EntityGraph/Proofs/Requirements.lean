import EntityGraph.Proofs.Documents
import EntityGraph.Proofs.Offers

/-!
# Required fields

A field that may not be null is required when it holds a single scalar, member or reference: its
argument is asked for in additions, and a document keeps its value (`Descriptor.Requires`). Objects
embed others, so what is required of an object is required of its parts too, as deep as they go
(`Registry.Throughout`). Arguments that the shape of additions accepts, with no empty text among
those that are required, supply all of them (`Registry.Accepts.supplies`).
-/

namespace EntityGraph

/-! ## What is required -/

/-- **A required field**: a single scalar, member or reference that may not be null and takes
arguments. The identifier is none. -/
structure FieldDef.IsRequired (hasMachine : Bool) (f : FieldDef) : Prop where
  takes : f.TakesArguments hasMachine
  strict : f.nullable = false
  plain : f.isIdentifier = false
  single : f.kind = .ok .scalar ∨ f.kind = .ok .enumeration ∨ f.kind = .ok .referencedObject

/-- The key under which a document keeps what is made from the argument of a field: a reference is
kept under the connection field. -/
def FieldDef.documentKey (f : FieldDef) : String :=
  if f.kind? = some .referencedObject then f.connectionField else f.name

/-- The fields that an entity requires. -/
def Descriptor.Requires (d : Descriptor) (f : FieldDef) : Prop :=
  f ∈ d.entity.fields ∧ f.IsRequired d.machine.isSome

/-- A value that is there and not null. -/
def Held (o : Option Value) : Prop := ∃ v, o = some v ∧ v ≠ .null

/-- An argument that does not count as absent. -/
def Given (o : Option Value) : Prop := ∃ v, o = some v ∧ v.isEmpty = false

/-- Anything but the empty text. -/
def NotBlank (o : Option Value) : Prop := o ≠ some (.text "")

/-- **A part** of an object: the object under a field that embeds one, or an item of the list under
a field that embeds a list. It belongs to the entity that the field embeds. -/
inductive Registry.Part (r : Registry) (d : Descriptor) (fs : Document) (f : FieldDef)
    (e : Descriptor) (inner : Document) : Prop where
  | object (hf : f ∈ d.entity.fields) (hid : f.isIdentifier = false)
    (hk : f.kind = .ok .embeddedObject)
      (he : r.lookup (f.target.getD "") = .ok e) (h : Record.get? fs f.name = some (.object inner))
  | item {items : List Value} (hf : f ∈ d.entity.fields) (hid : f.isIdentifier = false)
      (hk : f.kind = .ok .embeddedList) (he : r.lookup (f.target.getD "") = .ok e)
      (h : Record.get? fs f.name = some (.list items)) (hitem : Value.object inner ∈ items)

/-- **Throughout an object**: what `Q` says goes for the object and for its parts, at every
depth. -/
inductive Registry.Throughout (r : Registry) (Q : Descriptor → Document → Prop) :
    Descriptor → Document → Prop where
  | intro {d : Descriptor} {fs : Document} (here : Q d fs)
      (parts : ∀ f e inner, r.Part d fs f e inner → r.Throughout Q e inner) : r.Throughout Q d fs

/-- **At any depth**: the object `inner` of the entity `e` is the object itself, or embedded in
it. -/
inductive Registry.Within (r : Registry) : Descriptor → Document → Descriptor → Document →
    Prop where
  | here {d : Descriptor} {fs : Document} : r.Within d fs d fs
  | part {d g e : Descriptor} {fs between inner : Document} {f : FieldDef}
    (hpart : r.Part d fs f g between)
      (h : r.Within g between e inner) : r.Within d fs e inner

/-- Under the key of each required field there is what `P` says. -/
def Descriptor.Fills (key : FieldDef → String) (P : Option Value → Prop) (d : Descriptor)
    (fs : Document) : Prop :=
  ∀ f, d.Requires f → P (Record.get? fs (key f))

namespace Registry

/-- **A whole document**: no required value is missing, in the document and in what it embeds. -/
abbrev Whole (r : Registry) : Descriptor → Document → Prop :=
    r.Throughout (Descriptor.Fills FieldDef.documentKey Held)

/-- **Arguments that supply** what is required, at every depth. -/
abbrev Supplies (r : Registry) : Descriptor → Document → Prop :=
    r.Throughout (Descriptor.Fills FieldDef.name Given)

/-- No required argument is the empty text, at any depth. -/
abbrev Spares (r : Registry) : Descriptor → Document → Prop :=
    r.Throughout (Descriptor.Fills FieldDef.name NotBlank)

/-- All parts of an object are, at every depth, as `Q` says. -/
def PartsAre (r : Registry) (Q : Descriptor → Document → Prop) (d : Descriptor)
    (fs : Document) : Prop :=
  ∀ f e inner, r.Part d fs f e inner → r.Throughout Q e inner

namespace Throughout

variable {r : Registry} {Q : Descriptor → Document → Prop} {d : Descriptor} {fs : Document}

theorem here (h : r.Throughout Q d fs) : Q d fs := by
  cases h with
  | intro here _ => exact here

theorem parts (h : r.Throughout Q d fs) : r.PartsAre Q d fs := by
  cases h with
  | intro _ parts => exact parts

theorem within {e : Descriptor} {inner : Document} (h : r.Throughout Q d fs)
    (hin : r.Within d fs e inner) :
    Q e inner := by
  induction hin with
  | here => exact h.here
  | part hpart _ ih => exact ih (h.parts _ _ _ hpart)

end Throughout

end Registry

namespace Registry.Part

variable {r : Registry} {d e : Descriptor} {fs inner : Document} {f : FieldDef}

theorem mem (h : r.Part d fs f e inner) : f ∈ d.entity.fields := by
  cases h <;> assumption

theorem plain (h : r.Part d fs f e inner) : f.isIdentifier = false := by
  cases h <;> assumption

theorem lookup (h : r.Part d fs f e inner) : r.lookup (f.target.getD "") = .ok e := by
  cases h <;> assumption

/-- A part is where the argument of the field is. -/
theorem composed (h : r.Part d fs f e inner) :
    ∃ v, Record.get? fs f.name = some v ∧ v.isKey = false := by
  cases h with
  | object _ _ _ _ h => exact ⟨_, h, rfl⟩
  | item _ _ _ _ h _ => exact ⟨_, h, rfl⟩

/-- A part is smaller than the whole. -/
theorem sizeOf_lt (h : r.Part d fs f e inner) : sizeOf inner < sizeOf fs := by
  cases h with
  | object _ _ _ _ hget =>
    have := Record.sizeOf_lt_of_get?_eq_some hget
    simp only [Value.object.sizeOf_spec] at this
    omega
  | item _ _ _ _ hget hitem =>
    have := Record.sizeOf_lt_of_get?_eq_some hget
    have := List.sizeOf_lt_of_mem hitem
    simp only [Value.object.sizeOf_spec, Value.list.sizeOf_spec] at *
    omega

/-- Only the entry of the field matters. -/
theorem congr (h : r.Part d fs f e inner) {fs' : Document}
    (heq : Record.get? fs' f.name = Record.get? fs f.name) :
    r.Part d fs' f e inner := by
  cases h with
  | object hf hid hk he h => exact .object hf hid hk he (heq.trans h)
  | item hf hid hk he h hitem => exact .item hf hid hk he (heq.trans h) hitem

/-- A value that is not composed brings no part. -/
theorem of_put {key : String} {v : Value} (hv : v.isKey = true)
    (h : r.Part d (Record.put fs key v) f e inner) :
    r.Part d fs f e inner := by
  obtain ⟨w, hw, hcomposed⟩ := h.composed
  refine h.congr ?_
  rw [Record.get?_put] at hw ⊢
  split
  · rename_i hkey
    rw [if_pos hkey] at hw
    cases hw
    rw [hv] at hcomposed
    cases hcomposed
  · rfl

end Registry.Part

theorem FieldDef.kind?_eq_some {f : FieldDef} {kind : FieldKind} :
    f.kind? = some kind ↔ f.kind = .ok kind := by
  rw [FieldDef.kind?]
  cases f.kind with
  | ok k => simp [Except.toOption]
  | error e => simp [Except.toOption]

theorem FieldDef.documentKey_of_reference {f : FieldDef} (h : f.kind = .ok .referencedObject) :
    f.documentKey = f.connectionField := if_pos (FieldDef.kind?_eq_some.2 h)

theorem FieldDef.documentKey_of_ne {f : FieldDef} (h : f.kind ≠ .ok .referencedObject) :
    f.documentKey = f.name :=
  if_neg fun hk => h (FieldDef.kind?_eq_some.1 hk)

theorem FieldDef.documentKey_of_kind {f : FieldDef} {kind : FieldKind} (hk : f.kind = .ok kind)
    (hne : kind ≠ .referencedObject) : f.documentKey = f.name :=
  documentKey_of_ne fun h => hne (Except.ok.inj (hk.symm.trans h))

theorem FieldDef.not_links {f : FieldDef} {kind : FieldKind} (h : f.kind = .ok kind)
    (hne : kind ≠ .referencedList) : ¬ f.Links := by
  intro hlink
  rw [FieldDef.Links, h] at hlink
  cases hlink
  exact hne rfl

theorem Held.put {d : Document} {key : String} (h : Held (Record.get? d key)) {k : String}
    {v : Value} (hv : v ≠ .null) : Held (Record.get? (Record.put d k v) key) := by
  rw [Record.get?_put]
  split
  · exact ⟨v, rfl, hv⟩
  · exact h

/-- What is there and not the empty text is given. -/
theorem Held.given {o : Option Value} (h : Held o) (hblank : NotBlank o) : Given o := by
  obtain ⟨v, rfl, hnull⟩ := h
  refine ⟨v, rfl, ?_⟩
  cases v with
  | null => exact absurd rfl hnull
  | text s =>
    rw [Value.isEmpty, beq_eq_false_iff_ne]
    rintro rfl
    exact hblank rfl
  | _ => rfl

/-! ## Accepted arguments -/

/-- A declared field that may not be null is there. -/
theorem checkFields_held {table : ShapeTable} {path : String} {fs : Document}
    {fields : List (String × InputField)} (h : checkFields table path fs fields = .ok ())
    {e : String × InputField} (he : e ∈ fields) (hstrict : e.2.nullable = false) :
    Held (Record.get? fs e.1) := by
  induction fields with
  | nil => cases he
  | cons f rest ih =>
    rcases List.mem_cons.1 he with rfl | he
    · obtain ⟨name, i⟩ := e
      rw [checkFields] at h
      dsimp only at hstrict ⊢
      split at h
      · rw [if_neg (by rw [hstrict]; decide)] at h
        cases h
      · rw [if_neg (by rw [hstrict]; decide)] at h
        cases h
      · rename_i v hnull hv
        refine ⟨v, hv, ?_⟩
        rintro rfl
        exact hnull rfl
    · exact ih (checkFields_cons h).2 he

/-- An entity that is looked up is registered under its name. -/
theorem Registry.Shaped.get?_of_lookup {r : Registry} (h : r.Shaped) {n : String} {d : Descriptor}
    (hd : r.lookup n = .ok d) : Record.get? r.descriptors d.name = some d ∧ d.name = n := by
  rw [Registry.lookup] at hd
  split at hd
  · rename_i d' hd'
    cases hd
    have hname := h.named n _ hd'
    exact ⟨by rw [hname, hd'], hname⟩
  · cases hd

theorem ShapeRef.isFor_writing (inUpdate : Bool) (name : String) :
    (ShapeRef.writing inUpdate name).IsFor name := by
  cases inUpdate
  · exact .inl rfl
  · exact .inr rfl

namespace Registry.Accepts

variable {r : Registry} {d e : Descriptor} {fs inner : Document} {f : FieldDef}

/-- The shape that accepted the arguments of an addition or of an update, with what it offers. -/
theorem exists_fields (inUpdate : Bool) (hr : r.Built)
    (hd : Record.get? r.descriptors d.name = some d)
    (h : r.Accepts (.writing inUpdate d.name) (.object fs)) : ∃ fields path,
      checkFields r.shape? path fs fields = .ok () ∧
      ∀ f ∈ d.entity.fields, f.TakesArguments d.machine.isSome → ¬ f.Links →
        ∀ i, f.argument d.name inUpdate = some i → (f.name, i) ∈ fields := by
  obtain ⟨s, path, hs, hcheck⟩ := h
  obtain ⟨p, hp, rfl⟩ : ∃ p, d.shapes = some p ∧ p.shape inUpdate = s := by
    cases inUpdate <;> rw [ShapeRef.writing, shape?, hd, Option.bind_some] at hs <;>
      exact Option.map_eq_some_iff.1 hs
  refine ⟨(p.shape inUpdate).fields, path, ?_, fun f hf ht hlink i hi => ?_⟩
  · rw [checkInput.eq_def] at hcheck
    dsimp only at hcheck
    split at hcheck
    · exact hcheck
    · cases hcheck
  · refine Record.mem_of_get?_eq_some ?_
    rw [← hi]
    exact hr.offering d.name d p hd hp f hf ht hlink inUpdate

/-- **A required argument** is there in accepted additions. -/
theorem held (hr : r.Built) (hd : Record.get? r.descriptors d.name = some d)
    (h : r.Accepts (.add d.name) (.object fs)) (hf : d.Requires f) :
    Held (Record.get? fs f.name) := by
  obtain ⟨fields, path, hcheck, hoffers⟩ := h.exists_fields false hr hd
  obtain ⟨hmem, hrequired⟩ := hf
  have hlink : ¬ f.Links := by
    rcases hrequired.single with hk | hk | hk <;> exact FieldDef.not_links hk (by decide)
  have hargument : ∃ i, f.argument d.name false = some i ∧ i.nullable = false := by
    have hleaf : ∀ kind, ∃ i, f.leafArgument kind false = some i ∧ i.nullable = false := fun kind =>
      ⟨_, if_neg (by rw [hrequired.plain]; decide), hrequired.strict⟩
    unfold FieldDef.argument
    rcases hrequired.single with hk | hk | hk <;> rw [hk]
    · exact hleaf .scalar
    · exact hleaf .enumeration
    · exact ⟨_, rfl, hrequired.strict⟩
  obtain ⟨i, hi, hstrict⟩ := hargument
  exact checkFields_held hcheck (hoffers f hmem hrequired.takes hlink i hi) hstrict

/-- **The parts of accepted arguments** are accepted arguments of their own entity. -/
theorem part (inUpdate : Bool) (hr : r.Built) (hd : Record.get? r.descriptors d.name = some d)
    (h : r.Accepts (.writing inUpdate d.name) (.object fs)) (hpart : r.Part d fs f e inner) :
    Record.get? r.descriptors e.name = some e ∧ r.Accepts (.writing inUpdate e.name)
    (.object inner) := by
  obtain ⟨fields, path, hcheck, hoffers⟩ := h.exists_fields inUpdate hr hd
  obtain ⟨v, hv, hcomposed⟩ := hpart.composed
  have hnull : v ≠ .null := by
    rintro rfl
    cases hcomposed
  obtain ⟨_, hfs, hfields⟩ := h.offered hr.shaped hd (ShapeRef.isFor_writing inUpdate d.name)
  cases hfs
  obtain ⟨_, ⟨g, hg, hname, ht, hasks⟩, -⟩ := hfields f.name v hv
  obtain rfl := List.inj_on_of_nodup_map d.entity.names_nodup hg hpart.mem hname
  obtain ⟨n, htarget⟩ : ∃ n, g.target = some n := by
    rw [FieldDef.Asks] at hasks
    cases hpart with
    | object _ _ hk _ _ =>
      rw [hk] at hasks
      obtain ⟨-, n, -, hn, -⟩ := hasks
      exact ⟨n, hn⟩
    | item _ _ hk _ _ _ =>
      rw [hk] at hasks
      obtain ⟨-, n, -, hn, -⟩ := hasks
      exact ⟨n, hn⟩
  have hfound := hpart.lookup
  rw [htarget, Option.getD_some] at hfound
  obtain ⟨hregistered, rfl⟩ := hr.shaped.get?_of_lookup hfound
  refine ⟨hregistered, ?_⟩
  have haccepts : ∀ place, checkObject r.shape? (.shape (.writing inUpdate e.name)) place
    (.object inner) = .ok () →
      r.Accepts (.writing inUpdate e.name) (.object inner) := fun place hplace => by
    obtain ⟨s, hs, hinput⟩ := checkObject_ok hplace
    exact ⟨s, place, hs, hinput⟩
  cases hpart with
  | object _ _ hk _ hget =>
    have hoffer := hoffers g hg ht (FieldDef.not_links hk (by decide)) _
      (by rw [FieldDef.argument, hk, htarget]; rfl)
    obtain ⟨place, hplace⟩ := checkFields_ok hcheck hoffer hget (by simp)
    rw [checkValue.eq_def] at hplace
    exact haccepts place hplace
  | item _ _ hk _ hget hitem =>
    have hoffer := hoffers g hg ht (FieldDef.not_links hk (by decide)) _
      (by rw [FieldDef.argument, hk, htarget]; rfl)
    obtain ⟨place, hplace⟩ := checkFields_ok hcheck hoffer hget (by simp)
    obtain ⟨_, hitems, hall⟩ := checkValue_objectList rfl hplace
    cases hitems
    obtain ⟨place', hplace'⟩ := hall _ hitem
    exact haccepts place' hplace'

/-- **Accepted additions supply what is required**, at every depth, when no required argument is the
empty text. -/
theorem supplies (hr : r.Built) (hd : Record.get? r.descriptors d.name = some d)
    (h : r.Accepts (.add d.name) (.object fs)) (hspares : r.Spares d fs) : r.Supplies d fs := by
  induction hspares with
  | intro required _ ih =>
    refine .intro (fun f hf => (h.held hr hd hf).given (required f hf)) fun f e inner hpart => ?_
    obtain ⟨he, haccepts⟩ := h.part false hr hd hpart
    exact ih f e inner hpart he haccepts

end Registry.Accepts

end EntityGraph
