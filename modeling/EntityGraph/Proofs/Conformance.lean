import EntityGraph.Proofs.Completion
import EntityGraph.Proofs.SoundStore

/-!
# Conformance of arguments

What a check of arguments accepts is a grammar: objects without unknown keys, in which required
fields have values and every value is what its field holds (`Conforms`, `Fills`). A check accepts
exactly what conforms, and refuses the rest with a validation error that names a place. The place is
the way to a value that breaks a rule by itself, and not only in one of its parts (`LeadsTo`,
`Violates`); so it can be read back from the message (`readPlace`).

One induction along the check says both (`judges_checkInput`): it either finds every part in order
or the way to a violation. That a value with a violation somewhere does not conform is a matter of
the grammar alone (`Conforms.not_violates`).
-/

namespace EntityGraph

/-! ## The grammar -/

/-- Kinds whose values are single objects with a shape of their own. -/
def InputKind.IsNested (k : InputKind) : Prop := k = .object ∨ k = .id ∨ k = .delta

mutual

/-- **Conforming arguments**: an object whose keys are all fields of the shape. Every required field
has a value, and every value fills its field. -/
inductive Conforms (table : ShapeTable) : InputShape → Value → Prop
  | object {s : InputShape} {fs : Document} (known : ∀ key ∈ Record.keys fs, s.has key = true)
      (required : ∀ e ∈ s.fields, e.2.nullable = false → ∃ v, Record.get? fs e.1 = some v ∧
      v ≠ .null) (filled : ∀ e ∈ s.fields, ∀ v, Record.get? fs e.1 = some v → v ≠ .null →
      Fills table e.2 v) :
      Conforms table s (.object fs)

/-- **What a field holds**, by its kind. The values of scalars are free. -/
inductive Fills (table : ShapeTable) : InputField → Value → Prop
  | scalar {f : InputField} {v : Value} (hk : f.kind = .scalar) : Fills table f v
  | member {f : InputField} {e : Enumeration} {s : String} (hk : f.kind = .enumeration)
      (htype : f.type = .enumeration e) (hs : s ∈ e.values) : Fills table f (.text s)
  | scalars {f : InputField} {items : List Value} (hk : f.kind = .scalarList) :
    Fills table f (.list items)
  | objects {f : InputField} {s : InputShape} {items : List Value} (hk : f.kind = .objectList)
      (hs : f.type.shape? table = some s) (hitems : ∀ v ∈ items, Conforms table s v) :
      Fills table f (.list items)
  | object {f : InputField} {s : InputShape} {v : Value} (hk : f.kind.IsNested)
      (hs : f.type.shape? table = some s) (hv : Conforms table s v) : Fills table f v

end

/-! ## Violations -/

/-- What is expected at a place: an object of a shape, or the value of a field. -/
inductive Expected where
  | shape (s : InputShape)
  | field (f : InputField)

/-- **Violations** that a value commits by itself. A missing value counts as null. -/
inductive Violates : Expected → Value → Prop
  | notObject {s : InputShape} {v : Value} (h : ∀ fs, v ≠ .object fs) : Violates (.shape s) v
  | unknownKey {s : InputShape} {fs : Document} {key : String} (hkey : key ∈ Record.keys fs)
      (h : s.has key = false) : Violates (.shape s) (.object fs)
  | missing {f : InputField} (h : f.nullable = false) : Violates (.field f) .null
  | notList {f : InputField} {v : Value} (hk : f.kind = .scalarList ∨ f.kind = .objectList)
    (hnull : v ≠ .null)
      (h : ∀ items, v ≠ .list items) : Violates (.field f) v
  | notMember {f : InputField} {e : Enumeration} {v : Value} (hk : f.kind = .enumeration)
      (htype : f.type = .enumeration e) (hnull : v ≠ .null) (h : ∀ s ∈ e.values, v ≠ .text s) :
      Violates (.field f) v

/-- A part of a way into arguments: a field, or an item of the list in a field. -/
structure Leg where
  name : String
  item : Option Nat

/-- **Ways into arguments**, in step with the shapes: what is expected at the end of a way, and what
is there. -/
inductive LeadsTo (table : ShapeTable) : InputShape → Value → List Leg → Expected → Value → Prop
  | here {s : InputShape} {v : Value} : LeadsTo table s v [] (.shape s) v
  | field {s : InputShape} {fs : Document} {name : String} {f : InputField}
  (hf : (name, f) ∈ s.fields) :
      LeadsTo table s (.object fs) [⟨name, none⟩] (.field f) ((Record.get? fs name).getD .null)
  | object {s s' : InputShape} {fs : Document} {name : String} {f : InputField} {v w : Value}
    {legs : List Leg}
      {e : Expected} (hf : (name, f) ∈ s.fields) (hk : f.kind.IsNested)
      (hs : f.type.shape? table = some s') (hv : Record.get? fs name = some v) (hnull : v ≠ .null)
      (h : LeadsTo table s' v legs e w) :
      LeadsTo table s (.object fs) (⟨name, none⟩ :: legs) e w
  | item {s s' : InputShape} {fs : Document} {name : String} {f : InputField} {items : List Value}
    {i : Nat}
      {v w : Value} {legs : List Leg} {e : Expected} (hf : (name, f) ∈ s.fields)
      (hk : f.kind = .objectList) (hs : f.type.shape? table = some s')
      (hv : Record.get? fs name = some (.list items)) (hi : items[i]? = some v)
      (h : LeadsTo table s' v legs e w) :
      LeadsTo table s (.object fs) (⟨name, some i⟩ :: legs) e w

section Violations

variable {table : ShapeTable} {s : InputShape} {f : InputField} {args v w : Value} {legs : List Leg}
  {e : Expected}

theorem Fills.not_violates (h : Fills table f v) (hnull : v ≠ .null) : ¬ Violates (.field f) v := by
  intro hv
  cases hv with
  | missing _ => exact hnull rfl
  | notList hk _ hlist =>
    cases h with
    | scalars _ => exact hlist _ rfl
    | objects _ _ _ => exact hlist _ rfl
    | scalar hk' => rcases hk with hk | hk <;> cases hk'.symm.trans hk
    | member hk' _ _ => rcases hk with hk | hk <;> cases hk'.symm.trans hk
    | object hk' _ _ =>
      rcases hk with hk | hk <;> rcases hk' with hk' | hk' | hk' <;> cases hk'.symm.trans hk
  | notMember hk htype _ hmember =>
    cases h with
    | member _ htype' hs =>
      obtain rfl := InputType.enumeration.inj (htype'.symm.trans htype)
      exact hmember _ hs rfl
    | scalar hk' => cases hk'.symm.trans hk
    | scalars hk' => cases hk'.symm.trans hk
    | objects hk' _ _ => cases hk'.symm.trans hk
    | object hk' _ _ => rcases hk' with hk' | hk' | hk' <;> cases hk'.symm.trans hk

/-- A single object in a field conforms to the field's shape. -/
theorem Fills.conforms (h : Fills table f v) (hk : f.kind.IsNested)
    (hs : f.type.shape? table = some s) :
    Conforms table s v := by
  cases h with
  | object _ hs' hv =>
    obtain rfl := Option.some.inj (hs'.symm.trans hs)
    exact hv
  | scalar hk' => rcases hk with hk | hk | hk <;> cases hk'.symm.trans hk
  | member hk' _ _ => rcases hk with hk | hk | hk <;> cases hk'.symm.trans hk
  | scalars hk' => rcases hk with hk | hk | hk <;> cases hk'.symm.trans hk
  | objects hk' _ _ => rcases hk with hk | hk | hk <;> cases hk'.symm.trans hk

/-- The items of a list of objects conform to the field's shape. -/
theorem Fills.conforms_items {items : List Value} (h : Fills table f (.list items))
    (hk : f.kind = .objectList) (hs : f.type.shape? table = some s) :
    ∀ v ∈ items, Conforms table s v := by
  cases h with
  | objects _ hs' hitems =>
    obtain rfl := Option.some.inj (hs'.symm.trans hs)
    exact hitems
  | scalar hk' => cases hk'.symm.trans hk
  | scalars hk' => cases hk'.symm.trans hk
  | object hk' _ _ => rcases hk' with hk' | hk' | hk' <;> cases hk'.symm.trans hk

theorem nullable_of_violates (h : Violates (.field f) .null) : f.nullable = false := by
  cases h with
  | missing h => exact h
  | notList _ hnull _ => exact absurd rfl hnull
  | notMember _ _ hnull _ => exact absurd rfl hnull

/-- **What conforms has no violation** at the end of any way. -/
theorem Conforms.not_violates (h : Conforms table s args) (hway : LeadsTo table s args legs e w) :
    ¬ Violates e w := by
  induction hway with
  | here =>
    obtain ⟨known, -, -⟩ := h
    intro hv
    cases hv with
    | notObject hobject => exact hobject _ rfl
    | unknownKey hkey hunknown => exact Bool.false_ne_true (hunknown.symm.trans (known _ hkey))
  | @field _ fs name _ hf =>
    obtain ⟨-, required, filled⟩ := h
    by_cases hnull : (Record.get? fs name).getD .null = .null
    · rw [hnull]
      intro hv
      obtain ⟨v, hget, hne⟩ := required _ hf (nullable_of_violates hv)
      rw [hget, Option.getD_some] at hnull
      exact hne hnull
    · cases hget : Record.get? fs name with
      | none => exact absurd (by rw [hget, Option.getD_none]) hnull
      | some v =>
        rw [hget, Option.getD_some] at hnull
        exact (filled _ hf v hget hnull).not_violates hnull
  | object hf hk hs hv hnull _ ih =>
    obtain ⟨-, -, filled⟩ := h
    exact ih ((filled _ hf _ hv hnull).conforms hk hs)
  | item hf hk hs hv hi _ ih =>
    obtain ⟨-, -, filled⟩ := h
    exact ih ((filled _ hf _ hv nofun).conforms_items hk hs _ (List.mem_of_getElem? hi))

end Violations

/-! ## Checks -/

/-- The place that a refusal of arguments names. -/
def Reason.place? : Reason → Option String
  | .notAnObject place _ => some place
  | .unknownArguments place _ => some place
  | .missingArgument path _ => some path
  | .notAList path => some path
  | .notAMember path _ _ => some path
  | _ => none

/-- A refusal of arguments opens with the place. -/
theorem Reason.message_of_place? {reason : Reason} {place : String}
    (h : reason.place? = some place) :
    reason.kind = .validation ∧ ∃ detail, reason.message = place ++ ": " ++ detail := by
  have hcut : ∀ text detail rest : String, text = ": " ++ detail →
      place ++ text ++ rest = place ++ ": " ++ (detail ++ rest) := fun text detail rest heq => by
    rw [heq, ← String.append_assoc, ← String.append_assoc]
  cases reason with
  | notAnObject path shape =>
    obtain rfl := Option.some.inj h
    exact ⟨rfl, "expected an object for " ++ shape, hcut _ _ _ (by decide)⟩
  | unknownArguments path names =>
    obtain rfl := Option.some.inj h
    exact ⟨rfl, "unknown argument(s) " ++ Text.join ", " names, hcut _ _ _ (by decide)⟩
  | missingArgument path declaration =>
    obtain rfl := Option.some.inj h
    refine ⟨rfl, declaration ++ " is required", ?_⟩
    change path ++ ": " ++ declaration ++ " is required" = _
    exact @String.append_assoc (path ++ ": ") declaration " is required"
  | notAList path =>
    obtain rfl := Option.some.inj h
    refine ⟨rfl, "expected a list", ?_⟩
    change path ++ ": expected a list" = _
    rw [String.append_assoc]
    exact congrArg _ (by decide)
  | notAMember path value enumeration =>
    obtain rfl := Option.some.inj h
    refine ⟨rfl, "'" ++ value.plain ++ "' is not a valid " ++ enumeration, ?_⟩
    change path ++ ": '" ++ value.plain ++ "' is not a valid " ++ enumeration = _
    rw [show ": '" = ": " ++ "'" by decide]
    simp only [String.append_assoc]
  | _ => cases h

/-- The text of a place below another one. -/
def Leg.below (path : String) (leg : Leg) : String :=
  match leg.item with
  | none => fieldPath path leg.name
  | some i => itemPath (fieldPath path leg.name) i

/-- How a message names a place: at the root, the shape stands for it. -/
def Expected.place (path : String) : Expected → String
  | .shape s => if path = "" then s.name else path
  | .field _ => path

/-- A message about a violation, with the place where a way leads to it. -/
def Reports (way : List Leg → Expected → Value → Prop) (path message : String) : Prop :=
  ∃ legs e w detail, way legs e w ∧ Violates e w ∧
    message = e.place (legs.foldl Leg.below path) ++ ": " ++ detail

/-- **A judgement**: everything is in order, or a validation error reports a violation. -/
def Judges (inOrder : Prop) (way : List Leg → Expected → Value → Prop) (path : String) :
    Outcome Unit → Prop
  | .ok _ => inOrder
  | .error fault => fault.IsValidation ∧ Reports way path fault.text

section Judgements

variable {table : ShapeTable} {s : InputShape} {fs : Document} {path : String}

theorem Judges.ok {inOrder : Prop} {way : List Leg → Expected → Value → Prop} (h : inOrder) :
    Judges inOrder way path (.ok ()) := h

theorem Judges.refuse {inOrder : Prop} {way : List Leg → Expected → Value → Prop} {reason : Reason}
    {legs : List Leg} {e : Expected} {w : Value} (hway : way legs e w) (hviolates : Violates e w)
    (hplace : reason.place? = some (e.place (legs.foldl Leg.below path))) :
    Judges inOrder way path (.error reason.fault) := by
  obtain ⟨hkind, detail, htext⟩ := Reason.message_of_place? hplace
  exact ⟨Reason.isValidation_fault hkind, legs, e, w, detail, hway, hviolates, htext⟩

theorem Judges.mono {inOrder inOrder' : Prop} {way : List Leg → Expected → Value → Prop}
    {x : Outcome Unit} (hx : Judges inOrder way path x) (h : inOrder → inOrder') :
    Judges inOrder' way path x := by
  rcases x with fault | ⟨⟩
  · exact hx
  · exact h hx

/-- One check after another. -/
theorem Judges.bind {first rest inOrder : Prop} {way : List Leg → Expected → Value → Prop}
    {x y : Outcome Unit} (hx : Judges first way path x) (hy : Judges rest way path y)
    (h : first → rest → inOrder) :
    Judges inOrder way path (x >>= fun _ => y) := by
  rcases x with fault | ⟨⟩
  · exact hx
  rcases y with fault | ⟨⟩
  · exact hy
  · exact h hx hy

/-- A check of a part is a check of the whole, one leg further away. -/
theorem Judges.inside {part whole : Prop} {way way' : List Leg → Expected → Value → Prop}
    {leg : Leg} {x : Outcome Unit} (hx : Judges part way (leg.below path) x) (h : part → whole)
    (hway : ∀ legs e w, way legs e w → way' (leg :: legs) e w) : Judges whole way' path x := by
  rcases x with fault | ⟨⟩
  · obtain ⟨hfault, legs, e, w, detail, hleads, hviolates, htext⟩ := hx
    exact ⟨hfault, leg :: legs, e, w, detail, hway legs e w hleads, hviolates, htext⟩
  · exact h hx

theorem unknownKeys_eq_nil {fs : Document} (h : unknownKeys s fs = []) :
    ∀ key ∈ Record.keys fs, s.has key = true := by
  intro key hkey
  by_contra hunknown
  have hmem : key ∈ unknownKeys s fs := List.mem_filter.2 ⟨hkey, by simpa using hunknown⟩
  rw [h] at hmem
  cases hmem

theorem exists_of_unknownKeys {fs : Document} (h : unknownKeys s fs ≠ []) :
    ∃ key ∈ Record.keys fs, s.has key = false := by
  obtain ⟨key, hmem⟩ := List.exists_mem_of_ne_nil _ h
  obtain ⟨hkey, hunknown⟩ := List.mem_filter.1 hmem
  exact ⟨key, hkey, by simpa using hunknown⟩

/-- The way to a field of the arguments. -/
theorem LeadsTo.field_eq {name : String} {f : InputField} (hf : (name, f) ∈ s.fields) {v : Value}
    (hv : (Record.get? fs name).getD .null = v) :
    LeadsTo table s (.object fs) [⟨name, none⟩] (.field f) v :=
  hv ▸ .field hf

/-- The check of a member of an enumeration. -/
theorem judges_checkMember {name : String} {f : InputField} (hf : (name, f) ∈ s.fields)
    (hk : f.kind = .enumeration) {e : Enumeration} (htype : f.type = .enumeration e) (path : String)
    {v : Value} (hv : Record.get? fs name = some v) (hnull : v ≠ .null) :
    Judges (Fills table f v)
    (LeadsTo table s (.object fs)) path (checkMember f.type (fieldPath path name) v) := by
  have hway : LeadsTo table s (.object fs) [⟨name, none⟩] (.field f) v :=
    .field_eq hf (by rw [hv, Option.getD_some])
  unfold checkMember
  rw [htype]
  cases v with
  | text t =>
    dsimp only
    split
    · rename_i hmem
      exact .ok (.member hk htype (List.contains_iff_mem.1 hmem))
    · rename_i hmem
      refine .refuse hway (.notMember hk htype hnull fun member hmember heq => hmem ?_) rfl
      rw [Value.text.inj heq]
      exact List.contains_iff_mem.2 hmember
  | _ => exact .refuse hway (.notMember hk htype hnull fun _ _ => nofun) rfl

mutual

/-- **Checks of arguments** accept what conforms to the shape, and otherwise report a violation. -/
theorem judges_checkInput (h : ShapeTable.Closed table) {s : InputShape}
    (hs : ∀ e ∈ s.fields, InputField.Checkable table e.2) (path : String) (args : Value) :
    Judges (Conforms table s args) (LeadsTo table s args) path (checkInput table s path args) := by
  have here : LeadsTo table s args [] (.shape s) args := .here
  rw [checkInput.eq_def]
  dsimp only
  cases args with
  | object fs =>
    dsimp only
    split
    · rename_i hknown
      have hfields := judges_checkFields h path fs s.fields fun e he => ⟨he, hs e he⟩
      refine hfields.mono fun hall => ?_
      exact .object (unknownKeys_eq_nil hknown) (fun e he => (hall e he).1) fun e he =>
        (hall e he).2
    · rename_i hunknown
      obtain ⟨key, hkey, hnone⟩ := exists_of_unknownKeys hunknown
      exact .refuse here (.unknownKey hkey hnone) rfl
  | _ => exact .refuse here (.notObject nofun) rfl
termination_by (sizeOf args, 0, 0)

theorem judges_checkFields (h : ShapeTable.Closed table) {s : InputShape} (path : String)
    (fs : Document) :
    ∀ fields : List (String × InputField),
      (∀ e ∈ fields, e ∈ s.fields ∧ InputField.Checkable table e.2) →
      Judges (∀ e ∈ fields, (e.2.nullable = false → ∃ v, Record.get? fs e.1 = some v ∧ v ≠ .null) ∧
          ∀ v, Record.get? fs e.1 = some v → v ≠ .null → Fills table e.2 v)
        (LeadsTo table s (.object fs)) path (checkFields table path fs fields)
  | [], _ => by
    rw [checkFields]
    exact .ok fun e he => absurd he List.not_mem_nil
  | (name, f) :: rest, hfields => by
    have hrest := judges_checkFields h path fs rest fun e he =>
      hfields e (List.mem_cons_of_mem _ he)
    obtain ⟨hf, hcheckable⟩ := hfields (name, f) (List.mem_cons_self ..)
    rw [checkFields]
    split
    · rename_i hnone
      split
      · rename_i hnullable
        refine hrest.mono fun hall => List.forall_mem_cons.2 ⟨⟨fun hrequired => ?_, fun v hv => ?_⟩,
          hall⟩
        · exact absurd (hrequired.symm.trans hnullable) Bool.false_ne_true
        · cases hnone.symm.trans hv
      · rename_i hrequired
        exact .refuse (.field_eq hf (by rw [hnone, Option.getD_none]))
          (.missing (Bool.eq_false_iff.2 hrequired)) rfl
    · rename_i hnull
      split
      · rename_i hnullable
        refine hrest.mono fun hall =>
          List.forall_mem_cons.2 ⟨⟨fun hrequired => ?_, fun v hv hne => ?_⟩, hall⟩
        · exact absurd (hrequired.symm.trans hnullable) Bool.false_ne_true
        · exact absurd (Option.some.inj (hv.symm.trans hnull)) hne
      · rename_i hrequired
        exact .refuse (.field_eq hf (by rw [hnull, Option.getD_some]))
          (.missing (Bool.eq_false_iff.2 hrequired)) rfl
    · rename_i v hne hv
      have := Record.sizeOf_lt_of_get?_eq_some hv
      refine (judges_checkValue h hf hcheckable path hv hne).bind hrest fun hfills hall => ?_
      refine List.forall_mem_cons.2 ⟨⟨fun _ => ⟨v, hv, hne⟩, fun v' hv' _ => ?_⟩, hall⟩
      cases hv.symm.trans hv'
      exact hfills
termination_by fields => (sizeOf fs, 2, fields.length)

theorem judges_checkValue (h : ShapeTable.Closed table) {s : InputShape} {name : String}
    {f : InputField} (hf : (name, f) ∈ s.fields) (hcheckable : InputField.Checkable table f)
    (path : String) {fs : Document} {v : Value} (hv : Record.get? fs name = some v)
    (hnull : v ≠ .null) :
    Judges (Fills table f v)
    (LeadsTo table s (.object fs)) path (checkValue table f (fieldPath path name) v) := by
  have hway : LeadsTo table s (.object fs) [⟨name, none⟩] (.field f) v :=
    .field_eq hf (by rw [hv, Option.getD_some])
  unfold InputField.Checkable at hcheckable
  rw [checkValue.eq_def]
  cases hk : f.kind with
  | scalar => exact .ok (.scalar hk)
  | enumeration =>
    rw [hk] at hcheckable
    obtain ⟨e, htype⟩ := hcheckable
    exact judges_checkMember hf hk htype path hv hnull
  | scalarList =>
    cases v with
    | list items => exact .ok (.scalars hk)
    | _ => exact .refuse hway (.notList (.inl hk) hnull nofun) rfl
  | objectList =>
    rw [hk] at hcheckable
    obtain ⟨ref, s', htype, hs'⟩ := hcheckable
    have hshape : f.type.shape? table = some s' := by rw [htype, InputType.shape?, hs']
    cases v with
    | list items =>
      have hitems := judges_checkItems h hf hk hshape (h ref s' hs') path hv 0 items
        fun i v hi => by rwa [Nat.zero_add]
      exact hitems.mono fun hall => .objects hk hshape hall
    | _ => exact .refuse hway (.notList (.inr hk) hnull nofun) rfl
  | id =>
    rw [hk] at hcheckable
    exact judges_checkNested h hf (hk ▸ .inr (.inl rfl)) hcheckable path hv hnull
  | object =>
    rw [hk] at hcheckable
    exact judges_checkNested h hf (hk ▸ .inl rfl) hcheckable path hv hnull
  | delta =>
    rw [hk] at hcheckable
    exact judges_checkNested h hf (hk ▸ .inr (.inr rfl)) hcheckable path hv hnull
termination_by (sizeOf v, 2, 0)

theorem judges_checkNested (h : ShapeTable.Closed table) {s : InputShape} {name : String}
    {f : InputField} (hf : (name, f) ∈ s.fields) (hk : f.kind.IsNested)
    (htype : ∃ ref s', f.type = .shape ref ∧ table ref = some s') (path : String) {fs : Document}
    {v : Value} (hv : Record.get? fs name = some v) (hnull : v ≠ .null) :
    Judges (Fills table f v) (LeadsTo table s (.object fs)) path
      (checkObject table f.type (fieldPath path name) v) := by
  obtain ⟨ref, s', htype, hs'⟩ := htype
  have hshape : f.type.shape? table = some s' := by rw [htype, InputType.shape?, hs']
  rw [checkObject, hshape]
  have hinner : Judges (Conforms table s' v) (LeadsTo table s' v) (Leg.below path ⟨name, none⟩)
      (checkInput table s' (fieldPath path name) v) := judges_checkInput h (h ref s' hs') _ v
  exact hinner.inside (.object hk hshape) fun legs e w hway => .object hf hk hshape hv hnull hway
termination_by (sizeOf v, 1, 0)

theorem judges_checkItems (h : ShapeTable.Closed table) {s : InputShape} {name : String}
    {f : InputField} (hf : (name, f) ∈ s.fields) (hk : f.kind = .objectList) {s' : InputShape}
    (hs' : f.type.shape? table = some s')
    (hchecks' : ∀ e ∈ s'.fields, InputField.Checkable table e.2) (path : String) {fs : Document}
    {all : List Value} (hv : Record.get? fs name = some (.list all)) (index : Nat) :
    ∀ items : List Value, (∀ i v, items[i]? = some v → all[index + i]? = some v) →
      Judges (∀ v ∈ items, Conforms table s' v) (LeadsTo table s (.object fs)) path
        (checkItems table f.type (fieldPath path name) index items)
  | [], _ => by
    rw [checkItems]
    exact .ok fun v hv => absurd hv List.not_mem_nil
  | v :: rest, hitems => by
    have hrest := judges_checkItems h hf hk hs' hchecks' path hv (index + 1) rest fun i w hi => by
      rw [Nat.add_assoc, Nat.add_comm 1 i]
      exact hitems (i + 1) w hi
    have hfirst :
      Judges (Conforms table s' v) (LeadsTo table s' v) (Leg.below path ⟨name, some index⟩)
        (checkObject table f.type (itemPath (fieldPath path name) index) v) := by
      rw [checkObject, hs']
      exact judges_checkInput h hchecks' _ v
    rw [checkItems]
    refine (hfirst.inside id fun legs e w hway => ?_).bind hrest fun hv hall =>
      List.forall_mem_cons.2 ⟨hv, hall⟩
    exact .item hf hk hs' hv (hitems 0 v rfl) hway
termination_by items => (sizeOf items, 0, 0)

end

end Judgements

/-! ## Places -/

/-- A leg as it is written in a place. -/
def Leg.text (leg : Leg) : String :=
  match leg.item with
  | none => leg.name
  | some i => itemPath leg.name i

/-- Read a leg: a name, and a number in brackets if there is one. -/
def readLeg (segment : String) : Leg where
  name := String.ofList (Text.splitChars '[' segment.toList).1
  item := (Text.splitChars '[' segment.toList).2.head?.map fun item =>
    Nat.ofDigitChars 10 item.dropLast 0

/-- **Reading a place**: the legs of a way, from the dotted text in a message. -/
def readPlace (place : String) : List Leg := (Text.segments place).map readLeg

/-- A name that can be read back from a place. -/
def IsLegibleName (name : String) : Prop := IsSegment name ∧ '[' ∉ name.toList

section Places

variable {table : ShapeTable} {s : InputShape} {args w : Value} {legs : List Leg} {leg : Leg}
  {e : Expected}

theorem toList_itemPath (path : String) (i : Nat) :
    (itemPath path i).toList = path.toList ++ '[' :: (Nat.toDigits 10 i ++ [']']) := by
  have hdigits : (toString i).toList = Nat.toDigits 10 i := String.toList_ofList
  rw [itemPath, String.toList_append, String.toList_append, String.toList_append, hdigits,
    List.append_assoc, List.append_assoc]
  rfl

theorem notMem_digits {c : Char} (hc : c.isDigit = false) (hbracket : c ≠ ']') (i : Nat) :
    c ∉ Nat.toDigits 10 i ++ [']'] := by
  intro h
  rcases List.mem_append.1 h with h | h
  · exact Bool.false_ne_true (hc.symm.trans (Nat.isDigit_of_mem_toDigits (by decide) (by decide) h))
  · exact hbracket (List.mem_singleton.1 h)

theorem readLeg_text (h : '[' ∉ leg.name.toList) : readLeg leg.text = leg := by
  obtain ⟨name, item⟩ := leg
  cases item with
  | none =>
    have hsplit : Text.splitChars '[' (Leg.text ⟨name, none⟩).toList = (name.toList, []) :=
      Text.splitChars_of_notMem h
    rw [readLeg, hsplit, String.ofList_toList]
    rfl
  | some i =>
    have hsplit : Text.splitChars '[' (Leg.text ⟨name, some i⟩).toList =
        (name.toList, [Nat.toDigits 10 i ++ [']']]) := by
      rw [Leg.text, toList_itemPath, Text.splitChars_append h,
        Text.splitChars_of_notMem (notMem_digits (by decide) (by decide) i)]
    rw [readLeg, hsplit, String.ofList_toList, List.head?_cons, Option.map_some,
      List.dropLast_concat, Nat.ofDigitChars_toDigits (by decide) (by decide)]

theorem isSegment_text (h : IsSegment leg.name) : IsSegment leg.text := by
  obtain ⟨name, item⟩ := leg
  cases item with
  | none => exact h
  | some i =>
    intro hmem
    change '.' ∈ (itemPath name i).toList at hmem
    rw [toList_itemPath] at hmem
    rcases List.mem_append.1 hmem with hmem | hmem
    · exact h hmem
    · rcases List.mem_cons.1 hmem with hmem | hmem
      · exact absurd hmem (by decide)
      · exact notMem_digits (by decide) (by decide) i hmem

/-- Legible legs are read back from their place. -/
theorem readPlace_dotted (legs : List Leg) (hne : legs ≠ [])
    (h : ∀ leg ∈ legs, IsLegibleName leg.name) :
    readPlace (dotted (legs.map Leg.text)) = legs := by
  unfold readPlace
  rw [segments_dotted_of_isSegment (mt List.map_eq_nil_iff.1 hne) fun s hs => ?_, List.map_map]
  · exact (List.map_congr_left fun leg hleg => readLeg_text (h leg hleg).2).trans (List.map_id _)
  · obtain ⟨leg, hleg, rfl⟩ := List.mem_map.1 hs
    exact isSegment_text (h leg hleg).1

/-- Below a place with a text, legs are put on with dots. -/
theorem below_eq {path : String} (hpath : path ≠ "") (leg : Leg) :
    leg.below path = path ++ "." ++ leg.text := by
  obtain ⟨name, item⟩ := leg
  cases item with
  | none => exact if_neg hpath
  | some i =>
    change itemPath (fieldPath path name) i = path ++ "." ++ itemPath name i
    rw [fieldPath, if_neg hpath, itemPath, itemPath]
    simp only [String.append_assoc]

theorem below_root (leg : Leg) : leg.below "" = leg.text := by
  obtain ⟨name, item⟩ := leg
  cases item with
  | none => rfl
  | some i => rfl

theorem foldl_below {path : String} (hpath : path ≠ "") (legs : List Leg) :
    legs.foldl Leg.below path = dotted (path :: legs.map Leg.text) := by
  induction legs generalizing path with
  | nil => rfl
  | cons leg rest ih =>
    rw [List.foldl_cons, below_eq hpath, ih (by simp [hpath])]
    have hjoin : Text.join "." (Text.join "." [path, leg.text] :: rest.map Leg.text) =
        Text.join "." ([path, leg.text] ++ rest.map Leg.text) :=
        Text.join_join (List.cons_ne_nil _ _) _
    exact hjoin

/-- From the root, the place of a way is the dotted text of its legs, unless the first of several
has no text. -/
theorem foldl_below_root (h : leg.text = "" → legs = []) :
    (leg :: legs).foldl Leg.below "" = dotted ((leg :: legs).map Leg.text) := by
  rw [List.foldl_cons, below_root]
  by_cases htext : leg.text = ""
  · rw [h htext]
    rfl
  · exact foldl_below htext legs

theorem dotted_ne_empty {t : String} (h : t ≠ "") (rest : List String) :
    dotted (t :: rest) ≠ "" := by
  cases rest with
  | nil => exact h
  | cons u rest =>
    unfold dotted
    rw [Text.join_cons _ _ (List.cons_ne_nil u rest)]
    simp [h]

theorem text_item_ne_empty (name : String) (i : Nat) : Leg.text ⟨name, some i⟩ ≠ "" := by
  intro h
  have hlist := congrArg String.toList h
  rw [Leg.text, toList_itemPath] at hlist
  exact List.append_ne_nil_of_right_ne_nil _ (List.cons_ne_nil _ _) hlist

/-- A place behind a leg with a text is read back. -/
theorem readPlace_place (leg : Leg) (legs : List Leg) (htext : leg.text ≠ "")
    (h : ∀ g ∈ leg :: legs, IsLegibleName g.name) :
    readPlace (e.place ((leg :: legs).foldl Leg.below "")) = leg :: legs := by
  have hplace : e.place ((leg :: legs).foldl Leg.below "") =
      dotted ((leg :: legs).map Leg.text) := by
    rw [foldl_below_root fun hempty => absurd hempty htext]
    cases e with
    | shape s => exact if_neg (dotted_ne_empty htext (legs.map Leg.text))
    | field f => rfl
  rw [hplace]
  exact readPlace_dotted _ (List.cons_ne_nil _ _) h

/-- The shape of what a field holds is one of the table's. -/
theorem Checkable.exists_ref {f : InputField} {s : InputShape} (h : InputField.Checkable table f)
    (hk : f.kind.IsNested ∨ f.kind = .objectList) (hs : f.type.shape? table = some s) :
    ∃ ref, table ref = some s := by
  have htype : ∃ ref s', f.type = .shape ref ∧ table ref = some s' := by
    unfold InputField.Checkable at h
    rcases hk with (hk | hk | hk) | hk <;> rw [hk] at h <;> exact h
  obtain ⟨ref, -, htype, -⟩ := htype
  rw [htype] at hs
  exact ⟨ref, hs⟩

/-- The names on a way are those of fields. -/
theorem LeadsTo.forall_name {p : String → Prop} (h : ShapeTable.Closed table)
    (hs : ∀ e ∈ s.fields, InputField.Checkable table e.2) (hp : ∀ e ∈ s.fields, p e.1)
    (hall : ∀ ref s, table ref = some s → ∀ e ∈ s.fields, p e.1)
    (hway : LeadsTo table s args legs e w) :
    ∀ leg ∈ legs, p leg.name := by
  induction hway with
  | here => exact fun leg hleg => absurd hleg List.not_mem_nil
  | field hf => exact List.forall_mem_singleton.2 (hp _ hf)
  | object hf hk hs' _ _ _ ih =>
    obtain ⟨ref, htable⟩ := Checkable.exists_ref (hs _ hf) (.inl hk) hs'
    exact List.forall_mem_cons.2 ⟨hp _ hf, ih (h ref _ htable) (hall ref _ htable)⟩
  | item hf hk hs' _ _ _ ih =>
    obtain ⟨ref, htable⟩ := Checkable.exists_ref (hs _ hf) (.inr hk) hs'
    exact List.forall_mem_cons.2 ⟨hp _ hf, ih (h ref _ htable) (hall ref _ htable)⟩

/-- **Places can be read**: the root is named by its shape, and from every other place the way is
read back. The field of the empty name must not hold an object, as what is inside would be placed at
the root. -/
theorem LeadsTo.reads (hway : LeadsTo table s args legs e w)
    (hlegible : ∀ leg ∈ legs, IsLegibleName leg.name)
    (hroot : ∀ f, ("", f) ∈ s.fields → ¬ f.kind.IsNested) :
    legs = [] ∧ e.place (legs.foldl Leg.below "") = s.name ∨
      readPlace (e.place (legs.foldl Leg.below "")) = legs := by
  cases hway with
  | here => exact .inl ⟨rfl, rfl⟩
  | field _ =>
    refine .inr ?_
    rw [Expected.place, foldl_below_root fun _ => rfl]
    exact readPlace_dotted _ (List.cons_ne_nil _ _) hlegible
  | @object _ _ _ name f _ _ _ _ hf hk _ _ _ _ =>
    have hname : name ≠ "" := fun hempty => hroot f (hempty ▸ hf) hk
    exact .inr (readPlace_place ⟨name, none⟩ _ hname hlegible)
  | item _ _ _ _ _ _ => exact .inr (readPlace_place _ _ (text_item_ne_empty _ _) hlegible)

/-- **Locating**: a message opens with a place, and the way that is read from it leads to a
violation. The name of the shape stands for the root. -/
def Locates (table : ShapeTable) (s : InputShape) (args : Value) (message : String) : Prop :=
  ∃ place detail legs e w, message = place ++ ": " ++ detail ∧ LeadsTo table s args legs e w ∧
    Violates e w ∧
    (legs = [] ∧ place = s.name ∨ readPlace place = legs)

end Places

namespace Registry

variable {r : Registry} {ref : ShapeRef} {s : InputShape}

/-- The names in the shapes of a registry are those of its fields, and a few of the service's
own. -/
theorem forall_name_of_shape {p : String → Prop} (hr : r.Shaped)
    (hfields : ∀ e ∈ r.descriptors, ∀ f ∈ e.2.entity.fields, p f.name)
    (hown : ∀ name ∈ ["id", "added", "updated", "deleted"], p name) (hs : r.shape? ref = some s) :
    ∀ e ∈ s.fields, p e.1 := by
  have hpair : ∀ name d q, Record.get? r.descriptors name = some d → d.shapes = some q →
      ∀ e, e ∈ q.add.fields ∨ e ∈ q.update.fields → p e.1 := by
    intro name d q hd hq e he
    obtain ⟨f, hf, hname, -, -⟩ := hr.fits name d hd q hq e he
    exact hname ▸ hfields _ (Record.mem_of_get?_eq_some hd) f hf
  intro e he
  cases shows_of_shape? hs with
  | reference =>
    obtain rfl := List.mem_singleton.1 he
    exact hown "id" (by decide)
  | add hd hq => exact hpair _ _ _ hd hq e (.inl he)
  | update hd hq => exact hpair _ _ _ hd hq e (.inr he)
  | delta =>
    have hnames : e.1 ∈ ["added", "updated", "deleted"] := List.mem_map_of_mem he
    exact hown _ (List.mem_cons_of_mem _ hnames)

/-- **Checks of arguments accept exactly what conforms** to a shape of a finalized registry. What
does not is refused with a validation error. It locates a violation, where names are legible and the
field of the empty name, if the shape has one, does not hold an object. -/
theorem checkInput_conforms (hr : r.Built) (hdone : r.finalized = true) (hs : r.shape? ref = some s)
    (args : Value) :
    (checkInput r.shape? s "" args = .ok () ↔ Conforms r.shape? s args) ∧
    ∀ fault, checkInput r.shape? s "" args = .error fault → fault.IsValidation ∧
      ((∀ e ∈ r.descriptors, ∀ f ∈ e.2.entity.fields, IsLegibleName f.name) →
        (∀ f, ("", f) ∈ s.fields → ¬ f.kind.IsNested) → Locates r.shape? s args fault.text) := by
  have hclosed := (hr.complete hdone).closed hr.shaped
  have hjudges := judges_checkInput hclosed (hclosed ref s hs) "" args
  rcases hcheck : checkInput r.shape? s "" args with fault | ⟨⟩
  · rw [hcheck] at hjudges
    obtain ⟨hfault, legs, e, w, detail, hway, hviolates, htext⟩ := hjudges
    refine ⟨⟨nofun, fun hconforms => absurd hviolates (hconforms.not_violates hway)⟩,
      fun fault' heq => ?_⟩
    obtain rfl := Except.error.inj heq
    refine ⟨hfault, fun hlegible hroot => ⟨_, detail, legs, e, w, htext, hway, hviolates, ?_⟩⟩
    have hown : ∀ name ∈ ["id", "added", "updated", "deleted"], IsLegibleName name := by
      unfold IsLegibleName IsSegment
      decide
    have hnames : ∀ ref s, r.shape? ref = some s → ∀ e ∈ s.fields, IsLegibleName e.1 :=
        fun _ _ hs =>
      forall_name_of_shape hr.shaped hlegible hown hs
    exact hway.reads (hway.forall_name hclosed (hclosed ref s hs) (hnames ref s hs) hnames) hroot
  · rw [hcheck] at hjudges
    exact ⟨⟨fun _ => hjudges, fun _ => rfl⟩, nofun⟩

end Registry

/-! ## Tenants -/

/-- A tenant has a flat in a field of the given name. -/
def tenant (field : String) : Entity where
  name := "Tenant"
  fields := [⟨field, .entity "Flat", false, true, false, false, some ⟨true, "", .null⟩, .null⟩]
  description := .null
  names_nodup := List.nodup_singleton _

/-- A flat has a city. -/
def flat : Entity where
  name := "Flat"
  fields := [⟨"city", .scalar .string, false, false, false, false, none, .null⟩]
  description := .null
  names_nodup := List.nodup_singleton _

/-- The finalized registry of tenants and their flats. -/
def tenancies (field : String) : Registry :=
  (Registry.finalize.run.run ⟨[("Tenant",
    ⟨tenant field, "Tenant", none, none, none, false, none, []⟩),
    ("Flat", ⟨flat, "Flat", none, none, none, false, none, []⟩)], [], false⟩).2

/-- The shape of tenants that are created. -/
def tenantShape (field : String) : InputShape :=
  ⟨"TenantInput", [(field, ⟨field, .object, .shape (.add "Flat"), true, .null⟩)], true⟩

/-- The shape of flats that are created. -/
def flatShape : InputShape :=
  ⟨"FlatInput", [("city", ⟨"city", .scalar, .named "String", false, .null⟩)], true⟩

theorem tenancies_built (field : String) : (tenancies field).Built :=
  let alone : Registry := ⟨[("Tenant",
    ⟨tenant field, "Tenant", none, none, none, false, none, []⟩)], [], false⟩
  have htenant : Registry.empty.addEmbedded (tenant field) = .ok alone := rfl
  have hflat : alone.addEmbedded flat =
    .ok ⟨[("Tenant", ⟨tenant field, "Tenant", none, none, none, false, none, []⟩),
    ("Flat", ⟨flat, "Flat", none, none, none, false, none, []⟩)], [], false⟩ := rfl
  .finalize (.embed (.embed .empty htenant) hflat)

theorem entities_tenancies (field : String) : (tenancies field).descriptors.map (·.2.entity) =
    [tenant field, flat] := rfl

theorem tenancies_legible {field : String} (h : IsLegibleName field) :
    ∀ e ∈ (tenancies field).descriptors, ∀ f ∈ e.2.entity.fields, IsLegibleName f.name := by
  intro e he f hf
  have hentity : e.2.entity ∈ [tenant field, flat] :=
    entities_tenancies field ▸ List.mem_map_of_mem he
  rcases List.mem_pair.1 hentity with heq | heq <;> rw [heq] at hf <;> obtain rfl :=
    List.mem_singleton.1 hf
  · exact h
  · unfold IsLegibleName IsSegment
    decide

theorem unknownKeys_tenantShape (field : String) :
    unknownKeys (tenantShape field) [(field, .object [])] = [] := by
  refine List.filter_eq_nil_iff.2 fun key hkey => ?_
  rw [List.mem_singleton.1 hkey]
  simp [tenantShape, InputShape.has, Record.has, Record.get?_cons]

theorem shape?_flat (field : String) :
    InputType.shape? (tenancies field).shape? (.shape (.add "Flat")) = some flatShape := rfl

/-- A flat without a city is refused. -/
theorem checkInput_flatShape (table : ShapeTable) (path : String) :
    checkInput table flatShape path (.object []) =
      .error (Reason.missingArgument (fieldPath path "city") "city: String!").fault := by
  have hknown : unknownKeys flatShape [] = [] := rfl
  rw [checkInput.eq_def]
  dsimp only
  rw [hknown]
  dsimp only
  rw [flatShape, checkFields]
  rfl

/-- A tenant of a flat without a city is refused. -/
theorem checkInput_tenancies (field : String) :
    checkInput (tenancies field).shape? (tenantShape field) "" (.object [(field, .object [])]) =
      .error (Reason.missingArgument (fieldPath (fieldPath "" field) "city")
        "city: String!").fault := by
  have hget : Record.get? [(field, Value.object [])] field = some (.object []) := if_pos rfl
  have hvalue : checkValue (tenancies field).shape? ⟨field, .object, .shape (.add "Flat"), true,
    .null⟩
      (fieldPath "" field) (.object []) =
        .error (Reason.missingArgument (fieldPath (fieldPath "" field) "city")
        "city: String!").fault := by
    rw [checkValue.eq_def]
    dsimp only
    rw [checkObject, shape?_flat]
    exact checkInput_flatShape _ _
  rw [checkInput.eq_def]
  dsimp only
  rw [unknownKeys_tenantShape]
  dsimp only
  rw [tenantShape, checkFields]
  split
  · rename_i hnone
    cases hnone.symm.trans hget
  · rename_i hnull
    cases hnull.symm.trans hget
  · rename_i v _ hv
    obtain rfl := Option.some.inj (hv.symm.trans hget)
    rw [hvalue]
    rfl

/-- Tenants without a city do not conform, and the refusal says where. -/
theorem checkInput_conforms_tenancies :
    (tenancies "home").Built ∧ (tenancies "home").finalized = true ∧
    (tenancies "home").shape? (.add "Tenant") = some (tenantShape "home") ∧
    ∃ fault, checkInput (tenancies "home").shape? (tenantShape "home") ""
      (.object [("home", .object [])]) = .error fault ∧
      fault.IsValidation ∧
      Locates (tenancies "home").shape? (tenantShape "home")
      (.object [("home", .object [])]) fault.text ∧
      ¬ Conforms (tenancies "home").shape? (tenantShape "home")
      (.object [("home", .object [])]) := by
  have hlegible : IsLegibleName "home" := by
    unfold IsLegibleName IsSegment
    decide
  have hshape : (tenancies "home").shape? (.add "Tenant") = some (tenantShape "home") := rfl
  obtain ⟨hiff, hrefused⟩ :=
    Registry.checkInput_conforms (tenancies_built "home") rfl hshape
      (.object [("home", .object [])])
  obtain ⟨hfault, hlocates⟩ := hrefused _ (checkInput_tenancies "home")
  refine ⟨tenancies_built "home", rfl, hshape, _, checkInput_tenancies "home", hfault, ?_,
    fun hconforms => ?_⟩
  · refine hlocates (tenancies_legible hlegible) fun f hf => ?_
    have hname : "" = "home" := congrArg Prod.fst (List.mem_singleton.1 hf)
    exact absurd hname (by decide)
  · exact absurd ((checkInput_tenancies "home").symm.trans (hiff.2 hconforms)) nofun

/-- A place that starts with a letter is not in the field of the empty name. -/
theorem name_ne_of_readPlace {place : String} {c : Char} {cs : List Char}
    (hplace : place.toList = c :: cs) (hdot : c ≠ '.') (hbracket : c ≠ '[') {leg : Leg}
    {legs : List Leg} (h : readPlace place = leg :: legs) :
    leg.name ≠ "" := by
  have hfirst : ∀ separator, c ≠ separator → ∀ rest,
      (Text.splitChars separator (c :: rest)).1 = c :: (Text.splitChars separator rest).1 := by
    intro separator hne rest
    rw [Text.splitChars]
    dsimp only
    rw [if_neg hne]
  rw [readPlace, Text.segments, Text.split, hplace] at h
  have hleg : readLeg (String.ofList (Text.splitChars '.' (c :: cs)).1) = leg := (List.cons.inj h).1
  rw [← hleg]
  intro hempty
  have hlist := congrArg String.toList hempty
  rw [readLeg, String.toList_ofList, String.toList_ofList, hfirst '.' hdot,
    hfirst '[' hbracket] at hlist
  exact absurd hlist (List.cons_ne_nil _ _)

/-- **A place that is lost**: what is inside the field of the empty name is placed at the root,
where there is no such field. -/
theorem place_not_located : ∃ (r : Registry) (s : InputShape) (args : Value) (fault : Fault),
    r.Built ∧
    r.finalized = true ∧ r.shape? (.add "Tenant") = some s ∧
    (∀ e ∈ r.descriptors, ∀ f ∈ e.2.entity.fields, IsLegibleName f.name) ∧
    checkInput r.shape? s "" args = .error fault ∧ ¬ Locates r.shape? s args fault.text := by
  have hlegible : IsLegibleName "" := by
    unfold IsLegibleName IsSegment
    decide
  refine ⟨tenancies "", tenantShape "", .object [("", .object [])], _, tenancies_built "", rfl, rfl,
    tenancies_legible hlegible, checkInput_tenancies "", ?_⟩
  rintro ⟨place, detail, legs, e, w, htext, hway, hviolates, hplace⟩
  have hchars : "city: city: String! is required".toList = place.toList ++ ": ".toList ++
      detail.toList := by
    rw [← String.toList_append, ← String.toList_append]
    exact congrArg String.toList htext
  have hfirst : (place.toList ++ ": ".toList ++ detail.toList).head? = some 'c' := by
    rw [← hchars]
    decide
  obtain ⟨cs, hcs⟩ : ∃ cs, place.toList = 'c' :: cs := by
    cases hlist : place.toList with
    | nil =>
      rw [hlist] at hfirst
      exact absurd hfirst (by simp)
    | cons c cs =>
      rw [hlist] at hfirst
      exact ⟨cs, congrArg (· :: cs) (Option.some.inj hfirst)⟩
  have hempty : ∀ name f, (name, f) ∈ (tenantShape "").fields → name = "" := fun name f hf =>
    congrArg Prod.fst (List.mem_singleton.1 hf)
  have hlost : ∀ name item rest, name = "" → readPlace place ≠ ⟨name, item⟩ :: rest :=
      fun name item rest hname h =>
    name_ne_of_readPlace hcs (by decide) (by decide) h hname
  cases hway with
  | here =>
    cases hviolates with
    | notObject hobject => exact hobject _ rfl
    | unknownKey hkey hunknown =>
      rw [List.mem_singleton.1 hkey] at hunknown
      cases hunknown
  | field hf => exact hlost _ _ _ (hempty _ _ hf) (hplace.resolve_left fun h => nomatch h.1)
  | object hf _ _ _ _ _ =>
    exact hlost _ _ _ (hempty _ _ hf) (hplace.resolve_left fun h => nomatch h.1)
  | item hf _ _ _ _ _ =>
    exact hlost _ _ _ (hempty _ _ hf) (hplace.resolve_left fun h => nomatch h.1)

end EntityGraph
