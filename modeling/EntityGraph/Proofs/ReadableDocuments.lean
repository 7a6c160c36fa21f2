import EntityGraph.Proofs.Identity
import EntityGraph.Proofs.Schemas

/-!
# Readable schema documents

A schema document is compiled by looking into parts of any structure. A part that is wrong but
**readable** is noted as an error, or ignored; a part that cannot be read breaks the compilation
off. `SchemaDocument.Readable` says, level by level, which documents are readable, and a document
compiles to a schema or to errors exactly if it is (`SchemaDocument.compile_reads`). Every function
of the compiler has a lemma that says what it reads (`Compilation.Reads`).
-/

namespace EntityGraph

/-! ## Values in order -/

namespace Value

/-- Two values that can be sorted with each other: they are equal, or have an order. -/
def Sortable (a b : Value) : Prop := a.eq b = true ∨ (a.lt? b).isSome = true

/-- What has an order: texts, identifiers, moments with an offset, moments without one, and
numbers. -/
def order? : Value → Option Nat
  | .text _ => some 0
  | .id _ => some 1
  | .moment m => if m.instant?.isSome then some 2 else some 3
  | .bool _ | .int _ | .float _ => some 4
  | _ => none

theorem isSome_lt? {a b : Value} (ha : a.isKey = true) :
    (a.lt? b).isSome = true ↔ a.order?.isSome = true ∧ a.order? = b.order? := by
  cases a with
  | list _ | object _ => cases ha
  | moment m =>
    cases b with
    | moment n =>
      simp only [lt?, Moment.lt?, order?]
      cases m.instant? <;> cases n.instant? <;> simp
    | _ => cases hm : m.instant? <;> simp [lt?, order?, hm]
  | _ =>
    cases b with
    | moment n => cases hn : n.instant? <;> simp [lt?, order?, number?, hn]
    | _ => simp [lt?, order?, number?]

theorem order?_of_number {v : Value} {x : Decimal.Number} (h : v.number? = some x) :
    v.order? = some 4 := by
  cases v <;> first | rfl | cases h

/-- Equal keys have the same order. -/
theorem order?_eq {a b : Value} (ha : a.isKey = true) (h : a.eq b = true) :
    a.order? = b.order? := by
  obtain rfl | ⟨m, n, rfl, rfl, hmn⟩ | ⟨x, y, hx, hy, -⟩ := eq_cases ha h
  · rfl
  · rw [Moment.eq] at hmn
    rw [order?, order?]
    cases hm : m.instant? <;> cases hn : n.instant? <;> rw [hm, hn] at hmn <;>
      first | rfl | cases hmn
  · rw [order?_of_number hx, order?_of_number hy]

/-- Keys can be sorted with each other if keys that equal them can. -/
theorem Sortable.of_eq {a a' b b' : Value} (ha : a.isKey = true) (hb : b.isKey = true)
    (haa' : a = a' ∨ a.eq a' = true) (hbb' : b = b' ∨ b.eq b' = true) (h : Sortable a b) :
    Sortable a' b' := by
  have hleft : Sortable a' b := by
    rcases haa' with rfl | haa'
    · exact h
    · refine h.imp (eq_trans (isKey_of_eq ha haa') (eq_symm ha haa')) fun hlt => ?_
      rw [isSome_lt? ha, order?_eq ha haa'] at hlt
      exact (isSome_lt? (isKey_of_eq ha haa')).2 hlt
  have ha' : a'.isKey = true := by
    rcases haa' with rfl | haa'
    · exact ha
    · exact isKey_of_eq ha haa'
  rcases hbb' with rfl | hbb'
  · exact hleft
  · refine hleft.imp (fun heq => eq_trans ha' heq hbb') fun hlt => ?_
    rw [isSome_lt? ha', order?_eq hb hbb'] at hlt
    exact (isSome_lt? ha').2 hlt

end Value

namespace SchemaDocument

/-! ## Keys of a relation -/

/-- The values that are kept, after those before them, when each is kept once. -/
def kept (acc vs : List Value) : List Value :=
    vs.foldl (fun acc v => if v.isIn acc then acc else acc ++ [v]) acc

theorem kept_cons (acc : List Value) (v : Value) (vs : List Value) :
    kept acc (v :: vs) = kept (if v.isIn acc then acc else acc ++ [v]) vs := rfl

theorem subset_kept {acc vs : List Value} : acc ⊆ kept acc vs := by
  induction vs generalizing acc with
  | nil => exact fun v hv => hv
  | cons v vs ih =>
    rw [kept_cons]
    split
    · exact ih
    · exact fun w hw => ih (List.mem_append_left _ hw)

theorem kept_subset {acc vs : List Value} : kept acc vs ⊆ acc ++ vs := by
  induction vs generalizing acc with
  | nil => exact fun v hv => List.mem_append_left _ hv
  | cons v vs ih =>
    rw [kept_cons]
    intro w hw
    split at hw
    · rcases List.mem_append.1 (ih hw) with hw | hw
      · exact List.mem_append_left _ hw
      · exact List.mem_append_right _ (List.mem_cons_of_mem _ hw)
    · rw [List.append_cons]
      exact ih hw

/-- Each value is kept, or one that equals it. -/
theorem exists_kept (acc : List Value) {vs : List Value} {v : Value} (hv : v ∈ vs) :
    ∃ w ∈ kept acc vs, w = v ∨ w.eq v = true := by
  induction vs generalizing acc with
  | nil => cases hv
  | cons w vs ih =>
    rw [kept_cons]
    rcases List.mem_cons.1 hv with rfl | hv
    · split
      · rename_i hin
        obtain ⟨w, hw, heq⟩ := List.any_eq_true.1 hin
        exact ⟨w, subset_kept hw, .inr heq⟩
      · exact ⟨v, subset_kept (List.mem_append_right _ (List.mem_singleton_self v)), .inl rfl⟩
    · exact ih _ hv

/-- **Keys are sorted** if any two of them can be. -/
theorem sortedOnce_cases (vs : List Value) (hkeys : ∀ v ∈ vs, v.isKey = true) :
    ((∀ a ∈ vs, ∀ b ∈ vs, a.Sortable b) → ∃ ws, sortedOnce vs = .ok ws ∧ (ws = [] ↔ vs = [])) ∧
      (¬ (∀ a ∈ vs, ∀ b ∈ vs, a.Sortable b) → sortedOnce vs = .error .illTyped) := by
  have hsorted : sortedOnce vs = if (kept [] vs).all fun a => (kept [] vs).all fun b =>
    a.eq b || (a.lt? b).isSome
      then pure ((kept [] vs).mergeSort fun a b => !(b.lt? a).getD false) else throw .illTyped :=
      rfl
  have hall :
      ((kept [] vs).all fun a => (kept [] vs).all fun b => a.eq b || (a.lt? b).isSome) = true ↔
        ∀ a ∈ vs, ∀ b ∈ vs, a.Sortable b := by
    simp only [List.all_eq_true, Bool.or_eq_true]
    refine ⟨fun h a ha b hb => ?_, fun h a ha b hb => h a (kept_subset ha) b (kept_subset hb)⟩
    obtain ⟨v, hv, hva⟩ := exists_kept [] ha
    obtain ⟨w, hw, hwb⟩ := exists_kept [] hb
    exact .of_eq (hkeys v (kept_subset hv)) (hkeys w (kept_subset hw)) hva hwb (h v hv w hw)
  have hempty : kept [] vs = [] ↔ vs = [] := by
    refine ⟨fun h => List.eq_nil_iff_forall_not_mem.2 fun v hv => ?_, fun h => by rw [h]; rfl⟩
    obtain ⟨w, hw, -⟩ := exists_kept [] hv
    rw [h] at hw
    cases hw
  rw [hsorted]
  refine ⟨fun h => ⟨_, if_pos (hall.2 h), ?_⟩, fun h => if_neg (mt hall.1 h)⟩
  rw [← hempty, ← List.length_eq_zero_iff, List.length_mergeSort, List.length_eq_zero_iff]

end SchemaDocument

/-! ## What a compilation reads -/

namespace Compilation

variable {α β : Type} {P C : Prop} {Q Q' : α → Prop} {R : β → Prop}

/-- **What a compilation reads.** Whatever errors were noted before, it gives a value, which
satisfies `Q`, if `P` holds, and breaks off if not. -/
def Reads (P : Prop) (Q : α → Prop) (a : Compilation α) : Prop :=
  ∀ errors, (P → ∃ v errors', a.run errors = .ok (v, errors') ∧ Q v) ∧
    (¬ P → a.run errors = .error .illTyped)

namespace Reads

theorem pure {v : α} (hv : Q v) : Reads True Q (Pure.pure v) :=
  fun errors => ⟨fun _ => ⟨v, errors, rfl, hv⟩, fun h => (h trivial).elim⟩

theorem breaks (f : β → Compilation α) : Reads False Q (throw .illTyped >>= f) :=
  fun _ => ⟨False.elim, fun _ => rfl⟩

theorem breaks_lift {o : Outcome β} (h : o = .error .illTyped) (f : β → Compilation α) :
    Reads False Q (liftM o >>= f) := by
  subst h
  exact fun _ => ⟨False.elim, fun _ => rfl⟩

theorem lift {o : Outcome α} (hok : P → ∃ v, o = .ok v ∧ Q v)
    (herror : ¬ P → o = .error .illTyped) :
    Reads P Q (liftM o) := by
  refine fun errors => ⟨fun h => ?_, fun h => ?_⟩
  · obtain ⟨v, rfl, hv⟩ := hok h
    exact ⟨v, errors, rfl, hv⟩
  · rw [herror h]
    rfl

theorem flawed (entity field : Option String) (flaw : Flaw) :
    Reads True (fun _ => True) (SchemaDocument.flawed entity field flaw) :=
  fun _ => ⟨fun _ => ⟨(), _, rfl, trivial⟩, fun h => (h trivial).elim⟩

theorem mono {a : Compilation α} (h : Reads P Q a) (hP : C ↔ P) (hQ : ∀ v, Q v → Q' v) :
    Reads C Q' a := by
  refine fun errors => ⟨fun hp => ?_, fun hp => (h errors).2 (mt hP.2 hp)⟩
  obtain ⟨v, errors', hrun, hv⟩ := (h errors).1 (hP.1 hp)
  exact ⟨v, errors', hrun, hQ v hv⟩

theorem congr {a : Compilation α} (h : Reads P Q a) (hP : C ↔ P) : Reads C Q a :=
    h.mono hP fun _ hv => hv

/-- Where nothing can break off, everything that holds may be asked for. -/
theorem always {a : Compilation α} (h : Reads True Q a) (hP : P) : Reads P Q a :=
    h.congr (iff_of_true hP trivial)

/-- **In sequence**: what the second part reads may depend on what the first one gives. -/
theorem bind {a : Compilation β} {f : β → Compilation α} (ha : Reads P R a)
    (hf : ∀ v, R v → Reads C Q (f v)) :
    Reads (P ∧ C) Q (a >>= f) := by
  intro errors
  by_cases hP : P
  · obtain ⟨v, errors', hrun, hv⟩ := (ha errors).1 hP
    have hbind : (a >>= f).run errors = (f v).run errors' := by rw [StateT.run_bind, hrun]; rfl
    rw [hbind]
    exact ⟨fun h => (hf v hv errors').1 h.2, fun h => (hf v hv errors').2 fun h' => h ⟨hP, h'⟩⟩
  · have hbind : (a >>= f).run errors = .error .illTyped := by
      rw [StateT.run_bind, (ha errors).2 hP]; rfl
    exact ⟨fun h => absurd h.1 hP, fun _ => hbind⟩

/-- The first part can always be read. -/
theorem andThen {a : Compilation β} {f : β → Compilation α} (ha : Reads True R a)
    (hf : ∀ v, R v → Reads P Q (f v)) :
    Reads P Q (a >>= f) :=
  (ha.bind hf).congr (and_iff_right trivial).symm

/-- The second part only gives a value. -/
theorem gives {a : Compilation β} {g : β → α} (ha : Reads P R a) (hg : ∀ v, R v → Q (g v)) :
    Reads P Q (a >>= fun v => Pure.pure (g v)) :=
  (ha.bind fun v hv => .pure (hg v hv)).congr (and_iff_left trivial).symm

/-- Noting an error on the way, or not. -/
theorem noting {c : Prop} [Decidable c] {a : Compilation Unit} {f : Unit → Compilation α}
    (ha : Reads True (fun _ => True) a) (hf : Reads P Q (f ())) :
    Reads P Q (if c then a >>= f else f ()) := by
  split
  · exact ha.andThen fun _ _ => hf
  · exact hf

/-- Breaking off, or not. -/
theorem breaking {c : Prop} [Decidable c] {f : PUnit → Compilation α} (hf : Reads P Q (f ⟨⟩)) :
    Reads (¬ c ∧ P) Q (if c then throw .illTyped >>= f else f ⟨⟩) := by
  split
  · rename_i hc
    exact (breaks f).congr ⟨fun h => h.1 hc, False.elim⟩
  · rename_i hc
    exact hf.congr (and_iff_right hc)

end Reads

end Compilation

namespace SchemaDocument

open Compilation

/-! ## Readable parts -/

/-- A part that is read as an object: it is absent, or counts as false, or is one. -/
def IsMapping (v : Option Value) : Prop :=
  ∀ w, v = some w → w.truthy = true → w.fields?.isSome = true

/-- The entries of a part that is read as an object. -/
def entries (v : Option Value) : Document := (v.bind Value.fields?).getD []

/-- The entry of a part, if it is there. -/
def given (raw : Value) (key : String) : Option Value := Record.get? (entries (some raw)) key

/-- The entry of a part, or null. -/
def partOf (raw : Value) (key : String) : Value := part (entries (some raw)) key

/-- Relations that are readable, among those that count as true. The keys of a list are its items;
they can be sorted, and one of them is no key of a relation. -/
def ReadableRelation : Value → Prop
  | .object _ => True
  | .text _ => True
  | .list items => (∀ v ∈ items, v.isKey = true) ∧ (∃ v ∈ items, isRelationKey v = false) ∧
      ∀ a ∈ items, ∀ b ∈ items, isRelationKey a = false → isRelationKey b = false → a.Sortable b
  | _ => False

/-- A relation that is compiled without errors. -/
def completeRelation : Value → Bool
  | .object fs => (Record.keys fs).all relationKeys.contains &&
      (switch fs "embedded" false || (part fs "connection_field").truthy)
  | _ => false

/-- Fields that are readable: objects whose type can be looked up, and whose relation is readable if
it is looked at. -/
structure ReadableField (entities : List String) (raw : Value) : Prop where
  mapping : IsMapping (some raw)
  type : (partOf raw "type").isKey = true
  relation : namesEntity entities (partOf raw "type") = true →
    (partOf raw "relation").truthy = true → ReadableRelation (partOf raw "relation")

/-- The type of the field that is compiled from a part, if one is. -/
def declaredType? (enumerations : Record Enumeration) (entities : List String) (raw : Value) :
    Option FieldType :=
  if namesEntity entities (partOf raw "type") &&
      !completeRelation (partOf raw "relation") then none
  else fieldType? enumerations entities (partOf raw "type")

/-- States that are readable: where the field for the state has an enumeration, the state is looked
up in it. -/
def ReadableState (type : FieldType) (state : Value) : Prop :=
  ∀ e, type = .enumeration e → state.isKey = true

/-- Actions that are readable. What is no object may count as false, or be a text or list without
`from` or `to` in it. -/
def ReadableAction (type : FieldType) : Value → Prop
  | .object fs => Record.has fs "from" = true → Record.has fs "to" = true →
      ReadableState type (part fs "from") ∧ ReadableState type (part fs "to")
  | .text s =>
    Text.occursIn "from".toList s.toList = true → Text.occursIn "to".toList s.toList = false
  | .list items => (Value.text "from").isIn items = true → (Value.text "to").isIn items = false
  | v => v.truthy = false

/-- State machines that are readable, when the field for the state has the type. Without an initial
state, the actions are not looked at. -/
structure ReadableMachine (type : FieldType) (raw : Value) : Prop where
  mapping : IsMapping (some raw)
  initial : (partOf raw "initial").truthy = true →
    ReadableState type (partOf raw "initial")
  actions : (partOf raw "initial").truthy = true →
    IsMapping (given raw "actions") ∧
      ∀ a ∈ entries (given raw "actions"), ReadableAction type a.2

/-- The fields that an entity declares. -/
def fieldParts (raw : Value) : Document := entries (given raw "fields")

/-- Entities that are readable. Their state machine is looked at when they have a field for the
state. -/
structure ReadableEntity (enumerations : Record Enumeration) (entities : List String)
    (raw : Value) : Prop where
  mapping : IsMapping (some raw)
  fields : IsMapping (given raw "fields")
  readable : ∀ f ∈ fieldParts raw, ReadableField entities f.2
  machine : (partOf raw "state_machine").truthy = true →
    ∀ type, (Record.get? (fieldParts raw) stateField).bind (declaredType? enumerations entities) =
    some type →
      ReadableMachine type (partOf raw "state_machine")

/-- The enumerations that are compiled from those that a document declares. -/
def enumerationsOf (raws : Document) : Record Enumeration :=
  raws.flatMap fun e =>
    if (ScalarType.ofName? e.1).isSome then []
    else match e.2 with
      | .list (item :: items) => [(e.1, ⟨e.1, (item :: items).map Value.plain⟩)]
      | _ => []

/-- The entities that a document declares. -/
def entityParts (document : Value) : Document := entries (given document "entities")

/-- **Documents that are readable**, with all the parts that are looked at. -/
structure Readable (document : Value) : Prop where
  isObject : document.fields?.isSome = true
  enumerations : IsMapping (given document "enums")
  entities : IsMapping (given document "entities")
  readable : ∀ e ∈ entityParts document, ReadableEntity
    (enumerationsOf (entries (given document "enums"))) (Record.keys (entityParts document)) e.2

/-- No entity declares two fields of one name. -/
def DistinctFields (document : Value) : Prop :=
    ∀ e ∈ entityParts document, (Record.keys (fieldParts e.2)).Nodup

/-! ## Relations -/

theorem objectOrEmpty_of_fields {v : Value} (h : v.fields? = none) :
    objectOrEmpty (some v) = if v.truthy then throw .illTyped else pure [] := by
  cases v <;> first | rfl | cases h

theorem objectOrEmpty_cases (v : Option Value) :
    (IsMapping v → objectOrEmpty v = .ok (entries v)) ∧
      (¬ IsMapping v → objectOrEmpty v = .error .illTyped) := by
  rcases v with _ | v
  · exact ⟨fun _ => rfl, fun h => (h fun w hw => by cases hw).elim⟩
  rcases hfields : v.fields? with _ | fs
  · rw [objectOrEmpty_of_fields hfields, entries, Option.bind_some, hfields]
    refine ⟨fun h => if_neg fun htruthy => ?_, fun h => if_pos ?_⟩
    · have hobject := h v rfl htruthy
      rw [hfields] at hobject
      cases hobject
    · by_contra hfalse
      exact h fun w hw htruthy => absurd (Option.some.inj hw ▸ htruthy) hfalse
  · obtain rfl : v = .object fs := by
      cases v <;> cases hfields
      rfl
    exact ⟨fun _ => rfl, fun h => (h fun w hw _ => Option.some.inj hw ▸ rfl).elim⟩

theorem reads_object (v : Option Value) :
    Reads (IsMapping v) (fun fs => fs = entries v) (liftM (objectOrEmpty v)) :=
  .lift (fun h => ⟨_, (objectOrEmpty_cases v).1 h, rfl⟩) (objectOrEmpty_cases v).2

theorem isMapping_of_truthy {v : Value} (h : v.truthy = true) :
    IsMapping (some v) ↔ v.fields?.isSome = true :=
  ⟨fun hmapping => hmapping v rfl h, fun hobject _ hw _ => Option.some.inj hw ▸ hobject⟩

/-- The keys that a relation cannot have. -/
def unknownKeys (keys : List Value) : List Value := keys.filter fun k => !isRelationKey k

/-- A relation with known keys is read as an object, one with unknown keys is not looked at
further. -/
theorem reads_relation {raw : Value} {keys : List Value} (htruthy : raw.truthy = true)
    (hloose : looseKeys raw = .ok keys) (hkeys : ∀ v ∈ keys, v.isKey = true)
    (entity field : String) :
    Reads ((∀ a ∈ unknownKeys keys, ∀ b ∈ unknownKeys keys, a.Sortable b) ∧
        (unknownKeys keys = [] → raw.fields?.isSome = true))
      (fun o => o.isSome = ((unknownKeys keys).isEmpty &&
        (switch (entries (some raw)) "embedded" false ||
          (part (entries (some raw)) "connection_field").truthy)))
            (compileRelation entity field raw) := by
  refine Reads.andThen (R := fun ks => ks = keys)
    (.lift (fun _ => ⟨keys, hloose, rfl⟩) fun h => absurd trivial h) fun ks hks => ?_
  subst hks
  obtain ⟨hsorted, hunsorted⟩ := sortedOnce_cases (unknownKeys ks) fun v hv =>
    hkeys v (List.mem_of_mem_filter hv)
  refine Reads.bind (R := fun ws => ws = [] ↔ unknownKeys ks = []) (.lift hsorted hunsorted)
    fun ws hws => ?_
  dsimp only
  by_cases hunknown : unknownKeys ks = []
  · obtain rfl := hws.2 hunknown
    rw [hunknown, if_neg (by decide)]
    refine ((reads_object (some raw)).bind (C := True) fun fs hfs => ?_).congr ?_
    · subst hfs
      split
      · rename_i hlinks
        refine (Reads.flawed _ _ _).gives fun _ _ => ?_
        rw [Bool.and_eq_true, Bool.not_eq_true', Bool.not_eq_true'] at hlinks
        rw [hlinks.1, hlinks.2]
        rfl
      · rename_i hlinks
        refine .pure ?_
        rw [← Bool.not_or, Bool.not_eq_true', Bool.not_eq_false] at hlinks
        rw [hlinks]
        rfl
    · rw [and_true, isMapping_of_truthy htruthy]
      exact ⟨fun h => h rfl, fun h _ => h⟩
  · rw [if_pos (by rw [List.isEmpty_eq_false_iff.2 (mt hws.1 hunknown)]; rfl)]
    refine ((Reads.flawed _ _ _).gives fun _ _ => ?_).always (fun h => absurd h hunknown)
    rw [List.isEmpty_eq_false_iff.2 hunknown]
    rfl

/-- Texts can be sorted. -/
theorem sortable_of_texts {texts : List String} {p : Value → Bool} {a b : Value}
    (ha : a ∈ (texts.map Value.text).filter p) (hb : b ∈ (texts.map Value.text).filter p) :
    a.Sortable b := by
  obtain ⟨s, -, rfl⟩ := List.mem_map.1 (List.mem_of_mem_filter ha)
  obtain ⟨t, -, rfl⟩ := List.mem_map.1 (List.mem_of_mem_filter hb)
  exact .inr rfl

theorem isKey_of_texts {texts : List String} : ∀ v ∈ texts.map Value.text, v.isKey = true := by
  intro v hv
  obtain ⟨s, -, rfl⟩ := List.mem_map.1 hv
  rfl

/-- A text of one character is no key of a relation. -/
theorem isRelationKey_singleton (c : Char) : isRelationKey (.text (String.ofList [c])) = false := by
  refine Bool.eq_false_iff.2 fun h => ?_
  have hmem : String.ofList [c] ∈ relationKeys := List.contains_iff_mem.1 h
  have hlength : (String.ofList [c]).length = 1 := String.length_ofList
  simp only [relationKeys, List.mem_cons, List.not_mem_nil, or_false] at hmem
  rcases hmem with h | h | h <;> · rw [h] at hlength; revert hlength; decide

/-- **Relations** that count as true. -/
theorem reads_compileRelation (entity field : String) {raw : Value} (htruthy : raw.truthy = true) :
    Reads (ReadableRelation raw) (fun o => o.isSome = completeRelation raw)
    (compileRelation entity field raw) := by
  cases raw with
  | object fs =>
    refine (reads_relation htruthy rfl isKey_of_texts entity field).mono
      (iff_of_true trivial ⟨fun a ha b hb => sortable_of_texts ha hb, fun _ => rfl⟩) fun o ho =>
      ho.trans ?_
    have hall : (unknownKeys ((Record.keys fs).map Value.text)).isEmpty =
        (Record.keys fs).all relationKeys.contains := by
      rw [Bool.eq_iff_iff, List.isEmpty_iff, unknownKeys, List.filter_eq_nil_iff,
        List.forall_mem_map, List.all_eq_true]
      refine forall₂_congr fun key _ => ?_
      rw [Bool.not_eq_true, Bool.not_eq_false', isRelationKey]
    rw [completeRelation, ← hall]
    rfl
  | text s =>
    have hunknown :
        unknownKeys ((s.toList.map fun c => String.ofList [c]).map Value.text) ≠ [] := by
      obtain ⟨c, hc⟩ := List.exists_mem_of_ne_nil s.toList fun h =>
        bne_iff_ne.1 htruthy (String.toList_eq_nil_iff.1 h)
      refine List.ne_nil_of_mem (a := .text (String.ofList [c])) (List.mem_filter.2 ⟨?_, ?_⟩)
      · exact List.mem_map_of_mem (List.mem_map_of_mem hc)
      · rw [isRelationKey_singleton]
        rfl
    have hloose : looseKeys (.text s) =
        .ok ((s.toList.map fun c => String.ofList [c]).map Value.text) := by
      rw [List.map_map]
      rfl
    refine (reads_relation htruthy hloose isKey_of_texts entity field).mono
      (iff_of_true trivial ⟨fun a ha b hb => sortable_of_texts ha hb, fun h => absurd h hunknown⟩)
      fun o ho => ho.trans ?_
    rw [List.isEmpty_eq_false_iff.2 hunknown]
    rfl
  | list items =>
    by_cases hkeys : ∀ v ∈ items, v.isKey = true
    · refine (reads_relation htruthy (if_pos (List.all_eq_true.2 hkeys)) hkeys entity field).mono ?_
        fun o ho => ho.trans ?_
      · have hunknown : ∀ v, v ∈ unknownKeys items ↔ v ∈ items ∧ isRelationKey v = false := by
          intro v
          rw [unknownKeys, List.mem_filter, Bool.not_eq_true']
        constructor
        · rintro ⟨-, ⟨v, hv, hno⟩, hsortable⟩
          exact ⟨fun a ha b hb => hsortable a ((hunknown a).1 ha).1 b ((hunknown b).1 hb).1
            ((hunknown a).1 ha).2 ((hunknown b).1 hb).2, fun hnone =>
            absurd ((hunknown v).2 ⟨hv, hno⟩) (hnone ▸ List.not_mem_nil)⟩
        · rintro ⟨hsortable, hsome⟩
          obtain ⟨v, hv⟩ := List.exists_mem_of_ne_nil (unknownKeys items) fun h =>
            absurd (hsome h) Bool.false_ne_true
          exact ⟨hkeys, ⟨v, (hunknown v).1 hv⟩, fun a ha b hb hna hnb =>
            hsortable a ((hunknown a).2 ⟨ha, hna⟩) b ((hunknown b).2 ⟨hb, hnb⟩)⟩
      · exact Bool.and_false _
    · exact (Reads.breaks_lift (if_neg (mt List.all_eq_true.1 hkeys)) _).congr ⟨fun h =>
        hkeys h.1, False.elim⟩
  | _ => exact .breaks_lift rfl _

/-! ## Fields -/

theorem truthy_of_completeRelation {raw : Value} (h : completeRelation raw = true) :
    raw.truthy = true := by
  cases raw with
  | object fs =>
    cases fs with
    | nil => exact absurd h Bool.false_ne_true
    | cons e fs => rfl
  | _ => cases h

theorem reads_compileFieldRelation (entities : List String) (entity field : String)
    (type raw : Value) :
    Reads (namesEntity entities type = true → raw.truthy = true → ReadableRelation raw)
      (fun o => o.isSome = !(namesEntity entities type && !completeRelation raw))
      (compileFieldRelation entities entity field type raw) := by
  unfold compileFieldRelation
  rcases hnames : namesEntity entities type with _ | _
  · rw [if_neg Bool.false_ne_true]
    refine Reads.always ?_ fun h => absurd h Bool.false_ne_true
    exact .noting (.flawed _ _ _) (.pure rfl)
  · rw [if_pos rfl]
    rcases htruthy : raw.truthy with _ | _
    · have hincomplete : completeRelation raw = false :=
        Bool.eq_false_iff.2 fun h => by rw [truthy_of_completeRelation h] at htruthy; cases htruthy
      rw [if_pos (show (!false) = true from rfl)]
      refine ((Reads.flawed _ _ _).gives fun _ _ => ?_).always (fun _ h =>
        absurd h Bool.false_ne_true)
      rw [hincomplete]
      rfl
    · rw [if_neg (show ¬ (!true) = true by decide)]
      refine ((reads_compileRelation entity field htruthy).gives fun o ho => ?_).congr
        ⟨fun h => h rfl rfl, fun h _ _ => h⟩
      rw [Option.isSome_map, ho, Bool.true_and, Bool.not_not]

/-- The name of an entity is the name of a type. -/
theorem namesEntity_of_fieldType {enumerations : Record Enumeration} {entities : List String}
    {type : Value} (h : fieldType? enumerations entities type = none) :
    namesEntity entities type = false := by
  cases type with
  | text name =>
    unfold fieldType? at h
    dsimp only at h
    split at h
    · cases h
    split at h
    · cases h
    split at h
    · cases h
    · rename_i hno
      exact Bool.eq_false_iff.2 hno
  | _ => rfl

/-- **Fields** are compiled under their names, if their type is known and their relation
complete. -/
theorem reads_compileField (enumerations : Record Enumeration) (entities : List String)
    (entity field : String) (raw : Value) : Reads (ReadableField entities raw)
      (fun o => (∀ f ∈ o, f.name = field) ∧
        o.map FieldDef.type = declaredType? enumerations entities raw)
      (compileField enumerations entities entity field raw) := by
  unfold compileField
  refine Reads.congr (P := IsMapping (some raw) ∧ ¬ (!(partOf raw "type").isKey) = true ∧
    (namesEntity entities (partOf raw "type") = true → (partOf raw "relation").truthy = true →
      ReadableRelation (partOf raw "relation"))) ((reads_object (some raw)).bind fun fs hfs =>
      ?_) ?_
  · subst hfs
    refine .noting (.flawed _ _ _) (.breaking ?_)
    beta_reduce
    rw [declaredType?, show part (entries (some raw)) "type" = partOf raw "type" from rfl]
    rcases htype : fieldType? enumerations entities (partOf raw "type") with _ | type
    · rw [namesEntity_of_fieldType htype]
      exact ((Reads.flawed _ _ _).gives fun _ _ =>
        ⟨fun f hf => absurd hf (Option.not_mem_none f), rfl⟩).always fun h =>
          absurd h Bool.false_ne_true
    · refine (reads_compileFieldRelation entities entity field _ _).gives fun o ho => ?_
      have hmissing : (namesEntity entities (partOf raw "type") &&
        !completeRelation (partOf raw "relation")) =
          !o.isSome := by
        rw [ho, Bool.not_not]
      rw [hmissing]
      cases o with
      | none => exact ⟨fun f hf => absurd hf (Option.not_mem_none f), rfl⟩
      | some relation => exact ⟨fun f hf => Option.some.inj hf ▸ rfl, rfl⟩
  · rw [Bool.not_eq_true', Bool.not_eq_false]
    exact ⟨fun h => ⟨h.mapping, h.type, h.relation⟩, fun h => ⟨h.1, h.2.1, h.2.2⟩⟩

/-- Without a field for the state among the names, none is found. -/
theorem find?_eq_none_of_notMem {fields : List FieldDef} {keys : List String}
    (hsub : (fields.map FieldDef.name).Sublist keys) (hno : stateField ∉ keys) :
    fields.find? (fun f => f.name == stateField) = none := by
  refine List.find?_eq_none.2 fun f hf heq => hno ?_
  rw [← beq_iff_eq.1 heq]
  exact hsub.subset (List.mem_map_of_mem hf)

/-- **All fields** of an entity. The field for the state is the one that is declared under its
name. -/
theorem reads_compileFields (enumerations : Record Enumeration) (entities : List String)
    (entity : String) (raws : Document) : Reads (∀ e ∈ raws, ReadableField entities e.2)
      (fun fields => (fields.map FieldDef.name).Sublist (Record.keys raws) ∧
        ((Record.keys raws).Nodup →
        (fields.find? fun f => f.name == stateField).map FieldDef.type =
          (Record.get? raws stateField).bind (declaredType? enumerations entities)))
      (compileFields enumerations entities entity raws) := by
  induction raws with
  | nil =>
    exact (Reads.pure ⟨List.Sublist.slnil, fun _ => rfl⟩).always (List.forall_mem_nil _)
  | cons e rest ih =>
    obtain ⟨name, raw⟩ := e
    refine ((reads_compileField enumerations entities entity name raw).bind fun first hfirst =>
      ih.gives fun others hothers => ?_).congr List.forall_mem_cons
    · obtain ⟨hname, htype⟩ := hfirst
      obtain ⟨hsub, hstate⟩ := hothers
      have hkeys : ((first.toList ++ others).map FieldDef.name).Sublist (name ::
          Record.keys rest) := by
        cases first with
        | none => exact hsub.cons name
        | some f =>
          rw [Option.toList_some, List.singleton_append, List.map_cons, hname f rfl]
          exact hsub.cons_cons name
      refine ⟨hkeys, fun hnodup => ?_⟩
      obtain ⟨hnew, hnodup⟩ := List.nodup_cons.1 hnodup
      rw [Record.get?_cons]
      by_cases hn : name = stateField
      · subst hn
        rw [if_pos rfl, Option.bind_some, ← htype]
        cases first with
        | none => rw [Option.toList_none, List.nil_append, find?_eq_none_of_notMem hsub hnew]
        | some f =>
          rw [Option.toList_some, List.singleton_append, List.find?_cons,
            beq_iff_eq.2 (hname f rfl)]
      · rw [if_neg hn, ← hstate hnodup]
        cases first with
        | none => rfl
        | some f =>
          rw [Option.toList_some, List.singleton_append, List.find?_cons_of_neg]
          rw [hname f rfl, beq_iff_eq]
          exact hn

/-! ## State machines -/

theorem reads_checkState (entity : String) (f : FieldDef) (state : Value) (place : String) :
    Reads (ReadableState f.type state) (fun _ => True)
    (checkState entity (knownStates? f) state place) := by
  unfold checkState knownStates? ReadableState
  rcases f.type with t | e | n | v
  case enumeration =>
    dsimp only
    refine Reads.congr (P := ¬ (!state.isKey) = true ∧ True) (.breaking ?_) ?_
    · split
      all_goals
        split
        · exact .flawed _ _ _
        · exact .pure trivial
    · rw [Bool.not_eq_true', Bool.not_eq_false, and_true]
      exact ⟨fun h => h e rfl, fun h _ _ => h⟩
  all_goals exact (Reads.pure trivial).always (fun _ h => by cases h)

/-- An action with both keys is read as an object, one without them is not looked at further. -/
theorem reads_action (entity : String) (f : FieldDef) (name : String) {raw v : Value}
    {source target : Bool} (hv : (if raw.truthy then raw else .object []) = v)
    (hsource : hasKey v "from" = .ok source) (htarget : hasKey v "to" = .ok target) :
    Reads (source = true → target = true →
      IsMapping (some v) ∧ ReadableState f.type (partOf v "from") ∧
        ReadableState f.type (partOf v "to")) (fun _ =>
          True) (compileAction entity (knownStates? f) name raw) := by
  unfold compileAction
  dsimp only
  rw [hv, hsource, htarget]
  have hincomplete : Reads True (fun _ => True) (do
      flawed (some entity) none (.actionIncomplete name)
      pure (none : Option StateAction)) := (Reads.flawed _ _ _).gives fun _ _ => trivial
  cases source with
  | false => exact hincomplete.always (fun h => absurd h Bool.false_ne_true)
  | true =>
    cases target with
    | false => exact hincomplete.always (fun _ h => absurd h Bool.false_ne_true)
    | true =>
      refine Reads.congr (P := IsMapping (some v) ∧ ReadableState f.type (partOf v "from") ∧
        ReadableState f.type (partOf v "to")) ?_ ⟨fun h => h rfl rfl, fun h _ _ => h⟩
      change Reads _ _ (do
        let fs ← objectOrEmpty (some v)
        checkState entity (knownStates? f) (part fs "from") ("action '" ++ name ++ "'")
        checkState entity (knownStates? f) (part fs "to") ("action '" ++ name ++ "'")
        pure (some (⟨part fs "from", part fs "to", part fs "description"⟩ : StateAction)))
      refine (reads_object (some v)).bind fun fs hfs => ?_
      subst hfs
      exact (reads_checkState entity f _ _).bind fun _ _ => (reads_checkState entity f _ _).gives
        fun _ _ => trivial

/-- **Actions**: one without `from` or `to` is noted, whatever it is otherwise. -/
theorem reads_compileAction (entity : String) (f : FieldDef) (name : String) (raw : Value) :
    Reads (ReadableAction f.type raw) (fun _ => True)
    (compileAction entity (knownStates? f) name raw) := by
  rcases htruthy : raw.truthy with _ | _
  · refine (reads_action entity f name (if_neg (by rw [htruthy]; decide)) rfl rfl).congr
      (iff_of_true ?_ fun h => absurd h Bool.false_ne_true)
    cases raw with
    | object fs =>
      cases fs with
      | nil => exact fun h => absurd h Bool.false_ne_true
      | cons e fs => cases htruthy
    | text s =>
      obtain rfl : s = "" := bne_eq_false_iff_eq.1 htruthy
      exact fun h => absurd h (by decide)
    | list items =>
      cases items with
      | nil => exact fun h => absurd h Bool.false_ne_true
      | cons v items => cases htruthy
    | _ => exact htruthy
  · have hraw : (if raw.truthy then raw else .object []) = raw := if_pos htruthy
    have hneither {source target : Bool} {states : Prop} (hfields : raw.fields? = none) :
        (source = true → target = false) ↔
        (source = true → target = true → IsMapping (some raw) ∧ states) := by
      have hmapping : ¬ IsMapping (some raw) := by
        rw [isMapping_of_truthy htruthy, hfields]
        exact Bool.false_ne_true
      refine imp_congr_right fun _ =>
        ⟨fun h h' => absurd (h.symm.trans h') Bool.false_ne_true, fun h => ?_⟩
      exact Bool.eq_false_iff.2 fun h' => hmapping (h h').1
    cases raw with
    | object fs =>
      exact (reads_action entity f name hraw rfl rfl).congr ⟨fun h hs ht =>
        ⟨fun _ hw _ => by cases hw; rfl, h hs ht⟩, fun h hs ht => (h hs ht).2⟩
    | text s => exact (reads_action entity f name hraw rfl rfl).congr (hneither rfl)
    | list items => exact (reads_action entity f name hraw rfl rfl).congr (hneither rfl)
    | _ =>
      refine Reads.congr (P := False) ?_ ⟨fun h => ?_, False.elim⟩
      · unfold compileAction
        dsimp only
        rw [hraw]
        exact .breaks_lift rfl _
      · exact absurd (htruthy.symm.trans h) (by decide)

theorem reads_compileActions (entity : String) (f : FieldDef) (raws : Document) :
    Reads (∀ a ∈ raws, ReadableAction f.type a.2) (fun _ => True)
      (compileActions entity (knownStates? f) raws) := by
  induction raws with
  | nil => exact (Reads.pure trivial).always (List.forall_mem_nil _)
  | cons a rest ih =>
    obtain ⟨name, raw⟩ := a
    exact ((reads_compileAction entity f name raw).bind fun _ _ => ih.gives fun _ _ =>
      trivial).congr List.forall_mem_cons

/-- **State machines** are looked at if there is a field for the state. -/
theorem reads_compileMachine (entity : Entity) (raw : Value) :
    Reads (∀ f, entity.field? stateField = some f → ReadableMachine f.type raw) (fun _ => True)
      (compileMachine entity raw) := by
  unfold compileMachine
  rcases hf : entity.field? stateField with _ | f
  · exact ((Reads.flawed _ _ _).gives fun _ _ => trivial).always (fun f h => by cases h)
  refine Reads.congr (P := IsMapping (some raw) ∧ ((partOf raw "initial").truthy = true →
    ReadableState f.type (partOf raw "initial") ∧ IsMapping (given raw "actions") ∧
      ∀ a ∈ entries (given raw "actions"), ReadableAction f.type a.2))
    ((reads_object (some raw)).bind fun fs hfs => ?_) ?_
  · subst hfs
    change Reads _ _ (if (!(partOf raw "initial").truthy) = true then _ else _)
    rcases htruthy : (partOf raw "initial").truthy with _ | _
    · rw [if_pos (show (!false) = true from rfl)]
      exact ((Reads.flawed _ _ _).gives fun _ _ => trivial).always (fun h =>
        absurd h Bool.false_ne_true)
    · rw [if_neg (show ¬ (!true) = true by decide)]
      refine Reads.congr (P := ReadableState f.type (partOf raw "initial") ∧
        IsMapping (given raw "actions") ∧
        ∀ a ∈ entries (given raw "actions"), ReadableAction f.type a.2)
        ((reads_checkState entity.name f _ _).bind fun _ _ =>
          (reads_object (given raw "actions")).bind fun raws hraws => ?_) ⟨fun h =>
            h rfl, fun h _ => h⟩
      subst hraws
      exact (reads_compileActions entity.name f _).gives fun _ _ => trivial
  · constructor
    · intro h
      have hmachine := h f rfl
      exact ⟨hmachine.mapping, fun hi => ⟨hmachine.initial hi, hmachine.actions hi⟩⟩
    · rintro ⟨hmapping, hinitial⟩ f' hf'
      obtain rfl := Option.some.inj hf'
      exact ⟨hmapping, fun hi => (hinitial hi).1, fun hi => (hinitial hi).2⟩

/-! ## Entities -/

theorem ofFields_eq_ok (name : String) {fields : List FieldDef}
    (h : (fields.map FieldDef.name).Nodup) (description : Value) :
    ∃ entity : Entity, Entity.ofFields name fields description = .ok entity ∧
      entity.fields = fields := by
  rw [Entity.ofFields, dif_pos h]
  exact ⟨_, rfl, rfl⟩

/-- **Entities** whose fields have different names. -/
theorem reads_compileEntity (enumerations : Record Enumeration) (entities : List String)
    (name : String) {raw : Value} (hdistinct : (Record.keys (fieldParts raw)).Nodup) :
    Reads (ReadableEntity enumerations entities raw) (fun _ => True)
      (compileEntity enumerations entities name raw) := by
  unfold compileEntity
  refine Reads.congr (P := IsMapping (some raw) ∧ IsMapping (given raw "fields") ∧
    (∀ f ∈ fieldParts raw, ReadableField entities f.2) ∧
    ((partOf raw "state_machine").truthy = true →
      ∀ type, (Record.get? (fieldParts raw) stateField).bind (declaredType? enumerations entities) =
      some type →
        ReadableMachine type (partOf raw "state_machine"))) ((reads_object (some raw)).bind
        fun fs hfs => ?_)
    ⟨fun h => ⟨h.mapping, h.fields, h.readable, h.machine⟩, fun h => ⟨h.1, h.2.1, h.2.2.1, h.2.2.2⟩⟩
  subst hfs
  refine (reads_object (given raw "fields")).bind fun raws hraws => ?_
  obtain rfl : raws = fieldParts raw := hraws
  split
  · rename_i hempty
    rw [List.isEmpty_iff.1 hempty]
    exact ((Reads.flawed _ _ _).gives fun _ _ => trivial).always ⟨List.forall_mem_nil _,
      fun _ _ h => by cases h⟩
  refine (reads_compileFields enumerations entities name _).bind fun fields hfields => ?_
  obtain ⟨hsub, hstate⟩ := hfields
  obtain ⟨entity, hentity, hsame⟩ := ofFields_eq_ok name (hsub.nodup hdistinct)
    (part (entries (some raw)) "description")
  refine Reads.andThen (R := fun e => e = entity) (.lift (fun _ => ⟨entity, hentity, rfl⟩) fun h =>
    absurd trivial h) fun e he => ?_
  subst he
  have hfield : (e.field? stateField).map FieldDef.type =
      (Record.get? (fieldParts raw) stateField).bind (declaredType? enumerations entities) := by
    rw [← hstate hdistinct, Entity.field?, hsame]
  rw [← hfield]
  change Reads _ _ (if (partOf raw "state_machine").truthy = true then _ else _)
  split
  · rename_i htruthy
    refine ((reads_compileMachine e _).gives fun _ _ => trivial).congr ?_
    constructor
    · exact fun h f hf => h htruthy f.type (by rw [hf]; rfl)
    · rintro h - type htype
      obtain ⟨f, hf, rfl⟩ := Option.map_eq_some_iff.1 htype
      exact h f hf
  · rename_i hfalse
    exact (Reads.pure trivial).always (fun h => absurd h hfalse)

theorem reads_compileEntities (enumerations : Record Enumeration) (entities : List String)
    {raws : Document} (hdistinct : ∀ e ∈ raws, (Record.keys (fieldParts e.2)).Nodup) :
    Reads (∀ e ∈ raws, ReadableEntity enumerations entities e.2) (fun _ => True)
      (compileEntities enumerations entities raws) := by
  induction raws with
  | nil => exact (Reads.pure trivial).always (List.forall_mem_nil _)
  | cons e rest ih =>
    obtain ⟨name, raw⟩ := e
    obtain ⟨hfirst, hrest⟩ := List.forall_mem_cons.1 hdistinct
    exact ((reads_compileEntity enumerations entities name hfirst).bind fun _ _ =>
      (ih hrest).gives fun _ _ => trivial).congr List.forall_mem_cons

/-! ## Documents -/

/-- Enumerations can always be read. -/
theorem reads_compileEnumerations (raws : Document) :
    Reads True (fun enumerations => enumerations = enumerationsOf raws)
    (compileEnumerations raws) := by
  induction raws with
  | nil => exact .pure rfl
  | cons e rest ih =>
    obtain ⟨name, v⟩ := e
    refine Reads.andThen (R := fun first =>
      first ++ enumerationsOf rest = enumerationsOf ((name, v) :: rest)) ?_ fun first hfirst =>
        ih.andThen fun others hothers => .pure (hothers ▸ hfirst)
    rw [enumerationsOf, enumerationsOf, List.flatMap_cons]
    split
    · exact (Reads.flawed _ _ _).gives fun _ _ => rfl
    · cases v with
      | list items =>
        cases items with
        | nil => exact (Reads.flawed _ _ _).gives fun _ _ => rfl
        | cons item items => exact .pure rfl
      | _ => exact (Reads.flawed _ _ _).gives fun _ _ => rfl

theorem reads_compileDocument {document : Value} (hdistinct : DistinctFields document) :
    Reads (Readable document) (fun _ => True) (compileDocument document) := by
  cases document with
  | object fs =>
    refine Reads.congr (P := IsMapping (given (.object fs) "enums") ∧
      IsMapping (given (.object fs) "entities") ∧
      ∀ e ∈ entityParts (.object fs),
      ReadableEntity (enumerationsOf (entries (given (.object fs) "enums")))
        (Record.keys (entityParts (.object fs))) e.2)
      ((reads_object (given (.object fs) "enums")).bind fun raws hraws => ?_)
      ⟨fun h => ⟨h.enumerations, h.entities, h.readable⟩, fun h => ⟨rfl, h.1, h.2.1, h.2.2⟩⟩
    subst hraws
    refine (reads_compileEnumerations _).andThen fun enumerations henumerations => ?_
    subst henumerations
    refine (reads_object (given (.object fs) "entities")).bind fun raws hraws => ?_
    obtain rfl : raws = entityParts (.object fs) := hraws
    refine .noting (.flawed _ _ _) ?_
    exact (reads_compileEntities _ _ hdistinct).gives fun _ _ => trivial
  | _ => exact fun _ => ⟨fun h => absurd h.isObject Bool.false_ne_true, fun _ => rfl⟩

/-- **Readable documents compile**, and only these: to a schema, or to errors, of which there are
some. The others break the compilation off. -/
theorem compile_reads {document : Value} (hdistinct : DistinctFields document) :
    (Readable document → (∃ schema, compile document = .ok (.compiled schema)) ∨
      ∃ error errors, compile document = .ok (.rejected (error :: errors))) ∧
      (¬ Readable document → compile document = .error .illTyped) := by
  obtain ⟨hreadable, hbreaks⟩ := reads_compileDocument hdistinct []
  refine ⟨fun h => ?_, fun h => ?_⟩
  · obtain ⟨schema, errors, hrun, -⟩ := hreadable h
    rw [compile, hrun]
    cases errors with
    | nil => exact .inl ⟨schema, rfl⟩
    | cons error errors => exact .inr ⟨error, errors, rfl⟩
  · rw [compile, hbreaks h]
    rfl

/-- A document with a misspelled type. -/
def misspelledSchema : Value :=
  .object [("entities", .object [("Note", .object [("fields", .object
    [("text", .object [("type", .text "Sting")])])])])]

/-- The misspelled type is reported. -/
theorem misspelledSchema_rejected : DistinctFields misspelledSchema ∧ Readable misspelledSchema ∧
    ∃ error errors, compile misspelledSchema = .ok (.rejected (error :: errors)) := by
  have hdistinct : DistinctFields misspelledSchema := by
    intro e he
    rw [List.mem_singleton.1 he]
    exact List.nodup_singleton _
  have hfield : ReadableField ["Note"] (.object [("type", .text "Sting")]) :=
    ⟨fun _ h _ => Option.some.inj h ▸ rfl, rfl, fun h => absurd h (by decide)⟩
  have hreadable : Readable misspelledSchema := by
    refine ⟨rfl, fun _ h => absurd h (Option.some_ne_none _).symm, fun _ h _ =>
      Option.some.inj h ▸ rfl, fun e he => ?_⟩
    rw [List.mem_singleton.1 he]
    refine ⟨fun _ h _ => Option.some.inj h ▸ rfl, fun _ h _ => Option.some.inj h ▸ rfl, fun f hf =>
      ?_, fun h => absurd h Bool.false_ne_true⟩
    rw [List.mem_singleton.1 hf]
    exact hfield
  refine ⟨hdistinct, hreadable, ((compile_reads hdistinct).1 hreadable).resolve_left ?_⟩
  rintro ⟨schema, hschema⟩
  cases hschema

/-- An entity that is a number is not reported, but breaks the compilation off. -/
theorem number_not_reported :
    ¬ ∃ result, compile (.object [("entities", .object [("Note", .int 5)])]) = .ok result := by
  rintro ⟨result, h⟩
  cases h

end SchemaDocument

end EntityGraph
