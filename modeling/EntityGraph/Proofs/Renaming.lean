import EntityGraph.Proofs.Session
import Mathlib.Logic.Function.Basic

/-!
# Renaming identifiers

Nothing in the service depends on which identifiers documents have. `Value.rename` replaces every
identifier in a value, and all that the memory store does with values, documents, collections and
writes does the same after an injective renaming: what it finds is renamed, and what it refuses it
refuses for the same reason.

A renaming leaves a value alone when it fixes the identifiers that the value mentions
(`Value.mentioned`).
-/

namespace EntityGraph

/-! ## Values -/

namespace Value

mutual

/-- The value with its identifiers replaced. -/
def rename (ρ : ObjectId → ObjectId) : Value → Value
  | .id o => .id (ρ o)
  | .list xs => .list (renameItems ρ xs)
  | .object fs => .object (renameFields ρ fs)
  | .null => .null
  | .bool b => .bool b
  | .int i => .int i
  | .float x => .float x
  | .text s => .text s
  | .moment m => .moment m
  | .member e n => .member e n

/-- The items with their identifiers replaced. -/
def renameItems (ρ : ObjectId → ObjectId) : List Value → List Value
  | [] => []
  | x :: xs => rename ρ x :: renameItems ρ xs

/-- The fields with the identifiers in their values replaced. -/
def renameFields (ρ : ObjectId → ObjectId) : List (String × Value) → List (String × Value)
  | [] => []
  | (k, v) :: rest => (k, rename ρ v) :: renameFields ρ rest

end

mutual

/-- The identifiers that a value holds, or spells in a text. -/
def mentioned : Value → List ObjectId
  | .id o => [o]
  | .text s => (ObjectId.ofHex? s).toList
  | .list xs => mentionedItems xs
  | .object fs => mentionedFields fs
  | .null => []
  | .bool _ => []
  | .int _ => []
  | .float _ => []
  | .moment _ => []
  | .member _ _ => []

/-- The identifiers that the items mention. -/
def mentionedItems : List Value → List ObjectId
  | [] => []
  | x :: xs => mentioned x ++ mentionedItems xs

/-- The identifiers that the values of the fields mention. -/
def mentionedFields : List (String × Value) → List ObjectId
  | [] => []
  | (_, v) :: rest => mentioned v ++ mentionedFields rest

end

end Value

namespace Document

variable (ρ : ObjectId → ObjectId)

/-- A document with the identifiers in its values replaced. -/
def rename (d : Document) : Document := Record.mapValues (Value.rename ρ) d

@[simp] theorem rename_nil : rename ρ [] = [] := rfl

@[simp] theorem rename_cons (k : String) (v : Value) (rest : Document) :
    rename ρ ((k, v) :: rest) = (k, v.rename ρ) :: rename ρ rest := rfl

/-- A renamed object has the renamed entries. -/
@[simp] theorem get?_rename (d : Document) (key : String) :
    Record.get? (rename ρ d) key = (Record.get? d key).map (Value.rename ρ) :=
  Record.get?_mapValues _ d key

@[simp] theorem has_rename (d : Document) (key : String) :
    Record.has (rename ρ d) key = Record.has d key := Record.has_mapValues _ d key

@[simp] theorem length_rename (d : Document) : (rename ρ d).length = d.length := List.length_map _

/-- Putting an entry commutes with renaming. -/
theorem rename_put (d : Document) (key : String) (v : Value) :
    rename ρ (Record.put d key v) = Record.put (rename ρ d) key (v.rename ρ) :=
  Record.mapValues_put _ d key v

/-- Erasing an entry does as well. -/
theorem rename_erase (d : Document) (key : String) :
    rename ρ (Record.erase d key) = Record.erase (rename ρ d) key := Record.mapValues_erase _ d key

/-- So does merging two objects. -/
theorem rename_merge (d other : Document) :
    rename ρ (Record.merge d other) = Record.merge (rename ρ d) (rename ρ other) :=
  Record.mapValues_merge _ d other

end Document

namespace Value

/-- **Settled values**: the renaming fixes the identifiers that the value mentions. -/
def Settled (ρ : ObjectId → ObjectId) (v : Value) : Prop := ∀ o ∈ v.mentioned, ρ o = o

section

variable {ρ : ObjectId → ObjectId}

/-- Items are renamed one by one. -/
@[simp] theorem renameItems_eq (xs : List Value) : renameItems ρ xs = xs.map (rename ρ) := by
  induction xs with
  | nil => rfl
  | cons x xs ih => rw [renameItems, ih, List.map_cons]

@[simp] theorem renameFields_eq (fs : List (String × Value)) :
    renameFields ρ fs = Document.rename ρ fs := by
  induction fs with
  | nil => rfl
  | cons e rest ih =>
    obtain ⟨k, v⟩ := e
    rw [renameFields, ih, Document.rename_cons]

/-- An identifier that the renaming leaves alone. -/
theorem rename_id {o : ObjectId} (h : ρ o = o) : (Value.id o).rename ρ = .id o :=
    congrArg Value.id h

@[simp] theorem rename_list (xs : List Value) :
    (Value.list xs).rename ρ = .list (xs.map (rename ρ)) := by
  rw [rename, renameItems_eq]

@[simp] theorem rename_object (fs : Document) :
    (Value.object fs).rename ρ = .object (Document.rename ρ fs) := by
  rw [rename, renameFields_eq]

/-- A list mentions what its items mention. -/
theorem mem_mentionedItems {xs : List Value} {o : ObjectId} :
    o ∈ mentionedItems xs ↔ ∃ v ∈ xs, o ∈ v.mentioned := by
  induction xs with
  | nil => simp [mentionedItems]
  | cons x xs ih => simp [mentionedItems, ih]

/-- An object mentions what its entries mention. -/
theorem mem_mentionedFields {fs : List (String × Value)} {o : ObjectId} :
    o ∈ mentionedFields fs ↔ ∃ e ∈ fs, o ∈ e.2.mentioned := by
  induction fs with
  | nil => simp [mentionedFields]
  | cons e rest ih =>
    obtain ⟨k, v⟩ := e
    simp [mentionedFields, ih]

/-- A list is settled when its items are. -/
theorem settled_list {xs : List Value} : Settled ρ (.list xs) ↔ ∀ v ∈ xs, Settled ρ v := by
  constructor
  · exact fun h v hv o ho => h o (mem_mentionedItems.2 ⟨v, hv, ho⟩)
  · intro h o ho
    obtain ⟨v, hv, ho⟩ := mem_mentionedItems.1 ho
    exact h v hv o ho

/-- An object is settled when its entries are. -/
theorem settled_object {fs : Document} : Settled ρ (.object fs) ↔ ∀ e ∈ fs, Settled ρ e.2 := by
  constructor
  · exact fun h e he o ho => h o (mem_mentionedFields.2 ⟨e, he, ho⟩)
  · intro h o ho
    obtain ⟨e, he, ho⟩ := mem_mentionedFields.1 ho
    exact h e he o ho

/-- The entries of a settled object are settled. -/
theorem Settled.get? {fs : Document} (h : Settled ρ (.object fs)) {key : String} {v : Value}
    (hv : Record.get? fs key = some v) : Settled ρ v :=
  settled_object.1 h _ (Record.mem_of_get?_eq_some hv)

/-- The same for the entry of any value. -/
theorem Settled.fieldOf? {w : Value} (h : Settled ρ w) {key : String} {v : Value}
    (hv : fieldOf? key w = some v) : Settled ρ v := by
  cases w with
  | object fs => exact h.get? hv
  | _ => cases hv

theorem settled_null : Settled ρ .null := fun _ ho => absurd ho List.not_mem_nil

mutual

/-- A renaming leaves settled values alone. -/
theorem Settled.rename_eq : ∀ {v : Value}, Settled ρ v → v.rename ρ = v
  | .id o, h => congrArg Value.id (h o (List.mem_singleton_self o))
  | .list xs, h => by
    rw [rename_list, rename_items_eq (settled_list.1 h)]
  | .object fs, h => by
    rw [rename_object, rename_fields_eq (settled_object.1 h)]
  | .null, _ => rfl
  | .bool _, _ => rfl
  | .int _, _ => rfl
  | .float _, _ => rfl
  | .text _, _ => rfl
  | .moment _, _ => rfl
  | .member _ _, _ => rfl

/-- Settled items stay as they are. -/
theorem rename_items_eq : ∀ {xs : List Value}, (∀ v ∈ xs, Settled ρ v) → xs.map (rename ρ) = xs
  | [], _ => rfl
  | x :: xs, h => by
    rw [List.map_cons, (h x (List.mem_cons_self ..)).rename_eq,
      rename_items_eq fun v hv => h v (List.mem_cons_of_mem _ hv)]

/-- Settled entries stay as they are. -/
theorem rename_fields_eq :
    ∀ {fs : List (String × Value)}, (∀ e ∈ fs, Settled ρ e.2) → Document.rename ρ fs = fs
  | [], _ => rfl
  | (k, v) :: rest, h => by
    rw [Document.rename_cons, (h (k, v) (List.mem_cons_self ..)).rename_eq,
      rename_fields_eq fun e he => h e (List.mem_cons_of_mem _ he)]

end

/-- Numbers have no identifiers to rename. -/
@[simp] theorem number?_rename (v : Value) : (v.rename ρ).number? = v.number? := by
  cases v <;> simp [rename, number?]

@[simp] theorem isNull_rename (v : Value) : (v.rename ρ).isNull = v.isNull := by
  cases v <;> simp [rename, isNull]

/-- Renaming makes a key of a key, and of nothing else. -/
@[simp] theorem isKey_rename (v : Value) : (v.rename ρ).isKey = v.isKey := by
  cases v <;> simp [rename, isKey]

theorem eqNumber_rename (v w : Value) : eqNumber v (w.rename ρ) = eqNumber v w := by
  rw [eqNumber, eqNumber, number?_rename]

mutual

/-- **Equality is the same after a renaming.** -/
theorem eq_rename (hρ : Function.Injective ρ) : ∀ v w : Value, (v.rename ρ).eq (w.rename ρ) = v.eq w
  | .null, w => by cases w <;> simp [rename, eq]
  | .text s, w => by cases w <;> simp [rename, eq]
  | .moment m, w => by cases w <;> simp [rename, eq]
  | .member e n, w => by cases w <;> simp [rename, eq]
  | .id o, w => by
    cases w with
    | id p =>
      simp only [rename, eq]
      exact Bool.eq_iff_iff.2 (by rw [beq_iff_eq, beq_iff_eq, hρ.eq_iff])
    | _ => simp [rename, eq]
  | .list xs, w => by
    cases w with
    | list ys =>
      rw [rename_list, rename_list, eq, eq]
      exact eqItems_rename hρ xs ys
    | _ => simp [rename, eq]
  | .object xs, w => by
    cases w with
    | object ys =>
      rw [rename_object, rename_object, eq, eq, eqFields_rename hρ xs ys, Document.length_rename,
        Document.length_rename]
    | _ => simp [rename, eq]
  | .bool b, w => by
    rw [rename, eq, eq, eqNumber_rename]
  | .int i, w => by
    rw [rename, eq, eq, eqNumber_rename]
  | .float x, w => by
    rw [rename, eq, eq, eqNumber_rename]

/-- Equality of items survives a renaming that is injective. -/
theorem eqItems_rename (hρ : Function.Injective ρ) :
    ∀ xs ys : List Value, eqItems (xs.map (rename ρ)) (ys.map (rename ρ)) = eqItems xs ys
  | [], ys => by cases ys <;> rfl
  | x :: xs, ys => by
    cases ys with
    | nil => rfl
    | cons y ys =>
      rw [List.map_cons, List.map_cons, eqItems, eqItems, eq_rename hρ x y, eqItems_rename hρ xs ys]

/-- So does equality of entries. -/
theorem eqFields_rename (hρ : Function.Injective ρ) : ∀ xs ys : List (String × Value),
    eqFields (Document.rename ρ xs) (Document.rename ρ ys) = eqFields xs ys
  | [], _ => rfl
  | (k, v) :: rest, ys => by
    rw [Document.rename_cons, eqFields, eqFields, eqFields_rename hρ rest ys, Document.get?_rename]
    rcases Record.get? ys k with _ | w
    · rfl
    · rw [Option.map_some]
      dsimp only
      rw [eq_rename hρ v w]

end

/-- And so does membership in a list. -/
theorem isIn_rename (hρ : Function.Injective ρ) (v : Value) (items : List Value) :
    (v.rename ρ).isIn (items.map (rename ρ)) = v.isIn items := by
  rw [isIn, isIn, List.any_map]
  congr 1
  exact funext fun w => eq_rename hρ w v

end

end Value

/-! ## Paths and updates -/

section Paths

variable {ρ : ObjectId → ObjectId}

/-- The entry of a renamed value is renamed. -/
theorem fieldOf?_rename (name : String) (v : Value) :
    fieldOf? name (v.rename ρ) = (fieldOf? name v).map (Value.rename ρ) := by
  cases v with
  | object fs =>
    rw [Value.rename_object, fieldOf?, fieldOf?, Document.get?_rename]
  | _ => rfl

/-- One step of a path leads to renamed values. -/
theorem descend_rename (segment : String) (v : Value) :
    descend segment (v.rename ρ) = (descend segment v).map (Value.rename ρ) := by
  cases v with
  | list items =>
    rw [Value.rename_list, descend, descend, List.filterMap_map, List.map_filterMap]
    exact congrArg (List.filterMap · items) (funext fun w => fieldOf?_rename segment w)
  | object fs =>
    have h := fieldOf?_rename (ρ := ρ) segment (.object fs)
    rw [Value.rename_object] at h ⊢
    change (fieldOf? segment _).toList = (fieldOf? segment (.object fs)).toList.map _
    rw [h]
    rcases fieldOf? segment (.object fs) with _ | w <;> rfl
  | _ => rfl

/-- Paths lead to renamed values. -/
theorem resolveSegments_rename (segments : List String) (values : List Value) :
    resolveSegments segments (values.map (Value.rename ρ)) =
      (resolveSegments segments values).map (Value.rename ρ) := by
  induction segments generalizing values with
  | nil => rfl
  | cons s rest ih =>
    rw [resolveSegments, resolveSegments, ← ih, List.flatMap_map, List.map_flatMap]
    simp only [descend_rename]

/-- What a path addresses is renamed with the document. -/
theorem resolve_rename (d : Document) (path : String) :
    resolve (Document.rename ρ d) path = (resolve d path).map (Value.rename ρ) := by
  rw [resolve, resolve, ← resolveSegments_rename, List.map_singleton, Value.rename_object]

/-- The object that the writing of a path goes on in, under a key of a document. -/
def within? (d : Document) (key : String) : Outcome Document :=
  match Record.get? d key with
  | none => .ok []
  | some (.object inner) => .ok inner
  | some _ => .error .illTyped

/-- Setting along a path goes through the object at its first segment. -/
theorem setSegments_cons (s s' : String) (rest : List String) (v : Value) (d : Document) :
    setSegments (s :: s' :: rest) v d = (do
      let inner ← within? d s
      let inner ← setSegments (s' :: rest) v inner
      pure (Record.put d s (.object inner))) := by
  rw [setSegments, within?]
  · rcases Record.get? d s with _ | w
    · rfl
    · cases w <;> rfl
  · simp

/-- The object to set in is renamed. -/
theorem within?_rename (d : Document) (key : String) :
    within? (Document.rename ρ d) key = (within? d key).map (Document.rename ρ) := by
  rw [within?, within?, Document.get?_rename]
  rcases Record.get? d key with _ | w
  · rfl
  · cases w <;> simp [Value.rename, Except.map]

/-- Setting along a path commutes with renaming. -/
theorem setSegments_rename (v : Value) : ∀ (segments : List String) (d : Document),
    setSegments segments (v.rename ρ) (Document.rename ρ d) =
      (setSegments segments v d).map (Document.rename ρ)
  | [], d => rfl
  | [leaf], d => congrArg Except.ok (Document.rename_put ρ d leaf v).symm
  | s :: s' :: rest, d => by
    rw [setSegments_cons, setSegments_cons, within?_rename]
    rcases within? d s with e | inner
    · rfl
    change (setSegments (s' :: rest) (v.rename ρ) (Document.rename ρ inner) >>= _) =
      Except.map _ (setSegments (s' :: rest) v inner >>= _)
    rw [setSegments_rename v (s' :: rest) inner]
    rcases setSegments (s' :: rest) v inner with e | inner'
    · rfl
    · refine congrArg Except.ok ?_
      rw [Document.rename_put, Value.rename_object]

/-- Removing along a path does as well. -/
theorem unsetSegments_rename : ∀ (segments : List String) (d : Document),
    unsetSegments segments (Document.rename ρ d) = Document.rename ρ (unsetSegments segments d)
  | [], d => rfl
  | [leaf], d => (Document.rename_erase ρ d leaf).symm
  | s :: s' :: rest, d => by
    rw [unsetSegments, unsetSegments, Document.get?_rename]
    · rcases Record.get? d s with _ | w
      · rfl
      cases w with
      | object inner =>
        rw [Option.map_some, Value.rename_object]
        dsimp only
        rw [unsetSegments_rename (s' :: rest) inner, Document.rename_put, Value.rename_object]
      | list xs => rw [Option.map_some, Value.rename_list]
      | _ => rfl
    · simp
    · simp

end Paths

namespace MemoryStore

variable {ρ : ObjectId → ObjectId}

/-- Setting path after path does too. -/
theorem setPaths_rename (d : Document) : ∀ fs : Document,
    setPaths (Document.rename ρ fs) (Document.rename ρ d) =
      (setPaths fs d).map (Document.rename ρ) := by
  intro fs
  induction fs generalizing d with
  | nil => rfl
  | cons e rest ih =>
    obtain ⟨path, v⟩ := e
    rw [Document.rename_cons, setPaths, setPaths, setPath, setPath,
      setSegments_rename]
    rcases setSegments (Text.segments path) v d with e | d'
    · rfl
    · exact ih d'

/-- The paths to remove do not depend on the values beside them. -/
@[simp] theorem unsetPaths_rename (v : Value) : unsetPaths (v.rename ρ) = unsetPaths v := by
  cases v with
  | object fs =>
    rw [Value.rename_object, unsetPaths, unsetPaths, Document.rename, Record.keys_mapValues]
  | list items =>
    rw [Value.rename_list, unsetPaths, unsetPaths, List.mapM_map]
    congr 1
    funext w
    cases w <;> simp [Value.rename]
  | _ => rfl

/-- Removing path after path commutes with renaming. -/
theorem foldl_unsetPath_rename (paths : List String) (d : Document) :
    paths.foldl unsetPath (Document.rename ρ d) = Document.rename ρ (paths.foldl unsetPath d) := by
  induction paths generalizing d with
  | nil => rfl
  | cons path rest ih =>
    rw [List.foldl_cons, List.foldl_cons, ← ih, unsetPath, unsetPath, unsetSegments_rename]

/-- **Updates** do the same after a renaming. The part that unsets comes after the one that sets. -/
theorem applyUpdate_rename (parts : Document) (d : Document) :
    applyUpdate (.object (Document.rename ρ parts)) (Document.rename ρ d) =
      (applyUpdate (.object parts) d).map (Document.rename ρ) := by
  have hpart : ∀ key, (Record.get? (Document.rename ρ parts) key).getD (.object []) =
      ((Record.get? parts key).getD (.object [])).rename ρ := by
    intro key
    rw [Document.get?_rename]
    rcases Record.get? parts key with _ | v
    · rfl
    · rfl
  have hunset : ∀ d, (do
      let paths ← unsetPaths ((Record.get? (Document.rename ρ parts) "$unset").getD (.object []))
      pure (paths.foldl unsetPath (Document.rename ρ d)) : Outcome Document) =
      Except.map (Document.rename ρ) (do
        let paths ← unsetPaths ((Record.get? parts "$unset").getD (.object []))
        pure (paths.foldl unsetPath d)) := by
    intro d
    rw [hpart, unsetPaths_rename]
    rcases unsetPaths ((Record.get? parts "$unset").getD (.object [])) with e | paths
    · rfl
    · exact congrArg Except.ok (foldl_unsetPath_rename paths d)
  unfold applyUpdate
  dsimp only
  rw [hpart]
  generalize (Record.get? parts "$set").getD (.object []) = set
  cases set with
  | object fs =>
    rw [Value.rename_object]
    dsimp only
    rw [setPaths_rename]
    rcases setPaths fs d with e | d'
    · rfl
    · exact hunset d'
  | list xs =>
    rw [Value.rename_list]
    rfl
  | _ => rfl

end MemoryStore

/-! ## Collections and writes -/

section Collections

variable (ρ : ObjectId → ObjectId)

/-- A collection with its identifiers replaced. -/
def Collection.rename (c : Collection) : Collection :=
  c.map fun e => (e.1.rename ρ, Document.rename ρ e.2)

/-- Collections with their identifiers replaced. -/
def Collections.rename (cs : Collections) : Collections := Record.mapValues (Collection.rename ρ) cs

/-- A write with its identifiers replaced. -/
def Write.rename (w : Write) : Write :=
  ⟨w.collection, w.id.rename ρ, w.document.map (Document.rename ρ)⟩

/-- Noted writes with their identifiers replaced. -/
def renameWritten (written : List (String × Value)) : List (String × Value) :=
  written.map fun w => (w.1, w.2.rename ρ)

/-- An open transaction with its identifiers replaced. -/
def Transaction.rename (t : Transaction) : Transaction :=
  ⟨Collections.rename ρ t.working, renameWritten ρ t.written⟩

/-- The identifiers that the entries of some collections mention. -/
def Collections.mentioned (cs : Collections) : List ObjectId :=
  cs.flatMap fun b => b.2.flatMap fun e => e.1.mentioned ++ Value.mentionedFields e.2

variable {ρ}

/-- The collections of renamed documents are renamed. -/
theorem Collections.get_rename (cs : Collections) (name : String) :
    (Collections.rename ρ cs).get name = Collection.rename ρ (cs.get name) := by
  unfold Collections.get Collections.rename
  rw [Record.get?_mapValues]
  rcases Record.get? cs name with _ | c <;> rfl

/-- A renaming leaves collections alone when it fixes all that they mention. -/
theorem Collections.rename_eq_self {cs : Collections} (h : ∀ o ∈ cs.mentioned, ρ o = o) :
    Collections.rename ρ cs = cs := by
  refine Record.mapValues_eq_self fun b hb => ?_
  refine (List.map_congr_left fun e he => ?_).trans (List.map_id b.2)
  have hentry : ∀ o ∈ e.1.mentioned ++ Value.mentionedFields e.2, ρ o = o := fun o ho =>
    h o (List.mem_flatMap.2 ⟨b, hb, List.mem_flatMap.2 ⟨e, he, ho⟩⟩)
  have hid : Value.Settled ρ e.1 := fun o ho => hentry o (List.mem_append_left _ ho)
  have hdocument : Value.Settled ρ (.object e.2) :=
    fun o ho => hentry o (List.mem_append_right _ ho)
  exact Prod.ext hid.rename_eq (Value.rename_fields_eq (Value.settled_object.1 hdocument))

variable (hρ : Function.Injective ρ)
include hρ

/-- A document is found under the renamed identifier. -/
theorem Collection.get?_rename (c : Collection) (id : Value) :
    (Collection.rename ρ c).get? (id.rename ρ) = (c.get? id).map (Document.rename ρ) := by
  induction c with
  | nil => rfl
  | cons e rest ih =>
    change (if (e.1.rename ρ).eq (id.rename ρ) = true then some (Document.rename ρ e.2)
      else (Collection.rename ρ rest).get? (id.rename ρ)) = Option.map _ (if _ then _ else _)
    rw [Value.eq_rename hρ, ih]
    split <;> rfl

/-- Filing commutes with renaming. -/
theorem Collection.put_rename (c : Collection) (id : Value) (d : Document) :
    (Collection.rename ρ c).put (id.rename ρ) (Document.rename ρ d) =
      Collection.rename ρ (c.put id d) := by
  induction c with
  | nil => rfl
  | cons e rest ih =>
    change (if (e.1.rename ρ).eq (id.rename ρ) = true then
        (e.1.rename ρ, Document.rename ρ d) :: Collection.rename ρ rest
      else (e.1.rename ρ, Document.rename ρ e.2) ::
        (Collection.rename ρ rest).put (id.rename ρ) (Document.rename ρ d)) =
      Collection.rename ρ (if _ then _ else _)
    rw [Value.eq_rename hρ, ih]
    split <;> rfl

/-- So does removing a document. -/
theorem Collection.erase_rename (c : Collection) (id : Value) :
    (Collection.rename ρ c).erase (id.rename ρ) = Collection.rename ρ (c.erase id) := by
  induction c with
  | nil => rfl
  | cons e rest ih =>
    change (if (e.1.rename ρ).eq (id.rename ρ) = true then Collection.rename ρ rest
      else (e.1.rename ρ, Document.rename ρ e.2) ::
        (Collection.rename ρ rest).erase (id.rename ρ)) = Collection.rename ρ (if _ then _ else _)
    rw [Value.eq_rename hρ, ih]
    split <;> rfl

namespace MemoryStore

/-- A write to renamed collections writes the renamed document. -/
theorem writeTo_rename (cs : Collections) (collection : String) (id : Value) (d : Option Document) :
    writeTo (Collections.rename ρ cs) collection (id.rename ρ) (d.map (Document.rename ρ)) =
      Collections.rename ρ (writeTo cs collection id d) := by
  unfold writeTo
  rw [Collections.get_rename]
  rcases d with _ | d
  · dsimp only [Option.map_none]
    rw [Collection.erase_rename hρ]
    exact (Record.mapValues_put _ cs collection _).symm
  · dsimp only [Option.map_some]
    rw [Collection.put_rename hρ]
    exact (Record.mapValues_put _ cs collection _).symm

/-- Noting a write commutes with renaming. -/
theorem noteWrite_rename (written : List (String × Value)) (collection : String) (id : Value) :
    noteWrite (renameWritten ρ written) collection (id.rename ρ) =
      renameWritten ρ (noteWrite written collection id) := by
  have hany : (renameWritten ρ written).any (fun w => w.1 == collection && w.2.eq (id.rename ρ)) =
      written.any fun w => w.1 == collection && w.2.eq id := by
    rw [renameWritten, List.any_map]
    congr 1
    funext w
    exact congrArg (_ && ·) (Value.eq_rename hρ w.2 id)
  rw [noteWrite, noteWrite, hany]
  split
  · rfl
  · rw [renameWritten, renameWritten, List.map_append]
    rfl

/-- Whether a value is held on a path does not change when everything is renamed. -/
theorem holdsValue_rename (id : Value) (values : List Value) (path : String) (c : Collection) :
    holdsValue (id.rename ρ) (values.map (Value.rename ρ)) path (Collection.rename ρ c) =
      holdsValue id values path c := by
  induction c with
  | nil => rfl
  | cons e rest ih =>
    obtain ⟨k, other⟩ := e
    have hany : ((resolve other path).map (Value.rename ρ)).any
        (fun v => v.isIn (values.map (Value.rename ρ))) =
        (resolve other path).any fun v => v.isIn values := by
      rw [List.any_map]
      congr 1
      exact funext fun v => Value.isIn_rename hρ v values
    change holdsValue (id.rename ρ) (values.map (Value.rename ρ)) path
      ((k.rename ρ, Document.rename ρ other) :: Collection.rename ρ rest) = _
    rw [holdsValue, holdsValue, Document.get?_rename, resolve_rename, hany, ih]
    rcases Record.get? other "_id" with _ | otherId
    · rfl
    · rw [Option.map_some]
      dsimp only
      rw [Value.eq_rename hρ]

/-- **Uniqueness** is checked alike after a renaming. -/
theorem checkUnique_rename (bucket : Collection) (collection : String) (d : Document)
    (paths : List String) :
    checkUnique (Collection.rename ρ bucket) collection (Document.rename ρ d) paths =
      checkUnique bucket collection d paths := by
  have hvalues : ∀ path, uniqueValues (Document.rename ρ d) path =
      (uniqueValues d path).map (Value.rename ρ) := fun path => by
    rw [uniqueValues, uniqueValues, resolve_rename, List.filter_map]
    congr 1
    exact congrArg (List.filter · _) (funext fun v => by simp)
  induction paths with
  | nil => rfl
  | cons path rest ih =>
    rw [checkUnique, checkUnique, hvalues, ih, Document.get?_rename]
    have hempty : (Collection.rename ρ bucket).isEmpty = bucket.isEmpty := List.isEmpty_map
    dsimp only
    rw [List.isEmpty_map, hempty]
    split
    · rfl
    · rcases Record.get? d "_id" with _ | id
      · rfl
      · rw [Option.map_some]
        dsimp only
        rw [holdsValue_rename hρ]

end MemoryStore

/-- A transaction after a write, all renamed. -/
theorem Transaction.after_rename (t : Transaction) (w : Write) :
    (t.rename ρ).after (w.rename ρ) = (t.after w).rename ρ := by
  unfold Transaction.after Transaction.rename Write.rename Collections.after
  rw [MemoryStore.writeTo_rename hρ, MemoryStore.noteWrite_rename hρ]

/-- **Publishing** a renamed transaction gives the renamed outcome. -/
theorem MemoryStore.publish_rename (t : Transaction) (cs : Collections) :
    publish (t.rename ρ) (Collections.rename ρ cs) = Collections.rename ρ (publish t cs) := by
  obtain ⟨working, written⟩ := t
  unfold publish Transaction.rename
  dsimp only
  induction written generalizing cs with
  | nil => rfl
  | cons key rest ih =>
    rw [renameWritten, List.map_cons, List.foldl_cons, List.foldl_cons, ← ih]
    congr 1
    rw [publishOne_eq, publishOne_eq, Collections.get_rename, Collection.get?_rename hρ,
      writeTo_rename hρ]

end Collections

end EntityGraph
