import EntityGraph.Decimal.Number
import EntityGraph.Moment
import EntityGraph.ObjectId
import EntityGraph.Record

/-!
# Values

What documents, arguments, conditions and schema documents are made of. `Value.eq` is equality of
content: numbers and truth values are equal when they stand for the same number, objects when they
hold equal values under the same keys in any order. `Value.lt?` is the order of values, which only
values of the same kind have.
-/

namespace EntityGraph

open Decimal (Number)

/-- A value of the document model. -/
inductive Value where
  | null
  | bool (b : Bool)
  | int (i : Int)
  | float (x : Float)
  | text (s : String)
  | id (o : ObjectId)
  | moment (m : Moment)
  | list (items : List Value)
  | object (fields : List (String × Value))
  /-- a member of a named enumeration -/
  | member (enumeration name : String)

/-- A document, or any other object. -/
abbrev Document := Record Value

namespace Value

instance : Inhabited Value := ⟨.null⟩

/-- The number that a value stands for; a truth value stands for zero or one. -/
def number? : Value → Option Number
  | .bool b => some (.ofInt (if b then 1 else 0))
  | .int i => some (.ofInt i)
  | .float x => some (.ofFloat x)
  | _ => none

/-- Do two values that are not composed stand for the same number? -/
def eqNumber (a b : Value) : Bool :=
  match a.number?, b.number? with
  | some x, some y => x.eq y
  | _, _ => false

mutual

/-- Equality of content. -/
def eq : Value → Value → Bool
  | .null, b => match b with
    | .null => true
    | _ => false
  | .text s, b => match b with
    | .text t => s == t
    | _ => false
  | .id o, b => match b with
    | .id p => o == p
    | _ => false
  | .moment m, b => match b with
    | .moment n => m.eq n
    | _ => false
  | .member e n, b => match b with
    | .member f m => e == f && n == m
    | _ => false
  | .list xs, b => match b with
    | .list ys => eqItems xs ys
    | _ => false
  | .object xs, b => match b with
    | .object ys => xs.length == ys.length && eqFields xs ys
    | _ => false
  | .bool x, b => eqNumber (.bool x) b
  | .int x, b => eqNumber (.int x) b
  | .float x, b => eqNumber (.float x) b

/-- Equality of lists, item by item. -/
def eqItems : List Value → List Value → Bool
  | [], ys => ys.isEmpty
  | x :: xs, ys => match ys with
    | [] => false
    | y :: ys => eq x y && eqItems xs ys

/-- Is every field of the first object equal to the same field of the second? -/
def eqFields : List (String × Value) → List (String × Value) → Bool
  | [], _ => true
  | (k, v) :: rest, ys =>
    (match Record.get? ys k with
      | some w => eq v w
      | none => false) && eqFields rest ys

end

/-- Equality with a value that stands for a number. -/
theorem eq_iff_of_number {v w : Value} {x : Number} (h : v.number? = some x) :
    v.eq w = true ↔ ∃ y, w.number? = some y ∧ x.eq y = true := by
  have heq : v.eq w = eqNumber v w := by
    unfold number? at h
    split at h
    · rw [eq]
    · rw [eq]
    · rw [eq]
    · cases h
  rw [heq, eqNumber, h]
  rcases w.number? with _ | y <;> simp

/-- Is a value among the items, up to equality of content? -/
def isIn (v : Value) (items : List Value) : Bool := items.any fun w => eq w v

mutual

/-- Is the first value below the second? `none` when the two have no order. -/
def lt? : Value → Value → Option Bool
  | .text s, b => match b with
    | .text t => some (decide (s < t))
    | _ => none
  | .id o, b => match b with
    | .id p => some (o.lt p)
    | _ => none
  | .moment m, b => match b with
    | .moment n => m.lt? n
    | _ => none
  | .list xs, b => match b with
    | .list ys => ltItems? xs ys
    | _ => none
  | .bool x, b => ((number? (.bool x)).bind fun m => b.number?.map (m.lt ·))
  | .int x, b => ((number? (.int x)).bind fun m => b.number?.map (m.lt ·))
  | .float x, b => ((number? (.float x)).bind fun m => b.number?.map (m.lt ·))
  | .null, _ => none
  | .object _, _ => none
  | .member _ _, _ => none

/-- Lists are ordered by their first difference, and a list is above its beginnings. -/
def ltItems? : List Value → List Value → Option Bool
  | [], ys => some (!ys.isEmpty)
  | x :: xs, ys => match ys with
    | [] => some false
    | y :: ys => if eq x y then ltItems? xs ys else lt? x y

end

/-- Is the first value at most the second? -/
def le? (a b : Value) : Option Bool := (lt? a b).map fun l => l || eq a b

/-- Null and the empty text count as absent. -/
def isEmpty : Value → Bool
  | .null => true
  | .text s => s == ""
  | _ => false

/-- Is this the null value? -/
def isNull : Value → Bool
  | .null => true
  | _ => false

/-- Values that count as false: null, `false`, zero, and everything empty. -/
def truthy : Value → Bool
  | .null => false
  | .bool b => b
  | .int i => i != 0
  | .float x => !(Number.ofFloat x).eq (.ofInt 0)
  | .text s => s != ""
  | .list xs => !xs.isEmpty
  | .object fs => !fs.isEmpty
  | .id _ => true
  | .moment _ => true
  | .member _ _ => true

/-- The fields of an object. -/
def fields? : Value → Option Document
  | .object fs => some fs
  | _ => none

/-- The items of a list. -/
def items? : Value → Option (List Value)
  | .list xs => some xs
  | _ => none

/-- The text, if the value is one. -/
def text? : Value → Option String
  | .text s => some s
  | _ => none

/-- Can the value identify an entry of a collection? Lists and objects cannot. -/
def isKey : Value → Bool
  | .list _ => false
  | .object _ => false
  | _ => true

end Value

end EntityGraph
