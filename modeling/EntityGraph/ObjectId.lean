/-!
# Identifiers

Documents are identified by a few bytes, twelve of them when the store makes the identifier, written
as two lower-case hexadecimal digits each. A text spells an identifier when it has 24 characters
that read as bytes, in digits of either case. Blanks between bytes are skipped, so that a text with
blanks spells an identifier of fewer bytes.
-/

namespace EntityGraph

/-- The numbers of so many bytes are below it. -/
def byteBound : Nat → Nat
  | 0 => 1
  | size + 1 => byteBound size * 256

/-- The identifier of a stored document. -/
structure ObjectId where
  /-- the number of its bytes -/
  size : Nat
  /-- its bytes as a number, the first one counting most -/
  number : Nat
  number_lt : number < byteBound size
  deriving DecidableEq

namespace ObjectId

/-- The identifier of twelve bytes with the given number. -/
def ofNat (n : Nat) : ObjectId where
  size := 12
  number := n % byteBound 12
  number_lt := Nat.mod_lt _ (by decide)

/-- The identifier of no bytes. -/
def empty : ObjectId := ⟨0, 0, Nat.one_pos⟩

/-- The identifier with one more byte, given by its two hexadecimal digits. -/
def push (o : ObjectId) (high low : Fin 16) : ObjectId where
  size := o.size + 1
  number := o.number * 256 + (high.val * 16 + low.val)
  number_lt := by
    have hbelow := o.number_lt
    rw [byteBound]
    omega

/-- Is the first identifier below the second? They are compared byte by byte, and an identifier is
above its beginnings. -/
def lt (o p : ObjectId) : Bool :=
  let a := o.number * byteBound (p.size - o.size)
  let b := p.number * byteBound (o.size - p.size)
  a < b || (a == b && o.size < p.size)

/-- The lower-case hexadecimal digit of a number below sixteen. -/
def hexDigit (n : Nat) : Char := if n < 10 then Char.ofNat (48 + n) else Char.ofNat (87 + n)

/-- The value of a hexadecimal digit of either case. -/
def hexValue? (c : Char) : Option (Fin 16) :=
  if '0' ≤ c ∧ c ≤ '9' then some (Fin.ofNat 16 (c.toNat - 48))
  else if 'a' ≤ c ∧ c ≤ 'f' then some (Fin.ofNat 16 (c.toNat - 87))
  else if 'A' ≤ c ∧ c ≤ 'F' then some (Fin.ofNat 16 (c.toNat - 55))
  else none

/-- The last `count` hexadecimal digits of `n`, most significant first. -/
def hexDigits : Nat → Nat → List Char
  | 0, _ => []
  | count + 1, n => hexDigits count (n / 16) ++ [hexDigit (n % 16)]

/-- The digits of an identifier. -/
def toHex (o : ObjectId) : String := String.ofList (hexDigits (2 * o.size) o.number)

/-- A blank, which may stand before a byte and after the last one. -/
def isBlank (c : Char) : Bool := c == ' ' || ('\t' ≤ c && c ≤ '\r')

/-- The identifier with the bytes that follow in a text, each of two hexadecimal digits. -/
def readBytes (o : ObjectId) : List Char → Option ObjectId
  | [] => some o
  | [c] => if isBlank c then some o else none
  | c :: c' :: rest =>
    if isBlank c then readBytes o (c' :: rest)
    else do
      let high ← hexValue? c
      let low ← hexValue? c'
      readBytes (o.push high low) rest

/-- The identifier that a text spells, if it does. -/
def ofHex? (text : String) : Option ObjectId :=
  if text.toList.length = 24 then readBytes empty text.toList else none

end ObjectId

end EntityGraph
