import EntityGraph.Decimal.Shortest
import EntityGraph.Text.Quoted
import EntityGraph.Value

/-!
# The text of a value

Messages show values in two forms: `Value.literal` shows how a value is built, with texts in quotes;
`Value.plain` shows a text as it is and everything else like `literal`, except that an identifier
and a moment stand alone.
-/

namespace EntityGraph

/-- How a moment is shown inside a larger value. -/
def Moment.literal (m : Moment) : String :=
  let d := Calendar.Date.ofDays m.day
  let (h, mi, s, us) := m.parts
  let parts := [d.year.toNat, d.month, d.day, h, mi] ++
    (if us ≠ 0 then [s, us] else if s ≠ 0 then [s] else [])
  let zone := match m.offset with
    | none => ""
    | some o =>
      if o = 0 then ", tzinfo=datetime.timezone.utc"
      else
        let secs := o * 60
        let days := Int.fdiv secs 86400
        let inner :=
          if days ≠ 0 then "days=" ++ toString days ++ ", seconds=" ++
            toString (secs - days * 86400)
          else "seconds=" ++ toString secs
        ", tzinfo=datetime.timezone(datetime.timedelta(" ++ inner ++ "))"
  "datetime.datetime(" ++ Text.join ", " (parts.map toString) ++ zone ++ ")"

namespace Value

mutual

/-- How a value is built. -/
def literal : Value → String
  | .null => "None"
  | .bool b => if b then "True" else "False"
  | .int i => toString i
  | .float x => Decimal.floatText x
  | .text s => Text.quoted s
  | .id o => "ObjectId(" ++ Text.quoted o.toHex ++ ")"
  | .moment m => m.literal
  | .list xs => "[" ++ Text.join ", " (literalItems xs) ++ "]"
  | .object fs => "\x7b" ++ Text.join ", " (literalFields fs) ++ "\x7d"
  | .member e n => "<" ++ e ++ "." ++ n ++ ">"

/-- The items of a list as they are shown. -/
def literalItems : List Value → List String
  | [] => []
  | x :: xs => literal x :: literalItems xs

/-- The fields of an object as they are shown. -/
def literalFields : List (String × Value) → List String
  | [] => []
  | (k, v) :: rest => (Text.quoted k ++ ": " ++ literal v) :: literalFields rest

end

/-- The plain text of a value. -/
def plain : Value → String
  | .text s => s
  | .id o => o.toHex
  | .moment m => m.text " "
  | .member e n => e ++ "." ++ n
  | v => literal v

end Value

end EntityGraph
