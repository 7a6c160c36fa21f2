import EntityGraph.Store.Path
import EntityGraph.Text.Pattern

/-!
# Matching documents

A query is an object of conditions, one per path, that must all hold; `$and` and `$or` combine
queries. A condition is either a value to equal or an object of operators. It is tested on the
values that the path addresses, with the items of lists in their place: it holds when one of them
satisfies it, except that the negated operators ask that none does.
-/

namespace EntityGraph

/-- Is this the name of an operator? -/
def isOperator (key : String) : Bool :=
  match key.toList with
  | c :: _ => c = '$'
  | [] => false

/-- Is the value an object of operators? -/
def isOperatorObject : Value → Bool
  | .object fs => fs.any fun e => isOperator e.1
  | _ => false

/-- The values of a list, as the operand of a membership test. Texts contain texts and objects
contain their keys; other values contain nothing that could be asked for. -/
def operandHas (operand candidate : Value) : Outcome Bool :=
  match operand with
  | .list items => pure (candidate.isIn items)
  | .text s =>
    match candidate with
    | .text t => pure (Text.occursIn t.toList s.toList)
    | _ => throw .illTyped
  | .object fs =>
    if candidate.isKey then
      pure (match candidate with
        | .text t => Record.has fs t
        | _ => false)
    else throw .illTyped
  | _ => throw .illTyped

/-- Is one of the candidates in the operand? -/
def anyIn (operand : Value) : List Value → Outcome Bool
  | [] => pure false
  | c :: rest => do
    if ← operandHas operand c then pure true else anyIn operand rest

/-- Does a comparison of values hold? Values that have no order are not compared. -/
def comparison? (operator : String) (left right : Value) : Option Bool :=
  if operator = "$lt" then some ((Value.lt? left right).getD false)
  else if operator = "$lte" then some ((Value.le? left right).getD false)
  else if operator = "$gt" then some ((Value.lt? right left).getD false)
  else if operator = "$gte" then some ((Value.le? right left).getD false)
  else none

/-- Is the operator a comparison? -/
def isComparison (operator : String) : Bool := ["$lt", "$lte", "$gt", "$gte"].contains operator

/-- Does an operator hold of the candidates? -/
def operatorHolds (candidates : List Value) (operator : String) (operand : Value) : Outcome Bool :=
  if operator = "$eq" then pure (operand.isIn candidates)
  else if operator = "$ne" then pure (!operand.isIn candidates)
  else if operator = "$in" then do
    if ← anyIn operand candidates then pure true
    else if ← operandHas operand .null then pure candidates.isEmpty
    else pure false
  else if operator = "$nin" then do
    let found ← anyIn operand candidates
    pure (!found)
  else if operator = "$regex" then
    match operand with
    | .text pattern =>
      pure (candidates.any fun c =>
        match c with
        | .text s => Text.matchesPattern pattern s
        | _ => false)
    | _ => throw .illTyped
  else if isComparison operator then
    pure (candidates.any fun c => !c.isNull && (comparison? operator c operand).getD false)
  else throw (.badValue ("Unsupported match operator: " ++ operator))

/-- Do all operators hold of the candidates? -/
def operatorsHold (candidates : List Value) : List (String × Value) → Outcome Bool
  | [] => pure true
  | (operator, operand) :: rest => do
    if ← operatorHolds candidates operator operand then operatorsHold candidates rest
    else pure false

/-- Does one of the candidates equal the value? Null is also met when there are none. -/
def equalityHolds (candidates : List Value) (v : Value) : Bool :=
  v.isIn candidates || (v.isNull && candidates.isEmpty)

/-- Does a condition hold of the addressed values? -/
def conditionHolds (values : List Value) (condition : Value) : Outcome Bool :=
  let candidates := flatten values
  match condition with
  | .object fs =>
    if isOperatorObject condition then operatorsHold candidates fs
    else pure (equalityHolds candidates condition)
  | _ => pure (equalityHolds candidates condition)

/-- Is the value an empty text? -/
def isEmptyText : Value → Bool
  | .text s => s == ""
  | _ => false

mutual

/-- Does a document match a query? -/
def matchesQuery (document : Document) : Value → Outcome Bool
  | .object query => matchesAll document query
  | _ => throw .illTyped

/-- Do all conditions of a query hold? -/
def matchesAll (document : Document) : List (String × Value) → Outcome Bool
  | [] => pure true
  | (key, condition) :: rest => do
    let holds ←
      if key = "$and" then
        match condition with
        | .list queries => everyMatches document queries
        | .object fs => if fs.isEmpty then pure true else throw .illTyped
        | v => if isEmptyText v then pure true else throw .illTyped
      else if key = "$or" then
        match condition with
        | .list queries => someMatches document queries
        | .object fs => if fs.isEmpty then pure false else throw .illTyped
        | v => if isEmptyText v then pure false else throw .illTyped
      else conditionHolds (resolve document key) condition
    if holds then matchesAll document rest else pure false

/-- Does the document match every query? -/
def everyMatches (document : Document) : List Value → Outcome Bool
  | [] => pure true
  | q :: rest => do
    if ← matchesQuery document q then everyMatches document rest else pure false

/-- Does the document match some query? -/
def someMatches (document : Document) : List Value → Outcome Bool
  | [] => pure false
  | q :: rest => do
    if ← matchesQuery document q then pure true else someMatches document rest

end

/-- The documents that match a query. -/
def matching (query : Value) : List Document → Outcome (List Document)
  | [] => pure []
  | d :: rest => do
    let holds ← matchesQuery d query
    let others ← matching query rest
    pure (if holds then d :: others else others)

end EntityGraph
