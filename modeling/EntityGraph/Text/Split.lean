/-!
# Splitting text

A text is cut at every occurrence of a separator character, so that joining the pieces with the
separator gives the text back.
-/

namespace EntityGraph.Text

/-- Cut a list of characters at every `separator`. There is always a first piece. -/
def splitChars (separator : Char) : List Char → List Char × List (List Char)
  | [] => ([], [])
  | c :: rest =>
    let (first, others) := splitChars separator rest
    if c = separator then ([], first :: others) else (c :: first, others)

/-- Without a separator there is one piece. -/
theorem splitChars_of_notMem {c : Char} {cs : List Char} (h : c ∉ cs) :
    splitChars c cs = (cs, []) := by
  induction cs with
  | nil => rfl
  | cons d rest ih =>
    obtain ⟨hd, hrest⟩ := List.ne_and_not_mem_of_not_mem_cons h
    rw [splitChars, ih hrest]
    exact if_neg (Ne.symm hd)

/-- Cut a text at every `separator`. -/
def split (separator : Char) (s : String) : List String :=
  let (first, others) := splitChars separator s.toList
  String.ofList first :: others.map String.ofList

/-- The segments of a dotted path. -/
def segments (path : String) : List String := split '.' path

end EntityGraph.Text
