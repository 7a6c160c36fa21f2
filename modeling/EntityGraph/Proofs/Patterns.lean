import EntityGraph.Proofs.Spots

/-!
# Substring search

A term that asks for LIKE becomes a pattern, which the store reads and matches again. The pattern of
a text is found in exactly the texts that have it as a part, whatever signs, line feeds or other
characters the two hold (`matchesPattern_containsPattern`). So a term on a field or on a path
selects a row when one of the texts addressed, items of lists included, has the value as a part
(`like_term_selects`).
-/

namespace EntityGraph

namespace Text

/-! ## What patterns describe -/

/-- **What the pieces of a pattern describe**, one after the other. -/
inductive Describes : List PatternPiece → List Char → Prop where
  | nil : Describes [] []
  | one {s : PatternSign} {c : Char} {pieces : List PatternPiece} {cs : List Char}
    (hc : s.accepts c = true)
      (h : Describes pieces cs) : Describes (.one s :: pieces) (c :: cs)
  | done {s : PatternSign} {pieces : List PatternPiece} {cs : List Char} (h : Describes pieces cs) :
      Describes (.many s :: pieces) cs
  | more {s : PatternSign} {c : Char} {pieces : List PatternPiece} {cs : List Char}
    (hc : s.accepts c = true)
      (h : Describes (.many s :: pieces) cs) : Describes (.many s :: pieces) (c :: cs)

theorem afterMany_iff {s : PatternSign} {pieces : List PatternPiece}
    (ih : ∀ cs, startsWith pieces cs = true ↔ ∃ front back, cs = front ++ back ∧
      Describes pieces front)
    (cs : List Char) : afterMany s (startsWith pieces) cs = true ↔
      ∃ front back, cs = front ++ back ∧ Describes (.many s :: pieces) front := by
  induction cs with
  | nil =>
    rw [afterMany, ih]
    constructor
    · rintro ⟨front, back, hcs, h⟩
      exact ⟨front, back, hcs, .done h⟩
    · rintro ⟨front, back, hcs, h⟩
      cases h with
      | done h => exact ⟨front, back, hcs, h⟩
      | more => cases hcs
  | cons c rest ihcs =>
    rw [afterMany, Bool.or_eq_true, Bool.and_eq_true, ih, ihcs]
    constructor
    · rintro (⟨front, back, hcs, h⟩ | ⟨hc, front, back, rfl, h⟩)
      · exact ⟨front, back, hcs, .done h⟩
      · exact ⟨c :: front, back, rfl, .more hc h⟩
    · rintro ⟨front, back, hcs, h⟩
      cases h with
      | done h => exact .inl ⟨front, back, hcs, h⟩
      | more hc h =>
        cases hcs
        exact .inr ⟨hc, _, back, rfl, h⟩

/-- A text starts with what the pieces describe. -/
theorem startsWith_iff {pieces : List PatternPiece} (cs : List Char) :
    startsWith pieces cs = true ↔ ∃ front back, cs = front ++ back ∧ Describes pieces front := by
  induction pieces generalizing cs with
  | nil =>
    rw [startsWith]
    exact ⟨fun _ => ⟨[], cs, rfl, .nil⟩, fun _ => rfl⟩
  | cons piece pieces ih =>
    cases piece with
    | many s => exact afterMany_iff ih cs
    | one s =>
      cases cs with
      | nil =>
        constructor
        · intro h
          cases h
        · rintro ⟨front, back, hcs, h⟩
          cases h
          cases hcs
      | cons c rest =>
        rw [startsWith, Bool.and_eq_true, ih]
        constructor
        · rintro ⟨hc, front, back, rfl, h⟩
          exact ⟨c :: front, back, rfl, .one hc h⟩
        · rintro ⟨front, back, hcs, h⟩
          cases h with
          | one hc h =>
            cases hcs
            exact ⟨hc, _, back, rfl, h⟩

/-- **Pieces are found in a text** when they describe a part of it. -/
theorem found_iff {pieces : List PatternPiece} (cs : List Char) : found pieces cs = true ↔
    ∃ before part after, cs = before ++ part ++ after ∧ Describes pieces part := by
  induction cs with
  | nil =>
    rw [found, startsWith_iff]
    constructor
    · rintro ⟨part, after, hcs, h⟩
      exact ⟨[], part, after, hcs, h⟩
    · rintro ⟨before, part, after, hcs, h⟩
      obtain ⟨hleft, rfl⟩ := List.append_eq_nil_iff.1 hcs.symm
      exact ⟨part, [], by simp [(List.append_eq_nil_iff.1 hleft).2], h⟩
  | cons c rest ih =>
    rw [found, Bool.or_eq_true, startsWith_iff, ih]
    constructor
    · rintro (⟨part, after, hcs, h⟩ | ⟨before, part, after, rfl, h⟩)
      · exact ⟨[], part, after, hcs, h⟩
      · exact ⟨c :: before, part, after, rfl, h⟩
    · rintro ⟨before, part, after, hcs, h⟩
      cases before with
      | nil => exact .inl ⟨part, after, hcs, h⟩
      | cons d before =>
        cases hcs
        exact .inr ⟨before, part, after, rfl, h⟩

/-! ## The pattern of a text -/

/-- The pieces for the characters of a text. -/
def literally (cs : List Char) : List PatternPiece := cs.map fun c => .one (.exactly c)

/-- An escaped text is read as its characters, after whatever was read before. -/
theorem read_escapePattern (cs : List Char) (pieces : List PatternPiece) :
    (escapePattern cs).foldl PatternReading.next ⟨pieces, false⟩ =
      ⟨(literally cs).reverse ++ pieces, false⟩ := by
  induction cs generalizing pieces with
  | nil => rfl
  | cons c rest ih =>
    have hnext : (if isPatternChar c then [backslash, c] else [c]).foldl PatternReading.next
      ⟨pieces, false⟩ =
        ⟨.one (.exactly c) :: pieces, false⟩ := by
      by_cases hc : isPatternChar c = true
      · rw [if_pos hc]
        rfl
      · have hne : ∀ d, isPatternChar d = true → c ≠ d := fun d hd heq => hc (heq ▸ hd)
        rw [if_neg hc]
        simp [PatternReading.next, hne backslash (by decide), hne '.' (by decide),
          hne '*' (by decide)]
    rw [escapePattern, List.flatMap_cons, List.foldl_append, hnext]
    refine (ih _).trans ?_
    simp [literally]

/-- The pieces of the pattern of a text: its characters, between any characters of a line. -/
theorem readPattern_containsPattern (v : String) : readPattern (containsPattern v).toList =
    .many .inLine :: (literally v.toList ++ [.many .inLine]) := by
  have hbegin : wildcard.foldl PatternReading.next ⟨[], false⟩ = ⟨[.many .inLine], false⟩ := rfl
  have hend : ∀ pieces, wildcard.foldl PatternReading.next ⟨pieces, false⟩ =
      ⟨.many .inLine :: pieces, false⟩ :=
    fun _ => rfl
  rw [readPattern, containsPattern, String.toList_ofList, List.foldl_append, List.foldl_append,
    hbegin, read_escapePattern, hend]
  simp

theorem describes_literally {cs : List Char} {pieces : List PatternPiece} {text : List Char} :
    Describes (literally cs ++ pieces) text ↔
      ∃ rest, text = cs ++ rest ∧ Describes pieces rest := by
  induction cs generalizing text with
  | nil => exact ⟨fun h => ⟨text, rfl, h⟩, fun ⟨_, htext, h⟩ => htext ▸ h⟩
  | cons c cs ih =>
    constructor
    · intro h
      cases h with
      | one hc h =>
        obtain rfl := beq_iff_eq.1 hc
        obtain ⟨rest, rfl, hrest⟩ := ih.1 h
        exact ⟨rest, rfl, hrest⟩
    · rintro ⟨rest, rfl, h⟩
      exact .one (beq_self_eq_true c) (ih.2 ⟨rest, rfl, h⟩)

/-- After any number of characters comes what the other pieces describe. -/
theorem exists_describes_of_many {s : PatternSign} {pieces : List PatternPiece} {text : List Char}
    (h : Describes (.many s :: pieces) text) :
    ∃ before rest, text = before ++ rest ∧ Describes pieces rest := by
  generalize hall : PatternPiece.many s :: pieces = all at h
  induction h with
  | nil => cases hall
  | one => cases hall
  | @done s pieces cs h =>
    cases hall
    exact ⟨[], cs, rfl, h⟩
  | @more s c pieces cs hc h ih =>
    obtain ⟨before, rest, rfl, hrest⟩ := ih hall
    exact ⟨c :: before, rest, rfl, hrest⟩

/-- **The pattern of a text is found in the texts that have it as a part.** -/
theorem matchesPattern_containsPattern (v s : String) :
    matchesPattern (containsPattern v) s = true ↔ v.toList <:+: s.toList := by
  rw [matchesPattern, readPattern_containsPattern, found_iff]
  constructor
  · rintro ⟨before, part, after, hs, h⟩
    obtain ⟨skipped, rest, rfl, hrest⟩ := exists_describes_of_many h
    obtain ⟨more, rfl, -⟩ := describes_literally.1 hrest
    exact ⟨before ++ skipped, more ++ after, by simp [hs]⟩
  · rintro ⟨before, after, hs⟩
    exact ⟨before, v.toList, after, hs.symm,
      .done (describes_literally.2 ⟨[], by simp, .done .nil⟩)⟩

end Text

/-! ## Selecting by a part of a text -/

/-- A text is **among values**: it is one of them, or an item of a list that is. -/
def IsTextAmong (values : List Value) (text : String) : Prop :=
  .text text ∈ values ∨ ∃ items, .list items ∈ values ∧ .text text ∈ items

theorem text_mem_flatten {values : List Value} {text : String} :
    .text text ∈ flatten values ↔ IsTextAmong values text := by
  rw [mem_flatten, IsTextAmong]
  exact or_congr_left (and_iff_left rfl)

/-- The condition that asks for a part. -/
def likeCondition (v : String) : Value := .object [("$regex", .text (Text.containsPattern v))]

/-- **Asking for a part** tells whether some text among the values has it. -/
theorem conditionHolds_like (v : String) (values : List Value) : ∃ b,
    conditionHolds values (likeCondition v) = .ok b ∧
      (b = true ↔ ∃ text, IsTextAmong values text ∧ v.toList <:+: text.toList) := by
  refine ⟨_, conditionHolds_of_operator rfl _ values, ?_⟩
  rw [List.any_eq_true]
  constructor
  · rintro ⟨u, hu, hmatch⟩
    cases u with
    | text text =>
      exact ⟨text, text_mem_flatten.1 hu, (Text.matchesPattern_containsPattern v text).1 hmatch⟩
    | _ => cases hmatch
  · rintro ⟨text, htext, hpart⟩
    exact ⟨.text text, text_mem_flatten.2 htext,
      (Text.matchesPattern_containsPattern v text).2 hpart⟩

/-- The condition of a LIKE term. -/
theorem termCondition_like {f : FieldDef} (hf : f.momentType? = none) (key v : String) :
    termCondition f key ⟨some .like, .text v⟩ = .ok (likeCondition v) := by
  unfold termCondition coerceTerm
  rw [hf]
  rfl

/-- **LIKE selects by a part of a text.** Let a field, or a path from there, lead to a field that is
no date, and let the field not go by the name of a combination of queries. Asking for LIKE with a
text compiles, and of any row the query tells whether some text among the values at that place has
the text asked for as a part. -/
theorem like_term_selects {r : Registry} {f : FieldDef} {place : Option String} {s : Spot}
    (hs : Spot.find r f place = .ok s) (htype : s.field.momentType? = none)
    (hname : place = none → ¬ IsCombinator f.name) (v : String) :
    ∃ p, planFilter r f (.asking place .like (.text v)) .empty = .ok p ∧ ∀ row : Document, ∃ b,
      matchesQuery row (.object p.query) = .ok b ∧
        (b = true ↔ ∃ text, IsTextAmong (resolve row s.key) text ∧ v.toList <:+: text.toList) := by
  have hkey := Spot.not_isCombinator_key hs hname
  obtain ⟨p, hask, -, hquery⟩ := Spot.ask_empty (termCondition_like htype s.leaf v)
  refine ⟨p, (planFilter_asking f place .like _ _).trans ?_, fun row => ?_⟩
  · rw [hs]
    exact hask
  · obtain ⟨b, hb, hiff⟩ := conditionHolds_like v (resolve row s.key)
    refine ⟨b, ?_, hiff⟩
    rw [hquery, matchesQuery_single row hkey]
    exact hb

/-- The field of a title. -/
def titleField : FieldDef := ⟨"title", .scalar .string, false, true, false, false, none, .null⟩

/-- A title with signs in it, after the end of a line. -/
theorem title_selected : ∃ p,
    planFilter shelf titleField (.asking none .like (.text "a.b*\\\n")) .empty = .ok p ∧
      matchesQuery [("_id", .int 1), ("title", .text "One\na.b*\\\ntwo")]
      (.object p.query) = .ok true := by
  obtain ⟨p, hp, hselects⟩ :=
    like_term_selects (show Spot.find shelf titleField none = .ok _ from rfl)
      rfl (fun _ => by unfold IsCombinator; decide) "a.b*\\\n"
  obtain ⟨b, hb, hiff⟩ := hselects [("_id", .int 1), ("title", .text "One\na.b*\\\ntwo")]
  have htrue : b = true :=
    hiff.2 ⟨"One\na.b*\\\ntwo", .inl (.head _), "One\n".toList, "two".toList, by decide⟩
  exact ⟨p, hp, htrue ▸ hb⟩

/-- **A field that goes by the name of a combination** is not searched: asking it for LIKE compiles,
but no row is told from another. -/
theorem combinator_not_searched : ∃ p,
    planFilter shelf { titleField with name := "$and" }
    (.asking none .like (.text "tea")) .empty = .ok p ∧
      resolve [("_id", .int 1), ("$and", .text "tea")] "$and" = [.text "tea"] ∧
      matchesQuery [("_id", .int 1), ("$and", .text "tea")] (.object p.query) = .error .illTyped :=
  ⟨_, rfl, by rfl, by rfl⟩

end EntityGraph
