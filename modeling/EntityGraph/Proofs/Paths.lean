import EntityGraph.Query.Compile
import EntityGraph.Store.Memory

/-!
# Paths as texts and as segments

A path is put together from segments with dots and cut at its dots again. A text without a dot is
one segment, and only such texts come back as they were. Labels of joins are put together with
underscores, so they are segments when their parts are.
-/

namespace EntityGraph

open Text (segments split splitChars)

/-! ## Cutting what was joined -/

/-- A text that is one segment of a path. -/
def IsSegment (s : String) : Prop := '.' ∉ s.toList

namespace Text

/-- The first separator ends the first piece. -/
theorem splitChars_append {c : Char} {cs : List Char} (h : c ∉ cs) (rest : List Char) :
    splitChars c (cs ++ c :: rest) =
      (cs, (splitChars c rest).1 :: (splitChars c rest).2) := by
  induction cs with
  | nil =>
    rw [List.nil_append, splitChars]
    exact if_pos rfl
  | cons d ds ih =>
    obtain ⟨hd, hds⟩ := List.ne_and_not_mem_of_not_mem_cons h
    rw [List.cons_append, splitChars, ih hds]
    exact if_neg (Ne.symm hd)

/-- No piece contains the separator. -/
theorem notMem_splitChars (c : Char) (cs : List Char) :
    c ∉ (splitChars c cs).1 ∧ ∀ piece ∈ (splitChars c cs).2, c ∉ piece := by
  induction cs with
  | nil => exact ⟨List.not_mem_nil, fun _ h => absurd h List.not_mem_nil⟩
  | cons d rest ih =>
    obtain ⟨hfirst, hothers⟩ := ih
    rw [splitChars]
    dsimp only
    split
    · refine ⟨List.not_mem_nil, fun piece hp => ?_⟩
      rcases List.mem_cons.1 hp with rfl | hp
      · exact hfirst
      · exact hothers piece hp
    · rename_i hd
      refine ⟨fun hm => ?_, hothers⟩
      rcases List.mem_cons.1 hm with rfl | hm
      · exact hd rfl
      · exact hfirst hm

theorem join_cons (separator s : String) {rest : List String} (h : rest ≠ []) :
    join separator (s :: rest) = s ++ separator ++ join separator rest := by
  cases rest with
  | nil => exact absurd rfl h
  | cons t rest => rfl

/-- Joining what was joined already. -/
theorem join_join {separator : String} {xs : List String} (hxs : xs ≠ []) (ys : List String) :
    join separator (join separator xs :: ys) = join separator (xs ++ ys) := by
  cases ys with
  | nil => rw [List.append_nil, join]
  | cons y ys =>
    induction xs with
    | nil => exact absurd rfl hxs
    | cons x xs ih =>
      cases xs with
      | nil => rfl
      | cons x' xs =>
        have ih := ih (List.cons_ne_nil _ _)
        rw [join_cons _ _ (List.cons_ne_nil _ _)] at ih
        rw [join_cons _ _ (List.cons_ne_nil y ys), join_cons _ x (List.cons_ne_nil x' xs),
          List.cons_append, join_cons _ x (by simp), ← ih]
        simp only [String.append_assoc]

/-- The characters of joined names are those of the names, and of what stands between them. -/
theorem mem_toList_join {separator : String} {xs : List String} {c : Char}
    (h : c ∈ (join separator xs).toList) : c ∈ separator.toList ∨ ∃ x ∈ xs, c ∈ x.toList := by
  induction xs with
  | nil => simp [join] at h
  | cons x rest ih =>
    cases rest with
    | nil => exact .inr ⟨x, List.mem_cons_self .., h⟩
    | cons y rest =>
      rw [join_cons _ _ (List.cons_ne_nil _ _)] at h
      simp only [String.toList_append, List.mem_append] at h
      rcases h with (h | h) | h
      · exact .inr ⟨x, List.mem_cons_self .., h⟩
      · exact .inl h
      · rcases ih h with h | ⟨z, hz, h⟩
        · exact .inl h
        · exact .inr ⟨z, List.mem_cons_of_mem _ hz, h⟩

theorem split_of_notMem {c : Char} {s : String} (h : c ∉ s.toList) : split c s = [s] := by
  rw [split, splitChars_of_notMem h]
  simp

theorem split_append {c : Char} {s : String} (h : c ∉ s.toList) (t : String) :
    split c (s ++ String.ofList [c] ++ t) = s :: split c t := by
  have hlist : (s ++ String.ofList [c] ++ t).toList = s.toList ++ c :: t.toList := by
    simp [String.toList_append]
  rw [split, hlist, splitChars_append h]
  simp [split]

/-- **Cutting what was joined** gives the pieces back, when all but the last have no separator. -/
theorem split_join {c : Char} {xs : List String} (h : ∀ s ∈ xs, c ∉ s.toList) (last : String) :
    split c (join (String.ofList [c]) (xs ++ [last])) = xs ++ split c last := by
  induction xs with
  | nil => rfl
  | cons x rest ih =>
    rw [List.cons_append, join_cons _ _ (by simp), split_append (h x (List.mem_cons_self ..)),
      ih fun s hs => h s (List.mem_cons_of_mem _ hs)]
    rfl

/-- **Joining what was cut** gives the text back. -/
theorem join_split (c : Char) (s : String) : join (String.ofList [c]) (split c s) = s := by
  have hjoin : ∀ (first : List Char) (others : List (List Char)),
      (join (String.ofList [c]) (String.ofList first :: others.map String.ofList)).toList =
        first ++ others.flatMap (c :: ·) := by
    intro first others
    induction others generalizing first with
    | nil => simp [join]
    | cons piece rest ih =>
      rw [List.map_cons, join_cons _ _ (List.cons_ne_nil _ _), String.toList_append,
        String.toList_append, ih piece]
      simp
  have hcut : ∀ cs : List Char, (splitChars c cs).1 ++ (splitChars c cs).2.flatMap (c ::
      ·) = cs := by
    intro cs
    induction cs with
    | nil => rfl
    | cons d rest ih =>
      rw [splitChars]
      dsimp only
      split
      · rename_i hd
        rw [List.flatMap_cons, List.nil_append, List.cons_append, ih, hd]
      · rw [List.cons_append, ih]
  rw [← String.ofList_toList (s := join _ _), split, hjoin, hcut, String.ofList_toList]

/-- Only a text without separators is a single piece. -/
theorem eq_of_split {c : Char} {s t : String} (h : split c s = [t]) : s = t := by
  rw [← join_split c s, h, join]

/-- A name without dots is a path of one segment. -/
theorem segments_of_isSegment {s : String} (h : IsSegment s) : segments s = [s] :=
  split_of_notMem h

theorem isSegment_of_mem_segments {s path : String} (h : s ∈ segments path) : IsSegment s := by
  obtain ⟨hfirst, hothers⟩ := notMem_splitChars '.' path.toList
  rw [segments, split] at h
  rcases List.mem_cons.1 h with rfl | h
  · rwa [IsSegment, String.toList_ofList]
  · obtain ⟨piece, hp, rfl⟩ := List.mem_map.1 h
    rw [IsSegment, String.toList_ofList]
    exact hothers piece hp

end Text

open Text

/-- A path is cut where it was joined: all segments but the last have no dots. -/
theorem segments_dotted {xs : List String} (h : ∀ s ∈ xs, IsSegment s) (last : String) :
    segments (dotted (xs ++ [last])) = xs ++ segments last := split_join h last

/-- Segments come back from their path. -/
theorem segments_dotted_of_isSegment {names : List String} (hne : names ≠ [])
    (h : ∀ s ∈ names, IsSegment s) :
    segments (dotted names) = names := by
  have hsplit := List.dropLast_concat_getLast hne
  rw [← hsplit, segments_dotted fun s hs => h s (List.dropLast_subset _ hs),
    segments_of_isSegment (h _ (List.getLast_mem hne))]

/-! ## Labels -/

/-- The label under which the documents at the end of a path of relations are joined. -/
def labelOf (path : List String) : String := Text.join "_" path

/-- The label of names without dots has none. -/
theorem isSegment_labelOf {path : List String} (h : ∀ s ∈ path, IsSegment s) :
    IsSegment (labelOf path) := by
  intro hm
  rcases mem_toList_join hm with hm | ⟨s, hs, hm⟩
  · revert hm
    decide
  · exact h s hs hm

/-- A text that starts with the sign of operators. -/
def IsSigned (s : String) : Prop := s.toList.head? = some '$'

/-- A joined text starts like its first part, or like the separator when that is empty. -/
theorem not_isSigned_join {separator : String} (hsep : ∃ c cs, separator.toList = c :: cs ∧ c ≠ '$')
    {x : String} (h : ¬ IsSigned x) (rest : List String) :
    ¬ IsSigned (Text.join separator (x :: rest)) := by
  cases rest with
  | nil => exact h
  | cons y rest =>
    rw [join_cons _ _ (List.cons_ne_nil _ _), IsSigned, String.toList_append, String.toList_append]
    rw [IsSigned] at h
    rcases hx : x.toList with _ | ⟨c, cs⟩
    · obtain ⟨c, cs, hs, hc⟩ := hsep
      rw [hs]
      simpa using hc
    · rw [hx] at h
      simpa using h

theorem dropSigns_sign {label : String} (h : ¬ IsSigned label) :
    dropSigns ("$" ++ label) = label := by
  have hlist : ("$" ++ label).toList = '$' :: label.toList := by
    simp [String.toList_append]
  rw [dropSigns, hlist, List.dropWhile_cons, if_pos (by decide)]
  rcases hl : label.toList with _ | ⟨c, cs⟩
  · rw [← String.ofList_toList (s := label), hl]
    rfl
  · have hc : c ≠ '$' := fun hc => h (by rw [IsSigned, hl, hc]; rfl)
    rw [List.dropWhile_cons, if_neg (by simpa using hc), ← hl, String.ofList_toList]

end EntityGraph
