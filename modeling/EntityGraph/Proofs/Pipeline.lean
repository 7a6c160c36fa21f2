import EntityGraph.Proofs.Compilation

/-!
# Pipelines answer filters

The rows of a compiled pipeline after its joins are the valid picks: each row is the document of a
pick with the chosen documents under the labels of their hops (`run_joins`). What a path addresses
in a row is what it addresses in the documents of the pick (`resolve_row`), so the selection keeps
the picks for which all clauses hold.

Rows must be told apart from documents: labels must differ for different paths and must not stand in
the way of what the documents themselves hold (`Unambiguous`).
-/

namespace EntityGraph

/-! ## Rows -/

namespace Record

variable {α : Type}

/-- The record without some keys. -/
def without (keys : List String) (r : Record α) : Record α := r.filter fun e => e.1 ∉ keys

theorem without_cons (keys : List String) (k : String) (v : α) (r : Record α) :
    without keys ((k, v) :: r) = if k ∈ keys then without keys r else (k, v) :: without keys r := by
  unfold without
  rw [List.filter_cons]
  by_cases hk : k ∈ keys <;> simp [hk]

theorem without_put {keys : List String} {key : String} (hk : key ∈ keys) (r : Record α) (v : α) :
    without keys (put r key v) = without keys r := by
  induction r with
  | nil => rw [put, without_cons, if_pos hk]
  | cons e rest ih =>
    obtain ⟨k, w⟩ := e
    rw [put]
    by_cases h : k = key
    · rw [if_pos h, without_cons, without_cons, if_pos (h ▸ hk), if_pos (h ▸ hk)]
    · rw [if_neg h, without_cons, without_cons, ih]

theorem without_erase {keys : List String} {key : String} (hk : key ∈ keys) (r : Record α) :
    without keys (erase r key) = without keys r := by
  induction r with
  | nil => rfl
  | cons e rest ih =>
    obtain ⟨k, w⟩ := e
    rw [erase]
    by_cases h : k = key
    · rw [if_pos h, without_cons, if_pos (h ▸ hk), ih]
    · rw [if_neg h, without_cons, without_cons, ih]

theorem without_of_not_has {keys : List String} {r : Record α}
    (h : ∀ key ∈ keys, has r key = false) : without keys r = r := by
  refine List.filter_eq_self.2 fun e he => ?_
  refine decide_eq_true fun hk => ?_
  have hhas := (mem_keys_iff r e.1).1 (List.mem_map.2 ⟨e, he, rfl⟩)
  rw [h e.1 hk] at hhas
  cases hhas

end Record

/-- Note the choice at a hop in a row. -/
def markRow (view : Collections) (row : Document) (h : Hop) (o : Option Nat) : Document :=
  match o.bind fun j => (view.get h.collection).documents[j]? with
  | some e => Record.put row (labelOf h.path) (.object e)
  | none => Record.erase row (labelOf h.path)

/-- Note the choices at some hops in a row. -/
def markAll (view : Collections) : Document → List Hop → List (Option Nat) → Document
  | row, h :: hops, o :: chosen => markAll view (markRow view row h o) hops chosen
  | row, _, _ => row

/-- **The row of a pick**: the document with the chosen documents under the labels of their hops. -/
def rowOf (view : Collections) (roots : List Document) (hops : List Hop) (p : Pick) : Document :=
  markAll view (roots[p.root]?.getD []) hops p.chosen

section Rows

variable {view : Collections} {roots : List Document} {hops : List Hop} {h : Hop} {p : Pick}

theorem markAll_append {chosen : List (Option Nat)} (hlen : chosen.length = hops.length)
    (o : Option Nat) (row : Document) :
    markAll view row (hops ++ [h])
    (chosen ++ [o]) = markRow view (markAll view row hops chosen) h o := by
  induction hops generalizing chosen row with
  | nil =>
    obtain rfl := List.length_eq_zero_iff.1 hlen
    rfl
  | cons g rest ih =>
    cases chosen with
    | nil => cases hlen
    | cons o' chosen => exact ih (Nat.succ.inj hlen) _

theorem rowOf_choose (hlen : p.chosen.length = hops.length) (o : Option Nat) :
    rowOf view roots (hops ++ [h]) (p.choose o) = markRow view (rowOf view roots hops p) h o :=
  markAll_append hlen o _

theorem get?_markRow_of_ne (row : Document) (o : Option Nat) {key : String}
    (hk : labelOf h.path ≠ key) : Record.get? (markRow view row h o) key = Record.get? row key := by
  unfold markRow
  split
  · rw [Record.get?_put, if_neg hk]
  · rw [Record.get?_erase, if_neg hk]

theorem get?_markRow_self (row : Document) (o : Option Nat) :
    Record.get? (markRow view row h o) (labelOf h.path) =
      (o.bind fun j => (view.get h.collection).documents[j]?).map Value.object := by
  unfold markRow
  split
  · rename_i e he
    rw [he, Record.get?_put_self]
    rfl
  · rename_i he
    rw [he, Record.get?_erase, if_pos rfl]
    rfl

/-- A row holds the chosen documents under the labels, and everything else as it was. -/
theorem get?_markAll (hs : Hop.Ordered hops) (hl : Hop.DistinctLabels hops)
    {chosen : List (Option Nat)} (hlen : chosen.length = hops.length) (row : Document) :
    (∀ g ∈ hops, Record.get? (markAll view row hops chosen) (labelOf g.path) =
      (Pick.chosenAt view hops chosen g.path).map Value.object) ∧
    ∀ key, (∀ g ∈ hops, labelOf g.path ≠ key) →
      Record.get? (markAll view row hops chosen) key = Record.get? row key := by
  induction hs generalizing chosen with
  | nil => exact ⟨fun g hg => absurd hg List.not_mem_nil, fun _ _ => rfl⟩
  | @snoc hops h hs hne hnew hsource ih =>
    obtain ⟨init, o, rfl⟩ : ∃ init o, chosen = init ++ [o] := by
      rcases List.eq_nil_or_concat chosen with rfl | ⟨init, o, rfl⟩
      · simp at hlen
      · exact ⟨init, o, List.concat_eq_append⟩
    have hlen' : init.length = hops.length := by simpa using hlen
    obtain ⟨hlabels, hothers⟩ := ih (hl.mono fun g hg => List.mem_append_left _ hg) hlen'
    rw [markAll_append hlen']
    refine ⟨fun g hg => ?_, fun key hkey => ?_⟩
    · rw [Pick.chosenAt_append hlen']
      rcases List.mem_append.1 hg with hm | hm
      · have hpath : g.path ∈ Hop.paths hops := List.mem_map_of_mem hm
        have hne' : labelOf h.path ≠ labelOf g.path := fun heq => hnew <| by
          rw [hl h (List.mem_append_right _ (List.mem_singleton_self _)) g hg heq]
          exact hpath
        rw [if_pos hpath, get?_markRow_of_ne _ _ hne', hlabels g hm]
      · obtain rfl := List.mem_singleton.1 hm
        rw [if_neg hnew, if_pos rfl, get?_markRow_self]
    · rw [get?_markRow_of_ne _ _ (hkey h (List.mem_append_right _ (List.mem_singleton_self _)))]
      exact hothers key fun g hg => hkey g (List.mem_append_left _ hg)

theorem resolveSegments_nil (path : List String) : resolveSegments path [] = [] := by
  induction path with
  | nil => rfl
  | cons s rest ih => exact ih

theorem resolveSegments_cons (s : String) (rest : List String) (d : Document) :
    resolveSegments (s :: rest) [.object d] = resolveSegments rest (Record.get? d s).toList := by
  rw [resolveSegments, List.flatMap_singleton]
  rfl

/-- **What a path addresses in a row** is what it addresses in the documents of the pick. -/
theorem resolve_row (hs : Hop.Ordered hops) (hl : Hop.DistinctLabels hops)
    (hroot : p.root < roots.length) (hlen : p.chosen.length = hops.length) {hop path : List String}
    (hhop : hop = [] ∨ hop ∈ Hop.paths hops) (hpath : path ≠ [])
    (hclear : hop = [] → ∀ g ∈ hops, path.head? ≠ some (labelOf g.path)) :
    resolveSegments (rowPath hop path) [.object (rowOf view roots hops p)] =
      valuesAt (p.document view roots hops hop) path := by
  obtain ⟨hlabels, hothers⟩ := @get?_markAll view hops hs hl _ hlen (roots[p.root]?.getD [])
  unfold rowPath Pick.document
  by_cases hnil : hop = []
  · rw [if_pos hnil, if_pos hnil, List.getElem?_eq_getElem hroot, valuesAt]
    cases path with
    | nil => exact absurd rfl hpath
    | cons s rest =>
      have hs' := hothers s fun g hg heq => hclear hnil g hg (by rw [heq]; rfl)
      rw [resolveSegments_cons, resolveSegments_cons, rowOf, hs', List.getElem?_eq_getElem hroot]
      rfl
  · obtain ⟨g, hg, rfl⟩ := List.mem_map.1 (hhop.resolve_left hnil)
    rw [if_neg hnil, if_neg hnil, resolveSegments_cons, rowOf, hlabels g hg]
    rcases Pick.chosenAt view hops p.chosen g.path with _ | e
    · exact resolveSegments_nil path
    · rfl

end Rows

/-! ## Joins -/

section Joins

variable {view : Collections} {roots : List Document} {hops : List Hop} {h : Hop} {p : Pick}

/-- The documents that satisfy a test, by their numbers. -/
theorem filter_eq_map_numbersOf {β : Type} {test : Document → Bool} {docs : List Document}
    {f : Document → β} {g : Nat → β} (hfg : ∀ e j, docs[j]? = some e → f e = g j) :
    (docs.filter test).map f = (numbersOf test docs).map g := by
  unfold numbersOf
  have hzip : docs.filter test = (docs.zipIdx.filter fun e => test e.1).map Prod.fst := by
    conv_lhs => rw [← List.zipIdx_map_fst 0 docs, List.filter_map]
    rfl
  rw [hzip, List.map_map, List.map_map]
  refine List.map_congr_left fun e he => ?_
  exact hfg e.1 e.2 (List.mem_zipIdx_iff_getElem?.1 (List.mem_filter.1 he).1)

theorem unwindOne_put (label : String) (row : Document) (items : List Value) :
    unwindOne label true (Record.put row label (.list items)) =
      match items with
      | [] => [Record.erase row label]
      | items => items.map fun v => Record.put row label v := by
  unfold unwindOne
  rw [Record.get?_put_self]
  cases items with
  | nil =>
    change [Record.erase (Record.put row label _) label] = _
    rw [Record.erase_put]
  | cons v rest =>
    refine List.map_congr_left fun w _ => ?_
    exact Record.put_put ..

/-- Joining a row and unwinding it notes each choice at the hop. Without a match the row is kept
without the label, as for the choice of none. -/
theorem unwindOne_lookupOne (row : Document) (localPath : String) :
    unwindOne (labelOf h.path) true (lookupOne (view.get h.collection).documents localPath
      h.foreignField (labelOf h.path) row) =
      (choicesAmong (numbersOf (joins (flatten (resolve row localPath)) h.foreignField)
        (view.get h.collection).documents)).map (markRow view row h) := by
  have hitems : ((view.get h.collection).documents.filter
      (joins (flatten (resolve row localPath)) h.foreignField)).map
        (fun e => Record.put row (labelOf h.path) (.object e)) =
      (numbersOf (joins (flatten (resolve row localPath)) h.foreignField)
        (view.get h.collection).documents).map fun j => markRow view row h (some j) :=
    filter_eq_map_numbersOf fun e j hj => by rw [markRow, Option.bind_some, hj]
  unfold lookupOne
  rw [unwindOne_put]
  revert hitems
  generalize (view.get h.collection).documents.filter
    (joins (flatten (resolve row localPath)) h.foreignField) = matched
  generalize numbersOf (joins (flatten (resolve row localPath)) h.foreignField)
    (view.get h.collection).documents = js
  intro hitems
  cases matched with
  | nil =>
    obtain rfl := List.map_eq_nil_iff.1 hitems.symm
    rfl
  | cons e rest =>
    cases js with
    | nil => cases hitems
    | cons j js =>
      rw [choicesAmong, List.map_map]
      · exact (List.map_map ..).trans hitems
      · exact List.cons_ne_nil _ _

/-- What a join reads on the near side of a hop. A label has no dot, so that the local path is cut
where it was joined. -/
theorem resolve_join (hs : Hop.Ordered hops) (hl : Hop.DistinctLabels hops)
    (hp : p.Valid view roots hops) (hlegible : IsLegible h.path)
    (hpath : ∃ name, h.path = h.source ++ h.inside ++ [name])
    (hsource : h.source = [] ∨ h.source ∈ Hop.paths hops)
    (hclear : h.source = [] → ∀ g ∈ hops,
      (h.inside ++ Text.segments h.localField).head? ≠ some (labelOf g.path)) :
    resolve (rowOf view roots hops p) h.join.localPath = p.sources view roots hops h := by
  obtain ⟨name, hname⟩ := hpath
  have hsegments : ∀ s ∈ rowPath h.source h.inside, IsSegment s := by
    have hmem : ∀ s ∈ h.source ++ h.inside, IsSegment s := fun s hs =>
      hlegible.1 s (by rw [hname]; exact List.mem_append_left _ hs)
    intro s hm
    unfold rowPath at hm
    split at hm
    · exact hmem s (List.mem_append_right _ hm)
    · rcases List.mem_cons.1 hm with rfl | hm
      · exact isSegment_labelOf fun t ht => hmem t (List.mem_append_left _ ht)
      · exact hmem s (List.mem_append_right _ hm)
  have hne : h.inside ++ Text.segments h.localField ≠ [] := fun hnil =>
    segments_ne_nil h.localField (List.append_eq_nil_iff.1 hnil).2
  unfold resolve Hop.join Pick.sources
  rw [segments_dotted hsegments, ← rowPath_append,
    resolve_row hs hl hp.root hp.chosen.length_eq.symm hsource hne hclear]

/-- **Joining a row and unwinding it** goes on with its pick in every way. -/
theorem rows_extend (hp : p.Valid view roots hops)
    (hread : resolve (rowOf view roots hops p) h.join.localPath = p.sources view roots hops h) :
    unwindOne (labelOf h.path) true (lookupOne (view.get h.collection).documents h.join.localPath
      h.foreignField (labelOf h.path) (rowOf view roots hops p)) =
      (p.extend view roots hops h).map (rowOf view roots (hops ++ [h])) := by
  have hlen : p.chosen.length = hops.length := hp.chosen.length_eq.symm
  rw [unwindOne_lookupOne, hread, Pick.extend, List.map_map]
  refine List.map_congr_left fun o _ => ?_
  exact (rowOf_choose hlen o).symm

theorem lookupStage_join (j : Join) (docs : List Document) :
    runStage view "$lookup" (.object [("from", .text j.source),
      ("foreignField", .text j.foreignPath), ("localField", .text j.localPath),
        ("as", .text j.label)]) docs =
      .ok (docs.map (lookupOne (view.get j.source).documents j.localPath j.foreignPath j.label))
        := by
  rcases hdocs : docs with _ | ⟨d, rest⟩
  · rfl
  · rcases hforeign : (view.get j.source).documents with _ | ⟨e, others⟩
    · simp [runStage, lookupStage, entryText, Record.get?_cons, Value.isKey, hforeign, lookupOne]
      rfl
    · simp [runStage, lookupStage, entryText, Record.get?_cons, Value.isKey, hforeign]
      rfl

theorem unwindStage_join {label : String} (hlabel : ¬ IsSigned label) (docs : List Document) :
    runStage view "$unwind" (.object [("path", .text ("$" ++ label)),
      ("preserveNullAndEmptyArrays", .bool true)]) docs =
      .ok (docs.flatMap (unwindOne label true)) := by
  simp [runStage, unwindStage, entryText, Record.get?_cons, Value.truthy, dropSigns_sign hlabel]
  rfl

/-- The stages of a join. -/
def Join.stages (j : Join) : List Stage :=
  [.lookup j.source j.foreignPath j.localPath j.label, .unwind j.label]

theorem runStages_join (j : Join) (hlabel : ¬ IsSigned j.label) (rest : List Value)
    (docs : List Document) : runStages view (j.stages.map Stage.toValue ++ rest) docs =
      runStages view rest ((docs.map (lookupOne (view.get j.source).documents j.localPath
        j.foreignPath j.label)).flatMap (unwindOne j.label true)) := by
  change (runStage view "$lookup" _ docs >>= fun docs =>
    runStage view "$unwind" _ docs >>= runStages view rest) = _
  simp only [lookupStage_join j, unwindStage_join hlabel]
  rfl

/-- What hops ask of the names that they go by: they can be read off their labels, and no label
stands in the way of what a hop reads in the document itself. -/
structure Hop.Readable (hops : List Hop) : Prop where
  labels : DistinctLabels hops
  legible : ∀ h ∈ hops, IsLegible h.path ∧ ∃ name, h.path = h.source ++ h.inside ++ [name]
  clear : ∀ h ∈ hops, h.source = [] → ∀ g ∈ hops,
    (h.inside ++ Text.segments h.localField).head? ≠ some (labelOf g.path)

/-- What hops ask of their names when they are joined in order: no label stands in the way of what a
later hop reads in the document itself. -/
structure Hop.Joinable (hops : List Hop) : Prop where
  labels : DistinctLabels hops
  legible : ∀ h ∈ hops, IsLegible h.path ∧ ∃ name, h.path = h.source ++ h.inside ++ [name]
  clear : ∀ before h after, hops = before ++ h :: after → h.source = [] → ∀ g ∈ before,
    (h.inside ++ Text.segments h.localField).head? ≠ some (labelOf g.path)

theorem Hop.Readable.joinable (hr : Readable hops) : Joinable hops where
  labels := hr.labels
  legible := hr.legible
  clear := fun before h after heq hnil g hg => by
    subst heq
    exact hr.clear h (List.mem_append_right _ (List.mem_cons_self ..)) hnil g
      (List.mem_append_left _ hg)

/-- Hops that can be joined can be joined up to each of them. -/
theorem Hop.Joinable.init (hj : Joinable (hops ++ [h])) : Joinable hops where
  labels := hj.labels.mono fun _ hg => List.mem_append_left _ hg
  legible := fun g hg => hj.legible g (List.mem_append_left _ hg)
  clear := fun before g after heq => hj.clear before g (after ++ [h]) (by rw [heq]; simp)

theorem not_isSigned_labelOf {path : List String} (h : IsLegible path) (hne : path ≠ []) :
    ¬ IsSigned (labelOf path) := by
  cases path with
  | nil => exact absurd rfl hne
  | cons s rest => exact not_isSigned_join ⟨'_', [], rfl, by decide⟩ (h.2 s rfl) rest

/-- The rows without joins are the documents. -/
theorem rows_nil : (picksOver view roots []).map (rowOf view roots []) = roots := by
  refine List.ext_getElem (by simp [picksOver, picksFrom]) fun i hi hi' => ?_
  simp [picksOver, picksFrom, rowOf, markAll, List.getElem?_eq_getElem hi']

/-- **The rows after joins** are those of the valid picks. The rows before the last join are those
of the picks before, and the join extends them. -/
theorem run_joins (hs : Hop.Ordered hops) (hj : Hop.Joinable hops) (rest : List Value) :
    runStages view ((hops.flatMap fun h => h.join.stages).map Stage.toValue ++ rest) roots =
      runStages view rest ((picksOver view roots hops).map (rowOf view roots hops)) := by
  induction hs generalizing rest with
  | nil => rw [rows_nil]; rfl
  | @snoc hops h hs hne hnew hsource ih =>
    have hlast : h ∈ hops ++ [h] := List.mem_append_right _ (List.mem_singleton_self _)
    obtain ⟨hlegible, hpath⟩ := hj.legible h hlast
    have hrows : (((picksOver view roots hops).map (rowOf view roots hops)).map
        (lookupOne (view.get h.collection).documents h.join.localPath h.foreignField
          (labelOf h.path))).flatMap (unwindOne (labelOf h.path) true) =
        (picksOver view roots (hops ++ [h])).map (rowOf view roots (hops ++ [h])) := by
      rw [picksOver_append, List.map_flatMap, List.flatMap_map, List.flatMap_map]
      refine List.flatMap_congr fun p hp => ?_
      have hvalid := (mem_picksOver hs).1 hp
      exact rows_extend hvalid <| resolve_join hs hj.init.labels hvalid hlegible hpath hsource
        (hj.clear hops h [] rfl)
    rw [List.flatMap_append, List.map_append, List.append_assoc, ih hj.init,
      List.flatMap_singleton, runStages_join _ (not_isSigned_labelOf hlegible hne), ← hrows]
    rfl

end Joins

/-! ## Selection -/

namespace Pick

variable (view : Collections) (roots : List Document)

/-- Do all clauses hold of a pick? -/
def satisfies (hops : List Hop) (cs : List Clause) (p : Pick) : Bool :=
  cs.all fun c => (conditionHolds (valuesAt (p.document view roots hops c.hop) c.path)
    c.condition).toOption.getD false

/-- A clause that cannot be asked of a pick. -/
def Fails (hops : List Hop) (p : Pick) (c : Clause) (f : Fault) : Prop :=
  conditionHolds (valuesAt (p.document view roots hops c.hop) c.path) c.condition = .error f

end Pick

/-- **The answers to clauses**: the valid picks of which all clauses hold. -/
def answers (view : Collections) (roots : List Document) (cs : List Clause) : List Pick :=
  (picksOver view roots (Hop.used cs)).filter (Pick.satisfies view roots (Hop.used cs) cs)

/-- **Clauses whose rows can be told apart from documents**: different paths have different labels,
no document has a label among its own names, and what clauses and hops read in the document itself
does not start at a label. -/
structure Unambiguous (cs : List Clause) (roots : List Document) : Prop where
  labels : Hop.DistinctLabels (cs.flatMap Clause.hops)
  stored : ∀ h ∈ Hop.used cs, ∀ d ∈ roots, Record.has d (labelOf h.path) = false
  hops : ∀ h ∈ Hop.used cs, h.source = [] → ∀ g ∈ Hop.used cs,
    (h.inside ++ Text.segments h.localField).head? ≠ some (labelOf g.path)
  clauses : ∀ c ∈ cs, c.hop = [] → ∀ g ∈ Hop.used cs, c.path.head? ≠ some (labelOf g.path)

section Selection

variable {view : Collections} {roots : List Document} {hops : List Hop} {cs : List Clause}
  {p : Pick}

theorem satisfies_iff :
    p.satisfies view roots hops cs = true ↔ ∀ c ∈ cs, p.Holds view roots hops c := by
  unfold Pick.satisfies Pick.Holds
  rw [List.all_eq_true]
  refine forall_congr' fun c => imp_congr_right fun _ => ?_
  rcases conditionHolds (valuesAt (p.document view roots hops c.hop) c.path) c.condition with
    f | b
  · exact ⟨fun h => (Bool.false_ne_true h).elim, fun h => nomatch h⟩
  · exact ⟨fun h => congrArg Except.ok h, fun h => Except.ok.inj h⟩

/-- How a selection ends: it keeps what matches, unless something cannot be asked. -/
theorem matching_map {α : Type} {row : α → Document} {keep : α → Bool} {query : Value} {xs : List α}
    (h : ∀ x ∈ xs, matchesQuery (row x) query = .ok (keep x) ∨
      ∃ f, matchesQuery (row x) query = .error f) :
    matching query (xs.map row) = .ok ((xs.filter keep).map row) ∨
      ∃ f, matching query (xs.map row) = .error f ∧ ∃ x ∈ xs,
        matchesQuery (row x) query = .error f := by
  induction xs with
  | nil => exact .inl rfl
  | cons x rest ih =>
    rw [List.map_cons, matching]
    rcases h x (List.mem_cons_self ..) with hx | ⟨f, hx⟩
    · rw [hx]
      rcases ih fun y hy => h y (List.mem_cons_of_mem _ hy) with hrest | ⟨f, hrest, y, hy, hf⟩
      · refine .inl ?_
        rw [hrest, List.filter_cons]
        cases keep x <;> rfl
      · rw [hrest]
        exact .inr ⟨f, rfl, y, List.mem_cons_of_mem _ hy, hf⟩
    · rw [hx]
      exact .inr ⟨f, rfl, x, List.mem_cons_self .., hx⟩

/-- Names without dots make a path without dots in a row. -/
theorem isSegment_rowPath_of_names {hop path : List String} (h : ∀ s ∈ hop ++ path, IsSegment s) :
    ∀ s ∈ rowPath hop path, IsSegment s := by
  intro s hs
  unfold rowPath at hs
  split at hs
  · exact h s (List.mem_append_right _ hs)
  · rcases List.mem_cons.1 hs with rfl | hs
    · exact isSegment_labelOf fun t ht => h t (List.mem_append_left _ ht)
    · exact h s (List.mem_append_right _ hs)

/-- The segments that a clause leads a row through. -/
theorem isSegment_rowPath {c : Clause} (hc : c.Legible) : ∀ s ∈ rowPath c.hop c.path, IsSegment s :=
  isSegment_rowPath_of_names hc.path.1

/-- What a clause asks of a row it asks of the documents of the pick. -/
theorem resolve_clause (hs : Hop.Ordered hops) (hl : Hop.DistinctLabels hops)
    (hp : p.Valid view roots hops) {c : Clause} (hc : c.Legible) (hne : c.path ≠ [])
    (hhop : c.hop = [] ∨ c.hop ∈ Hop.paths hops)
    (hclear : c.hop = [] → ∀ g ∈ hops, c.path.head? ≠ some (labelOf g.path)) :
    resolve (rowOf view roots hops p) (dotted (rowPath c.hop c.path)) =
      valuesAt (p.document view roots hops c.hop) c.path := by
  have hrow : rowPath c.hop c.path ≠ [] := by
    unfold rowPath
    split
    · exact hne
    · exact List.cons_ne_nil _ _
  rw [resolve, segments_dotted_of_isSegment hrow (isSegment_rowPath hc)]
  exact resolve_row hs hl hp.root hp.chosen.length_eq.symm hhop hne hclear

/-- The key of a condition does not combine queries. -/
theorem not_isCombinator_rowPath {c : Clause} (hc : c.Legible) (hne : c.path ≠ []) :
    ¬ IsCombinator (dotted (rowPath c.hop c.path)) := by
  have hsign : ¬ IsSigned (dotted (rowPath c.hop c.path)) := by
    have hhead := hc.path.2
    unfold rowPath
    split
    · rename_i hnil
      cases hpath : c.path with
      | nil => exact absurd hpath hne
      | cons s rest =>
        refine not_isSigned_join ⟨'.', [], rfl, by decide⟩ (hhead s ?_) rest
        rw [hnil, hpath]
        rfl
    · rename_i hnil
      refine not_isSigned_join ⟨'.', [], rfl, by decide⟩ ?_ c.path
      refine not_isSigned_labelOf ⟨fun s hs => hc.path.1 s (List.mem_append_left _ hs), ?_⟩ hnil
      cases hhop : c.hop with
      | nil => exact absurd hhop hnil
      | cons s rest =>
        intro t ht
        refine hhead t ?_
        rw [hhop]
        exact ht
  rintro (hkey | hkey) <;> rw [hkey] at hsign <;> exact hsign rfl

/-- **Matching a row** asks the clauses of its pick. -/
theorem matchesQuery_row {query : Document} (hq : ∀ e ∈ query, IsPlanned e)
    (hmem : ∀ e, e ∈ conditionsOf query ↔
      ∃ c ∈ cs, e = (dotted (rowPath c.hop c.path), c.condition))
    (hread : ∀ c ∈ cs, resolve (rowOf view roots hops p) (dotted (rowPath c.hop c.path)) =
      valuesAt (p.document view roots hops c.hop) c.path) :
    matchesQuery (rowOf view roots hops p) (.object query) =
        .ok (p.satisfies view roots hops cs) ∨
      ∃ f, matchesQuery (rowOf view roots hops p) (.object query) = .error f ∧
        ∃ c ∈ cs, p.Fails view roots hops c f := by
  rw [matchesQuery, matchesAll_eq _ hq]
  rcases allHold_cases (rowOf view roots hops p) (conditionsOf query) with
    ⟨hall, hyes⟩ | ⟨hall, e, he, hno⟩ | ⟨f, hall, e, he, hf⟩
  · refine .inl ?_
    rw [hall, satisfies_iff.2]
    intro c hc
    have hasked := hyes _ ((hmem _).2 ⟨c, hc, rfl⟩)
    rwa [hread c hc] at hasked
  · obtain ⟨c, hc, rfl⟩ := (hmem e).1 he
    rw [hread c hc] at hno
    have hnot : p.satisfies view roots hops cs = false := Bool.eq_false_iff.2 fun hsat => by
      have hasked := satisfies_iff.1 hsat c hc
      rw [Pick.Holds, hno] at hasked
      cases hasked
    exact .inl (by rw [hall, hnot])
  · obtain ⟨c, hc, rfl⟩ := (hmem e).1 he
    rw [hread c hc] at hf
    exact .inr ⟨f, hall, c, hc, hf⟩

end Selection

/-! ## Answers -/

section Answers

variable {view : Collections} {roots : List Document} {cs : List Clause} {p : Pick}

theorem without_markAll {keys : List String} {hops : List Hop}
    (hkeys : ∀ h ∈ hops, labelOf h.path ∈ keys) (chosen : List (Option Nat)) (row : Document) :
    Record.without keys (markAll view row hops chosen) = Record.without keys row := by
  induction hops generalizing chosen row with
  | nil => rfl
  | cons h rest ih =>
    cases chosen with
    | nil => rfl
    | cons o chosen =>
      rw [markAll, ih fun g hg => hkeys g (List.mem_cons_of_mem _ hg), markRow]
      have hkey := hkeys h (List.mem_cons_self ..)
      split
      · exact Record.without_put hkey row _
      · exact Record.without_erase hkey row

/-- The labels of the hops that clauses use. -/
def labelsOf (cs : List Clause) : List String := (Hop.used cs).map fun h => labelOf h.path

/-- A row without its labels is the document of its pick. -/
theorem without_rowOf (hstored : ∀ h ∈ Hop.used cs, ∀ d ∈ roots,
    Record.has d (labelOf h.path) = false) (hroot : p.root < roots.length) :
    Record.without (labelsOf cs) (rowOf view roots (Hop.used cs) p) = roots[p.root] := by
  have hkeys : ∀ h ∈ Hop.used cs, labelOf h.path ∈ labelsOf cs := fun h hh =>
    List.mem_map.2 ⟨h, hh, rfl⟩
  rw [rowOf, without_markAll hkeys, List.getElem?_eq_getElem hroot]
  refine Record.without_of_not_has fun key hkey => ?_
  obtain ⟨h, hh, rfl⟩ := List.mem_map.1 hkey
  exact hstored h hh _ (List.getElem_mem hroot)

theorem mem_answers (hsound : ∀ c ∈ cs, c.Sound []) : p ∈ answers view roots cs ↔
    p.Valid view roots (Hop.used cs) ∧ ∀ c ∈ cs, p.Holds view roots (Hop.used cs) c := by
  unfold answers
  rw [List.mem_filter, mem_picksOver (Hop.ordered_used hsound).1, satisfies_iff]

/-- The rows of answers without their labels are the documents of the answers. -/
theorem map_without_rowOf (hsound : ∀ c ∈ cs, c.Sound [])
    (hstored : ∀ h ∈ Hop.used cs, ∀ d ∈ roots, Record.has d (labelOf h.path) = false) :
    ((answers view roots cs).map (rowOf view roots (Hop.used cs))).map
      (Record.without (labelsOf cs)) = (answers view roots cs).filterMap fun p =>
        roots[p.root]? := by
  rw [List.map_map, ← List.filterMap_eq_map]
  refine List.filterMap_congr fun p hp => ?_
  have hroot := ((mem_answers hsound).1 hp).1.root
  rw [List.getElem?_eq_getElem hroot]
  exact congrArg some (without_rowOf hstored hroot)

theorem used_subset : ∀ h ∈ Hop.used cs, h ∈ cs.flatMap Clause.hops := fun h hh => by
  simpa using Hop.mem_foldl_enter hh

/-- The names of clauses that are legible and unambiguous do not stand in the way of their hops. -/
theorem Unambiguous.readable (hu : Unambiguous cs roots) (hlegible : ∀ c ∈ cs, c.Legible) :
    Hop.Readable (Hop.used cs) := by
  refine ⟨hu.labels.mono used_subset, fun h hh => ?_, hu.hops⟩
  obtain ⟨c, hc, hm⟩ := List.mem_flatMap.1 (used_subset h hh)
  exact (hlegible c hc).hops h hm

/-- **The selection after the joins** keeps the answers, if no label stands in the way of what the
clauses read in the document itself. -/
theorem run_select_of_joinable (hlabels : Hop.DistinctLabels (cs.flatMap Clause.hops))
    (hj : Hop.Joinable (Hop.used cs))
    (hclauses : ∀ c ∈ cs, c.hop = [] → ∀ g ∈ Hop.used cs, c.path.head? ≠ some (labelOf g.path))
    (hsound : ∀ c ∈ cs, c.Sound []) (hlegible : ∀ c ∈ cs, c.Legible) (rest : List Value) :
    runStages view ((cs.foldl Plan.addClause .empty).stages.map Stage.toValue ++ rest) roots =
        runStages view rest ((answers view roots cs).map (rowOf view roots (Hop.used cs))) ∨
      ∃ f,
        runStages view ((cs.foldl Plan.addClause .empty).stages.map Stage.toValue ++ rest) roots =
          .error f ∧ ∃ p : Pick, p.Valid view roots (Hop.used cs) ∧
          ∃ c ∈ cs, p.Fails view roots (Hop.used cs) c f := by
  obtain ⟨hordered, hhops⟩ := Hop.ordered_used hsound
  have hjoins : (cs.foldl Plan.addClause .empty).joins = (Hop.used cs).map Hop.join :=
    @Plan.joins_foldl_addClause cs [] .empty rfl hlabels
  obtain ⟨hplanned, hmem⟩ := @Plan.planned_foldl_addClause cs .empty
    (fun e he => absurd he List.not_mem_nil) fun c hc =>
      not_isCombinator_rowPath (hlegible c hc) (hsound c hc).2.2
  have hmem : ∀ e, e ∈ conditionsOf (cs.foldl Plan.addClause .empty).query ↔
      ∃ c ∈ cs, e = (dotted (rowPath c.hop c.path), c.condition) := fun e => by
    rw [hmem e]
    simp [Plan.empty, conditionsOf]
  have hasks : ∀ p ∈ picksOver view roots (Hop.used cs),
      matchesQuery (rowOf view roots (Hop.used cs) p)
          (.object (cs.foldl Plan.addClause .empty).query) =
        .ok (p.satisfies view roots (Hop.used cs) cs) ∨
      ∃ f, matchesQuery (rowOf view roots (Hop.used cs) p)
          (.object (cs.foldl Plan.addClause .empty).query) = .error f ∧
        ∃ c ∈ cs, p.Fails view roots (Hop.used cs) c f := fun p hp =>
    matchesQuery_row hplanned hmem fun c hc =>
      resolve_clause hordered hj.labels ((mem_picksOver hordered).1 hp) (hlegible c hc)
        (hsound c hc).2.2 (hhops c hc) (hclauses c hc)
  have hstages : (cs.foldl Plan.addClause .empty).stages =
      ((Hop.used cs).flatMap fun h => h.join.stages) ++
        if (cs.foldl Plan.addClause .empty).query.isEmpty then []
        else [.select (cs.foldl Plan.addClause .empty).query] := by
    rw [Plan.stages, hjoins, List.flatMap_map]
    rfl
  rw [hstages, List.map_append, List.append_assoc, run_joins hordered hj]
  split
  · rename_i hempty
    rw [List.isEmpty_iff.1 hempty] at hmem
    have hnil : cs = [] := List.eq_nil_iff_forall_not_mem.2 fun c hc => by
      have hin := (hmem _).2 ⟨c, hc, rfl⟩
      cases hin
    have hall : answers view roots cs = picksOver view roots (Hop.used cs) := by
      refine List.filter_eq_self.2 fun p _ => satisfies_iff.2 fun c hc => ?_
      rw [hnil] at hc
      cases hc
    rw [hall]
    exact .inl rfl
  · have hrun : ∀ docs, runStages view
        (([Stage.select (cs.foldl Plan.addClause .empty).query]).map Stage.toValue ++ rest) docs =
        (matching (.object (cs.foldl Plan.addClause .empty).query) docs >>=
          runStages view rest) := fun _ => rfl
    rw [hrun]
    have hends : ∀ p ∈ picksOver view roots (Hop.used cs),
        matchesQuery (rowOf view roots (Hop.used cs) p)
            (.object (cs.foldl Plan.addClause .empty).query) =
          .ok (p.satisfies view roots (Hop.used cs) cs) ∨
        ∃ f, matchesQuery (rowOf view roots (Hop.used cs) p)
          (.object (cs.foldl Plan.addClause .empty).query) = .error f := by
      intro p hp
      rcases hasks p hp with hok | ⟨f, hf, -⟩
      · exact .inl hok
      · exact .inr ⟨f, hf⟩
    rcases matching_map hends with hmatch | ⟨f, hmatch, p, hp, hf⟩
    · rw [hmatch]
      exact .inl rfl
    · rw [hmatch]
      refine .inr ⟨f, rfl, p, (mem_picksOver hordered).1 hp, ?_⟩
      rcases hasks p hp with hok | ⟨f', hf', hc⟩
      · rw [hok] at hf
        cases hf
      · rw [hf'] at hf
        cases hf
        exact hc

/-- Unambiguous clauses select their answers. -/
theorem run_select (hu : Unambiguous cs roots) (hsound : ∀ c ∈ cs, c.Sound [])
    (hlegible : ∀ c ∈ cs, c.Legible) (rest : List Value) :
    runStages view ((cs.foldl Plan.addClause .empty).stages.map Stage.toValue ++ rest) roots =
        runStages view rest ((answers view roots cs).map (rowOf view roots (Hop.used cs))) ∨
      ∃ f,
        runStages view ((cs.foldl Plan.addClause .empty).stages.map Stage.toValue ++ rest) roots =
          .error f ∧ ∃ p : Pick, p.Valid view roots (Hop.used cs) ∧
          ∃ c ∈ cs, p.Fails view roots (Hop.used cs) c f :=
  run_select_of_joinable hu.labels (hu.readable hlegible).joinable hu.clauses hsound hlegible rest

/-- Cuts that are wide enough keep all rows. -/
theorem run_cuts {limit : Int} {docs : List Document} (h : docs.length ≤ limit) :
    runStages view ([Stage.limit limit, .skip 0].map Stage.toValue) docs = .ok docs := by
  have hposition : position limit docs.length = limit.toNat := if_neg (by omega)
  have htake : docs.take (position limit docs.length) = docs :=
    List.take_of_length_le (by omega)
  change (Except.ok (docs.take (position limit docs.length)) >>= fun docs =>
    (Except.ok (docs.drop (position 0 docs.length)) : Outcome _) >>= runStages view []) = _
  rw [htake]
  rfl

/-- The stages of a list without order, and the clauses that they come from. -/
theorem listPipeline_cases {r : Registry} {d : Descriptor} {args : ListArguments}
    {defaultLimit : Int} {stages : List Stage} (h : listPipeline r defaultLimit d args = .ok stages)
    (hsort : ∀ terms, args.sort = some terms → terms = []) :
    ∃ cs, Clause.ofFilters? r d.entity args.filters = some cs ∧
      (stages = [] ∧ cs = [] ∨ stages =
        (cs.foldl Plan.addClause .empty).stages ++ cuts defaultLimit args.pagination) := by
  unfold listPipeline at h
  split at h
  · rename_i hempty
    cases h
    simp only [ListArguments.isEmpty, Bool.and_eq_true, List.isEmpty_iff] at hempty
    rw [hempty.1.1]
    exact ⟨[], rfl, .inl ⟨rfl, rfl⟩⟩
  · obtain ⟨plan, hplan, h⟩ := bind_eq_ok h
    obtain ⟨cs, hcs, rfl⟩ := planFilters_eq hplan
    refine ⟨cs, hcs, .inr ?_⟩
    rcases hterms : args.sort with _ | terms
    · rw [hterms] at h
      cases h
      rw [List.append_nil]
    · obtain rfl := hsort terms hterms
      rw [hterms] at h
      cases h
      rw [List.append_nil]

/-- **Lists answer their filters.** A compiled list without order, whose page starts at the
beginning and is large enough, gives one row for each valid pick of which all clauses of the filters
hold, and the row without its labels is the document of the pick. It fails only where a clause
cannot be asked of some valid pick. -/
theorem list_answers {r : Registry} {d : Descriptor} {args : ListArguments}
    {defaultLimit limit : Int} {stages : List Stage}
    (hstages : listPipeline r defaultLimit d args = .ok stages)
    (hsort : ∀ terms, args.sort = some terms → terms = [])
    (hpage : cuts defaultLimit args.pagination = [.limit limit, .skip 0])
    (hnames : ∀ name ∈ Record.keys args.filters, IsLegible [name]) :
    ∃ cs, Clause.ofFilters? r d.entity args.filters = some cs ∧
      ∀ (s : MemoryStore) (roots : List Document), s.documents d.collection = roots →
        Unambiguous cs roots → (answers s.collections roots cs).length ≤ limit →
        (answers s.collections roots cs).Nodup ∧
        (∀ p, p ∈ answers s.collections roots cs ↔
          p.Valid s.collections roots (Hop.used cs) ∧
            ∀ c ∈ cs, p.Holds s.collections roots (Hop.used cs) c) ∧
        match (MemoryStore.runPipeline d.collection (stages.map Stage.toValue) none).run.run s with
        | (.ok rows, s') => s' = s ∧ rows.map (Record.without (labelsOf cs)) =
            (answers s.collections roots cs).filterMap fun p => roots[p.root]?
        | (.error f, s') => s' = s ∧ ∃ p : Pick, p.Valid s.collections roots (Hop.used cs) ∧
            ∃ c ∈ cs, p.Fails s.collections roots (Hop.used cs) c f := by
  obtain ⟨cs, hcs, hcases⟩ := listPipeline_cases hstages hsort
  refine ⟨cs, hcs, fun s roots hroots hu hlimit => ?_⟩
  have hsound := Clause.sound_ofFilters? hcs
  have hlegible := Clause.legible_ofFilters? hnames hcs
  refine ⟨(nodup_picksOver (Hop.ordered_used hsound).1).filter _, fun p => mem_answers hsound, ?_⟩
  have hrun : ∀ pipeline, (MemoryStore.runPipeline d.collection pipeline none).run.run s =
      (runStages s.collections pipeline roots, s) := fun pipeline => by
    rw [← hroots]
    rfl
  rw [hrun]
  have hrows := @map_without_rowOf s.collections roots cs hsound hu.stored
  rcases hcases with ⟨rfl, rfl⟩ | rfl
  · have hall : (answers s.collections roots []).map (rowOf s.collections roots []) = roots := by
      have hkeep : answers s.collections roots [] = picksOver s.collections roots [] :=
        List.filter_eq_self.2 fun p _ => rfl
      rw [hkeep, rows_nil]
    refine ⟨rfl, ?_⟩
    rw [← hrows]
    exact congrArg _ hall.symm
  · rw [hpage, List.map_append]
    rcases @run_select s.collections roots cs hu hsound hlegible
        ([Stage.limit limit, .skip 0].map Stage.toValue) with hok | ⟨f, hf, hfails⟩
    · rw [hok, run_cuts (by rwa [List.length_map])]
      exact ⟨rfl, hrows⟩
    · rw [hf]
      exact ⟨rfl, hfails⟩

end Answers

/-- Books have a title and an author. -/
def bookDescriptor : Descriptor :=
  ⟨⟨"Book", [⟨"title", .scalar .string, false, true, false, false, none, .null⟩,
    ⟨"author", .entity "Author", false, true, false, false, some ⟨false, "writer", .null⟩, .null⟩],
    .null, by decide⟩, "books", some "book", some "books", none, true, none, []⟩

/-- Authors have a name. -/
def authorDescriptor : Descriptor :=
  ⟨⟨"Author", [⟨"name", .scalar .string, false, true, false, false, none, .null⟩],
    .null, by decide⟩, "authors", some "author", some "authors", none, true, none, []⟩

/-- The registry of books and authors. -/
def shelf : Registry := ⟨[("Book", bookDescriptor), ("Author", authorDescriptor)], [], true⟩

/-- A book by an author, and a book whose author is not there. -/
def shelfStore : MemoryStore := { MemoryStore.empty with
  collections := [
    ("books", [(.int 1, [("_id", .int 1), ("title", .text "Notes"), ("writer", .int 7)]),
      (.int 2, [("_id", .int 2), ("title", .text "Letters"), ("writer", .int 8)])]),
    ("authors", [(.int 7, [("_id", .int 7), ("name", .text "Ada")])])] }

/-- The list of books whose author is not named Bob. -/
def notByBob : ListArguments :=
  ⟨[("author", .expression [⟨⟨some .ne, .text "Bob"⟩, "name"⟩])], none, none⟩

/-- What the list asks: that a name is not Bob, after the hop to the author. -/
def notByBobClauses : List Clause :=
  [⟨[⟨["author"], [], [], "writer", "authors", "_id"⟩], ["author"], ["name"],
    .object [("$ne", .text "Bob")]⟩]

/-- Both books answer, the second without an author. -/
theorem shelf_answers : ∃ stages rows,
    listPipeline shelf standardLimit bookDescriptor notByBob = .ok stages ∧
    Clause.ofFilters? shelf bookDescriptor.entity notByBob.filters = some notByBobClauses ∧
    Unambiguous notByBobClauses (shelfStore.documents "books") ∧
    answers shelfStore.collections (shelfStore.documents "books") notByBobClauses =
      [⟨0, [some 0]⟩, ⟨1, [none]⟩] ∧
    (MemoryStore.runPipeline "books" (stages.map Stage.toValue) none).run.run shelfStore =
      (.ok rows, shelfStore) ∧
    rows.map (Record.without ["author"]) = shelfStore.documents "books" := by
  obtain ⟨stages, hstages⟩ :
      ∃ stages, listPipeline shelf standardLimit bookDescriptor notByBob = .ok stages := ⟨_, rfl⟩
  obtain ⟨rows, hrows⟩ : ∃ rows, (MemoryStore.runPipeline "books" (stages.map Stage.toValue)
      none).run.run shelfStore = (.ok rows, shelfStore) := by
    cases hstages
    exact ⟨_, rfl⟩
  have hnames : ∀ name ∈ Record.keys notByBob.filters, IsLegible [name] := fun name hname => by
    obtain rfl := List.mem_singleton.1 hname
    exact isLegible_singleton (by unfold IsSegment; decide) (by unfold IsSigned; decide)
  obtain ⟨cs, hcs, hall⟩ := list_answers hstages (fun _ h => nomatch h) rfl hnames
  obtain rfl : cs = notByBobClauses := (Option.some.inj hcs).symm
  have hu : Unambiguous notByBobClauses (shelfStore.documents "books") :=
    ⟨by unfold Hop.DistinctLabels; decide, by decide, by decide, by decide⟩
  obtain ⟨-, -, hrun⟩ := hall shelfStore _ rfl hu (by decide +kernel)
  rw [show (MemoryStore.runPipeline bookDescriptor.collection (stages.map Stage.toValue)
    none).run.run shelfStore = _ from hrows] at hrun
  exact ⟨stages, rows, hstages, hcs, hu, by decide +kernel, hrows, hrun.2⟩

end EntityGraph
