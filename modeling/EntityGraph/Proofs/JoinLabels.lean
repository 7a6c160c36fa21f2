import EntityGraph.Proofs.Listing

/-!
# Labels of joins

A relation is joined under a label, the names that lead to it put together with underscores. What is
joined under a label is what the first hop with this label leads to (`lookup_mem_iff`). But names
may have underscores of their own. Two paths have the same label exactly when they have the same
words, which are the pieces between underscores (`labelOf_eq_iff`).

So where different paths in use have different words, each of them has joins of its own, and shares
one with another only as far as they begin alike (`relations_joinedApart`). Where two paths have the
same words, the second is not joined at all, and its conditions are asked of the documents at the
end of the first (`voyages_confused`).
-/

namespace EntityGraph

/-! ## Words -/

namespace Text

variable {c : Char}

/-- Cutting at a separator cuts what is before it and what is behind it. -/
theorem splitChars_append_cons (cs ds : List Char) :
    splitChars c (cs ++ c :: ds) =
      ((splitChars c cs).1, (splitChars c cs).2 ++ (splitChars c ds).1 :: (splitChars c ds).2) := by
  induction cs with
  | nil =>
    rw [List.nil_append, splitChars]
    exact if_pos rfl
  | cons d rest ih =>
    rw [List.cons_append, splitChars, splitChars, ih]
    dsimp only
    split <;> rfl

theorem split_append_cons (s t : String) :
    split c (s ++ String.ofList [c] ++ t) = split c s ++ split c t := by
  have hlist : (s ++ String.ofList [c] ++ t).toList = s.toList ++ c :: t.toList := by
    simp [String.toList_append]
  rw [split, hlist, splitChars_append_cons]
  simp [split]

/-- The pieces of what was joined are those of its parts. -/
theorem split_join_flatMap {xs : List String} (hxs : xs ≠ []) :
    split c (join (String.ofList [c]) xs) = xs.flatMap (split c) := by
  induction xs with
  | nil => exact absurd rfl hxs
  | cons x rest ih =>
    cases rest with
    | nil => simp [join]
    | cons y rest =>
      rw [join_cons _ _ (List.cons_ne_nil _ _), split_append_cons, ih (List.cons_ne_nil _ _)]
      exact List.flatMap_cons.symm

theorem splitChars_separator (rest : List Char) :
    splitChars c (c :: rest) = ([], (splitChars c rest).1 :: (splitChars c rest).2) := if_pos rfl

theorem splitChars_of_ne {d : Char} (h : d ≠ c) (rest : List Char) :
    splitChars c (d :: rest) = (d :: (splitChars c rest).1, (splitChars c rest).2) := if_neg h

/-- **The pieces tell the text** that was cut. A text with characters is cut into more than a single
empty piece. -/
theorem splitChars_inj {cs ds : List Char} (h : splitChars c cs = splitChars c ds) : cs = ds := by
  have hnil : ∀ (d : Char) (rest : List Char), splitChars c (d :: rest) ≠ ([], []) := by
    intro d rest
    by_cases hd : d = c
    · rw [hd, splitChars_separator]
      simp
    · rw [splitChars_of_ne hd]
      simp
  induction cs generalizing ds with
  | nil =>
    cases ds with
    | nil => rfl
    | cons d rest => exact absurd h.symm (hnil d rest)
  | cons a rest ih =>
    cases ds with
    | nil => exact absurd h (hnil a rest)
    | cons b rest' =>
      by_cases ha : a = c <;> by_cases hb : b = c
      · rw [ha, hb, splitChars_separator, splitChars_separator] at h
        obtain ⟨hpiece, hpieces⟩ := List.cons.inj (Prod.mk.inj h).2
        rw [ha, hb, ih (Prod.ext hpiece hpieces)]
      · rw [ha, splitChars_separator, splitChars_of_ne hb] at h
        cases (Prod.mk.inj h).1
      · rw [hb, splitChars_separator, splitChars_of_ne ha] at h
        cases (Prod.mk.inj h).1
      · rw [splitChars_of_ne ha, splitChars_of_ne hb] at h
        obtain ⟨hfirst, hothers⟩ := Prod.mk.inj h
        obtain ⟨rfl, hpiece⟩ := List.cons.inj hfirst
        rw [ih (Prod.ext hpiece hothers)]

theorem split_inj {s t : String} (h : split c s = split c t) : s = t := by
  have hinj : Function.Injective String.ofList := fun _ _ => String.ofList_inj.1
  obtain ⟨hfirst, hothers⟩ := List.cons.inj h
  exact String.toList_inj.1 (splitChars_inj
    (Prod.ext (hinj hfirst) (List.map_injective_iff.2 hinj hothers)))

end Text

/-- The words of a path: the pieces of its names between underscores. -/
def wordsOf (path : List String) : List String := path.flatMap (Text.split '_')

/-- **What a label tells of its path**: its words, and nothing else. -/
theorem labelOf_eq_iff {path path' : List String} (h : path ≠ []) (h' : path' ≠ []) :
    labelOf path = labelOf path' ↔ wordsOf path = wordsOf path' := by
  have hwords : ∀ {path : List String}, path ≠ [] → Text.split '_' (labelOf path) = wordsOf path :=
    fun hne => Text.split_join_flatMap hne
  refine ⟨fun heq => ?_, fun heq => Text.split_inj (c := '_') ?_⟩
  · rw [← hwords h, heq, hwords h']
  · rw [hwords h, heq, hwords h']

/-! ## Where names lead -/

/-- The hop at the end of a path of names. They are followed from an entity whose objects are found
after the hop of a path and, from there, inside embedded objects. -/
def Hop.at? (r : Registry) : Entity → List String → List String → List String → Option Hop
  | _, _, _, [] => none
  | current, hop, inside, name :: rest => do
    let f ← current.field? name
    let target ← Clause.target? r f
    if f.isEmbedded then at? r target.entity hop (inside ++ [name]) rest
    else
      let h := Hop.ofField f target.collection hop inside name
      if rest.isEmpty then some h else at? r target.entity h.path [] rest

section Following

variable {r : Registry} {current : Entity} {hop inside names : List String} {c : Clause}

/-- **The hops of a clause are on its way**: each is the one at the end of its path, and the way to
where the values of the clause are goes through it. -/
structure Clause.OnWay (r : Registry) (current : Entity) (hop inside : List String)
    (c : Clause) : Prop where
  begins : hop <+: c.hop
  hops : ∀ h ∈ c.hops, h.path <+: c.hop ∧
    ∃ rest, h.path = hop ++ inside ++ rest ∧ Hop.at? r current hop inside rest = some h

/-- **The names of a clause** are those that were followed, and it has more of them than there were
to begin with. -/
structure Clause.Named (hop inside names : List String) (c : Clause) : Prop where
  names : ∀ s ∈ c.hop ++ c.path, s ∈ hop ++ inside ∨ s ∈ names ∨ s = "_id"
  longer : (hop ++ inside).length < (c.hop ++ c.path).length

theorem Hop.at?_embedded {name : String} {rest : List String} {f : FieldDef} {target : Descriptor}
    (hf : current.field? name = some f) (ht : Clause.target? r f = some target)
    (hemb : f.isEmbedded = true) :
    at? r current hop inside (name :: rest) = at? r target.entity hop (inside ++ [name]) rest := by
  rw [at?, hf]
  simp [ht, hemb]

theorem Hop.at?_referenced {name : String} {rest : List String} {f : FieldDef} {target : Descriptor}
    (hf : current.field? name = some f) (ht : Clause.target? r f = some target)
    (hemb : f.isEmbedded = false) :
    at? r current hop inside (name :: rest) =
      if rest.isEmpty then some (ofField f target.collection hop inside name)
      else at? r target.entity (ofField f target.collection hop inside name).path [] rest := by
  rw [at?, hf]
  simp [ht, hemb]

namespace Clause

/-- A hop more, at the beginning of the way. -/
theorem OnWay.after {name : String} {f : FieldDef} {target : Descriptor}
    (hf : current.field? name = some f) (ht : target? r f = some target)
    (hemb : f.isEmbedded = false)
    (h : c.OnWay r target.entity (Hop.ofField f target.collection hop inside name).path []) :
    (c.after (Hop.ofField f target.collection hop inside name)).OnWay r current hop inside := by
  have hpath : (Hop.ofField f target.collection hop inside name).path = hop ++ inside ++ [name] :=
    Hop.path_ofField ..
  have hbegins : hop <+: (Hop.ofField f target.collection hop inside name).path := by
    rw [hpath, List.append_assoc]
    exact List.prefix_append ..
  refine ⟨hbegins.trans h.begins, fun g hg => ?_⟩
  rcases List.mem_cons.1 hg with rfl | hg
  · exact ⟨h.begins, [name], hpath, by rw [Hop.at?_referenced hf ht hemb]; rfl⟩
  · obtain ⟨hg, rest, hrest, hat⟩ := h.hops g hg
    have hne : rest ≠ [] := by
      rintro rfl
      cases hat
    refine ⟨hg, name :: rest, ?_, ?_⟩
    · rw [hrest, hpath, List.append_nil, List.append_assoc, List.singleton_append]
    · rw [Hop.at?_referenced hf ht hemb, if_neg (by simpa using hne), hat]

theorem onWay_follow? {t : FilterTerm} (h : follow? r t current hop inside names = some c) :
    c.OnWay r current hop inside := by
  induction names generalizing current hop inside c with
  | nil => cases h
  | cons name rest ih =>
    obtain ⟨f, hf, ⟨target, ht, hemb, hc⟩ | ⟨target, c', ht, hemb, hc, rfl⟩ |
      ⟨condition, -, -, rfl⟩⟩ := follow?_cases h
    · obtain ⟨hbegins, hhops⟩ := ih hc
      refine ⟨hbegins, fun g hg => ?_⟩
      obtain ⟨hg, rest', hrest, hat⟩ := hhops g hg
      refine ⟨hg, name :: rest', ?_, by rw [Hop.at?_embedded hf ht hemb, hat]⟩
      rw [hrest]
      simp
    · exact (ih hc).after hf ht hemb
    · exact ⟨List.prefix_refl _, fun g hg => absurd hg List.not_mem_nil⟩

/-- A name more, that was followed before the others. -/
theorem Named.cons {hop' inside' : List String} {name : String}
    (hpath : hop' ++ inside' = hop ++ inside ++ [name]) (h : c.Named hop' inside' names) :
    c.Named hop inside (name :: names) := by
  obtain ⟨hnames, hlonger⟩ := h
  rw [hpath] at hnames hlonger
  refine ⟨fun s hs => ?_, (List.prefix_append _ _).length_le.trans_lt hlonger⟩
  rcases hnames s hs with hs | hs | hs
  · rcases List.mem_append.1 hs with hs | hs
    · exact .inl hs
    · exact .inr (.inl (List.mem_singleton.1 hs ▸ List.mem_cons_self ..))
  · exact .inr (.inl (List.mem_cons_of_mem _ hs))
  · exact .inr (.inr hs)

theorem named_follow? {t : FilterTerm} (h : follow? r t current hop inside names = some c) :
    c.Named hop inside names := by
  induction names generalizing current hop inside c with
  | nil => cases h
  | cons name rest ih =>
    obtain ⟨f, -, ⟨target, -, -, hc⟩ | ⟨target, c', -, -, hc, rfl⟩ | ⟨condition, -, -, rfl⟩⟩ :=
      follow?_cases h
    · exact (ih hc).cons (List.append_assoc ..).symm
    · obtain ⟨hnames, hlonger⟩ : c'.Named hop inside (name :: rest) := by
        refine Named.cons ?_ (ih hc)
        rw [List.append_nil, Hop.path_ofField]
      exact ⟨hnames, hlonger⟩
    · refine ⟨fun s hs => ?_, by simp⟩
      dsimp only at hs
      rw [← List.append_assoc] at hs
      rcases List.mem_append.1 hs with hs | hs
      · exact .inl hs
      · rw [List.mem_singleton.1 hs, leafKey]
        split
        · exact .inr (.inr rfl)
        · exact .inr (.inl (List.mem_cons_self ..))

end Clause

end Following

/-! ## What is joined and asked -/

/-- A key of several names does not combine queries. -/
theorem not_isCombinator_dotted {path : List String} (h : 2 ≤ path.length) :
    ¬ IsCombinator (dotted path) := by
  have hdot : '.' ∈ (dotted path).toList := by
    match path, h with
    | s :: t :: rest, _ => simp [dotted, Text.join, String.toList_append]
  rintro (hkey | hkey) <;> rw [hkey] at hdot <;> revert hdot <;> decide

/-- **A placed clause**: its hops are those at the ends of their paths, all on its way, and where a
row keeps its values can be read off the key that its condition is asked under. -/
structure Clause.Placed (r : Registry) (entity : Entity) (c : Clause) : Prop where
  hops : ∀ h ∈ c.hops, h.path <+: c.hop ∧ Hop.at? r entity [] [] h.path = some h
  segments : ∀ s ∈ rowPath c.hop c.path, IsSegment s
  key : ¬ IsCombinator (dotted (rowPath c.hop c.path))

/-- A name that a filter can be read under: it has no dot, and does not combine queries. -/
def IsReadable (name : String) : Prop := IsSegment name ∧ ¬ IsCombinator name

namespace Clause

variable {r : Registry} {entity : Entity}

/-- The clauses of terms on relations are placed. -/
theorem OnWay.placed {c : Clause} {name : String} {names : List String} (h : c.OnWay r entity [] [])
    (hnamed : c.Named [] [name] names) (hsound : c.Sound []) (hname : IsSegment name)
    (hnames : ∀ s ∈ names, IsSegment s) : c.Placed r entity := by
  refine ⟨fun g hg => ?_, isSegment_rowPath_of_names fun s hs => ?_, not_isCombinator_dotted ?_⟩
  · obtain ⟨hbegins, rest, hrest, hat⟩ := h.hops g hg
    obtain rfl : g.path = rest := hrest
    exact ⟨hbegins, hat⟩
  · rcases hnamed.names s hs with hs | hs | rfl
    · obtain rfl := List.mem_singleton.1 hs
      exact hname
    · exact hnames s hs
    · unfold IsSegment
      decide
  · have hlonger : 1 < (c.hop ++ c.path).length := hnamed.longer
    have hpath : 0 < c.path.length := List.length_pos_iff.2 hsound.2.2
    unfold rowPath
    split
    · rename_i hnil
      rwa [hnil] at hlonger
    · rw [List.length_cons]
      omega

theorem placed_ofPathTerm? {root : FieldDef} {t : PathTerm} {c : Clause}
    (hroot : entity.field? root.name = some root) (hname : IsSegment root.name)
    (h : ofPathTerm? r root t = some c) : c.Placed r entity := by
  have hsound := sound_ofPathTerm? h
  have hnames : ∀ s ∈ Text.segments t.path, IsSegment s := fun s => Text.isSegment_of_mem_segments
  obtain ⟨target, ht, ⟨hemb, hc⟩ | ⟨c', hemb, hc, rfl⟩⟩ := ofPathTerm?_cases h
  · obtain ⟨hbegins, hhops⟩ := onWay_follow? hc
    refine OnWay.placed ⟨hbegins, fun g hg => ?_⟩ (named_follow? hc) hsound hname hnames
    obtain ⟨hg, rest, hrest, hat⟩ := hhops g hg
    exact ⟨hg, root.name :: rest, hrest, by rw [Hop.at?_embedded hroot ht hemb]; exact hat⟩
  · obtain ⟨hnames', hlonger⟩ := named_follow? hc
    rw [Hop.path_ofField] at hnames' hlonger
    exact ((onWay_follow? hc).after hroot ht hemb).placed ⟨hnames', hlonger⟩ hsound hname hnames

/-- **The clauses of filters are placed.** -/
theorem placed_ofFilters? {filters : List (String × Filter)} {cs : List Clause}
    (hnames : ∀ name ∈ Record.keys filters, IsReadable name)
    (h : ofFilters? r entity filters = some cs) :
    ∀ c ∈ cs, c.Placed r entity := by
  intro c hc
  obtain ⟨f, filter, hmem, hf, hcases⟩ := exists_of_mem_ofFilters? h hc
  obtain ⟨hname, hkey⟩ := hnames f.name (List.mem_map_of_mem hmem)
  obtain ⟨t, condition, -, -, rfl⟩ | ⟨terms, t, -, -, ht⟩ := hcases
  · refine ⟨fun g hg => absurd hg List.not_mem_nil, fun s hs => ?_, ?_⟩
    · obtain rfl : s = leafKey f f.name := List.mem_singleton.1 hs
      exact isSegment_leafKey hname
    · change ¬ IsCombinator (leafKey f f.name)
      unfold leafKey
      split
      · rintro (hid | hid) <;> revert hid <;> decide
      · exact hkey
  · exact placed_ofPathTerm? hf hname ht

end Clause

/-- The first of some hops that goes by a label. -/
def Hop.called? (label : String) (hops : List Hop) : Option Hop :=
    hops.find? fun h => labelOf h.path == label

theorem Hop.called?_cons (label : String) (g : Hop) (rest : List Hop) :
    called? label (g :: rest) = if labelOf g.path = label then some g else called? label rest := by
  unfold called?
  rw [List.find?_cons]
  by_cases h : labelOf g.path = label
  · rw [if_pos h, beq_iff_eq.2 h]
  · rw [if_neg h, beq_false_of_ne h]

namespace Plan

variable {p p' : Plan} {hops : List Hop} {cs : List Clause} {j : Join}

theorem mem_join {k : Join} :
    k ∈ (p.join j).joins ↔ k ∈ p.joins ∨ (∀ l ∈ p.joins, l.label ≠ j.label) ∧ k = j := by
  unfold join
  split
  · rename_i hany
    obtain ⟨l, hl, hlabel⟩ := List.any_eq_true.1 hany
    exact ⟨.inl, fun h => h.elim id fun h => absurd (beq_iff_eq.1 hlabel) (h.1 l hl)⟩
  · rename_i hany
    have hnew : ∀ l ∈ p.joins, l.label ≠ j.label := fun l hl heq =>
      hany (List.any_eq_true.2 ⟨l, hl, beq_iff_eq.2 heq⟩)
    rw [List.mem_append, List.mem_singleton]
    exact or_congr_right ⟨fun h => ⟨hnew, h⟩, And.right⟩

/-- **Hops are joined once for each label**: a plan gets the join of the first hop that goes by a
new label. -/
theorem mem_foldl_join : j ∈ (hops.foldl (fun p h => p.join h.join) p).joins ↔
    j ∈ p.joins ∨ (∀ l ∈ p.joins, l.label ≠ j.label) ∧ ∃ h, Hop.called? j.label hops = some h ∧
      j = h.join := by
  induction hops generalizing p with
  | nil => simp [Hop.called?]
  | cons g rest ih =>
    rw [List.foldl_cons, ih, mem_join, Hop.called?_cons]
    by_cases hlabel : labelOf g.path = j.label
    · rw [if_pos hlabel]
      constructor
      · rintro ((hj | ⟨hnew, rfl⟩) | ⟨hnone, -⟩)
        · exact .inl hj
        · exact .inr ⟨hnew, g, rfl, rfl⟩
        · by_cases hnew : ∀ l ∈ p.joins, l.label ≠ g.join.label
          · exact absurd hlabel (hnone g.join (mem_join.2 (.inr ⟨hnew, rfl⟩)))
          · push Not at hnew
            obtain ⟨l, hl, heq⟩ := hnew
            exact absurd (heq.trans hlabel) (hnone l (mem_join.2 (.inl hl)))
      · rintro (hj | ⟨hnew, h, hg, rfl⟩)
        · exact .inl (.inl hj)
        · cases hg
          exact .inl (.inr ⟨hnew, rfl⟩)
    · rw [if_neg hlabel]
      have hnone : (∀ l ∈ (p.join g.join).joins, l.label ≠ j.label) ↔
          ∀ l ∈ p.joins, l.label ≠ j.label := by
        refine ⟨fun h l hl => h l (mem_join.2 (.inl hl)), fun h l hl => ?_⟩
        rcases mem_join.1 hl with hl | ⟨-, rfl⟩
        · exact h l hl
        · exact hlabel
      rw [hnone]
      constructor
      · rintro ((hj | ⟨-, rfl⟩) | hrest)
        · exact .inl hj
        · exact absurd rfl hlabel
        · exact .inr hrest
      · rintro (hj | hrest)
        · exact .inl (.inl hj)
        · exact .inr hrest

theorem joins_foldl_join_congr (h : p.joins = p'.joins) :
    (hops.foldl (fun p h => p.join h.join) p).joins =
      (hops.foldl (fun p h => p.join h.join) p').joins := by
  induction hops generalizing p p' with
  | nil => exact h
  | cons g rest ih =>
    refine ih ?_
    change (p.join g.join).joins = (p'.join g.join).joins
    unfold join
    rw [h]
    split
    · exact h
    · rfl

/-- The joins of clauses are those of their hops, whatever is asked in between. -/
theorem joins_foldl_addClause_eq :
    (cs.foldl addClause p).joins =
      ((cs.flatMap Clause.hops).foldl (fun p h => p.join h.join) p).joins := by
  induction cs generalizing p with
  | nil => rfl
  | cons c rest ih =>
    rw [List.foldl_cons, ih, List.flatMap_cons, List.foldl_append]
    exact joins_foldl_join_congr (joins_addCondition ..)

theorem lookup_mem_stages {source foreignPath localPath label : String} :
    Stage.lookup source foreignPath localPath label ∈ p.stages ↔
      ⟨source, foreignPath, localPath, label⟩ ∈ p.joins := by
  constructor
  · intro h
    rcases List.mem_append.1 h with h | h
    · obtain ⟨k, hk, h⟩ := List.mem_flatMap.1 h
      simp only [List.mem_cons, List.not_mem_nil, or_false, reduceCtorEq] at h
      cases h
      exact hk
    · split at h <;> simp at h
  · exact fun h => List.mem_append_left _ (List.mem_flatMap.2 ⟨_, h, List.mem_cons_self ..⟩)

theorem select_mem_stages (h : p.query ≠ []) : Stage.select p.query ∈ p.stages := by
  refine List.mem_append_right _ ?_
  rw [if_neg (by simpa using h)]
  exact List.mem_singleton_self _

end Plan

/-- The stages of a list or of a count are those of its clauses. What comes after them joins
nothing. -/
theorem exists_stages {r : Registry} {defaultLimit : Int} {d : Descriptor} {args : ListArguments}
    {stages : List Stage} (h : listPipeline r defaultLimit d args = .ok stages ∨
      countPipeline r d args = .ok stages) :
    ∃ cs others, Clause.ofFilters? r d.entity args.filters = some cs ∧
      stages = (cs.foldl Plan.addClause .empty).stages ++ others ∧
      ∀ source foreignPath localPath label,
        Stage.lookup source foreignPath localPath label ∉ others := by
  rcases h with h | h
  · rcases hargs : args.isEmpty with _ | _
    · obtain ⟨cs, order, hcs, rfl, horder⟩ := listPipeline_eq h hargs
      refine ⟨cs, _, hcs, rfl, fun _ _ _ _ hmem => ?_⟩
      rcases List.mem_append.1 hmem with hmem | hmem
      · rcases horder with rfl | ⟨⟨keys, rfl⟩, -⟩ <;> simp at hmem
      · cases hpage : args.pagination <;> simp [hpage, cuts] at hmem
    · rw [listPipeline, if_pos hargs] at h
      cases h
      simp only [ListArguments.isEmpty, Bool.and_eq_true, List.isEmpty_iff] at hargs
      rw [hargs.1.1]
      exact ⟨[], [], rfl, rfl, fun _ _ _ _ => List.not_mem_nil⟩
  · obtain ⟨cs, hcs⟩ := exists_clauses_of_countPipeline h
    exact ⟨cs, _, hcs, countPipeline_eq h hcs, by simp⟩

/-- **Clauses that can be told by their words**: different hops have different words, and so have a
hop and what is asked of the document itself. -/
structure TellApart (cs : List Clause) : Prop where
  hops : ∀ g ∈ cs.flatMap Clause.hops, ∀ h ∈ cs.flatMap Clause.hops,
    wordsOf g.path = wordsOf h.path → g.path = h.path
  own : ∀ c ∈ cs, c.hop = [] → ∀ h ∈ cs.flatMap Clause.hops,
    wordsOf (c.path.take 1) ≠ wordsOf h.path

/-- **Relations that are joined apart.** -/
structure JoinedApart (cs : List Clause) (stages : List Stage) : Prop where
  /-- the condition of each clause is asked of the documents under the label of its last hop, or of
  the document itself -/
  asked : ∀ c ∈ cs, ∃ query key, Stage.select query ∈ stages ∧
    (key, c.condition) ∈ conditionsOf query ∧
    Text.segments key = rowPath c.hop c.path ∧ (c.hop = [] ∨ ∃ h ∈ c.hops, h.path = c.hop)
  /-- nothing else is asked of the documents under the label of a last hop -/
  apart : ∀ c ∈ cs, ∀ c' ∈ cs, c'.hop ≠ [] → c.hop ≠ c'.hop →
    (rowPath c.hop c.path).head? ≠ some (labelOf c'.hop)
  /-- under the label of each hop its own documents are joined, and no others -/
  joined : ∀ c ∈ cs, ∀ h ∈ c.hops, ∀ source foreignPath localPath,
    Stage.lookup source foreignPath localPath (labelOf h.path) ∈ stages ↔
      source = h.collection ∧ foreignPath = h.foreignField ∧
        localPath = dotted (rowPath h.source h.inside ++ [h.localField])
  /-- clauses share a label only for a hop that is on the way of both -/
  shared : ∀ c ∈ cs, ∀ c' ∈ cs, ∀ h ∈ c.hops, ∀ h' ∈ c'.hops, labelOf h.path = labelOf h'.path →
    h = h' ∧ h.path <+: c.hop ∧ h.path <+: c'.hop

section Apart

variable {r : Registry} {entity : Entity} {cs : List Clause} {stages others : List Stage}

theorem Hop.mem_of_called? {label : String} {hops : List Hop} {h : Hop}
    (hcalled : called? label hops = some h) :
    h ∈ hops ∧ labelOf h.path = label :=
  ⟨List.mem_of_find?_eq_some hcalled, by simpa using List.find?_some hcalled⟩

theorem Hop.exists_called? {hops : List Hop} {h : Hop} (hh : h ∈ hops) :
    ∃ g, called? (labelOf h.path) hops = some g :=
  Option.isSome_iff_exists.1 (List.find?_isSome.2 ⟨h, hh, beq_self_eq_true _⟩)

/-- **What is joined under a label** is what the first hop with the label leads to. -/
theorem lookup_mem_iff (hstages : stages = (cs.foldl Plan.addClause .empty).stages ++ others)
    (hothers : ∀ source foreignPath localPath label,
      Stage.lookup source foreignPath localPath label ∉ others)
    {source foreignPath localPath label : String} :
    Stage.lookup source foreignPath localPath label ∈ stages ↔
      ∃ h, Hop.called? label (cs.flatMap Clause.hops) = some h ∧ source = h.collection ∧
        foreignPath = h.foreignField ∧
          localPath = dotted (rowPath h.source h.inside ++ [h.localField]) := by
  rw [hstages, List.mem_append, or_iff_left (hothers source foreignPath localPath label),
    Plan.lookup_mem_stages, Plan.joins_foldl_addClause_eq, Plan.mem_foldl_join]
  constructor
  · rintro (hnone | ⟨-, h, hcalled, hjoin⟩)
    · cases hnone
    · cases hjoin
      exact ⟨h, hcalled, rfl, rfl, rfl⟩
  · rintro ⟨h, hcalled, rfl, rfl, rfl⟩
    obtain ⟨-, rfl⟩ := Hop.mem_of_called? hcalled
    exact .inr ⟨fun _ hnone => absurd hnone List.not_mem_nil, h, hcalled, rfl⟩

/-- Clauses that can be told by their words have a label for each hop. -/
theorem TellApart.hop_eq (ht : TellApart cs) (hplaced : ∀ c ∈ cs, c.Placed r entity) {g h : Hop}
    (hg : g ∈ cs.flatMap Clause.hops) (hh : h ∈ cs.flatMap Clause.hops)
    (hlabel : labelOf g.path = labelOf h.path) :
    g = h := by
  have hat : ∀ f ∈ cs.flatMap Clause.hops, Hop.at? r entity [] [] f.path = some f := fun f hf => by
    obtain ⟨c, hc, hf⟩ := List.mem_flatMap.1 hf
    exact ((hplaced c hc).hops f hf).2
  have hne : ∀ f ∈ cs.flatMap Clause.hops, f.path ≠ [] := fun f hf hnil => by
    have := hat f hf
    rw [hnil] at this
    cases this
  have hpath := ht.hops g hg h hh ((labelOf_eq_iff (hne g hg) (hne h hh)).1 hlabel)
  have := hat g hg
  rw [hpath, hat h hh] at this
  exact (Option.some.inj this).symm

/-- The values of a clause are in the document itself or behind its last hop. -/
theorem Clause.Sound.last {c : Clause} (h : c.Sound []) :
    c.hop = [] ∨ ∃ h ∈ c.hops, h.path = c.hop :=
  h.2.1.imp_right fun hm => by simpa [Hop.paths] using hm

/-- **Each clause is asked** of what is under the label of its last hop. -/
theorem exists_asked (hplaced : ∀ c ∈ cs, c.Placed r entity) (hsound : ∀ c ∈ cs, c.Sound [])
    (hstages : stages = (cs.foldl Plan.addClause .empty).stages ++ others) {c : Clause}
    (hc : c ∈ cs) :
    ∃ query key, Stage.select query ∈ stages ∧ (key, c.condition) ∈ conditionsOf query ∧
      Text.segments key = rowPath c.hop c.path := by
  obtain ⟨-, hconditions⟩ := @Plan.planned_foldl_addClause cs .empty
    (fun e he => absurd he List.not_mem_nil) fun c hc => (hplaced c hc).key
  have hin := (hconditions _).2 (.inr ⟨c, hc, rfl⟩)
  have hquery : (cs.foldl Plan.addClause .empty).query ≠ [] := fun hnil => by
    rw [hnil] at hin
    cases hin
  have hrow : rowPath c.hop c.path ≠ [] := by
    unfold rowPath
    split
    · exact (hsound c hc).2.2
    · exact List.cons_ne_nil _ _
  refine ⟨_, _, ?_, hin, segments_dotted_of_isSegment hrow (hplaced c hc).segments⟩
  rw [hstages]
  exact List.mem_append_left _ (Plan.select_mem_stages hquery)

theorem mem_hops_of_mem {c : Clause} {h : Hop} (hc : c ∈ cs) (hh : h ∈ c.hops) :
    h ∈ cs.flatMap Clause.hops :=
  List.mem_flatMap.2 ⟨c, hc, hh⟩

/-- **Nothing else is asked** of what is under the label of a last hop. -/
theorem TellApart.head?_ne (ht : TellApart cs) (hplaced : ∀ c ∈ cs, c.Placed r entity)
    (hsound : ∀ c ∈ cs, c.Sound []) {c c' : Clause} (hc : c ∈ cs) (hc' : c' ∈ cs)
    (hne : c'.hop ≠ []) (hdiff : c.hop ≠ c'.hop) :
    (rowPath c.hop c.path).head? ≠ some (labelOf c'.hop) := by
  obtain ⟨h', hh', hpath'⟩ := (hsound c' hc').last.resolve_left hne
  intro hhead
  rw [← hpath'] at hhead
  unfold rowPath at hhead
  split at hhead
  · rename_i hnil
    obtain ⟨s, rest, hcons⟩ := List.exists_cons_of_ne_nil (hsound c hc).2.2
    rw [hcons] at hhead
    have hlabel : labelOf [s] = labelOf h'.path := Option.some.inj hhead
    refine ht.own c hc hnil h' (mem_hops_of_mem hc' hh') ?_
    rw [hcons]
    exact (labelOf_eq_iff (List.cons_ne_nil _ _) (hpath' ▸ hne)).1 hlabel
  · rename_i hnil
    obtain ⟨h, hh, hpath⟩ := (hsound c hc).last.resolve_left hnil
    rw [← hpath] at hhead
    have heq :=
      ht.hop_eq hplaced (mem_hops_of_mem hc hh) (mem_hops_of_mem hc' hh') (Option.some.inj hhead)
    exact hdiff (by rw [← hpath, ← hpath', heq])

/-- **A hop is the first one** that goes by its label. -/
theorem TellApart.called?_eq (ht : TellApart cs) (hplaced : ∀ c ∈ cs, c.Placed r entity) {h : Hop}
    (hh : h ∈ cs.flatMap Clause.hops) :
    Hop.called? (labelOf h.path) (cs.flatMap Clause.hops) = some h := by
  obtain ⟨g, hcalled⟩ := Hop.exists_called? hh
  obtain ⟨hg, hlabel⟩ := Hop.mem_of_called? hcalled
  rw [hcalled, ht.hop_eq hplaced hg hh hlabel]

theorem TellApart.joinedApart (ht : TellApart cs) (hplaced : ∀ c ∈ cs, c.Placed r entity)
    (hsound : ∀ c ∈ cs, c.Sound [])
    (hstages : stages = (cs.foldl Plan.addClause .empty).stages ++ others)
    (hothers : ∀ source foreignPath localPath label,
      Stage.lookup source foreignPath localPath label ∉ others) :
    JoinedApart cs stages where
  asked c hc := by
    obtain ⟨query, key, hselect, hcondition, hkey⟩ := exists_asked hplaced hsound hstages hc
    exact ⟨query, key, hselect, hcondition, hkey, (hsound c hc).last⟩
  apart c hc c' hc' hne hdiff := ht.head?_ne hplaced hsound hc hc' hne hdiff
  joined c hc h hh source foreignPath localPath := by
    rw [lookup_mem_iff hstages hothers, ht.called?_eq hplaced (mem_hops_of_mem hc hh)]
    constructor
    · rintro ⟨g, hg, hjoin⟩
      rwa [Option.some.inj hg]
    · exact fun hjoin => ⟨h, rfl, hjoin⟩
  shared c hc c' hc' h hh h' hh' hlabel := by
    obtain rfl := ht.hop_eq hplaced (mem_hops_of_mem hc hh) (mem_hops_of_mem hc' hh') hlabel
    exact ⟨rfl, ((hplaced c hc).hops h hh).1, ((hplaced c' hc').hops h hh').1⟩

end Apart

/-- **How relations are joined.** In the pipeline of a list and of its count, what is joined under a
label is what the first hop with this label leads to. Labels tell hops by their words only: where
the words of different hops differ, each clause is asked of the documents behind its own last hop,
every hop on the way has a join of its own, and a join serves two clauses only for a hop that is on
the way of both. -/
theorem relations_joinedApart {r : Registry} {defaultLimit : Int} {d : Descriptor}
    {args : ListArguments} {stages : List Stage}
    (h : listPipeline r defaultLimit d args = .ok stages ∨ countPipeline r d args = .ok stages)
    (hnames : ∀ name ∈ Record.keys args.filters, IsReadable name) :
    ∃ cs, Clause.ofFilters? r d.entity args.filters = some cs ∧
      (∀ source foreignPath localPath label,
        Stage.lookup source foreignPath localPath label ∈ stages ↔
        ∃ h, Hop.called? label (cs.flatMap Clause.hops) = some h ∧ source = h.collection ∧
          foreignPath = h.foreignField ∧
            localPath = dotted (rowPath h.source h.inside ++ [h.localField])) ∧
      (TellApart cs → JoinedApart cs stages) := by
  obtain ⟨cs, others, hcs, hstages, hothers⟩ := exists_stages h
  exact ⟨cs, hcs, fun _ _ _ _ => lookup_mem_iff hstages hothers, fun ht =>
    ht.joinedApart (Clause.placed_ofFilters? hnames hcs) (Clause.sound_ofFilters? hcs)
      hstages hothers⟩

/-! ## Voyages -/

/-- A field that names a single related document under its own name. -/
def relationField (name target : String) : FieldDef :=
  ⟨name, .entity target, false, true, false, false, some ⟨false, name, .null⟩, .null⟩

/-- Cities have a name and a country. -/
def cityDescriptor : Descriptor :=
  ⟨⟨"City", [textField "name", textField "country"], .null, by decide⟩, "cities", some "city",
    some "cities", none, true, none, []⟩

/-- Ships have a name and the city that they go to. -/
def shipDescriptor : Descriptor :=
  ⟨⟨"Ship", [textField "name", relationField "to_city" "City"], .null, by decide⟩, "ships",
    some "ship", some "ships", none, true, none, []⟩

/-- Places are in a city. -/
def placeDescriptor : Descriptor :=
  ⟨⟨"Place", [textField "name", relationField "city" "City"], .null, by decide⟩, "places",
    some "place", some "places", none, true, none, []⟩

/-- Voyages have a ship, and a place to ship to. -/
def voyageDescriptor : Descriptor :=
  ⟨⟨"Voyage", [textField "name", relationField "ship" "Ship", relationField "ship_to" "Place"],
    .null, by decide⟩, "voyages", some "voyage", some "voyages", none, true, none, []⟩

/-- The registry of voyages. -/
def voyageRegistry : Registry :=
  ⟨[("Voyage", voyageDescriptor), ("Ship", shipDescriptor), ("Place", placeDescriptor),
    ("City", cityDescriptor)], [], true⟩

/-- A voyage to Oslo with a ship that goes to Rome. -/
def voyageStore : MemoryStore := { MemoryStore.empty with
  collections := [
    ("cities", [(.int 1, [("_id", .int 1), ("name", .text "Rome")]),
      (.int 2, [("_id", .int 2), ("name", .text "Oslo")])]),
    ("ships", [(.int 3, [("_id", .int 3), ("name", .text "Fram"), ("to_city", .int 1)])]),
    ("places", [(.int 4, [("_id", .int 4), ("name", .text "Harbour"), ("city", .int 2)])]),
    ("voyages", [(.int 5, [("_id", .int 5), ("name", .text "North"), ("ship", .int 3),
      ("ship_to", .int 4)])])] }

/-- The voyages with the Fram where it goes to Rome. -/
def framToRome : ListArguments :=
  ⟨[("ship", .expression [⟨⟨none, .text "Fram"⟩, "name"⟩, ⟨⟨none, .text "Rome"⟩, "to_city.name"⟩])],
    none, none⟩

/-- The hop from a voyage to its ship. -/
def toShip : Hop := ⟨["ship"], [], [], "ship", "ships", "_id"⟩

/-- The hop from there to the city that the ship goes to. -/
def toShipCity : Hop := ⟨["ship", "to_city"], ["ship"], [], "to_city", "cities", "_id"⟩

/-- What the list of these voyages asks. -/
def framToRomeClauses : List Clause :=
  [⟨[toShip], ["ship"], ["name"], .text "Fram"⟩,
    ⟨[toShip, toShipCity], ["ship", "to_city"], ["name"], .text "Rome"⟩]

/-- Both clauses of the list share the join of the ship, and the city is joined from there. -/
theorem fram_joinedApart : ∃ stages,
    listPipeline voyageRegistry standardLimit voyageDescriptor framToRome = .ok stages ∧
    Clause.ofFilters? voyageRegistry voyageDescriptor.entity framToRome.filters =
      some framToRomeClauses ∧
    TellApart framToRomeClauses ∧ JoinedApart framToRomeClauses stages := by
  obtain ⟨stages, hstages⟩ :
      ∃ stages, listPipeline voyageRegistry standardLimit voyageDescriptor framToRome =
      .ok stages := ⟨_, rfl⟩
  have hnames : ∀ name ∈ Record.keys framToRome.filters, IsReadable name := fun name hname => by
    obtain rfl := List.mem_singleton.1 hname
    exact ⟨by unfold IsSegment; decide, by unfold IsCombinator; decide⟩
  have htell : TellApart framToRomeClauses := ⟨by decide, by decide⟩
  obtain ⟨cs, hcs, -, hjoined⟩ := relations_joinedApart (.inl hstages) hnames
  obtain rfl : cs = framToRomeClauses := (Option.some.inj hcs).symm
  exact ⟨stages, hstages, hcs, htell, hjoined htell⟩

/-- The voyages where both the ship goes to Rome and the place to ship to is in Rome. -/
def bothToRome : ListArguments :=
  ⟨[("ship", .expression [⟨⟨none, .text "Rome"⟩, "to_city.name"⟩]),
    ("ship_to", .expression [⟨⟨none, .text "Rome"⟩, "city.name"⟩])], none, none⟩

/-- What the list of these voyages asks. -/
def bothToRomeClauses : List Clause :=
  [⟨[toShip, toShipCity], ["ship", "to_city"], ["name"], .text "Rome"⟩,
    ⟨[⟨["ship_to"], [], [], "ship_to", "places", "_id"⟩,
      ⟨["ship_to", "city"], ["ship_to"], [], "city", "cities", "_id"⟩], ["ship_to", "city"],
      ["name"], .text "Rome"⟩]

/-- The stages of this list. The city of the place is not among what they join. -/
def bothToRomeStages : List Stage :=
  [.lookup "ships" "_id" "ship" "ship", .unwind "ship",
    .lookup "cities" "_id" "ship.to_city" "ship_to_city", .unwind "ship_to_city",
    .lookup "places" "_id" "ship_to" "ship_to", .unwind "ship_to",
    .select [("ship_to_city.name", .text "Rome"),
    ("$and", .list [.object [("ship_to_city.name", .text "Rome")]])], .limit 100, .skip 0]

/-- The row of the voyage to Oslo. -/
def northRow : Document :=
  [("_id", .int 5), ("name", .text "North"),
    ("ship", .object [("_id", .int 3), ("name", .text "Fram"), ("to_city", .int 1)]),
    ("ship_to", .object [("_id", .int 4), ("name", .text "Harbour"), ("city", .int 2)]),
    ("ship_to_city", .object [("_id", .int 1), ("name", .text "Rome")])]

/-- **Two cities under one label.** The city of the place is not joined, for the label is taken by
the city of the ship. Both conditions are asked of the city of the ship, and the voyage to Oslo is
listed. -/
theorem voyages_confused :
    listPipeline voyageRegistry standardLimit voyageDescriptor bothToRome = .ok bothToRomeStages ∧
    Clause.ofFilters? voyageRegistry voyageDescriptor.entity bothToRome.filters =
      some bothToRomeClauses ∧
    ¬ JoinedApart bothToRomeClauses bothToRomeStages ∧
    Stage.lookup "cities" "_id" "ship_to.city" "ship_to_city" ∉ bothToRomeStages ∧
    (MemoryStore.runPipeline "voyages" (bothToRomeStages.map Stage.toValue) none).run.run
      voyageStore = (.ok [northRow], voyageStore) := by
  refine ⟨rfl, rfl, fun h => ?_, by simp [bothToRomeStages], rfl⟩
  have hlabels : ∀ c ∈ bothToRomeClauses, ∀ c' ∈ bothToRomeClauses,
      (rowPath c.hop c.path).head? = some (labelOf c'.hop) := by decide
  have hmem : ∀ i : Fin 2, bothToRomeClauses[i] ∈ bothToRomeClauses :=
    fun i => List.getElem_mem i.isLt
  exact h.apart _ (hmem 0) _ (hmem 1) (by decide) (by decide) (hlabels _ (hmem 0) _ (hmem 1))

end EntityGraph
