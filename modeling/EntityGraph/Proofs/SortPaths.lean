import EntityGraph.Proofs.Exposure
import EntityGraph.Proofs.Negation
import EntityGraph.Proofs.Paging
import EntityGraph.Proofs.Sorting

/-!
# What a list is sorted by

A path of names leads from a document to values: into embedded objects, and along references to the
documents that they name (`reach`). A sort goes by what its path addresses in a row, where it knows
nothing of references. Both are the same where the path stays in the document itself, and where its
first name is a reference that a filter joins, for then the row has the document under this name
(`sortValue_rowOf`). Such a list comes in the order of the values that the path reaches
(`Dispatcher.call_sorts`).

A sort does not join anything itself. Where no filter joins the reference, nothing stands under the
path in any row, and the rows stay as they were (`orders_unsorted`).
-/

namespace EntityGraph

/-! ## Values that paths reach -/

/-- The documents of a collection that some values name by their identifiers. -/
def Collections.named (view : Collections) (collection : String) (ids : List Value) :
    List Document :=
  (view.get collection).documents.filter fun e => (Record.get? e "_id").any fun i => i.isIn ids

/-- **What a path reaches** from some objects of an entity: the values under its last name. On the
way it enters the objects that are embedded under a name, or goes on with the document that a single
reference names. Lists of references are not followed. -/
def reach (view : Collections) (r : Registry) : Entity → List String → List Value → List Value
  | _, [], objects => objects
  | current, name :: rest, objects =>
    match current.field? name with
    | none => []
    | some f =>
      match Clause.target? r f with
      | none => if rest.isEmpty then objects.flatMap (descend (Clause.leafKey f name)) else []
      | some target =>
        if f.isEmbedded then reach view r target.entity rest (objects.flatMap (descend name))
        else if f.many then []
        else
          let named :=
            view.named target.collection (flatten (objects.flatMap (descend f.connectionField)))
          reach view r target.entity rest (named.map .object)

/-- The value that a path reaches from a document of an entity; null when it reaches none. -/
def reached (view : Collections) (r : Registry) (e : Entity) (path : String) (d : Document) :
    Value :=
  (reach view r e (Text.segments path) [.object d]).headD .null

/-- **Paths that stay inside** an object: through embedded objects to a field that holds none, other
than an identifier. -/
inductive StaysInside (r : Registry) : Entity → List String → Prop where
  | leaf {current : Entity} {name : String} {f : FieldDef} (hf : current.field? name = some f)
      (ht : Clause.target? r f = none) (hid : f.isIdentifier = false) : StaysInside r current [name]
  | embedded {current : Entity} {name : String} {rest : List String} {f : FieldDef}
    {target : Descriptor}
      (hf : current.field? name = some f) (ht : Clause.target? r f = some target)
      (hemb : f.isEmbedded = true) (h : StaysInside r target.entity rest) :
      StaysInside r current (name :: rest)

/-- **References that name one document.** No document names two, and identifiers are single
values. -/
structure NamesOne (view : Collections) (roots : List Document)
    (key collection : String) : Prop where
  one : ∀ d ∈ roots, (view.named collection (flatten (Record.get? d key).toList)).length ≤ 1
  single : ∀ e ∈ (view.get collection).documents, ∀ items, Record.get? e "_id" ≠ some (.list items)

/-- **Paths in place**: where some hops are joined, a row has at the path what the path reaches. -/
inductive InPlace (view : Collections) (r : Registry) (roots : List Document) (hops : List Hop)
    (e : Entity) :
    List String → Prop where
  /-- the identifier of the document itself -/
  | identifier {f : FieldDef} (hf : e.field? "id" = some f) (ht : Clause.target? r f = none) :
      InPlace view r roots hops e ["id"]
  /-- in the document itself, where no joined document stands in the way -/
  | own {name : String} {rest : List String} (h : StaysInside r e (name :: rest))
      (hclear : ∀ g ∈ hops, name ≠ labelOf g.path) : InPlace view r roots hops e (name :: rest)
  /-- in the document that a reference names, which is joined -/
  | joined {name : String} {rest : List String} {f : FieldDef} {target : Descriptor}
    (hf : e.field? name = some f)
      (ht : Clause.target? r f = some target) (hemb : f.isEmbedded = false) (hmany : f.many = false)
      (hkey : IsSegment f.connectionField)
      (hhop : Hop.ofField f target.collection [] [] name ∈ hops)
      (hone : NamesOne view roots f.connectionField target.collection)
      (h : StaysInside r target.entity rest) :
      InPlace view r roots hops e (name :: rest)

section Reaching

variable {view : Collections} {r : Registry} {e : Entity} {names : List String}

/-- A path that stays inside reaches what it addresses. -/
theorem StaysInside.reach_eq (h : StaysInside r e names) (objects : List Value) :
    reach view r e names objects = resolveSegments names objects := by
  induction h generalizing objects with
  | @leaf current name f hf ht hid =>
    rw [reach, hf]
    simp only [ht, Clause.leafKey, hid]
    rfl
  | embedded hf ht hemb _ ih =>
    rw [reach, hf]
    simp only [ht, hemb, if_true]
    exact ih _

theorem StaysInside.ne_nil (h : StaysInside r e names) : names ≠ [] := by
  cases h <;> exact List.cons_ne_nil _ _

/-- The identifier of a document is not inside it. -/
theorem StaysInside.ne_id (h : StaysInside r e names) : names ≠ ["id"] := by
  rintro rfl
  cases h with
  | leaf hf _ hid =>
    have hname := List.find?_some hf
    rw [FieldDef.isIdentifier] at hid
    rw [hname] at hid
    cases hid
  | embedded _ _ _ h => exact h.ne_nil rfl

end Reaching

/-! ## What a row has there -/

section Rows

variable {view : Collections} {r : Registry} {roots : List Document} {hops : List Hop} {h : Hop}
  {p : Pick}

/-- **At each hop a valid pick has** a document that may be chosen there, or none. -/
theorem Pick.Valid.exists_choice (hs : Hop.Ordered hops) (hp : p.Valid view roots hops)
    (hh : h ∈ hops) :
    ∃ o, p.CanChoose view roots hops h o ∧
      p.document view roots hops h.path = o.bind fun j =>
        (view.get h.collection).documents[j]? := by
  induction hs generalizing p with
  | nil => cases hh
  | @snoc hops g hs hne hnew hsource ih =>
    obtain ⟨q, o, hq, rfl, ho⟩ := (Pick.valid_append hs hsource).1 hp
    have hlen : q.chosen.length = hops.length := hq.chosen.length_eq.symm
    rcases List.mem_append.1 hh with hm | hm
    · obtain ⟨o', ho', hdocument⟩ := ih hq hm
      refine ⟨o', by rwa [Pick.canChoose_choose hlen o (hs.source_mem hm)], ?_⟩
      rwa [Pick.document_choose hlen o (.inr (List.mem_map_of_mem hm))]
    · obtain rfl := List.mem_singleton.1 hm
      refine ⟨o, by rwa [Pick.canChoose_choose hlen o hsource], ?_⟩
      rw [Pick.document, if_neg hne, Pick.choose, Pick.chosenAt_append hlen, if_neg hnew,
        if_pos rfl]

/-- The documents that values name are those that a hop by identifiers reaches. -/
theorem mem_named_iff {collection : String} {ids : List Value} {e : Document}
    (he : e ∈ (view.get collection).documents)
    (hsingle : ∀ items, Record.get? e "_id" ≠ some (.list items))
    (hforeign : h.foreignField = "_id") :
    e ∈ view.named collection (flatten ids) ↔ h.Reaches ids e := by
  rw [Collections.named, List.mem_filter, and_iff_right he, Hop.Reaches, hforeign,
    resolve_identifier]
  rcases hid : Record.get? e "_id" with _ | v
  · simp [flatten]
  · have hflat : flatten (some v).toList = [v] := by
      cases v with
      | list items => exact absurd hid (hsingle items)
      | _ => rfl
    rw [hflat]
    simp

/-- **The document that a reference names** is the one that is chosen at its hop. -/
theorem NamesOne.named_eq {f : FieldDef} {collection name : String}
    (hone : NamesOne view roots f.connectionField collection) (hs : Hop.Ordered hops)
    (hp : p.Valid view roots hops) (hmany : f.many = false) (hkey : IsSegment f.connectionField)
    (hhop : Hop.ofField f collection [] [] name ∈ hops) {d : Document}
    (hd : roots[p.root]? = some d) :
    view.named collection (flatten (Record.get? d f.connectionField).toList) =
      (p.document view roots hops [name]).toList := by
  have hof : Hop.ofField f collection [] [] name =
      ⟨[name], [], [], f.connectionField, collection, "_id"⟩ := by
    rw [Hop.ofField, hmany]
    rfl
  rw [hof] at hhop
  have hlen := hone.one d (List.mem_of_getElem? hd)
  have hsources : p.sources view roots hops ⟨[name], [], [], f.connectionField, collection, "_id"⟩ =
      (Record.get? d f.connectionField).toList := by
    rw [Pick.sources, Pick.document, if_pos rfl, hd, List.nil_append,
      Text.segments_of_isSegment hkey]
    exact resolveSegments_cons _ [] _
  obtain ⟨o, ho, hdocument⟩ := hp.exists_choice hs hhop
  rw [show p.document view roots hops [name] = _ from hdocument]
  rcases o with _ | j
  · refine List.filter_eq_nil_iff.2 fun e he hnamed => ho e he ?_
    rw [hsources]
    exact (mem_named_iff he (hone.single e he) rfl).1 (List.mem_filter.2 ⟨he, hnamed⟩)
  · obtain ⟨e, hj, hreaches⟩ := ho
    rw [hsources] at hreaches
    have he := List.mem_of_getElem? hj
    have hmem := (mem_named_iff he (hone.single e he) rfl).2 hreaches
    obtain ⟨e', heq⟩ :=
      List.length_eq_one_iff.1 (Nat.le_antisymm hlen (List.length_pos_of_mem hmem))
    rw [heq] at hmem ⊢
    rw [Option.bind_some, hj, List.mem_singleton.1 hmem]
    rfl

/-- The key by which a sort goes. -/
def sortKey (path : String) : String := if path = "id" then "_id" else path

theorem sortKey_of_ne {path : String} (h : Text.segments path ≠ ["id"]) : sortKey path = path := by
  refine if_neg ?_
  rintro rfl
  exact h rfl

variable {cs : List Clause} {e : Entity} {path : String}

/-- **What a row is sorted by** at a path in place is what the path reaches from its document. -/
theorem sortValue_rowOf (hs : Separable cs) (hsound : ∀ c ∈ cs, c.Sound [])
    (hplace : InPlace view r roots (Hop.used cs) e (Text.segments path))
    (hp : p.Valid view roots (Hop.used cs)) :
    sortValue (sortKey path) (rowOf view roots (Hop.used cs) p) =
      reached view r e path (roots[p.root]?.getD []) := by
  obtain ⟨hordered, -⟩ := Hop.ordered_used hsound
  have hlabels : Hop.DistinctLabels (Hop.used cs) := hs.labels.mono used_subset
  have hlen : p.chosen.length = (Hop.used cs).length := hp.chosen.length_eq.symm
  obtain ⟨d, hd⟩ : ∃ d, roots[p.root]? = some d := ⟨_, List.getElem?_eq_getElem hp.root⟩
  unfold sortValue reached
  rw [hd, Option.getD_some]
  congr 1
  generalize hnames : Text.segments path = names at hplace
  cases hplace with
  | @identifier f hf ht =>
    obtain rfl : path = "id" := Text.eq_of_split hnames
    have hid : f.isIdentifier = true := by simpa [FieldDef.isIdentifier] using List.find?_some hf
    rw [sortKey, if_pos rfl, resolve_identifier, get?_rowOf_identifier hs hsound hp, hd,
      Option.getD_some, reach, hf]
    simp only [ht, Clause.leafKey, hid]
    exact (List.flatMap_singleton ..).symm
  | @own name rest h hclear =>
    rw [sortKey_of_ne (hnames ▸ h.ne_id), resolve, hnames, h.reach_eq]
    have hrow : resolveSegments (name :: rest) [.object (rowOf view roots (Hop.used cs) p)] =
        valuesAt (p.document view roots (Hop.used cs) []) (name :: rest) :=
      resolve_row hordered hlabels hp.root hlen (.inl rfl) h.ne_nil fun _ g hg heq =>
        hclear g hg (Option.some.inj heq)
    rwa [Pick.document, if_pos rfl, hd] at hrow
  | @joined name rest f target hf ht hemb hmany hkey hhop hone h =>
    have hne : name :: rest ≠ ["id"] := fun heq => h.ne_nil (List.cons.inj heq).2
    have hpath : [name] ∈ Hop.paths (Hop.used cs) :=
      List.mem_map.2 ⟨_, hhop, Hop.path_ofField f target.collection [] [] name⟩
    have hrow : resolveSegments (name :: rest) [.object (rowOf view roots (Hop.used cs) p)] =
        valuesAt (p.document view roots (Hop.used cs) [name]) rest :=
      resolve_row hordered hlabels hp.root hlen (.inr hpath) h.ne_nil fun hnil =>
        absurd hnil (List.cons_ne_nil _ _)
    have hnamed := hone.named_eq hordered hp hmany hkey hhop hd
    rw [sortKey_of_ne (hnames ▸ hne), resolve, hnames, reach, hf]
    simp only [ht, hemb, hmany, Bool.false_eq_true, if_false, List.flatMap_singleton]
    rw [show descend f.connectionField (.object d) = (Record.get? d f.connectionField).toList from
      rfl, hnamed, h.reach_eq]
    refine hrow.trans ?_
    rcases p.document view roots (Hop.used cs) [name] with _ | e
    · exact (resolveSegments_nil rest).symm
    · rfl

end Rows

/-! ## Sorting rows -/

/-- **An arrangement** of a list by a relation: all its members in order, and what was in order has
kept its places. -/
structure Arranges {α : Type} (le : α → α → Prop) (xs sorted : List α) : Prop where
  perm : sorted.Perm xs
  ordered : sorted.Pairwise le
  stable : ∀ picks : List α, picks.Sublist xs → picks.Pairwise le → picks.Sublist sorted

/-- The number that stands for a direction is read as this direction. -/
theorem isDescending_direction (descending : Bool) :
    isDescending (.int (if descending then -1 else 1)) = descending := by
  cases descending <;> rfl

section Sorting

variable {α : Type} {xs : List α} {row : α → Document} {value : α → Value}
  {le : Value → Value → Prop} {key : String} {descending : Bool}

/-- **Rows are arranged by what they have at the key.** -/
theorem sortByPath_map (descending : Bool) (hvalue : ∀ x ∈ xs, sortValue key (row x) = value x)
    (hle : Comparable le ((xs.map value).filter fun v => !v.isNull)) :
    ∃ sorted, sortByPath key descending (xs.map row) = .ok (sorted.map row) ∧
      Arranges (fun x y => ComesBefore le descending (value x) (value y)) xs sorted := by
  have hvalues : sortedValues key (xs.map row) = (xs.map value).filter fun v => !v.isNull := by
    rw [sortedValues, List.map_map]
    exact congrArg _ (List.map_congr_left hvalue)
  have hrows : Comparable le (sortedValues key (xs.map row)) := by
    rwa [hvalues]
  obtain ⟨test, hsort, htest⟩ := sortByPath_eq_ok descending hrows
  have hordered : OrderedOn (fun x y => ComesBefore le descending (value x) (value y)) xs :=
    (comesBefore_orderedOn descending hle.toOrderedOn).comap
  have htest : ∀ x ∈ xs, ∀ y ∈ xs,
      (test (row x) (row y) = true ↔ ComesBefore le descending (value x) (value y)) :=
    fun x hx y hy => by
      rw [htest _ (List.mem_map_of_mem hx) _ (List.mem_map_of_mem hy), hvalue x hx, hvalue y hy]
  refine ⟨xs.mergeSort fun x y => test (row x) (row y), ?_, List.mergeSort_perm _ _,
    pairwise_mergeSort hordered htest, fun picks => sublist_mergeSort hordered htest⟩
  have hmap : (xs.mergeSort fun x y => test (row x) (row y)).map row =
      (xs.map row).mergeSort test :=
    List.map_mergeSort fun _ _ _ _ => rfl
  rw [hsort, hmap]

/-- The stage of a single sort key. -/
theorem runStages_sort_single (view : Collections) (rest : List Value) (docs : List Document) :
    runStages view (Stage.toValue (.sort [(key, descending)]) :: rest) docs = (do
      let docs ← sortByPath key descending docs
      runStages view rest docs) := by
  change (sortByPath key (isDescending (.int (if descending then -1 else 1))) docs >>=
    runStages view rest) = _
  rw [isDescending_direction]

/-- A single sort term makes a single key. -/
theorem orderStages_single {e : Entity} {t : SortTerm} {order : List Stage}
    (h : orderStages e (some [t]) = .ok order) :
    order = [.sort [(sortKey t.field, t.descending)]] := by
  rw [orderStages, if_neg (by simp)] at h
  obtain ⟨keys, hkeys, h⟩ := bind_eq_ok h
  rw [sortKeys] at hkeys
  dsimp only at hkeys
  split at hkeys
  · cases hkeys
  · cases hkeys
    exact (Except.ok.inj h).symm

end Sorting

/-! ## Lists in order -/

section Lists

variable {view : Collections} {r : Registry} {roots : List Document} {cs : List Clause}
  {d : Descriptor} {args : ListArguments} {defaultLimit : Int} {stages : List Stage} {path : String}
  {descending : Bool} {le : Value → Value → Prop}

/-- The value that a path reaches from the document of a pick. -/
def Pick.reached (view : Collections) (r : Registry) (roots : List Document) (e : Entity)
    (path : String) (p : Pick) :
    Value :=
  EntityGraph.reached view r e path (roots[p.root]?.getD [])

/-- **Answers in order**: by the values that a path reaches from their documents. -/
def InOrderOf (view : Collections) (r : Registry) (roots : List Document) (e : Entity)
    (path : String) (le : Value → Value → Prop) (descending : Bool) (cs : List Clause)
    (sorted : List Pick) : Prop :=
  Arranges (fun p q => ComesBefore le descending (p.reached view r roots e path)
    (q.reached view r roots e path)) (answers view roots cs) sorted

/-- The rows of the answers can be sorted, and come in the order of the values that are reached. -/
theorem exists_inOrderOf (descending : Bool) (hs : Separable cs) (hsound : ∀ c ∈ cs, c.Sound [])
    (hplace : InPlace view r roots (Hop.used cs) d.entity (Text.segments path))
    (hle : Comparable le ((roots.map (reached view r d.entity path)).filter fun v => !v.isNull)) :
    ∃ sorted, InOrderOf view r roots d.entity path le descending cs sorted ∧
      sortByPath (sortKey path) descending
        ((answers view roots cs).map (rowOf view roots (Hop.used cs))) =
          .ok (sorted.map (rowOf view roots (Hop.used cs))) := by
  have hvalid : ∀ p ∈ answers view roots cs, p.Valid view roots (Hop.used cs) := fun p hp =>
    ((mem_answers hsound).1 hp).1
  have hvalues : ∀ v ∈ (answers view roots cs).map (Pick.reached view r roots d.entity path),
      v ∈ roots.map (reached view r d.entity path) := by
    intro v hv
    obtain ⟨p, hp, rfl⟩ := List.mem_map.1 hv
    rw [Pick.reached, List.getElem?_eq_getElem (hvalid p hp).root]
    exact List.mem_map_of_mem (List.getElem_mem _)
  obtain ⟨sorted, hsort, harranged⟩ := sortByPath_map descending
    (fun p hp => sortValue_rowOf hs hsound hplace (hvalid p hp))
    (hle.mono fun v hv => List.mem_filter.2 ⟨hvalues v (List.mem_filter.1 hv).1,
    (List.mem_filter.1 hv).2⟩)
  exact ⟨sorted, harranged, hsort⟩

/-- The stages of a list with a single sort term. -/
theorem listPipeline_sorted (h : listPipeline r defaultLimit d args = .ok stages)
    (hsort : args.sort = some [⟨path, descending⟩])
    (hcs : Clause.ofFilters? r d.entity args.filters = some cs) :
    planFilters r d.entity args.filters .empty = .ok (cs.foldl Plan.addClause .empty) ∧
      orderStages d.entity args.sort = .ok [.sort [(sortKey path, descending)]] ∧
      stages = (cs.foldl Plan.addClause .empty).stages ++ [.sort [(sortKey path, descending)]] ++
        cuts defaultLimit args.pagination := by
  rw [listPipeline_of_not_isEmpty defaultLimit (by simp [ListArguments.isEmpty, hsort]), hsort] at h
  rw [hsort]
  obtain ⟨plan, hplan, h⟩ := bind_eq_ok h
  obtain ⟨order, horder, h⟩ := bind_eq_ok h
  obtain ⟨cs', hcs', rfl⟩ := planFilters_eq hplan
  obtain rfl : cs = cs' := Option.some.inj (hcs.symm.trans hcs')
  obtain rfl := orderStages_single horder
  exact ⟨hplan, horder, (Except.ok.inj h).symm⟩

/-- The filters keep the rows of the answers, or a clause cannot be asked. -/
theorem run_filters (hs : Separable cs) (hsound : ∀ c ∈ cs, c.Sound [])
    (hlegible : ∀ c ∈ cs, c.Legible) :
    runStages view ((cs.foldl Plan.addClause .empty).stages.map Stage.toValue) roots =
        .ok ((answers view roots cs).map (rowOf view roots (Hop.used cs))) ∨
      ∃ f, runStages view ((cs.foldl Plan.addClause .empty).stages.map Stage.toValue) roots =
        .error f ∧
        ∃ p : Pick, p.Valid view roots (Hop.used cs) ∧ ∃ c ∈ cs,
          p.Fails view roots (Hop.used cs) c f := by
  have hselect := @run_select_of_joinable view roots cs hs.labels (hs.joinable hlegible) hs.clauses
    hsound hlegible []
  rwa [List.append_nil] at hselect

end Lists

/-! ## Calls of lists in order -/

namespace Dispatcher

variable {τ : Type} {x : Dispatcher τ SessionId} {c : Component τ MemoryStore} {d : Descriptor}
  {args : ListArguments} {stages : List Stage} {rows : List Document}
  (hstore : x.executor.store = MemoryStore.documentStore.within c)

include hstore

/-- What is shown is what the stages give. -/
theorem run_showing_eq (hstages : listPipeline x.executor.registry x.defaultLimit d args =
    .ok stages) (hsome : stages.isEmpty = false) (t : τ) (q : Call) :
    (x.showing d args).run.run (t, q) =
      ((runStages (c.get t).collections (stages.map Stage.toValue)
        ((c.get t).documents d.collection)).map fun rows => .list (rows.map .object),
          (c.set (c.get t) t, q)) := by
  have hrun := run_runPipeline hstore (d := d) stages t q
  unfold showing
  rw [hstages, Action.run_bind_ok (Action.run_lift _ _), hsome, if_neg Bool.false_ne_true]
  rcases hrows :
    runStages (c.get t).collections (stages.map Stage.toValue)
    ((c.get t).documents d.collection) with
    f | rows
  · rw [hrows] at hrun
    rw [Action.run_bind_error hrun]
    rfl
  · rw [hrows] at hrun
    rw [Action.run_bind_ok hrun]
    rfl

/-- A list whose rows can be had is counted, if it is asked for. -/
theorem run_counting_of_rows (hc : ∀ s t, c.get (c.set s t) = s) {t : τ} {q : Call}
    (hrows : allRows x.executor.registry x.defaultLimit (c.get t).collections d args = .ok rows) :
    ∃ t', c.get t' = c.get t ∧
      (x.counting d args).run.run (t, q) =
        (.ok (), (t', if args.counts then q.counted rows.length else q)) := by
  rcases hpage : args.pagination with _ | p
  · have hcounts : args.counts = false := by rw [ListArguments.counts, hpage]; rfl
    refine ⟨t, rfl, ?_⟩
    rw [counting, hcounts]
    rfl
  · obtain ⟨t', ht', hrun⟩ := run_counting_page (q := q) hstore hc hrows p
    have hsame : args.onPage p = args := by rw [ListArguments.onPage, ← hpage]
    have hcounts : args.counts = p.count := by rw [ListArguments.counts, hpage]; rfl
    rw [hsame] at hrun
    exact ⟨t', ht', by rw [hrun, hcounts]⟩

/-- Where the filters fail, a list fails, be it counted or not. -/
theorem run_list_of_error {plan : Plan} {given : Value}
    (hread : ListArguments.read d.entity given = .ok args) (hargs : ¬ args.isEmpty = true)
    (hplan : planFilters x.executor.registry d.entity args.filters .empty = .ok plan)
    {rest : List Stage} (hrest : rest ≠ [])
    (hstages : listPipeline x.executor.registry x.defaultLimit d args = .ok (plan.stages ++ rest))
    {t : τ} {f : Fault} (hf : runStages (c.get t).collections (plan.stages.map Stage.toValue)
      ((c.get t).documents d.collection) = .error f) (q : Call) :
    (x.list d given).run.run (t, q) = (.error f, (c.set (c.get t) t, q)) := by
  have hrun : ∀ more : List Stage,
    runStages (c.get t).collections ((plan.stages ++ more).map Stage.toValue)
      ((c.get t).documents d.collection) = .error f := fun more => by
    rw [List.map_append, runStages_append, hf]
    rfl
  rw [list_eq, hread, Action.run_bind_ok (Action.run_lift _ _)]
  unfold counting
  split
  · have hcount : countPipeline x.executor.registry d args =
        .ok (plan.stages ++ [.count countField]) := by
      rw [countPipeline, if_neg hargs, hplan]
      rfl
    have hpipeline := run_runPipeline hstore (d := d) (plan.stages ++ [.count countField]) t q
    rw [hrun] at hpipeline
    rw [hcount, bind_assoc, Action.run_bind_ok (Action.run_lift _ _), bind_assoc,
      Action.run_bind_error hpipeline]
  · rw [pure_bind, run_showing_eq hstore hstages (by simp [hrest]), hrun]
    rfl

/-- Where the filters and the order give rows, a list shows a part of them. -/
theorem run_list_of_rows (hc : ∀ s t, c.get (c.set s t) = s) {given : Value}
    (hread : ListArguments.read d.entity given = .ok args) {plan : Plan} {order : List Stage}
    (hplan : planFilters x.executor.registry d.entity args.filters .empty = .ok plan)
    (horder : orderStages d.entity args.sort = .ok order)
    (hstages : listPipeline x.executor.registry x.defaultLimit d args =
      .ok (plan.stages ++ order ++ cuts x.defaultLimit args.pagination)) {t : τ}
    (hrows : runStages (c.get t).collections ((plan.stages ++ order).map Stage.toValue)
      ((c.get t).documents d.collection) = .ok rows) (q : Call) :
    ∃ s, (x.list d given).run.run (t, q) =
      (.ok (.list ((cutOut x.defaultLimit args.pagination rows).map .object)), s) := by
  have hall :
      allRows x.executor.registry x.defaultLimit (c.get t).collections d args = .ok rows := by
    rw [allRows_eq, hplan, horder]
    exact hrows
  obtain ⟨t', ht', hcounting⟩ := run_counting_of_rows (q := q) hstore hc hall
  have hsome : (plan.stages ++ order ++ cuts x.defaultLimit args.pagination).isEmpty = false := by
    cases args.pagination <;> simp [cuts]
  have hrun : runStages (c.get t).collections
      ((plan.stages ++ order ++ cuts x.defaultLimit args.pagination).map Stage.toValue)
      ((c.get t).documents d.collection) = .ok (cutOut x.defaultLimit args.pagination rows) := by
    rw [List.map_append, runStages_append, hrows]
    exact runStages_cuts ..
  rw [list_eq, hread, Action.run_bind_ok (Action.run_lift _ _), Action.run_bind_ok hcounting,
    run_showing_eq hstore hstages hsome, ht', hrun]
  exact ⟨_, rfl⟩

/-- **Sorted lists.** Let a call of a list be let through by the middleware with arguments that are
accepted and have a single sort term. Let the path of this term be in place: it leads to a field of
the document itself, through embedded objects, or of the one document that its first name refers to
and that a filter joins. And let the values that it reaches from the stored documents be comparable.
Then either a clause of the filters cannot be asked of some document with its related documents; or
the call returns a part of the rows of the answers, in the direction of the term by the values that
the path reaches from their documents. -/
theorem call_sorts (hc : ∀ s t, c.get (c.set s t) = s) {name e : String} {ep : Endpoint}
    (hep : Record.get? x.endpoints name = some ep) (hfind : ep.kind = .find)
    (he : ep.entity = some e) (hd : Record.get? x.executor.registry.descriptors e = some d)
    {fs context : Document} {t t₁ : τ} {q : Call}
    (hchain : (chain ep x.middleware).run.run (t, ⟨.object fs, context⟩) = (.ok (), (t₁, q)))
    (hread : ListArguments.read d.entity q.args = .ok args)
    (haccepted : listPipeline x.executor.registry x.defaultLimit d args = .ok stages)
    {path : String} {descending : Bool} (hsort : args.sort = some [⟨path, descending⟩])
    {cs : List Clause} (hcs : Clause.ofFilters? x.executor.registry d.entity args.filters = some cs)
    (hnames : ∀ name ∈ Record.keys args.filters, IsLegible [name]) (hs : Separable cs)
    {view : Collections} (hview : (c.get t₁).collections = view) {roots : List Document}
    (hroots : (c.get t₁).documents d.collection = roots)
    (hplace : InPlace view x.executor.registry roots (Hop.used cs) d.entity (Text.segments path))
    {le : Value → Value → Prop} (hle : Comparable le
      ((roots.map (reached view x.executor.registry d.entity path)).filter fun v => !v.isNull)) :
    ∃ r s, (x.call name).run.run (t, ⟨.object fs, context⟩) = (r, s) ∧
      ((∃ f, r = .error f.normalize ∧ ∃ p : Pick, p.Valid view roots (Hop.used cs) ∧
          ∃ c ∈ cs, p.Fails view roots (Hop.used cs) c f) ∨
        ∃ sorted, InOrderOf view x.executor.registry roots d.entity path le descending cs sorted ∧
          r = .ok (.list ((cutOut x.defaultLimit args.pagination sorted).map fun p =>
            .object (rowOf view roots (Hop.used cs) p)))) := by
  subst hview hroots
  have hsound := Clause.sound_ofFilters? hcs
  obtain ⟨hplan, horder, rfl⟩ := listPipeline_sorted haccepted hsort hcs
  rw [run_call_list hep hfind he hd hchain]
  rcases @run_filters (c.get t₁).collections ((c.get t₁).documents d.collection) cs hs hsound
    (Clause.legible_ofFilters? hnames hcs) with hok | ⟨f, hf, hfails⟩
  · obtain ⟨sorted, hinOrder, hsorted⟩ := exists_inOrderOf descending hs hsound hplace hle
    have hrows : runStages (c.get t₁).collections
        (((cs.foldl Plan.addClause .empty).stages ++ [Stage.sort [(sortKey path, descending)]]).map
        Stage.toValue) ((c.get t₁).documents d.collection) =
        .ok (sorted.map (rowOf (c.get t₁).collections ((c.get t₁).documents d.collection)
        (Hop.used cs))) := by
      rw [List.map_append, runStages_append, hok]
      refine (runStages_sort_single ..).trans ?_
      rw [hsorted]
      rfl
    obtain ⟨s, hlist⟩ := run_list_of_rows hstore hc hread hplan horder haccepted hrows q
    rw [hlist]
    refine ⟨_, _, rfl, .inr ⟨sorted, hinOrder, ?_⟩⟩
    rw [cutOut_map, List.map_map]
    rfl
  · rw [run_list_of_error hstore hread (by simp [ListArguments.isEmpty, hsort]) hplan
      (List.cons_ne_nil _ _) (by rw [haccepted, List.append_assoc]; rfl) hf q]
    exact ⟨_, _, rfl, .inl ⟨f, rfl, hfails⟩⟩

end Dispatcher

/-! ## Orders by the names of their customers -/

/-- An order of Bob, and after it one of Ann. -/
def mixedOrders : MemoryStore := { MemoryStore.empty with
  collections := [
    ("customers", [
      (.id (.ofNat 1), [("_id", .id (.ofNat 1)), ("name", .text "Ann")]),
      (.id (.ofNat 2), [("_id", .id (.ofNat 2)), ("name", .text "Bob")])]),
    ("orders", [
      (.id (.ofNat 3), [("_id", .id (.ofNat 3)), ("title", .text "Tea"),
        ("customer", .id (.ofNat 2))]),
      (.id (.ofNat 4), [("_id", .id (.ofNat 4)), ("title", .text "Milk"),
        ("customer", .id (.ofNat 1))])])]
  lastId := 4 }

/-- What a call of the service returns there. -/
def mixedCall (name : String) (args : Document) : Outcome Value :=
  ((sales.call name).run.run (mixedOrders, ⟨.object args, []⟩)).1

/-- Sort by the names of the customers. -/
def byName : String × Value :=
  ("sort", .object [("terms",
    .list [.object [("field", .text "buyer.name"), ("order", .text "ASC")]])])

/-- A filter on the customers that all of them pass. -/
def ofAnyone : String × Value :=
  ("buyer", .object [("terms", .list [.object [("path", .text "name"), ("operator", .text "NE"),
    ("value", .text "Zed")]])])

/-- What this filter asks. -/
def ofAnyoneClauses : List Clause :=
    [⟨[toBuyer], ["buyer"], ["name"], .object [("$ne", .text "Zed")]⟩]

/-- The value by which the orders are to be sorted. -/
theorem reached_mixedOrders : (mixedOrders.documents "orders").map
    (reached mixedOrders.collections salesRegistry order "buyer.name") =
      ["Bob", "Ann"].map Value.text := by
  cbv

/-- The arguments of the sorted list. -/
def sortedArguments : ListArguments :=
  ⟨[("buyer", .expression [⟨⟨some .ne, .text "Zed"⟩, "name"⟩])], some [⟨"buyer.name", false⟩], none⟩

/-- The path of this sort is in place there: the filter joins the one customer of each order. -/
theorem inPlace_byName :
    InPlace mixedOrders.collections salesRegistry (mixedOrders.documents "orders")
    (Hop.used ofAnyoneClauses) order (Text.segments "buyer.name") := by
  obtain ⟨target, ht, hentity, hcollection⟩ :
    ∃ d, Record.get? salesRegistry.descriptors "Customer" = some d ∧
      d.entity = customer ∧ d.collection = "customers" := ⟨_, rfl, rfl, rfl⟩
  have hone : NamesOne mixedOrders.collections (mixedOrders.documents "orders") "customer"
      "customers" := by
    refine ⟨by decide +kernel, fun e he items hid => ?_⟩
    rcases List.mem_pair.1 he with rfl | rfl <;> cases hid
  have hsegments : Text.segments "buyer.name" = ["buyer", "name"] := by decide
  obtain ⟨f, hf, htarget, hemb, hmany, hkey⟩ :
    ∃ f, order.field? "buyer" = some f ∧ f.target = some "Customer" ∧
      f.isEmbedded = false ∧ f.many = false ∧ f.connectionField = "customer" :=
      ⟨_, rfl, rfl, rfl, rfl, rfl⟩
  rw [hsegments]
  refine .joined hf (by rw [Clause.target?, htarget]; exact ht) hemb hmany ?_ ?_ ?_ ?_
  · rw [hkey]
    unfold IsSegment
    decide
  · rw [hcollection, Hop.ofField, hmany, hkey]
    exact List.mem_singleton_self _
  · rw [hcollection, hkey]
    exact hone
  · rw [hentity]
    exact .leaf rfl rfl rfl

theorem separable_ofAnyone : Separable ofAnyoneClauses where
  labels := by
    unfold Hop.DistinctLabels
    decide
  identifier := by decide
  hops := fun before h after heq _ g hg => by
    obtain rfl := Hop.before_eq_nil rfl heq
    cases hg
  clauses := by decide

/-- Both orders are returned in order when a filter joins their customers. -/
theorem orders_sorted : ∃ sorted : List Pick, sorted.length = 2 ∧
    InOrderOf mixedOrders.collections salesRegistry (mixedOrders.documents "orders") order
      "buyer.name" TextLe false ofAnyoneClauses sorted ∧
    mixedCall "orders" [ofAnyone, byName] = .ok (.list (sorted.map fun p =>
      .object (rowOf mixedOrders.collections (mixedOrders.documents "orders")
        (Hop.used ofAnyoneClauses) p))) := by
  obtain ⟨⟨_, _, _, _, _, _, _, _⟩, hd, rfl, rfl⟩ :
    ∃ d, Record.get? salesRegistry.descriptors "Order" = some d ∧
      d.entity = order ∧ d.collection = "orders" := ⟨_, rfl, rfl, rfl⟩
  have hendpoint : Record.get? sales.endpoints "orders" =
    some ⟨"orders", .find, some "Order", none⟩ := rfl
  have hchain : (Dispatcher.chain ⟨"orders", .find, some "Order", none⟩ sales.middleware).run.run
      (mixedOrders, ⟨.object [ofAnyone, byName], []⟩) =
      (.ok (), (mixedOrders, ⟨.object [ofAnyone, byName], []⟩)) := rfl
  have hread : ListArguments.read order (.object [ofAnyone, byName]) = .ok sortedArguments := by cbv
  have hcs : Clause.ofFilters? salesRegistry order sortedArguments.filters = some ofAnyoneClauses :=
    rfl
  have hnames : ∀ name ∈ ["buyer"], IsLegible [name] := fun name hname => by
    obtain rfl := List.mem_singleton.1 hname
    exact isLegible_singleton (by unfold IsSegment; decide) (by unfold IsSigned; decide)
  have hle : Comparable TextLe (((mixedOrders.documents "orders").map
      (reached mixedOrders.collections salesRegistry order "buyer.name")).filter fun v =>
      !v.isNull) := by
    rw [reached_mixedOrders]
    refine comparable_texts fun v hv => ?_
    obtain ⟨s, -, rfl⟩ := List.mem_map.1 (List.mem_filter.1 hv).1
    exact ⟨s, rfl⟩
  obtain ⟨r, s, hrun, ⟨f, -, p, -, cl, hcl, hfails⟩ | ⟨sorted, hsorted, rfl⟩⟩ :=
    Dispatcher.call_sorts (x := sales) (c := ⟨id, fun m _ => m⟩) rfl (fun _ _ =>
      rfl) hendpoint rfl rfl hd hchain hread rfl rfl hcs hnames
    separable_ofAnyone (Eq.refl mixedOrders.collections) (Eq.refl (mixedOrders.documents "orders"))
      inPlace_byName hle
  · obtain rfl := List.mem_singleton.1 hcl
    rw [Pick.Fails, conditionHolds_of_operator (by rfl)] at hfails
    cases hfails
  · have hlength :
        (answers mixedOrders.collections (mixedOrders.documents "orders")
          ofAnyoneClauses).length = 2 := by
      decide +kernel
    have hlength : sorted.length = 2 := hsorted.perm.length_eq.trans hlength
    have hcut : cutOut sales.defaultLimit none sorted = sorted := by
      rw [cutOut, List.take_of_length_le]
      rw [hlength]
      decide
    refine ⟨sorted, hlength, hsorted, ?_⟩
    rw [mixedCall, hrun]
    exact congrArg (fun picks => Except.ok (Value.list (List.map _ picks))) hcut

/-- **Orders that are not sorted.** Without a filter that joins the customers the same sort is
accepted, and the orders are returned as they are stored: first that of Bob, and then that of
Ann. -/
theorem orders_unsorted :
    (do
      let d ← salesRegistry.lookup "Order"
      listPipeline salesRegistry sales.defaultLimit d { sortedArguments with filters := [] }) =
        .ok [.sort [("buyer.name", false)], .limit 10, .skip 0] ∧
    mixedCall "orders" [byName] = .ok (.list ((mixedOrders.documents "orders").map .object)) ∧
    ¬ (mixedOrders.documents "orders").Pairwise fun d e => ComesBefore TextLe false
      (reached mixedOrders.collections salesRegistry order "buyer.name" d)
      (reached mixedOrders.collections salesRegistry order "buyer.name" e) := by
  refine ⟨by rfl, by cbv, fun hpairwise => ?_⟩
  have hvalues := List.pairwise_map.2 hpairwise
  rw [reached_mixedOrders] at hvalues
  obtain hfirst | ⟨-, s, t, hs, ht, hle⟩ :=
    (List.pairwise_cons.1 hvalues).1 _ (List.mem_singleton_self _)
  · cases hfirst
  · cases hs
    cases ht
    exact absurd hle (by decide)

end EntityGraph
