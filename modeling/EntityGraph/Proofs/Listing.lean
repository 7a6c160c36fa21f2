import EntityGraph.Proofs.Pipeline
import EntityGraph.Proofs.States
import EntityGraph.Proofs.Uniqueness
import Mathlib.Data.Set.Card

/-!
# Lists and how often they name a document

A list has one row for each answer to its filters, that is for each document and choice of related
documents of which all clauses hold. A document that reaches two related documents which both
satisfy the filter is therefore listed twice, and counted twice. Where no hop reaches two documents
(`Hop.Narrow`), the choice is forced by the document (`Pick.eq_of_root`): then each document is
listed once at most, and the count is the number of documents that meet the filters. Order and page
do not change this: a page is cut out of a rearrangement of the answers (`IsPage`).
-/

namespace EntityGraph

/-! ## Forced choices -/

section Forced

variable {view : Collections} {roots : List Document} {hops : List Hop} {h : Hop} {p : Pick}
  {cs : List Clause}

/-- **Narrow hops**: no hop reaches two documents from the documents of a valid pick. -/
def Hop.Narrow (view : Collections) (roots : List Document) (hops : List Hop) : Prop :=
  ∀ p : Pick, p.Valid view roots hops → ∀ h ∈ hops, ∀ i j,
    p.CanChoose view roots hops h (some i) → p.CanChoose view roots hops h (some j) → i = j

/-- **A single answer for each document**: the document of an answer leaves no choice. -/
def SingleAnswers (view : Collections) (roots : List Document) (cs : List Clause) : Prop :=
  ∀ p ∈ answers view roots cs, ∀ q ∈ answers view roots cs, p.root = q.root → p = q

/-- **A document meets clauses** when all of them hold for some choice of related documents. -/
def MeetsClauses (view : Collections) (roots : List Document) (cs : List Clause) (i : Nat) : Prop :=
  ∃ p : Pick, p.root = i ∧ p.Valid view roots (Hop.used cs) ∧
    ∀ c ∈ cs, p.Holds view roots (Hop.used cs) c

namespace Pick

/-- A further choice does not change what may be chosen at the hops before. -/
theorem canChoose_choose (hlen : p.chosen.length = hops.length) (o : Option Nat) {g : Hop}
    (hg : g.source = [] ∨ g.source ∈ Hop.paths hops) (o' : Option Nat) :
    (p.choose o).CanChoose view roots (hops ++ [h]) g o' = p.CanChoose view roots hops g o' := by
  cases o' <;> simp only [CanChoose, sources_choose hlen o hg]

/-- Something can be chosen at every hop. -/
theorem exists_canChoose (p : Pick) (h : Hop) : ∃ o, p.CanChoose view roots hops h o := by
  by_cases hreach : ∃ e ∈ (view.get h.collection).documents,
    h.Reaches (p.sources view roots hops h) e
  · obtain ⟨e, he, hr⟩ := hreach
    obtain ⟨j, hj⟩ := List.getElem?_of_mem he
    exact ⟨some j, e, hj, hr⟩
  · exact ⟨none, fun e he hr => hreach ⟨e, he, hr⟩⟩

/-- Where no two documents are reached, the choice is forced. -/
theorem eq_of_canChoose {o o' : Option Nat} (ho : p.CanChoose view roots hops h o)
    (ho' : p.CanChoose view roots hops h o')
    (hsingle : ∀ i j, p.CanChoose view roots hops h (some i) →
      p.CanChoose view roots hops h (some j) →
      i = j) : o = o' := by
  match o, o', ho, ho' with
  | none, none, _, _ => rfl
  | some i, some j, hi, hj => rw [hsingle i j hi hj]
  | none, some j, hnone, ⟨e, hj, hr⟩ => exact absurd hr (hnone e (List.mem_of_getElem? hj))
  | some i, none, ⟨e, hi, hr⟩, hnone => exact absurd hr (hnone e (List.mem_of_getElem? hi))

end Pick

/-- Narrow hops are narrow up to each of them. -/
theorem Hop.Narrow.init (hs : Ordered hops) (hsource : h.source = [] ∨ h.source ∈ paths hops)
    (hn : Narrow view roots (hops ++ [h])) : Narrow view roots hops := by
  intro p hp g hg i j hi hj
  have hlen : p.chosen.length = hops.length := hp.chosen.length_eq.symm
  obtain ⟨o, ho⟩ := @Pick.exists_canChoose view roots hops p h
  have hvalid := (Pick.valid_append hs hsource).2 ⟨p, o, hp, rfl, ho⟩
  have hsame := fun o' => @Pick.canChoose_choose view roots hops h p hlen o g (hs.source_mem hg) o'
  exact hn _ hvalid g (List.mem_append_left _ hg) i j (by rwa [hsame]) (by rwa [hsame])

/-- **Along narrow hops the document forces the pick.** The picks agree up to the last hop, and
there only one thing can be chosen. -/
theorem Pick.eq_of_root (hs : Hop.Ordered hops) (hn : Hop.Narrow view roots hops) {q : Pick}
    (hp : p.Valid view roots hops) (hq : q.Valid view roots hops) (hroot : p.root = q.root) :
    p = q := by
  induction hs generalizing p q with
  | nil =>
    obtain ⟨i, chosen⟩ := p
    obtain ⟨j, chosen'⟩ := q
    obtain rfl : i = j := hroot
    obtain rfl : chosen = [] := List.forall₂_nil_left_iff.1 hp.chosen
    obtain rfl : chosen' = [] := List.forall₂_nil_left_iff.1 hq.chosen
    rfl
  | @snoc hops h hs hne hnew hsource ih =>
    obtain ⟨p, o, hp', rfl, ho⟩ := (valid_append hs hsource).1 hp
    obtain ⟨q, o', hq', rfl, ho'⟩ := (valid_append hs hsource).1 hq
    obtain rfl : p = q := ih (hn.init hs hsource) hp' hq' hroot
    have hlen : p.chosen.length = hops.length := hp'.chosen.length_eq.symm
    refine congrArg p.choose (eq_of_canChoose ho ho' fun i j hi hj => ?_)
    exact hn _ hp h (List.mem_append_right _ (List.mem_singleton_self _)) i j
      (by rwa [canChoose_choose hlen o hsource]) (by rwa [canChoose_choose hlen o hsource])

theorem Hop.Narrow.singleAnswers (hsound : ∀ c ∈ cs, c.Sound [])
    (hn : Narrow view roots (used cs)) : SingleAnswers view roots cs := fun _ hp _ hq hroot =>
  Pick.eq_of_root (ordered_used hsound).1 hn ((mem_answers hsound).1 hp).1
    ((mem_answers hsound).1 hq).1 hroot

/-- Only an identifier equals an identifier. -/
theorem Value.eq_id {w : Value} {o : ObjectId} (h : w.eq (.id o) = true) : w = .id o := by
  cases w with
  | id o' => rw [Value.id_eq_iff.1 h]
  | _ => cases h

theorem eq_of_mem_of_length_le_one {xs : List Value} (hlen : xs.length ≤ 1) {v w : Value}
    (hv : v ∈ xs) (hw : w ∈ xs) : v = w := by
  match xs, hlen, hv, hw with
  | [u], _, hv, hw => rw [List.mem_singleton.1 hv, List.mem_singleton.1 hw]

theorem resolve_identifier (d : Document) : resolve d "_id" = (Record.get? d "_id").toList := by
  rw [resolve, Text.segments_of_isSegment (by unfold IsSegment; decide), resolveSegments_cons]
  rfl

/-- **Hops along single relations are narrow**: the far side is found by its identifier, and one
value at most is looked for. Two documents that are reached are filed under the same identifier,
which is filed once. -/
theorem Hop.narrow_of_single (hforeign : ∀ h ∈ hops, h.foreignField = "_id")
    (hfiled : ∀ h ∈ hops, (view.get h.collection).Distinct ∧ ∀ e ∈ view.get h.collection,
      Collection.Filed e)
    (hvalues : ∀ p : Pick, p.Valid view roots hops → ∀ h ∈ hops,
      (flatten (p.sources view roots hops h)).length ≤ 1) : Narrow view roots hops := by
  intro p hp h hh i j hi hj
  obtain ⟨hdistinct, hkeys⟩ := hfiled h hh
  have hkey : ∀ k, p.CanChoose view roots hops h (some k) → ∃ o : ObjectId, ∃ e,
      (view.get h.collection)[k]? = some (.id o, e) ∧
      (Value.id o).isIn (flatten (p.sources view roots hops h)) = true := by
    rintro k ⟨e, hk, v, hv, hin⟩
    obtain ⟨⟨key, e'⟩, hentry, rfl⟩ : ∃ entry, (view.get h.collection)[k]? = some entry ∧
        entry.2 = e := by
      simpa [Collection.documents] using hk
    obtain ⟨o, rfl, hid⟩ := hkeys _ (List.mem_of_getElem? hentry)
    have hv' : v ∈ flatten [.id o] := by
      rwa [hforeign h hh, resolve_identifier, hid] at hv
    obtain rfl : v = .id o := List.mem_singleton.1 hv'
    exact ⟨o, e', hentry, hin⟩
  obtain ⟨o, d, hi, hin⟩ := hkey i hi
  obtain ⟨o', d', hj, hin'⟩ := hkey j hj
  obtain rfl : o = o' := by
    obtain ⟨w, hw, hwo⟩ := List.any_eq_true.1 hin
    obtain ⟨w', hw', hwo'⟩ := List.any_eq_true.1 hin'
    have hone : w = w' := eq_of_mem_of_length_le_one (hvalues p hp h hh) hw hw'
    rwa [Value.eq_id hwo, Value.eq_id hwo', Value.id.injEq] at hone
  have hapart : ∀ {i j : Nat} {e e' : Document}, (view.get h.collection)[i]? = some (.id o, e) →
      (view.get h.collection)[j]? = some (.id o, e') → ¬ i < j := by
    intro i j e e' hi hj hlt
    obtain ⟨hi', hi⟩ := List.getElem?_eq_some_iff.1 hi
    obtain ⟨hj', hj⟩ := List.getElem?_eq_some_iff.1 hj
    have hne := List.pairwise_iff_getElem.1 hdistinct i j hi' hj' hlt
    rw [hi, hj, Value.id_eq_iff.2 rfl] at hne
    cases hne
  exact Nat.le_antisymm (Nat.le_of_not_lt (hapart hj hi)) (Nat.le_of_not_lt (hapart hi hj))

/-- The documents of answers are those that meet the clauses. -/
theorem coe_roots_answers (hsound : ∀ c ∈ cs, c.Sound []) :
    {i | MeetsClauses view roots cs i} = ((answers view roots cs).map Pick.root).toFinset := by
  ext i
  simp only [Set.mem_ofPred_eq, List.coe_toFinset, List.mem_map, mem_answers hsound]
  constructor
  · rintro ⟨p, rfl, hvalid, hholds⟩
    exact ⟨p, ⟨hvalid, hholds⟩, rfl⟩
  · rintro ⟨p, ⟨hvalid, hholds⟩, rfl⟩
    exact ⟨p, rfl, hvalid, hholds⟩

theorem nodup_answers (hsound : ∀ c ∈ cs, c.Sound []) : (answers view roots cs).Nodup :=
  (nodup_picksOver (Hop.ordered_used hsound).1).filter _

theorem nodup_roots_answers_iff (hsound : ∀ c ∈ cs, c.Sound []) :
    ((answers view roots cs).map Pick.root).Nodup ↔ SingleAnswers view roots cs :=
  List.nodup_map_iff_inj_on (nodup_answers hsound)

/-- **There are as many answers as documents that meet the clauses** when each document has a single
answer, and more otherwise. -/
theorem ncard_meets (hsound : ∀ c ∈ cs, c.Sound []) :
    {i | MeetsClauses view roots cs i}.ncard ≤ (answers view roots cs).length ∧
      ((answers view roots cs).length = {i | MeetsClauses view roots cs i}.ncard ↔
        SingleAnswers view roots cs) ∧
      {i | MeetsClauses view roots cs i}.ncard ≤ roots.length := by
  rw [coe_roots_answers hsound, Set.ncard_coe_finset, ← nodup_roots_answers_iff hsound]
  have hlen : ((answers view roots cs).map Pick.root).length = (answers view roots cs).length :=
    List.length_map ..
  refine ⟨hlen ▸ List.toFinset_card_le _, ?_, ?_⟩
  · rw [← hlen, eq_comm]
    exact Multiset.toFinset_card_eq_card_iff_nodup
  · refine (Finset.card_le_card fun i hi => ?_).trans_eq (Finset.card_range roots.length)
    obtain ⟨p, hp, rfl⟩ := List.mem_map.1 (List.mem_toFinset.1 hi)
    exact Finset.mem_range.2 ((mem_answers hsound).1 hp).1.root

end Forced

/-! ## Order and cuts -/

section Pages

variable {α : Type} {view : Collections}

/-- The part of a list that a page shows. -/
def cutOut (defaultLimit : Int) (page : Option Pagination) (xs : List α) : List α :=
  match page with
  | none => xs.take (position defaultLimit xs.length)
  | some p => (xs.take (p.size + p.size * (p.page - 1))).drop (p.size * (p.page - 1))

theorem cutOut_sublist (defaultLimit : Int) (page : Option Pagination) (xs : List α) :
    (cutOut defaultLimit page xs).Sublist xs := by
  cases page with
  | none => exact List.take_sublist _ _
  | some p => exact (List.drop_sublist _ _).trans (List.take_sublist _ _)

theorem cutOut_map {β : Type} (f : α → β) (defaultLimit : Int) (page : Option Pagination)
    (xs : List α) : cutOut defaultLimit page (xs.map f) = (cutOut defaultLimit page xs).map f := by
  cases page with
  | none => rw [cutOut, cutOut, List.length_map, List.map_take]
  | some p => rw [cutOut, cutOut, List.map_drop, List.map_take]

theorem position_natCast (n length : Nat) : position n length = n := by
  rw [position, if_neg (by omega), Int.toNat_natCast]

/-- The cuts of a page show that part of the rows. -/
theorem runStages_cuts (defaultLimit : Int) (page : Option Pagination) (docs : List Document) :
    runStages view ((cuts defaultLimit page).map Stage.toValue) docs =
      .ok (cutOut defaultLimit page docs) := by
  cases page with
  | none =>
    change (Except.ok ((docs.take (position defaultLimit docs.length)).drop
      (position (0 : Nat) _)) :
      Outcome (List Document)) = _
    rw [position_natCast]
    rfl
  | some p =>
    change (Except.ok ((docs.take (position (p.size + p.size * (p.page - 1) : Nat)
      docs.length)).drop (position (p.size * (p.page - 1) : Nat) _)) : Outcome (List Document)) = _
    rw [position_natCast, position_natCast]
    rfl

/-- Sorting rearranges. -/
theorem perm_of_sortByKeys {keys : List (String × Value)} {docs docs' : List Document}
    (h : sortByKeys keys docs = .ok docs') : docs'.Perm docs := by
  induction keys generalizing docs' with
  | nil =>
    cases h
    exact .refl _
  | cons key rest ih =>
    obtain ⟨sorted, hsorted, h⟩ := bind_eq_ok h
    unfold sortByPath at h
    split at h
    · cases h
      exact (List.mergeSort_perm _ _).trans (ih hsorted)
    · cases h

/-- What rearranges images is the image of a rearrangement. -/
theorem exists_perm_of_perm_map {β : Type} {f : α → β} {xs : List α} {ys : List β}
    (h : ys.Perm (xs.map f)) : ∃ xs' : List α, xs'.Perm xs ∧ ys = xs'.map f := by
  have hpairs : List.Forall₂ (fun y x => y = f x) (xs.map f) xs :=
    List.forall₂_map_left_iff.2 (List.forall₂_same.2 fun _ _ => rfl)
  obtain ⟨xs', hys, hperm⟩ := List.perm_comp_forall₂ h hpairs
  refine ⟨xs', hperm, ?_⟩
  rw [← List.forall₂_eq_eq_eq, List.forall₂_map_right_iff]
  exact hys

end Pages

/-! ## Lists -/

/-- **Clauses whose names keep apart**: different paths have different labels, no label is that of
identifiers, and none stands in the way of what clauses, or hops that are joined later, read in the
document itself. -/
structure Separable (cs : List Clause) : Prop where
  labels : Hop.DistinctLabels (cs.flatMap Clause.hops)
  identifier : ∀ h ∈ Hop.used cs, labelOf h.path ≠ "_id"
  hops : ∀ before h after, Hop.used cs = before ++ h :: after → h.source = [] → ∀ g ∈ before,
    (h.inside ++ Text.segments h.localField).head? ≠ some (labelOf g.path)
  clauses : ∀ c ∈ cs, c.hop = [] → ∀ g ∈ Hop.used cs, c.path.head? ≠ some (labelOf g.path)

/-- Before a single hop there is no other. -/
theorem Hop.before_eq_nil {cs : List Clause} (hlen : (used cs).length = 1) {before after : List Hop}
    {h : Hop} (heq : used cs = before ++ h :: after) : before = [] := by
  rw [heq, List.length_append, List.length_cons] at hlen
  exact List.length_eq_zero_iff.1 (by omega)

section Lists

variable {view : Collections} {roots : List Document} {cs : List Clause}

theorem Separable.joinable (hs : Separable cs) (hlegible : ∀ c ∈ cs, c.Legible) :
    Hop.Joinable (Hop.used cs) := by
  refine ⟨hs.labels.mono used_subset, fun h hh => ?_, hs.hops⟩
  obtain ⟨c, hc, hm⟩ := List.mem_flatMap.1 (used_subset h hh)
  exact (hlegible c hc).hops h hm

/-- The selection after the joins keeps the answers, or cannot be made. -/
theorem select_cases (hs : Separable cs) (hsound : ∀ c ∈ cs, c.Sound [])
    (hlegible : ∀ c ∈ cs, c.Legible) (rest : List Value) :
    runStages view ((cs.foldl Plan.addClause .empty).stages.map Stage.toValue ++ rest) roots =
        runStages view rest ((answers view roots cs).map (rowOf view roots (Hop.used cs))) ∨
      ∃ f,
        runStages view ((cs.foldl Plan.addClause .empty).stages.map Stage.toValue ++ rest) roots =
          .error f := by
  obtain hok | ⟨f, hf, -⟩ :=
    @run_select_of_joinable view roots cs hs.labels (hs.joinable hlegible) hs.clauses
      hsound hlegible rest
  · exact .inl hok
  · exact .inr ⟨f, hf⟩

/-- The part of the answers that is listed. Arguments that ask for nothing in particular list
everything. -/
def ListArguments.cut {α : Type} (args : ListArguments) (defaultLimit : Int) (xs : List α) :
    List α :=
  if args.isEmpty then xs else cutOut defaultLimit args.pagination xs

/-- **A page of the answers**: the rows of the answers, rearranged where an order was asked for, and
cut. -/
def IsPage (view : Collections) (roots : List Document) (cs : List Clause) (args : ListArguments)
    (defaultLimit : Int) (rows : List Document) : Prop :=
  ∃ sorted : List Pick, sorted.Perm (answers view roots cs) ∧
    ((∀ terms, args.sort = some terms → terms = []) → sorted = answers view roots cs) ∧
    rows = (args.cut defaultLimit sorted).map (rowOf view roots (Hop.used cs))

theorem ListArguments.cut_sublist {α : Type} (args : ListArguments) (defaultLimit : Int)
    (xs : List α) : (args.cut defaultLimit xs).Sublist xs := by
  unfold cut
  split
  · exact .refl _
  · exact cutOut_sublist ..

/-- The stages of a count come from the clauses of the filters. -/
theorem countPipeline_eq {r : Registry} {d : Descriptor} {args : ListArguments}
    {stages : List Stage} (h : countPipeline r d args = .ok stages)
    (hcs : Clause.ofFilters? r d.entity args.filters = some cs) :
    stages = (cs.foldl Plan.addClause .empty).stages ++ [.count countField] := by
  unfold countPipeline at h
  split at h
  · rename_i hempty
    simp only [ListArguments.isEmpty, Bool.and_eq_true, List.isEmpty_iff] at hempty
    rw [hempty.1.1] at hcs
    cases hcs
    cases h
    rfl
  · obtain ⟨plan, hplan, h⟩ := bind_eq_ok h
    obtain ⟨cs', hcs', rfl⟩ := planFilters_eq hplan
    obtain rfl : cs = cs' := Option.some.inj (hcs.symm.trans hcs')
    cases h
    rfl

theorem exists_clauses_of_countPipeline {r : Registry} {d : Descriptor} {args : ListArguments}
    {stages : List Stage} (h : countPipeline r d args = .ok stages) :
    ∃ cs, Clause.ofFilters? r d.entity args.filters = some cs := by
  unfold countPipeline at h
  split at h
  · rename_i hempty
    simp only [ListArguments.isEmpty, Bool.and_eq_true, List.isEmpty_iff] at hempty
    rw [hempty.1.1]
    exact ⟨[], rfl⟩
  · obtain ⟨plan, hplan, -⟩ := bind_eq_ok h
    obtain ⟨cs, hcs, -⟩ := planFilters_eq hplan
    exact ⟨cs, hcs⟩

/-- The stages of a list that asks for something: those of the filters, then perhaps an order, then
the cuts. -/
theorem listPipeline_eq {r : Registry} {d : Descriptor} {args : ListArguments} {defaultLimit : Int}
    {stages : List Stage} (h : listPipeline r defaultLimit d args = .ok stages)
    (hargs : args.isEmpty = false) :
    ∃ cs order, Clause.ofFilters? r d.entity args.filters = some cs ∧
      stages = (cs.foldl Plan.addClause .empty).stages ++
        (order ++ cuts defaultLimit args.pagination) ∧
      (order = [] ∨ (∃ keys, order = [.sort keys]) ∧ ¬ ∀ terms, args.sort = some terms →
        terms = []) := by
  unfold listPipeline at h
  rw [hargs] at h
  obtain ⟨plan, hplan, h⟩ := bind_eq_ok h
  obtain ⟨cs, hcs, rfl⟩ := planFilters_eq hplan
  rcases hsort : args.sort with _ | terms
  · rw [hsort] at h
    cases h
    exact ⟨cs, [], hcs, List.append_assoc .., .inl rfl⟩
  · rw [hsort] at h
    dsimp only at h
    split at h
    · cases h
      exact ⟨cs, [], hcs, List.append_assoc .., .inl rfl⟩
    · rename_i hterms
      obtain ⟨keys, -, h⟩ := bind_eq_ok h
      cases h
      exact ⟨cs, _, hcs, List.append_assoc .., .inr ⟨⟨keys, rfl⟩,
        fun hall => hterms (List.isEmpty_iff.2 (hall terms rfl))⟩⟩

/-- **The count is the number of answers.** -/
theorem count_answers {r : Registry} {d : Descriptor} {args : ListArguments} {stages : List Stage}
    (hstages : countPipeline r d args = .ok stages)
    (hcs : Clause.ofFilters? r d.entity args.filters = some cs)
    (hnames : ∀ name ∈ Record.keys args.filters, IsLegible [name]) (hs : Separable cs)
    {rows : List Document} (hrows : runStages view (stages.map Stage.toValue) roots = .ok rows) :
    Dispatcher.countOf rows = .ok (.int (answers view roots cs).length) := by
  rw [countPipeline_eq hstages hcs, List.map_append] at hrows
  rcases @select_cases view roots cs hs (Clause.sound_ofFilters? hcs)
    (Clause.legible_ofFilters? hnames hcs) ([Stage.count countField].map Stage.toValue) with
    hok | ⟨f, hf⟩
  · rw [hok] at hrows
    generalize answers view roots cs = picks at hrows ⊢
    cases picks with
    | nil =>
      cases hrows
      rfl
    | cons p rest =>
      cases hrows
      rw [List.length_map]
      rfl
  · rw [hf] at hrows
    cases hrows

/-- **Order and cuts** make a page of the answers. -/
theorem isPage_of_run {args : ListArguments} {defaultLimit : Int} {order : List Stage}
    {rows : List Document} (hsound : ∀ c ∈ cs, c.Sound []) (hlegible : ∀ c ∈ cs, c.Legible)
    (hs : Separable cs) (hargs : args.isEmpty = false)
    (horder : order = [] ∨ (∃ keys, order = [.sort keys]) ∧ ¬ ∀ terms, args.sort = some terms →
      terms = [])
    (hrows : runStages view (((cs.foldl Plan.addClause .empty).stages ++
      (order ++ cuts defaultLimit args.pagination)).map Stage.toValue) roots = .ok rows) :
    IsPage view roots cs args defaultLimit rows := by
  rw [List.map_append] at hrows
  rcases @select_cases view roots cs hs hsound hlegible
    ((order ++ cuts defaultLimit args.pagination).map Stage.toValue) with hok | ⟨f, hf⟩
  · rw [hok, List.map_append] at hrows
    rcases horder with rfl | ⟨⟨keys, rfl⟩, hsort⟩
    · rw [List.map_nil, List.nil_append, runStages_cuts, cutOut_map] at hrows
      cases hrows
      refine ⟨_, .refl _, fun _ => rfl, ?_⟩
      rw [ListArguments.cut, hargs]
      rfl
    · obtain ⟨sorted, hsorted, hrows⟩ := bind_eq_ok hrows
      obtain ⟨picks, hperm, rfl⟩ := exists_perm_of_perm_map (perm_of_sortByKeys hsorted)
      replace hrows : runStages view ((cuts defaultLimit args.pagination).map Stage.toValue)
          (picks.map (rowOf view roots (Hop.used cs))) = .ok rows := hrows
      rw [runStages_cuts, cutOut_map] at hrows
      cases hrows
      refine ⟨picks, hperm, fun h => absurd h hsort, ?_⟩
      rw [ListArguments.cut, hargs]
      rfl
  · rw [hf] at hrows
    cases hrows

/-- A query without conditions keeps everything. -/
theorem matching_nil (docs : List Document) : matching (.object []) docs = .ok docs := by
  induction docs with
  | nil => rfl
  | cons d rest ih =>
    rw [matching, ih]
    rfl

/-- A row has the identifier of its document. -/
theorem get?_rowOf_identifier (hs : Separable cs) (hsound : ∀ c ∈ cs, c.Sound []) {p : Pick}
    (hp : p.Valid view roots (Hop.used cs)) :
    Record.get? (rowOf view roots (Hop.used cs) p) "_id" =
      Record.get? (roots[p.root]?.getD []) "_id" :=
  (get?_markAll (Hop.ordered_used hsound).1 (hs.labels.mono used_subset)
    hp.chosen.length_eq.symm _).2 "_id" hs.identifier

/-- **A page names no document twice** when each has a single answer. -/
theorem IsPage.nodup {args : ListArguments} {defaultLimit : Int} {rows : List Document}
    (h : IsPage view roots cs args defaultLimit rows) (hsound : ∀ c ∈ cs, c.Sound [])
    (hs : Separable cs) (hids : (roots.map fun d => Record.get? d "_id").Nodup)
    (hsingle : SingleAnswers view roots cs) :
    (rows.map fun d => Record.get? d "_id").Nodup := by
  obtain ⟨sorted, hperm, -, rfl⟩ := h
  have hsub := args.cut_sublist defaultLimit sorted
  have hroots : ((args.cut defaultLimit sorted).map Pick.root).Nodup :=
    ((hperm.map _).nodup_iff.2 ((nodup_roots_answers_iff hsound).2 hsingle)).sublist (hsub.map _)
  have hvalid : ∀ p ∈ args.cut defaultLimit sorted, p.Valid view roots (Hop.used cs) := fun p hp =>
    ((mem_answers hsound).1 (hperm.mem_iff.1 (hsub.subset hp))).1
  rw [List.map_map]
  refine List.Nodup.map_on (fun p hp q hq heq => ?_) hroots.of_map
  have heq : Record.get? (roots[p.root]?.getD []) "_id" =
      Record.get? (roots[q.root]?.getD []) "_id" := by
    rw [← get?_rowOf_identifier hs hsound (hvalid p hp), ← get?_rowOf_identifier hs
      hsound (hvalid q hq)]
    exact heq
  have hi := (hvalid p hp).root
  have hj := (hvalid q hq).root
  have hroot : p.root = q.root := by
    have hinj := @List.Nodup.getElem_inj_iff _ _ hids p.root (by simpa using hi) q.root
      (by simpa using hj)
    refine hinj.1 ?_
    simpa [List.getElem?_eq_getElem hi, List.getElem?_eq_getElem hj] using heq
  exact List.inj_on_of_nodup_map hroots hp hq hroot

end Lists

/-! ## Calls that list -/

/-- The call with a count in its context. -/
def Call.counted (q : Call) (n : Nat) : Call :=
    { q with context := Record.put q.context "count" (.int n) }

/-- Do the arguments ask for the size of the whole list? -/
def ListArguments.counts (args : ListArguments) : Bool := (args.pagination.map (·.count)).getD false

namespace Dispatcher

variable {τ : Type} {x : Dispatcher τ SessionId} {c : Component τ MemoryStore} {d : Descriptor}
  {args : ListArguments} {cs : List Clause}

/-- The part of a list that counts. -/
def counting (x : Dispatcher τ SessionId) (d : Descriptor) (args : ListArguments) :
    Action (τ × Call) Unit :=
  if args.counts then do
    let stages ← countPipeline x.executor.registry d args
    let rows ← x.runPipeline d stages
    let size ← countOf rows
    note "count" size
  else pure ()

/-- The part of a list that shows documents. -/
def showing (x : Dispatcher τ SessionId) (d : Descriptor) (args : ListArguments) :
    Action (τ × Call) Value := do
  let stages ← listPipeline x.executor.registry x.defaultLimit d args
  let rows ←
    if stages.isEmpty then
      (x.executor.store.find d.collection (.object []) none).within (.ofCall τ)
    else x.runPipeline d stages
  pure (.list (rows.map .object))

/-- A list counts, and then shows. -/
theorem list_eq (args : Value) : x.list d args = (do
    let read ← ListArguments.read d.entity args
    x.counting d read
    x.showing d read) := by
  unfold list
  refine bind_congr fun read => ?_
  unfold counting showing ListArguments.counts
  split <;> simp only [bind_assoc, pure_bind]

variable (hstore : x.executor.store = MemoryStore.documentStore.within c)
  (hc : ∀ s t, c.get (c.set s t) = s)

include hstore

/-- A pipeline reads the committed documents. -/
theorem run_runPipeline (stages : List Stage) (t : τ) (q : Call) :
    (x.runPipeline d stages).run.run (t, q) =
      (runStages (c.get t).collections (stages.map Stage.toValue)
        ((c.get t).documents d.collection), (c.set (c.get t) t, q)) := by
  rw [runPipeline, hstore]
  rfl

/-- The documents of a collection are all its committed documents. -/
theorem run_findAll (t : τ) (q : Call) :
    ((x.executor.store.find d.collection (.object []) none).within (.ofCall τ)).run.run (t, q) =
      (.ok ((c.get t).documents d.collection), (c.set (c.get t) t, q)) := by
  rw [hstore]
  change (matching (.object []) ((c.get t).documents d.collection), _) = _
  rw [matching_nil]
  rfl

include hc

/-- **Counting** notes the number of answers, or fails and notes nothing. -/
theorem run_counting (hnames : ∀ name ∈ Record.keys args.filters, IsLegible [name]) {t t' : τ}
    {q q' : Call} {r : Outcome Unit} (hr : (x.counting d args).run.run (t, q) = (r, (t', q'))) :
    c.get t' = c.get t ∧ ((∃ f, r = .error f ∧ q' = q) ∨ r = .ok () ∧
      (args.counts = false → q' = q) ∧ (args.counts = true →
        ∃ cs, Clause.ofFilters? x.executor.registry d.entity args.filters = some cs ∧
          (Separable cs → q' =
            q.counted (answers (c.get t).collections ((c.get t).documents d.collection)
              cs).length))) := by
  unfold counting at hr
  split at hr
  · rename_i hcounts
    rcases hstages : countPipeline x.executor.registry d args with f | stages
    · rw [hstages] at hr
      cases hr
      exact ⟨rfl, .inl ⟨_, rfl, rfl⟩⟩
    rw [hstages, Action.run_bind_ok (Action.run_lift _ _)] at hr
    have hrun := run_runPipeline hstore (d := d) stages t q
    rcases hrows : runStages (c.get t).collections (stages.map Stage.toValue)
      ((c.get t).documents d.collection) with f | rows
    · rw [hrows] at hrun
      rw [Action.run_bind_error hrun] at hr
      cases hr
      exact ⟨hc _ _, .inl ⟨_, rfl, rfl⟩⟩
    rw [hrows] at hrun
    rw [Action.run_bind_ok hrun] at hr
    rcases hsize : countOf rows with f | size
    · rw [hsize] at hr
      cases hr
      exact ⟨hc _ _, .inl ⟨_, rfl, rfl⟩⟩
    rw [hsize] at hr
    cases hr
    obtain ⟨cs, hcs⟩ := exists_clauses_of_countPipeline hstages
    refine ⟨hc _ _, .inr ⟨rfl, fun h => absurd hcounts (h ▸ Bool.false_ne_true), fun _ =>
      ⟨cs, hcs, fun hs => ?_⟩⟩⟩
    rw [count_answers hstages hcs hnames hs hrows] at hsize
    cases hsize
    rfl
  · rename_i hcounts
    cases hr
    exact ⟨rfl, .inr ⟨rfl, fun _ => rfl, fun h => absurd h hcounts⟩⟩

omit hc in
/-- **Showing** gives a page of the answers, or fails. -/
theorem run_showing (hnames : ∀ name ∈ Record.keys args.filters, IsLegible [name]) {t t' : τ}
    {q q' : Call} {r : Outcome Value} (hr : (x.showing d args).run.run (t, q) = (r, (t', q'))) :
    q' = q ∧ ((∃ f, r = .error f) ∨ ∃ cs rows, r = .ok (.list (rows.map .object)) ∧
      Clause.ofFilters? x.executor.registry d.entity args.filters = some cs ∧
      (Separable cs →
        IsPage (c.get t).collections ((c.get t).documents d.collection) cs args
          x.defaultLimit rows)) := by
  unfold showing at hr
  rcases hstages : listPipeline x.executor.registry x.defaultLimit d args with f | stages
  · rw [hstages] at hr
    cases hr
    exact ⟨rfl, .inl ⟨f, rfl⟩⟩
  rw [hstages, Action.run_bind_ok (Action.run_lift _ _)] at hr
  rcases hargs : args.isEmpty with _ | _
  · obtain ⟨cs, order, hcs, rfl, horder⟩ := listPipeline_eq hstages hargs
    have hsome : ((cs.foldl Plan.addClause .empty).stages ++
        (order ++ cuts x.defaultLimit args.pagination)).isEmpty = false := by
      cases args.pagination <;> simp [cuts]
    rw [hsome, if_neg Bool.false_ne_true, Action.run_bind, run_runPipeline hstore] at hr
    rcases hrows : runStages (c.get t).collections (((cs.foldl Plan.addClause .empty).stages ++
      (order ++ cuts x.defaultLimit args.pagination)).map Stage.toValue)
        ((c.get t).documents d.collection) with f | rows
    · rw [hrows] at hr
      cases hr
      exact ⟨rfl, .inl ⟨f, rfl⟩⟩
    · rw [hrows] at hr
      cases hr
      exact ⟨rfl, .inr ⟨cs, rows, rfl, hcs, fun hs => isPage_of_run (Clause.sound_ofFilters? hcs)
        (Clause.legible_ofFilters? hnames hcs) hs hargs horder hrows⟩⟩
  · obtain rfl : [] = stages := by
      unfold listPipeline at hstages
      rw [hargs] at hstages
      exact Except.ok.inj hstages
    have hfilters : args.filters = [] := by
      simp only [ListArguments.isEmpty, Bool.and_eq_true, List.isEmpty_iff] at hargs
      exact hargs.1.1
    rw [List.isEmpty_nil, if_pos rfl, Action.run_bind, run_findAll hstore] at hr
    cases hr
    refine ⟨rfl, .inr ⟨[], _, rfl, by rw [hfilters]; rfl, fun _ => ⟨_, .refl _, fun _ => rfl, ?_⟩⟩⟩
    have hkeep : answers (c.get t).collections ((c.get t).documents d.collection) [] =
        picksOver (c.get t).collections ((c.get t).documents d.collection) [] :=
      List.filter_eq_self.2 fun p _ => rfl
    rw [ListArguments.cut, hargs, if_pos rfl, hkeep]
    exact rows_nil.symm

/-- **A list** counts the answers when it is asked to, and gives a page of them. -/
theorem run_list {given : Value} (hread : ListArguments.read d.entity given = .ok args)
    (hnames : ∀ name ∈ Record.keys args.filters, IsLegible [name]) {t t' : τ} {q q' : Call}
    {r : Outcome Value} (hr : (x.list d given).run.run (t, q) = (r, (t', q'))) :
    (∃ f, r = .error f ∧ q' = q) ∨ ∃ cs,
      Clause.ofFilters? x.executor.registry d.entity args.filters = some cs ∧
      (Separable cs →
        q' = (if args.counts then
          q.counted (answers (c.get t).collections ((c.get t).documents d.collection) cs).length
            else q) ∧
        ∀ v, r = .ok v → ∃ rows, v = .list (rows.map .object) ∧
          IsPage (c.get t).collections ((c.get t).documents d.collection) cs args
            x.defaultLimit rows) := by
  rw [list_eq, hread, Action.run_bind_ok (Action.run_lift _ _)] at hr
  rcases hcount : (x.counting d args).run.run (t, q) with ⟨f | ⟨⟩, t₁, q₁⟩
  · obtain ⟨-, ⟨f, hf, hq⟩ | ⟨hok, -⟩⟩ := run_counting hstore hc hnames hcount
    · rw [Action.run_bind_error hcount] at hr
      cases hr
      exact .inl ⟨_, rfl, hq⟩
    · cases hok
  · obtain ⟨ht, ⟨f, hf, -⟩ | ⟨-, hplain, hcounted⟩⟩ := run_counting hstore hc hnames hcount
    · cases hf
    rw [Action.run_bind_ok hcount] at hr
    obtain ⟨hq, ⟨f, hf⟩ | ⟨cs, rows, hok, hcs, hpage⟩⟩ := run_showing hstore hnames hr
    · rcases hcounts : args.counts with _ | _
      · exact .inl ⟨f, hf, hq.trans (hplain hcounts)⟩
      · obtain ⟨cs, hcs, hnote⟩ := hcounted hcounts
        refine .inr ⟨cs, hcs, fun hs => ⟨hq.trans (hnote hs), fun v hv => ?_⟩⟩
        rw [hf] at hv
        cases hv
    · rw [ht] at hpage
      refine .inr ⟨cs, hcs, fun hs => ⟨?_, fun v hv => ?_⟩⟩
      · rcases hcounts : args.counts with _ | _
        · exact hq.trans (hplain hcounts)
        · obtain ⟨cs', hcs', hnote⟩ := hcounted hcounts
          obtain rfl : cs = cs' := Option.some.inj (hcs.symm.trans hcs')
          exact hq.trans (hnote hs)
      · rw [hok] at hv
        cases hv
        exact ⟨rows, rfl, hpage hs⟩

/-- **What a call of a list returns and counts.** When the middleware has let the call through, the
endpoint either fails and counts nothing, or its filters are clauses; the documents that it then
returns are a page of the answers to the clauses, and the size of the whole list, if it was asked
for, is the number of answers. So a document is listed and counted once for every choice of related
documents of which the filters hold. Where this choice is forced, as it is along narrow hops, no
document is returned twice, and the size is the number of documents that meet the filters. -/
theorem call_lists {name e : String} {ep : Endpoint} (hep : Record.get? x.endpoints name = some ep)
    (hfind : ep.kind = .find) (he : ep.entity = some e)
    (hd : Record.get? x.executor.registry.descriptors e = some d)
    {fs context : Document} {t t₁ : τ} {q₁ : Call}
    (hchain : (chain ep x.middleware).run.run (t, ⟨.object fs, context⟩) = (.ok (), (t₁, q₁)))
    (hread : ListArguments.read d.entity q₁.args = .ok args)
    (hnames : ∀ name ∈ Record.keys args.filters, IsLegible [name])
    {view : Collections} (hview : (c.get t₁).collections = view)
    {roots : List Document} (hroots : (c.get t₁).documents d.collection = roots)
    (hids : (roots.map fun d => Record.get? d "_id").Nodup) {r : Outcome Value} {t' : τ} {q' : Call}
    (hr : (x.call name).run.run (t, ⟨.object fs, context⟩) = (r, (t', q'))) :
    (∃ f, r = .error f ∧ q' = q₁) ∨ ∃ cs,
      Clause.ofFilters? x.executor.registry d.entity args.filters = some cs ∧
      (Separable cs →
        q' = (if args.counts then q₁.counted (answers view roots cs).length else q₁) ∧
        (∀ v, r = .ok v → ∃ rows, v = .list (rows.map .object) ∧
          IsPage view roots cs args x.defaultLimit rows ∧
          (SingleAnswers view roots cs → (rows.map fun d => Record.get? d "_id").Nodup)) ∧
        (Hop.Narrow view roots (Hop.used cs) → SingleAnswers view roots cs) ∧
        ((answers view roots cs).length = {i | MeetsClauses view roots cs i}.ncard ↔
          SingleAnswers view roots cs) ∧
        {i | MeetsClauses view roots cs i}.ncard ≤ (answers view roots cs).length ∧
        {i | MeetsClauses view roots cs i}.ncard ≤ roots.length) := by
  subst hview hroots
  rw [run_call_eq hep rfl, Action.run_bind_ok hchain] at hr
  rcases hexecute : (x.execute ep).run.run (t₁, q₁) with ⟨r', t'', q''⟩
  rw [hexecute] at hr
  cases hr
  have hlookup : x.executor.registry.lookup e = .ok d := by
    rw [Registry.lookup, hd]
    rfl
  have hlist : (x.list d q₁.args).run.run (t₁, q₁) = (r', (t', q')) := by
    unfold execute at hexecute
    dsimp only at hexecute
    rw [Action.run_bind_ok (run_arguments t₁ _), hfind, he, Option.getD_some, hlookup,
      Action.run_bind_ok (Action.run_lift _ _)] at hexecute
    unfold onEntity at hexecute
    rwa [hfind] at hexecute
  rcases run_list hstore hc hread hnames hlist with ⟨f, rfl, hq⟩ | ⟨cs, hcs, hlisted⟩
  · exact .inl ⟨f.normalize, rfl, hq⟩
  · have hsound := Clause.sound_ofFilters? hcs
    obtain ⟨hle, hiff, hbound⟩ := @ncard_meets (c.get t₁).collections _ _ hsound
    refine .inr ⟨cs, hcs, fun hs => ?_⟩
    obtain ⟨hq, hpage⟩ := hlisted hs
    refine ⟨hq, fun v hv => ?_, Hop.Narrow.singleAnswers hsound, hiff, hle, hbound⟩
    rcases r' with f | w <;> cases hv
    obtain ⟨rows, hrows, hrows'⟩ := hpage v rfl
    exact ⟨rows, hrows, hrows', fun hsingle => hrows'.nodup hsound hs hids hsingle⟩

end Dispatcher

/-! ## A service of orders -/

/-- Customers have a name and orders, which name their customer. -/
def customer : Entity where
  name := "Customer"
  fields := [textField "name",
    ⟨"orders", .entity "Order", true, true, false, false, some ⟨false, "customer", .null⟩, .null⟩]
  description := .null
  names_nodup := by decide

/-- Orders have a title and a customer. -/
def order : Entity where
  name := "Order"
  fields := [textField "title",
    ⟨"buyer", .entity "Customer", false, true, false, false, some ⟨false, "customer", .null⟩,
    .null⟩]
  description := .null
  names_nodup := by decide

/-- The registry of the service. -/
def salesRegistry : Registry :=
  (Registry.finalize.run.run ⟨[
    ("Customer", ⟨customer, "customers", some "customer", some "customers", none, true, none, []⟩),
    ("Order", ⟨order, "orders", some "order", some "orders", none, true, none, []⟩)], [], false⟩).2

/-- A service of customers and orders. -/
def sales : Dispatcher MemoryStore SessionId where
  executor := {
    registry := salesRegistry
    behaviour := ⟨fun _ => .none, fun _ _ _ => throw .illTyped⟩
    store := MemoryStore.documentStore.within ⟨id, fun m _ => m⟩
    policy := ⟨2, fun n => .ok (.whole n), fun _ => pure (), Nat.two_pos⟩ }
  endpoints := (Endpoint.table .everything salesRegistry).toOption.getD []
  middleware := []
  defaultLimit := 10

/-- Ann ordered tea twice. -/
def teaOrders : MemoryStore := { MemoryStore.empty with
  collections := [
    ("customers", [(.id (.ofNat 1), [("_id", .id (.ofNat 1)), ("name", .text "Ann")])]),
    ("orders", [
      (.id (.ofNat 2), [("_id", .id (.ofNat 2)), ("title", .text "Tea"),
        ("customer", .id (.ofNat 1))]),
      (.id (.ofNat 3), [("_id", .id (.ofNat 3)), ("title", .text "Tea"),
        ("customer", .id (.ofNat 1))])])]
  lastId := 3 }

/-- A page of the documents whose related documents have a value at a path, with the size of the
whole list. -/
def askRelated (relation path value : String) : Document :=
  [(relation, .object [("terms", .list [.object [("path", .text path), ("value", .text value)]])]),
    ("pagination", .object [("page", .int 1), ("size", .int 5), ("count", .bool true)])]

/-- The row of the customer with one of the orders. -/
def customerRow (o : ObjectId) : Document :=
  [("_id", .id (.ofNat 1)), ("name", .text "Ann"), ("orders", .object
    [("_id", .id o), ("title", .text "Tea"), ("customer", .id (.ofNat 1))])]

/-- What a call of the service returns, and the context that it leaves. -/
def salesCall (name : String) (args : Document) : Outcome Value × Document :=
  let (r, s) := (sales.call name).run.run (teaOrders, ⟨.object args, []⟩)
  (r, s.2.context)

/-- **A customer that is listed twice**, and counted twice: both orders of the only customer satisfy
the filter. -/
theorem customer_listed_twice :
    salesCall "customers" (askRelated "orders" "title" "Tea") =
      (.ok (.list ([customerRow (.ofNat 2), customerRow (.ofNat 3)].map .object)),
        [("count", .int 2)]) ∧
    ¬ ([customerRow (.ofNat 2), customerRow (.ofNat 3)].map fun d => Record.get? d "_id").Nodup ∧
    (teaOrders.documents "customers").length = 1 := by
  refine ⟨by cbv, ?_, rfl⟩
  simp [customerRow, Record.get?]

/-- The hop from an order to its customer. -/
def toBuyer : Hop := ⟨["buyer"], [], [], "customer", "customers", "_id"⟩

/-- What the list of orders by the name of their customer asks. -/
def byBuyer : List Clause := [⟨[toBuyer], ["buyer"], ["name"], .text "Ann"⟩]

/-- The arguments of that list. -/
def byBuyerArguments : ListArguments :=
  ⟨[("buyer", .expression [⟨⟨none, .text "Ann"⟩, "name"⟩])], none, some ⟨1, 5, true⟩⟩

theorem nodup_teaOrders :
    ((teaOrders.documents "orders").map fun d => Record.get? d "_id").Nodup := by
  have hne : ObjectId.ofNat 2 ≠ ObjectId.ofNat 3 := by decide
  simp [teaOrders, MemoryStore.documents, Collections.get, Collection.documents, Record.get?, hne]

theorem narrow_toBuyer :
    Hop.Narrow teaOrders.collections (teaOrders.documents "orders") (Hop.used byBuyer) := by
  refine Hop.narrow_of_single (by decide) (fun h hh => ?_) fun p hp h hh => ?_
  · obtain rfl : h = toBuyer := List.mem_singleton.1 hh
    refine ⟨List.pairwise_singleton _ _, fun e he => ?_⟩
    obtain rfl := List.mem_singleton.1 he
    exact ⟨_, rfl, rfl⟩
  · obtain rfl : h = toBuyer := List.mem_singleton.1 hh
    have hroot : p.root = 0 ∨ p.root = 1 := by
      have := hp.root
      change p.root < 2 at this
      omega
    change (flatten (valuesAt (teaOrders.documents "orders")[p.root]?
      (Text.segments "customer"))).length ≤ 1
    rcases hroot with hroot | hroot <;> rw [hroot] <;> decide

theorem separable_byBuyer : Separable byBuyer where
  labels := by
    unfold Hop.DistinctLabels
    decide
  identifier := by decide
  hops := fun before h after heq _ g hg => by
    obtain rfl := Hop.before_eq_nil rfl heq
    cases hg
  clauses := by decide

/-- Each order has one customer. Both orders are listed once, and counted. -/
theorem orders_listed_once : ∃ rows : List Document,
    salesCall "orders" (askRelated "buyer" "name" "Ann") =
      (.ok (.list (rows.map .object)), [("count", .int 2)]) ∧
    (rows.map fun d => Record.get? d "_id").Nodup ∧
    {i | MeetsClauses teaOrders.collections (teaOrders.documents "orders") byBuyer i}.ncard =
      2 := by
  obtain ⟨d, hd⟩ : ∃ d, Record.get? salesRegistry.descriptors "Order" = some d := ⟨_, rfl⟩
  have hentity : d.entity = order := by
    cases hd
    rfl
  have hread : ListArguments.read order (.object (askRelated "buyer" "name" "Ann")) =
      .ok byBuyerArguments := by
    cbv
  have hclauses : Clause.ofFilters? salesRegistry order byBuyerArguments.filters = some byBuyer :=
    rfl
  have hnames : ∀ name ∈ Record.keys byBuyerArguments.filters, IsLegible [name] := by
    intro name hname
    obtain rfl := List.mem_singleton.1 hname
    exact isLegible_singleton (by unfold IsSegment; decide) (by unfold IsSigned; decide)
  obtain ⟨v, context, hcall⟩ : ∃ v context, salesCall "orders" (askRelated "buyer" "name" "Ann") =
      (.ok v, context) := ⟨_, _, by cbv⟩
  rcases hr :
    (sales.call "orders").run.run (teaOrders, ⟨.object (askRelated "buyer" "name" "Ann"), []⟩) with
    ⟨r, t', q'⟩
  have hsame : (r, q'.context) = (.ok v, context) := by
    rw [← hcall, salesCall, hr]
  cases hsame
  have hendpoint : Record.get? sales.endpoints "orders" =
    some ⟨"orders", .find, some "Order", none⟩ := rfl
  have hroots : teaOrders.documents d.collection = teaOrders.documents "orders" := by
    cases hd
    rfl
  obtain ⟨f, hf, -⟩ | ⟨cs, hcs, hlisted⟩ :=
    Dispatcher.call_lists (c := ⟨id, fun m _ => m⟩) rfl (fun _ _ => rfl) hendpoint rfl rfl hd
      rfl (by rwa [hentity]) hnames (Eq.refl teaOrders.collections) hroots
    nodup_teaOrders hr
  · cases hf
  obtain rfl : byBuyer = cs := by
    rw [hentity] at hcs
    exact Option.some.inj (hclauses.symm.trans hcs)
  obtain ⟨rfl, hrows, hnarrow, hcount, -⟩ := hlisted separable_byBuyer
  have hsingle := hnarrow narrow_toBuyer
  obtain ⟨rows, rfl, -, hnodup⟩ := hrows v rfl
  have hlength :
      (answers teaOrders.collections (teaOrders.documents "orders") byBuyer).length = 2 := by
    decide +kernel
  refine ⟨rows, ?_, hnodup hsingle, (hcount.2 hsingle).symm.trans hlength⟩
  rw [hcall, if_pos (show byBuyerArguments.counts = true from rfl), Call.counted, hlength]
  rfl

end EntityGraph
