import EntityGraph.Proofs.Listing

/-!
# Pages of a list

A page is cut out of the rows that the list has without page: the limit counts from the start and is
applied before the skip, which leaves exactly the rows of the page (`runStages_page`). The pages
therefore partition the rows (`Partitions`): they do not overlap, the first ones together are the
beginning of the rows, and those past the end are empty. The size of the whole list is counted by
another pipeline, without order and cuts. It has the same number of rows, since sorting only
rearranges them (`count_allRows`). Both together are what the list endpoint returns and notes
(`Dispatcher.call_pages`).
-/

namespace EntityGraph

/-! ## Pages of rows -/

section Rows

variable {α : Type}

/-- The rows of a page; pages are counted from one. -/
def pageRows (size page : Nat) (rows : List α) : List α := (rows.drop (size * (page - 1))).take size

/-- **Pages that partition rows.** -/
structure Partitions (size : Nat) (rows : List α) (pages : Nat → List α) : Prop where
  /-- a page has the rows at its positions, and no others -/
  positions : ∀ p, 1 ≤ p → ∀ i, (pages p)[i]? = if i < size then rows[size * (p - 1) + i]? else none
  /-- no row is on two pages -/
  apart : ∀ p q i j, 1 ≤ p → p < q → i < (pages p).length → j < (pages q).length →
    size * (p - 1) + i < size * (q - 1) + j
  /-- the first pages together are the beginning of the rows -/
  together : ∀ n, (List.range n).flatMap (fun i => pages (i + 1)) = rows.take (n * size)
  /-- the pages past the end are empty, and only they -/
  past : ∀ p, 1 ≤ p → (pages p = [] ↔ rows.length ≤ size * (p - 1))
  /-- the pages up to the end hold as many rows as there are -/
  total : ∀ n, rows.length ≤ n * size →
    ((List.range n).map fun i => (pages (i + 1)).length).sum = rows.length

theorem flatMap_pageRows (size : Nat) (rows : List α) (n : Nat) :
    (List.range n).flatMap (fun i => pageRows size (i + 1) rows) = rows.take (n * size) := by
  induction n with
  | zero => rw [Nat.zero_mul, List.take_zero, List.range_zero, List.flatMap_nil]
  | succ n ih =>
    rw [List.range_succ, List.flatMap_append, ih, List.flatMap_singleton, pageRows,
      Nat.add_sub_cancel, Nat.mul_comm size n, ← List.take_add, Nat.succ_mul]

theorem length_pageRows_le (size page : Nat) (rows : List α) :
    (pageRows size page rows).length ≤ size :=
  List.length_take_le _ _

/-- **The pages partition the rows.** Each page begins where the one before ends. -/
theorem partitions_pageRows {size : Nat} (hsize : 1 ≤ size) (rows : List α) :
    Partitions size rows fun p => pageRows size p rows where
  positions := fun p _ i => by rw [pageRows, List.getElem?_take, List.getElem?_drop]
  apart := fun p q i j hp hq hi _ => by
    have hi' : i < size := Nat.lt_of_lt_of_le hi (length_pageRows_le ..)
    have hnext : size * (p - 1) + size ≤ size * (q - 1) := by
      rw [← Nat.mul_succ]
      exact Nat.mul_le_mul_left _ (by omega)
    omega
  together := flatMap_pageRows size rows
  past := fun p _ => by
    rw [pageRows, List.take_eq_nil_iff, List.drop_eq_nil_iff]
    omega
  total := fun n hn => by
    have htogether := congrArg List.length (flatMap_pageRows size rows n)
    rwa [List.length_flatMap, List.take_of_length_le hn] at htogether

end Rows

/-! ## Pipelines without cuts -/

/-- Does the stage cut? -/
def Stage.isCut : Stage → Bool
  | .limit _ => true
  | .skip _ => true
  | _ => false

/-- The stages but for those that cut. -/
def uncut (stages : List Stage) : List Stage := stages.filter fun s => !s.isCut

/-- The arguments of a page of the list. -/
def ListArguments.onPage (args : ListArguments) (p : Pagination) : ListArguments :=
  { args with pagination := some p }

/-- **All rows of a list**: those of its pipeline without cuts. -/
def allRows (r : Registry) (defaultLimit : Int) (view : Collections) (d : Descriptor)
    (args : ListArguments) :
    Outcome (List Document) := do
  let stages ← listPipeline r defaultLimit d args
  runStages view ((uncut stages).map Stage.toValue) (view.get d.collection).documents

/-- The stages that put the rows in order. -/
def orderStages (entity : Entity) (sort : Option (List SortTerm)) : Outcome (List Stage) :=
  match sort with
  | none => pure []
  | some terms =>
    if terms.isEmpty then pure []
    else do
      let keys ← sortKeys entity terms []
      pure [Stage.sort keys]

section Pipelines

variable {r : Registry} {d : Descriptor} {args : ListArguments} {view : Collections}

/-- A pipeline that asks for something: filters, order, cuts. -/
theorem listPipeline_of_not_isEmpty (defaultLimit : Int) (hargs : ¬ args.isEmpty = true) :
    listPipeline r defaultLimit d args = (do
      let plan ← planFilters r d.entity args.filters .empty
      let order ← orderStages d.entity args.sort
      pure (plan.stages ++ order ++ cuts defaultLimit args.pagination)) := by
  rw [listPipeline, if_neg hargs]
  refine bind_congr fun plan => ?_
  unfold orderStages
  rcases args.sort with _ | terms
  · rfl
  · dsimp only
    split
    · rfl
    · rw [bind_assoc]

theorem not_isEmpty_onPage (args : ListArguments) (p : Pagination) :
    ¬ (args.onPage p).isEmpty = true := by
  simp [ListArguments.isEmpty, ListArguments.onPage]

theorem countPipeline_onPage (p : Pagination) :
    countPipeline r d (args.onPage p) = (do
      let plan ← planFilters r d.entity args.filters .empty
      pure (plan.stages ++ [.count countField])) := by
  rw [countPipeline, if_neg (not_isEmpty_onPage args p), ListArguments.onPage]

theorem isCut_of_mem_stages {plan : Plan} {s : Stage} (hs : s ∈ plan.stages) : s.isCut = false := by
  rcases List.mem_append.1 hs with hs | hs
  · obtain ⟨j, -, hs⟩ := List.mem_flatMap.1 hs
    simp only [List.mem_cons, List.not_mem_nil, or_false] at hs
    rcases hs with rfl | rfl <;> rfl
  · split at hs
    · cases hs
    · rw [List.mem_singleton.1 hs]
      rfl

/-- What puts rows in order is a single sort, or nothing. -/
theorem orderStages_cases {sort : Option (List SortTerm)} {order : List Stage}
    (h : orderStages d.entity sort = .ok order) : order = [] ∨ ∃ keys, order = [.sort keys] := by
  unfold orderStages at h
  split at h
  · exact .inl (Except.ok.inj h).symm
  · split at h
    · exact .inl (Except.ok.inj h).symm
    · obtain ⟨keys, -, h⟩ := bind_eq_ok h
      exact .inr ⟨keys, (Except.ok.inj h).symm⟩

/-- Without the cuts the filters and the order are left. -/
theorem uncut_append_cuts {plan : Plan} {order : List Stage}
    (h : order = [] ∨ ∃ keys, order = [.sort keys]) (defaultLimit : Int)
    (page : Option Pagination) :
    uncut (plan.stages ++ order ++ cuts defaultLimit page) = plan.stages ++ order := by
  have hplan : plan.stages.filter (fun s => !s.isCut) = plan.stages :=
    List.filter_eq_self.2 fun s hs => by rw [isCut_of_mem_stages hs]; rfl
  unfold uncut
  rw [List.filter_append, List.filter_append, hplan]
  rcases h with rfl | ⟨keys, rfl⟩ <;> cases page <;> simp [cuts, Stage.isCut]

/-- **The rows** are those that the filters select, in order. They do not depend on the page. -/
theorem allRows_eq (defaultLimit : Int) :
    allRows r defaultLimit view d args = (do
      let plan ← planFilters r d.entity args.filters .empty
      let order ← orderStages d.entity args.sort
      runStages view ((plan.stages ++ order).map Stage.toValue)
        (view.get d.collection).documents) := by
  unfold allRows
  by_cases hargs : args.isEmpty = true
  · obtain ⟨⟨hfilters, hsort⟩, -⟩ : (args.filters = [] ∧ args.sort = none) ∧
        args.pagination = none := by
      simpa only [ListArguments.isEmpty, Bool.and_eq_true, List.isEmpty_iff,
        Option.isNone_iff_eq_none] using hargs
    rw [listPipeline, if_pos hargs, hfilters, hsort]
    rfl
  rw [listPipeline_of_not_isEmpty defaultLimit hargs]
  rcases planFilters r d.entity args.filters .empty with f | plan
  · rfl
  rcases horder : orderStages d.entity args.sort with f | order
  · rfl
  · change runStages view ((uncut (plan.stages ++ order ++ cuts defaultLimit _)).map Stage.toValue)
      _ = _
    rw [uncut_append_cuts (orderStages_cases horder)]
    rfl

/-- Stages run one part after the other. -/
theorem runStages_append (first rest : List Value) (docs : List Document) :
    runStages view (first ++ rest) docs = (do
      let rows ← runStages view first docs
      runStages view rest rows) := by
  induction first, docs using runStages.induct with
  | case1 docs => rfl
  | case2 docs operator spec first ih =>
    rw [List.cons_append, runStages, runStages, bind_assoc]
    exact bind_congr fun rows => ih rows
  | case3 docs stage first hno =>
    rw [List.cons_append, runStages, runStages]
    · rfl
    · exact hno
    · exact hno

variable {defaultLimit : Int} {rows : List Document}

/-- **A page is cut out of the rows.** -/
theorem runStages_page (hrows : allRows r defaultLimit view d args = .ok rows) (p : Pagination) :
    ∃ stages, listPipeline r defaultLimit d (args.onPage p) = .ok stages ∧ stages.isEmpty = false ∧
      runStages view (stages.map Stage.toValue) (view.get d.collection).documents =
        .ok (pageRows p.size p.page rows) := by
  rw [allRows_eq] at hrows
  obtain ⟨plan, hplan, hrows⟩ := bind_eq_ok hrows
  obtain ⟨order, horder, hrows⟩ := bind_eq_ok hrows
  refine ⟨plan.stages ++ order ++ cuts defaultLimit (some p), ?_, by simp [cuts], ?_⟩
  · rw [listPipeline_of_not_isEmpty defaultLimit (not_isEmpty_onPage args p)]
    change (planFilters r d.entity args.filters .empty >>= fun plan =>
      orderStages d.entity args.sort >>= _) = _
    rw [hplan]
    change (orderStages d.entity args.sort >>= _) = _
    rw [horder]
    rfl
  · rw [List.map_append, runStages_append, hrows]
    change runStages view ((cuts defaultLimit (some p)).map Stage.toValue) rows = _
    rw [runStages_cuts, cutOut, List.drop_take, Nat.add_sub_cancel, pageRows]

/-- **The count is the number of rows.** -/
theorem count_allRows (hrows : allRows r defaultLimit view d args = .ok rows) (p : Pagination) :
    ∃ stages counted, countPipeline r d (args.onPage p) = .ok stages ∧
      runStages view (stages.map Stage.toValue) (view.get d.collection).documents = .ok counted ∧
      Dispatcher.countOf counted = .ok (.int rows.length) := by
  rw [allRows_eq] at hrows
  obtain ⟨plan, hplan, hrows⟩ := bind_eq_ok hrows
  obtain ⟨order, horder, hrows⟩ := bind_eq_ok hrows
  rw [List.map_append, runStages_append] at hrows
  obtain ⟨selected, hselected, hrows⟩ := bind_eq_ok hrows
  have hlength : selected.length = rows.length := by
    rcases orderStages_cases horder with rfl | ⟨keys, rfl⟩
    · rw [Except.ok.inj hrows]
    · obtain ⟨sorted, hsorted, hrows⟩ := bind_eq_ok hrows
      cases hrows
      exact (perm_of_sortByKeys hsorted).length_eq.symm
  have hcount : countStage (.text countField) selected =
      .ok (if selected.isEmpty then [] else [[(countField, .int selected.length)]]) := by
    unfold countStage
    split <;> rfl
  refine ⟨plan.stages ++ [.count countField],
    if selected.isEmpty then [] else [[(countField, .int selected.length)]], ?_, ?_, ?_⟩
  · rw [countPipeline_onPage, hplan]
    rfl
  · rw [List.map_append, runStages_append, hselected]
    change (countStage (.text countField) selected >>= fun rows => .ok rows) = _
    rw [hcount]
    rfl
  · rw [← hlength]
    cases selected <;> rfl

end Pipelines

/-! ## Calls that list pages -/

namespace Dispatcher

variable {τ : Type} {x : Dispatcher τ SessionId} {c : Component τ MemoryStore} {d : Descriptor}
  {asked : ListArguments} {rows : List Document} {t : τ} {q : Call}
  (hstore : x.executor.store = MemoryStore.documentStore.within c)
  (hc : ∀ s t, c.get (c.set s t) = s)
  (hrows : allRows x.executor.registry x.defaultLimit (c.get t).collections d asked = .ok rows)

include hstore hrows

/-- Showing a page. -/
theorem run_showing_page (p : Pagination) :
    (x.showing d (asked.onPage p)).run.run (t, q) =
      (.ok (.list ((pageRows p.size p.page rows).map .object)), (c.set (c.get t) t, q)) := by
  obtain ⟨stages, hstages, hsome, hrun⟩ := runStages_page hrows p
  have hread := run_runPipeline hstore (d := d) stages t q
  rw [show (c.get t).documents d.collection =
    ((c.get t).collections.get d.collection).documents from rfl, hrun] at hread
  unfold showing
  rw [hstages, Action.run_bind_ok (Action.run_lift _ _), hsome, if_neg Bool.false_ne_true,
    Action.run_bind_ok hread]
  rfl

include hc

/-- Counting, when a page is asked for. -/
theorem run_counting_page (p : Pagination) : ∃ t', c.get t' = c.get t ∧
    (x.counting d (asked.onPage p)).run.run (t, q) =
      (.ok (), (t', if p.count then q.counted rows.length else q)) := by
  unfold counting
  rcases hcount : p.count with _ | _
  · refine ⟨t, rfl, ?_⟩
    rw [if_neg (by simp [ListArguments.counts, ListArguments.onPage, hcount])]
    rfl
  · obtain ⟨stages, counted, hstages, hrun, hsize⟩ := count_allRows hrows p
    have hread := run_runPipeline hstore (d := d) stages t q
    rw [show (c.get t).documents d.collection =
      ((c.get t).collections.get d.collection).documents from rfl, hrun] at hread
    refine ⟨c.set (c.get t) t, hc _ _, ?_⟩
    rw [if_pos (by simp [ListArguments.counts, ListArguments.onPage, hcount]), hstages,
      Action.run_bind_ok (Action.run_lift _ _), Action.run_bind_ok hread, hsize,
      Action.run_bind_ok (Action.run_lift _ _)]
    rfl

omit hrows

/-- **What calls for pages return and count.** Let the list without page have rows on the documents
of a view. Its pages partition them; and every call for a page that the middleware lets through, on
that view, returns the rows of the page and notes the number of all rows, if it was asked for it. -/
theorem call_pages {name e : String} {ep : Endpoint} (hep : Record.get? x.endpoints name = some ep)
    (hfind : ep.kind = .find) (he : ep.entity = some e)
    (hd : Record.get? x.executor.registry.descriptors e = some d) {view : Collections} {size : Nat}
    (hsize : 1 ≤ size)
    (hrows : allRows x.executor.registry x.defaultLimit view d asked = .ok rows) :
    Partitions size rows (fun page => pageRows size page rows) ∧
    ∀ page count fs context t t₁ q₁,
      (chain ep x.middleware).run.run (t, ⟨.object fs, context⟩) = (.ok (), (t₁, q₁)) →
      ListArguments.read d.entity q₁.args = .ok (asked.onPage ⟨page, size, count⟩) →
      (c.get t₁).collections = view →
      ∃ t', c.get t' = c.get t₁ ∧ (x.call name).run.run (t, ⟨.object fs, context⟩) =
        (.ok (.list ((pageRows size page rows).map .object)),
          (t', if count then q₁.counted rows.length else q₁)) := by
  refine ⟨partitions_pageRows hsize rows, fun page count fs context t t₁ q₁ hchain hread hview =>
    ?_⟩
  subst hview
  have hlookup : x.executor.registry.lookup e = .ok d := by
    rw [Registry.lookup, hd]
    rfl
  obtain ⟨t₂, ht₂, hcounting⟩ := run_counting_page (q := q₁) hstore hc hrows ⟨page, size, count⟩
  rw [← ht₂] at hrows
  have hshowing := run_showing_page (q := if count then q₁.counted rows.length else q₁) hstore hrows
    ⟨page, size, count⟩
  refine ⟨c.set (c.get t₂) t₂, (hc _ _).trans ht₂, ?_⟩
  have hlist : (x.list d q₁.args).run.run (t₁, q₁) =
    (.ok (.list ((pageRows size page rows).map .object)),
      (c.set (c.get t₂) t₂, if count then q₁.counted rows.length else q₁)) := by
    rw [list_eq, hread, Action.run_bind_ok (Action.run_lift _ _), Action.run_bind_ok hcounting]
    exact hshowing
  have hexecute : (x.execute ep).run.run (t₁, q₁) =
    (.ok (.list ((pageRows size page rows).map .object)),
      (c.set (c.get t₂) t₂, if count then q₁.counted rows.length else q₁)) := by
    unfold execute
    dsimp only
    rw [Action.run_bind_ok (run_arguments t₁ _), hfind, he, Option.getD_some, hlookup,
      Action.run_bind_ok (Action.run_lift _ _)]
    unfold onEntity
    rwa [hfind]
  rw [run_call_eq hep rfl, Action.run_bind_ok hchain, hexecute]
  rfl

end Dispatcher

/-! ## Pages of orders -/

/-- A page with one of the orders by the name of their customer, and the number of all of them. -/
def askOrders (page : Nat) : Document :=
  [("buyer", .object [("terms", .list [.object [("path", .text "name"), ("value", .text "Ann")]])]),
    ("pagination", .object [("page", .int page), ("size", .int 1), ("count", .bool true)])]

/-- The row of an order with its customer. -/
def orderRow (o : ObjectId) : Document :=
  [("_id", .id o), ("title", .text "Tea"), ("customer", .id (.ofNat 1)), ("buyer", .object
    [("_id", .id (.ofNat 1)), ("name", .text "Ann")])]

/-- Both orders of the only customer. -/
def ordersOfAnn : List Document := [orderRow (.ofNat 2), orderRow (.ofNat 3)]

/-- Each of the two orders has a page of its own, and the third page is empty. -/
theorem orders_on_pages : Partitions 1 ordersOfAnn (fun page => pageRows 1 page ordersOfAnn) ∧
    salesCall "orders" (askOrders 2) =
      (.ok (.list [.object (orderRow (.ofNat 3))]), [("count", .int 2)]) ∧
    salesCall "orders" (askOrders 3) = (.ok (.list []), [("count", .int 2)]) := by
  obtain ⟨d, hd⟩ : ∃ d, Record.get? sales.executor.registry.descriptors "Order" = some d := ⟨_, rfl⟩
  have hentity : d.entity = order := by
    cases hd
    rfl
  have hrows : allRows sales.executor.registry sales.defaultLimit teaOrders.collections d
      { byBuyerArguments with pagination := none } = .ok ordersOfAnn := by
    have hlookup : sales.executor.registry.lookup "Order" = .ok d := by
      rw [Registry.lookup, hd]
      rfl
    have hbound : (do
        let d ← sales.executor.registry.lookup "Order"
        allRows sales.executor.registry sales.defaultLimit teaOrders.collections d
          { byBuyerArguments with pagination := none }) = .ok ordersOfAnn := by cbv
    rwa [hlookup] at hbound
  have hendpoint : Record.get? sales.endpoints "orders" =
    some ⟨"orders", .find, some "Order", none⟩ := rfl
  obtain ⟨hpages, hcall⟩ :=
    Dispatcher.call_pages (x := sales) (c := ⟨id, fun m _ => m⟩) rfl (fun _ _ =>
      rfl) hendpoint rfl rfl hd (Nat.le_refl 1) hrows
  have hread : ∀ page, page = 2 ∨ page = 3 → ListArguments.read order (.object (askOrders page)) =
      .ok (byBuyerArguments.onPage ⟨page, 1, true⟩) := by
    rintro page (rfl | rfl) <;> cbv
  have hpage : ∀ page, page = 2 ∨ page = 3 → salesCall "orders" (askOrders page) =
      (.ok (.list ((pageRows 1 page ordersOfAnn).map .object)), [("count", .int 2)]) := by
    intro page hpage
    obtain ⟨t', -, hrun⟩ := hcall page true (askOrders page) [] teaOrders teaOrders _ rfl
      (by rw [hentity]; exact hread page hpage) rfl
    rw [salesCall, hrun, if_pos rfl, Call.counted]
    rfl
  exact ⟨hpages, hpage 2 (.inl rfl), hpage 3 (.inr rfl)⟩

end EntityGraph
