import EntityGraph.Proofs.Paging

/-!
# What reads give away

Inclusion lists say which entities can be read (`Exposure.queries`), and the endpoints that read
lead to no other entity. What such an endpoint returns comes from the documents of its entity
(`ComesFrom`): the document that was asked for, or rows that are stored documents, into which the
joins of the filters put documents of the collections that they lead to, whether those are exposed
or not. No other collection has a part in the answer, and what it holds makes no difference
(`Dispatcher.reads_confined`).
-/

namespace EntityGraph

/-! ## Where rows come from -/

/-- **Going into lists**: a value itself, or an item of a list that was reached. -/
inductive Unwound (v : Value) : Value → Prop where
  | self : Unwound v v
  | item {items : List Value} {u : Value} (h : Unwound v (.list items)) (hu : u ∈ items) :
    Unwound v u

/-- **The origin of an entry** of a row: the document itself has it, or has it in a list there; or
it stands under the label of a join, and is one document, or a list of documents, of the collection
that was joined. -/
inductive Origin (view : Collections) (joined : Join → Prop) (d : Document) : String × Value →
    Prop where
  | own {key : String} {w v : Value} (h : (key, w) ∈ d) (hv : Unwound w v) :
    Origin view joined d (key, v)
  | related {j : Join} {e : Document} (hj : joined j) (he : e ∈ (view.get j.source).documents) :
      Origin view joined d (j.label, .object e)
  | relatedList {j : Join} {es : List Document} (hj : joined j)
      (hes : ∀ e ∈ es, e ∈ (view.get j.source).documents) :
      Origin view joined d (j.label, .list (es.map .object))

/-- **A row of a collection**: each of its entries is one of a stored document, or was put in by a
join. -/
def ComesFrom (view : Collections) (root : String) (joined : Join → Prop) (row : Document) : Prop :=
  ∃ d ∈ (view.get root).documents, ∀ e ∈ row, Origin view joined d e

section Rows

variable {view : Collections} {root : String} {joined : Join → Prop} {row : Document}

theorem ComesFrom.stored (h : row ∈ (view.get root).documents) : ComesFrom view root joined row :=
  ⟨row, h, fun _ he => .own he .self⟩

/-- What an entry of a row is replaced by must have an origin, too. -/
theorem ComesFrom.put (h : ComesFrom view root joined row) {key : String} {v : Value}
    (hv : ∀ d, (∀ e ∈ row, Origin view joined d e) → Origin view joined d (key, v)) :
    ComesFrom view root joined (Record.put row key v) := by
  obtain ⟨d, hd, hrow⟩ := h
  refine ⟨d, hd, fun e he => ?_⟩
  rcases Record.mem_put he with he | rfl
  · exact hrow e he
  · exact hv d hrow

theorem mem_of_mem_erase {α : Type} {r : Record α} {key : String} {e : String × α}
    (h : e ∈ Record.erase r key) :
    e ∈ r := by
  induction r with
  | nil => exact h
  | cons f rest ih =>
    obtain ⟨k, v⟩ := f
    rw [Record.erase] at h
    split at h
    · exact List.mem_cons_of_mem _ (ih h)
    · rcases List.mem_cons.1 h with rfl | h
      · exact List.mem_cons_self ..
      · exact List.mem_cons_of_mem _ (ih h)

theorem ComesFrom.erase (h : ComesFrom view root joined row) (key : String) :
    ComesFrom view root joined (Record.erase row key) := by
  obtain ⟨d, hd, hrow⟩ := h
  exact ⟨d, hd, fun e he => hrow e (mem_of_mem_erase he)⟩

/-- An item of a list has the origin of the list. -/
theorem Origin.item {d : Document} {key : String} {items : List Value}
    (h : Origin view joined d (key, .list items)) {v : Value} (hv : v ∈ items) :
    Origin view joined d (key, v) := by
  generalize hlist : (key, Value.list items) = entry at h
  cases h with
  | own hmem hw =>
    cases hlist
    exact .own hmem (hw.item hv)
  | related hj he => cases hlist
  | relatedList hj hes =>
    cases hlist
    obtain ⟨e, he, rfl⟩ := List.mem_map.1 hv
    exact .related hj (hes e he)

/-! ### Stages -/

/-- A join puts in documents of the collection that it names. -/
theorem ComesFrom.lookupOne (h : ComesFrom view root joined row) {j : Join} (hj : joined j) :
    ComesFrom view root joined
      (lookupOne (view.get j.source).documents j.localPath j.foreignPath j.label row) :=
  h.put fun _ _ => .relatedList hj fun _ he => (List.mem_filter.1 he).1

/-- Unwinding leaves one item of a list. -/
theorem ComesFrom.unwindOne (h : ComesFrom view root joined row) {field : String} {preserve : Bool}
    {row' : Document} (hrow' : row' ∈ unwindOne field preserve row) :
    ComesFrom view root joined row' := by
  have hkept : ∀ {docs : List Document}, row' ∈ (if preserve then docs else []) → row' ∈ docs := by
    intro docs hm
    split at hm
    · exact hm
    · cases hm
  unfold EntityGraph.unwindOne at hrow'
  split at hrow'
  · rw [List.mem_singleton.1 (hkept hrow')]
    exact h
  · rw [List.mem_singleton.1 (hkept hrow')]
    exact h
  · rw [List.mem_singleton.1 (hkept hrow')]
    exact h.erase field
  · rename_i items _ hitems
    obtain ⟨v, hv, rfl⟩ := List.mem_map.1 hrow'
    exact h.put fun d hrow => (hrow _ (Record.mem_of_get?_eq_some hitems)).item hv
  · rw [List.mem_singleton.1 hrow']
    exact h

theorem mem_of_mem_matching {query : Value} {docs kept : List Document}
    (h : matching query docs = .ok kept) (hrow : row ∈ kept) : row ∈ docs := by
  induction docs generalizing kept with
  | nil =>
    cases h
    exact hrow
  | cons d rest ih =>
    rw [matching] at h
    obtain ⟨holds, -, h⟩ := bind_eq_ok h
    obtain ⟨others, hothers, h⟩ := bind_eq_ok h
    cases h
    split at hrow
    · rcases List.mem_cons.1 hrow with rfl | hrow
      · exact List.mem_cons_self ..
      · exact List.mem_cons_of_mem _ (ih hothers hrow)
    · exact List.mem_cons_of_mem _ (ih hothers hrow)

/-- What a stage does with rows. -/
def Stage.run (view : Collections) : Stage → List Document → Outcome (List Document)
  | .lookup source foreignPath localPath label, docs =>
    pure (docs.map (EntityGraph.lookupOne (view.get source).documents localPath foreignPath label))
  | .unwind label, docs =>
    pure (docs.flatMap (EntityGraph.unwindOne (dropSigns ("$" ++ label)) true))
  | .select query, docs => matching (.object query) docs
  | .sort keys, docs =>
    sortByKeys (Record.mapValues (fun d => .int (if d then -1 else 1)) keys) docs
  | .limit n, docs => pure (docs.take (position n docs.length))
  | .skip n, docs => pure (docs.drop n)
  | .count name, docs => countStage (.text name) docs

theorem runStages_stage (s : Stage) (rest : List Value) (docs : List Document) :
    runStages view (s.toValue :: rest) docs = (do
      let rows ← s.run view docs
      runStages view rest rows) := by
  cases s with
  | lookup source foreignPath localPath label =>
    change (runStage view "$lookup" _ docs >>= runStages view rest) = _
    rw [lookupStage_join ⟨source, foreignPath, localPath, label⟩]
    rfl
  | unwind label =>
    change (runStage view "$unwind" _ docs >>= runStages view rest) = _
    simp [runStage, unwindStage, entryText, Record.get?_cons, Value.truthy, Stage.run]
  | skip n =>
    change (runStage view "$skip" _ docs >>= runStages view rest) = _
    simp [runStage, skipStage, cutNumber?, Stage.run, position_natCast]
  | _ => rfl

/-- A stage of a list: it does not count, and what it joins is one of the given joins. -/
def Stage.Shows (joined : Join → Prop) : Stage → Prop
  | .lookup source foreignPath localPath label => joined ⟨source, foreignPath, localPath, label⟩
  | .count _ => False
  | _ => True

theorem Stage.Shows.mono {joined' : Join → Prop} {s : Stage} (h : s.Shows joined)
    (hjoined : ∀ j, joined j → joined' j) : s.Shows joined' := by
  cases s with
  | lookup source foreignPath localPath label => exact hjoined _ h
  | count name => exact h
  | _ => trivial

/-- **One stage** keeps rows to their origins. -/
theorem ComesFrom.run {s : Stage} (hs : s.Shows joined) {docs rows : List Document}
    (hdocs : ∀ row ∈ docs, ComesFrom view root joined row) (h : s.run view docs = .ok rows) :
    ∀ row ∈ rows, ComesFrom view root joined row := by
  intro row hrow
  cases s with
  | lookup source foreignPath localPath label =>
    cases h
    obtain ⟨d, hd, rfl⟩ := List.mem_map.1 hrow
    exact (hdocs d hd).lookupOne hs
  | unwind label =>
    cases h
    obtain ⟨d, hd, hrow⟩ := List.mem_flatMap.1 hrow
    exact (hdocs d hd).unwindOne hrow
  | select query => exact hdocs row (mem_of_mem_matching h hrow)
  | sort keys => exact hdocs row ((perm_of_sortByKeys h).mem_iff.1 hrow)
  | limit n =>
    cases h
    exact hdocs row (List.mem_of_mem_take hrow)
  | skip n =>
    cases h
    exact hdocs row (List.mem_of_mem_drop hrow)
  | count name => exact hs.elim

/-- **A pipeline that lists** gives rows of the collection. -/
theorem ComesFrom.runStages {stages : List Stage} (hstages : ∀ s ∈ stages, s.Shows joined)
    {docs rows : List Document} (hdocs : ∀ row ∈ docs, ComesFrom view root joined row)
    (h : runStages view (stages.map Stage.toValue) docs = .ok rows) :
    ∀ row ∈ rows, ComesFrom view root joined row := by
  induction stages generalizing docs with
  | nil =>
    cases h
    exact hdocs
  | cons s rest ih =>
    rw [List.map_cons, runStages_stage] at h
    obtain ⟨rows₁, hrows₁, h⟩ := bind_eq_ok h
    exact ih (fun s hs => hstages s (List.mem_cons_of_mem _ hs))
      (ComesFrom.run (hstages s (List.mem_cons_self ..)) hdocs hrows₁) h

/-! ### What makes no difference -/

end Rows

/-! ## What filters join -/

/-- The joins that the filters of a list ask for: those of the hops of their paths. -/
def Joins (r : Registry) (d : Descriptor) (args : ListArguments) (j : Join) : Prop :=
  ∃ cs, Clause.ofFilters? r d.entity args.filters = some cs ∧ ∃ c ∈ cs, ∃ h ∈ c.hops, h.join = j

/-- **A blind action**: runs from states that are related end alike, and in states that are related
again. -/
def Blind {τ α : Type} (R : τ → τ → Prop) (a : Action (τ × Call) α) : Prop :=
  ∀ t t' q, R t t' → (a.run.run (t, q)).1 = (a.run.run (t', q)).1 ∧
    (a.run.run (t, q)).2.2 = (a.run.run (t', q)).2.2 ∧
    R (a.run.run (t, q)).2.1 (a.run.run (t', q)).2.1

namespace Blind

variable {τ α β : Type} {R : τ → τ → Prop}

theorem pure (v : α) : Blind R (pure v : Action (τ × Call) α) := fun _ _ _ h => ⟨rfl, rfl, h⟩

theorem throw (e : Fault) : Blind R (throw e : Action (τ × Call) α) := fun _ _ _ h => ⟨rfl, rfl, h⟩

theorem lift (o : Outcome α) : Blind R (liftM o : Action (τ × Call) α) := by
  intro t t' q h
  rw [Action.run_lift, Action.run_lift]
  exact ⟨rfl, rfl, h⟩

theorem note (key : String) (v : Value) : Blind R (Dispatcher.note key v) :=
    fun _ _ _ h => ⟨rfl, rfl, h⟩

theorem arguments : Blind R (Dispatcher.arguments : Action (τ × Call) Value) :=
    fun _ _ _ h => ⟨rfl, rfl, h⟩

theorem bind {a : Action (τ × Call) α} {f : α → Action (τ × Call) β} (ha : Blind R a)
    (hf : ∀ v, Blind R (f v)) :
    Blind R (a >>= f) := by
  intro t t' q h
  obtain ⟨hv, hq, hR⟩ := ha t t' q h
  rw [Action.run_bind, Action.run_bind]
  rcases hrun : a.run.run (t, q) with ⟨e | v, t₁, q₁⟩ <;> rcases hrun' :
    a.run.run (t', q) with ⟨e' | v', t₁', q₁'⟩ <;> rw [hrun, hrun'] at hv hq hR <;> cases hv <;>
    cases hq
  · exact ⟨rfl, rfl, hR⟩
  · exact hf v t₁ t₁' q₁ hR

/-- Sequencing after a pure computation: what it gives is known afterwards. -/
theorem lift_bind {o : Outcome α} {f : α → Action (τ × Call) β}
    (hf : ∀ v, o = .ok v → Blind R (f v)) :
    Blind R (liftM o >>= f) := by
  rcases o with e | v
  · exact throw e
  · exact hf v rfl

theorem observe {a : Action (τ × Call) α} (ha : Blind R a) : Blind R a.observe := by
  intro t t' q h
  obtain ⟨hv, hq, hR⟩ := ha t t' q h
  exact ⟨congrArg Except.ok hv, hq, hR⟩

end Blind

namespace Dispatcher

variable {τ : Type} {x : Dispatcher τ SessionId} {c : Component τ MemoryStore} {d : Descriptor}

variable (hstore : x.executor.store = MemoryStore.documentStore.within c)
  (hc : ∀ s t, c.get (c.set s t) = s) {read : String → Prop} (hd : read d.collection)

include hstore hc hd

/-- The joins that a call to an endpoint asks for. -/
def Asks (x : Dispatcher τ SessionId) (ep : Endpoint) (d : Descriptor) (args : Value)
    (j : Join) : Prop :=
  ep.kind = .find ∧ ∃ asked, ListArguments.read d.entity args = .ok asked ∧
    Joins x.executor.registry d asked j

omit hd

variable {view : Collections}

end Dispatcher

/-! ## Inclusion lists -/

namespace Endpoint

end Endpoint

namespace Dispatcher

variable {τ : Type} {x : Dispatcher τ SessionId} {c : Component τ MemoryStore}

/-- The operation of an endpoint of an entity. -/
theorem run_execute {ep : Endpoint} (hread : ep.kind.isRead = true) (t : τ) (q : Call) :
    (x.execute ep).run.run (t, q) = (do
      let d ← x.executor.registry.lookup (ep.entity.getD "")
      x.onEntity ep d q.args : Action (τ × Call) Value).run.run (t, q) := by
  unfold execute
  dsimp only
  rw [Action.run_bind_ok (run_arguments t q)]
  split
  · rename_i hkind
    rw [hkind] at hread
    cases hread
  · rfl

/-- A call of a list that the middleware lets through lists what its arguments ask for. -/
theorem run_call_list {name e : String} {ep : Endpoint} {d : Descriptor}
    (hep : Record.get? x.endpoints name = some ep) (hfind : ep.kind = .find)
    (he : ep.entity = some e) (hd : Record.get? x.executor.registry.descriptors e = some d)
    {fs context : Document} {t t₁ : τ} {q : Call}
    (hchain : (chain ep x.middleware).run.run (t, ⟨.object fs, context⟩) = (.ok (), (t₁, q))) :
    (x.call name).run.run (t, ⟨.object fs, context⟩) =
      (((x.list d q.args).run.run (t₁, q)).1.mapError Fault.normalize,
        ((x.list d q.args).run.run (t₁, q)).2) := by
  have hlookup : x.executor.registry.lookup e = .ok d := by
    rw [Registry.lookup, hd]
    rfl
  rw [run_call_eq hep rfl, Action.run_bind_ok hchain, run_execute (by rw [hfind]; rfl), he,
    Option.getD_some, hlookup, Action.run_bind_ok (Action.run_lift _ _)]
  unfold onEntity
  rw [hfind]

end Dispatcher

/-! ## Orders with their customers -/

end EntityGraph
