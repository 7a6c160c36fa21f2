import EntityGraph.Proofs.Exposure
import EntityGraph.Proofs.Ranges

/-!
# Calls with ranges

The arguments of a list are read before anything is compiled, and reading objects to terms by their
places. A range takes one place and its two bounds take two. So arguments with a range, and
arguments with its bounds, are accepted alike and refused alike (`RangeSplit.read_cases`), except
that an objection to a later term of the same list names the next place. What is accepted is counted
and listed alike (`Dispatcher.counting_eq`, `Dispatcher.showing_eq`), and so the calls agree
(`Dispatcher.call_range`).
-/

namespace EntityGraph

/-! ## Reading items in their places -/

/-- The objection at the next place: what it says of an item of a list is said of the item behind
it. -/
def Objection.next (o : Objection) : Objection :=
  match o.path with
  | .key name :: .item index :: rest => { o with path := .key name :: .item (index + 1) :: rest }
  | _ => o

section Items

variable {α : Type} {read : Value → Reading α}

theorem readItems_append (index : Nat) (xs ys : List Value) :
    readItems read index (xs ++ ys) =
      ⟨(readItems read index xs).value ++ (readItems read (index + xs.length) ys).value,
        (readItems read index xs).objections ++
          (readItems read (index + xs.length) ys).objections⟩ := by
  induction xs generalizing index with
  | nil => rfl
  | cons v rest ih =>
    rw [List.cons_append, readItems, readItems, ih, List.length_cons, Nat.add_assoc, Nat.add_comm 1]
    simp only [List.cons_append, List.append_assoc]

/-- Items one place further are read alike. -/
theorem value_readItems_succ (index : Nat) (items : List Value) :
    (readItems read (index + 1) items).value = (readItems read index items).value := by
  induction items generalizing index with
  | nil => rfl
  | cons v rest ih =>
    rw [readItems, readItems, ih (index + 1)]
    rfl

/-- Items one place further are objected to at the next place. -/
theorem objections_readItems_succ (name : String) (index : Nat) (items : List Value) :
    ((readItems read (index + 1) items).under (.key name)).objections =
      ((readItems read index items).under (.key name)).objections.map Objection.next := by
  induction items generalizing index with
  | nil => rfl
  | cons v rest ih =>
    have ih := ih (index + 1)
    simp only [Reading.under] at ih
    simp only [readItems, Reading.under, List.map_append, ih, List.map_map]
    rfl

theorem exists_objection_of_readItems {index : Nat} {items : List Value}
    (h : (readItems read index items).objections ≠ []) : ∃ v ∈ items, (read v).objections ≠ [] := by
  induction items generalizing index with
  | nil => exact absurd rfl h
  | cons v rest ih =>
    by_cases hv : (read v).objections = []
    · have hrest : (readItems read (index + 1) rest).objections ≠ [] := fun hnil => h <| by
        rw [readItems, Reading.under, hv, hnil]
        rfl
      obtain ⟨u, hu, hobjections⟩ := ih hrest
      exact ⟨u, List.mem_cons_of_mem _ hu, hobjections⟩
    · exact ⟨v, List.mem_cons_self .., hv⟩

end Items

/-! ## Reading filters -/

section Filters

variable {e : Entity}

theorem readFilters_append (xs ys : Document) :
    readFilters e (xs ++ ys) =
      (do
        let first ← readFilters e xs
        let others ← readFilters e ys
        pure (first ++ others)) := by
  induction xs with
  | nil => exact (bind_pure _).symm
  | cons entry rest ih =>
    obtain ⟨key, v⟩ := entry
    rw [List.cons_append, readFilters, readFilters]
    split
    · exact ih
    · cases e.field? key with
      | none => rfl
      | some f =>
        simp only [ih, bind_assoc]
        refine bind_congr fun kind => ?_
        split <;> simp only [bind_assoc, pure_bind, List.cons_append]

/-- A name of the entity's relations. -/
def Entity.HasRelation (e : Entity) (name : String) : Prop :=
  ∃ f kind, e.field? name = some f ∧ f.kind = .ok kind ∧ kind.isObject = true

/-- The filter of a relation reads its terms. -/
theorem readFilters_relation {name : String} (h : e.HasRelation name)
    (hname : reservedArguments.contains name = false) (v : Value) (rest : Document) :
    readFilters e ((name, v) :: rest) =
      (do
        let terms ← (readTerms readPathTerm v).accept e.name
        let others ← readFilters e rest
        pure ((name, .expression terms) :: others)) := by
  obtain ⟨f, kind, hf, hkind, hobject⟩ := h
  rw [readFilters, hname, hf]
  dsimp only
  rw [if_neg Bool.false_ne_true, hkind]
  change (if kind.isObject = true then _ else _ : Outcome (Record Filter)) = _
  rw [if_pos hobject]
  simp only [pure_bind]

end Filters

/-! ## A range among raw arguments -/

/-- **A range among raw arguments** of a list: one of the terms on a relation asks for values
between two bounds. The terms that ask for one bound each may take its place. Around them stands
whatever a client may write. -/
structure RangeSplit (e : Entity) where
  before : Document
  after : Document
  /-- the relation, and what is given for it: with the range, and with its bounds -/
  relation : String
  given : Document
  given' : Document
  /-- the other terms on the relation -/
  termsBefore : List Value
  termsAfter : List Value
  range : Value
  low : Value
  high : Value
  /-- what the three terms ask -/
  path : String
  a : Value
  b : Value
  not_reserved : reservedArguments.contains relation = false
  isRelation : e.HasRelation relation
  terms : Record.get? given "terms" = some (.list (termsBefore ++ range :: termsAfter))
  terms' : Record.get? given' "terms" = some (.list (termsBefore ++ low :: high :: termsAfter))
  read_range : readPathTerm range = .good ⟨⟨some .btw, .list [a, b]⟩, path⟩
  read_low : readPathTerm low = .good ⟨⟨some .gte, a⟩, path⟩
  read_high : readPathTerm high = .good ⟨⟨some .lte, b⟩, path⟩

namespace RangeSplit

variable {e : Entity}

/-- The arguments with the range. -/
def whole (s : RangeSplit e) : Document := s.before ++ (s.relation, .object s.given) :: s.after

/-- The arguments with its bounds. -/
def parts (s : RangeSplit e) : Document := s.before ++ (s.relation, .object s.given') :: s.after

variable (s : RangeSplit e)

/-- The terms with the range are read with objections to the other terms only. -/
theorem readTerms_given : ∃ (first last : List Objection) (xs ys : List PathTerm),
    readTerms readPathTerm (.object s.given) = ⟨xs ++ ⟨⟨some .btw, .list [s.a, s.b]⟩, s.path⟩ ::
      ys, first ++ last⟩ ∧
    readTerms readPathTerm (.object s.given') = ⟨xs ++ ⟨⟨some .gte, s.a⟩, s.path⟩ ::
      ⟨⟨some .lte, s.b⟩, s.path⟩ :: ys, first ++ last.map Objection.next⟩ ∧
    (last ≠ [] → ∃ v ∈ s.termsAfter, (readPathTerm v).objections ≠ []) := by
  have hvalue := @value_readItems_succ _ readPathTerm (s.termsBefore.length + 1) s.termsAfter
  have hnext :=
    @objections_readItems_succ _ readPathTerm "terms" (s.termsBefore.length + 1) s.termsAfter
  refine ⟨((readItems readPathTerm 0 s.termsBefore).under (.key "terms")).objections,
    ((readItems readPathTerm (s.termsBefore.length + 1) s.termsAfter).under
    (.key "terms")).objections, (readItems readPathTerm 0 s.termsBefore).value,
    (readItems readPathTerm (s.termsBefore.length + 1) s.termsAfter).value, ?_, ?_, fun hlast => ?_⟩
  · rw [readTerms, s.terms]
    dsimp only
    rw [readItems_append, Nat.zero_add, readItems, s.read_range]
    simp [Reading.under, Reading.good]
  · rw [readTerms, s.terms', ← hvalue, ← hnext]
    dsimp only
    rw [readItems_append, Nat.zero_add, readItems, readItems, s.read_low, s.read_high]
    simp [Reading.under, Reading.good]
  · refine @exists_objection_of_readItems _ _ (s.termsBefore.length + 1) _ fun hnil => hlast ?_
    rw [Reading.under, hnil]
    rfl

/-- What order and page are read from is the same. -/
theorem get?_parts {name : String} (hname : reservedArguments.contains name = true) :
    Record.get? s.parts name = Record.get? s.whole name := by
  have hne : s.relation ≠ name := fun heq => by
    have hnot := s.not_reserved
    rw [heq, hname] at hnot
    cases hnot
  unfold parts whole
  induction s.before with
  | nil =>
    rw [List.nil_append, List.nil_append, Record.get?_cons, Record.get?_cons, if_neg hne,
      if_neg hne]
  | cons entry rest ih =>
    obtain ⟨key, v⟩ := entry
    rw [List.cons_append, List.cons_append, Record.get?_cons, Record.get?_cons, ih]

/-- The arguments are read filter by filter, then the order, then the page. -/
theorem read_eq (fs : Document) (given : Document)
    (hsort : Record.get? fs "sort" = Record.get? s.whole "sort")
    (hpage : Record.get? fs "pagination" = Record.get? s.whole "pagination")
    (hfs : fs = s.before ++ (s.relation, .object given) :: s.after) :
    ListArguments.read e (.object fs) =
      (do
        let before ← readFilters e s.before
        let terms ← (readTerms readPathTerm (.object given)).accept e.name
        let after ← readFilters e s.after
        let sort ← readOptional e.name (readTerms readSortTerm) s.whole "sort"
        let pagination ← readOptional e.name readPagination s.whole "pagination"
        pure ⟨before ++ (s.relation, .expression terms) :: after, sort, pagination⟩) := by
  have hread : ListArguments.read e (.object fs) =
      (do
        let filters ← readFilters e fs
        let sort ← readOptional e.name (readTerms readSortTerm) fs "sort"
        let pagination ← readOptional e.name readPagination fs "pagination"
        pure ⟨filters, sort, pagination⟩) := rfl
  unfold readOptional at hread ⊢
  rw [hread, hsort, hpage, hfs, readFilters_append,
    readFilters_relation s.isRelation s.not_reserved]
  simp only [bind_assoc, pure_bind]

/-- **How the two kinds of arguments are read**: both are accepted, or both are refused, with the
same error or with objections of which the last ones, to terms behind the range, name the next
place. -/
theorem read_cases :
    Outcome.Both ListArguments.Splits (ListArguments.read e (.object s.whole))
      (ListArguments.read e (.object s.parts)) ∨
    (∃ v ∈ s.termsAfter, (readPathTerm v).objections ≠ []) ∧ ∃ first last : List Objection,
      ListArguments.read e (.object s.whole) =
        .error (Reason.malformedArguments e.name (first ++ last)).fault ∧
      ListArguments.read e (.object s.parts) =
        .error (Reason.malformedArguments e.name (first ++ last.map Objection.next)).fault := by
  obtain ⟨first, last, xs, ys, hgiven, hgiven', hlast⟩ := s.readTerms_given
  rw [s.read_eq s.whole s.given rfl rfl rfl,
    s.read_eq s.parts s.given' (s.get?_parts rfl) (s.get?_parts rfl) rfl, hgiven, hgiven']
  rcases readFilters e s.before with f | before
  · exact .inl (.error f)
  by_cases hnil : last = []
  · refine .inl ?_
    subst hnil
    cases first with
    | cons => exact .error _
    | nil =>
      change Outcome.Both _ (readFilters e s.after >>= _) (readFilters e s.after >>= _)
      exact .after fun after => .after fun sort => .after fun pagination =>
        .ok (ListArguments.Splits.mk ..)
  · have hsome : (first ++ last).isEmpty = false := by simp [hnil]
    have hsome' : (first ++ last.map Objection.next).isEmpty = false := by simp [hnil]
    refine .inr ⟨hlast hnil, first, last, ?_, ?_⟩
    · unfold Reading.accept
      rw [hsome]
      rfl
    · unfold Reading.accept
      rw [hsome']
      rfl

end RangeSplit

/-! ## Pipelines that run alike -/

/-- **Stages that run alike**, on any documents. -/
def RunAlike (stages stages' : List Stage) : Prop :=
  stages'.isEmpty = stages.isEmpty ∧ ∀ view docs,
    runStages view (stages'.map Stage.toValue) docs = runStages view (stages.map Stage.toValue) docs

theorem Plan.Alike.runAlike {p p' : Plan} (h : p.Alike p') {rest : List Stage} (hrest : rest ≠ []) :
    RunAlike (p.stages ++ rest) (p'.stages ++ rest) := by
  refine ⟨?_, fun view docs => ?_⟩
  · have hsome : ∀ q : Plan, (q.stages ++ rest).isEmpty = false := fun q => by
      rw [List.isEmpty_eq_false_iff]
      exact List.append_ne_nil_of_right_ne_nil _ hrest
    rw [hsome, hsome]
  · rw [List.map_append, List.map_append]
    exact h.runStages view _ docs

section Pipelines

variable {r : Registry} {d : Descriptor} {args args' : ListArguments}

theorem ListArguments.Splits.isEmpty (h : args.Splits args') :
    args.isEmpty = false ∧ args'.isEmpty = false := by
  obtain ⟨⟩ := h
  constructor <;> simp [ListArguments.isEmpty]

/-- The same size and the same rows are asked for. -/
theorem countPipeline_alike (h : args.Splits args')
    (hplain : ∀ entry ∈ args.filters, entry.2.IsPlain entry.1) :
    Outcome.Both RunAlike (countPipeline r d args) (countPipeline r d args') := by
  rw [countPipeline, countPipeline, h.isEmpty.1, h.isEmpty.2]
  exact (h.planFilters d.entity hplain).bind fun p p' hp => .ok (hp.runAlike (List.cons_ne_nil _ _))

theorem listPipeline_alike (h : args.Splits args') (limit : Int)
    (hplain : ∀ entry ∈ args.filters, entry.2.IsPlain entry.1) :
    Outcome.Both RunAlike (listPipeline r limit d args) (listPipeline r limit d args') := by
  have hrest : args'.sort = args.sort ∧ args'.pagination = args.pagination := by
    obtain ⟨⟩ := h
    exact ⟨rfl, rfl⟩
  rw [listPipeline_of_not_isEmpty limit (by simp [h.isEmpty.1]),
    listPipeline_of_not_isEmpty limit (by simp [h.isEmpty.2]), hrest.1, hrest.2]
  refine (h.planFilters d.entity hplain).bind fun p p' hp => .after fun order => ?_
  rw [List.append_assoc, List.append_assoc]
  refine .ok (hp.runAlike ?_)
  cases args.pagination <;> simp [cuts]

end Pipelines

namespace Dispatcher

variable {τ : Type} {x : Dispatcher τ SessionId} {c : Component τ MemoryStore} {d : Descriptor}
  {args args' : ListArguments}

section Lists

variable (hstore : x.executor.store = MemoryStore.documentStore.within c)

include hstore

/-- Stages that run alike answer alike. -/
theorem runPipeline_eq {stages stages' : List Stage} (h : RunAlike stages stages') :
    x.runPipeline d stages' = x.runPipeline d stages := by
  refine funext fun ⟨t, q⟩ => ?_
  exact (run_runPipeline hstore stages' t q).trans
    ((congrArg (·, _) (h.2 _ _)).trans (run_runPipeline hstore stages t q).symm)

/-- **The count is the same.** -/
theorem counting_eq (h : args.Splits args')
    (hplain : ∀ entry ∈ args.filters, entry.2.IsPlain entry.1) :
    x.counting d args' = x.counting d args := by
  have hcounts : args'.counts = args.counts := by
    obtain ⟨⟩ := h
    rfl
  have hstages := @countPipeline_alike x.executor.registry d _ _ h hplain
  unfold counting
  rw [hcounts]
  split
  · generalize countPipeline x.executor.registry d args = stages,
      countPipeline x.executor.registry d args' = stages' at hstages
    cases hstages with
    | error f => rfl
    | @ok a b halike =>
      change x.runPipeline d b >>= _ = x.runPipeline d a >>= _
      rw [runPipeline_eq hstore halike]
  · rfl

/-- **The rows are the same**, in the same order. -/
theorem showing_eq (h : args.Splits args')
    (hplain : ∀ entry ∈ args.filters, entry.2.IsPlain entry.1) :
    x.showing d args' = x.showing d args := by
  have hstages := @listPipeline_alike x.executor.registry d _ _ h x.defaultLimit hplain
  unfold showing
  generalize listPipeline x.executor.registry x.defaultLimit d args = stages,
    listPipeline x.executor.registry x.defaultLimit d args' = stages' at hstages
  cases hstages with
  | error f => rfl
  | @ok a b halike =>
    have hlift : ∀ stages : List Stage,
      (liftM (Except.ok stages : Outcome (List Stage)) : Action (τ × Call) _) =
        pure stages := fun _ => rfl
    rw [hlift, hlift, pure_bind, pure_bind, halike.1, runPipeline_eq hstore halike]

end Lists

/-! ## Calls -/

/-- **An action that ignores the arguments of its call** runs alike whatever they are, and leaves
them. -/
def IgnoresArguments {α : Type} (a : Action (τ × Call) α) : Prop :=
  ∀ t q args, a.run.run (t, { q with args := args }) =
    ((a.run.run (t, q)).1, (a.run.run (t, q)).2.1, { (a.run.run (t, q)).2.2 with args := args })

namespace IgnoresArguments

variable {α β : Type}

theorem pure (v : α) : IgnoresArguments (pure v : Action (τ × Call) α) := fun _ _ _ => rfl

theorem lift (o : Outcome α) : IgnoresArguments (liftM o : Action (τ × Call) α) := by
  intro t q args
  rw [Action.run_lift, Action.run_lift]

theorem note (key : String) (v : Value) :
    IgnoresArguments (Dispatcher.note key v : Action (τ × Call) Unit) :=
  fun _ _ _ => rfl

theorem within (a : Action τ α) : IgnoresArguments (a.within (.ofCall τ)) := fun _ _ _ => rfl

theorem bind {a : Action (τ × Call) α} {f : α → Action (τ × Call) β} (ha : IgnoresArguments a)
    (hf : ∀ v, IgnoresArguments (f v)) : IgnoresArguments (a >>= f) := by
  intro t q args
  have hrun := ha t q args
  rcases h : a.run.run (t, q) with ⟨e | v, t₁, q₁⟩ <;> rw [h] at hrun
  · rw [Action.run_bind_error hrun, Action.run_bind_error h]
  · rw [Action.run_bind_ok hrun, Action.run_bind_ok h]
    exact hf v t₁ q₁ args

end IgnoresArguments

/-- What is counted and shown depends on the arguments as they were read. -/
theorem ignoresArguments_list (x : Dispatcher τ SessionId) (d : Descriptor) (args : ListArguments) :
    IgnoresArguments (do
      x.counting d args
      x.showing d args) := by
  have hcounting : IgnoresArguments (x.counting d args) := by
    unfold counting
    split
    · refine .bind (.lift _) fun stages => .bind (.within _) fun rows => .bind (.lift _) fun size =>
        .note _ _
    · exact .pure _
  have hshowing : IgnoresArguments (x.showing d args) := by
    unfold showing
    refine .bind (.lift _) fun stages => ?_
    split
    · exact .bind (.within _) fun rows => .pure _
    · exact .bind (.within _) fun rows => .pure _
  exact .bind hcounting fun _ => hshowing

/-- **A range is asked for as its bounds are.** Let two calls of a list arrive, behind the
middleware, at the same documents and with the same context, and let their arguments be the same but
for a term on a relation that asks for values between two bounds, which one of them has, and the two
terms that ask for one bound each, which the other has in its place. Let no equality have an object
of operators for its value, and no field that holds no objects be filtered under the name of a
combination of queries. Then the calls return the same rows in the same order or fail with the same
error, and leave the same documents and the same context, where the size is counted. Only when a
term behind the range in the same list cannot be read, the objections to it name the next place. -/
theorem call_range (hstore : x.executor.store = MemoryStore.documentStore.within c)
    {name e : String} {ep : Endpoint} (hep : Record.get? x.endpoints name = some ep)
    (hfind : ep.kind = .find) (he : ep.entity = some e)
    (hd : Record.get? x.executor.registry.descriptors e = some d) (s : RangeSplit d.entity)
    {t t₀ t₁ : τ} {fs₀ fs₁ context context₀ context₁ : Document}
    (hwhole : (chain ep x.middleware).run.run (t₀, ⟨.object fs₀, context₀⟩) =
      (.ok (), (t, ⟨.object s.whole, context⟩)))
    (hparts : (chain ep x.middleware).run.run (t₁, ⟨.object fs₁, context₁⟩) =
      (.ok (), (t, ⟨.object s.parts, context⟩)))
    (hplain : ∀ args, ListArguments.read d.entity (.object s.whole) = .ok args →
      ∀ entry ∈ args.filters, entry.2.IsPlain entry.1) :
    ∃ (r r' : Outcome Value) (t' : τ) (context' : Document),
      (x.call name).run.run (t₀, ⟨.object fs₀, context₀⟩) = (r, (t', ⟨.object s.whole, context'⟩)) ∧
      (x.call name).run.run (t₁, ⟨.object fs₁, context₁⟩) =
        (r', (t', ⟨.object s.parts, context'⟩)) ∧
      (r' = r ∨ (∃ v ∈ s.termsAfter, (readPathTerm v).objections ≠ []) ∧
        ∃ first last : List Objection,
          r = .error (Reason.malformedArguments d.entity.name (first ++ last)).fault.normalize ∧
        r' = .error (Reason.malformedArguments d.entity.name
          (first ++ last.map Objection.next)).fault.normalize) := by
  rw [run_call_list hep hfind he hd hwhole, run_call_list hep hfind he hd hparts, list_eq, list_eq]
  rcases s.read_cases with hboth | ⟨hlater, first, last, hwhole, hparts⟩
  · generalize hread : ListArguments.read d.entity (.object s.whole) = whole,
      hread' : ListArguments.read d.entity (.object s.parts) = parts at hboth
    cases hboth with
    | error f => exact ⟨_, _, t, context, rfl, rfl, .inl rfl⟩
    | @ok args args' hsplits =>
      have hplain := hplain args hread
      have hsame : (do x.counting d args'; x.showing d args') =
          (do x.counting d args; x.showing d args) := by
        rw [counting_eq hstore hsplits hplain, showing_eq hstore hsplits hplain]
      have hignore := ignoresArguments_list x d args t ⟨.object s.whole, context⟩
      rcases hrun :
        (do x.counting d args; x.showing d args).run.run (t, ⟨.object s.whole, context⟩) with
        ⟨r, t', q'⟩
      rw [hrun] at hignore
      have hwhole :
        (do x.counting d args; x.showing d args).run.run (t, ⟨.object s.whole, context⟩) =
          (r, (t', ⟨.object s.whole, q'.context⟩)) := hignore (.object s.whole)
      have hparts :
        (do x.counting d args'; x.showing d args').run.run (t, ⟨.object s.parts, context⟩) =
          (r, (t', ⟨.object s.parts, q'.context⟩)) := by
        rw [hsame]
        exact hignore (.object s.parts)
      refine ⟨r.mapError Fault.normalize, r.mapError Fault.normalize, t', q'.context, ?_, ?_,
        .inl rfl⟩
      · exact congrArg (fun p => (p.1.mapError Fault.normalize, p.2)) hwhole
      · exact congrArg (fun p => (p.1.mapError Fault.normalize, p.2)) hparts
  · rw [hwhole, hparts]
    exact ⟨_, _, t, context, rfl, rfl, .inr ⟨hlater, first, last, rfl, rfl⟩⟩

end Dispatcher

/-! ## Orders of buyers in a range -/

/-- A term on the name of a related entity. -/
def askName (operator : String) (v : Value) : Value :=
  .object [("path", .text "name"), ("operator", .text operator), ("value", v)]

/-- Orders of buyers from Ann to Bob, counted. Later terms may follow. -/
def buyersInRange (later : List Value) : RangeSplit order where
  before := []
  after := [("pagination", .object [("page", .int 1), ("size", .int 5), ("count", .bool true)])]
  relation := "buyer"
  given := [("terms", .list (askName "BTW" (.list [.text "Ann", .text "Bob"]) :: later))]
  given' := [("terms", .list (askName "GTE" (.text "Ann") :: askName "LTE" (.text "Bob") :: later))]
  termsBefore := []
  termsAfter := later
  range := askName "BTW" (.list [.text "Ann", .text "Bob"])
  low := askName "GTE" (.text "Ann")
  high := askName "LTE" (.text "Bob")
  path := "name"
  a := .text "Ann"
  b := .text "Bob"
  not_reserved := by decide
  isRelation := ⟨_, _, rfl, rfl, rfl⟩
  terms := rfl
  terms' := rfl
  read_range := rfl
  read_low := rfl
  read_high := rfl

/-- Both orders are by a buyer in the range. -/
theorem orders_in_range : ∃ v, salesCall "orders" (buyersInRange []).whole =
    (.ok v, [("count", .int 2)]) ∧
    salesCall "orders" (buyersInRange []).parts = (.ok v, [("count", .int 2)]) := by
  obtain ⟨⟨_, _, _, _, _, _, _, _⟩, hd, rfl⟩ :
    ∃ d, Record.get? salesRegistry.descriptors "Order" = some d ∧
      d.entity = order := ⟨_, rfl, rfl⟩
  have hendpoint : Record.get? sales.endpoints "orders" =
    some ⟨"orders", .find, some "Order", none⟩ := rfl
  obtain ⟨v, hv⟩ : ∃ v, salesCall "orders" (buyersInRange []).whole =
    (.ok v, [("count", .int 2)]) := ⟨_, by cbv⟩
  have hplain : ∀ args, ListArguments.read order (.object (buyersInRange []).whole) = .ok args →
      ∀ entry ∈ args.filters, entry.2.IsPlain entry.1 := by
    intro args hargs entry hentry
    cases hargs
    obtain rfl := List.mem_singleton.1 hentry
    intro t ht heq
    obtain rfl := List.mem_singleton.1 ht
    rcases heq with heq | heq <;> cases heq
  have hchain :
    ∀ fs, (Dispatcher.chain ⟨"orders", .find, some "Order", none⟩ sales.middleware).run.run
      (teaOrders, ⟨.object fs, []⟩) = (.ok (), (teaOrders, ⟨.object fs, []⟩)) := fun _ => rfl
  obtain ⟨r, r', t', context', hwhole, hparts, hsame⟩ :=
    Dispatcher.call_range (show sales.executor.store = _ from rfl) hendpoint rfl rfl hd
      (buyersInRange []) (hchain _) (hchain _) hplain
  have hboth : (r, context') = (.ok v, [("count", .int 2)]) := by rw [← hv, salesCall, hwhole]
  cases hboth
  have hsame := hsame.resolve_right fun hlater => by
    obtain ⟨term, hterm, -⟩ := hlater.1
    exact List.not_mem_nil hterm
  refine ⟨v, hv, ?_⟩
  rw [salesCall, hparts, hsame]

/-- **What a range and its bounds do not share.** A later term that cannot be read is named by its
place, which is another one. And where a field goes by the name of a combination, the second bound
finds no combination to go into. -/
theorem range_not_parts :
    (salesCall "orders" (buyersInRange [.object []]).whole).1 ≠
      (salesCall "orders" (buyersInRange [.object []]).parts).1 ∧
    (∃ stages, listPipeline archive standardLimit scrollDescriptor
      ⟨[("$and", .term ⟨none, .text ""⟩),
        ("copyist", .expression [⟨⟨some .btw, .list [.text "Ann", .text "Bob"]⟩, "name"⟩])], none,
          none⟩ = .ok stages) ∧
    listPipeline archive standardLimit scrollDescriptor
      ⟨[("$and", .term ⟨none, .text ""⟩),
        ("copyist", .expression [⟨⟨some .gte, .text "Ann"⟩, "name"⟩,
          ⟨⟨some .lte, .text "Bob"⟩, "name"⟩])],
        none, none⟩ =
      .error .illTyped := by
  have hwhole : (salesCall "orders" (buyersInRange [.object []]).whole).1 =
    .error (Reason.malformedArguments "Order"
      [⟨[.key "terms", .item 1, .key "path"], "missing", none⟩]).fault.normalize := by rfl
  have hparts : (salesCall "orders" (buyersInRange [.object []]).parts).1 =
    .error (Reason.malformedArguments "Order"
      [⟨[.key "terms", .item 2, .key "path"], "missing", none⟩]).fault.normalize := by rfl
  refine ⟨fun heq => ?_, ⟨_, rfl⟩, rfl⟩
  rw [hwhole, hparts] at heq
  cases heq

end EntityGraph
