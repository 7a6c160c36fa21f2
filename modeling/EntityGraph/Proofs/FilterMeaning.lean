import EntityGraph.Proofs.Paths
import Mathlib.Data.List.Nodup

/-!
# What filters mean

A filter is a list of clauses, one for each term: a condition on the values that a path addresses in
the document itself or in a document that it is related to. The related documents are reached by
**hops** from document to document, and a document answers the filter once for every way of choosing
them: a **pick** says which document was chosen at each hop, or that none was reached.

Nothing here speaks of pipelines. Picks can be listed hop by hop (`picksOver`), and the list holds
every valid pick once (`mem_picksOver`, `nodup_picksOver`).
-/

namespace EntityGraph

/-! ## Clauses -/

/-- A **hop**: a relation to documents of another collection. -/
structure Hop where
  /-- the names that lead from the document itself to the relation -/
  path : List String
  /-- the path of the hop before, or nothing when the hop starts at the document itself -/
  source : List String
  /-- the embedded objects that lead to the relation from there -/
  inside : List String
  /-- what links the documents, on the near side -/
  localField : String
  /-- the collection of the related documents -/
  collection : String
  /-- what links the documents, on the far side -/
  foreignField : String

/-- The hop of a relation. A single related document is named by the connection field, and the
documents in a list name their owner there. -/
def Hop.ofField (f : FieldDef) (collection : String) (source inside : List String)
    (name : String) : Hop :=
  if f.many then ⟨source ++ inside ++ [name], source, inside, "_id", collection, f.connectionField⟩
  else ⟨source ++ inside ++ [name], source, inside, f.connectionField, collection, "_id"⟩

/-- A condition on what a path addresses after some hops. -/
structure Clause where
  hops : List Hop
  /-- the path of the last hop, or nothing for the document itself -/
  hop : List String
  /-- where the values are from there -/
  path : List String
  condition : Value

namespace Clause

/-- The entity that a relation leads to. -/
def target? (r : Registry) (f : FieldDef) : Option Descriptor :=
  f.target.bind (Record.get? r.descriptors)

/-- The key under which a document keeps a field that holds no objects. -/
def leafKey (f : FieldDef) (name : String) : String := if f.isIdentifier then "_id" else name

/-- The clause with one more hop in front. -/
def after (h : Hop) (c : Clause) : Clause := { c with hops := h :: c.hops }

/-- Follow names from an entity, whose objects are found after the hop of a path and, from there,
inside embedded objects. -/
def follow? (r : Registry) (t : FilterTerm) :
    Entity → List String → List String → List String → Option Clause
  | _, _, _, [] => none
  | current, hop, inside, name :: rest => do
    let f ← current.field? name
    let kind ← f.kind?
    if kind.isObject then
      let target ← target? r f
      if f.isEmbedded then follow? r t target.entity hop (inside ++ [name]) rest
      else
        let h := Hop.ofField f target.collection hop inside name
        let c ← follow? r t target.entity h.path [] rest
        some (c.after h)
    else if rest.isEmpty then
      let condition ← (termCondition f (leafKey f name) t).toOption
      some ⟨[], hop, inside ++ [leafKey f name], condition⟩
    else none

/-- The clause of a term on a relation. -/
def ofPathTerm? (r : Registry) (root : FieldDef) (t : PathTerm) : Option Clause := do
  let target ← target? r root
  if root.isEmbedded then
    follow? r t.toFilterTerm target.entity [] [root.name] (Text.segments t.path)
  else
    let h := Hop.ofField root target.collection [] [] root.name
    let c ← follow? r t.toFilterTerm target.entity h.path [] (Text.segments t.path)
    some (c.after h)

/-- The clauses of a filter. -/
def ofFilter? (r : Registry) (f : FieldDef) : Filter → Option (List Clause)
  | .term t => do
    let condition ← (termCondition f (leafKey f f.name) t).toOption
    some [⟨[], [], [leafKey f f.name], condition⟩]
  | .expression terms => terms.mapM (ofPathTerm? r f)

/-- The clauses of all filters. -/
def ofFilters? (r : Registry) (entity : Entity) : List (String × Filter) → Option (List Clause)
  | [] => some []
  | (name, filter) :: rest => do
    let f ← entity.field? name
    let first ← ofFilter? r f filter
    let others ← ofFilters? r entity rest
    some (first ++ others)

end Clause

/-! ## Hops in use -/

namespace Hop

/-- The paths of some hops. -/
def paths (hops : List Hop) : List (List String) := hops.map Hop.path

/-- Put a hop at the end, unless its path is there. -/
def enter (hops : List Hop) (h : Hop) : List Hop :=
  if h.path ∈ paths hops then hops else hops ++ [h]

/-- The hops that clauses use, one for each path, in the order of first use. -/
def used (cs : List Clause) : List Hop := (cs.flatMap Clause.hops).foldl enter []

/-- **Hops in order**: different paths, each starting at the document itself or at a hop before. -/
inductive Ordered : List Hop → Prop where
  | nil : Ordered []
  | snoc {hops : List Hop} {h : Hop} (hs : Ordered hops) (hne : h.path ≠ [])
      (hnew : h.path ∉ paths hops) (hsource : h.source = [] ∨ h.source ∈ paths hops) :
      Ordered (hops ++ [h])

theorem mem_paths_append {hops : List Hop} {h : Hop} {path : List String} :
    path ∈ paths (hops ++ [h]) ↔ path ∈ paths hops ∨ path = h.path := by simp [paths]

/-- Every hop starts at the document itself or at a hop of the list. -/
theorem Ordered.source_mem {hops : List Hop} (hs : Ordered hops) {h : Hop} (hm : h ∈ hops) :
    h.source = [] ∨ h.source ∈ paths hops := by
  induction hs with
  | nil => cases hm
  | snoc hs _ _ hsource ih =>
    rcases List.mem_append.1 hm with hm | hm
    · exact (ih hm).imp_right fun hp => mem_paths_append.2 (.inl hp)
    · obtain rfl := List.mem_singleton.1 hm
      exact hsource.imp_right fun hp => mem_paths_append.2 (.inl hp)

/-- Each hop starts where the one before ends, the first at `start`. -/
def Chain (start : List String) : List Hop → Prop
  | [] => True
  | h :: rest => h.source = start ∧ h.path ≠ [] ∧ Chain h.path rest

theorem path_ofField (f : FieldDef) (collection : String) (source inside : List String)
    (name : String) :
    (ofField f collection source inside name).path = source ++ inside ++ [name] := by
  unfold ofField
  split <;> rfl

theorem source_ofField (f : FieldDef) (collection : String) (source inside : List String)
    (name : String) : (ofField f collection source inside name).source = source := by
  unfold ofField
  split <;> rfl

theorem chain_ofField {f : FieldDef} {collection : String} {source inside : List String}
    {name : String} {rest : List Hop}
    (h : Chain (ofField f collection source inside name).path rest) :
    Chain source (ofField f collection source inside name :: rest) :=
  ⟨source_ofField .., by simp [path_ofField], h⟩

theorem mem_paths_enter {hops : List Hop} {h : Hop} {path : List String} :
    path ∈ paths (enter hops h) ↔ path ∈ paths hops ∨ path = h.path := by
  unfold enter
  split
  · rename_i hm
    exact ⟨.inl, fun hp => hp.elim id fun hp => hp ▸ hm⟩
  · exact mem_paths_append

/-- Hops that follow each other keep others in order. -/
theorem Ordered.foldl_enter {hops : List Hop} (hs : Ordered hops) {start : List String}
    (hstart : start = [] ∨ start ∈ paths hops) {chain : List Hop} (hc : Chain start chain) :
    Ordered (chain.foldl enter hops) ∧ ∀ path, path ∈ paths (chain.foldl enter hops) ↔
      path ∈ paths hops ∨ path ∈ paths chain := by
  induction chain generalizing hops start with
  | nil => exact ⟨hs, fun path => by simp [paths]⟩
  | cons h rest ih =>
    obtain ⟨hsource, hne, hrest⟩ := hc
    have hs' : Ordered (enter hops h) := by
      unfold enter
      split
      · exact hs
      · rename_i hnew
        exact hs.snoc hne hnew (hsource ▸ hstart)
    obtain ⟨ho, hpaths⟩ := ih hs' (.inr (mem_paths_enter.2 (.inr rfl))) hrest
    refine ⟨ho, fun path => ?_⟩
    rw [List.foldl_cons, hpaths, mem_paths_enter, or_assoc]
    simp [paths]

end Hop

namespace Clause

/-- The hops of a clause lead from the document itself to where its values are. -/
def Sound (start : List String) (c : Clause) : Prop :=
  Hop.Chain start c.hops ∧ (c.hop = start ∨ c.hop ∈ Hop.paths c.hops) ∧ c.path ≠ []

/-- A sound clause stays sound behind a hop. -/
theorem Sound.after {f : FieldDef} {collection : String} {source inside : List String}
    {name : String} {c : Clause} (h : c.Sound (Hop.ofField f collection source inside name).path) :
    (c.after (Hop.ofField f collection source inside name)).Sound source := by
  obtain ⟨hchain, hhop, hpath⟩ := h
  refine ⟨Hop.chain_ofField hchain, .inr ?_, hpath⟩
  rcases hhop with hhop | hhop
  · exact List.mem_cons.2 (.inl hhop)
  · exact List.mem_cons.2 (.inr hhop)

/-! ### Where clauses come from -/

theorem exists_of_mem_mapM {α β : Type} {f : α → Option β} {xs : List α} {ys : List β}
    (h : xs.mapM f = some ys) {y : β} (hy : y ∈ ys) : ∃ x ∈ xs, f x = some y := by
  induction xs generalizing ys with
  | nil =>
    cases h
    cases hy
  | cons x rest ih =>
    rw [List.mapM_cons] at h
    simp only [Option.bind_eq_bind, Option.bind_eq_some_iff, Option.pure_def,
      Option.some.injEq] at h
    obtain ⟨z, hz, zs, hzs, rfl⟩ := h
    rcases List.mem_cons.1 hy with rfl | hy
    · exact ⟨x, List.mem_cons_self .., hz⟩
    · obtain ⟨w, hw, hf⟩ := ih hzs hy
      exact ⟨w, List.mem_cons_of_mem _ hw, hf⟩

theorem toOption_termCondition {f : FieldDef} {key : String} {t : FilterTerm} {condition : Value}
    (h : (termCondition f key t).toOption = some condition) :
    termCondition f key t = .ok condition := by
  rcases ht : termCondition f key t with e | v
  · rw [ht] at h
    cases h
  · rw [ht] at h
    exact congrArg Except.ok (Option.some.inj h)

/-- **What a name leads to**: into an embedded object, along a hop, or to the values. -/
theorem follow?_cases {r : Registry} {t : FilterTerm} {current : Entity}
    {hop inside rest : List String} {name : String} {c : Clause}
    (h : follow? r t current hop inside (name :: rest) = some c) :
    ∃ f, current.field? name = some f ∧
      ((∃ target, target? r f = some target ∧ f.isEmbedded = true ∧
          follow? r t target.entity hop (inside ++ [name]) rest = some c) ∨
        (∃ target c', target? r f = some target ∧ f.isEmbedded = false ∧
          follow? r t target.entity (Hop.ofField f target.collection hop inside name).path
            [] rest = some c' ∧
          c = c'.after (Hop.ofField f target.collection hop inside name)) ∨
        ∃ condition, rest = [] ∧ termCondition f (leafKey f name) t = .ok condition ∧
          c = ⟨[], hop, inside ++ [leafKey f name], condition⟩) := by
  rw [follow?] at h
  simp only [Option.bind_eq_bind, Option.bind_eq_some_iff] at h
  obtain ⟨f, hf, kind, -, h⟩ := h
  refine ⟨f, hf, ?_⟩
  split at h
  · simp only [Option.bind_eq_some_iff] at h
    obtain ⟨target, ht, h⟩ := h
    split at h
    · rename_i hemb
      exact .inl ⟨target, ht, hemb, h⟩
    · rename_i hemb
      simp only [Option.bind_eq_some_iff, Option.some.injEq] at h
      obtain ⟨c', hc', rfl⟩ := h
      exact .inr (.inl ⟨target, c', ht, Bool.eq_false_iff.2 hemb, hc', rfl⟩)
  · split at h
    · rename_i hrest
      simp only [Option.bind_eq_some_iff, Option.some.injEq] at h
      obtain ⟨condition, hcondition, rfl⟩ := h
      exact .inr (.inr ⟨condition, List.isEmpty_iff.1 hrest, toOption_termCondition hcondition,
        rfl⟩)
    · cases h

/-- The path of a term starts inside the embedded object of the relation, or behind its hop. -/
theorem ofPathTerm?_cases {r : Registry} {root : FieldDef} {t : PathTerm} {c : Clause}
    (h : ofPathTerm? r root t = some c) : ∃ target, target? r root = some target ∧
      ((root.isEmbedded = true ∧
          follow? r t.toFilterTerm target.entity [] [root.name] (Text.segments t.path) = some c) ∨
        ∃ c', root.isEmbedded = false ∧ follow? r t.toFilterTerm target.entity
            (Hop.ofField root target.collection [] [] root.name).path []
            (Text.segments t.path) = some c' ∧
          c = c'.after (Hop.ofField root target.collection [] [] root.name)) := by
  rw [ofPathTerm?] at h
  simp only [Option.bind_eq_bind, Option.bind_eq_some_iff] at h
  obtain ⟨target, ht, h⟩ := h
  refine ⟨target, ht, ?_⟩
  split at h
  · rename_i hemb
    exact .inl ⟨hemb, h⟩
  · rename_i hemb
    simp only [Option.bind_eq_some_iff, Option.some.injEq] at h
    obtain ⟨c', hc', rfl⟩ := h
    exact .inr ⟨c', Bool.eq_false_iff.2 hemb, hc', rfl⟩

/-- **Where a clause comes from**: it is the term on a field itself, or one of the terms on a
relation. -/
theorem exists_of_mem_ofFilters? {r : Registry} {entity : Entity} {filters : List (String × Filter)}
    {cs : List Clause} (h : ofFilters? r entity filters = some cs) {c : Clause} (hc : c ∈ cs) :
    ∃ f filter, (f.name, filter) ∈ filters ∧ entity.field? f.name = some f ∧
      ((∃ t condition, filter = .term t ∧ termCondition f (leafKey f f.name) t = .ok condition ∧
          c = ⟨[], [], [leafKey f f.name], condition⟩) ∨
        ∃ terms t, filter = .expression terms ∧ t ∈ terms ∧ ofPathTerm? r f t = some c) := by
  induction filters generalizing cs with
  | nil =>
    cases h
    cases hc
  | cons e rest ih =>
    obtain ⟨name, filter⟩ := e
    rw [ofFilters?] at h
    simp only [Option.bind_eq_bind, Option.bind_eq_some_iff, Option.some.injEq] at h
    obtain ⟨f, hf, first, hfirst, others, hothers, rfl⟩ := h
    rcases List.mem_append.1 hc with hc | hc
    · obtain rfl : f.name = name := by simpa using List.find?_some hf
      refine ⟨f, filter, List.mem_cons_self .., hf, ?_⟩
      cases filter with
      | term t =>
        rw [ofFilter?] at hfirst
        simp only [Option.bind_eq_bind, Option.bind_eq_some_iff, Option.some.injEq] at hfirst
        obtain ⟨condition, hcondition, rfl⟩ := hfirst
        exact .inl ⟨t, condition, rfl, toOption_termCondition hcondition, List.mem_singleton.1 hc⟩
      | expression terms =>
        rw [ofFilter?] at hfirst
        obtain ⟨t, ht, hclause⟩ := exists_of_mem_mapM hfirst hc
        exact .inr ⟨terms, t, rfl, ht, hclause⟩
    · obtain ⟨g, filter', hmem, hcases⟩ := ih hothers hc
      exact ⟨g, filter', List.mem_cons_of_mem _ hmem, hcases⟩

/-! ### Sound clauses -/

/-- The clause of a term is sound behind the hops that lead to it. -/
theorem sound_follow? {r : Registry} {t : FilterTerm} {names : List String} {current : Entity}
    {hop inside : List String} {c : Clause} (h : follow? r t current hop inside names = some c) :
    c.Sound hop := by
  induction names generalizing current hop inside c with
  | nil => cases h
  | cons name rest ih =>
    obtain ⟨f, -, ⟨target, -, -, hc⟩ | ⟨target, c', -, -, hc, rfl⟩ | ⟨condition, -, -, rfl⟩⟩ :=
      follow?_cases h
    · exact ih hc
    · exact (ih hc).after
    · exact ⟨trivial, .inl rfl, by simp⟩

theorem sound_ofPathTerm? {r : Registry} {root : FieldDef} {t : PathTerm} {c : Clause}
    (h : ofPathTerm? r root t = some c) : c.Sound [] := by
  obtain ⟨target, -, ⟨-, hc⟩ | ⟨c', -, hc, rfl⟩⟩ := ofPathTerm?_cases h
  · exact sound_follow? hc
  · exact (sound_follow? hc).after

theorem sound_ofFilters? {r : Registry} {entity : Entity} {filters : List (String × Filter)}
    {cs : List Clause} (h : ofFilters? r entity filters = some cs) : ∀ c ∈ cs, c.Sound [] := by
  intro c hc
  obtain ⟨f, filter, -, -, ⟨t, condition, -, -, rfl⟩ | ⟨terms, t, -, -, ht⟩⟩ :=
    exists_of_mem_ofFilters? h hc
  · exact ⟨trivial, .inl rfl, by simp⟩
  · exact sound_ofPathTerm? ht

end Clause

/-! ## Names -/

/-- A path of names without dots that does not start with the sign of operators. -/
def IsLegible (path : List String) : Prop :=
  (∀ s ∈ path, IsSegment s) ∧ ∀ s, path.head? = some s → ¬ IsSigned s

/-- A name more keeps a path legible. -/
theorem IsLegible.append {path : List String} (h : IsLegible path) (hne : path ≠ []) {s : String}
    (hs : IsSegment s) : IsLegible (path ++ [s]) := by
  obtain ⟨hseg, hhead⟩ := h
  refine ⟨fun t ht => ?_, ?_⟩
  · rcases List.mem_append.1 ht with ht | ht
    · exact hseg t ht
    · obtain rfl := List.mem_singleton.1 ht
      exact hs
  · cases path with
    | nil => exact absurd rfl hne
    | cons t rest => exact hhead

/-- A name that is a segment without sign is a path. -/
theorem isLegible_singleton {s : String} (hs : IsSegment s) (hsign : ¬ IsSigned s) :
    IsLegible [s] := by
  refine ⟨fun t ht => ?_, fun t ht => ?_⟩
  · obtain rfl := List.mem_singleton.1 ht
    exact hs
  · cases ht
    exact hsign

namespace Clause

/-- **A clause with legible paths**, both to its hops and to its values. -/
structure Legible (c : Clause) : Prop where
  hops : ∀ h ∈ c.hops, IsLegible h.path ∧ ∃ name, h.path = h.source ++ h.inside ++ [name]
  path : IsLegible (c.hop ++ c.path)

theorem isSegment_leafKey {f : FieldDef} {name : String} (h : IsSegment name) :
    IsSegment (leafKey f name) := by
  unfold leafKey
  split
  · intro hm
    revert hm
    decide
  · exact h

theorem path_eq_ofField (f : FieldDef) (collection : String) (source inside : List String)
    (name : String) : ∃ n, (Hop.ofField f collection source inside name).path =
      (Hop.ofField f collection source inside name).source ++
        (Hop.ofField f collection source inside name).inside ++ [n] := by
  refine ⟨name, ?_⟩
  unfold Hop.ofField
  split <;> rfl

/-- A legible clause stays legible behind a hop. -/
theorem Legible.after {f : FieldDef} {collection : String} {source inside : List String}
    {name : String} {c : Clause} (h : c.Legible) (hpath : IsLegible (source ++ inside ++ [name])) :
    (c.after (Hop.ofField f collection source inside name)).Legible := by
  refine ⟨fun g hg => ?_, h.path⟩
  rcases List.mem_cons.1 hg with rfl | hg
  · exact ⟨by rwa [Hop.path_ofField], path_eq_ofField ..⟩
  · exact h.hops g hg

/-- The clause of a term is legible when its names are. -/
theorem legible_follow? {r : Registry} {t : FilterTerm} {names : List String} {current : Entity}
    {hop inside : List String} {c : Clause} (hnames : ∀ s ∈ names, IsSegment s)
    (hpath : IsLegible (hop ++ inside)) (hne : hop ++ inside ≠ [])
    (h : follow? r t current hop inside names = some c) : c.Legible := by
  induction names generalizing current hop inside c with
  | nil => cases h
  | cons name rest ih =>
    have hname := hnames name (List.mem_cons_self ..)
    have hrest : ∀ s ∈ rest, IsSegment s := fun s hs => hnames s (List.mem_cons_of_mem _ hs)
    have hnext : IsLegible (hop ++ inside ++ [name]) := hpath.append hne hname
    obtain ⟨f, -, ⟨target, -, -, hc⟩ | ⟨target, c', -, -, hc, rfl⟩ | ⟨condition, -, -, rfl⟩⟩ :=
      follow?_cases h
    · exact ih hrest (by rwa [← List.append_assoc]) (by simp) hc
    · refine (ih hrest ?_ ?_ hc).after hnext
      · rwa [List.append_nil, Hop.path_ofField]
      · rw [Hop.path_ofField]
        simp
    · refine ⟨fun g hg => absurd hg List.not_mem_nil, ?_⟩
      rw [← List.append_assoc]
      exact hpath.append hne (isSegment_leafKey hname)

theorem legible_ofPathTerm? {r : Registry} {root : FieldDef} {t : PathTerm} {c : Clause}
    (hroot : IsLegible [root.name]) (h : ofPathTerm? r root t = some c) : c.Legible := by
  have hnames : ∀ s ∈ Text.segments t.path, IsSegment s := fun s => Text.isSegment_of_mem_segments
  obtain ⟨target, -, ⟨-, hc⟩ | ⟨c', -, hc, rfl⟩⟩ := ofPathTerm?_cases h
  · exact legible_follow? hnames hroot (by simp) hc
  · refine (legible_follow? hnames ?_ ?_ hc).after hroot
    · rwa [List.append_nil, Hop.path_ofField]
    · rw [Hop.path_ofField]
      simp

/-- **Filters under legible names** have clauses with legible paths. -/
theorem legible_ofFilters? {r : Registry} {entity : Entity} {filters : List (String × Filter)}
    {cs : List Clause} (hnames : ∀ name ∈ Record.keys filters, IsLegible [name])
    (h : ofFilters? r entity filters = some cs) : ∀ c ∈ cs, c.Legible := by
  intro c hc
  obtain ⟨f, filter, hmem, -, hcases⟩ := exists_of_mem_ofFilters? h hc
  have hname : IsLegible [f.name] := hnames f.name (List.mem_map_of_mem hmem)
  obtain ⟨t, condition, -, -, rfl⟩ | ⟨terms, t, -, -, ht⟩ := hcases
  · refine ⟨fun g hg => absurd hg List.not_mem_nil, ?_⟩
    change IsLegible [leafKey f f.name]
    unfold leafKey
    split
    · exact isLegible_singleton (by unfold IsSegment; decide) (by unfold IsSigned; decide)
    · exact hname
  · exact legible_ofPathTerm? hname ht

end Clause

/-- The hops of clauses keep others in order. -/
theorem Hop.Ordered.foldl_clauses {cs : List Clause} (h : ∀ c ∈ cs, c.Sound []) {hops : List Hop}
    (hs : Ordered hops) :
    Ordered ((cs.flatMap Clause.hops).foldl enter hops) ∧
      ∀ path, path ∈ paths ((cs.flatMap Clause.hops).foldl enter hops) ↔
        path ∈ paths hops ∨ ∃ c ∈ cs, path ∈ paths c.hops := by
  induction cs generalizing hops with
  | nil => exact ⟨hs, fun path => by simp⟩
  | cons c rest ih =>
    obtain ⟨hc, hpaths⟩ := hs.foldl_enter (.inl rfl) (h c (List.mem_cons_self ..)).1
    obtain ⟨ho, hrest⟩ := ih (fun d hd => h d (List.mem_cons_of_mem _ hd)) hc
    rw [List.flatMap_cons, List.foldl_append]
    refine ⟨ho, fun path => ?_⟩
    rw [hrest, hpaths, or_assoc]
    simp

/-- **The hops that clauses use** are in order, and lead to where the values of each clause are. -/
theorem Hop.ordered_used {cs : List Clause} (h : ∀ c ∈ cs, c.Sound []) :
    Ordered (used cs) ∧ ∀ c ∈ cs, c.hop = [] ∨ c.hop ∈ paths (used cs) := by
  obtain ⟨ho, hpaths⟩ := Ordered.nil.foldl_clauses h
  refine ⟨ho, fun c hc => (h c hc).2.1.imp_right fun hm => ?_⟩
  exact (hpaths c.hop).2 (.inr ⟨c, hc, hm⟩)

/-! ## Picks -/

/-- A **pick**: the number of a document, and the number of the related document chosen at each hop
or that none was reached. -/
structure Pick where
  root : Nat
  chosen : List (Option Nat)
  deriving DecidableEq

/-- The values at a path inside a document; where there is no document there are none. -/
def valuesAt (d : Option Document) (path : List String) : List Value :=
  match d with
  | some d => resolveSegments path [.object d]
  | none => []

/-- Does a hop reach a document from objects with the given values? One of what the document holds
in the foreign field is among them, where lists stand for their items. -/
def Hop.Reaches (h : Hop) (sources : List Value) (e : Document) : Prop :=
  ∃ v ∈ flatten (resolve e h.foreignField), v.isIn (flatten sources) = true

namespace Pick

variable (view : Collections) (roots : List Document)

/-- The document chosen at the hop of a path. -/
def chosenAt : List Hop → List (Option Nat) → List String → Option Document
  | h :: hops, o :: chosen, path =>
    if h.path = path then o.bind fun j => (view.get h.collection).documents[j]?
    else chosenAt hops chosen path
  | _, _, _ => none

/-- The document at the end of a path: the document itself, or the one chosen at the hop of the
path. -/
def document (hops : List Hop) (p : Pick) (path : List String) : Option Document :=
  if path = [] then roots[p.root]? else chosenAt view hops p.chosen path

/-- The values that a hop looks for. -/
def sources (hops : List Hop) (p : Pick) (h : Hop) : List Value :=
  valuesAt (p.document view roots hops h.source) (h.inside ++ Text.segments h.localField)

/-- What may be chosen at a hop: a document that it reaches, or none when it reaches none. -/
def CanChoose (hops : List Hop) (p : Pick) (h : Hop) : Option Nat → Prop
  | some j => ∃ e, (view.get h.collection).documents[j]? = some e ∧
      h.Reaches (p.sources view roots hops h) e
  | none => ∀ e ∈ (view.get h.collection).documents, ¬ h.Reaches (p.sources view roots hops h) e

/-- **A valid pick** is of a document there is and chooses at each hop what may be chosen there. -/
structure Valid (hops : List Hop) (p : Pick) : Prop where
  root : p.root < roots.length
  chosen : List.Forall₂ (p.CanChoose view roots hops) hops p.chosen

/-- **A clause holds** of a pick when its condition holds on the values that its path addresses. -/
def Holds (hops : List Hop) (p : Pick) (c : Clause) : Prop :=
  conditionHolds (valuesAt (p.document view roots hops c.hop) c.path) c.condition = .ok true

/-- The pick that goes on with a choice. -/
def choose (p : Pick) (o : Option Nat) : Pick := { p with chosen := p.chosen ++ [o] }

end Pick

/-! ## Listing picks -/

/-- The numbers of the documents that satisfy a test. -/
def numbersOf (test : Document → Bool) (docs : List Document) : List Nat :=
  (docs.zipIdx.filter fun e => test e.1).map Prod.snd

/-- The choices among some numbers: one of them, or none when there are none. -/
def choicesAmong : List Nat → List (Option Nat)
  | [] => [none]
  | js => js.map some

/-- The ways of going on with a pick at a hop. -/
def Pick.extend (view : Collections) (roots : List Document) (hops : List Hop) (h : Hop)
    (p : Pick) : List Pick :=
  (choicesAmong (numbersOf (joins (flatten (p.sources view roots hops h)) h.foreignField)
    (view.get h.collection).documents)).map p.choose

/-- The picks that go on with those given, hop after hop. -/
def picksFrom (view : Collections) (roots : List Document) :
    List Hop → List Hop → List Pick → List Pick
  | _, [], picks => picks
  | before, h :: rest, picks =>
    picksFrom view roots (before ++ [h]) rest (picks.flatMap (Pick.extend view roots before h))

/-- All valid picks. -/
def picksOver (view : Collections) (roots : List Document) (hops : List Hop) : List Pick :=
  picksFrom view roots [] hops ((List.range roots.length).map fun i => ⟨i, []⟩)

section Listing

variable {view : Collections} {roots : List Document} {hops : List Hop} {h : Hop} {p : Pick}

theorem mem_numbersOf {test : Document → Bool} {docs : List Document} {j : Nat} :
    j ∈ numbersOf test docs ↔ ∃ e, docs[j]? = some e ∧ test e = true := by
  unfold numbersOf
  constructor
  · intro hj
    obtain ⟨⟨e, i⟩, he, rfl⟩ := List.mem_map.1 hj
    obtain ⟨hmem, htest⟩ := List.mem_filter.1 he
    exact ⟨e, List.mem_zipIdx_iff_getElem?.1 hmem, htest⟩
  · rintro ⟨e, he, htest⟩
    exact List.mem_map.2 ⟨(e, j), List.mem_filter.2 ⟨List.mem_zipIdx_iff_getElem?.2 he, htest⟩, rfl⟩

/-- Numbers are listed once. -/
theorem nodup_numbersOf (test : Document → Bool) (docs : List Document) :
    (numbersOf test docs).Nodup := by
  refine List.Nodup.sublist (List.filter_sublist.map _) ?_
  rw [List.zipIdx_map_snd]
  exact List.nodup_range'

theorem some_mem_choicesAmong {js : List Nat} {j : Nat} : some j ∈ choicesAmong js ↔ j ∈ js := by
  cases js <;> simp [choicesAmong]

theorem none_mem_choicesAmong {js : List Nat} : none ∈ choicesAmong js ↔ js = [] := by
  cases js <;> simp [choicesAmong]

theorem nodup_choicesAmong {js : List Nat} (hjs : js.Nodup) : (choicesAmong js).Nodup := by
  cases js with
  | nil => exact List.nodup_singleton _
  | cons j js => exact hjs.map fun _ _ heq => Option.some.inj heq

theorem joins_iff_reaches {sources : List Value} {e : Document} :
    joins (flatten sources) h.foreignField e = true ↔ h.Reaches sources e := List.any_eq_true

namespace Pick

theorem choose_inj {q : Pick} {o o' : Option Nat} (heq : p.choose o = q.choose o') :
    p = q ∧ o = o' := by
  obtain ⟨i, chosen⟩ := p
  obtain ⟨j, chosen'⟩ := q
  simp only [choose, Pick.mk.injEq] at heq
  obtain ⟨rfl, hc⟩ := heq
  obtain ⟨rfl, ho⟩ := List.append_inj' hc rfl
  cases ho
  exact ⟨rfl, rfl⟩

/-- A choice at a further hop is not seen on the paths before. -/
theorem chosenAt_append {chosen : List (Option Nat)} (hlen : chosen.length = hops.length)
    (o : Option Nat) (path : List String) :
    chosenAt view (hops ++ [h]) (chosen ++ [o]) path =
      if path ∈ Hop.paths hops then chosenAt view hops chosen path
      else if h.path = path then o.bind fun j => (view.get h.collection).documents[j]? else
        none := by
  induction hops generalizing chosen with
  | nil =>
    obtain rfl := List.length_eq_zero_iff.1 hlen
    simp [chosenAt, Hop.paths]
  | cons g rest ih =>
    cases chosen with
    | nil => cases hlen
    | cons o' chosen =>
      have ih := ih (Nat.succ.inj hlen)
      rw [List.cons_append, List.cons_append, chosenAt, chosenAt, ih]
      by_cases hg : g.path = path
      · simp [hg, Hop.paths]
      · simp [hg, Ne.symm hg, Hop.paths]

/-- The documents at the paths before stay when a pick goes on. -/
theorem document_choose (hlen : p.chosen.length = hops.length) (o : Option Nat)
    {path : List String} (hpath : path = [] ∨ path ∈ Hop.paths hops) :
    (p.choose o).document view roots (hops ++ [h]) path = p.document view roots hops path := by
  unfold document
  by_cases hnil : path = []
  · rw [if_pos hnil, if_pos hnil]
    rfl
  · rw [if_neg hnil, if_neg hnil, choose, chosenAt_append hlen,
      if_pos (hpath.resolve_left hnil)]

theorem sources_choose (hlen : p.chosen.length = hops.length) (o : Option Nat) {g : Hop}
    (hg : g.source = [] ∨ g.source ∈ Hop.paths hops) :
    (p.choose o).sources view roots (hops ++ [h]) g = p.sources view roots hops g := by
  rw [sources, document_choose hlen o hg]
  rfl

/-- A pick goes on to those that choose one of the documents at the next hop. -/
theorem mem_extend {q : Pick} :
    q ∈ p.extend view roots hops h ↔ ∃ o, q = p.choose o ∧ p.CanChoose view roots hops h o := by
  have hmem : ∀ j, j ∈ numbersOf (joins (flatten (p.sources view roots hops h)) h.foreignField)
      (view.get h.collection).documents ↔ p.CanChoose view roots hops h (some j) := fun j => by
    simp only [mem_numbersOf, joins_iff_reaches]
    rfl
  have hchoice : ∀ o, o ∈ choicesAmong (numbersOf
      (joins (flatten (p.sources view roots hops h)) h.foreignField)
      (view.get h.collection).documents) ↔ p.CanChoose view roots hops h o := by
    rintro (_ | j)
    · rw [none_mem_choicesAmong, List.eq_nil_iff_forall_not_mem]
      constructor
      · intro hnone e he hr
        obtain ⟨j, hj⟩ := List.getElem?_of_mem he
        exact hnone j ((hmem j).2 ⟨e, hj, hr⟩)
      · intro ho j hj
        obtain ⟨e, he, hr⟩ := (hmem j).1 hj
        exact ho e (List.mem_of_getElem? he) hr
    · rw [some_mem_choicesAmong, hmem]
  unfold extend
  rw [List.mem_map]
  constructor
  · rintro ⟨o, ho, rfl⟩
    exact ⟨o, rfl, (hchoice o).1 ho⟩
  · rintro ⟨o, rfl, ho⟩
    exact ⟨o, (hchoice o).2 ho, rfl⟩

theorem nodup_extend : (p.extend view roots hops h).Nodup :=
  (nodup_choicesAmong (nodup_numbersOf _ _)).map fun _ _ heq => (choose_inj heq).2

theorem forall₂_append_singleton {α β : Type} {R : α → β → Prop} {xs : List α} {x : α}
    {ys : List β} : List.Forall₂ R (xs ++ [x]) ys ↔
      ∃ init y, ys = init ++ [y] ∧ List.Forall₂ R xs init ∧ R x y := by
  induction xs generalizing ys with
  | nil =>
    constructor
    · rintro (_ | ⟨hy, hnil⟩)
      cases hnil
      exact ⟨[], _, rfl, .nil, hy⟩
    · rintro ⟨init, y, rfl, hnil, hy⟩
      cases hnil
      exact .cons hy .nil
  | cons x' rest ih =>
    constructor
    · rintro (_ | ⟨hy, hrest⟩)
      obtain ⟨init, y, rfl, hinit, hxy⟩ := ih.1 hrest
      exact ⟨_ :: init, y, rfl, .cons hy hinit, hxy⟩
    · rintro ⟨init, y, rfl, hinit, hxy⟩
      cases hinit with
      | cons hy hrest => exact .cons hy (ih.2 ⟨_, y, rfl, hrest, hxy⟩)

/-- **Valid picks go on validly**, and come from valid picks. What may be chosen at the hops before
does not depend on the further choice. -/
theorem valid_append (hs : Hop.Ordered hops) (hsource : h.source = [] ∨ h.source ∈ Hop.paths hops)
    {q : Pick} : q.Valid view roots (hops ++ [h]) ↔ ∃ (p : Pick) (o : Option Nat),
      p.Valid view roots hops ∧ q = p.choose o ∧ p.CanChoose view roots hops h o := by
  have hsame : ∀ (p : Pick) o, p.chosen.length = hops.length → ∀ g : Hop,
      g.source = [] ∨ g.source ∈ Hop.paths hops →
      (p.choose o).CanChoose view roots (hops ++ [h]) g = p.CanChoose view roots hops g := by
    intro p o hlen g hg
    funext o'
    cases o' <;> simp only [CanChoose, sources_choose hlen o hg]
  have hall : ∀ (p : Pick) o, p.chosen.length = hops.length →
      (List.Forall₂ ((p.choose o).CanChoose view roots (hops ++ [h])) hops p.chosen ↔
        List.Forall₂ (p.CanChoose view roots hops) hops p.chosen) := by
    intro p o hlen
    rw [List.forall₂_iff_zip, List.forall₂_iff_zip]
    refine and_congr_right fun _ => forall_congr' fun g => forall_congr' fun o' =>
      imp_congr_right fun hm => ?_
    rw [hsame p o hlen g (hs.source_mem (List.of_mem_zip hm).1)]
  constructor
  · rintro ⟨hroot, hchosen⟩
    obtain ⟨i, chosen⟩ := q
    obtain ⟨init, o, hinit, hbefore, ho⟩ := forall₂_append_singleton.1 hchosen
    obtain rfl : chosen = init ++ [o] := hinit
    have hlen : init.length = hops.length := hbefore.length_eq.symm
    refine ⟨⟨i, init⟩, o, ⟨hroot, (hall ⟨i, init⟩ o hlen).1 hbefore⟩, rfl, ?_⟩
    rw [← hsame ⟨i, init⟩ o hlen h hsource]
    exact ho
  · rintro ⟨p, o, ⟨hroot, hchosen⟩, rfl, ho⟩
    have hlen : p.chosen.length = hops.length := hchosen.length_eq.symm
    refine ⟨hroot, forall₂_append_singleton.2 ⟨p.chosen, o, rfl, (hall p o hlen).2 hchosen, ?_⟩⟩
    rw [hsame p o hlen h hsource]
    exact ho

end Pick

theorem picksFrom_append (before : List Hop) (picks : List Pick) :
    picksFrom view roots before (hops ++ [h]) picks =
      (picksFrom view roots before hops picks).flatMap
        (Pick.extend view roots (before ++ hops) h) := by
  induction hops generalizing before picks with
  | nil => simp [picksFrom]
  | cons g rest ih =>
    rw [List.cons_append, picksFrom, picksFrom, ih, List.append_assoc, List.singleton_append]

theorem picksOver_append : picksOver view roots (hops ++ [h]) =
    (picksOver view roots hops).flatMap (Pick.extend view roots hops h) := by
  rw [picksOver, picksFrom_append, List.nil_append, picksOver]

/-- The list of picks holds exactly the valid ones. -/
theorem mem_picksOver (hs : Hop.Ordered hops) {p : Pick} :
    p ∈ picksOver view roots hops ↔ p.Valid view roots hops := by
  induction hs generalizing p with
  | nil =>
    obtain ⟨i, chosen⟩ := p
    constructor
    · intro hp
      obtain ⟨i', hi, heq⟩ := List.mem_map.1 hp
      cases heq
      exact ⟨List.mem_range.1 hi, .nil⟩
    · rintro ⟨hroot, hchosen⟩
      obtain rfl : chosen = [] := List.forall₂_nil_left_iff.1 hchosen
      exact List.mem_map.2 ⟨i, List.mem_range.2 hroot, rfl⟩
  | snoc hs hne hnew hsource ih =>
    rw [picksOver_append, List.mem_flatMap, Pick.valid_append hs hsource]
    constructor
    · rintro ⟨q, hq, hp⟩
      obtain ⟨o, rfl, ho⟩ := Pick.mem_extend.1 hp
      exact ⟨q, o, ih.1 hq, rfl, ho⟩
    · rintro ⟨q, o, hq, rfl, ho⟩
      exact ⟨q, ih.2 hq, Pick.mem_extend.2 ⟨o, rfl, ho⟩⟩

/-- The list of picks holds each of them once. Picks that go on to the same one are the same. -/
theorem nodup_picksOver (hs : Hop.Ordered hops) : (picksOver view roots hops).Nodup := by
  induction hs with
  | nil =>
    refine List.Nodup.map (fun i j hij => ?_) List.nodup_range
    cases hij
    rfl
  | snoc hs hne hnew hsource ih =>
    rw [picksOver_append, List.nodup_flatMap]
    refine ⟨fun p _ => Pick.nodup_extend, ih.imp fun {p q} hpq => ?_⟩
    intro r hp hq
    obtain ⟨o, rfl, -⟩ := Pick.mem_extend.1 hp
    obtain ⟨o', heq, -⟩ := Pick.mem_extend.1 hq
    exact hpq (Pick.choose_inj heq).1

end Listing

end EntityGraph
