import EntityGraph.Proofs.Acyclicity
import EntityGraph.Proofs.Paths
import EntityGraph.Schema.Storage

/-!
# Unique paths of storage definitions

The storage definition of an entity goes down through all embedded relations, also through those of
fields that take no arguments. An entity has a definition exactly when that way down comes to an end
everywhere, that is, when no cycle of embedded relations can be reached from it
(`Registry.Circular`).

The unique paths of a definition are those of the chains of embedded fields that end in a unique key
(`Registry.UniqueChain`), in the order in which their fields are declared
(`Registry.DeclaredBefore`). Distinct chains have distinct paths as long as no field has a dot in
its name (`chainPath_inj`).

The entities on the way down all lead to the one at hand. So a target that is met again closes a
cycle, and a field that could be described has a target from which every way ends: these are the two
cases of `Registry.Describes`, which one induction along the recursion carries from field to field
(`describes_fieldParts`).
-/

namespace EntityGraph

open CollectionSchema

/-- **Unique keys**: single texts, numbers and members of enumerations that are declared unique. -/
def FieldDef.IsUniqueKey (f : FieldDef) : Prop :=
  f.unique = true ∧ f.many = false ∧
    ((∃ t, f.type = .scalar t ∧ (t = .string ∨ t = .int ∨ t = .float)) ∨ ∃ e,
    f.type = .enumeration e)

/-- The dotted path of a chain of fields, behind a prefix. -/
def chainPath (path : String) (chain : List FieldDef) : String :=
    path ++ dotted (chain.map FieldDef.name)

namespace Registry

/-- **Nesting**: a field of the entity holds objects of the target inside its documents. -/
def Nests (r : Registry) (e target : String) : Prop :=
  ∃ d, Record.get? r.descriptors e = some d ∧ ∃ f ∈ d.entity.fields, f.IsEmbedding ∧
    f.target = some target

/-- A cycle of embedded relations can be reached from the entity. -/
def Circular (r : Registry) (e : String) : Prop :=
  ∃ n, Relation.ReflTransGen r.Nests e n ∧ Relation.TransGen r.Nests n n

/-- **Chains to unique keys**: embedded fields, each of the entity that the one before it holds, and
a unique key. -/
inductive UniqueChain (r : Registry) : List FieldDef → List FieldDef → Prop
  | key {fields : List FieldDef} {f : FieldDef} (hf : f ∈ fields) (hkey : f.IsUniqueKey) :
  UniqueChain r fields [f]
  | inside {fields rest : List FieldDef} {f : FieldDef} {target : String} {t : Descriptor}
  (hf : f ∈ fields)
      (hembeds : f.IsEmbedding) (htarget : f.target = some target)
      (ht : Record.get? r.descriptors target = some t)
      (hrest : UniqueChain r t.entity.fields rest) : UniqueChain r fields (f :: rest)

/-- **The order of declarations**: the first fields in which two chains differ are declared in that
order. -/
inductive DeclaredBefore (r : Registry) : List FieldDef → List FieldDef → List FieldDef → Prop
  | field {fields rest rest' : List FieldDef} {f g : FieldDef} (h : [f, g].Sublist fields) :
      DeclaredBefore r fields (f :: rest) (g :: rest')
  | inside {fields rest rest' : List FieldDef} {f : FieldDef} {target : String} {t : Descriptor}
    (hf : f ∈ fields)
      (htarget : f.target = some target) (ht : Record.get? r.descriptors target = some t)
      (hrest : DeclaredBefore r t.entity.fields rest rest') :
      DeclaredBefore r fields (f :: rest) (f :: rest')

/-- These are all the chains that start with one of the fields, in the order of declarations. -/
structure Enumerates (r : Registry) (fields : List FieldDef)
    (chains : List (List FieldDef)) : Prop where
  mem_iff : ∀ chain, chain ∈ chains ↔ r.UniqueChain fields chain
  ordered : chains.Pairwise (r.DeclaredBefore fields)

/-- Where fields of an entity are described, their chains are listed and every way down from them
ends. Where they are not, there is a cycle below the entity. -/
def Describes (r : Registry) (e : String) (path : String) (fields : List FieldDef) :
    Outcome CollectionSchema.Part → Prop
  | .ok part =>
    (∃ chains, r.Enumerates fields chains ∧ part.uniquePaths = chains.map (chainPath path)) ∧
      ∀ f ∈ fields, f.IsEmbedding → ∀ target, f.target = some target →
      Acc (fun t e => r.Nests e t) target
  | .error fault => fault.IsConfiguration ∧ r.Circular e

end Registry

/-! ## Chains -/

section Chains

variable {r : Registry} {fields rest chain chain' : List FieldDef} {f : FieldDef}

theorem not_isUniqueKey_of_isEmbedding (h : f.IsEmbedding) : ¬ f.IsUniqueKey := by
  rintro ⟨-, hmany, hleaf⟩
  unfold FieldDef.IsEmbedding FieldDef.kind at h
  rw [hmany] at h
  rcases hleaf with ⟨t, ht, -⟩ | ⟨e, ht⟩ <;> rw [ht] at h <;> rcases h with h | h <;> cases h

theorem Registry.UniqueChain.ne_nil (h : r.UniqueChain fields chain) : chain ≠ [] := by
  cases h <;> exact List.cons_ne_nil _ _

theorem Registry.UniqueChain.mono {fields' : List FieldDef} (h : r.UniqueChain fields chain)
    (hsub : ∀ f ∈ fields, f ∈ fields') : r.UniqueChain fields' chain := by
  cases h with
  | key hf hkey => exact .key (hsub _ hf) hkey
  | inside hf hembeds htarget ht hrest => exact .inside (hsub _ hf) hembeds htarget ht hrest

/-- A chain starts with one of the fields. -/
theorem Registry.UniqueChain.exists_head (h : r.UniqueChain fields chain) :
    ∃ f ∈ fields, ∃ rest, chain = f :: rest ∧ r.UniqueChain [f] chain := by
  cases h with
  | key hf hkey => exact ⟨_, hf, _, rfl, .key (List.mem_singleton_self _) hkey⟩
  | inside hf hembeds htarget ht hrest =>
    exact ⟨_, hf, _, rfl, .inside (List.mem_singleton_self _) hembeds htarget ht hrest⟩

theorem Registry.DeclaredBefore.mono {fields' : List FieldDef}
    (h : r.DeclaredBefore fields chain chain') (hsub : fields.Sublist fields') :
    r.DeclaredBefore fields' chain chain' := by
  cases h with
  | field hpair => exact .field (hpair.trans hsub)
  | inside hf htarget ht hrest => exact .inside (hsub.subset hf) htarget ht hrest

/-- No chain comes before itself. -/
theorem Registry.DeclaredBefore.irrefl (h : r.DeclaredBefore fields chain chain')
    (hnames : (fields.map FieldDef.name).Nodup) : chain ≠ chain' := by
  induction h with
  | field hpair =>
    rintro heq
    obtain ⟨rfl, -⟩ := List.cons.inj heq
    exact (List.nodup_cons.1 ((hpair.map FieldDef.name).nodup hnames)).1 (List.mem_singleton_self _)
  | @inside _ _ _ _ _ t _ _ _ _ ih => exact fun heq => ih t.entity.names_nodup (List.cons.inj heq).2

theorem Registry.Enumerates.nodup {chains : List (List FieldDef)} (h : r.Enumerates fields chains)
    (hnames : (fields.map FieldDef.name).Nodup) : chains.Nodup :=
  h.ordered.imp fun hbefore => hbefore.irrefl hnames

/-- Without fields there are no chains. -/
theorem Registry.Enumerates.nil : r.Enumerates [] [] where
  mem_iff chain := by
    refine ⟨fun h => absurd h List.not_mem_nil, fun h => ?_⟩
    obtain ⟨f, hf, -⟩ := h.exists_head
    exact absurd hf List.not_mem_nil
  ordered := .nil

/-- The chains of the first field come before those of the others. -/
theorem Registry.Enumerates.cons {chains chains' : List (List FieldDef)}
    (h : r.Enumerates [f] chains) (hrest : r.Enumerates rest chains') :
    r.Enumerates (f :: rest) (chains ++ chains') where
  mem_iff chain := by
    rw [List.mem_append, h.mem_iff, hrest.mem_iff]
    constructor
    · rintro (hc | hc)
      · exact hc.mono fun g hg => List.mem_singleton.1 hg ▸ List.mem_cons_self ..
      · exact hc.mono fun g hg => List.mem_cons_of_mem _ hg
    · intro hc
      obtain ⟨g, hg, -, -, hsingle⟩ := hc.exists_head
      rcases List.mem_cons.1 hg with rfl | hg
      · exact .inl hsingle
      · exact .inr (hsingle.mono fun k hk => List.mem_singleton.1 hk ▸ hg)
  ordered := by
    refine List.pairwise_append.2 ⟨?_, ?_, fun c hc c' hc' => ?_⟩
    · exact h.ordered.imp fun hbefore =>
        hbefore.mono (List.singleton_sublist.2 (List.mem_cons_self ..))
    · exact hrest.ordered.imp fun hbefore => hbefore.mono (List.sublist_cons_self _ _)
    · obtain ⟨g, hg, _, rfl, -⟩ := ((h.mem_iff c).1 hc).exists_head
      obtain ⟨g', hg', _, rfl, -⟩ := ((hrest.mem_iff c').1 hc').exists_head
      obtain rfl := List.mem_singleton.1 hg
      exact .field (List.cons_sublist_cons.2 (List.singleton_sublist.2 hg'))

/-- The chains through an embedded field. -/
theorem Registry.Enumerates.inside {chains : List (List FieldDef)} {target : String}
    {t : Descriptor} (hembeds : f.IsEmbedding) (htarget : f.target = some target)
    (ht : Record.get? r.descriptors target = some t) (h : r.Enumerates t.entity.fields chains) :
    r.Enumerates [f] (chains.map (f :: ·)) where
  mem_iff chain := by
    rw [List.mem_map]
    constructor
    · rintro ⟨c, hc, rfl⟩
      exact .inside (List.mem_singleton_self f) hembeds htarget ht ((h.mem_iff c).1 hc)
    · intro hc
      cases hc with
      | key hf hkey =>
        exact absurd (List.mem_singleton.1 hf ▸ hkey) (not_isUniqueKey_of_isEmbedding hembeds)
      | inside hf _ htarget' ht' hrest =>
        obtain rfl := List.mem_singleton.1 hf
        obtain rfl := Option.some.inj (htarget'.symm.trans htarget)
        obtain rfl := Option.some.inj (ht'.symm.trans ht)
        exact ⟨_, (h.mem_iff _).2 hrest, rfl⟩
  ordered := List.pairwise_map.2 (h.ordered.imp fun hbefore =>
    .inside (List.mem_singleton_self f) htarget ht hbefore)

/-- A field that embeds nothing is a chain by itself, or none. -/
theorem Registry.Enumerates.plain (hplain : ¬ f.IsEmbedding) {chains : List (List FieldDef)}
    (h : f.IsUniqueKey ∧ chains = [[f]] ∨ ¬ f.IsUniqueKey ∧ chains = []) :
    r.Enumerates [f] chains := by
  have hmem : ∀ chain, r.UniqueChain [f] chain ↔ chain = [f] ∧ f.IsUniqueKey := fun chain => by
    constructor
    · intro hc
      cases hc with
      | key hf hkey =>
        obtain rfl := List.mem_singleton.1 hf
        exact ⟨rfl, hkey⟩
      | inside hf hembeds => exact absurd (List.mem_singleton.1 hf ▸ hembeds) hplain
    · rintro ⟨rfl, hkey⟩
      exact .key (List.mem_singleton_self f) hkey
  rcases h with ⟨hkey, rfl⟩ | ⟨hkey, rfl⟩
  · exact ⟨fun chain =>
      by rw [hmem, List.mem_singleton, and_iff_left hkey], List.pairwise_singleton _ _⟩
  · refine ⟨fun chain => ?_, .nil⟩
    rw [hmem]
    exact ⟨fun hc => absurd hc List.not_mem_nil, fun hc => absurd hc.2 hkey⟩

theorem chainPath_cons (path : String) (f : FieldDef) (hne : chain ≠ []) :
    chainPath (path ++ f.name ++ ".") chain = chainPath path (f :: chain) := by
  unfold chainPath dotted
  rw [List.map_cons, Text.join_cons "." f.name (mt List.map_eq_nil_iff.1 hne)]
  simp only [String.append_assoc]

/-- The fields of an entity have names of their own, so that names tell chains. -/
theorem Registry.UniqueChain.eq_of_names (h : r.UniqueChain fields chain)
    (hnames : (fields.map FieldDef.name).Nodup) (h' : r.UniqueChain fields chain')
    (heq : chain.map FieldDef.name = chain'.map FieldDef.name) :
    chain = chain' := by
  induction h generalizing chain' with
  | key hf _ =>
    cases h' with
    | key hf' _ => rw [List.inj_on_of_nodup_map hnames hf hf' (List.cons.inj heq).1]
    | inside _ _ _ _ hrest' =>
      exact absurd (List.map_eq_nil_iff.1 (List.cons.inj heq).2.symm) hrest'.ne_nil
  | @inside _ _ _ _ t hf _ htarget ht hrest ih =>
    cases h' with
    | key _ _ => exact absurd (List.map_eq_nil_iff.1 (List.cons.inj heq).2) hrest.ne_nil
    | inside hf' _ htarget' ht' hrest' =>
      obtain rfl := List.inj_on_of_nodup_map hnames hf hf' (List.cons.inj heq).1
      obtain rfl := Option.some.inj (htarget'.symm.trans htarget)
      obtain rfl := Option.some.inj (ht.symm.trans ht')
      rw [ih t.entity.names_nodup hrest' (List.cons.inj heq).2]

/-- No field of the registry has a dot in its name. -/
def Registry.Dotless (r : Registry) : Prop :=
  ∀ e ∈ r.descriptors, ∀ f ∈ e.2.entity.fields, IsSegment f.name

theorem Registry.UniqueChain.isSegment (hdots : r.Dotless) (h : r.UniqueChain fields chain)
    (hfields : ∀ f ∈ fields, IsSegment f.name) : ∀ s ∈ chain.map FieldDef.name, IsSegment s := by
  induction h with
  | key hf _ =>
    rintro s hs
    rw [List.mem_singleton.1 hs]
    exact hfields _ hf
  | inside hf _ _ ht _ ih =>
    intro s hs
    rcases List.mem_cons.1 hs with rfl | hs
    · exact hfields _ hf
    · exact ih (hdots _ (Record.mem_of_get?_eq_some ht)) s hs

/-- **Paths tell chains**, as long as no field has a dot in its name. -/
theorem chainPath_inj (hdots : r.Dotless) (hfields : ∀ f ∈ fields, IsSegment f.name)
    (hnames : (fields.map FieldDef.name).Nodup) (h : r.UniqueChain fields chain)
    (h' : r.UniqueChain fields chain')
    (heq : dotted (chain.map FieldDef.name) = dotted (chain'.map FieldDef.name)) :
    chain = chain' := by
  refine h.eq_of_names hnames h' ?_
  rw [← segments_dotted_of_isSegment (mt List.map_eq_nil_iff.1 h.ne_nil)
    (h.isSegment hdots hfields), heq,
    segments_dotted_of_isSegment (mt List.map_eq_nil_iff.1 h'.ne_nil) (h'.isSegment hdots hfields)]

end Chains

/-! ## Definitions -/

section Definitions

variable {r : Registry} {e path : String} {way : List String} {fields rest : List FieldDef}
  {f : FieldDef} {d : Descriptor}

theorem uniqueCapable_iff {t : ScalarType} :
    uniqueCapable t = true ↔ t = .string ∨ t = .int ∨ t = .float := by
  cases t <;> simp [uniqueCapable]

theorem uniquePaths_scalarPart (f : FieldDef) (path : String) (t : ScalarType) :
    (scalarPart f path t).uniquePaths = if (f.unique && uniqueCapable t) = true then [path] else
      [] := by
  unfold scalarPart
  split
  · rename_i hid
    rw [Bool.and_eq_true, beq_iff_eq] at hid
    rw [hid.2, show uniqueCapable .id = false from rfl, Bool.and_false]
    rfl
  · rfl

/-- A field of objects that embeds none has no unique path. -/
theorem uniquePaths_plainPart_of_target {f : FieldDef} (h : f.scalarType = none) (path : String) :
    ¬ f.IsUniqueKey ∧ (plainPart f path).uniquePaths = [] := by
  constructor
  · rintro ⟨-, -, ⟨t, ht, -⟩ | ⟨v, ht⟩⟩ <;> rw [FieldDef.scalarType, ht] at h <;> cases h
  · unfold plainPart
    unfold FieldDef.scalarType at h
    split
    · rename_i ht
      rw [ht] at h
      cases h
    · rename_i ht
      rw [ht] at h
      cases h
    all_goals rfl

/-- The part of a field that embeds nothing has the path of a unique key, and no other. -/
theorem uniquePaths_plainPart (f : FieldDef) (path : String) :
    f.IsUniqueKey ∧ (plainPart f path).uniquePaths = [path] ∨
      ¬ f.IsUniqueKey ∧ (plainPart f path).uniquePaths = [] := by
  obtain ⟨name, type, many, nullable, readOnly, unique, relation, description⟩ := f
  cases type with
  | scalar t =>
    cases many with
    | false =>
      have hkey : ((unique && uniqueCapable t) = true) ↔ FieldDef.IsUniqueKey
          ⟨name, .scalar t, false, nullable, readOnly, unique, relation, description⟩ := by
        simp [FieldDef.IsUniqueKey, uniqueCapable_iff]
      change _ ∧ (scalarPart _ path t).uniquePaths = _ ∨ _ ∧ (scalarPart _ path t).uniquePaths = _
      rw [uniquePaths_scalarPart, ← hkey]
      by_cases h : (unique && uniqueCapable t) = true
      · exact .inl ⟨h, if_pos h⟩
      · exact .inr ⟨h, if_neg h⟩
    | true => exact .inr ⟨fun h => Bool.false_ne_true h.2.1.symm, rfl⟩
  | enumeration v =>
    cases many with
    | false =>
      cases unique with
      | false => exact .inr ⟨fun h => Bool.false_ne_true h.1, rfl⟩
      | true => exact .inl ⟨⟨rfl, rfl, .inr ⟨v, rfl⟩⟩, rfl⟩
    | true => exact .inr ⟨fun h => Bool.false_ne_true h.2.1.symm, rfl⟩
  | entity n => exact .inr (uniquePaths_plainPart_of_target rfl path)
  | unnamed v => exact .inr (uniquePaths_plainPart_of_target rfl path)

namespace Registry.Describes

/-- The description of the first field, and then of the others. -/
theorem cons {x y : Outcome CollectionSchema.Part} (h : r.Describes e path [f] x)
    (hrest : r.Describes e path rest y) :
    r.Describes e path (f :: rest) (do
      let first ← x
      let others ← y
      pure (first.append others)) := by
  rcases x with fault | first
  · exact h
  rcases y with fault | others
  · exact hrest
  obtain ⟨⟨chains, hchains, hpaths⟩, hends⟩ := h
  obtain ⟨⟨chains', hchains', hpaths'⟩, hends'⟩ := hrest
  refine ⟨⟨_, hchains.cons hchains', ?_⟩, fun g hg => ?_⟩
  · rw [List.map_append, ← hpaths, ← hpaths']
    rfl
  · rcases List.mem_cons.1 hg with rfl | hg
    · exact hends _ (List.mem_singleton_self _)
    · exact hends' g hg

/-- Only the unique paths of a part matter. -/
theorem map {x : Outcome CollectionSchema.Part} (h : r.Describes e path fields x)
    {wrap : CollectionSchema.Part → CollectionSchema.Part}
    (hwrap : ∀ part, (wrap part).uniquePaths = part.uniquePaths) :
    r.Describes e path fields (do
      let part ← x
      pure (wrap part)) := by
  rcases x with fault | part
  · exact h
  · obtain ⟨⟨chains, hchains, hpaths⟩, hends⟩ := h
    exact ⟨⟨chains, hchains, (hwrap part).trans hpaths⟩, hends⟩

/-- The description of a field that embeds an entity is that of the entity's fields. -/
theorem inside {target : String} {t : Descriptor} {x : Outcome CollectionSchema.Part}
    (hnests : r.Nests e target) (hembeds : f.IsEmbedding) (htarget : f.target = some target)
    (ht : Record.get? r.descriptors target = some t)
    (h : r.Describes target (path ++ f.name ++ ".") t.entity.fields x) :
    r.Describes e path [f] x := by
  rcases x with fault | part
  · obtain ⟨hfault, n, hreach, hcycle⟩ := h
    exact ⟨hfault, n, .head hnests hreach, hcycle⟩
  · obtain ⟨⟨chains, hchains, hpaths⟩, hends⟩ := h
    refine ⟨⟨_, hchains.inside hembeds htarget ht, ?_⟩, ?_⟩
    · rw [hpaths, List.map_map]
      exact List.map_congr_left fun c hc => chainPath_cons path f ((hchains.mem_iff c).1 hc).ne_nil
    · intro g hg _ target' htarget'
      obtain rfl := List.mem_singleton.1 hg
      obtain rfl := Option.some.inj (htarget'.symm.trans htarget)
      refine Acc.intro _ fun inner hinner => ?_
      obtain ⟨t', ht', k, hk, hembeds', hinner⟩ := hinner
      obtain rfl := Option.some.inj (ht'.symm.trans ht)
      exact hends k hk hembeds' inner hinner

end Registry.Describes

/-- The embedded entity is described by its fields, unless it is met on the way down. -/
theorem embeddedPart_eq {target : String} {t : Descriptor} (htarget : f.target = some target)
    (hname : target ≠ "") (ht : Record.get? r.descriptors target = some t) :
    embeddedPart r path way f =
      if way.contains target then .error (Reason.embeddedRecursion (way.headD "") f.name).fault
      else fieldParts r (path ++ f.name ++ ".") (target :: way) t.entity.fields := by
  unfold embeddedPart
  dsimp only
  split
  · rename_i hnone
    rw [htarget] at hnone
    cases hnone
  · rename_i target' htarget'
    obtain rfl := Option.some.inj (htarget'.symm.trans htarget)
    split
    · rfl
    · split
      · rename_i hreq
        rw [Registry.require_of_get? hname ht] at hreq
        cases hreq
      · rename_i hreq
        rw [Registry.require_of_get? hname ht] at hreq
        cases hreq
        rfl

/-- The part of a field that embeds an entity has the unique paths of the entity. -/
theorem fieldPart_of_isEmbedding (r : Registry) (path : String) (way : List String)
    (hembeds : f.IsEmbedding) :
    ∃ wrap : Part → Part, (∀ part, (wrap part).uniquePaths = part.uniquePaths) ∧
      fieldPart r path way f = (do
      let inner ← embeddedPart r path way f
      pure (wrap inner)) := by
  rw [fieldPart]
  rcases hembeds with h | h <;> rw [h]
  · exact ⟨fun inner => ⟨[(f.name, objectRule inner.properties)], inner.uniquePaths⟩, fun _ =>
      rfl, rfl⟩
  · exact ⟨fun inner => ⟨[(f.name,
      obj [("bsonType", .text "array"), ("items", objectRule inner.properties)])],
      inner.uniquePaths⟩, fun _ => rfl, rfl⟩

/-- What a field that embeds nothing has is described by the field. -/
theorem Registry.Describes.plain {part : CollectionSchema.Part} (hplain : ¬ f.IsEmbedding)
    (h : f.IsUniqueKey ∧ part.uniquePaths = [path ++ f.name] ∨ ¬ f.IsUniqueKey ∧
      part.uniquePaths = []) :
    r.Describes e path [f] (.ok part) := by
  refine ⟨?_, fun g hg hembeds => absurd (List.mem_singleton.1 hg ▸ hembeds) hplain⟩
  rcases h with ⟨hkey, hpaths⟩ | ⟨hkey, hpaths⟩
  · exact ⟨[[f]], .plain hplain (.inl ⟨hkey, rfl⟩), hpaths⟩
  · exact ⟨[], .plain hplain (.inr ⟨hkey, rfl⟩), hpaths⟩

theorem fieldPart_of_not_isEmbedding {kind : FieldKind} (hkind : f.kind = .ok kind)
    (hplain : ¬ f.IsEmbedding) :
    fieldPart r path way f = .ok (plainPart f (path ++ f.name)) := by
  unfold FieldDef.IsEmbedding at hplain
  rw [fieldPart]
  rw [hkind] at hplain ⊢
  cases kind with
  | embeddedObject => exact absurd (.inl rfl) hplain
  | embeddedList => exact absurd (.inr rfl) hplain
  | _ => rfl

mutual

/-- **Describing fields**: let everything on the way down lead to the entity whose fields these are.
Then the parts of the fields list their chains, or there is a cycle below the entity. -/
theorem describes_fieldParts {e : String} {way : List String} {d : Descriptor} (hleads : r.AllLead)
    (hd : Record.get? r.descriptors e = some d)
    (hway : ∀ n ∈ way, Relation.ReflTransGen r.Nests n e) (path : String) :
    ∀ fields : List FieldDef, (∀ f ∈ fields, f ∈ d.entity.fields) →
      r.Describes e path fields (fieldParts r path way fields)
  | [], _ => by
    rw [fieldParts]
    exact ⟨⟨[], .nil, rfl⟩, fun f hf => absurd hf List.not_mem_nil⟩
  | f :: rest, hfields => by
    rw [fieldParts]
    exact (describes_fieldPart hleads hd hway path (hfields f (List.mem_cons_self ..))).cons
      (describes_fieldParts hleads hd hway path rest fun g hg =>
      hfields g (List.mem_cons_of_mem _ hg))
termination_by fields => (remaining r way, fields.length, 1)

theorem describes_fieldPart {e : String} {way : List String} {d : Descriptor} {f : FieldDef}
    (hleads : r.AllLead) (hd : Record.get? r.descriptors e = some d)
    (hway : ∀ n ∈ way, Relation.ReflTransGen r.Nests n e) (path : String)
    (hf : f ∈ d.entity.fields) :
    r.Describes e path [f] (fieldPart r path way f) := by
  by_cases hembeds : f.IsEmbedding
  · obtain ⟨wrap, hwrap, heq⟩ := fieldPart_of_isEmbedding r path way hembeds
    rw [heq]
    exact (describes_embeddedPart hleads hd hway path hf hembeds).map hwrap
  · obtain ⟨kind, hkind, -⟩ := hleads e d hd f hf
    rw [fieldPart_of_not_isEmbedding hkind hembeds]
    exact .plain hembeds (uniquePaths_plainPart f (path ++ f.name))
termination_by (remaining r way, 0, 1)

theorem describes_embeddedPart {e : String} {way : List String} {d : Descriptor} {f : FieldDef}
    (hleads : r.AllLead) (hd : Record.get? r.descriptors e = some d)
    (hway : ∀ n ∈ way, Relation.ReflTransGen r.Nests n e) (path : String) (hf : f ∈ d.entity.fields)
    (hembeds : f.IsEmbedding) : r.Describes e path [f] (embeddedPart r path way f) := by
  obtain ⟨target, t, htarget, hname, ht⟩ := (hleads e d hd f hf).exists_target hembeds
  have hnests : r.Nests e target := ⟨d, hd, f, hf, hembeds, htarget⟩
  rw [embeddedPart_eq htarget hname ht]
  by_cases hmet : way.contains target = true
  · rw [if_pos hmet]
    have hback : Relation.ReflTransGen r.Nests target e :=
      hway target (List.contains_iff_mem.1 hmet)
    exact ⟨⟨_, rfl, rfl⟩, e, .refl, .head' hnests hback⟩
  · rw [if_neg hmet]
    have hdown : ∀ n ∈ target :: way, Relation.ReflTransGen r.Nests n target := fun n hn => by
      rcases List.mem_cons.1 hn with rfl | hn
      · exact .refl
      · exact (hway n hn).tail hnests
    have hless : remaining r (target :: way) < remaining r way :=
      remaining_cons_lt (Option.isSome_iff_exists.2 ⟨t, ht⟩) (Bool.eq_false_iff.2 hmet)
    exact .inside hnests hembeds htarget ht
      (describes_fieldParts hleads ht hdown (path ++ f.name ++ ".") t.entity.fields fun _ hg => hg)
termination_by (remaining r way, 0, 0)

end

namespace Registry

/-- Where every way down ends there is no cycle below. -/
theorem not_circular_of_acc (h : Acc (fun t e => r.Nests e t) e) : ¬ r.Circular e := by
  rintro ⟨n, hreach, hcycle⟩
  have hacc : Acc (fun t e => r.Nests e t) n := by
    clear hcycle
    induction hreach with
    | refl => exact h
    | tail _ hnests ih => exact ih.inv hnests
  exact not_transGen_of_acc hacc hcycle

/-- **Storage definitions** exist exactly for entities without a cycle of embedded relations below
them; for the others there is a configuration error. The unique paths of a definition are those of
the chains from the entity's fields to a unique key, each chain once, in the order of declarations.
They are distinct when no field has a dot in its name. -/
theorem build_decides {name : String} (hr : r.Built) (hlinked : r.Linked)
    (hd : Record.get? r.descriptors name = some d) :
    (r.Circular name → ∃ fault, build r d = .error fault ∧ fault.IsConfiguration) ∧
    (¬ r.Circular name → ∃ schema, build r d = .ok schema ∧ ∃ chains : List (List FieldDef),
      schema.uniquePaths = chains.map (fun chain => dotted (chain.map FieldDef.name)) ∧
      (∀ chain, chain ∈ chains ↔ r.UniqueChain d.entity.fields chain) ∧
      chains.Pairwise (r.DeclaredBefore d.entity.fields) ∧ chains.Nodup ∧
      (r.Dotless → schema.uniquePaths.Nodup)) := by
  have hleads : r.AllLead := fun name d hd f hf =>
    hlinked.leads hr.classified (Record.mem_of_get?_eq_some hd) hf
  have hway : ∀ n ∈ [d.name], Relation.ReflTransGen r.Nests n name := fun n hn => by
    rw [List.mem_singleton.1 hn, hr.shaped.named name d hd]
  have hdescribes := describes_fieldParts hleads hd hway "" d.entity.fields fun _ hf => hf
  unfold build
  generalize fieldParts r "" [d.name] d.entity.fields = parts at hdescribes ⊢
  rcases parts with fault | part
  · exact ⟨fun _ => ⟨fault, rfl, hdescribes.1⟩, fun hends => absurd hdescribes.2 hends⟩
  obtain ⟨⟨chains, hchains, hpaths⟩, hends⟩ := hdescribes
  have hacc : Acc (fun t e => r.Nests e t) name := Acc.intro _ fun target hnests => by
    obtain ⟨d', hd', f, hf, hembeds, htarget⟩ := hnests
    obtain rfl := Option.some.inj (hd'.symm.trans hd)
    exact hends f hf hembeds target htarget
  refine ⟨fun hcircular => absurd hcircular (not_circular_of_acc hacc), fun _ =>
    ⟨_, rfl, chains, ?_, hchains.mem_iff, hchains.ordered, hchains.nodup d.entity.names_nodup,
      fun hdots => ?_⟩⟩
  · exact hpaths.trans (List.map_congr_left fun chain _ => String.empty_append)
  · change part.uniquePaths.Nodup
    rw [hpaths]
    refine (hchains.nodup d.entity.names_nodup).map_on fun chain hc chain' hc' heq => ?_
    have hfields := hdots _ (Record.mem_of_get?_eq_some hd)
    refine chainPath_inj hdots hfields d.entity.names_nodup ((hchains.mem_iff _).1 hc)
      ((hchains.mem_iff _).1 hc') ?_
    rwa [chainPath, String.empty_append, chainPath, String.empty_append] at heq

end Registry

end Definitions

/-! ## Lockers -/

/-- A unique text. -/
def uniqueText (name : String) : FieldDef :=
    ⟨name, .scalar .string, false, true, false, true, none, .null⟩

/-- The field for the drawer on a locker. -/
def drawerField : FieldDef :=
  ⟨"drawer", .entity "Drawer", false, true, false, false, some ⟨true, "", .null⟩, .null⟩

/-- A locker has a unique text and holds a drawer. -/
def locker (label : String) (h : label ≠ "drawer") : Entity where
  name := "Locker"
  fields := [uniqueText label, drawerField]
  description := .null
  names_nodup := by simpa [uniqueText, drawerField] using h

/-- A drawer has a unique text. -/
def drawer : Entity := ⟨"Drawer", [uniqueText "code"], .null, by simp⟩

/-- The registry of lockers and drawers. -/
def lockers (label : String) (h : label ≠ "drawer") : Registry :=
  ⟨[("Locker", ⟨locker label h, "Locker", none, none, none, false, none, []⟩),
    ("Drawer", ⟨drawer, "Drawer", none, none, none, false, none, []⟩)], [], false⟩

theorem lockers_built (label : String) (h : label ≠ "drawer") : (lockers label h).Built :=
  let alone : Registry := ⟨[("Locker",
    ⟨locker label h, "Locker", none, none, none, false, none, []⟩)], [], false⟩
  have hlocker : Registry.empty.addEmbedded (locker label h) = .ok alone := rfl
  have hdrawer : alone.addEmbedded drawer = .ok (lockers label h) := rfl
  .embed (.embed .empty hlocker) hdrawer

theorem lockers_linked (label : String) (h : label ≠ "drawer") : (lockers label h).Linked := by
  intro e he f hf kind hkind hobject
  rcases List.mem_pair.1 he with rfl | rfl
  · rcases List.mem_pair.1 hf with rfl | rfl
    · cases hkind
      cases hobject
    · exact ⟨"Drawer", rfl, by decide, rfl⟩
  · obtain rfl := List.mem_singleton.1 hf
    cases hkind
    cases hobject

/-- Lockers hold drawers, and drawers hold nothing. -/
theorem lockers_not_circular (label : String) (h : label ≠ "drawer") :
    ¬ (lockers label h).Circular "Locker" := by
  have hdrawer : ∀ target, ¬ (lockers label h).Nests "Drawer" target := by
    rintro target ⟨d, hd, f, hf, hembeds, -⟩
    cases hd
    obtain rfl := List.mem_singleton.1 hf
    rcases hembeds with h | h <;> cases h
  refine Registry.not_circular_of_acc (Acc.intro _ ?_)
  rintro target ⟨d, hd, f, hf, hembeds, htarget⟩
  cases hd
  rcases List.mem_pair.1 hf with rfl | rfl
  · rcases hembeds with h | h <;> cases h
  · cases htarget
    exact Acc.intro _ fun inner hinner => absurd hinner (hdrawer inner)

/-- The descriptor of lockers. -/
def lockerDescriptor (label : String) (h : label ≠ "drawer") : Descriptor :=
  ⟨locker label h, "Locker", none, none, none, false, none, []⟩

theorem fieldParts_uniqueText {r : Registry} {way : List String} (path name : String)
    (rest : List FieldDef) :
    fieldParts r path way (uniqueText name :: rest) = (do
      let others ← fieldParts r path way rest
      pure ((plainPart (uniqueText name) (path ++ name)).append others)) := by
  have hplain : ¬ (uniqueText name).IsEmbedding := fun hembeds => by
    rcases hembeds with h | h <;> cases h
  have hkind : (uniqueText name).kind = .ok .scalar := rfl
  rw [fieldParts, fieldPart_of_not_isEmbedding hkind hplain]
  rfl

theorem uniquePaths_uniqueText (name path : String) :
    (plainPart (uniqueText name) path).uniquePaths = [path] :=
  have hkey : (uniqueText name).IsUniqueKey := ⟨rfl, rfl, .inl ⟨.string, rfl, .inl rfl⟩⟩
  ((uniquePaths_plainPart (uniqueText name) path).resolve_right fun h => h.1 hkey).2

/-- The unique paths of a locker: its own, and that of its drawer. -/
theorem build_locker (label : String) (h : label ≠ "drawer") : ∃ schema,
    build (lockers label h) (lockerDescriptor label h) = .ok schema ∧
      schema.uniquePaths = [label, "drawer.code"] := by
  have hinside : ∃ part, fieldParts (lockers label h) "drawer." ["Drawer", "Locker"] drawer.fields =
    .ok part ∧
      part.uniquePaths = ["drawer.code"] := by
    rw [drawer, fieldParts_uniqueText, fieldParts]
    exact ⟨_, rfl, rfl⟩
  obtain ⟨part, hparts, hpaths⟩ := hinside
  have hdrawer : embeddedPart (lockers label h) "" ["Locker"] drawerField = .ok part := by
    have htarget : drawerField.target = some "Drawer" := rfl
    rw [embeddedPart_eq htarget (by decide) rfl]
    exact hparts
  have hlocker : ∃ whole, fieldParts (lockers label h) "" ["Locker"] (locker label h).fields =
    .ok whole ∧
      whole.uniquePaths = [label, "drawer.code"] := by
    rw [locker, fieldParts_uniqueText, fieldParts, fieldParts, fieldPart, hdrawer]
    refine ⟨_, rfl, ?_⟩
    change (plainPart (uniqueText label) ("" ++ label)).uniquePaths ++ (part.uniquePaths ++ []) = _
    rw [uniquePaths_uniqueText, hpaths, String.empty_append]
    rfl
  obtain ⟨whole, hwhole, hpaths⟩ := hlocker
  unfold build
  change ∃ schema, (fieldParts (lockers label h) "" ["Locker"] (locker label h).fields >>= _) = _ ∧
    _
  rw [hwhole]
  exact ⟨_, rfl, hpaths⟩

/-- A locker has a storage definition, whose unique paths are those of the chains to unique keys. -/
theorem build_decides_locker :
    (lockers "label" (by decide)).Built ∧ (lockers "label" (by decide)).Linked ∧
    Record.get? (lockers "label" (by decide)).descriptors "Locker" =
      some (lockerDescriptor "label" (by decide)) ∧
    ∃ schema, build (lockers "label" (by decide))
      (lockerDescriptor "label" (by decide)) = .ok schema ∧
      schema.uniquePaths.Nodup := by
  have hdots : (lockers "label" (by decide)).Dotless := by
    unfold Registry.Dotless IsSegment
    decide
  obtain ⟨schema, hbuild, _, -, -, -, -, hnodup⟩ :=
    (Registry.build_decides (lockers_built "label" (by decide)) (lockers_linked "label" (by decide))
      rfl).2 (lockers_not_circular "label" (by decide))
  exact ⟨lockers_built _ _, lockers_linked _ _, rfl, schema, hbuild, hnodup hdots⟩

/-- The fields of a nested pair take arguments. -/
theorem nestedPair_embeds_of_nests {outer inner e target : String} {held heldInside : Option String}
    (h : (nestedPair outer held inner heldInside).Nests e target) :
    (nestedPair outer held inner heldInside).Embeds e target := by
  obtain ⟨d, hd, f, hf, hembeds, htarget⟩ := h
  refine ⟨d, hd, f, hf, ?_, hembeds, htarget⟩
  rcases List.mem_pair.1 (Record.mem_of_get?_eq_some hd) with h | h <;> cases h <;>
    exact (kind_of_mem_nesting hf).2.2

/-- **Paths that meet, and a target without a name**: a locker with a text `drawer.code` of its own
has that unique path twice. A case that holds something registered under the empty name has no
definition, although there is no cycle. -/
theorem unique_path_repeated :
    (∃ (r : Registry) (d : Descriptor) (schema : CollectionSchema), r.Built ∧ r.Linked ∧
      Record.get? r.descriptors "Locker" = some d ∧ build r d = .ok schema ∧
        ¬ schema.uniquePaths.Nodup) ∧
    ∃ (r : Registry) (d : Descriptor), r.Built ∧
      (∀ e ∈ r.descriptors, ∀ f ∈ e.2.entity.fields, ∀ kind, f.kind = .ok kind →
        kind.isObject = true →
        ∃ target, f.target = some target ∧ r.has target = true) ∧
      Record.get? r.descriptors "Case" = some d ∧ ¬ r.Circular "Case" ∧ ∃ fault,
        build r d = .error fault := by
  have hlabel : "drawer.code" ≠ "drawer" := by decide
  obtain ⟨schema, hbuild, hpaths⟩ := build_locker "drawer.code" hlabel
  refine ⟨⟨_, _, schema, lockers_built _ hlabel, lockers_linked _ hlabel, rfl, hbuild, ?_⟩, ?_⟩
  · rw [hpaths]
    decide
  have hne : "Case" ≠ "" := by decide
  refine ⟨nestedPair "Case" (some "") "" none, _, nestedPair_built hne,
    fun e he f hf kind hk hobject => ?_, rfl, ?_, ?_⟩
  · rcases List.mem_pair.1 he with rfl | rfl
    · exact ⟨"", (kind_of_mem_nesting hf).2.1, rfl⟩
    · cases hf
  · rintro ⟨n, -, hcycle⟩
    exact nestedPair_acyclic hne n
      (Relation.TransGen.mono (fun _ _ => nestedPair_embeds_of_nests) n n hcycle)
  · unfold build
    change ∃ fault, (fieldParts _ "" ["Case"] (nesting "Case" (some "")).fields >>= _) = _
    rw [nesting]
    change ∃ fault, (fieldParts _ "" ["Case"] [_] >>= _) = _
    rw [fieldParts, fieldPart, embeddedPart]
    exact ⟨_, rfl⟩

end EntityGraph
