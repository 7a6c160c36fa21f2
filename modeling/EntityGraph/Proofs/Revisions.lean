import EntityGraph.Proofs.Assembly
import EntityGraph.Proofs.RetakenWrites

/-!
# Documents after updates

An update lays what was made from its arguments over the stored document: embedded objects are
merged with the stored ones, everything else replaces what is stored, and then the keys of null
arguments are removed (`Assembled.get?_after`). A held value stays held unless its own key is
removed (`Assembled.held_applyUpdate`). What is known of the parts of the stored document and of
those of the arguments goes for the parts of the updated one (`Assembled.parts_applyUpdate`); an
object that is merged into a stored one may leave out what the stored one holds.
-/

namespace EntityGraph

variable {τ S : Type}

/-! ## Records laid over records -/

/-- What is found in a record after another one was laid over it. -/
theorem Record.get?_merge {α : Type} {other : Record α} (h : (Record.keys other).Nodup)
    (r : Record α) (key : String) :
    Record.get? (Record.merge r other) key = (Record.get? other key).or (Record.get? r key) := by
  induction other generalizing r with
  | nil => rfl
  | cons e rest ih =>
    obtain ⟨k, v⟩ := e
    rw [Record.keys, List.map_cons, List.nodup_cons] at h
    have hmerge : Record.merge r ((k, v) :: rest) = Record.merge (Record.put r k v) rest := rfl
    rw [hmerge, ih h.2, Record.get?_put, Record.get?_cons]
    split
    · rename_i hk
      subst hk
      have hnone : Record.get? rest k = none := Option.eq_none_iff_forall_ne_some.2 fun w hw =>
        h.1 (List.mem_map.2 ⟨(k, w), Record.mem_of_get?_eq_some hw, rfl⟩)
      rw [hnone, Option.none_or, Option.some_or]
    · rfl

/-- **A document laid over another one**: its parts and those that it leaves alone. -/
theorem Registry.Throughout.merge {r : Registry} {Q : Descriptor → Document → Prop} {d : Descriptor}
    {old new : Document} (h : r.Throughout Q d old) (hnew : Neat new) (hparts : r.PartsAre Q d new)
    (hmerged : Q d (Record.merge old new)) : r.Throughout Q d (Record.merge old new) := by
  refine .intro hmerged fun f e inner hpart => ?_
  obtain ⟨v, hv, -⟩ := hpart.composed
  rw [Record.get?_merge hnew.keys] at hv
  rcases hget : Record.get? new f.name with _ | w
  · rw [hget, Option.none_or] at hv
    refine h.parts f e inner (hpart.congr ?_)
    rw [Record.get?_merge hnew.keys, hget, Option.none_or]
  · refine hparts f e inner (hpart.congr ?_)
    rw [Record.get?_merge hnew.keys, hget, Option.some_or]

/-- Required values stay held when a document is laid over the one that holds them, even one that
leaves them out. -/
theorem Descriptor.fills_merge {d : Descriptor} {old new : Document}
    (h : d.Fills FieldDef.documentKey Held old) (hnew : Neat new) :
    d.Fills FieldDef.documentKey Held (Record.merge old new) := by
  intro f hf
  rw [Record.get?_merge hnew.keys]
  rcases hv : Record.get? new f.documentKey with _ | v
  · rw [Option.none_or]
    exact h f hf
  · rw [Option.some_or, ← hv]
    exact hnew.held hv

/-! ## Laying embedded objects over stored ones -/

/-- **Changes laid over a stored document**: where both have an embedded object the two are merged,
and all other changes stay as they are. -/
structure LaidOver (current : Document) (fields : List FieldDef)
    (changes changes' : Document) : Prop where
  neat : Neat changes → Neat changes'
  keys : Record.keys changes' = Record.keys changes
  merged : ∀ f ∈ fields, f.kind = .ok .embeddedObject →
    (∃ new old, Record.get? changes f.name = some (.object new) ∧ Record.get? current f.name =
    some (.object old) ∧
      Record.get? changes' f.name = some (.object (Record.merge old new))) ∨
    Record.get? changes' f.name = Record.get? changes f.name ∧
      ∀ old, Record.get? current f.name = some (.object old) → Record.get? changes f.name = none
  other : ∀ key, (∀ f ∈ fields, f.kind = .ok .embeddedObject → f.name ≠ key) →
    Record.get? changes' key = Record.get? changes key

/-- What is found among the changes stays as it is, or stays an object. -/
theorem LaidOver.get?_cases {current : Document} {fields : List FieldDef}
    {changes changes' : Document} (h : LaidOver current fields changes changes') {key : String}
    {v : Value} (hv : Record.get? changes' key = some v) :
    Record.get? changes key = some v ∨ ∃ a b, Record.get? changes key = some (.object a) ∧
      v = .object b := by
  by_cases hkey : ∃ f ∈ fields, f.kind = .ok .embeddedObject ∧ f.name = key
  · obtain ⟨f, hf, hk, rfl⟩ := hkey
    rcases h.merged f hf hk with ⟨new, old, hnew, -, hmerged⟩ | ⟨hsame, -⟩
    · rw [hmerged] at hv
      cases hv
      exact .inr ⟨new, _, hnew, rfl⟩
    · exact .inl (hsame.symm.trans hv)
  · push Not at hkey
    exact .inl ((h.other key hkey).symm.trans hv)

/-- Where there are no changes nothing is laid over. -/
theorem LaidOver.get?_of_none {current : Document} {fields : List FieldDef}
    {changes changes' : Document} (h : LaidOver current fields changes changes') {key : String}
    (hnone : Record.get? changes key = none) :
    Record.get? changes' key = none := by
  refine Option.eq_none_iff_forall_ne_some.2 fun v hv => ?_
  rcases h.get?_cases hv with hsame | ⟨a, -, hobject, -⟩
  · cases hnone.symm.trans hsame
  · cases hnone.symm.trans hobject

/-- One field. -/
theorem mergeField_cases {current changes changes' : Document} {f : FieldDef}
    (h : mergeField current f changes = .ok changes') :
    (∃ new old, f.kind = .ok .embeddedObject ∧ Record.get? changes f.name = some (.object new) ∧
      Record.get? current f.name = some (.object old) ∧
      changes' = Record.put changes f.name (.object (Record.merge old new))) ∨
    changes' = changes ∧ (f.kind = .ok .embeddedObject →
      ∀ old, Record.get? current f.name = some (.object old) →
        Record.get? changes f.name = none) := by
  unfold mergeField at h
  split at h
  · rename_i hk
    split at h
    · rename_i new old hnew hold
      cases h
      exact .inl ⟨new, old, FieldDef.kind?_eq_some.1 hk, hnew, hold, rfl⟩
    · cases h
    · rename_i hrest
      cases h
      refine .inr ⟨rfl, fun _ old hold => ?_⟩
      rcases hnew : Record.get? changes f.name with _ | v
      · rfl
      · exact absurd hold (hrest v old hnew)
  · rename_i hk
    cases h
    exact .inr ⟨rfl, fun hkind => absurd (FieldDef.kind?_eq_some.2 hkind) hk⟩

/-- **Laying changes over a stored document.** The fields that follow have other names, and leave
the entry of this one alone. -/
theorem laidOver_mergeEmbedded {current : Document} {fields : List FieldDef}
    (hnames : (fields.map FieldDef.name).Nodup) {changes changes' : Document}
    (h : Executor.mergeEmbedded current fields changes = .ok changes') :
    LaidOver current fields changes changes' := by
  induction fields generalizing changes with
  | nil =>
    cases h
    exact ⟨id, rfl, fun _ hf => absurd hf List.not_mem_nil, fun _ _ => rfl⟩
  | cons f rest ih =>
    rw [List.map_cons, List.nodup_cons] at hnames
    rw [mergeEmbedded_cons] at h
    obtain ⟨changes₁, hfield, hrest⟩ := bind_eq_ok h
    have hlaid := ih hnames.2 hrest
    have hself : Record.get? changes' f.name = Record.get? changes₁ f.name :=
      hlaid.other f.name fun g hg _ heq => hnames.1 (heq ▸ List.mem_map_of_mem hg)
    have hapart : ∀ g ∈ rest, f.name ≠ g.name := fun g hg heq =>
      hnames.1 (heq ▸ List.mem_map_of_mem hg)
    rcases mergeField_cases hfield with ⟨new, old, hk, hnew, hold, rfl⟩ | ⟨rfl, hplain⟩
    · have hother : ∀ {key}, f.name ≠ key →
          Record.get? (Record.put changes f.name (.object (Record.merge old new))) key =
            Record.get? changes key := fun hne => by rw [Record.get?_put, if_neg hne]
      refine ⟨fun hneat => hlaid.neat (hneat.put _ (by simp)),
        hlaid.keys.trans (Record.keys_put_of_get? hnew _), fun g hg hkind => ?_, fun key hkey => ?_⟩
      · rcases List.mem_cons.1 hg with rfl | hg
        · exact .inl ⟨new, old, hnew, hold, by rw [hself, Record.get?_put_self]⟩
        · have hg' := hlaid.merged g hg hkind
          rwa [hother (hapart g hg)] at hg'
      · rw [hlaid.other key fun g hg => hkey g (List.mem_cons_of_mem _ hg)]
        exact hother (hkey f (List.mem_cons_self ..) hk)
    · refine ⟨hlaid.neat, hlaid.keys, fun g hg hkind => ?_,
        fun key hkey => hlaid.other key fun g hg => hkey g (List.mem_cons_of_mem _ hg)⟩
      rcases List.mem_cons.1 hg with rfl | hg
      · exact .inr ⟨hself, hplain hkind⟩
      · exact hlaid.merged g hg hkind

/-! ## Held values -/

open MemoryStore (setPaths applyUpdate)

section Held

variable {key : String} {segments : List String} {v : Value} {d d' : Document}

theorem held_setSegments (h : Held (Record.get? d key)) (hv : v ≠ .null)
    (hset : setSegments segments v d = .ok d') : Held (Record.get? d' key) := by
  rcases segments with _ | ⟨a, _ | ⟨b, rest⟩⟩
  · cases hset
    exact h
  · cases hset
    exact h.put hv
  · rw [setSegments.eq_def] at hset
    dsimp only at hset
    split at hset
    · obtain ⟨inner, -, hset⟩ := bind_eq_ok hset
      cases hset
      exact h.put (by simp)
    · obtain ⟨inner, -, hset⟩ := bind_eq_ok hset
      cases hset
      exact h.put (by simp)
    · cases hset

theorem held_unsetSegments (h : Held (Record.get? d key)) (hne : segments ≠ [key]) :
    Held (Record.get? (unsetSegments segments d) key) := by
  rcases segments with _ | ⟨a, _ | ⟨b, rest⟩⟩
  · exact h
  · rw [unsetSegments, Record.get?_erase, if_neg fun ha => hne (by rw [ha])]
    exact h
  · rw [unsetSegments.eq_def]
    dsimp only
    split
    · exact h.put (by simp)
    · exact h

theorem held_setPaths {fs : List (String × Value)} (h : Held (Record.get? d key))
    (hfs : ∀ e ∈ fs, e.2 ≠ .null) (hset : setPaths fs d = .ok d') : Held (Record.get? d' key) := by
  induction fs generalizing d with
  | nil =>
    cases hset
    exact h
  | cons e rest ih =>
    obtain ⟨path, v⟩ := e
    rw [setPaths] at hset
    obtain ⟨d₁, hd₁, hset⟩ := bind_eq_ok hset
    exact ih (held_setSegments h (hfs (path, v) (List.mem_cons_self ..)) hd₁)
      (fun e he => hfs e (List.mem_cons_of_mem _ he)) hset

theorem held_unsetPaths {paths : List String} (h : Held (Record.get? d key)) (hnot : key ∉ paths) :
    Held (Record.get? (paths.foldl unsetPath d) key) := by
  induction paths generalizing d with
  | nil => exact h
  | cons path rest ih =>
    refine ih (held_unsetSegments h fun hpath => hnot ?_) fun hm => hnot (List.mem_cons_of_mem _ hm)
    exact Text.eq_of_split hpath ▸ List.mem_cons_self ..

/-- The keys that an update removes are those that it names. -/
theorem mem_of_mem_unsetKeys {unset : List String}
    (h : key ∈ Record.keys (Record.ofEntries (unset.map fun key => (key, Value.text "")))) :
    key ∈ unset := by
  obtain ⟨e, he, rfl⟩ := List.mem_map.1 h
  obtain ⟨k, hk, rfl⟩ := List.mem_map.1 (Record.mem_ofEntries he)
  exact hk

/-- **A held value stays held** by an update that writes no null and does not remove it. -/
theorem held_applyUpdate {changes : Option Document} {unset : List String}
    (h : Held (Record.get? d key)) (hchanges : ∀ e ∈ changes.getD [], e.2 ≠ .null)
    (hunset : key ∉ unset) (hupdate : applyUpdate (.object (Executor.updateParts changes unset)) d =
      .ok d') :
    Held (Record.get? d' key) := by
  rw [applyUpdate_updateParts] at hupdate
  obtain ⟨d₁, hd₁, hupdate⟩ := bind_eq_ok hupdate
  cases hupdate
  exact held_unsetPaths (held_setPaths h hchanges hd₁) fun hm => hunset (mem_of_mem_unsetKeys hm)

end Held

/-! ## Updates under single segments -/

theorem get?_unsetPaths_of_isSegment {paths : List String} (h : ∀ path ∈ paths, IsSegment path)
    (d : Document) (key : String) : Record.get? (paths.foldl unsetPath d) key =
      if key ∈ paths then none else Record.get? d key := by
  induction paths generalizing d with
  | nil => rw [List.foldl_nil, if_neg List.not_mem_nil]
  | cons path rest ih =>
    have hpath : unsetPath d path = Record.erase d path := by
      rw [unsetPath, Text.segments_of_isSegment (h path (List.mem_cons_self ..))]
      rfl
    rw [List.foldl_cons, ih fun q hq => h q (List.mem_cons_of_mem _ hq), hpath, Record.get?_erase]
    by_cases hrest : key ∈ rest
    · rw [if_pos hrest, if_pos (List.mem_cons_of_mem _ hrest)]
    · rw [if_neg hrest]
      by_cases hkey : path = key
      · rw [if_pos hkey, if_pos (hkey ▸ List.mem_cons_self ..)]
      · rw [if_neg hkey, if_neg fun hm =>
          (List.mem_cons.1 hm).elim (fun heq => hkey heq.symm) hrest]

/-- **An update under single segments** lays the changes over the document and removes keys. -/
theorem get?_applyUpdate_of_isSegment {changes : Option Document} {unset : List String}
    {d d' : Document} (hkeys : (Record.keys (changes.getD [])).Nodup)
    (hchanges : ∀ e ∈ changes.getD [], IsSegment e.1) (hunset : ∀ key ∈ unset, IsSegment key)
    (h : applyUpdate (.object (Executor.updateParts changes unset)) d = .ok d') (key : String) :
    Record.get? d' key = (Record.get? (changes.getD []) key).or (Record.get? d key) ∨
      key ∈ unset ∧ Record.get? d' key = none := by
  rw [applyUpdate_updateParts, setPaths_eq_merge hchanges] at h
  cases h
  rw [get?_unsetPaths_of_isSegment fun path hpath => hunset path (mem_of_mem_unsetKeys hpath)]
  split
  · rename_i hmem
    exact .inr ⟨mem_of_mem_unsetKeys hmem, rfl⟩
  · exact .inl (Record.get?_merge hkeys d key)

/-! ## Revised documents -/

/-- **What is known of the parts that an update lays over a document** with objects where `has`
says: their own parts are as `Q` says, and they are, too, unless they go over an object, of which
`N` is known. -/
def Registry.Laid (r : Registry) (Q N : Descriptor → Document → Prop) (has : FieldDef → Prop) :
    OfParts :=
  fun f e inner => Neat inner ∧ N e inner ∧ r.PartsAre Q e inner ∧
    (Q e inner ∨ f.kind = .ok .embeddedObject ∧ has f)

namespace Assembled

variable {r : Registry} {has : FieldDef → Prop} {d : Descriptor} {link : Option ParentLink}
  {args : Document} {taken : List FieldDef} {made : Materialized}
  {current changes before after : Document}

theorem getD_ite_isEmpty (changes : Document) :
    (if changes.isEmpty then none else some changes).getD [] = changes := by
  cases changes <;> rfl

/-- **Required values stay held** by an update that removes none of their keys. -/
theorem held_applyUpdate {P : OfParts} (h : Assembled r P d link args taken made)
    (hmerge : Executor.mergeEmbedded current d.entity.fields made.document = .ok changes)
    {key : String} (hunset : key ∉ made.unset) (hbefore : Held (Record.get? before key))
    (hupdate : applyUpdate (.object (Executor.updateParts
      (if changes.isEmpty then none else some changes) made.unset)) before = .ok after) :
    Held (Record.get? after key) := by
  refine EntityGraph.held_applyUpdate hbefore (fun e he => ?_) hunset hupdate
  rw [getD_ite_isEmpty] at he
  exact ((laidOver_mergeEmbedded d.entity.names_nodup hmerge).neat h.neat).values e he

/-- **What is found after an update**: the changes, what was there before, or nothing under a key
that was removed. -/
theorem get?_after {P : OfParts} (h : Assembled r P d link args taken made)
    (hmerge : Executor.mergeEmbedded current d.entity.fields made.document = .ok changes)
    (hnamed : ∀ f ∈ d.entity.fields, IsSegment f.documentKey ∧ IsSegment f.storedKey)
    (hlink : ∀ l, link = some l → IsSegment l.1)
    (hupdate : applyUpdate (.object (Executor.updateParts
      (if changes.isEmpty then none else some changes) made.unset)) before = .ok after)
        (key : String) :
    Record.get? after key = (Record.get? changes key).or (Record.get? before key) ∨
      key ∈ made.unset ∧ Record.get? after key = none := by
  have hlaid := laidOver_mergeEmbedded d.entity.names_nodup hmerge
  have hkeys : (Record.keys ((if changes.isEmpty then none else some changes).getD [])).Nodup := by
    rw [getD_ite_isEmpty]
    exact (hlaid.neat h.neat).keys
  have hget := get?_applyUpdate_of_isSegment hkeys (fun e he => ?_) (fun k hk => ?_) hupdate key
  · rwa [getD_ite_isEmpty] at hget
  · rw [getD_ite_isEmpty] at he
    have hkey : e.1 ∈ Record.keys changes := List.mem_map_of_mem he
    rw [hlaid.keys] at hkey
    obtain ⟨e', he', hsame⟩ := List.mem_map.1 hkey
    rw [← hsame]
    rcases h.entries e' he' with ⟨f, hf, -, -, -, -, hk⟩ | hl
    · rw [hk]
      exact (hnamed f hf).1
    · exact hlink e' hl
  · obtain ⟨f, hf, -, -, rfl, -⟩ := h.unset k hk
    exact (hnamed f hf).2

/-- What is found after an update was there before or is what was made, or an object stands for the
object that was made. -/
theorem found_after {P : OfParts} (h : Assembled r P d link args taken made)
    (hmerge : Executor.mergeEmbedded current d.entity.fields made.document = .ok changes)
    (hnamed : ∀ f ∈ d.entity.fields, IsSegment f.documentKey ∧ IsSegment f.storedKey)
    (hlink : ∀ l, link = some l → IsSegment l.1)
    (hupdate : applyUpdate (.object (Executor.updateParts
      (if changes.isEmpty then none else some changes) made.unset)) before = .ok after)
        {key : String} {v : Value}
    (hv : Record.get? after key = some v) :
    Record.get? before key = some v ∨ Record.get? made.document key = some v ∨
      ∃ a b, Record.get? made.document key = some (.object a) ∧ v = .object b := by
  rcases h.get?_after hmerge hnamed hlink hupdate key with hget | ⟨-, hnone⟩
  · rw [hget, Option.or_eq_some_iff] at hv
    rcases hv with hchange | ⟨-, hold⟩
    · exact .inr ((laidOver_mergeEmbedded d.entity.names_nodup hmerge).get?_cases hchange)
    · exact .inl hold
  · cases hnone.symm.trans hv

section Parts

variable {Q N : Descriptor → Document → Prop}
  (h : Assembled r (r.Laid Q N has) d link args taken made)
  (hmerge : Executor.mergeEmbedded current d.entity.fields made.document = .ok changes)
  (hnamed : ∀ f ∈ d.entity.fields, IsSegment f.documentKey ∧ IsSegment f.storedKey)
  (hlink : ∀ l, link = some l → IsSegment l.1) (hupdate : applyUpdate (.object (Executor.updateParts
    (if changes.isEmpty then none else some changes) made.unset)) before = .ok after)

include h hmerge hnamed hlink hupdate in
/-- **Parts stay as `Q` says**: what an update lays over objects is merged with them, and the rest
is so by itself. -/
theorem parts_applyUpdate
    (hover : ∀ e old new, Q e old → Neat new → N e new → Q e (Record.merge old new))
    (hhas : ∀ f, has f → ∃ old, Record.get? current f.name = some (.object old))
    (hcurrent : r.PartsAre Q d current) (hbefore : r.PartsAre Q d before) :
    r.PartsAre Q d after := by
  intro f e inner hpart
  obtain ⟨v, hv, -⟩ := hpart.composed
  have hlaid := laidOver_mergeEmbedded d.entity.names_nodup hmerge
  rcases h.get?_after hmerge hnamed hlink hupdate f.name with hget | ⟨-, hnone⟩
  · rcases hchange : Record.get? changes f.name with _ | w
    · rw [hchange, Option.none_or] at hget
      exact hbefore f e inner (hpart.congr hget.symm)
    rw [hchange, Option.some_or] at hget
    have hpart := hpart.congr (hchange.trans hget.symm)
    cases hpart with
    | object hf hid hk he hobject =>
      rcases hlaid.merged f hf hk with ⟨new, old, hnew, hold, hmerged⟩ | ⟨hsame, hmissing⟩
      · rw [hmerged] at hobject
        cases hobject
        obtain ⟨hneat, hknown, hparts, -⟩ := h.parts f e new (.object hf hid hk he hnew)
        have hstored := hcurrent f e old (.object hf hid hk he hold)
        exact hstored.merge hneat hparts (hover e old new hstored.here hneat hknown)
      · rw [hsame] at hobject
        obtain ⟨-, -, hparts, hwhole | ⟨-, hkept⟩⟩ :=
          h.parts f e inner (.object hf hid hk he hobject)
        · exact .intro hwhole hparts
        · obtain ⟨old, hold⟩ := hhas f hkept
          rw [hmissing old hold] at hobject
          cases hobject
    | item hf hid hk he hlist hitem =>
      rw [hlaid.other f.name fun g hg hkind hname => ?_] at hlist
      · obtain ⟨-, -, hparts, hwhole | ⟨hkind, -⟩⟩ :=
          h.parts f e inner (.item hf hid hk he hlist hitem)
        · exact .intro hwhole hparts
        · rw [hk] at hkind
          cases hkind
      · obtain rfl := List.inj_on_of_nodup_map d.entity.names_nodup hg hf hname
        rw [hk] at hkind
        cases hkind
  · rw [hnone] at hv
    cases hv

end Parts

/-- **An object stays an object** by an update that does not remove it. -/
theorem object_applyUpdate {P : OfParts} (h : Assembled r P d link args taken made)
    (hmerge : Executor.mergeEmbedded current d.entity.fields made.document = .ok changes)
    (hnamed : ∀ f ∈ d.entity.fields, IsSegment f.documentKey ∧ IsSegment f.storedKey)
    (hlink : ∀ l, link = some l → IsSegment l.1)
    (hupdate : applyUpdate (.object (Executor.updateParts
      (if changes.isEmpty then none else some changes) made.unset)) before = .ok after)
    {f : FieldDef} (hf : f ∈ d.entity.fields) (hk : f.kind = .ok .embeddedObject)
    (hunset : f.name ∉ made.unset)
      (hcurrent : ∃ old, Record.get? current f.name = some (.object old))
    (hbefore : ∃ old, Record.get? before f.name = some (.object old)) :
    ∃ new, Record.get? after f.name = some (.object new) := by
  have hlaid := laidOver_mergeEmbedded d.entity.names_nodup hmerge
  rcases h.get?_after hmerge hnamed hlink hupdate f.name with hget | ⟨hmem, -⟩
  · rcases hlaid.merged f hf hk with ⟨new, old, -, -, hmerged⟩ | ⟨hsame, hmissing⟩
    · exact ⟨_, by rw [hget, hmerged, Option.some_or]⟩
    · obtain ⟨old, hold⟩ := hcurrent
      obtain ⟨stored, hstored⟩ := hbefore
      exact ⟨stored, by rw [hget, hsame, hmissing old hold, Option.none_or, hstored]⟩
  · exact absurd hmem hunset

end Assembled

end EntityGraph
