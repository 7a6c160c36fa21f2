import EntityGraph.Proofs.Requirements

/-!
# Whole documents made from arguments

Making a document walks the fields, and what it has put in so far is known at every step
(`Assembled`): no key occurs twice, no value is null, a required argument that was given is held,
and the parts are documents that were made in the same way. So a document made from arguments that
supply what is required is whole, at every depth (`Materializer.moves_materialize_whole`).
-/

namespace EntityGraph

variable {τ S : Type}

/-! ## Documents while they are made -/

/-- **A neat document** has no key twice and no null value. -/
structure Neat (d : Document) : Prop where
  keys : (Record.keys d).Nodup
  values : ∀ e ∈ d, e.2 ≠ .null

theorem Neat.nil : Neat [] where
  keys := List.nodup_nil
  values := fun _ h => absurd h List.not_mem_nil

theorem Neat.put {d : Document} (h : Neat d) (key : String) {v : Value} (hv : v ≠ .null) :
    Neat (Record.put d key v) where
  keys := Record.nodup_keys_put h.keys key v
  values := fun e he => by
    rcases Record.mem_put he with he | rfl
    · exact h.values e he
    · exact hv

/-- What is there in a neat document is held. -/
theorem Neat.held {d : Document} (h : Neat d) {key : String} {v : Value}
    (hv : Record.get? d key = some v) :
    Held (Record.get? d key) := ⟨v, hv, h.values _ (Record.mem_of_get?_eq_some hv)⟩

/-- What can be known of the parts of a document, by the fields under which they are. -/
abbrev OfParts : Type := FieldDef → Descriptor → Document → Prop

/-- **What is made from the argument `v` of a field**: no null, a scalar as it is converted, a
reference, and where the field embeds objects what `Q` says. -/
structure MadeFor (r : Registry) (Q : OfParts) (f : FieldDef) (v w : Value) : Prop where
  value : w ≠ .null
  stored : f.kind ≠ .ok .referencedList
  scalar : f.kind = .ok .scalar → coerceScalar f v = .ok w
  reference : f.kind = .ok .referencedObject → ∃ o, w = .id o
  object : f.kind = .ok .embeddedObject → ∀ e, r.lookup (f.target.getD "") = .ok e →
    ∀ inner, w = .object inner → Q f e inner
  items : f.kind = .ok .embeddedList → ∀ e, r.lookup (f.target.getD "") = .ok e →
    ∀ items, w = .list items → ∀ inner, Value.object inner ∈ items → Q f e inner

namespace MadeFor

variable {r : Registry} {Q : OfParts} {f : FieldDef} {e : Descriptor} {v w : Value}

/-- A value of a field that embeds nothing and refers to nothing. -/
theorem leaf {kind : FieldKind} (hk : f.kind = .ok kind)
    (hkind : kind = .scalar ∨ kind = .enumeration ∨ kind = .scalarList) (hw : w ≠ .null)
    (hscalar : kind = .scalar → coerceScalar f v = .ok w) : MadeFor r Q f v w := by
  refine ⟨hw, fun h => ?_, fun h => hscalar (Except.ok.inj (hk.symm.trans h)), fun h => ?_, fun h =>
    ?_, fun h => ?_⟩ <;>
    · obtain rfl := Except.ok.inj (hk.symm.trans h)
      simp at hkind

theorem ofReference (hk : f.kind = .ok .referencedObject) (o : ObjectId) :
    MadeFor r Q f v (.id o) := by
  refine ⟨by simp, fun h => ?_, fun h => ?_, fun _ => ⟨o, rfl⟩, fun h => ?_, fun h => ?_⟩ <;>
    cases hk.symm.trans h

theorem ofObject (hk : f.kind = .ok .embeddedObject) (he : r.lookup (f.target.getD "") = .ok e)
    {inner : Document} (hinner : Q f e inner) : MadeFor r Q f v (.object inner) := by
  refine
    ⟨by simp, fun h => ?_, fun h => ?_, fun h => ?_, fun _ e' he' inner' heq => ?_, fun h => ?_⟩
  · cases hk.symm.trans h
  · cases hk.symm.trans h
  · cases hk.symm.trans h
  · obtain rfl := Except.ok.inj (he.symm.trans he')
    cases heq
    exact hinner
  · cases hk.symm.trans h

theorem ofItems (hk : f.kind = .ok .embeddedList) (he : r.lookup (f.target.getD "") = .ok e)
    {items : List Value} (hitems : ∀ inner, Value.object inner ∈ items → Q f e inner) :
    MadeFor r Q f v (.list items) := by
  refine
    ⟨by simp, fun h => ?_, fun h => ?_, fun h => ?_, fun h => ?_, fun _ e' he' items' heq => ?_⟩
  · cases hk.symm.trans h
  · cases hk.symm.trans h
  · cases hk.symm.trans h
  · cases hk.symm.trans h
  · obtain rfl := Except.ok.inj (he.symm.trans he')
    cases heq
    exact hitems

end MadeFor

/-- **A document while it is made** for the entity `d`, from the arguments of the fields `taken` so
far and perhaps a link: `Q` is known of its parts. -/
structure Assembled (r : Registry) (Q : OfParts) (d : Descriptor) (link : Option ParentLink)
    (args : Document) (taken : List FieldDef) (made : Materialized) : Prop where
  neat : Neat made.document
  entries : ∀ e ∈ made.document, (∃ f ∈ d.entity.fields, f.isIdentifier = false ∧
    ∃ v, Record.get? args f.name = some v ∧ MadeFor r Q f v e.2 ∧ e.1 = f.documentKey) ∨
    link = some e
  unset : ∀ key ∈ made.unset, ∃ f ∈ d.entity.fields, f.isIdentifier = false ∧ f.nullable = true ∧
    key = f.storedKey ∧ Record.get? args f.name = some .null
  parts : ∀ f e inner, r.Part d made.document f e inner → Q f e inner
  held : ∀ f ∈ taken, d.Requires f → Given (Record.get? args f.name) →
    Held (Record.get? made.document f.documentKey)

namespace Assembled

variable {r : Registry} {Q : OfParts} {d : Descriptor} {link : Option ParentLink} {args : Document}
  {taken : List FieldDef} {made : Materialized} {f : FieldDef}

theorem nil (r : Registry) (Q : OfParts) (d : Descriptor) (args : Document) :
    Assembled r Q d none args [] ⟨[], []⟩ where
  neat := Neat.nil
  entries := fun _ h => absurd h List.not_mem_nil
  unset := fun _ h => absurd h List.not_mem_nil
  parts := fun f e inner hpart => by
    obtain ⟨v, hv, -⟩ := hpart.composed
    cases hv
  held := fun _ h => absurd h List.not_mem_nil

/-- A field that puts nothing in, because its argument counts as absent. -/
theorem skip (h : Assembled r Q d link args taken made)
    (hf : d.Requires f → ¬ Given (Record.get? args f.name)) :
    Assembled r Q d link args (taken ++ [f]) made where
  neat := h.neat
  entries := h.entries
  unset := h.unset
  parts := h.parts
  held := fun g hg hrequired hgiven => by
    rcases List.mem_append.1 hg with hg | hg
    · exact h.held g hg hrequired hgiven
    · obtain rfl := List.mem_singleton.1 hg
      exact absurd hgiven (hf hrequired)

/-- A null argument that is noted. -/
theorem note (h : Assembled r Q d link args taken made) (hf : f ∈ d.entity.fields)
    (hnull : f.IsNulled (.object args)) :
    Assembled r Q d link args (taken ++ [f])
    { made with unset := made.unset ++ [f.storedKey] } where
  neat := h.neat
  entries := h.entries
  unset := fun key hkey => by
    rcases List.mem_append.1 hkey with hkey | hkey
    · exact h.unset key hkey
    · obtain rfl := List.mem_singleton.1 hkey
      exact ⟨f, hf, hnull.1, hnull.2.1, rfl, hnull.2.2⟩
  parts := h.parts
  held := (h.skip fun _ ⟨v, hv, hpresent⟩ => by
    obtain rfl := Option.some.inj (hnull.2.2.symm.trans hv)
    cases hpresent).held

/-- Where a part is after a value was put in for a field. -/
theorem part_put (h : ∀ f e inner, r.Part d made.document f e inner → Q f e inner)
    (hf : f ∈ d.entity.fields) {v w : Value} (hw : MadeFor r Q f v w) {g : FieldDef}
    {e : Descriptor} {inner : Document}
    (hpart : r.Part d (Record.put made.document f.documentKey w) g e inner) : Q g e inner := by
  by_cases hk : f.kind = .ok .referencedObject
  · obtain ⟨o, rfl⟩ := hw.reference hk
    exact h g e inner (hpart.of_put rfl)
  rw [FieldDef.documentKey_of_ne hk] at hpart
  by_cases hname : f.name = g.name
  · obtain rfl := List.inj_on_of_nodup_map d.entity.names_nodup hf hpart.mem hname
    cases hpart with
    | object _ _ hobject he hget =>
      rw [Record.get?_put_self] at hget
      exact hw.object hobject e he inner (Option.some.inj hget)
    | item _ _ hlist he hget hitem =>
      rw [Record.get?_put_self] at hget
      exact hw.items hlist e he _ (Option.some.inj hget) inner hitem
  · exact h g e inner (hpart.congr (by rw [Record.get?_put, if_neg hname]))

/-- A value that is put in for a field. -/
theorem put (h : Assembled r Q d link args taken made) (hf : f ∈ d.entity.fields)
    (hid : f.isIdentifier = false) {v w : Value} (hv : Record.get? args f.name = some v)
    (hw : MadeFor r Q f v w) :
    Assembled r Q d link args (taken ++ [f]) (Materializer.put made f.documentKey w) where
  neat := h.neat.put _ hw.value
  entries := fun e he => by
    rcases Record.mem_put he with he | rfl
    · exact h.entries e he
    · exact .inl ⟨f, hf, hid, v, hv, hw, rfl⟩
  unset := h.unset
  parts := fun g e inner => part_put h.parts hf hw
  held := fun g hg hrequired hgiven => by
    rcases List.mem_append.1 hg with hg | hg
    · exact (h.held g hg hrequired hgiven).put hw.value
    · obtain rfl := List.mem_singleton.1 hg
      exact ⟨w, Record.get?_put_self .., hw.value⟩

/-- The link to the parent is put in last. -/
theorem linked (h : Assembled r Q d none args taken made) {l : ParentLink} (hkey : l.2.isKey = true)
    (hnull : l.2 ≠ .null) :
    Assembled r Q d (some l) args taken
      { made with document := Record.put made.document l.1 l.2 } where
  neat := h.neat.put _ hnull
  entries := fun e he => by
    rcases Record.mem_put he with he | rfl
    · exact .inl ((h.entries e he).resolve_right fun hnone => by cases hnone)
    · exact .inr rfl
  unset := h.unset
  parts := fun g e inner hpart => h.parts g e inner (hpart.of_put hkey)
  held := fun g hg hrequired hgiven => (h.held g hg hrequired hgiven).put hnull

end Assembled

/-! ## Making documents -/

/-- A number or a text becomes a moment. -/
theorem exists_moment_of_single {type : String} {v w : Value}
    (h : coerceMoment.single type v = .ok w) :
    ∃ m, w = .moment m := by
  unfold coerceMoment.single at h
  split at h <;> cases h
  exact ⟨_, rfl⟩

/-- Conversion to moments makes null of nothing else. -/
theorem coerceMoment_ne_null {type : String} {v w : Value} (hv : v ≠ .null)
    (h : coerceMoment type v = .ok w) :
    w ≠ .null := by
  have hsingle : ∀ u, coerceMoment.single type u = .ok w → w ≠ .null := fun u hu => by
    obtain ⟨m, rfl⟩ := exists_moment_of_single hu
    simp
  cases v with
  | null => exact absurd rfl hv
  | list items =>
    rw [coerceMoment] at h
    obtain ⟨ws, -, h⟩ := bind_eq_ok h
    cases h
    simp
  | moment m =>
    rw [coerceMoment] at h
    cases h
    simp
  | int i => exact hsingle _ (by rwa [coerceMoment] at h)
  | float x => exact hsingle _ (by rwa [coerceMoment] at h)
  | text s => exact hsingle _ (by rwa [coerceMoment] at h)
  | _ =>
    rw [coerceMoment] at h
    cases h

/-- Conversion never makes null of what is given. -/
theorem coerceScalar_ne_null {f : FieldDef} {v w : Value} (hv : v.isEmpty = false)
    (h : coerceScalar f v = .ok w) : w ≠ .null := by
  have hnull : v ≠ .null := by
    rintro rfl
    cases hv
  rw [coerceScalar.eq_def] at h
  split at h
  · cases h
    simp [stateName]
  split at h
  · obtain ⟨o, -, h⟩ := bind_eq_ok h
    cases h
    simp
  split at h
  · exact coerceMoment_ne_null hnull h
  · cases h
    exact hnull

namespace Materializer

/-- Validators of entities accept or refuse, and return the document that they are given. -/
def LeavesDocuments (m : Materializer τ S) : Prop :=
  ∀ entity args d, Moves (fun _ _ => True) (fun d' => d' = d) (m.checkEntity entity args d)

variable {m : Materializer τ S} {Q : OfParts} {d : Descriptor} {fs : Document}

/-- Each object among the items becomes a document. -/
theorem moves_materializeItems_made {f : FieldDef} {e : Descriptor} {items : List Value}
    (hQ : ∀ g, Value.object g ∈ items →
      Moves (fun _ _ => True) (fun made => Q f e made.document)
      (m.materialize e.entity none (.object g))) :
    Moves (fun _ _ => True) (fun ds => ∀ inner, Value.object inner ∈ ds → Q f e inner)
      (m.materializeItems f e.entity items) := by
  induction items with
  | nil =>
    rw [materializeItems]
    exact Moves.pure_any fun _ h => absurd h List.not_mem_nil
  | cons v rest ih =>
    cases v with
    | object g =>
      rw [materializeItems]
      refine Moves.bind_any (hQ g (List.mem_cons_self ..)) fun made hmade => ?_
      refine Moves.bind_any (ih fun g' hg' => hQ g' (List.mem_cons_of_mem _ hg')) fun ds hds => ?_
      refine Moves.pure_any fun inner hinner => ?_
      rcases List.mem_cons.1 hinner with heq | hinner
      · cases heq
        exact hmade
      · exact hds inner hinner
    | _ =>
      rw [materializeItems.eq_def]
      exact Moves.throw_any _

/-- **The argument of a field** is put in, but for the changes of a list of related documents. -/
theorem moves_materializeValue_made {f : FieldDef} (hf : f ∈ d.entity.fields)
    (hid : f.isIdentifier = false) {v : Value} (hv : Record.get? fs f.name = some v)
    (hempty : v.isEmpty = false) (hQ : ∀ f e g, m.registry.Part d fs f e g →
      Moves (fun _ _ => True) (fun made => Q f e made.document)
      (m.materialize e.entity none (.object g)))
    (r : Materialized) :
    Moves (fun _ _ => True)
      (fun r' => (f.kind = .ok .referencedList ∧ r' = r) ∨
        ∃ w, MadeFor m.registry Q f v w ∧ r' = put r f.documentKey w)
          (m.materializeValue f v r) := by
  refine (moves_materializeValue_becomes (fun _ => trivial) (fun _ _ _ _ _ => trivial)
    (fun e _ made => Q f e made.document) (fun e _ ds => ∀ inner, Value.object inner ∈ ds →
    Q f e inner) (fun g e hk hg he => hQ f e g (.object hf hid hk he (hg ▸ hv)))
    (fun items e hk hitems he => moves_materializeItems_made fun g hg =>
    hQ f e g (.item hf hid hk he (hitems ▸ hv) hg)) r).mono (fun _ _ => id) fun r' h => ?_
  have hput : ∀ {kind w}, f.kind = .ok kind → kind ≠ .referencedObject →
    MadeFor m.registry Q f v w →
      ∃ w', MadeFor m.registry Q f v w' ∧ put r f.name w = put r f.documentKey w' :=
      fun hk hne hw =>
    ⟨_, hw, by rw [FieldDef.documentKey_of_kind hk hne]⟩
  cases h with
  | scalar hk hw =>
    exact .inr (hput hk (by decide) (.leaf hk (.inl rfl) (coerceScalar_ne_null hempty hw) fun _ =>
      hw))
  | enumeration hk hw =>
    exact .inr (hput hk (by decide)
      (.leaf hk (.inr (.inl rfl)) (coerceScalar_ne_null hempty hw) nofun))
  | scalarList hk => exact .inr (hput hk (by decide) (.leaf hk (.inr (.inr rfl)) (by simp) nofun))
  | @referencedObject _ o hk =>
    exact .inr ⟨.id o, .ofReference hk o, by rw [FieldDef.documentKey_of_reference hk]⟩
  | embeddedObject hk he hmade => exact .inr (hput hk (by decide) (.ofObject hk he hmade))
  | embeddedList hk he hds => exact .inr (hput hk (by decide) (.ofItems hk he hds))
  | referencedList hk => exact .inl ⟨hk, rfl⟩

/-- **Walking the fields** assembles a document. The fields are those that were taken and those that
are left. -/
theorem moves_materializeFields_assembled (entity : String)
    (hQ : ∀ f e g, m.registry.Part d fs f e g →
      Moves (fun _ _ => True) (fun made => Q f e made.document)
      (m.materialize e.entity none (.object g))) :
    Moves (fun _ _ => True) (Assembled m.registry Q d none fs d.entity.fields)
      (m.materializeFields entity (.object fs) d.entity.fields ⟨[], []⟩) := by
  refine Moves.mono (moves_materializeFields_any (P := fun rest made =>
    ∃ taken, taken ++ rest = d.entity.fields ∧
    Assembled m.registry Q d none fs taken made) (fun f hf rest made hmade => ?_)
    ⟨[], rfl, Assembled.nil m.registry Q d fs⟩) (fun _ _ => id)
    fun made ⟨taken, htaken, hmade⟩ => (List.append_nil taken).symm.trans htaken ▸ hmade
  obtain ⟨taken, htaken, hmade⟩ := hmade
  rw [List.append_cons] at htaken
  refine moves_materializeField (fun _ => trivial) (fun hskip _ =>
    ⟨_, htaken, hmade.skip fun hrequired hgiven => ?_⟩) (fun hnull =>
      ⟨_, htaken, hmade.note hf hnull⟩) fun v hid hv => ?_
  · obtain ⟨v, hv, hpresent⟩ := hgiven
    rcases hskip with hid | hnone
    · cases hrequired.2.plain.symm.trans hid
    · cases hnone.symm.trans (presentArgument?_eq_some.2 ⟨hv, hpresent⟩)
  · obtain ⟨hget, hpresent⟩ := presentArgument?_eq_some.1 hv
    refine (moves_materializeValue_made hf hid hget hpresent hQ made).mono (fun _ _ => id) ?_
    rintro made' (⟨hk, rfl⟩ | ⟨w, hw, rfl⟩)
    · refine ⟨_, htaken, hmade.skip fun hrequired => ?_⟩
      rcases hrequired.2.single with h | h | h <;> cases hk.symm.trans h
    · exact ⟨_, htaken, hmade.put hf hid hget hw⟩

/-- **Making a document** from arguments, when `Q` is known of what is made from their parts. -/
theorem moves_materialize_assembled (hm : m.LeavesDocuments)
    (hQ : ∀ f e g, m.registry.Part d fs f e g →
      Moves (fun _ _ => True) (fun made => Q f e made.document)
      (m.materialize e.entity none (.object g)))
    {link : Option ParentLink} (hlink : ∀ l, link = some l → l.2.isKey = true ∧ l.2 ≠ .null) :
    Moves (fun _ _ => True) (Assembled m.registry Q d link fs d.entity.fields)
      (m.materialize d.entity link (.object fs)) := by
  rw [materialize]
  refine Moves.bind_any (moves_materializeFields_assembled d.entity.name hQ) fun r hr => ?_
  refine Moves.bind_any (hm _ _ _) fun d' hd' => Moves.pure_any ?_
  subst hd'
  rcases link with _ | l
  · exact hr
  · obtain ⟨hkey, hnull⟩ := hlink l rfl
    exact hr.linked hkey hnull

/-- **A whole document is made** from arguments that supply what is required. -/
theorem moves_materialize_whole (hm : m.LeavesDocuments) (hs : m.registry.Supplies d fs)
    {link : Option ParentLink} (hlink : ∀ l, link = some l → l.2.isKey = true ∧ l.2 ≠ .null) :
    Moves (fun _ _ => True) (fun made => m.registry.Whole d made.document ∧ Neat made.document)
      (m.materialize d.entity link (.object fs)) := by
  induction hs generalizing link with
  | @intro d fs required _ ih =>
    have hmade :=
      moves_materialize_assembled (Q := fun _ e inner => m.registry.Whole e inner ∧ Neat inner) hm
        (fun f e g hpart => ih f e g hpart (fun _ h => by cases h)) hlink
    refine hmade.mono (fun _ _ => id) fun made h =>
      ⟨.intro ?_ fun f e inner hpart => (h.parts f e inner hpart).1, h.neat⟩
    exact fun f hf => h.held f hf.1 hf (required f hf)

end Materializer

end EntityGraph
