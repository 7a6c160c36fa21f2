import EntityGraph.Proofs.Revisions

/-!
# What documents are made of

The document that arguments make can be told without the walk that makes it. Field by field, in the
order of the entity, a field whose argument is present puts what its kind makes of the argument
(`Registry.Yields`) under the key that documents keep it under, and every other field leaves the
document as it is (`Registry.Composes`). A null for a nullable field is noted beside the document
(`nullKeys`), and a link to the parent goes on top. Validators that leave documents alone have no
part in this: whatever is made is what these relations say (`moves_materialize_makes`).
-/

namespace EntityGraph

variable {τ S : Type}

/-! ## Contents -/

mutual

/-- **What a field makes of its argument**, by the kind of the field. -/
inductive Registry.Yields (r : Registry) : FieldDef → Value → Value → Prop where
  | scalar {f : FieldDef} {v w : Value} (hk : f.kind = .ok .scalar) (h : coerceScalar f v = .ok w) :
      Registry.Yields r f v w
  | enumeration {f : FieldDef} {v w : Value} (hk : f.kind = .ok .enumeration)
    (h : coerceScalar f v = .ok w) :
      Registry.Yields r f v w
  | scalarList {f : FieldDef} {items ws : List Value} (hk : f.kind = .ok .scalarList)
      (h : coerceScalars f items = .ok ws) : Registry.Yields r f (.list items) (.list ws)
  | referencedObject {f : FieldDef} {v : Value} {o : ObjectId} (hk : f.kind = .ok .referencedObject)
      (h : toReference v = .ok o) : Registry.Yields r f v (.id o)
  | embeddedObject {f : FieldDef} {e : Descriptor} {fs doc : Document}
    (hk : f.kind = .ok .embeddedObject)
      (he : r.lookup (f.target.getD "") = .ok e)
      (h : Registry.Composes r (.object fs) e.entity.fields [] doc) :
      Registry.Yields r f (.object fs) (.object doc)
  | embeddedList {f : FieldDef} {e : Descriptor} {items docs : List Value}
    (hk : f.kind = .ok .embeddedList)
      (he : r.lookup (f.target.getD "") = .ok e)
      (h : Registry.ComposesEach r e.entity.fields items docs) :
      Registry.Yields r f (.list items) (.list docs)

/-- **What fields put into a document**, in their order, from arguments. -/
inductive Registry.Composes (r : Registry) : Value → List FieldDef → Document → Document →
    Prop where
  | nil {args : Value} {doc : Document} : Registry.Composes r args [] doc doc
  | pass {args : Value} {f : FieldDef} {rest : List FieldDef} {doc doc' : Document}
      (h : f.isIdentifier = true ∨ presentArgument? f args = none ∨ f.kind = .ok .referencedList)
      (hrest : Registry.Composes r args rest doc doc') :
      Registry.Composes r args (f :: rest) doc doc'
  | put {args v w : Value} {f : FieldDef} {rest : List FieldDef} {doc doc' : Document}
      (hid : f.isIdentifier = false) (hv : presentArgument? f args = some v)
      (hw : Registry.Yields r f v w)
      (hrest : Registry.Composes r args rest (Record.put doc f.documentKey w) doc') :
      Registry.Composes r args (f :: rest) doc doc'

/-- **What the items of an embedded list become**, one by one. -/
inductive Registry.ComposesEach (r : Registry) : List FieldDef → List Value → List Value →
    Prop where
  | nil {fields : List FieldDef} : Registry.ComposesEach r fields [] []
  | cons {fields : List FieldDef} {fs doc : Document} {items docs : List Value}
      (h : Registry.Composes r (.object fs) fields [] doc)
      (hrest : Registry.ComposesEach r fields items docs) :
      Registry.ComposesEach r fields (.object fs :: items) (.object doc :: docs)

end

/-- The keys that are noted for explicit nulls. -/
def nullKeys (args : Value) : List FieldDef → List String
  | [] => []
  | f :: rest =>
    (if !f.isIdentifier && f.nullable && (fieldOf? f.name args).any Value.isNull then
      [f.storedKey] else []) ++ nullKeys args rest

/-- **What is made** for an entity from arguments: what its fields put into a document, with the
link on top, and the keys of explicit nulls. -/
def Registry.Makes (r : Registry) (e : Entity) (link : Option ParentLink) (args : Value)
    (made : Materialized) :
    Prop :=
  ∃ doc, r.Composes args e.fields [] doc ∧
    made = Materializer.linked link ⟨doc, nullKeys args e.fields⟩

theorem FieldDef.isNulled_iff {f : FieldDef} {args : Value} :
    (!f.isIdentifier && f.nullable && (fieldOf? f.name args).any Value.isNull) = true ↔
      f.IsNulled args := by
  have hnull : ∀ o : Option Value, o.any Value.isNull = true ↔ o = some .null := fun o => by
    rcases o with _ | v
    · simp
    · cases v <;> simp [Value.isNull]
  rw [Bool.and_eq_true_iff, Bool.and_eq_true_iff, hnull, FieldDef.IsNulled, Bool.not_eq_true',
    and_assoc]

/-- The keys that are noted are those of nulled fields. -/
theorem mem_nullKeys {args : Value} {fields : List FieldDef} {key : String} :
    key ∈ nullKeys args fields ↔ ∃ f ∈ fields, f.IsNulled args ∧ f.storedKey = key := by
  induction fields with
  | nil => simp [nullKeys]
  | cons f rest ih =>
    rw [nullKeys, List.mem_append, ih]
    by_cases hnull : f.IsNulled args
    · rw [if_pos (FieldDef.isNulled_iff.2 hnull)]
      simp [hnull, eq_comm]
    · rw [if_neg fun h => hnull (FieldDef.isNulled_iff.1 h)]
      simp [hnull]

/-- **What one field does** to what is made already: it passes it on, notes its key, or puts in a
value. -/
inductive Registry.Puts (r : Registry) (args : Value) (f : FieldDef) (made : Materialized) :
    Materialized → Prop where
  | pass (h : f.isIdentifier = true ∨ presentArgument? f args = none ∨ f.kind = .ok .referencedList)
      (hnull : ¬ f.IsNulled args) : Registry.Puts r args f made made
  | note (hnull : f.IsNulled args) :
    Registry.Puts r args f made { made with unset := made.unset ++ [f.storedKey] }
  | put {v w : Value} (hid : f.isIdentifier = false) (hv : presentArgument? f args = some v)
    (hw : r.Yields f v w) :
      Registry.Puts r args f made (Materializer.put made f.documentKey w)

namespace Registry.Puts

variable {r : Registry} {args : Value} {f : FieldDef} {rest : List FieldDef}
  {made made' : Materialized}

theorem composes (h : r.Puts args f made made') {doc : Document}
    (hrest : r.Composes args rest made'.document doc) :
    r.Composes args (f :: rest) made.document doc := by
  cases h with
  | pass h => exact .pass h hrest
  | note hnull => exact .pass (.inr (.inl hnull.presentArgument?)) hrest
  | put hid hv hw => exact .put hid hv hw hrest

theorem unset (h : r.Puts args f made made') :
    made.unset ++ nullKeys args (f :: rest) = made'.unset ++ nullKeys args rest := by
  rw [nullKeys, ← List.append_assoc]
  cases h with
  | pass _ hnull => rw [if_neg (mt FieldDef.isNulled_iff.1 hnull), List.append_nil]
  | note hnull => rw [if_pos (FieldDef.isNulled_iff.2 hnull)]
  | put _ hv =>
    rw [if_neg fun hnull => ?_, List.append_nil]
    · rfl
    · cases (FieldDef.isNulled_iff.1 hnull).presentArgument?.symm.trans hv

end Registry.Puts

/-! ## Making documents -/

namespace Materializer

variable {m : Materializer τ S}

/-- **The argument of a field** is put in as its kind says, but for the changes of a list of related
documents. -/
theorem moves_materializeValue_yields {f : FieldDef} {v : Value}
    (hobject : ∀ fs e, v = .object fs → m.registry.lookup (f.target.getD "") = .ok e →
      Moves (fun _ _ => True) (m.registry.Makes e.entity none (.object fs))
      (m.materialize e.entity none (.object fs)))
    (hitems : ∀ items e, v = .list items → m.registry.lookup (f.target.getD "") = .ok e →
      Moves (fun _ _ => True) (m.registry.ComposesEach e.entity.fields items)
      (m.materializeItems f e.entity items))
    (made : Materialized) :
    Moves (fun _ _ => True)
      (fun made' => (f.kind = .ok .referencedList ∧ made' = made) ∨
        ∃ w, m.registry.Yields f v w ∧ made' = put made f.documentKey w)
          (m.materializeValue f v made) := by
  refine (moves_materializeValue_becomes (fun _ => trivial) (fun _ _ _ _ _ => trivial) _ _
    (fun fs e _ => hobject fs e) (fun items e _ => hitems items e) made).mono (fun _ _ => id)
    fun made' h => ?_
  have hput : ∀ {kind w}, f.kind = .ok kind → kind ≠ .referencedObject → m.registry.Yields f v w →
      ∃ w', m.registry.Yields f v w' ∧ put made f.name w = put made f.documentKey w' :=
      fun hk hne hw =>
    ⟨_, hw, by rw [FieldDef.documentKey_of_kind hk hne]⟩
  cases h with
  | scalar hk hw => exact .inr (hput hk (by decide) (.scalar hk hw))
  | enumeration hk hw => exact .inr (hput hk (by decide) (.enumeration hk hw))
  | scalarList hk hws => exact .inr (hput hk (by decide) (.scalarList hk hws))
  | @referencedObject _ o hk ho =>
    exact .inr ⟨.id o, .referencedObject hk ho, by rw [FieldDef.documentKey_of_reference hk]⟩
  | embeddedObject hk he hinner =>
    obtain ⟨doc, hdoc, rfl⟩ := hinner
    exact .inr (hput hk (by decide) (.embeddedObject hk he hdoc))
  | embeddedList hk he hds => exact .inr (hput hk (by decide) (.embeddedList hk he hds))
  | referencedList hk => exact .inl ⟨hk, rfl⟩

/-- **One field** notes its key when it is nulled, and puts in what it makes of a present
argument. -/
theorem moves_materializeField_puts {args : Value} {f : FieldDef}
    (hobject : ∀ fs e, fieldOf? f.name args = some (.object fs) →
      m.registry.lookup (f.target.getD "") = .ok e →
      Moves (fun _ _ => True) (m.registry.Makes e.entity none (.object fs))
      (m.materialize e.entity none (.object fs)))
    (hitems : ∀ items e, fieldOf? f.name args = some (.list items) →
      m.registry.lookup (f.target.getD "") = .ok e →
      Moves (fun _ _ => True) (m.registry.ComposesEach e.entity.fields items)
      (m.materializeItems f e.entity items))
    (made : Materialized) :
    Moves (fun _ _ => True) (m.registry.Puts args f made) (m.materializeField args f made) := by
  refine moves_materializeField (fun _ => trivial) (fun hskip hnull =>
    .pass (hskip.imp_right .inl) hnull) .note fun v hid hv => ?_
  have hget := (presentArgument?_eq_some.1 hv).1
  refine (moves_materializeValue_yields (fun fs e hfs => hobject fs e (hfs ▸ hget))
    (fun items e hlist => hitems items e (hlist ▸ hget)) made).mono (fun _ _ => id) ?_
  rintro made' (⟨hk, rfl⟩ | ⟨w, hw, rfl⟩)
  · refine .pass (.inr (.inr hk)) fun hnull => ?_
    cases hnull.presentArgument?.symm.trans hv
  · exact .put hid hv hw

mutual

/-- **Whatever is made is what the arguments make**, when validators leave documents alone. -/
theorem moves_materialize_makes (hm : m.LeavesDocuments) (entity : Entity)
    (link : Option ParentLink) (args : Value) :
    Moves (fun _ _ => True) (m.registry.Makes entity link args)
    (m.materialize entity link args) := by
  rw [materialize]
  refine Moves.bind_any (moves_materializeFields_composes hm entity.name args entity.fields _)
    fun made hmade => ?_
  refine Moves.bind_any (hm _ _ _) fun d hd => Moves.pure_any ?_
  refine ⟨made.document, hmade.1, ?_⟩
  rw [hd, ← hmade.2]
  rcases link with _ | ⟨key, parent⟩ <;> rfl
termination_by (sizeOf args, 3, 0)

theorem moves_materializeFields_composes (hm : m.LeavesDocuments) (entity : String) (args : Value) :
    ∀ (fields : List FieldDef) (made : Materialized), Moves (fun _ _ => True)
      (fun made' => m.registry.Composes args fields made.document made'.document ∧
        made.unset ++ nullKeys args fields = made'.unset)
          (m.materializeFields entity args fields made)
  | [], made => by
    rw [materializeFields]
    exact Moves.pure_any ⟨.nil, List.append_nil _⟩
  | f :: rest, made => by
    rw [materializeFields_cons]
    refine Moves.guard_any fun _ => ?_
    refine Moves.bind_any (Moves.any _) fun _ _ => ?_
    refine Moves.bind_any (moves_materializeField_puts (fun fs e hfs he =>
      ?_) (fun items e hitems he => ?_) made) fun made' hputs => ?_
    · have : 1 + sizeOf fs < sizeOf args := Value.object.sizeOf_spec fs ▸ sizeOf_fieldOf?_lt hfs
      exact moves_materialize_makes hm e.entity none (.object fs)
    · have : 1 + sizeOf items < sizeOf args :=
        Value.list.sizeOf_spec items ▸ sizeOf_fieldOf?_lt hitems
      exact moves_materializeItems_composes hm f e.entity items
    · refine (moves_materializeFields_composes hm entity args rest made').mono (fun _ _ => id)
        fun made'' h =>
        ⟨hputs.composes h.1, hputs.unset.trans h.2⟩
termination_by fields => (sizeOf args, 2, fields.length)

theorem moves_materializeItems_composes (hm : m.LeavesDocuments) (f : FieldDef) (entity : Entity) :
    ∀ items : List Value, Moves (fun _ _ => True) (m.registry.ComposesEach entity.fields items)
      (m.materializeItems f entity items)
  | [] => by
    rw [materializeItems]
    exact Moves.pure_any .nil
  | v :: rest => by
    cases v with
    | object fs =>
      rw [materializeItems]
      refine Moves.bind_any (moves_materialize_makes hm entity none (.object fs)) ?_
      rintro _ ⟨doc, hdoc, rfl⟩
      refine Moves.bind_any (moves_materializeItems_composes hm f entity rest)
        fun docs hdocs => Moves.pure_any (.cons hdoc hdocs)
    | _ =>
      rw [materializeItems.eq_def]
      exact Moves.throw_any _
termination_by items => (sizeOf items, 0, 0)

end

end Materializer

/-! ## What is found in a document -/

/-- The changes of a list of related documents are not stored. -/
theorem Registry.Yields.stored {r : Registry} {f : FieldDef} {v w : Value} (h : r.Yields f v w) :
    f.kind ≠ .ok .referencedList := by
  intro hk
  cases h with
  | scalar hk' _ => cases hk.symm.trans hk'
  | enumeration hk' _ => cases hk.symm.trans hk'
  | scalarList hk' _ => cases hk.symm.trans hk'
  | referencedObject hk' _ => cases hk.symm.trans hk'
  | embeddedObject hk' _ _ => cases hk.symm.trans hk'
  | embeddedList hk' _ _ => cases hk.symm.trans hk'

namespace Registry.Composes

variable {r : Registry} {args : Value} {fields : List FieldDef} {doc doc' : Document} {key : String}
  {f : FieldDef}

/-- **Where an entry comes from**: it was there before, or it is what a field makes of its
argument. -/
theorem get?_cases (h : r.Composes args fields doc doc') {w : Value}
    (hw : Record.get? doc' key = some w) :
    Record.get? doc key = some w ∨ ∃ f ∈ fields, f.isIdentifier = false ∧ f.documentKey = key ∧
      ∃ v, presentArgument? f args = some v ∧ r.Yields f v w := by
  induction fields generalizing doc with
  | nil =>
    cases h
    exact .inl hw
  | cons f rest ih =>
    cases h with
    | pass _ hrest =>
      refine (ih hrest).imp_right ?_
      rintro ⟨g, hg, hfrom⟩
      exact ⟨g, List.mem_cons_of_mem _ hg, hfrom⟩
    | put hid hv hyields hrest =>
      rcases ih hrest with hbefore | ⟨g, hg, hfrom⟩
      · rw [Record.get?_put] at hbefore
        split at hbefore
        · rename_i hkey
          cases hbefore
          exact .inr ⟨f, List.mem_cons_self .., hid, hkey, _, hv, hyields⟩
        · exact .inl hbefore
      · exact .inr ⟨g, List.mem_cons_of_mem _ hg, hfrom⟩

/-- A key under which no field is kept stays as it is. -/
theorem get?_of_apart (h : r.Composes args fields doc doc')
    (hapart : ∀ f ∈ fields, f.isIdentifier = false → f.documentKey ≠ key) :
    Record.get? doc' key = Record.get? doc key := by
  induction fields generalizing doc with
  | nil =>
    cases h
    rfl
  | cons f rest ih =>
    have hrest' : ∀ g ∈ rest, g.isIdentifier = false → g.documentKey ≠ key := fun g hg =>
      hapart g (List.mem_cons_of_mem _ hg)
    cases h with
    | pass _ hrest => exact ih hrest hrest'
    | put hid _ _ hrest =>
      rw [ih hrest hrest', Record.get?_put, if_neg (hapart f (List.mem_cons_self ..) hid)]

/-- **A present argument** is found under the key of its field, as the field makes it, when no other
field is kept there. -/
theorem get?_of_present (h : r.Composes args fields doc doc')
    (hkeys : (fields.map FieldDef.documentKey).Nodup) (hf : f ∈ fields)
    (hid : f.isIdentifier = false) (hstored : f.kind ≠ .ok .referencedList) {v : Value}
    (hv : presentArgument? f args = some v) :
    ∃ w, r.Yields f v w ∧ Record.get? doc' f.documentKey = some w := by
  induction fields generalizing doc with
  | nil => cases hf
  | cons g rest ih =>
    rw [List.map_cons, List.nodup_cons] at hkeys
    rcases List.mem_cons.1 hf with rfl | hf
    · cases h with
      | pass hpass _ =>
        rcases hpass with hpass | hpass | hpass
        · rw [hid] at hpass
          cases hpass
        · rw [hv] at hpass
          cases hpass
        · exact absurd hpass hstored
      | @put _ v' w _ _ _ _ _ hv' hyields hrest =>
        obtain rfl := Option.some.inj (hv.symm.trans hv')
        refine ⟨w, hyields, ?_⟩
        rw [hrest.get?_of_apart fun g hg _ hkey => hkeys.1 (List.mem_map.2 ⟨g, hg, hkey⟩),
          Record.get?_put_self]
    · cases h with
      | pass _ hrest => exact ih hrest hkeys.2 hf
      | put _ _ _ hrest => exact ih hrest hkeys.2 hf

/-- **An argument that puts nothing in** leaves the key of its field as it is, when no other field
is kept there. -/
theorem get?_of_absent (h : r.Composes args fields doc doc')
    (hkeys : (fields.map FieldDef.documentKey).Nodup) (hf : f ∈ fields)
    (habsent : presentArgument? f args = none ∨ f.kind = .ok .referencedList) :
    Record.get? doc' f.documentKey = Record.get? doc f.documentKey := by
  induction fields generalizing doc with
  | nil => cases hf
  | cons g rest ih =>
    rw [List.map_cons, List.nodup_cons] at hkeys
    rcases List.mem_cons.1 hf with rfl | hf
    · have hapart : ∀ g ∈ rest, g.isIdentifier = false → g.documentKey ≠ f.documentKey :=
          fun g hg _ hkey =>
        hkeys.1 (List.mem_map.2 ⟨g, hg, hkey⟩)
      cases h with
      | pass _ hrest => exact hrest.get?_of_apart hapart
      | put _ hv hyields _ =>
        rcases habsent with hnone | hk
        · rw [hv] at hnone
          cases hnone
        · exact absurd hk hyields.stored
    · cases h with
      | pass _ hrest => exact ih hrest hkeys.2 hf
      | put _ _ _ hrest =>
        rw [ih hrest hkeys.2 hf, Record.get?_put, if_neg fun hkey =>
          hkeys.1 (List.mem_map.2 ⟨f, hf, hkey.symm⟩)]

/-- No key occurs twice. -/
theorem nodup_keys (h : r.Composes args fields doc doc') (hdoc : (Record.keys doc).Nodup) :
    (Record.keys doc').Nodup := by
  induction fields generalizing doc with
  | nil =>
    cases h
    exact hdoc
  | cons f rest ih =>
    cases h with
    | pass _ hrest => exact ih hrest hdoc
    | put _ _ _ hrest => exact ih hrest (Record.nodup_keys_put hdoc _ _)

end Registry.Composes

namespace Registry.Makes

variable {r : Registry} {e : Entity} {link : Option ParentLink} {args : Value} {made : Materialized}
  {key : String}

/-- **Where an entry comes from**: it is the link to the parent, or what a field makes of its
argument. -/
theorem get?_cases (h : r.Makes e link args made) {w : Value}
    (hw : Record.get? made.document key = some w) :
    link = some (key, w) ∨ ∃ f ∈ e.fields, f.isIdentifier = false ∧ f.documentKey = key ∧
      ∃ v, presentArgument? f args = some v ∧ r.Yields f v w := by
  obtain ⟨doc, hdoc, rfl⟩ := h
  have hfrom : Record.get? doc key = some w → _ := fun hget =>
    (hdoc.get?_cases hget).resolve_left fun hnil => by cases hnil
  rcases link with _ | ⟨k, parent⟩
  · exact .inr (hfrom hw)
  · rw [Materializer.linked, Materializer.put, Record.get?_put] at hw
    split at hw
    · rename_i hkey
      cases hw
      exact .inl (by rw [hkey])
    · exact .inr (hfrom hw)

/-- Nothing is made under a key that is neither that of the link nor that of a field. -/
theorem get?_of_apart (h : r.Makes e link args made) (hlink : ∀ l, link = some l → l.1 ≠ key)
    (hfields : ∀ f ∈ e.fields, f.documentKey ≠ key) : Record.get? made.document key = none := by
  refine Option.eq_none_iff_forall_ne_some.2 fun w hw => ?_
  rcases h.get?_cases hw with hlinked | ⟨f, hf, -, hkey, -⟩
  · exact hlink _ hlinked rfl
  · exact hfields f hf hkey

/-- The link is found under its key. -/
theorem get?_link (h : r.Makes e link args made) {parent : Value}
    (hlink : link = some (key, parent)) :
    Record.get? made.document key = some parent := by
  obtain ⟨doc, -, rfl⟩ := h
  subst hlink
  exact Record.get?_put_self ..

theorem mem_unset (h : r.Makes e link args made) :
    key ∈ made.unset ↔ ∃ f ∈ e.fields, f.IsNulled args ∧ f.storedKey = key := by
  obtain ⟨doc, -, rfl⟩ := h
  rw [← mem_nullKeys]
  rcases link with _ | ⟨k, parent⟩ <;> rfl

theorem nodup_keys (h : r.Makes e link args made) : (Record.keys made.document).Nodup := by
  obtain ⟨doc, hdoc, rfl⟩ := h
  have hnodup := hdoc.nodup_keys List.nodup_nil
  rcases link with _ | ⟨k, parent⟩
  · exact hnodup
  · exact Record.nodup_keys_put hnodup k parent

end Registry.Makes

end EntityGraph
