import EntityGraph.Proofs.Composition
import EntityGraph.Proofs.RequiredValues

/-!
# Members of enumerations in documents

A single member of an enumeration is checked against the values that are declared, and stored as it
is given. So under the key of such a field, which nothing else shares (`Registry.Alone`), every
committed document holds a declared value, at every depth. The items of a list of members are not
checked: the list is stored as it is given, and holds declared values as long as calls give such
(`Dispatcher.keeps_members`). A list of anything is taken and kept (`paintShop_keeps_colors`).
-/

namespace EntityGraph

open MemoryStore (applyUpdate)

variable {τ S : Type}

/-! ## Members -/

/-- The value is a declared one. -/
def Enumeration.Has (e : Enumeration) (v : Value) : Prop := ∃ s ∈ e.values, v = .text s

/-- What can be known of items of lists of members. -/
abbrev OfItems : Type := Enumeration → Value → Prop

/-- **A choice** among the members of the field: a declared value for a single member, and for a
list items that are stored as `A` says. -/
structure FieldDef.Choice (A : OfItems) (f : FieldDef) (v : Value) : Prop where
  single : ∀ e, f.type = .enumeration e → f.many = false → e.Has v
  items : ∀ e, f.type = .enumeration e → f.many = true → ∀ ws, v = .list ws →
    ∀ w ∈ ws, A e (stateName w)

/-- **What is stored of members**: a single one is a declared value, and a list has items as `A`
says. -/
structure FieldDef.Chosen (A : OfItems) (f : FieldDef) (v : Value) : Prop where
  single : ∀ e, f.type = .enumeration e → f.many = false → e.Has v
  items : ∀ e, f.type = .enumeration e → f.many = true → ∃ ws, v = .list ws ∧ ∀ w ∈ ws, A e w

/-- **The key is the field's alone**: in documents of `d` nothing else is stored under the name of
the field, be it the value of another field, the link to a parent, the state or the identifier. -/
structure Registry.Alone (r : Registry) (d : Descriptor) (f : FieldDef) : Prop where
  plain : f.name ≠ "_id"
  state : d.machine.isSome = true → f.name ≠ stateField
  fields : ∀ g ∈ d.entity.fields, g.isIdentifier = false → g.kind ≠ .ok .referencedList →
    g.documentKey = f.name →
    g = f
  unlinked : ∀ v, ¬ r.LinksChild d (some (f.name, v))

/-- The arguments of fields that have their key alone are choices. -/
def Registry.Chooses (r : Registry) (A : OfItems) (d : Descriptor) (fs : Document) : Prop :=
  ∀ f ∈ d.entity.fields, r.Alone d f → f.isIdentifier = false →
    ∀ v, Record.get? fs f.name = some v →
    v.isEmpty = false → f.Choice A v

/-- What fields store that have their key alone was chosen. -/
def Registry.HasChosen (r : Registry) (A : OfItems) (d : Descriptor) (doc : Document) : Prop :=
  ∀ f ∈ d.entity.fields, r.Alone d f → ∀ v, Record.get? doc f.name = some v → f.Chosen A v

/-- **Arguments with items for lists of members** that are stored as `A` says, at every depth and in
all children. -/
inductive Registry.Picks (r : Registry) (A : OfItems) : Descriptor → Document → Prop where
  | intro {d : Descriptor} {fs : Document}
      (here : ∀ f ∈ d.entity.fields, ∀ e, f.type = .enumeration e →
      ∀ ws, Record.get? fs f.name = some (.list ws) →
        ∀ w ∈ ws, A e (stateName w))
      (parts : ∀ f e g, r.Part d fs f e g → r.Picks A e g)
      (children : ∀ operation e g, r.Child d fs operation e g → r.Picks A e g) : r.Picks A d fs

namespace FieldDef

variable {A : OfItems} {f : FieldDef} {e : Enumeration}

theorem kind_of_enumeration (h : f.type = .enumeration e) :
    f.kind = .ok (if f.many then .scalarList else .enumeration) := by
  rw [kind, h]
  rfl

/-- Members are stored by name. -/
theorem coerceScalar_of_enumeration (h : f.type = .enumeration e) (v : Value) :
    coerceScalar f v = .ok (stateName v) := by
  have hid : f.isIdTyped = false := by rw [isIdTyped, h]
  have hmoment : f.momentType? = none := by rw [momentType?, h]
  cases v <;> simp [coerceScalar, hid, hmoment, stateName] <;> rfl

theorem coerceScalars_of_enumeration (h : f.type = .enumeration e) (items : List Value) :
    coerceScalars f items = .ok (items.map stateName) := by
  induction items with
  | nil => rfl
  | cons v rest ih =>
    rw [coerceScalars, coerceScalar_of_enumeration h, ih]
    rfl

/-- **Choices are stored.** -/
theorem Choice.chosen {r : Registry} {v w : Value} (h : f.Choice A v) (hw : r.Yields f v w) :
    f.Chosen A w := by
  refine ⟨fun e he hsingle => ?_, fun e he hmany => ?_⟩ <;> have hk := kind_of_enumeration he
  · rw [hsingle] at hk
    obtain ⟨s, hs, rfl⟩ := h.single e he hsingle
    cases hw with
    | enumeration _ hscalar =>
      rw [coerceScalar_of_enumeration he] at hscalar
      cases hscalar
      exact ⟨s, hs, rfl⟩
    | scalar hk' _ => cases hk.symm.trans hk'
    | referencedObject hk' _ => cases hk.symm.trans hk'
  · rw [hmany] at hk
    cases hw with
    | scalarList _ hscalars =>
      rw [coerceScalars_of_enumeration he] at hscalars
      cases hscalars
      refine ⟨_, rfl, fun w hw => ?_⟩
      obtain ⟨u, hu, rfl⟩ := List.mem_map.1 hw
      exact h.items e he hmany _ rfl u hu
    | scalar hk' _ => cases hk.symm.trans hk'
    | enumeration hk' _ => cases hk.symm.trans hk'
    | referencedObject hk' _ => cases hk.symm.trans hk'
    | embeddedObject hk' _ _ => cases hk.symm.trans hk'
    | embeddedList hk' _ _ => cases hk.symm.trans hk'

/-- No object is chosen. -/
theorem Chosen.object {a b : Document} (h : f.Chosen A (.object a)) : f.Chosen A (.object b) := by
  refine ⟨fun e he hsingle => ?_, fun e he hmany => ?_⟩
  · obtain ⟨s, -, hs⟩ := h.single e he hsingle
    cases hs
  · obtain ⟨ws, hws, -⟩ := h.items e he hmany
    cases hws

end FieldDef

/-! ## Accepted arguments -/

/-- The children among arguments are smaller. -/
theorem Registry.Child.sizeOf_lt {r : Registry} {d e : Descriptor} {fs g : Document}
    {operation : Operation} (h : r.Child d fs operation e g) : sizeOf g < sizeOf fs := by
  have hitem : ∀ {items : List Value}, Value.object g ∈ items →
    sizeOf items < sizeOf (Value.object fs) →
      sizeOf g < sizeOf fs := fun hg hitems => by
    have := List.sizeOf_lt_of_mem hg
    simp only [Value.object.sizeOf_spec] at *
    omega
  cases h with
  | added _ hdelta _ hg => exact hitem hg (sizeOf_deltaOf?_lt hdelta).1
  | updated _ hdelta _ hg => exact hitem hg (sizeOf_deltaOf?_lt hdelta).2

namespace Registry

variable {r : Registry} {A : OfItems} {d : Descriptor} {fs : Document}

/-- All arguments have items of which nothing is known. -/
theorem Picks.of_forall (hA : ∀ e v, A e v) (d : Descriptor) (fs : Document) : r.Picks A d fs :=
  .intro (fun _ _ e _ _ _ w _ => hA e (stateName w))
    (fun _ e g hpart =>
      have := hpart.sizeOf_lt
      Picks.of_forall hA e g)
    (fun _ e g hchild =>
      have := hchild.sizeOf_lt
      Picks.of_forall hA e g)
termination_by sizeOf fs

theorem Picks.child (h : r.Picks A d fs) {operation : Operation} {e : Descriptor} {g : Document}
    (hchild : r.Child d fs operation e g) : r.Picks A e g := by
  cases h with
  | intro _ _ children => exact children _ e g hchild

/-- **A single member among accepted arguments** is a declared value. -/
theorem Accepts.has (inUpdate : Bool) (hr : r.Built)
    (hd : Record.get? r.descriptors d.name = some d)
    (h : r.Accepts (.writing inUpdate d.name) (.object fs)) {f : FieldDef}
    (hf : f ∈ d.entity.fields) (hid : f.isIdentifier = false) {e : Enumeration}
    (he : f.type = .enumeration e) (hsingle : f.many = false) {v : Value}
    (hv : Record.get? fs f.name = some v) (hnull : v ≠ .null) : e.Has v := by
  have hk : f.kind = .ok .enumeration := by
    rw [FieldDef.kind_of_enumeration he, hsingle]
    rfl
  obtain ⟨_, hfs, hfields⟩ := h.offered hr.shaped hd (ShapeRef.isFor_writing inUpdate d.name)
  cases hfs
  obtain ⟨_, ⟨g, hg, hname, htakes, -⟩, -⟩ := hfields f.name v hv
  obtain rfl := List.inj_on_of_nodup_map d.entity.names_nodup hg hf hname
  obtain ⟨fields, path, hcheck, hoffers⟩ := h.exists_fields inUpdate hr hd
  obtain ⟨i, hi, hkind, htype⟩ :
      ∃ i, g.argument d.name inUpdate = some i ∧ i.kind = .enumeration ∧
      i.type = .enumeration e := by
    have hleaf : ShapeDraft.leafType g = .enumeration e := by rw [ShapeDraft.leafType, he]
    rw [FieldDef.argument, hk]
    cases inUpdate
    · exact ⟨_, if_neg (by rw [hid]; decide), rfl, hleaf⟩
    · exact ⟨_, rfl, rfl, hleaf⟩
  obtain ⟨place, hplace⟩ :=
    checkFields_ok hcheck (hoffers g hf htakes (FieldDef.not_links hk (by decide)) i hi) hv hnull
  rw [checkValue.eq_def, hkind, htype] at hplace
  dsimp only at hplace
  unfold checkMember at hplace
  dsimp only at hplace
  split at hplace
  · rename_i s
    split at hplace
    · exact ⟨s, by simpa using ‹e.values.contains s = true›, rfl⟩
    · cases hplace
  · cases hplace

/-- **Accepted arguments choose members**, at every depth. -/
theorem Accepts.chooses (inUpdate : Bool) (hr : r.Built)
    (hd : Record.get? r.descriptors d.name = some d)
    (h : r.Accepts (.writing inUpdate d.name) (.object fs)) (hpicks : r.Picks A d fs) :
    r.Throughout (r.Chooses A) d fs := by
  induction hpicks with
  | intro here _ _ ih =>
    refine .intro (fun f hf _ hid v hv hpresent =>
      ⟨fun e he hsingle => ?_, fun e he _ ws hws => ?_⟩) fun f e g hpart => ?_
    · refine h.has inUpdate hr hd hf hid he hsingle hv ?_
      rintro rfl
      cases hpresent
    · exact here f hf e he ws (hws ▸ hv)
    · obtain ⟨he, haccepts⟩ := h.part inUpdate hr hd hpart
      exact ih f e g hpart he haccepts

/-- A state that is put in is under no key of a field that has its key alone. -/
theorem Chooses.moved (h : r.Chooses A d fs) {fs' : Document} (hmoved : d.Moved fs fs') :
    r.Chooses A d fs' := by
  rcases hmoved with rfl | ⟨u, hu, rfl⟩
  · exact h
  · intro f hf halone hid v hv
    rw [Record.get?_put, if_neg (halone.state hu.machine).symm] at hv
    exact h f hf halone hid v hv

/-! ## Making documents -/

/-- **What is made was chosen.** -/
theorem Makes.hasChosen {link : Option ParentLink} {made : Materialized}
    (h : r.Makes d.entity link (.object fs) made) (hchooses : r.Chooses A d fs)
    (hlink : r.LinksChild d link) :
    r.HasChosen A d made.document := by
  intro f hf halone w hw
  rcases h.get?_cases hw with hl | ⟨g, hg, hid, hkey, v, hv, hyields⟩
  · exact absurd (hl ▸ hlink) (halone.unlinked w)
  · obtain rfl := halone.fields g hg hid hyields.stored hkey
    obtain ⟨hget, hpresent⟩ := presentArgument?_eq_some.1 hv
    exact (hchooses g hf halone hid v hget hpresent).chosen hyields

/-- A new document gets its state and its identifier on top of what was made. -/
theorem HasChosen.filed {made : Document} (h : r.HasChosen A d made) (m : MemoryStore) :
    r.HasChosen A d (m.filed (Executor.inFirstState d made)) := by
  intro f hf halone v hv
  have hfirst : Record.get? (Executor.inFirstState d made) f.name = some v := by
    unfold MemoryStore.filed at hv
    split at hv
    · exact hv
    · rwa [Record.get?_put, if_neg halone.plain.symm] at hv
  refine h f hf halone v ?_
  unfold Executor.inFirstState at hfirst
  split at hfirst
  · rename_i machine hmachine
    rwa [Record.get?_put, if_neg (halone.state (by rw [hmachine]; rfl)).symm] at hfirst
  · exact hfirst

theorem HasChosen.merge {old new : Document} (hold : r.HasChosen A d old) (hneat : Neat new)
    (hnew : r.HasChosen A d new) : r.HasChosen A d (Record.merge old new) := by
  intro f hf halone v hv
  rw [Record.get?_merge hneat.keys] at hv
  rcases hget : Record.get? new f.name with _ | w
  · rw [hget, Option.none_or] at hv
    exact hold f hf halone v hv
  · rw [hget, Option.some_or] at hv
    exact hnew f hf halone v (hget.trans hv)

end Registry

/-- **Documents made from choices** hold what was chosen, at every depth. -/
theorem Materializer.moves_materialize_chosen {A : OfItems} {m : Materializer τ S}
    (hm : m.LeavesDocuments) {d : Descriptor} {fs : Document}
    (h : m.registry.Throughout (m.registry.Chooses A) d fs) :
    Moves (fun _ _ => True)
      (fun made => m.registry.Throughout (m.registry.HasChosen A) d made.document ∧
        Neat made.document)
      (m.materialize d.entity none (.object fs)) := by
  induction h with
  | @intro d fs here _ ih =>
    refine ((moves_materialize_assembled (Q := fun _ e inner =>
      m.registry.Throughout (m.registry.HasChosen A) e inner ∧
      Neat inner) hm ih fun _ hl => by cases hl).also
        (moves_materialize_makes hm d.entity none _)).mono
      (fun _ _ => id) fun made hmade => ⟨?_, hmade.1.neat⟩
    exact .intro (hmade.2.hasChosen here (m.registry.linksChild_none d)) fun f e inner hpart =>
      (hmade.1.parts f e inner hpart).1

/-! ## Upkeep -/

namespace Executor.Bare

variable {A : OfItems} {p : τ → MemoryStore} {x : Executor τ SessionId} {d : Descriptor}
  {link : Option ParentLink} {fs fs' : Document}

/-- **Making a document** of `d` from choices, perhaps with a link and a state put in. -/
theorem moves_materialize_choices (h : x.Bare p) (hd : x.registry.Knows d)
    (hlinked : x.registry.LinksChild d link)
    (hchooses : x.registry.Throughout (x.registry.Chooses A) d fs) (hmoved : d.Moved fs fs')
    (operation : Operation) (s : SessionId) :
    Moves (fun _ _ => True)
      (fun made => Assembled x.registry
        (x.registry.Laid (x.registry.HasChosen A) (x.registry.HasChosen A) fun _ =>
          False) d link fs' d.entity.fields made ∧ x.registry.HasChosen A d made.document)
      ((x.materializer operation s).materialize d.entity link (.object fs')) := by
  have hleaves := h.leavesDocuments (s := s) operation
  refine ((Materializer.moves_materialize_assembled hleaves (fun f e g hpart =>
    ?_) (h.linked_value hlinked)).also
      (Materializer.moves_materialize_makes hleaves d.entity link _)).mono (fun _ _ => id)
      fun made hmade =>
      ⟨hmade.1, hmade.2.hasChosen (hchooses.here.moved hmoved) hlinked⟩
  exact (Materializer.moves_materialize_chosen hleaves
    (hchooses.parts f e g (h.part_moved hd hmoved hpart))).mono (fun _ _ => id) fun made hmade =>
    ⟨hmade.2, hmade.1.here, hmade.1.parts, .inl hmade.1.here⟩

/-- **Updates with choices** keep what was chosen. -/
theorem chosen_applyUpdate (h : x.Bare p) (hd : x.registry.Knows d)
    (hlinked : x.registry.LinksChild d link) {made : Materialized}
    (hmade : Assembled x.registry (x.registry.Laid (x.registry.HasChosen A) (x.registry.HasChosen A)
      fun _ => False) d link fs' d.entity.fields made)
    (hchosen : x.registry.HasChosen A d made.document) :
    made.Revises d fun doc => x.registry.Throughout (x.registry.HasChosen A) d doc ∧ True := by
  rintro current before changes after ⟨hcurrent, -⟩ ⟨hbefore, -⟩ hmerge hupdate
  have hnamed := h.isSegment_keys hd
  have hlink := h.isSegment_link hlinked
  refine ⟨.intro (fun f hf halone v hv => ?_) (hmade.parts_applyUpdate hmerge hnamed hlink hupdate
    (fun e old new hold hneat hnew => hold.merge hneat hnew) (fun _ hfalse =>
    hfalse.elim) hcurrent.parts hbefore.parts), trivial⟩
  rcases hmade.found_after hmerge hnamed hlink hupdate hv with hold | hsame | ⟨a, b, ha, rfl⟩
  · exact hbefore.here f hf halone v hold
  · exact hchosen f hf halone v hsame
  · exact (hchosen f hf halone _ ha).object

/-- **What was chosen is kept** by all writes whose lists of members have items as `A` says. -/
theorem upkeep_chosen (h : x.Bare p) (hbuilt : x.registry.Built) (A : OfItems) :
    x.Upkeep p (x.registry.Throughout (x.registry.HasChosen A)) (fun _ _ _ => True)
    (x.registry.Picks A) (x.registry.Picks A) where
  toBare := h
  children := fun d fs hpicks f hf delta hdelta e he => by
    have hpicks := or_self_iff.1 hpicks
    exact ⟨fun g hg => hpicks.child (.added hf hdelta he hg), fun g hg =>
      hpicks.child (.updated hf hdelta he hg)⟩
  create := fun d link fs s hw =>
    (h.moves_materialize_choices hw.known hw.linked
      (hw.accepted.chooses false hbuilt hw.known.1 hw.suitable) (.inl rfl) .create s).mono
      (fun _ _ => id) fun made hmade m => .intro (hmade.2.filed m) fun f e inner hpart => by
        obtain ⟨-, hchosen, hparts, -⟩ := hmade.1.parts f e inner (h.part_of_filed hw.known m hpart)
        exact .intro hchosen hparts
  fresh := fun _ _ _ _ => trivial
  update := fun d link fs fs' o s hw hmoved _ =>
    (h.moves_materialize_choices hw.known hw.linked
      (hw.accepted.chooses true hbuilt hw.known.1 hw.suitable) hmoved .update s).mono (fun _ _ =>
      id) fun made hmade => h.chosen_applyUpdate hw.known hw.linked hmade.1 hmade.2

end Executor.Bare

/-! ## Calls -/

namespace Dispatcher

variable {x : Dispatcher τ SessionId} {c : Component τ MemoryStore}

/-- **A call whose lists of members** have items as `A` says. -/
def Picks (x : Dispatcher τ SessionId) (A : OfItems) (name : String) (q : Call) : Prop :=
  ∀ ep fs, Record.get? x.endpoints name = some ep → callArguments q.args = .ok fs →
    x.Suits (x.executor.registry.Picks A) (x.executor.registry.Picks A) ep fs

/-- What may be called matters only as far as more may be called. -/
theorem Led.mono {May May' : τ → String → Call → Prop}
    (hmay : ∀ t name q, May t name q → May' t name q) {t : τ} (ht : x.Led c May t) :
    x.Led c May' t := by
  induction ht with
  | start hempty => exact .start hempty
  | inject _ count operation ih => exact .inject ih count operation
  | call _ name q hq ih => exact .call ih name q (hmay _ name q hq)

/-- What documents hold was chosen, at every depth. -/
theorem Led.chosen (h : x.Bare c) {A : OfItems} {t : τ}
    (ht : x.Led c (fun _ name q => x.Picks A name q) t) {d : Descriptor}
    (hd : x.executor.registry.Knows d) {doc : Document}
    (hdoc : doc ∈ (c.get t).documents d.collection) :
    x.executor.registry.Throughout (x.executor.registry.HasChosen A) d doc := by
  have hall := ht.allAre h fun t name q hpicks hall =>
    allAre_call h (h.executor.upkeep_chosen h.built A) ⟨hall, fun _ _ _ => trivial⟩ name q hpicks
  obtain ⟨entry, hentry, rfl⟩ := List.mem_map.1 hdoc
  exact hall.documents d hd entry hentry

/-- **Members of enumerations are kept.** Whatever was called, and whatever failures were injected:
in every committed document, and in every object that it embeds at any depth, what is stored under
the name of a field that has this key alone is a declared value where the field holds a single
member of an enumeration, and a list where it holds many. The list has items as calls gave them: all
of them are declared values if calls give no others. -/
theorem keeps_members (h : x.Bare c) {t : τ} (ht : x.Led c (fun _ _ _ => True) t) {d : Descriptor}
    (hd : x.executor.registry.Knows d) {doc : Document}
    (hdoc : doc ∈ (c.get t).documents d.collection) {e : Descriptor} {inner : Document}
    (hin : x.executor.registry.Within d doc e inner) {f : FieldDef} (hf : f ∈ e.entity.fields)
    (halone : x.executor.registry.Alone e f) {v : Value} (hv : Record.get? inner f.name = some v)
    {en : Enumeration} (htype : f.type = .enumeration en) :
    (f.many = false → en.Has v) ∧ (f.many = true → ∃ ws, v = .list ws ∧
      ∀ A, x.Led c (fun _ name q => x.Picks A name q) t → ∀ w ∈ ws, A en w) := by
  have hchosen : ∀ A, x.Led c (fun _ name q => x.Picks A name q) t → f.Chosen A v := fun A ht =>
    (ht.chosen h hd hdoc).within hin f hf halone v hv
  have hany := hchosen (fun _ _ => True) <| ht.mono fun _ _ _ _ _ fs _ _ =>
    ⟨fun _ d _ _ _ => .of_forall (fun _ _ => trivial) d fs, fun _ d _ _ _ =>
      .of_forall (fun _ _ => trivial) d fs⟩
  refine ⟨hany.single en htype, fun hmany => ?_⟩
  obtain ⟨ws, rfl, -⟩ := hany.items en htype hmany
  refine ⟨ws, rfl, fun A hA => ?_⟩
  obtain ⟨_, ⟨⟩, hitems⟩ := (hchosen A hA).items en htype hmany
  exact hitems

end Dispatcher

/-! ## A service of paints -/

/-- The finishes of paints. -/
def finishes : Enumeration := ⟨"Finish", ["matte", "gloss"]⟩

/-- The colors of paints. -/
def colors : Enumeration := ⟨"Color", ["red", "green"]⟩

/-- The field that holds a finish. -/
def finishField : FieldDef :=
  ⟨"finish", .enumeration finishes, false, true, false, false, none, .null⟩

/-- The field that holds a list of colors. -/
def colorsField : FieldDef := ⟨"colors", .enumeration colors, true, true, false, false, none, .null⟩

/-- A paint has a finish and colors. -/
def paint : Entity where
  name := "Paint"
  fields := [⟨"id", .scalar .id, false, true, false, false, none, .null⟩, finishField, colorsField]
  description := .null
  names_nodup := by decide

/-- The entities of the service. -/
def paintShopEntities : Registry :=
  ⟨[("Paint", ⟨paint, "paints", some "paint", some "paints", none, true, none, []⟩)], [], false⟩

/-- The registry of the service. -/
def paintShopRegistry : Registry := (Registry.finalize.run.run paintShopEntities).2

/-- A service of paints. -/
def paintShop : Dispatcher MemoryStore SessionId where
  executor := {
    registry := paintShopRegistry
    behaviour := ⟨fun _ => .none, fun _ _ _ => throw .illTyped⟩
    store := MemoryStore.documentStore.within ⟨id, fun m _ => m⟩
    policy := ⟨2, fun n => .ok (.whole n), fun _ => pure (), Nat.two_pos⟩ }
  endpoints := (Endpoint.table .everything paintShopRegistry).toOption.getD []
  middleware := []
  defaultLimit := 10

/-- A paint is added with a finish and a color. -/
def addPaint : Call := ⟨.object [("finish", .text "matte"), ("colors", .list [.text "red"])], []⟩

/-- A paint is added with a list of no colors. -/
def addOddPaint : Call := ⟨.object [("colors", .list [.text "purple", .int 3])], []⟩

/-- The store after the paint was added. -/
def afterPaint : MemoryStore := ((paintShop.call "addPaint").run.run (.empty, addPaint)).2.1

/-- The store after the paint of no colors was added. -/
def afterOddPaint : MemoryStore := ((paintShop.call "addPaint").run.run (.empty, addOddPaint)).2.1

/-- The entities that the registry knows. -/
theorem paintShop_descriptor {n : String} {d : Descriptor}
    (h : Record.get? paintShopRegistry.descriptors n = some d) :
    d.entity = paint ∧ d.collection = "paints" ∧ d.machine = none := by
  obtain ⟨p, hdescriptors⟩ : ∃ p, paintShopRegistry.descriptors =
      [("Paint", ⟨paint, "paints", some "paint", some "paints", none, true, p, []⟩)] := ⟨_, rfl⟩
  have hmem := Record.mem_of_get?_eq_some h
  rw [hdescriptors] at hmem
  cases List.mem_singleton.1 hmem
  exact ⟨rfl, rfl, rfl⟩

theorem paintShop_built : paintShopRegistry.Built := by
  have hpaint : Registry.empty.connect paint ⟨some "paints", none, none, none⟩ =
    .ok paintShopEntities := rfl
  exact .finalize (.connect .empty hpaint)

theorem paintShop_bare : paintShop.Bare ⟨id, fun m _ => m⟩ where
  component := fun _ _ => rfl
  store := rfl
  sleep := fun _ _ => rfl
  validates := fun _ => EntityBehaviour.validates_none _
  noMutations := rfl
  middleware := rfl
  built := paintShop_built
  storable := .of_fields paint.fields (fun n d hd => by
    obtain ⟨hentity, -, hmachine⟩ := paintShop_descriptor hd
    rw [hentity]
    exact ⟨fun f => id, hmachine⟩) (by unfold IsSegment; decide)
  apart := fun d e hd he _ => hd.eq_of_name he (by
    rw [Descriptor.name, Descriptor.name, (paintShop_descriptor hd.1).1,
      (paintShop_descriptor he.1).1])

/-- Paints refer to nothing. -/
theorem paint_kinds {f : FieldDef} (hf : f ∈ paint.fields) :
    f.kind = .ok .scalar ∨ f.kind = .ok .enumeration ∨ f.kind = .ok .scalarList := by
  simp only [paint, List.mem_cons, List.not_mem_nil, or_false] at hf
  rcases hf with rfl | rfl | rfl
  · exact .inl rfl
  · exact .inr (.inl rfl)
  · exact .inr (.inr rfl)

/-- All fields of paints have their keys alone. -/
theorem paint_alone {d : Descriptor} (hd : paintShopRegistry.Knows d) {f : FieldDef}
    (hf : f ∈ d.entity.fields) :
    paintShopRegistry.Alone d f := by
  obtain ⟨hentity, -, hmachine⟩ := paintShop_descriptor hd.1
  refine ⟨?_, fun hsome => ?_, fun g hg _ _ hkey => ?_, fun v hlinked => ?_⟩
  · rw [hentity] at hf
    revert f
    decide
  · rw [hmachine] at hsome
    cases hsome
  · rw [FieldDef.documentKey_of_ne fun hk => ?_] at hkey
    · exact List.inj_on_of_nodup_map d.entity.names_nodup hg hf hkey
    · rw [hentity] at hg
      rcases paint_kinds hg with hother | hother | hother <;> cases hk.symm.trans hother
  · obtain ⟨e, g, _, he, hg, hlist, -, -⟩ := hlinked _ rfl
    rw [(paintShop_descriptor he).1] at hg
    rcases paint_kinds hg with hother | hother | hother <;> cases hlist.symm.trans hother

/-- The paint is added with a declared color. -/
theorem addPaint_picks : paintShop.Picks Enumeration.Has "addPaint" addPaint := by
  intro ep fs hep hfs
  have hadd : Record.get? paintShop.endpoints "addPaint" =
    some ⟨"addPaint", .save, some "Paint", none⟩ := rfl
  obtain rfl := Option.some.inj (hadd.symm.trans hep)
  cases hfs
  refine ⟨fun _ d hd _ _ => ?_, fun hk => by rcases hk with hk | hk <;> cases hk⟩
  have hentity := (paintShop_descriptor hd.1).1
  refine .intro (fun f hf e he ws hws w hw => ?_) (fun f e g hpart => ?_)
    fun operation e g hchild => ?_
  · rw [hentity] at hf
    simp only [paint, List.mem_cons, List.not_mem_nil, or_false] at hf
    rcases hf with rfl | rfl | rfl
    · cases he
    · cases hws
    · cases he
      cases hws
      cases List.mem_singleton.1 hw
      exact ⟨"red", by decide, rfl⟩
  · have hf := hpart.mem
    rw [hentity] at hf
    cases hpart with
    | object _ _ hk _ _ =>
      rcases paint_kinds hf with hother | hother | hother <;> cases hk.symm.trans hother
    | item _ _ hk _ _ _ =>
      rcases paint_kinds hf with hother | hother | hother <;> cases hk.symm.trans hother
  · obtain ⟨f, delta, hf, hdelta⟩ : ∃ f delta, f ∈ d.entity.fields ∧
        deltaOf? f (.object [("finish", .text "matte"), ("colors", .list [.text "red"])]) =
        some delta := by
      cases hchild with
      | added hf hdelta _ _ => exact ⟨_, _, hf, hdelta⟩
      | updated hf hdelta _ _ => exact ⟨_, _, hf, hdelta⟩
    have hlist := FieldDef.kind_of_isReferencedList (isReferencedList_of_deltaOf? hdelta)
    rw [hentity] at hf
    rcases paint_kinds hf with hother | hother | hother <;> cases hlist.symm.trans hother

/-- The entity of paints. -/
theorem exists_paint :
    ∃ d, paintShopRegistry.Knows d ∧ d.entity = paint ∧ d.collection = "paints" := by
  obtain ⟨d, hd⟩ : ∃ d, Record.get? paintShopRegistry.descriptors "Paint" = some d := ⟨_, rfl⟩
  obtain ⟨hentity, hcollection, -⟩ := paintShop_descriptor hd
  exact ⟨d, ⟨by rwa [Descriptor.name, hentity], Option.some.inj hd ▸ rfl⟩, hentity, hcollection⟩

/-- The paint that was added has a declared finish and declared colors. -/
theorem paintShop_keeps_members : ∃ doc ∈ afterPaint.documents "paints",
    (∃ v, Record.get? doc "finish" = some v ∧ finishes.Has v) ∧
      ∃ ws, Record.get? doc "colors" = some (.list ws) ∧ ∀ w ∈ ws, colors.Has w := by
  obtain ⟨d, hd, hentity, hcollection⟩ := exists_paint
  have hled :
      paintShop.Led ⟨id, fun m _ => m⟩ (fun _ name q =>
      paintShop.Picks Enumeration.Has name q) afterPaint :=
    .call (.start fun _ => rfl) "addPaint" addPaint addPaint_picks
  have hany := hled.mono fun _ _ _ _ => trivial
  have hstored : afterPaint.documents "paints" =
      [[("finish", .text "matte"), ("colors", .list [.text "red"]), ("_id", .id (.ofNat 1))]] := by
        cbv
  have hdoc : [("finish", Value.text "matte"), ("colors", .list [.text "red"]),
    ("_id", .id (.ofNat 1))] ∈
      afterPaint.documents d.collection := by
    rw [hcollection, hstored]
    exact List.mem_singleton_self _
  have hfinish : finishField ∈ d.entity.fields := by rw [hentity]; simp [paint]
  have hcolors : colorsField ∈ d.entity.fields := by rw [hentity]; simp [paint]
  refine ⟨_, hcollection ▸ hdoc, ⟨.text "matte", rfl, ?_⟩, [.text "red"], rfl, ?_⟩
  · exact (Dispatcher.keeps_members paintShop_bare hany hd hdoc .here hfinish
      (paint_alone hd hfinish) rfl rfl).1 rfl
  · obtain ⟨_, ⟨⟩, hitems⟩ :=
      (Dispatcher.keeps_members paintShop_bare hany hd hdoc .here hcolors
        (paint_alone hd hcolors) rfl rfl).2 rfl
    exact hitems _ hled

/-- **A list of no colors** is taken for a list of colors and stored as it is given, though none of
its items is a declared value. -/
theorem paintShop_keeps_colors : paintShop.Bare ⟨id, fun m _ => m⟩ ∧
    paintShop.Led ⟨id, fun m _ => m⟩ (fun _ _ _ => True) afterOddPaint ∧
    ∃ d, paintShopRegistry.Knows d ∧ ∃ doc ∈ afterOddPaint.documents d.collection,
      ∃ f ∈ d.entity.fields, f.type = .enumeration colors ∧ paintShopRegistry.Alone d f ∧
        ∃ ws, Record.get? doc f.name = some (.list ws) ∧ ∃ w ∈ ws, ¬ colors.Has w := by
  obtain ⟨d, hd, hentity, hcollection⟩ := exists_paint
  have hstored : afterOddPaint.documents "paints" =
      [[("colors", .list [.text "purple", .int 3]), ("_id", .id (.ofNat 1))]] := by cbv
  have hcolors : colorsField ∈ d.entity.fields := by rw [hentity]; simp [paint]
  refine ⟨paintShop_bare, .call (.start fun _ => rfl) "addPaint" addOddPaint trivial, d, hd,
    [("colors", .list [.text "purple", .int 3]), ("_id", .id (.ofNat 1))], ?_, colorsField, hcolors,
    rfl, paint_alone hd hcolors, _, rfl, .text "purple", List.mem_cons_self .., ?_⟩
  · rw [hcollection, hstored]
    exact List.mem_singleton_self _
  · rintro ⟨s, hs, hpurple⟩
    cases hpurple
    revert hs
    decide

end EntityGraph
