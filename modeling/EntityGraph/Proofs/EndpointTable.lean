import EntityGraph.Endpoint
import EntityGraph.Proofs.Acyclicity
import EntityGraph.Proofs.States

/-!
# The table of endpoints

What a service has to expose is said endpoint by endpoint, without the table (`Exposure.Exposes`):
two endpoints that read and three that write for each entity with a collection, one for each of its
state actions, and one for each custom mutation, as far as the inclusion lists let them. Their names
come from the entities, from what was given in their place, from the actions and from the mutations,
so that any two of them may meet. The table is refused exactly when two endpoints have the same
name; otherwise it has these endpoints and no others, and each is found under its name
(`Endpoint.table_decides`).

The list from which the table is entered has every endpoint once (`Endpoint.nodup_all`): endpoints
of one entity differ in kind or action, and those of different entities in the entity. So a name
that is met again belongs to another endpoint.
-/

namespace EntityGraph

/-- Is a name on an inclusion list? A list that is absent includes everything. -/
def Exposure.Includes (names : Option (List String)) (name : String) : Prop :=
    ∀ ns, names = some ns → name ∈ ns

theorem Exposure.includes_none (name : String) : Includes none name := fun _ h => by cases h

/-- **What is to be exposed.** Entities with a collection are read under their two endpoint names
and written under names that are put together from the first of them; custom mutations go by their
own names. -/
inductive Exposure.Exposes (e : Exposure) (r : Registry) : Endpoint → Prop where
  | get {name single : String} {d : Descriptor} (hd : Record.get? r.descriptors name = some d)
      (hc : d.hasEndpoints = true) (hs : d.single = some single) (hi : Includes e.queries name) :
      Exposes e r ⟨single, .get, some name, none⟩
  | find {name list : String} {d : Descriptor} (hd : Record.get? r.descriptors name = some d)
      (hc : d.hasEndpoints = true) (hs : d.list = some list) (hi : Includes e.queries name) :
      Exposes e r ⟨list, .find, some name, none⟩
  | save {name single : String} {d : Descriptor} (hd : Record.get? r.descriptors name = some d)
      (hc : d.hasEndpoints = true) (hs : d.single = some single) (hi : Includes e.mutations name) :
      Exposes e r ⟨"add" ++ Text.pascalCase single, .save, some name, none⟩
  | update {name single : String} {d : Descriptor} (hd : Record.get? r.descriptors name = some d)
      (hc : d.hasEndpoints = true) (hs : d.single = some single) (hi : Includes e.mutations name) :
      Exposes e r ⟨"update" ++ Text.pascalCase single, .update, some name, none⟩
  | delete {name single : String} {d : Descriptor} (hd : Record.get? r.descriptors name = some d)
      (hc : d.hasEndpoints = true) (hs : d.single = some single) (hi : Includes e.mutations name) :
      Exposes e r ⟨"delete" ++ Text.pascalCase single, .delete, some name, none⟩
  | state {name single action : String} {d : Descriptor} {m : StateMachine}
      (hd : Record.get? r.descriptors name = some d) (hc : d.hasEndpoints = true)
      (hs : d.single = some single) (hi : Includes e.mutations name) (hm : d.machine = some m)
      (ha : Record.has m.actions action = true) :
      Exposes e r ⟨action ++ "_" ++ Text.pascalCase single, .state, some name, some action⟩
  | custom {name : String} (hm : Record.has r.mutations name = true)
    (hi : Includes e.customMutations name) :
      Exposes e r ⟨name, .custom, none, none⟩

/-- **A clash**: two different endpoints that are to be exposed have the same name. -/
def Exposure.Clashes (e : Exposure) (r : Registry) (name : String) : Prop :=
  ∃ a b, e.Exposes r a ∧ e.Exposes r b ∧ a ≠ b ∧ a.name = name ∧ b.name = name

theorem included_iff {names : Option (List String)} {name : String} :
    included names name = true ↔ Exposure.Includes names name := by
  unfold included Exposure.Includes
  cases names with
  | none => simp
  | some ns => simp

/-! ## Registries -/

namespace Registry

/-- **Registries with names for everything**: entities and mutations are there once, and entities
with a collection have both endpoint names. -/
structure Addressed (r : Registry) : Prop where
  entities : (Record.keys r.descriptors).Nodup
  mutations : (Record.keys r.mutations).Nodup
  endpoints : ∀ e ∈ r.descriptors, e.2.hasEndpoints = true → e.2.single.isSome = true ∧
    e.2.list.isSome = true

/-- The actions of every state machine have names of their own. -/
def NamesActions (r : Registry) : Prop :=
  ∀ e ∈ r.descriptors, ∀ m, e.2.machine = some m → (Record.keys m.actions).Nodup

variable {r r' : Registry}

theorem Addressed.add (h : r.Addressed) {d : Descriptor}
    (hd : d.hasEndpoints = true → d.single.isSome = true ∧ d.list.isSome = true)
    (hr : r.add d = .ok r') :
    r'.Addressed := by
  obtain ⟨-, -, rfl⟩ := add_eq_ok hr
  refine ⟨Record.nodup_keys_put h.entities _ _, h.mutations, fun e he => ?_⟩
  rcases Record.mem_put he with he | rfl
  · exact h.endpoints e he
  · exact hd

/-- Names are given by what is known of the entities apart from their shapes. -/
theorem Addressed.of_plain (h : r.Addressed) (hmutations : r'.mutations = r.mutations)
    (hplain : Record.mapValues Descriptor.plain r'.descriptors =
      Record.mapValues Descriptor.plain r.descriptors) :
    r'.Addressed where
  entities := by
    rw [← Record.keys_mapValues Descriptor.plain, hplain, Record.keys_mapValues]
    exact h.entities
  mutations := hmutations ▸ h.mutations
  endpoints := fun e he hcollection => by
    have hmem : (e.1, e.2.plain) ∈ Record.mapValues Descriptor.plain r.descriptors :=
      hplain ▸ List.mem_map_of_mem he
    obtain ⟨e₀, he₀, heq⟩ := List.mem_map.1 hmem
    have hd : e₀.2.plain = e.2.plain := (Prod.mk.inj heq).2
    have hcollection₀ : e₀.2.plain.hasEndpoints = true := hd ▸ hcollection
    have hnames : e₀.2.plain.single.isSome = true ∧ e₀.2.plain.list.isSome = true :=
      h.endpoints e₀ he₀ hcollection₀
    rw [hd] at hnames
    exact hnames

/-- **Built registries have names for everything**, before and after finalizing. -/
theorem Built.addressed (h : Built r) : r.Addressed :=
  h.keeps (I := Addressed) ⟨List.nodup_nil, List.nodup_nil, fun _ he => absurd he List.not_mem_nil⟩
    (fun hr _ hnames hadd => hr.add hnames hadd)
    (fun _ hr => ⟨hr.entities, Record.nodup_keys_put hr.mutations _ _, hr.endpoints⟩)
    fun {r} _ hr => hr.of_plain (frame_finalize r).1 (frame_finalize r).2

end Registry

/-! ## The list of endpoints -/

namespace Endpoint

variable {e : Exposure} {r : Registry} {name : String} {d : Descriptor} {ep : Endpoint}

/-- **The endpoints of an entity** are those that are included. -/
theorem mem_ofEntity : ep ∈ ofEntity e name d ↔ d.hasEndpoints = true ∧
    (Exposure.Includes e.queries name ∧ ep ∈ reading name d ∨
      Exposure.Includes e.mutations name ∧ ep ∈ writing name d) := by
  unfold ofEntity
  rw [← included_iff, ← included_iff]
  split
  · rename_i hcollection
    simp [hcollection]
  · rename_i hcollection
    simp [hcollection]

/-- The endpoints that write: three for the documents, and one for each state action. -/
theorem mem_writing : ep ∈ writing name d ↔
    ep = ⟨"add" ++ Text.pascalCase (d.single.getD ""), .save, some name, none⟩ ∨
    ep = ⟨"update" ++ Text.pascalCase (d.single.getD ""), .update, some name, none⟩ ∨
    ep = ⟨"delete" ++ Text.pascalCase (d.single.getD ""), .delete, some name, none⟩ ∨
    ∃ m action, d.machine = some m ∧ Record.has m.actions action = true ∧
      ep = ⟨action ++ "_" ++ Text.pascalCase (d.single.getD ""), .state, some name,
        some action⟩ := by
  have hactions : ∀ action, action ∈ (d.machine.map fun m => Record.keys m.actions).getD [] ↔
      ∃ m, d.machine = some m ∧ Record.has m.actions action = true := fun action => by
    rcases d.machine with _ | m
    · simp
    · simp [Record.mem_keys_iff]
  simp only [writing, List.cons_append, List.nil_append, List.mem_cons, List.mem_map, hactions]
  refine or_congr_right (or_congr_right (or_congr_right ⟨?_, ?_⟩))
  · rintro ⟨action, ⟨m, hm, ha⟩, rfl⟩
    exact ⟨m, action, hm, ha, rfl⟩
  · rintro ⟨m, action, hm, ha, rfl⟩
    exact ⟨action, ⟨m, hm, ha⟩, rfl⟩

/-- **The list has what is to be exposed**, and nothing else. -/
theorem mem_all (hr : r.Addressed) : ep ∈ all e r ↔ e.Exposes r ep := by
  rw [all, List.mem_append, List.mem_flatMap, List.mem_map]
  constructor
  · rintro (⟨⟨name, d⟩, hmem, hep⟩ | ⟨name, hname, rfl⟩)
    · have hd : Record.get? r.descriptors name = some d := Record.get?_of_mem hr.entities hmem
      obtain ⟨hcollection, hep⟩ := mem_ofEntity.1 hep
      obtain ⟨hsingle, hlist⟩ := hr.endpoints _ hmem hcollection
      obtain ⟨single, hsingle⟩ := Option.isSome_iff_exists.1 hsingle
      obtain ⟨list, hlist⟩ := Option.isSome_iff_exists.1 hlist
      rcases hep with ⟨hincluded, hep⟩ | ⟨hincluded, hep⟩
      · rw [reading, hsingle, hlist, List.mem_cons, List.mem_singleton] at hep
        rcases hep with rfl | rfl
        · exact .get hd hcollection hsingle hincluded
        · exact .find hd hcollection hlist hincluded
      · rw [mem_writing, hsingle] at hep
        rcases hep with rfl | rfl | rfl | ⟨m, action, hm, ha, rfl⟩
        · exact .save hd hcollection hsingle hincluded
        · exact .update hd hcollection hsingle hincluded
        · exact .delete hd hcollection hsingle hincluded
        · exact .state hd hcollection hsingle hincluded hm ha
    · rw [List.mem_filter, Record.mem_keys_iff, included_iff] at hname
      exact .custom hname.1 hname.2
  · have hentity : ∀ {name : String} {d : Descriptor}, Record.get? r.descriptors name = some d →
        ep ∈ ofEntity e name d → ∃ x ∈ r.descriptors, ep ∈ ofEntity e x.1 x.2 := fun hd hep =>
      ⟨_, Record.mem_of_get?_eq_some hd, hep⟩
    intro hep
    cases hep with
    | get hd hc hs hi =>
      refine .inl (hentity hd (mem_ofEntity.2 ⟨hc, .inl ⟨hi, ?_⟩⟩))
      rw [reading, hs]
      exact List.mem_cons_self ..
    | find hd hc hs hi =>
      refine .inl (hentity hd (mem_ofEntity.2 ⟨hc, .inl ⟨hi, ?_⟩⟩))
      rw [reading, hs]
      exact List.mem_cons_of_mem _ (List.mem_cons_self ..)
    | save hd hc hs hi =>
      refine .inl (hentity hd (mem_ofEntity.2 ⟨hc, .inr ⟨hi, mem_writing.2 (.inl ?_)⟩⟩))
      rw [hs]
      rfl
    | update hd hc hs hi =>
      refine .inl (hentity hd (mem_ofEntity.2 ⟨hc, .inr ⟨hi, mem_writing.2 (.inr (.inl ?_))⟩⟩))
      rw [hs]
      rfl
    | delete hd hc hs hi =>
      refine .inl (hentity hd (mem_ofEntity.2 ⟨hc,
        .inr ⟨hi, mem_writing.2 (.inr (.inr (.inl ?_)))⟩⟩))
      rw [hs]
      rfl
    | state hd hc hs hi hm ha =>
      refine .inl (hentity hd (mem_ofEntity.2 ⟨hc,
        .inr ⟨hi, mem_writing.2 (.inr (.inr (.inr ⟨_, _, hm, ha, ?_⟩)))⟩⟩))
      rw [hs]
      rfl
    | custom hm hi =>
      exact .inr ⟨_, List.mem_filter.2 ⟨(Record.mem_keys_iff ..).2 hm, included_iff.2 hi⟩, rfl⟩

theorem entity_of_mem_ofEntity (h : ep ∈ ofEntity e name d) : ep.entity = some name := by
  rcases (mem_ofEntity.1 h).2 with ⟨-, hep⟩ | ⟨-, hep⟩
  · rw [reading, List.mem_cons, List.mem_singleton] at hep
    rcases hep with rfl | rfl <;> rfl
  · rcases mem_writing.1 hep with rfl | rfl | rfl | ⟨m, action, -, -, rfl⟩ <;> rfl

/-- The endpoints of one entity differ in kind or action. -/
theorem nodup_ofEntity (h : ∀ m, d.machine = some m → (Record.keys m.actions).Nodup) :
    (ofEntity e name d).Nodup := by
  have hactions : ((d.machine.map fun m => Record.keys m.actions).getD []).Nodup := by
    rcases hm : d.machine with _ | m
    · exact List.nodup_nil
    · exact h m hm
  have hboth : (reading name d ++ writing name d).Nodup := by
    refine List.Nodup.of_map (fun ep : Endpoint => (ep.kind, ep.action)) ?_
    have hstates : (((d.machine.map fun m => Record.keys m.actions).getD []).map
        fun a => (EndpointKind.state, some a)).Nodup :=
      hactions.map fun a b hab => Option.some.inj (Prod.mk.inj hab).2
    simpa [reading, writing, Function.comp_def] using hstates
  unfold ofEntity
  split
  · refine hboth.sublist (List.Sublist.append ?_ ?_)
    · split
      · exact List.Sublist.refl _
      · exact List.nil_sublist _
    · split
      · exact List.Sublist.refl _
      · exact List.nil_sublist _
  · exact List.nodup_nil

/-- **Every endpoint is listed once.** -/
theorem nodup_all (hr : r.Addressed) (hactions : r.NamesActions) (e : Exposure) :
    (all e r).Nodup := by
  refine List.nodup_append'.2 ⟨List.nodup_flatMap.2 ⟨fun x hx => nodup_ofEntity (hactions x hx),
    ?_⟩, ((hr.mutations.filter _).map fun a b hab => congrArg Endpoint.name hab),
    fun ep hep hcustom => ?_⟩
  · refine (List.pairwise_map.1 hr.entities).imp fun hne ep ha hb => hne (Option.some.inj ?_)
    rw [← entity_of_mem_ofEntity ha, entity_of_mem_ofEntity hb]
  · obtain ⟨x, -, hx⟩ := List.mem_flatMap.1 hep
    obtain ⟨name, -, rfl⟩ := List.mem_map.1 hcustom
    cases entity_of_mem_ofEntity hx

/-! ## Entering -/

/-- **Entering endpoints** into a table: they come behind what is there, or the name of one is met
again. -/
theorem enter_cases {eps : List Endpoint} {t : Record Endpoint} (ht : (Record.keys t).Nodup) :
    ((Record.keys t ++ eps.map Endpoint.name).Nodup ∧
      enter eps t = .ok (t ++ eps.map fun ep => (ep.name, ep))) ∨
    ∃ before ep after, eps = before ++ ep ::
      after ∧ ep.name ∈ Record.keys t ++ before.map Endpoint.name ∧
      enter eps t = .error (Reason.duplicateEndpoint ep.name).fault := by
  induction eps generalizing t with
  | nil =>
    rw [List.map_nil, List.map_nil, List.append_nil, List.append_nil]
    exact .inl ⟨ht, rfl⟩
  | cons ep rest ih =>
    rw [enter]
    by_cases hhas : Record.has t ep.name = true
    · rw [if_pos hhas]
      exact .inr ⟨[], ep, rest, rfl, List.mem_append_left _ ((Record.mem_keys_iff ..).2 hhas), rfl⟩
    · have hput : Record.put t ep.name ep = t ++ [(ep.name, ep)] := by
        rcases Record.put_cases t ep.name with ⟨-, hput⟩ | ⟨before, old, after, hsome, -⟩
        · exact hput ep
        · rw [Record.has, hsome] at hhas
          exact absurd rfl hhas
      have hkeys : Record.keys (t ++ [(ep.name, ep)]) = Record.keys t ++ [ep.name] :=
        List.map_append
      have hstep := ih (hput ▸ Record.nodup_keys_put ht ep.name ep)
      rw [if_neg hhas, hput]
      rw [hkeys, List.append_assoc, List.append_assoc] at hstep
      rcases hstep with hok | ⟨before, other, after, rfl, hname, herror⟩
      · exact .inl hok
      · rw [List.append_assoc] at hname
        exact .inr ⟨ep :: before, other, after, rfl, hname, herror⟩

/-- **The table decides.** In a registry that was built, finalized or not, and for all inclusion
lists: the table is refused, with a configuration error about the name, exactly when two different
endpoints that are to be exposed have the same name. Otherwise it has these endpoints and no others,
each under its name and no name twice; and what is found under a name is the endpoint of that name,
with its kind, its entity and its action. -/
theorem table_decides (hr : r.Built) (hactions : r.NamesActions) (e : Exposure) :
    ((∃ f, table e r = .error f ∧ f.IsConfiguration) ↔ ∃ name, e.Clashes r name) ∧
    (∀ f, table e r = .error f → ∃ name, e.Clashes r name ∧
      f = (Reason.duplicateEndpoint name).fault) ∧
    ((¬ ∃ name, e.Clashes r name) → ∃ t, table e r = .ok t ∧ (Record.keys t).Nodup ∧
      (∀ name ep, (name, ep) ∈ t ↔ e.Exposes r ep ∧ ep.name = name) ∧
      ∀ name ep, Record.get? t name = some ep ↔ e.Exposes r ep ∧ ep.name = name) := by
  have hmem : ∀ ep, ep ∈ all e r ↔ e.Exposes r ep := fun ep => mem_all hr.addressed
  have hcases := @enter_cases (all e r) [] List.nodup_nil
  rcases hcases with ⟨hnames, hok⟩ | ⟨before, b, after, hall, hname, herror⟩
  · have hfree : ¬ ∃ name, e.Clashes r name := by
      rintro ⟨name, a, b, ha, hb, hne, rfl, hsame⟩
      exact hne (List.inj_on_of_nodup_map hnames ((hmem a).2 ha) ((hmem b).2 hb) hsame.symm)
    have hentries : ∀ name ep, (name, ep) ∈ ([] ++ (all e r).map fun ep => (ep.name, ep)) ↔
        e.Exposes r ep ∧ ep.name = name := fun name ep => by
      rw [List.nil_append, List.mem_map, ← hmem]
      constructor
      · rintro ⟨ep, hep, heq⟩
        cases heq
        exact ⟨hep, rfl⟩
      · rintro ⟨hep, rfl⟩
        exact ⟨ep, hep, rfl⟩
    have hkeys : (Record.keys ([] ++ (all e r).map fun ep => (ep.name, ep))).Nodup := by
      rw [List.nil_append, Record.keys, List.map_map]
      exact hnames
    refine ⟨⟨fun hrefused => ?_, fun hclash => absurd hclash hfree⟩, fun f hf => ?_,
      fun _ => ⟨_, hok, hkeys, hentries, fun name ep => (Iff.intro ?_ ?_).trans (hentries name ep)⟩⟩
    · obtain ⟨f, hf, -⟩ := hrefused
      cases hok.symm.trans hf
    · cases hok.symm.trans hf
    · exact Record.mem_of_get?_eq_some
    · exact Record.get?_of_mem hkeys
  · obtain ⟨a, ha, hsame⟩ : ∃ a ∈ before, a.name = b.name := List.mem_map.1 hname
    have hne : a ≠ b := by
      have hnodup := nodup_all hr.addressed hactions e
      rw [hall] at hnodup
      exact fun heq => List.disjoint_of_nodup_append hnodup ha (heq ▸ List.mem_cons_self ..)
    have hclash : e.Clashes r b.name := by
      refine ⟨a, b, (hmem a).1 ?_, (hmem b).1 ?_, hne, hsame, rfl⟩ <;> rw [hall]
      · exact List.mem_append_left _ ha
      · exact List.mem_append_right _ (List.mem_cons_self ..)
    refine ⟨⟨fun _ => ⟨_, hclash⟩, fun _ => ⟨_, herror, _, rfl, rfl⟩⟩, fun f hf => ⟨_, hclash, ?_⟩,
      fun hfree => absurd ⟨_, hclash⟩ hfree⟩
    exact Except.error.inj (hf.symm.trans herror)

end Endpoint

/-! ## A mutation in the way of an action -/

/-- The desk with a custom mutation that is called like the action that closes tasks. -/
def closingDesk : Registry :=
  { deskRegistry with mutations := [("close_Task", ⟨"close_Task", .null, none, .null⟩)] }

theorem closingDesk_built : closingDesk.Built :=
  .mutation (m := ⟨"close_Task", .null, none, .null⟩) desk_built rfl

theorem closingDesk_namesActions : closingDesk.NamesActions := by
  intro e he m hm
  have hd : Record.get? deskRegistry.descriptors e.1 = some e.2 :=
    Record.get?_of_mem desk_built.addressed.entities he
  obtain ⟨-, -, hmachine, -⟩ | ⟨-, -, hmachine, -⟩ := desk_descriptor hd
  · rw [hmachine] at hm
    cases hm
  · rw [hmachine] at hm
    cases hm
    decide

/-- The mutation and the action clash. Without the mutation, the action is found under the name. -/
theorem closingDesk_endpoints :
    (∃ f, Endpoint.table .everything closingDesk = .error f ∧ f.IsConfiguration) ∧
    ∃ t, Endpoint.table ⟨none, none, some []⟩ closingDesk = .ok t ∧
      Record.get? t "close_Task" = some ⟨"close_Task", .state, some "Task", some "close"⟩ := by
  obtain ⟨p, hd⟩ : ∃ p, Record.get? closingDesk.descriptors "Task" =
      some ⟨task, "tasks", some "task", some "tasks", some taskStates, true, p, ["state"]⟩ :=
      ⟨_, rfl⟩
  have hclose : ∀ customMutations, Exposure.Exposes ⟨none, none, customMutations⟩ closingDesk
      ⟨"close_Task", .state, some "Task", some "close"⟩ := fun _ => by
    have hhas : Record.has taskStates.actions "close" = true := rfl
    exact .state hd rfl rfl (Exposure.includes_none _) rfl hhas
  have hmutation : Exposure.everything.Exposes closingDesk ⟨"close_Task", .custom, none, none⟩ :=
    .custom rfl (Exposure.includes_none _)
  refine ⟨(Endpoint.table_decides closingDesk_built closingDesk_namesActions .everything).1.2
    ⟨"close_Task", _, _, hclose none, hmutation, by decide, rfl, rfl⟩, ?_⟩
  have hdecides := Endpoint.table_decides closingDesk_built closingDesk_namesActions ⟨none, none,
    some []⟩
  obtain ⟨t, ht, -, -, hget⟩ := hdecides.2.2 fun hclash => by
    obtain ⟨f, hf, -⟩ := hdecides.1.2 hclash
    have hok : (Endpoint.table ⟨none, none, some []⟩ closingDesk).isOk = true := rfl
    rw [hf] at hok
    cases hok
  exact ⟨t, ht, (hget _ _).2 ⟨hclose (some []), rfl⟩⟩

end EntityGraph
