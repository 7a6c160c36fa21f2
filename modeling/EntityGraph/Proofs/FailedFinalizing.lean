import EntityGraph.Proofs.EndpointTable
import EntityGraph.Proofs.Schedules

/-!
# When finalizing fails

A relation that leads nowhere is found before anything changes. A cycle is found on the way: by then
the passes have given shapes to some entities and have marked state fields, and nothing of this is
taken back. These shapes lack the lists of related documents and are not sealed
(`Entity.openShapes`). Nothing else of the registry changes (`Registry.Redrawn`).

Which entities have shapes afterwards is settled by what they embed. The passes give shapes to an
entity when all that it embeds have them, so that no cycle can be reached from it
(`Registry.Grounded`). They end when every entity without shapes embeds another one
(`Registry.Passing.stuck`), or at an entity that embeds itself directly. As a cycle stays in the
registry for good, finalizing fails ever after, and open shapes are never sealed (`Registry.Drawn`).
-/

namespace EntityGraph

/-! ## Open shapes -/

namespace Entity

/-- **The open shape** of creations or of updates: it lacks the lists of related documents, and is
not sealed. -/
def openShape (e : Entity) (hasMachine inUpdate : Bool) : InputShape :=
  ⟨(ShapeRef.writing inUpdate e.name).name,
    argumentsOf e.name inUpdate (plainInputs hasMachine e.fields), false⟩

/-- Both open shapes. -/
def openShapes (e : Entity) (hasMachine : Bool) : ShapePair :=
  ⟨e.openShape hasMachine false, e.openShape hasMachine true⟩

end Entity

namespace ShapeDraft

/-- The draft of all fields has the open shapes of the entity. -/
theorem Drafted.openShapes {e : Entity} {hasMachine : Bool} {d : ShapeDraft}
    (h : d.Drafted e.name hasMachine e.fields) :
    (⟨d.add, d.update⟩ : ShapePair) = e.openShapes hasMachine :=
  congrArg₂ ShapePair.mk (h.shape false) (h.shape true)

/-- A draft marks nothing but the state field of a machine. -/
theorem machineOwned_addFields {r : Registry}
    (hr : ∀ name d, Record.get? r.descriptors name = some d → d.name = name) (owner : String)
    (hasMachine : Bool) (d : ShapeDraft) (fields : List FieldDef) :
    (addFields r owner hasMachine d fields).1.machineOwned = d.machineOwned ∨
      hasMachine = true ∧ (addFields r owner hasMachine d fields).1.machineOwned =
        [stateField] := by
  induction fields generalizing d with
  | nil => exact .inl rfl
  | cons f rest ih =>
    rcases addFields_cases r owner hasMachine d f rest with
      ⟨-, marked, hmarked, heq⟩ | ⟨-, ⟨stop, -, heq⟩ | ⟨d', hadd, heq⟩⟩ <;> rw [heq]
    · rcases ih { d with machineOwned := marked } with hsame | hstate
      · rw [hsame]
        exact hmarked
      · exact .inr hstate
    · exact .inl rfl
    · have hsame : d'.machineOwned = d.machineOwned := by
        rcases addField_cases hr hadd with ⟨-, rfl⟩ | ⟨-, rfl⟩ <;> rfl
      rw [← hsame]
      exact ih d'

end ShapeDraft

/-! ## What changes -/

/-- **Redrawn entities**: shapes that were there stay, new ones are open, and the state field of a
machine may be marked. -/
structure Descriptor.Redrawn (d d' : Descriptor) : Prop where
  plain : d'.plain = d.plain
  kept : d.shapes.isSome = true → d' = d
  drawn : d'.shapes = d.shapes ∨ d'.shapes = some (d.entity.openShapes d.machine.isSome)
  marks : d'.machineOwned = d.machineOwned ∨ d.machine.isSome = true ∧
    d'.machineOwned = [stateField]

namespace Descriptor.Redrawn

variable {d d' d'' : Descriptor}

theorem refl (d : Descriptor) : d.Redrawn d := ⟨rfl, fun _ => rfl, .inl rfl, .inl rfl⟩

theorem entity (h : d.Redrawn d') : d'.entity = d.entity := by
  have hplain : d'.plain.entity = d.plain.entity := by rw [h.plain]
  exact hplain

theorem machine (h : d.Redrawn d') : d'.machine = d.machine := by
  have hplain : d'.plain.machine = d.plain.machine := by rw [h.plain]
  exact hplain

theorem trans (h : d.Redrawn d') (h' : d'.Redrawn d'') : d.Redrawn d'' where
  plain := h'.plain.trans h.plain
  kept := fun hs => by
    obtain rfl := h.kept hs
    exact h'.kept hs
  drawn := by
    rcases h'.drawn with hsame | hopen
    · rw [hsame]
      exact h.drawn
    · rw [hopen, h.entity, h.machine]
      exact .inr rfl
  marks := by
    rcases h'.marks with hsame | ⟨hmachine, hstate⟩
    · rw [hsame]
      exact h.marks
    · exact .inr ⟨h.machine ▸ hmachine, hstate⟩

end Descriptor.Redrawn

namespace Registry

/-- **Redrawn registries**: the same entities in the same order, some of them redrawn, and nothing
else changed. -/
structure Redrawn (r r' : Registry) : Prop where
  mutations : r'.mutations = r.mutations
  finalized : r'.finalized = r.finalized
  keys : Record.keys r'.descriptors = Record.keys r.descriptors
  entities : ∀ name d', Record.get? r'.descriptors name = some d' →
    ∃ d, Record.get? r.descriptors name = some d ∧ d.Redrawn d'

variable {r₀ r r' r'' : Registry} {name other : String} {d d' : Descriptor}

namespace Redrawn

theorem refl (r : Registry) : r.Redrawn r := ⟨rfl, rfl, rfl, fun _ d hd => ⟨d, hd, .refl d⟩⟩

theorem trans (h : r.Redrawn r') (h' : r'.Redrawn r'') : r.Redrawn r'' where
  mutations := h'.mutations.trans h.mutations
  finalized := h'.finalized.trans h.finalized
  keys := h'.keys.trans h.keys
  entities := fun name d'' hd'' => by
    obtain ⟨d', hd', hlater⟩ := h'.entities name d'' hd''
    obtain ⟨d, hd, hearlier⟩ := h.entities name d' hd'
    exact ⟨d, hd, hearlier.trans hlater⟩

/-- Nobody is lost. -/
theorem exists_of_get? (h : r.Redrawn r') (hd : Record.get? r.descriptors name = some d) :
    ∃ d', Record.get? r'.descriptors name = some d' ∧ d.Redrawn d' := by
  have hhas : Record.has r'.descriptors name = true := by
    rw [← Record.mem_keys_iff, h.keys, Record.mem_keys_iff, Record.has, hd]
    rfl
  obtain ⟨d', hd'⟩ := Option.isSome_iff_exists.1 hhas
  obtain ⟨d₀, hd₀, hredrawn⟩ := h.entities name d' hd'
  obtain rfl : d₀ = d := Option.some.inj (hd₀.symm.trans hd)
  exact ⟨d', hd', hredrawn⟩

theorem alike (h : r.Redrawn r') : Alike r r' := by
  intro name
  rcases hd' : Record.get? r'.descriptors name with _ | d'
  · rcases hd : Record.get? r.descriptors name with _ | d
    · rfl
    · obtain ⟨d', hsome, -⟩ := h.exists_of_get? hd
      rw [hsome] at hd'
      cases hd'
  · obtain ⟨d, hd, hredrawn⟩ := h.entities name d' hd'
    rw [hd, Option.map_some, Option.map_some, hredrawn.entity, hredrawn.machine]

theorem named (h : r.Redrawn r')
    (hr : ∀ name d, Record.get? r.descriptors name = some d → d.name = name)
    (hd' : Record.get? r'.descriptors name = some d') : d'.name = name := by
  obtain ⟨d, hd, hredrawn⟩ := h.entities name d' hd'
  rw [Descriptor.name, hredrawn.entity]
  exact hr name d hd

/-- Redrawing one entity. -/
theorem change {f : Descriptor → Descriptor} (hd : Record.get? r.descriptors name = some d)
    (h : d.Redrawn (f d)) : r.Redrawn (r.change name f) where
  mutations := mutations_change f
  finalized := by
    unfold Registry.change
    split <;> rfl
  keys := by
    unfold Registry.change
    rw [hd]
    exact Record.keys_put_of_get? hd _
  entities := fun other d' hd' => by
    obtain ⟨d₀, hd₀, ⟨rfl, -⟩ | ⟨rfl, rfl⟩⟩ := exists_of_get?_change hd'
    · exact ⟨d', hd₀, .refl d'⟩
    · obtain rfl : d₀ = d := Option.some.inj (hd₀.symm.trans hd)
      exact ⟨d₀, hd₀, h⟩

end Redrawn

/-- **One step of a pass** redraws the entity that it tries. -/
theorem redrawn_tryDraft (hr : ∀ name d, Record.get? r.descriptors name = some d → d.name = name)
    (hname : r.Unshaped name) (p : Progress) : r.Redrawn ((tryDraft p name).run.run r).2 := by
  obtain ⟨d, hd, hbare⟩ := hname
  have hnot : ¬ d.shapes.isSome = true := by
    rw [hbare]
    exact Bool.false_ne_true
  rcases run_tryDraft p name r with ⟨hnone, -⟩ | ⟨d₁, draft, owned, hd₁, howned, hcases⟩
  · rw [hd] at hnone
    cases hnone
  obtain rfl : d₁ = d := Option.some.inj (hd₁.symm.trans hd)
  have hdrawn : draft = (ShapeDraft.addFields r name d₁.machine.isSome (ShapeDraft.start name)
      d₁.entity.fields).1 := by
    rcases hcases with ⟨hadd, -⟩ | ⟨target, hadd, -⟩ | ⟨e, hadd, -⟩ <;> rw [hadd]
  have hmarks : owned = d₁.machineOwned ∨ d₁.machine.isSome = true ∧ owned = [stateField] := by
    rcases ShapeDraft.machineOwned_addFields hr name d₁.machine.isSome (ShapeDraft.start name)
      d₁.entity.fields with
      hnothing | ⟨hmachine, hstate⟩
    · rw [← hdrawn] at hnothing
      exact .inl (howned.trans (if_pos (by rw [hnothing]; rfl)))
    · rw [← hdrawn] at hstate
      exact .inr ⟨hmachine, by rw [howned, hstate]; rfl⟩
  have hown : r.Redrawn (r.change name ({ · with machineOwned := owned })) :=
    .change hd ⟨rfl, fun hs => absurd hs hnot, .inl rfl, hmarks⟩
  obtain ⟨hadd, hrun⟩ | ⟨target, -, hrun⟩ | ⟨e, -, hrun⟩ := hcases
  all_goals rw [hrun]
  · have hget : Record.get? (r.change name ({ · with machineOwned := owned })).descriptors name =
        some { d₁ with machineOwned := owned } := by
      rw [get?_change, if_pos rfl, hd]
      rfl
    have hdrafted : draft.Drafted d₁.entity.name d₁.machine.isSome d₁.entity.fields := by
      have hstart : (ShapeDraft.start name).Drafted name d₁.machine.isSome [] :=
        ShapeDraft.drafted_start
      have hall := hstart.addFields hr d₁.entity.names_nodup hadd
      rw [← hr name d₁ hd] at hall
      exact hall
    exact hown.trans (.change hget ⟨rfl, fun hs => absurd hs hnot,
      .inr (congrArg some hdrafted.openShapes), .inl rfl⟩)
  · exact hown
  · exact hown

/-! ## Which entities have shapes -/

/-- **Grounded entities** have shapes, and so have, all the way down, the entities that they
embed. -/
inductive Grounded (r : Registry) : String → Prop where
  | intro {name : String} {d : Descriptor} (hd : Record.get? r.descriptors name = some d)
      (hs : d.shapes.isSome = true) (h : ∀ target, r.Embeds name target → Grounded r target) :
      Grounded r name

/-- No cycle can be reached from a grounded entity. -/
theorem Grounded.acc (h : r.Grounded name) : Acc (fun target e => r.Embeds e target) name := by
  induction h with
  | intro _ _ _ ih => exact Acc.intro _ ih

/-- Grounded entities stay grounded while entities keep their fields, and those with shapes have
some. -/
theorem Grounded.mono (h : r.Grounded name)
    (hkeep : ∀ name d, Record.get? r.descriptors name = some d → d.shapes.isSome = true →
      ∃ d', Record.get? r'.descriptors name = some d' ∧ d'.entity = d.entity ∧
        d'.machine.isSome = d.machine.isSome ∧ d'.shapes.isSome = true) : r'.Grounded name := by
  induction h with
  | intro hd hs _ ih =>
    obtain ⟨d', hd', hentity, hmachine, hs'⟩ := hkeep _ _ hd hs
    refine .intro hd' hs' fun target hembeds => ih target ?_
    obtain ⟨d'', hd'', f, hf, ht, he, htarget⟩ := hembeds
    obtain rfl : d'' = d' := Option.some.inj (hd''.symm.trans hd')
    exact ⟨_, hd, f, hentity ▸ hf, hmachine ▸ ht, he, htarget⟩

theorem Grounded.redrawn (h : r.Grounded name) (hr : r.Redrawn r') : r'.Grounded name := by
  refine h.mono fun name d hd hs => ?_
  obtain ⟨d', hd', hredrawn⟩ := hr.exists_of_get? hd
  obtain rfl := hredrawn.kept hs
  exact ⟨d', hd', rfl, rfl, hs⟩

/-- All entities with shapes are grounded. -/
def AllGrounded (r : Registry) : Prop :=
  ∀ name d, Record.get? r.descriptors name = some d → d.shapes.isSome = true → r.Grounded name

/-- Registries of the same entities have the same embeddings. -/
theorem Alike.embeds_eq (h : Alike r r') : r.Embeds = r'.Embeds := by
  have himp : ∀ {r r' : Registry} {e target : String}, Alike r r' → r'.Embeds e target →
      r.Embeds e target := by
    rintro r r' e target h ⟨d, hd, hfield⟩
    exact (embeds_iff_of_alike h hd).2 hfield
  funext e target
  exact propext ⟨himp fun name => (h name).symm, himp h⟩

theorem Alike.acyclic_iff (h : Alike r r') : r.Acyclic ↔ r'.Acyclic := by
  unfold Acyclic
  rw [h.embeds_eq]

/-- An entity is given shapes when all that it embeds have them. -/
theorem settled_of_tryDraft (hr : ∀ name d, Record.get? r.descriptors name = some d → d.name = name)
    (hleads : r.AllLead) {p : Progress} (hd : Record.get? r.descriptors other = some d)
    (hbare : d.shapes = none) (hd' : Record.get? ((tryDraft p name).run.run r).2.descriptors other =
      some d') (hs : d'.shapes.isSome = true)
    {target : String} (hembeds : r.Embeds other target) :
    ∃ t, Record.get? r.descriptors target = some t ∧ t.shapes.isSome = true := by
  have hstill : ¬ d.shapes.isSome = true := by
    rw [hbare]
    exact Bool.false_ne_true
  have hown : ∀ {owned : List String} {d₁ : Descriptor},
      Record.get? (r.change name ({ · with machineOwned := owned })).descriptors other = some d₁ →
        ¬ d₁.shapes.isSome = true := by
    intro owned d₁ hd₁
    obtain ⟨d₀, hd₀, ⟨rfl, -⟩ | ⟨rfl, -⟩⟩ := exists_of_get?_change hd₁
    all_goals
      obtain rfl := Option.some.inj (hd₀.symm.trans hd)
      exact hstill
  rcases run_tryDraft p name r with
    ⟨-, hrun⟩ | ⟨d₀, draft, owned, hd₀, -, ⟨hadd, hrun⟩ | ⟨_, -, hrun⟩ | ⟨_, -, hrun⟩⟩
  all_goals rw [hrun] at hd'
  · obtain rfl := Option.some.inj (hd'.symm.trans hd)
    exact absurd hs hstill
  · obtain ⟨d₁, hd₁, ⟨rfl, -⟩ | ⟨-, rfl⟩⟩ := exists_of_get?_change hd'
    · exact absurd hs (hown hd₁)
    obtain rfl : d₀ = d := Option.some.inj (hd₀.symm.trans hd)
    have hends := endsAt_addFields hr (fun f hf => hleads name d₀ hd₀ f hf) name d₀.machine.isSome
      (ShapeDraft.start name)
    rw [hadd] at hends
    obtain ⟨d₁, hd₁, f, hf, ht, he, htarget⟩ := hembeds
    obtain rfl : d₁ = d₀ := Option.some.inj (hd₁.symm.trans hd)
    obtain ⟨target', t, htarget', hget, hshaped⟩ := hends f hf ht he
    obtain rfl : target = target' := Option.some.inj (htarget.symm.trans htarget')
    exact ⟨t, hget, hshaped⟩
  · exact absurd hs (hown hd')
  · exact absurd hs (hown hd')

/-- **Passes under way** from the registry `r₀`: it was only redrawn, and all entities with shapes
are grounded. -/
structure Redrawing (r₀ r : Registry) : Prop where
  redrawn : r₀.Redrawn r
  grounded : r.AllGrounded

theorem Redrawing.tryDraft (hr₀ : ∀ name d, Record.get? r₀.descriptors name = some d →
    d.name = name) (h₀ : r₀.AllLead) (h : Redrawing r₀ r) (hname : r.Unshaped name) (p : Progress) :
    Redrawing r₀ ((tryDraft p name).run.run r).2 := by
  have hr : ∀ name d, Record.get? r.descriptors name = some d → d.name = name :=
    fun _ _ => h.redrawn.named hr₀
  have hstep := redrawn_tryDraft hr hname p
  refine ⟨h.redrawn.trans hstep, fun other d' hd' hs => ?_⟩
  obtain ⟨d, hd, -⟩ := hstep.entities other d' hd'
  by_cases hbefore : d.shapes.isSome = true
  · exact (h.grounded other d hd hbefore).redrawn hstep
  · refine .intro hd' hs fun target hembeds => ?_
    obtain ⟨t, ht, hshaped⟩ := settled_of_tryDraft hr (h₀.alike h.redrawn.alike) hd
      (Option.not_isSome_iff_eq_none.1 hbefore) hd' hs (hstep.alike.embeds_eq ▸ hembeds)
    exact (h.grounded target t ht hshaped).redrawn hstep

/-! ## All passes -/

/-- A step changes no other entity. -/
theorem get?_tryDraft_of_ne (hne : name ≠ other) (p : Progress) :
    Record.get? ((tryDraft p name).run.run r).2.descriptors other =
      Record.get? r.descriptors other := by
  have hchange : ∀ (r : Registry) (f : Descriptor → Descriptor),
      Record.get? (r.change name f).descriptors other = Record.get? r.descriptors other := by
    intro r f
    rw [get?_change, if_neg hne]
  rcases run_tryDraft p name r with
    ⟨-, hrun⟩ | ⟨d, draft, owned, -, -, ⟨-, hrun⟩ | ⟨_, -, hrun⟩ | ⟨_, -, hrun⟩⟩
  all_goals rw [hrun]
  · rw [hchange, hchange]
  · rw [hchange]
  · rw [hchange]

/-- An entity that waits has no shapes. -/
theorem waiting_tryDraft {p q : Progress} (hname : r.Unshaped name)
    (hrun : (tryDraft p name).run.run r = (.ok q, r')) :
    q.waiting = p.waiting ∨ q.waiting = p.waiting ++ [name] ∧ r'.Unshaped name := by
  obtain ⟨d, hd, hbare⟩ := hname
  rcases run_tryDraft p name r with
    ⟨-, heq⟩ | ⟨d₁, draft, owned, -, -, ⟨-, heq⟩ | ⟨_, -, heq⟩ | ⟨_, -, heq⟩⟩
  all_goals
    rw [heq] at hrun
    cases hrun
  · exact .inl rfl
  · exact .inl rfl
  · refine .inr ⟨rfl, { d with machineOwned := owned }, ?_, hbare⟩
    rw [get?_change, if_pos rfl, hd]
    rfl

/-- **A pass only tries entities without shapes.** What every such try keeps is kept by the pass;
and who waits after it was waiting before, in the same order, and has no shapes. -/
theorem keeps_foldlM_of_unshaped {J : Registry → Prop}
    (hstep : ∀ r p name, J r → r.Unshaped name → J ((tryDraft p name).run.run r).2)
    {names : List String} {p : Progress} (hr : J r) (hnodup : (p.waiting ++ names).Nodup)
    (hbare : ∀ n ∈ p.waiting ++ names, r.Unshaped n) :
    J ((names.foldlM tryDraft p).run.run r).2 ∧
      ∀ q r', (names.foldlM tryDraft p).run.run r = (.ok q, r') →
        (∃ kept, kept.Sublist names ∧ q.waiting = p.waiting ++ kept) ∧ ∀ n ∈ q.waiting,
          r'.Unshaped n := by
  induction names generalizing p r with
  | nil =>
    rw [List.append_nil] at hbare
    refine ⟨hr, fun q r' hrun => ?_⟩
    cases hrun
    exact ⟨⟨[], .slnil, (List.append_nil _).symm⟩, hbare⟩
  | cons name rest ih =>
    have hname : r.Unshaped name := hbare name (List.mem_append_right _ (List.mem_cons_self ..))
    have hJ := hstep r p name hr hname
    rw [List.foldlM_cons]
    rcases hfirst : (tryDraft p name).run.run r with ⟨e | p', r₁⟩
    · rw [hfirst] at hJ
      rw [Action.run_bind_error hfirst]
      exact ⟨hJ, fun q r' hrun => by cases hrun⟩
    rw [hfirst] at hJ
    rw [Action.run_bind_ok hfirst]
    have hothers : ∀ n ∈ p.waiting ++ rest, r₁.Unshaped n := by
      intro n hn
      have hne : name ≠ n := by
        rintro rfl
        exact (List.nodup_middle.1 hnodup |> List.nodup_cons.1).1 hn
      obtain ⟨d, hd, hnone⟩ := hbare n ((List.mem_append.1 hn).elim (List.mem_append_left _)
        fun h => List.mem_append_right _ (List.mem_cons_of_mem _ h))
      have hsame := get?_tryDraft_of_ne (r := r) hne p
      rw [hfirst] at hsame
      exact ⟨d, hsame.trans hd, hnone⟩
    rcases waiting_tryDraft hname hfirst with hwaiting | ⟨hwaiting, hstill⟩
    · have hnodup' : (p'.waiting ++ rest).Nodup := by
        rw [hwaiting]
        exact (List.nodup_middle.1 hnodup).of_cons
      obtain ⟨hlast, hrest⟩ := ih hJ hnodup' (hwaiting ▸ hothers)
      refine ⟨hlast, fun q r' hrun => ?_⟩
      obtain ⟨⟨kept, hkept, hq⟩, hunshaped⟩ := hrest q r' hrun
      exact ⟨⟨kept, hkept.cons _, hwaiting ▸ hq⟩, hunshaped⟩
    · have hqueue : p'.waiting ++ rest = p.waiting ++ name :: rest := by
        rw [hwaiting, List.append_assoc, List.singleton_append]
      obtain ⟨hlast, hrest⟩ := ih hJ (hqueue ▸ hnodup) fun n hn => by
        rw [hqueue] at hn
        rcases List.mem_append.1 hn with hn | hn
        · exact hothers n (List.mem_append_left _ hn)
        · rcases List.mem_cons.1 hn with rfl | hn
          · exact hstill
          · exact hothers n (List.mem_append_right _ hn)
      refine ⟨hlast, fun q r' hrun => ?_⟩
      obtain ⟨⟨kept, hkept, hq⟩, hunshaped⟩ := hrest q r' hrun
      refine ⟨⟨name :: kept, hkept.cons_cons _, ?_⟩, hunshaped⟩
      rw [hq, hwaiting, List.append_assoc, List.singleton_append]

/-- **All passes** keep what every try of an entity without shapes keeps. -/
theorem keeps_passes_of_unshaped {J : Registry → Prop}
    (hstep : ∀ r p name, J r → r.Unshaped name → J ((tryDraft p name).run.run r).2) {fuel : Nat}
    {p : Progress} (hr : J r) (hnodup : p.waiting.Nodup) (hbare : ∀ n ∈ p.waiting, r.Unshaped n) :
    J ((passes fuel p).run.run r).2 := by
  induction fuel generalizing p r with
  | zero => exact hr
  | succ fuel ih =>
    obtain ⟨hJ, hqueue⟩ := keeps_foldlM_of_unshaped hstep (p := ⟨[], p.done, []⟩) hr hnodup hbare
    rw [passes]
    rcases hpass : (onePass p).run.run r with ⟨e | q, r₁⟩
    · rw [show p.waiting.foldlM tryDraft ⟨[], p.done, []⟩ = onePass p from rfl, hpass] at hJ
      rw [Action.run_bind_error hpass]
      exact hJ
    · rw [show p.waiting.foldlM tryDraft ⟨[], p.done, []⟩ = onePass p from rfl, hpass] at hJ
      obtain ⟨⟨kept, hkept, hq⟩, hunshaped⟩ := hqueue q r₁ hpass
      rw [Action.run_bind_ok hpass]
      split
      · exact hJ
      · split
        · exact hJ
        · refine ih hJ ?_ hunshaped
          rw [hq, List.nil_append]
          exact hnodup.sublist hkept

/-- **Where the passes end** when they fail: at an entity that embeds itself, or when every entity
without shapes embeds another one. -/
theorem Passing.stuck (h₀ : r₀.AllLead) {fuel : Nat} {p : Progress} (hsome : p.waiting ≠ [])
    (hfuel : p.waiting.length ≤ fuel) (hnodup : p.waiting.Nodup)
    (hbare : ∀ n ∈ p.waiting, r.Unshaped n) (h : Passing r₀ r p.waiting (p.done.map Prod.fst))
    {e : Fault} (hrun : (Registry.passes fuel p).run.run r = (.error e, r')) :
    (∃ name, r₀.Embeds name name) ∨
      ∀ name, r'.Unshaped name → ∃ target, r₀.Embeds name target ∧ r'.Unshaped target := by
  induction fuel generalizing p r with
  | zero => exact absurd (List.length_eq_zero_iff.1 (Nat.le_zero.1 hfuel)) hsome
  | succ fuel ih =>
    have hstart : Passing r₀ r ((⟨[], p.done, []⟩ : Progress).waiting ++ p.waiting)
      (p.done.map Prod.fst) := h
    rw [Registry.passes] at hrun
    rcases hstart.foldlM h₀ with ⟨q, r₁, hpass, hq, hblocked⟩ | ⟨_, _, -, -, hself⟩
    · obtain ⟨⟨kept, hkept, hwaiting⟩, hunshaped⟩ :=
        (keeps_foldlM_of_unshaped (J := fun _ => True) (fun _ _ _ _ _ =>
          trivial) (p := ⟨[], p.done, []⟩) trivial hnodup hbare).2 q r₁ hpass
      rw [List.nil_append] at hwaiting
      subst hwaiting
      rw [Action.run_bind_ok (show (onePass p).run.run r = _ from hpass)] at hrun
      by_cases hempty : q.waiting.isEmpty = true
      · rw [if_pos hempty] at hrun
        cases hrun
      rw [if_neg hempty] at hrun
      by_cases hlength : q.waiting.length = p.waiting.length
      · rw [if_pos hlength] at hrun
        cases hrun
        have hsame : q.waiting = p.waiting := hkept.eq_of_length hlength
        have hwaits : ∀ {registry : Registry} {name : String}, registry.Covered p.waiting →
          registry.Unshaped name →
            name ∈ p.waiting := by
          rintro registry name hcovered ⟨d, hd, hshapes⟩
          refine (hcovered name d hd).resolve_left ?_
          rw [hshapes]
          exact Bool.false_ne_true
        refine .inr fun name hname => ?_
        obtain ⟨target, hembeds, htarget⟩ :=
          hblocked (by simpa using hlength) name (hwaits (hsame ▸ hq.covered) hname)
        exact ⟨target, hembeds, hunshaped target (hsame ▸ hwaits h.covered htarget)⟩
      · rw [if_neg hlength] at hrun
        have hle : q.waiting.length ≤ p.waiting.length := hkept.length_le
        exact ih (fun hnil => hempty (List.isEmpty_iff.2 hnil)) (by omega) (hnodup.sublist hkept)
          hunshaped hq hrun
    · exact .inl hself

/-! ## Finalizing -/

/-- **How finalizing goes**: what it gives, and the registry that it leaves. -/
inductive Finalizing (r : Registry) : Outcome Unit × Registry → Prop where
  /-- the registry is finalized already -/
  | again (hdone : r.finalized = true) : Finalizing r (.ok (), r)
  /-- a relation leads nowhere -/
  | unlinked {e : Fault} (hopen : r.finalized = false)
    (htargets : r.checkTargets r.descriptors = .error e) :
      Finalizing r (.error e, r)
  /-- every entity has its shapes already -/
  | shaped (hopen : r.finalized = false) (htargets : r.checkTargets r.descriptors = .ok ())
      (hnone : r.unshaped = []) : Finalizing r (.ok (), { r with finalized := true })
  /-- the passes give every entity its shapes -/
  | drawn {p : Progress} {r₁ : Registry} (hopen : r.finalized = false)
      (htargets : r.checkTargets r.descriptors = .ok ()) (hsome : r.unshaped ≠ [])
      (hpasses : (passes r.unshaped.length ⟨r.unshaped, [], []⟩).run.run r = (.ok p, r₁)) :
      Finalizing r (.ok (), { r₁.attachDrafts p.done with finalized := true })
  /-- the passes fail -/
  | stuck {e : Fault} {r₁ : Registry} (hopen : r.finalized = false)
      (htargets : r.checkTargets r.descriptors = .ok ()) (hsome : r.unshaped ≠ [])
      (hpasses : (passes r.unshaped.length ⟨r.unshaped, [], []⟩).run.run r = (.error e, r₁)) :
      Finalizing r (.error e, r₁)

theorem finalizing (r : Registry) : Finalizing r (finalize.run.run r) := by
  unfold finalize
  rw [Action.run_bind_ok (Action.run_get r)]
  by_cases hdone : r.finalized = true
  · rw [if_pos hdone]
    exact .again hdone
  rw [if_neg hdone]
  have hopen : r.finalized = false := Bool.eq_false_iff.2 hdone
  rcases htargets : r.checkTargets r.descriptors with e | ⟨⟩
  · exact .unlinked hopen htargets
  rw [Action.run_bind_ok (Action.run_lift _ _)]
  by_cases hnone : r.unshaped.isEmpty = true
  · have hrun : synthesize.run.run r = (.ok (), r) := by
      unfold synthesize
      rw [Action.run_bind_ok (Action.run_get r), if_pos hnone]
      rfl
    rw [Action.run_bind_ok hrun]
    exact .shaped hopen htargets (List.isEmpty_iff.1 hnone)
  have hsome : r.unshaped ≠ [] := fun hnil => hnone (List.isEmpty_iff.2 hnil)
  rcases hpasses : (passes r.unshaped.length ⟨r.unshaped, [], []⟩).run.run r with ⟨e | p, r₁⟩
  · have hrun : synthesize.run.run r = (.error e, r₁) := by
      unfold synthesize
      rw [Action.run_bind_ok (Action.run_get r), if_neg hnone, Action.run_bind_error hpasses]
    rw [Action.run_bind_error hrun]
    exact .stuck hopen htargets hsome hpasses
  · have hrun : synthesize.run.run r = (.ok (), r₁.attachDrafts p.done) := by
      unfold synthesize
      rw [Action.run_bind_ok (Action.run_get r), if_neg hnone, Action.run_bind_ok hpasses]
      rfl
    rw [Action.run_bind_ok hrun]
    exact .drawn hopen htargets hsome hpasses

/-- The check of relations only lets registries through in which all fields lead somewhere. -/
theorem leads_of_checkTargets (h : r.checkTargets r.descriptors = .ok ()) :
    ∀ e ∈ r.descriptors, ∀ f ∈ e.2.entity.fields, r.Leads f :=
  fun _ he _ hf => leads_of_checkRelations (checkTargets_ok h he) hf

theorem linked_of_checkTargets (h : r.checkTargets r.descriptors = .ok ()) : r.Linked := by
  intro e he f hf kind hk hobject
  obtain ⟨kind', hk', htarget⟩ := leads_of_checkTargets h e he f hf
  obtain rfl : kind' = kind := Except.ok.inj (hk'.symm.trans hk)
  obtain ⟨target, t, hname, hne, ht⟩ := htarget hobject
  exact ⟨target, hname, hne, Option.isSome_iff_exists.2 ⟨t, ht⟩⟩

/-- The entities without shapes, each of them once. -/
theorem Built.unshaped_nodup (h : r.Built) : r.unshaped.Nodup :=
  h.addressed.entities.sublist (List.filter_sublist.map _)

theorem Built.unshaped_bare (h : r.Built) : ∀ n ∈ r.unshaped, r.Unshaped n := by
  intro n hn
  obtain ⟨e, he, rfl⟩ := List.mem_map.1 hn
  obtain ⟨hmem, hnone⟩ := List.mem_filter.1 he
  exact ⟨e.2, Record.get?_of_mem h.addressed.entities hmem, Option.isNone_iff_eq_none.1 hnone⟩

/-- **The passes** of finalizing, whether they fail or not. -/
theorem Built.redrawing (h : r.Built) (hgrounded : r.AllGrounded)
    (htargets : r.checkTargets r.descriptors = .ok ()) :
    Redrawing r ((passes r.unshaped.length ⟨r.unshaped, [], []⟩).run.run r).2 := by
  have hleads : r.AllLead := fun name d hd =>
    leads_of_checkTargets htargets (name, d) (Record.mem_of_get?_eq_some hd)
  exact keeps_passes_of_unshaped (J := Redrawing r) (p := ⟨r.unshaped, [], []⟩)
    (fun _ p _ hr hname => hr.tryDraft h.shaped.named hleads hname p) ⟨.refl r, hgrounded⟩
    h.unshaped_nodup h.unshaped_bare

/-- Attaching the drafts adds no entity. -/
theorem exists_of_get?_attachDrafts {done : List (String × ShapeDraft)}
    (hd : Record.get? (r.attachDrafts done).descriptors name = some d) :
    ∃ d₀, Record.get? r.descriptors name = some d₀ := by
  unfold Registry.attachDrafts at hd
  induction done generalizing r with
  | nil => exact ⟨d, hd⟩
  | cons e rest ih =>
    obtain ⟨d₁, hd₁⟩ := ih hd
    obtain ⟨d₀, hd₀, -⟩ := exists_of_get?_change hd₁
    exact ⟨d₀, hd₀⟩

/-- Attaching the drafts leaves entities grounded. -/
theorem Grounded.attachDrafts (h : r.Grounded name) (done : List (String × ShapeDraft)) :
    (r.attachDrafts done).Grounded name := by
  unfold Registry.attachDrafts
  induction done generalizing r with
  | nil => exact h
  | cons e rest ih =>
    refine ih (h.mono fun other d hd hs => ?_)
    rw [get?_change, hd]
    split
    · exact ⟨_, rfl, rfl, rfl, rfl⟩
    · exact ⟨d, rfl, rfl, rfl, hs⟩

theorem AllGrounded.finalize (h : r.AllGrounded) (hr : r.Built) :
    (Registry.finalize.run.run r).2.AllGrounded := by
  generalize hrun : Registry.finalize.run.run r = run
  cases hrun ▸ finalizing r with
  | again => exact h
  | unlinked => exact h
  | shaped =>
    exact fun name d hd hs => (h name d hd hs).mono fun _ d hd hs => ⟨d, hd, rfl, rfl, hs⟩
  | stuck _ htargets _ hpasses =>
    have hpassing := hr.redrawing h htargets
    rw [hpasses] at hpassing
    exact hpassing.grounded
  | @drawn p r₁ _ htargets _ hpasses =>
    have hpassing := hr.redrawing h htargets
    rw [hpasses] at hpassing
    have hcovered := covered_passes hpasses r.covered_unshaped
    intro name d hd _
    obtain ⟨d₁, hd₁⟩ := exists_of_get?_attachDrafts hd
    have hbefore : r₁.Grounded name :=
      hpassing.grounded name d₁ hd₁ ((hcovered name d₁ hd₁).resolve_right List.not_mem_nil)
    exact (hbefore.attachDrafts p.done).mono fun _ d hd hs => ⟨d, hd, rfl, rfl, hs⟩

/-- An entity of another name is found as before. -/
theorem get?_put_of_has (hnew : r.has name = false)
    (hd : Record.get? r.descriptors other = some d') :
    Record.get? (Record.put r.descriptors name d) other = some d' := by
  rw [Record.get?_put, if_neg, hd]
  rintro rfl
  rw [has, Record.has, hd] at hnew
  cases hnew

/-- Registering another entity leaves the others grounded. -/
theorem AllGrounded.add (h : r.AllGrounded) (hd : d.shapes = none) (hr : r.add d = .ok r') :
    r'.AllGrounded := by
  obtain ⟨hnew, -, rfl⟩ := add_eq_ok hr
  intro name d' hd' hs
  rw [Record.get?_put] at hd'
  split at hd'
  · cases hd'
    rw [hd] at hs
    cases hs
  · exact (h name d' hd' hs).mono fun other t ht hshaped =>
      ⟨t, get?_put_of_has hnew ht, rfl, rfl, hshaped⟩

/-- **Shapes are given from the ground up**, in every built registry. -/
theorem Built.allGrounded (h : r.Built) : r.AllGrounded :=
  h.keeps (I := AllGrounded) (fun _ _ hd => (Option.some_ne_none _ hd.symm).elim)
    (fun hr hd _ hadd => hr.add hd hadd) (fun _ hr name d hd hs => (hr name d hd hs).mono
    fun _ t ht hshaped => ⟨t, ht, rfl, rfl, hshaped⟩) fun hbuilt hr => hr.finalize hbuilt

/-- **Finalizing succeeds only without cycles**, whether some entities have shapes already or
not. -/
theorem acyclic_of_finalize (hr : r.Built) (hrun : finalize.run.run r = (.ok (), r')) :
    r.Acyclic := by
  have hbuilt : r'.Built := by
    have hbuilt := hr.finalize
    rwa [hrun] at hbuilt
  have halike : Alike r r' := by
    have hkept := (keeps_finalize r ⟨fun _ => rfl, hr.shaped⟩).1.1
    rwa [hrun] at hkept
  have hcomplete := hbuilt.complete (finalized_of_finalize hrun)
  refine halike.acyclic_iff.2 (acyclic_of_acc fun name d hd => ?_)
  exact (hbuilt.allGrounded name d hd (hcomplete.shaped name d hd)).acc

/-- **And fails only with one**, where all relations lead somewhere. -/
theorem not_acyclic_of_finalize (hr : r.Built) (htargets : r.checkTargets r.descriptors = .ok ())
    {e : Fault} (hrun : finalize.run.run r = (.error e, r')) : ¬ r.Acyclic := by
  intro hacyclic
  have hleads := leads_of_checkTargets htargets
  obtain ⟨r'', hsucceeds⟩ := finalize_succeeds hr.shaped.named
    (fun name d hd => hleads (name, d) (Record.mem_of_get?_eq_some hd)) hleads hacyclic
  rw [hrun] at hsucceeds
  cases hsucceeds

/-- **Final or open**: shapes are the ones that finalizing gives, or, in a registry with a cycle,
which is never finalized, the open ones. -/
def Drawn (r : Registry) : Prop :=
  ∀ name d p, Record.get? r.descriptors name = some d → d.shapes = some p →
    p = d.entity.writeShapes d.machine.isSome ∨
      p = d.entity.openShapes d.machine.isSome ∧ r.finalized = false ∧ ¬ r.Acyclic

theorem Drawn.add (h : r.Drawn) (hd : d.shapes = none) (hr : r.add d = .ok r') : r'.Drawn := by
  obtain ⟨hnew, -, rfl⟩ := add_eq_ok hr
  intro name d' p hd' hp
  rw [Record.get?_put] at hd'
  split at hd'
  · cases hd'
    rw [hd] at hp
    cases hp
  · refine (h name d' p hd' hp).imp_right fun hbefore =>
      ⟨hbefore.1, rfl, fun hacyclic => hbefore.2.2 fun e he => ?_⟩
    refine hacyclic e (Relation.TransGen.mono (fun e target hembeds => ?_) e e he)
    obtain ⟨t, ht, hfield⟩ := hembeds
    exact ⟨t, get?_put_of_has hnew ht, hfield⟩

theorem Drawn.finalize (h : r.Drawn) (hr : r.Built) : (Registry.finalize.run.run r).2.Drawn := by
  rcases hrun : Registry.finalize.run.run r with ⟨e | ⟨⟩, r'⟩
  · have hfails := hrun
    generalize hend : ((.error e, r') : Outcome Unit × Registry) = run at hrun
    cases hrun ▸ finalizing r with
    | unlinked =>
      cases hend
      exact h
    | stuck hopen htargets _ hpasses =>
      cases hend
      have hpassing := hr.redrawing hr.allGrounded htargets
      rw [hpasses] at hpassing
      have hcycle := not_acyclic_of_finalize hr htargets hfails
      intro name d' p hd' hp
      obtain ⟨d, hd, hredrawn⟩ := hpassing.redrawn.entities name d' hd'
      have hlater : r'.finalized = false ∧ ¬ r'.Acyclic :=
        ⟨hpassing.redrawn.finalized.trans hopen, fun hacyclic =>
          hcycle (hpassing.redrawn.alike.acyclic_iff.2 hacyclic)⟩
      rw [hredrawn.entity, hredrawn.machine]
      rcases hredrawn.drawn with hsame | hnew
      · exact (h name d p hd (hsame ▸ hp)).imp_right fun hopen => ⟨hopen.1, hlater⟩
      · exact .inr ⟨Option.some.inj (hp.symm.trans hnew), hlater⟩
    | _ => cases hend
  · have hacyclic := acyclic_of_finalize hr hrun
    have hsettled : r.Settled := fun name d p hd hp =>
      (h name d p hd hp).resolve_right fun hopen => hopen.2.2 hacyclic
    exact fun name d p hd hp => .inl (hsettled.finalize hr.shaped.named hrun name d p hd hp)

/-- **Shapes of built registries** are final, or open after a cycle. -/
theorem Built.drawn (h : r.Built) : r.Drawn :=
  h.keeps (I := Drawn) (fun _ _ _ hd => (Option.some_ne_none _ hd.symm).elim) (fun hr hd _ hadd =>
    hr.add hd hadd) (fun _ hr => hr) fun hbuilt hr => hr.finalize hbuilt

/-- **What a failure leaves behind.** In every built registry shapes are final, or open after a
cycle. When finalizing fails, shapes from before stay, new ones are open, state fields of machines
may be marked, and nothing else changes. If a relation leads nowhere, nothing changes at all.
Otherwise there is a cycle: no entity from which it can be reached has shapes afterwards, and unless
some entity embeds itself directly, all others have. -/
theorem failed_finalize (hr : r.Built) : r.Drawn ∧
    ∀ e r', finalize.run.run r = (.error e, r') → r.Redrawn r' ∧ (¬ r.Linked → r' = r) ∧
      (r.Linked → ¬ r.Acyclic ∧
        (∀ name d', Record.get? r'.descriptors name = some d' → r.Endless name → d'.shapes = none) ∧
        ((∀ name, ¬ r.Embeds name name) → ∀ name d', Record.get? r'.descriptors name = some d' →
          ¬ r.Endless name → d'.shapes.isSome = true)) := by
  refine ⟨hr.drawn, fun e r' hrun => ?_⟩
  have hfails := hrun
  generalize hend : ((.error e, r') : Outcome Unit × Registry) = run at hrun
  cases hrun ▸ finalizing r with
  | unlinked _ htargets =>
    cases hend
    refine ⟨.refl r, fun _ => rfl, fun hlinked => ?_⟩
    rw [checkTargets_of_leads fun _ he _ hf => hlinked.leads hr.classified he hf] at htargets
    cases htargets
  | stuck _ htargets hsome hpasses =>
    cases hend
    have hpassing := hr.redrawing hr.allGrounded htargets
    rw [hpasses] at hpassing
    refine ⟨hpassing.redrawn, fun hnot => absurd (linked_of_checkTargets htargets) hnot, fun _ =>
      ⟨not_acyclic_of_finalize hr htargets hfails, fun name d' hd' hendless =>
        ?_, fun hself name d' hd' hends => ?_⟩⟩
    · by_contra hshapes
      have hacc := (hpassing.grounded name d' hd' (Option.isSome_iff_ne_none.2 hshapes)).acc
      rw [← hpassing.redrawn.alike.embeds_eq] at hacc
      exact hendless hacc
    · have hleads : r.AllLead := fun name d hd =>
        leads_of_checkTargets htargets (name, d) (Record.mem_of_get?_eq_some hd)
      have hstart := passing_unshaped hr.shaped.named fun name d hd hs =>
        (hr.allGrounded name d hd hs).acc
      have hlogged :
        (passes r.unshaped.length ((⟨r.unshaped, [], []⟩ : Progress).after r.allDone)).run.run r =
          (.error e, r') := by
        rw [run_passes_after, hpasses]
        rfl
      have hstuck :=
        (hstart.stuck (p := (⟨r.unshaped, [], []⟩ : Progress).after r.allDone) hleads hsome
          (Nat.le_refl _) hr.unshaped_nodup hr.unshaped_bare hlogged).resolve_left
          (not_exists.2 hself)
      have hacc : Acc (fun target e => r.Embeds e target) name := not_not.1 hends
      clear hends
      induction hacc generalizing d' with
      | intro name _ ih =>
        by_contra hnone
        obtain ⟨target, hembeds, t, ht, hbare⟩ :=
          hstuck name ⟨d', hd', Option.not_isSome_iff_eq_none.1 hnone⟩
        have hshaped := ih target hembeds t ht
        rw [hbare] at hshaped
        cases hshaped
  | _ => cases hend

end Registry

/-! ## Projects, tasks, a hen and an egg -/

/-- The entities of the desk, and a hen and an egg that hold each other. -/
def henhouse : Registry :=
  ⟨deskEntities.descriptors ++ (nestedPair "Hen" (some "Egg") "Egg" (some "Hen")).descriptors, [],
    false⟩

/-- What finalizing leaves of it. -/
def leftHenhouse : Registry := (Registry.finalize.run.run henhouse).2

theorem henhouse_built : henhouse.Built := by
  have hproject : Registry.empty.connect project ⟨some "projects", none, none, none⟩ =
      .ok ⟨henhouse.descriptors.take 1, [], false⟩ := rfl
  have htask : Registry.connect ⟨henhouse.descriptors.take 1, [], false⟩ task
      ⟨some "tasks", none, none, some taskStates⟩ = .ok ⟨henhouse.descriptors.take 2, [], false⟩ :=
      rfl
  have hhen :
    Registry.addEmbedded ⟨henhouse.descriptors.take 2, [], false⟩ (nesting "Hen" (some "Egg")) =
      .ok ⟨henhouse.descriptors.take 3, [], false⟩ := rfl
  have hegg :
    Registry.addEmbedded ⟨henhouse.descriptors.take 3, [], false⟩ (nesting "Egg" (some "Hen")) =
      .ok henhouse := rfl
  exact .embed (.embed (.connect (.connect .empty hproject) htask) hhen) hegg

/-- The fields of the henhouse: projects have tasks, tasks have texts, and the hen and the egg hold
each other. -/
theorem henhouse_field {e : String × Descriptor} (he : e ∈ henhouse.descriptors) {f : FieldDef}
    (hf : f ∈ e.2.entity.fields) : (f.kind = .ok .referencedList ∧ f.target = some "Task") ∨
      f.kind = .ok .scalar ∨
      e.1 = "Hen" ∧ f.target = some "Egg" ∨ e.1 = "Egg" ∧ f.target = some "Hen" := by
  simp only [henhouse, deskEntities, nestedPair, List.cons_append, List.nil_append, List.mem_cons,
    List.not_mem_nil, or_false] at he
  rcases he with rfl | rfl | rfl | rfl
  · obtain rfl := List.mem_singleton.1 hf
    exact .inl ⟨rfl, rfl⟩
  · simp only [task, List.mem_cons, List.not_mem_nil, or_false] at hf
    rcases hf with rfl | rfl | rfl <;> exact .inr (.inl rfl)
  · exact .inr (.inr (.inl ⟨rfl, (kind_of_mem_nesting hf).2.1⟩))
  · exact .inr (.inr (.inr ⟨rfl, (kind_of_mem_nesting hf).2.1⟩))

theorem henhouse_linked : henhouse.Linked := by
  intro e he f hf kind hk hobject
  rcases henhouse_field he hf with ⟨-, htarget⟩ | hscalar | ⟨-, htarget⟩ | ⟨-, htarget⟩
  · exact ⟨"Task", htarget, by decide, rfl⟩
  · cases hk.symm.trans hscalar
    cases hobject
  · exact ⟨"Egg", htarget, by decide, rfl⟩
  · exact ⟨"Hen", htarget, by decide, rfl⟩

/-- Nobody but the hen and the egg embeds anything. -/
theorem henhouse_embeds {e target : String} :
    henhouse.Embeds e target ↔ e = "Hen" ∧ target = "Egg" ∨ e = "Egg" ∧ target = "Hen" := by
  constructor
  · rintro ⟨d, hd, f, hf, -, he, htarget⟩
    rcases henhouse_field (Record.mem_of_get?_eq_some hd) hf with ⟨hk, -⟩ | hk | ⟨hname, hegg⟩ |
      ⟨hname, hhen⟩
    · rcases he with he | he <;> cases hk.symm.trans he
    · rcases he with he | he <;> cases hk.symm.trans he
    · exact .inl ⟨hname, Option.some.inj (htarget.symm.trans hegg)⟩
    · exact .inr ⟨hname, Option.some.inj (htarget.symm.trans hhen)⟩
  · have hholds : ∀ {name target : String}, ∃ f ∈ (nesting name (some target)).fields,
      f.TakesArguments false ∧
        f.IsEmbedding ∧ f.target = some target :=
      ⟨_, List.mem_singleton_self _, ⟨rfl, fun h => Bool.false_ne_true h.1⟩, .inl rfl, rfl⟩
    rintro (⟨rfl, rfl⟩ | ⟨rfl, rfl⟩)
    · exact ⟨⟨nesting "Hen" (some "Egg"), "Hen", none, none, none, false, none, []⟩, rfl, hholds⟩
    · exact ⟨⟨nesting "Egg" (some "Hen"), "Egg", none, none, none, false, none, []⟩, rfl, hholds⟩

/-- The hen and the egg can be followed for ever, and nobody else. -/
theorem henhouse_endless {name : String} : henhouse.Endless name ↔ name = "Hen" ∨ name = "Egg" := by
  constructor
  · intro hendless
    obtain ⟨-, target, hembeds, -⟩ := hendless.exists_embeds
    exact (henhouse_embeds.1 hembeds).imp And.left And.left
  · have hcycle : Relation.TransGen henhouse.Embeds "Hen" "Hen" :=
      .tail (.single (henhouse_embeds.2 (.inl ⟨rfl, rfl⟩))) (henhouse_embeds.2 (.inr ⟨rfl, rfl⟩))
    rintro (rfl | rfl) hacc
    · exact not_transGen_of_acc hacc hcycle
    · exact not_transGen_of_acc (hacc.inv (henhouse_embeds.2 (.inr ⟨rfl, rfl⟩))) hcycle

/-- Finalizing fails because of the hen and the egg, which have no shapes afterwards. All others
have. -/
theorem henhouse_left : henhouse.Built ∧
    (∃ e, Registry.finalize.run.run henhouse = (.error e, leftHenhouse)) ∧
    henhouse.Linked ∧ henhouse.Redrawn leftHenhouse ∧
    ∀ name d, Record.get? leftHenhouse.descriptors name = some d →
      (d.shapes = none ↔ name = "Hen" ∨ name = "Egg") := by
  obtain ⟨e, hrun⟩ : ∃ e, Registry.finalize.run.run henhouse = (.error e, leftHenhouse) := ⟨_, rfl⟩
  obtain ⟨hredrawn, -, hlinked⟩ := (Registry.failed_finalize henhouse_built).2 e leftHenhouse hrun
  obtain ⟨-, hbare, hshaped⟩ := hlinked henhouse_linked
  refine ⟨henhouse_built, ⟨e, hrun⟩, henhouse_linked, hredrawn, fun name d hd =>
    ⟨fun hnone => ?_, fun hname => ?_⟩⟩
  · by_contra hname
    have hself : ∀ name, ¬ henhouse.Embeds name name := fun name hembeds => by
      rcases henhouse_embeds.1 hembeds with ⟨rfl, hname⟩ | ⟨rfl, hname⟩ <;>
        exact absurd hname (by decide)
    have hsome := hshaped hself name d hd fun hendless => hname (henhouse_endless.1 hendless)
    rw [hnone] at hsome
    cases hsome
  · exact hbare name d hd (henhouse_endless.2 hname)

/-- **A failure is not without consequences.** Finalizing gives projects a shape that is not sealed
and lacks the list of tasks, and marks the state field of tasks, before it fails because of the hen
and the egg. -/
theorem henhouse_changed : ∃ r r' : Registry, r.Built ∧
    (∃ e, Registry.finalize.run.run r = (.error e, r')) ∧
    (∃ d d' p, Record.get? r.descriptors "Project" = some d ∧
      Record.get? r'.descriptors "Project" = some d' ∧
      d.shapes = none ∧ d'.shapes = some p ∧ p.add.isSealed = false ∧
      Record.get? p.add.fields "tasks" = none) ∧
    ∃ d d', Record.get? r.descriptors "Task" = some d ∧
      Record.get? r'.descriptors "Task" = some d' ∧
      d.machineOwned = [] ∧ d'.machineOwned = ["state"] :=
  ⟨henhouse, leftHenhouse, henhouse_built, ⟨_, rfl⟩, ⟨_, _, _, rfl, rfl, rfl, rfl, rfl, rfl⟩, _, _,
    rfl, rfl, rfl, rfl⟩

end EntityGraph
