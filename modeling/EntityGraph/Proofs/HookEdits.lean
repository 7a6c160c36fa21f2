import EntityGraph.Proofs.Nulls

/-!
# What hooks leave

A hook that runs before a write may edit the new document, or the changes to a stored one. A save
stores the document as the hook left it (`Executor.SavesLeft`). An update stores the changes as the
hook left them, key by key, as long as the hook was given any; when the arguments bring no changes,
all that the hook left is dropped, and what is stored is what the nulls among the arguments make of
the document (`Executor.UpdatesLeft`, `stamp_dropped`). All of it holds for user code that keeps to
its session, and of every save and update in an open session; a service call commits what its
session found in the end (`Executor.keeps_edits`).
-/

namespace EntityGraph

open MemoryStore (applyUpdate)

variable {τ α : Type}

/-! ## Nulls beside whatever validators do -/

namespace Materializer

variable {S : Type} {m : Materializer τ S}

/-- **The keys that are noted** are those of nulled fields, whatever validators do. Along the walk,
what is noted so far and what the fields that are left will note stay the same together. -/
theorem moves_materialize_unset (entity : Entity) (link : Option ParentLink) (args : Value) :
    Moves (fun _ _ => True) (fun made => made.unset = nullKeys args entity.fields)
      (m.materialize entity link args) := by
  rw [materialize]
  have hfields :
    Moves (fun _ _ => True) (fun made =>
    made.unset ++ nullKeys args [] = nullKeys args entity.fields)
      (m.materializeFields entity.name args entity.fields ⟨[], []⟩) := by
    refine moves_materializeFields_any (P := fun rest made => made.unset ++ nullKeys args rest =
      nullKeys args entity.fields) (fun f _ rest made hmade => ?_) (List.nil_append _)
    rw [nullKeys, ← List.append_assoc] at hmade
    have hkept : ¬ f.IsNulled args →
        made.unset ++ nullKeys args rest = nullKeys args entity.fields := fun hnull => by
      rwa [if_neg (mt FieldDef.isNulled_iff.1 hnull), List.append_nil] at hmade
    refine moves_materializeField (fun _ => trivial) (fun _ => hkept) (fun hnull => ?_)
      fun v _ hv => ?_
    · rwa [if_pos (FieldDef.isNulled_iff.2 hnull)] at hmade
    · refine (moves_materializeValue_any f v made).mono (fun _ _ => id) fun made' h => ?_
      have hunset : made'.unset = made.unset := by cases h <;> rfl
      rw [hunset]
      exact hkept fun hnull => by cases hnull.presentArgument?.symm.trans hv
  refine Moves.bind_any hfields fun made hmade => ?_
  exact Moves.bind_any (Moves.any _) fun _ _ =>
    Moves.pure_any ((List.append_nil _).symm.trans hmade)

end Materializer

/-! ## Sessions under user code -/

namespace Finds

variable {p : τ → MemoryStore} {s : SessionId} {t t' : τ} {c : Holdings}

/-- What keeps to a session leaves it open. -/
theorem of_keepsTo (h : Finds p s t c) (hk : KeepsTo p s t t') : ∃ c', Finds p s t' c' := by
  obtain ⟨tr, htr, -, -⟩ := id h
  obtain ⟨ws, hw⟩ := hk (by rw [htr]; rfl)
  exact h.of_wrote hw

theorem of_confined {a : Action τ α} (h : Finds p s t c) (ha : Confined p s a) {r : Outcome α}
    (hr : a.run.run t = (r, t')) : ∃ c', Finds p s t' c' := by
  have hk := (ha t).1
  rw [hr] at hk
  exact h.of_keepsTo hk

end Finds

/-! ## Writes with hooks -/

/-- **A key of its own** among what a hook left: it is a single segment, no other entry leads into
what is stored under it, and no null takes it away. -/
structure Entity.IsOwnKey (e : Entity) (args : Value) (left : Document) (key : String) : Prop where
  segment : IsSegment key
  others : ∀ path ∈ Record.keys left, path ≠ key → (Text.segments path).head? ≠ some key
  nulls : ∀ f ∈ e.fields, f.IsNulled args → (Text.segments f.storedKey).head? ≠ some key

/-- **What an update stores** of the changes that a hook left, in `doc` for the document `now`: keys
of their own as the hook left them, if there were changes before it, and otherwise nothing. -/
def Entity.StoresLeft (e : Entity) (args : Value) (changes left now doc : Document) : Prop :=
  (Record.keys left).Nodup → ∀ key, e.IsOwnKey args left key →
    (changes ≠ [] → Record.get? doc key = (Record.get? left key).or (Record.get? now key)) ∧
    (changes = [] → Record.get? doc key = Record.get? now key)

theorem Entity.storesLeft_of_applyUpdate {e : Entity} {args : Value}
    {changes left now doc : Document}
    (h : applyUpdate (.object (Executor.updateParts (if changes.isEmpty then none else some left)
      (nullKeys args e.fields))) now = .ok doc) : e.StoresLeft args changes left now doc := by
  intro hnodup key hkey
  rw [applyUpdate_updateParts] at h
  obtain ⟨d, hset, h⟩ := bind_eq_ok h
  cases h
  have hkept :
    ∀ path ∈ Record.keys (Record.ofEntries ((nullKeys args e.fields).map fun key =>
    (key, Value.text ""))),
      (Text.segments path).head? ≠ some key := fun path hpath => by
    obtain ⟨f, hf, hnull, rfl⟩ := mem_nullKeys.1 (mem_of_mem_unsetKeys hpath)
    exact hkey.nulls f hf hnull
  rw [get?_unsetPaths_of_head_ne hkept]
  constructor
  · intro hne
    rw [if_neg (by simpa using hne)] at hset
    exact get?_setPaths_of_own hnodup hkey.segment hkey.others hset
  · rintro rfl
    cases hset
    rfl

namespace Executor

/-- **A save that stores what the hook left**: a document is made of the arguments, the hook leaves
another one, and from a state in which the session finds this one, with an identifier beside it, the
save goes on with the children and the hook that runs afterwards. The identifier is a new one unless
the hook left one. -/
def SavesLeft (x : Executor τ SessionId) (p : τ → MemoryStore) (ops : Operations τ SessionId)
    (s : SessionId) (d : Descriptor) (link : Option ParentLink) (args : Value) (t t' : τ) : Prop :=
  ∃ made left doc id t₁ t₂ t₃ c stored,
    ((x.materializer .create s).materialize d.entity link args).run.run t = (.ok made, t₁) ∧
    ((x.hooks d).onSaving ops (inFirstState d made.document) args s).run.run t₁ = (.ok left, t₂) ∧
    Record.get? doc "_id" = some id ∧ (Record.get? left "_id" = none → ∃ o, id = .id o) ∧
    (∀ key, key ≠ "_id" → Record.get? doc key = Record.get? left key) ∧
    Finds p s t₃ c ∧ (∀ id', id.eq id' = true → c.found d.collection id' = some doc) ∧
    (do x.applyDeltas ops d id s args d.entity.fields; (x.hooks d).onSaved ops doc args s).run.run
    t₃ =
      (.ok stored, t')

/-- **An update that stores what the hook left**, if the arguments bring changes: after the children
these are laid over the stored document, and the hook leaves other changes. If the document is still
there, then from a state in which the session finds it with these changes, the update goes on with
the hook that runs afterwards. -/
def UpdatesLeft (x : Executor τ SessionId) (p : τ → MemoryStore) (ops : Operations τ SessionId)
    (s : SessionId) (d : Descriptor) (link : Option ParentLink) (args : Value) (t t' : τ) : Prop :=
  ∃ o made current changes left t₁ t₂ t₃ t₄ c c', NamesDocument args o ∧
    ((x.materializer .update s).materialize d.entity link args).run.run t = (.ok made, t₁) ∧
    (x.applyDeltas ops d (.id o) s args d.entity.fields).run.run t₁ = (.ok ⟨⟩, t₂) ∧
    Finds p s t₂ c ∧ c.found d.collection (.id o) = some current ∧
    LaidOver current d.entity.fields made.document changes ∧ p t₃ = p t₂ ∧
    ((x.hooks d).onUpdating ops (.id o) changes args s).run.run t₃ = (.ok left, t₄) ∧
    Finds p s t₄ c' ∧
    ∀ now, c'.found d.collection (.id o) = some now → ∃ doc seen t₅ c'' updated,
      d.entity.StoresLeft args changes left now doc ∧ Finds p s t₅ c'' ∧
      c''.found d.collection (.id o) = some doc ∧
      ((x.hooks d).onUpdated ops seen args s).run.run t₅ = (.ok updated, t')

section Sessions

variable {p : τ → MemoryStore} {x : Executor τ SessionId} {ops : Operations τ SessionId}
  {s : SessionId} {d : Descriptor} {link : Option ParentLink} {args : Value} {t t' : τ}
  {c : Holdings}

/-- **Every save** in an open session stores what the hook left. -/
theorem savesLeft (hstore : x.store.OnMemory p) (hb : ∀ n, (x.behaviour.entity n).Confined p)
    (hops : ops.Confined p s) (hc : Finds p s t c) {stored : Document}
    (hr : (x.saveIn ops d link s args).run.run t = (.ok stored, t')) :
    x.SavesLeft p ops s d link args t t' := by
  rw [saveIn] at hr
  obtain ⟨made, t₁, hmade, hr⟩ := Action.run_bind_eq_ok hr
  obtain ⟨c₁, hc₁⟩ :=
    hc.of_confined (Materializer.moves_materialize (checked_of_confined hb _) _ _ _) hmade
  obtain ⟨left, t₂, hhook, hr⟩ := Action.run_bind_eq_ok hr
  obtain ⟨c₂, hc₂⟩ := hc₁.of_confined ((hb _).onSaving _ _ _ _ hops) hhook
  obtain ⟨doc, t₃, hcreate, hr⟩ := Action.run_bind_eq_ok hr
  obtain ⟨rfl, id, hid, hkey, -, hc₃⟩ := hc₂.create ((hstore.create _ _ _).run hcreate)
  obtain ⟨id', hdocument, hr⟩ := Action.run_lift_bind_eq_ok hr
  rw [documentId, hid] at hdocument
  cases hdocument
  refine ⟨made, left, _, id, t₁, t₂, t₃, _, stored, hmade, hhook, hid, fun hnone => ?_,
    fun key hne => c₂.get?_filed_of_ne left hne, hc₃, fun id' heq => if_pos ⟨rfl, heq⟩, hr⟩
  rw [Holdings.get?_filed_of_none hnone] at hid
  exact ⟨_, (Option.some.inj hid).symm⟩

/-- **Every update** in an open session stores what the hook left, if the arguments bring
changes. -/
theorem updatesLeft (hstore : x.store.OnMemory p) (hb : ∀ n, (x.behaviour.entity n).Confined p)
    (hops : ops.Confined p s) (hc : Finds p s t c) {updated : Option Document}
    (hr : (x.updateIn ops d link s args).run.run t = (.ok updated, t')) :
    x.UpdatesLeft p ops s d link args t t' := by
  rw [updateIn] at hr
  obtain ⟨rawId, hraw, hr⟩ := Action.run_lift_bind_eq_ok hr
  obtain ⟨-, hr⟩ := Action.run_guard_eq_ok hr
  obtain ⟨o, ho, hr⟩ := Action.run_lift_bind_eq_ok hr
  obtain ⟨made, t₁, hmade, hr⟩ := Action.run_bind_eq_ok hr
  obtain ⟨c₁, hc₁⟩ :=
    hc.of_confined (Materializer.moves_materialize (checked_of_confined hb _) _ _ _) hmade
  have hunset := ((Materializer.moves_materialize_unset d.entity link args).of_ok hmade).2
  obtain ⟨⟨⟩, t₂, hdeltas, hr⟩ := Action.run_bind_eq_ok hr
  obtain ⟨c₂, hc₂⟩ :=
    hc₁.of_confined ((writeRules_of_confined hstore hb hops).moves_applyDeltas d _ args _
      fun _ _ _ _ _ _ _ => ⟨fun _ _ => trivial, fun _ _ => trivial⟩) hdeltas
  obtain ⟨found, t₃, hfind, hr⟩ := Action.run_bind_eq_ok hr
  have hfind := (hstore.findById _ _ _).run hfind
  rw [MemoryStore.run_findById_id, hc₂.get?] at hfind
  obtain ⟨hfound, hsame⟩ := Prod.mk.inj hfind
  cases found with
  | none => cases hr
  | some current =>
    have hcurrent := Except.ok.inj hfound
    dsimp only at hr
    obtain ⟨changes, hmerge, hr⟩ := Action.run_lift_bind_eq_ok hr
    obtain ⟨left, t₄, hhook, hr⟩ := Action.run_bind_eq_ok hr
    obtain ⟨c₄, hc₄⟩ := (hc₂.congr hsame.symm).of_confined ((hb _).onUpdating _ _ _ _ _ hops) hhook
    refine ⟨o, made, current, changes, left, t₁, t₂, t₃, t₄, c₂, c₄, ⟨rawId, hraw, ho⟩, hmade,
      hdeltas, hc₂, hcurrent, laidOver_mergeEmbedded d.entity.names_nodup hmerge, hsame.symm, hhook,
      hc₄, fun now hnow => ?_⟩
    rw [hunset] at hr
    generalize hparts :
      updateParts (if changes.isEmpty then none else some left) (nullKeys args d.entity.fields) =
      parts at hr
    split at hr
    · rename_i hempty
      refine ⟨now, _, _, c₄, updated, Entity.storesLeft_of_applyUpdate ?_, hc₄, hnow, hr⟩
      rw [hparts, List.isEmpty_iff.1 hempty]
      rfl
    · obtain ⟨seen, t₅, hwrite, hr⟩ := Action.run_bind_eq_ok hr
      obtain ⟨doc, rfl, happly, hc₅⟩ := hc₄.update hnow ((hstore.update _ _ _ _).run hwrite) rfl
      exact ⟨doc, _, t₅, _, updated, Entity.storesLeft_of_applyUpdate (hparts ▸ happly), hc₅,
        if_pos ⟨rfl, Value.eq_id_iff.2 rfl⟩, hr⟩

/-- Without lists of related documents there is nothing to go on with. -/
theorem applyDeltas_eq_pure {parent : Value} {fields : List FieldDef}
    (h : ∀ f ∈ fields, f.isReferencedList = false) :
    x.applyDeltas ops d parent s args fields = pure ⟨⟩ := by
  induction fields with
  | nil => rw [applyDeltas]
  | cons f rest ih =>
    have hnone : deltaOf? f args = none := by rw [deltaOf?, h f (List.mem_cons_self ..)]; rfl
    rw [applyDeltas, ih fun g hg => h g (List.mem_cons_of_mem _ hg)]
    split
    · rfl
    · rename_i hdelta
      cases hnone.symm.trans hdelta

end Sessions

/-! ## Service calls -/

/-- **Edits of hooks are kept** by saves in an open session, and by updates that bring changes; an
update that brings none drops them. This holds in any session in which user code keeps to it, and of
the session of every call of the service. -/
theorem keeps_edits {p : τ → MemoryStore} {x : Executor τ SessionId} (hstore : x.store.OnMemory p)
    (hsleep : ∀ d t, p ((x.policy.sleep d).run.run t).2 = p t)
    (hb : ∀ n, (x.behaviour.entity n).Confined p) :
    (∀ ops s d link args t t' c, ops.Confined p s → Finds p s t c →
      (∀ stored, (x.saveIn ops d link s args).run.run t = (.ok stored, t') →
        x.SavesLeft p ops s d link args t t') ∧
      ∀ updated, (x.updateIn ops d link s args).run.run t = (.ok updated, t') →
        x.UpdatesLeft p ops s d link args t t') ∧
    ∀ name args v t t', (p t).collections.Distinct →
      ((x.operations.save name args none).run.run t = (.ok v, t') → ∃ d, x.descriptor name = .ok d ∧
        CommittedIn p (fun s => x.SavesLeft p (x.operationsTo nestingLimit) s d none args) t t') ∧
      ((x.operations.update name args none).run.run t = (.ok v, t') →
        ∃ d, x.descriptor name = .ok d ∧
        CommittedIn p (fun s => x.UpdatesLeft p (x.operationsTo nestingLimit) s d none args) t t')
          := by
  refine ⟨fun ops s d link args t t' c hops hc => ⟨fun stored => savesLeft hstore hb hops hc,
    fun updated => updatesLeft hstore hb hops hc⟩, fun name args v t t' hd =>
    ⟨fun hr => ?_, fun hr => ?_⟩⟩
  · obtain ⟨d, hdescriptor, hr⟩ := Action.run_lift_bind_eq_ok hr
    obtain ⟨stored, t₁, hr, hend⟩ := Action.run_bind_eq_ok hr
    cases hend
    have hsession := committedIn_transact hstore hsleep (fun s =>
      confined_saveIn hstore hb (confined_operationsTo hstore hb s _) _ none _) hd hr
    exact ⟨d, hdescriptor, hsession.mono fun s _ _ _ hc =>
      savesLeft hstore hb (confined_operationsTo hstore hb s _) hc⟩
  · obtain ⟨d, hdescriptor, hr⟩ := Action.run_lift_bind_eq_ok hr
    obtain ⟨updated, t₁, hr, hend⟩ := Action.run_bind_eq_ok hr
    cases hend
    have hsession := committedIn_transact hstore hsleep (fun s =>
      confined_updateIn hstore hb (confined_operationsTo hstore hb s _) _ none _) hd hr
    exact ⟨d, hdescriptor, hsession.mono fun s _ _ _ hc =>
      updatesLeft hstore hb (confined_operationsTo hstore hb s _) hc⟩

end Executor

/-! ## Stamped memos -/

/-- What a hook leaves: all that it was given, and a stamp. -/
def stamp (fs : Document) : Document := Record.put fs "stamp" (.text "checked")

/-- Hooks that stamp new documents and changes. -/
def Hooks.stamping : Hooks MemoryStore SessionId :=
  { Hooks.none with
    onSaving := fun _ d _ _ => pure (stamp d)
    onUpdating := fun _ _ d _ _ => pure (stamp d) }

/-- A service of memos that are stamped. -/
def stampedMemos : Executor MemoryStore SessionId :=
  { memos with
    behaviour := ⟨fun _ => { EntityBehaviour.none with hooks := .stamping },
      fun _ _ _ => throw .illTyped⟩ }

/-- A new memo has a title. -/
def newMemo : Value := .object [("title", .text "List")]

/-- The text of the memo is replaced. -/
def replaceText : Value := .object [("id", .id (.ofNat 1)), ("text", .text "Bake bread")]

/-- Nothing of the memo is changed. -/
def touchMemo : Value := .object [("id", .id (.ofNat 1))]

/-- The title of the memo is taken away. -/
def clearTitle : Value := .object [("id", .id (.ofNat 1)), ("title", .null)]

/-- How memos are registered. -/
def memoDescriptor : Descriptor := ⟨memo, "memos", some "memo", some "memos", none, true, none, []⟩

theorem stampedMemos_confined (n : String) : (stampedMemos.behaviour.entity n).Confined id where
  fieldChecks := fun _ _ _ h => absurd h List.not_mem_nil
  entityChecks := fun _ _ h => absurd h List.not_mem_nil
  onSaving := fun _ _ _ _ _ => Executor.confined_pure _
  onSaved := fun _ _ _ _ _ => Executor.confined_pure _
  onUpdating := fun _ _ _ _ _ _ => Executor.confined_pure _
  onUpdated := fun _ _ _ _ _ => Executor.confined_pure _
  onDelete := fun _ _ _ _ => Executor.confined_pure _
  effect := fun _ _ h => by cases h

/-- A stamp beside a new text is a key of its own. -/
theorem isOwnKey_stamp (text : Value) :
    memo.IsOwnKey replaceText (stamp [("text", text)]) "stamp" where
  segment := by unfold IsSegment; decide
  others := fun path hpath hne => by
    have hpath : path ∈ ["text", "stamp"] := hpath
    simp only [List.mem_cons, List.not_mem_nil, or_false, hne] at hpath
    rw [hpath]
    decide
  nulls := fun f hf _ => by
    have hkeys : ∀ f ∈ memo.fields, (Text.segments f.storedKey).head? ≠ some "stamp" := by decide
    exact hkeys f hf

section Stamped

variable {ops : Operations MemoryStore SessionId} {s : SessionId} {m m' : MemoryStore}
  {c : Holdings}

/-- A new memo is stamped. -/
theorem stamped_of_savesLeft (h : stampedMemos.SavesLeft id ops s memoDescriptor none newMemo m m')
    (hc : Finds id s m' c) :
    ∃ o doc, c.found "memos" (.id o) = some doc ∧ Record.get? doc "stamp" =
      some (.text "checked") := by
  obtain ⟨made, left, doc, key, m₁, m₂, m₃, c₃, stored, hmade, hhook, -, hnew, hdoc, hc₃, hfound,
    hr⟩ := h
  obtain rfl : made = ⟨[("title", .text "List")], []⟩ :=
    Except.ok.inj ((congrArg Prod.fst hmade).symm.trans (by cbv))
  cases hhook
  obtain ⟨o, rfl⟩ := hnew rfl
  rw [Executor.applyDeltas_eq_pure (by decide), pure_bind] at hr
  cases hr
  obtain rfl := hc₃.unique hc
  exact ⟨o, doc, hfound _ (Value.eq_id_iff.2 rfl), hdoc "stamp" (by decide)⟩

/-- A memo with a new text is stamped. -/
theorem stamped_of_updatesLeft
    (h : stampedMemos.UpdatesLeft id ops s memoDescriptor none replaceText m m')
    (hc : Finds id s m' c) :
    ∃ doc, c.found "memos" (.id (.ofNat 1)) = some doc ∧ Record.get? doc "stamp" =
      some (.text "checked") := by
  obtain ⟨o, made, current, changes, left, m₁, m₂, m₃, m₄, c₂, c₄, ⟨rawId, hraw, ho⟩, hmade, -, hc₂,
    hcurrent, hlaid, hsame, hhook, hc₄, hstored⟩ := h
  cases hraw
  cases ho
  obtain rfl : made = ⟨[("text", .text "Bake bread")], []⟩ :=
    Except.ok.inj ((congrArg Prod.fst hmade).symm.trans (by cbv))
  obtain ⟨text, rfl⟩ : ∃ text, changes = [("text", text)] := by
    have hkeys : Record.keys changes = ["text"] := hlaid.keys
    obtain ⟨⟨key, text⟩, rfl, hkey⟩ := List.map_eq_singleton_iff.1 hkeys
    cases hkey
    exact ⟨text, rfl⟩
  cases hhook
  obtain rfl := hc₄.unique (hc₂.congr hsame)
  obtain ⟨doc, seen, m₅, c', updated, hleft, hc', hdoc, hend⟩ := hstored current hcurrent
  cases hend
  obtain rfl := hc'.unique hc
  have hnodup : (Record.keys (stamp [("text", text)])).Nodup :=
    (by decide : ["text", "stamp"].Nodup)
  exact ⟨doc, hdoc, (hleft hnodup "stamp" (isOwnKey_stamp text)).1 (by simp)⟩

end Stamped

/-- A new memo is stamped, and so is the old one when it gets a new text. -/
theorem stampedMemos_stamped :
    (∃ v m', (stampedMemos.operations.save "Memo" newMemo none).run.run .empty = (.ok v, m') ∧
      ∃ o doc, (m'.collections.get "memos").get? (.id o) = some doc ∧
        Record.get? doc "stamp" = some (.text "checked")) ∧
    ∃ v m', (stampedMemos.operations.update "Memo" replaceText none).run.run memoStore = (.ok v,
      m') ∧
      ∃ doc, (m'.collections.get "memos").get? (.id (.ofNat 1)) = some doc ∧
        Record.get? doc "stamp" = some (.text "checked") := by
  have hkeeps := (Executor.keeps_edits (x := stampedMemos) memos_checking.store (fun _ _ => rfl)
    stampedMemos_confined).2 "Memo"
  obtain ⟨v, m₁, hsave⟩ : ∃ v m',
      (stampedMemos.operations.save "Memo" newMemo none).run.run .empty = (.ok v, m') :=
    ⟨_, _, Prod.ext (by cbv) rfl⟩
  obtain ⟨w, m₂, hupdate⟩ :
      ∃ v m', (stampedMemos.operations.update "Memo" replaceText none).run.run memoStore = (.ok v,
      m') :=
    ⟨_, _, Prod.ext (by cbv) rfl⟩
  refine ⟨⟨v, m₁, hsave, ?_⟩, w, m₂, hupdate, ?_⟩
  · obtain ⟨d, hdescriptor, s, t₁, t₂, n, -, hleft, hcommitted⟩ :=
      (hkeeps _ _ .empty _ fun _ => Collection.distinct_nil).1 hsave
    cases hdescriptor
    exact stamped_of_savesLeft hleft hcommitted
  · obtain ⟨d, hdescriptor, s, t₁, t₂, n, -, hleft, hcommitted⟩ :=
      (hkeeps _ _ _ _ memoStore_distinct).2 hupdate
    cases hdescriptor
    exact stamped_of_updatesLeft hleft hcommitted

/-- **A stamp that is dropped.** Arguments that name no field, or only a null, bring no changes:
what the hook leaves is the stamp, but the memo is stored without it. -/
theorem stamp_dropped :
    (∀ ops id args s, (Hooks.stamping.onUpdating ops id [] args s).run.run memoStore =
      (.ok [("stamp", .text "checked")], memoStore)) ∧
    (∃ v t', (stampedMemos.operations.update "Memo" touchMemo none).run.run memoStore = (.ok v,
      t') ∧
      (t'.collections.get "memos").get? (.id (.ofNat 1)) =
        some [("_id", .id (.ofNat 1)), ("title", .text "Plan"), ("text", .text "Buy bread")]) ∧
    ∃ v t', (stampedMemos.operations.update "Memo" clearTitle none).run.run memoStore = (.ok v,
      t') ∧
      (t'.collections.get "memos").get? (.id (.ofNat 1)) =
        some [("_id", .id (.ofNat 1)), ("text", .text "Buy bread")] :=
  ⟨fun _ _ _ _ => rfl, ⟨_, _, Prod.ext (by cbv) rfl, by cbv⟩, _, _, Prod.ext (by cbv) rfl, by cbv⟩

end EntityGraph
