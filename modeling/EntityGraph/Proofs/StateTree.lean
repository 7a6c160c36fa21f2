import EntityGraph.Proofs.Atomicity
import EntityGraph.Proofs.Entries
import EntityGraph.Proofs.Shapes

/-!
# States in trees of writes

What a tree of writes does to the states of an entity's documents in the private copy of its session
(`moves_saveIn_states`, `moves_updateIn_states`): documents are added in the initial state, and
their states stay as they are. Arguments cannot say otherwise, since shapes offer no state, and the
writes of other entities go to other collections. Only the update that a state action makes may
write a state, and only that of its own document.
-/

namespace EntityGraph

open MemoryStore (Quiet Wrote InSession)

variable {τ α : Type}

/-! ## What a session does to its private copy -/

/-- Between two states the private copy of session `s`, if it has one, went along `K`. -/
def Along (p : τ → MemoryStore) (s : SessionId) (K : Collections → Collections → Prop) (t t' : τ) :
    Prop :=
  ∀ tr, (p t).transaction? (some s) = some tr →
    ∃ tr', (p t').transaction? (some s) = some tr' ∧ K tr.working tr'.working

namespace Along

variable {p : τ → MemoryStore} {s : SessionId} {K : Collections → Collections → Prop} {t t' t'' : τ}

theorem of_eq (hK : ∀ w, K w w) (h : p t' = p t) : Along p s K t t' := by
  intro tr htr
  exact ⟨tr, by rw [h, htr], hK _⟩

theorem refl (hK : ∀ w, K w w) (t : τ) : Along p s K t t := of_eq hK rfl

theorem trans (hK : ∀ w w' w'', K w w' → K w' w'' → K w w'') (t t' t'' : τ)
    (h : Along p s K t t') (h' : Along p s K t' t'') : Along p s K t t'' := by
  intro tr htr
  obtain ⟨tr', htr', hw⟩ := h tr htr
  obtain ⟨tr'', htr'', hw'⟩ := h' tr' htr'
  exact ⟨tr'', htr'', hK _ _ _ hw hw'⟩

/-- Writes in the session, when they go along `K`. -/
theorem of_wrote {ws : List Write} (hw : Wrote s ws (p t) (p t'))
    (hK : ∀ tr, (p t).transaction? (some s) = some tr → K tr.working (tr.working.afterAll ws)) :
    Along p s K t t' := by
  intro tr htr
  refine ⟨tr.afterAll ws, by rw [hw.transaction?, htr]; rfl, ?_⟩
  rw [Transaction.working_afterAll]
  exact hK tr htr

end Along

/-- A committed attempt takes the committed documents along. -/
theorem CommittedBy.along {p : τ → MemoryStore} {body : SessionId → Action τ α} {v : α} {t t' : τ}
    {s : SessionId} {t₁ t₂ : τ} {ws : List Write} (h : CommittedBy p body v t t' s t₁ t₂ ws)
    {K : Collections → Collections → Prop} {Q : α → Prop} (hbody : Moves (Along p s K) Q (body s)) :
    K (p t).collections ((p t).collections.afterAll ws) := by
  obtain ⟨tr, htr, hK⟩ := (hbody.of_ok h.ran).1 _ h.fresh
  rw [h.wrote.transaction?, h.fresh, Option.map_some] at htr
  obtain rfl := Option.some.inj htr
  rwa [Transaction.working_afterAll] at hK

/-! ## Collections and states -/

namespace Collections

/-- Every document of a collection is in one of some states. -/
structure Stated (name : String) (states : List Value) (cs : Collections) : Prop where
  distinct : cs.Distinct
  state : ∀ e ∈ cs.get name, ∃ v ∈ states, Record.get? e.2 stateField = some v

theorem Stated.state_of_get? {name : String} {states : List Value} {cs : Collections}
    (h : cs.Stated name states) {id : Value} {d : Document} (hd : (cs.get name).get? id = some d) :
    ∃ v ∈ states, Record.get? d stateField = some v := by
  obtain ⟨k, hm, -⟩ := Collection.exists_mem_of_get? hd
  exact h.state _ hm

/-- Filing a document in one of the states. -/
theorem Stated.put {name : String} {states : List Value} {cs : Collections}
    (h : cs.Stated name states) (id : Value) {d : Document}
    (hd : ∃ v ∈ states, Record.get? d stateField = some v) :
    (cs.after ⟨name, id, some d⟩).Stated name states where
  distinct := MemoryStore.distinct_writeTo h.distinct _ _ _
  state := fun e he => by
    rw [after, MemoryStore.writeTo, get_put, if_pos rfl] at he
    rcases Collection.mem_put he with he | he
    · exact h.state e he
    · rw [he]
      exact hd

/-- **Steadiness**: the documents of a collection stay, those that are added are in one of the
states, and a document changes its state only to one that it may go to. -/
def Steady (name : String) (states : List Value) (may : Value → Value → Prop)
    (cs cs' : Collections) :
    Prop :=
  cs.Stated name states → cs'.Stated name states ∧
    ∀ id d, (cs.get name).get? id = some d → ∃ d', (cs'.get name).get? id = some d' ∧
      (Record.get? d' stateField = Record.get? d stateField ∨
        ∃ v, may id v ∧ Record.get? d' stateField = some v)

namespace Steady

variable {name : String} {states : List Value} {may : Value → Value → Prop}
  {cs cs' cs'' : Collections}

theorem refl (cs : Collections) : Steady name states may cs cs :=
  fun h => ⟨h, fun _ d hd => ⟨d, hd, .inl rfl⟩⟩

theorem trans (cs cs' cs'' : Collections) (h : Steady name states may cs cs')
    (h' : Steady name states may cs' cs'') : Steady name states may cs cs'' := by
  intro hs
  obtain ⟨hs', hkeep⟩ := h hs
  obtain ⟨hs'', hkeep'⟩ := h' hs'
  refine ⟨hs'', fun id d hd => ?_⟩
  obtain ⟨d', hd', hstate⟩ := hkeep id d hd
  obtain ⟨d'', hd'', hstate'⟩ := hkeep' id d' hd'
  refine ⟨d'', hd'', ?_⟩
  rcases hstate' with hsame | hmoved
  · rw [hsame]
    exact hstate
  · exact .inr hmoved

/-- A write to another collection. -/
theorem after_other {w : Write} (hkey : w.id.isKey = true) (hname : w.collection ≠ name) :
    Steady name states may cs (cs.after w) := by
  intro hs
  have hget : ∀ id, ((cs.after w).get name).get? id = (cs.get name).get? id := fun id => by
    rw [after, MemoryStore.get_writeTo hs.distinct hkey, if_neg fun h => hname h.1]
  refine ⟨⟨MemoryStore.distinct_writeTo hs.distinct _ _ _, fun e he => hs.state e ?_⟩,
    fun id d hd => ⟨d, by rw [hget, hd], .inl rfl⟩⟩
  obtain ⟨other, id, d | d⟩ := w <;> rwa [after, MemoryStore.writeTo, get_put, if_neg hname] at he

/-- A new document in one of the states. -/
theorem after_create {id : Value} (hkey : id.isKey = true) (hnew : (cs.get name).get? id = none)
    {d : Document} (hd : ∃ v ∈ states, Record.get? d stateField = some v) :
    Steady name states may cs (cs.after ⟨name, id, some d⟩) := by
  intro hs
  have hget : ∀ id', ((cs.after ⟨name, id, some d⟩).get name).get? id' =
      if id.eq id' = true then some d else (cs.get name).get? id' := fun id' => by
    rw [after, MemoryStore.get_writeTo hs.distinct hkey]
    simp
  refine ⟨hs.put id hd, fun id' d' hd' => ⟨d', ?_, .inl rfl⟩⟩
  rw [hget, if_neg fun heq => ?_, hd']
  rw [← Collection.get?_congr _ hkey heq, hnew] at hd'
  cases hd'

/-- A changed document in the state that it was in, or in one that it may go to. -/
theorem after_update {o : ObjectId} {d d' : Document} (hold : (cs.get name).get? (.id o) = some d)
    (hstate : Record.get? d' stateField = Record.get? d stateField ∨
      ∃ v ∈ states, may (.id o) v ∧ Record.get? d' stateField = some v) :
    Steady name states may cs (cs.after ⟨name, .id o, some d'⟩) := by
  intro hs
  have hget : ∀ id, ((cs.after ⟨name, .id o, some d'⟩).get name).get? id =
      if (Value.id o).eq id = true then some d' else (cs.get name).get? id := fun id => by
    rw [after, MemoryStore.get_writeTo hs.distinct rfl]
    simp
  refine ⟨hs.put _ ?_, fun id e he => ?_⟩
  · rcases hstate with hsame | ⟨v, hv, -, hnew⟩
    · rw [hsame]
      exact hs.state_of_get? hold
    · exact ⟨v, hv, hnew⟩
  · by_cases heq : (Value.id o).eq id = true
    · refine ⟨d', by rw [hget, if_pos heq], ?_⟩
      obtain rfl : id = .id o := by
        cases id <;> simp_all [Value.eq]
      obtain rfl := Option.some.inj (hold.symm.trans he)
      rcases hstate with hsame | ⟨v, -, hmay, hnew⟩
      · exact .inl hsame
      · exact .inr ⟨v, hmay, hnew⟩
    · exact ⟨e, by rw [hget, if_neg heq, he], .inl rfl⟩

end Steady

/-- **Shrinking**: no document is added or changed. -/
def Shrinks (cs cs' : Collections) : Prop :=
  cs.Distinct → cs'.Distinct ∧ ∀ name, (cs'.get name).Sublist (cs.get name) ∧
    ∀ id d, (cs'.get name).get? id = some d → (cs.get name).get? id = some d

namespace Shrinks

variable {cs cs' cs'' : Collections}

theorem refl (cs : Collections) : Shrinks cs cs :=
  fun h => ⟨h, fun _ => ⟨List.Sublist.refl _, fun _ _ hd => hd⟩⟩

theorem trans (cs cs' cs'' : Collections) (h : Shrinks cs cs') (h' : Shrinks cs' cs'') :
    Shrinks cs cs'' := by
  intro hs
  obtain ⟨hs', hold⟩ := h hs
  obtain ⟨hs'', hold'⟩ := h' hs'
  exact ⟨hs'', fun name => ⟨(hold' name).1.trans (hold name).1,
    fun id d hd => (hold name).2 id d ((hold' name).2 id d hd)⟩⟩

theorem after_delete {id : Value} (hkey : id.isKey = true) (name : String) :
    Shrinks cs (cs.after ⟨name, id, none⟩) := by
  refine fun hs => ⟨MemoryStore.distinct_writeTo hs _ _ _, fun name' => ⟨?_, fun id' d hd => ?_⟩⟩
  · rw [after, MemoryStore.writeTo, get_put]
    split
    · rename_i hname
      exact hname ▸ Collection.erase_sublist _ _
    · exact List.Sublist.refl _
  · rw [after, MemoryStore.get_writeTo hs hkey] at hd
    split at hd
    · cases hd
    · exact hd

end Shrinks

end Collections

/-! ## Entities with states -/

/-- The states that documents get into: the initial one and those that actions lead to. -/
def StateMachine.entered (m : StateMachine) : List Value :=
  stateName m.initial :: m.actions.map fun a => stateName a.2.target

/-- A state with a name. -/
def IsNamedState (v : Value) : Prop := ∃ s, stateName v = .text s ∧ s ≠ ""

/-- The states of a machine have names. -/
structure StateMachine.Named (m : StateMachine) : Prop where
  initial : IsNamedState m.initial
  actions : ∀ a ∈ m.actions, IsNamedState a.2.source ∧ IsNamedState a.2.target

theorem StateMachine.Named.entered {m : StateMachine} (h : m.Named) {v : Value}
    (hv : v ∈ m.entered) :
    ∃ s, v = .text s ∧ s ≠ "" := by
  rcases List.mem_cons.1 hv with rfl | hv
  · exact h.initial
  · obtain ⟨a, ha, rfl⟩ := List.mem_map.1 hv
    exact (h.actions a ha).2

/-- **Guarded states**: the entity `e` has the state machine `m`, whose states have names. Its state
is a single text or member of an enumeration, nothing else is stored where the state is, and its
documents have a collection of their own. The actions of other entities lead to texts too. -/
structure Registry.GuardsStates (r : Registry) (e : Descriptor) (m : StateMachine) : Prop where
  registered : Record.get? r.descriptors e.name = some e
  machine : e.machine = some m
  states : m.Named
  plain : PlainEntry stateField e.entity.fields
  links : ∀ n d, Record.get? r.descriptors n = some d → ∀ f ∈ d.entity.fields,
    f.isReferencedList = true → f.target = some e.name → f.connectionField ≠ stateField
  own : ∀ n d, Record.get? r.descriptors n = some d → d.hasEndpoints = true →
    d.collection = e.collection → d.name = e.name
  texts : ∀ n d, Record.get? r.descriptors n = some d → ∀ m', d.machine = some m' →
    ∀ a ∈ m'.actions, ∃ s, stateName a.2.target = .text s

/-- **User code that only checks**: there are validators, which accept or raise and leave the store
and the state of a document alone, and nothing else. -/
structure EntityBehaviour.OnlyChecks (p : τ → MemoryStore) (b : EntityBehaviour τ SessionId) :
    Prop where
  fieldChecks : ∀ operation f, ∀ check ∈ b.fieldChecks operation f,
    ∀ entity field v s, Moves (fun t t' => p t' = p t) (fun _ => True) (check entity field v s)
  entityChecks : ∀ operation, ∀ check ∈ b.entityChecks operation, ∀ entity args d s,
    Moves (fun t t' => p t' = p t)
      (fun d' : Document => ∀ w, (stateField, w) ∈ d' → (stateField, w) ∈ d) (check entity args d s)
  hooks : b.hooks = .none
  effects : ∀ action, b.effect? action = Option.none

namespace EntityBehaviour.OnlyChecks

variable {p : τ → MemoryStore} {b : EntityBehaviour τ SessionId}

theorem confined (h : b.OnlyChecks p) : b.Confined p where
  fieldChecks := fun operation f check hcheck entity field v s =>
    (h.fieldChecks operation f check hcheck entity field v s).mono
      (fun _ t' heq => by rw [KeepsTo, ← heq]; exact KeepsTo.refl t') fun _ => id
  entityChecks := fun operation check hcheck entity args d s =>
    (h.entityChecks operation check hcheck entity args d s).mono
      (fun _ t' heq => by rw [KeepsTo, ← heq]; exact KeepsTo.refl t') fun _ _ => trivial
  onSaving := fun _ _ _ _ _ => by
    rw [h.hooks]
    exact Executor.confined_pure _
  onSaved := fun _ _ _ _ _ => by
    rw [h.hooks]
    exact Executor.confined_pure _
  onUpdating := fun _ _ _ _ _ _ => by
    rw [h.hooks]
    exact Executor.confined_pure _
  onUpdated := fun _ _ _ _ _ => by
    rw [h.hooks]
    exact Executor.confined_pure _
  onDelete := fun _ _ _ _ => by
    rw [h.hooks]
    exact Executor.confined_pure _
  effect := fun action _ heffect => by
    rw [h.effects action] at heffect
    cases heffect

end EntityBehaviour.OnlyChecks

namespace Executor

variable {p : τ → MemoryStore} {x : Executor τ SessionId} {s : SessionId}
  {K : Collections → Collections → Prop}

/-- Validators that only check move along whatever an unchanged store allows. -/
theorem checked_of_onlyChecks {R : τ → τ → Prop} (hb : ∀ n, (x.behaviour.entity n).OnlyChecks p)
    (hsame : ∀ t t', p t' = p t → R t t') (htrans : ∀ t t' t'', R t t' → R t' t'' → R t t'')
    (operation : Operation) : (x.materializer operation s).Checked R :=
  .of_checks (fun t => hsame t t rfl) htrans
    (fun n f check hcheck v => ((hb n).fieldChecks operation f check hcheck n f v s).mono hsame
    fun _ => id) fun n check hcheck args d =>
    ((hb n).entityChecks operation check hcheck n args d s).mono hsame fun _ _ => trivial

/-- Validators that only check do nothing to the private copy. -/
theorem checked_along (hb : ∀ n, (x.behaviour.entity n).OnlyChecks p) (hrefl : ∀ w, K w w)
    (htrans : ∀ w w' w'', K w w' → K w' w'' → K w w'') (operation : Operation) :
    (x.materializer operation s).Checked (Along p s K) :=
  checked_of_onlyChecks hb (fun _ _ => Along.of_eq hrefl) (Along.trans htrans) operation

/-- Validators that only check make no state. -/
theorem keepsEntry_state (hb : ∀ n, (x.behaviour.entity n).OnlyChecks p) (operation : Operation) :
    (x.materializer operation s).KeepsEntry stateField := fun entity args d =>
  Moves.foldlM_any (Q := fun d' : Document => ∀ w, (stateField, w) ∈ d' → (stateField, w) ∈ d)
    (fun check hcheck d₁ hd₁ =>
      ((hb entity).entityChecks operation check hcheck entity args d₁ s).mono
        (fun _ _ _ => trivial) fun _ hd₂ w hw => hd₁ w (hd₂ w hw))
    fun _ hw => hw

/-! ## Writes of single documents -/

/-- What an operation does with an open transaction decides how the private copy goes. -/
theorem moves_along_of_open {a : Action MemoryStore α}
    (h : ∀ m t r m', m.transaction? (some s) = some t → a.run.run m = (r, m') →
      ∃ ws, Wrote s ws m m' ∧ K t.working (t.working.afterAll ws)) :
    Moves (Along id s K) (fun _ => True) a := by
  refine fun m => ⟨fun t ht => ?_, fun _ _ => trivial⟩
  obtain ⟨ws, hw, hK⟩ := h m t _ _ ht rfl
  refine Along.of_wrote (p := id) hw (fun t' ht' => ?_) t ht
  obtain rfl := Option.some.inj (ht'.symm.trans ht)
  exact hK

section Documents

variable {name : String} {states : List Value} {may : Value → Value → Prop}

theorem moves_findById (hstore : x.store.OnMemory p) (hrefl : ∀ w, K w w) (collection : String)
    (id : Value) :
    Moves (Along p s K) (fun _ => True) (x.store.findById collection id (some s)) := by
  refine (hstore.findById _ _ _).moves (moves_along_of_open fun m t r m' _ hr => ?_)
  cases hr
  exact ⟨[], Wrote.refl s m, hrefl _⟩

/-- A new document of the collection is in one of the states. -/
theorem moves_create (hstore : x.store.OnMemory p) {collection : String} {d : Document}
    (hd : collection = name → ∃ v ∈ states, Record.get? d stateField = some v) :
    Moves (Along p s (Collections.Steady name states may)) (fun _ => True)
      (x.store.create collection d (some s)) := by
  refine (hstore.create _ _ _).moves (moves_along_of_open fun m t r m' ht hr => ?_)
  rcases MemoryStore.run_create ht hr with ⟨-, hw⟩ | ⟨id, -, -, hfree, hw⟩
  · exact ⟨_, hw, .refl _⟩
  · have hkey := hw.keys _ (List.mem_singleton_self _)
    refine ⟨_, hw, ?_⟩
    by_cases hc : collection = name
    · subst hc
      obtain ⟨v, hv, hstate⟩ := hd rfl
      refine .after_create hkey hfree ⟨v, hv, ?_⟩
      rw [MemoryStore.get?_filed m d (by decide), hstate]
    · exact .after_other hkey hc

/-- An update of a document of the collection leaves its state or makes it one that it may go to. -/
theorem moves_update (hstore : x.store.OnMemory p) (htexts : ∀ v ∈ states, ∃ t, v = .text t)
    {collection : String} {o : ObjectId} {changes : Option Document} {unset : List String}
    (hstate : collection = name → stateField ∉ unset ∧
      ∀ w, (stateField, w) ∈ changes.getD [] → w ∈ states ∧ may (.id o) w) :
    Moves (Along p s (Collections.Steady name states may)) (fun _ => True)
      (x.store.update collection (.id o) (.object (updateParts changes unset)) (some s)) := by
  refine (hstore.update _ _ _ _).moves (moves_along_of_open fun m t r m' ht hr => ?_)
  rcases MemoryStore.run_update ht hr with ⟨-, hw⟩ | ⟨d, d', -, -, hold, happly, hw⟩
  · exact ⟨_, hw, .refl _⟩
  · refine ⟨_, hw, ?_⟩
    by_cases hc : collection = name
    · subst hc
      intro hs
      obtain ⟨hunset, hchanges⟩ := hstate rfl
      obtain ⟨v, hv, hbefore⟩ := hs.state_of_get? hold
      obtain ⟨text, rfl⟩ := htexts v hv
      obtain ⟨text', hafter, hfrom⟩ := entry_of_applyUpdate hbefore
        (fun w hw => htexts w (hchanges w hw).1) hunset happly
      refine Collections.Steady.after_update hold ?_ hs
      rcases hfrom with rfl | hmem
      · exact .inl (hafter.trans hbefore.symm)
      · obtain ⟨hentered, hmay⟩ := hchanges _ hmem
        exact .inr ⟨_, hentered, hmay, hafter⟩
    · exact .after_other (hw.keys _ (List.mem_singleton_self _)) hc

theorem moves_delete (hstore : x.store.OnMemory p) (collection : String) (id : Value) :
    Moves (Along p s Collections.Shrinks) (fun _ => True)
    (x.store.delete collection id (some s)) := by
  refine (hstore.delete _ _ _).moves (moves_along_of_open fun m t r m' ht hr => ?_)
  rcases MemoryStore.run_delete ht hr with ⟨-, hw⟩ | ⟨d, -, -, -, hw⟩
  · exact ⟨_, hw, .refl _⟩
  · exact ⟨_, hw, .after_delete (hw.keys _ (List.mem_singleton_self _)) collection⟩

end Documents

end Executor

/-! ## Trees of writes -/

theorem isReferencedList_of_deltaOf? {f : FieldDef} {args : Value} {delta : Delta}
    (h : deltaOf? f args = some delta) : f.isReferencedList = true := by
  unfold deltaOf? at h
  split at h
  · rename_i hlist
    exact (Bool.and_eq_true_iff.1 hlist).1
  · cases h

/-- An entity that is registered with a collection of its own. -/
def Registry.Knows (r : Registry) (d : Descriptor) : Prop :=
  Record.get? r.descriptors d.name = some d ∧ d.hasEndpoints = true

/-- **Writes that bring no state**: the shape of the entity accepts the arguments, and the link to
the parent, if there is one, is not stored where the state of `e` is. -/
structure Registry.Harmless (r : Registry) (e : Descriptor) (ref : String → ShapeRef)
    (d : Descriptor) (link : Option ParentLink) (args : Value) : Prop where
  known : r.Knows d
  link : d.name = e.name → ∀ l, link = some l → l.1 ≠ stateField
  accepted : r.Accepts (ref d.name) args

/-- The arguments name a document. -/
def NamesDocument (args : Value) (o : ObjectId) : Prop :=
  ∃ rawId, Executor.argument args "id" = .ok rawId ∧ toReference rawId = .ok o

/-- **A service that guards the states of `e`**: it runs on the memory store `p` with user code that
only checks, and its registry guards the states. -/
structure Executor.GuardsStates (x : Executor τ SessionId) (p : τ → MemoryStore) (e : Descriptor)
    (m : StateMachine) : Prop where
  store : x.store.OnMemory p
  checks : ∀ n, (x.behaviour.entity n).OnlyChecks p
  shaped : x.registry.Shaped
  registry : x.registry.GuardsStates e m

namespace Executor

variable {p : τ → MemoryStore} {x : Executor τ SessionId} {s : SessionId} {e : Descriptor}
  {m : StateMachine} {may : Value → Value → Prop} {ops : Operations τ SessionId}

/-- Between two states the private copy of a session went steadily, as far as the documents of `e`
go. -/
abbrev SteadyIn (p : τ → MemoryStore) (s : SessionId) (e : Descriptor) (m : StateMachine)
    (may : Value → Value → Prop) : τ → τ → Prop :=
  Along p s (Collections.Steady e.collection m.entered may)

theorem SteadyIn.refl (t : τ) : SteadyIn p s e m may t t := Along.refl Collections.Steady.refl t

theorem SteadyIn.trans (t t' t'' : τ) (h : SteadyIn p s e m may t t')
    (h' : SteadyIn p s e m may t' t'') : SteadyIn p s e m may t t'' :=
  Along.trans Collections.Steady.trans t t' t'' h h'

theorem knows_of_descriptor (hr : x.registry.Shaped) {n : String} {d : Descriptor}
    (h : x.descriptor n = .ok d) : x.registry.Knows d ∧ d.name = n := by
  rw [descriptor, Registry.lookup] at h
  rcases hd : Record.get? x.registry.descriptors n with _ | d'
  · rw [hd] at h
    cases h
  · rw [hd] at h
    change (if d'.hasEndpoints = true then pure d' else throw _) = Except.ok d at h
    split at h
    · rename_i hown
      cases h
      have hname := hr.named n d hd
      exact ⟨⟨by rw [hname, hd], hown⟩, hname⟩
    · cases h

namespace GuardsStates

theorem texts (h : x.GuardsStates p e m) : ∀ v ∈ m.entered, ∃ t, v = .text t := fun v hv => by
  obtain ⟨t, ht, -⟩ := h.registry.states.entered hv
  exact ⟨t, ht⟩

theorem eq_of_name (h : x.GuardsStates p e m) {d : Descriptor} (hd : x.registry.Knows d)
    (hname : d.name = e.name) : d = e := by
  have hget := hd.1
  rw [hname, h.registry.registered] at hget
  exact (Option.some.inj hget).symm

/-- The documents of the collection of `e` are those of `e`. -/
theorem eq_of_collection (h : x.GuardsStates p e m) {d : Descriptor} (hd : x.registry.Knows d)
    (hc : d.collection = e.collection) : d = e :=
  h.eq_of_name hd (h.registry.own d.name d hd.1 hd.2 hc)

/-- The children among accepted arguments bring no state. -/
theorem children (h : x.GuardsStates p e m) {d : Descriptor} (hd : x.registry.Knows d)
    {ref : ShapeRef} (href : ref.IsFor d.name) {args : Value}
    (hargs : x.registry.Accepts ref args) :
    x.Children (x.registry.Harmless e .add)
    (x.registry.Harmless e .update) args d.entity.fields := by
  intro f hf delta hdelta child hchild parent
  obtain ⟨target, htarget, hadded, hupdated⟩ := hargs.children h.shaped hd.1 href hf hdelta
  rw [htarget, Option.getD_some] at hchild
  obtain ⟨hknown, rfl⟩ := knows_of_descriptor h.shaped hchild
  have hlink : child.name = e.name → ∀ l, some (f.connectionField, parent) = some l →
      l.1 ≠ stateField := by
    intro hname l hl
    cases hl
    exact h.registry.links d.name d hd.1 f hf (isReferencedList_of_deltaOf? hdelta)
      (hname ▸ htarget)
  exact ⟨fun v hv => ⟨hknown, hlink, hadded v hv⟩, fun v hv => ⟨hknown, hlink, hupdated v hv⟩⟩

/-- **Adding a document** puts it into the initial state, whatever the arguments say. -/
theorem moves_saveIn (h : x.GuardsStates p e m) {d : Descriptor} (hd : x.registry.Knows d)
    (link : Option ParentLink) (args : Value)
    (hdeltas : ∀ id, Moves (SteadyIn p s e m may) (fun _ => True)
      (x.applyDeltas ops d id s args d.entity.fields)) :
    Moves (SteadyIn p s e m may) (fun _ => True) (x.saveIn ops d link s args) := by
  have hhooks : x.hooks d = .none := (h.checks d.name).hooks
  rw [saveIn, hhooks]
  refine Moves.bind SteadyIn.trans (Materializer.moves_materialize
    (checked_along h.checks Collections.Steady.refl Collections.Steady.trans _) _ _ _) fun made _ =>
    ?_
  dsimp only [Hooks.none]
  rw [pure_bind]
  refine Moves.bind SteadyIn.trans (moves_create h.store fun hc => ?_) fun stored _ => ?_
  · obtain rfl := h.eq_of_collection hd hc
    rw [h.registry.machine]
    exact ⟨_, List.mem_cons_self .., Record.get?_put_self ..⟩
  · exact Moves.lift_bind SteadyIn.refl fun id _ =>
      Moves.bind SteadyIn.trans (hdeltas id) fun _ _ => Moves.pure SteadyIn.refl trivial

/-- What is made from the arguments of an update of `e` holds no state but the one that the
arguments bring. -/
theorem moves_materialize (h : x.GuardsStates p e m) {d : Descriptor} {link : Option ParentLink}
    (hlink : d.name = e.name → ∀ l, link = some l → l.1 ≠ stateField) {args : Value}
    (hstate : d.name = e.name → ∀ v, fieldOf? stateField args = some v → v ∈ m.entered) :
    Moves (SteadyIn p s e m may)
      (fun made => d = e → Materializer.EntryOk stateField (fieldOf? stateField args) made)
      ((x.materializer .update s).materialize d.entity link args) := by
  have hmove : Moves (SteadyIn p s e m may) (fun _ => True)
      ((x.materializer .update s).materialize d.entity link args) :=
    Materializer.moves_materialize
      (checked_along h.checks Collections.Steady.refl Collections.Steady.trans _) _ _ _
  by_cases hde : d = e
  · subst hde
    have hplain : IsPlainArgument (fieldOf? stateField args) := by
      rcases hv : fieldOf? stateField args with _ | v
      · exact .inl rfl
      · obtain ⟨t, rfl, hne⟩ := h.registry.states.entered (hstate rfl v hv)
        exact .inr ⟨t, rfl, hne⟩
    exact (hmove.also (Materializer.moves_materialize_entry (keepsEntry_state h.checks _)
      h.registry.plain (hlink rfl) hplain)).mono (fun _ _ => id) fun _ hmade _ => hmade.2
  · exact hmove.mono (fun _ _ => id) fun _ _ heq => absurd heq hde

/-- **Updating a document** leaves its state alone when the arguments bring none, and else makes it
the one that they bring. A state among the changes comes from the arguments, by way of what was made
from them. -/
theorem moves_updateIn (h : x.GuardsStates p e m) {d : Descriptor} (hd : x.registry.Knows d)
    {link : Option ParentLink} (hlink : d.name = e.name → ∀ l, link = some l → l.1 ≠ stateField)
    {args : Value} (hstate : d.name = e.name → ∀ v, fieldOf? stateField args = some v →
      v ∈ m.entered ∧ ∀ o, NamesDocument args o → may (.id o) v)
    (hdeltas : ∀ id, Moves (SteadyIn p s e m may) (fun _ => True)
      (x.applyDeltas ops d id s args d.entity.fields)) :
    Moves (SteadyIn p s e m may) (fun _ => True) (x.updateIn ops d link s args) := by
  have hhooks : x.hooks d = .none := (h.checks d.name).hooks
  rw [updateIn, hhooks]
  refine Moves.lift_bind SteadyIn.refl fun rawId hraw => ?_
  refine Moves.guard SteadyIn.refl fun _ => ?_
  refine Moves.lift_bind SteadyIn.refl fun o ho => ?_
  refine Moves.bind SteadyIn.trans (h.moves_materialize hlink fun hname v hv =>
    (hstate hname v hv).1) fun made hmade => ?_
  refine Moves.bind SteadyIn.trans (hdeltas _) fun _ _ => ?_
  refine Moves.bind SteadyIn.trans (moves_findById h.store Collections.Steady.refl _ _)
    fun found _ => ?_
  split
  · exact Moves.throw SteadyIn.refl _
  · rename_i current
    refine Moves.lift_bind SteadyIn.refl fun changes hchanges => ?_
    dsimp only [Hooks.none]
    rw [pure_bind]
    have hupdate : Moves (SteadyIn p s e m may) (fun _ => True) (x.store.update d.collection (.id o)
        (.object (updateParts (if changes.isEmpty then none else some changes) made.unset))
        (some s)) := by
      refine moves_update h.store h.texts fun hc => ?_
      obtain rfl := h.eq_of_collection hd hc
      refine ⟨(hmade rfl).2, fun w hw => ?_⟩
      have hmem : (stateField, w) ∈ changes := by
        rcases changes with _ | ⟨_, _⟩ <;> exact hw
      have hbrought := (hmade rfl).1 w (mem_mergeEmbedded h.registry.plain hchanges hmem)
      obtain ⟨hentered, hmay⟩ := hstate rfl w hbrought
      exact ⟨hentered, hmay o ⟨rawId, hraw, ho⟩⟩
    generalize updateParts (if changes.isEmpty then none else some changes) made.unset = parts
      at hupdate ⊢
    split
    · exact Moves.pure SteadyIn.refl trivial
    · exact Moves.bind SteadyIn.trans hupdate fun _ _ => Moves.pure SteadyIn.refl trivial

/-- **Trees of writes that bring no state** leave states alone. -/
theorem writeRules (h : x.GuardsStates p e m) :
    WriteRules x ops s (SteadyIn p s e m may) (x.registry.Harmless e .add)
      (x.registry.Harmless e .update) where
  refl := SteadyIn.refl
  trans := SteadyIn.trans
  children := by
    rintro d link args (hd | hd)
    · exact h.children hd.known (.inl rfl) hd.accepted
    · exact h.children hd.known (.inr rfl) hd.accepted
  save := fun d link args hd hdeltas => h.moves_saveIn hd.known link args hdeltas
  update := fun d link args hd hdeltas => h.moves_updateIn hd.known hd.link (fun hname v hv => by
    obtain rfl := h.eq_of_name hd.known hname
    have hnone := hd.accepted.no_state h.shaped h.registry.registered (.inr rfl)
      (by rw [h.registry.machine]; rfl)
    rw [hnone] at hv
    cases hv) hdeltas

/-- Removing a document adds and changes none. -/
theorem moves_deleteIn (h : x.GuardsStates p e m) (d : Descriptor) (target : Value) :
    Moves (Along p s Collections.Shrinks) (fun _ => True) (x.deleteIn ops d s target) := by
  have hrefl := Along.refl (p := p) (s := s) Collections.Shrinks.refl
  have htrans := Along.trans (p := p) (s := s) Collections.Shrinks.trans
  have hhooks : x.hooks d = .none := (h.checks d.name).hooks
  rw [deleteIn, hhooks]
  refine Moves.guard hrefl fun _ => ?_
  refine Moves.lift_bind hrefl fun o _ => ?_
  refine Moves.bind htrans (Materializer.moves_materialize
    (checked_along h.checks Collections.Shrinks.refl Collections.Shrinks.trans _) _ _ _) fun _ _ =>
    ?_
  refine Moves.bind htrans (moves_findById h.store Collections.Shrinks.refl _ _) fun found _ => ?_
  split
  · exact Moves.throw hrefl _
  · exact moves_delete h.store d.collection (.id o)

end GuardsStates

end Executor

end EntityGraph
