import EntityGraph.Dispatch
import EntityGraph.Proofs.Transition
import Mathlib

/-!
# State machines over whole runs

A service that starts without documents and is then called in any way, with any failures injected,
keeps to the state machines of its entities (`Dispatcher.keeps_states`): the documents of an entity
are in the initial state or in one that an action leads to, a call that changes the state of a
document is the action between the two states, on that document, and an action on a document that is
not in the state that the action starts from fails and changes nothing.

Each call makes a step of the state machine (`StateStep`), and the whole run follows by induction
over the calls.

From here on, calls of small services are evaluated by `cbv`, which unfolds library functions by
equations that only the whole of Mathlib has.
-/

namespace EntityGraph

open MemoryStore (Quiet)

variable {τ α : Type}

/-! ## Steps -/

/-- **A step of a state machine**, from `t` to `t'`, by a call that ended with `r`: the documents of
`e` are in states that they can get into, the state of a document changes only by an action on it,
between the two states of that action, and an action on a document in another state than the one
that it starts from fails and changes nothing. Which actions the call is, on which documents, says
`acts`. -/
structure StateStep (p : τ → MemoryStore) (e : Descriptor) (m : StateMachine)
    (acts : StateAction → ObjectId → Prop) (t : τ) (r : Outcome α) (t' : τ) : Prop where
  stated : (p t').collections.Stated e.collection m.entered
  changed : ∀ id d d', ((p t).collections.get e.collection).get? id = some d →
    ((p t').collections.get e.collection).get? id = some d' →
    Record.get? d' stateField ≠ Record.get? d stateField →
    ∃ a o, acts a o ∧ id = .id o ∧ Record.get? d stateField = some (stateName a.source) ∧
      Record.get? d' stateField = some (stateName a.target)
  refused : ∀ a o, acts a o → ∀ d, ((p t).collections.get e.collection).get? (.id o) = some d →
    Record.get? d stateField ≠ some (stateName a.source) → (∃ f, r = .error f) ∧ Quiet (p t) (p t')

namespace Collections

/-- Nothing but removals. -/
theorem Stated.shrinks {name : String} {states : List Value} {cs cs' : Collections}
    (h : cs.Stated name states) (hs : Shrinks cs cs') : cs'.Stated name states where
  distinct := (hs h.distinct).1
  state := fun e he => h.state e (((hs h.distinct).2 name).1.subset he)

end Collections

/-- Committed documents are in states that they can get into, when those before are and those of the
attempt that was committed. -/
theorem CommittedBy.stated {p : τ → MemoryStore} {body : SessionId → Action τ α} {v : α} {t t' : τ}
    {s : SessionId} {t₁ t₂ : τ} {ws : List Write} (h : CommittedBy p body v t t' s t₁ t₂ ws)
    {name : String} {states : List Value} (hs : (p t).collections.Stated name states)
    (hs' : ((p t).collections.afterAll ws).Stated name states) :
    (p t').collections.Stated name states where
  distinct := h.distinct
  state := fun e he => by
    rcases h.filed name e he with he | ⟨id, hnamed⟩
    · exact hs.state e he
    · exact hs'.state_of_get? hnamed

namespace StateStep

variable {p : τ → MemoryStore} {e : Descriptor} {m : StateMachine}
  {acts : StateAction → ObjectId → Prop} {t t' : τ} {r : Outcome α}

/-- A call that leaves the committed documents and either fails or is no action. -/
theorem of_quiet (hs : (p t).collections.Stated e.collection m.entered) (hq : Quiet (p t) (p t'))
    (hr : (∃ f, r = .error f) ∨ ∀ a o, ¬ acts a o) : StateStep p e m acts t r t' where
  stated := hq.1 ▸ hs
  changed := fun id d d' hd hd' hne => by
    rw [hq.1, hd] at hd'
    obtain rfl := Option.some.inj hd'
    exact absurd rfl hne
  refused := fun a o hacts _ _ _ => ⟨hr.resolve_right fun hno => hno a o hacts, hq⟩

/-- What a call gives does not matter beyond whether it fails. -/
theorem map {β : Type} {r' : Outcome β} (h : StateStep p e m acts t r t')
    (hr : (∃ f, r = .error f) → ∃ f, r' = .error f) : StateStep p e m acts t r' t' where
  stated := h.stated
  changed := h.changed
  refused := fun a o hacts d hd hne => (h.refused a o hacts d hd hne).imp_left hr

/-- An operation that looks something up, does something and shows what that gives. -/
theorem of_lookup {β γ : Type} {o : Outcome β} {f : β → Action τ γ} {g : γ → α}
    (hs : (p t).collections.Stated e.collection m.entered)
    (hr : (do
      let b ← liftM o
      let v ← f b
      pure (g v) : Action τ α).run.run t = (r, t'))
    (hf : ∀ b r t', o = .ok b → (f b).run.run t = (r, t') → StateStep p e m acts t r t') :
    StateStep p e m acts t r t' := by
  rcases o with fault | b
  · cases hr
    exact .of_quiet hs (Quiet.refl _) (.inl ⟨fault, rfl⟩)
  · rw [Action.run_bind_ok (Action.run_lift _ _), Action.run_bind] at hr
    rcases hb : (f b).run.run t with ⟨fault | v, t₁⟩
    · rw [hb] at hr
      cases hr
      exact (hf b _ _ rfl hb).map fun _ => ⟨fault, rfl⟩
    · rw [hb] at hr
      cases hr
      exact (hf b _ _ rfl hb).map fun ⟨f, hfail⟩ => by cases hfail

/-- A call that starts from the same committed documents. -/
theorem of_quiet_left {t₀ : τ} (h : StateStep p e m acts t r t') (hq : Quiet (p t₀) (p t)) :
    StateStep p e m acts t₀ r t' where
  stated := h.stated
  changed := by
    rw [← hq.1]
    exact h.changed
  refused := fun a o hacts d hd hne => by
    rw [← hq.1] at hd
    obtain ⟨hr, hq'⟩ := h.refused a o hacts d hd hne
    exact ⟨hr, hq.trans hq'⟩

end StateStep

/-- Arguments name one document at most. -/
theorem NamesDocument.inj {args : Value} {o o' : ObjectId} (h : NamesDocument args o)
    (h' : NamesDocument args o') : o = o' := by
  obtain ⟨rawId, hraw, ho⟩ := h
  obtain ⟨rawId', hraw', ho'⟩ := h'
  obtain rfl := Except.ok.inj (hraw.symm.trans hraw')
  exact Except.ok.inj (ho.symm.trans ho')

namespace Executor

variable {p : τ → MemoryStore} {x : Executor τ SessionId} {e : Descriptor} {m : StateMachine}
  {acts : StateAction → ObjectId → Prop} {t t' : τ}

namespace GuardsStates

theorem confined (h : x.GuardsStates p e m) (n : String) : (x.behaviour.entity n).Confined p :=
  (h.checks n).confined

theorem confined_operations (h : x.GuardsStates p e m) (s : SessionId) (depth : Nat) :
    (x.operationsTo depth).Confined p s := confined_operationsTo h.store h.confined s depth

theorem get?_of_stateAction (h : x.GuardsStates p e m) {name : String} {action : StateAction}
    (haction : stateAction e name = .ok action) : Record.get? m.actions name = some action := by
  obtain ⟨m', hm', hget⟩ := Executor.get?_of_stateAction haction
  rw [h.registry.machine] at hm'
  cases hm'
  exact hget

/-- A transaction whose body takes the private copy along `K` fails and leaves the committed
documents, or takes them along `K`. -/
theorem transact_along (h : x.GuardsStates p e m)
    (hsleep : ∀ d t, p ((x.policy.sleep d).run.run t).2 = p t) {body : SessionId → Action τ α}
    (hbody : ∀ s, Confined p s (body s)) {K : Collections → Collections → Prop}
    (hK : ∀ s, Moves (Along p s K) (fun _ => True) (body s))
    (hd : (p t).collections.Distinct) {r : Outcome α}
    (hr : (x.transact body none).run.run t = (r, t')) :
    ((∃ f, r = .error f) ∧ Quiet (p t) (p t')) ∨
      ∃ v s t₁ t₂ ws, r = .ok v ∧ CommittedBy p body v t t' s t₁ t₂ ws ∧
        K (p t).collections ((p t).collections.afterAll ws) := by
  rcases transact_atomic h.store hsleep hbody hd hr with hfail | ⟨v, s, t₁, t₂, ws, hv, hc⟩
  · exact .inl hfail
  · exact .inr ⟨v, s, t₁, t₂, ws, hv, hc, hc.along (hK s)⟩

/-- A transaction that brings no state. -/
theorem step_of_steady (h : x.GuardsStates p e m)
    (hsleep : ∀ d t, p ((x.policy.sleep d).run.run t).2 = p t) {body : SessionId → Action τ α}
    (hbody : ∀ s, Confined p s (body s))
    (hK : ∀ s, Moves (SteadyIn p s e m fun _ _ => False) (fun _ => True) (body s))
    (hno : ∀ a o, ¬ acts a o) (hs : (p t).collections.Stated e.collection m.entered) {r : Outcome α}
    (hr : (x.transact body none).run.run t = (r, t')) : StateStep p e m acts t r t' := by
  rcases h.transact_along hsleep hbody hK hs.distinct hr with
    ⟨hr, hq⟩ | ⟨v, s, t₁, t₂, ws, -, hc, hsteady⟩
  · exact .of_quiet hs hq (.inl hr)
  · obtain ⟨hs', hkeep⟩ := hsteady hs
    refine ⟨hc.stated hs hs', fun id d d' hd hd' hne => ?_,
      fun a o hacts => absurd hacts (hno a o)⟩
    obtain ⟨d'', hd'', hsame | ⟨v, hmay, -⟩⟩ := hkeep id d hd
    · rw [hc.same.2, hd''] at hd'
      obtain rfl := Option.some.inj hd'
      exact absurd hsame hne
    · exact hmay.elim

/-- A transaction that only removes documents. -/
theorem step_of_shrinks (h : x.GuardsStates p e m)
    (hsleep : ∀ d t, p ((x.policy.sleep d).run.run t).2 = p t) {body : SessionId → Action τ α}
    (hbody : ∀ s, Confined p s (body s))
    (hK : ∀ s, Moves (Along p s Collections.Shrinks) (fun _ => True) (body s))
    (hno : ∀ a o, ¬ acts a o) (hs : (p t).collections.Stated e.collection m.entered) {r : Outcome α}
    (hr : (x.transact body none).run.run t = (r, t')) : StateStep p e m acts t r t' := by
  rcases h.transact_along hsleep hbody hK hs.distinct hr with
    ⟨hr, hq⟩ | ⟨v, s, t₁, t₂, ws, -, hc, hshrinks⟩
  · exact .of_quiet hs hq (.inl hr)
  · refine ⟨hc.stated hs (hs.shrinks hshrinks), fun id d d' hd hd' hne => ?_,
      fun a o hacts => absurd hacts (hno a o)⟩
    rw [hc.same.2] at hd'
    have hold := ((hshrinks hs.distinct).2 _).2 _ _ hd'
    rw [hd] at hold
    obtain rfl := Option.some.inj hold
    exact absurd rfl hne

/-- **A state action** is a step of the state machine. The attempt that was committed found the
document in the state that the action starts from. -/
theorem step_of_transition (h : x.GuardsStates p e m)
    (hsleep : ∀ d t, p ((x.policy.sleep d).run.run t).2 = p t) {d : Descriptor}
    (hd : x.registry.Knows d) {name : String} {action : StateAction}
    (haction : stateAction d name = .ok action) {args : Value}
    (hargs : x.registry.Accepts (.update d.name) args)
    (hacts : ∀ a o, acts a o ↔ d.name = e.name ∧ a = action ∧ NamesDocument args o) (depth : Nat)
    (hs : (p t).collections.Stated e.collection m.entered) {r : Outcome (Option Document)}
    (hr : (x.transact (x.transition (x.operationsTo depth) d name action args) none).run.run t =
      (r, t')) : StateStep p e m acts t r t' := by
  have hbody := fun s => confined_transition h (h.confined_operations s depth) d name action args
  have hK : ∀ s, Moves (SteadyIn p s e m fun id v => d.name = e.name ∧ ∃ o, NamesDocument args o ∧
      id = .id o ∧ v = stateName action.target) (fun _ => True)
      (x.transition (x.operationsTo depth) d name action args s) := fun s =>
    h.moves_transition hd haction hargs fun hname o ho => ⟨hname, o, ho, rfl, rfl⟩
  rcases h.transact_along hsleep hbody hK hs.distinct hr with
    ⟨hfail, hq⟩ | ⟨v, s, t₁, t₂, ws, -, hc, hsteady⟩
  · exact .of_quiet hs hq (.inl hfail)
  have hfound : d.name = e.name → ∃ o current, NamesDocument args o ∧
      ((p t).collections.get e.collection).get? (.id o) = some current ∧
      Record.get? current stateField = some (stateName action.source) := by
    intro hname
    obtain rfl := h.eq_of_name hd hname
    have hmem := Record.mem_of_get?_eq_some (h.get?_of_stateAction haction)
    obtain ⟨text, htext, -⟩ := (h.registry.states.actions _ hmem).1
    exact source_of_transition h.store ⟨text, htext⟩ hc.fresh hc.ran
  obtain ⟨hs', hkeep⟩ := hsteady hs
  refine ⟨hc.stated hs hs', fun id d₀ d₁ hd₀ hd₁ hne => ?_, ?_⟩
  · rw [hc.same.2] at hd₁
    obtain ⟨d₂, hd₂, hsame | ⟨v, ⟨hname, o, ho, hid, rfl⟩, hto⟩⟩ := hkeep id d₀ hd₀
    · obtain rfl := Option.some.inj (hd₂.symm.trans hd₁)
      exact absurd hsame hne
    · obtain rfl := Option.some.inj (hd₂.symm.trans hd₁)
      obtain ⟨o', current, ho', hcurrent, hfrom⟩ := hfound hname
      obtain rfl := ho.inj ho'
      rw [hid, hcurrent] at hd₀
      obtain rfl := Option.some.inj hd₀
      exact ⟨action, o, (hacts _ _).2 ⟨hname, rfl, ho⟩, hid, hfrom, hto⟩
  · intro a o hact d₀ hd₀ hne
    obtain ⟨hname, rfl, ho⟩ := (hacts a o).1 hact
    obtain ⟨o', current, ho', hcurrent, hfrom⟩ := hfound hname
    obtain rfl := ho.inj ho'
    obtain rfl := Option.some.inj (hcurrent.symm.trans hd₀)
    exact absurd hfrom hne

end GuardsStates

end Executor

/-! ## Calls -/

/-- **The endpoint is a state action** of `e`: with these arguments it is the action `a` on the
document `o`. -/
structure Endpoint.Acts (ep : Endpoint) (e : Descriptor) (m : StateMachine) (args : Value)
    (a : StateAction) (o : ObjectId) : Prop where
  kind : ep.kind = .state
  entity : ep.entity.getD "" = e.name
  action : Record.get? m.actions (ep.action.getD "") = some a
  document : NamesDocument args o

namespace Dispatcher

/-- **The call of a name is a state action** of `e`. -/
def Acts {S : Type} (x : Dispatcher τ S) (e : Descriptor) (m : StateMachine) (name : String)
    (args : Value) (a : StateAction) (o : ObjectId) : Prop :=
  ∃ ep, Record.get? x.endpoints name = some ep ∧ ep.Acts e m args a o

/-- Nothing happens to a part of the state, whatever happens to the call. -/
def Spares (p : τ → MemoryStore) (a : Action (τ × Call) α) : Prop :=
  Moves (fun q q' => p q'.1 = p q.1) (fun _ => True) a

/-- **A service that guards the states of `e`** on the memory store `c`: of the user code there are
only validators that check and middleware that spares the store, the registry was built as
registries are, and it guards the states. -/
structure GuardsStates (x : Dispatcher τ SessionId) (c : Component τ MemoryStore) (e : Descriptor)
    (m : StateMachine) : Prop where
  component : ∀ s t, c.get (c.set s t) = s
  store : x.executor.store = MemoryStore.documentStore.within c
  sleep : ∀ d t, c.get ((x.executor.policy.sleep d).run.run t).2 = c.get t
  checks : ∀ n, (x.executor.behaviour.entity n).OnlyChecks c.get
  noMutations : x.executor.registry.mutations = []
  middleware : ∀ mw ∈ x.middleware, ∀ ep rest, Spares c.get rest → Spares c.get (mw ep rest)
  built : x.executor.registry.Built
  registry : x.executor.registry.GuardsStates e m

theorem GuardsStates.executor {x : Dispatcher τ SessionId} {c : Component τ MemoryStore}
    {e : Descriptor} {m : StateMachine} (h : x.GuardsStates c e m) :
    x.executor.GuardsStates c.get e m where
  store := by
    rw [h.store]
    exact MemoryStore.onMemory_within h.component
  checks := h.checks
  shaped := h.built.shaped
  registry := h.registry

/-- The store and the arguments stay. -/
def Stays (p : τ → MemoryStore) (q q' : τ × Call) : Prop := p q'.1 = p q.1 ∧ q'.2.args = q.2.args

theorem Stays.refl {p : τ → MemoryStore} (q : τ × Call) : Stays p q q := ⟨rfl, rfl⟩

theorem Stays.trans {p : τ → MemoryStore} (q q' q'' : τ × Call) (h : Stays p q q')
    (h' : Stays p q' q'') :
    Stays p q q'' := ⟨h'.1.trans h.1, h'.2.trans h.2⟩

/-- The action is a step of the state machine and leaves its arguments alone. -/
def Steps (p : τ → MemoryStore) (e : Descriptor) (m : StateMachine) (args : Value)
    (acts : StateAction → ObjectId → Prop) (a : Action (τ × Call) α) : Prop :=
  ∀ t q r t' q', q.args = args → (p t).collections.Stated e.collection m.entered →
    a.run.run (t, q) = (r, (t', q')) → q'.args = args ∧ StateStep p e m acts t r t'

namespace Steps

variable {p : τ → MemoryStore} {e : Descriptor} {m : StateMachine} {args : Value}
  {acts : StateAction → ObjectId → Prop} {β : Type}

theorem throw (f : Fault) : Steps p e m args acts (throw f : Action (τ × Call) α) := by
  intro t q r t' q' hargs hs hr
  cases hr
  exact ⟨hargs, .of_quiet hs (Quiet.refl _) (.inl ⟨f, rfl⟩)⟩

theorem lift_bind {o : Outcome α} {f : α → Action (τ × Call) β}
    (hf : ∀ v, o = .ok v → Steps p e m args acts (f v)) :
    Steps p e m args acts (liftM o >>= f) := by
  intro t
  rcases o with fault | v
  · exact throw fault t
  · exact hf v rfl t

/-- An action that is no state action and does nothing to the store. -/
theorem of_stays {a : Action (τ × Call) α} (h : Moves (Stays p) (fun _ => True) a)
    (hno : ∀ a o, ¬ acts a o) : Steps p e m args acts a := by
  intro t q r t' q' hargs hs hr
  have hstays := (h (t, q)).1
  rw [hr] at hstays
  exact ⟨hstays.2.trans hargs,
    .of_quiet hs ⟨congrArg _ hstays.1, congrArg _ hstays.1⟩ (.inr hno)⟩

/-- An operation of the executor. -/
theorem perform {a : Action τ α} (h : ∀ t r t', (p t).collections.Stated e.collection m.entered →
    a.run.run t = (r, t') → StateStep p e m acts t r t') :
    Steps p e m args acts (perform a) := by
  intro t q r t' q' hargs hs hr
  cases hr
  exact ⟨hargs, h t _ _ hs rfl⟩

end Steps

section Operations

variable {x : Dispatcher τ SessionId} {c : Component τ MemoryStore} {e : Descriptor}
  {m : StateMachine} {acts : StateAction → ObjectId → Prop} {t t' : τ}

theorem stays_reads (hc : ∀ s t, c.get (c.set s t) = s) {a : Action MemoryStore α}
    {f : MemoryStore → Outcome α} (ha : a = Action.reads f) :
    Moves (Stays c.get) (fun _ => True) ((a.within c).within (.ofCall τ)) := by
  intro q
  subst ha
  exact ⟨⟨hc _ _, rfl⟩, fun _ _ => trivial⟩

/-- Listing reads the store only. -/
theorem stays_list (hc : ∀ s t, c.get (c.set s t) = s)
    (hstore : x.executor.store = MemoryStore.documentStore.within c) (d : Descriptor)
    (args : Value) :
    Moves (Stays c.get) (fun _ => True) (x.list d args) := by
  have hpipeline : ∀ stages, Moves (Stays c.get) (fun _ => True) (x.runPipeline d stages) := by
    intro stages
    rw [runPipeline, hstore]
    exact stays_reads hc rfl
  have hfind : Moves (Stays c.get) (fun _ => True)
      ((x.executor.store.find d.collection (.object []) none).within (.ofCall τ)) := by
    rw [hstore]
    exact stays_reads hc rfl
  refine Moves.lift_bind Stays.refl fun read _ => ?_
  have hrows : Moves (Stays c.get) (fun _ => True) (do
      let stages ← listPipeline x.executor.registry x.defaultLimit d read
      let rows ←
        if stages.isEmpty then
          (x.executor.store.find d.collection (.object []) none).within (.ofCall τ)
        else x.runPipeline d stages
      pure (Value.list (rows.map .object))) := by
    refine Moves.lift_bind Stays.refl fun stages _ => ?_
    split
    · exact Moves.bind Stays.trans hfind fun _ _ => Moves.pure Stays.refl trivial
    · exact Moves.bind Stays.trans (hpipeline stages) fun _ _ => Moves.pure Stays.refl trivial
  dsimp only
  split
  · refine Moves.lift_bind Stays.refl fun stages _ => ?_
    refine Moves.bind Stays.trans (hpipeline stages) fun rows _ => ?_
    refine Moves.lift_bind Stays.refl fun size _ => ?_
    exact Moves.bind Stays.trans (fun _ => ⟨⟨rfl, rfl⟩, fun _ _ => trivial⟩) fun _ _ => hrows
  · exact hrows

/-- **Endpoints that read** leave the store and the arguments alone. -/
theorem stays_onEntity (hc : ∀ s t, c.get (c.set s t) = s)
    (hstore : x.executor.store = MemoryStore.documentStore.within c) {ep : Endpoint}
    (hreads : ep.kind = .get ∨ ep.kind = .find) (d : Descriptor) (args : Value) :
    Moves (Stays c.get) (fun _ => True) (x.onEntity ep d args) := by
  unfold onEntity
  dsimp only
  rcases hreads with hk | hk <;> rw [hk]
  · refine Moves.lift_bind Stays.refl fun rawId _ => ?_
    refine Moves.guard Stays.refl fun _ => ?_
    refine Moves.lift_bind Stays.refl fun o _ => ?_
    refine Moves.bind (Q := fun _ => True) Stays.trans ?_ fun _ _ => Moves.pure Stays.refl trivial
    rw [hstore]
    exact stays_reads hc rfl
  · exact stays_list hc hstore d args

theorem step_save (h : x.GuardsStates c e m) {n : String} {args : Value}
    (hargs : x.executor.registry.Accepts (.add n) args) (hno : ∀ a o, ¬ acts a o)
    (hs : (c.get t).collections.Stated e.collection m.entered) {r : Outcome Value}
    (hr : (x.executor.operations.save n args none).run.run t = (r, t')) :
    StateStep c.get e m acts t r t' := by
  refine .of_lookup (g := .object) hs hr fun d r t' hd hrun => ?_
  obtain ⟨hknown, rfl⟩ := Executor.knows_of_descriptor h.executor.shaped hd
  refine h.executor.step_of_steady h.sleep (fun s => ?_) (fun s => ?_) hno hs hrun
  · exact Executor.confined_saveIn h.executor.store h.executor.confined
      (h.executor.confined_operations s _) d none args
  · exact h.executor.writeRules.moves_saveIn d none args ⟨hknown, fun _ _ hl => (by cases hl),
      hargs⟩

theorem step_update (h : x.GuardsStates c e m) {n : String} {args : Value}
    (hargs : x.executor.registry.Accepts (.update n) args) (hno : ∀ a o, ¬ acts a o)
    (hs : (c.get t).collections.Stated e.collection m.entered) {r : Outcome Value}
    (hr : (x.executor.operations.update n args none).run.run t = (r, t')) :
    StateStep c.get e m acts t r t' := by
  refine .of_lookup (g := Executor.documentOrNull) hs hr fun d r t' hd hrun => ?_
  obtain ⟨hknown, rfl⟩ := Executor.knows_of_descriptor h.executor.shaped hd
  refine h.executor.step_of_steady h.sleep (fun s => ?_) (fun s => ?_) hno hs hrun
  · exact Executor.confined_updateIn h.executor.store h.executor.confined
      (h.executor.confined_operations s _) d none args
  · exact h.executor.writeRules.moves_updateIn d none args
      ⟨hknown, fun _ _ hl => (by cases hl), hargs⟩

theorem step_delete (h : x.GuardsStates c e m) {n : String} {id : Value} (hno : ∀ a o, ¬ acts a o)
    (hs : (c.get t).collections.Stated e.collection m.entered) {r : Outcome Value}
    (hr : (x.executor.operations.delete n id none).run.run t = (r, t')) :
    StateStep c.get e m acts t r t' := by
  refine .of_lookup (g := Executor.documentOrNull) hs hr fun d r t' _ hrun => ?_
  refine h.executor.step_of_shrinks h.sleep (fun s => ?_) (fun s => ?_) hno hs hrun
  · exact Executor.confined_deleteIn h.executor.store h.executor.confined
      (h.executor.confined_operations s _) d id
  · exact h.executor.moves_deleteIn d id

theorem step_changeState (h : x.GuardsStates c e m) {n name : String} {args : Value}
    (hargs : x.executor.registry.Accepts (.update n) args)
    (hacts : ∀ a o, acts a o ↔ n = e.name ∧ Record.get? m.actions name = some a ∧
      NamesDocument args o)
    (hs : (c.get t).collections.Stated e.collection m.entered) {r : Outcome Value}
    (hr : (x.executor.operations.changeState n name args none).run.run t = (r, t')) :
    StateStep c.get e m acts t r t' := by
  have hlookup : x.executor.operations.changeState n name args none = (do
      let b ← liftM (do
        let d ← x.executor.descriptor n
        let a ← Executor.stateAction d name
        pure (d, a) : Outcome (Descriptor × StateAction))
      let v ← x.executor.transactWith args
        (fun s =>
        x.executor.changeStateIn (x.executor.operationsTo Executor.nestingLimit) b.1 name b.2 s)
          none
      pure (Executor.documentOrNull v)) := by
    simp only [liftM_bind, liftM_pure, bind_assoc, pure_bind]
    rfl
  rw [hlookup] at hr
  refine .of_lookup (g := Executor.documentOrNull) hs hr fun b r t' hb hrun => ?_
  obtain ⟨d, hd, hb⟩ := bind_eq_ok hb
  obtain ⟨action, haction, hb⟩ := bind_eq_ok hb
  cases hb
  obtain ⟨hknown, rfl⟩ := Executor.knows_of_descriptor h.executor.shaped hd
  rw [Executor.transactWith_changeStateIn ((h.checks d.name).effects name)] at hrun
  refine h.executor.step_of_transition h.sleep hknown haction hargs (fun a o => ?_) _ hs hrun
  rw [hacts]
  refine and_congr_right fun hname => and_congr_left fun _ => ?_
  obtain rfl := h.executor.eq_of_name hknown hname
  rw [h.executor.get?_of_stateAction haction, Option.some.injEq, eq_comm]

/-- Arguments that pass the check in front of a write are accepted. -/
theorem accepts_of_checkWrite {r : Registry} {ref : ShapeRef} {args : Value}
    (h : checkWrite r ref args = .ok ()) : r.Accepts ref args := by
  obtain ⟨s, hs, hcheck⟩ := bind_eq_ok h
  rw [argumentShape] at hs
  split at hs
  · rename_i s' hs'
    cases hs
    exact ⟨s, "", hs', hcheck⟩
  · cases hs

/-- **The operation of an endpoint** on an entity is a step of the state machine, one kind of
endpoint at a time. -/
theorem steps_onEntity (h : x.GuardsStates c e m) (ep : Endpoint) {d : Descriptor}
    (hd : d.name = ep.entity.getD "") (args : Value) :
    Steps c.get e m args (ep.Acts e m args) (x.onEntity ep d args) := by
  have hno : ep.kind ≠ .state → ∀ a o, ¬ ep.Acts e m args a o := fun hne _ _ hact => hne hact.kind
  have hlift {β γ : Type} {o : Outcome β} {f : β → Action (τ × Call) γ} :=
    @Steps.lift_bind τ β c.get e m args (ep.Acts e m args) γ o f
  by_cases hreads : ep.kind = .get ∨ ep.kind = .find
  · refine .of_stays (stays_onEntity h.component h.store hreads d args) (hno ?_)
    rcases hreads with hk | hk <;> rw [hk] <;> decide
  unfold onEntity
  dsimp only
  cases hk : ep.kind with
  | get => exact absurd (.inl hk) hreads
  | find => exact absurd (.inr hk) hreads
  | save =>
    refine hlift fun _ hcheck => .perform fun t r t' hs hr => ?_
    exact step_save h (accepts_of_checkWrite hcheck) (hno (by rw [hk]; decide)) hs hr
  | update =>
    refine hlift fun _ hcheck => .perform fun t r t' hs hr => ?_
    exact step_update h (accepts_of_checkWrite hcheck) (hno (by rw [hk]; decide)) hs hr
  | delete =>
    refine hlift fun rawId _ => .perform fun t r t' hs hr => ?_
    exact step_delete h (hno (by rw [hk]; decide)) hs hr
  | state =>
    refine hlift fun _ hcheck => .perform fun t r t' hs hr => ?_
    refine step_changeState h (accepts_of_checkWrite hcheck) (fun a o => ?_) hs hr
    exact ⟨fun hact => ⟨hd.trans hact.entity, hact.action, hact.document⟩,
      fun ⟨hname, haction, ho⟩ => ⟨hk, hd.symm.trans hname, haction, ho⟩⟩
  | custom => exact .throw _

theorem run_arguments (t : τ) (q : Call) :
    (arguments : Action (τ × Call) Value).run.run (t, q) = (.ok q.args, (t, q)) := rfl

/-- A call runs the chain of middleware and the operation of its endpoint; what fails there becomes
a service error. -/
theorem run_call_eq {S : Type} {x : Dispatcher τ S} {name : String} {ep : Endpoint}
    (hep : Record.get? x.endpoints name = some ep) {q : Call} {fs : Document}
    (hfs : callArguments q.args = .ok fs) (t : τ) :
    (x.call name).run.run (t, q) =
      let ended := (do chain ep x.middleware; x.execute ep : Action (τ × Call) Value).run.run
        (t, { q with args := .object fs })
      (ended.1.mapError Fault.normalize, ended.2) := by
  unfold call
  rw [hep]
  dsimp only
  rw [Action.run_bind_ok (run_arguments t q), hfs, Action.run_bind_ok (Action.run_lift _ _),
    Action.run_bind_ok (Action.run_modify _ _), Action.run_bind_ok (Action.run_observe _ _)]
  rcases (do chain ep x.middleware; x.execute ep : Action (τ × Call) Value).run.run
    (t, { q with args := .object fs }) with ⟨f | v, s⟩ <;> rfl

/-- The operation of an endpoint runs on the arguments that it finds. -/
theorem step_execute (h : x.GuardsStates c e m) (ep : Endpoint) {q q' : Call} {r : Outcome Value}
    (hs : (c.get t).collections.Stated e.collection m.entered)
    (hr : (x.execute ep).run.run (t, q) = (r, (t', q'))) :
    q'.args = q.args ∧ StateStep c.get e m (ep.Acts e m q.args) t r t' := by
  have hentity : Steps c.get e m q.args (ep.Acts e m q.args) (do
      let d ← x.executor.registry.lookup (ep.entity.getD "")
      x.onEntity ep d q.args) := by
    refine .lift_bind fun d hd => steps_onEntity h ep ?_ _
    rw [Registry.lookup] at hd
    split at hd
    · rename_i d' hget
      cases hd
      exact h.executor.shaped.named _ _ hget
    · cases hd
  unfold execute at hr
  dsimp only at hr
  rw [Action.run_bind_ok (run_arguments t q)] at hr
  cases hk : ep.kind with
  | custom =>
    have hnone : x.executor.registry.mutation ep.name =
        .error (Reason.unknownMutation ep.name).fault := by
      rw [Registry.mutation, h.noMutations]
      rfl
    rw [hk, hnone] at hr
    cases hr
    exact ⟨rfl, .of_quiet hs (Quiet.refl _) (.inl ⟨_, rfl⟩)⟩
  | _ =>
    rw [hk] at hr
    exact hentity t q r t' q' rfl hs hr

/-- The chain of middleware spares the store. -/
theorem spares_chain (ep : Endpoint) {mws : List (Middleware τ)}
    (h : ∀ mw ∈ mws, ∀ ep rest, Spares c.get rest → Spares c.get (mw ep rest)) :
    Spares c.get (chain ep mws) := by
  induction mws with
  | nil => exact fun _ => ⟨rfl, fun _ _ => trivial⟩
  | cons mw rest ih =>
    exact h mw (List.mem_cons_self ..) ep _ (ih fun mw' hmw' => h mw' (List.mem_cons_of_mem _ hmw'))

/-- **Every call is a step** of the state machine, with the arguments as the middleware left
them. -/
theorem step_call (h : x.GuardsStates c e m) (name : String) {q q' : Call} {r : Outcome Value}
    (hs : (c.get t).collections.Stated e.collection m.entered)
    (hr : (x.call name).run.run (t, q) = (r, (t', q'))) :
    StateStep c.get e m (x.Acts e m name q'.args) t r t' := by
  have hfail : ∀ f t₁ q₁, c.get t₁ = c.get t → (.error f, (t₁, q₁)) = (r, (t', q')) →
      StateStep c.get e m (x.Acts e m name q'.args) t r t' := by
    intro f t₁ q₁ hsame hend
    cases hend
    exact .of_quiet hs ⟨congrArg _ hsame, congrArg _ hsame⟩ (.inl ⟨f, rfl⟩)
  rcases hep : Record.get? x.endpoints name with _ | ep
  · rw [call, hep] at hr
    exact hfail _ t q rfl hr
  rcases hfs : callArguments q.args with f | fs
  · rw [call, hep] at hr
    dsimp only at hr
    rw [Action.run_bind_ok (run_arguments t q), hfs] at hr
    exact hfail f t q rfl hr
  rw [run_call_eq hep hfs] at hr
  have hspares := spares_chain ep h.middleware
  rcases hchain : (chain ep x.middleware).run.run (t, { q with args := .object fs }) with
    ⟨f | ⟨⟩, t₁, q₁⟩
  · rw [Action.run_bind_error hchain] at hr
    exact hfail _ t₁ q₁ (hspares.of_error hchain) hr
  have hsame : c.get t₁ = c.get t := (hspares.of_ok hchain).1
  rw [Action.run_bind_ok hchain] at hr
  rcases hexecute : (x.execute ep).run.run (t₁, q₁) with ⟨r₁, t₂, q₂⟩
  obtain ⟨hargs, hstep⟩ := step_execute h ep (by rw [hsame]; exact hs) hexecute
  rw [hexecute] at hr
  have hacts : x.Acts e m name q₂.args = ep.Acts e m q₁.args := by
    funext a o
    rw [hargs]
    refine propext ⟨fun ⟨ep', hep', hact⟩ => ?_, fun hact => ⟨ep, hep, hact⟩⟩
    obtain rfl := Option.some.inj (hep.symm.trans hep')
    exact hact
  rw [← hacts] at hstep
  have hstep' := hstep.of_quiet_left ⟨congrArg _ hsame, congrArg _ hsame⟩
  rcases r₁ with f | v
  · cases hr
    exact hstep'.map fun _ => ⟨_, rfl⟩
  · cases hr
    exact hstep'

/-- Without middleware, arguments that are an object stay as they are given. -/
theorem args_call (h : x.GuardsStates c e m) (hmiddleware : x.middleware = []) (name : String)
    {q q' : Call} {fs : Document} (hfs : q.args = .object fs) {r : Outcome Value}
    (hs : (c.get t).collections.Stated e.collection m.entered)
    (hr : (x.call name).run.run (t, q) = (r, (t', q'))) : q'.args = q.args := by
  rcases hep : Record.get? x.endpoints name with _ | ep
  · rw [call, hep] at hr
    cases hr
    rfl
  rw [run_call_eq hep (show callArguments q.args = .ok fs by rw [hfs]; rfl), hmiddleware, chain,
    pure_bind] at hr
  rcases hexecute : (x.execute ep).run.run (t, { q with args := .object fs }) with ⟨r₁, t₂, q₂⟩
  obtain ⟨hargs, -⟩ := step_execute h ep hs hexecute
  rw [hexecute] at hr
  cases hr
  rw [hargs, hfs]

end Operations

/-! ## Runs -/

/-- **The states of a service that can be reached**: it starts without documents, failures are
injected, and endpoints are called, in any order. -/
inductive Reached {S : Type} (x : Dispatcher τ S) (c : Component τ MemoryStore) : τ → Prop where
  | start {t : τ} (h : ∀ name, (c.get t).collections.get name = []) : Reached x c t
  | inject {t : τ} (h : Reached x c t) (count : Int) (operation : String) :
      Reached x c (((MemoryStore.inject count operation).within c).run.run t).2
  | call {t : τ} (h : Reached x c t) (name : String) (q : Call) :
      Reached x c ((x.call name).run.run (t, q)).2.1

variable {x : Dispatcher τ SessionId} {c : Component τ MemoryStore} {e : Descriptor}
  {m : StateMachine}

/-- However a state is reached, documents are in states that they can get into. -/
theorem Reached.stated (h : x.GuardsStates c e m) {t : τ} (ht : x.Reached c t) :
    (c.get t).collections.Stated e.collection m.entered := by
  induction ht with
  | start hempty =>
    refine ⟨fun name => ?_, fun e he => ?_⟩
    · rw [hempty]
      exact Collection.distinct_nil
    · rw [hempty] at he
      cases he
  | inject ht count operation ih =>
    rw [Action.run_within, h.component]
    exact ih
  | call ht name q ih => exact (step_call h name ih rfl).stated

/-- **State machines over whole runs.** Whatever was called before, with whatever arguments and
injected failures: every document of the entity is in the initial state or in one that an action
leads to; when a call changes the state of a document, the call is a state action on that document,
and the states before and after are those between which the action leads; and a state action on a
document in another state than the one that it starts from fails and changes nothing. -/
theorem keeps_states (h : x.GuardsStates c e m) {t : τ} (ht : x.Reached c t) :
    (∀ d ∈ (c.get t).documents e.collection, ∃ v ∈ m.entered, Record.get? d stateField = some v) ∧
    ∀ name q r t' q', (x.call name).run.run (t, q) = (r, (t', q')) →
      (∀ id d d', ((c.get t).collections.get e.collection).get? id = some d →
        ((c.get t').collections.get e.collection).get? id = some d' →
        Record.get? d' stateField ≠ Record.get? d stateField →
        ∃ a o, x.Acts e m name q'.args a o ∧ id = .id o ∧
          Record.get? d stateField = some (stateName a.source) ∧
          Record.get? d' stateField = some (stateName a.target)) ∧
      ∀ a o, x.Acts e m name q'.args a o →
        ∀ d, ((c.get t).collections.get e.collection).get? (.id o) = some d →
          Record.get? d stateField ≠ some (stateName a.source) →
          (∃ f, r = .error f) ∧ (c.get t').collections = (c.get t).collections ∧
            (c.get t').commits = (c.get t).commits := by
  have hs := ht.stated h
  refine ⟨fun d hd => ?_, fun name q r t' q' hr => ?_⟩
  · obtain ⟨entry, hentry, rfl⟩ := List.mem_map.1 hd
    exact hs.state entry hentry
  · have hstep := step_call h name hs hr
    exact ⟨hstep.changed, hstep.refused⟩

end Dispatcher

/-! ## A service of tasks -/

/-- A field that holds a single text. -/
def textField (name : String) : FieldDef :=
  ⟨name, .scalar .string, false, true, false, false, none, .null⟩

/-- Tasks have a title and a state. -/
def task : Entity where
  name := "Task"
  fields := [⟨"id", .scalar .id, false, true, false, false, none, .null⟩, textField "title",
    textField "state"]
  description := .null
  names_nodup := by decide

/-- Projects have tasks. -/
def project : Entity where
  name := "Project"
  fields := [⟨"tasks", .entity "Task", true, true, false, false, some ⟨false, "project", .null⟩,
    .null⟩]
  description := .null
  names_nodup := by decide

/-- Tasks are open until they are closed. -/
def taskStates : StateMachine :=
  ⟨.text "open", [("close", ⟨.text "open", .text "closed", .null⟩)]⟩

/-- The entities of the service. -/
def deskEntities : Registry :=
  ⟨[("Project", ⟨project, "projects", some "project", some "projects", none, true, none, []⟩),
    ("Task", ⟨task, "tasks", some "task", some "tasks", some taskStates, true, none, []⟩)], [],
    false⟩

/-- The registry of the service. -/
def deskRegistry : Registry := (Registry.finalize.run.run deskEntities).2

/-- A service of projects and their tasks. -/
def desk : Dispatcher MemoryStore SessionId where
  executor := {
    registry := deskRegistry
    behaviour := ⟨fun _ => .none, fun _ _ _ => throw .illTyped⟩
    store := MemoryStore.documentStore.within ⟨id, fun m _ => m⟩
    policy := ⟨2, fun n => .ok (.whole n), fun _ => pure (), Nat.two_pos⟩ }
  endpoints := (Endpoint.table .everything deskRegistry).toOption.getD []
  middleware := []
  defaultLimit := 10

/-- A project is added with a task in it. -/
def addProject : Call :=
  ⟨.object [("tasks", .object [("added", .list [.object [("title", .text "Read")]])])], []⟩

/-- The task is to be closed. -/
def closeTask : Call := ⟨.object [("id", .id (.ofNat 2))], []⟩

/-- The store after the project was added. -/
def afterAdding : MemoryStore := ((desk.call "addProject").run.run (.empty, addProject)).2.1

/-- The store after the task was closed. -/
def afterClosing : MemoryStore := ((desk.call "close_Task").run.run (afterAdding, closeTask)).2.1

/-- The entities that the registry knows. -/
theorem desk_descriptor {n : String} {d : Descriptor}
    (h : Record.get? deskRegistry.descriptors n = some d) :
    (d.entity = project ∧ d.collection = "projects" ∧ d.machine = none ∧ n = "Project") ∨
      (d.entity = task ∧ d.collection = "tasks" ∧ d.machine = some taskStates ∧ n = "Task") := by
  obtain ⟨p, q, hdescriptors⟩ : ∃ p q, deskRegistry.descriptors = [
      ("Project", ⟨project, "projects", some "project", some "projects", none, true, p, []⟩),
      ("Task", ⟨task, "tasks", some "task", some "tasks", some taskStates, true, q, ["state"]⟩)] :=
    ⟨_, _, rfl⟩
  have hmem := Record.mem_of_get?_eq_some h
  rw [hdescriptors] at hmem
  rcases List.mem_cons.1 hmem with hmem | hmem
  · cases hmem
    exact .inl ⟨rfl, rfl, rfl, rfl⟩
  · cases List.mem_singleton.1 hmem
    exact .inr ⟨rfl, rfl, rfl, rfl⟩

theorem desk_built : deskRegistry.Built := by
  have hproject : Registry.empty.connect project ⟨some "projects", none, none, none⟩ =
      .ok ⟨deskEntities.descriptors.take 1, [], false⟩ := rfl
  have htask : Registry.connect ⟨deskEntities.descriptors.take 1, [], false⟩ task
      ⟨some "tasks", none, none, some taskStates⟩ = .ok deskEntities := rfl
  exact .finalize (.connect (.connect .empty hproject) htask)

theorem task_plain : PlainEntry stateField task.fields where
  plain := by
    intro f hf hname
    simp only [task, List.mem_cons, List.not_mem_nil, or_false] at hf
    rcases hf with rfl | rfl | rfl
    · exact absurd hname (by decide)
    · exact absurd hname (by decide)
    · exact ⟨rfl, .inl rfl⟩
  apart := by decide

theorem desk_guardsStates {e : Descriptor}
    (he : Record.get? deskRegistry.descriptors "Task" = some e) :
    deskRegistry.GuardsStates e taskStates := by
  obtain ⟨-, -, -, hn⟩ | ⟨hentity, hcollection, hmachine, -⟩ := desk_descriptor he
  · exact absurd hn (by decide)
  have hname : e.name = "Task" := by
    rw [Descriptor.name, hentity]
    rfl
  refine ⟨by rw [hname, he], hmachine, ⟨⟨"open", rfl, by decide⟩, fun a ha => ?_⟩, ?_,
    fun n d hd f hf _ _ => ?_, fun n d hd _ hc => ?_, fun n d hd m' hm' a ha => ?_⟩
  · obtain rfl := List.mem_singleton.1 ha
    exact ⟨⟨"open", rfl, by decide⟩, ⟨"closed", rfl, by decide⟩⟩
  · rw [hentity]
    exact task_plain
  · obtain ⟨hentity', -⟩ | ⟨hentity', -⟩ := desk_descriptor hd <;> rw [hentity'] at hf
    · exact (by decide : ∀ f ∈ project.fields, f.connectionField ≠ stateField) f hf
    · exact (by decide : ∀ f ∈ task.fields, f.connectionField ≠ stateField) f hf
  · obtain ⟨-, hprojects, -⟩ | ⟨hentity', -⟩ := desk_descriptor hd
    · rw [hprojects, hcollection] at hc
      exact absurd hc (by decide)
    · rw [Descriptor.name, hentity', Descriptor.name, hentity]
  · obtain ⟨-, -, hnone, -⟩ | ⟨-, -, hsome, -⟩ := desk_descriptor hd
    · rw [hnone] at hm'
      cases hm'
    · rw [hsome] at hm'
      cases hm'
      obtain rfl := List.mem_singleton.1 ha
      exact ⟨"closed", rfl⟩

/-- The desk guards the states of tasks. -/
theorem desk_guards {e : Descriptor} (he : Record.get? deskRegistry.descriptors "Task" = some e) :
    desk.GuardsStates ⟨id, fun m _ => m⟩ e taskStates where
  component := fun _ _ => rfl
  store := rfl
  sleep := fun _ _ => rfl
  checks := fun _ => ⟨fun _ _ _ h => absurd h List.not_mem_nil, fun _ _ h =>
    absurd h List.not_mem_nil, rfl, fun _ => rfl⟩
  noMutations := rfl
  middleware := fun _ h => absurd h List.not_mem_nil
  built := desk_built
  registry := desk_guardsStates he

/-- A task that was added with its project and closed is refused to be closed again. -/
theorem desk_keeps_states :
    (∃ d, (afterClosing.collections.get "tasks").get? (.id (.ofNat 2)) = some d ∧
      Record.get? d stateField = some (.text "closed")) ∧
    (∃ f, ((desk.call "close_Task").run.run (afterClosing, closeTask)).1 = .error f) ∧
    ((desk.call "close_Task").run.run (afterClosing, closeTask)).2.1.collections =
      afterClosing.collections := by
  obtain ⟨e, he⟩ : ∃ e, Record.get? deskRegistry.descriptors "Task" = some e := ⟨_, rfl⟩
  have hcollection : e.collection = "tasks" := by
    obtain ⟨-, -, -, hn⟩ | ⟨-, hcollection, -⟩ := desk_descriptor he
    · exact absurd hn (by decide)
    · exact hcollection
  have hreached : desk.Reached ⟨id, fun m _ => m⟩ afterClosing :=
    .call (.call (.start fun _ => rfl) "addProject" addProject) "close_Task" closeTask
  have hclosed : (afterClosing.collections.get "tasks").get? (.id (.ofNat 2)) = some
      [("title", .text "Read"), ("project", .id (.ofNat 1)), ("state", .text "closed"),
        ("_id", .id (.ofNat 2))] := by cbv
  rcases hrun : (desk.call "close_Task").run.run (afterClosing, closeTask) with ⟨r, t', q'⟩
  have hargs := Dispatcher.args_call (desk_guards he) rfl "close_Task" (q := closeTask) rfl
    (hreached.stated (desk_guards he)) hrun
  have hacts : desk.Acts e taskStates "close_Task" q'.args ⟨.text "open", .text "closed", .null⟩
      (.ofNat 2) := by
    rw [hargs]
    refine ⟨⟨"close_Task", .state, some "Task", some "close"⟩, rfl, rfl, ?_, rfl, _, rfl, rfl⟩
    exact (Option.some.inj he) ▸ rfl
  have hall :=
    ((Dispatcher.keeps_states (desk_guards he) hreached).2 "close_Task" closeTask _ _ _ hrun).2
  rw [hcollection] at hall
  obtain ⟨hfails, hsame, -⟩ := hall _ _ hacts _ hclosed fun hopen => by
    have hstates : some (Value.text "closed") = some (.text "open") := hopen
    simp at hstates
  exact ⟨⟨_, hclosed, rfl⟩, hfails, hsame⟩

end EntityGraph
