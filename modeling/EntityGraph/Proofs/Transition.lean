import EntityGraph.Proofs.StateTree

/-!
# State actions

A state action without side effect leaves its arguments alone, so it does to the state what an
action without arguments beside the state does (`Executor.transition`), in one attempt as in many.
It returns only when the document that its arguments name is in the state that it starts from
(`Executor.source_of_transition`), and all that it does to states is to put that document into the
state that it leads to (`Executor.GuardsStates.moves_transition`).
-/

namespace EntityGraph

open MemoryStore (Quiet Wrote)

variable {τ S α β : Type}

/-! ## Arguments that stay -/

/-- **Beside arguments**: the action `a` leaves the arguments as they are and does to the state what
`b` does. -/
def Beside (args : Value) (a : Action (τ × Value) α) (b : Action τ α) : Prop :=
  ∀ t, a.run.run (t, args) = ((b.run.run t).1, ((b.run.run t).2, args))

namespace Beside

variable {args : Value} {a : Action (τ × Value) α} {b : Action τ α}

/-- Returning runs beside any arguments. -/
theorem pure (v : α) :
    Beside args (Pure.pure v : Action (τ × Value) α) (Pure.pure v : Action τ α) :=
  fun _ => rfl

theorem throw (e : Fault) :
    Beside args (MonadExcept.throw e : Action (τ × Value) α) (MonadExcept.throw e : Action τ α) :=
  fun _ => rfl

theorem lift (o : Outcome α) :
    Beside args (liftM o : Action (τ × Value) α) (liftM o : Action τ α) := fun t => by
  rw [Action.run_lift, Action.run_lift]

/-- An action on the state runs beside any arguments. -/
theorem within (b : Action τ α) : Beside args (b.within (.state τ)) b := fun _ => rfl

theorem observe (h : Beside args a b) : Beside args a.observe b.observe := fun t => by
  rw [Action.run_observe, Action.run_observe, h t]

/-- **Sequencing** actions beside their arguments. -/
theorem bind (h : Beside args a b) {f : α → Action (τ × Value) β} {g : α → Action τ β}
    (hf : ∀ v, Beside args (f v) (g v)) : Beside args (a >>= f) (b >>= g) := fun t => by
  rw [Action.run_bind, Action.run_bind, h t]
  rcases b.run.run t with ⟨e | v, t'⟩
  · rfl
  · exact hf v t'

/-- Looking at the arguments. -/
theorem currentArguments_bind {f : Value → Action (τ × Value) α} (h : Beside args (f args) b) :
    Beside args (Executor.currentArguments >>= f) b := fun t => h t

theorem ite {c : Prop} [Decidable c] {a' : Action (τ × Value) α} {b' : Action τ α}
    (h : Beside args a b) (h' : Beside args a' b') :
    Beside args (if c then a else a') (if c then b else b') := by
  split
  · exact h
  · exact h'

/-- Dropping the arguments afterwards leaves the action on the state. -/
theorem withArguments (h : Beside args a b) : Action.withArguments args a = b := by
  refine funext fun t => ?_
  have hrun := h t
  change (_, _) = b t
  rw [show a (t, args) = _ from hrun]
  rfl

variable {store : SessionStore τ S} {policy : RetryPolicy τ} {body : S → Action (τ × Value) α}
  {body' : S → Action τ α}

/-- One attempt. -/
theorem attempt (h : ∀ s, Beside args (body s) (body' s)) (s : S) :
    Beside args ((store.within (.state τ)).attempt body s) (store.attempt body' s) := by
  refine bind (within _) fun _ => ?_
  refine bind (observe (bind (h s) fun v => bind (within _) fun _ => pure v)) fun outcome => ?_
  cases outcome with
  | ok v => exact pure v
  | error e => exact bind (bind (observe (within _)) fun _ => pure _) fun _ => throw e

/-- Attempts until one succeeds. -/
theorem runFrom (h : ∀ s, Beside args (body s) (body' s)) (left number : Nat) :
    Beside args ((store.within (.state τ)).runFrom (policy.within (.state τ)) body left number)
      (store.runFrom policy body' left number) := by
  have hend : ∀ s e, Beside args
      (((store.within (.state τ)).finish s >>= fun _ => MonadExcept.throw e) : Action (τ × Value) α)
      (store.finish s >>= fun _ => MonadExcept.throw e) := fun s e => bind (within _) fun _ =>
      throw e
  induction left generalizing number with
  | zero =>
    rw [SessionStore.runFrom, SessionStore.runFrom]
    refine bind (within _) fun s => bind (observe (attempt h s)) fun outcome => ?_
    cases outcome with
    | ok v => exact bind (within _) fun _ => pure v
    | error e => exact ite (hend s e) (hend s _)
  | succ left ih =>
    rw [SessionStore.runFrom, SessionStore.runFrom]
    refine bind (within _) fun s => bind (observe (attempt h s)) fun outcome => ?_
    cases outcome with
    | ok v => exact bind (within _) fun _ => pure v
    | error e =>
      refine ite (hend s e) ?_
      refine bind (observe (bind (lift _) fun d => within _)) fun pause => ?_
      refine bind (within _) fun _ => ?_
      cases pause with
      | error f => exact throw f
      | ok _ => exact ih (number + 1)

end Beside

/-! ## State actions on the state alone -/

namespace Executor

/-- A state action without side effect. -/
def transition (x : Executor τ S) (ops : Operations τ S) (d : Descriptor) (name : String)
    (action : StateAction) (args : Value) (s : S) : Action τ (Option Document) := do
  let rawId ← argument args "id"
  if rawId.isEmpty then throw (Reason.actionNeedsId name d.name).fault
  let o ← toReference rawId
  match ← x.store.findById d.collection (.id o) (some s) with
  | none => throw (Reason.noDocument d.name rawId).fault
  | some current =>
    let state := (Record.get? current stateField).getD .null
    if !state.eq (stateName action.source) then throw (Reason.illegalState state).fault
    match args with
    | .object fs =>
      x.updateIn ops d none s (.object (Record.put fs stateField (stateName action.target)))
    | _ => throw .illTyped

/-- **A state action without side effect** leaves its arguments alone. -/
theorem beside_changeStateIn {x : Executor τ S} {d : Descriptor} {name : String}
    (h : (x.behaviour.entity d.name).effect? name = none) (ops : Operations τ S)
    (action : StateAction) (args : Value) (s : S) :
    Beside args (x.changeStateIn ops d name action s) (x.transition ops d name action args s) := by
  unfold changeStateIn transition
  rw [h]
  refine .currentArguments_bind (.bind (.lift _) fun rawId => ?_)
  refine .ite (.throw _) (.bind (.lift _) fun o => .bind (.within _) fun found => ?_)
  cases found with
  | none => exact .throw _
  | some current =>
    refine .ite (.throw _) (.currentArguments_bind ?_)
    cases args with
    | object fs => exact .within _
    | _ => exact .throw _

/-- In transactions of their own, too, state actions without side effect leave their arguments
alone. -/
theorem transactWith_changeStateIn {x : Executor τ S} {d : Descriptor} {name : String}
    (h : (x.behaviour.entity d.name).effect? name = none) (ops : Operations τ S)
    (action : StateAction) (args : Value) :
    x.transactWith args (x.changeStateIn ops d name action) none =
      x.transact (x.transition ops d name action args) none :=
  (Beside.runFrom (fun s => beside_changeStateIn h ops action args s) _ _).withArguments

variable {p : τ → MemoryStore} {x : Executor τ SessionId} {s : SessionId} {e : Descriptor}
  {m : StateMachine} {may : Value → Value → Prop} {ops : Operations τ SessionId}

theorem confined_transition_of_checks (hstore : x.store.OnMemory p)
    (hchecks : ∀ n, (x.behaviour.entity n).OnlyChecks p) (hops : ops.Confined p s) (d : Descriptor)
    (name : String) (action : StateAction) (args : Value) :
    Confined p s (x.transition ops d name action args s) := by
  have hconfined := confined_changeStateIn hstore (fun n => (hchecks n).confined) hops d name action
  have hbeside := beside_changeStateIn ((hchecks d.name).effects name) ops action args s
  refine fun t => ⟨?_, fun _ _ => trivial⟩
  have hkeeps := (hconfined (t, args)).1
  rw [hbeside t] at hkeeps
  exact hkeeps

/-- State actions stay in their session. -/
theorem confined_transition (h : x.GuardsStates p e m) (hops : ops.Confined p s) (d : Descriptor)
    (name : String) (action : StateAction) (args : Value) :
    Confined p s (x.transition ops d name action args s) :=
  confined_transition_of_checks h.store h.checks hops d name action args

/-- The children among the arguments of an update stay when a text is put in as the state. -/
theorem deltaOf?_of_put_state {f : FieldDef} {fs : Document} {text : String} {delta : Delta}
    (h : deltaOf? f (.object (Record.put fs stateField (.text text))) = some delta) :
    deltaOf? f (.object fs) = some delta := by
  unfold deltaOf? presentArgument? at h ⊢
  split at h
  · rename_i hlist
    rw [if_pos hlist]
    by_cases hname : stateField = f.name
    · rw [← hname, fieldOf?, Record.get?_put_self] at h
      obtain ⟨v, hv, hdelta⟩ := Option.bind_eq_some_iff.1 h
      obtain ⟨hget, -⟩ := Option.filter_eq_some_iff.1 hv
      cases hget
      cases hdelta
    · rw [fieldOf?, Record.get?_put, if_neg hname] at h
      exact h
  · cases h

/-- A state action is one of the machine of its entity. -/
theorem get?_of_stateAction {d : Descriptor} {name : String} {action : StateAction}
    (h : stateAction d name = .ok action) :
    ∃ m, d.machine = some m ∧ Record.get? m.actions name = some action := by
  rw [stateAction] at h
  split at h
  · rename_i a ha
    cases h
    exact Option.bind_eq_some_iff.1 ha
  · cases h

/-- **Where a state action leads**: the document that the arguments name goes into the state that
the action leads to, and the states of other documents stay as they are. -/
theorem GuardsStates.moves_transition (h : x.GuardsStates p e m) {d : Descriptor}
    (hd : x.registry.Knows d) {name : String} {action : StateAction}
    (haction : stateAction d name = .ok action) {args : Value}
    (hargs : x.registry.Accepts (.update d.name) args)
    (hmay : d.name = e.name → ∀ o, NamesDocument args o → may (.id o) (stateName action.target)) :
    Moves (SteadyIn p s e m may) (fun _ => True) (x.transition ops d name action args s) := by
  obtain ⟨m', hm', hget⟩ := get?_of_stateAction haction
  have hmem := Record.mem_of_get?_eq_some hget
  refine Moves.lift_bind SteadyIn.refl fun rawId hraw => ?_
  refine Moves.guard SteadyIn.refl fun _ => ?_
  refine Moves.lift_bind SteadyIn.refl fun o ho => ?_
  refine Moves.bind SteadyIn.trans (moves_findById h.store Collections.Steady.refl _ _)
    fun found _ => ?_
  split
  · exact Moves.throw SteadyIn.refl _
  refine Moves.guard SteadyIn.refl fun _ => ?_
  split
  · rename_i fs
    obtain ⟨text, htext⟩ := h.registry.texts d.name d hd.1 m' hm' _ hmem
    refine h.moves_updateIn hd (fun _ l hl => by cases hl) (fun hname v hv => ?_) fun id => ?_
    · rw [fieldOf?, Record.get?_put_self] at hv
      cases hv
      obtain rfl := h.eq_of_name hd hname
      rw [h.registry.machine] at hm'
      cases hm'
      refine ⟨List.mem_cons_of_mem _ (List.mem_map_of_mem hmem), fun o' ho' => hmay rfl o' ?_⟩
      obtain ⟨rawId', hraw', href⟩ := ho'
      refine ⟨rawId', ?_, href⟩
      rw [← hraw', argument, argument, Record.get?_put, if_neg (by decide)]
    · refine h.writeRules.moves_applyDeltas d id _ _ fun f hf delta hdelta => ?_
      rw [htext] at hdelta
      exact h.children hd (.inr rfl) hargs f hf delta (deltaOf?_of_put_state hdelta)
  · exact Moves.throw SteadyIn.refl _

theorem eq_text_of_eq {v : Value} {text : String} (h : v.eq (.text text) = true) :
    v = .text text := by
  cases v <;> simp_all [Value.eq, Value.eqNumber, Value.number?]

/-- **Where a state action starts**: it returns only when the document that the arguments name is
there, in the state that the action starts from. -/
theorem source_of_transition (hstore : x.store.OnMemory p) {d : Descriptor} {name : String}
    {action : StateAction} (hsource : ∃ text, stateName action.source = .text text) {args : Value}
    {t t' : τ} {tr : Transaction} (htr : (p t).transaction? (some s) = some tr)
    {v : Option Document} (h : (x.transition ops d name action args s).run.run t = (.ok v, t')) :
    ∃ o current, NamesDocument args o ∧ (tr.working.get d.collection).get? (.id o) = some current ∧
      Record.get? current stateField = some (stateName action.source) := by
  unfold transition at h
  obtain ⟨rawId, hraw, h⟩ := Action.run_lift_bind_eq_ok h
  obtain ⟨-, h⟩ := Action.run_guard_eq_ok h
  obtain ⟨o, ho, h⟩ := Action.run_lift_bind_eq_ok h
  obtain ⟨found, t₂, hfound, h⟩ := Action.run_bind_eq_ok h
  have hlookup := (hstore.findById d.collection (.id o) (some s)).run hfound
  rw [MemoryStore.findById, Action.run_reads, MemoryStore.run_lookupId htr] at hlookup
  obtain ⟨hlookup, -⟩ := Prod.mk.inj hlookup
  cases hlookup
  rcases hcurrent : (tr.working.get d.collection).get? (.id o) with _ | current
  · rw [hcurrent] at h
    cases h
  · rw [hcurrent] at h
    obtain ⟨hguard, -⟩ := Action.run_guard_eq_ok h
    obtain ⟨text, htext⟩ := hsource
    rw [Bool.not_eq_true', Bool.not_eq_false, htext] at hguard
    have heq := eq_text_of_eq hguard
    refine ⟨o, current, ⟨rawId, hraw, ho⟩, hcurrent, ?_⟩
    rcases hstate : Record.get? current stateField with _ | w
    · rw [hstate] at heq
      cases heq
    · rw [hstate] at heq
      exact (congrArg some heq).trans (congrArg some htext.symm)

end Executor

end EntityGraph
