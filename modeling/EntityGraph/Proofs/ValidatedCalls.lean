import EntityGraph.Proofs.Validation
import EntityGraph.Proofs.Transparency
import EntityGraph.Proofs.Links
import Mathlib.Algebra.Order.BigOperators.Group.List

/-!
# Validated calls

A call that saves, updates or deletes a document comes with the agenda of that document and after it
the agendas of the children in its arguments (`Registry.Schedules`). The call attends to all of it
in that order: no validator on the agenda is skipped and no other one runs, and the first one that
raises is the last one that runs. Its fault is that of the call then, which commits nothing
(`call_validated`).

A new child is linked to an identifier that its parent got when it was filed. An agenda therefore
has an item for every document that is filed, between the validators of the parent and those of its
children, and the minutes say which identifier it was.
-/

namespace EntityGraph

open MemoryStore (InSession Quiet)

variable {τ S α β : Type}

/-! ## The agenda of a write -/

/-- **A visit that can be made**: its entity has a collection of its own, and the arguments name the
document that is visited, unless it is created. -/
structure Visit.IsPossible (r : Registry) (v : Visit) : Prop where
  lookup : r.lookup v.target = .ok v.entity
  own : v.entity.hasEndpoints = true
  named : v.operation ≠ .create → ∃ o, NamesDocument v.args o ∧ v.id = .id o

/-- What is due at a visit: the agenda of its document, which is filed then if it is new. -/
def Visit.agenda (r : Registry) (b : Behaviour τ S) (v : Visit) : List Due :=
  r.agenda b v.operation v.entity.entity v.link v.args ++
    match v.operation with
    | .create => [.filed v.entity.collection v.id]
    | _ => []

/-- **The agenda of jobs**, one after the other: what is due at the visit that does the job, and
then the agenda of the jobs that it brings with it, linked to its document. A job that cannot be
done blocks what comes after it. -/
inductive Registry.Schedules (r : Registry) (b : Behaviour τ S) : List Job → List Due → Prop where
  | nil : r.Schedules b [] []
  | cons {v : Visit} {jobs : List Job} {children rest : List Due} (hv : v.IsPossible r)
      (hchildren : r.Schedules b v.jobs children) (hrest : r.Schedules b jobs rest) :
      r.Schedules b (v.toJob :: jobs) (v.agenda r b ++ children ++ rest)
  | blocked {j : Job} {jobs : List Job} {rest : List Due}
    (h : ∀ v : Visit, v.toJob = j → ¬ v.IsPossible r)
      (hrest : r.Schedules b jobs rest) : r.Schedules b (j :: jobs) (.blocked :: rest)

namespace Registry

variable {r : Registry} {b : Behaviour τ S} {js ks : List Job} {new new' : Minutes}
  {fault? : Option Fault} {e : Fault}

theorem Schedules.append {agenda agenda' : List Due} (h : r.Schedules b js agenda)
    (h' : r.Schedules b ks agenda') :
    r.Schedules b (js ++ ks) (agenda ++ agenda') := by
  induction h with
  | nil => exact h'
  | cons hv hchildren _ _ ih =>
    rw [List.append_assoc]
    exact .cons hv hchildren ih
  | blocked h _ ih => exact .blocked h ih

/-- **Jobs have an agenda**, whether they can be done or not. -/
theorem exists_schedules (r : Registry) (b : Behaviour τ S) (js : List Job) :
    ∃ agenda, r.Schedules b js agenda := by
  obtain ⟨n, hn⟩ : ∃ n, ∀ j ∈ js, sizeOf j.args < n :=
    ⟨(js.map fun j => sizeOf j.args).sum + 1, fun j hj =>
      Nat.lt_succ_of_le (List.single_le_sum (fun _ _ => Nat.zero_le _) _ (List.mem_map_of_mem hj))⟩
  induction n generalizing js with
  | zero =>
    cases js with
    | nil => exact ⟨[], .nil⟩
    | cons j js => exact absurd (hn j (List.mem_cons_self ..)) (Nat.not_lt_zero _)
  | succ n ih =>
    induction js with
    | nil => exact ⟨[], .nil⟩
    | cons j js ihjs =>
      obtain ⟨rest, hrest⟩ := ihjs fun k hk => hn k (List.mem_cons_of_mem _ hk)
      by_cases hpossible : ∃ v : Visit, v.toJob = j ∧ v.IsPossible r
      · obtain ⟨v, rfl, hv⟩ := hpossible
        have hargs := hn _ (List.mem_cons_self ..)
        obtain ⟨children, hchildren⟩ := ih v.jobs fun k hk => by
          obtain ⟨f, -, delta, hdelta, hitem⟩ := Visit.mem_jobs.1 hk
          have hlt := sizeOf_deltaOf?_lt hdelta
          obtain ⟨item, hmem, rfl⟩ | ⟨item, hmem, rfl⟩ := hitem
          · have := List.sizeOf_lt_of_mem hmem
            dsimp only
            omega
          · have := List.sizeOf_lt_of_mem hmem
            dsimp only
            omega
        exact ⟨_, .cons hv hchildren hrest⟩
      · exact ⟨.blocked :: rest, .blocked (fun v hv hpos => hpossible ⟨v, hv, hpos⟩) hrest⟩

/-- **Jobs that were attended to**: what was added to the minutes proceeds along their agenda. -/
def Attends (r : Registry) (b : Behaviour τ S) (js : List Job) (new : Minutes)
    (fault? : Option Fault) : Prop :=
  ∃ agenda, r.Schedules b js agenda ∧ ∀ handed, Proceeds handed agenda new fault?

namespace Attends

theorem nil : r.Attends b [] [] none := ⟨[], .nil, fun _ => .done⟩

/-- Nothing has occurred before a fault. -/
theorem ended : r.Attends b js [] (some e) :=
  have ⟨agenda, hagenda⟩ := exists_schedules r b js
  ⟨agenda, hagenda, fun _ => .ended⟩

theorem append (h : r.Attends b js new none) (h' : r.Attends b ks new' fault?) :
    r.Attends b (js ++ ks) (new ++ new') fault? :=
  have ⟨_, hagenda, hproceeds⟩ := h
  have ⟨_, hagenda', hproceeds'⟩ := h'
  ⟨_, hagenda.append hagenda', fun handed => (hproceeds handed).append hproceeds'⟩

theorem cut (h : r.Attends b js new (some e)) : r.Attends b (js ++ ks) new (some e) :=
  have ⟨_, hagenda, hproceeds⟩ := h
  have ⟨_, hagenda'⟩ := exists_schedules r b ks
  ⟨_, hagenda.append hagenda', fun handed => (hproceeds handed).cut⟩

theorem fails (h : r.Attends b js new none) : r.Attends b js new (some e) :=
  have ⟨agenda, hagenda, hproceeds⟩ := h
  ⟨agenda, hagenda, fun handed => (hproceeds handed).fails⟩

variable {v : Visit}

/-- A visit with the jobs that it brings with it. -/
theorem visit (hv : v.IsPossible r) (h : ∀ handed, Proceeds handed (v.agenda r b) new none)
    (h' : r.Attends b v.jobs new' fault?) : r.Attends b [v.toJob] (new ++ new') fault? := by
  obtain ⟨children, hchildren, hproceeds⟩ := h'
  refine ⟨_, .cons hv hchildren .nil, fun handed => ?_⟩
  rw [List.append_nil]
  exact (h handed).append hproceeds

/-- A visit that ended before its jobs. -/
theorem visit_cut (hv : v.IsPossible r)
    (h : ∀ handed, Proceeds handed (v.agenda r b) new (some e)) :
    r.Attends b [v.toJob] new (some e) := by
  obtain ⟨children, hchildren⟩ := exists_schedules r b v.jobs
  exact ⟨_, .cons hv hchildren .nil, fun handed => (h handed).cut.cut⟩

end Attends

end Registry

/-! ## Recorded writes -/

namespace Executor

variable {x : Executor τ SessionId} {s : SessionId} {ops : Operations τ SessionId}
  {ops' : Operations (τ × Minutes) SessionId}

/-- **A recorded action that attends to jobs.** -/
abbrev AttendsTo (x : Executor τ SessionId) (js : List Job) (a' : Action (τ × Minutes) α)
    (a : Action τ α) : Prop :=
  Recorded (fun new o => x.registry.Attends x.behaviour js new o.fault?) a' a

namespace AttendsTo

variable {js ks : List Job} {a' : Action (τ × Minutes) α} {a : Action τ α}

theorem bind (ha : x.AttendsTo js a' a) {f' : α → Action (τ × Minutes) β} {f : α → Action τ β}
    (hf : ∀ v, x.AttendsTo ks (f' v) (f v)) : x.AttendsTo (js ++ ks) (a' >>= f') (a >>= f) :=
  Recorded.bind ha (fun _ _ h => h.cut) fun _ v h => (hf v).mono fun _ _ h' => h.append h'

theorem lift_bind {o : Outcome β} {f' : β → Action (τ × Minutes) α} {f : β → Action τ α}
    (hf : ∀ v, o = .ok v → x.AttendsTo js (f' v) (f v)) :
    x.AttendsTo js (liftM o >>= f') (liftM o >>= f) :=
  Recorded.lift_bind (fun _ _ => .ended) hf

theorem guard {c : Prop} [Decidable c] {e : Fault} {f' : PUnit → Action (τ × Minutes) α}
    {f : PUnit → Action τ α} (hf : x.AttendsTo js (f' ⟨⟩) (f ⟨⟩)) :
    x.AttendsTo js (if c then MonadExcept.throw e >>= f' else f' ⟨⟩)
    (if c then MonadExcept.throw e >>= f else f ⟨⟩) :=
  Recorded.guard .ended hf

/-- What comes afterwards adds nothing to the minutes. -/
theorem bind_silent (ha : x.AttendsTo js a' a) {f' : α → Action (τ × Minutes) β}
    {f : α → Action τ β} (hf : ∀ v, Recorded (fun new _ => new = []) (f' v) (f v)) :
    x.AttendsTo js (a' >>= f') (a >>= f) := by
  refine Recorded.bind ha (fun _ _ h => h) fun new v h => (hf v).mono fun new' o hnew' => ?_
  subst hnew'
  rw [List.append_nil]
  cases o with
  | error e => exact h.fails
  | ok w => exact h

/-- Without jobs there is nothing to add. -/
theorem of_silent (ha : Recorded (fun new _ => new = []) a' a) : x.AttendsTo [] a' a :=
  ha.mono fun new o hnew => by
    subst hnew
    cases o with
    | error e => exact .ended
    | ok w => exact .nil

/-- **A visit**: what is due at it, and then its jobs. -/
theorem visit {v : Visit} (hv : v.IsPossible x.registry)
    (ha : Recorded (fun new o => ∀ handed,
      Proceeds handed (v.agenda x.registry x.behaviour) new o.fault?) a' a)
    {f' : α → Action (τ × Minutes) β} {f : α → Action τ β}
      (hf : ∀ w, x.AttendsTo v.jobs (f' w) (f w)) :
    x.AttendsTo [v.toJob] (a' >>= f') (a >>= f) :=
  Recorded.bind ha (fun _ _ h => .visit_cut hv h) fun _ w h => (hf w).mono fun _ _ h' =>
    .visit hv h h'

end AttendsTo

/-- The end of a change has no validators. -/
theorem recorded_revise (d : Descriptor) (rawId : Value) (o : ObjectId) (m : Materialized) :
    Recorded (fun new _ => new = []) (x.recorded.revise d s rawId o m)
    (x.revise d s rawId o m) := by
  refine (Recorded.within _).silent_bind (fun _ => rfl) fun found => ?_
  cases found with
  | none => exact .throw rfl
  | some current =>
    refine .lift_bind (fun _ _ => rfl) fun changes _ => ?_
    dsimp only
    generalize updateParts (if changes.isEmpty then none else some changes) m.unset = parts
    split
    · exact .pure rfl
    · exact .within _

mutual

/-- **Saving a document** attends to its job. Until the document is filed the visit may be to any
identifier. -/
theorem recorded_saveIn (hx : ∀ n, (x.behaviour.entity n).hooks = .none) {target : String}
    (d : Descriptor) (hd : x.descriptor target = .ok d) (link : Option ParentLink) (args : Value) :
    x.AttendsTo [⟨.create, target, link, args⟩] (x.recorded.saveIn ops' d link s args)
      (x.saveIn ops d link s args) := by
  obtain ⟨hlookup, hown⟩ := descriptor_eq_ok hd
  have hpossible : ∀ id, (Visit.mk ⟨.create, target, link, args⟩ d id).IsPossible x.registry :=
      fun id =>
    ⟨hlookup, hown, fun hne => absurd rfl hne⟩
  rw [saveIn_eq rfl, saveIn_eq (hx d.name)]
  refine (Materializer.recorded_materialize x.registry x.behaviour .create s
    d.entity link args).bind (fun new e h => .visit_cut (hpossible .null) fun handed =>
    (h.1 handed).cut) fun new made h => ?_
  refine (Recorded.noted (.ofFiling d.collection) _).bind (fun new' e h' => ?_)
    fun new' stored h' => ?_
  · obtain rfl : new' = [] := h'
    rw [List.append_nil]
    exact .visit_cut (hpossible .null) fun handed => (h.1 handed).fails.cut
  obtain rfl : new' = [(.filed d.collection stored, .ok none)] := h'
  have hfiled : ∀ id, (∀ i, documentId stored = .ok i → i = id) → ∀ handed, Proceeds handed
      ((Visit.mk ⟨.create, target, link, args⟩ d id).agenda x.registry x.behaviour)
      (new ++ [(.filed d.collection stored, .ok none)]) none := fun id hid handed =>
    (h.1 handed).append fun _ => .accepted (.filed hid) .done
  refine .lift_bind (fun e he => ?_) fun id hid => ?_
  · refine .visit_cut (hpossible .null) fun handed => ?_
    rw [List.append_nil]
    exact (hfiled .null (fun i hi => by cases he.symm.trans hi) handed).fails
  have hid' : ∀ i, documentId stored = .ok i → i = id :=
    fun i hi => Except.ok.inj (hi.symm.trans hid)
  refine Recorded.bind (recorded_applyDeltas hx d id args d.entity.fields) (fun new' e h' => ?_)
    fun new' _ h' => ?_
  · rw [← List.append_assoc]
    exact .visit (hpossible id) (hfiled id hid') h'
  · refine .pure ?_
    rw [List.append_nil, ← List.append_assoc]
    exact .visit (hpossible id) (hfiled id hid') h'
termination_by (sizeOf args, 2, 0)

/-- **Updating a document** attends to its job. -/
theorem recorded_updateIn (hx : ∀ n, (x.behaviour.entity n).hooks = .none) {target : String}
    (d : Descriptor) (hd : x.descriptor target = .ok d) (link : Option ParentLink) (args : Value) :
    x.AttendsTo [⟨.update, target, link, args⟩] (x.recorded.updateIn ops' d link s args)
      (x.updateIn ops d link s args) := by
  obtain ⟨hlookup, hown⟩ := descriptor_eq_ok hd
  rw [updateIn_eq rfl, updateIn_eq (hx d.name)]
  refine .lift_bind fun rawId hrawId => ?_
  refine .guard (.lift_bind fun o ho => ?_)
  have hpossible : (Visit.mk ⟨.update, target, link, args⟩ d (.id o)).IsPossible x.registry :=
    ⟨hlookup, hown, fun _ => ⟨o, ⟨rawId, hrawId, ho⟩, rfl⟩⟩
  refine AttendsTo.visit hpossible ?_ fun made =>
    (recorded_applyDeltas hx d (.id o) args d.entity.fields).bind_silent fun _ =>
      recorded_revise d rawId o made
  refine (Materializer.recorded_materialize x.registry x.behaviour .update s
    d.entity link args).mono fun new outcome h handed => ?_
  rw [Visit.agenda, List.append_nil]
  exact h.1 handed
termination_by (sizeOf args, 2, 0)

/-- **The lists of a document** attend to the jobs in the arguments. -/
theorem recorded_applyDeltas (hx : ∀ n, (x.behaviour.entity n).hooks = .none) (d : Descriptor)
    (parent args : Value) :
    ∀ fields : List FieldDef, x.AttendsTo (fields.flatMap (FieldDef.jobs parent args))
      (x.recorded.applyDeltas ops' d parent s args fields)
      (x.applyDeltas ops d parent s args fields)
  | [] => by
    rw [applyDeltas, applyDeltas]
    exact .pure .nil
  | f :: rest => by
    rw [applyDeltas_cons, applyDeltas_cons, List.flatMap_cons, FieldDef.jobs]
    have hrest := recorded_applyDeltas hx d parent args rest
    cases hdelta : deltaOf? f args with
    | none => exact hrest
    | some delta =>
      have := sizeOf_deltaOf?_lt hdelta
      refine AttendsTo.bind ?_ fun _ => hrest
      rw [applyDelta, applyDelta]
      refine .guard (.lift_bind fun e he => ?_)
      exact .bind (recorded_saveAll hx e he _ delta.added) fun _ =>
        recorded_updateAll hx e he _ delta.updated
termination_by fields => (sizeOf args, 1, fields.length)

theorem recorded_saveAll (hx : ∀ n, (x.behaviour.entity n).hooks = .none) {target : String}
    (d : Descriptor) (hd : x.descriptor target = .ok d) (link : ParentLink) : ∀ items : List Value,
      x.AttendsTo (items.map (⟨.create, target, some link, ·⟩))
      (x.recorded.saveAll ops' d link s items) (x.saveAll ops d link s items)
  | [] => by
    rw [saveAll, saveAll]
    exact .pure .nil
  | v :: rest => by
    rw [saveAll, saveAll]
    exact .bind (recorded_saveIn hx d hd (some link) v) fun _ => recorded_saveAll hx d hd link rest
termination_by items => (sizeOf items, 0, 0)

theorem recorded_updateAll (hx : ∀ n, (x.behaviour.entity n).hooks = .none) {target : String}
    (d : Descriptor) (hd : x.descriptor target = .ok d) (link : ParentLink) : ∀ items : List Value,
      x.AttendsTo (items.map (⟨.update, target, some link, ·⟩))
      (x.recorded.updateAll ops' d link s items) (x.updateAll ops d link s items)
  | [] => by
    rw [updateAll, updateAll]
    exact .pure .nil
  | v :: rest => by
    rw [updateAll, updateAll]
    exact .bind (recorded_updateIn hx d hd (some link) v) fun _ =>
      recorded_updateAll hx d hd link rest
termination_by items => (sizeOf items, 0, 0)

end

/-- The arguments of a deletion: the identifier alone, as a reference if it can be read as one. -/
def deletionArgs (target : Value) : Value :=
  .object [("id", match toReference (deletionId target) with
    | .ok o => .id o
    | .error _ => deletionId target)]

/-- An identifier alone brings no other jobs with it. -/
theorem jobs_id (fields : List FieldDef) (parent w : Value) :
    fields.flatMap (FieldDef.jobs parent (.object [("id", w)])) = [] := by
  refine List.flatMap_eq_nil_iff.2 fun f _ => ?_
  have hnone : deltaOf? f (.object [("id", w)]) = none := by
    unfold deltaOf? presentArgument?
    by_cases hid : f.name = "id"
    · rw [FieldDef.isIdentifier, hid]
      simp
    · simp [fieldOf?, Record.get?, Ne.symm hid]
  rw [FieldDef.jobs, hnone]

/-- **Deleting a document** attends to its job. -/
theorem recorded_deleteIn (hx : ∀ n, (x.behaviour.entity n).hooks = .none) {target : String}
    (d : Descriptor) (hd : x.descriptor target = .ok d) (id : Value) :
    x.AttendsTo [⟨.delete, target, none, deletionArgs id⟩] (x.recorded.deleteIn ops' d s id)
      (x.deleteIn ops d s id) := by
  obtain ⟨hlookup, hown⟩ := descriptor_eq_ok hd
  rw [deleteIn_eq rfl, deleteIn_eq (hx d.name)]
  refine .guard (.lift_bind fun o ho => ?_)
  have hargs : deletionArgs id = .object [("id", .id o)] := by rw [deletionArgs, ho]
  have hpossible :
      (Visit.mk ⟨.delete, target, none, deletionArgs id⟩ d (.id o)).IsPossible x.registry :=
    ⟨hlookup, hown, fun _ => ⟨o, ⟨.id o, by rw [hargs]; rfl, rfl⟩, rfl⟩⟩
  have hjobs : (Visit.mk ⟨.delete, target, none, deletionArgs id⟩ d (.id o)).jobs = [] := by
    rw [Visit.jobs, hargs]
    exact jobs_id _ _ _
  rw [← hargs]
  refine AttendsTo.visit hpossible ?_ fun _ => ?_
  · refine (Materializer.recorded_materialize x.registry x.behaviour .delete s d.entity none
      (deletionArgs id)).mono fun new outcome h handed => ?_
    rw [Visit.agenda, List.append_nil]
    exact h.1 handed
  · rw [hjobs]
    refine .of_silent ((Recorded.within _).silent_bind (fun _ => rfl) fun found => ?_)
    cases found with
    | none => exact .throw rfl
    | some _ => exact .within _

end Executor

/-! ## Transactions with minutes -/

/-- A store that withholds what a call writes: in the session that the call is given, if any, a
transaction is open. -/
def MemoryStore.Withholds (m : MemoryStore) (session : Option SessionId) : Prop :=
  ∀ s, session = some s → (m.transaction? (some s)).isSome = true

theorem MemoryStore.Left.quiet {s : SessionId} {m m' : MemoryStore} (h : MemoryStore.Left s m m') :
    Quiet m m' :=
  ⟨h.uncommitted.collections, h.uncommitted.commits⟩

/-- **An attempt** leaves a session that is known, and when it fails what was committed is as
before. -/
theorem SessionStore.run_attempt_quiet {p : τ → MemoryStore} {store : SessionStore τ SessionId}
    {body : SessionId → Action τ α} {s : SessionId} {t₁ t₂ t₄ : τ} {tr : Transaction}
    {r : Outcome α} (hstore : store.OnMemory p) (hbody : Confined p s (body s))
    (hbegin : (store.begin s).run.run t₁ = (.ok (), t₂))
    (hopen : (p t₂).transaction? (some s) = some tr)
    (h : (store.attempt body s).run.run t₁ = (r, t₄)) :
    ((p t₄).sessions[s]?).isSome = true ∧ ∀ e, r = .error e → Quiet (p t₂) (p t₄) := by
  have hstill : ∀ {t₃ ws}, MemoryStore.Wrote s ws (p t₂) (p t₃) →
      (p t₃).transaction? (some s) = some (tr.afterAll ws) := fun hw => by
    rw [hw.transaction?, hopen]
    rfl
  rcases hr : (body s).run.run t₂ with ⟨e | v, t₃⟩
  · obtain ⟨ws, hw⟩ := hbody.of_error hr (by rw [hopen]; rfl)
    obtain ⟨t₅, hrun, hleft⟩ := run_attempt_error hstore hbegin hr (hstill hw)
    obtain ⟨rfl, rfl⟩ := Prod.mk.inj (h.symm.trans hrun)
    exact ⟨hleft.known, fun _ _ => hw.quiet.trans hleft.quiet⟩
  · obtain ⟨ws, hw⟩ := (hbody.of_ok hr).1 (by rw [hopen]; rfl)
    obtain ⟨t₅, ⟨-, hrun, hleft⟩ | ⟨-, hrun, hpublished⟩⟩ :=
      run_attempt_cases hstore hbegin hr (hstill hw)
    · obtain ⟨rfl, rfl⟩ := Prod.mk.inj (h.symm.trans hrun)
      exact ⟨hleft.known, fun _ _ => hw.quiet.trans hleft.quiet⟩
    · obtain ⟨rfl, rfl⟩ := Prod.mk.inj (h.symm.trans hrun)
      exact ⟨hpublished.known, nofun⟩

namespace Executor

variable {x : Executor τ SessionId} {js : List Job} {body' : SessionId → Action (τ × Minutes) α}
  {body : SessionId → Action τ α}

theorem recorded_abortQuietly (s : SessionId) :
    Recorded (fun new o => new = [] ∧ o = .ok ()) (x.recorded.store.abortQuietly s)
    (x.store.abortQuietly s) := by
  refine (Recorded.observe (Recorded.within _)).bind (fun _ _ h => nomatch h) fun new _ h => ?_
  obtain ⟨-, -, rfl⟩ := h
  exact .pure ⟨rfl, rfl⟩

/-- **One attempt** attends to the jobs of its body. -/
theorem recorded_attempt (hbody : ∀ s, x.AttendsTo js (body' s) (body s)) (s : SessionId) :
    x.AttendsTo js (x.recorded.store.attempt body' s) (x.store.attempt body s) := by
  refine (Recorded.within _).silent_bind (fun _ => .ended) fun _ => ?_
  have hcommitted : x.AttendsTo js
      (do let v ← body' s; x.recorded.store.commit s; pure v)
      (do let v ← body s; x.store.commit s; pure v) :=
    (hbody s).bind_silent fun _ => (Recorded.within _).silent_bind (fun _ => rfl) fun _ => .pure rfl
  refine (Recorded.observe hcommitted).bind (fun _ _ h => nomatch h) fun new outcome h => ?_
  obtain ⟨o, ho, h⟩ := h
  cases ho
  cases outcome with
  | ok v => exact .pure (by rwa [List.append_nil])
  | error e =>
    refine (recorded_abortQuietly s).bind (fun _ _ h => nomatch h.2) fun _ _ hnil => ?_
    obtain ⟨rfl, -⟩ := hnil
    exact .throw (by rwa [List.append_nil, List.append_nil])

/-- **Attempts** of which the first one does not ask for another attend to the jobs of their body,
and commit nothing when they fail. -/
theorem recorded_attempts {p : τ → MemoryStore} (hstore : x.store.OnMemory p)
    (hbody : ∀ s, x.AttendsTo js (body' s) (body s)) (hconfined : ∀ s, Confined p s (body s))
    {t t' : τ} {r : Outcome α} (hsteady : ∀ e,
      ((do let s ← x.store.start; x.store.attempt body s).run.run t).1 = .error e →
      e.isTransient = false) (h : (x.transact body none).run.run t = (r, t')) (minutes : Minutes) :
    ∃ new, (x.recorded.transact body' none).run.run (t, minutes) = (r, (t', minutes ++ new)) ∧
      x.registry.Attends x.behaviour js new r.fault? ∧ ∀ e, r = .error e → Quiet (p t) (p t') := by
  obtain ⟨t₁, t₂, hs, hb, hopened⟩ := SessionStore.run_opening hstore.sessions t
  rcases ha : (x.store.attempt body (p t).sessions.length).run.run t₁ with ⟨outcome, t₃⟩
  have hfinal : ∀ e, outcome = .error e → e.isTransient = false := fun e he => by
    refine hsteady e ?_
    rw [Action.run_bind_ok hs, ha]
    exact he
  obtain ⟨hknown, hquiet⟩ :=
    SessionStore.run_attempt_quiet hstore.sessions (hconfined _) hb hopened.transaction ha
  obtain ⟨t₄, hrun, hleft⟩ :=
    SessionStore.run_runFrom_last x.policy (x.policy.maxAttempts - 1) 1 hstore.sessions hs
      ha hfinal hknown
  obtain ⟨rfl, rfl⟩ := Prod.mk.inj (h.symm.trans hrun)
  obtain ⟨new, ha', hnew⟩ := recorded_attempt hbody (p t).sessions.length t₁ minutes
  rw [ha] at ha' hnew
  have hs' : x.recorded.store.start.run.run (t, minutes) =
      (.ok (p t).sessions.length, (t₁, minutes)) := by
    obtain ⟨_, hrun', rfl⟩ := Recorded.within x.store.start t minutes
    rwa [hs, List.append_nil] at hrun'
  have hend : (x.transact body none).run.run t =
      (do x.store.finish (p t).sessions.length; liftM r : Action τ α).run.run t₃ :=
    SessionStore.run_runFrom_final hs ha hfinal
  have hend' : (x.recorded.transact body' none).run.run (t, minutes) =
      (do x.recorded.store.finish (p t).sessions.length; liftM r :
        Action (τ × Minutes) α).run.run (t₃, minutes ++ new) :=
    SessionStore.run_runFrom_final hs' ha' hfinal
  have hsilent :
    Recorded (fun new _ => new = []) (do x.recorded.store.finish (p t).sessions.length; liftM r)
      (do x.store.finish (p t).sessions.length; liftM r) :=
    (Recorded.within _).silent_bind (fun _ => rfl) fun _ => .lift rfl
  obtain ⟨_, hfinish, rfl⟩ := hsilent t₃ (minutes ++ new)
  refine ⟨new, ?_, hnew, fun e he => ?_⟩
  · rw [hend', hfinish, ← hend, h, List.append_nil]
  · exact (Quiet.trans ⟨hopened.uncommitted.collections, hopened.uncommitted.commits⟩
      (hquiet e he)).trans hleft.quiet

/-- **A transaction** attends to the jobs of its body, and commits nothing when it fails. -/
theorem recorded_transact {p : τ → MemoryStore} (hstore : x.store.OnMemory p)
    (hbody : ∀ s, x.AttendsTo js (body' s) (body s)) (hconfined : ∀ s, Confined p s (body s))
    (session : Option SessionId) {t t' : τ} {r : Outcome α}
    (hsteady : session = none → ∀ e,
      ((do let s ← x.store.start; x.store.attempt body s).run.run t).1 = .error e →
        e.isTransient = false)
    (h : (x.transact body session).run.run t = (r, t')) (minutes : Minutes) :
    ∃ new, (x.recorded.transact body' session).run.run (t, minutes) = (r, (t', minutes ++ new)) ∧
      x.registry.Attends x.behaviour js new r.fault? ∧
      ∀ e, r = .error e → (p t).Withholds session → Quiet (p t) (p t') := by
  cases session with
  | none =>
    obtain ⟨new, hrun, hnew, hquiet⟩ :=
      recorded_attempts hstore hbody hconfined (hsteady rfl) h minutes
    exact ⟨new, hrun, hnew, fun e he _ => hquiet e he⟩
  | some s =>
    obtain ⟨new, hrun, hnew⟩ := hbody s t minutes
    have h : (body s).run.run t = (r, t') := h
    rw [h] at hrun hnew
    refine ⟨new, hrun, hnew, fun e he hopen => ?_⟩
    obtain ⟨ws, hw⟩ := (hconfined s).of_error (he ▸ h) (hopen s rfl)
    exact hw.quiet

end Executor

/-! ## User code that only validates -/

/-- **User code of an entity that validates, and no more**: the hooks do nothing, and validators do
nothing to the store but to write in the session that they are given. They accept or raise as they
like. -/
structure EntityBehaviour.Inspects (p : τ → MemoryStore)
    (b : EntityBehaviour τ SessionId) : Prop where
  hooks : b.hooks = .none
  fieldChecks : ∀ operation f, ∀ check ∈ b.fieldChecks operation f,
    ∀ entity field v s, EntityGraph.Confined p s (check entity field v s)
  entityChecks : ∀ operation, ∀ check ∈ b.entityChecks operation,
    ∀ entity args d s, EntityGraph.Confined p s (check entity args d s)

namespace Executor

variable {p : τ → MemoryStore} {x : Executor τ SessionId} {ops : Operations τ SessionId}
  {s : SessionId}

theorem unhooked_of_inspects (hstore : x.store.OnMemory p)
    (hb : ∀ n, (x.behaviour.entity n).Inspects p) :
    x.Unhooked s (KeepsTo p s) where
  hooks := fun d => (hb d.name).hooks
  checked := checked_of_checks (fun n => (hb n).fieldChecks) fun n => (hb n).entityChecks
  create := fun _ _ => (hstore.create _ _ _).moves (InSession.create _ _)
  findById := fun _ _ => (hstore.findById _ _ _).moves (InSession.findById _ _)
  update := fun _ _ _ => (hstore.update _ _ _ _).moves (InSession.update _ _ _)
  delete := fun _ _ => (hstore.delete _ _ _).moves (InSession.delete _ _)

end Executor

/-! ## Calls with minutes -/

namespace Proceeds

variable {handed : Option Document} {agenda : List Due} {minutes : Minutes} {fault? : Option Fault}

/-- **Nothing is skipped**: without a fault all that was due has occurred, and has accepted. -/
theorem complete (h : Proceeds handed agenda minutes fault?) (hnone : fault? = none) :
    minutes.length = agenda.length ∧ ∀ entry ∈ minutes, entry.2.fault? = none := by
  induction h with
  | done => exact ⟨rfl, fun _ h => absurd h List.not_mem_nil⟩
  | ended => cases hnone
  | refused => cases hnone
  | accepted _ _ ih =>
    obtain ⟨hlength, hall⟩ := ih hnone
    exact ⟨congrArg Nat.succ hlength, List.forall_mem_cons.2 ⟨rfl, hall⟩⟩

/-- **The first refusal is the last word**, and its fault is that of the whole. -/
theorem refusal (h : Proceeds handed agenda minutes fault?)
    {entry : Occurrence × Outcome (Option Document)} (hentry : entry ∈ minutes) {e : Fault}
    (he : entry.2.fault? = some e) :
    fault? = some e ∧ minutes.getLast? = some entry := by
  induction h with
  | done => cases hentry
  | ended => cases hentry
  | refused =>
    obtain rfl := List.mem_singleton.1 hentry
    exact ⟨he, rfl⟩
  | accepted _ _ ih =>
    rcases List.mem_cons.1 hentry with rfl | hentry
    · cases he
    · obtain ⟨hfault, hlast⟩ := ih hentry
      exact ⟨hfault, by rw [List.getLast?_cons, hlast]; rfl⟩

end Proceeds

namespace WriteCall

/-- The job of a call that saves, updates or deletes a document. -/
def job? : WriteCall → Option Job
  | add entity args => some ⟨.create, entity, none, args⟩
  | update entity args => some ⟨.update, entity, none, args⟩
  | delete entity id => some ⟨.delete, entity, none, Executor.deletionArgs id⟩
  | act .. => none
  | custom .. => none

/-- The first attempt of a call. -/
def attempt (x : Executor τ SessionId) (call : WriteCall) : Action τ Value := do
  let s ← x.store.start
  x.store.attempt (fun s => call.run x (some s)) s

/-- **A call without transient failures** in a state: its first attempt does not ask for another
one. -/
def Steady (x : Executor τ SessionId) (call : WriteCall) (t : τ) : Prop :=
  ∀ e, ((call.attempt x).run.run t).1 = .error e → e.isTransient = false

/-- **A call with all its validators**, from the state `t` to the state `t'` with the outcome
`r`. -/
structure Validated (p : τ → MemoryStore) (x : Executor τ SessionId) (call : WriteCall) (job : Job)
    (session : Option SessionId) (t : τ) (r : Outcome Value) (t' : τ) (agenda : List Due)
    (minutes : Minutes) :
    Prop where
  /-- the agenda has the validators of the job and of the jobs that it brings with it -/
  scheduled : x.registry.Schedules x.behaviour [job] agenda
  /-- the minutes have the validators that run -/
  recorded : (call.run x.recorded session).run.run (t, []) = (r, (t', minutes))
  /-- those that run are those on the agenda, in its order, as far as the call gets -/
  proceeds : Proceeds none agenda minutes r.fault?
  /-- the call returns only if all of them have accepted -/
  complete : ∀ v, r = .ok v → minutes.length = agenda.length ∧ ∀ entry ∈ minutes,
    entry.2.fault? = none
  /-- none runs after one that raises, and what it raises is the outcome -/
  refusal : ∀ entry ∈ minutes, ∀ e, entry.2.fault? = some e →
    r = .error e ∧ minutes.getLast? = some entry
  /-- a call that fails commits nothing -/
  uncommitted : ∀ e, r = .error e → (p t).Withholds session →
    (p t').collections = (p t).collections ∧ (p t').commits = (p t).commits

/-- Minutes that attend to the job of a call. -/
theorem exists_validated {p : τ → MemoryStore} {x : Executor τ SessionId} {call : WriteCall}
    {job : Job} {session : Option SessionId} {t t' : τ} {r : Outcome Value} (minutes : Minutes)
    (hrecorded : (call.run x.recorded session).run.run (t, []) = (r, (t', minutes)))
    (hattends : x.registry.Attends x.behaviour [job] minutes r.fault?)
    (hquiet : ∀ e, r = .error e → (p t).Withholds session → Quiet (p t) (p t')) :
    ∃ agenda minutes, call.Validated p x job session t r t' agenda minutes := by
  obtain ⟨agenda, hscheduled, hproceeds⟩ := hattends
  refine ⟨agenda, minutes, hscheduled, hrecorded, hproceeds none, fun v hv =>
    ?_, fun entry hentry e he => ?_, hquiet⟩
  · exact (hproceeds none).complete (by rw [hv]; rfl)
  · obtain ⟨hfault, hlast⟩ := (hproceeds none).refusal hentry he
    cases r with
    | ok v => cases hfault
    | error e' => exact ⟨congrArg Except.error (Option.some.inj hfault), hlast⟩

end WriteCall

namespace Executor

variable {p : τ → MemoryStore} {x : Executor τ SessionId} {js : List Job}

/-- A call that looks something up, attends to a job in a transaction and shows what that gives. -/
theorem validated_of_transact {call : WriteCall} {job : Job} {o : Outcome β}
    {body : β → SessionId → Action τ α} {body' : β → SessionId → Action (τ × Minutes) α}
    {g : α → Value} (hrun : ∀ session, call.run x session = do
      let b ← liftM o
      let v ← x.transact (body b) session
      pure (g v))
    (hrun' : ∀ session, call.run x.recorded session = do
      let b ← liftM o
      let v ← x.recorded.transact (body' b) session
      pure (g v))
    (hstore : x.store.OnMemory p) (hbody : ∀ b, o = .ok b →
      ∀ s, x.AttendsTo [job] (body' b s) (body b s))
    (hconfined : ∀ b s, Confined p s (body b s)) (session : Option SessionId) {t : τ}
    (hsteady : session = none → call.Steady x t) :
    ∃ agenda minutes, call.Validated p x job session t ((call.run x session).run.run t).1
      ((call.run x session).run.run t).2 agenda minutes := by
  cases o with
  | error e =>
    refine WriteCall.exists_validated [] ?_ ?_ ?_
    · rw [hrun', hrun]
      rfl
    · rw [hrun]
      exact .ended
    · rw [hrun]
      exact fun _ _ _ => Quiet.refl _
  | ok b =>
    rcases h : (x.transact (body b) session).run.run t with ⟨r, t'⟩
    have hplain : (call.run x session).run.run t = (r.map g, t') := by
      rw [hrun]
      refine (Action.run_bind_pure (x.transact (body b) session) g t).trans ?_
      rw [h]
    have hattempt : session = none → ∀ e,
        ((do let s ← x.store.start; x.store.attempt (body b) s).run.run t).1 = .error e →
          e.isTransient = false := fun hsession e he => by
      have hcall : (fun s => call.run x (some s)) = fun s => (do let v ← body b s; pure (g v)) :=
        funext fun s => hrun (some s)
      refine hsteady hsession e ?_
      rw [Action.run_bind] at he
      rw [WriteCall.attempt, hcall, Action.run_bind]
      generalize x.store.start.run.run t = opened at he ⊢
      rcases opened with ⟨e' | s, t₁⟩
      · cases he
        rfl
      · dsimp only at he ⊢
        rw [SessionStore.run_attempt_map, he]
        rfl
    obtain ⟨new, hrecorded, hattends, hquiet⟩ :=
      recorded_transact hstore (hbody b rfl) (hconfined b) session hattempt h []
    rw [hplain]
    refine WriteCall.exists_validated new ?_ ?_ ?_
    · rw [hrun']
      refine (Action.run_bind_pure (x.recorded.transact (body' b) session) g (t, [])).trans ?_
      rw [hrecorded]
      rfl
    · cases r <;> exact hattends
    · cases r with
      | error e => exact fun _ _ => hquiet e rfl
      | ok v => exact nofun

end Executor

/-- **No validator is skipped, and the first that raises decides.** Take any registry and any
validators, on a memory store, and a call that saves, updates or deletes a document without
transient failures. The validators that run are those on the agenda of the call, one after the
other: for each field, in the order of the entity, its validators on the argument and then the
agendas of the embedded values in it; after the fields the validators of the entity, on the document
made of the arguments and linked to its parent; and after these the agendas of the children that
come with the document. The call gets to the end of the agenda if it returns; it stops where a
validator raises, whose fault is then that of the call, or where something else ends it, and commits
nothing then. -/
theorem call_validated (c : Component τ MemoryStore) (hc : ∀ m t, c.get (c.set m t) = m)
    (x : Executor τ SessionId) (hx : x.store = MemoryStore.documentStore.within c)
    (hb : ∀ n, (x.behaviour.entity n).Inspects c.get) (call : WriteCall) (job : Job)
    (hjob : call.job? = some job) (session : Option SessionId) (t : τ)
    (hsteady : session = none → call.Steady x t) :
    ∃ agenda minutes, call.Validated c.get x job session t ((call.run x session).run.run t).1
      ((call.run x session).run.run t).2 agenda minutes := by
  have hstore : x.store.OnMemory c.get := by
    rw [hx]
    exact MemoryStore.onMemory_within hc
  have hhooks : ∀ n, (x.behaviour.entity n).hooks = .none := fun n => (hb n).hooks
  cases call with
  | add entity args =>
    obtain rfl := Option.some.inj hjob
    exact Executor.validated_of_transact (o := x.descriptor entity) (g := .object) (fun _ =>
      rfl) (fun _ => rfl) hstore (fun d hd s => Executor.recorded_saveIn hhooks d hd none args)
      (fun d s => (Executor.unhooked_of_inspects hstore hb).writeRules.moves_saveIn d none args
        trivial) session hsteady
  | update entity args =>
    obtain rfl := Option.some.inj hjob
    exact Executor.validated_of_transact (o := x.descriptor entity)
      (g := Executor.documentOrNull) (fun _ => rfl) (fun _ => rfl) hstore (fun d hd s =>
      Executor.recorded_updateIn hhooks d hd none args) (fun d s =>
        (Executor.unhooked_of_inspects hstore hb).writeRules.moves_updateIn d none args trivial)
          session hsteady
  | delete entity id =>
    obtain rfl := Option.some.inj hjob
    exact Executor.validated_of_transact (o := x.descriptor entity)
      (g := Executor.documentOrNull) (fun _ => rfl) (fun _ => rfl) hstore (fun d hd s =>
      Executor.recorded_deleteIn hhooks d hd id) (fun d s =>
        (Executor.unhooked_of_inspects hstore hb).moves_deleteIn d id) session hsteady
  | act entity action args => cases hjob
  | custom name args => cases hjob

/-! ## A choosy league -/

/-- A validator that refuses one value. -/
def FieldCheck.refusing (bad : Value) : FieldCheck MemoryStore SessionId := fun _ _ v _ =>
  if v.eq bad then throw (.badValue "refused") else pure ()

/-- A validator that files what it refuses, outside its session. -/
def FieldCheck.denouncing : FieldCheck MemoryStore SessionId := fun _ _ v _ => do
  let _ ← MemoryStore.create "refusals" [("value", v)] none
  throw (.badValue "refused")

/-- A service with validators of fields. -/
def inspector (r : Registry) (checks : String → Operation → String →
    List (FieldCheck MemoryStore SessionId)) :
    Executor MemoryStore SessionId where
  registry := r
  behaviour := ⟨fun entity => { EntityBehaviour.none with fieldChecks := checks entity },
    fun _ _ _ => throw .illTyped⟩
  store := MemoryStore.documentStore.within ⟨id, fun m _ => m⟩
  policy := ⟨3, fun n => .ok (.whole n), fun _ => pure (), Nat.succ_pos 2⟩

/-- A league that looks at names, and at what is deleted. -/
def choosyLeague : Executor MemoryStore SessionId :=
  inspector leagueRegistry fun entity operation field =>
    match entity, operation, field with
    | "Team", .create, "name" => [.refusing (.text "Reds")]
    | "Team", .delete, "id" => [.refusing .null]
    | "Player", .create, "name" => [.refusing (.text "Zed")]
    | _, _, _ => []

/-- The arguments of a team with one player. -/
def blues (player : String) : Value :=
  .object [("name", .text "Blues"),
    ("players", .object [("added", .list [.object [("name", .text player)]])])]

theorem choosyLeague_inspects (n : String) : (choosyLeague.behaviour.entity n).Inspects id where
  hooks := rfl
  fieldChecks := fun operation f check hcheck => by
    have hrefusing : ∃ bad, check = .refusing bad := by
      simp only [choosyLeague, inspector] at hcheck
      split at hcheck
      all_goals
        simp only [List.mem_singleton, List.not_mem_nil] at hcheck
      all_goals exact ⟨_, hcheck⟩
    obtain ⟨bad, rfl⟩ := hrefusing
    intro entity field v s
    unfold FieldCheck.refusing
    split
    · exact Executor.confined_throw _
    · exact Executor.confined_pure _
  entityChecks := fun _ _ h => absurd h List.not_mem_nil

theorem choosyLeague_minutes :
    (((WriteCall.add "Team" (blues "Zed")).run choosyLeague.recorded none).run.run
      (MemoryStore.empty, [])).2.2 = [(.field .create "Team" "name" 0 (.text "Blues"), .ok none),
        (.filed "teams" [("name", .text "Blues"), ("_id", .id (.ofNat 1))], .ok none),
        (.field .create "Player" "name" 0 (.text "Zed"), .error (.badValue "refused"))] := by
  cbv

/-- The player is refused after the team was filed, and there is no team. -/
theorem choosyLeague_validated :
    (∃ agenda minutes, (WriteCall.add "Team" (blues "Zed")).Validated id choosyLeague
      ⟨.create, "Team", none, blues "Zed"⟩ none MemoryStore.empty
      (((WriteCall.add "Team" (blues "Zed")).run choosyLeague none).run.run MemoryStore.empty).1
      (((WriteCall.add "Team" (blues "Zed")).run choosyLeague none).run.run MemoryStore.empty).2
        agenda minutes) ∧
    (((WriteCall.add "Team" (blues "Zed")).run choosyLeague.recorded none).run.run
      (MemoryStore.empty, [])).2.2 = [(.field .create "Team" "name" 0 (.text "Blues"), .ok none),
        (.filed "teams" [("name", .text "Blues"), ("_id", .id (.ofNat 1))], .ok none),
        (.field .create "Player" "name" 0 (.text "Zed"), .error (.badValue "refused"))] := by
  have hrefused :
    (((WriteCall.add "Team" (blues "Zed")).attempt choosyLeague).run.run MemoryStore.empty).1 =
      .error (.badValue "refused") := by cbv
  constructor
  · refine call_validated ⟨id, fun m _ => m⟩ (fun _ _ => rfl) choosyLeague rfl choosyLeague_inspects
      (.add "Team" (blues "Zed")) _ rfl none MemoryStore.empty fun _ e he => ?_
    cases hrefused.symm.trans he
    rfl
  · exact choosyLeague_minutes

/-! ### What the validators are not asked -/

/-- A jar is named by its label. -/
def jar : Entity where
  name := "Jar"
  fields := [⟨"id", .entity "Label", false, true, false, false, some ⟨true, "", .null⟩, .null⟩]
  description := .null
  names_nodup := by decide

/-- A label has a word on it. -/
def jarLabel : Entity where
  name := "Label"
  fields := [textField "word"]
  description := .null
  names_nodup := by decide

/-- A service of jars that refuses all that is on a label. -/
def jars : Executor MemoryStore SessionId :=
  inspector (Registry.finalize.run.run ⟨[
    ("Jar", ⟨jar, "jars", some "jar", some "jars", none, true, none, []⟩),
    ("Label", ⟨jarLabel, "labels", none, none, none, false, none, []⟩)], [], false⟩).2
    fun entity _ _ =>
      if entity = "Label" then [.refusing (.text "salt")] else []

/-- A league in which a name is filed outside its session when it is refused. -/
def denouncingLeague : Executor MemoryStore SessionId :=
  inspector leagueRegistry fun _ _ field => if field = "name" then [.denouncing] else []

/-- A validator of a team that is deleted is given the reference. -/
theorem choosyLeague_deletes {t : String} (hne : (Value.text t).isEmpty = false)
    (ht : toReference (.text t) = .ok (.ofNat 1)) :
    (((WriteCall.delete "Team" (.text t)).run choosyLeague.recorded none).run.run (leagueStore,
      [])).2.2 = [(.field .delete "Team" "id" 0 (.id (.ofNat 1)), .ok none)] := by
  have hrun : (WriteCall.delete "Team" (.text t)).run choosyLeague.recorded none = (do
      let d ← liftM (choosyLeague.recorded.descriptor "Team")
      let v ← choosyLeague.recorded.transact (fun s => choosyLeague.recorded.deleteIn
        (choosyLeague.recorded.operationsTo Executor.nestingLimit) d s (.text t)) none
      pure (Executor.documentOrNull v)) := rfl
  rw [hrun]
  unfold Executor.deleteIn
  simp only [Executor.deletionId, hne, ht]
  cbv

/-- **Where the plain reading fails.** The validators of a deletion are not given the text that the
call was given, but the reference that it was read as. An embedded value in the place of the
identifier is not looked at. A validator that writes outside its session has that committed, though
it refuses and the call fails. And in a session without a transaction the parent of a refused child
stays. -/
theorem validators_overlook :
    (((WriteCall.delete "Team" (.text "000000000000000000000001")).run
      choosyLeague.recorded none).run.run
        (leagueStore, [])).2.2 = [(.field .delete "Team" "id" 0 (.id (.ofNat 1)), .ok none)] ∧
    (((WriteCall.add "Jar" (.object [("id", .object [("word", .text "salt")])])).run
      jars.recorded none).run.run
        (MemoryStore.empty, [])).2.2 = [(.filed "jars" [("_id", .id (.ofNat 1))], .ok none)] ∧
    ((((WriteCall.add "Team" (blues "Ann")).run denouncingLeague none).run.run
      MemoryStore.empty).1 =
        .error (.badValue "refused") ∧
      (((WriteCall.add "Team" (blues "Ann")).run denouncingLeague none).run.run
        MemoryStore.empty).2.collections.get "refusals" =
          [(.id (.ofNat 1), [("value", .text "Blues"), ("_id", .id (.ofNat 1))])]) ∧
    ((((WriteCall.add "Team" (blues "Zed")).run choosyLeague (some 0)).run.run
        (MemoryStore.startSession.run.run MemoryStore.empty).2).1 = .error (.badValue "refused") ∧
      (((WriteCall.add "Team" (blues "Zed")).run choosyLeague (some 0)).run.run
        (MemoryStore.startSession.run.run MemoryStore.empty).2).2.collections.get "teams" =
          [(.id (.ofNat 1), [("name", .text "Blues"), ("_id", .id (.ofNat 1))])]) := by
  refine ⟨choosyLeague_deletes (by cbv) (by cbv), ?_, ⟨?_, ?_⟩, ?_, ?_⟩ <;> cbv

end EntityGraph
