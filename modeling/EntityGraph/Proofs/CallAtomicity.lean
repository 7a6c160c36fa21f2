import EntityGraph.Proofs.Transition

/-!
# Atomicity of calls

A call that writes on a memory store either fails and leaves the committed documents as they are, or
it adds one commit, which holds the writes of one attempt (`writeCall_atomic`). This attempt ran in
a session of its own, on the documents as they were before the call.

The attempts that failed before it, round by round (`FailedRounds`), left nothing in the store. They
can reach the attempt that is committed in one way only: side effects and custom mutations run on
the arguments of the call themselves, so that an attempt finds these as the attempts before it have
left them. Additions, updates and deletions leave their arguments alone.
-/

namespace EntityGraph

open MemoryStore (InSession Quiet)

variable {τ S α β : Type}

/-! ## Arguments beside the state -/

/-- **Arguments that stay**: however the action ends, it leaves the arguments beside the state as
they are. -/
def KeepsArguments (a : Action (τ × Value) α) : Prop :=
  Moves (fun q q' => q'.2 = q.2) (fun _ => True) a

/-- Actions on the state alone leave the arguments beside it. -/
theorem KeepsArguments.within (a : Action τ α) : KeepsArguments (a.within (.state τ)) :=
  Moves.within (Moves.any a) fun _ _ _ => rfl

theorem KeepsArguments.lift_bind {o : Outcome β} {f : β → Action (τ × Value) α}
    (h : ∀ b, KeepsArguments (f b)) : KeepsArguments (liftM o >>= f) := by
  refine Moves.lift_bind (fun _ => ?_) fun b _ => h b
  rfl

/-- A lookup and an action on the state whose outcome is shown are an action on the state alone. -/
theorem Action.within_lookup {γ : Type} (o : Outcome β) (a : β → Action τ α) (g : α → γ) :
    (do
      let b ← liftM o
      let v ← a b
      pure (g v) : Action τ γ).within (.state τ) =
    (do
      let b ← liftM o
      let v ← (a b).within (.state τ)
      pure (g v)) := by
  refine funext fun q => ?_
  rcases o with e | b
  · rfl
  · change ((a b >>= fun v => pure (g v)).within (.state τ)).run.run q =
      ((a b).within (.state τ) >>= fun v => pure (g v) : Action (τ × Value) γ).run.run q
    rw [Action.run_within, Action.run_bind, Action.run_bind, Action.run_within]
    rcases (a b).run.run ((Component.state τ).get q) with ⟨e | v, t⟩ <;> rfl

/-- The same for an action that may edit the arguments beside the state. -/
theorem Action.withArguments_lookup {γ : Type} (args : Value) (o : Outcome β)
    (a : β → Action (τ × Value) α) (g : α → γ) :
    Action.withArguments args (do
      let b ← liftM o
      let v ← a b
      pure (g v)) =
    (do
      let b ← liftM o
      let v ← Action.withArguments args (a b)
      pure (g v) : Action τ γ) := by
  refine funext fun t => ?_
  rcases o with e | b
  · rfl
  · change (Action.withArguments args (a b >>= fun v => pure (g v))).run.run t =
      (Action.withArguments args (a b) >>= fun v => pure (g v) : Action τ γ).run.run t
    rw [Action.run_withArguments, Action.run_bind, Action.run_bind, Action.run_withArguments]
    rcases (a b).run.run (t, args) with ⟨e | v, q⟩ <;> rfl

namespace SessionStore

variable {store : SessionStore τ SessionId} {policy : RetryPolicy τ} {number n : Nat}

/-- Rounds fail as well with a body that fails in the same way. -/
theorem FailedRounds.mono {t t' : τ} {body : SessionId → Action τ α}
    {body' : SessionId → Action τ β}
    (hsame : ∀ s t e t', (store.attempt body s).run.run t = (.error e, t') →
      (store.attempt body' s).run.run t = (.error e, t'))
    (h : store.FailedRounds policy body number n t t') :
    store.FailedRounds policy body' number n t t' := by
  induction h with
  | none number t => exact .none number t
  | cons hround _ ih =>
    obtain ⟨s, t₁, e, t₂, t₃, hs, ha, he, hpause, hf⟩ := hround
    exact .cons ⟨s, t₁, e, t₂, t₃, hs, hsame _ _ _ _ ha, he, hpause, hf⟩ ih

/-- Opening a session leaves the arguments beside the state. -/
theorem Opens.args_eq {s : SessionId} {q q' : τ × Value}
    (h : (store.within (.state τ)).Opens s q q') : q'.2 = q.2 := by
  obtain ⟨q₁, hstart, hbegin⟩ := h
  exact ((KeepsArguments.within _).of_ok hbegin).1.trans ((KeepsArguments.within _).of_ok hstart).1

variable {body : SessionId → Action (τ × Value) α} {q q' : τ × Value}

/-- **Rounds that fail** leave the arguments of the call when their body does. -/
theorem FailedRounds.args_eq (hbody : ∀ s, KeepsArguments (body s))
    (h : (store.within (.state τ)).FailedRounds (policy.within (.state τ)) body number n q q') :
    q'.2 = q.2 := by
  have htrans : ∀ q q' q'' : τ × Value, q'.2 = q.2 → q''.2 = q'.2 → q''.2 = q.2 :=
    fun _ _ _ h h' => h'.trans h
  induction h with
  | none => rfl
  | cons hround _ ih =>
    obtain ⟨s, q₁, e, q₂, q₃, hs, ha, -, hpause, hf⟩ := hround
    have hattempt : KeepsArguments ((store.within (.state τ)).attempt body s) :=
      moves_attempt (fun _ => rfl) htrans (KeepsArguments.within _) (KeepsArguments.within _)
        (KeepsArguments.within _) (hbody s)
    have hpaused : ∀ number, KeepsArguments (do
        let d ← (policy.within (.state τ)).backoff number
        (policy.within (.state τ)).sleep d : Action (τ × Value) Unit) :=
      fun _ => KeepsArguments.lift_bind fun d => .within _
    calc _ = _ := ih
      _ = q₃.2 := ((KeepsArguments.within _).of_ok hf).1
      _ = q₂.2 := ((hpaused _).of_ok hpause).1
      _ = q₁.2 := hattempt.of_error ha
      _ = _ := ((KeepsArguments.within _).of_ok hs).1

end SessionStore

/-! ## Calls -/

namespace WriteCall

/-- What a call does in a session. It runs on the state together with the arguments of the call,
which side effects and custom mutations may edit. -/
def attemptIn (x : Executor τ S) (s : S) : WriteCall → Action (τ × Value) Value
  | add entity args => (x.operations.save entity args (some s)).within (.state τ)
  | update entity args => (x.operations.update entity args (some s)).within (.state τ)
  | delete entity id => (x.operations.delete entity id (some s)).within (.state τ)
  | act entity action _ => do
    let d ← x.descriptor entity
    let a ← Executor.stateAction d action
    let updated ← x.changeStateIn (x.operationsTo Executor.nestingLimit) d action a s
    pure (Executor.documentOrNull updated)
  | custom name _ => do
    let m ← x.registry.mutation name
    x.behaviour.mutation m.name (x.operationsTo Executor.nestingLimit) s

/-- The arguments of a call. -/
def args : WriteCall → Value
  | add _ args => args
  | update _ args => args
  | delete _ id => id
  | act _ _ args => args
  | custom _ args => args

/-- **What a call does to the committed documents.** When it fails, nothing. When it returns, the
writes of one attempt are committed, after rounds that failed, fewer than there are attempts. It ran
on the documents as they were before the call, and on the arguments as the rounds before left them:
those of the call, if attempts leave their arguments alone. -/
def Atomic (p : τ → MemoryStore) (x : Executor τ SessionId) (call : WriteCall) (t : τ)
    (r : Outcome Value) (t' : τ) : Prop :=
  (∀ e, r = .error e → (p t').collections = (p t).collections ∧ (p t').commits = (p t).commits) ∧
    ∀ v, r = .ok v → ∃ n q s t₁ t₂ ws, n < x.policy.maxAttempts ∧
      (x.store.within (.state τ)).FailedRounds (x.policy.within (.state τ))
        (fun s => call.attemptIn x s) 1 n (t, call.args) q ∧
      ((∀ s, KeepsArguments (call.attemptIn x s)) → q.2 = call.args) ∧
      CommittedBy p (fun s => Action.withArguments q.2 (call.attemptIn x s)) v t t' s t₁ t₂ ws

end WriteCall

namespace CommittedBy

variable {p : τ → MemoryStore} {t t' : τ} {s : SessionId} {ws : List Write}

/-- Another body that runs in the same way was committed as well. -/
theorem of_ran {body : SessionId → Action τ α} {v : α} {t₁ t₂ : τ}
    (h : CommittedBy p body v t t' s t₁ t₂ ws) {body' : SessionId → Action τ β} {w : β}
    (hr : (body' s).run.run t₁ = (.ok w, t₂)) : CommittedBy p body' w t t' s t₁ t₂ ws :=
  ⟨h.quiet, h.fresh, hr, h.wrote, h.same, h.filed, h.commits, h.distinct⟩

/-- A body that was committed beside its arguments was committed with the arguments it found. -/
theorem withArguments {body : SessionId → Action (τ × Value) α} {v : α} {q q' q₁ q₂ : τ × Value}
    (h : CommittedBy (fun q => p q.1) body v q q' s q₁ q₂ ws) :
    CommittedBy p (fun s => Action.withArguments q₁.2 (body s)) v q.1 q'.1 s q₁.1 q₂.1 ws where
  quiet := h.quiet
  fresh := h.fresh
  ran := by
    rw [Action.run_withArguments, h.ran]
  wrote := h.wrote
  same := h.same
  filed := h.filed
  commits := h.commits
  distinct := h.distinct

end CommittedBy

namespace Executor

variable {p : τ → MemoryStore} {x : Executor τ SessionId} {t t' : τ}

/-- Transactions whose body may edit its arguments. -/
theorem transactWith_atomic (hstore : x.store.OnMemory p)
    (hsleep : ∀ d t, p ((x.policy.sleep d).run.run t).2 = p t)
    {body : SessionId → Action (τ × Value) α}
    (hbody : ∀ s, Confined (fun q : τ × Value => p q.1) s (body s))
    (hd : (p t).collections.Distinct) {args : Value} {r : Outcome α}
    (h : (x.transactWith args body none).run.run t = (r, t')) :
    ((∃ e, r = .error e) ∧ Quiet (p t) (p t')) ∨
      ∃ v n q s t₁ t₂ ws, r = .ok v ∧ n < x.policy.maxAttempts ∧
        (x.store.within (.state τ)).FailedRounds (x.policy.within (.state τ)) body 1 n (t, args) q ∧
        CommittedBy p (fun s => Action.withArguments q.2 (body s)) v t t' s t₁ t₂ ws := by
  rw [transactWith, Action.run_withArguments] at h
  have hs := hstore.sessions
  have hon : (x.store.toSessionStore.within (.state τ)).OnMemory fun q : τ × Value => p q.1 :=
    ⟨hs.start.withArgs, fun s => (hs.begin s).withArgs, fun s => (hs.commit s).withArgs,
      fun s => (hs.abort s).withArgs, fun s => (hs.finish s).withArgs⟩
  have hsleep' : ∀ d (q : τ × Value),
      p ((((x.policy.within (.state τ)).sleep d).run.run q).2).1 = p q.1 := fun d q => hsleep d q.1
  obtain ⟨rfl, rfl⟩ := Prod.mk.inj h
  rcases SessionStore.runFrom_atomic hon hsleep' hbody _ _ (t := (t, args)) hd rfl with
    ⟨he, hq⟩ | ⟨v, n, q, s, q₁, q₂, ws, hv, hn, hrounds, hopens, hc, -⟩
  · exact .inl ⟨he, hq⟩
  · refine .inr ⟨v, n, q, s, q₁.1, q₂.1, ws, hv, ?_, hrounds, ?_⟩
    · exact Nat.lt_of_le_pred x.policy.maxAttempts_pos hn
    · exact hopens.args_eq ▸ hc.withArguments

/-- Transactions for a body that has no arguments to edit. -/
theorem transact_eq_transactWith (body : SessionId → Action τ α) (args : Value)
    (session : Option SessionId) : x.transact body session =
      x.transactWith args (fun s => (body s).within (.state τ)) session := by
  cases session with
  | none => exact (Beside.runFrom (fun s => .within (body s)) _ _).withArguments.symm
  | some s => exact (Beside.within (body s)).withArguments.symm

/-- **The shape of a call**: it looks something up, runs a body beside its arguments and shows what
the body gives. -/
structure Runs (x : Executor τ SessionId) (call : WriteCall) (o : Outcome β)
    (body : β → SessionId → Action (τ × Value) α) (g : α → Value) : Prop where
  run_eq : ∀ session, call.run x session = do
    let b ← liftM o
    let v ← x.transactWith call.args (body b) session
    pure (g v)
  attemptIn_eq : ∀ s, call.attemptIn x s = do
    let b ← liftM o
    let v ← body b s
    pure (g v)

/-- A call that has this shape is atomic. -/
theorem Runs.atomic {call : WriteCall} {o : Outcome β} {body : β → SessionId → Action (τ × Value) α}
    {g : α → Value} (h : x.Runs call o body g) (hstore : x.store.OnMemory p)
    (hsleep : ∀ d t, p ((x.policy.sleep d).run.run t).2 = p t)
    (hbody : ∀ b s, Confined (fun q : τ × Value => p q.1) s (body b s))
    (hd : (p t).collections.Distinct) :
    call.Atomic p x t ((call.run x none).run.run t).1 ((call.run x none).run.run t).2 := by
  rw [h.run_eq none, Action.run_bind, Action.run_lift]
  rcases o with e | b
  · exact ⟨fun _ _ => ⟨rfl, rfl⟩, fun _ hv => by cases hv⟩
  dsimp only
  rw [Action.run_bind]
  have hsession : ∀ s, call.attemptIn x s = body b s >>= fun v => pure (g v) := h.attemptIn_eq
  rcases hr : (x.transactWith call.args (body b) none).run.run t with ⟨r, t'⟩
  rcases transactWith_atomic hstore hsleep (hbody b) hd hr with
    ⟨⟨e, rfl⟩, hq⟩ | ⟨v, n, q, s, t₁, t₂, ws, rfl, hn, hrounds, hc⟩
  · exact ⟨fun _ _ => hq, fun _ hv => by cases hv⟩
  refine ⟨fun _ he => (by cases he), fun w hw => ?_⟩
  cases hw
  have hfailed : (x.store.within (.state τ)).FailedRounds (x.policy.within (.state τ))
      (fun s => call.attemptIn x s) 1 n (t, call.args) q := by
    refine hrounds.mono fun s q e q' hattempt => ?_
    rw [funext hsession, SessionStore.run_attempt_map, hattempt]
    rfl
  refine ⟨n, q, s, t₁, t₂, ws, hn, hfailed, fun hkeeps => hfailed.args_eq hkeeps, hc.of_ran ?_⟩
  have hran := hc.ran
  rw [Action.run_withArguments] at hran ⊢
  obtain ⟨hv, ht⟩ := Prod.mk.inj hran
  rw [hsession, Action.run_bind]
  rcases hbody : (body b s).run.run (t₁, q.2) with ⟨r, q'⟩
  rw [hbody] at hv ht
  dsimp only at hv ht
  rw [hv, ← ht]
  rfl

/-- In a session a call runs on its own arguments. -/
theorem Runs.run_some {call : WriteCall} {o : Outcome β}
    {body : β → SessionId → Action (τ × Value) α} {g : α → Value} (h : x.Runs call o body g)
    (s : SessionId) :
    call.run x (some s) = Action.withArguments call.args (call.attemptIn x s) := by
  rw [h.run_eq (some s), h.attemptIn_eq s, Action.withArguments_lookup]
  rfl

/-- A call that has no arguments to edit has this shape. -/
theorem runs_of_transact {call : WriteCall} {o : Outcome β} {body : β → SessionId → Action τ α}
    {g : α → Value}
    (hrun : ∀ session, call.run x session = do
      let b ← liftM o
      let v ← x.transact (body b) session
      pure (g v))
    (hattempt : ∀ s, call.attemptIn x s = (call.run x (some s)).within (.state τ)) :
    x.Runs call o (fun b s => (body b s).within (.state τ)) g where
  run_eq := fun session => by simp only [hrun session, transact_eq_transactWith _ call.args]
  attemptIn_eq := fun s => by
    rw [hattempt, hrun]
    exact Action.within_lookup o _ g

theorem runs_add (entity : String) (args : Value) :
    x.Runs (.add entity args) (x.descriptor entity)
      (fun d s => (x.saveIn (x.operationsTo nestingLimit) d none s args).within (.state τ))
      .object :=
  runs_of_transact (fun _ => rfl) fun _ => rfl

theorem runs_update (entity : String) (args : Value) :
    x.Runs (.update entity args) (x.descriptor entity)
      (fun d s => (x.updateIn (x.operationsTo nestingLimit) d none s args).within (.state τ))
      documentOrNull :=
  runs_of_transact (fun _ => rfl) fun _ => rfl

theorem runs_delete (entity : String) (id : Value) :
    x.Runs (.delete entity id) (x.descriptor entity)
      (fun d s => (x.deleteIn (x.operationsTo nestingLimit) d s id).within (.state τ))
      documentOrNull :=
  runs_of_transact (fun _ => rfl) fun _ => rfl

/-- A state action looks up the descriptor and the action. -/
theorem runs_act (entity action : String) (args : Value) :
    x.Runs (.act entity action args)
      (do
        let d ← x.descriptor entity
        let a ← stateAction d action
        pure (d, a))
      (fun b s => x.changeStateIn (x.operationsTo nestingLimit) b.1 action b.2 s)
      documentOrNull where
  run_eq := fun session => by
    simp only [liftM_bind, liftM_pure, bind_assoc, pure_bind]
    rfl
  attemptIn_eq := fun s => by
    simp only [liftM_bind, liftM_pure, bind_assoc, pure_bind]
    rfl

theorem runs_custom (name : String) (args : Value) :
    x.Runs (.custom name args) (x.registry.mutation name)
      (fun m s => x.behaviour.mutation m.name (x.operationsTo nestingLimit) s) id where
  run_eq := fun session => by
    simp only [id, bind_pure]
    rfl
  attemptIn_eq := fun s => by
    simp only [id, bind_pure]
    rfl

end Executor

/-- In a session a call runs on its own arguments. -/
theorem WriteCall.run_some (x : Executor τ SessionId) (s : SessionId) (call : WriteCall) :
    call.run x (some s) = Action.withArguments call.args (call.attemptIn x s) := by
  cases call with
  | add entity args => exact (Executor.runs_add entity args).run_some s
  | update entity args => exact (Executor.runs_update entity args).run_some s
  | delete entity id => exact (Executor.runs_delete entity id).run_some s
  | act entity action args => exact (Executor.runs_act entity action args).run_some s
  | custom name args => exact (Executor.runs_custom name args).run_some s

/-- **Whole calls are atomic.** On a memory store, whatever failures are injected and whatever the
user code does in its session: a call that fails leaves the committed documents and the number of
commits as they were, and a call that returns has added one commit, which holds the writes of one
attempt. The rounds before this attempt have failed, and it finds of them what they have made of the
arguments. -/
theorem writeCall_atomic (c : Component τ MemoryStore) (hc : ∀ m t, c.get (c.set m t) = m)
    (x : Executor τ SessionId) (hx : x.store = MemoryStore.documentStore.within c)
    (hsleep : ∀ d t, c.get ((x.policy.sleep d).run.run t).2 = c.get t)
    (hb : x.behaviour.Confined c.get) (call : WriteCall) (t : τ)
    (hd : (c.get t).collections.Distinct) :
    call.Atomic c.get x t ((call.run x none).run.run t).1 ((call.run x none).run.run t).2 := by
  have hstore : x.store.OnMemory c.get := by
    rw [hx]
    exact MemoryStore.onMemory_within hc
  have hops := fun s => Executor.confined_operationsTo hstore hb.entity s Executor.nestingLimit
  cases call with
  | add entity args =>
    exact (Executor.runs_add entity args).atomic hstore hsleep (fun d s => Executor.confined_state
      (Executor.confined_saveIn hstore hb.entity (hops s) d none args)) hd
  | update entity args =>
    exact (Executor.runs_update entity args).atomic hstore hsleep (fun d s =>
      Executor.confined_state (Executor.confined_updateIn hstore hb.entity (hops s) d none args)) hd
  | delete entity id =>
    exact (Executor.runs_delete entity id).atomic hstore hsleep (fun d s => Executor.confined_state
      (Executor.confined_deleteIn hstore hb.entity (hops s) d id)) hd
  | act entity action args =>
    exact (Executor.runs_act entity action args).atomic hstore hsleep
      (fun b s => Executor.confined_changeStateIn hstore hb.entity (hops s) b.1 action b.2) hd
  | custom name args =>
    exact (Executor.runs_custom name args).atomic hstore hsleep
      (fun m s => hb.mutation m.name _ s (hops s)) hd

/-- A service with one custom mutation, which files its argument as a note and then puts another one
in its place. -/
def notary : Executor MemoryStore SessionId where
  registry := ⟨[], [("jot", ⟨"jot", .null, none, .null⟩)], true⟩
  behaviour := {
    entity := fun _ => .none
    mutation := fun _ _ s => do
      let line ← Executor.currentArguments
      let d ← (MemoryStore.create "notes" [("line", line)] (some s)).within (.state _)
      modify fun q => (q.1, .text "again")
      pure (.object d) }
  store := MemoryStore.documentStore.within ⟨id, fun m _ => m⟩
  policy := ⟨2, fun n => .ok (.whole n), fun _ => pure (), Nat.two_pos⟩

/-- An empty store whose next commit meets a conflict. -/
def busyStore : MemoryStore := { MemoryStore.empty with failures := [("commit", 1)] }

theorem notary_confined : notary.behaviour.Confined id where
  entity := fun _ =>
    { fieldChecks := fun _ _ _ h => absurd h List.not_mem_nil
      entityChecks := fun _ _ h => absurd h List.not_mem_nil
      onSaving := fun _ _ _ _ _ => Executor.confined_pure _
      onSaved := fun _ _ _ _ _ => Executor.confined_pure _
      onUpdating := fun _ _ _ _ _ _ => Executor.confined_pure _
      onUpdated := fun _ _ _ _ _ => Executor.confined_pure _
      onDelete := fun _ _ _ _ => Executor.confined_pure _
      effect := fun _ _ h => by cases h }
  mutation := fun _ _ s _ => by
    refine Executor.confined_bind (Executor.confined_bind (Moves.get KeepsTo.refl) fun q =>
      Executor.confined_pure q.2) fun line => ?_
    refine Executor.confined_bind (Executor.confined_state (p := id) (InSession.create _ _))
      fun d => ?_
    exact Executor.confined_bind (fun q => ⟨KeepsTo.refl _, fun _ _ => trivial⟩) fun _ =>
      Executor.confined_pure _

/-- The entries of the notes in a store, as texts. -/
def jottings (m : MemoryStore) : List (List (String × String)) :=
  (m.collections.get "notes").map fun e => e.2.map fun f => (f.1, f.2.plain)

/-- The note is filed by the second attempt, which finds the argument that the first one has
left. -/
theorem notary_atomic :
    (WriteCall.custom "jot" (.text "once")).Atomic id notary busyStore
        (((WriteCall.custom "jot" (.text "once")).run notary none).run.run busyStore).1
        (((WriteCall.custom "jot" (.text "once")).run notary none).run.run busyStore).2 ∧
      jottings (((WriteCall.custom "jot" (.text "once")).run notary none).run.run busyStore).2 =
        [[("line", "again"), ("_id", "000000000000000000000002")]] ∧
      (((WriteCall.custom "jot" (.text "once")).run notary none).run.run busyStore).2.commits = 1 ∧
      (((WriteCall.custom "jot" (.text "once")).run notary none).run.run busyStore).2.aborts =
        1 := by
  refine ⟨?_, by decide +kernel, by decide +kernel, by decide +kernel⟩
  exact writeCall_atomic ⟨id, fun m _ => m⟩ (fun _ _ => rfl) notary rfl (fun _ _ => rfl)
    notary_confined (.custom "jot" (.text "once")) busyStore fun _ => Collection.distinct_nil

end EntityGraph
