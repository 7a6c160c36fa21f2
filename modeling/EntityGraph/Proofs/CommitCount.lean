import EntityGraph.Proofs.Retry

/-!
# Commits and errors

What the outcome of a transaction with retries says about its commits. The commits that succeed are
counted beside the state (`SessionStore.counted`); the sessions, the body, the pauses and their
lengths may do anything. A run that returns has committed once. A run that raises has committed
nothing, with one exception (`SessionStore.LostEnd`): the session was committed and could then not
be ended, and the error of its end takes the place of the result.
-/

namespace EntityGraph

variable {τ S α : Type}

/-- A state with a count beside it. -/
def Component.uncounted (τ : Type) : Component (τ × Nat) τ := ⟨Prod.fst, fun t p => (t, p.2)⟩

namespace SessionStore

/-! ## Counting -/

/-- The sessions of a store, with a count of the commits that succeed. -/
def counted (store : SessionStore τ S) : SessionStore (τ × Nat) S :=
  { store.within (.uncounted τ) with
    commit := fun s => do
      (store.commit s).within (.uncounted τ)
      modify fun p => (p.1, p.2 + 1) }

/-- A body that takes no notice of the count. -/
def uncountedBody (body : S → Action τ α) (s : S) : Action (τ × Nat) α :=
    (body s).within (.uncounted τ)

/-- **The end that was lost**: a session was committed, and then its end raised an error. -/
def LostEnd (store : SessionStore τ S) (e : Fault) (t : τ) : Prop :=
  ∃ s before after, (store.commit s).run.run before = (.ok (), after) ∧
    (store.finish s).run.run after = (.error e, t)

variable (store : SessionStore τ S) (policy : RetryPolicy τ) (body : S → Action τ α)

/-- A commit that succeeds is counted. -/
theorem run_commit_counted (s : S) (t : τ) (n : Nat) :
    (store.counted.commit s).run.run (t, n) = match (store.commit s).run.run t with
      | (.ok (), t') => (.ok (), (t', n + 1))
      | (.error e, t') => (.error e, (t', n)) := by
  simp only [counted, Action.run_bind, Action.run_within, Component.uncounted, Action.run_modify]
  rcases (store.commit s).run.run t with ⟨e | ⟨⟩, t'⟩ <;> rfl

/-- An action that takes no notice of the count leaves it as it is. -/
theorem run_uncounted {β : Type} (a : Action τ β) (t : τ) (n : Nat) :
    (a.within (.uncounted τ)).run.run (t, n) = ((a.run.run t).1, ((a.run.run t).2, n)) := rfl

theorem run_start_counted (t : τ) (n : Nat) :
    store.counted.start.run.run (t, n) =
      ((store.start.run.run t).1, ((store.start.run.run t).2, n)) :=
  run_uncounted _ t n

theorem run_finish_counted (s : S) (t : τ) (n : Nat) : (store.counted.finish s).run.run (t, n) =
    (((store.finish s).run.run t).1, (((store.finish s).run.run t).2, n)) :=
  run_uncounted _ t n

/-- **One attempt** counts one commit, its last call, when it returns, and none when it raises. -/
theorem run_attempt_counted (s : S) (t : τ) (n : Nat) :
    (∃ v before after, (store.commit s).run.run before = (.ok (), after) ∧
      (store.counted.attempt (uncountedBody body) s).run.run (t, n) = (.ok v, (after, n + 1))) ∨
    ∃ e after, (store.counted.attempt (uncountedBody body) s).run.run (t, n) =
      (.error e, (after, n)) := by
  have hbegin : ∀ t, (store.counted.begin s).run.run (t, n) =
      (((store.begin s).run.run t).1, (((store.begin s).run.run t).2, n)) :=
      fun t => run_uncounted _ t n
  have hbody : ∀ t, (uncountedBody body s).run.run (t, n) =
      (((body s).run.run t).1, (((body s).run.run t).2, n)) := fun t => run_uncounted _ t n
  have habort : ∀ t, (store.counted.abortQuietly s).run.run (t, n) =
      (.ok (), (((store.abort s).run.run t).2, n)) := fun _ => rfl
  rw [attempt, Action.run_bind, hbegin]
  rcases (store.begin s).run.run t with ⟨e | ⟨⟩, t₁⟩
  · exact .inr ⟨e, t₁, rfl⟩
  dsimp only
  rw [Action.run_bind, Action.run_observe, Action.run_bind, hbody]
  rcases (body s).run.run t₁ with ⟨e | v, t₂⟩
  · refine .inr ⟨e, ((store.abort s).run.run t₂).2, ?_⟩
    dsimp only
    rw [Action.run_bind_ok (habort t₂), Action.run_throw]
  dsimp only
  rw [Action.run_bind, run_commit_counted]
  rcases hcommit : (store.commit s).run.run t₂ with ⟨e | ⟨⟩, t₃⟩
  · refine .inr ⟨e, ((store.abort s).run.run t₃).2, ?_⟩
    dsimp only
    rw [Action.run_bind_ok (habort t₃), Action.run_throw]
  · exact .inl ⟨v, t₂, t₃, hcommit, rfl⟩

/-! ## Runs -/

/-- What a run that started from no commit says about its commits: one when it returns; none when it
raises, or one whose session could not be ended. -/
def Accounts (store : SessionStore τ S) : Outcome α × (τ × Nat) → Prop
  | (.ok _, (_, n)) => n = 1
  | (.error e, (t, n)) => n = 0 ∨ n = 1 ∧ store.LostEnd e t

/-- A pause takes no notice of the count. -/
theorem run_pause_counted (number : Nat) (t : τ) (n : Nat) : ∃ pause after,
    (Action.observe do
      let d ← (policy.within (.uncounted τ)).backoff number
      (policy.within (.uncounted τ)).sleep d : Action (τ × Nat) (Outcome Unit)).run.run (t, n) =
      (.ok pause, (after, n)) := by
  rw [Action.run_observe, Action.run_bind, Action.run_lift]
  rcases (policy.within (.uncounted τ)).backoff number with e | d
  · exact ⟨.error e, t, rfl⟩
  · exact ⟨((policy.sleep d).run.run t).1, ((policy.sleep d).run.run t).2, rfl⟩

/-- After an attempt that raised, the end of the session may raise as well: nothing was
committed. -/
theorem accounts_finish_throw (s : S) (e : Fault) (t : τ) :
    store.Accounts ((do store.counted.finish s; throw e : Action (τ × Nat) α).run.run (t, 0)) := by
  rw [Action.run_bind, run_finish_counted]
  rcases (store.finish s).run.run t with ⟨f | ⟨⟩, t'⟩ <;> exact .inl rfl

/-- After a commit only the end of the session can raise. -/
theorem accounts_finish_pure {s : S} {before after : τ}
    (hcommit : (store.commit s).run.run before = (.ok (), after)) (v : α) :
    store.Accounts ((do store.counted.finish s; pure v : Action (τ × Nat) α).run.run (after,
      1)) := by
  rw [Action.run_bind, run_finish_counted]
  rcases hrun : (store.finish s).run.run after with ⟨f | ⟨⟩, t'⟩
  · exact .inr ⟨rfl, s, before, after, hcommit, hrun⟩
  · rfl

variable {store policy body} {left number : Nat} {s : S} {t t₁ after : τ}

/-- The last attempt: it returned, or its error asks for no other attempt, or none is left. -/
theorem accounts_last (hs : store.counted.start.run.run (t, 0) = (.ok s, (t₁, 0)))
    (hstop : ∀ e after, (store.counted.attempt (uncountedBody body) s).run.run (t₁, 0) =
      (.error e, (after, 0)) →
      e.isTransient = false ∨ left = 0) :
    store.Accounts ((store.counted.runFrom (policy.within (.uncounted τ)) (uncountedBody body)
      left number).run.run (t, 0)) := by
  rcases store.run_attempt_counted body s t₁ 0 with ⟨v, before, after, hcommit, ha⟩ | ⟨e, after, ha⟩
  · rw [run_runFrom_ok hs ha]
    exact store.accounts_finish_pure hcommit v
  · rw [run_runFrom_error hs ha (hstop e after ha)]
    exact store.accounts_finish_throw s _ after

/-- An attempt that another one follows, when the runs from there on are accounted for. -/
theorem accounts_again (hs : store.counted.start.run.run (t, 0) = (.ok s, (t₁, 0))) {e : Fault}
    (ha : (store.counted.attempt (uncountedBody body) s).run.run (t₁, 0) = (.error e, (after, 0)))
    (he : e.isTransient = true)
    (hrest : ∀ t, store.Accounts ((store.counted.runFrom (policy.within (.uncounted τ))
      (uncountedBody body) left (number + 1)).run.run (t, 0))) :
    store.Accounts ((store.counted.runFrom (policy.within (.uncounted τ))
      (uncountedBody body) (left + 1) number).run.run (t, 0)) := by
  obtain ⟨pause, t₂, hpause⟩ := run_pause_counted policy number after 0
  rw [run_runFrom_again hs ha he, Action.run_bind_ok hpause, Action.run_bind, run_finish_counted]
  rcases (store.finish s).run.run t₂ with ⟨f | ⟨⟩, t₃⟩
  · exact .inl rfl
  · rcases pause with f | ⟨⟩
    · exact .inl rfl
    · exact hrest t₃

variable (store policy body)

/-- **A run from some attempt on**, by induction on the attempts that are left: those that raise
count nothing, so that the count is zero whenever another session is opened. -/
theorem accounts_runFrom (left number : Nat) (t : τ) :
    store.Accounts ((store.counted.runFrom (policy.within (.uncounted τ)) (uncountedBody body)
      left number).run.run (t, 0)) := by
  induction left generalizing number t with
  | zero =>
    have hstart := store.run_start_counted t 0
    rcases hopen : store.start.run.run t with ⟨e | s, t₁⟩ <;> rw [hopen] at hstart
    · rw [runFrom, Action.run_bind_error hstart]
      exact .inl rfl
    · exact accounts_last hstart fun _ _ _ => .inr rfl
  | succ left ih =>
    have hstart := store.run_start_counted t 0
    rcases hopen : store.start.run.run t with ⟨e | s, t₁⟩ <;> rw [hopen] at hstart
    · rw [runFrom, Action.run_bind_error hstart]
      exact .inl rfl
    by_cases hagain : ∃ e after, e.isTransient = true ∧
        (store.counted.attempt (uncountedBody body) s).run.run (t₁, 0) = (.error e, (after, 0))
    · obtain ⟨e, after, he, ha⟩ := hagain
      exact accounts_again hstart ha he fun t => ih (number + 1) t
    · refine accounts_last hstart fun e after ha => .inl (Bool.eq_false_iff.2 fun he => ?_)
      exact hagain ⟨e, after, he, ha⟩

end SessionStore

/-! ## The theorem -/

/-- **Errors and commits.** Whatever the sessions, the body and the pauses of a transaction with
retries do, a run that returns has committed once, and a run that raises has committed nothing,
unless the session that was committed could not be ended: then the error is that of its end. -/
theorem transact_accounts (store : SessionStore τ S) (policy : RetryPolicy τ)
    (body : S → Action τ α) (t : τ) :
    store.Accounts ((store.counted.transact (policy.within (.uncounted τ))
      (SessionStore.uncountedBody body) none).run.run (t, 0)) :=
  store.accounts_runFrom policy body (policy.maxAttempts - 1) 1 t

/-- A session in which all goes well until it is to be ended. -/
def endFails (_ : Nat) : SessionOutcomes Nat :=
  ⟨.ok (), .ok 7, .ok (), .ok (), .error (.badState "connection lost")⟩

/-- The error of the end takes the place of the result of a body that was committed. -/
theorem error_after_commit :
    ((SessionLog.sessions endFails).counted.transact
      ((SessionLog.policy 5 (by decide) fun n => .whole n).within (.uncounted SessionLog))
      (SessionStore.uncountedBody (SessionLog.body endFails)) none).run.run (.empty, 0) =
      (.error (.badState "connection lost"),
        (⟨[.opened 0, .begun 0, .ran 0, .committed 0, .ended 0], 1⟩, 1)) := by
  have hopened : (SessionLog.sessions endFails).counted.start.run.run (.empty, 0) =
      (.ok 0, (⟨[.opened 0], 1⟩, 0)) := rfl
  have hran : ((SessionLog.sessions endFails).counted.attempt
      (SessionStore.uncountedBody (SessionLog.body endFails)) 0).run.run (⟨[.opened 0], 1⟩, 0) =
        (.ok 7, (⟨[.opened 0, .begun 0, .ran 0, .committed 0], 1⟩, 1)) := rfl
  exact (SessionStore.run_runFrom_ok hopened hran).trans rfl

end EntityGraph
