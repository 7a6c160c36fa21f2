import EntityGraph.Mutation.Executor

/-!
# Runs of actions

An action is run on a state and gives an outcome and a state. The equations below say what each way
of building an action does to a run. `Moves R Q a` is how the rest of the theory speaks about
actions without running them: every run of `a` takes the state along the relation `R`, whether it
ends early or not, and a value that it returns satisfies `Q`.
-/

namespace EntityGraph

namespace Action

variable {σ τ α β : Type}

/-! ## Equations for runs -/

/-- Returning a value leaves the state. -/
@[simp] theorem run_pure (v : α) (t : σ) : (pure v : Action σ α).run.run t = (.ok v, t) := rfl

/-- Raising leaves the state. -/
@[simp] theorem run_throw (e : Fault) (t : σ) :
    (throw e : Action σ α).run.run t = (.error e, t) := rfl

/-- So does an outcome that needs no state. -/
@[simp] theorem run_lift (o : Outcome α) (t : σ) :
    (liftM o : Action σ α).run.run t = (o, t) := by
  cases o <;> rfl

@[simp] theorem run_get (t : σ) : (get : Action σ σ).run.run t = (.ok t, t) := rfl

@[simp] theorem run_set (s t : σ) : (set s : Action σ PUnit).run.run t = (.ok ⟨⟩, s) := rfl

@[simp] theorem run_modify (f : σ → σ) (t : σ) :
    (modify f : Action σ PUnit).run.run t = (.ok ⟨⟩, f t) := rfl

/-- The second part runs on the state that the first one leaves, unless that one raises. -/
theorem run_bind (a : Action σ α) (f : α → Action σ β) (t : σ) :
    (a >>= f).run.run t = match a.run.run t with
      | (.ok v, t') => (f v).run.run t'
      | (.error e, t') => (.error e, t') := by
  change StateT.run (ExceptT.run (a >>= f)) t = _
  simp only [ExceptT.run_bind, StateT.run_bind]
  rcases StateT.run (ExceptT.run a) t with ⟨_ | _, _⟩ <;> rfl

/-- Nothing runs after a fault. -/
@[simp] theorem throw_bind (e : Fault) (f : α → Action σ β) :
    (throw e >>= f : Action σ β) = throw e := rfl

/-- Introduction for a sequence whose first part returns. -/
theorem run_bind_ok {a : Action σ α} {f : α → Action σ β} {t t' : σ} {v : α}
    (h : a.run.run t = (.ok v, t')) : (a >>= f).run.run t = (f v).run.run t' := by
  rw [run_bind, h]

/-- Introduction for a sequence whose first part ends early. -/
theorem run_bind_error {a : Action σ α} {f : α → Action σ β} {t t' : σ} {e : Fault}
    (h : a.run.run t = (.error e, t')) : (a >>= f).run.run t = (.error e, t') := by
  rw [run_bind, h]

/-- Inversion for a sequence that returns. -/
theorem run_bind_eq_ok {a : Action σ α} {f : α → Action σ β} {t t'' : σ} {w : β}
    (h : (a >>= f).run.run t = (.ok w, t'')) :
    ∃ v t', a.run.run t = (.ok v, t') ∧ (f v).run.run t' = (.ok w, t'') := by
  rw [run_bind] at h
  rcases ha : a.run.run t with ⟨e | v, t'⟩
  · rw [ha] at h
    cases h
  · rw [ha] at h
    exact ⟨v, t', rfl, h⟩

/-- Inversion for an action that returns after a pure computation. -/
theorem run_lift_bind_eq_ok {o : Outcome α} {f : α → Action σ β} {t t' : σ} {w : β}
    (h : (liftM o >>= f : Action σ β).run.run t = (.ok w, t')) :
    ∃ v, o = .ok v ∧ (f v).run.run t = (.ok w, t') := by
  rw [run_bind, run_lift] at h
  rcases o with e | v
  · cases h
  · exact ⟨v, rfl, h⟩

/-- Inversion for a check in front of an action that returns. -/
theorem run_guard_eq_ok {c : Prop} [Decidable c] {e : Fault} {f : PUnit → Action σ α} {t t' : σ}
    {v : α} (h : (if c then throw e >>= f else f ⟨⟩ : Action σ α).run.run t = (.ok v, t')) :
    ¬ c ∧ (f ⟨⟩).run.run t = (.ok v, t') := by
  split at h
  · cases h
  · exact ⟨‹_›, h⟩

/-- Observing returns the outcome, whichever it is. -/
@[simp] theorem run_observe (a : Action σ α) (t : σ) :
    a.observe.run.run t = (.ok (a.run.run t).1, (a.run.run t).2) := rfl

/-- Reading the state leaves it. -/
@[simp] theorem run_reads (f : σ → Outcome α) (t : σ) : (Action.reads f).run.run t = (f t, t) := rfl

/-- An action on a component leaves the rest of the state. -/
@[simp] theorem run_within (c : Component τ σ) (a : Action σ α) (t : τ) :
    (a.within c).run.run t = ((a.run.run (c.get t)).1, c.set (a.run.run (c.get t)).2 t) := rfl

/-- An action beside its arguments starts from the given ones, and forgets what it leaves of
them. -/
@[simp] theorem run_withArguments (args : Value) (a : Action (τ × Value) α) (t : τ) :
    (Action.withArguments args a).run.run t =
      ((a.run.run (t, args)).1, (a.run.run (t, args)).2.1) := rfl

end Action

/-! ## Movement -/

/-- **Movement.** Every run of the action moves the state along `R`, and what it returns satisfies
`Q`. -/
def Moves {σ α : Type} (R : σ → σ → Prop) (Q : α → Prop) (a : Action σ α) : Prop :=
  ∀ t, R t (a.run.run t).2 ∧ ∀ v, (a.run.run t).1 = .ok v → Q v

namespace Moves

variable {σ τ α β : Type} {R : σ → σ → Prop} {Q : α → Prop}

/-- What a run that returns says. -/
theorem of_ok {a : Action σ α} (h : Moves R Q a) {t t' : σ} {v : α}
    (hr : a.run.run t = (.ok v, t')) : R t t' ∧ Q v := by
  obtain ⟨hR, hQ⟩ := h t
  rw [hr] at hR hQ
  exact ⟨hR, hQ v rfl⟩

/-- What a run that ends early says. -/
theorem of_error {a : Action σ α} (h : Moves R Q a) {t t' : σ} {e : Fault}
    (hr : a.run.run t = (.error e, t')) : R t t' := by
  have hR := (h t).1
  rw [hr] at hR
  exact hR

/-- A movement in terms of the two ways a run can end. -/
theorem intro {a : Action σ α}
    (hok : ∀ t v t', a.run.run t = (.ok v, t') → R t t' ∧ Q v)
    (herror : ∀ t e t', a.run.run t = (.error e, t') → R t t') : Moves R Q a := by
  intro t
  rcases hr : a.run.run t with ⟨e | v, t'⟩
  · exact ⟨herror t e t' hr, fun v hv => by cases hv⟩
  · obtain ⟨hR, hQ⟩ := hok t v t' hr
    refine ⟨hR, fun w hw => ?_⟩
    cases hw
    exact hQ

/-- What an action ensures can be said less precisely. -/
theorem mono {R' : σ → σ → Prop} {Q' : α → Prop} {a : Action σ α} (h : Moves R Q a)
    (hR : ∀ t t', R t t' → R' t t') (hQ : ∀ v, Q v → Q' v) : Moves R' Q' a :=
  fun t => ⟨hR _ _ (h t).1, fun v hv => hQ v ((h t).2 v hv)⟩

/-- What is known of the values that an action returns may be added to how it moves. -/
theorem also {R' : σ → σ → Prop} {Q' : α → Prop} {a : Action σ α} (h : Moves R Q a)
    (h' : Moves R' Q' a) : Moves R (fun v => Q v ∧ Q' v) a :=
  fun t => ⟨(h t).1, fun v hv => ⟨(h t).2 v hv, (h' t).2 v hv⟩⟩

/-- Returning moves nowhere. -/
theorem pure (hR : ∀ t, R t t) {v : α} (hv : Q v) : Moves R Q (pure v : Action σ α) := by
  intro t
  refine ⟨hR t, fun w hw => ?_⟩
  cases hw
  exact hv

/-- Raising moves nowhere. -/
theorem throw (hR : ∀ t, R t t) (e : Fault) : Moves R Q (throw e : Action σ α) :=
  fun t => ⟨hR t, fun v hv => by cases hv⟩

/-- An outcome moves nowhere. -/
theorem lift (hR : ∀ t, R t t) {o : Outcome α} (ho : ∀ v, o = .ok v → Q v) :
    Moves R Q (liftM o : Action σ α) := by
  intro t
  rw [Action.run_lift]
  exact ⟨hR t, ho⟩

theorem get (hR : ∀ t, R t t) : Moves R (fun _ => True) (get : Action σ σ) :=
  fun t => ⟨hR t, fun _ _ => trivial⟩

/-- Looking at how an action ends. -/
theorem observe {a : Action σ α} (h : Moves R Q a) :
    Moves R (fun o : Outcome α => ∀ v, o = .ok v → Q v) a.observe := by
  refine fun t => ⟨(h t).1, fun o ho v hv => (h t).2 v ?_⟩
  rw [Action.run_observe] at ho
  cases ho
  exact hv

/-- Sequencing: the two movements compose. -/
theorem bind (htrans : ∀ t t' t'', R t t' → R t' t'' → R t t'') {Q' : β → Prop}
    {a : Action σ α} {f : α → Action σ β} (ha : Moves R Q a) (hf : ∀ v, Q v → Moves R Q' (f v)) :
    Moves R Q' (a >>= f) := by
  intro t
  rw [Action.run_bind]
  rcases hr : a.run.run t with ⟨e | v, t'⟩
  · exact ⟨ha.of_error hr, fun v hv => by cases hv⟩
  · obtain ⟨hR, hQ⟩ := ha.of_ok hr
    obtain ⟨hR', hQ'⟩ := hf v hQ t'
    exact ⟨htrans _ _ _ hR hR', hQ'⟩

/-- Sequencing after a pure computation: what it gives is known afterwards. -/
theorem lift_bind (hR : ∀ t, R t t) {Q' : β → Prop} {o : Outcome α} {f : α → Action σ β}
    (hf : ∀ v, o = .ok v → Moves R Q' (f v)) : Moves R Q' (liftM o >>= f) := by
  intro t
  rcases o with e | v
  · exact throw hR e t
  · exact hf v rfl t

/-- A check in front of an action: the action may count on it. -/
theorem guard (hR : ∀ t, R t t) {c : Prop} [Decidable c] {e : Fault} {f : PUnit → Action σ α}
    (hf : ¬ c → Moves R Q (f ⟨⟩)) : Moves R Q (if c then MonadExcept.throw e >>= f else f ⟨⟩) := by
  split
  · exact throw hR e
  · exact hf ‹_›

/-! What an action returns may matter and not how it moves the state: then any movement will do. -/

/-- Every action moves the state somehow. -/
theorem any (a : Action σ α) : Moves (fun _ _ => True) (fun _ => True) a :=
  fun _ => ⟨trivial, fun _ _ => trivial⟩

theorem pure_any {v : α} (hv : Q v) : Moves (fun _ _ => True) Q (Pure.pure v : Action σ α) :=
  pure (fun _ => trivial) hv

theorem throw_any (e : Fault) : Moves (fun _ _ => True) Q (MonadExcept.throw e : Action σ α) :=
  throw (fun _ => trivial) e

/-- Sequencing, when only what is returned matters. -/
theorem bind_any {Q' : β → Prop} {a : Action σ α} {f : α → Action σ β}
    (ha : Moves (fun _ _ => True) Q a) (hf : ∀ v, Q v → Moves (fun _ _ => True) Q' (f v)) :
    Moves (fun _ _ => True) Q' (a >>= f) :=
  bind (fun _ _ _ _ _ => trivial) ha hf

/-- An outcome and what follows it, when only what is returned matters. -/
theorem lift_bind_any {Q' : β → Prop} {o : Outcome α} {f : α → Action σ β}
    (hf : ∀ v, o = .ok v → Moves (fun _ _ => True) Q' (f v)) :
    Moves (fun _ _ => True) Q' (liftM o >>= f) :=
  lift_bind (fun _ => trivial) hf

theorem guard_any {c : Prop} [Decidable c] {e : Fault} {f : PUnit → Action σ α}
    (hf : ¬ c → Moves (fun _ _ => True) Q (f ⟨⟩)) :
    Moves (fun _ _ => True) Q (if c then MonadExcept.throw e >>= f else f ⟨⟩) :=
  guard (fun _ => trivial) hf

/-- An action on a component moves the larger state as it moves the component. -/
theorem within {c : Component τ σ} {R' : τ → τ → Prop} {a : Action σ α} (h : Moves R Q a)
    (hR : ∀ t s, R (c.get t) s → R' t (c.set s t)) : Moves R' Q (a.within c) :=
  fun t => ⟨hR _ _ (h (c.get t)).1, (h (c.get t)).2⟩

/-- Running actions one after the other. -/
theorem forM (hrefl : ∀ t, R t t) (htrans : ∀ t t' t'', R t t' → R t' t'' → R t t'') {xs : List β}
    {f : β → Action σ PUnit} (h : ∀ x ∈ xs, Moves R (fun _ => True) (f x)) :
    Moves R (fun _ => True) (xs.forM f) := by
  induction xs with
  | nil => exact Moves.pure hrefl trivial
  | cons x rest ih =>
    refine Moves.bind htrans (h x (List.mem_cons_self ..)) fun _ _ => ?_
    exact ih fun y hy => h y (List.mem_cons_of_mem _ hy)

/-- Passing a value that satisfies `Q` through actions one after the other. -/
theorem foldlM (hrefl : ∀ t, R t t) (htrans : ∀ t t' t'', R t t' → R t' t'' → R t t'') {xs : List β}
    {f : α → β → Action σ α} (h : ∀ x ∈ xs, ∀ v, Q v → Moves R Q (f v x)) {v : α} (hv : Q v) :
    Moves R Q (xs.foldlM f v) := by
  induction xs generalizing v with
  | nil => exact Moves.pure hrefl hv
  | cons x rest ih =>
    rw [List.foldlM_cons]
    refine Moves.bind htrans (h x (List.mem_cons_self ..) v hv) fun w hw => ?_
    exact ih (fun y hy => h y (List.mem_cons_of_mem _ hy)) hw

/-- Folds, when only what is returned matters. -/
theorem foldlM_any {xs : List β} {f : α → β → Action σ α}
    (h : ∀ x ∈ xs, ∀ v, Q v → Moves (fun _ _ => True) Q (f v x)) {v : α} (hv : Q v) :
    Moves (fun _ _ => True) Q (xs.foldlM f v) :=
  foldlM (fun _ => trivial) (fun _ _ _ _ _ => trivial) h hv

end Moves

/-! ## Invariants -/

/-- **Invariance.** From a state in which `I` holds, every run of the action ends in such a state,
and what it returns satisfies `Q`. -/
def Keeps {σ α : Type} (I : σ → Prop) (Q : α → Prop) (a : Action σ α) : Prop :=
  ∀ t, I t → I (a.run.run t).2 ∧ ∀ v, (a.run.run t).1 = .ok v → Q v

namespace Keeps

variable {σ α β : Type} {I : σ → Prop} {Q : α → Prop}

/-- Returning keeps every invariant. -/
theorem pure {v : α} (hv : Q v) : Keeps I Q (pure v : Action σ α) := by
  refine fun t ht => ⟨ht, fun w hw => ?_⟩
  cases hw
  exact hv

/-- So does raising. -/
theorem throw (e : Fault) : Keeps I Q (throw e : Action σ α) :=
  fun _ ht => ⟨ht, fun v hv => by cases hv⟩

theorem lift {o : Outcome α} (ho : ∀ v, o = .ok v → Q v) : Keeps I Q (liftM o : Action σ α) := by
  intro t ht
  rw [Action.run_lift]
  exact ⟨ht, ho⟩

theorem get : Keeps I I (get : Action σ σ) := by
  refine fun t ht => ⟨ht, fun v hv => ?_⟩
  cases hv
  exact ht

/-- A state that is set must keep the invariant. -/
theorem set {t : σ} (ht : I t) : Keeps I (fun _ => True) (set t : Action σ PUnit) :=
  fun _ _ => ⟨ht, fun _ _ => trivial⟩

/-- So must a function that the state is modified by. -/
theorem modify {f : σ → σ} (hf : ∀ t, I t → I (f t)) :
    Keeps I (fun _ => True) (modify f : Action σ PUnit) :=
  fun t ht => ⟨hf t ht, fun _ _ => trivial⟩

/-- **Sequencing** keeps an invariant that both parts keep. -/
theorem bind {Q' : β → Prop} {a : Action σ α} {f : α → Action σ β} (ha : Keeps I Q a)
    (hf : ∀ v, Q v → Keeps I Q' (f v)) : Keeps I Q' (a >>= f) := by
  intro t ht
  obtain ⟨ht', hv⟩ := ha t ht
  rw [Action.run_bind]
  rcases hr : a.run.run t with ⟨e | v, t'⟩
  · rw [hr] at ht'
    exact ⟨ht', fun v hv => by cases hv⟩
  · rw [hr] at ht' hv
    exact hf v (hv v rfl) t' ht'

/-- Passing a value that satisfies `Q` through actions one after the other. -/
theorem foldlM {xs : List β} {f : α → β → Action σ α} (h : ∀ v x, Q v → Keeps I Q (f v x)) {v : α}
    (hv : Q v) : Keeps I Q (xs.foldlM f v) := by
  induction xs generalizing v with
  | nil => exact pure hv
  | cons x rest ih =>
    rw [List.foldlM_cons]
    exact bind (h v x hv) fun w hw => ih hw

end Keeps

end EntityGraph
