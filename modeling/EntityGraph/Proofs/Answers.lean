import EntityGraph.Proofs.Action

/-!
# Answers and refusals

A caller of the service is promised an answer or a **refusal** (`Fault.IsRefusal`): a service error
with a kind of its own, not one that stands for an unexpected failure or asks for another attempt.
`Answers Q o` says so of a pure computation, and `Serves I Q a` of an action: from a state in which
`I` holds, every run of `a` ends in such a state, with a value that satisfies `Q` or with a refusal.
An operation that meets a value of the wrong structure does neither. The last part goes through the
conversions, which refuse what they cannot convert.
-/

namespace EntityGraph

/-- **Refusals**: what the service promises to callers whom it gives no answer. -/
structure Fault.IsRefusal (f : Fault) : Prop where
  typed : ∃ e, f = .service e ∧ e.kind ≠ .internal
  final : f.isTransient = false

/-- No reason of the service stands for an unexpected failure. -/
theorem Reason.kind_ne_internal (r : Reason) : r.kind ≠ .internal := by
  intro h
  cases r <;> cases h

/-- Reasons refuse, but for those that ask for another attempt. -/
theorem Reason.isRefusal {r : Reason} (h : r.fault.isTransient = false) : r.fault.IsRefusal :=
  ⟨⟨_, rfl, r.kind_ne_internal⟩, h⟩

/-- A refusal reaches the caller as it is. -/
theorem Fault.IsRefusal.normalize {f : Fault} (h : f.IsRefusal) : f.normalize = f := by
  obtain ⟨e, rfl, -⟩ := h.typed
  rfl

/-! ## Computations -/

/-- **An answer** that satisfies `Q`, or a refusal. -/
def Answers {α : Type} (Q : α → Prop) : Outcome α → Prop
  | .ok v => Q v
  | .error f => f.IsRefusal

namespace Answers

variable {α β : Type} {Q : α → Prop} {P : β → Prop} {o : Outcome α}

/-- Raising a reason is an answer, if no retry follows. -/
theorem refuse {r : Reason} (h : r.fault.isTransient = false) : Answers Q (throw r.fault) :=
  Reason.isRefusal h

theorem mono {Q' : α → Prop} (h : Answers Q o) (hQ : ∀ v, Q v → Q' v) : Answers Q' o := by
  cases o with
  | ok v => exact hQ v h
  | error f => exact h

/-- **Sequencing** answers. -/
theorem bind (h : Answers Q o) {f : α → Outcome β} (hf : ∀ v, Q v → Answers P (f v)) :
    Answers P (o >>= f) := by
  cases o with
  | ok v => exact hf v h
  | error f => exact h

/-- A check in front of a computation. -/
theorem guard {c : Prop} [Decidable c] {r : Reason} (hr : r.fault.isTransient = false)
    {f : PUnit → Outcome α} (hf : ¬ c → Answers Q (f ⟨⟩)) :
    Answers Q (if c then throw r.fault >>= f else f ⟨⟩) := by
  split
  · exact refuse hr
  · exact hf ‹_›

end Answers

/-! ## Actions -/

/-- A run that ends in a state in which `I` holds, with an answer that satisfies `Q` or a
refusal. -/
def Served {σ α : Type} (I : σ → Prop) (Q : α → Prop) (r : Outcome α × σ) : Prop :=
  I r.2 ∧ Answers Q r.1

/-- **Service.** From a state in which `I` holds, every run of the action ends in such a state, with
an answer that satisfies `Q` or a refusal. -/
def Serves {σ α : Type} (I : σ → Prop) (Q : α → Prop) (a : Action σ α) : Prop :=
  ∀ t, I t → Served I Q (a.run.run t)

namespace Serves

variable {σ τ α β : Type} {I : σ → Prop} {Q : α → Prop} {P : β → Prop}

theorem pure {v : α} (hv : Q v) : Serves I Q (Pure.pure v : Action σ α) := fun _ ht => ⟨ht, hv⟩

theorem refuse {r : Reason} (h : r.fault.isTransient = false) :
    Serves I Q (throw r.fault : Action σ α) := fun _ ht => ⟨ht, Reason.isRefusal h⟩

theorem lift {o : Outcome α} (ho : Answers Q o) : Serves I Q (liftM o : Action σ α) := by
  intro t ht
  rw [Action.run_lift]
  exact ⟨ht, ho⟩

/-- What is served can be asked for less precisely. -/
theorem mono {Q' : α → Prop} {a : Action σ α} (h : Serves I Q a) (hQ : ∀ v, Q v → Q' v) :
    Serves I Q' a := fun t ht => ⟨(h t ht).1, (h t ht).2.mono hQ⟩

/-- What is known of the values that an action returns may be added to what it serves. -/
theorem also {Q' : α → Prop} {a : Action σ α} (h : Serves I Q a)
    (h' : Moves (fun _ _ => True) Q' a) : Serves I (fun v => Q v ∧ Q' v) a := by
  intro t ht
  obtain ⟨hI, hQ⟩ := h t ht
  refine ⟨hI, ?_⟩
  rcases hr : a.run.run t with ⟨f | v, t'⟩
  · rw [hr] at hQ
    exact hQ
  · rw [hr] at hQ
    exact ⟨hQ, (h'.of_ok hr).2⟩

/-- A sequence from a state in which its first part is served. -/
theorem bind_at {a : Action σ α} {f : α → Action σ β} {t : σ} (ha : Served I Q (a.run.run t))
    (hf : ∀ v t', Q v → I t' → Served I P ((f v).run.run t')) :
    Served I P ((a >>= f).run.run t) := by
  rw [Action.run_bind]
  rcases hr : a.run.run t with ⟨e | v, t'⟩
  · rw [hr] at ha
    exact ⟨ha.1, ha.2⟩
  · rw [hr] at ha
    exact hf v t' ha.2 ha.1

/-- **Sequencing** what is served. -/
theorem bind {a : Action σ α} {f : α → Action σ β} (ha : Serves I Q a)
    (hf : ∀ v, Q v → Serves I P (f v)) : Serves I P (a >>= f) :=
  fun t ht => bind_at (ha t ht) fun v t' hv ht' => hf v hv t' ht'

/-- Sequencing after a pure computation: what it gives is known afterwards. -/
theorem lift_bind {o : Outcome α} (ho : Answers Q o) {f : α → Action σ β}
    (hf : ∀ v, o = .ok v → Q v → Serves I P (f v)) : Serves I P (liftM o >>= f) := by
  intro t ht
  rcases o with e | v
  · exact ⟨ht, ho⟩
  · exact hf v rfl ho t ht

/-- A check in front of an action. -/
theorem guard {c : Prop} [Decidable c] {r : Reason} (hr : r.fault.isTransient = false)
    {f : PUnit → Action σ α} (hf : ¬ c → Serves I Q (f ⟨⟩)) :
    Serves I Q (if c then throw r.fault >>= f else f ⟨⟩) := by
  split
  · exact refuse hr
  · exact hf ‹_›

/-- An action on a component of a larger state. -/
theorem within {c : Component τ σ} {a : Action σ α} (h : Serves I Q a)
    (hc : ∀ s t, c.get (c.set s t) = s) :
    Serves (fun t => I (c.get t)) Q (a.within c) := by
  intro t ht
  obtain ⟨hI, hQ⟩ := h (c.get t) ht
  refine ⟨?_, hQ⟩
  change I (c.get (c.set (a.run.run (c.get t)).2 t))
  rw [hc]
  exact hI

/-- What is served keeps the invariant. -/
theorem keeps {a : Action σ α} (h : Serves I Q a) : Keeps I (fun _ => True) a :=
  fun t ht => ⟨(h t ht).1, fun _ _ => trivial⟩

end Serves

/-! ## Conversions -/

mutual

/-- What stands for no moment is refused. -/
theorem answers_coerceMoment (type : String) :
    ∀ v : Value, Answers (fun _ => True) (coerceMoment type v)
  | .list items => by
    rw [coerceMoment]
    exact (answers_coerceMoments type items).bind fun _ _ => trivial
  | .null => by
    rw [coerceMoment]
    trivial
  | .moment m => by
    rw [coerceMoment]
    trivial
  | .bool b => by
    rw [coerceMoment]
    exact .refuse rfl
  | .int i => by
    rw [coerceMoment]
    exact answers_single type _
  | .float x => by
    rw [coerceMoment]
    exact answers_single type _
  | .text s => by
    rw [coerceMoment]
    exact answers_single type _
  | .id o => by
    rw [coerceMoment]
    exact .refuse rfl
  | .object fs => by
    rw [coerceMoment]
    exact .refuse rfl
  | .member e n => by
    rw [coerceMoment]
    exact .refuse rfl

theorem answers_coerceMoments (type : String) :
    ∀ items : List Value, Answers (fun _ => True) (coerceMoments type items)
  | [] => by
    rw [coerceMoments]
    trivial
  | v :: rest => by
    rw [coerceMoments]
    refine (answers_coerceMoment type v).bind fun _ _ => ?_
    exact (answers_coerceMoments type rest).bind fun _ _ => trivial

theorem answers_single (type : String) (v : Value) :
    Answers (fun _ => True) (coerceMoment.single type v) := by
  rw [coerceMoment.single]
  split
  · trivial
  · exact .refuse rfl

end

/-- What stands for no identifier is refused. -/
theorem answers_toReference (v : Value) : Answers (fun _ => True) (toReference v) := by
  unfold toReference
  dsimp only
  split
  · trivial
  · exact .refuse rfl

theorem answers_coerceScalar (f : FieldDef) (v : Value) :
    Answers (fun _ => True) (coerceScalar f v) := by
  unfold coerceScalar
  split
  · trivial
  · split
    · exact (answers_toReference v).bind fun _ _ => trivial
    · split
      · exact answers_coerceMoment _ v
      · trivial

theorem answers_coerceScalars (f : FieldDef) (items : List Value) :
    Answers (fun _ => True) (coerceScalars f items) := by
  induction items with
  | nil => trivial
  | cons v rest ih =>
    exact (answers_coerceScalar f v).bind fun _ _ => ih.bind fun _ _ => trivial

/-! ## Lookups -/

/-- An entity that is not registered is refused. -/
theorem answers_lookup (r : Registry) (name : String) :
    Answers (fun d => Record.get? r.descriptors name = some d) (r.lookup name) := by
  rw [Registry.lookup]
  split
  · rename_i d hd
    exact hd
  · exact .refuse rfl

/-- A field without kind is refused. -/
theorem answers_kind (f : FieldDef) : Answers (fun _ => True) f.kind := by
  unfold FieldDef.kind
  repeat' split
  all_goals first | trivial | exact .refuse rfl

theorem answers_descriptor {τ S : Type} (x : Executor τ S) (entity : String) :
    Answers (fun _ => True) (x.descriptor entity) := by
  refine (answers_lookup x.registry entity).bind fun d _ => ?_
  split
  · trivial
  · exact .refuse rfl

end EntityGraph
