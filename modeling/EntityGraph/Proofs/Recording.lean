import EntityGraph.Proofs.Atomicity

/-!
# Keeping minutes

A service can be run with **minutes** beside its state (`Executor.recorded`). They list what occurs
in a write, in its order: every validator that runs, with what it is given and how it ends, and
every document that is filed. The one who keeps the minutes only listens. What a recorded action
does to the state and how it ends is what the action itself does, and the minutes grow at their end
(`Recorded`).
-/

namespace EntityGraph

variable {τ σ S α β : Type}

/-! ## Minutes -/

/-- **What occurs in a write**: a validator runs, which has its place among the validators of its
field or entity for the kind of operation, or a document is filed. -/
inductive Occurrence where
  /-- a validator of a field runs on an argument -/
  | field (operation : Operation) (entity field : String) (place : Nat) (argument : Value)
  /-- a validator of an entity runs on arguments and the document made of them -/
  | entity (operation : Operation) (entity : String) (place : Nat) (args : Value)
    (document : Document)
  /-- a new document is filed in a collection -/
  | filed (collection : String) (document : Document)

/-- What has occurred, each with how it ended: with a fault, or else with the document that it
handed on, as validators of entities do. -/
abbrev Minutes : Type := List (Occurrence × Outcome (Option Document))

/-- The fault of a computation that raises one. -/
def Outcome.fault? : Outcome α → Option Fault
  | .ok _ => none
  | .error e => some e

/-- Run an action and note its outcome. -/
def Action.noted (note : Outcome α → Minutes) (a : Action τ α) : Action (τ × Minutes) α :=
  ExceptT.mk fun q =>
    let (o, t) := a.run.run q.1
    (o, (t, q.2 ++ note o))

/-- A state with minutes beside it. -/
def Component.besideMinutes (τ : Type) : Component (τ × Minutes) τ :=
    ⟨Prod.fst, fun t q => (t, q.2)⟩

/-- A validator of a field that notes when it runs. -/
def FieldCheck.recorded (operation : Operation) (place : Nat) (check : FieldCheck τ S) :
    FieldCheck (τ × Minutes) S := fun entity field v s =>
  (check entity field v s).noted fun o =>
    [(.field operation entity field place v, o.map fun _ => none)]

/-- A validator of an entity that notes when it runs. -/
def EntityCheck.recorded (operation : Operation) (place : Nat) (check : EntityCheck τ S) :
    EntityCheck (τ × Minutes) S := fun entity args d s =>
  (check entity args d s).noted fun o => [(.entity operation entity place args d, o.map some)]

/-- The validators of user code, noting when they run. -/
def Behaviour.recorded (b : Behaviour τ S) : Behaviour (τ × Minutes) S where
  entity n :=
    { fieldChecks := fun operation f => ((b.entity n).fieldChecks operation f).zipIdx.map fun c =>
        c.1.recorded operation c.2
      entityChecks := fun operation => ((b.entity n).entityChecks operation).zipIdx.map fun c =>
        c.1.recorded operation c.2
      hooks := .none
      effect? := fun _ => none }
  mutation _ _ _ := throw .illTyped

/-- What is noted of a document that is to be filed: nothing, if it is not. -/
def Minutes.ofFiling (collection : String) : Outcome Document → Minutes
  | .ok stored => [(.filed collection stored, .ok none)]
  | .error _ => []

/-- A store that notes the documents that it files. -/
def DocumentStore.recorded (store : DocumentStore τ S) : DocumentStore (τ × Minutes) S :=
  { store.within (.besideMinutes τ) with
    create := fun n d s => (store.create n d s).noted (.ofFiling n) }

/-- **The service with minutes**, for services whose user code only validates. -/
def Executor.recorded (x : Executor τ S) : Executor (τ × Minutes) S where
  registry := x.registry
  behaviour := x.behaviour.recorded
  store := x.store.recorded
  policy := x.policy.within (.besideMinutes τ)

/-! ## Recorded runs -/

/-- **A recorded action** does what the action does and ends as it does. What is added to the
minutes is as `P` says of the outcome. -/
def Recorded (P : Minutes → Outcome α → Prop) (a' : Action (τ × Minutes) α)
    (a : Action τ α) : Prop :=
  ∀ t minutes, ∃ new, a'.run.run (t, minutes) =
    ((a.run.run t).1, ((a.run.run t).2, minutes ++ new)) ∧
    P new (a.run.run t).1

namespace Recorded

variable {P P' : Minutes → Outcome α → Prop} {Q : Minutes → Outcome β → Prop}
  {a' : Action (τ × Minutes) α} {a : Action τ α} {b' : Action (τ × Minutes) β} {b : Action τ β}

theorem mono (h : Recorded P a' a) (hP : ∀ new o, P new o → P' new o) : Recorded P' a' a := by
  intro t minutes
  obtain ⟨new, hrun, hnew⟩ := h t minutes
  exact ⟨new, hrun, hP _ _ hnew⟩

/-- The outcome is that of a run. -/
theorem ran (h : Recorded P a' a) :
    Recorded (fun new o => P new o ∧ ∃ t t', a.run.run t = (o, t')) a' a := fun t minutes => by
  obtain ⟨new, hrun, hnew⟩ := h t minutes
  exact ⟨new, hrun, hnew, t, _, rfl⟩

theorem noted (note : Outcome α → Minutes) (a : Action τ α) :
    Recorded (fun new o => new = note o) (a.noted note) a := fun _ _ => ⟨_, rfl, rfl⟩

/-- An action on the state alone leaves the minutes as they are. -/
theorem within (a : Action τ α) :
    Recorded (fun new _ => new = []) (a.within (.besideMinutes τ)) a :=
  fun t minutes => ⟨[], by rw [Action.run_within, List.append_nil]; rfl, rfl⟩

theorem pure {v : α} (hv : P [] (.ok v)) : Recorded P (pure v) (pure v : Action τ α) :=
  fun _ minutes => ⟨[], by rw [List.append_nil]; rfl, hv⟩

theorem throw {e : Fault} (he : P [] (.error e)) : Recorded P (throw e) (throw e : Action τ α) :=
  fun _ minutes => ⟨[], by rw [List.append_nil]; rfl, he⟩

theorem lift {o : Outcome α} (ho : P [] o) : Recorded P (liftM o) (liftM o : Action τ α) := by
  cases o with
  | error e => exact throw ho
  | ok v => exact pure ho

/-- **In sequence**: the first part ends early, or the second part takes over with what the first
one added. -/
theorem bind (ha : Recorded P a' a) {f' : α → Action (τ × Minutes) β} {f : α → Action τ β}
    (herror : ∀ new e, P new (.error e) → Q new (.error e))
    (hf : ∀ new v, P new (.ok v) → Recorded (fun new' => Q (new ++ new')) (f' v) (f v)) :
    Recorded Q (a' >>= f') (a >>= f) := by
  intro t minutes
  obtain ⟨new, hrun, hnew⟩ := ha t minutes
  rcases hr : a.run.run t with ⟨e | v, t₁⟩
  · rw [hr] at hrun hnew
    rw [Action.run_bind_error hrun, Action.run_bind_error hr]
    exact ⟨new, rfl, herror _ _ hnew⟩
  · rw [hr] at hrun hnew
    obtain ⟨new', hrun', hnew'⟩ := hf new v hnew t₁ (minutes ++ new)
    rw [Action.run_bind_ok hrun, Action.run_bind_ok hr, hrun', List.append_assoc]
    exact ⟨new ++ new', rfl, hnew'⟩

theorem lift_bind {o : Outcome β} {f' : β → Action (τ × Minutes) α} {f : β → Action τ α}
    (herror : ∀ e, o = .error e → P [] (.error e)) (hf : ∀ v, o = .ok v → Recorded P (f' v) (f v)) :
    Recorded P (liftM o >>= f') (liftM o >>= f) := by
  cases o with
  | error e => exact throw (herror e rfl)
  | ok v => exact hf v rfl

theorem guard {c : Prop} [Decidable c] {e : Fault} {f' : PUnit → Action (τ × Minutes) α}
    {f : PUnit → Action τ α} (he : P [] (.error e)) (hf : Recorded P (f' ⟨⟩) (f ⟨⟩)) :
    Recorded P (if c then MonadExcept.throw e >>= f' else f' ⟨⟩)
      (if c then MonadExcept.throw e >>= f else f ⟨⟩) := by
  split
  · exact throw he
  · exact hf

/-- What comes first adds nothing to the minutes. -/
theorem silent_bind (ha : Recorded (fun new _ => new = []) b' b) {f' : β → Action (τ × Minutes) α}
    {f : β → Action τ α} (herror : ∀ e, P [] (.error e)) (hf : ∀ v, Recorded P (f' v) (f v)) :
    Recorded P (b' >>= f') (b >>= f) :=
  ha.bind (fun _ e h => h ▸ herror e) fun _ v h => h ▸ hf v

theorem observe (ha : Recorded P a' a) :
    Recorded (fun new o => ∃ o', o = .ok o' ∧ P new o') a'.observe a.observe := by
  intro t minutes
  obtain ⟨new, hrun, hnew⟩ := ha t minutes
  refine ⟨new, ?_, _, rfl, hnew⟩
  rw [Action.run_observe, Action.run_observe, hrun]

end Recorded

end EntityGraph
