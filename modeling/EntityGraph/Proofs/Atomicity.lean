import EntityGraph.Proofs.Retry
import EntityGraph.Proofs.Session
import EntityGraph.Proofs.Tree

/-!
# Atomicity of writes

A call that writes runs in transactions of its own on the memory store. When it fails, the committed
documents are those before the call; when it returns, they are those before the call with the writes
of one attempt, the one that was committed. User code may do what it likes as long as it keeps to
the session that it is given (`Behaviour.Confined`).

The store is a part of the state that calls run on, and everything here is said through that part.
-/

namespace EntityGraph

open MemoryStore (InSession Quiet Wrote Frame)

variable {τ α : Type}

/-! ## Transactions on a part of the state -/

/-- The action `a` does with the part `p` of its state what `b` does, and gives the same. -/
def ActsOn {σ : Type} (p : τ → σ) (a : Action τ α) (b : Action σ α) : Prop :=
  ∀ t, (a.run.run t).1 = (b.run.run (p t)).1 ∧ p (a.run.run t).2 = (b.run.run (p t)).2

namespace ActsOn

variable {σ : Type} {p : τ → σ} {a : Action τ α} {b : Action σ α}

/-- A run seen on the part. -/
theorem run (h : ActsOn p a b) {t t' : τ} {r : Outcome α} (hr : a.run.run t = (r, t')) :
    b.run.run (p t) = (r, p t') := by
  obtain ⟨h₁, h₂⟩ := h t
  rw [hr] at h₁ h₂
  exact Prod.ext h₁.symm h₂.symm

/-- What moves the part moves the whole. -/
theorem moves (h : ActsOn p a b) {R : σ → σ → Prop} {Q : α → Prop} (hb : Moves R Q b) :
    Moves (fun t t' => R (p t) (p t')) Q a := by
  intro t
  obtain ⟨h₁, h₂⟩ := h t
  dsimp only
  rw [h₁, h₂]
  exact hb (p t)

/-- An action of a component acts on that component. -/
theorem within {c : Component τ σ} (hc : ∀ s t, c.get (c.set s t) = s) (b : Action σ α) :
    ActsOn c.get (b.within c) b := fun _ => ⟨rfl, hc _ _⟩

/-- Arguments beside the state do not matter. -/
theorem withArgs (h : ActsOn p a b) :
    ActsOn (fun q : τ × Value => p q.1) (a.within (.state τ)) b := fun q => h q.1

end ActsOn

/-- **Sessions of a memory store** that is the part `p` of the state. -/
structure SessionStore.OnMemory (p : τ → MemoryStore)
    (store : SessionStore τ SessionId) : Prop where
  start : ActsOn p store.start MemoryStore.startSession
  begin : ∀ s, ActsOn p (store.begin s) (MemoryStore.beginTransaction s)
  commit : ∀ s, ActsOn p (store.commit s) (MemoryStore.commitTransaction s)
  abort : ∀ s, ActsOn p (store.abort s) (MemoryStore.abortTransaction s)
  finish : ∀ s, ActsOn p (store.finish s) (MemoryStore.endSession s)

/-- Between two states nothing was done to the part `p` but to write in session `s`. -/
def KeepsTo (p : τ → MemoryStore) (s : SessionId) (t t' : τ) : Prop := InSession s (p t) (p t')

theorem KeepsTo.refl {p : τ → MemoryStore} {s : SessionId} (t : τ) : KeepsTo p s t t :=
  InSession.refl _

theorem KeepsTo.trans {p : τ → MemoryStore} {s : SessionId} (t t' t'' : τ) (h : KeepsTo p s t t')
    (h' : KeepsTo p s t' t'') : KeepsTo p s t t'' := InSession.trans h h'

/-- The action does nothing to the part `p` but to write in session `s`. -/
def Confined (p : τ → MemoryStore) (s : SessionId) (a : Action τ α) : Prop :=
  Moves (KeepsTo p s) (fun _ => True) a

/-- **A committed attempt** of a body that returns `v`, between the states `t` and `t'`: in session
`s` the body ran from `t₁` to `t₂` on a fresh copy of the committed documents and wrote `ws`.
Committed are then the documents before with these writes. -/
structure CommittedBy (p : τ → MemoryStore) (body : SessionId → Action τ α) (v : α) (t t' : τ)
    (s : SessionId) (t₁ t₂ : τ) (ws : List Write) : Prop where
  quiet : Quiet (p t) (p t₁)
  fresh : (p t₁).transaction? (some s) = some ⟨(p t).collections, []⟩
  ran : (body s).run.run t₁ = (.ok v, t₂)
  wrote : Wrote s ws (p t₁) (p t₂)
  same : (p t').collections.Same ((p t).collections.afterAll ws)
  /-- what is filed was filed before, or has an identifier that names it -/
  filed : ∀ name, ∀ e ∈ (p t').collections.get name, e ∈ (p t).collections.get name ∨
    ∃ id, (((p t).collections.afterAll ws).get name).get? id = some e.2
  commits : (p t').commits = (p t).commits + 1
  distinct : (p t').collections.Distinct

/-- Changes that stay quiet before and after do not hide which attempt was committed. -/
theorem CommittedBy.extend {p : τ → MemoryStore} {body : SessionId → Action τ α} {v : α}
    {t₀ t t' t'' : τ} {s : SessionId} {t₁ t₂ : τ} {ws : List Write}
    (hc : CommittedBy p body v t t' s t₁ t₂ ws) (h₀ : Quiet (p t₀) (p t))
    (h' : Quiet (p t') (p t'')) : CommittedBy p body v t₀ t'' s t₁ t₂ ws where
  quiet := h₀.trans hc.quiet
  fresh := h₀.1 ▸ hc.fresh
  ran := hc.ran
  wrote := hc.wrote
  same := by
    rw [h'.1, ← h₀.1]
    exact hc.same
  filed := by
    rw [h'.1, ← h₀.1]
    exact hc.filed
  commits := by rw [h'.2, hc.commits, h₀.2]
  distinct := h'.1 ▸ hc.distinct

namespace SessionStore

variable {p : τ → MemoryStore} {store : SessionStore τ SessionId} {policy : RetryPolicy τ}
  {body : SessionId → Action τ α}

/-- **One attempt** fails and leaves the committed documents, or it is the one that is committed.
The body has only filed writes, so that the transaction that it leaves open holds these over what
was committed. -/
theorem attempt_atomic (hstore : store.OnMemory p) {s : SessionId} (hbody : Confined p s (body s))
    {t t' : τ} {r : Outcome α} (hd : (p t).collections.Distinct)
    (h : (store.attempt body s).run.run t = (r, t')) :
    ((∃ e, r = .error e) ∧ Quiet (p t) (p t')) ∨
      ∃ v t₁ t₂ ws, r = .ok v ∧ (store.begin s).run.run t = (.ok (), t₁) ∧
        CommittedBy p body v t t' s t₁ t₂ ws ∧ (p t').lastId = (p t₂).lastId ∧
        ∃ x, (p t').sessions[s]? = some x ∧ x.transaction = none := by
  have hfail : ∀ e t₁, Quiet (p t) (p t₁) →
      (do store.abortQuietly s; throw e : Action τ α).run.run t₁ = (r, t') →
      (∃ e, r = .error e) ∧ Quiet (p t) (p t') := by
    intro e t₁ hq hr
    rw [abortQuietly, bind_assoc, Action.run_bind_ok (Action.run_observe _ _), pure_bind,
      Action.run_throw] at hr
    cases hr
    exact ⟨⟨e, rfl⟩,
      hq.trans (((hstore.abort s).moves (MemoryStore.quiet_abortTransaction s)) t₁).1⟩
  rw [attempt] at h
  rcases hb : (store.begin s).run.run t with ⟨e | ⟨⟩, t₁⟩
  · rw [Action.run_bind_error hb] at h
    cases h
    exact .inl ⟨⟨e, rfl⟩,
      ((hstore.begin s).moves (MemoryStore.quiet_beginTransaction s)).of_error hb⟩
  have hq₁ : Quiet (p t) (p t₁) :=
    (((hstore.begin s).moves (MemoryStore.quiet_beginTransaction s)).of_ok hb).1
  have hfresh := MemoryStore.run_beginTransaction ((hstore.begin s).run hb)
  rw [Action.run_bind_ok hb, Action.run_bind_ok (Action.run_observe _ _)] at h
  rcases hr : (body s).run.run t₁ with ⟨e | v, t₂⟩
  · rw [Action.run_bind_error hr] at h
    obtain ⟨ws, hw⟩ := hbody.of_error hr (by rw [hfresh]; rfl)
    exact .inl (hfail e t₂ (hq₁.trans hw.quiet) h)
  obtain ⟨ws, hw⟩ := (hbody.of_ok hr).1 (by rw [hfresh]; rfl)
  have hopen : (p t₂).transaction? (some s) =
      some (Transaction.afterAll ⟨(p t).collections, []⟩ ws) := by
    rw [hw.transaction?, hfresh]
    rfl
  rw [Action.run_bind_ok hr] at h
  rcases hc : (store.commit s).run.run t₂ with ⟨e | ⟨⟩, t₃⟩
  · rw [Action.run_bind_error hc] at h
    have hq : Quiet (p t₂) (p t₃) := by
      rcases MemoryStore.run_commitTransaction hopen ((hstore.commit s).run hc) with
        ⟨-, hq⟩ | ⟨he, -⟩
      · exact hq
      · cases he
    exact .inl (hfail e t₃ ((hq₁.trans hw.quiet).trans hq) h)
  · rw [Action.run_bind_ok hc] at h
    change (.ok v, t₃) = (r, t') at h
    cases h
    rcases MemoryStore.run_commitTransaction hopen ((hstore.commit s).run hc) with
      ⟨⟨e, he⟩, -⟩ | ⟨-, hcoll, hcommits, hlast, hclosed⟩
    · cases he
    have hq := hq₁.trans hw.quiet
    have hframe := (Frame.start hd).afterAll hw.keys
    rw [hq.1] at hcoll
    refine .inr ⟨v, t₁, t₂, ws, rfl, rfl, ?_, hlast, hclosed⟩
    refine ⟨hq₁, hfresh, hr, hw, ?_, fun name e he => ?_, by rw [hcommits, hq.2], ?_⟩
    · rw [hcoll, ← Transaction.working_afterAll ⟨(p t).collections, []⟩ ws]
      exact MemoryStore.publish_same hd hframe
    · rw [hcoll] at he
      rw [← Transaction.working_afterAll ⟨(p t).collections, []⟩ ws]
      refine (MemoryStore.mem_publish _ he).imp_right fun hpublished => ?_
      obtain ⟨id, -, hnamed⟩ := hpublished
      exact ⟨id, hnamed⟩
    · rw [hcoll]
      exact MemoryStore.distinct_publish hd hframe

/-- **A round that fails**, the one with the given number: in a session of its own the attempt fails
in a way that asks for another one, and the session ends after a pause. -/
def FailedRound (store : SessionStore τ SessionId) (policy : RetryPolicy τ)
    (body : SessionId → Action τ α) (number : Nat) (t t' : τ) : Prop :=
  ∃ s t₁ e t₂ t₃, store.start.run.run t = (.ok s, t₁) ∧
    (store.attempt body s).run.run t₁ = (.error e, t₂) ∧ e.isTransient = true ∧
    (do
      let d ← policy.backoff number
      policy.sleep d : Action τ Unit).run.run t₂ = (.ok (), t₃) ∧
    (store.finish s).run.run t₃ = (.ok (), t')

/-- **Rounds that fail** one after the other, as many as the second number says, the first one being
numbered by the first. -/
inductive FailedRounds (store : SessionStore τ SessionId) (policy : RetryPolicy τ)
    (body : SessionId → Action τ α) : Nat → Nat → τ → τ → Prop
  | none (number : Nat) (t : τ) : FailedRounds store policy body number 0 t t
  | cons {number n : Nat} {t t₁ t₂ : τ} : FailedRound store policy body number t t₁ →
      FailedRounds store policy body (number + 1) n t₁ t₂ →
      FailedRounds store policy body number (n + 1) t t₂

/-- **A session is opened** between two states, and a transaction begins in it. -/
def Opens (store : SessionStore τ SessionId) (s : SessionId) (t t' : τ) : Prop :=
  ∃ t₁, store.start.run.run t = (.ok s, t₁) ∧ (store.begin s).run.run t₁ = (.ok (), t')

/-- **One round** of the loop settles the outcome, or it fails and leaves the committed documents to
the next one. The pause leaves the store alone, also when the backoff has no value, and the session
ends before a failure of the pause is raised. -/
theorem runFrom_round (hstore : store.OnMemory p)
    (hsleep : ∀ d t, p ((policy.sleep d).run.run t).2 = p t)
    (hbody : ∀ s, Confined p s (body s)) {left number : Nat} {t t' : τ} {r : Outcome α}
    (hd : (p t).collections.Distinct)
    (h : (store.runFrom policy body left number).run.run t = (r, t')) :
    (((∃ e, r = .error e) ∧ Quiet (p t) (p t')) ∨
      ∃ v s t₁ t₂ ws, r = .ok v ∧ store.Opens s t t₁ ∧ CommittedBy p body v t t' s t₁ t₂ ws ∧
        (p t').lastId = (p t₂).lastId) ∨
    ∃ left' t₀, left = left' + 1 ∧ Quiet (p t) (p t₀) ∧ FailedRound store policy body number t t₀ ∧
      (store.runFrom policy body left' (number + 1)).run.run t₀ = (r, t') := by
  have hfinish : ∀ s, Moves (fun t t' => Quiet (p t) (p t')) (fun _ => True) (store.finish s) :=
    fun s => (hstore.finish s).moves (MemoryStore.quiet_endSession s)
  have hstart := hstore.start.moves MemoryStore.quiet_startSession
  rcases hs : store.start.run.run t with ⟨e | s, t₁⟩
  · rw [runFrom, Action.run_bind_error hs] at h
    cases h
    exact .inl (.inl ⟨⟨e, rfl⟩, hstart.of_error hs⟩)
  have hq₁ : Quiet (p t) (p t₁) := (hstart.of_ok hs).1
  rcases ha : (store.attempt body s).run.run t₁ with ⟨a, t₂⟩
  rcases attempt_atomic hstore (hbody s) (hq₁.1 ▸ hd) ha with
    ⟨⟨e, rfl⟩, hq₂⟩ | ⟨v, tb, tv, ws, rfl, hbegin, hc, hlast, x, hx, -⟩
  · have hq := hq₁.trans hq₂
    by_cases hlast : e.isTransient = false ∨ left = 0
    · left
      left
      rw [run_runFrom_error hs ha hlast] at h
      rcases hf : (store.finish s).run.run t₂ with ⟨f | ⟨⟩, t₃⟩
      · rw [Action.run_bind_error hf] at h
        cases h
        exact ⟨⟨f, rfl⟩, hq.trans ((hfinish s).of_error hf)⟩
      · rw [Action.run_bind_ok hf] at h
        cases h
        exact ⟨⟨_, rfl⟩, hq.trans ((hfinish s).of_ok hf).1⟩
    · rw [not_or, Bool.not_eq_false] at hlast
      obtain ⟨left', rfl⟩ := Nat.exists_eq_succ_of_ne_zero hlast.2
      rw [run_runFrom_again hs ha hlast.1, Action.run_bind_ok (Action.run_observe _ _)] at h
      have hpause : p (((do
          let d ← policy.backoff number
          policy.sleep d : Action τ Unit)).run.run t₂).2 = p t₂ := by
        rw [Action.run_bind, Action.run_lift]
        rcases policy.backoff number with e | d
        · rfl
        · exact hsleep d t₂
      rcases hr : (do
          let d ← policy.backoff number
          policy.sleep d : Action τ Unit).run.run t₂ with ⟨pause, t₃⟩
      have hpaused := hr
      rw [hr] at h hpause
      have hq₃ : Quiet (p t) (p t₃) := by
        rw [hpause]
        exact hq
      rcases hf : (store.finish s).run.run t₃ with ⟨f | ⟨⟩, t₄⟩
      · rw [Action.run_bind_error hf] at h
        cases h
        exact .inl (.inl ⟨⟨f, rfl⟩, hq₃.trans ((hfinish s).of_error hf)⟩)
      · rw [Action.run_bind_ok hf] at h
        have hq₄ := hq₃.trans ((hfinish s).of_ok hf).1
        rcases pause with e' | ⟨⟩
        · cases h
          exact .inl (.inl ⟨⟨e', rfl⟩, hq₄⟩)
        · exact .inr ⟨left', t₄, rfl, hq₄, ⟨s, t₁, e, t₂, t₃, hs, ha, hlast.1, hpaused, hf⟩, h⟩
  · left
    right
    rw [run_runFrom_ok hs ha] at h
    obtain ⟨m', hend, hsame⟩ := MemoryStore.run_endSession hx
    rcases hf : (store.finish s).run.run t₂ with ⟨f | ⟨⟩, t₃⟩
    · have := (hstore.finish s).run hf
      rw [hend] at this
      cases this
    · rw [Action.run_bind_ok hf] at h
      cases h
      obtain ⟨-, rfl⟩ := Prod.mk.inj (hend.symm.trans ((hstore.finish s).run hf))
      exact ⟨v, s, tb, tv, ws, rfl, ⟨t₁, hs, hbegin⟩, hc.extend hq₁ ((hfinish s).of_ok hf).1,
        hsame.trans hlast⟩

/-- **Attempts until one succeeds** fail and leave the committed documents, or one of them is
committed after the others have failed. -/
theorem runFrom_atomic (hstore : store.OnMemory p)
    (hsleep : ∀ d t, p ((policy.sleep d).run.run t).2 = p t)
    (hbody : ∀ s, Confined p s (body s)) (left number : Nat) {t t' : τ} {r : Outcome α}
    (hd : (p t).collections.Distinct)
    (h : (store.runFrom policy body left number).run.run t = (r, t')) :
    ((∃ e, r = .error e) ∧ Quiet (p t) (p t')) ∨
      ∃ v n t₀ s t₁ t₂ ws, r = .ok v ∧ n ≤ left ∧ FailedRounds store policy body number n t t₀ ∧
        store.Opens s t₀ t₁ ∧ CommittedBy p body v t t' s t₁ t₂ ws ∧
        (p t').lastId = (p t₂).lastId := by
  induction left generalizing number t with
  | zero =>
    rcases runFrom_round hstore hsleep hbody hd h with
      (hfail | ⟨v, s, t₁, t₂, ws, hr, hopens, hc, hlast⟩) | ⟨left', -, hleft, -⟩
    · exact .inl hfail
    · exact .inr ⟨v, 0, t, s, t₁, t₂, ws, hr, le_rfl, .none number t, hopens, hc, hlast⟩
    · cases hleft
  | succ left ih =>
    rcases runFrom_round hstore hsleep hbody hd h with
      (hfail | ⟨v, s, t₁, t₂, ws, hr, hopens, hc, hlast⟩) | ⟨left', t₀, hleft, hq, hround, hrest⟩
    · exact .inl hfail
    · exact .inr ⟨v, 0, t, s, t₁, t₂, ws, hr, Nat.zero_le _, .none number t, hopens, hc, hlast⟩
    · cases hleft
      rcases ih (number + 1) (hq.1 ▸ hd) hrest with
        ⟨he, hq'⟩ | ⟨v, n, t₁, s, t₂, t₃, ws, hr, hn, hrounds, hopens, hc, hlast⟩
      · exact .inl ⟨he, hq.trans hq'⟩
      · exact .inr ⟨v, n + 1, t₁, s, t₂, t₃, ws, hr, Nat.succ_le_succ hn, .cons hround hrounds,
          hopens, hc.extend hq (Quiet.refl _), hlast⟩

end SessionStore

/-! ## User code that keeps to its session -/

/-- Operations that keep to session `s` when they are given it. -/
structure Operations.Confined (p : τ → MemoryStore) (s : SessionId) (ops : Operations τ SessionId) :
    Prop where
  save : ∀ entity args, EntityGraph.Confined p s (ops.save entity args (some s))
  update : ∀ entity args, EntityGraph.Confined p s (ops.update entity args (some s))
  delete : ∀ entity id, EntityGraph.Confined p s (ops.delete entity id (some s))
  changeState : ∀ entity action args,
    EntityGraph.Confined p s (ops.changeState entity action args (some s))

/-- **User code of an entity that keeps to its session**: whatever it does and however it ends, all
that it does to the store is to write in the session that it is given, itself or through operations
that keep to that session. -/
structure EntityBehaviour.Confined (p : τ → MemoryStore)
    (b : EntityBehaviour τ SessionId) : Prop where
  fieldChecks : ∀ operation f, ∀ check ∈ b.fieldChecks operation f,
    ∀ entity field v s, EntityGraph.Confined p s (check entity field v s)
  entityChecks : ∀ operation, ∀ check ∈ b.entityChecks operation,
    ∀ entity args d s, EntityGraph.Confined p s (check entity args d s)
  onSaving : ∀ ops d args s, ops.Confined p s →
    EntityGraph.Confined p s (b.hooks.onSaving ops d args s)
  onSaved : ∀ ops d args s, ops.Confined p s →
    EntityGraph.Confined p s (b.hooks.onSaved ops d args s)
  onUpdating : ∀ ops id d args s, ops.Confined p s →
    EntityGraph.Confined p s (b.hooks.onUpdating ops id d args s)
  onUpdated : ∀ ops d args s, ops.Confined p s →
    EntityGraph.Confined p s (b.hooks.onUpdated ops d args s)
  onDelete : ∀ ops d s, ops.Confined p s → EntityGraph.Confined p s (b.hooks.onDelete ops d s)
  effect : ∀ action effect, b.effect? action = some effect → ∀ ops s, ops.Confined p s →
    EntityGraph.Confined (fun q : τ × Value => p q.1) s (effect ops s)

/-- **User code that keeps to its session**, that of every entity and the custom mutations. -/
structure Behaviour.Confined (p : τ → MemoryStore) (b : Behaviour τ SessionId) : Prop where
  entity : ∀ n, (b.entity n).Confined p
  mutation : ∀ n ops s, ops.Confined p s →
    EntityGraph.Confined (fun q : τ × Value => p q.1) s (b.mutation n ops s)

/-- **A memory store** that is the part `p` of the state. -/
structure DocumentStore.OnMemory (p : τ → MemoryStore) (store : DocumentStore τ SessionId) :
    Prop where
  sessions : store.toSessionStore.OnMemory p
  create : ∀ n d s, ActsOn p (store.create n d s) (MemoryStore.create n d s)
  findById : ∀ n id s, ActsOn p (store.findById n id s) (MemoryStore.findById n id s)
  update : ∀ n id u s, ActsOn p (store.update n id u s) (MemoryStore.update n id u s)
  delete : ∀ n id s, ActsOn p (store.delete n id s) (MemoryStore.delete n id s)

theorem MemoryStore.onMemory_within {c : Component τ MemoryStore}
    (hc : ∀ s t, c.get (c.set s t) = s) :
    (MemoryStore.documentStore.within c).OnMemory c.get where
  sessions := ⟨.within hc _, fun _ => .within hc _, fun _ => .within hc _, fun _ => .within hc _,
    fun _ => .within hc _⟩
  create := fun _ _ _ => .within hc _
  findById := fun _ _ _ => .within hc _
  update := fun _ _ _ _ => .within hc _
  delete := fun _ _ _ => .within hc _

namespace Executor

variable {p : τ → MemoryStore} {x : Executor τ SessionId} {ops : Operations τ SessionId}
  {s : SessionId}

/-- Arguments beside the state stay out of the store. -/
theorem confined_state {a : Action τ α} (h : Confined p s a) :
    Confined (fun q : τ × Value => p q.1) s (a.within (.state τ)) :=
  Moves.within h fun _ _ hR => hR

theorem confined_withArguments {a : Action (τ × Value) α}
    (h : Confined (fun q : τ × Value => p q.1) s a) (args : Value) :
    Confined p s (Action.withArguments args a) := fun t => h (t, args)

/-- **Sequencing** what stays in its session. -/
theorem confined_bind {β : Type} {a : Action τ α} {f : α → Action τ β} (ha : Confined p s a)
    (hf : ∀ v, Confined p s (f v)) : Confined p s (a >>= f) :=
  Moves.bind KeepsTo.trans ha fun v _ => hf v

theorem confined_lift {β : Type} {o : Outcome α} {f : α → Action τ β}
    (hf : ∀ v, Confined p s (f v)) : Confined p s (liftM o >>= f) :=
  Moves.lift_bind KeepsTo.refl fun v _ => hf v

theorem confined_pure (v : α) : Confined p s (pure v : Action τ α) :=
  Moves.pure KeepsTo.refl trivial

theorem confined_throw (e : Fault) : Confined p s (throw e : Action τ α) :=
  Moves.throw KeepsTo.refl e

theorem confined_guard {c : Prop} [Decidable c] {e : Fault} {f : PUnit → Action τ α}
    (hf : Confined p s (f ⟨⟩)) : Confined p s (if c then throw e >>= f else f ⟨⟩) :=
  Moves.guard KeepsTo.refl fun _ => hf

/-- Validators that keep to the session. -/
theorem checked_of_checks
    (hfield : ∀ n operation f, ∀ check ∈ (x.behaviour.entity n).fieldChecks operation f,
      ∀ entity field v s, Confined p s (check entity field v s))
    (hentity : ∀ n operation, ∀ check ∈ (x.behaviour.entity n).entityChecks operation,
      ∀ entity args d s, Confined p s (check entity args d s)) (operation : Operation) :
    (x.materializer operation s).Checked (KeepsTo p s) :=
  .of_checks KeepsTo.refl KeepsTo.trans (fun n f check hcheck v =>
    hfield n operation f check hcheck n f v s) fun n check hcheck args d =>
      hentity n operation check hcheck n args d s

theorem checked_of_confined (hb : ∀ n, (x.behaviour.entity n).Confined p) (operation : Operation) :
    (x.materializer operation s).Checked (KeepsTo p s) :=
  checked_of_checks (fun n => (hb n).fieldChecks) (fun n => (hb n).entityChecks) operation

/-- **Trees of writes** keep to the session. -/
theorem writeRules_of_confined (hstore : x.store.OnMemory p)
    (hb : ∀ n, (x.behaviour.entity n).Confined p) (hops : ops.Confined p s) :
    WriteRules x ops s (KeepsTo p s) (fun _ _ _ => True) (fun _ _ _ => True) where
  refl := KeepsTo.refl
  trans := KeepsTo.trans
  children := fun _ _ _ _ _ _ _ _ _ _ _ => ⟨fun _ _ => trivial, fun _ _ => trivial⟩
  save := by
    intro d link args _ hdeltas
    rw [saveIn]
    refine confined_bind (Materializer.moves_materialize (checked_of_confined hb _) _ _ _)
      fun m => ?_
    refine confined_bind ((hb _).onSaving _ _ _ _ hops) fun document => ?_
    refine confined_bind ((hstore.create _ _ _).moves (InSession.create _ _)) fun stored => ?_
    refine confined_lift fun id => ?_
    exact confined_bind (hdeltas id) fun _ => (hb _).onSaved _ _ _ _ hops
  update := by
    intro d link args _ hdeltas
    rw [updateIn]
    refine confined_lift fun rawId => ?_
    refine confined_guard ?_
    refine confined_lift fun o => ?_
    refine confined_bind (Materializer.moves_materialize (checked_of_confined hb _) _ _ _)
      fun m => ?_
    refine confined_bind (hdeltas _) fun _ => ?_
    refine confined_bind ((hstore.findById _ _ _).moves (InSession.findById _ _)) fun found => ?_
    split
    · exact confined_throw _
    · refine confined_lift fun changes => ?_
      refine confined_bind ((hb _).onUpdating _ _ _ _ _ hops) fun edited => ?_
      dsimp only
      generalize updateParts (if changes.isEmpty then none else some edited) m.unset = parts
      split
      · exact (hb _).onUpdated _ _ _ _ hops
      · refine confined_bind ((hstore.update _ _ _ _).moves (InSession.update _ _ _)) fun _ => ?_
        exact (hb _).onUpdated _ _ _ _ hops

/-- Saving stays in its session. -/
theorem confined_saveIn (hstore : x.store.OnMemory p) (hb : ∀ n, (x.behaviour.entity n).Confined p)
    (hops : ops.Confined p s) (d : Descriptor) (link : Option ParentLink) (args : Value) :
    Confined p s (x.saveIn ops d link s args) :=
  (writeRules_of_confined hstore hb hops).moves_saveIn d link args trivial

theorem confined_updateIn (hstore : x.store.OnMemory p)
    (hb : ∀ n, (x.behaviour.entity n).Confined p) (hops : ops.Confined p s) (d : Descriptor)
    (link : Option ParentLink) (args : Value) :
    Confined p s (x.updateIn ops d link s args) :=
  (writeRules_of_confined hstore hb hops).moves_updateIn d link args trivial

theorem confined_deleteIn (hstore : x.store.OnMemory p)
    (hb : ∀ n, (x.behaviour.entity n).Confined p) (hops : ops.Confined p s) (d : Descriptor)
    (target : Value) :
    Confined p s (x.deleteIn ops d s target) := by
  refine confined_guard ?_
  refine confined_lift fun o => ?_
  refine confined_bind (Materializer.moves_materialize (checked_of_confined hb _) _ _ _)
    fun m => ?_
  refine confined_bind ((hstore.findById _ _ _).moves (InSession.findById _ _)) fun found => ?_
  split
  · exact confined_throw _
  · refine confined_bind ((hb _).onDelete _ _ _ hops) fun _ => ?_
    exact (hstore.delete _ _ _).moves (InSession.delete _ _)

/-- State actions stay in their session, whatever they do to their arguments. -/
theorem confined_changeStateIn (hstore : x.store.OnMemory p)
    (hb : ∀ n, (x.behaviour.entity n).Confined p) (hops : ops.Confined p s) (d : Descriptor)
    (name : String) (action : StateAction) :
    Confined (fun q : τ × Value => p q.1) s (x.changeStateIn ops d name action s) := by
  have hargs : Confined (fun q : τ × Value => p q.1) s currentArguments :=
    confined_bind (Moves.get KeepsTo.refl) fun q => confined_pure q.2
  refine confined_bind hargs fun args => ?_
  refine confined_lift fun rawId => ?_
  refine confined_guard ?_
  refine confined_lift fun o => ?_
  refine confined_bind (confined_state ((hstore.findById _ _ _).moves (InSession.findById _ _)))
    fun found => ?_
  split
  · exact confined_throw _
  · refine confined_guard ?_
    have hupdate : ∀ fs, Confined (fun q : τ × Value => p q.1) s
        ((x.updateIn ops d none s (.object fs)).within (.state τ)) := fun fs =>
      confined_state (confined_updateIn hstore hb hops d none _)
    split
    · rename_i effect heffect
      refine confined_bind ((hb _).effect _ effect heffect _ _ hops) fun _ => ?_
      refine confined_bind hargs fun edited => ?_
      split
      · exact hupdate _
      · exact confined_throw _
    · refine confined_bind hargs fun edited => ?_
      split
      · exact hupdate _
      · exact confined_throw _

/-- **Operations keep to the session** when the operations that user code is given do. -/
theorem confined_operationsOver (hstore : x.store.OnMemory p)
    (hb : ∀ n, (x.behaviour.entity n).Confined p) (hops : ops.Confined p s) :
    (x.operationsOver ops).Confined p s where
  save := fun _ args => confined_lift fun d =>
    confined_bind (confined_saveIn hstore hb hops d none args) fun _ => confined_pure _
  update := fun _ args => confined_lift fun d =>
    confined_bind (confined_updateIn hstore hb hops d none args) fun _ => confined_pure _
  delete := fun _ id => confined_lift fun d =>
    confined_bind (confined_deleteIn hstore hb hops d id) fun _ => confined_pure _
  changeState := fun _ action args => confined_lift fun d => confined_lift fun a =>
    confined_bind (confined_withArguments (confined_changeStateIn hstore hb hops d action a) args)
      fun _ => confined_pure _

theorem confined_operationsTo (hstore : x.store.OnMemory p)
    (hb : ∀ n, (x.behaviour.entity n).Confined p) (s : SessionId) (depth : Nat) :
    (x.operationsTo depth).Confined p s := by
  induction depth with
  | zero => exact ⟨fun _ _ => confined_throw _, fun _ _ => confined_throw _,
      fun _ _ => confined_throw _, fun _ _ _ => confined_throw _⟩
  | succ depth ih => exact confined_operationsOver hstore hb ih

end Executor

/-! ## Calls -/

/-- A call that writes. -/
inductive WriteCall where
  | add (entity : String) (args : Value)
  | update (entity : String) (args : Value)
  | delete (entity : String) (id : Value)
  /-- a state action -/
  | act (entity action : String) (args : Value)
  /-- a custom mutation -/
  | custom (name : String) (args : Value)

namespace WriteCall

/-- Run a call in a session, or else in transactions of its own. -/
def run {S : Type} (x : Executor τ S) (session : Option S) : WriteCall → Action τ Value
  | add entity args => x.operations.save entity args session
  | update entity args => x.operations.update entity args session
  | delete entity id => x.operations.delete entity id session
  | act entity action args => x.operations.changeState entity action args session
  | custom name args => x.runMutation name args session

end WriteCall

namespace Executor

variable {p : τ → MemoryStore} {x : Executor τ SessionId} {t t' : τ}

/-- No identifier is made after the body of the attempt that is committed. -/
theorem transact_numbered (hstore : x.store.OnMemory p)
    (hsleep : ∀ d t, p ((x.policy.sleep d).run.run t).2 = p t) {body : SessionId → Action τ α}
    (hbody : ∀ s, Confined p s (body s)) (hd : (p t).collections.Distinct) {r : Outcome α}
    (h : (x.transact body none).run.run t = (r, t')) :
    ((∃ e, r = .error e) ∧ Quiet (p t) (p t')) ∨
      ∃ v s t₁ t₂ ws, r = .ok v ∧ CommittedBy p body v t t' s t₁ t₂ ws ∧
        (p t').lastId = (p t₂).lastId := by
  rcases SessionStore.runFrom_atomic hstore.sessions hsleep hbody _ _ hd h with
    hfail | ⟨v, n, t₀, s, t₁, t₂, ws, hv, -, -, -, hc, hlast⟩
  · exact .inl hfail
  · exact .inr ⟨v, s, t₁, t₂, ws, hv, hc, hlast⟩

theorem transact_atomic (hstore : x.store.OnMemory p)
    (hsleep : ∀ d t, p ((x.policy.sleep d).run.run t).2 = p t) {body : SessionId → Action τ α}
    (hbody : ∀ s, Confined p s (body s)) (hd : (p t).collections.Distinct) {r : Outcome α}
    (h : (x.transact body none).run.run t = (r, t')) :
    ((∃ e, r = .error e) ∧ Quiet (p t) (p t')) ∨
      ∃ v s t₁ t₂ ws, r = .ok v ∧ CommittedBy p body v t t' s t₁ t₂ ws := by
  rcases transact_numbered hstore hsleep hbody hd h with hfail | ⟨v, s, t₁, t₂, ws, hv, hc, -⟩
  · exact .inl hfail
  · exact .inr ⟨v, s, t₁, t₂, ws, hv, hc⟩

end Executor

end EntityGraph
