import EntityGraph.Proofs.Admission
import EntityGraph.Proofs.Overlap
import EntityGraph.Proofs.SoundStore
import EntityGraph.Proofs.Transparency

/-!
# A store that is ready to serve

The memory store is **ready** (`MemoryStore.Ready`) when no conflict is injected and every document
is filed under its own identifier. A session **works** on it (`MemoryStore.Working`) while it has a
transaction open whose private copy is in the same order. What a write does in the session then
answers or refuses, and leaves the session working: creating a document that brings no foreign
identifier (`serves_create`), changing one that was found in a way that leaves its identifier alone
(`served_update`), removing one (`served_delete`). A transaction over a body that serves leaves the
store ready and ends as its first attempt does (`SessionStore.serves_transact`), since a refusal is
never followed by another attempt.
-/

namespace EntityGraph

variable {τ α : Type}

/-! ## Documents in order -/

/-- Collections in which every document is filed under its own identifier. -/
def Collections.Filed (cs : Collections) : Prop := ∀ name, ∀ e ∈ cs.get name, Collection.Filed e

/-- A write that files a document under its own identifier, if it files one. -/
def Write.Files (w : Write) : Prop :=
  ∀ d, w.document = some d → ∃ o, w.id = .id o ∧ Record.get? d "_id" = some (.id o)

namespace Collections.Filed

variable {cs : Collections}

/-- A write that files leaves every document filed. -/
theorem after (h : cs.Filed) {w : Write} (hw : w.Files) : (cs.after w).Filed := by
  intro name e he
  obtain ⟨collection, id, document⟩ := w
  unfold Collections.after at he
  by_cases hname : collection = name
  · subst hname
    cases document with
    | some d =>
      obtain ⟨o, hid, hd⟩ := hw d rfl
      obtain rfl : id = .id o := hid
      rw [MemoryStore.get_writeTo_some] at he
      exact Collection.filed_put (h collection) hd e he
    | none =>
      rw [MemoryStore.get_writeTo_none] at he
      exact h collection e ((Collection.erase_sublist _ _).subset he)
  · rw [MemoryStore.get_writeTo_of_ne hname] at he
    exact h name e he

/-- Publishing does, when the private copy is filed. -/
theorem publish (h : cs.Filed) {t : Transaction} (ht : t.working.Filed) :
    (MemoryStore.publish t cs).Filed :=
  fun name => filed_publish (ht name) (h name)

end Collections.Filed

namespace MemoryStore

variable {m m' : MemoryStore} {s : SessionId} {collection : String}

/-! ## Stores in order -/

/-- **A store that is ready**: no conflict is injected, and every document is filed under its own
identifier. -/
structure Ready (m : MemoryStore) : Prop where
  calm : m.Calm
  filed : m.collections.Filed

/-- **A session at work** on a store that is ready: its transaction is open, on a private copy in
the same order. -/
structure Working (s : SessionId) (m : MemoryStore) : Prop extends m.Ready where
  working : ∃ t, m.transaction? (some s) = some t ∧ t.working.Filed

theorem Ready.empty {m : MemoryStore} (hcalm : m.Calm) (h : ∀ name, m.collections.get name = []) :
    m.Ready where
  calm := hcalm
  filed := fun name e he => by
    rw [h name] at he
    cases he

/-- Opening a session prepares a ready store for work. -/
theorem Ready.opened (h : m.Ready) (ho : Opened s m m') : m'.Working s where
  calm := h.calm.of_failures ho.failures
  filed := by
    rw [ho.uncommitted.collections]
    exact h.filed
  working := ⟨_, ho.transaction, h.filed⟩

/-- A session that is left leaves the store ready. -/
theorem Ready.left (h : m.Ready) (hl : Left s m m') : m'.Ready where
  calm := h.calm.of_failures hl.failures
  filed := by
    rw [hl.uncommitted.collections]
    exact h.filed

/-- Publishing leaves the store ready. -/
theorem Ready.published (h : m.Ready) {t : Transaction} (ht : t.working.Filed)
    (hp : Published s t m m') :
    m'.Ready where
  calm := h.calm.of_failures hp.failures
  filed := by
    rw [hp.collections]
    exact h.filed.publish ht

/-- What a session sees is filed. -/
theorem Working.view (h : m.Working s) (name : String) :
    ∀ e ∈ (m.view (some s)).get name, Collection.Filed e := by
  obtain ⟨t, ht, hfiled⟩ := h.working
  rw [view_of_open ht]
  exact hfiled name

theorem Working.numbered (h : m.Working s) : m.numbered.Working s := ⟨⟨h.calm, h.filed⟩, h.working⟩

theorem Working.after (h : m.Working s) {w : Write} (hw : w.Files) :
    (m.after (some s) w).Working s := by
  obtain ⟨t, ht, hfiled⟩ := h.working
  refine ⟨⟨h.calm.of_failures failures_after, ?_⟩, t.after w, ?_, hfiled.after hw⟩
  · rw [collections_after, ht]
    exact h.filed
  · rw [transaction?_after, if_pos rfl, ht]
    rfl

/-! ## Operations of a session -/

/-- The check of unique paths passes or refuses. -/
theorem answers_checkUnique {c : Collection} (hc : ∀ e ∈ c, Collection.Filed e) {d : Document}
    {o : ObjectId} (hid : Record.get? d "_id" = some (.id o)) (name : String)
    (paths : List String) :
    Answers (fun _ => True) (checkUnique c name d paths) := by
  induction paths with
  | nil => trivial
  | cons path rest ih =>
    rw [checkUnique]
    split
    · exact ih
    · rw [hid]
      dsimp only
      rw [holdsValue_eq hc, Outcome.ok_bind]
      exact .guard rfl fun _ => ih

/-- A creation files the document under its own identifier, or is refused. -/
theorem answers_filing (h : m.Working s) {d : Document} (hd : IdGiven d) :
    Answers (fun w => w.Files) (m.filing collection d (some s)) := by
  obtain ⟨o, hid⟩ := get?_id_filed (m := m) hd
  unfold filing
  dsimp only
  rw [hid, Option.getD_some, if_neg (show ¬ (!(Value.id o).isKey) = true from Bool.false_ne_true)]
  refine .guard rfl fun _ => ?_
  refine (answers_checkUnique (h.view collection) hid collection _).bind fun _ _ => ?_
  rintro _ ⟨⟩
  exact ⟨o, rfl, hid⟩

/-- **Creation** in a session: a document with an identifier, or a refusal. -/
theorem serves_create {d : Document} (hd : IdGiven d) :
    Serves (Working s) (fun stored => ∃ id, Record.get? stored "_id" = some id)
    (create collection d (some s)) := by
  intro m h
  rw [run_create_eq, if_neg (h.calm "create")]
  have hfiling : Answers (fun w => w.Files) (m.filing collection d (some s)) := answers_filing h hd
  rcases hw : m.filing collection d (some s) with e | w <;> rw [hw] at hfiling
  · exact ⟨h.numbered, hfiling⟩
  · exact ⟨h.numbered.after hfiling, exists_id_filed m d⟩

/-- Looking up an identifier in a session. -/
theorem run_findById_id (m : MemoryStore) (collection : String) (o : ObjectId) :
    (findById collection (.id o) (some s)).run.run m =
      (.ok (((m.view (some s)).get collection).get? (.id o)), m) := rfl

/-- **Change** of a document that was found, by an update that leaves its identifier alone. -/
theorem served_update (h : m.Working s) {o : ObjectId} {current updated : Document} {change : Value}
    (hfound : ((m.view (some s)).get collection).get? (.id o) = some current)
    (hupdate : applyUpdate change current = .ok updated)
    (hid : Record.get? updated "_id" = some (.id o)) :
    Served (Working s) (fun d => d.isSome = true)
    ((update collection (.id o) change (some s)).run.run m) := by
  have hchanging : Answers (fun w => ∃ w', w = some w' ∧ w'.document.isSome = true ∧ w'.Files)
      (m.changing collection (.id o) change (some s)) := by
    have hlookup : m.lookupId (some s) collection (.id o) = .ok (some current) := by
      rw [lookupId, hfound]
      rfl
    rw [changing, hlookup, Outcome.ok_bind]
    dsimp only
    rw [hupdate, Outcome.ok_bind]
    refine (answers_checkUnique (h.view collection) hid collection _).bind fun _ _ => ?_
    refine ⟨_, rfl, rfl, ?_⟩
    rintro _ ⟨⟩
    exact ⟨o, rfl, hid⟩
  rw [run_update_eq, if_neg (h.calm "update")]
  rcases hw : m.changing collection (.id o) change (some s) with e | w <;> rw [hw] at hchanging
  · exact ⟨h, hchanging⟩
  · obtain ⟨w, rfl, hsome, hfiles⟩ := hchanging
    exact ⟨h.after hfiles, hsome⟩

/-- **Removal** of a document that was found. -/
theorem served_delete (h : m.Working s) {o : ObjectId} {current : Document}
    (hfound : ((m.view (some s)).get collection).get? (.id o) = some current) :
    Served (Working s) (fun d => d.isSome = true)
    ((delete collection (.id o) (some s)).run.run m) := by
  have hlookup : m.lookupId (some s) collection (.id o) = .ok (some current) := by
    rw [lookupId, hfound]
    rfl
  rw [run_delete_eq, if_neg (h.calm "delete"), hlookup]
  exact ⟨h.after fun _ hd => (by cases hd), rfl⟩

end MemoryStore

/-! ## Transactions -/

section Components

variable {σ : Type} {p : τ → σ} {a : Action τ α} {b : Action σ α} {I : σ → Prop} {Q : α → Prop}

theorem ActsOn.served (h : ActsOn p a b) {t : τ} (hb : Served I Q (b.run.run (p t))) :
    Served (fun t => I (p t)) Q (a.run.run t) := by
  obtain ⟨hr, ht⟩ := h t
  obtain ⟨hI, hQ⟩ := hb
  refine ⟨?_, hr ▸ hQ⟩
  change I (p (a.run.run t).2)
  rw [ht]
  exact hI

theorem ActsOn.serves (h : ActsOn p a b) (hb : Serves I Q b) : Serves (fun t => I (p t)) Q a :=
  fun t ht => h.served (hb (p t) ht)

end Components

/-- **Transactions serve** what their bodies serve. -/
theorem SessionStore.serves_transact {p : τ → MemoryStore} {store : SessionStore τ SessionId}
    {policy : RetryPolicy τ} {body : SessionId → Action τ α} {Q : α → Prop}
    (hstore : store.OnMemory p) (hbody : ∀ s, Serves (fun t => (p t).Working s) Q (body s)) :
    Serves (fun t => (p t).Ready) Q (store.transact policy body none) := by
  intro t ht
  obtain ⟨t₁, t₂, hstart, hbegin, hopened⟩ := run_opening hstore t
  obtain ⟨hworking, hanswers⟩ := hbody _ t₂ (ht.opened hopened)
  rcases hr : (body (p t).sessions.length).run.run t₂ with ⟨e | v, t₃⟩
  · rw [hr] at hworking hanswers
    obtain ⟨tr, htr, -⟩ := hworking.working
    obtain ⟨t₄, hattempt, hleft⟩ := run_attempt_error hstore hbegin hr htr
    obtain ⟨t₅, hrun, hleft'⟩ :=
      run_runFrom_last policy (policy.maxAttempts - 1) 1 hstore hstart hattempt
        (fun f hf => by cases hf; exact hanswers.final) hleft.known
    rw [transact, hrun]
    exact ⟨(hworking.toReady.left hleft).left hleft', hanswers⟩
  · rw [hr] at hworking hanswers
    obtain ⟨tr, htr, hfiled⟩ := hworking.working
    obtain ⟨t₄, ⟨hconflict, -⟩ | ⟨-, hattempt, hpublished⟩⟩ :=
      run_attempt_cases hstore hbegin hr htr
    · exact absurd hconflict (hworking.calm "commit")
    obtain ⟨t₅, hrun, hleft⟩ :=
      run_runFrom_last policy (policy.maxAttempts - 1) 1 hstore hstart hattempt
        (fun _ hf => by cases hf) hpublished.known
    rw [transact, hrun]
    exact ⟨(hworking.toReady.published hfiled hpublished).left hleft, hanswers⟩

end EntityGraph
