import EntityGraph.Proofs.Isolation
import EntityGraph.Proofs.Retakes
import Mathlib.Data.List.Induction

/-!
# Overlapping transactions

Two transactions of a memory store may overlap. Their history is cut at the two commits (`Course`):
the first transaction up to its commit, with what the second one did until then, and the rest of the
second one. A history without commits leaves the committed documents alone, and each open
transaction is the one that the writes of its session make (`Orderly.underway`). So the second
commit publishes its writes over those of the first (`Course.Run.collections_end`), whatever the
first one wrote.
-/

namespace EntityGraph

open MemoryStore (transaction?)

/-! ## Transactions as events -/

namespace Event

/-- The session of an event in a transaction. -/
def session? (e : Event) : Option SessionId :=
  match e.call with
  | .begin i => some i
  | .commit i => some i
  | c => c.caller

/-- The call was answered, if it was a write, a beginning or a commit. A read may fail. -/
def Succeeds (e : Event) : Prop :=
  match e.call with
  | .read _ _ => True
  | _ => e.Returned

end Event

/-- The events of a session. -/
def eventsOf (k : SessionId) (es : List Event) : List Event :=
    es.filter fun e => e.session? = some k

/-- **A transaction**: it begins, reads and writes through its session, and commits. -/
def IsTransaction (k : SessionId) (es : List Event) : Prop :=
  ∃ b ops c, es = b :: ops ++ [c] ∧ b.Begins k ∧ c.Commits k ∧ ∀ e ∈ ops, e.call.caller = some k

/-- No conflict is injected. -/
def MemoryStore.Calm (m : MemoryStore) : Prop := ∀ operation, ¬ m.conflicts operation

section Events

variable {e : Event} {m m' : MemoryStore} {k : SessionId}

/-- The event of a caller is one of its session. -/
theorem Event.session?_of_caller (h : e.call.caller = some k) : e.session? = some k := by
  obtain ⟨call, reply⟩ := e
  cases call <;> first | exact h | cases h

theorem Event.Begins.session? (h : e.Begins k) : e.session? = some k := by
  rw [Event.session?, h.1]

theorem Event.Commits.session? (h : e.Commits k) : e.session? = some k := by
  rw [Event.session?, h.1]

/-- The call reads or writes. -/
def StoreCall.Accesses : StoreCall → Prop
  | .create _ _ _ => True
  | .update _ _ _ _ => True
  | .delete _ _ _ => True
  | .read _ _ => True
  | _ => False

/-- The document that a write asks for, by collection and identifier. -/
def StoreCall.target? : StoreCall → Option (String × Value)
  | .create _ collection d => some (collection, (Record.get? d "_id").getD .null)
  | .update _ collection id _ => some (collection, id)
  | .delete _ collection id => some (collection, id)
  | _ => none

theorem StoreCall.accesses_of_caller {c : StoreCall} (h : c.caller = some k) : c.Accesses := by
  cases c <;> trivial

/-- The store after identifiers or injected failures were used up. -/
def MemoryStore.used (m : MemoryStore) (lastId : Nat) (failures : Record Int) : MemoryStore :=
  { m with lastId := lastId, failures := failures }

/-! ## What the calls of a transaction do -/

/-- A look-up raises no transient fault. -/
theorem yields_lookupId (m : MemoryStore) (caller : Option SessionId) (collection : String)
    (id : Value) :
    Yields (fun _ => True) (m.lookupId caller collection id) := by
  unfold MemoryStore.lookupId
  split
  · exact trivial
  · rfl

/-- Filing a document raises none. -/
theorem yields_filing (m : MemoryStore) (collection : String) (d : Document)
    (caller : Option SessionId) :
    Yields (fun _ => True) (m.filing collection d caller) := by
  unfold MemoryStore.filing
  dsimp only
  split
  · rfl
  split
  · rfl
  · exact (MemoryStore.yields_checkUnique ..).bind fun _ _ => trivial

/-- Nor does changing one. -/
theorem yields_changing (m : MemoryStore) (collection : String) (id change : Value)
    (caller : Option SessionId) :
    Yields (fun _ => True) (m.changing collection id change caller) := by
  refine (yields_lookupId m caller collection id).bind fun d? _ => ?_
  cases d? with
  | none => exact trivial
  | some d =>
    refine (MemoryStore.yields_applyUpdate change d).bind fun updated _ => ?_
    exact (MemoryStore.yields_checkUnique ..).bind fun _ _ => trivial

/-- **A read or write** writes one document or none. Identifiers and injected failures may be used
up, the latter only when it meets one. -/
theorem Event.Happens.access (h : e.Happens m m') (hcall : e.call.Accesses) :
    ∃ n f, (e.Succeeds ∨ m.Calm → f = m.failures) ∧
      ((e.writes = [] ∧ m' = m.used n f) ∨ ∃ w, e.writes = [w] ∧
        m' = (m.used n f).after e.call.caller w) := by
  obtain ⟨call, reply⟩ := e
  cases call with
  | create caller collection d =>
    rw [Event.Happens, StoreCall.run, Action.run_bind, MemoryStore.run_create_eq] at h
    split_ifs at h with hconflict
    · cases h
      refine ⟨m.lastId, _, fun hs => ?_, .inl ⟨rfl, rfl⟩⟩
      rcases hs with ⟨_, hv⟩ | hcalm
      · cases hv
      · exact absurd hconflict (hcalm _)
    rcases hw : m.filing collection d caller with f | w
    · rw [hw] at h
      cases h
      exact ⟨m.lastId + 1, m.failures, fun _ => rfl, .inl ⟨rfl, rfl⟩⟩
    · rw [hw] at h
      cases h
      obtain ⟨id, hid, -, -, -, rfl⟩ := MemoryStore.filing_eq_ok hw
      refine ⟨m.lastId + 1, m.failures, fun _ => rfl, .inr ⟨_, ?_, rfl⟩⟩
      simp [Event.writes, hid]
  | update caller collection id change =>
    rw [Event.Happens, StoreCall.run, Action.run_bind, MemoryStore.run_update_eq] at h
    split_ifs at h with hconflict
    · cases h
      refine ⟨m.lastId, _, fun hs => ?_, .inl ⟨rfl, rfl⟩⟩
      rcases hs with ⟨_, hv⟩ | hcalm
      · cases hv
      · exact absurd hconflict (hcalm _)
    refine ⟨m.lastId, m.failures, fun _ => rfl, ?_⟩
    rcases hw : m.changing collection id change caller with f | _ | w
    · rw [hw] at h
      cases h
      exact .inl ⟨rfl, rfl⟩
    · rw [hw] at h
      cases h
      exact .inl ⟨rfl, rfl⟩
    · rw [hw] at h
      cases h
      obtain ⟨_, updated, -, -, -, -, rfl⟩ := MemoryStore.changing_eq_ok hw
      exact .inr ⟨⟨collection, id, some updated⟩, rfl, rfl⟩
  | delete caller collection id =>
    rw [Event.Happens, StoreCall.run, Action.run_bind, MemoryStore.run_delete_eq] at h
    split_ifs at h with hconflict
    · cases h
      refine ⟨m.lastId, _, fun hs => ?_, .inl ⟨rfl, rfl⟩⟩
      rcases hs with ⟨_, hv⟩ | hcalm
      · cases hv
      · exact absurd hconflict (hcalm _)
    refine ⟨m.lastId, m.failures, fun _ => rfl, ?_⟩
    rcases hd : m.lookupId caller collection id with f | _ | d
    · rw [hd] at h
      cases h
      exact .inl ⟨rfl, rfl⟩
    · rw [hd] at h
      cases h
      exact .inl ⟨rfl, rfl⟩
    · rw [hd] at h
      cases h
      exact .inr ⟨⟨collection, id, none⟩, rfl, rfl⟩
  | read caller q =>
    rw [Event.Happens, StoreCall.run, StoreRead.run_eq] at h
    cases h
    exact ⟨m.lastId, m.failures, fun _ => rfl, .inl ⟨rfl, rfl⟩⟩
  | _ => exact hcall.elim

/-- A transaction that begins had none open before it in its session, which is there. -/
theorem Event.Happens.begin (h : e.Happens m m') (hb : e.Begins k) : ∃ x, m.sessions[k]? = some x ∧
    x.transaction = none ∧
    m' =
      { m with sessions := m.sessions.set k { x with transaction := some ⟨m.collections, []⟩ } }
      := by
  obtain ⟨hcall, v, hv⟩ := hb
  rw [Event.Happens, hcall, hv, StoreCall.run, Action.run_bind, MemoryStore.run_begin_eq] at h
  rcases hx : m.sessions[k]? with _ | x
  · rw [hx] at h
    cases h
  rcases ht : x.transaction with _ | t
  · simp only [hx, ht, Option.isSome_none, Bool.false_eq_true, if_false] at h
    cases h
    exact ⟨x, rfl, ht, rfl⟩
  · simp only [hx, ht, Option.isSome_some, if_true] at h
    cases h

/-- A transaction that commits was open, and is published. -/
theorem Event.Happens.commit (h : e.Happens m m') (hc : e.Commits k) :
    ∃ x t, m.sessions[k]? = some x ∧
    x.transaction = some t ∧ ¬ m.conflicts "commit" ∧
    m' = { m with
      collections := MemoryStore.publish t m.collections
      commits := m.commits + 1
      sessions := m.sessions.set k { x with transaction := none } } := by
  obtain ⟨hcall, v, hv⟩ := hc
  rw [Event.Happens, hcall, hv, StoreCall.run, Action.run_bind, MemoryStore.run_commit_eq] at h
  rcases hx : m.sessions[k]? with _ | x
  · rw [hx] at h
    cases h
  rcases ht : x.transaction with _ | t
  · simp only [hx, ht] at h
    cases h
  simp only [hx, ht] at h
  split_ifs at h with hconflict
  · cases h
  · cases h
    exact ⟨x, t, rfl, ht, hconflict, rfl⟩

/-- Without new failures a calm store stays calm. -/
theorem MemoryStore.Calm.of_failures (h : m.Calm) (hm : m'.failures = m.failures) : m'.Calm := by
  intro operation
  rw [MemoryStore.conflicts, hm]
  exact h operation

/-- A write that meets no injected conflict fails for good. -/
theorem Event.Happens.not_transient (h : e.Happens m m') (hcalm : m.Calm)
    (hw : e.call.target?.isSome = true) {f : Fault} (hf : e.reply = .error f) :
    f.isTransient = false := by
  obtain ⟨call, reply⟩ := e
  obtain rfl : reply = .error f := hf
  cases call with
  | create caller collection d =>
    rw [Event.Happens, StoreCall.run, Action.run_bind, MemoryStore.run_create_eq,
      if_neg (hcalm _)] at h
    have hyields := yields_filing m collection d caller
    rcases hw : m.filing collection d caller with g | w <;> rw [hw] at h hyields <;> cases h
    exact hyields
  | update caller collection id change =>
    rw [Event.Happens, StoreCall.run, Action.run_bind, MemoryStore.run_update_eq,
      if_neg (hcalm _)] at h
    have hyields := yields_changing m collection id change caller
    rcases hw : m.changing collection id change caller with g | _ | w <;> rw [hw] at h hyields <;>
      cases h
    exact hyields
  | delete caller collection id =>
    rw [Event.Happens, StoreCall.run, Action.run_bind, MemoryStore.run_delete_eq,
      if_neg (hcalm _)] at h
    have hyields := yields_lookupId m caller collection id
    rcases hd : m.lookupId caller collection id with g | _ | d <;> rw [hd] at h hyields <;> cases h
    exact hyields
  | _ => cases hw

/-- **The same setup**: the same collections are set up, and as many sessions are open. -/
structure SameSetup (m m' : MemoryStore) : Prop where
  schemas : m'.schemas = m.schemas
  sessions : m'.sessions.length = m.sessions.length

theorem SameSetup.refl (m : MemoryStore) : SameSetup m m := ⟨rfl, rfl⟩

theorem SameSetup.trans {m'' : MemoryStore} (h : SameSetup m m') (h' : SameSetup m' m'') :
    SameSetup m m'' :=
  ⟨h'.schemas.trans h.schemas, h'.sessions.trans h.sessions⟩

theorem SameSetup.after (m : MemoryStore) (caller : Option SessionId) (w : Write) :
    SameSetup m (m.after caller w) := by
  refine ⟨by simp, ?_⟩
  unfold MemoryStore.after
  split
  · exact List.length_modify ..
  · rfl

/-- The events of transactions. -/
def Event.Transactional (e : Event) : Prop := ∃ k, e.Begins k ∨ e.Commits k ∨ e.call.caller = some k

/-- An event of a transaction keeps the setup, and the injected failures unless it meets one. -/
theorem Event.Happens.keeps (h : e.Happens m m') (he : e.Transactional) :
    SameSetup m m' ∧ (e.Succeeds ∨ m.Calm → m'.failures = m.failures) := by
  obtain ⟨k, hbegins | hcommits | hcaller⟩ := he
  · obtain ⟨x, -, -, rfl⟩ := h.begin hbegins
    exact ⟨⟨rfl, List.length_set ..⟩, fun _ => rfl⟩
  · obtain ⟨x, t, -, -, -, rfl⟩ := h.commit hcommits
    exact ⟨⟨rfl, List.length_set ..⟩, fun _ => rfl⟩
  · obtain ⟨n, f, hf, ⟨-, rfl⟩ | ⟨w, -, rfl⟩⟩ := h.access (StoreCall.accesses_of_caller hcaller)
    · exact ⟨⟨rfl, rfl⟩, hf⟩
    · have hsame : SameSetup m (m.used n f) := ⟨rfl, rfl⟩
      exact ⟨hsame.trans (.after _ _ w), fun hs => (MemoryStore.failures_after).trans (hf hs)⟩

/-- Before a commit, the events of open transactions leave the committed documents alone. -/
theorem Event.Happens.collections (h : e.Happens m m') (he : (∃ k, e.Begins k) ∨
    ∃ k, e.call.caller = some k ∧ (m.transaction? (some k)).isSome = true) :
    m'.collections = m.collections := by
  obtain ⟨k, hbegins⟩ | ⟨k, hcaller, hopen⟩ := he
  · obtain ⟨x, -, -, rfl⟩ := h.begin hbegins
    rfl
  · obtain ⟨n, f, -, ⟨-, rfl⟩ | ⟨w, -, rfl⟩⟩ := h.access (StoreCall.accesses_of_caller hcaller)
    · rfl
    · rw [hcaller, MemoryStore.collections_after]
      exact if_pos hopen

/-! ## Histories without commits -/

/-- Interleavings follow one another. -/
theorem interleaving_append {m₀ : MemoryStore} {es es' : List Event} :
    Interleaving m₀ (es ++ es') m ↔ ∃ m₁, Interleaving m₀ es m₁ ∧ Interleaving m₁ es' m := by
  induction es' using List.reverseRecOn generalizing m with
  | nil =>
    rw [List.append_nil]
    refine ⟨fun h => ⟨m, h, .nil⟩, ?_⟩
    rintro ⟨m₁, h, h'⟩
    generalize hnil : ([] : List Event) = l at h'
    cases h' with
    | nil => exact h
    | snoc _ _ => simp at hnil
  | append_singleton es' e ih =>
    rw [← List.append_assoc]
    constructor
    · intro h
      generalize hl : es ++ es' ++ [e] = l at h
      cases h with
      | nil => simp at hl
      | snoc hes he =>
        obtain ⟨rfl, heq⟩ := List.append_inj' hl rfl
        cases heq
        obtain ⟨m₁, h₁, h₂⟩ := ih.1 hes
        exact ⟨m₁, h₁, h₂.snoc he⟩
    · rintro ⟨m₁, h₁, h₂⟩
      generalize hl : es' ++ [e] = l at h₂
      cases h₂ with
      | nil => simp at hl
      | snoc hes he =>
        obtain ⟨rfl, heq⟩ := List.append_inj' hl rfl
        cases heq
        exact (ih.2 ⟨m₁, h₁, hes⟩).snoc he

theorem interleaving_singleton : Interleaving m [e] m' ↔ e.Happens m m' := by
  constructor
  · intro h
    generalize hl : [e] = l at h
    cases h with
    | nil => cases hl
    | @snoc es _ _ _ hes he =>
      have happ : [] ++ [e] = es ++ _ := hl
      obtain ⟨rfl, heq⟩ := List.append_inj' happ rfl
      cases heq
      generalize hnil : ([] : List Event) = l at hes
      cases hes with
      | nil => exact he
      | snoc _ _ => simp at hnil
  · exact fun h => Interleaving.nil.snoc h

/-- **An orderly history**: every event begins a transaction, as the first event of its session, or
reads or writes in an open one. -/
def Orderly (m₀ : MemoryStore) (es : List Event) : Prop :=
  ∀ before e later, es = before ++ e :: later → ∃ k,
    (e.Begins k ∧ ∀ f ∈ before, f.session? ≠ some k) ∨
    e.call.caller = some k ∧ ((m₀.transaction? (some k)).isSome = true ∨ ∃ f ∈ before, f.Begins k)

/-- What an orderly history leads to: nothing is committed, and each transaction has the writes of
its session. -/
structure Underway (m₀ : MemoryStore) (es : List Event) (m : MemoryStore) : Prop where
  collections : m.collections = m₀.collections
  setup : SameSetup m₀ m
  failures : (∀ e ∈ es, e.Succeeds) ∨ m₀.Calm → m.failures = m₀.failures
  begun : ∀ k, (∃ e ∈ es, e.Begins k) →
    m.transaction? (some k) = some (Transaction.afterAll ⟨m₀.collections, []⟩ (writesOf k es))
  kept : ∀ k, (∀ e ∈ es, ¬ e.Begins k) →
    m.transaction? (some k) = (m₀.transaction? (some k)).map (·.afterAll (writesOf k es))

/-- Events of other sessions write nothing for this one. -/
theorem writesOf_eq_nil {es : List Event} (h : ∀ e ∈ es, e.session? ≠ some k) :
    writesOf k es = [] := by
  refine List.flatMap_eq_nil_iff.2 fun e he => ?_
  unfold Event.writesOf
  exact if_neg fun hcaller => h e he (Event.session?_of_caller hcaller)

theorem Event.Begins.writesOf_eq_nil (h : e.Begins k) (i : SessionId) : e.writesOf i = [] := by
  unfold Event.writesOf
  rw [h.1]
  rfl

theorem Event.Commits.writesOf_eq_nil (h : e.Commits k) (i : SessionId) : e.writesOf i = [] := by
  unfold Event.writesOf
  rw [h.1]
  rfl

/-- What is written has an identifier. -/
theorem Interleaving.keys {m₀ : MemoryStore} {es : List Event} (h : Interleaving m₀ es m)
    (k : SessionId) :
    ∀ w ∈ writesOf k es, w.id.isKey = true := by
  induction h with
  | nil => exact fun w hw => absurd hw List.not_mem_nil
  | snoc hes he ih =>
    intro w hw
    rw [writesOf_append, writesOf_singleton] at hw
    exact (List.mem_append.1 hw).elim (ih w) (Event.keys_writesOf he.effect k w)

/-- In an orderly interleaving sessions are under way as their events say. -/
theorem Orderly.underway {m₀ : MemoryStore} {es : List Event} (ho : Orderly m₀ es)
    (h : Interleaving m₀ es m) : Underway m₀ es m := by
  induction h with
  | nil =>
    refine ⟨rfl, .refl _, fun _ => rfl, fun k ⟨e, he, _⟩ => absurd he List.not_mem_nil, fun k _ =>
      ?_⟩
    cases m₀.transaction? (some k) <;> rfl
  | @snoc es e m m' hes he ih =>
    have ih := ih fun before f later heq => ho before f (later ++ [e]) (by rw [heq]; simp)
    obtain ⟨k, hk⟩ := ho es e [] rfl
    have htransactional : e.Transactional := hk.elim (fun h => ⟨k, .inl h.1⟩) fun h =>
      ⟨k, .inr (.inr h.1)⟩
    have hopen : e.call.caller = some k →
        ((m₀.transaction? (some k)).isSome = true ∨ ∃ f ∈ es, f.Begins k) →
        (m.transaction? (some k)).isSome = true := by
      intro _ hbegun
      by_cases hb : ∃ f ∈ es, f.Begins k
      · rw [ih.begun k hb]
        rfl
      · push Not at hb
        rw [ih.kept k hb, Option.isSome_map]
        exact hbegun.resolve_right fun ⟨f, hf, hbf⟩ => hb f hf hbf
    obtain ⟨hsetup, hfailures⟩ := he.keeps htransactional
    have heffect := he.effect
    have hcommit : ∀ i, ¬ e.Closes i := by
      rintro i ⟨hcall, -⟩
      rcases hk with ⟨⟨hk, -⟩, -⟩ | ⟨hk, -⟩
      · rw [hk] at hcall
        rcases hcall with h | h | h <;> cases h
      · rcases hcall with h | h | h <;> rw [h] at hk <;> cases hk
    refine ⟨?_, ih.setup.trans hsetup, fun hs => ?_, fun i hi => ?_, fun i hi => ?_⟩
    · rw [← ih.collections]
      refine he.collections (hk.imp (fun h => ⟨k, h.1⟩) fun h => ⟨k, h.1, hopen h.1 h.2⟩)
    · have hbefore := ih.failures (hs.imp_left fun hs f hf => hs f (List.mem_append_left _ hf))
      rw [hfailures (hs.imp (fun hs => hs e (List.mem_append_right _ (List.mem_singleton_self _)))
        fun hcalm => hcalm.of_failures hbefore), hbefore]
    · rw [writesOf_append, writesOf_singleton]
      by_cases hb : e.Begins i
      · have hki : k = i := by
          rcases hk with ⟨⟨hk, -⟩, -⟩ | ⟨hk, -⟩ <;> rw [hb.1] at hk <;> cases hk
          rfl
        subst hki
        have hfirst : ∀ f ∈ es, f.session? ≠ some k := by
          rcases hk with hk | ⟨hk, -⟩
          · exact hk.2
          · rw [hb.1] at hk
            cases hk
        rw [(heffect.begun k hb).2, ih.collections, writesOf_eq_nil hfirst, hb.writesOf_eq_nil k]
        rfl
      · obtain ⟨f, hf, hbf⟩ := hi
        have hmem : f ∈ es := by
          rcases List.mem_append.1 hf with hf | hf
          · exact hf
          · exact absurd (List.mem_singleton.1 hf ▸ hbf) hb
        rw [heffect.kept i fun h => h.elim hb (hcommit i), ih.begun i ⟨f, hmem, hbf⟩,
          Option.map_some, Transaction.afterAll_append]
    · have hb : ¬ e.Begins i := hi e (List.mem_append_right _ (List.mem_singleton_self _))
      rw [heffect.kept i fun h => h.elim hb (hcommit i),
        ih.kept i fun f hf => hi f (List.mem_append_left _ hf), writesOf_append, writesOf_singleton,
        Option.map_map]
      refine congrArg (fun g => Option.map g _) (funext fun t => ?_)
      exact (Transaction.afterAll_append t _ _).symm

/-! ## Two transactions -/

/-- **An interleaving of two transactions**, of which the second commits last. -/
structure TwoTransactions (i j : SessionId) (es : List Event) : Prop where
  different : i ≠ j
  only : ∀ e ∈ es, e.session? = some i ∨ e.session? = some j
  first : IsTransaction i (eventsOf i es)
  second : IsTransaction j (eventsOf j es)
  last : ∃ before c, es = before ++ [c] ∧ c.Commits j

theorem mem_eventsOf {es : List Event} : e ∈ eventsOf k es ↔ e ∈ es ∧ e.session? = some k := by
  simp [eventsOf]

theorem eventsOf_append (k : SessionId) (es es' : List Event) :
    eventsOf k (es ++ es') = eventsOf k es ++ eventsOf k es' := List.filter_append ..

theorem eventsOf_cons_of_eq (h : e.session? = some k) (es : List Event) :
    eventsOf k (e :: es) = e :: eventsOf k es := List.filter_cons_of_pos (by simpa using h)

theorem eventsOf_cons_of_ne (h : e.session? ≠ some k) (es : List Event) :
    eventsOf k (e :: es) = eventsOf k es := List.filter_cons_of_neg (by simpa using h)

/-- What a session wrote is what its events wrote. -/
theorem writesOf_eventsOf (k : SessionId) (es : List Event) :
    writesOf k (eventsOf k es) = writesOf k es := by
  induction es with
  | nil => rfl
  | cons e rest ih =>
    by_cases h : e.session? = some k
    · rw [eventsOf_cons_of_eq h]
      exact congrArg (e.writesOf k ++ ·) ih
    · have hnil : e.writesOf k = [] := if_neg fun hcaller => h (Event.session?_of_caller hcaller)
      rw [eventsOf_cons_of_ne h, ih]
      exact (congrArg (· ++ writesOf k rest) hnil).symm

/-- The place of an event in its session is a place in the history. -/
theorem exists_of_eventsOf {es l l' : List Event} (h : eventsOf k es = l ++ e :: l') :
    ∃ a b, es = a ++ e :: b ∧ eventsOf k a = l ∧ eventsOf k b = l' := by
  obtain ⟨a, r, rfl, ha, hr⟩ := List.filter_eq_append_iff.1 h
  obtain ⟨a', b, rfl, hnone, -, hb⟩ := List.filter_eq_cons_iff.1 hr
  refine ⟨a ++ a', b, by simp, ?_, hb⟩
  rw [eventsOf_append, show eventsOf k a = l from ha, show eventsOf k a' = [] from
    List.filter_eq_nil_iff.2 hnone, List.append_nil]

/-- A history is orderly when the events of each session begin with the beginning of a transaction,
unless one is open, and go on in it. -/
theorem orderly_of_eventsOf {m₀ : MemoryStore} {es : List Event}
    (honly : ∀ e ∈ es, ∃ k, e.session? = some k)
    (h : ∀ k, ∀ e l, eventsOf k es = e :: l → (∀ f ∈ l, f.call.caller = some k) ∧
      (e.Begins k ∨ e.call.caller = some k ∧ (m₀.transaction? (some k)).isSome = true)) :
    Orderly m₀ es := by
  rintro before e later rfl
  obtain ⟨k, hk⟩ := honly e (List.mem_append_right _ (List.mem_cons_self ..))
  have hsplit : eventsOf k (before ++ e :: later) = eventsOf k before ++ e :: eventsOf k later := by
    rw [eventsOf_append, eventsOf_cons_of_eq hk]
  refine ⟨k, ?_⟩
  rcases hbefore : eventsOf k before with _ | ⟨b, ops⟩
  · rw [hbefore, List.nil_append] at hsplit
    obtain ⟨-, hbegins | hopen⟩ := h k e _ hsplit
    · refine .inl ⟨hbegins, fun f hf hfk => ?_⟩
      have hmem : f ∈ eventsOf k before := mem_eventsOf.2 ⟨hf, hfk⟩
      rw [hbefore] at hmem
      cases hmem
    · exact .inr ⟨hopen.1, .inl hopen.2⟩
  · rw [hbefore, List.cons_append] at hsplit
    obtain ⟨hops, hfirst⟩ := h k b _ hsplit
    refine .inr ⟨hops e (List.mem_append_right _ (List.mem_cons_self ..)), ?_⟩
    have hmem : b ∈ before := (mem_eventsOf.1 (hbefore ▸ List.mem_cons_self ..)).1
    exact hfirst.elim (fun hb => .inr ⟨b, hmem, hb⟩) fun ho => .inl ho.2

/-- **The course of two transactions**: the first transaction up to its commit, with what the second
did until then, and the rest of the second. -/
structure Course (i j : SessionId) (es : List Event) where
  /-- what happened before the first commit -/
  early : List Event
  firstCommit : Event
  /-- what happened between the commits -/
  late : List Event
  secondCommit : Event
  history : es = early ++ firstCommit :: (late ++ [secondCommit])
  commitsFirst : firstCommit.Commits i
  commitsSecond : secondCommit.Commits j
  firstBegins : Event
  firstOps : List Event
  secondBegins : Event
  secondOps : List Event
  first : eventsOf i early = firstBegins :: firstOps
  second : eventsOf j early ++ late = secondBegins :: secondOps
  only : ∀ e ∈ early, e.session? = some i ∨ e.session? = some j
  alone : ∀ e ∈ late, e.session? = some j
  beginsFirst : firstBegins.Begins i
  beginsSecond : secondBegins.Begins j
  callsFirst : ∀ e ∈ firstOps, e.call.caller = some i
  callsSecond : ∀ e ∈ secondOps, e.call.caller = some j

/-- **Two transactions have a course**: what comes before the second one commits, and what comes
after. -/
theorem TwoTransactions.course {i j : SessionId} {es : List Event} (h : TwoTransactions i j es) :
    Nonempty (Course i j es) := by
  obtain ⟨bi, opsi, ci, hi, hbi, hci, hopsi⟩ := h.first
  obtain ⟨bj, opsj, cj, hj, hbj, hcj, hopsj⟩ := h.second
  obtain ⟨early, rest, rfl, hearly, hrest⟩ := exists_of_eventsOf hi
  obtain ⟨before, c, heq, hc⟩ := h.last
  have hne : rest ≠ [] := by
    rintro rfl
    obtain ⟨-, hlast⟩ := List.append_inj' heq rfl
    cases hlast
    exact h.different (by rw [Event.Commits, hci.1] at hc; cases hc.1; rfl)
  obtain ⟨late, last, rfl⟩ : ∃ late last, rest = late ++ [last] :=
    ⟨_, _, (List.dropLast_concat_getLast hne).symm⟩
  have halone : ∀ e ∈ late, e.session? = some j := fun e he => by
    refine (h.only e (by simp [he])).resolve_left fun hei => ?_
    have hmem : e ∈ eventsOf i (late ++ [last]) := mem_eventsOf.2 ⟨List.mem_append_left _ he, hei⟩
    rw [hrest] at hmem
    cases hmem
  have hlast : c = last := by
    have hsplit : early ++ ci :: (late ++ [last]) = (early ++ ci :: late) ++ [last] := by simp
    rw [hsplit] at heq
    obtain ⟨-, hlast⟩ := List.append_inj' heq rfl
    cases hlast
    rfl
  subst hlast
  have hcij : ci.session? ≠ some j := by
    rw [hci.session?]
    exact fun heq => h.different (Option.some.inj heq)
  have hlate : eventsOf j late = late := List.filter_eq_self.2 fun e he => by
    simpa using halone e he
  have hsecond : eventsOf j early ++ late = bj :: opsj := by
    rw [eventsOf_append, eventsOf_cons_of_ne hcij, eventsOf_append, hlate,
      eventsOf_cons_of_eq hc.session?, ← List.append_assoc] at hj
    exact (List.append_inj' hj rfl).1
  have honly : ∀ e ∈ early, e.session? = some i ∨ e.session? = some j :=
    fun e he => h.only e (by simp [he])
  exact ⟨⟨early, ci, late, c, rfl, hci, hc, bi, opsi, bj, opsj, hearly, hsecond, honly, halone, hbi,
    hbj, hopsi, hopsj⟩⟩

/-- The beginning of an orderly interleaving is orderly. -/
theorem Orderly.init {m₀ : MemoryStore} {es es' : List Event} (h : Orderly m₀ (es ++ es')) :
    Orderly m₀ es :=
  fun before e later heq => h before e (later ++ es') (by rw [heq]; simp)

namespace Course

variable {i j : SessionId} {es : List Event} {m₀ : MemoryStore} (c : Course i j es)

theorem orderly_early (hij : i ≠ j) : Orderly m₀ c.early := by
  refine orderly_of_eventsOf (fun e he => (c.only e he).elim (fun h => ⟨i, h⟩) fun h => ⟨j, h⟩)
    fun k e l hl => ?_
  have hmem : e ∈ eventsOf k c.early := by
    rw [hl]
    exact List.mem_cons_self ..
  obtain ⟨he, hek⟩ := mem_eventsOf.1 hmem
  have hk : k = i ∨ k = j := (c.only e he).imp (fun h => Option.some.inj (hek.symm.trans h))
    fun h => Option.some.inj (hek.symm.trans h)
  rcases hk with rfl | rfl
  · rw [c.first] at hl
    cases hl
    exact ⟨c.callsFirst, .inl c.beginsFirst⟩
  · have hsecond := c.second
    rw [hl, List.cons_append, List.cons.injEq] at hsecond
    obtain ⟨rfl, hops⟩ := hsecond
    exact ⟨fun f hf => c.callsSecond f (hops ▸ List.mem_append_left _ hf), .inl c.beginsSecond⟩

/-- All that the first transaction writes comes before its commit. -/
theorem writes_first (hij : i ≠ j) : writesOf i c.early = writesOf i es := by
  have hlate : writesOf i c.late = [] := writesOf_eq_nil fun e he => by
    rw [c.alone e he]
    exact fun heq => hij (Option.some.inj heq).symm
  conv_rhs => rw [c.history]
  rw [← List.singleton_append (l := c.late ++ _)]
  simp only [writesOf_append, writesOf_singleton, hlate, c.commitsFirst.writesOf_eq_nil,
    c.commitsSecond.writesOf_eq_nil, List.append_nil]

theorem writes_second : writesOf j (eventsOf j c.early ++ c.late) = writesOf j es := by
  conv_rhs => rw [c.history]
  rw [← List.singleton_append (l := c.late ++ _)]
  simp only [writesOf_append, writesOf_singleton, writesOf_eventsOf, c.commitsFirst.writesOf_eq_nil,
    c.commitsSecond.writesOf_eq_nil, List.nil_append, List.append_nil]

/-- The collections after the first commit. -/
def middle (_ : Course i j es) (m₀ : MemoryStore) : Collections :=
  MemoryStore.publish (Transaction.afterAll ⟨m₀.collections, []⟩ (writesOf i es)) m₀.collections

/-- The collections on which the second transaction began: those after the first commit, unless the
two overlap. -/
def base (c : Course i j es) (m₀ : MemoryStore) : Collections :=
  if (eventsOf j c.early).isEmpty then c.middle m₀ else m₀.collections

/-- The states that two transactions go through: before and after the first commit, and before and
after the second. -/
structure Run (c : Course i j es) (m₀ m₁ m₂ m₃ m : MemoryStore) : Prop where
  early : Interleaving m₀ c.early m₁
  firstCommit : c.firstCommit.Happens m₁ m₂
  late : Interleaving m₂ c.late m₃
  secondCommit : c.secondCommit.Happens m₃ m

theorem exists_run {m : MemoryStore} (h : Interleaving m₀ es m) :
    ∃ m₁ m₂ m₃, c.Run m₀ m₁ m₂ m₃ m := by
  rw [c.history, interleaving_append] at h
  obtain ⟨m₁, h₁, h⟩ := h
  rw [← List.singleton_append, interleaving_append] at h
  obtain ⟨m₂, h₂, h⟩ := h
  obtain ⟨m₃, h₃, h⟩ := interleaving_append.1 h
  exact ⟨m₁, m₂, m₃, h₁, interleaving_singleton.1 h₂, h₃, interleaving_singleton.1 h⟩

variable {c} {m₁ m₂ m₃ m : MemoryStore}

namespace Run

variable (h : c.Run m₀ m₁ m₂ m₃ m) (hij : i ≠ j)

include h hij

theorem underway_early : Underway m₀ c.early m₁ := (c.orderly_early hij).underway h.early

/-- The first commit publishes the writes of its session. -/
theorem collections_middle : m₂.collections = c.middle m₀ := by
  have hearly := h.underway_early hij
  have hmem : c.firstBegins ∈ c.early := (mem_eventsOf.1 (c.first ▸ List.mem_cons_self ..)).1
  obtain ⟨t, ht, hm⟩ := h.firstCommit.effect.committed i c.commitsFirst
  rw [hearly.begun i ⟨_, hmem, c.beginsFirst⟩] at ht
  cases ht
  rw [hm, hearly.collections, c.writes_first hij]
  rfl

/-- The first commit leaves the transaction of the second session. -/
theorem transaction?_middle : m₂.transaction? (some j) = m₁.transaction? (some j) := by
  obtain ⟨x, t, hx, ht, -, rfl⟩ := h.firstCommit.commit c.commitsFirst
  have hset := MemoryStore.transaction?_set (y := ⟨none, x.ended⟩) hx j
  rw [if_neg hij] at hset
  exact hset

/-- While the second transaction waits, its session has no open transaction; once it began, it is
open before the first commit. -/
theorem begun_early (he : eventsOf j c.early ≠ []) : ∃ ops, eventsOf j c.early = c.secondBegins ::
    ops ∧
    c.secondOps = ops ++ c.late ∧ m₁.transaction? (some j) =
      some (Transaction.afterAll ⟨m₀.collections, []⟩ (writesOf j c.early)) := by
  obtain ⟨b, ops, hops⟩ := List.exists_cons_of_ne_nil he
  have hsecond := c.second
  rw [hops, List.cons_append, List.cons.injEq] at hsecond
  obtain ⟨rfl, hlate⟩ := hsecond
  have hmem : c.secondBegins ∈ c.early := (mem_eventsOf.1 (hops ▸ List.mem_cons_self ..)).1
  exact ⟨ops, hops, hlate.symm, (h.underway_early hij).begun j ⟨_, hmem, c.beginsSecond⟩⟩

theorem orderly_late : Orderly m₂ c.late := by
  refine orderly_of_eventsOf (fun e he => ⟨j, c.alone e he⟩) fun k e l hl => ?_
  have hmem : e ∈ eventsOf k c.late := by
    rw [hl]
    exact List.mem_cons_self ..
  obtain ⟨he, hek⟩ := mem_eventsOf.1 hmem
  obtain rfl : k = j := Option.some.inj (hek.symm.trans (c.alone e he))
  have hall : eventsOf k c.late = c.late := List.filter_eq_self.2 fun f hf => by
    simpa using c.alone f hf
  rw [hall] at hl
  by_cases hearly : eventsOf k c.early = []
  · have hsecond := c.second
    rw [hearly, List.nil_append, hl, List.cons.injEq] at hsecond
    obtain ⟨rfl, rfl⟩ := hsecond
    exact ⟨c.callsSecond, .inl c.beginsSecond⟩
  · obtain ⟨ops, -, hops, hopen⟩ := h.begun_early hij hearly
    have hcalls : ∀ f ∈ e :: l, f.call.caller = some k := fun f hf =>
      c.callsSecond f (by rw [hops, hl]; exact List.mem_append_right _ hf)
    refine ⟨fun f hf => hcalls f (List.mem_cons_of_mem _ hf),
      .inr ⟨hcalls e (List.mem_cons_self ..), ?_⟩⟩
    rw [h.transaction?_middle hij, hopen]
    rfl

/-- **The second transaction on its way**, at any point between the commits. -/
theorem transaction?_late {before later : List Event} (heq : c.late = before ++ later)
    {m' : MemoryStore} (hm' : Interleaving m₂ before m')
    (hbegun : eventsOf j c.early ++ before ≠ []) :
    m'.transaction? (some j) = some (Transaction.afterAll ⟨c.base m₀, []⟩
      (writesOf j (eventsOf j c.early ++ before))) := by
  have horderly := h.orderly_late hij
  rw [heq] at horderly
  have hunderway := horderly.init.underway hm'
  by_cases hearly : eventsOf j c.early = []
  · rw [hearly, List.nil_append] at hbegun ⊢
    obtain ⟨b, ops, rfl⟩ := List.exists_cons_of_ne_nil hbegun
    have hsecond := c.second
    rw [hearly, List.nil_append, heq, List.cons_append, List.cons.injEq] at hsecond
    obtain ⟨rfl, -⟩ := hsecond
    rw [hunderway.begun j ⟨_, List.mem_cons_self .., c.beginsSecond⟩, h.collections_middle hij,
      base, hearly]
    rfl
  · obtain ⟨ops, hops, hlate, hopen⟩ := h.begun_early hij hearly
    have hnone : ∀ e ∈ before, ¬ e.Begins j := fun e he hb => by
      have hcaller := c.callsSecond e (by rw [hlate, heq]; simp [he])
      rw [hb.1] at hcaller
      cases hcaller
    rw [hunderway.kept j hnone, h.transaction?_middle hij, hopen, Option.map_some, writesOf_append,
      writesOf_eventsOf, Transaction.afterAll_append, base, if_neg (by simpa using hearly)]

/-- **The outcome of two transactions**: the second commit publishes its writes over those of the
first. -/
theorem collections_end : m.collections =
    MemoryStore.publish (Transaction.afterAll ⟨c.base m₀, []⟩ (writesOf j es)) (c.middle m₀) := by
  obtain ⟨t, ht, hm⟩ := h.secondCommit.effect.committed j c.commitsSecond
  have hbegun : eventsOf j c.early ++ c.late ≠ [] := by
    rw [c.second]
    exact List.cons_ne_nil _ _
  rw [h.transaction?_late hij (List.append_nil _).symm h.late hbegun, c.writes_second] at ht
  cases ht
  rw [hm, ((h.orderly_late hij).underway h.late).collections, h.collections_middle hij]

end Run

end Course

end Events

end EntityGraph
