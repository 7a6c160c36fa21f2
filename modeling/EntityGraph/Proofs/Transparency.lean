import EntityGraph.Proofs.RetakenWrites

/-!
# Transparency of retries

A write call that meets injected conflicts in some of its attempts, and has an attempt left for each
of them and one more, ends as the same call does without conflicts: with the same outcome and the
same committed documents, up to the names of the identifiers that it makes
(`writeCall_transparent`). Each conflict ends an attempt that leaves nothing behind but fewer
conflicts to come and identifiers that were used up; the attempt that meets none is a retake of the
first one.
-/

namespace EntityGraph

variable {τ α : Type} {ρ : ObjectId → ObjectId}

theorem Action.run_bind_pure {β : Type} (a : Action τ α) (g : α → β) (t : τ) :
    (a >>= fun v => pure (g v)).run.run t = ((a.run.run t).1.map g, (a.run.run t).2) := by
  rw [Action.run_bind]
  rcases a.run.run t with ⟨e | v, t'⟩ <;> rfl

/-! ## Skipping identifiers -/

namespace ObjectId

theorem number_ofNat {n : Nat} (h : n < 2 ^ 96) : (ofNat n).number = n := Nat.mod_eq_of_lt h

theorem ofNat_number {o : ObjectId} (h : o.size = 12) : ofNat o.number = o := by
  obtain ⟨size, number, hnumber⟩ := o
  obtain rfl : size = 12 := h
  simp only [ofNat, Nat.mod_eq_of_lt hnumber]

/-- The numbers after `start` and up to `limit`, turned round by `offset`. -/
def turn (start offset limit n : Nat) : Nat :=
  if n ≤ start ∨ limit < n then n
  else if n + offset ≤ limit then n + offset
  else n - (limit - start - offset)

/-- **Skipping**: the renaming that takes an identifier to the one that is made `offset` later, as
far as numbers up to a limit go. -/
def skipping (start offset limit : Nat) (o : ObjectId) : ObjectId :=
  if o.size = 12 then ofNat (turn start offset limit o.number) else o

variable {start offset limit : Nat}

theorem turn_lt (hlimit : limit < 2 ^ 96) {n : Nat} (hn : n < 2 ^ 96) :
    turn start offset limit n < 2 ^ 96 := by
  unfold turn
  split
  · exact hn
  · split <;> omega

theorem turn_injective (h : start + offset ≤ limit) :
    Function.Injective (turn start offset limit) := by
  intro a b hab
  unfold turn at hab
  split at hab <;> split at hab <;> (try split at hab) <;> (try split at hab) <;> omega

/-- Skipping keeps the number of bytes. -/
theorem size_skipping (o : ObjectId) : (skipping start offset limit o).size = o.size := by
  unfold skipping
  split
  · exact .symm ‹_›
  · rfl

theorem skipping_injective (h : start + offset ≤ limit) (hlimit : limit < 2 ^ 96) :
    Function.Injective (skipping start offset limit) := by
  intro a b hab
  have hsize : a.size = b.size := by
    rw [← size_skipping a, hab, size_skipping b]
  by_cases ha : a.size = 12
  · have hb : b.size = 12 := hsize ▸ ha
    have hnumber : ∀ {o : ObjectId}, o.size = 12 → o.number < 2 ^ 96 := fun {o} ho => by
      have := o.number_lt
      rwa [ho] at this
    have hnumbers := congrArg number hab
    rw [skipping, skipping, if_pos ha, if_pos hb, number_ofNat (turn_lt hlimit (hnumber ha)),
      number_ofNat (turn_lt hlimit (hnumber hb))] at hnumbers
    rw [← ofNat_number ha, ← ofNat_number hb, turn_injective h hnumbers]
  · have hb : ¬ b.size = 12 := hsize ▸ ha
    rwa [skipping, skipping, if_neg ha, if_neg hb] at hab

theorem skipping_ofNat (hlimit : limit < 2 ^ 96) {n : Nat} (hn : start < n)
    (h : n + offset ≤ limit) :
    skipping start offset limit (ofNat n) = ofNat (n + offset) := by
  have hsize : (ofNat n).size = 12 := rfl
  rw [skipping, if_pos hsize, number_ofNat (by omega), turn, if_neg (by omega), if_pos h]

/-- Only identifiers with numbers between the two bounds are renamed. -/
theorem skipping_eq_self {o : ObjectId} (h : ∀ n, start < n → n ≤ limit → o ≠ ofNat n) :
    skipping start offset limit o = o := by
  unfold skipping
  split
  · rename_i hsize
    have hout : o.number ≤ start ∨ limit < o.number := by
      by_contra hin
      exact h o.number (by omega) (by omega) (ofNat_number hsize).symm
    rw [turn, if_pos hout, ofNat_number hsize]
  · rfl

end ObjectId

/-- **Renaming new identifiers only**, those with numbers after the one and up to the other. -/
structure RenamesNew (ρ : ObjectId → ObjectId) (first last : Nat) : Prop where
  injective : Function.Injective ρ
  fixes : ∀ o, (∀ n, first < n → n ≤ last → o ≠ .ofNat n) → ρ o = o

/-- Skipping renames only identifiers between the two bounds. -/
theorem renamesNew_skipping {first offset last : Nat} (h : first + offset ≤ last)
    (hlast : last < 2 ^ 96) : RenamesNew (ObjectId.skipping first offset last) first last :=
  ⟨ObjectId.skipping_injective h hlast, fun _ ho => ObjectId.skipping_eq_self ho⟩

/-! ## Conflicts to come -/

namespace MemoryStore

/-- How many conflicts are injected. -/
def injected (m : MemoryStore) : Nat :=
  (injectable.map fun operation => ((Record.get? m.failures operation).getD 0).toNat).sum

/-- The store without injected conflicts. -/
def calmed (m : MemoryStore) : MemoryStore := { m with failures := [] }

/-- A conflict that was met does not come again. -/
theorem injected_spend {m : MemoryStore} {operation : String} (hop : operation ∈ injectable)
    (hc : m.conflicts operation) : (m.spend operation).injected + 1 = m.injected := by
  have hpos : 0 < (Record.get? m.failures operation).getD 0 := hc
  unfold injected spend
  simp only [injectable, List.map_cons, List.map_nil, List.sum_cons, List.sum_nil,
    Record.get?_put]
  simp only [injectable, List.mem_cons, List.not_mem_nil, or_false] at hop
  rcases hop with rfl | rfl | rfl | rfl <;> simp <;> omega

/-- **A session was opened** between two stores, with a transaction in it. -/
structure Opened (s : SessionId) (m m' : MemoryStore) : Prop where
  uncommitted : m.Uncommitted m'
  failures : m'.failures = m.failures
  lastId : m'.lastId = m.lastId
  transaction : m'.transaction? (some s) = some ⟨m.collections, []⟩

/-- **A session was left** between two stores: nothing was committed, and no conflict was met. -/
structure Left (s : SessionId) (m m' : MemoryStore) : Prop where
  uncommitted : m.Uncommitted m'
  failures : m'.failures = m.failures
  lastId : m'.lastId = m.lastId
  known : (m'.sessions[s]?).isSome = true

/-- **A transaction was committed** in a session between two stores. -/
structure Published (s : SessionId) (tr : Transaction) (m m' : MemoryStore) : Prop where
  collections : m'.collections = publish tr m.collections
  commits : m'.commits = m.commits + 1
  failures : m'.failures = m.failures
  lastId : m'.lastId = m.lastId
  known : (m'.sessions[s]?).isSome = true

/-- A session with an open transaction. -/
theorem exists_session {m : MemoryStore} {i : SessionId} {t : Transaction}
    (h : m.transaction? (some i) = some t) :
    ∃ x, m.sessions[i]? = some x ∧ x.transaction = some t := by
  rw [transaction?, Option.bind_some] at h
  exact Option.bind_eq_some_iff.1 h

end MemoryStore

namespace SessionStore

open MemoryStore (Left Published)

variable {p : τ → MemoryStore} {store : SessionStore τ SessionId} {body : SessionId → Action τ α}
  {s : SessionId}

/-- Opening a session and beginning a transaction in it. -/
theorem run_opening (hstore : store.OnMemory p) (t : τ) : ∃ t₁ t₂,
    store.start.run.run t = (.ok (p t).sessions.length, t₁) ∧
      (store.begin (p t).sessions.length).run.run t₁ = (.ok (), t₂) ∧
      MemoryStore.Opened (p t).sessions.length (p t) (p t₂) := by
  obtain ⟨hs₁, hs₂⟩ := hstore.start t
  rcases hs : store.start.run.run t with ⟨r, t₁⟩
  rw [hs] at hs₁ hs₂
  obtain rfl : r = .ok (p t).sessions.length := hs₁
  have hp₁ : p t₁ = { p t with sessions := (p t).sessions.concat ⟨none, false⟩ } := hs₂
  have hsession : (p t₁).sessions[(p t).sessions.length]? = some ⟨none, false⟩ := by
    rw [hp₁]
    simp
  obtain ⟨hb₁, hb₂⟩ := hstore.begin (p t).sessions.length t₁
  rw [MemoryStore.run_begin_eq, hsession] at hb₁ hb₂
  rcases hb : (store.begin (p t).sessions.length).run.run t₁ with ⟨r, t₂⟩
  rw [hb] at hb₁ hb₂
  obtain rfl : r = .ok () := hb₁
  have hp₂ : p t₂ = { p t₁ with
      sessions := (p t₁).sessions.set (p t).sessions.length ⟨some ⟨(p t₁).collections, []⟩,
        false⟩ } :=
    hb₂
  have hopen : (p t₂).transaction? (some (p t).sessions.length) = some ⟨(p t).collections, []⟩ := by
    rw [hp₂, MemoryStore.transaction?_set hsession, if_pos rfl, hp₁]
  refine ⟨t₁, t₂, rfl, hb, ?_, ?_, ?_, hopen⟩
  · rw [hp₂, hp₁]
    exact ⟨rfl, rfl, rfl⟩
  · rw [hp₂, hp₁]
  · rw [hp₂, hp₁]

/-- Aborting leaves an open transaction. -/
theorem run_abortQuietly (hstore : store.OnMemory p) {t : τ} {tr : Transaction}
    (h : (p t).transaction? (some s) = some tr) :
    ∃ t', (store.abortQuietly s).run.run t = (.ok (), t') ∧ Left s (p t) (p t') := by
  refine ⟨_, rfl, ?_⟩
  obtain ⟨x, hx, hxt⟩ := MemoryStore.exists_session h
  obtain ⟨-, ha⟩ := hstore.abort s t
  rw [MemoryStore.run_abort_eq, hx] at ha
  dsimp only at ha
  rw [hxt] at ha
  change Left s (p t) (p ((store.abort s).run.run t).2)
  rw [ha]
  refine ⟨⟨rfl, rfl, rfl⟩, rfl, rfl, ?_⟩
  simp [(List.getElem?_eq_some_iff.1 hx).1]

/-- Ending leaves a session that is known. -/
theorem run_finish (hstore : store.OnMemory p) {t : τ} (h : ((p t).sessions[s]?).isSome = true) :
    ∃ t', (store.finish s).run.run t = (.ok (), t') ∧ Left s (p t) (p t') := by
  obtain ⟨x, hx⟩ := Option.isSome_iff_exists.1 h
  obtain ⟨hf₁, hf₂⟩ := hstore.finish s t
  rw [MemoryStore.run_end_eq, hx] at hf₁ hf₂
  refine ⟨_, Prod.ext hf₁ rfl, ?_⟩
  rw [hf₂]
  refine ⟨⟨rfl, rfl, rfl⟩, rfl, rfl, ?_⟩
  simp [(List.getElem?_eq_some_iff.1 hx).1]

section Attempts

variable {t₁ t₂ t₃ : τ} {v : α} {tr : Transaction}

/-- An attempt whose body fails. -/
theorem run_attempt_error (hstore : store.OnMemory p) {e : Fault}
    (hbegin : (store.begin s).run.run t₁ = (.ok (), t₂))
    (hbody : (body s).run.run t₂ = (.error e, t₃))
    (hopen : (p t₃).transaction? (some s) = some tr) :
    ∃ t₄, (store.attempt body s).run.run t₁ = (.error e, t₄) ∧ Left s (p t₃) (p t₄) := by
  obtain ⟨t₄, habort, hleft⟩ := run_abortQuietly hstore hopen
  refine ⟨t₄, ?_, hleft⟩
  rw [attempt, Action.run_bind_ok hbegin, Action.run_bind_ok (Action.run_observe _ _),
    Action.run_bind_error hbody]
  dsimp only
  rw [Action.run_bind_ok habort, Action.run_throw]

/-- Committing an open transaction meets a conflict, or publishes. -/
theorem run_commit_cases (hstore : store.OnMemory p) {t : τ}
    (hopen : (p t).transaction? (some s) = some tr) : ∃ t',
    ((p t).conflicts "commit" ∧
      (store.commit s).run.run t = (.error (Reason.writeConflict "commit").fault, t') ∧
      p t' = (p t).spend "commit") ∨
    (¬ (p t).conflicts "commit" ∧ (store.commit s).run.run t = (.ok (), t') ∧
      Published s tr (p t) (p t')) := by
  obtain ⟨x, hx, hxt⟩ := MemoryStore.exists_session hopen
  obtain ⟨hc₁, hc₂⟩ := hstore.commit s t
  rw [MemoryStore.run_commit_eq, hx] at hc₁ hc₂
  dsimp only at hc₁ hc₂
  rw [hxt] at hc₁ hc₂
  dsimp only at hc₁ hc₂
  refine ⟨((store.commit s).run.run t).2, ?_⟩
  by_cases hc : (p t).conflicts "commit"
  · rw [if_pos hc] at hc₁ hc₂
    exact .inl ⟨hc, Prod.ext hc₁ rfl, hc₂⟩
  · rw [if_neg hc] at hc₁ hc₂
    refine .inr ⟨hc, Prod.ext hc₁ rfl, ?_⟩
    rw [hc₂]
    refine ⟨rfl, rfl, rfl, rfl, ?_⟩
    simp [(List.getElem?_eq_some_iff.1 hx).1]

/-- An attempt whose body returns meets a conflict at its commit, or is committed. -/
theorem run_attempt_cases (hstore : store.OnMemory p)
    (hbegin : (store.begin s).run.run t₁ = (.ok (), t₂))
    (hbody : (body s).run.run t₂ = (.ok v, t₃)) (hopen : (p t₃).transaction? (some s) = some tr) :
    ∃ t₄, ((p t₃).conflicts "commit" ∧
      (store.attempt body s).run.run t₁ = (.error (Reason.writeConflict "commit").fault, t₄) ∧
      Left s ((p t₃).spend "commit") (p t₄)) ∨
    (¬ (p t₃).conflicts "commit" ∧ (store.attempt body s).run.run t₁ = (.ok v, t₄) ∧
      Published s tr (p t₃) (p t₄)) := by
  obtain ⟨t₄, ⟨hc, hcommit, hp₄⟩ | ⟨hc, hcommit, hpublished⟩⟩ := run_commit_cases hstore hopen
  · have hopen₄ : (p t₄).transaction? (some s) = some tr := by
      rw [hp₄]
      exact hopen
    obtain ⟨t₅, habort, hleft⟩ := run_abortQuietly hstore hopen₄
    refine ⟨t₅, .inl ⟨hc, ?_, hp₄ ▸ hleft⟩⟩
    rw [attempt, Action.run_bind_ok hbegin, Action.run_bind_ok (Action.run_observe _ _),
      Action.run_bind_ok hbody, Action.run_bind_error hcommit]
    dsimp only
    rw [Action.run_bind_ok habort, Action.run_throw]
  · refine ⟨t₄, .inr ⟨hc, ?_, hpublished⟩⟩
    rw [attempt, Action.run_bind_ok hbegin, Action.run_bind_ok (Action.run_observe _ _),
      Action.run_bind_ok hbody, Action.run_bind_ok hcommit]
    rfl

end Attempts

/-! ## Numbers along the attempts -/

section Climbing

variable {policy : RetryPolicy τ}

theorem climbs_start (hstore : store.OnMemory p) : Climbs p store.start :=
  hstore.start.moves (R := Ascends id) fun m => ⟨Nat.le_refl m.lastId, fun _ _ => trivial⟩

theorem climbs_begin (hstore : store.OnMemory p) (s : SessionId) : Climbs p (store.begin s) := by
  refine (hstore.begin s).moves (R := Ascends id) fun m => ⟨?_, fun _ _ => trivial⟩
  rw [MemoryStore.run_begin_eq]
  split
  · exact Climbs.refl (p := id) m
  · split <;> exact Nat.le_refl m.lastId

theorem climbs_commit (hstore : store.OnMemory p) (s : SessionId) : Climbs p (store.commit s) := by
  refine (hstore.commit s).moves (R := Ascends id) fun m => ⟨?_, fun _ _ => trivial⟩
  rw [MemoryStore.run_commit_eq]
  split
  · exact Climbs.refl (p := id) m
  · split
    · exact Climbs.refl (p := id) m
    · split <;> exact Nat.le_refl m.lastId

theorem climbs_abort (hstore : store.OnMemory p) (s : SessionId) : Climbs p (store.abort s) := by
  refine (hstore.abort s).moves (R := Ascends id) fun m => ⟨?_, fun _ _ => trivial⟩
  rw [MemoryStore.run_abort_eq]
  split
  · exact Climbs.refl (p := id) m
  · split <;> exact Nat.le_refl m.lastId

theorem climbs_finish (hstore : store.OnMemory p) (s : SessionId) : Climbs p (store.finish s) := by
  refine (hstore.finish s).moves (R := Ascends id) fun m => ⟨?_, fun _ _ => trivial⟩
  rw [MemoryStore.run_end_eq]
  split <;> exact Nat.le_refl m.lastId

/-- What follows the body in an attempt. -/
theorem climbs_giveUp (hstore : store.OnMemory p) (s : SessionId) (outcome : Outcome α) :
    Climbs p (match outcome with
      | .ok result => pure result
      | .error e => do
        store.abortQuietly s
        throw e : Action τ α) := by
  cases outcome with
  | ok v => exact .pure v
  | error e =>
    exact .bind (.bind (climbs_abort hstore s).observe fun _ => .pure _) fun _ => .throw e

theorem climbs_attempt (hstore : store.OnMemory p) (hbody : Climbs p (body s)) :
    Climbs p (store.attempt body s) := by
  refine .bind (climbs_begin hstore s) fun _ => .bind (Climbs.observe ?_) (climbs_giveUp hstore s)
  exact .bind hbody fun v => .bind (climbs_commit hstore s) fun _ => .pure v

/-- What follows an attempt. -/
def settle (store : SessionStore τ SessionId) (policy : RetryPolicy τ)
    (body : SessionId → Action τ α) (left number : Nat) (s : SessionId) : Outcome α → Action τ α
  | .ok result => do
    store.finish s
    pure result
  | .error e =>
    if !e.isTransient then do
      store.finish s
      throw e
    else
      match left with
      | 0 => do
        store.finish s
        throw (exhausted number e)
      | left + 1 => do
        let pause ← Action.observe do
          let d ← policy.backoff number
          policy.sleep d
        store.finish s
        match pause with
        | .error e => throw e
        | .ok () => runFrom store policy body left (number + 1)

theorem runFrom_eq (left number : Nat) : runFrom store policy body left number =
    store.start >>= fun s => (store.attempt body s).observe >>=
      settle store policy body left number s := by
  rw [runFrom.eq_def]
  refine bind_congr fun s => bind_congr fun outcome => ?_
  cases outcome with
  | ok v => rfl
  | error e => cases left <;> rfl

theorem climbs_settle (hstore : store.OnMemory p) (hsleep : ∀ d, Climbs p (policy.sleep d))
    (hbody : ∀ s, Climbs p (body s)) (left number : Nat) (s : SessionId) (outcome : Outcome α) :
    Climbs p (settle store policy body left number s outcome) := by
  have hend : ∀ e, Climbs p (do store.finish s; throw e : Action τ α) := fun e =>
    .bind (climbs_finish hstore s) fun _ => .throw e
  induction left generalizing number s outcome with
  | zero =>
    cases outcome with
    | ok v => exact .bind (climbs_finish hstore s) fun _ => .pure v
    | error e =>
      rw [settle]
      split
      · exact hend e
      · exact hend _
  | succ left ih =>
    cases outcome with
    | ok v => exact .bind (climbs_finish hstore s) fun _ => .pure v
    | error e =>
      rw [settle]
      split
      · exact hend e
      refine .bind (Climbs.observe (.lift_bind hsleep)) fun pause => ?_
      refine .bind (climbs_finish hstore s) fun _ => ?_
      cases pause with
      | error e => exact .throw e
      | ok _ =>
        dsimp only
        rw [runFrom_eq]
        refine .bind (climbs_start hstore) fun s => ?_
        refine .bind (climbs_attempt hstore (hbody s)).observe fun outcome => ?_
        exact ih (number + 1) s outcome fun e => .bind (climbs_finish hstore s) fun _ => .throw e

/-- The numbers that the body of an attempt has drawn are drawn at the end, whatever follows. -/
theorem lastId_body_le (hstore : store.OnMemory p) (hsleep : ∀ d, Climbs p (policy.sleep d))
    (hbody : ∀ s, Climbs p (body s)) {left number : Nat} {t t₁ t₂ : τ}
    (hs : store.start.run.run t = (.ok s, t₁)) (hb : (store.begin s).run.run t₁ = (.ok (), t₂)) :
    (p ((body s).run.run t₂).2).lastId ≤
      (p ((store.runFrom policy body left number).run.run t).2).lastId := by
  have hafter : ∀ {α β : Type} {a : Action τ α} {f : α → Action τ β} (t : τ),
      (∀ v, Climbs p (f v)) → Ascends p (a.run.run t).2 ((a >>= f).run.run t).2 := by
    intro α β a f t hf
    rw [Action.run_bind]
    rcases a.run.run t with ⟨e | v, t'⟩
    · exact Climbs.refl _
    · exact (hf v t').1
  rw [runFrom_eq, Action.run_bind_ok hs]
  calc (p ((body s).run.run t₂).2).lastId
    _ ≤ (p ((body s >>= fun v => do store.commit s; pure v).run.run t₂).2).lastId :=
        hafter t₂ fun v => .bind (climbs_commit hstore s) fun _ => .pure v
    _ ≤ (p ((store.attempt body s).run.run t₁).2).lastId := by
        rw [attempt, Action.run_bind_ok hb]
        exact hafter (a := Action.observe _) t₂ (climbs_giveUp hstore s)
    _ ≤ _ := hafter (a := Action.observe _) t₁ (climbs_settle hstore hsleep hbody left number s)

end Climbing

end SessionStore

/-! ## An attempt and its retake -/

/-- **The same outcome**, up to a renaming, of two runs that end with `r` on the store `m` and with
`r'` on the store `m'`; the second run began with `commits` commits, and has added one if it
returned. -/
structure SameOutcome (ρ : ObjectId → ObjectId) (Q : α → α → Prop) (commits : Nat) (r : Outcome α)
    (m : MemoryStore) (r' : Outcome α) (m' : MemoryStore) : Prop where
  outcome : Corresponds ρ Q r r'
  collections : m'.collections = Collections.rename ρ m.collections
  committed : ∀ v, r' = .ok v → m'.commits = commits + 1
  uncommitted : ∀ e, r' = .error e → m'.commits = commits

/-- Sessions that are left afterwards do not count. -/
theorem SameOutcome.left {Q : α → α → Prop} {commits : Nat} {r r' : Outcome α}
    {m m' u u' : MemoryStore} (h : SameOutcome ρ Q commits r m r' m') {i j : SessionId}
    (hu : MemoryStore.Left i m u) (hu' : MemoryStore.Left j m' u') :
    SameOutcome ρ Q commits r u r' u' where
  outcome := h.outcome
  collections := by rw [hu.uncommitted.collections, hu'.uncommitted.collections, h.collections]
  committed := fun v hv => hu'.uncommitted.commits.trans (h.committed v hv)
  uncommitted := fun e he => hu'.uncommitted.commits.trans (h.uncommitted e he)

/-- What is shown of the same outcome is the same. -/
theorem SameOutcome.map {β : Type} {Q : α → α → Prop} {Q' : β → β → Prop} {commits : Nat}
    {r r' : Outcome α} {m m' : MemoryStore} (h : SameOutcome ρ Q commits r m r' m') {g : α → β}
    (hg : ∀ v w, Q v w → Q' (g v) (g w)) :
    SameOutcome ρ Q' commits (r.map g) m (r'.map g) m' := by
  obtain ⟨houtcome, hcollections, hcommitted, huncommitted⟩ := h
  cases houtcome with
  | ok hv =>
    exact ⟨.ok (hg _ _ hv), hcollections, fun _ _ => hcommitted _ rfl, fun e he => by cases he⟩
  | error hrenamed he =>
    exact ⟨.error hrenamed he, hcollections, fun v hv => (by cases hv), fun _ _ =>
      huncommitted _ rfl⟩

/-- The stores of two runs, the second with conflicts to come: nothing was committed between
them. -/
structure MemoryStore.Resumes (m m' : MemoryStore) : Prop where
  uncommitted : m.Uncommitted m'
  calm : m.failures = []
  lastId : m.lastId ≤ m'.lastId

namespace MemoryStore.Resumes

variable {m m' m₂ m₂' : MemoryStore} {limit : Nat}

theorem renamesNew (h : m.Resumes m') (hbelow : m'.lastId ≤ limit) (hlimit : limit < 2 ^ 96) :
    RenamesNew (ObjectId.skipping m.lastId (m'.lastId - m.lastId) limit) m.lastId limit := by
  have hlast := h.lastId
  exact renamesNew_skipping (by omega) hlimit

/-- The retake that begins on the second store: the identifiers that were made between the two are
skipped. -/
def retake (h : m.Resumes m') (hbelow : m'.lastId ≤ limit) (hlimit : limit < 2 ^ 96) : Retake where
  rename := ObjectId.skipping m.lastId (m'.lastId - m.lastId) limit
  injective := (h.renamesNew hbelow hlimit).injective
  store := m'
  offset := m'.lastId - m.lastId
  limit := limit
  renames := fun n hn hle => by
    have hlast := h.lastId
    exact ObjectId.skipping_ofNat hlimit (by omega) hle

/-- The two takes are in step when a session was opened for each. -/
theorem inStep (h : m.Resumes m') (hbelow : m'.lastId ≤ limit) (hlimit : limit < 2 ^ 96)
    (hfixed : Collections.rename (h.retake hbelow hlimit).rename m'.collections = m'.collections)
    {i j : SessionId} (hopen : Opened i m m₂) (hopen' : Opened j m' m₂') :
    InStep (h.retake hbelow hlimit) i j m₂ m₂' where
  transaction := by
    refine ⟨_, hopen.transaction, ?_⟩
    rw [hopen'.transaction, Transaction.rename, ← h.uncommitted.collections, hfixed]
    rfl
  first := ⟨hopen.uncommitted.collections.trans h.uncommitted.collections.symm,
    hopen.uncommitted.schemas.trans h.uncommitted.schemas.symm,
    hopen.uncommitted.commits.trans h.uncommitted.commits.symm⟩
  retake := hopen'.uncommitted
  calm := hopen.failures.trans h.calm
  failures := hopen'.failures
  lastId := by
    have hlast := h.lastId
    rw [hopen'.lastId, hopen.lastId]
    change _ = _ + (m'.lastId - m.lastId)
    omega
  started := Nat.le_of_eq hopen'.lastId.symm

end MemoryStore.Resumes

/-- **What a conflict leaves behind** between two stores: one conflict less to come, identifiers
that were used up, and a session to be ended. -/
structure MemoryStore.Spent (s : SessionId) (m m' : MemoryStore) : Prop where
  uncommitted : m.Uncommitted m'
  injected : m'.injected + 1 = m.injected
  lastId : m.lastId ≤ m'.lastId
  known : (m'.sessions[s]?).isSome = true

theorem InStep.spent {k : Retake} {i j : SessionId} {m m' u : MemoryStore} (h : InStep k i j m m')
    {operation : String} (hop : operation ∈ injectable) (hc : m'.conflicts operation)
    (hleft : MemoryStore.Left j (m'.spend operation) u) : MemoryStore.Spent j k.store u where
  uncommitted := by
    refine MemoryStore.Uncommitted.trans ?_ hleft.uncommitted
    exact ⟨h.retake.collections, h.retake.schemas, h.retake.commits⟩
  injected := by
    rw [MemoryStore.injected, hleft.failures]
    change (m'.spend operation).injected + 1 = _
    rw [MemoryStore.injected_spend hop hc, MemoryStore.injected, h.failures]
    rfl
  lastId := by
    rw [hleft.lastId]
    exact h.started
  known := hleft.known

namespace SessionStore

variable {p : τ → MemoryStore} {store : SessionStore τ SessionId} {body : SessionId → Action τ α}
  {k : Retake} {Q : α → α → Prop}

/-- **An attempt and its retake**: the retake is struck by a conflict and leaves nothing else
behind, or both have the same outcome. -/
theorem attempt_retaken (hstore : store.OnMemory p) {i j : SessionId} {t₁ t₂ t₁' t₂' : τ}
    (hbegin : (store.begin i).run.run t₁ = (.ok (), t₂))
    (hbegin' : (store.begin j).run.run t₁' = (.ok (), t₂')) (hstep : InStep k i j (p t₂) (p t₂'))
    (hfixed : Collections.rename k.rename k.store.collections = k.store.collections)
    (hbody : Mirrors p k i j Q (body i) (body j))
    (hlimit : (p ((body j).run.run t₂').2).lastId ≤ k.limit) :
    (∃ operation u', (store.attempt body j).run.run t₁' =
        (.error (Reason.writeConflict operation).fault, u') ∧ MemoryStore.Spent j k.store (p u')) ∨
    ∃ r u r' u', (store.attempt body i).run.run t₁ = (r, u) ∧
      (store.attempt body j).run.run t₁' = (r', u') ∧
      SameOutcome k.rename Q k.store.commits r (p u) r' (p u') ∧
      ((p u).sessions[i]?).isSome = true ∧ ((p u').sessions[j]?).isSome = true := by
  have hmirrors := hbody t₂ t₂' hstep hlimit
  rcases hr : (body i).run.run t₂ with ⟨r, t₃⟩
  rcases hr' : (body j).run.run t₂' with ⟨r', t₃'⟩
  rw [hr, hr'] at hmirrors
  rcases hmirrors with ⟨m, m', operation, hstep', hop, hc, rfl, hm⟩ | ⟨hstep', houtcome⟩
  · obtain ⟨tr, -, hopen⟩ := hstep'.transaction
    have hopen' : (p t₃').transaction? (some j) = some (tr.rename k.rename) := by
      rw [hm]
      exact hopen
    obtain ⟨u', hu', hleft⟩ := run_attempt_error hstore hbegin' hr' hopen'
    dsimp only at hm
    rw [hm] at hleft
    exact .inl ⟨operation, u', hu', hstep'.spent hop hc hleft⟩
  obtain ⟨tr, hopen, hopen'⟩ := hstep'.transaction
  dsimp only at hstep' hopen hopen'
  cases houtcome with
  | error h he =>
    obtain ⟨u, hu, hleft⟩ := run_attempt_error hstore hbegin hr hopen
    obtain ⟨u', hu', hleft'⟩ := run_attempt_error hstore hbegin' hr' hopen'
    have hsame : SameOutcome k.rename Q k.store.commits (.error _) (p t₃) (.error _) (p t₃') :=
      { outcome := .error h he
        collections := by rw [hstep'.first.collections, hstep'.retake.collections, hfixed]
        committed := fun v hv => by cases hv
        uncommitted := fun _ _ => hstep'.retake.commits }
    exact .inr ⟨_, u, _, u', hu, hu', hsame.left hleft hleft', hleft.known, hleft'.known⟩
  | ok h =>
    obtain ⟨u', ⟨hc, hu', hleft⟩ | ⟨-, hu', hpublished'⟩⟩ :=
      run_attempt_cases hstore hbegin' hr' hopen'
    · exact .inl ⟨"commit", u', hu', hstep'.spent (by decide) hc hleft⟩
    obtain ⟨u, ⟨hc, -⟩ | ⟨-, hu, hpublished⟩⟩ :=
      run_attempt_cases hstore hbegin hr hopen
    · exact absurd hc (hstep'.calm_of "commit")
    refine .inr ⟨_, u, _, u', hu, hu', ?_, hpublished.known, hpublished'.known⟩
    exact
      { outcome := .ok h
        collections := by
          rw [hpublished'.collections, hpublished.collections, hstep'.first.collections,
            hstep'.retake.collections]
          calc MemoryStore.publish (tr.rename k.rename) k.store.collections
            _ = MemoryStore.publish (tr.rename k.rename)
                  (Collections.rename k.rename k.store.collections) := by rw [hfixed]
            _ = Collections.rename k.rename (MemoryStore.publish tr k.store.collections) :=
              MemoryStore.publish_rename k.injective tr _
        committed := fun _ _ => by rw [hpublished'.commits, hstep'.retake.commits]
        uncommitted := fun e he => by cases he }

/-! ## Attempts until one is not struck -/

variable {policy : RetryPolicy τ} {s : SessionId} {left number : Nat} {t t₁ t₂ : τ}

/-- After the last attempt there is only the session to end. -/
theorem run_runFrom_final (hs : store.start.run.run t = (.ok s, t₁)) {r : Outcome α}
    (ha : (store.attempt body s).run.run t₁ = (r, t₂))
    (hr : ∀ e, r = .error e → e.isTransient = false) :
    (store.runFrom policy body left number).run.run t =
      (do store.finish s; liftM r : Action τ α).run.run t₂ := by
  cases r with
  | ok v => exact run_runFrom_ok hs ha
  | error e =>
    rw [run_runFrom_error hs ha (.inl (hr e rfl)), hr e rfl]
    rfl

/-- The last attempt decides the outcome when it does not ask for another one. -/
theorem run_runFrom_last (policy : RetryPolicy τ) (left number : Nat) (hstore : store.OnMemory p)
    (hs : store.start.run.run t = (.ok s, t₁))
    {r : Outcome α} (ha : (store.attempt body s).run.run t₁ = (r, t₂))
    (hr : ∀ e, r = .error e → e.isTransient = false)
    (hknown : ((p t₂).sessions[s]?).isSome = true) :
    ∃ t₃, (store.runFrom policy body left number).run.run t = (r, t₃) ∧
      MemoryStore.Left s (p t₂) (p t₃) := by
  obtain ⟨t₃, hfinish, hleft⟩ := run_finish hstore hknown
  refine ⟨t₃, ?_, hleft⟩
  rw [run_runFrom_final hs ha hr, Action.run_bind_ok hfinish, Action.run_lift]

/-- An attempt that was struck is followed by a pause and the next attempt. -/
theorem run_runFrom_struck (left : Nat) (hstore : store.OnMemory p)
    (hsleep : ∀ d t, ∃ t', (policy.sleep d).run.run t = (.ok (), t') ∧ p t' = p t)
    (hs : store.start.run.run t = (.ok s, t₁)) {e : Fault}
    (ha : (store.attempt body s).run.run t₁ = (.error e, t₂)) (he : e.isTransient = true)
    {d : Duration} (hd : policy.backoff number = .ok d)
    (hknown : ((p t₂).sessions[s]?).isSome = true) :
    ∃ t₃, (store.runFrom policy body (left + 1) number).run.run t =
        (store.runFrom policy body left (number + 1)).run.run t₃ ∧
      MemoryStore.Left s (p t₂) (p t₃) := by
  obtain ⟨ts, hslept, hps⟩ := hsleep d t₂
  rw [← hps] at hknown ⊢
  obtain ⟨t₃, hfinish, hleft⟩ := run_finish hstore hknown
  refine ⟨t₃, ?_, hleft⟩
  have hpause : (do
      let d ← policy.backoff number
      policy.sleep d : Action τ Unit).run.run t₂ = (.ok (), ts) := by
    rw [hd]
    exact hslept
  rw [run_runFrom_again hs ha he, Action.run_bind_ok (Action.run_observe _ _), hpause,
    Action.run_bind_ok hfinish]

/-- **A body that can be retaken**: it runs in sessions of the memory store `p`, gives no identifier
back, and mirrors itself under renamings that fix `ids`, up to an image of what it returns. -/
structure Retakeable (p : τ → MemoryStore) (store : SessionStore τ SessionId)
    (policy : RetryPolicy τ) (body : SessionId → Action τ α) (image : (ObjectId → ObjectId) → α → α)
    (ids : List ObjectId) :
    Prop where
  store : store.OnMemory p
  sleep : ∀ d t, ∃ t', (policy.sleep d).run.run t = (.ok (), t') ∧ p t' = p t
  climbs : ∀ s, Climbs p (body s)
  mirrors : ∀ k : Retake, (∀ o ∈ ids, k.rename o = o) →
    ∀ i j, Mirrors p k i j (fun v w => w = image k.rename v) (body i) (body j)

theorem Retakeable.climbs_sleep {image : (ObjectId → ObjectId) → α → α} {ids : List ObjectId}
    (h : Retakeable p store policy body image ids) (d : Duration) : Climbs p (policy.sleep d) := by
  intro t
  obtain ⟨t', hslept, hp⟩ := h.sleep d t
  rw [hslept]
  exact ⟨Nat.le_of_eq (congrArg _ hp.symm), fun _ _ => trivial⟩

section Rounds

variable {image : (ObjectId → ObjectId) → α → α} {ids : List ObjectId} {t t' u' : τ}
  {r' : Outcome α}

/-- **One round** against an attempt without conflicts: it is struck, or decides the outcome. The
numbers that the body draws are drawn when the run ends. -/
theorem round_transparent (h : Retakeable p store policy body image ids)
    (hresumes : (p t).Resumes (p t')) (hids : ∀ o ∈ (p t).collections.mentioned, o ∈ ids)
    (left₀ number₀ : Nat)
    (hrun : (store.runFrom policy body left number).run.run t' = (r', u'))
    (hlimit : (p u').lastId < 2 ^ 96)
    (hfresh : ∀ n, (p t).lastId < n → n ≤ (p u').lastId → .ofNat n ∉ ids) :
    (∃ j t₁' e u, store.start.run.run t' = (.ok j, t₁') ∧
      (store.attempt body j).run.run t₁' = (.error e, u) ∧ e.isTransient = true ∧
      MemoryStore.Spent j (p t') (p u)) ∨
    ∃ ρ, RenamesNew ρ (p t).lastId (p u').lastId ∧ ∃ r u,
      (store.runFrom policy body left₀ number₀).run.run t = (r, u) ∧
      SameOutcome ρ (fun v w => w = image ρ v) (p t).commits r (p u) r' (p u') := by
  obtain ⟨t₁, t₂, hs, hb, hopen⟩ := run_opening h.store t
  obtain ⟨t₁', t₂', hs', hb', hopen'⟩ := run_opening h.store t'
  have hdrawn : (p ((body (p t').sessions.length).run.run t₂').2).lastId ≤
      (p ((store.runFrom policy body left number).run.run t').2).lastId :=
    lastId_body_le h.store h.climbs_sleep h.climbs hs' hb'
  rw [hrun] at hdrawn
  have hbelow : (p t').lastId ≤ (p u').lastId := by
    rw [← hopen'.lastId]
    exact Nat.le_trans (h.climbs _ t₂').1 hdrawn
  have hnew := hresumes.renamesNew hbelow hlimit
  have hkept : ∀ o ∈ ids, (hresumes.retake hbelow hlimit).rename o = o := fun o ho =>
    hnew.fixes o fun n hn hle hon => hfresh n hn hle (hon ▸ ho)
  have hfixed : Collections.rename (hresumes.retake hbelow hlimit).rename (p t').collections =
      (p t').collections := by
    rw [hresumes.uncommitted.collections]
    exact Collections.rename_eq_self fun o ho => hkept o (hids o ho)
  have hstep := hresumes.inStep hbelow hlimit hfixed hopen hopen'
  rcases attempt_retaken h.store hb hb' hstep hfixed (h.mirrors _ hkept _ _) hdrawn with
    ⟨operation, u, hu, hspent⟩ | ⟨r, u, r'', u'', hu, hu', hsame, hknown, hknown'⟩
  · exact .inl ⟨_, t₁', _, u, hs', hu, rfl, hspent⟩
  · obtain ⟨hfinal, hfinal'⟩ := hsame.outcome.not_transient
    obtain ⟨v, hv, hleft⟩ := run_runFrom_last policy left₀ number₀ h.store hs hu hfinal hknown
    obtain ⟨v', hv', hleft'⟩ := run_runFrom_last policy left number h.store hs' hu' hfinal' hknown'
    rw [hrun] at hv'
    cases hv'
    refine .inr ⟨_, hnew, r, v, hv, ?_⟩
    rw [← hresumes.uncommitted.commits]
    exact hsame.left hleft hleft'

/-- **Attempts with conflicts to come, against one attempt without.** As many conflicts may come as
attempts are left. -/
theorem runFrom_transparent (h : Retakeable p store policy body image ids)
    (hresumes : (p t).Resumes (p t')) (hids : ∀ o ∈ (p t).collections.mentioned, o ∈ ids)
    (left₀ number₀ left number : Nat) (hleft : (p t').injected ≤ left)
    (hpauses : ∀ n, number ≤ n → n < number + (p t').injected → ∃ d, policy.backoff n = .ok d)
    (hrun : (store.runFrom policy body left number).run.run t' = (r', u'))
    (hlimit : (p u').lastId < 2 ^ 96)
    (hfresh : ∀ n, (p t).lastId < n → n ≤ (p u').lastId → .ofNat n ∉ ids) :
    ∃ ρ, RenamesNew ρ (p t).lastId (p u').lastId ∧ ∃ r u,
      (store.runFrom policy body left₀ number₀).run.run t = (r, u) ∧
      SameOutcome ρ (fun v w => w = image ρ v) (p t).commits r (p u) r' (p u') := by
  induction left generalizing number t' with
  | zero =>
    rcases round_transparent h hresumes hids left₀ number₀ hrun hlimit hfresh with
      ⟨j, t₁', e, u, -, -, -, hspent⟩ | hdone
    · have := hspent.injected
      omega
    · exact hdone
  | succ left ih =>
    rcases round_transparent h hresumes hids left₀ number₀ hrun hlimit hfresh with
      ⟨j, t₁', e, u, hs, ha, he, hspent⟩ | hdone
    · have hinjected := hspent.injected
      obtain ⟨d, hd⟩ := hpauses number (Nat.le_refl _) (by omega)
      obtain ⟨t₃, hagain, hended⟩ :=
        run_runFrom_struck left h.store h.sleep hs ha he hd hspent.known
      have hrest : (p t₃).injected = (p u).injected := by
        rw [MemoryStore.injected, hended.failures]
        rfl
      rw [hagain] at hrun
      have hresumes₃ : (p t).Resumes (p t₃) := by
        refine ⟨hresumes.uncommitted.trans (hspent.uncommitted.trans hended.uncommitted),
          hresumes.calm, ?_⟩
        rw [hended.lastId]
        exact Nat.le_trans hresumes.lastId hspent.lastId
      exact ih hresumes₃ (number + 1) (by omega) (fun n hn hlt =>
        hpauses n (by omega) (by omega)) hrun
    · exact hdone

end Rounds

end SessionStore

/-! ## Whole calls -/

/-- The identifiers that the arguments of a call mention. -/
def WriteCall.mentioned : WriteCall → List ObjectId
  | add _ args => args.mentioned
  | update _ args => args.mentioned
  | delete _ id => id.mentioned
  | act _ _ args => args.mentioned
  | custom _ args => args.mentioned

namespace Executor

variable {p : τ → MemoryStore} {x : Executor τ SessionId} {t t' : τ}

/-- **Transparent calls**: the call ends from the state `t'` as it does from the state `t`, up to
the names of the identifiers that it makes. -/
def TransparentCall (x : Executor τ SessionId) (p : τ → MemoryStore) (call : WriteCall) (t t' : τ) :
    Prop :=
  ∃ ρ, RenamesNew ρ (p t).lastId (p ((call.run x none).run.run t').2).lastId ∧
    SameOutcome ρ (fun v w => w = v.rename ρ) (p t).commits
      ((call.run x none).run.run t).1 (p ((call.run x none).run.run t).2)
      ((call.run x none).run.run t').1 (p ((call.run x none).run.run t').2)

/-- A call that looks something up, runs a body and shows what the body gives. -/
theorem transparent_of_transact {β : Type} {call : WriteCall} {o : Outcome β} {P : β → Prop}
    (body : β → SessionId → Action τ α) {g : α → Value} (image : (ObjectId → ObjectId) → α → α)
    {ids : List ObjectId} (hrun : call.run x none = do
      let b ← liftM o
      let v ← x.transact (body b) none
      pure (g v))
    (hg : ∀ ρ v, g (image ρ v) = (g v).rename ρ) (ho : Yields P o)
    (hbody : ∀ b, P b →
      SessionStore.Retakeable p x.store.toSessionStore x.policy (body b) image ids)
    (hresumes : (p t).Resumes (p t')) (hids : ∀ o ∈ (p t).collections.mentioned, o ∈ ids)
    (hleft : (p t').injected < x.policy.maxAttempts)
    (hpauses : ∀ n, 1 ≤ n → n ≤ (p t').injected → ∃ d, x.policy.backoff n = .ok d)
    (hlimit : (p ((call.run x none).run.run t').2).lastId < 2 ^ 96)
    (hfresh : ∀ n, (p t).lastId < n → n ≤ (p ((call.run x none).run.run t').2).lastId →
      .ofNat n ∉ ids) : x.TransparentCall p call t t' := by
  unfold TransparentCall
  rw [hrun] at hlimit hfresh ⊢
  rcases o with e | b
  · refine ⟨id, ⟨Function.injective_id, fun _ _ => rfl⟩, ?_⟩
    exact
      { outcome := .refused ho
        collections := hresumes.uncommitted.collections.trans
          (Collections.rename_eq_self fun _ _ => rfl).symm
        committed := fun v hv => by cases hv
        uncommitted := fun _ _ => hresumes.uncommitted.commits }
  have hshow : ∀ t, (do
      let b ← liftM (.ok b : Outcome β)
      let v ← x.transact (body b) none
      pure (g v) : Action τ Value).run.run t =
      (((x.transact (body b) none).run.run t).1.map g, ((x.transact (body b) none).run.run t).2) :=
    fun t => Action.run_bind_pure _ g t
  rw [hshow t'] at hlimit hfresh ⊢
  rw [hshow t]
  obtain ⟨ρ, hρ, r, u, hr, hsame⟩ := SessionStore.runFrom_transparent (hbody b ho) hresumes hids
    (x.policy.maxAttempts - 1) 1 (x.policy.maxAttempts - 1) 1 (by omega)
    (fun n hn hlt => hpauses n hn (by omega)) rfl hlimit hfresh
  refine ⟨ρ, hρ, ?_⟩
  rw [show (x.transact (body b) none).run.run t = (r, u) from hr]
  exact hsame.map fun v w hw => by rw [hw, hg]

end Executor

theorem Executor.yields_stateAction (d : Descriptor) (name : String) :
    Yields (fun a => Executor.stateAction d name = .ok a) (Executor.stateAction d name) := by
  rcases h : Executor.stateAction d name with e | a
  · unfold Executor.stateAction at h
    split at h <;> cases h
    rfl
  · exact rfl

/-- **Retries are transparent.** On a memory store, take a call that writes and runs no user code,
with conflicts injected for the operations of the store, fewer in all than the attempts that the
policy allows, and suppose that the policy has a pause for each of them. The call ends as it does
when no conflict is injected: with the same result or the same error, which is no conflict, and with
the same committed documents, up to the names of the identifiers that it makes; and it adds one
commit if it returns, and none if it fails. The identifiers that it makes, also in attempts that met
a conflict, are new: neither the committed documents nor the arguments nor the states of the service
mention them, and no number is used twice. -/
theorem writeCall_transparent (c : Component τ MemoryStore) (hc : ∀ m t, c.get (c.set m t) = m)
    (x : Executor τ SessionId) (hx : x.store = MemoryStore.documentStore.within c)
    (hsleep : ∀ d t, ∃ t', (x.policy.sleep d).run.run t = (.ok (), t') ∧ c.get t' = c.get t)
    (hb : ∀ n, x.behaviour.entity n = .none) (call : WriteCall)
    (hcall : ∀ name args, call ≠ .custom name args) {t t' : τ} (ht : c.get t = (c.get t').calmed)
    (hleft : (c.get t').injected < x.policy.maxAttempts)
    (hpauses : ∀ n, 1 ≤ n → n ≤ (c.get t').injected → ∃ d, x.policy.backoff n = .ok d)
    (hlimit : (c.get ((call.run x none).run.run t').2).lastId < 2 ^ 96)
    (hfresh : ∀ n, (c.get t').lastId < n → n ≤ (c.get ((call.run x none).run.run t').2).lastId →
      .ofNat n ∉ (c.get t').collections.mentioned ++ call.mentioned ++ x.registry.mentioned) :
    x.TransparentCall c.get call t t' := by
  have hstore : x.store.OnMemory c.get := by
    rw [hx]
    exact MemoryStore.onMemory_within hc
  have hresumes : (c.get t).Resumes (c.get t') := by
    rw [ht]
    exact ⟨⟨rfl, rfl, rfl⟩, rfl, Nat.le_refl _⟩
  have hids : ∀ o ∈ (c.get t).collections.mentioned,
      o ∈ (c.get t').collections.mentioned ++ call.mentioned ++ x.registry.mentioned := by
    intro o ho
    rw [ht] at ho
    exact List.mem_append_left _ (List.mem_append_left _ ho)
  have hretakes : ∀ k : Retake, (∀ o ∈ (c.get t').collections.mentioned ++ call.mentioned ++
      x.registry.mentioned, k.rename o = o) → x.Retakes c.get k := fun k hk =>
    ⟨hstore, hb, fun o ho => hk o (List.mem_append_right _ ho)⟩
  have hargs : ∀ k : Retake, (∀ o ∈ (c.get t').collections.mentioned ++ call.mentioned ++
      x.registry.mentioned, k.rename o = o) → ∀ o ∈ call.mentioned, k.rename o = o :=
      fun k hk o ho =>
    hk o (List.mem_append_left _ (List.mem_append_right _ ho))
  have hfirst : (c.get t).lastId = (c.get t').lastId := by
    rw [ht]
    rfl
  rw [← hfirst] at hfresh
  have hshown : ∀ (ρ : ObjectId → ObjectId) (v : Option Document),
      Executor.documentOrNull (v.map (Document.rename ρ)) =
      (Executor.documentOrNull v).rename ρ := by
    intro ρ v
    cases v with
    | none => rfl
    | some d => exact (Value.rename_object d).symm
  cases call with
  | add entity args =>
    refine Executor.transparent_of_transact (o := x.descriptor entity) (g := .object) _
      Document.rename rfl (fun ρ v => (Value.rename_object v).symm) (yields_descriptor x entity)
      (fun d hd => ⟨hstore.sessions, hsleep, fun s => ?_, fun k hk i j => ?_⟩)
      hresumes hids hleft hpauses hlimit hfresh
    · exact Executor.climbs_saveIn hstore hb d none args
    · exact Executor.mirrors_saveIn (hretakes k hk) hd none args (hargs k hk)
  | update entity args =>
    refine Executor.transparent_of_transact (o := x.descriptor entity)
      (g := Executor.documentOrNull) _ (fun ρ v => v.map (Document.rename ρ)) rfl hshown
      (yields_descriptor x entity) (fun d hd =>
      ⟨hstore.sessions, hsleep, fun s => ?_, fun k hk i j => ?_⟩) hresumes hids hleft
        hpauses hlimit hfresh
    · exact Executor.climbs_updateIn hstore hb d none args
    · exact Executor.mirrors_updateIn (hretakes k hk) d none args (hargs k hk)
  | delete entity id =>
    refine Executor.transparent_of_transact (o := x.descriptor entity)
      (g := Executor.documentOrNull) _ (fun ρ v => v.map (Document.rename ρ)) rfl hshown
      (yields_descriptor x entity) (fun d hd =>
      ⟨hstore.sessions, hsleep, fun s => ?_, fun k hk i j => ?_⟩) hresumes hids hleft
        hpauses hlimit hfresh
    · exact Executor.climbs_deleteIn hstore hb d id
    · exact Executor.mirrors_deleteIn (hretakes k hk) d (hargs k hk)
  | act entity action args =>
    have hlookup : Yields (fun b : Descriptor × StateAction =>
        b.1 ∈ Record.values x.registry.descriptors ∧ Executor.stateAction b.1 action = .ok b.2) (do
          let d ← x.descriptor entity
          let a ← Executor.stateAction d action
          pure (d, a)) :=
      (yields_descriptor x entity).bind fun d hd =>
        (Executor.yields_stateAction d action).bind fun a ha => ⟨hd, ha⟩
    refine Executor.transparent_of_transact (g := Executor.documentOrNull)
      (fun b => x.transition (x.operationsTo Executor.nestingLimit) b.1 action b.2 args)
      (fun ρ v => v.map (Document.rename ρ)) ?_ hshown hlookup
      (fun b hb' => ⟨hstore.sessions, hsleep, fun s => ?_, fun k hk i j => ?_⟩)
      hresumes hids hleft hpauses hlimit hfresh
    · simp only [liftM_bind, liftM_pure, bind_assoc, pure_bind]
      refine bind_congr fun d => bind_congr fun a => ?_
      rw [← Executor.transactWith_changeStateIn (by rw [hb]; rfl)]
      rfl
    · exact Executor.climbs_transition hstore hb b.1 action b.2 args
    · exact Executor.mirrors_transition (hretakes k hk) hb'.1 hb'.2 (hargs k hk)
  | custom name args => exact absurd rfl (hcall name args)

/-! ## A service of notes -/

/-- Notes have a title. -/
def note : Entity where
  name := "Note"
  fields := [⟨"id", .scalar .id, false, true, false, false, none, .null⟩,
    ⟨"title", .scalar .string, false, true, false, false, none, .null⟩]
  description := .null
  names_nodup := by decide

/-- A service of notes that tries a call three times. -/
def noteKeeper : Executor MemoryStore SessionId where
  registry := (Registry.finalize.run.run
    ⟨[("Note", ⟨note, "notes", some "note", some "notes", none, true, none, []⟩)], [], false⟩).2
  behaviour := ⟨fun _ => .none, fun _ _ _ => throw .illTyped⟩
  store := MemoryStore.documentStore.within ⟨id, fun m _ => m⟩
  policy := ⟨3, fun n => .ok (.whole n), fun _ => pure (), by decide⟩

/-- A note is added. -/
def addNote : WriteCall := .add "Note" (.object [("title", .text "a")])

/-- A store with one note, whose next creation and next commit meet conflicts. -/
def contendedStore : MemoryStore :=
  { MemoryStore.empty with
    collections := [("notes", [(.id (.ofNat 9), [("_id", .id (.ofNat 9))])])]
    failures := [("create", 1), ("commit", 1)] }

/-- What the service does in a session to add the note. -/
def fileNote (s : SessionId) : Action MemoryStore Document := do
  let stored ← noteKeeper.store.create "notes" [("title", .text "a")] (some s)
  let _ ← Executor.documentId stored
  pure stored

theorem noteKeeper_saveIn (ops : Operations MemoryStore SessionId) {d : Descriptor}
    (hentity : d.entity = note) (hcollection : d.collection = "notes") (hmachine : d.machine = none)
    (s : SessionId) :
    noteKeeper.saveIn ops d none s (.object [("title", .text "a")]) = fileNote s := by
  have hmade : (noteKeeper.materializer .create s).materialize note none
      (.object [("title", .text "a")]) = pure ⟨[("title", .text "a")], []⟩ := by
    have htitle : ∀ made, (noteKeeper.materializer .create s).materializeField
        (.object [("title", .text "a")]) ⟨"title", .scalar .string, false, true, false, false, none,
        .null⟩ made =
          pure (Materializer.put made "title" (.text "a")) := by
      intro made
      simp [Materializer.materializeField, fieldOf?, Record.get?, Value.isEmpty,
        FieldDef.isIdentifier, Materializer.materializeValue, FieldDef.kind]
      rfl
    rw [Materializer.materialize, note]
    simp only [Materializer.materializeFields_cons, htitle, Materializer.materializeFields]
    rfl
  rw [Executor.saveIn_eq rfl, hentity, hcollection, hmade, pure_bind,
    Executor.inFirstState, hmachine]
  refine bind_congr fun stored => bind_congr fun id => ?_
  rw [note]
  simp only [Executor.applyDeltas]
  rfl

theorem run_addNote : addNote.run noteKeeper none = (do
    let v ← noteKeeper.transact fileNote none
    pure (.object v)) := by
  have hdescriptor : ∃ d, noteKeeper.descriptor "Note" = .ok d ∧ d.entity = note ∧
      d.collection = "notes" ∧ d.machine = none := ⟨_, rfl, rfl, rfl, rfl⟩
  obtain ⟨d, hd, hentity, hcollection, hmachine⟩ := hdescriptor
  have hrun : addNote.run noteKeeper none = (do
      let d ← liftM (noteKeeper.descriptor "Note")
      let v ← noteKeeper.transact (fun s => noteKeeper.saveIn
        (noteKeeper.operationsTo Executor.nestingLimit) d none s (.object [("title", .text "a")]))
        none
      pure (.object v)) := rfl
  rw [hrun, hd]
  exact congrArg (fun body => (do
      let v ← noteKeeper.transact body none
      pure (.object v) : Action MemoryStore Value))
    (funext (noteKeeper_saveIn _ hentity hcollection hmachine))

/-- The note is filed by the third attempt, under the second number. -/
theorem addNote_transparent :
    contendedStore.injected = 2 ∧
    noteKeeper.TransparentCall id addNote contendedStore.calmed contendedStore ∧
    ((addNote.run noteKeeper none).run.run contendedStore).2.lastId = 2 ∧
    ((addNote.run noteKeeper none).run.run contendedStore).2.commits = 1 := by
  have hlast : ((addNote.run noteKeeper none).run.run contendedStore).2.lastId = 2 := by
    rw [run_addNote]
    decide +kernel
  refine ⟨by decide, ?_, hlast, ?_⟩
  · refine writeCall_transparent ⟨id, fun m _ => m⟩ (fun _ _ => rfl) noteKeeper rfl
      (fun _ t => ⟨t, rfl, rfl⟩) (fun _ => rfl) addNote (fun _ _ h => by cases h) rfl (by decide)
      (fun n _ _ => ⟨_, rfl⟩) ?_ fun n hn hn' => ?_
    · dsimp only [id]
      rw [hlast]
      decide
    · have hids : contendedStore.collections.mentioned ++ addNote.mentioned ++
          noteKeeper.registry.mentioned = [.ofNat 9, .ofNat 9] := rfl
      have hfirst : 0 < n := hn
      have hnumber : n ≤ 2 := hlast ▸ hn'
      obtain rfl | rfl : n = 1 ∨ n = 2 := by omega
      all_goals
        dsimp only [id]
        rw [hids]
        decide
  · rw [run_addNote]
    decide +kernel

end EntityGraph
