import EntityGraph.Proofs.Action
import Mathlib.Data.List.Basic

/-!
# The trace of a transaction with retries

Sessions whose calls end as a plan says, noting each call in a log. Whatever the plan is, the log of
a transaction with retries is well behaved (`RetryDiscipline`): sessions are opened one at a time,
each call is made where it belongs, nothing follows a commit, and the outcome is the one that the
attempts decide.

The log is cut at the openings of sessions. `Attempts` describes it attempt by attempt, and every
part of the discipline is an induction on that description.
-/

namespace EntityGraph

variable {α : Type}

/-! ## One round of the loop -/

namespace SessionStore

variable {τ S : Type} {store : SessionStore τ S} {policy : RetryPolicy τ} {body : S → Action τ α}

/-- An attempt that returns is the last one. -/
theorem run_runFrom_ok {left number : Nat} {t t₁ t₂ : τ} {s : S} {v : α}
    (hs : store.start.run.run t = (.ok s, t₁))
    (ha : (store.attempt body s).run.run t₁ = (.ok v, t₂)) :
    (runFrom store policy body left number).run.run t =
      (do store.finish s; pure v : Action τ α).run.run t₂ := by
  rw [runFrom, Action.run_bind_ok hs, Action.run_bind_ok (Action.run_observe _ _), ha]

/-- An attempt that fails is the last one when the failure asks for no other or none is left. -/
theorem run_runFrom_error {left number : Nat} {t t₁ t₂ : τ} {s : S} {e : Fault}
    (hs : store.start.run.run t = (.ok s, t₁))
    (ha : (store.attempt body s).run.run t₁ = (.error e, t₂))
    (he : e.isTransient = false ∨ left = 0) :
    (runFrom store policy body left number).run.run t =
      (do store.finish s; throw (if e.isTransient then exhausted number e else e) :
        Action τ α).run.run t₂ := by
  rw [runFrom, Action.run_bind_ok hs, Action.run_bind_ok (Action.run_observe _ _), ha]
  rcases ht : e.isTransient with _ | _
  · simp [ht]
  · obtain rfl : left = 0 := by
      rcases he with he | he
      · rw [ht] at he
        cases he
      · exact he
    simp [ht]

/-- An attempt that meets a conflict is followed by a pause, the end of its session and the next
round. -/
theorem run_runFrom_again {left number : Nat} {t t₁ t₂ : τ} {s : S} {e : Fault}
    (hs : store.start.run.run t = (.ok s, t₁))
    (ha : (store.attempt body s).run.run t₁ = (.error e, t₂)) (he : e.isTransient = true) :
    (runFrom store policy body (left + 1) number).run.run t =
      (do
        let pause ← Action.observe do
          let d ← policy.backoff number
          policy.sleep d
        store.finish s
        match pause with
        | .error e => throw e
        | .ok () => runFrom store policy body left (number + 1) : Action τ α).run.run t₂ := by
  rw [runFrom, Action.run_bind_ok hs, Action.run_bind_ok (Action.run_observe _ _), ha]
  dsimp only
  rw [he]
  rfl

/-- An attempt moves the state as its body and the calls around it do, and returns what its body
returns. -/
theorem moves_attempt {R : τ → τ → Prop} {Q : α → Prop} {s : S} (hrefl : ∀ t, R t t)
    (htrans : ∀ t t' t'', R t t' → R t' t'' → R t t'')
    (hbegin : Moves R (fun _ => True) (store.begin s))
    (hcommit : Moves R (fun _ => True) (store.commit s))
    (habort : Moves R (fun _ => True) (store.abort s)) (hbody : Moves R Q (body s)) :
    Moves R Q (store.attempt body s) := by
  rw [attempt]
  have hrun : Moves R Q (body s >>= fun v => store.commit s >>= fun _ => pure v : Action τ α) :=
    .bind htrans hbody fun v hv => .bind htrans hcommit fun _ _ => .pure hrefl hv
  refine .bind htrans hbegin fun _ _ => .bind htrans hrun.observe fun outcome ho => ?_
  cases outcome with
  | ok v => exact .pure hrefl (ho v rfl)
  | error e =>
    have hquiet : Moves R (fun _ => True) (store.abortQuietly s) :=
      .bind htrans habort.observe fun _ _ => .pure hrefl trivial
    exact .bind htrans hquiet fun _ _ => .throw hrefl e

/-- Showing what a body returns in another way changes nothing about how an attempt runs. -/
theorem run_attempt_map {β : Type} (g : α → β) (s : S) (t : τ) :
    (store.attempt (fun s => body s >>= fun v => pure (g v)) s).run.run t =
      (((store.attempt body s).run.run t).1.map g, ((store.attempt body s).run.run t).2) := by
  rw [attempt, attempt]
  rcases hb : (store.begin s).run.run t with ⟨e | ⟨⟩, t₁⟩
  · rw [Action.run_bind_error hb, Action.run_bind_error hb]
    rfl
  rw [Action.run_bind_ok hb, Action.run_bind_ok hb, Action.run_bind_ok (Action.run_observe _ _),
    Action.run_bind_ok (Action.run_observe _ _), bind_assoc]
  rcases hr : (body s).run.run t₁ with ⟨e | v, t₂⟩
  · rw [Action.run_bind_error hr, Action.run_bind_error hr]
    rfl
  rw [Action.run_bind_ok hr, Action.run_bind_ok hr, pure_bind]
  rcases hc : (store.commit s).run.run t₂ with ⟨e | ⟨⟩, t₃⟩
  · rw [Action.run_bind_error hc, Action.run_bind_error hc]
    rfl
  · rw [Action.run_bind_ok hc, Action.run_bind_ok hc]
    rfl

end SessionStore

/-! ## Planned sessions -/

/-- A call that the retry loop makes. Sessions are numbered in the order of opening. -/
inductive SessionCall where
  | opened (session : Nat)
  | begun (session : Nat)
  /-- the body ran in a session -/
  | ran (session : Nat)
  | committed (session : Nat)
  | aborted (session : Nat)
  | ended (session : Nat)
  | paused (pause : Duration)

namespace SessionCall

/-- The session that a call is made on. -/
def session? : SessionCall → Option Nat
  | opened i => some i
  | begun i => some i
  | ran i => some i
  | committed i => some i
  | aborted i => some i
  | ended i => some i
  | paused _ => none

/-- Is the call made on a session? -/
def isOn (i : Nat) (c : SessionCall) : Bool := c.session? == some i

/-- Does the call open a session? -/
def isOpening : SessionCall → Bool
  | opened _ => true
  | _ => false

end SessionCall

/-- How the calls of one session end. -/
structure SessionOutcomes (α : Type) where
  begin : Outcome Unit
  body : Outcome α
  commit : Outcome Unit
  abort : Outcome Unit
  finish : Outcome Unit

namespace SessionOutcomes

/-- The outcome of an attempt: the first of its calls that fails decides, and aborting does not
count. -/
def outcome (o : SessionOutcomes α) : Outcome α := do
  o.begin
  let v ← o.body
  o.commit
  pure v

/-- The attempt fails, and the failure asks for another one. -/
def FailsTransiently (o : SessionOutcomes α) : Prop :=
  ∃ e, o.outcome = .error e ∧ e.isTransient = true

/-- The calls of an attempt between the opening and the end of its session. -/
def calls (o : SessionOutcomes α) (i : Nat) : List SessionCall :=
  .begun i :: match o.begin with
    | .error _ => []
    | .ok _ => .ran i :: match o.body with
      | .error _ => [.aborted i]
      | .ok _ => .committed i :: match o.commit with
        | .error _ => [.aborted i]
        | .ok _ => []

end SessionOutcomes

/-- The calls made so far and the number of sessions opened. -/
structure SessionLog where
  calls : List SessionCall
  opened : Nat

namespace SessionLog

/-- The log before the first call. -/
def empty : SessionLog := ⟨[], 0⟩

/-- Note a call. -/
def note (c : SessionCall) : Action SessionLog Unit :=
  modify fun l => { l with calls := l.calls ++ [c] }

/-- Note a call that ends as given. -/
def call {β : Type} (c : SessionCall) (o : Outcome β) : Action SessionLog β := do
  note c
  o

/-- Sessions that go as planned. -/
def sessions (plan : Nat → SessionOutcomes α) : SessionStore SessionLog Nat where
  start := do
    let l ← get
    set (⟨l.calls ++ [.opened l.opened], l.opened + 1⟩ : SessionLog)
    pure l.opened
  begin i := call (.begun i) (plan i).begin
  commit i := call (.committed i) (plan i).commit
  abort i := call (.aborted i) (plan i).abort
  finish i := call (.ended i) (plan i).finish

/-- A body that goes as planned. -/
def body (plan : Nat → SessionOutcomes α) (i : Nat) : Action SessionLog α :=
  call (.ran i) (plan i).body

/-- The policy of `m` attempts with the given pauses, which are noted. -/
def policy (m : Nat) (h : 1 ≤ m) (delay : Nat → Duration) : RetryPolicy SessionLog where
  maxAttempts := m
  backoff n := .ok (delay n)
  sleep d := note (.paused d)
  maxAttempts_pos := h

@[simp] theorem run_call {β : Type} (c : SessionCall) (o : Outcome β) (l : SessionLog) :
    (call c o).run.run l = (o, { l with calls := l.calls ++ [c] }) := by
  rw [call, Action.run_bind_ok (by exact Action.run_modify _ _)]
  exact Action.run_lift o _

/-- **An attempt** ends as planned and makes its calls. -/
theorem run_attempt (plan : Nat → SessionOutcomes α) (i : Nat) (l : SessionLog) :
    ((sessions plan).attempt (body plan) i).run.run l =
      ((plan i).outcome, { l with calls := l.calls ++ (plan i).calls i }) := by
  obtain ⟨calls, n⟩ := l
  simp only [SessionStore.attempt, SessionStore.abortQuietly, sessions, body, Action.run_bind,
    run_call, Action.run_observe, SessionOutcomes.outcome, SessionOutcomes.calls]
  rcases (plan i).begin with e | ⟨⟩
  · rfl
  rcases (plan i).body with e | v
  · simp only [Action.run_bind, Action.run_observe, run_call, List.append_assoc,
      List.singleton_append]
    rfl
  rcases (plan i).commit with e | ⟨⟩
  · simp only [Action.run_bind, Action.run_observe, run_call, List.append_assoc,
      List.singleton_append]
    rfl
  · simp only [List.append_assoc, List.singleton_append]
    rfl

end SessionLog

/-! ## The log, attempt by attempt -/

namespace SessionOutcomes

/-- The calls of the last session, from its opening to its end. -/
def lastBlock (o : SessionOutcomes α) (i : Nat) : List SessionCall :=
  .opened i :: (o.calls i ++ [.ended i])

/-- The calls of a session that another one is to follow after a pause. -/
def pausedBlock (o : SessionOutcomes α) (i : Nat) (pause : Duration) : List SessionCall :=
  .opened i :: (o.calls i ++ [.paused pause, .ended i])

/-- How a run ends when no attempt follows the one of the given number. -/
def verdict (o : SessionOutcomes α) (number : Nat) : Outcome α :=
  match o.outcome with
  | .ok v => .ok v
  | .error e => .error (if e.isTransient then SessionStore.exhausted number e else e)

end SessionOutcomes

/-- The log and the outcome of a run of at most `m` attempts, from attempt `i` on, counted from
zero. -/
inductive Attempts (plan : Nat → SessionOutcomes α) (m : Nat) (delay : Nat → Duration) :
    Nat → List SessionCall → Outcome α → Prop where
  /-- no attempt follows -/
  | last {i : Nat} (h : i + 1 = m ∨ ¬ (plan i).FailsTransiently) :
      Attempts plan m delay i ((plan i).lastBlock i) (do (plan i).finish; (plan i).verdict (i + 1))
  /-- another attempt was to follow, but the session could not be ended -/
  | stuck {i : Nat} {e : Fault} (hi : i + 1 < m) (ht : (plan i).FailsTransiently)
      (hf : (plan i).finish = .error e) :
      Attempts plan m delay i ((plan i).pausedBlock i (delay (i + 1))) (.error e)
  /-- another attempt follows -/
  | again {i : Nat} {rest : List SessionCall} {result : Outcome α} (hi : i + 1 < m)
      (ht : (plan i).FailsTransiently) (hf : (plan i).finish = .ok ())
      (hr : Attempts plan m delay (i + 1) rest result) :
      Attempts plan m delay i ((plan i).pausedBlock i (delay (i + 1)) ++ rest) result

namespace SessionLog

variable {plan : Nat → SessionOutcomes α} {m : Nat} {delay : Nat → Duration}

/-- A pause is put on the log. -/
theorem run_pause (h : 1 ≤ m) (number : Nat) (log : SessionLog) :
    (do
      let d ← (policy m h delay).backoff number
      (policy m h delay).sleep d : Action SessionLog Unit).run.run log =
      (.ok (), ⟨log.calls ++ [.paused (delay number)], log.opened⟩) := rfl

/-- A run from attempt `i` on makes the calls of some `Attempts` and ends as these do. The log of
the attempts that follow stands after the block of this one. -/
theorem run_runFrom (h : 1 ≤ m) (left : Nat) :
    ∀ (i : Nat) (calls : List SessionCall), i + 1 + left = m →
      ∃ log result n, Attempts plan m delay i log result ∧
        ((sessions plan).runFrom (policy m h delay) (body plan) left (i + 1)).run.run ⟨calls, i⟩ =
          (result, ⟨calls ++ log, n⟩) := by
  have hstart : ∀ i calls, (sessions plan).start.run.run ⟨calls, i⟩ =
      (.ok i, ⟨calls ++ [.opened i], i + 1⟩) := fun _ _ => rfl
  have hlast : ∀ left i calls, (left = 0 ∨ ¬ (plan i).FailsTransiently) →
      ((sessions plan).runFrom (policy m h delay) (body plan) left (i + 1)).run.run ⟨calls, i⟩ =
        (do (plan i).finish; (plan i).verdict (i + 1),
          ⟨calls ++ (plan i).lastBlock i, i + 1⟩) := by
    intro left i calls hl
    have hrun := run_attempt plan i ⟨calls ++ [.opened i], i + 1⟩
    rcases ho : (plan i).outcome with e | v
    · rw [ho] at hrun
      have he : e.isTransient = false ∨ left = 0 := by
        rcases hl with hl | hl
        · exact .inr hl
        · refine .inl (Bool.eq_false_iff.2 fun ht => hl ⟨e, ho, ht⟩)
      rw [SessionStore.run_runFrom_error (hstart i calls) hrun he, Action.run_bind]
      simp only [sessions, run_call, SessionOutcomes.verdict, ho, SessionOutcomes.lastBlock,
        List.append_assoc, List.singleton_append]
      rcases (plan i).finish with f | ⟨⟩ <;> rfl
    · rw [ho] at hrun
      rw [SessionStore.run_runFrom_ok (hstart i calls) hrun, Action.run_bind]
      simp only [sessions, run_call, SessionOutcomes.verdict, ho, SessionOutcomes.lastBlock,
        List.append_assoc, List.singleton_append]
      rcases (plan i).finish with f | ⟨⟩ <;> rfl
  induction left with
  | zero =>
    intro i calls hi
    exact ⟨_, _, i + 1, .last (.inl hi), hlast 0 i calls (.inl rfl)⟩
  | succ left ih =>
    intro i calls hi
    by_cases ht : (plan i).FailsTransiently
    · obtain ⟨e, ho, he⟩ := id ht
      have hrun := run_attempt plan i ⟨calls ++ [.opened i], i + 1⟩
      rw [ho] at hrun
      rw [SessionStore.run_runFrom_again (hstart i calls) hrun he,
        Action.run_bind_ok (Action.run_observe _ _), run_pause, Action.run_bind]
      simp only [sessions, run_call, List.append_assoc, List.singleton_append]
      rcases hf : (plan i).finish with f | ⟨⟩
      · refine ⟨_, _, i + 1, .stuck (by omega) ht hf, ?_⟩
        simp [SessionOutcomes.pausedBlock]
      · obtain ⟨log, result, n, hlog, hn⟩ := ih (i + 1)
          (calls ++ (plan i).pausedBlock i (delay (i + 1))) (by omega)
        refine ⟨_, result, n, .again (by omega) ht hf hlog, ?_⟩
        rw [List.append_assoc] at hn
        simp only [SessionOutcomes.pausedBlock, List.append_assoc, List.cons_append,
          List.nil_append] at hn ⊢
        exact hn
    · exact ⟨_, _, i + 1, .last (.inr ht), hlast (left + 1) i calls (.inr ht)⟩

end SessionLog

/-! ## The calls on one session -/

namespace SessionOutcomes

variable (o : SessionOutcomes α) (i : Nat)

/-- **The four ways an attempt goes**: its transaction does not begin, its body fails, its commit
fails, or all goes well. -/
theorem calls_cases :
    ((∃ e, o.begin = .error e) ∧ o.calls i = [.begun i]) ∨
    (o.begin = .ok () ∧ (∃ e, o.body = .error e) ∧ o.calls i = [.begun i, .ran i, .aborted i]) ∨
    (o.begin = .ok () ∧ (∃ v, o.body = .ok v) ∧ (∃ e, o.commit = .error e) ∧
      o.calls i = [.begun i, .ran i, .committed i, .aborted i]) ∨
    (o.begin = .ok () ∧ (∃ v, o.body = .ok v ∧ o.outcome = .ok v) ∧ o.commit = .ok () ∧
      o.calls i = [.begun i, .ran i, .committed i]) := by
  obtain ⟨b, r, c, -, -⟩ := o
  unfold calls outcome
  rcases b with e | ⟨⟩
  · exact .inl ⟨⟨e, rfl⟩, rfl⟩
  rcases r with e | v
  · exact .inr (.inl ⟨rfl, ⟨e, rfl⟩, rfl⟩)
  rcases c with e | ⟨⟩
  · exact .inr (.inr (.inl ⟨rfl, ⟨v, rfl⟩, ⟨e, rfl⟩, rfl⟩))
  · exact .inr (.inr (.inr ⟨rfl, ⟨v, rfl, rfl⟩, rfl, rfl⟩))

theorem session_of_mem_calls {c : SessionCall} (h : c ∈ o.calls i) : c.session? = some i := by
  obtain ⟨-, hc⟩ | ⟨-, -, hc⟩ | ⟨-, -, -, hc⟩ | ⟨-, -, -, hc⟩ := o.calls_cases i <;>
    rw [hc] at h <;> simp at h
  · rw [h]
    rfl
  · rcases h with rfl | rfl | rfl <;> rfl
  · rcases h with rfl | rfl | rfl | rfl <;> rfl
  · rcases h with rfl | rfl | rfl <;> rfl

theorem filter_calls (j : Nat) :
    (o.calls i).filter (SessionCall.isOn j) = if j = i then o.calls i else [] := by
  split
  · rename_i h
    subst h
    refine List.filter_eq_self.2 fun c hc => ?_
    simp [SessionCall.isOn, o.session_of_mem_calls j hc]
  · rename_i h
    refine List.filter_eq_nil_iff.2 fun c hc => ?_
    simp [SessionCall.isOn, o.session_of_mem_calls i hc, Ne.symm h]

theorem filter_lastBlock (j : Nat) :
    (o.lastBlock i).filter (SessionCall.isOn j) = if j = i then o.lastBlock i else [] := by
  by_cases h : j = i
  · subst h
    simp [lastBlock, filter_calls, SessionCall.isOn, SessionCall.session?]
  · simp [lastBlock, filter_calls, SessionCall.isOn, SessionCall.session?, h, Ne.symm h]

theorem filter_pausedBlock (pause : Duration) (j : Nat) :
    (o.pausedBlock i pause).filter (SessionCall.isOn j) = if j = i then o.lastBlock i else [] := by
  by_cases h : j = i
  · subst h
    simp [pausedBlock, lastBlock, filter_calls, SessionCall.isOn, SessionCall.session?]
  · simp [pausedBlock, filter_calls, SessionCall.isOn, SessionCall.session?, h, Ne.symm h]

theorem nodup_lastBlock : (o.lastBlock i).Nodup := by
  unfold lastBlock
  obtain ⟨-, hc⟩ | ⟨-, -, hc⟩ | ⟨-, -, -, hc⟩ | ⟨-, -, -, hc⟩ := o.calls_cases i <;> rw [hc] <;>
    simp

/-- A list without repetitions is cut at an item in one way only. -/
theorem cut_unique {β : Type} {l pre pre' post post' : List β} {c : β} (hl : l.Nodup)
    (h : l = pre ++ c :: post) (h' : l = pre' ++ c :: post') : pre = pre' ∧ post = post' := by
  rw [h, List.nodup_append, List.nodup_cons] at hl
  obtain ⟨-, ⟨hpost, -⟩, hdisj⟩ := hl
  have hpre : c ∉ pre := fun hc => hdisj c hc c (List.mem_cons_self ..) rfl
  obtain ⟨h₁, -, h₂⟩ := (List.append_cons_inj_of_notMem hpre hpost).1 (h.symm.trans h')
  exact ⟨h₁, h₂⟩

variable {o i} {pre post : List SessionCall}

theorem cut_at_ran (h : o.lastBlock i = pre ++ .ran i :: post) :
    .begun i ∈ pre ∧ o.begin = .ok () := by
  have hcut : ∀ rest, o.calls i = .begun i :: .ran i :: rest → .begun i ∈ pre := by
    intro rest hc
    have h' : o.lastBlock i = [.opened i, .begun i] ++ .ran i :: (rest ++ [.ended i]) := by
      rw [lastBlock, hc]
      rfl
    rw [(cut_unique (o.nodup_lastBlock i) h h').1]
    simp
  obtain ⟨-, hc⟩ | ⟨hb, -, hc⟩ | ⟨hb, -, -, hc⟩ | ⟨hb, -, -, hc⟩ := o.calls_cases i
  · have hm : SessionCall.ran i ∈ o.lastBlock i := by simp [h]
    simp [lastBlock, hc] at hm
  · exact ⟨hcut _ hc, hb⟩
  · exact ⟨hcut _ hc, hb⟩
  · exact ⟨hcut _ hc, hb⟩

/-- What stands around a commit. -/
theorem cut_at_committed (h : o.lastBlock i = pre ++ .committed i :: post) :
    .ran i ∈ pre ∧ (∃ v, o.body = .ok v) ∧
      (o.commit = .ok () → post = [.ended i] ∧ ∃ v, o.outcome = .ok v) := by
  have hcut : ∀ rest, o.calls i = .begun i :: .ran i :: .committed i :: rest →
      .ran i ∈ pre ∧ post = rest ++ [.ended i] := by
    intro rest hc
    have h' : o.lastBlock i =
        [.opened i, .begun i, .ran i] ++ .committed i :: (rest ++ [.ended i]) := by
      rw [lastBlock, hc]
      rfl
    obtain ⟨hpre, hpost⟩ := cut_unique (o.nodup_lastBlock i) h h'
    refine ⟨?_, hpost⟩
    rw [hpre]
    simp
  have hm : SessionCall.committed i ∈ o.lastBlock i := by simp [h]
  obtain ⟨-, hc⟩ | ⟨-, -, hc⟩ | ⟨-, hv, ⟨e, he⟩, hc⟩ | ⟨-, ⟨v, hv, ho⟩, -, hc⟩ := o.calls_cases i
  · simp [lastBlock, hc] at hm
  · simp [lastBlock, hc] at hm
  · refine ⟨(hcut _ hc).1, hv, fun hok => ?_⟩
    rw [he] at hok
    cases hok
  · exact ⟨(hcut _ hc).1, ⟨v, hv⟩, fun _ => ⟨(hcut _ hc).2, v, ho⟩⟩

theorem cut_at_ended (h : o.lastBlock i = pre ++ .ended i :: post) : post = [] := by
  have h' : o.lastBlock i = (.opened i :: o.calls i) ++ .ended i :: [] := rfl
  exact (cut_unique (o.nodup_lastBlock i) h h').2

theorem aborted_mem_lastBlock_iff :
    .aborted i ∈ o.lastBlock i ↔ o.begin = .ok () ∧
      ((∃ e, o.body = .error e) ∨ (∃ v, o.body = .ok v) ∧ ∃ e, o.commit = .error e) := by
  obtain ⟨⟨e, hb⟩, hc⟩ | ⟨hb, ⟨e, hr⟩, hc⟩ | ⟨hb, ⟨v, hr⟩, ⟨e, hm⟩, hc⟩ |
      ⟨hb, ⟨v, hr, -⟩, hm, hc⟩ :=
    o.calls_cases i
  · simp [lastBlock, hc, hb]
  · simp [lastBlock, hc, hb, hr]
  · simp [lastBlock, hc, hb, hr, hm]
  · simp [lastBlock, hc, hb, hr, hm]

end SessionOutcomes

/-! ## What every log keeps to -/

/-- **The discipline of the retry loop**: what a run of at most `m` attempts with pauses `delay` may
log and how it may end, when its sessions go as planned. -/
structure RetryDiscipline (plan : Nat → SessionOutcomes α) (m : Nat) (delay : Nat → Duration)
    (log : List SessionCall) (result : Outcome α) : Prop where
  /-- at most `m` sessions are opened -/
  opened_le : log.countP SessionCall.isOpening ≤ m
  /-- the next session is opened only after a conflict, a pause as long as the policy says, and the
  end of the session before -/
  opened_after : ∀ pre i post, log = pre ++ .opened (i + 1) :: post →
    (plan i).FailsTransiently ∧ (plan i).finish = .ok () ∧
      ∃ earlier, pre = earlier ++ [.paused (delay (i + 1)), .ended i]
  /-- no call on a session is made twice -/
  call_once : ∀ pre c post i, c.session? = some i → log = pre ++ c :: post → c ∉ pre ∧ c ∉ post
  /-- the sessions that are ended are those that were opened -/
  ended_iff : ∀ i, .ended i ∈ log ↔ .opened i ∈ log
  /-- the end of a session is its last call -/
  ended_last : ∀ pre i post, log = pre ++ .ended i :: post → ∀ c ∈ post, c.session? ≠ some i
  /-- the body runs only after its transaction began -/
  ran_after : ∀ pre i post, log = pre ++ .ran i :: post → .begun i ∈ pre ∧ (plan i).begin = .ok ()
  /-- a commit is tried only after the body succeeded -/
  committed_after : ∀ pre i post, log = pre ++ .committed i :: post →
    .ran i ∈ pre ∧ ∃ v, (plan i).body = .ok v
  /-- a transaction is aborted exactly when it began and its body or its commit failed -/
  aborted_iff : ∀ i, .aborted i ∈ log ↔ .begun i ∈ log ∧ (plan i).begin = .ok () ∧
    ((∃ e, (plan i).body = .error e) ∨ (∃ v, (plan i).body = .ok v) ∧ ∃ e,
    (plan i).commit = .error e)
  /-- at most one commit succeeds -/
  committed_unique : ∀ i j, .committed i ∈ log → .committed j ∈ log → (plan i).commit = .ok () →
    (plan j).commit = .ok () → i = j
  /-- after a commit that succeeded the session is ended, and that is all -/
  committed_last : ∀ pre i post, log = pre ++ .committed i :: post → (plan i).commit = .ok () →
    post = [.ended i]
  /-- a value is returned exactly when some attempt succeeds after conflicts only -/
  returns_iff : (∀ i, (plan i).finish = .ok ()) → ∀ v, result = .ok v ↔
    ∃ i < m, (plan i).outcome = .ok v ∧ ∀ j < i, (plan j).FailsTransiently
  /-- otherwise the first failure that is no conflict is raised, or the last of `m` conflicts: as it
  is when it is a service error, and as the cause of one otherwise -/
  raises_iff : (∀ i, (plan i).finish = .ok ()) → ∀ e, result = .error e ↔
    (∃ i < m, (plan i).outcome = .error e ∧ e.isTransient = false ∧
      ∀ j < i, (plan j).FailsTransiently) ∨
    ((∀ j < m, (plan j).FailsTransiently) ∧ ∃ last, (plan (m - 1)).outcome = .error last ∧
      e = if last.isService then last else (Reason.attemptsExhausted m last).fault)

namespace Attempts

variable {plan : Nat → SessionOutcomes α} {m : Nat} {delay : Nat → Duration}
  {i : Nat} {log : List SessionCall} {result : Outcome α}

/-- Sessions are numbered upward. -/
theorem filter_of_lt (h : Attempts plan m delay i log result) {j : Nat} (hj : j < i) :
    log.filter (SessionCall.isOn j) = [] := by
  induction h with
  | last _ => rw [SessionOutcomes.filter_lastBlock, if_neg (by omega)]
  | stuck _ _ _ => rw [SessionOutcomes.filter_pausedBlock, if_neg (by omega)]
  | again _ _ _ _ ih =>
    rw [List.filter_append, SessionOutcomes.filter_pausedBlock, if_neg (by omega), ih (by omega),
      List.append_nil]

/-- **The calls on a session** are none or those from its opening to its end. -/
theorem filter_isOn (h : Attempts plan m delay i log result) (j : Nat) :
    log.filter (SessionCall.isOn j) = [] ∨
      log.filter (SessionCall.isOn j) = (plan j).lastBlock j := by
  induction h with
  | @last i _ =>
    rw [SessionOutcomes.filter_lastBlock]
    by_cases hj : j = i
    · subst hj
      exact .inr (if_pos rfl)
    · exact .inl (if_neg hj)
  | @stuck i _ _ _ _ =>
    rw [SessionOutcomes.filter_pausedBlock]
    by_cases hj : j = i
    · subst hj
      exact .inr (if_pos rfl)
    · exact .inl (if_neg hj)
  | @again i _ _ _ _ _ hr ih =>
    rw [List.filter_append, SessionOutcomes.filter_pausedBlock]
    by_cases hj : j = i
    · subst hj
      rw [if_pos rfl, hr.filter_of_lt (Nat.lt_succ_self j), List.append_nil]
      exact .inr rfl
    · rw [if_neg hj]
      exact ih

/-- A cut of the log at a call on a session cuts the calls on that session. -/
theorem cut (h : Attempts plan m delay i log result) {pre post : List SessionCall} {c : SessionCall}
    {j : Nat} (hc : c.session? = some j) (hlog : log = pre ++ c :: post) :
    (plan j).lastBlock j =
      pre.filter (SessionCall.isOn j) ++ c :: post.filter (SessionCall.isOn j) := by
  have hon : SessionCall.isOn j c = true := by simp [SessionCall.isOn, hc]
  have hf : log.filter (SessionCall.isOn j) =
      pre.filter (SessionCall.isOn j) ++ c :: post.filter (SessionCall.isOn j) := by
    rw [hlog, List.filter_append, List.filter_cons_of_pos hon]
  rcases h.filter_isOn j with hj | hj
  · rw [hj] at hf
    simp at hf
  · rw [← hj, hf]

/-- A call on a session that occurs at all stands among all the calls on that session. -/
theorem mem_iff (h : Attempts plan m delay i log result) {c : SessionCall} {j : Nat}
    (hc : c.session? = some j) :
    c ∈ log ↔ .opened j ∈ log ∧ c ∈ (plan j).lastBlock j := by
  have hon : ∀ c : SessionCall, c.session? = some j →
      (c ∈ log ↔ c ∈ log.filter (SessionCall.isOn j)) := by
    intro c hc
    simp [List.mem_filter, SessionCall.isOn, hc]
  rw [hon c hc, hon (.opened j) rfl]
  rcases h.filter_isOn j with hj | hj
  · simp [hj]
  · simp [hj, SessionOutcomes.lastBlock]

/-- A call on a session stands in the log once. -/
theorem notMem_of_cut (h : Attempts plan m delay i log result) {pre post : List SessionCall}
    {c : SessionCall} {j : Nat} (hc : c.session? = some j) (hlog : log = pre ++ c :: post) :
    c ∉ pre ∧ c ∉ post := by
  have hnodup := (plan j).nodup_lastBlock j
  rw [h.cut hc hlog, List.nodup_append, List.nodup_cons] at hnodup
  obtain ⟨-, ⟨hpost, -⟩, hdisj⟩ := hnodup
  have hon : SessionCall.isOn j c = true := by simp [SessionCall.isOn, hc]
  refine ⟨fun hm => ?_, fun hm => hpost (List.mem_filter.2 ⟨hm, hon⟩)⟩
  exact hdisj c (List.mem_filter.2 ⟨hm, hon⟩) c (List.mem_cons_self ..) rfl

/-- A cut at an item that the first part lacks is a cut of the second part. -/
theorem cut_append {β : Type} {xs ys pre post : List β} {c : β} (h : xs ++ ys = pre ++ c :: post)
    (hc : c ∉ xs) : ∃ pre', pre = xs ++ pre' ∧ ys = pre' ++ c :: post := by
  rcases List.append_eq_append_iff.1 h with ⟨pre', hpre, hys⟩ | ⟨mid, hxs, hmid⟩
  · exact ⟨pre', hpre, hys⟩
  · cases mid with
    | nil =>
      rw [List.append_nil] at hxs
      exact ⟨[], by rw [hxs, List.append_nil], hmid.symm⟩
    | cons d mid =>
      obtain ⟨rfl, -⟩ := List.cons.inj hmid
      exact absurd (by simp [hxs]) hc

theorem session_of_mem_pausedBlock {o : SessionOutcomes α} {c : SessionCall} {pause : Duration}
    {j : Nat} (hc : c.session? = some j) (h : c ∈ o.pausedBlock i pause) : j = i := by
  have hm : c ∈ (o.pausedBlock i pause).filter (SessionCall.isOn j) :=
    List.mem_filter.2 ⟨h, by simp [SessionCall.isOn, hc]⟩
  rw [SessionOutcomes.filter_pausedBlock] at hm
  by_contra hj
  simp [hj] at hm

/-! ### Openings -/

theorem countP_isOpening_lastBlock (o : SessionOutcomes α) :
    (o.lastBlock i).countP SessionCall.isOpening = 1 := by
  unfold SessionOutcomes.lastBlock
  obtain ⟨-, hc⟩ | ⟨-, -, hc⟩ | ⟨-, -, -, hc⟩ | ⟨-, -, -, hc⟩ := o.calls_cases i <;> rw [hc] <;> rfl

theorem countP_isOpening_pausedBlock (o : SessionOutcomes α) (pause : Duration) :
    (o.pausedBlock i pause).countP SessionCall.isOpening = 1 := by
  unfold SessionOutcomes.pausedBlock
  obtain ⟨-, hc⟩ | ⟨-, -, hc⟩ | ⟨-, -, -, hc⟩ | ⟨-, -, -, hc⟩ := o.calls_cases i <;> rw [hc] <;> rfl

theorem countP_isOpening_le (h : Attempts plan m delay i log result) (hi : i < m) :
    log.countP SessionCall.isOpening ≤ m - i := by
  induction h with
  | last _ =>
    rw [countP_isOpening_lastBlock]
    omega
  | stuck _ _ _ =>
    rw [countP_isOpening_pausedBlock]
    omega
  | again hi' _ _ _ ih =>
    have := ih hi'
    rw [List.countP_append, countP_isOpening_pausedBlock]
    omega

theorem eq_opened_cons (h : Attempts plan m delay i log result) :
    ∃ rest, log = .opened i :: rest := by
  cases h with
  | last _ => exact ⟨_, rfl⟩
  | stuck _ _ _ => exact ⟨_, rfl⟩
  | again _ _ _ _ => exact ⟨_, rfl⟩

theorem cut_at_opened (h : Attempts plan m delay i log result) {pre post : List SessionCall}
    {j : Nat} (hj : i ≤ j) (hlog : log = pre ++ .opened (j + 1) :: post) :
    (plan j).FailsTransiently ∧ (plan j).finish = .ok () ∧
      ∃ earlier, pre = earlier ++ [.paused (delay (j + 1)), .ended j] := by
  induction h generalizing pre with
  | @last i _ =>
    have hm : SessionCall.opened (j + 1) ∈
        ((plan i).lastBlock i).filter (SessionCall.isOn (j + 1)) := by
      rw [hlog]
      simp [SessionCall.isOn, SessionCall.session?]
    rw [SessionOutcomes.filter_lastBlock, if_neg (by omega)] at hm
    cases hm
  | @stuck i _ _ _ _ =>
    have hm : SessionCall.opened (j + 1) ∈ (plan i).pausedBlock i (delay (i + 1)) := by simp [hlog]
    have := session_of_mem_pausedBlock rfl hm
    omega
  | @again i rest _ _ ht hf hr ih =>
    have hnot : SessionCall.opened (j + 1) ∉ (plan i).pausedBlock i (delay (i + 1)) := fun hm => by
      have := session_of_mem_pausedBlock rfl hm
      omega
    obtain ⟨pre', hpre, hrest⟩ := cut_append hlog hnot
    rcases Nat.eq_or_lt_of_le hj with rfl | hlt
    · obtain ⟨rest', hopen⟩ := hr.eq_opened_cons
      have hcut : [] ++ .opened (i + 1) :: rest' = pre' ++ .opened (i + 1) :: post :=
        hopen.symm.trans hrest
      obtain ⟨hpre', hpost'⟩ := hr.notMem_of_cut rfl hrest
      obtain ⟨rfl, -, -⟩ := (List.append_cons_inj_of_notMem hpre' hpost').1 hcut.symm
      refine ⟨ht, hf, .opened i :: (plan i).calls i, ?_⟩
      rw [hpre, List.append_nil, SessionOutcomes.pausedBlock, List.cons_append]
    · obtain ⟨ht', hf', earlier, rfl⟩ := ih hlt hrest
      exact ⟨ht', hf', (plan i).pausedBlock i (delay (i + 1)) ++ earlier, by
        rw [hpre, List.append_assoc]⟩

/-! ### Commits -/

theorem cut_at_committed (h : Attempts plan m delay i log result) {pre post : List SessionCall}
    {j : Nat} (hlog : log = pre ++ .committed j :: post) (hj : (plan j).commit = .ok ()) :
    post = [.ended j] := by
  have hdone : ¬ (plan j).FailsTransiently := fun ⟨e, he, _⟩ => by
    obtain ⟨v, hv⟩ := ((SessionOutcomes.cut_at_committed (h.cut rfl hlog)).2.2 hj).2
    rw [hv] at he
    cases he
  induction h generalizing pre with
  | @last i _ =>
    have hij : j = i := by
      have hm : SessionCall.committed j ∈
          ((plan i).lastBlock i).filter (SessionCall.isOn j) := by
        rw [hlog]
        simp [SessionCall.isOn, SessionCall.session?]
      rw [SessionOutcomes.filter_lastBlock] at hm
      by_contra hij
      simp [hij] at hm
    subst hij
    exact ((SessionOutcomes.cut_at_committed hlog).2.2 hj).1
  | @stuck i _ _ ht _ =>
    have hm : SessionCall.committed j ∈ (plan i).pausedBlock i (delay (i + 1)) := by simp [hlog]
    obtain rfl := session_of_mem_pausedBlock rfl hm
    exact absurd ht hdone
  | @again i _ _ _ ht _ _ ih =>
    have hnot : SessionCall.committed j ∉ (plan i).pausedBlock i (delay (i + 1)) := fun hm => by
      obtain rfl := session_of_mem_pausedBlock rfl hm
      exact hdone ht
    obtain ⟨pre', -, hrest⟩ := cut_append hlog hnot
    exact ih hrest

/-! ### The outcome -/

/-- **The last attempt** decides the outcome when sessions can be ended: those before it met
conflicts, and it is the last that is allowed unless it met none. -/
theorem exists_last (h : Attempts plan m delay i log result) (hi : i < m)
    (hf : ∀ i, (plan i).finish = .ok ()) :
    ∃ k, i ≤ k ∧ k < m ∧ (∀ j, i ≤ j → j < k → (plan j).FailsTransiently) ∧
      (k + 1 = m ∨ ¬ (plan k).FailsTransiently) ∧ result = (plan k).verdict (k + 1) := by
  induction h with
  | @last i hl =>
    refine ⟨i, Nat.le_refl i, hi, fun j _ _ => by omega, hl, ?_⟩
    rw [hf i]
    rfl
  | @stuck i e _ _ he =>
    rw [hf i] at he
    cases he
  | @again i _ _ hi' ht _ _ ih =>
    obtain ⟨k, hik, hkm, hj, hl, hr⟩ := ih hi'
    refine ⟨k, by omega, hkm, fun j hij hjk => ?_, hl, hr⟩
    rcases Nat.eq_or_lt_of_le hij with rfl | hlt
    · exact ht
    · exact hj j hlt hjk

end Attempts

section Outcome

variable {plan : Nat → SessionOutcomes α} {m : Nat}

/-- Two attempts that come after conflicts only are the same when neither could be followed. -/
theorem last_unique {k k' : Nat} (hk : ∀ j < k, (plan j).FailsTransiently)
    (hl : k + 1 = m ∨ ¬ (plan k).FailsTransiently) (hk' : ∀ j < k', (plan j).FailsTransiently)
    (hm : k' < m) (ht' : ¬ (plan k').FailsTransiently) : k' = k := by
  rcases Nat.lt_trichotomy k' k with hlt | heq | hgt
  · exact absurd (hk k' hlt) ht'
  · exact heq
  · rcases hl with hl | hl
    · omega
    · exact absurd (hk' k hgt) hl

theorem not_failsTransiently_of_ok {o : SessionOutcomes α} {v : α} (h : o.outcome = .ok v) :
    ¬ o.FailsTransiently := by
  rintro ⟨e, he, -⟩
  rw [h] at he
  cases he

theorem not_failsTransiently_of_error {o : SessionOutcomes α} {e : Fault}
    (h : o.outcome = .error e) (he : e.isTransient = false) : ¬ o.FailsTransiently := by
  rintro ⟨f, hf, ht⟩
  rw [h] at hf
  cases hf
  rw [he] at ht
  cases ht

theorem verdict_eq_ok_iff {k : Nat} (hk : k < m) (hj : ∀ j < k, (plan j).FailsTransiently)
    (hl : k + 1 = m ∨ ¬ (plan k).FailsTransiently) {v : α} :
    (plan k).verdict (k + 1) = .ok v ↔
      ∃ i < m, (plan i).outcome = .ok v ∧ ∀ j < i, (plan j).FailsTransiently := by
  constructor
  · intro h
    refine ⟨k, hk, ?_, hj⟩
    unfold SessionOutcomes.verdict at h
    rcases ho : (plan k).outcome with e | w
    · rw [ho] at h
      cases h
    · rw [ho] at h
      cases h
      rfl
  · rintro ⟨i, hi, ho, hj'⟩
    obtain rfl := last_unique hj hl hj' hi (not_failsTransiently_of_ok ho)
    rw [SessionOutcomes.verdict, ho]

theorem verdict_eq_error_iff {k : Nat} (hk : k < m) (hj : ∀ j < k, (plan j).FailsTransiently)
    (hl : k + 1 = m ∨ ¬ (plan k).FailsTransiently) {e : Fault} :
    (plan k).verdict (k + 1) = .error e ↔
      (∃ i < m, (plan i).outcome = .error e ∧ e.isTransient = false ∧
        ∀ j < i, (plan j).FailsTransiently) ∨
      ((∀ j < m, (plan j).FailsTransiently) ∧ ∃ last, (plan (m - 1)).outcome = .error last ∧
        e = SessionStore.exhausted m last) := by
  constructor
  · intro h
    unfold SessionOutcomes.verdict at h
    rcases ho : (plan k).outcome with f | w
    · rw [ho] at h
      rcases hf : f.isTransient with _ | _
      · simp only [hf, Bool.false_eq_true, if_false, Except.error.injEq] at h
        subst h
        exact .inl ⟨k, hk, ho, hf, hj⟩
      · simp only [hf, if_true, Except.error.injEq] at h
        have ht : (plan k).FailsTransiently := ⟨f, ho, hf⟩
        obtain hl | hl := hl
        · subst hl
          refine .inr ⟨fun j hj' => ?_, f, ho, h.symm⟩
          rcases Nat.eq_or_lt_of_le (Nat.le_of_lt_succ hj') with rfl | hlt
          · exact ht
          · exact hj j hlt
        · exact absurd ht hl
    · rw [ho] at h
      cases h
  · rintro (⟨i, hi, ho, he, hj'⟩ | ⟨hall, last, ho, rfl⟩)
    · obtain rfl := last_unique hj hl hj' hi (not_failsTransiently_of_error ho he)
      simp [SessionOutcomes.verdict, ho, he]
    · obtain hl | hl := hl
      · subst hl
        obtain ⟨f, hf, ht⟩ := hall k hk
        rw [Nat.add_sub_cancel, hf] at ho
        cases ho
        simp [SessionOutcomes.verdict, hf, ht]
      · exact absurd (hall k hk) hl

end Outcome

/-! ## The theorem -/

namespace Attempts

/-- Whatever is logged attempt by attempt keeps to the discipline. -/
theorem disciplined {plan : Nat → SessionOutcomes α} {m : Nat} {delay : Nat → Duration}
    {log : List SessionCall} {result : Outcome α} (h : Attempts plan m delay 0 log result)
    (hm : 1 ≤ m) : RetryDiscipline plan m delay log result where
  opened_le := h.countP_isOpening_le hm
  opened_after := fun _ _ _ hlog => h.cut_at_opened (Nat.zero_le _) hlog
  call_once := fun _ _ _ _ hc hlog => h.notMem_of_cut hc hlog
  ended_iff := by
    intro i
    rw [h.mem_iff (j := i) rfl]
    simp [SessionOutcomes.lastBlock]
  ended_last := by
    intro pre i post hlog c hc hi
    have hnil := SessionOutcomes.cut_at_ended (h.cut rfl hlog)
    exact List.filter_eq_nil_iff.1 hnil c hc (by simp [SessionCall.isOn, hi])
  ran_after := by
    intro pre i post hlog
    obtain ⟨hbegun, hb⟩ := SessionOutcomes.cut_at_ran (h.cut rfl hlog)
    exact ⟨List.mem_of_mem_filter hbegun, hb⟩
  committed_after := by
    intro pre i post hlog
    obtain ⟨hran, hv, -⟩ := SessionOutcomes.cut_at_committed (h.cut rfl hlog)
    exact ⟨List.mem_of_mem_filter hran, hv⟩
  aborted_iff := by
    intro i
    rw [h.mem_iff (j := i) rfl, h.mem_iff (c := .begun i) (j := i) rfl,
      SessionOutcomes.aborted_mem_lastBlock_iff]
    simp [SessionOutcomes.lastBlock, SessionOutcomes.calls]
  committed_unique := by
    intro i j hi hj hci hcj
    obtain ⟨pre, post, hlog⟩ := List.append_of_mem hi
    obtain ⟨pre', post', hlog'⟩ := List.append_of_mem hj
    rw [h.cut_at_committed hlog hci] at hlog
    rw [h.cut_at_committed hlog' hcj] at hlog'
    have hends := (List.append_inj' (hlog.symm.trans hlog') rfl).2
    simpa using hends
  committed_last := fun _ _ _ hlog hc => h.cut_at_committed hlog hc
  returns_iff := by
    intro hf v
    obtain ⟨k, -, hk, hj, hl, rfl⟩ := h.exists_last hm hf
    exact verdict_eq_ok_iff hk (fun j hjk => hj j (Nat.zero_le j) hjk) hl
  raises_iff := by
    intro hf e
    obtain ⟨k, -, hk, hj, hl, rfl⟩ := h.exists_last hm hf
    exact verdict_eq_error_iff hk (fun j hjk => hj j (Nat.zero_le j) hjk) hl

end Attempts

/-- **The trace of the retry loop.** However the calls of sessions end, a transaction of at most `m`
attempts keeps to the discipline. -/
theorem transact_disciplined (plan : Nat → SessionOutcomes α) (m : Nat) (hm : 1 ≤ m)
    (delay : Nat → Duration) :
    RetryDiscipline plan m delay
      (((SessionLog.sessions plan).transact (SessionLog.policy m hm delay) (SessionLog.body plan)
        none).run.run .empty).2.calls
      (((SessionLog.sessions plan).transact (SessionLog.policy m hm delay) (SessionLog.body plan)
        none).run.run .empty).1 := by
  obtain ⟨log, result, n, hlog, hrun⟩ :=
    @SessionLog.run_runFrom α plan m delay hm (m - 1) 0 [] (by omega)
  have htransact : ((SessionLog.sessions plan).transact (SessionLog.policy m hm delay)
      (SessionLog.body plan) none).run.run .empty = (result, ⟨log, n⟩) := hrun
  rw [htransact]
  exact hlog.disciplined hm

/-- Sessions of which the first meets a conflict when it commits. -/
def oneConflict : Nat → SessionOutcomes Nat
  | 0 => ⟨.ok (), .ok 7, .error (Reason.writeConflict "commit").fault, .ok (), .ok ()⟩
  | _ + 1 => ⟨.ok (), .ok 7, .ok (), .ok (), .ok ()⟩

/-- Two attempts in those sessions. -/
def oneConflictRun : Outcome Nat × SessionLog :=
  ((SessionLog.sessions oneConflict).transact (SessionLog.policy 2 (by decide) fun n => .whole n)
    (SessionLog.body oneConflict) none).run.run .empty

theorem oneConflict_disciplined : 1 ≤ 2 ∧
    RetryDiscipline oneConflict 2 (fun n => .whole n) oneConflictRun.2.calls oneConflictRun.1 ∧
    oneConflictRun.1.toOption = some 7 ∧ oneConflictRun.2.calls.length = 12 := by
  refine ⟨by decide, ?_, by decide +kernel, by decide +kernel⟩
  exact transact_disciplined oneConflict 2 (by decide) fun n => .whole n

end EntityGraph
