import EntityGraph.Proofs.States

/-!
# The chain of middleware

A member of the chain is a **script** (`Middleware.Script`): it works on the call, runs the rest of
the chain as often as it likes, and goes on by how that ended. What occurs in a call is listed in a
**trail**, which scripts that take notes add to (`Script.recorded`). A trail is nested
(`Trail.Nested`): the turns of a member stand between its entrance and its exit, and each turn is a
trail of the members behind it. Without a second turn of anyone, it goes straight down to one member
and straight up again (`Trail.straight`).
-/

namespace EntityGraph

variable {σ τ S : Type}

/-! ## Scripts -/

/-- **What a member of the chain does.** -/
inductive Middleware.Script (σ : Type) where
  /-- return, or raise a fault -/
  | done (outcome : Outcome Unit)
  /-- work on the state, and go on by what it is then -/
  | work (f : σ → σ) (next : σ → Script σ)
  /-- run the rest of the chain, and go on by how it ended: a fault is caught, unless the script
  raises it again -/
  | proceed (next : Outcome Unit → Script σ)

/-- What can be noted of a call. Members of the chain are known by their places in it. -/
inductive ChainEvent where
  /-- a member begins -/
  | entered (place : Nat)
  /-- a member runs the rest of the chain -/
  | proceeded (place : Nat)
  /-- a member returns or raises a fault -/
  | left (place : Nat)
  /-- the operation begins, with these arguments -/
  | operated (args : Value)

/-- What occurred, in its order. -/
abbrev Trail : Type := List ChainEvent

/-- A state with a trail beside it. -/
def Component.besideTrail (σ : Type) : Component (σ × Trail) σ := ⟨Prod.fst, fun s p => (s, p.2)⟩

/-- Add to the trail. -/
def Trail.note (event : ChainEvent) (p : σ × Trail) : σ × Trail := (p.1, p.2 ++ [event])

namespace Middleware.Script

/-- **Run a script** in front of the rest of the chain. -/
def run (rest : Action σ Unit) : Script σ → Action σ Unit
  | .done outcome => liftM outcome
  | .work f next => do
    modify f
    let s ← get
    (next s).run rest
  | .proceed next => do
    let ended ← rest.observe
    (next ended).run rest

/-- The member of the chain that behaves as the scripts say, one for each endpoint. -/
def member (script : Endpoint → Script (τ × Call)) : Middleware τ :=
    fun e rest => (script e).run rest

/-- Scripts in front of each other, with nothing at the end. -/
def chain : List (Script σ) → Action σ Unit
  | [] => pure ()
  | script :: rest => script.run (chain rest)

/-- The script at a place, noting when it runs the rest of the chain and when it ends. -/
def noting (place : Nat) : Script σ → Script (σ × Trail)
  | .done outcome => .work (Trail.note (.left place)) fun _ => .done outcome
  | .work f next => .work (fun p => (f p.1, p.2)) fun p => (next p.1).noting place
  | .proceed next =>
    .work (Trail.note (.proceeded place)) fun _ => .proceed fun ended => (next ended).noting place

/-- **The script that takes notes**: it does what the script does, and notes when it begins, when it
runs the rest of the chain and when it ends. -/
def recorded (script : Script σ) (place : Nat) : Script (σ × Trail) :=
  .work (Trail.note (.entered place)) fun _ => script.noting place

/-- The chain of scripts that take notes, with the places that the first and the later ones have. -/
def recordedChain (first : Nat) (scripts : List (Script σ)) : Action (σ × Trail) Unit :=
  chain ((scripts.zipIdx first).map fun s => s.1.recorded s.2)

/-- The script runs the rest of the chain at most so many times, whatever happens. -/
def AtMost : Nat → Script σ → Prop
  | _, .done _ => True
  | n, .work _ next => ∀ s, (next s).AtMost n
  | 0, .proceed _ => False
  | n + 1, .proceed next => ∀ ended, (next ended).AtMost n

end Middleware.Script

/-- **A call that takes notes**: the scripts of the chain and then the operation of the endpoint,
which is noted before it runs. -/
def Dispatcher.recorded (x : Dispatcher τ S)
    (scripts : List (Endpoint → Middleware.Script (τ × Call))) (e : Endpoint) :
    Action ((τ × Call) × Trail) Value := do
  Middleware.Script.recordedChain 0 (scripts.map fun script => script e)
  modify fun p => Trail.note (.operated p.1.2.args) p
  (x.execute e).within (.besideTrail (τ × Call))

/-! ## Trails -/

namespace Trail

/-- The members that run the rest of the chain, each time that they do. -/
def turns (trail : Trail) : List Nat :=
  trail.filterMap fun
    | .proceeded place => some place
    | _ => none

/-- **A nested trail** of a chain of so many members, from the first place on. The first member
enters and leaves; each turn of its own between them is a nested trail of the others. -/
def Nested : Nat → Nat → Trail → Prop
  | 0, _, trail => trail = []
  | members + 1, place, trail => ∃ inner : List Trail, (∀ t ∈ inner, Nested members (place + 1) t) ∧
      trail = .entered place :: inner.flatMap (.proceeded place :: ·) ++ [.left place]

/-- **Straight down and up.** So many members, from the first place on, each enter and run the rest
of the chain once; the next one, if the chain has one, enters and leaves at once; and all leave in
reverse order. -/
def straight (members place depth : Nat) : Trail :=
  (List.range' place depth).flatMap (fun i => [.entered i, .proceeded i]) ++
    (if depth < members then [.entered (place + depth), .left (place + depth)] else []) ++
    (List.range' place depth).reverse.map .left

@[simp] theorem turns_member (place : Nat) (inner : List Trail) :
    turns (.entered place :: inner.flatMap (.proceeded place :: ·) ++ [.left place]) =
      inner.flatMap fun t => place :: turns t := by
  induction inner with
  | nil => rfl
  | cons t inner ih =>
    simp only [turns, List.flatMap_cons, List.cons_append, List.append_assoc, List.filterMap_cons,
      List.filterMap_append] at ih ⊢
    rw [ih]

/-- A nested trail only has turns of its own members. -/
theorem Nested.le_of_mem_turns {members place : Nat} {trail : Trail}
    (h : Nested members place trail) {i : Nat} (hi : i ∈ turns trail) : place ≤ i := by
  induction members generalizing place trail with
  | zero =>
    cases h
    cases hi
  | succ members ih =>
    obtain ⟨inner, hinner, rfl⟩ := h
    rw [turns_member, List.mem_flatMap] at hi
    obtain ⟨t, ht, hi⟩ := hi
    rcases List.mem_cons.1 hi with rfl | hi
    · exact Nat.le_refl _
    · exact Nat.le_of_succ_le (ih (hinner t ht) hi)

/-- Members that take at most one turn each take it once. -/
theorem nodup_turns_of_length_le {members place : Nat} {inner : List Trail}
    (hinner : ∀ t ∈ inner, Nested members (place + 1) t ∧ (turns t).Nodup)
    (hle : inner.length ≤ 1) :
    (inner.flatMap fun t => place :: turns t).Nodup := by
  match inner, hle with
  | [], _ => exact List.nodup_nil
  | [t], _ =>
    obtain ⟨hnested, hnodup⟩ := hinner t (List.mem_singleton_self t)
    rw [List.flatMap_singleton, List.nodup_cons]
    exact ⟨fun hmem => absurd (hnested.le_of_mem_turns hmem) (Nat.not_succ_le_self place), hnodup⟩

/-- Going down one member further. -/
theorem straight_succ (members place depth : Nat) :
    straight (members + 1) place (depth + 1) =
      .entered place :: .proceeded place ::
        straight members (place + 1) depth ++ [.left place] := by
  simp only [straight, List.range'_succ, List.flatMap_cons, List.reverse_cons, List.map_append,
    List.map_cons, List.map_nil, List.cons_append, List.nil_append, List.append_assoc,
    Nat.add_lt_add_iff_right, show place + 1 + depth = place + (depth + 1) by omega]

/-- **Without a second turn** of anyone, a nested trail goes straight down and up. -/
theorem Nested.straight {members place : Nat} {trail : Trail} (h : Nested members place trail)
    (honce : (turns trail).Nodup) :
    ∃ depth ≤ members, trail = Trail.straight members place depth := by
  induction members generalizing place trail with
  | zero =>
    cases h
    exact ⟨0, Nat.le_refl 0, rfl⟩
  | succ members ih =>
    obtain ⟨inner, hinner, rfl⟩ := h
    rw [turns_member] at honce
    match inner with
    | [] => exact ⟨0, Nat.zero_le _, rfl⟩
    | [t] =>
      rw [List.flatMap_singleton, List.nodup_cons] at honce
      obtain ⟨depth, hle, rfl⟩ := ih (hinner t (List.mem_singleton_self _)) honce.2
      exact ⟨depth + 1, Nat.succ_le_succ hle, by rw [straight_succ, List.flatMap_singleton]⟩
    | t :: t' :: more =>
      refine absurd honce fun hnodup => ?_
      rw [List.flatMap_cons, List.cons_append, List.nodup_cons] at hnodup
      exact hnodup.1 (List.mem_append_right _ (List.mem_cons_self ..))

end Trail

/-! ## Runs that take notes -/

/-- **An action that takes notes** does what the action does, and adds to the trail what `P`
says. -/
def TakesNotes {α : Type} (P : Trail → Prop) (a' : Action (σ × Trail) α) (a : Action σ α) : Prop :=
  ∀ s trail, ∃ new, a'.run.run (s, trail) = ((a.run.run s).1, ((a.run.run s).2, trail ++ new)) ∧
    P new

namespace Middleware.Script

variable {rest : Action σ Unit} {rest' : Action (σ × Trail) Unit} {P : Trail → Prop}

theorem run_work (f : σ → σ) (next : σ → Script σ) (rest : Action σ Unit) (s : σ) :
    ((Script.work f next).run rest).run.run s = ((next (f s)).run rest).run.run (f s) := rfl

theorem run_proceed (next : Outcome Unit → Script σ) (rest : Action σ Unit) (s : σ) :
    ((Script.proceed next).run rest).run.run s =
      ((next (rest.run.run s).1).run rest).run.run (rest.run.run s).2 := rfl

/-- What a script notes after it began: a turn whenever it runs the rest of the chain, with what the
rest notes, and its end. -/
theorem takesNotes_noting (hrest : TakesNotes P rest' rest) (place : Nat) (script : Script σ) :
    TakesNotes (fun new => ∃ inner : List Trail, (∀ t ∈ inner, P t) ∧
      (∀ n, script.AtMost n → inner.length ≤ n) ∧
      new = inner.flatMap (.proceeded place :: ·) ++ [.left place])
        ((script.noting place).run rest')
      (script.run rest) := by
  induction script with
  | done outcome =>
    intro s trail
    refine ⟨[.left place], ?_, [], List.forall_mem_nil _, fun n _ => Nat.zero_le n, rfl⟩
    rw [noting, run_work, run, run, Action.run_lift, Action.run_lift]
    rfl
  | work f next ih =>
    intro s trail
    obtain ⟨new, hrun, inner, hinner, hmost, hnew⟩ := ih (f s) (f s) trail
    rw [noting, run_work, run_work]
    exact ⟨new, hrun, inner, hinner, fun n h => hmost n (h (f s)), hnew⟩
  | proceed next ih =>
    intro s trail
    obtain ⟨turn, hturn, hP⟩ := hrest s (trail ++ [.proceeded place])
    obtain ⟨new, hrun, inner, hinner, hmost, rfl⟩ := ih (rest.run.run s).1 (rest.run.run s).2
      (trail ++ [.proceeded place] ++ turn)
    rw [noting, run_work, run_proceed, run_proceed, Trail.note, hturn, hrun]
    refine ⟨.proceeded place :: turn ++ (inner.flatMap (.proceeded place :: ·) ++ [.left place]),
      ?_, turn :: inner, List.forall_mem_cons.2 ⟨hP, hinner⟩, fun n h => ?_, ?_⟩
    · simp only [List.append_assoc, List.cons_append, List.nil_append]
    · match n, h with
      | n + 1, h => exact Nat.succ_le_succ (hmost n (h _))
    · rw [List.flatMap_cons, List.append_assoc]

/-- **A chain of scripts notes a nested trail**, and no turn twice if no script runs the rest of the
chain twice. -/
theorem takesNotes_chain (first : Nat) (scripts : List (Script σ)) :
    TakesNotes (fun new => Trail.Nested scripts.length first new ∧
      ((∀ script ∈ scripts, script.AtMost 1) → (Trail.turns new).Nodup))
        (recordedChain first scripts)
      (chain scripts) := by
  induction scripts generalizing first with
  | nil => exact fun s trail => ⟨[], by rw [List.append_nil]; rfl, rfl, fun _ => List.nodup_nil⟩
  | cons script scripts ih =>
    intro s trail
    obtain ⟨new, hrun, inner, hinner, hmost, rfl⟩ :=
      takesNotes_noting (ih (first + 1)) first script s (trail ++ [.entered first])
    refine ⟨.entered first :: inner.flatMap (.proceeded first :: ·) ++ [.left first], ?_,
      ⟨inner, fun t ht => (hinner t ht).1, rfl⟩, fun honce => ?_⟩
    · rw [recordedChain, List.zipIdx_cons, List.map_cons, chain, recorded, run_work]
      refine hrun.trans ?_
      rw [List.append_assoc]
      rfl
    · obtain ⟨hscript, hscripts⟩ := List.forall_mem_cons.1 honce
      rw [Trail.turns_member]
      exact Trail.nodup_turns_of_length_le (fun t ht => ⟨(hinner t ht).1, (hinner t ht).2 hscripts⟩)
        (hmost 1 hscript)

/-- Middleware made of scripts is the chain of the scripts. -/
theorem chain_member (e : Endpoint) (scripts : List (Endpoint → Script (τ × Call))) :
    Dispatcher.chain e (scripts.map member) = chain (scripts.map fun script => script e) := by
  induction scripts with
  | nil => rfl
  | cons script scripts ih => rw [List.map_cons, List.map_cons, Dispatcher.chain, chain, ih, member]

end Middleware.Script

/-! ## Calls -/

namespace Fault

/-- Service errors stay as they are. -/
theorem normalize_of_isService {f : Fault} (h : f.isService = true) : f.normalize = f := by
  cases f <;> first | rfl | cases h

/-- Any other fault becomes the cause of an internal error. -/
theorem normalize_of_not_isService {f : Fault} (h : f.isService = false) :
    f.normalize = .ofKind .internal f.text (some f) := by
  cases f <;> first | rfl | cases h

end Fault

namespace Dispatcher

variable {x : Dispatcher τ S} {scripts : List (Endpoint → Middleware.Script (τ × Call))}
  {e : Endpoint}

/-- What is noted after the chain: the operation, if the chain returned. -/
def operation (passed : Outcome Unit × (τ × Call)) : Trail :=
  match passed with
  | (.ok _, p) => [.operated p.2.args]
  | (.error _, _) => []

/-- What a call comes to after the chain: the operation of the endpoint on what the chain left, if
it returned. -/
def conclude (x : Dispatcher τ S) (e : Endpoint) (passed : Outcome Unit × (τ × Call)) :
    Outcome Value × (τ × Call) :=
  match passed with
  | (.ok _, p) => (x.execute e).run.run p
  | (.error f, p) => (.error f, p)

theorem run_chain_execute (x : Dispatcher τ S) (e : Endpoint) (p : τ × Call) :
    (do chain e x.middleware; x.execute e : Action (τ × Call) Value).run.run p =
      x.conclude e ((chain e x.middleware).run.run p) := by
  rw [Action.run_bind]
  rcases (chain e x.middleware).run.run p with ⟨f | ⟨⟩, p'⟩ <;> rfl

/-- **A recorded call** does what the call does. Its trail is the nested trail of the chain and then
the operation. -/
theorem run_recorded (hscripts : x.middleware = scripts.map Middleware.Script.member)
    (p : τ × Call) :
    ∃ passed : Trail, passed.Nested scripts.length 0 ∧
      ((∀ script ∈ scripts, (script e).AtMost 1) → passed.turns.Nodup) ∧
      (x.recorded scripts e).run.run (p, []) =
        ((x.conclude e ((chain e x.middleware).run.run p)).1,
          (x.conclude e ((chain e x.middleware).run.run p)).2,
            passed ++ operation ((chain e x.middleware).run.run p)) := by
  rw [hscripts, Middleware.Script.chain_member]
  obtain ⟨new, hrun, hnested, honce⟩ :=
    Middleware.Script.takesNotes_chain 0 (scripts.map fun script => script e) p []
  rw [List.length_map] at hnested
  refine ⟨new, hnested, fun h => honce (List.forall_mem_map.2 h), ?_⟩
  rw [recorded]
  rcases hchain : (Middleware.Script.chain (scripts.map fun script => script e)).run.run p with
    ⟨f | ⟨⟩, p'⟩
  · rw [hchain] at hrun
    rw [Action.run_bind_error hrun, hchain]
    exact congrArg (fun l => (Except.error f, (p', l))) (List.append_nil new).symm
  · rw [hchain] at hrun
    rw [Action.run_bind_ok hrun, Action.run_bind_ok (Action.run_modify _ _), hchain]
    rfl

/-- **The chain and the operation.** Let the middleware be scripts, which do and catch whatever they
like, and let a call go to an endpoint. Taking notes changes nothing but the trail. The trail has
the turns of the chain and then the operation, once, on the arguments as the chain left them,
exactly if the chain returned; what the call comes to is what the operation, or else the chain,
ended with, after faults were normalized. When no script runs the rest of the chain twice, the
members that were entered are the first ones, straight down to the first that does not go on, and
they leave in reverse order. A fault of the call is a service error: the one that was raised, or
else an internal error which that one caused. -/
theorem call_chained (hscripts : x.middleware = scripts.map Middleware.Script.member)
    {name : String} (he : Record.get? x.endpoints name = some e) {q : Call} {fs : Document}
    (hargs : callArguments q.args = .ok fs) (t : τ) :
    let start : τ × Call := (t, { q with args := .object fs })
    let passed := (chain e x.middleware).run.run start
    let ended := x.conclude e passed
    ∃ trail : Trail, trail.Nested scripts.length 0 ∧
      (x.recorded scripts e).run.run (start, []) = (ended.1, ended.2, trail ++ operation passed) ∧
      (x.call name).run.run (t, q) = (ended.1.mapError Fault.normalize, ended.2) ∧
      ((∀ script ∈ scripts, (script e).AtMost 1) → trail.turns.Nodup) ∧
      (trail.turns.Nodup → ∃ depth ≤ scripts.length,
        trail = Trail.straight scripts.length 0 depth) ∧
      ∀ g, ((x.call name).run.run (t, q)).1 = .error g → g.isService = true ∧ ∃ f,
        ended.1 = .error f ∧
        (f.isService = true ∧ g = f ∨ f.isService = false ∧
          g = .ofKind .internal f.text (some f)) := by
  intro start passed ended
  obtain ⟨trail, hnested, honce, hrecorded⟩ := run_recorded (x := x) (e := e) hscripts start
  have hcall : (x.call name).run.run (t, q) = (ended.1.mapError Fault.normalize, ended.2) := by
    rw [run_call_eq he hargs]
    dsimp only
    rw [run_chain_execute]
  refine ⟨trail, hnested, hrecorded, hcall, honce, hnested.straight, fun g hg => ?_⟩
  rw [hcall] at hg
  rcases hended : ended.1 with f | v
  · rw [hended] at hg
    obtain rfl : f.normalize = g := Except.error.inj hg
    refine ⟨f.isService_normalize, f, rfl, ?_⟩
    rcases hservice : f.isService with _ | _
    · exact .inr ⟨rfl, Fault.normalize_of_not_isService hservice⟩
    · exact .inl ⟨rfl, Fault.normalize_of_isService hservice⟩
  · rw [hended] at hg
    cases hg

/-! ## A chain in front of a desk -/

section Gate

open Middleware (Script)

/-- Whatever happens behind it, the first member returns. -/
def catching : Script (MemoryStore × Call) := .proceed fun _ => .done (.ok ())

/-- The second member replaces the arguments. -/
def replacing : Script (MemoryStore × Call) :=
  .work (fun p => (p.1, { p.2 with args := addProject.args })) fun _ => .proceed .done

/-- The third member refuses the call. -/
def refusing : Script (MemoryStore × Call) := .done (.error (.badState "closed"))

/-- The members of the chain, which treat all endpoints alike. -/
def gate : List (Endpoint → Script (MemoryStore × Call)) :=
    [fun _ => catching, fun _ => replacing, fun _ => refusing]

/-- The desk behind the chain. -/
def gatedDesk : Dispatcher MemoryStore SessionId :=
    { desk with middleware := gate.map Script.member }

/-- The endpoint that adds projects. -/
def addingProjects : Endpoint := ⟨"addProject", .save, some "Project", none⟩

/-- A project is to be added, by a caller who gives no arguments. -/
def emptyHanded : Outcome Value × (MemoryStore × Call) :=
  (gatedDesk.call "addProject").run.run (.empty, ⟨.object [], []⟩)

/-- Nobody proceeds twice. The refusal of the third member is caught by the first one, so that the
operation runs, with the arguments of the second one: the project is stored, and its task with the
state that tasks begin in. -/
theorem gatedDesk_chained :
    gatedDesk.middleware = gate.map Script.member ∧
      Record.get? gatedDesk.endpoints "addProject" = some addingProjects ∧
        callArguments (.object []) = .ok [] ∧
      ∃ trail : Trail, (∃ depth ≤ 3, trail = Trail.straight 3 0 depth) ∧
        ((gatedDesk.recorded gate addingProjects).run.run ((.empty, ⟨.object [], []⟩), [])).2.2 =
          trail ++ [.operated addProject.args] ∧
        emptyHanded.1 = .ok (.object [("_id", .id (.ofNat 1))]) ∧
        emptyHanded.2.1.collections =
          [("projects", [(.id (.ofNat 1), [("_id", .id (.ofNat 1))])]),
            ("tasks", [(.id (.ofNat 2), [("title", .text "Read"), ("project", .id (.ofNat 1)),
              ("state", .text "open"), ("_id", .id (.ofNat 2))])])] := by
  have hgate : gatedDesk.middleware = gate.map Script.member := rfl
  have hendpoint : Record.get? gatedDesk.endpoints "addProject" = some addingProjects := by
    decide +kernel
  have hargs : callArguments (.object []) = .ok [] := rfl
  have honce : ∀ script ∈ gate, (script addingProjects).AtMost 1 := by
    intro script hscript
    rcases List.mem_cons.1 hscript with rfl | hscript
    · exact fun _ => trivial
    rcases List.mem_cons.1 hscript with rfl | hscript
    · exact fun _ ended => trivial
    · rw [List.mem_singleton.1 hscript]
      trivial
  obtain ⟨trail, -, hrecorded, hcall, hnodup, hstraight, -⟩ :=
    call_chained hgate hendpoint (q := ⟨.object [], []⟩) hargs .empty
  refine ⟨hgate, hendpoint, hargs, trail, hstraight (hnodup honce), ?_, ?_, ?_⟩
  · rw [hrecorded]
    rfl
  · rw [emptyHanded, hcall]
    cbv
  · rw [emptyHanded, hcall]
    cbv

end Gate

end Dispatcher

end EntityGraph
