import EntityGraph.Proofs.Tours

/-!
# Links to parents

A write takes documents over: what its arguments change in a list of related documents belongs to
the parent then. Each of these children is stored with a link, the identifier of the parent under
the connection field of the list (`Dispatcher.call_relinks`).

The link is written on top of what the arguments say, so a value for a back-reference does not
compete with it. A null does: it is noted beside the document, and removed after all values are
written. A child whose arguments null a field that is stored under the connection field has no link
at all, though it was listed under the parent (`league_unlinks`).
-/

namespace EntityGraph

open MemoryStore (setPaths get?_setPaths applyUpdate)

variable {τ : Type}

/-! ## Single entries of an update -/

/-- A value with nothing inside that is written under a single segment is found there: what is
written later is not inside of it. -/
theorem get?_setPaths_of_get? {fs : List (String × Value)} {key : String}
    (hnodup : (Record.keys fs).Nodup) (hsegment : IsSegment key) {u : Value} (hu : u.fields? = none)
    (hfs : Record.get? fs key = some u) {d d' : Document} (h : setPaths fs d = .ok d') :
    Record.get? d' key = some u := by
  induction fs generalizing d with
  | nil => cases hfs
  | cons e rest ih =>
    obtain ⟨path, v⟩ := e
    obtain ⟨hpath, hrest⟩ := List.nodup_cons.1 hnodup
    rw [setPaths] at h
    obtain ⟨d₁, hd₁, h⟩ := bind_eq_ok h
    rw [Record.get?_cons] at hfs
    split at hfs
    · rename_i hkey
      subst hkey
      cases hfs
      rw [setPath, Text.segments_of_isSegment hsegment] at hd₁
      cases hd₁
      exact get?_setPaths (Record.get?_put_self ..) hu hpath h
    · exact ih hrest hfs h

/-- What is missing is not there after a removal. -/
theorem get?_unsetSegments_of_none {segments : List String} {key : String} {d : Document}
    (h : Record.get? d key = none) : Record.get? (unsetSegments segments d) key = none := by
  rcases segments with _ | ⟨a, _ | ⟨b, rest⟩⟩
  · exact h
  · rw [unsetSegments, Record.get?_erase, h, ite_self]
  · rw [unsetSegments.eq_def]
    dsimp only
    split
    · rename_i inner hinner
      rw [Record.get?_put, if_neg, h]
      rintro rfl
      rw [h] at hinner
      cases hinner
    · exact h

/-- A single segment that is among those removed is gone. -/
theorem get?_unsetPaths_of_mem {paths : List String} {key : String} (hsegment : IsSegment key)
    (hmem : key ∈ paths) (d : Document) : Record.get? (paths.foldl unsetPath d) key = none := by
  have hnone : ∀ (paths : List String) (d : Document), Record.get? d key = none →
      Record.get? (paths.foldl unsetPath d) key = none := by
    intro paths
    induction paths with
    | nil => exact fun d h => h
    | cons path rest ih => exact fun d h => ih _ (get?_unsetSegments_of_none h)
  induction paths generalizing d with
  | nil => cases hmem
  | cons path rest ih =>
    rcases List.mem_cons.1 hmem with rfl | hmem
    · refine hnone rest _ ?_
      rw [unsetPath, Text.segments_of_isSegment hsegment, unsetSegments, Record.get?_erase,
        if_pos rfl]
    · exact ih hmem _

namespace Materialized.Turns

variable {made : Materialized} {fields : List FieldDef} {current doc : Document} {key : String}
  {u : Value}

/-- The two halves of an update: what is written, and what is removed then. -/
theorem halves (h : made.Turns fields current doc) (hnames : (fields.map FieldDef.name).Nodup) :
    ∃ changes d, LaidOver current fields made.document changes ∧ setPaths changes current = .ok d ∧
      doc = (Record.keys (Record.ofEntries (made.unset.map fun key => (key, Value.text "")))).foldl
        unsetPath d := by
  obtain ⟨changes, hmerge, happly⟩ := h
  rw [applyUpdate_updateParts, Assembled.getD_ite_isEmpty] at happly
  obtain ⟨d, hd, happly⟩ := bind_eq_ok happly
  cases happly
  exact ⟨changes, d, laidOver_mergeEmbedded hnames hmerge, hd, rfl⟩

/-- **A value with nothing inside that was made** is stored, unless its key is removed. -/
theorem get?_of_made (h : made.Turns fields current doc) (hnames : (fields.map FieldDef.name).Nodup)
    (hnodup : (Record.keys made.document).Nodup) (hsegment : IsSegment key) (hu : u.fields? = none)
    (hmade : Record.get? made.document key = some u) :
    Record.get? doc key = if key ∈ made.unset then none else some u := by
  obtain ⟨changes, d, hlaid, hset, rfl⟩ := h.halves hnames
  have hchanges : Record.get? changes key = some u := by
    have hkey : key ∈ Record.keys changes :=
      hlaid.keys ▸ (Record.mem_keys_iff ..).2 (Option.isSome_of_eq_some hmade)
    obtain ⟨w, hw⟩ := Option.isSome_iff_exists.1 ((Record.mem_keys_iff ..).1 hkey)
    rcases hlaid.get?_cases hw with hsame | ⟨a, b, hobject, -⟩
    · rw [hw, ← hsame, hmade]
    · rw [hmade] at hobject
      cases hobject
      cases hu
  have hwritten := get?_setPaths_of_get? (hlaid.keys ▸ hnodup) hsegment hu hchanges hset
  split
  · rename_i hmem
    exact get?_unsetPaths_of_mem hsegment
      (Record.mem_keys_ofEntries (List.mem_map.2 ⟨key, hmem, rfl⟩)) d
  · rename_i hmem
    exact entry_of_unsetPaths hwritten hu fun hpath => hmem (mem_of_mem_unsetKeys hpath)

/-- **A value with nothing inside that was stored** stays, when nothing is made for its key. -/
theorem get?_of_current (h : made.Turns fields current doc)
    (hnames : (fields.map FieldDef.name).Nodup) (hu : u.fields? = none)
    (hcurrent : Record.get? current key = some u) (hmade : Record.get? made.document key = none)
    (hunset : key ∉ made.unset) : Record.get? doc key = some u := by
  obtain ⟨changes, d, hlaid, hset, rfl⟩ := h.halves hnames
  refine entry_of_unsetPaths (get?_setPaths hcurrent hu (fun hkey => ?_) hset) hu fun hpath =>
    hunset (mem_of_mem_unsetKeys hpath)
  rw [hlaid.keys, Record.mem_keys_iff, Record.has, hmade] at hkey
  cases hkey

end Materialized.Turns

/-! ## Documents with their identifiers -/

/-- **Documents know their identifiers**: what is filed under the identifier of an object has it. -/
def Holdings.Identified (c : Holdings) : Prop :=
  ∀ name o doc, c.found name (.id o) = some doc → Record.get? doc "_id" = some (.id o)

/-- So do the documents of collections. -/
def Collections.Identified (cs : Collections) : Prop :=
  ∀ name o doc, (cs.get name).get? (.id o) = some doc → Record.get? doc "_id" = some (.id o)

/-- Documents know their identifiers when each is filed under what it has. -/
theorem Collections.identified_of_forall {cs : Collections}
    (h : ∀ e ∈ cs, ∀ entry ∈ e.2, Record.get? entry.2 "_id" = some entry.1) : cs.Identified := by
  intro name o doc hdoc
  obtain ⟨key, hentry, hkey⟩ := Collection.exists_mem_of_get? hdoc
  obtain rfl := Value.eq_of_eq_id hkey
  unfold Collections.get at hentry
  rcases hget : Record.get? cs name with _ | entries
  · rw [hget] at hentry
    cases hentry
  · rw [hget] at hentry
    exact h _ (Record.mem_of_get?_eq_some hget) _ hentry

/-- A visit that spares the identifier leaves identifiers alone. -/
theorem Visit.Writes.identified {r : Registry} {v : Visit} {c c' : Holdings} {doc : Document}
    (h : v.Writes r c doc c') (hv : v.SparesId) (hc : c.Identified) : c'.Identified := by
  intro name o found hfound
  rcases h.found name (.id o) with ⟨hat, hdoc⟩ | ⟨-, hsame⟩
  · obtain ⟨rfl, hid⟩ := Visit.isAt_id_iff.1 hat
    obtain rfl := Option.some.inj (hdoc.symm.trans hfound)
    rcases h.operation_cases with hop | hop
    · obtain ⟨-, -, -, hown, -⟩ := h.of_create hop
      rw [hown, hid]
    · obtain ⟨o', made, current, -, hid', hmade, hcurrent, hturns⟩ := h.of_update hop
      cases hid.symm.trans hid'
      refine hturns.get?_of_current v.entity.entity.names_nodup rfl (hc _ _ _ hcurrent)
        (hmade.get?_of_apart hv.link hv.document) fun hmem => ?_
      obtain ⟨f, hf, -, hkey⟩ := hmade.mem_unset.1 hmem
      exact hv.stored f hf hkey
  · exact hc name o found (hsame ▸ hfound)

/-- It is to a document with the identifier of an object. -/
theorem Visit.Writes.exists_id {r : Registry} {v : Visit} {c c' : Holdings} {doc : Document}
    (h : v.Writes r c doc c') (hv : v.SparesId) : ∃ o, v.id = .id o := by
  rcases h.operation_cases with hop | hop
  · exact ⟨_, h.id_of_create hop hv⟩
  · obtain ⟨o, -, -, -, hid, -⟩ := h.of_update hop
    exact ⟨o, hid⟩

theorem Registry.Follows.identified {r : Registry} {c c' : Holdings} {log : Log}
    (h : r.Follows c log c') (hlog : ∀ e ∈ log, e.1.SparesId) (hc : c.Identified) :
    c'.Identified := by
  induction h with
  | nil => exact hc
  | cons hwrites _ ih =>
    exact ih (fun e he => hlog e (List.mem_cons_of_mem _ he))
      (hwrites.identified (hlog _ (List.mem_cons_self ..)) hc)

/-! ## Children -/

/-- **No document is changed twice**: updates are to different documents. -/
def Log.NoneTwice (log : Log) : Prop :=
  log.Pairwise fun a b => a.1.operation = .update → b.1.operation = .update →
    a.1.entity.collection = b.1.entity.collection → a.1.id ≠ b.1.id

/-- What is written at a visit is found in the end, when the document is not changed again. -/
theorem Registry.Follows.found_of_update {r : Registry} {c c' : Holdings} {log : Log}
    (h : r.Follows c log c') (honce : log.NoneTwice) {v : Visit} {doc : Document}
    (hmem : (v, doc) ∈ log) (hop : v.operation = .update) :
    ∃ o made current, NamesDocument v.args o ∧ v.id = .id o ∧
      r.Makes v.entity.entity v.link v.args made ∧
      made.Turns v.entity.entity.fields current doc ∧
      c'.found v.entity.collection (.id o) = some doc := by
  obtain ⟨before, after, c₁, c₂, rfl, -, hwrites, hafter⟩ := h.writes_of_mem hmem
  obtain ⟨o, made, current, hnames, hid, hmade, -, hturns⟩ := hwrites.of_update hop
  refine ⟨o, made, current, hnames, hid, hmade, hturns, ?_⟩
  have hdoc := hwrites.found_self hid
  rw [hafter.found_of_not_visited fun e he hat => ?_, hdoc]
  obtain ⟨_, _, _, _, -, -, hlater, -⟩ := hafter.writes_of_mem he
  obtain ⟨hcollection, hsame⟩ := Visit.isAt_id_iff.1 hat
  rcases hlater.operation_cases with hcreate | hupdate
  · exact hafter.not_created (Option.isSome_of_eq_some hdoc) e he hcreate hat
  · exact (List.pairwise_cons.1 (List.pairwise_append.1 honce).2.1).1 e he hop hupdate
      hcollection.symm (hid.trans hsame.symm)

/-- The arguments null a field that is stored under the key. -/
def Entity.Nulls (e : Entity) (key : String) (args : Value) : Prop :=
  ∃ f ∈ e.fields, f.IsNulled args ∧ f.storedKey = key

/-- A link is stored with the child, unless the arguments of the child null its key. -/
theorem Registry.Makes.get?_link_of_turns {r : Registry} {e : Entity} {args parent : Value}
    {key : String} {made : Materialized} {current child : Document}
    (h : r.Makes e (some (key, parent)) args made) (hturns : made.Turns e.fields current child)
    (hsegment : IsSegment key) (hparent : parent.fields? = none) :
    (e.Nulls key args → Record.get? child key = none) ∧
      (¬ e.Nulls key args → Record.get? child key = some parent) := by
  rw [hturns.get?_of_made e.names_nodup h.nodup_keys hsegment hparent (h.get?_link rfl)]
  exact ⟨fun hnull => if_pos (h.mem_unset.2 hnull), fun hnot => if_neg fun hmem =>
    hnot (h.mem_unset.1 hmem)⟩

/-- **Children that a write changes are linked**: each of them to the parent at whose visit it was
listed. -/
theorem Executor.Commits.relinks {r : Registry} {js : List Job} {log : Log} {m m' : MemoryStore}
    (h : Executor.Commits r js log m m') (hjs : ∀ j ∈ js, j.link = none) (hspares : r.SparesId)
    (hidentified : m.collections.Identified) (honce : log.NoneTwice) {u : Visit} {doc : Document}
    (hu : (u, doc) ∈ log) {f : FieldDef} (hf : f ∈ u.entity.entity.fields)
    (hsegment : IsSegment f.connectionField) {delta : Delta}
    (hdelta : deltaOf? f u.args = some delta) {item : Value} (hitem : item ∈ delta.updated) :
    ∃ e o child parent, r.lookup (f.target.getD "") = .ok e ∧ NamesDocument item o ∧
      (m'.collections.get e.collection).get? (.id o) = some child ∧
      (m'.collections.get u.entity.collection).get? u.id = some parent ∧
      Record.get? parent "_id" = some u.id ∧
      (e.entity.Nulls f.connectionField item → Record.get? child f.connectionField = none) ∧
      (¬ e.entity.Nulls f.connectionField item →
        Record.get? child f.connectionField = Record.get? parent "_id") := by
  obtain ⟨n, hfollows⟩ := h.follows
  have hvisits : ∀ e ∈ log, e.1.SparesId :=
    fun e he => hspares.visits h.tours hjs e.1 (List.mem_map_of_mem he)
  obtain ⟨before, after, c₁, c₂, rfl, -, hwrites, hafter⟩ := hfollows.writes_of_mem hu
  obtain ⟨p, hp⟩ := hwrites.exists_id (hvisits _ hu)
  obtain ⟨parent, hparent⟩ := Option.isSome_iff_exists.1
    (hafter.found_isSome (Option.isSome_of_eq_some (hwrites.found_self hp)))
  have hid := hfollows.identified hvisits hidentified _ _ _ hparent
  obtain ⟨w, hw, hjob⟩ := h.tours.exists_child_visit (List.mem_map_of_mem hu)
    (Visit.mem_jobs.2 ⟨f, hf, delta, hdelta, .inr ⟨item, hitem, rfl⟩⟩)
  obtain ⟨⟨w, child⟩, hmem, rfl⟩ := List.mem_map.1 hw
  obtain ⟨hop, htarget, hlink, rfl⟩ := Job.mk.inj hjob
  obtain ⟨o, made, current, hnames, -, hmade, hturns, hchild⟩ :=
    hfollows.found_of_update honce hmem hop
  rw [hlink] at hmade
  have hlinked := hmade.get?_link_of_turns hturns hsegment (by rw [hp]; rfl)
  refine ⟨w.entity, o, child, parent, htarget ▸ h.tours.lookup hw, hnames,
    hchild, by rw [hp]; exact hparent, by rw [hp, hid], hlinked.1, fun hnot => ?_⟩
  rw [hlinked.2 hnot, hid, hp]

namespace Dispatcher

/-- The root of a call has no parent. -/
theorem RootJob.link {x : Dispatcher τ SessionId} {ep : Endpoint} {args : Value} {job : Job}
    (h : x.RootJob ep args job) : job.link = none := by
  cases h <;> rfl

variable {x : Dispatcher τ SessionId} {c : Component τ MemoryStore}

/-- **Children that a call changes are linked to their parents.** A call that adds or updates
documents, or moves one to another state, and returns, commits a tour of its arguments. When no two
of the updates are to the same document, every item of the changes in a list of related documents,
at whatever visit, names a child that is found in the end with the identifier of the parent under
the connection field. The exception is a child whose item nulls a field that is stored there: it has
nothing under the connection field. -/
theorem call_relinks (h : x.Checking c) (hspares : x.executor.registry.SparesId) {name : String}
    {ep : Endpoint} (hep : Record.get? x.endpoints name = some ep)
    (hk : ep.kind = .save ∨ ep.kind = .update ∨ ep.kind = .state) {t t₁ t' : τ} {q q₁ q' : Call}
    (hpasses : x.Passes ep t q t₁ q₁) (hd : (c.get t₁).collections.Distinct)
    (hidentified : (c.get t₁).collections.Identified) {v : Value}
    (hr : (x.call name).run.run (t, q) = (.ok v, (t', q'))) :
    ∃ job log, x.RootJob ep q₁.args job ∧
      Executor.Commits x.executor.registry [job] log (c.get t₁) (c.get t') ∧
      (log.NoneTwice → ∀ u doc, (u, doc) ∈ log → ∀ f ∈ u.entity.entity.fields,
        IsSegment f.connectionField →
        ∀ delta, deltaOf? f u.args = some delta → ∀ item ∈ delta.updated, ∃ e o child parent,
          x.executor.registry.lookup (f.target.getD "") = .ok e ∧ NamesDocument item o ∧
          ((c.get t').collections.get e.collection).get? (.id o) = some child ∧
          ((c.get t').collections.get u.entity.collection).get? u.id = some parent ∧
          Record.get? parent "_id" = some u.id ∧
          (e.entity.Nulls f.connectionField item → Record.get? child f.connectionField = none) ∧
          (¬ e.entity.Nulls f.connectionField item →
            Record.get? child f.connectionField = Record.get? parent "_id")) := by
  obtain ⟨job, log, hasked, hcommits⟩ := h.commits_call hep hk hpasses hd hr
  refine ⟨job, log, hasked, hcommits, fun honce u doc hu f hf hsegment delta hdelta item hitem =>
    ?_⟩
  exact hcommits.relinks (fun j hj => List.mem_singleton.1 hj ▸ hasked.link) hspares hidentified
    honce hu hf hsegment hdelta hitem

end Dispatcher

/-! ## A league -/

/-- The field that lists the players of a team. -/
def playersField : FieldDef :=
  ⟨"players", .entity "Player", true, true, false, false, some ⟨false, "team", .null⟩, .null⟩

/-- A team has players. -/
def team : Entity where
  name := "Team"
  fields := [⟨"id", .scalar .id, false, true, false, false, none, .null⟩, textField "name",
    playersField]
  description := .null
  names_nodup := by decide

/-- A player may have a team. -/
def player : Entity where
  name := "Player"
  fields := [⟨"id", .scalar .id, false, true, false, false, none, .null⟩, textField "name",
    ⟨"team", .entity "Team", false, true, false, false, some ⟨false, "team", .null⟩, .null⟩]
  description := .null
  names_nodup := by decide

/-- The registry of the service. -/
def leagueRegistry : Registry :=
  (Registry.finalize.run.run ⟨[
    ("Team", ⟨team, "teams", some "team", some "teams", none, true, none, []⟩),
    ("Player", ⟨player, "players", some "player", some "players", none, true, none, []⟩)], [],
    false⟩).2

/-- A service of teams and their players. -/
def league : Dispatcher MemoryStore SessionId where
  executor := {
    registry := leagueRegistry
    behaviour := ⟨fun _ => .none, fun _ _ _ => throw .illTyped⟩
    store := MemoryStore.documentStore.within ⟨id, fun m _ => m⟩
    policy := ⟨2, fun n => .ok (.whole n), fun _ => pure (), Nat.two_pos⟩ }
  endpoints := (Endpoint.table .everything leagueRegistry).toOption.getD []
  middleware := []
  defaultLimit := 10

/-- A store with a team and a player. -/
def leagueStore : MemoryStore := { MemoryStore.empty with
  collections := [
    ("teams", [(.id (.ofNat 1), [("_id", .id (.ofNat 1)), ("name", .text "Reds")])]),
    ("players", [(.id (.ofNat 2), [("_id", .id (.ofNat 2)), ("name", .text "Ann")])])] }

/-- The team is updated with a change to the player. -/
def changePlayer (change : String × Value) : Call :=
  ⟨.object [("id", .id (.ofNat 1)),
    ("players", .object [("updated", .list [.object [("id", .id (.ofNat 2)), change]])])], []⟩

/-- The store after the player was changed. -/
def afterChange (change : String × Value) : MemoryStore :=
  ((league.call "updateTeam").run.run (leagueStore, changePlayer change)).2.1

/-- The entities that the registry knows. -/
theorem league_descriptor {n : String} {d : Descriptor}
    (h : Record.get? leagueRegistry.descriptors n = some d) :
    (d.entity = team ∧ d.collection = "teams" ∧ n = "Team") ∨
      (d.entity = player ∧ d.collection = "players" ∧ n = "Player") := by
  obtain ⟨p, q, hdescriptors⟩ : ∃ p q, leagueRegistry.descriptors = [
      ("Team", ⟨team, "teams", some "team", some "teams", none, true, p, []⟩),
      ("Player", ⟨player, "players", some "player", some "players", none, true, q, []⟩)] :=
      ⟨_, _, rfl⟩
  have hmem := Record.mem_of_get?_eq_some h
  rw [hdescriptors] at hmem
  rcases List.mem_cons.1 hmem with hmem | hmem
  · cases hmem
    exact .inl ⟨rfl, rfl, rfl⟩
  · cases List.mem_singleton.1 hmem
    exact .inr ⟨rfl, rfl, rfl⟩

theorem league_checking : league.Checking ⟨id, fun m _ => m⟩ where
  component := fun _ _ => rfl
  store := rfl
  sleep := fun _ _ => rfl
  validates := fun _ => EntityBehaviour.validates_none _

theorem league_sparesId : leagueRegistry.SparesId := by
  intro n d hd f hf
  have hfields : ∀ f ∈ team.fields ++ player.fields,
      f.documentKey ≠ "_id" ∧ f.storedKey ≠ "_id" ∧ f.connectionField ≠ "_id" := by decide
  obtain ⟨hentity, -⟩ | ⟨hentity, -⟩ := league_descriptor (Registry.get?_of_lookup hd) <;>
    rw [hentity] at hf
  · exact hfields f (List.mem_append_left _ hf)
  · exact hfields f (List.mem_append_right _ hf)

theorem leagueStore_distinct : leagueStore.collections.Distinct :=
  Collections.distinct_of_forall (by unfold Collection.Distinct; decide)

theorem leagueStore_identified : leagueStore.collections.Identified :=
  Collections.identified_of_forall (by simp [leagueStore, Record.get?])

/-- The only item that is changed is the player. -/
theorem deltaOf?_changePlayer (change : String × Value) :
    deltaOf? playersField (changePlayer change).args =
      some ⟨[], [.object [("id", .id (.ofNat 2)), change]], []⟩ := rfl

/-- The visits are to the player and then to the team. -/
theorem tours_changePlayer {change : String × Value} {visits : List Visit}
    (h : leagueRegistry.Tours [⟨.update, "Team", none, (changePlayer change).args⟩] visits) :
    ∃ w u : Visit, visits = [w, u] ∧ w.entity.collection = "players" ∧
      u.entity.collection = "teams" ∧
      u.entity.entity = team ∧ u.toJob = ⟨.update, "Team", none, (changePlayer change).args⟩ := by
  obtain ⟨u, children, rest, hjob, hteam, hchildren, hrest, rfl⟩ := h.exists_first
  obtain ⟨hop, htarget, -, hargs⟩ := Job.mk.inj hjob
  rw [htarget] at hteam
  obtain ⟨hentity, hcollection, -⟩ | ⟨-, -, hname⟩ :=
    league_descriptor (Registry.get?_of_lookup hteam)
  · have hjobs : u.jobs = [⟨.update, "Player", some ("team", u.id),
        .object [("id", .id (.ofNat 2)), change]⟩] := by
      rw [Visit.jobs, hentity, hargs]
      rfl
    rw [hjobs] at hchildren
    obtain ⟨w, grandchildren, others, hjob', hplayer, hgrandchildren, hothers, rfl⟩ :=
      hchildren.exists_first
    obtain ⟨-, htarget', -, hargs'⟩ := Job.mk.inj hjob'
    rw [htarget'] at hplayer
    obtain ⟨-, -, hname⟩ | ⟨hentity', hcollection', -⟩ :=
      league_descriptor (Registry.get?_of_lookup hplayer)
    · exact absurd hname (by decide)
    · have hjobs' : w.jobs = [] := by
        rw [Visit.jobs, hentity', hargs']
        rfl
      rw [hjobs'] at hgrandchildren
      refine ⟨w, u, ?_, hcollection', hcollection, hentity, hjob⟩
      rw [hrest.eq_nil, hothers.eq_nil, hgrandchildren.eq_nil, Visit.around, hop, Visit.around]
      cases w.operation <;> rfl
  · exact absurd hname (by decide)

/-- The player is renamed and taken into the team. -/
theorem league_relinks : ∃ child,
    ((afterChange ("name", .text "Bea")).collections.get "players").get? (.id (.ofNat 2)) =
      some child ∧
      Record.get? child "team" = some (.id (.ofNat 1)) := by
  have hep : Record.get? league.endpoints "updateTeam" =
    some ⟨"updateTeam", .update, some "Team", none⟩ := rfl
  obtain ⟨v, hv⟩ :
    ∃ v, ((league.call "updateTeam").run.run (leagueStore, changePlayer ("name", .text "Bea"))).1 =
      .ok v := ⟨_, by cbv⟩
  obtain ⟨job, log, hasked, hcommits, hlinked⟩ :=
    Dispatcher.call_relinks league_checking league_sparesId hep (.inr (.inl rfl))
      (Dispatcher.passes_of_none rfl rfl _ _) leagueStore_distinct leagueStore_identified
    (Prod.ext hv rfl)
  obtain rfl : job = ⟨.update, "Team", none, (changePlayer ("name", .text "Bea")).args⟩ := by
    cases hasked with
    | save hk => cases hk
    | state hk => cases hk
    | update _ hd =>
      obtain ⟨hentity, -⟩ | ⟨-, -, hname⟩ := league_descriptor (Registry.get?_of_lookup hd)
      · rw [Descriptor.name, hentity]
        rfl
      · exact absurd hname (by decide)
  obtain ⟨w, u, hvisits, hplayers, hteams, hteam, hjob⟩ := tours_changePlayer hcommits.tours
  obtain ⟨hop, -, -, hargs⟩ := Job.mk.inj hjob
  have honce : (log.map Prod.fst).Pairwise fun a b => a.operation = .update →
    b.operation = .update →
      a.entity.collection = b.entity.collection → a.id ≠ b.id := by
    rw [hvisits, List.pairwise_pair]
    intro _ _ hsame
    rw [hplayers, hteams] at hsame
    exact absurd hsame (by decide)
  have hu : u ∈ log.map Prod.fst := by
    rw [hvisits]
    exact List.mem_cons_of_mem _ (List.mem_singleton_self u)
  obtain ⟨⟨u, doc⟩, hmem, rfl⟩ := List.mem_map.1 hu
  obtain ⟨e, o, child, parent, he, ⟨_, ⟨⟩, ho⟩, hchild, -, hparent, -, hlink⟩ :=
    hlinked (List.pairwise_map.1 honce) u doc hmem playersField (by rw [hteam]; simp [team])
      (by unfold IsSegment; decide) _
    (by rw [hargs, deltaOf?_changePlayer]) _ (List.mem_singleton_self _)
  cases ho
  obtain ⟨-, -, hname⟩ | ⟨hentity, hcollection, -⟩ := league_descriptor (Registry.get?_of_lookup he)
  · exact absurd hname (by decide)
  rw [hcollection] at hchild
  refine ⟨child, hchild, (hlink ?_).trans (hparent.trans ?_)⟩
  · rintro ⟨f, hf, ⟨-, -, hnull⟩, -⟩
    rw [hentity] at hf
    simp only [player, List.mem_cons, List.not_mem_nil, or_false] at hf
    rcases hf with rfl | rfl | rfl <;> cases hnull
  · obtain ⟨n, hfollows⟩ := hcommits.follows
    obtain ⟨_, _, _, _, -, -, hwrites, -⟩ := hfollows.writes_of_mem hmem
    obtain ⟨o, -, -, ⟨_, hraw, ho⟩, hid, -⟩ := hwrites.of_update hop
    rw [hargs] at hraw
    cases hraw
    cases ho
    rw [hid]

/-- **A child without a link.** The player is listed under the team, but the team is nulled in the
change to the player, and its place is where the link goes: the player has no team. -/
theorem league_unlinks : league.Checking ⟨id, fun m _ => m⟩ ∧ leagueRegistry.SparesId ∧
    leagueStore.collections.Distinct ∧ leagueStore.collections.Identified ∧
    playersField ∈ team.fields ∧ playersField.connectionField = "team" ∧
    NamesDocument (changePlayer ("team", .null)).args (.ofNat 1) ∧
    deltaOf? playersField (changePlayer ("team", .null)).args =
      some ⟨[], [.object [("id", .id (.ofNat 2)), ("team", .null)]], []⟩ ∧
    NamesDocument (.object [("id", .id (.ofNat 2)), ("team", .null)]) (.ofNat 2) ∧
    ((league.call "updateTeam").run.run (leagueStore, changePlayer ("team", .null))).1 =
      .ok (.object [("_id", .id (.ofNat 1)), ("name", .text "Reds")]) ∧
    ((afterChange ("team", .null)).collections.get "players").get? (.id (.ofNat 2)) =
      some [("_id", .id (.ofNat 2)), ("name", .text "Ann")] := by
  refine ⟨league_checking, league_sparesId, leagueStore_distinct,
    leagueStore_identified, by simp [team], rfl, ⟨_, rfl, rfl⟩, rfl, ⟨_, rfl, rfl⟩, ?_, ?_⟩ <;> cbv

end EntityGraph
