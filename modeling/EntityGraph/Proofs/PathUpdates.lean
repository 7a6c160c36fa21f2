import EntityGraph.Proofs.Pipeline
import EntityGraph.Proofs.Session
import EntityGraph.Proofs.Uniqueness

/-!
# Updates path by path

An update names paths, each with a value to be written there or to be removed. Paths that part at
some segment do not touch each other: what the update does at one of them is what it would do alone,
and every path that parts with all of them leads to what it led to before
(`MemoryStore.update_composes`). So the order of the paths matters as little as the order of keys in
an object, for the document that comes out (`Value.Same`) and for the check of unique paths.

Writing makes the objects that are missing on the way and removing does not, but both are a change
of the entry that the first segment leads to (`changeAt`). Two changes commute by induction on how
their paths part: at the segment where they do, they change different entries, and before that both
change the same one, which the induction is about.
-/

namespace EntityGraph

/-! ## Entries -/

namespace Record

variable {α : Type}

/-- Write a value under a key, or remove what is there. -/
def edit (r : Record α) (key : String) : Option α → Record α
  | some v => put r key v
  | none => erase r key

/-- After an edit the entry is the new one, and the others are as they were. -/
theorem get?_edit (r : Record α) (key : String) (new : Option α) (other : String) :
    get? (edit r key new) other = if key = other then new else get? r other := by
  cases new with
  | none => exact get?_erase ..
  | some v => exact get?_put ..

theorem edit_get? (r : Record α) (key : String) : edit r key (get? r key) = r := by
  rcases h : get? r key with _ | v
  · exact erase_of_get? h
  · exact put_of_get? h

end Record

/-! ## Values up to the order of keys -/

/-- **The same as mappings**: equal, or objects with the same keys and, under each key, values that
are the same. -/
inductive Value.Same : Value → Value → Prop where
  | refl (v : Value) : Same v v
  | object {xs ys : Document} (keys : ∀ key, Record.has xs key = Record.has ys key)
      (values : ∀ key v w, Record.get? xs key = some v → Record.get? ys key = some w → Same v w) :
      Same (.object xs) (.object ys)

namespace Value

variable {v w : Value} {x y : Option Value} {xs ys : Document}

/-- The same value, or nothing in both places. -/
abbrev SameIn : Option Value → Option Value → Prop := Option.Rel Same

theorem SameIn.refl (x : Option Value) : SameIn x x := by
  cases x with
  | none => exact .none
  | some v => exact .some (.refl v)

theorem sameIn_iff :
    SameIn x y ↔ x.isSome = y.isSome ∧ ∀ v w, x = some v → y = some w → Same v w := by
  constructor
  · rintro (h | _)
    · refine ⟨rfl, fun _ _ hv hw => ?_⟩
      cases hv
      cases hw
      exact h
    · exact ⟨rfl, fun _ _ h => by cases h⟩
  · rintro ⟨hsome, h⟩
    cases x with
    | none =>
      rw [Option.isSome_eq_false_iff.1 hsome.symm |> Option.isNone_iff_eq_none.1]
      exact .none
    | some v =>
      obtain ⟨w, rfl⟩ := Option.isSome_iff_exists.1 hsome.symm
      exact .some (h v w rfl rfl)

/-- Objects are the same when they have the same entries. -/
theorem Same.of_get? (h : ∀ key, SameIn (Record.get? xs key) (Record.get? ys key)) :
    Same (.object xs) (.object ys) :=
  .object (fun key => (sameIn_iff.1 (h key)).1) fun key => (sameIn_iff.1 (h key)).2

/-- The same objects have the same entries. -/
theorem Same.get? (h : Same (.object xs) (.object ys)) (key : String) :
    SameIn (Record.get? xs key) (Record.get? ys key) := by
  cases h with
  | refl => exact SameIn.refl _
  | object keys values => exact sameIn_iff.2 ⟨keys key, values key⟩

/-- Sameness is symmetric. -/
theorem Same.symm (h : Same v w) : Same w v := by
  induction h with
  | refl v => exact .refl v
  | object keys _ ih =>
    exact .object (fun key => (keys key).symm) fun key v w hv hw => ih key w v hw hv

/-- What is the same as an object is an object. -/
theorem Same.exists_object (h : Same (.object xs) w) : ∃ ys, w = .object ys := by
  cases h with
  | refl => exact ⟨_, rfl⟩
  | object => exact ⟨_, rfl⟩

theorem SameIn.of_some {v : Value} (h : SameIn (some v) y) : ∃ w, y = some w ∧ Same v w := by
  cases h with
  | some h => exact ⟨_, rfl, h⟩

/-- Sameness is transitive. -/
theorem Same.trans {u : Value} (h : Same v w) (h' : Same w u) : Same v u := by
  induction h generalizing u with
  | refl => exact h'
  | @object xs ys keys values ih =>
    obtain ⟨zs, rfl⟩ := h'.exists_object
    refine Same.of_get? fun key => ?_
    obtain ⟨hsome, hvalues⟩ := sameIn_iff.1 (h'.get? key)
    refine sameIn_iff.2 ⟨(keys key).trans hsome, fun a c ha hc => ?_⟩
    obtain ⟨b, hb⟩ := Option.isSome_iff_exists.1 (hsome.trans (by rw [hc]; rfl))
    exact ih key a b ha hb (hvalues b c hb hc)

theorem SameIn.trans {z : Option Value} (h : SameIn x y) (h' : SameIn y z) : SameIn x z := by
  cases h with
  | none => exact h'
  | some h =>
    cases h' with
    | some h' => exact .some (h.trans h')

end Value

open Value (SameIn)

/-! ## Paths that part -/

/-- Neither list of segments is a beginning of the other. -/
def Incomparable (p q : List String) : Prop := ¬ p <+: q ∧ ¬ q <+: p

/-- **Paths that part**: they share segments, and then go on with different ones. -/
inductive Parts : List String → List String → Prop where
  | here {s t : String} {p q : List String} (h : s ≠ t) : Parts (s :: p) (t :: q)
  | later {s : String} {p q : List String} (h : Parts p q) : Parts (s :: p) (s :: q)

theorem Parts.symm {p q : List String} (h : Parts p q) : Parts q p := by
  induction h with
  | here h => exact .here (Ne.symm h)
  | later _ ih => exact .later ih

/-- Incomparable paths part somewhere. -/
theorem Incomparable.parts {p q : List String} (h : Incomparable p q) : Parts p q := by
  induction p generalizing q with
  | nil => exact absurd List.nil_prefix h.1
  | cons s p ih =>
    cases q with
    | nil => exact absurd List.nil_prefix h.2
    | cons t q =>
      by_cases hst : s = t
      · subst hst
        refine .later (ih ⟨fun hp => h.1 ?_, fun hq => h.2 ?_⟩)
        · exact List.cons_prefix_cons.2 ⟨rfl, hp⟩
        · exact List.cons_prefix_cons.2 ⟨rfl, hq⟩
      · exact .here hst

/-- Nothing, or an object: what a change can pass through. -/
def IsOpen (x : Option Value) : Prop := ∀ v, x = some v → ∃ fs, v = .object fs

/-- **Passable paths**: all that lies on the way is an object, as far as there is something. -/
def Passable : List String → Option Value → Prop
  | [], _ => True
  | s :: rest, x => IsOpen x ∧ Passable rest (x.bind (fieldOf? s))

section Open

variable {s : String} {q : List String} {x y : Option Value}

theorem isOpen_none : IsOpen none := fun _ h => by cases h

theorem isOpen_object (fs : Document) : IsOpen (some (.object fs)) :=
    fun _ h => ⟨fs, (Option.some.inj h).symm⟩

theorem IsOpen.cases (h : IsOpen x) : x = none ∨ ∃ fs, x = some (.object fs) := by
  cases x with
  | none => exact .inl rfl
  | some v =>
    obtain ⟨fs, rfl⟩ := h v rfl
    exact .inr ⟨fs, rfl⟩

/-- A path leads on from an entry. -/
theorem IsOpen.resolve (h : IsOpen x) :
    resolveSegments (s :: q) x.toList = resolveSegments q (x.bind (fieldOf? s)).toList := by
  rcases h.cases with rfl | ⟨fs, rfl⟩
  · rfl
  · exact resolveSegments_cons s q fs

/-- Objects are the same when their entries are. -/
theorem IsOpen.same (hx : IsOpen x) (hy : IsOpen y) (hsome : x.isSome = y.isSome)
    (h : ∀ key, SameIn (x.bind (fieldOf? key)) (y.bind (fieldOf? key))) : SameIn x y := by
  rcases hx.cases with rfl | ⟨xs, rfl⟩ <;> rcases hy.cases with rfl | ⟨ys, rfl⟩
  · exact .none
  · cases hsome
  · cases hsome
  · exact .some (.of_get? h)

end Open

/-! ## One change -/

/-- **A change at a path**: a value is written there, or what is there is removed. Only objects are
passed through, and writing makes those that are missing. -/
def changeAt : List String → Option Value → Option Value → Option Value
  | [], new, _ => new
  | s :: rest, new, some (.object fs) =>
    some (.object (Record.edit fs s (changeAt rest new (Record.get? fs s))))
  | s :: rest, some v, none => some (.object (Record.edit [] s (changeAt rest (some v) none)))
  | _ :: _, _, old => old

section Change

variable {s : String} {p q : List String} {x y new new' : Option Value}

theorem changeAt_none_none (p : List String) : changeAt p none none = none := by
  cases p <;> rfl

/-- An object stays an object when it is changed inside. -/
theorem IsOpen.changed (h : IsOpen x) : IsOpen (changeAt (s :: p) new x) := by
  rcases h.cases with rfl | ⟨fs, rfl⟩
  · cases new with
    | none => exact isOpen_none
    | some v => exact isOpen_object _
  · exact isOpen_object _

theorem IsOpen.isSome_changeAt (h : IsOpen x) :
    (changeAt (s :: p) new x).isSome = (x.isSome || new.isSome) := by
  rcases h.cases with rfl | ⟨fs, rfl⟩
  · cases new <;> rfl
  · rfl

/-- **A change is one of the first entry**: there it goes on, and the others stay. -/
theorem IsOpen.entry_changeAt (h : IsOpen x) (key : String) :
    (changeAt (s :: p) new x).bind (fieldOf? key) = if s = key then
      changeAt p new (x.bind (fieldOf? key)) else x.bind (fieldOf? key) := by
  rcases h.cases with rfl | ⟨fs, rfl⟩
  · cases new with
    | none => exact (ite_eq_right_iff.2 fun _ => changeAt_none_none p).symm
    | some v => exact Record.get?_edit [] s _ key
  · refine (Record.get?_edit fs s _ key).trans ?_
    split
    · rename_i hs
      rw [hs]
      rfl
    · rfl

/-- **The path of a change** leads to the value that was written, or to nothing. -/
theorem resolve_changeAt (hp : Passable p x) :
    resolveSegments p (changeAt p new x).toList = new.toList := by
  induction p generalizing x with
  | nil => rfl
  | cons s p ih =>
    obtain ⟨hx, hp⟩ := hp
    rw [hx.changed.resolve, hx.entry_changeAt, if_pos rfl]
    exact ih hp

/-- **Other paths** lead to what they led to before the change. -/
theorem Parts.resolve_changeAt (h : Parts p q) (hp : Passable p x) :
    resolveSegments q (changeAt p new x).toList = resolveSegments q x.toList := by
  induction h generalizing x with
  | here hst =>
    obtain ⟨hx, -⟩ := hp
    rw [hx.changed.resolve, hx.resolve, hx.entry_changeAt, if_neg hst]
  | later _ ih =>
    obtain ⟨hx, hp⟩ := hp
    rw [hx.changed.resolve, hx.resolve, hx.entry_changeAt, if_pos rfl]
    exact ih hp

/-- Other paths stay passable. -/
theorem Parts.passable_changeAt (h : Parts p q) (hp : Passable p x) (hq : Passable q x) :
    Passable q (changeAt p new x) := by
  induction h generalizing x with
  | here hst =>
    obtain ⟨hx, -⟩ := hp
    refine ⟨hx.changed, ?_⟩
    rw [hx.entry_changeAt, if_neg hst]
    exact hq.2
  | later _ ih =>
    obtain ⟨hx, hp⟩ := hp
    refine ⟨hx.changed, ?_⟩
    rw [hx.entry_changeAt, if_pos rfl]
    exact ih hp hq.2

/-- **Changes at paths that part commute.** -/
theorem Parts.changeAt_comm (h : Parts p q) (hp : Passable p x) (hq : Passable q x) :
    SameIn (changeAt p new (changeAt q new' x)) (changeAt q new' (changeAt p new x)) := by
  induction h generalizing x with
  | @here s t p q hst =>
    obtain ⟨hx, -⟩ := hp
    refine hx.changed.changed.same hx.changed.changed ?_ fun key => ?_
    · rw [hx.changed.isSome_changeAt, hx.changed.isSome_changeAt, hx.isSome_changeAt,
        hx.isSome_changeAt, Bool.or_right_comm]
    · rw [hx.changed.entry_changeAt, hx.changed.entry_changeAt, hx.entry_changeAt,
        hx.entry_changeAt]
      by_cases hs : s = key
      · subst hs
        rw [if_pos rfl, if_neg (Ne.symm hst), if_neg (Ne.symm hst), if_pos rfl]
        exact SameIn.refl _
      · rw [if_neg hs, if_neg hs]
        exact SameIn.refl _
  | @later s p q _ ih =>
    obtain ⟨hx, hp⟩ := hp
    refine hx.changed.changed.same hx.changed.changed ?_ fun key => ?_
    · rw [hx.changed.isSome_changeAt, hx.changed.isSome_changeAt, hx.isSome_changeAt,
        hx.isSome_changeAt, Bool.or_right_comm]
    · rw [hx.changed.entry_changeAt, hx.changed.entry_changeAt, hx.entry_changeAt,
        hx.entry_changeAt]
      by_cases hs : s = key
      · subst hs
        rw [if_pos rfl, if_pos rfl, if_pos rfl, if_pos rfl]
        exact ih hp hq.2
      · rw [if_neg hs, if_neg hs, if_neg hs, if_neg hs]
        exact SameIn.refl _

/-- **The same change** of values that are the same. -/
theorem Value.SameIn.changed (h : SameIn x y) : SameIn (changeAt p new x) (changeAt p new y) := by
  induction p generalizing x y with
  | nil => exact SameIn.refl _
  | cons s p ih =>
    cases h with
    | none => exact SameIn.refl _
    | @some v w h =>
      cases h with
      | refl => exact SameIn.refl _
      | object keys values =>
        have hsame := Value.Same.object keys values
        refine (isOpen_object _).changed.same (isOpen_object _).changed rfl fun key => ?_
        rw [(isOpen_object _).entry_changeAt, (isOpen_object _).entry_changeAt]
        split
        · exact ih (hsame.get? key)
        · exact hsame.get? key

end Change

/-! ## Several changes -/

/-- Changes one after the other. -/
def changeAll (changes : List (List String × Option Value)) (x : Option Value) : Option Value :=
  changes.foldl (fun x c => changeAt c.1 c.2 x) x

/-- **Changes that go together**: their paths part, and all of them are passable. -/
structure Together (changes : List (List String × Option Value)) (x : Option Value) : Prop where
  parts : changes.Pairwise fun c c' => Parts c.1 c'.1
  passable : ∀ c ∈ changes, Passable c.1 x

section Several

variable {c : List String × Option Value} {changes changes' : List (List String × Option Value)}
  {x y : Option Value} {q : List String}

/-- After one of the changes, the others still go together. -/
theorem Together.tail (h : Together (c :: changes) x) : Together changes (changeAt c.1 c.2 x) := by
  obtain ⟨hc, hrest⟩ := List.pairwise_cons.1 h.parts
  refine ⟨hrest, fun c' hc' => ?_⟩
  exact (hc c' hc').passable_changeAt (h.passable c (List.mem_cons_self ..))
    (h.passable c' (List.mem_cons_of_mem _ hc'))

/-- Changes go together in any order. -/
theorem Together.perm (h : Together changes x) (hperm : changes.Perm changes') :
    Together changes' x :=
  ⟨hperm.pairwise h.parts Parts.symm, fun c hc => h.passable c (hperm.mem_iff.2 hc)⟩

/-- A path that parts with all of the changes leads to what it led to before them. -/
theorem Together.resolve_of_parts (h : Together changes x) (hq : ∀ c ∈ changes, Parts c.1 q) :
    resolveSegments q (changeAll changes x).toList = resolveSegments q x.toList := by
  induction changes generalizing x with
  | nil => rfl
  | cons c rest ih =>
    rw [changeAll, List.foldl_cons, ← changeAll, ih h.tail fun c' hc' =>
      hq c' (List.mem_cons_of_mem _ hc')]
    exact (hq c (List.mem_cons_self ..)).resolve_changeAt (h.passable c (List.mem_cons_self ..))

/-- Each of the paths leads to what its change says. -/
theorem Together.resolve_of_mem (h : Together changes x) (hc : c ∈ changes) :
    resolveSegments c.1 (changeAll changes x).toList = c.2.toList := by
  induction changes generalizing x with
  | nil => cases hc
  | cons first rest ih =>
    rw [changeAll, List.foldl_cons, ← changeAll]
    rcases List.mem_cons.1 hc with rfl | hc
    · rw [h.tail.resolve_of_parts fun c' hc' => ((List.pairwise_cons.1 h.parts).1 c' hc').symm]
      exact resolve_changeAt (h.passable c (List.mem_cons_self ..))
    · exact ih h.tail hc

/-- The same values are the same after the same changes. -/
theorem Value.SameIn.changedAll (h : SameIn x y) :
    SameIn (changeAll changes x) (changeAll changes y) := by
  induction changes generalizing x y with
  | nil => exact h
  | cons c rest ih => exact ih (Value.SameIn.changed h)

/-- **The order of the changes** does not matter. -/
theorem Together.same_of_perm (h : Together changes x) (hperm : changes.Perm changes') :
    SameIn (changeAll changes x) (changeAll changes' x) := by
  induction hperm generalizing x with
  | nil => exact SameIn.refl x
  | cons c _ ih => exact ih h.tail
  | swap c c' rest =>
    have hparts : Parts c'.1 c.1 := (List.pairwise_cons.1 h.parts).1 c (List.mem_cons_self ..)
    have hcomm :
        SameIn (changeAt c.1 c.2 (changeAt c'.1 c'.2 x))
        (changeAt c'.1 c'.2 (changeAt c.1 c.2 x)) :=
      hparts.symm.changeAt_comm (h.passable c (List.mem_cons_of_mem _ (List.mem_cons_self ..)))
        (h.passable c' (List.mem_cons_self ..))
    exact Value.SameIn.changedAll hcomm
  | trans h₁ _ ih₁ ih₂ => exact (ih₁ h).trans (ih₂ (h.perm h₁))

end Several

/-! ## Updates of documents -/

section Documents

variable {s : String} {p : List String} {v : Value} {d : Document}

theorem passable_none (p : List String) : Passable p none := by
  induction p with
  | nil => trivial
  | cons s p ih => exact ⟨isOpen_none, ih⟩

/-- **Writing** at a passable path is a change. -/
theorem setSegments_eq (h : Passable (s :: p) (some (.object d))) :
    ∃ d', setSegments (s :: p) v d = .ok d' ∧
    changeAt (s :: p) (some v) (some (.object d)) = some (.object d') := by
  induction p generalizing s d with
  | nil => exact ⟨_, rfl, rfl⟩
  | cons t p ih =>
    have hrest : Passable (t :: p) (Record.get? d s) := h.2
    rw [setSegments.eq_def, changeAt]
    dsimp only
    rcases hrest.1.cases with hnone | ⟨inner, hinner⟩
    · obtain ⟨made, hset, hchange⟩ := ih (s := t) (d := []) ⟨isOpen_object [], passable_none p⟩
      rw [hnone, hset]
      refine ⟨_, rfl, ?_⟩
      rw [show changeAt (t :: p) (some v) none = some (.object made) from hchange]
      rfl
    · rw [hinner] at hrest ⊢
      obtain ⟨made, hset, hchange⟩ := ih hrest
      dsimp only
      rw [hset, hchange]
      exact ⟨_, rfl, rfl⟩

/-- **Removing** is a change. -/
theorem changeAt_unset (s : String) (p : List String) (d : Document) :
    changeAt (s :: p) none (some (.object d)) = some (.object (unsetSegments (s :: p) d)) := by
  induction p generalizing s d with
  | nil => rfl
  | cons t p ih =>
    have hsame : ∀ old, Record.get? d s = old →
        some (Value.object (Record.edit d s old)) = some (.object d) := by
      rintro _ rfl
      rw [Record.edit_get?]
    rw [unsetSegments.eq_def, changeAt]
    dsimp only
    rcases hget : Record.get? d s with _ | v
    · rw [changeAt_none_none]
      exact hsame _ hget
    · cases v with
      | object inner =>
        rw [ih]
        rfl
      | _ => exact hsame _ hget

/-- The changes of an update. -/
def pathChanges (sets : Document) (unsets : List String) : List (List String × Option Value) :=
  sets.map (fun e => (Text.segments e.1, some e.2)) ++ unsets.map fun path =>
    (Text.segments path, none)

variable {sets : Document} {unsets : List String}

/-- **Setting paths** makes the changes at them. -/
theorem setPaths_eq (h : Together (pathChanges sets []) (some (.object d))) :
    ∃ d', MemoryStore.setPaths sets d = .ok d' ∧
      changeAll (pathChanges sets []) (some (.object d)) = some (.object d') := by
  induction sets generalizing d with
  | nil => exact ⟨d, rfl, rfl⟩
  | cons e rest ih =>
    obtain ⟨path, v⟩ := e
    obtain ⟨s, p, hpath⟩ := List.exists_cons_of_ne_nil (segments_ne_nil path)
    have hfirst : Passable (s :: p) (some (.object d)) :=
      hpath ▸ h.passable _ (List.mem_cons_self ..)
    obtain ⟨d₁, hset, hchange⟩ := setSegments_eq (v := v) hfirst
    rw [← hpath] at hset hchange
    have hrest := h.tail
    rw [hchange] at hrest
    obtain ⟨d', hsets, hchanges⟩ := ih hrest
    refine ⟨d', ?_, ?_⟩
    · rw [MemoryStore.setPaths, setPath, hset]
      exact hsets
    · rw [← hchanges, ← hchange]
      rfl

/-- **Removing paths** makes the changes at them. -/
theorem changeAll_unset (unsets : List String) (d : Document) :
    changeAll (unsets.map fun path => (Text.segments path, none)) (some (.object d)) =
      some (.object (unsets.foldl unsetPath d)) := by
  induction unsets generalizing d with
  | nil => rfl
  | cons path rest ih =>
    obtain ⟨s, p, hpath⟩ := List.exists_cons_of_ne_nil (segments_ne_nil path)
    rw [List.map_cons, changeAll, List.foldl_cons, List.foldl_cons, ← changeAll, hpath,
      changeAt_unset, ih, unsetPath, hpath]

end Documents

namespace MemoryStore

variable {m : MemoryStore} {caller : Option SessionId} {collection : String} {id change : Value}
  {sets : Document} {unsets : List String} {d current : Document}

/-- **What an update names**: paths with the values that are to be written, and paths where values
are to be removed. -/
def Names (change : Value) (sets : Document) (unsets : List String) : Prop :=
  ∃ parts, change = .object parts ∧ (Record.get? parts "$set").getD (.object []) = .object sets ∧
    unsetPaths ((Record.get? parts "$unset").getD (.object [])) = .ok unsets

/-- **An update** makes the changes that it names. -/
theorem applyUpdate_eq (hchange : Names change sets unsets)
    (h : Together (pathChanges sets unsets) (some (.object d))) :
    ∃ d', applyUpdate change d = .ok d' ∧
      changeAll (pathChanges sets unsets) (some (.object d)) = some (.object d') := by
  obtain ⟨parts, rfl, hset, hunset⟩ := hchange
  have hsets : Together (pathChanges sets []) (some (.object d)) := by
    have hsub : (pathChanges sets []).Sublist (pathChanges sets unsets) :=
      List.Sublist.append (List.Sublist.refl _) (List.nil_sublist _)
    exact ⟨h.parts.sublist hsub, fun c hc => h.passable c (hsub.subset hc)⟩
  obtain ⟨d₁, hd₁, hchanges⟩ := setPaths_eq hsets
  rw [pathChanges, List.map_nil, List.append_nil] at hchanges
  refine ⟨unsets.foldl unsetPath d₁, ?_, ?_⟩
  · rw [applyUpdate, hset, hunset]
    dsimp only
    rw [hd₁]
    rfl
  · rw [pathChanges, changeAll, List.foldl_append, ← changeAll, ← changeAll, hchanges,
      changeAll_unset]

end MemoryStore

/-! ## The check of unique paths -/

namespace Value

variable {v w : Value} {x y new : Option Value} {xs ys : Document}

theorem namesOnce_object_iff :
    (object xs).NamesOnce ↔ (Record.keys xs).Nodup ∧ ∀ e ∈ xs, e.2.NamesOnce := by
  have hfields : FieldsNameOnce xs ↔ ∀ e ∈ xs, e.2.NamesOnce := by
    refine ⟨fun h e he => namesOnce_of_mem_fields h he, fun h => ?_⟩
    induction xs with
    | nil => trivial
    | cons e rest ih =>
      exact ⟨h e (List.mem_cons_self ..), ih fun f hf => h f (List.mem_cons_of_mem _ hf)⟩
  rw [NamesOnce, hfields]

/-- Whether the fields of an object equal those of another, key by key. -/
theorem eqFields_iff_of_nodup (hxs : (Record.keys xs).Nodup) : eqFields xs ys = true ↔
    ∀ key v, Record.get? xs key = some v → ∃ w, Record.get? ys key = some w ∧ v.eq w = true := by
  rw [eqFields_iff]
  refine ⟨fun h key v hv => h (key, v) (Record.mem_of_get?_eq_some hv), fun h e he => ?_⟩
  exact h e.1 e.2 (Record.get?_of_mem hxs he)

/-- **Values that can be exchanged**: they are the same, and no object inside them names a key
twice. -/
structure Exchangeable (v w : Value) : Prop where
  same : Same v w
  left : v.NamesOnce
  right : w.NamesOnce

theorem Exchangeable.refl (h : v.NamesOnce) : Exchangeable v v := ⟨.refl v, h, h⟩

/-- Mappings that are the same have as many keys. -/
theorem Exchangeable.length_eq (h : Exchangeable (.object xs) (.object ys)) :
    xs.length = ys.length := by
  have hperm : (Record.keys xs).Perm (Record.keys ys) := by
    refine (List.perm_ext_iff_of_nodup (namesOnce_object_iff.1 h.left).1
      (namesOnce_object_iff.1 h.right).1).2 fun key => ?_
    rw [Record.mem_keys_iff, Record.mem_keys_iff, Record.has, Record.has,
      (sameIn_iff.1 (h.same.get? key)).1]
  have hlength := hperm.length_eq
  rwa [Record.keys, Record.keys, List.length_map, List.length_map] at hlength

/-- Entries of exchangeable objects are exchangeable, or missing in both. -/
theorem Exchangeable.entry_cases (h : Exchangeable (.object xs) (.object ys)) (key : String) :
    (Record.get? xs key = none ∧ Record.get? ys key = none) ∨
      ∃ a b, Record.get? xs key = some a ∧ Record.get? ys key = some b ∧ Exchangeable a b := by
  rcases hx : Record.get? xs key with _ | a
  · have hsome := (sameIn_iff.1 (h.same.get? key)).1
    rw [hx] at hsome
    exact .inl ⟨rfl, Option.isNone_iff_eq_none.1 (Option.isSome_eq_false_iff.1 hsome.symm)⟩
  · obtain ⟨b, hy, hsame⟩ := SameIn.of_some (hx ▸ h.same.get? key)
    exact .inr ⟨a, b, rfl, hy, hsame,
      (namesOnce_object_iff.1 h.left).2 _ (Record.mem_of_get?_eq_some hx),
      (namesOnce_object_iff.1 h.right).2 _ (Record.mem_of_get?_eq_some hy)⟩

/-- **What equals one of them** equals the other. -/
theorem Exchangeable.eq_right (h : Exchangeable v w) (u : Value) : u.eq v = u.eq w := by
  obtain ⟨hsame, hv, hw⟩ := h
  induction hsame generalizing u with
  | refl => rfl
  | @object xs ys keys values ih =>
    have hobjects : Exchangeable (.object xs) (.object ys) := ⟨.object keys values, hv, hw⟩
    cases u with
    | object us =>
      have hfields : eqFields us xs = eqFields us ys := by
        rw [Bool.eq_iff_iff, eqFields_iff, eqFields_iff]
        refine forall₂_congr fun e _ => ?_
        rcases hobjects.entry_cases e.1 with ⟨hx, hy⟩ | ⟨a, b, hx, hy, hentry⟩
        · rw [hx, hy]
        · simp only [hx, hy, Option.some.injEq, exists_eq_left',
            ih e.1 a b hx hy e.2 hentry.left hentry.right]
      rw [eq, eq, hobjects.length_eq, hfields]
    | _ => rfl

/-- **What one of them equals**, the other equals. -/
theorem Exchangeable.eq_left (h : Exchangeable v w) (u : Value) : v.eq u = w.eq u := by
  obtain ⟨hsame, hv, hw⟩ := h
  induction hsame generalizing u with
  | refl => rfl
  | @object xs ys keys values ih =>
    have hobjects : Exchangeable (.object xs) (.object ys) := ⟨.object keys values, hv, hw⟩
    cases u with
    | object us =>
      have hfields : eqFields xs us = eqFields ys us := by
        rw [Bool.eq_iff_iff, eqFields_iff_of_nodup (namesOnce_object_iff.1 hv).1,
          eqFields_iff_of_nodup (namesOnce_object_iff.1 hw).1]
        refine forall_congr' fun key => ?_
        rcases hobjects.entry_cases key with ⟨hx, hy⟩ | ⟨a, b, hx, hy, hentry⟩
        · rw [hx, hy]
        · simp only [hx, hy, Option.some.injEq, forall_eq',
            fun u => ih key a b hx hy u hentry.left hentry.right]
      rw [eq, eq, hobjects.length_eq, hfields]
    | _ => rfl

/-- Whether one of several values is among others. -/
theorem isIn_congr {vs ws : List Value} (h : List.Forall₂ Exchangeable vs ws) (u : Value) :
    u.isIn vs = u.isIn ws := by
  unfold isIn
  induction h with
  | nil => rfl
  | cons hfirst _ ih => rw [List.any_cons, List.any_cons, hfirst.eq_left, ih]

theorem Exchangeable.isNull (h : Exchangeable v w) : v.isNull = w.isNull := by
  cases h.same <;> rfl

theorem namesOnce_fieldOf? {s : String} (h : v.NamesOnce) (hw : fieldOf? s v = some w) :
    w.NamesOnce := by
  cases v with
  | object fs => exact (namesOnce_object_iff.1 h).2 _ (Record.mem_of_get?_eq_some hw)
  | _ => cases hw

theorem namesOnce_descend {s : String} (h : v.NamesOnce) (hw : w ∈ descend s v) : w.NamesOnce := by
  cases v with
  | list items =>
    obtain ⟨item, hitem, hfield⟩ := List.mem_filterMap.1 hw
    exact namesOnce_fieldOf? (namesOnce_of_mem_items h hitem) hfield
  | _ => exact namesOnce_fieldOf? (s := s) h (Option.mem_toList.1 hw)

/-- What a segment leads to from exchangeable values. -/
theorem Exchangeable.descend (h : Exchangeable v w) (s : String) :
    List.Forall₂ Exchangeable (EntityGraph.descend s v) (EntityGraph.descend s w) := by
  obtain ⟨hsame, hv, hw⟩ := h
  cases hsame with
  | refl => exact List.forall₂_same.2 fun u hu => .refl (namesOnce_descend hv hu)
  | object keys values =>
    have hobjects : Exchangeable (.object _) (.object _) := ⟨.object keys values, hv, hw⟩
    change List.Forall₂ Exchangeable (Record.get? _ s).toList (Record.get? _ s).toList
    rcases hobjects.entry_cases s with ⟨hx, hy⟩ | ⟨a, b, hx, hy, hentry⟩
    · rw [hx, hy]
      exact .nil
    · rw [hx, hy]
      exact .cons hentry .nil

/-- What a path leads to from exchangeable values. -/
theorem exchangeable_resolveSegments {p : List String} {vs ws : List Value}
    (h : List.Forall₂ Exchangeable vs ws) :
    List.Forall₂ Exchangeable (resolveSegments p vs) (resolveSegments p ws) := by
  induction p generalizing vs ws with
  | nil => exact h
  | cons s p ih => exact ih (List.rel_flatMap h fun _ _ hvw => hvw.descend s)

/-- A change keeps every key named once. -/
theorem namesOnce_changeAt {p : List String} (hnew : ∀ v, new = some v → v.NamesOnce)
    (hx : ∀ v, x = some v → v.NamesOnce) : ∀ v, changeAt p new x = some v → v.NamesOnce := by
  have hedit : ∀ {fs : Document} {key : String} {o : Option Value}, (object fs).NamesOnce →
      (∀ v, o = some v → v.NamesOnce) → (object (Record.edit fs key o)).NamesOnce := by
    intro fs key o hfs ho
    rw [namesOnce_object_iff] at hfs ⊢
    cases o with
    | none =>
      have hsub : (Record.erase fs key).Sublist fs := Record.erase_sublist fs key
      exact ⟨hfs.1.sublist (hsub.map _), fun e he => hfs.2 e (hsub.subset he)⟩
    | some v =>
      refine ⟨Record.nodup_keys_put hfs.1 key v, fun e he => ?_⟩
      rcases Record.mem_put he with he | rfl
      · exact hfs.2 e he
      · exact ho v rfl
  induction p generalizing x with
  | nil => exact hnew
  | cons s p ih =>
    intro v hv
    have hnil : (object []).NamesOnce :=
      namesOnce_object_iff.2 ⟨List.nodup_nil, fun _ he => absurd he List.not_mem_nil⟩
    cases x with
    | none =>
      cases new with
      | none => cases hv
      | some u =>
        cases hv
        exact hedit hnil (ih fun _ h => by cases h)
    | some w =>
      cases w with
      | object fs =>
        cases hv
        exact hedit (hx _ rfl) (ih fun u hu => namesOnce_fieldOf? (hx _ rfl) hu)
      | _ => exact hx v hv

/-- Changes by values that name no key twice leave such values. -/
theorem namesOnce_changeAll {changes : List (List String × Option Value)}
    (hchanges : ∀ c ∈ changes, ∀ v, c.2 = some v → v.NamesOnce)
    (hx : ∀ v, x = some v → v.NamesOnce) :
    ∀ v, changeAll changes x = some v → v.NamesOnce := by
  induction changes generalizing x with
  | nil => exact hx
  | cons c rest ih =>
    exact ih (fun c' hc' => hchanges c' (List.mem_cons_of_mem _ hc'))
      (namesOnce_changeAt (hchanges c (List.mem_cons_self ..)) hx)

end Value

namespace MemoryStore

open Value (Exchangeable)

variable {m : MemoryStore} {caller : Option SessionId} {collection : String} {id id' change : Value}
  {sets : Document} {unsets paths : List String} {d d' current : Document} {c : Collection}

/-- Whether a value is held depends on values up to exchange. -/
theorem holdsValue_congr {values values' : List Value} (hid : Exchangeable id id')
    (hvalues : List.Forall₂ Exchangeable values values') (path : String) (c : Collection) :
    holdsValue id values path c = holdsValue id' values' path c := by
  induction c with
  | nil => rfl
  | cons e rest ih =>
    rw [holdsValue, holdsValue, ih]
    simp only [hid.eq_right, Value.isIn_congr hvalues]

/-- **The check of unique paths** does not tell exchangeable documents apart. -/
theorem checkUnique_congr (h : Exchangeable (.object d) (.object d')) (c : Collection)
    (name : String) (paths : List String) :
    checkUnique c name d paths = checkUnique c name d' paths := by
  induction paths with
  | nil => rfl
  | cons path rest ih =>
    have hvalues : List.Forall₂ Exchangeable (uniqueValues d path) (uniqueValues d' path) := by
      refine List.rel_filter (fun v w hvw => ?_) (Value.exchangeable_resolveSegments (.cons h .nil))
      dsimp only
      rw [hvw.isNull]
    have hempty : (uniqueValues d path).isEmpty = (uniqueValues d' path).isEmpty := by
      rw [Bool.eq_iff_iff, List.isEmpty_iff_length_eq_zero, List.isEmpty_iff_length_eq_zero,
        hvalues.length_eq]
    rw [checkUnique, checkUnique, hempty, ih]
    rcases h.entry_cases "_id" with ⟨hd, hd'⟩ | ⟨o, o', hd, hd', hid⟩
    · rw [hd, hd']
    · rw [hd, hd']
      simp only [holdsValue_congr hid hvalues]

/-- What the unique paths of a collection say to a document. -/
def verdict (m : MemoryStore) (collection : String) (d : Document) (caller : Option SessionId) :
    Outcome Unit :=
  checkUnique ((m.view caller).get collection) collection d (m.uniquePaths collection)

/-- **Filing an updated document**: it is stored and returned, unless the unique paths of the
collection refuse it. -/
def fileUpdate (m : MemoryStore) (collection : String) (id : Value) (d : Document)
    (caller : Option SessionId) :
    Outcome (Option Document) × MemoryStore :=
  match m.verdict collection d caller with
  | .ok _ => (.ok (some d), m.after caller ⟨collection, id, some d⟩)
  | .error e => (.error e, m)

theorem eq_of_fileUpdate {w : Document}
    (h : (m.fileUpdate collection id d caller).1 = .ok (some w)) : w = d := by
  unfold fileUpdate at h
  split at h
  · cases h
    rfl
  · cases h

theorem run_update_of_applyUpdate (hcalm : ¬ m.conflicts "update")
    (hcurrent : m.lookupId caller collection id = .ok (some current))
    (hd : applyUpdate change current = .ok d) :
    (update collection id change caller).run.run m = m.fileUpdate collection id d caller := by
  rw [run_update_eq, if_neg hcalm, changing, hcurrent, Outcome.ok_bind]
  dsimp only
  rw [hd, Outcome.ok_bind, fileUpdate, verdict]
  rcases checkUnique ((m.view caller).get collection) collection d (m.uniquePaths collection) with
    e | ⟨⟩ <;> rfl

/-- **Paths that are apart** go together. -/
theorem together_pathChanges
    (hapart : (Record.keys sets ++ unsets).Pairwise fun path other =>
      Incomparable (Text.segments path) (Text.segments other))
    (hpassable : ∀ path ∈ Record.keys sets ++ unsets,
      Passable (Text.segments path) (some (.object current))) :
    Together (pathChanges sets unsets) (some (.object current)) := by
  have hpaths : (pathChanges sets unsets).map Prod.fst =
      (Record.keys sets ++ unsets).map Text.segments := by
    rw [pathChanges, Record.keys, List.map_append, List.map_append, List.map_map, List.map_map,
      List.map_map]
    rfl
  refine ⟨?_, fun c hc => ?_⟩
  · rw [← List.pairwise_map, hpaths, List.pairwise_map]
    exact hapart.imp Incomparable.parts
  · obtain ⟨path, hpath, hc⟩ := List.mem_map.1 (hpaths ▸ List.mem_map_of_mem hc)
    exact hc ▸ hpassable path hpath

/-- **Updates path by path.** Let an update name paths of which none is the beginning of another,
and let all that lies on the way to them be objects, as far as there is something. Then it makes a
document of the stored one in which each path that was written leads to its value and nothing else,
each path that was removed leads nowhere, and every path that is no beginning of one of them, and of
which none of them is a beginning, leads to what it led to before. The document is stored and
returned, unless the unique paths of the collection refuse it. With the paths in any other order the
document is the same mapping, and the unique paths say the same to it. -/
theorem update_composes (hcalm : ¬ m.conflicts "update")
    (hcurrent : m.lookupId caller collection id = .ok (some current))
    (hchange : Names change sets unsets)
    (hapart : (Record.keys sets ++ unsets).Pairwise fun path other =>
      Incomparable (Text.segments path) (Text.segments other))
    (hpassable : ∀ path ∈ Record.keys sets ++ unsets,
      Passable (Text.segments path) (some (.object current))) :
    ∃ d, (update collection id change caller).run.run m = m.fileUpdate collection id d caller ∧
      (∀ e ∈ sets, resolve d e.1 = [e.2]) ∧
      (∀ path ∈ unsets, resolve d path = []) ∧
      (∀ path, (∀ other ∈ Record.keys sets ++ unsets,
        Incomparable (Text.segments other) (Text.segments path)) →
        resolve d path = resolve current path) ∧
      ∀ change' sets' unsets', Names change' sets' unsets' → sets'.Perm sets → unsets'.Perm unsets →
        ∃ d', (update collection id change' caller).run.run m =
          m.fileUpdate collection id d' caller ∧
          (Value.object d').Same (.object d) ∧
          ((Value.object current).NamesOnce → (∀ e ∈ sets, e.2.NamesOnce) →
            m.verdict collection d' caller = m.verdict collection d caller) := by
  have htogether := together_pathChanges hapart hpassable
  obtain ⟨d, hd, hall⟩ := applyUpdate_eq hchange htogether
  have hresolve : ∀ path, resolve d path = resolveSegments (Text.segments path)
      (changeAll (pathChanges sets unsets) (some (.object current))).toList := fun path => by
    rw [hall]
    rfl
  refine ⟨d, run_update_of_applyUpdate hcalm hcurrent hd, fun e he => ?_, fun path hpath => ?_,
    fun path hpath => ?_, fun change' sets' unsets' hchange' hsets hunsets => ?_⟩
  · rw [hresolve]
    exact htogether.resolve_of_mem (c := (Text.segments e.1, some e.2))
      (List.mem_append_left _ (List.mem_map.2 ⟨e, he, rfl⟩))
  · rw [hresolve]
    exact htogether.resolve_of_mem (c := (Text.segments path, none))
      (List.mem_append_right _ (List.mem_map.2 ⟨path, hpath, rfl⟩))
  · rw [hresolve, htogether.resolve_of_parts fun c hc => ?_]
    · rfl
    · rcases List.mem_append.1 hc with hc | hc
      · obtain ⟨e, he, rfl⟩ := List.mem_map.1 hc
        exact (hpath e.1 (List.mem_append_left _ (List.mem_map_of_mem he))).parts
      · obtain ⟨other, hother, rfl⟩ := List.mem_map.1 hc
        exact (hpath other (List.mem_append_right _ hother)).parts
  · have hperm : (pathChanges sets' unsets').Perm (pathChanges sets unsets) :=
      (hsets.map _).append (hunsets.map _)
    have htogether' := htogether.perm hperm.symm
    obtain ⟨d', hd', hall'⟩ := applyUpdate_eq hchange' htogether'
    have hsame : SameIn (some (.object d')) (some (.object d)) := by
      rw [← hall, ← hall']
      exact htogether'.same_of_perm hperm
    obtain ⟨_, heq, hsame⟩ := hsame.of_some
    obtain rfl := Option.some.inj heq
    refine ⟨d', run_update_of_applyUpdate hcalm hcurrent hd', hsame, fun honce hvalues => ?_⟩
    have honce' : ∀ {changes : List (List String × Option Value)} {d : Document},
        changes.Perm (pathChanges sets unsets) →
        changeAll changes (some (.object current)) = some (.object d) →
        (Value.object d).NamesOnce := fun hperm hall => by
      refine Value.namesOnce_changeAll (fun c hc v hv => ?_) (fun v hv => ?_) _ hall
      · rcases List.mem_append.1 (hperm.mem_iff.1 hc) with hc | hc
        · obtain ⟨e, he, rfl⟩ := List.mem_map.1 hc
          cases hv
          exact hvalues e he
        · obtain ⟨path, -, rfl⟩ := List.mem_map.1 hc
          cases hv
      · cases hv
        exact honce
    exact checkUnique_congr ⟨hsame, honce' hperm hall', honce' (.refl _) hall⟩ _ _ _

end MemoryStore

/-! ## Members of a club -/

/-- Bob lives in Oslo. -/
def bob : Document :=
  [("_id", .id (.ofNat 2)), ("name", .text "Bob"),
    ("address", .object [("city", .text "Oslo"), ("zip", .text "0150")])]

/-- The members of a club have names of their own. -/
def club : MemoryStore := { MemoryStore.empty with
  collections := [("members", [
    (.id (.ofNat 1), [("_id", .id (.ofNat 1)), ("name", .text "Ann")]), (.id (.ofNat 2), bob)])]
  schemas := [("members", ⟨"members", .null, ["name"]⟩)] }

/-- What is written when Bob moves. -/
def newPlace : Document := [("address.city", .text "Rome"), ("phone.home", .text "555")]

/-- The update that does so. -/
def moveBob : Value := .object [("$set", .object newPlace), ("$unset", .list [.text "address.zip"])]

theorem moveBob_apart : (Record.keys newPlace ++ ["address.zip"]).Pairwise fun path other =>
    Incomparable (Text.segments path) (Text.segments other) := by
  unfold Incomparable
  decide

theorem bob_passable : ∀ path ∈ Record.keys newPlace ++ ["address.zip"],
    Passable (Text.segments path) (some (.object bob)) := by
  intro path hpath
  have hcases : path = "address.city" ∨ path = "phone.home" ∨ path = "address.zip" := by
    simpa [newPlace, Record.keys] using hpath
  rcases hcases with rfl | rfl | rfl
  · exact ⟨isOpen_object _, isOpen_object _, trivial⟩
  · exact ⟨isOpen_object _, isOpen_none, trivial⟩
  · exact ⟨isOpen_object _, isOpen_object _, trivial⟩

/-- Bob moves: each path of the update leads to what it says, and his name is what it was. -/
theorem club_moves_bob : ∃ d,
    ((MemoryStore.update "members" (.id (.ofNat 2)) moveBob none).run.run club).1 = .ok (some d) ∧
      resolve d "address.city" = [.text "Rome"] ∧ resolve d "address.zip" = [] ∧
        resolve d "name" = [.text "Bob"] := by
  have hcurrent : club.lookupId none "members" (.id (.ofNat 2)) = .ok (some bob) := rfl
  have hnames : MemoryStore.Names moveBob newPlace ["address.zip"] := ⟨_, rfl, rfl, rfl⟩
  obtain ⟨d, hrun, hsets, hunsets, hothers, -⟩ :=
    MemoryStore.update_composes (by decide) hcurrent hnames moveBob_apart bob_passable
  obtain ⟨w, hw⟩ : ∃ w, ((MemoryStore.update "members" (.id (.ofNat 2)) moveBob none).run.run
      club).1 = .ok (some w) :=
    ⟨_, rfl⟩
  refine ⟨d, ?_, hsets ("address.city", .text "Rome") (List.mem_cons_self ..),
    hunsets "address.zip" (List.mem_cons_self ..), ?_⟩
  · rw [hrun] at hw ⊢
    rw [hw, MemoryStore.eq_of_fileUpdate hw]
  · exact hothers "name" (by unfold Incomparable; decide)

/-- **A name that another member has is refused**: the update names a single path of a stored
document, no failure was injected, and there is no document afterwards but an error. -/
theorem club_refuses_name :
    ¬ club.conflicts "update" ∧ club.lookupId none "members" (.id (.ofNat 2)) = .ok (some bob) ∧
    MemoryStore.Names (.object [("$set", .object [("name", .text "Ann")])]) [("name", .text "Ann")]
    [] ∧
    Passable (Text.segments "name") (some (.object bob)) ∧
    ((MemoryStore.update "members" (.id (.ofNat 2))
      (.object [("$set", .object [("name", .text "Ann")])]) none).run.run club).1 =
        .error (Reason.duplicateValue "members" "name").fault :=
  ⟨by decide, rfl, ⟨_, rfl, rfl, rfl⟩, ⟨isOpen_object _, trivial⟩, rfl⟩

end EntityGraph
