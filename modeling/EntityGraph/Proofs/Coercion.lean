import EntityGraph.Proofs.Documents
import EntityGraph.Proofs.EqualityTerms
import EntityGraph.Proofs.RetakenWrites
import EntityGraph.Proofs.States
import EntityGraph.Proofs.Uniqueness

/-!
# Writing a value and asking for it

An argument is converted on its way into a document by the type of its field, the value of a filter
term by type and by the name of the key that it is asked of. The two agree on texts, numbers and
truth values with one exception (`ReadsAsId`): under a name like that of an identifier, the text of
an identifier stays a text in the document and becomes a reference in the filter. So a document that
was added with a value answers the filter that asks for this very value exactly when the exception
does not apply (`added_matches_iff`).
-/

namespace EntityGraph

variable {τ S α : Type}

/-! ## Plain values -/

theorem Moment.eq_self (m : Moment) : m.eq m = true := by
  unfold Moment.eq
  cases m.instant? <;> exact beq_self_eq_true _

theorem Decimal.Number.eq_self {n : Decimal.Number} (h : n ≠ .nan) : n.eq n = true := by
  cases n with
  | nan => exact absurd rfl h
  | _ => exact beq_self_eq_true _

namespace Value

/-- **Plain values**: texts that are not empty, truth values, and numbers, but not NaN, which equals
nothing. -/
def IsPlain : Value → Prop
  | .text s => s ≠ ""
  | .bool _ => True
  | .int _ => True
  | .float x => Decimal.Number.ofFloat x ≠ .nan
  | _ => False

theorem isEmpty_of_isPlain {v : Value} (h : v.IsPlain) : v.isEmpty = false := by
  cases v with
  | text s => exact beq_false_of_ne h
  | null => exact h.elim
  | _ => rfl

/-- A plain value equals itself. -/
theorem eq_self_of_isPlain {v : Value} (h : v.IsPlain) : v.eq v = true := by
  cases v with
  | text s => exact beq_self_eq_true s
  | bool b => exact Decimal.Number.eq_self (n := .ofInt _) fun hn => nomatch hn
  | int i => exact Decimal.Number.eq_self (n := .ofInt i) fun hn => nomatch hn
  | float x => exact Decimal.Number.eq_self h
  | _ => exact h.elim

theorem items?_of_isPlain {v : Value} (h : v.IsPlain) : v.items? = none := by
  cases v <;> first | rfl | exact h.elim

end Value

/-! ## Texts of identifiers -/

namespace ObjectId

theorem hexValue?_hexDigit :
    ∀ n : Fin 16, hexValue? (hexDigit n) = some n ∧ isBlank (hexDigit n) = false := by
  decide

theorem length_hexDigits (count n : Nat) : (hexDigits count n).length = count := by
  induction count generalizing n with
  | zero => rfl
  | succ count ih => rw [hexDigits, List.length_append, ih, List.length_singleton]

/-- Reading the digits of so many bytes reads these bytes. -/
theorem exists_readBytes_hexDigits (o : ObjectId) (count n : Nat) :
    ∃ p : ObjectId, p.size = o.size + count ∧
      p.number = o.number * byteBound count + n % byteBound count ∧ ∀ rest,
        readBytes o (hexDigits (2 * count) n ++ rest) = readBytes p rest := by
  induction count generalizing n with
  | zero =>
    refine ⟨o, rfl, ?_, fun rest => rfl⟩
    rw [byteBound, Nat.mul_one, Nat.mod_one, Nat.add_zero]
  | succ count ih =>
    obtain ⟨p, hsize, hnumber, hread⟩ := ih (n / 16 / 16)
    refine ⟨p.push (.ofNat 16 (n / 16)) (.ofNat 16 n), ?_, ?_, fun rest => ?_⟩
    · change p.size + 1 = _
      omega
    · have hpow : byteBound (count + 1) = 256 * byteBound count := Nat.mul_comm _ _
      have hsplit : n % (256 * byteBound count) = n % 256 + 256 * (n / 256 % byteBound count) :=
        Nat.mod_mul
      rw [Nat.div_div_eq_div_mul] at hnumber
      simp only [push, hnumber, Fin.val_ofNat, hpow, hsplit]
      ring_nf
      omega
    · have hdigits : hexDigits (2 * (count + 1)) n = hexDigits (2 * count) (n / 16 / 16) ++
          [hexDigit (n / 16 % 16), hexDigit (n % 16)] := by
        rw [Nat.mul_succ, hexDigits, hexDigits, List.append_assoc]
        rfl
      obtain ⟨hhigh, hblank⟩ := hexValue?_hexDigit (.ofNat 16 (n / 16))
      obtain ⟨hlow, -⟩ := hexValue?_hexDigit (.ofNat 16 n)
      rw [Fin.val_ofNat] at hhigh hblank hlow
      rw [hdigits, List.append_assoc, hread]
      change readBytes p (hexDigit (n / 16 % 16) :: hexDigit (n % 16) :: rest) = _
      rw [readBytes, hblank, hhigh, hlow]
      rfl

/-- **An identifier of twelve bytes is spelled by its text.** -/
theorem ofHex?_toHex {o : ObjectId} (h : o.size = 12) : ofHex? o.toHex = some o := by
  obtain ⟨size, number, hlt⟩ := o
  obtain rfl : size = 12 := h
  obtain ⟨p, hsize, hnumber, hread⟩ := exists_readBytes_hexDigits empty 12 number
  have hp : p = ⟨12, number, hlt⟩ := by
    obtain ⟨psize, pnumber, _⟩ := p
    simp only [empty, Nat.zero_add, Nat.zero_mul, Nat.mod_eq_of_lt hlt] at hsize hnumber
    simp only [hsize, hnumber]
  have hdigits := hread []
  rw [List.append_nil] at hdigits
  unfold ofHex? toHex
  rw [String.toList_ofList, length_hexDigits]
  dsimp only
  rw [if_pos rfl, hdigits, hp, readBytes]

/-- A text with blanks spells an identifier of fewer bytes. -/
example : ofHex? "0011 2233 4455 6677 8899" = some ⟨10, 0x00112233445566778899, by decide⟩ := by
  decide

end ObjectId

/-! ## The two conversions -/

/-- **A text read as an identifier** by a filter, though its field does not hold identifiers: the
name of the field is like that of an identifier, and the text spells one. -/
def ReadsAsId (f : FieldDef) (v : Value) : Prop :=
  f.isIdTyped = false ∧ f.momentType? = none ∧ isIdShaped f.name = true ∧ ∃ o, readId? v = some o

/-- The term that asks a field for a value. -/
def isValue (v : Value) : FilterTerm := ⟨some .eq, v⟩

theorem momentType?_of_isIdTyped {f : FieldDef} (h : f.isIdTyped = true) :
    f.momentType? = none := by
  unfold FieldDef.isIdTyped at h
  unfold FieldDef.momentType?
  split at h
  · rename_i t ht
    obtain rfl : t = .id := by simpa using h
    rfl
  · cases h

/-- Under a calendar or clock type a plain value becomes a moment, if it is accepted. -/
theorem exists_moment_of_coerceMoment {type : String} {v w : Value} (hv : v.IsPlain)
    (h : coerceMoment type v = .ok w) : ∃ m, w = .moment m := by
  have hsingle : ∀ u, coerceMoment.single type u = .ok w → ∃ m, w = .moment m := by
    intro u hu
    unfold coerceMoment.single at hu
    split at hu
    · cases hu
      exact ⟨_, rfl⟩
    · cases hu
  cases v with
  | text s => exact hsingle _ (by rwa [coerceMoment] at h)
  | int i => exact hsingle _ (by rwa [coerceMoment] at h)
  | float x => exact hsingle _ (by rwa [coerceMoment] at h)
  | bool b =>
    rw [coerceMoment] at h
    cases h
  | _ => exact hv.elim

/-- Turning identifiers into references changes the texts that spell one, and nothing else that is
plain. -/
theorem convertIds_of_isPlain {v : Value} (hv : v.IsPlain) :
    convertIds v = match readId? v with
      | some o => .id o
      | none => v := by
  cases v with
  | text s => rcases h : ObjectId.ofHex? s with _ | o <;> simp only [convertIds, readId?, h]
  | list _ => exact hv.elim
  | id _ => exact hv.elim
  | _ => rw [convertIds] <;> first | rfl | simp

/-- A plain value is no reference. -/
theorem eq_id_of_isPlain {v : Value} (hv : v.IsPlain) (o : ObjectId) : v.eq (.id o) = false := by
  cases v with
  | id _ => exact hv.elim
  | moment _ => exact hv.elim
  | list _ => exact hv.elim
  | object _ => exact hv.elim
  | _ => rfl

theorem coerceScalar_of_isPlain {f : FieldDef} {v : Value} (hv : v.IsPlain) :
    coerceScalar f v = if f.isIdTyped then (do
      let o ← toReference v
      pure (.id o)) else match f.momentType? with
        | some type => coerceMoment type.name v
        | none => pure v := by
  unfold coerceScalar
  split
  · exact hv.elim
  · rfl

theorem isOperatorObject_of_isPlain {v : Value} (hv : v.IsPlain) : isOperatorObject v = false := by
  cases v <;> first | rfl | exact hv.elim

theorem readId?_of_toReference {v : Value} (hv : v.IsPlain) {o : ObjectId}
    (h : toReference v = .ok o) : readId? v = some o := by
  have hinner : toReference v = match readId? v with
      | some o => pure o
      | none => throw (Reason.unreadableId v).fault := by
    cases v <;> first | rfl | exact hv.elim
  rw [hinner] at h
  split at h
  · rename_i o' ho
    cases h
    exact ho
  · cases h

/-- What a filter asks for, of a field that holds neither identifiers nor moments. -/
theorem eq_convertIds_iff {v : Value} (hv : v.IsPlain) :
    v.eq (convertIds v) = true ↔ readId? v = none := by
  rw [convertIds_of_isPlain hv]
  cases readId? v with
  | none => exact iff_of_true (Value.eq_self_of_isPlain hv) rfl
  | some o => exact iff_of_false (by rw [eq_id_of_isPlain hv]; decide) fun h => by cases h

theorem isOperatorObject_convertIds {v : Value} (hv : v.IsPlain) :
    isOperatorObject (convertIds v) = false := by
  rw [convertIds_of_isPlain hv]
  cases readId? v with
  | none => exact isOperatorObject_of_isPlain hv
  | some o => rfl

/-- **Writing and asking agree** on a plain value up to the exception: what is stored is a single
value, and it equals what the filter asks for exactly when the filter does not read the value as an
identifier. Identifiers and moments are read alike on both sides; any other value is stored as it
is, and asked for by the name of the field. -/
theorem coerceTerm_of_coerceScalar {f : FieldDef} {v w : Value} (hv : v.IsPlain)
    (hw : coerceScalar f v = .ok w) : ∃ c, coerceTerm f f.name (isValue v) = .ok c ∧
      isOperatorObject c = false ∧ w.items? = none ∧ (w.eq c = true ↔ ¬ ReadsAsId f v) := by
  rw [coerceScalar_of_isPlain hv] at hw
  unfold coerceTerm isValue ReadsAsId
  rcases hid : f.isIdTyped with _ | _
  · rw [hid, if_neg (by decide)] at hw
    cases hmoment : f.momentType? with
    | some type =>
      rw [hmoment] at hw
      obtain ⟨m, rfl⟩ := exists_moment_of_coerceMoment hv hw
      exact ⟨.moment m, hw, rfl, rfl, iff_of_true (Moment.eq_self m) fun h => by cases h.2.1⟩
    | none =>
      rw [hmoment] at hw
      cases hw
      rcases hshaped : isIdShaped f.name with _ | _
      · exact ⟨v, rfl, isOperatorObject_of_isPlain hv, Value.items?_of_isPlain hv,
          iff_of_true (Value.eq_self_of_isPlain hv) fun h => by cases h.2.2.1⟩
      · refine ⟨convertIds v, rfl, isOperatorObject_convertIds hv, Value.items?_of_isPlain hv, ?_⟩
        rw [eq_convertIds_iff hv]
        cases readId? v with
        | none =>
          refine iff_of_true rfl ?_
          rintro ⟨-, -, -, o, ho⟩
          cases ho
        | some o => exact iff_of_false (Option.some_ne_none o) fun h => h ⟨rfl, rfl, rfl, o, rfl⟩
  · rw [hid, if_pos rfl] at hw
    obtain ⟨o, ho, hw⟩ := bind_eq_ok hw
    cases hw
    rw [momentType?_of_isIdTyped hid]
    refine ⟨convertIds v, rfl, isOperatorObject_convertIds hv, rfl, iff_of_true ?_
      fun h => by cases h.1⟩
    rw [convertIds_of_isPlain hv, readId?_of_toReference hv ho]
    exact Value.id_eq_iff.2 rfl

/-! ## Asking for a value -/

/-- The list arguments that ask a field for a value. -/
def askFor (f : FieldDef) (v : Value) : Value :=
  .object [(f.name, .object [("operator", .text "EQ"), ("value", v)])]

/-- **A name that can be asked for**: it is no reserved argument, combines no queries, and is a path
of its own. -/
structure IsAskable (name : String) : Prop where
  argument : reservedArguments.contains name = false
  condition : ¬ IsCombinator name
  segment : IsSegment name

/-- Asking a scalar field for a value gives a list with one condition. -/
theorem listPipeline_askFor {r : Registry} {d : Descriptor} {f : FieldDef}
    (hf : f ∈ d.entity.fields) (hkind : f.kind = .ok .scalar) (hid : f.isIdentifier = false)
    (hname : IsAskable f.name) {v c : Value} (hc : coerceTerm f f.name (isValue v) = .ok c)
    (limit : Int) :
    ∃ args, ListArguments.read d.entity (askFor f v) = .ok args ∧
      listPipeline r limit d args = .ok (.select [(f.name, c)] :: cuts limit none) := by
  have hfield := Entity.field?_eq hf
  have hargument := hname.argument
  have hterm : readTerm (.object [("operator", .text "EQ"), ("value", v)]) = .good (isValue v) :=
    rfl
  have hfilters :
    readFilters d.entity [(f.name, .object [("operator", .text "EQ"), ("value", v)])] =
      .ok [(f.name, .term (isValue v))] := by
    rw [readFilters, if_neg (by rw [hargument]; decide), hfield]
    dsimp only
    rw [hkind, hterm]
    rfl
  have hreserved : ∀ key, reservedArguments.contains key = true → Record.get?
      [(f.name, Value.object [("operator", .text "EQ"), ("value", v)])] key = none := by
    intro key hkey
    rw [Record.get?_cons, if_neg fun h => ?_, Record.get?_nil]
    rw [h, hkey] at hargument
    cases hargument
  have hread : ListArguments.read d.entity (askFor f v) =
      .ok ⟨[(f.name, .term (isValue v))], none, none⟩ := by
    unfold ListArguments.read askFor
    dsimp only
    rw [show (pure [(f.name, Value.object [("operator", .text "EQ"), ("value", v)])] :
      Outcome Document) = .ok _ from rfl, Outcome.ok_bind, hfilters, Outcome.ok_bind]
    unfold readOptional
    rw [hreserved "sort" (by decide), hreserved "pagination" (by decide)]
    rfl
  refine ⟨_, hread, ?_⟩
  have hcondition : termCondition f f.name (isValue v) = .ok c := by
    rw [termCondition_of_isEquality (.inr rfl), hc]
  have hplan : planFilters r d.entity [(f.name, .term (isValue v))] .empty =
      .ok ⟨[], [(f.name, c)]⟩ := by
    rw [planFilters, hfield]
    dsimp only
    rw [planFilter, hkind]
    simp only [Outcome.ok_bind, FieldKind.isObject, Bool.false_eq_true, if_false, hid, hcondition]
    rfl
  unfold listPipeline
  rw [if_neg (fun h => by cases h), hplan]
  rfl

/-- Asking a document whose entry is a single value. -/
theorem matchesQuery_entry {doc : Document} {key : String} (hkey : IsAskable key) {w c : Value}
    (hw : Record.get? doc key = some w) (hsingle : w.items? = none)
    (hc : isOperatorObject c = false) :
    matchesQuery doc (.object [(key, c)]) = .ok (w.eq c) := by
  have hresolve : resolve doc key = [w] := by
    rw [resolve, Text.segments_of_isSegment hkey.segment, resolveSegments_cons, hw]
    rfl
  have hflat : flatten [w] = [w] := by
    cases w <;> first | rfl | cases hsingle
  rw [matchesQuery_single doc hkey.condition, conditionHolds_of_value hc, hresolve, hflat]
  unfold equalityHolds Value.isIn
  simp

/-! ## What additions return -/

section Values

variable {Q : α → Prop}

namespace SessionStore

variable {store : SessionStore τ S} {policy : RetryPolicy τ} {body : S → Action τ α}

/-- An attempt returns what its body returned. -/
theorem moves_attempt_any (h : ∀ s, Moves (fun _ _ => True) Q (body s)) (s : S) :
    Moves (fun _ _ => True) Q (store.attempt body s) :=
  moves_attempt (fun _ => trivial) (fun _ _ _ _ _ => trivial) (.any _) (.any _) (.any _) (h s)

theorem moves_runFrom (h : ∀ s, Moves (fun _ _ => True) Q (body s)) (left number : Nat) :
    Moves (fun _ _ => True) Q (store.runFrom policy body left number) := by
  have hend : ∀ s e, Moves (fun _ _ => True) Q (store.finish s >>= fun _ => throw e : Action τ α) :=
      fun s e =>
    Moves.bind_any (Moves.any _) fun _ _ => Moves.throw_any e
  have hreturn : ∀ s v, Q v → Moves (fun _ _ => True) Q (store.finish s >>= fun _ =>
      pure v : Action τ α) :=
    fun s v hv => Moves.bind_any (Moves.any _) fun _ _ => Moves.pure_any hv
  induction left generalizing number with
  | zero =>
    rw [runFrom]
    refine Moves.bind_any (Moves.any _) fun s _ =>
      Moves.bind_any (Moves.observe (moves_attempt_any h s)) fun outcome ho => ?_
    cases outcome with
    | ok v => exact hreturn s v (ho v rfl)
    | error e =>
      dsimp only
      split <;> exact hend s _
  | succ left ih =>
    rw [runFrom]
    refine Moves.bind_any (Moves.any _) fun s _ =>
      Moves.bind_any (Moves.observe (moves_attempt_any h s)) fun outcome ho => ?_
    cases outcome with
    | ok v => exact hreturn s v (ho v rfl)
    | error e =>
      dsimp only
      split
      · exact hend s e
      refine Moves.bind_any (Moves.any _) fun pause _ => Moves.bind_any (Moves.any _) fun _ _ => ?_
      cases pause with
      | error f => exact Moves.throw_any f
      | ok _ => exact ih (number + 1)

/-- A transaction returns what its body returned in one of the attempts. -/
theorem moves_transact (h : ∀ s, Moves (fun _ _ => True) Q (body s)) (session : Option S) :
    Moves (fun _ _ => True) Q (store.transact policy body session) := by
  cases session with
  | none => exact moves_runFrom h _ _
  | some s => exact h s

end SessionStore

end Values

/-- What is created has the entries of what was to be created. -/
theorem MemoryStore.moves_create_entries (collection : String) (d : Document)
    (caller : Option SessionId) : Moves (fun _ _ => True)
      (fun d' : Document => ∀ key w, Record.get? d key = some w → Record.get? d' key = some w)
      (create collection d caller) := by
  refine fun m => ⟨trivial, fun d' hd' key w hw => ?_⟩
  have hfiled : d' = m.filed d := by
    rw [run_create_eq] at hd'
    split at hd'
    · cases hd'
    · split at hd'
      · cases hd'
        rfl
      · cases hd'
  rw [hfiled]
  by_cases hkey : key = "_id"
  · rw [hkey] at hw ⊢
    rw [filed, if_pos (by rw [Record.has, hw]; rfl), hw]
  · rw [get?_filed m d hkey, hw]

namespace Executor

/-- **User code that leaves additions alone**: validators may refuse, but they and the hooks around
an addition return the document that they are given. -/
structure LeavesAdditions (x : Executor τ S) : Prop where
  checks : ∀ entity, ∀ check ∈ (x.behaviour.entity entity).entityChecks .create, ∀ args d s,
    Moves (fun _ _ => True) (fun d' => d' = d) (check entity args d s)
  saving : ∀ entity ops d args s, Moves (fun _ _ => True) (fun d' => d' = d)
    ((x.behaviour.entity entity).hooks.onSaving ops d args s)
  saved : ∀ entity ops d args s, Moves (fun _ _ => True) (fun d' => d' = d)
    ((x.behaviour.entity entity).hooks.onSaved ops d args s)

variable {x : Executor τ SessionId} {c : Component τ MemoryStore}

/-- The initial state of an entity is kept under the state field, and nowhere else. -/
theorem get?_initial {d : Descriptor} {fs : Document} {name : String}
    (hstate : d.machine.isSome = true → name ≠ stateField) :
    Record.get? (match d.machine with
      | some machine => Record.put fs stateField (stateName machine.initial)
      | none => fs) name = Record.get? fs name := by
  split
  · rename_i machine hmachine
    rw [Record.get?_put, if_neg (hstate (by rw [hmachine]; rfl)).symm]
  · rfl

/-- **The document of an addition** has the converted argument of a scalar field under the name of
the field. -/
theorem moves_saveIn_scalar (hstore : x.store = MemoryStore.documentStore.within c)
    (hx : x.LeavesAdditions) {d : Descriptor} {f : FieldDef} (hf : f ∈ d.entity.fields)
    (hkind : f.kind = .ok .scalar) (hid : f.isIdentifier = false)
    (hconnection : ∀ g ∈ d.entity.fields, g.kind = .ok .referencedObject →
      g.connectionField ≠ f.name)
    (hstate : d.machine.isSome = true → f.name ≠ stateField) {args v : Value}
    (hv : fieldOf? f.name args = some v) (hempty : v.isEmpty = false)
    (ops : Operations τ SessionId) (s : SessionId) :
    Moves (fun _ _ => True)
      (fun doc => ∃ w, coerceScalar f v = .ok w ∧ Record.get? doc f.name = some w)
      (x.saveIn ops d none s args) := by
  have hchecks : ∀ args d', Moves (fun _ _ => True) (fun d'' => d'' = d')
      ((x.materializer .create s).checkEntity d.entity.name args d') := fun args d' =>
    Moves.foldlM_any (Q := fun d'' => d'' = d')
      (fun check hcheck d₁ hd₁ => by
        rw [hd₁]
        exact hx.checks d.entity.name check hcheck args d' s) rfl
  rw [saveIn]
  refine Moves.bind_any (Materializer.moves_materialize_scalar hchecks hf hkind hid hconnection
    hv hempty) fun r hr => ?_
  obtain ⟨w, hw, hget⟩ := hr
  refine Moves.bind_any (hx.saving d.name ops _ args s) fun document hdoc => ?_
  have hentry : Record.get? document f.name = some w := by
    rw [hdoc]
    exact (get?_initial hstate).trans hget
  rw [hstore]
  refine Moves.bind_any ((MemoryStore.moves_create_entries d.collection document (some s)).within
    fun _ _ _ => trivial) fun stored hstored => ?_
  refine Moves.lift_bind_any fun id _ => ?_
  refine Moves.bind_any (Moves.any _) fun _ _ => ?_
  refine (hx.saved d.name ops stored args s).mono (fun _ _ _ => trivial) fun doc hdoc => ?_
  exact ⟨w, hw, by rw [hdoc]; exact hstored _ _ hentry⟩

end Executor

/-! ## Additions through endpoints -/

namespace Dispatcher

variable {x : Dispatcher τ SessionId} {c : Component τ MemoryStore}

/-- **A service that adds as it is told**: it runs on a memory store with a registry as registries
are built, middleware leaves the arguments of a call as they are, and user code leaves additions
alone. -/
structure AddsAsTold (x : Dispatcher τ SessionId) (c : Component τ MemoryStore) : Prop where
  store : x.executor.store = MemoryStore.documentStore.within c
  built : x.executor.registry.Built
  additions : x.executor.LeavesAdditions
  middleware : ∀ mw ∈ x.middleware, ∀ ep rest,
    Moves (fun q q' : τ × Call => q'.2.args = q.2.args) (fun _ => True) rest →
    Moves (fun q q' : τ × Call => q'.2.args = q.2.args) (fun _ => True) (mw ep rest)

theorem moves_chain_args (ep : Endpoint) {mws : List (Middleware τ)}
    (h : ∀ mw ∈ mws, ∀ ep rest,
      Moves (fun q q' : τ × Call => q'.2.args = q.2.args) (fun _ => True) rest →
      Moves (fun q q' : τ × Call => q'.2.args = q.2.args) (fun _ => True) (mw ep rest)) :
    Moves (fun q q' : τ × Call => q'.2.args = q.2.args) (fun _ => True) (chain ep mws) := by
  induction mws with
  | nil => exact fun _ => ⟨rfl, fun _ _ => trivial⟩
  | cons mw rest ih =>
    exact h mw (List.mem_cons_self ..) ep _ (ih fun mw' hmw' => h mw' (List.mem_cons_of_mem _ hmw'))

/-- A call that returns ran the operation of its endpoint on the arguments that it was given. -/
theorem execute_of_call (h : x.AddsAsTold c) {name : String} {ep : Endpoint}
    (hep : Record.get? x.endpoints name = some ep) {fs context : Document} {t : τ} {v : Value}
    {q' : τ × Call} (hr : (x.call name).run.run (t, ⟨.object fs, context⟩) = (.ok v, q')) :
    ∃ t₁ context₁, ((x.execute ep).run.run (t₁, ⟨.object fs, context₁⟩)).1 = .ok v := by
  rw [run_call_eq hep rfl] at hr
  rcases hchain : (chain ep x.middleware).run.run (t, ⟨.object fs, context⟩) with ⟨f | ⟨⟩, t₁, q₁⟩
  · rw [Action.run_bind_error hchain] at hr
    cases hr
  rw [Action.run_bind_ok hchain] at hr
  obtain ⟨hargs, -⟩ := (moves_chain_args ep h.middleware).of_ok hchain
  obtain ⟨args₁, context₁⟩ := q₁
  obtain rfl : args₁ = .object fs := hargs
  refine ⟨t₁, context₁, ?_⟩
  rcases hresult : (x.execute ep).run.run (t₁, ⟨.object fs, context₁⟩) with ⟨f | v', q₂⟩
  · rw [hresult] at hr
    cases hr
  · rw [hresult] at hr
    cases hr
    rfl

/-- Without middleware, a call of an endpoint that adds documents checks its arguments and saves
them. -/
theorem run_call_save (hmiddleware : x.middleware = []) {name e : String} {ep : Endpoint}
    (hep : Record.get? x.endpoints name = some ep) (hsave : ep.kind = .save)
    (he : ep.entity = some e) {d : Descriptor}
    (hd : Record.get? x.executor.registry.descriptors e = some d) {fs context : Document}
    (hcheck : checkWrite x.executor.registry (.add d.name) (.object fs) = .ok ()) {t : τ}
    {v : Value}
    (hrun : ((x.executor.operations.save d.name (.object fs) none).run.run t).1 = .ok v) :
    ((x.call name).run.run (t, ⟨.object fs, context⟩)).1 = .ok v := by
  have hlookup : x.executor.registry.lookup e = .ok d := by
    rw [Registry.lookup, hd]
    rfl
  have hexecute : ((x.execute ep).run.run (t, ⟨.object fs, context⟩)).1 = .ok v := by
    unfold execute
    dsimp only
    rw [Action.run_bind_ok (run_arguments t _), hsave, he, Option.getD_some, hlookup,
      Action.run_bind_ok (Action.run_lift _ _)]
    unfold onEntity
    rw [hsave]
    dsimp only
    rw [hcheck, Action.run_bind_ok (Action.run_lift _ _)]
    exact hrun
  rw [run_call_eq hep rfl, hmiddleware, chain, pure_bind]
  exact congrArg (Except.mapError Fault.normalize) hexecute

/-- The operation of an endpoint that adds documents checks its arguments and returns the new
document. -/
theorem exists_saved (h : x.AddsAsTold c) {e : String} {ep : Endpoint} (hsave : ep.kind = .save)
    (he : ep.entity = some e) {d : Descriptor}
    (hd : Record.get? x.executor.registry.descriptors e = some d) {args : Value}
    {Q : Document → Prop}
    (hQ : x.executor.registry.Accepts (.add d.name) args → ∀ ops s,
      Moves (fun _ _ => True) Q (x.executor.saveIn ops d none s args))
    {t : τ} {context : Document} {v : Value}
    (hr : ((x.execute ep).run.run (t, ⟨args, context⟩)).1 = .ok v) :
    ∃ doc, v = .object doc ∧ Q doc := by
  have hnamed : d.name = e := h.built.shaped.named e d hd
  have hlookup : x.executor.registry.lookup e = .ok d := by
    rw [Registry.lookup, hd]
    rfl
  unfold execute at hr
  dsimp only at hr
  rw [Action.run_bind_ok (run_arguments t _), hsave, he, Option.getD_some, hlookup,
    Action.run_bind_ok (Action.run_lift _ _)] at hr
  unfold onEntity at hr
  rw [hsave] at hr
  dsimp only at hr
  rcases hcheck : checkWrite x.executor.registry (.add d.name) args with f | ⟨⟩
  · rw [hcheck] at hr
    cases hr
  rw [hcheck, Action.run_bind_ok (Action.run_lift _ _)] at hr
  have hoperation : Moves (fun _ _ => True) (fun v => ∃ doc, v = .object doc ∧ Q doc)
      (x.executor.operations.save d.name args none) := by
    refine Moves.lift_bind_any fun d' hd' => ?_
    obtain rfl : d = d' := by
      unfold Executor.descriptor at hd'
      rw [hnamed, hlookup, Outcome.ok_bind] at hd'
      split at hd'
      · cases hd'
        rfl
      · cases hd'
    refine Moves.bind_any (SessionStore.moves_transact
      (fun s => hQ (accepts_of_checkWrite hcheck) _ s) none) fun doc hdoc => ?_
    exact Moves.pure_any ⟨doc, rfl, hdoc⟩
  exact (hoperation t).2 v hr

/-- **Adding a document and asking for it.** An endpoint that adds documents of an entity accepts a
plain value for a scalar field other than the identifier. The document that it returns answers the
filter that asks the field for this value, unless the filter reads the value as an identifier and
the field does not hold identifiers; then the document does not answer. The name of the field can be
asked for, and no reference is stored under it. -/
theorem added_matches_iff (h : x.AddsAsTold c) {name e : String} {ep : Endpoint}
    (hep : Record.get? x.endpoints name = some ep) (hsave : ep.kind = .save)
    (he : ep.entity = some e) {d : Descriptor}
    (hd : Record.get? x.executor.registry.descriptors e = some d) {f : FieldDef}
    (hf : f ∈ d.entity.fields) (hkind : f.kind = .ok .scalar) (hid : f.isIdentifier = false)
    (hname : IsAskable f.name) (hconnection : ∀ g ∈ d.entity.fields,
      g.kind = .ok .referencedObject → g.connectionField ≠ f.name)
    {fs : Document} {v : Value} (hv : Record.get? fs f.name = some v) (hplain : v.IsPlain)
    {context : Document} {t : τ} {result : Value} {q' : τ × Call}
    (hr : (x.call name).run.run (t, ⟨.object fs, context⟩) = (.ok result, q')) :
    ∃ doc args query, result = .object doc ∧
      ListArguments.read d.entity (askFor f v) = .ok args ∧
      listPipeline x.executor.registry x.defaultLimit d args =
        .ok (.select query :: cuts x.defaultLimit none) ∧
      ∃ b, matchesQuery doc (.object query) = .ok b ∧ (b = true ↔ ¬ ReadsAsId f v) := by
  obtain ⟨t₁, context₁, hexecute⟩ := execute_of_call h hep hr
  have hregistered : Record.get? x.executor.registry.descriptors d.name = some d := by
    rw [h.built.shaped.named e d hd, hd]
  have hgiven : fieldOf? f.name (.object fs) = some v := hv
  obtain ⟨doc, rfl, w, hw, hget⟩ := exists_saved h hsave he hd (fun haccepts ops s =>
    Executor.moves_saveIn_scalar h.store h.additions hf hkind hid hconnection
      (fun hmachine hstate => by
        have hnone := haccepts.no_state h.built.shaped hregistered (.inl rfl) hmachine
        rw [← hstate, hgiven] at hnone
        cases hnone) hgiven (Value.isEmpty_of_isPlain hplain) ops s) hexecute
  obtain ⟨asked, hasked, hoperators, hsingle, hagree⟩ := coerceTerm_of_coerceScalar hplain hw
  obtain ⟨args, hread, hpipeline⟩ := listPipeline_askFor hf hkind hid hname hasked x.defaultLimit
  refine ⟨doc, args, _, rfl, hread, hpipeline, _, ?_, hagree⟩
  exact matchesQuery_entry hname hget hsingle hoperators

end Dispatcher

/-- The desk adds as it is told. -/
theorem desk_addsAsTold : desk.AddsAsTold ⟨id, fun m _ => m⟩ where
  store := rfl
  built := desk_built
  additions := ⟨fun _ _ h => absurd h List.not_mem_nil, fun _ _ _ _ _ => Moves.pure_any rfl,
    fun _ _ _ _ _ => Moves.pure_any rfl⟩
  middleware := fun _ h => absurd h List.not_mem_nil

/-- A task is to be added. -/
def addTask : Call := ⟨.object [("title", .text "Read")], []⟩

/-- The task that was added answers the filter for its title. -/
theorem desk_finds_added : ∃ d doc args query,
    Record.get? deskRegistry.descriptors "Task" = some d ∧
    ((desk.call "addTask").run.run (.empty, addTask)).1 = .ok (.object doc) ∧
    ListArguments.read d.entity (askFor (textField "title") (.text "Read")) = .ok args ∧
    listPipeline deskRegistry desk.defaultLimit d args = .ok (.select query :: cuts 10 none) ∧
    matchesQuery doc (.object query) = .ok true := by
  obtain ⟨d, hd⟩ : ∃ d, Record.get? deskRegistry.descriptors "Task" = some d := ⟨_, rfl⟩
  have hentity : d.entity = task := by
    obtain ⟨-, -, -, hn⟩ | ⟨hentity, -⟩ := desk_descriptor hd
    · exact absurd hn (by decide)
    · exact hentity
  have hr : ((desk.call "addTask").run.run (.empty, addTask)).1 = .ok (.object
      [("title", .text "Read"), ("state", .text "open"), ("_id", .id (.ofNat 1))]) := by cbv
  have hname : IsAskable "title" :=
    ⟨by decide, by unfold IsCombinator; decide, by unfold IsSegment; decide⟩
  have hendpoint : Record.get? desk.endpoints "addTask" =
    some ⟨"addTask", .save, some "Task", none⟩ := rfl
  obtain ⟨doc, args, query, hdoc, hread, hpipeline, b, hb, hiff⟩ :=
    Dispatcher.added_matches_iff (f := textField "title") (v := .text "Read") desk_addsAsTold
      hendpoint rfl rfl hd
      (by rw [hentity]; exact List.mem_cons_of_mem _ (List.mem_cons_self ..)) rfl rfl hname
      (fun g hg _ => by
        rw [hentity] at hg
        exact (by decide : ∀ g ∈ task.fields, g.connectionField ≠ "title") g hg)
      rfl (by decide : "Read" ≠ "") (Prod.ext hr rfl)
  refine ⟨d, doc, args, query, hd, by rw [hr, hdoc], hread, hpipeline, ?_⟩
  rw [hb, hiff.2 fun h => ?_]
  exact absurd h.2.2.1 (by decide)

/-! ## Values that are not found -/

/-- Accounts with names that stand in the way of their filters: one like that of an identifier, one
that is a path, one that combines queries, and one under which a reference is stored. -/
def account : Entity where
  name := "Account"
  fields := [textField "owner_id", textField "owner.name", textField "$and", textField "owner",
    ⟨"holder", .entity "Account", false, true, false, false, some ⟨false, "owner", .null⟩, .null⟩]
  description := .null
  names_nodup := by decide

/-- The registry of accounts. -/
def accountRegistry : Registry :=
  (Registry.finalize.run.run ⟨[("Account",
    ⟨account, "accounts", some "account", some "accounts", none, true, none, []⟩)], [], false⟩).2

/-- A service of accounts. -/
def accounts : Dispatcher MemoryStore SessionId where
  executor := {
    registry := accountRegistry
    behaviour := ⟨fun _ => .none, fun _ _ _ => throw .illTyped⟩
    store := MemoryStore.documentStore.within ⟨id, fun m _ => m⟩
    policy := ⟨2, fun n => .ok (.whole n), fun _ => pure (), Nat.two_pos⟩ }
  endpoints := (Endpoint.table .everything accountRegistry).toOption.getD []
  middleware := []
  defaultLimit := 10

/-- The text of an identifier. -/
def idText : String := "0000000000000000000000aa"

/-- The values of an account. -/
def accountValues : Document :=
  [("owner_id", .text idText), ("owner.name", .text "Ann"), ("$and", .text "Ann"),
    ("owner", .text "Ann")]

/-- An account is to be added with its values, and with a holder. -/
def addAccount : Document := accountValues ++ [("holder", .object [("id", .text idText)])]

/-- The account as it is stored. The holder took the place of the owner. -/
def storedAccount : Document :=
  [("owner_id", .text idText), ("owner.name", .text "Ann"), ("$and", .text "Ann"),
    ("owner", .id (.ofNat 170))]

theorem materialize_account (s : SessionId) :
    (accounts.executor.materializer .create s).materialize account none (.object addAccount) =
      pure ⟨storedAccount, []⟩ := by
  have hholder : toReference (.object [("id", .text idText)]) = .ok (.ofNat 170) := by cbv
  unfold idText at hholder
  rw [Materializer.materialize]
  simp only [account, textField, Materializer.materializeFields]
  simp [addAccount, accountValues, idText, fieldOf?, Record.get?, Value.isEmpty,
    Materializer.materializeValue, FieldDef.kind, FieldDef.isIdentifier, hholder]
  rfl

theorem applyDeltas_account (ops : Operations MemoryStore SessionId) (d : Descriptor) (id : Value)
    (s : SessionId) :
    accounts.executor.applyDeltas ops d id s (.object addAccount) account.fields = pure () := by
  simp only [account, textField, Executor.applyDeltas]
  rfl

theorem run_addAccount :
    ((accounts.call "addAccount").run.run (.empty, ⟨.object addAccount, []⟩)).1 =
      .ok (.object (storedAccount ++ [("_id", .id (.ofNat 1))])) := by
  obtain ⟨d, hd⟩ : ∃ d, Record.get? accountRegistry.descriptors "Account" = some d := ⟨_, rfl⟩
  have hentity : d.entity = account := by
    cases hd
    rfl
  have hname : d.name = "Account" := by
    rw [Descriptor.name, hentity]
    rfl
  have hsaved : ∀ ops s, accounts.executor.saveIn ops d none s (.object addAccount) = (do
      let stored ← accounts.executor.store.create "accounts" storedAccount (some s)
      let _ ← liftM (Executor.documentId stored)
      pure stored) := by
    intro ops s
    rw [Executor.saveIn_eq rfl, hentity, materialize_account]
    simp only [applyDeltas_account]
    cases hd
    rfl
  have hdescriptor : accounts.executor.descriptor "Account" = .ok d := by
    cases hd
    rfl
  have hsave : accounts.executor.operations.save "Account" (.object addAccount) none = (do
      let stored ← accounts.executor.transact (fun s => accounts.executor.saveIn
        (accounts.executor.operationsTo Executor.nestingLimit) d none s (.object addAccount)) none
      pure (.object stored)) := by
    change (liftM (accounts.executor.descriptor "Account") >>= _) = _
    rw [hdescriptor]
    rfl
  have hendpoint : Record.get? accounts.endpoints "addAccount" =
      some ⟨"addAccount", .save, some "Account", none⟩ := rfl
  refine Dispatcher.run_call_save rfl hendpoint rfl rfl hd
    ?_ ?_
  · rw [hname]
    clear hsave hsaved hd
    cbv
  · rw [hname, hsave]
    simp only [hsaved]
    clear hsave hsaved hd hdescriptor
    cbv

/-- **An account that its own values do not find.** The endpoint accepts all of them, and the
document that it returns satisfies the match stage of none. -/
theorem account_not_found : ∃ d doc,
    Record.get? accountRegistry.descriptors "Account" = some d ∧
    ((accounts.call "addAccount").run.run (.empty, ⟨.object addAccount, []⟩)).1 =
      .ok (.object doc) ∧
    ∀ e ∈ accountValues, ∃ args query,
      ListArguments.read d.entity (askFor (textField e.1) e.2) = .ok args ∧
      listPipeline accountRegistry accounts.defaultLimit d args =
        .ok (.select query :: cuts accounts.defaultLimit none) ∧
      matchesQuery doc (.object query) ≠ .ok true := by
  refine ⟨_, _, rfl, run_addAccount, fun e he => ?_⟩
  simp only [accountValues, List.mem_cons, List.not_mem_nil, or_false] at he
  have hid : convertIds (.text idText) = .id (.ofNat 170) := by cbv
  rcases he with rfl | rfl | rfl | rfl
  · refine ⟨⟨[("owner_id", .term ⟨some .eq, .text idText⟩)], none, none⟩,
      [("owner_id", convertIds (.text idText))], rfl, rfl, ?_⟩
    rw [hid]
    exact fun h => by cases h
  · refine ⟨⟨[("owner.name", .term ⟨some .eq, .text "Ann"⟩)], none, none⟩,
      [("owner.name", .text "Ann")], rfl, rfl, fun h => by cases h⟩
  · refine ⟨⟨[("$and", .term ⟨some .eq, .text "Ann"⟩)], none, none⟩,
      [("$and", .text "Ann")], rfl, rfl, fun h => by cases h⟩
  · refine ⟨⟨[("owner", .term ⟨some .eq, .text "Ann"⟩)], none, none⟩,
      [("owner", .text "Ann")], rfl, rfl, fun h => by cases h⟩

end EntityGraph
