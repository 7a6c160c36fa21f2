import EntityGraph.Proofs.Recording
import EntityGraph.Proofs.Tours

/-!
# Validators of documents

When a document is made of arguments, validators run: those of a field on its argument, and those of
the entity on the document. Which of them are due is laid down in an **agenda** (`Registry.agenda`),
which is read off the registry and the arguments alone. The minutes of a run **proceed** along the
agenda (`Proceeds`): what occurs is what is due, in its order, up to the end or to the first fault.
This is so whenever a document is made (`Materializer.recorded_materialize`), by recursion on the
arguments: an embedded value has an agenda of its own, which stands where its field does.

The first validator of an entity is given what the fields put in, with the link to the parent on top
(`Registry.Prepares`); every other one is given what the one before it handed on. What the fields
put in for embedded values is what the validators of these have left.
-/

namespace EntityGraph

variable {τ S α β : Type}

/-! ## What is due -/

/-- **What validators of an entity leave** of a document: what each of them may hand on, in some
state, of what the one before it did. -/
inductive Leaves (entity : String) (args : Value) : List (EntityCheck τ S) → Document → Document →
    Prop where
  | nil {d : Document} : Leaves entity args [] d d
  | cons {check : EntityCheck τ S} {rest : List (EntityCheck τ S)} {d d₁ d' : Document} {s : S}
    {t t' : τ}
      (h : (check entity args d s).run.run t = (.ok d₁, t'))
      (hrest : Leaves entity args rest d₁ d') :
      Leaves entity args (check :: rest) d d'

mutual

/-- **What a field puts into a document** for its argument. -/
inductive Registry.Fills (r : Registry) (b : Behaviour τ S) (operation : Operation) :
    FieldDef → Value → Value → Prop where
  | scalar {f : FieldDef} {v w : Value} (hk : f.kind = .ok .scalar ∨ f.kind = .ok .enumeration)
      (h : coerceScalar f v = .ok w) : Registry.Fills r b operation f v w
  | scalarList {f : FieldDef} {items ws : List Value} (hk : f.kind = .ok .scalarList)
      (h : coerceScalars f items = .ok ws) : Registry.Fills r b operation f (.list items) (.list ws)
  | referencedObject {f : FieldDef} {v : Value} {o : ObjectId} (hk : f.kind = .ok .referencedObject)
      (h : toReference v = .ok o) : Registry.Fills r b operation f v (.id o)
  | embeddedObject {f : FieldDef} {e : Descriptor} {fs doc : Document}
    (hk : f.kind = .ok .embeddedObject)
      (he : r.lookup (f.target.getD "") = .ok e)
      (h : Registry.Results r b operation e.entity none (.object fs) doc) :
      Registry.Fills r b operation f (.object fs) (.object doc)
  | embeddedList {f : FieldDef} {e : Descriptor} {items docs : List Value}
    (hk : f.kind = .ok .embeddedList)
      (he : r.lookup (f.target.getD "") = .ok e)
      (h : Registry.FillsEach r b operation e.entity items docs) :
      Registry.Fills r b operation f (.list items) (.list docs)

/-- **What fields put into a document**, in their order. -/
inductive Registry.Lays (r : Registry) (b : Behaviour τ S) (operation : Operation) :
    Value → List FieldDef → Document → Document → Prop where
  | nil {args : Value} {doc : Document} : Registry.Lays r b operation args [] doc doc
  | pass {args : Value} {f : FieldDef} {rest : List FieldDef} {doc doc' : Document}
      (h : f.isIdentifier = true ∨ presentArgument? f args = none ∨ f.kind = .ok .referencedList)
      (hrest : Registry.Lays r b operation args rest doc doc') :
      Registry.Lays r b operation args (f :: rest) doc doc'
  | put {args v w : Value} {f : FieldDef} {rest : List FieldDef} {doc doc' : Document}
      (hid : f.isIdentifier = false) (hv : presentArgument? f args = some v)
      (hw : Registry.Fills r b operation f v w)
      (hrest : Registry.Lays r b operation args rest (Record.put doc f.documentKey w) doc') :
      Registry.Lays r b operation args (f :: rest) doc doc'

/-- **What becomes of the items of an embedded list**, one by one. -/
inductive Registry.FillsEach (r : Registry) (b : Behaviour τ S) (operation : Operation) :
    Entity → List Value → List Value → Prop where
  | nil {e : Entity} : Registry.FillsEach r b operation e [] []
  | cons {e : Entity} {fs doc : Document} {items docs : List Value}
      (h : Registry.Results r b operation e none (.object fs) doc)
      (hrest : Registry.FillsEach r b operation e items docs) :
      Registry.FillsEach r b operation e (.object fs :: items) (.object doc :: docs)

/-- **What becomes of arguments**: what the fields put in, with the link on top, as the validators
leave it. -/
inductive Registry.Results (r : Registry) (b : Behaviour τ S) (operation : Operation) :
    Entity → Option ParentLink → Value → Document → Prop where
  | intro {e : Entity} {link : Option ParentLink} {args : Value} {doc d : Document}
      (h : Registry.Lays r b operation args e.fields [] doc)
      (hleaves : Leaves e.name args ((b.entity e.name).entityChecks operation)
        (Materializer.linked link ⟨doc, []⟩).document d) : Registry.Results r b
        operation e link args d

end

/-- **The linked document** of an entity: what its fields put in from the arguments, with the link
on top. -/
def Registry.Prepares (r : Registry) (b : Behaviour τ S) (operation : Operation) (e : Entity)
    (link : Option ParentLink) (args : Value) (d : Document) : Prop :=
  ∃ doc, r.Lays b operation args e.fields [] doc ∧ d = (Materializer.linked link ⟨doc, []⟩).document

/-- **What is due in a write.** -/
inductive Due where
  /-- a validator of a field, on the raw argument -/
  | field (operation : Operation) (entity field : String) (place : Nat) (argument : Value)
  /-- a validator of an entity, on the arguments and a document that is prepared for the first of
  them -/
  | entity (operation : Operation) (entity : String) (place : Nat) (args : Value)
    (prepared : Document → Prop)
  /-- a new document, to be filed under an identifier -/
  | filed (collection : String) (id : Value)
  /-- what cannot be done: no occurrence meets it -/
  | blocked

/-- **What is due occurs**, after something that handed on a document. The first validator of an
entity is given a prepared document, and every other one what the one before it handed on. -/
inductive Due.Meets (handed : Option Document) : Due → Occurrence → Prop where
  | field {operation : Operation} {entity field : String} {place : Nat} {argument : Value} :
      Due.Meets handed (.field operation entity field place argument)
      (.field operation entity field place argument)
  | first {operation : Operation} {entity : String} {args : Value} {prepared : Document → Prop}
    {d : Document}
      (h : prepared d) :
      Due.Meets handed (.entity operation entity 0 args prepared)
      (.entity operation entity 0 args d)
  | next {operation : Operation} {entity : String} {place : Nat} {args : Value}
    {prepared : Document → Prop}
      {d : Document} (h : handed = some d) :
      Due.Meets handed (.entity operation entity (place + 1) args prepared)
        (.entity operation entity (place + 1) args d)
  | filed {collection : String} {id : Value} {stored : Document}
      (h : ∀ i, Executor.documentId stored = .ok i → i = id) :
      Due.Meets handed (.filed collection id) (.filed collection stored)

/-- **Minutes that proceed along an agenda**, to the outcome of the write. All that is due has
occurred and nothing has raised a fault (`done`); or the write ended with a fault, which a validator
raised (`refused`), or which was raised between what is due (`ended`). -/
inductive Proceeds : Option Document → List Due → Minutes → Option Fault → Prop where
  | done {handed : Option Document} : Proceeds handed [] [] none
  | ended {handed : Option Document} {agenda : List Due} {e : Fault} : Proceeds handed agenda []
    (some e)
  | refused {handed : Option Document} {due : Due} {agenda : List Due} {occurrence : Occurrence}
    {e : Fault}
      (h : due.Meets handed occurrence) :
      Proceeds handed (due :: agenda) [(occurrence, .error e)] (some e)
  | accepted {handed next : Option Document} {due : Due} {agenda : List Due}
    {occurrence : Occurrence}
      {minutes : Minutes} {fault? : Option Fault} (h : due.Meets handed occurrence)
      (hrest : Proceeds next agenda minutes fault?) :
      Proceeds handed (due :: agenda) ((occurrence, .ok next) :: minutes) fault?

namespace Proceeds

variable {handed : Option Document} {agenda agenda' : List Due} {minutes minutes' : Minutes}
  {fault? : Option Fault} {e : Fault}

/-- The minutes of one agenda after those of another. -/
theorem append (h : Proceeds handed agenda minutes none)
    (h' : ∀ handed, Proceeds handed agenda' minutes' fault?) :
    Proceeds handed (agenda ++ agenda') (minutes ++ minutes') fault? := by
  generalize hnone : none = r at h
  induction h with
  | done => exact h' _
  | ended => cases hnone
  | refused => cases hnone
  | accepted h _ ih => exact .accepted h (ih hnone)

/-- What ended does not get to what else is due. -/
theorem cut (h : Proceeds handed agenda minutes (some e)) :
    Proceeds handed (agenda ++ agenda') minutes (some e) := by
  generalize hsome : some e = r at h
  induction h with
  | done => cases hsome
  | ended => exact .ended
  | refused h => exact .refused h
  | accepted h _ ih => exact .accepted h (ih hsome)

/-- A write that ends with a fault after all that was due. -/
theorem fails (h : Proceeds handed agenda minutes none) :
    Proceeds handed agenda minutes (some e) := by
  generalize hnone : none = r at h
  induction h with
  | done => exact .ended
  | ended => cases hnone
  | refused => cases hnone
  | accepted h _ ih => exact .accepted h (ih hnone)

end Proceeds

/-! ## The validators of a document -/

/-- The validators of a field. -/
def Behaviour.fieldAgenda (b : Behaviour τ S) (operation : Operation) (entity : String)
    (f : FieldDef) (args : Value) : List Due :=
  ((b.entity entity).fieldChecks operation f.name).zipIdx.map fun c =>
    .field operation entity f.name c.2 ((fieldOf? f.name args).getD .null)

/-- The validators of an entity, the first of which is given the linked document. -/
def Registry.entityAgenda (r : Registry) (b : Behaviour τ S) (operation : Operation) (e : Entity)
    (link : Option ParentLink) (args : Value) : List Due :=
  ((b.entity e.name).entityChecks operation).zipIdx.map fun c =>
    .entity operation e.name c.2 args (r.Prepares b operation e link args)

namespace Registry

mutual

/-- **The agenda of a document** made from arguments: field by field, its validators and then the
agendas of the embedded values in its argument; and after all fields the validators of the
entity. -/
def agenda (r : Registry) (b : Behaviour τ S) (operation : Operation) (e : Entity)
    (link : Option ParentLink) (args : Value) : List Due :=
  r.fieldsAgenda b operation e.name args e.fields ++ r.entityAgenda b operation e link args
termination_by (sizeOf args, 3, 0)

/-- Field by field, in the order of the entity. -/
def fieldsAgenda (r : Registry) (b : Behaviour τ S) (operation : Operation) (entity : String)
    (args : Value) :
    List FieldDef → List Due
  | [] => []
  | f :: rest =>
    b.fieldAgenda operation entity f args ++ ((
      if f.isIdentifier then []
      else
        match h : fieldOf? f.name args with
        | none => []
        | some v =>
          have := sizeOf_fieldOf?_lt h
          r.valueAgenda b operation f v) ++
      fieldsAgenda r b operation entity args rest)
termination_by fields => (sizeOf args, 2, fields.length)

/-- The embedded values in an argument. -/
def valueAgenda (r : Registry) (b : Behaviour τ S) (operation : Operation) (f : FieldDef)
    (v : Value) : List Due :=
  match f.kind?, v with
  | some .embeddedObject, .object fs =>
    match r.lookup (f.target.getD "") with
    | .ok target => agenda r b operation target.entity none (.object fs)
    | .error _ => [.blocked]
  | some .embeddedList, .list items =>
    match r.lookup (f.target.getD "") with
    | .ok target => itemsAgenda r b operation target.entity items
    | .error _ => [.blocked]
  | _, _ => []
termination_by (sizeOf v, 4, 0)

/-- The items of an embedded list. -/
def itemsAgenda (r : Registry) (b : Behaviour τ S) (operation : Operation) (e : Entity) :
    List Value → List Due
  | [] => []
  | v :: rest => agenda r b operation e none v ++ itemsAgenda r b operation e rest
termination_by items => (sizeOf items, 0, 0)

end

/-- What is due for the embedded values in the argument of a field. The identifier has none. -/
def partAgenda (r : Registry) (b : Behaviour τ S) (operation : Operation) (f : FieldDef)
    (args : Value) : List Due :=
  if f.isIdentifier then []
  else
    match fieldOf? f.name args with
    | none => []
    | some v => r.valueAgenda b operation f v

theorem fieldsAgenda_cons (r : Registry) (b : Behaviour τ S) (operation : Operation)
    (entity : String) (args : Value) (f : FieldDef) (rest : List FieldDef) :
    r.fieldsAgenda b operation entity args (f :: rest) = b.fieldAgenda operation entity f args ++
      (r.partAgenda b operation f args ++ r.fieldsAgenda b operation entity args rest) := by
  rw [fieldsAgenda, partAgenda]
  congr 2
  split
  · rfl
  · split <;> rename_i hget <;> simp only [hget]

end Registry

/-- **What a recorded action adds** proceeds along an agenda, whatever was handed on before, and
what it returns satisfies `Q`. -/
def Walks (agenda : List Due) (Q : α → Prop) (new : Minutes) (o : Outcome α) : Prop :=
  (∀ handed, Proceeds handed agenda new o.fault?) ∧ ∀ v, o = .ok v → Q v

namespace Recorded

variable {agenda agenda' : List Due} {Q : α → Prop} {Q' : β → Prop} {a' : Action (τ × Minutes) α}
  {a : Action τ α}

theorem walks_throw {e : Fault} :
    Recorded (Walks agenda Q) (MonadExcept.throw e) (MonadExcept.throw e : Action τ α) :=
  throw ⟨fun _ => .ended, nofun⟩

theorem walks_pure {v : α} (hv : Q v) :
    Recorded (Walks [] Q) (Pure.pure v) (Pure.pure v : Action τ α) :=
  pure ⟨fun _ => .done, fun _ h => Except.ok.inj h ▸ hv⟩

theorem walks_bind (ha : Recorded (Walks agenda Q) a' a) {f' : α → Action (τ × Minutes) β}
    {f : α → Action τ β} (hf : ∀ v, Q v → Recorded (Walks agenda' Q') (f' v) (f v)) :
    Recorded (Walks (agenda ++ agenda') Q') (a' >>= f') (a >>= f) :=
  ha.bind (fun _ _ h => ⟨fun handed => (h.1 handed).cut, nofun⟩) fun _ v h =>
    (hf v (h.2 v rfl)).mono fun _ _ h' => ⟨fun handed => (h.1 handed).append h'.1, h'.2⟩

/-- What is done with the value does not add to the minutes. -/
theorem walks_map (ha : Recorded (Walks agenda Q) a' a) {g : α → β} (hg : ∀ v, Q v → Q' (g v)) :
    Recorded (Walks agenda Q') (do let v ← a'; Pure.pure (g v))
    (do let v ← a; Pure.pure (g v)) := by
  rw [← List.append_nil agenda]
  exact ha.walks_bind fun v hv => walks_pure (hg v hv)

theorem walks_lift_bind {o : Outcome β} {f' : β → Action (τ × Minutes) α} {f : β → Action τ α}
    (hf : ∀ v, o = .ok v → Recorded (Walks agenda Q) (f' v) (f v)) :
    Recorded (Walks agenda Q) (liftM o >>= f') (liftM o >>= f) :=
  lift_bind (fun _ _ => ⟨fun _ => .ended, nofun⟩) hf

end Recorded

namespace Materializer

variable {r : Registry} {b : Behaviour τ S} {operation : Operation} {s : S}

/-- **The validators of a field** run one after the other. -/
theorem recorded_fieldChecks (checks : List (FieldCheck τ S)) (place : Nat) (entity field : String)
    (v : Value) :
    Recorded (Walks ((checks.zipIdx place).map fun c => .field operation entity field c.2 v)
      fun _ => True) (((checks.zipIdx place).map fun c => c.1.recorded operation c.2).forM
        fun check => check entity field v s)
      (checks.forM fun check => check entity field v s) := by
  induction checks generalizing place with
  | nil => exact .walks_pure trivial
  | cons check rest ih =>
    have hcheck : Recorded (Walks [.field operation entity field place v] fun _ => True)
        (check.recorded operation place entity field v s) (check entity field v s) := by
      refine (Recorded.noted _ _).mono fun new o hnew => ⟨fun handed => ?_, fun _ _ => trivial⟩
      subst hnew
      cases o with
      | error e => exact .refused .field
      | ok _ => exact .accepted .field .done
    exact hcheck.walks_bind fun _ _ => ih (place + 1)

/-- **The validators of an entity** run one after the other, each on what the one before it handed
on. -/
theorem recorded_entityChecks (checks : List (EntityCheck τ S)) (place : Nat) (entity : String)
    (args : Value) {prepared : Document → Prop} {d : Document} (hd : place = 0 → prepared d) :
    Recorded (fun new o => (∀ handed, (place ≠ 0 → handed = some d) → Proceeds handed
          ((checks.zipIdx place).map fun c =>
            .entity operation entity c.2 args prepared) new o.fault?) ∧
        ∀ d', o = .ok d' → Leaves entity args checks d d')
      (((checks.zipIdx place).map fun c => c.1.recorded operation c.2).foldlM
        (fun d check => check entity args d s) d)
      (checks.foldlM (fun d check => check entity args d s) d) := by
  induction checks generalizing place d with
  | nil => exact .pure ⟨fun _ _ => .done, fun _ h => Except.ok.inj h ▸ .nil⟩
  | cons check rest ih =>
    have hmeets : ∀ handed, (place ≠ 0 → handed = some d) →
        (Due.entity operation entity place args prepared).Meets handed
        (.entity operation entity place args d) := by
      intro handed hhanded
      cases place with
      | zero => exact .first (hd rfl)
      | succ place => exact .next (hhanded (Nat.succ_ne_zero _))
    rw [List.zipIdx_cons, List.map_cons, List.map_cons, List.foldlM_cons, List.foldlM_cons]
    refine (Recorded.noted _ _).ran.bind (fun new f h => ⟨fun handed hhanded => ?_, nofun⟩)
      fun new d₁ h => ?_
    · obtain ⟨rfl, -⟩ := h
      exact .refused (hmeets handed hhanded)
    · obtain ⟨rfl, t, t', hran⟩ := h
      refine (ih (place + 1) (d := d₁) nofun).mono fun new' o h =>
        ⟨fun handed hhanded => ?_, fun d' hd' => ?_⟩
      · exact .accepted (hmeets handed hhanded) (h.1 (some d₁) fun _ => rfl)
      · exact .cons hran (h.2 d' hd')

theorem recorded_checkField (entity : String) (f : FieldDef) (args : Value) :
    Recorded (Walks (b.fieldAgenda operation entity f args) fun _ => True)
      ((mk r b.recorded operation s).checkField entity f ((fieldOf? f.name args).getD .null))
      ((mk r b operation s).checkField entity f ((fieldOf? f.name args).getD .null)) :=
  recorded_fieldChecks _ 0 entity f.name _

theorem recorded_checkEntity {e : Entity} {link : Option ParentLink} {args : Value} {d : Document}
    (hd : r.Prepares b operation e link args d) :
    Recorded (Walks (r.entityAgenda b operation e link args)
        fun d' => Leaves e.name args ((b.entity e.name).entityChecks operation) d d')
      ((mk r b.recorded operation s).checkEntity e.name args d)
      ((mk r b operation s).checkEntity e.name args d) :=
  (recorded_entityChecks _ 0 e.name args fun _ => hd).mono fun _ _ h =>
    ⟨fun handed => h.1 handed fun hne => absurd rfl hne, h.2⟩

/-- **The argument of a field** is put in as its kind says, once the embedded values in it have had
their validators. -/
theorem recorded_materializeValue {f : FieldDef} {v : Value}
    (hobject : ∀ fs e, v = .object fs → r.lookup (f.target.getD "") = .ok e →
      Recorded (Walks (r.agenda b operation e.entity none (.object fs))
          fun made => r.Results b operation e.entity none (.object fs) made.document)
        ((mk r b.recorded operation s).materialize e.entity none (.object fs))
        ((mk r b operation s).materialize e.entity none (.object fs)))
    (hitems : ∀ items e, v = .list items → r.lookup (f.target.getD "") = .ok e →
      Recorded (Walks (r.itemsAgenda b operation e.entity items)
        (r.FillsEach b operation e.entity items))
          ((mk r b.recorded operation s).materializeItems f e.entity items)
        ((mk r b operation s).materializeItems f e.entity items))
    (made : Materialized) :
    Recorded (Walks (r.valueAgenda b operation f v) fun made' =>
      (f.kind = .ok .referencedList ∧ made' = made) ∨
        ∃ w, r.Fills b operation f v w ∧ made' = put made f.documentKey w)
      ((mk r b.recorded operation s).materializeValue f v made)
      ((mk r b operation s).materializeValue f v made) := by
  rw [materializeValue.eq_def, materializeValue.eq_def]
  refine .walks_lift_bind fun kind hk => ?_
  have hkind : f.kind? = some kind := FieldDef.kind?_eq_some.2 hk
  rw [Registry.valueAgenda.eq_def, hkind]
  have hkey : kind ≠ .referencedObject → f.documentKey = f.name := fun hne =>
    FieldDef.documentKey_of_kind hk hne
  cases kind with
  | scalar =>
    refine .walks_lift_bind fun w hw => .walks_pure (.inr ⟨w, .scalar (.inl hk) hw, ?_⟩)
    rw [hkey (by decide)]
  | enumeration =>
    refine .walks_lift_bind fun w hw => .walks_pure (.inr ⟨w, .scalar (.inr hk) hw, ?_⟩)
    rw [hkey (by decide)]
  | scalarList =>
    cases v with
    | list items =>
      refine .walks_lift_bind fun ws hws => .walks_pure (.inr ⟨_, .scalarList hk hws, ?_⟩)
      rw [hkey (by decide)]
    | _ => exact .walks_throw
  | referencedObject =>
    refine .walks_lift_bind fun o ho => .walks_pure (.inr ⟨_, .referencedObject hk ho, ?_⟩)
    rw [FieldDef.documentKey_of_reference hk]
  | embeddedObject =>
    cases v with
    | object fs =>
      refine .walks_lift_bind fun e he => ?_
      have he : r.lookup (f.target.getD "") = .ok e := he
      dsimp only
      rw [he]
      refine (hobject fs e rfl he).walks_map fun inner hinner =>
        .inr ⟨.object inner.document, .embeddedObject hk he hinner, ?_⟩
      rw [hkey (by decide)]
    | _ => exact .walks_throw
  | embeddedList =>
    cases v with
    | list items =>
      refine .walks_lift_bind fun e he => ?_
      have he : r.lookup (f.target.getD "") = .ok e := he
      dsimp only
      rw [he]
      refine (hitems items e rfl he).walks_map fun docs hdocs =>
        .inr ⟨_, .embeddedList hk he hdocs, ?_⟩
      rw [hkey (by decide)]
    | _ => exact .walks_throw
  | referencedList =>
    dsimp only
    split
    · exact .walks_pure (.inl ⟨hk, rfl⟩)
    · exact .walks_throw

/-- **One field** is passed over, or puts in what it makes of its argument. -/
theorem recorded_materializeField {args : Value} {f : FieldDef}
    (hobject : ∀ fs e, fieldOf? f.name args = some (.object fs) →
      r.lookup (f.target.getD "") = .ok e →
      Recorded (Walks (r.agenda b operation e.entity none (.object fs))
          fun made => r.Results b operation e.entity none (.object fs) made.document)
        ((mk r b.recorded operation s).materialize e.entity none (.object fs))
        ((mk r b operation s).materialize e.entity none (.object fs)))
    (hitems : ∀ items e, fieldOf? f.name args = some (.list items) →
      r.lookup (f.target.getD "") = .ok e →
      Recorded (Walks (r.itemsAgenda b operation e.entity items)
        (r.FillsEach b operation e.entity items))
          ((mk r b.recorded operation s).materializeItems f e.entity items)
        ((mk r b operation s).materializeItems f e.entity items))
    (made : Materialized) :
    Recorded (Walks (r.partAgenda b operation f args) fun made' => ∀ rest doc,
        r.Lays b operation args rest made'.document doc →
          r.Lays b operation args (f :: rest) made.document doc)
      ((mk r b.recorded operation s).materializeField args f made)
      ((mk r b operation s).materializeField args f made) := by
  have hpass : ∀ made' : Materialized, made'.document = made.document →
      (f.isIdentifier = true ∨ presentArgument? f args = none ∨ f.kind = .ok .referencedList) →
      ∀ rest doc, r.Lays b operation args rest made'.document doc →
        r.Lays b operation args (f :: rest) made.document doc :=
    fun made' hsame h rest doc hrest => .pass h (hsame ▸ hrest)
  unfold materializeField Registry.partAgenda
  by_cases hid : f.isIdentifier = true
  · rw [if_pos hid, if_pos hid, if_pos hid]
    exact .walks_pure (hpass made rfl (.inl hid))
  rw [if_neg hid, if_neg hid, if_neg hid]
  cases hget : fieldOf? f.name args with
  | none =>
    refine .walks_pure (hpass made rfl (.inr (.inl (presentArgument?_eq_none fun v hv => ?_))))
    cases hget.symm.trans hv
  | some v =>
    dsimp only
    by_cases hempty : v.isEmpty = true
    · have hagenda : r.valueAgenda b operation f v = [] := by
        rw [Registry.valueAgenda.eq_def]
        split
        · cases hempty
        · cases hempty
        · rfl
      rw [if_pos hempty, if_pos hempty, hagenda]
      refine .walks_pure (hpass _ ?_ (.inr (.inl (presentArgument?_eq_none fun w hw => ?_))))
      · split <;> rfl
      · rwa [← Option.some.inj (hget.symm.trans hw)]
    · rw [if_neg hempty, if_neg hempty]
      have hsome := presentArgument?_eq_some.2 ⟨hget, Bool.eq_false_iff.2 hempty⟩
      refine (recorded_materializeValue (fun fs e hfs => hobject fs e (hfs ▸ hget))
        (fun items e hlist => hitems items e (hlist ▸ hget)) made).mono fun new o h =>
        ⟨h.1, fun made' hmade' => ?_⟩
      rcases h.2 made' hmade' with ⟨hk, rfl⟩ | ⟨w, hw, rfl⟩
      · exact hpass made' rfl (.inr (.inr hk))
      · exact fun rest doc hrest => .put (Bool.eq_false_iff.2 hid) hsome hw hrest

mutual

/-- **Making a document** runs the validators on its agenda. -/
theorem recorded_materialize (r : Registry) (b : Behaviour τ S) (operation : Operation) (s : S)
    (e : Entity) (link : Option ParentLink) (args : Value) :
    Recorded (Walks (r.agenda b operation e link args) fun made =>
      r.Results b operation e link args made.document)
        ((mk r b.recorded operation s).materialize e link args)
        ((mk r b operation s).materialize e link args) := by
  rw [materialize, materialize, Registry.agenda]
  refine (recorded_materializeFields r b operation s e.name args e.fields ⟨[], []⟩).walks_bind
    fun made hmade => ?_
  refine Recorded.walks_map (Q := Leaves e.name args ((b.entity e.name).entityChecks operation)
    (linked link ⟨made.document, []⟩).document) ?_ fun d hd => .intro hmade hd
  rcases link with _ | ⟨key, parent⟩ <;> exact recorded_checkEntity ⟨made.document, hmade, rfl⟩
termination_by (sizeOf args, 3, 0)

theorem recorded_materializeFields (r : Registry) (b : Behaviour τ S) (operation : Operation)
    (s : S) (entity : String) (args : Value) : ∀ (fields : List FieldDef) (made : Materialized),
      Recorded (Walks (r.fieldsAgenda b operation entity args fields)
          fun made' => r.Lays b operation args fields made.document made'.document)
        ((mk r b.recorded operation s).materializeFields entity args fields made)
        ((mk r b operation s).materializeFields entity args fields made)
  | [], made => by
    rw [materializeFields, materializeFields, Registry.fieldsAgenda]
    exact .walks_pure .nil
  | f :: rest, made => by
    rw [materializeFields_cons, materializeFields_cons, Registry.fieldsAgenda_cons]
    refine .guard ⟨fun _ => .ended, nofun⟩ ?_
    refine (recorded_checkField entity f args).walks_bind fun _ _ => ?_
    refine (recorded_materializeField (fun fs e hfs he => ?_) (fun items e hitems he =>
      ?_) made).walks_bind fun made' hmade' => ?_
    · have : 1 + sizeOf fs < sizeOf args := Value.object.sizeOf_spec fs ▸ sizeOf_fieldOf?_lt hfs
      exact recorded_materialize r b operation s e.entity none (.object fs)
    · have : 1 + sizeOf items < sizeOf args :=
        Value.list.sizeOf_spec items ▸ sizeOf_fieldOf?_lt hitems
      exact recorded_materializeItems r b operation s f e.entity items
    · refine (recorded_materializeFields r b operation s entity args rest made').mono fun new o h =>
        ⟨h.1, fun made'' hmade'' => hmade' rest made''.document (h.2 made'' hmade'')⟩
termination_by fields => (sizeOf args, 2, fields.length)

theorem recorded_materializeItems (r : Registry) (b : Behaviour τ S) (operation : Operation) (s : S)
    (f : FieldDef) (e : Entity) : ∀ items : List Value,
      Recorded (Walks (r.itemsAgenda b operation e items) (r.FillsEach b operation e items))
        ((mk r b.recorded operation s).materializeItems f e items)
        ((mk r b operation s).materializeItems f e items)
  | [] => by
    rw [materializeItems, materializeItems, Registry.itemsAgenda]
    exact .walks_pure .nil
  | v :: rest => by
    cases v with
    | object fs =>
      rw [materializeItems, materializeItems, Registry.itemsAgenda]
      refine (recorded_materialize r b operation s e none (.object fs)).walks_bind
        fun inner hinner => ?_
      exact (recorded_materializeItems r b operation s f e rest).walks_map fun docs hdocs =>
        .cons hinner hdocs
    | _ =>
      rw [materializeItems.eq_def, materializeItems.eq_def]
      exact .walks_throw
termination_by items => (sizeOf items, 0, 0)

end

end Materializer

end EntityGraph
