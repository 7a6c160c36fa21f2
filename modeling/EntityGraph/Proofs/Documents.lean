import EntityGraph.Proofs.Entries

/-!
# Documents made from arguments

What the argument of one field does to a document is one of three things (`Took`): it is put under
the name of the field, a reference is put under the connection field, and the changes of a list are
left out. What is kept by that for every field is kept by the whole walk over the fields
(`moves_materializeFields_of_took`), so the document of an addition has the converted argument of a
scalar field under the name of the field (`moves_materialize_scalar`), unless another field is
stored there too.
-/

namespace EntityGraph

variable {τ S : Type}

/-! ## One field -/

/-- **What an argument does to a document**, by the kind of its field. -/
inductive Took (f : FieldDef) (v : Value) (r : Materialized) : Materialized → Prop where
  /-- a value under the name of the field -/
  | named {kind : FieldKind} {w : Value} (hk : f.kind = .ok kind) (hne : kind ≠ .referencedObject)
      (hscalar : kind = .scalar → coerceScalar f v = .ok w)
      (hembedded : kind = .embeddedObject → ∃ d, w = .object d) :
      Took f v r (Materializer.put r f.name w)
  /-- a reference under the connection field -/
  | reference {o : ObjectId} (hk : f.kind = .ok .referencedObject) :
      Took f v r (Materializer.put r f.connectionField (.id o))
  /-- changes of a list, which take no part in the document -/
  | changes (hk : f.kind = .ok .referencedList) : Took f v r r

namespace Took

variable {f : FieldDef} {v : Value} {r r' : Materialized} {key : String}

/-- A key other than those of the field is left alone. -/
theorem get?_of_ne (h : Took f v r r') (hname : f.name ≠ key)
    (hconnection : f.kind = .ok .referencedObject → f.connectionField ≠ key) :
    Record.get? r'.document key = Record.get? r.document key := by
  cases h with
  | named => rw [Materializer.put, Record.get?_put, if_neg hname]
  | reference hk => rw [Materializer.put, Record.get?_put, if_neg (hconnection hk)]
  | changes => rfl

/-- The argument of a scalar field is converted and put under the name of the field. -/
theorem get?_of_scalar (h : Took f v r r') (hk : f.kind = .ok .scalar) :
    ∃ w, coerceScalar f v = .ok w ∧ Record.get? r'.document f.name = some w := by
  cases h with
  | @named kind w hk' _ hscalar _ =>
    rw [hk] at hk'
    cases hk'
    exact ⟨w, hscalar rfl, by rw [Materializer.put, Record.get?_put_self]⟩
  | reference hk' =>
    rw [hk] at hk'
    cases hk'
  | changes hk' =>
    rw [hk] at hk'
    cases hk'

end Took

namespace Materializer

variable {m : Materializer τ S}

/-- The argument of a field does what its kind says. -/
theorem moves_materializeValue_took (f : FieldDef) (v : Value) (r : Materialized) :
    Moves (fun _ _ => True) (Took f v r) (m.materializeValue f v r) := by
  refine (moves_materializeValue_any f v r).mono (fun _ _ => id) fun r' h => ?_
  cases h with
  | scalar hk hw => exact .named hk (by decide) (fun _ => hw) nofun
  | enumeration hk => exact .named hk (by decide) nofun nofun
  | scalarList hk => exact .named hk (by decide) nofun nofun
  | referencedObject hk => exact .reference hk
  | embeddedObject hk => exact .named hk (by decide) nofun fun _ => ⟨_, rfl⟩
  | embeddedList hk => exact .named hk (by decide) nofun nofun
  | referencedList hk => exact .changes hk

/-! ## All fields -/

/-- **Walking the fields**: what each field that is given an argument keeps, and each key noted to
be unset, the whole walk keeps. -/
theorem moves_materializeFields_of_took {entity : String} {args : Value} {fields : List FieldDef}
    {P : Materialized → Prop}
    (htook : ∀ f ∈ fields, ∀ v r r', f.isIdentifier = false → P r → Took f v r r' → P r')
    (hunset : ∀ f ∈ fields, ∀ r, f.isIdentifier = false → P r →
      P { r with unset := r.unset ++ [f.storedKey] })
    {r : Materialized} (hr : P r) :
    Moves (fun _ _ => True) P (m.materializeFields entity args fields r) := by
  refine moves_materializeFields_any (P := fun _ => P) (fun f hf rest r hr => ?_) hr
  exact moves_materializeField (fun _ => trivial) (fun _ _ => hr) (fun hnull =>
    hunset f hf r hnull.1 hr) fun v hid _ =>
      (moves_materializeValue_took f v r).mono (fun _ _ => id) fun r' => htook f hf v r r' hid hr

/-- The scalar field `f` has the argument `v`: after the walk its converted argument is under its
name. On the way the field is still to come, or it was converted and no field that is left has its
name. -/
theorem moves_materializeFields_scalar {entity : String} {args : Value} {fields : List FieldDef}
    (hnames : (fields.map FieldDef.name).Nodup) {f : FieldDef} (hf : f ∈ fields)
    (hkind : f.kind = .ok .scalar) (hid : f.isIdentifier = false)
    (hconnection : ∀ g ∈ fields, g.kind = .ok .referencedObject → g.connectionField ≠ f.name)
    {v : Value} (hv : fieldOf? f.name args = some v) (hempty : v.isEmpty = false)
    (r : Materialized) :
    Moves (fun _ _ => True)
      (fun r' => ∃ w, coerceScalar f v = .ok w ∧ Record.get? r'.document f.name = some w)
      (m.materializeFields entity args fields r) := by
  have hpresent : presentArgument? f args = some v := presentArgument?_eq_some.2 ⟨hv, hempty⟩
  refine Moves.mono (moves_materializeFields_any (P := fun rest r =>
    f ∈ rest ∧ (rest.map FieldDef.name).Nodup ∨ f.name ∉ rest.map FieldDef.name ∧
      ∃ w, coerceScalar f v = .ok w ∧ Record.get? r.document f.name = some w)
    (fun g hg rest r hr => ?_) (.inl ⟨hf, hnames⟩)) (fun _ _ => id) fun r' hr' =>
      hr'.elim (fun h => absurd h.1 List.not_mem_nil) And.right
  rw [List.map_cons, List.nodup_cons, List.mem_cons, List.mem_cons, not_or] at hr
  rcases hr with ⟨rfl | hf, hname, hrest⟩ | ⟨⟨hne, hname⟩, w, hw, hget⟩
  · refine moves_materializeField (fun _ => trivial) (fun hskip _ => ?_) (fun hnull => ?_)
      fun v' _ hv' => ?_
    · rcases hskip with hid' | hnone
      · cases hid.symm.trans hid'
      · cases hnone.symm.trans hpresent
    · cases hnull.presentArgument?.symm.trans hpresent
    · obtain rfl := Option.some.inj (hpresent.symm.trans hv')
      exact (moves_materializeValue_took f v r).mono (fun _ _ => id) fun r' htook =>
        .inr ⟨hname, htook.get?_of_scalar hkind⟩
  · exact (Moves.any _).mono (fun _ _ => id) fun _ _ => .inl ⟨hf, hrest⟩
  · refine moves_materializeField (fun _ => trivial) (fun _ _ => .inr ⟨hname, w, hw, hget⟩)
      (fun _ => .inr ⟨hname, w, hw, hget⟩) fun v' _ _ => ?_
    refine (moves_materializeValue_took g v' r).mono (fun _ _ => id) fun r' htook =>
      .inr ⟨hname, w, hw, ?_⟩
    rw [htook.get?_of_ne (Ne.symm hne) (hconnection g hg), hget]

/-- **The argument of a scalar field** becomes the entry of its name, when the validators of the
entity leave the document as it is. -/
theorem moves_materialize_scalar {entity : Entity}
    (hchecks : ∀ args d, Moves (fun _ _ => True) (fun d' =>
      d' = d) (m.checkEntity entity.name args d))
    {f : FieldDef} (hf : f ∈ entity.fields) (hkind : f.kind = .ok .scalar)
    (hid : f.isIdentifier = false)
    (hconnection : ∀ g ∈ entity.fields, g.kind = .ok .referencedObject → g.connectionField ≠ f.name)
    {args v : Value} (hv : fieldOf? f.name args = some v) (hempty : v.isEmpty = false) :
    Moves (fun _ _ => True)
      (fun r => ∃ w, coerceScalar f v = .ok w ∧ Record.get? r.document f.name = some w)
      (m.materialize entity none args) := by
  rw [materialize]
  refine Moves.bind_any (moves_materializeFields_scalar entity.names_nodup hf hkind hid
    hconnection hv hempty _) fun r ⟨w, hw, hget⟩ => ?_
  refine Moves.bind_any (hchecks args r.document) fun d hd => ?_
  exact Moves.pure_any ⟨w, hw, by rw [hd]; exact hget⟩

end Materializer

end EntityGraph
