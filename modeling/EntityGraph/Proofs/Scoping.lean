import EntityGraph.Proofs.Paging
import EntityGraph.Proofs.Requirements
import EntityGraph.Proofs.Spots

/-!
# Well scoped pipelines

A pipeline refers to what stands in its rows: a join starts at a path, and a condition is asked of
one. A row holds what the document itself keeps, and what earlier joins put under their labels. In a
compiled pipeline every path begins with one or the other (`pipelines_wellScoped`).

The joins of a spot lead from one to the next (`Spot.leads_of_follow`), and adding them to a plan,
or a condition at their end, keeps the plan well scoped (`Spot.wellScoped_ask`). A field that goes
by the name of a combination is left aside: what stands under its name is the value of the client,
which the store reads as queries (`ghost_out_of_scope`).
-/

namespace EntityGraph

/-- The first segment of a path. -/
def headOf (path : String) : String := (Text.segments path).headD ""

theorem headOf_dotted {s : String} (h : IsSegment s) (rest : List String) :
    headOf (dotted (s :: rest)) = s := by
  unfold headOf dotted Text.segments
  cases rest with
  | nil =>
    rw [Text.join, Text.split_of_notMem h]
    rfl
  | cons t rest =>
    rw [Text.join_cons _ _ (List.cons_ne_nil _ _)]
    change (Text.split '.' (s ++ String.ofList ['.'] ++ _)).headD "" = s
    rw [Text.split_append h]
    rfl

/-- **A field with a key of its own**: not a referenced list, whose items keep the link, and not the
identifier, which is kept as `_id`. An identifier that holds objects has its name for its key, where
its paths begin. -/
structure FieldDef.HasKey (f : FieldDef) : Prop where
  /-- it is no referenced list -/
  link : f.kind ≠ .ok .referencedList
  /-- an identifier holds objects -/
  identifier : f.isIdentifier = true → ∃ kind, f.kind = .ok kind ∧ kind.isObject = true

/-- **A document of an entity keeps something** under a key: its identifier, or a field. -/
def Entity.Keeps (e : Entity) (key : String) : Prop :=
  key = "_id" ∨ ∃ f ∈ e.fields, f.HasKey ∧ f.documentKey = key

/-- What is kept stands under the key of a field, if not of the identifier. -/
theorem Entity.Keeps.mem {e : Entity} {key : String} (h : e.Keeps key) :
    key = "_id" ∨ key ∈ e.fields.map FieldDef.documentKey :=
  h.imp_right fun ⟨f, hf, _, hkey⟩ => List.mem_map.2 ⟨f, hf, hkey⟩

/-- The labels of the joins of a plan. -/
def Plan.labels (p : Plan) : List String := p.joins.map Join.label

/-- **A well scoped plan**, for documents of an entity. -/
structure Plan.WellScoped (r : Registry) (e : Entity) (p : Plan) : Prop where
  /-- no label is given twice -/
  distinct : p.labels.Nodup
  /-- every join looks in the collection of an entity -/
  sources : ∀ j ∈ p.joins, ∃ d ∈ r.descriptors, d.2.collection = j.source
  /-- a join starts in the document itself, or at a join before -/
  paths : ∀ before j after, p.joins = before ++ j :: after →
    e.Keeps (headOf j.localPath) ∨ headOf j.localPath ∈ before.map Join.label
  /-- the query holds conditions, and at most one combination of more -/
  planned : ∀ entry ∈ p.query, IsPlanned entry
  /-- conditions are asked of the document itself, or of what was joined -/
  keys : ∀ k ∈ conditionsOf p.query, e.Keeps (headOf k.1) ∨ headOf k.1 ∈ p.labels

/-- What a path may begin with in the rows of a plan. -/
def Plan.Offers (e : Entity) (p : Plan) (key : String) : Prop := e.Keeps key ∨ key ∈ p.labels

/-! ## Joins that lead on -/

/-- **Joins lead on** from what is known: each looks in the collection of an entity, and starts at
what is known, or at the label of a join before. -/
def LeadsOn (r : Registry) (known : String → Prop) : List Join → Prop
  | [] => True
  | j :: rest => (∃ d ∈ r.descriptors, d.2.collection = j.source) ∧ known (headOf j.localPath) ∧
      LeadsOn r (fun key => known key ∨ key = j.label) rest

theorem LeadsOn.mono {r : Registry} {known known' : String → Prop}
    (hmono : ∀ key, known key → known' key) {joins : List Join} (h : LeadsOn r known joins) :
    LeadsOn r known' joins := by
  induction joins generalizing known known' with
  | nil => trivial
  | cons j rest ih =>
    obtain ⟨hsource, hpath, hrest⟩ := h
    exact ⟨hsource, hmono _ hpath, ih (fun key => Or.imp_left (hmono key)) hrest⟩

section Leading

variable {r : Registry} {f root : FieldDef}

theorem exists_of_require {target : Option String} {referrer : String} {d : Descriptor}
    (h : r.require target referrer = .ok d) : ∃ entry ∈ r.descriptors, entry.2 = d := by
  obtain ⟨name, -, hd⟩ := Option.bind_eq_some_iff.1 (require_eq h)
  exact ⟨_, Record.mem_of_get?_eq_some hd, rfl⟩

/-- The join of a relation: where it looks, where it starts, and its label. -/
theorem relationJoin_cases {prefixPath : List String} {label : String} {j : Join}
    (h : relationJoin r f prefixPath label = .ok j) :
    (∃ d ∈ r.descriptors, d.2.collection = j.source) ∧ j.label = label ∧
      (f.many = true ∧ j.localPath = dotted (prefixPath ++ ["_id"]) ∨
        f.many = false ∧ j.localPath = dotted (prefixPath ++ [f.connectionField])) := by
  unfold relationJoin at h
  obtain ⟨target, htarget, h⟩ := bind_eq_ok h
  obtain ⟨entry, hentry, rfl⟩ := exists_of_require htarget
  split at h
  · rename_i hmany
    cases h
    exact ⟨⟨entry, hentry, rfl⟩, rfl, .inl ⟨hmany, rfl⟩⟩
  · rename_i hmany
    cases h
    exact ⟨⟨entry, hentry, rfl⟩, rfl, .inr ⟨Bool.not_eq_true _ ▸ hmany, rfl⟩⟩

/-- One more join in front, which starts at what is known and makes its label known. -/
theorem Spot.leads_after {known : String → Prop} {j : Join} {s : Spot}
    (hsource : ∃ d ∈ r.descriptors, d.2.collection = j.source) (hstart : known (headOf j.localPath))
    (hleads : LeadsOn r (fun key => known key ∨ key = j.label) s.joins)
    (hkey : (known (headOf s.key) ∨ headOf s.key = j.label) ∨
      headOf s.key ∈ s.joins.map Join.label) :
    LeadsOn r known (s.after j).joins ∧
      (known (headOf (s.after j).key) ∨
        headOf (s.after j).key ∈ (s.after j).joins.map Join.label) := by
  refine ⟨⟨hsource, hstart, hleads⟩, ?_⟩
  rcases hkey with (hkey | hkey) | hkey
  · exact .inl hkey
  · exact .inr (List.mem_cons.2 (.inl hkey))
  · exact .inr (List.mem_cons_of_mem _ hkey)

/-- **The joins of a spot lead on** from the label where its path starts, to the place of its
value. -/
theorem Spot.leads_of_follow {path : String} {names : List String} {current : Entity}
    {label : String} {embedded : List String} {s : Spot} {known : String → Prop}
    (h : Spot.follow r root path current label embedded names = .ok s) (hlabel : IsSegment label)
    (hembedded : ∀ n ∈ embedded, IsSegment n) (hnames : ∀ n ∈ names, IsSegment n)
    (hknown : known label) :
    LeadsOn r known s.joins ∧ (known (headOf s.key) ∨ headOf s.key ∈ s.joins.map Join.label) := by
  induction names generalizing current label embedded s known with
  | nil => cases h
  | cons name rest ih =>
    have hrest : ∀ n ∈ rest, IsSegment n := fun n hn => hnames n (List.mem_cons_of_mem _ hn)
    have hall : ∀ n ∈ embedded ++ [name], IsSegment n := by
      intro n hn
      rcases List.mem_append.1 hn with hn | hn
      · exact hembedded n hn
      · exact hnames n (List.mem_singleton.1 hn ▸ List.mem_cons_self ..)
    obtain ⟨f, rfl | ⟨target, hs⟩ | ⟨j, target, s', hj, hs', rfl⟩⟩ := Spot.follow_cases h
    · have hhead : headOf (dotted (label :: (embedded ++ [Clause.leafKey f name]))) = label :=
        headOf_dotted hlabel _
      exact ⟨trivial, .inl (hhead.symm ▸ hknown)⟩
    · exact ih hs hlabel hall hrest hknown
    · obtain ⟨hsource, hj, hlocal⟩ := relationJoin_cases hj
      have hnext : IsSegment (Text.join "_" (label :: embedded ++ [name])) :=
        isSegment_labelOf fun n hn => by
          rcases List.mem_cons.1 hn with rfl | hn
          · exact hlabel
          · exact hall n hn
      obtain ⟨hleads, hkey⟩ : LeadsOn r (fun key => known key ∨ key = j.label) s'.joins ∧
          ((known (headOf s'.key) ∨ headOf s'.key = j.label) ∨
          headOf s'.key ∈ s'.joins.map Join.label) :=
        ih hs' hnext (fun n hn => absurd hn List.not_mem_nil) hrest (.inr hj.symm)
      have hhead : headOf j.localPath = label := by
        rcases hlocal with ⟨-, hlocal⟩ | ⟨-, hlocal⟩ <;>
          · rw [hlocal, List.cons_append]
            exact headOf_dotted hlabel _
      exact leads_after hsource (hhead.symm ▸ hknown) hleads hkey

/-- What is embedded is not referenced. -/
theorem kind_of_isEmbedded (h : f.isEmbedded = true) :
    f.kind ≠ .ok .referencedObject ∧ f.kind ≠ .ok .referencedList := by
  unfold FieldDef.isEmbedded at h
  unfold FieldDef.kind
  cases hrelation : f.relation with
  | none =>
    rw [hrelation] at h
    cases h
  | some relation =>
    rw [hrelation] at h
    have hembedded : relation.embedded = true := h
    simp only [hembedded, if_true]
    constructor <;>
      · intro hkind
        split at hkind <;> cases hmany : f.many <;> rw [hmany] at hkind <;> cases hkind

/-- A field that holds a single object is no list. -/
theorem kind_ne_referencedList (hmany : f.many = false) : f.kind ≠ .ok .referencedList := by
  intro hkind
  unfold FieldDef.kind at hkind
  rw [hmany] at hkind
  cases htype : f.type <;> rw [htype] at hkind
  · cases hkind
  · cases hkind
  all_goals
    cases hrelation : f.relation with
    | none =>
      rw [hrelation] at hkind
      cases hkind
    | some relation =>
      rw [hrelation] at hkind
      dsimp only at hkind
      split at hkind
      · cases hkind
      · split at hkind <;> cases hkind

/-- A single related object that is not embedded is kept by its connection field. -/
theorem documentKey_of_single {kind : FieldKind} (h : f.kind = .ok kind)
    (hobject : kind.isObject = true) (hembedded : f.isEmbedded = false) (hmany : f.many = false) :
    f.documentKey = f.connectionField := by
  refine FieldDef.documentKey_of_reference ?_
  unfold FieldDef.isEmbedded at hembedded
  rw [FieldDef.kind.eq_def] at h ⊢
  cases htype : f.type with
  | scalar =>
    rw [htype, hmany] at h
    cases h
    cases hobject
  | enumeration =>
    rw [htype, hmany] at h
    cases h
    cases hobject
  | _ =>
    rw [htype] at h
    cases hrelation : f.relation with
    | none =>
      rw [hrelation] at h
      cases h
    | some relation =>
      rw [hrelation] at h hembedded
      have hembedded : relation.embedded = false := hembedded
      simp only [hembedded, hmany, Bool.false_eq_true, if_false] at h ⊢
      split at h
      · cases h
      · rename_i hconnection
        rw [if_neg hconnection]
        rfl

/-- A field that paths can begin with: neither its name nor the key under which documents keep it
has dots. -/
structure FieldDef.IsAddressable (f : FieldDef) : Prop where
  name : IsSegment f.name
  stored : IsSegment f.documentKey

/-- **The joins of a path lead on** from what documents keep. -/
theorem Spot.leads_of_ofPath {e : Entity} {kind : FieldKind} {path : String} {s : Spot}
    (hf : f ∈ e.fields) (hkind : f.kind = .ok kind) (hobject : kind.isObject = true)
    (haddress : f.IsAddressable) (h : Spot.ofPath r f path = .ok s) :
    LeadsOn r e.Keeps s.joins ∧
      (e.Keeps (headOf s.key) ∨ headOf s.key ∈ s.joins.map Join.label) := by
  have hnames : ∀ n ∈ Text.segments path, IsSegment n :=
    fun n hn => Text.isSegment_of_mem_segments hn
  unfold Spot.ofPath at h
  split at h
  · rename_i hembedded
    obtain ⟨target, -, h⟩ := bind_eq_ok h
    exact leads_of_follow h haddress.name (fun n hn => absurd hn List.not_mem_nil) hnames
      (.inr ⟨f, hf, ⟨(kind_of_isEmbedded hembedded).2, fun _ => ⟨kind, hkind, hobject⟩⟩,
        FieldDef.documentKey_of_ne (kind_of_isEmbedded hembedded).1⟩)
  · rename_i hembedded
    obtain ⟨j, hj, h⟩ := bind_eq_ok h
    obtain ⟨target, -, h⟩ := bind_eq_ok h
    obtain ⟨s', hs', h⟩ := bind_eq_ok h
    cases h
    obtain ⟨hsource, hlabel, hlocal⟩ := relationJoin_cases hj
    have hstart : e.Keeps (headOf j.localPath) := by
      rcases hlocal with ⟨-, hlocal⟩ | ⟨hmany, hlocal⟩
      · rw [hlocal]
        exact .inl (headOf_dotted (by unfold IsSegment; decide) _)
      · rw [hlocal]
        refine .inr ⟨f, hf, ⟨kind_ne_referencedList hmany, fun _ => ⟨kind, hkind, hobject⟩⟩, ?_⟩
        have hkey := documentKey_of_single hkind hobject (Bool.not_eq_true _ ▸ hembedded) hmany
        rw [hkey]
        exact (headOf_dotted (hkey ▸ haddress.stored) []).symm
    obtain ⟨hleads, hkey⟩ : LeadsOn r (fun key => e.Keeps key ∨ key = j.label) s'.joins ∧
        ((e.Keeps (headOf s'.key) ∨ headOf s'.key = j.label) ∨
        headOf s'.key ∈ s'.joins.map Join.label) :=
      leads_of_follow hs' haddress.name (fun n hn => absurd hn List.not_mem_nil) hnames
        (.inr hlabel.symm)
    exact leads_after hsource hstart hleads hkey

end Leading

/-! ## Plans stay well scoped -/

namespace Plan

variable {r : Registry} {e : Entity} {p p' : Plan} {j : Join}

theorem wellScoped_empty : empty.WellScoped r e where
  distinct := List.nodup_nil
  sources := fun _ hj => absurd hj List.not_mem_nil
  paths := fun before j after h => by simp [empty] at h
  planned := fun _ he => absurd he List.not_mem_nil
  keys := fun _ hk => absurd hk List.not_mem_nil

theorem join_cases (p : Plan) (j : Join) : j.label ∈ p.labels ∧ p.join j = p ∨
    j.label ∉ p.labels ∧ p.join j = { p with joins := p.joins ++ [j] } := by
  have hany : (p.joins.any fun k => k.label == j.label) = true ↔ j.label ∈ p.labels := by
    simp [labels]
  unfold join
  split
  · rename_i h
    exact .inl ⟨hany.1 h, rfl⟩
  · rename_i h
    exact .inr ⟨mt hany.2 h, rfl⟩

/-- A join makes its label known, and forgets none. -/
theorem mem_labels_join {label : String} :
    label ∈ (p.join j).labels ↔ label ∈ p.labels ∨ label = j.label := by
  rcases p.join_cases j with ⟨hmem, hjoin⟩ | ⟨-, hjoin⟩
  · rw [hjoin]
    exact ⟨.inl, fun h => h.elim id fun heq => heq ▸ hmem⟩
  · rw [hjoin]
    simp [labels]

theorem mem_labels_foldl_join (joins : List Join) {label : String} :
    label ∈ (joins.foldl join p).labels ↔ label ∈ p.labels ∨ label ∈ joins.map Join.label := by
  induction joins generalizing p with
  | nil => simp
  | cons j rest ih =>
    rw [List.foldl_cons, ih, mem_labels_join, List.map_cons, List.mem_cons, or_assoc]

/-- Joins under known labels change nothing. -/
theorem foldl_join_eq_self {joins : List Join} (h : ∀ j ∈ joins, j.label ∈ p.labels) :
    joins.foldl join p = p := by
  induction joins with
  | nil => rfl
  | cons j rest ih =>
    rcases p.join_cases j with ⟨-, hjoin⟩ | ⟨hnew, -⟩
    · rw [List.foldl_cons, hjoin]
      exact ih fun k hk => h k (List.mem_cons_of_mem _ hk)
    · exact absurd (h j (List.mem_cons_self ..)) hnew

/-- **One join more**, from where the rows offer something. -/
theorem WellScoped.join (hp : p.WellScoped r e)
    (hsource : ∃ d ∈ r.descriptors, d.2.collection = j.source)
    (hpath : p.Offers e (headOf j.localPath)) : (p.join j).WellScoped r e := by
  rcases p.join_cases j with ⟨-, hjoin⟩ | ⟨hnew, hjoin⟩
  · rwa [hjoin]
  · rw [hjoin]
    refine ⟨?_, fun k hk => ?_, fun before k after h => ?_, hp.planned, fun k hk => ?_⟩
    · rw [labels, List.map_append, List.map_singleton, List.nodup_append]
      exact ⟨hp.distinct, List.nodup_singleton _, fun label hlabel _ hj heq =>
        hnew (List.mem_singleton.1 hj ▸ heq ▸ hlabel)⟩
    · rcases List.mem_append.1 hk with hk | hk
      · exact hp.sources k hk
      · exact List.mem_singleton.1 hk ▸ hsource
    · rcases List.eq_nil_or_concat' after with rfl | ⟨init, last, rfl⟩
      · obtain ⟨rfl, hlast⟩ := List.append_inj' h rfl
        cases hlast
        exact hpath
      · rw [← List.cons_append, ← List.append_assoc] at h
        exact hp.paths before k init (List.append_inj' h rfl).1
    · exact (hp.keys k hk).imp_right fun hmem => by
        rw [labels, List.map_append]
        exact List.mem_append_left _ hmem

/-- **Joins that lead on** keep a plan well scoped. -/
theorem WellScoped.foldl_join (hp : p.WellScoped r e) {joins : List Join}
    (h : LeadsOn r (p.Offers e) joins) :
    (joins.foldl Plan.join p).WellScoped r e := by
  induction joins generalizing p with
  | nil => exact hp
  | cons j rest ih =>
    obtain ⟨hsource, hpath, hrest⟩ := h
    refine ih (hp.join hsource hpath) (hrest.mono fun key hkey => ?_)
    unfold Offers at hkey ⊢
    rwa [mem_labels_join, ← or_assoc]

/-- **One condition more**, of what the rows offer. -/
theorem WellScoped.addCondition (hp : p.WellScoped r e) {key : String} (hkey : ¬ IsCombinator key)
    (hoffers : p.Offers e (headOf key)) (condition : Value) :
    (p.addCondition key condition).WellScoped r e := by
  obtain ⟨hplanned, hmem⟩ := planned_addCondition hp.planned hkey condition
  have hjoins := joins_addCondition p key condition
  refine ⟨?_, ?_, ?_, hplanned, fun k hk => ?_⟩
  · rw [labels, hjoins]
    exact hp.distinct
  · rw [hjoins]
    exact hp.sources
  · rw [hjoins]
    exact hp.paths
  · rw [labels, hjoins]
    rcases (hmem k).1 hk with hk | rfl
    · exact hp.keys k hk
    · exact hoffers

end Plan

section Compiling

variable {r : Registry} {e : Entity} {f : FieldDef} {p p' : Plan}

/-- **Asking at a spot** keeps a plan well scoped. -/
theorem Spot.wellScoped_ask {s : Spot} {t : FilterTerm} (hp : p.WellScoped r e)
    (hleads : LeadsOn r e.Keeps s.joins)
    (hkey : e.Keeps (headOf s.key) ∨ headOf s.key ∈ s.joins.map Join.label)
    (hplain : ¬ IsCombinator s.key) (h : s.ask t p = .ok p') : p'.WellScoped r e := by
  obtain ⟨condition, -, h⟩ := bind_eq_ok h
  obtain rfl := Plan.ask_eq h
  have hjoined := hp.foldl_join (hleads.mono fun _ => .inl)
  exact hjoined.addCondition hplain
    (hkey.imp_right fun hmem => (Plan.mem_labels_foldl_join s.joins).2 (.inr hmem)) condition

theorem wellScoped_planTerm {kind : FieldKind} (hf : f ∈ e.fields) (hkind : f.kind = .ok kind)
    (hobject : kind.isObject = true) (haddress : f.IsAddressable) (hp : p.WellScoped r e)
    {t : PathTerm} (h : planTerm r f p t = .ok p') : p'.WellScoped r e := by
  rw [planTerm_eq_spot] at h
  obtain ⟨s, hs, h⟩ := bind_eq_ok h
  obtain ⟨hleads, hkey⟩ := Spot.leads_of_ofPath hf hkind hobject haddress hs
  exact Spot.wellScoped_ask hp hleads hkey (Spot.not_isCombinator_of_ofPath hs) h

theorem wellScoped_foldlM_planTerm {kind : FieldKind} (hf : f ∈ e.fields)
    (hkind : f.kind = .ok kind) (hobject : kind.isObject = true) (haddress : f.IsAddressable)
    (hp : p.WellScoped r e) {terms : List PathTerm} (h : terms.foldlM (planTerm r f) p = .ok p') :
    p'.WellScoped r e := by
  induction terms generalizing p with
  | nil =>
    cases h
    exact hp
  | cons t rest ih =>
    rw [List.foldlM_cons] at h
    obtain ⟨p₁, hp₁, h⟩ := bind_eq_ok h
    exact ih (wellScoped_planTerm hf hkind hobject haddress hp hp₁) h

/-- A filter keeps a plan well scoped. -/
theorem wellScoped_planFilter (hf : f ∈ e.fields) (haddress : f.IsAddressable)
    (hname : ¬ IsCombinator f.name) (hp : p.WellScoped r e) {filter : Filter}
    (h : planFilter r f filter p = .ok p') : p'.WellScoped r e := by
  cases filter with
  | term t =>
    rw [planFilter_term] at h
    obtain ⟨s, hs, h⟩ := bind_eq_ok h
    obtain ⟨kind, hkind, hs⟩ := bind_eq_ok hs
    dsimp only at hs
    split at hs
    · cases hs
    · rename_i hobject
      cases hs
      have hkey : e.Keeps (headOf (Spot.ofField f).key) := by
        change e.Keeps (headOf (dotted [Clause.leafKey f f.name]))
        unfold Clause.leafKey
        split
        · exact .inl (headOf_dotted (by unfold IsSegment; decide) _)
        · rename_i hidentifier
          have hleaf : ∀ {other : FieldKind}, other.isObject = true → f.kind ≠ .ok other := by
            rintro other hother hreference
            cases hkind.symm.trans hreference
            exact hobject hother
          refine .inr ⟨f, hf, ⟨hleaf rfl, fun h => absurd h hidentifier⟩, ?_⟩
          rw [headOf_dotted haddress.name]
          exact FieldDef.documentKey_of_ne (hleaf rfl)
      have hleads : LeadsOn r e.Keeps (Spot.ofField f).joins := trivial
      exact Spot.wellScoped_ask hp hleads (.inl hkey) (Spot.not_isCombinator_leafKey hname) h
  | expression terms =>
    unfold planFilter at h
    obtain ⟨kind, hkind, h⟩ := bind_eq_ok h
    split at h
    · rename_i hobject
      exact wellScoped_foldlM_planTerm hf hkind hobject haddress hp h
    · cases h

/-- **Filters give a well scoped plan.** -/
theorem wellScoped_planFilters (haddress : ∀ f ∈ e.fields, f.IsAddressable)
    {filters : List (String × Filter)} (hnames : ∀ entry ∈ filters, ¬ IsCombinator entry.1)
    (hp : p.WellScoped r e) (h : planFilters r e filters p = .ok p') : p'.WellScoped r e := by
  induction filters generalizing p with
  | nil =>
    cases h
    exact hp
  | cons entry rest ih =>
    obtain ⟨name, filter⟩ := entry
    rw [planFilters] at h
    cases hf : e.field? name with
    | none =>
      rw [hf] at h
      cases h
    | some f =>
      rw [hf] at h
      obtain ⟨p₁, hp₁, h⟩ := bind_eq_ok h
      have hmem : f ∈ e.fields := List.mem_of_find?_eq_some hf
      have hname : f.name = name := by simpa using List.find?_some hf
      refine ih (fun entry hentry => hnames entry (List.mem_cons_of_mem _ hentry)) ?_ h
      exact wellScoped_planFilter hmem (haddress f hmem)
        (hname ▸ hnames _ (List.mem_cons_self ..)) hp hp₁

end Compiling

/-! ## Pipelines -/

/-- **Compiled pipelines are well scoped.** Let the names of an entity's fields, and the keys under
which documents keep them, have no dots, and let no filter go by the name of a combination of
queries. The pipeline of list arguments that ask for something joins, then perhaps selects, and then
either counts, or perhaps sorts and then cuts. Its joins have labels of their own, look in the
collections of entities, and start at what the documents of the entity keep or at the label of a
join before; and every condition, also one that is combined with others, is asked at what the
documents keep or at a label. -/
theorem pipelines_wellScoped {r : Registry} {d : Descriptor} {args : ListArguments}
    (haddress : ∀ f ∈ d.entity.fields, f.IsAddressable)
    (hnames : ∀ entry ∈ args.filters, ¬ IsCombinator entry.1) (hargs : args.isEmpty = false) :
    (∀ limit stages, listPipeline r limit d args = .ok stages →
      ∃ (p : Plan) (order : List Stage) (most : Int) (first : Nat), p.WellScoped r d.entity ∧
        (order = [] ∨ ∃ keys, order = [.sort keys]) ∧
        stages = p.joins.flatMap Join.stages ++
          (if p.query.isEmpty then [] else [.select p.query]) ++ order ++
            [.limit most, .skip first]) ∧
    (∀ stages, countPipeline r d args = .ok stages → ∃ p : Plan, p.WellScoped r d.entity ∧
      stages = p.joins.flatMap Join.stages ++ (if p.query.isEmpty then [] else [.select p.query]) ++
        [.count countField]) := by
  have hscoped : ∀ {p}, planFilters r d.entity args.filters .empty = .ok p →
      p.WellScoped r d.entity :=
    wellScoped_planFilters haddress hnames Plan.wellScoped_empty
  refine ⟨fun limit stages h => ?_, fun stages h => ?_⟩
  · rw [listPipeline_of_not_isEmpty limit (by simp [hargs])] at h
    obtain ⟨p, hp, h⟩ := bind_eq_ok h
    obtain ⟨order, horder, h⟩ := bind_eq_ok h
    cases h
    have hcuts : ∃ most first, cuts limit args.pagination = [.limit most, .skip first] := by
      cases args.pagination <;> exact ⟨_, _, rfl⟩
    obtain ⟨most, first, hcuts⟩ := hcuts
    refine ⟨p, order, most, first, hscoped hp, orderStages_cases horder, ?_⟩
    rw [hcuts]
    rfl
  · rw [countPipeline, hargs] at h
    obtain ⟨p, hp, h⟩ := bind_eq_ok h
    cases h
    exact ⟨p, hscoped hp, rfl⟩

/-- The books by other authors than Bob are listed by a well scoped pipeline. -/
theorem notByBob_wellScoped : ∃ (stages : List Stage) (p : Plan) (order : List Stage) (most : Int)
    (first : Nat), listPipeline shelf standardLimit bookDescriptor notByBob = .ok stages ∧
    p.WellScoped shelf bookDescriptor.entity ∧ (order = [] ∨ ∃ keys, order = [.sort keys]) ∧
    stages = p.joins.flatMap Join.stages ++
      (if p.query.isEmpty then [] else [.select p.query]) ++ order ++
        [.limit most, .skip first] := by
  obtain ⟨stages, hstages⟩ : ∃ stages, listPipeline shelf standardLimit bookDescriptor notByBob =
    .ok stages := ⟨_, rfl⟩
  have haddress : ∀ f ∈ bookDescriptor.entity.fields, f.IsAddressable := by
    intro f hf
    simp only [bookDescriptor, List.mem_cons, List.not_mem_nil, or_false] at hf
    rcases hf with rfl | rfl <;> exact ⟨by unfold IsSegment; decide, by unfold IsSegment; decide⟩
  have hnames : ∀ entry ∈ notByBob.filters, ¬ IsCombinator entry.1 := fun entry hentry => by
    obtain rfl := List.mem_singleton.1 hentry
    unfold IsCombinator
    decide
  obtain ⟨p, order, most, first, hp, horder, heq⟩ :=
    (pipelines_wellScoped haddress hnames rfl).1 _ _ hstages
  exact ⟨stages, p, order, most, first, hstages, hp, horder, heq⟩

/-- Scrolls have a field that goes by the name of a combination, and a copyist who is kept under a
key with a dot. -/
def scrollDescriptor : Descriptor :=
  ⟨⟨"Scroll", [⟨"$and", .scalar .string, false, true, false, false, none, .null⟩,
    ⟨"copyist", .entity "Author", false, true, false, false, some ⟨false, "hand.writer", .null⟩,
    .null⟩], .null, by decide⟩, "scrolls", some "scroll", some "scrolls", none, true, none, []⟩

/-- The registry of scrolls and authors. -/
def archive : Registry := ⟨[("Scroll", scrollDescriptor), ("Author", authorDescriptor)], [], true⟩

/-- **Out of scope.** Under the name of a combination the list that a client asks for is selected by
as it is, and so by a key that the documents do not keep. And a key with a dot is no key to begin a
path with. -/
theorem ghost_out_of_scope :
    (listPipeline archive standardLimit scrollDescriptor
        ⟨[("$and", .term ⟨none, .list [.object [("ghost", .int 1)]]⟩)], none, none⟩ =
      .ok [.select [("$and", .list [.object [("ghost", .int 1)]])], .limit 100, .skip 0] ∧
      ¬ scrollDescriptor.entity.Keeps (headOf "ghost")) ∧
    (listPipeline archive standardLimit scrollDescriptor
        ⟨[("copyist", .expression [⟨⟨none, .text "Ada"⟩, "name"⟩])], none, none⟩ =
      .ok [.lookup "authors" "_id" "hand.writer" "copyist", .unwind "copyist",
        .select [("copyist.name", .text "Ada")], .limit 100, .skip 0] ∧
      ¬ scrollDescriptor.entity.Keeps (headOf "hand.writer")) :=
  ⟨⟨rfl, fun h => absurd h.mem (by decide)⟩, rfl, fun h => absurd h.mem (by decide)⟩

end EntityGraph
