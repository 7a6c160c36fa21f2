import EntityGraph.Proofs.Listing

/-!
# Sorting by several keys

A `$sort` clause lists keys with directions. The stage sorts by one key after the other, the last
one first, and every such sort keeps the order of documents that are equal at its key. So the first
key decides, and each later key decides among documents that all keys before it leave tied
(`runStage_sort`). The value of a document at a key is the first one that its path addresses, in the
order of the items that the path goes through, or null (`KeyValue`).

The relation by which a single sort compares need not be an order: values of different types have
none. It is enough that it is a total preorder on the values at hand (`OrderedOn`), as sorting
compares nothing else (`mergeSort_extended`). What carries the induction over the keys is that a
sort does not only keep tied documents in their places, but has not moved any that it leaves tied
(`pair_sublist_of_tied`).
-/

namespace EntityGraph

/-! ## The value at a key -/

/-- **Addressed values.** A path leads through objects to their entries, and through lists to the
entries of the objects among their items. The places are the positions of these items. -/
inductive Addresses : List String → Value → List Nat → Value → Prop
  | here (v : Value) : Addresses [] v [] v
  | entry {s : String} {rest : List String} {fs : Document} {w u : Value} {places : List Nat} :
    Record.get? fs s = some w → Addresses rest w places u →
    Addresses (s :: rest) (.object fs) places u
  | item {s : String} {rest : List String} {items : List Value} {i : Nat} {fs : Document}
    {u : Value} {places : List Nat} : items[i]? = some (.object fs) →
    Addresses (s :: rest) (.object fs) places u →
    Addresses (s :: rest) (.list items) (i :: places) u

/-- Do the first places come before the second, or are they the same? -/
def Before : List Nat → List Nat → Prop
  | [], _ => True
  | _ :: _, [] => False
  | i :: is, j :: js => i < j ∨ i = j ∧ Before is js

/-- **The value at a key** of a document: the first one that the path addresses, or null when it
addresses none. -/
def KeyValue (path : String) (d : Document) (v : Value) : Prop :=
  ∃ names, names ≠ [] ∧ (∀ s ∈ names, IsSegment s) ∧ Text.join "." names = path ∧
    ((∃ places, Addresses names (.object d) places v ∧
        ∀ places' v', Addresses names (.object d) places' v' → Before places places') ∨
      v = .null ∧ ∀ places v', ¬ Addresses names (.object d) places v')

theorem Before.antisymm {is js : List Nat} (h : Before is js) (h' : Before js is) : is = js := by
  induction is generalizing js with
  | nil =>
    cases js with
    | nil => rfl
    | cons j js => exact h'.elim
  | cons i is ih =>
    cases js with
    | nil => exact h.elim
    | cons j js =>
      unfold Before at h h'
      obtain rfl : i = j := by omega
      rw [ih (h.resolve_left (lt_irrefl i)).2 (h'.resolve_left (lt_irrefl i)).2]

/-- Places tell the value. -/
theorem Addresses.unique {names : List String} {v u u' : Value} {places : List Nat}
    (h : Addresses names v places u) (h' : Addresses names v places u') : u = u' := by
  induction h with
  | here =>
    cases h'
    rfl
  | entry hw _ ih =>
    cases h' with
    | entry hw' h' =>
      cases hw.symm.trans hw'
      exact ih h'
  | item hi _ ih =>
    cases h' with
    | item hi' h' =>
      cases hi.symm.trans hi'
      exact ih h'

theorem resolveSegments_append (names : List String) (vs ws : List Value) :
    resolveSegments names (vs ++ ws) = resolveSegments names vs ++ resolveSegments names ws := by
  induction names generalizing vs ws with
  | nil => rfl
  | cons s rest ih =>
    rw [resolveSegments, resolveSegments, resolveSegments, List.flatMap_append, ih]

/-- A list of values whose first one is the first that a path addresses. -/
structure LeadsWithFirst (names : List String) (v : Value) (us : List Value) : Prop where
  first : ∀ u, us.head? = some u → ∃ places, Addresses names v places u ∧
    ∀ places' u', Addresses names v places' u' → Before places places'
  nowhere : us = [] → ∀ places u, ¬ Addresses names v places u

namespace LeadsWithFirst

variable {s : String} {rest : List String}

theorem of_nowhere {names : List String} {v : Value}
    (h : ∀ places u, ¬ Addresses names v places u) :
    LeadsWithFirst names v [] where
  first u hu := by cases hu
  nowhere _ := h

/-- A missing entry leads nowhere. -/
theorem missing {fs : Document} (h : Record.get? fs s = none) :
    LeadsWithFirst (s :: rest) (.object fs) [] := .of_nowhere fun places u hu => by
  cases hu with
  | entry hw _ => cases h.symm.trans hw

/-- An entry leads on. -/
theorem entry {fs : Document} {w : Value} {us : List Value} (hw : Record.get? fs s = some w)
    (h : LeadsWithFirst rest w us) : LeadsWithFirst (s :: rest) (.object fs) us where
  first u hu := by
    obtain ⟨places, hplaces, hfirst⟩ := h.first u hu
    refine ⟨places, .entry hw hplaces, fun places' u' hu' => ?_⟩
    cases hu' with
    | entry hw' hu' =>
      cases hw.symm.trans hw'
      exact hfirst places' u' hu'
  nowhere hus places u hu := by
    cases hu with
    | entry hw' hu =>
      cases hw.symm.trans hw'
      exact h.nowhere hus places u hu

/-- In a list, the values of the first item come first. -/
theorem cons {v : Value} {vs us ws : List Value}
    (h : ∀ fs, v = .object fs → LeadsWithFirst (s :: rest) (.object fs) us)
    (hnone : (∀ fs, v ≠ .object fs) → us = []) (hws : LeadsWithFirst (s :: rest) (.list vs) ws) :
    LeadsWithFirst (s :: rest) (.list (v :: vs)) (us ++ ws) where
  first u hu := by
    cases us with
    | nil =>
      obtain ⟨_, hplaces, hfirst⟩ := hws.first u hu
      cases hplaces with
      | @item _ _ _ i _ _ inner hi hinner =>
        refine ⟨(i + 1) :: inner, .item hi hinner, fun places' u' hu' => ?_⟩
        cases hu' with
        | @item _ _ _ j _ _ inner' hj hu' =>
          cases j with
          | zero => exact absurd hu' ((h _ (Option.some.inj hj)).nowhere rfl _ _)
          | succ j =>
            have hbefore := hfirst (j :: inner') u' (.item hj hu')
            unfold Before at hbefore ⊢
            exact hbefore.imp Nat.succ_lt_succ fun heq => ⟨congrArg _ heq.1, heq.2⟩
    | cons a us =>
      obtain ⟨fs, rfl⟩ : ∃ fs, v = .object fs := by
        by_contra hno
        exact absurd (hnone fun fs hfs => hno ⟨fs, hfs⟩) (List.cons_ne_nil a us)
      obtain ⟨places, hplaces, hfirst⟩ := (h fs rfl).first u hu
      refine ⟨0 :: places, .item rfl hplaces, fun places' u' hu' => ?_⟩
      cases hu' with
      | @item _ _ _ j _ _ inner' hj hu' =>
        cases j with
        | zero =>
          cases hj
          exact .inr ⟨rfl, hfirst inner' u' hu'⟩
        | succ j => exact .inl (Nat.succ_pos j)
  nowhere hnil places u hu := by
    obtain ⟨hus, hws'⟩ := List.append_eq_nil_iff.1 hnil
    cases hu with
    | @item _ _ _ i _ _ inner hi hu =>
      cases i with
      | zero => exact (h _ (Option.some.inj hi)).nowhere hus _ _ hu
      | succ i => exact hws.nowhere hws' (i :: inner) u (.item hi hu)

end LeadsWithFirst

/-- **Paths lead with the first value** that they address. -/
theorem leadsWithFirst_resolveSegments (names : List String) (v : Value) :
    LeadsWithFirst names v (resolveSegments names [v]) := by
  induction names generalizing v with
  | nil =>
    refine ⟨fun u hu => ?_, fun h => absurd h (List.cons_ne_nil v [])⟩
    cases hu
    exact ⟨[], .here v, fun _ _ _ => trivial⟩
  | cons s rest ih =>
    rw [resolveSegments, List.flatMap_singleton]
    have hobject : ∀ fs, LeadsWithFirst (s :: rest) (.object fs)
        (resolveSegments rest (Record.get? fs s).toList) := by
      intro fs
      cases hw : Record.get? fs s with
      | none =>
        rw [Option.toList_none, resolveSegments_nil]
        exact .missing hw
      | some w => exact .entry hw (ih w)
    cases v with
    | object fs => exact hobject fs
    | list items =>
      change LeadsWithFirst _ _ (resolveSegments rest (items.filterMap (fieldOf? s)))
      induction items with
      | nil =>
        rw [List.filterMap_nil, resolveSegments_nil]
        refine .of_nowhere fun places u hu => ?_
        cases hu with
        | item hi _ => cases hi
      | cons v vs ihvs =>
        have hsplit : (v :: vs).filterMap (fieldOf? s) =
            (fieldOf? s v).toList ++ vs.filterMap (fieldOf? s) := by
          cases h : fieldOf? s v <;> simp [h]
        rw [hsplit, resolveSegments_append]
        refine .cons (fun fs hfs => ?_) (fun hno => ?_) ihvs
        · rw [hfs]
          exact hobject fs
        · cases v with
          | object fs => exact absurd rfl (hno fs)
          | _ => exact resolveSegments_nil rest
    | _ =>
      change LeadsWithFirst _ _ (resolveSegments rest [])
      rw [resolveSegments_nil]
      exact .of_nowhere fun places u hu => by cases hu

/-- **The key of a document** for a sort is the value at the key, and the only one. -/
theorem keyValue_iff {path : String} {d : Document} {v : Value} :
    KeyValue path d v ↔ v = sortValue path d := by
  have hleads := leadsWithFirst_resolveSegments (Text.segments path) (.object d)
  have hvalue : sortValue path d = (resolveSegments (Text.segments path) [.object d]).headD .null :=
    rfl
  constructor
  · rintro ⟨names, hne, hnames, rfl, hv⟩
    rw [show Text.segments (Text.join "." names) = names from
      segments_dotted_of_isSegment hne hnames] at hleads hvalue
    rw [hvalue]
    cases hus : resolveSegments names [.object d] with
    | nil =>
      rw [hus] at hleads
      obtain ⟨places, hplaces, -⟩ | ⟨rfl, -⟩ := hv
      · exact absurd hplaces (hleads.nowhere rfl _ _)
      · rfl
    | cons u us =>
      rw [hus] at hleads
      obtain ⟨places, hplaces, hfirst⟩ := hleads.first u rfl
      obtain ⟨places', hplaces', hfirst'⟩ | ⟨-, hnone⟩ := hv
      · obtain rfl := (hfirst places' v hplaces').antisymm (hfirst' places u hplaces)
        exact hplaces'.unique hplaces
      · exact absurd hplaces (hnone _ _)
  · rintro rfl
    refine ⟨Text.segments path, segments_ne_nil path, fun s hs => Text.isSegment_of_mem_segments hs,
      Text.join_split '.' path, ?_⟩
    rw [hvalue]
    cases hus : resolveSegments (Text.segments path) [.object d] with
    | nil =>
      rw [hus] at hleads
      exact .inr ⟨rfl, hleads.nowhere rfl⟩
    | cons u us =>
      rw [hus] at hleads
      exact .inl (hleads.first u rfl)

/-! ## Preorders on members -/

/-- **Total preorders** on the members of a list. -/
structure OrderedOn {α : Type} (le : α → α → Prop) (xs : List α) : Prop where
  total : ∀ a ∈ xs, ∀ b ∈ xs, le a b ∨ le b a
  trans : ∀ a ∈ xs, ∀ b ∈ xs, ∀ c ∈ xs, le a b → le b c → le a c

/-! ## One sort -/

section OneSort

variable {α : Type} {le : α → α → Prop} {test : α → α → Bool} {xs : List α}

theorem OrderedOn.perm {ys : List α} (h : OrderedOn le xs) (hperm : ys.Perm xs) :
    OrderedOn le ys where
  total _ ha _ hb := h.total _ (hperm.mem_iff.1 ha) _ (hperm.mem_iff.1 hb)
  trans _ ha _ hb _ hc :=
    h.trans _ (hperm.mem_iff.1 ha) _ (hperm.mem_iff.1 hb) _ (hperm.mem_iff.1 hc)

/-- What is compared by images is ordered as they are. -/
theorem OrderedOn.comap {β : Type} {f : β → α} {ys : List β} (h : OrderedOn le (ys.map f)) :
    OrderedOn (fun a b => le (f a) (f b)) ys where
  total _ ha _ hb := h.total _ (List.mem_map_of_mem ha) _ (List.mem_map_of_mem hb)
  trans _ ha _ hb _ hc :=
    h.trans _ (List.mem_map_of_mem ha) _ (List.mem_map_of_mem hb) _ (List.mem_map_of_mem hc)

theorem OrderedOn.swap (h : OrderedOn le xs) : OrderedOn (fun a b => le b a) xs where
  total a ha b hb := h.total b hb a ha
  trans a ha b hb c hc hab hbc := h.trans c hc b hb a ha hbc hab

open Classical in
/-- The preorder of the members, with everything else above them. -/
noncomputable def extended (le : α → α → Prop) (xs : List α) (a b : α) : Bool :=
  decide (b ∉ xs ∨ a ∈ xs ∧ le a b)

open Classical in
theorem extended_iff {a b : α} : extended le xs a b = true ↔ b ∉ xs ∨ a ∈ xs ∧ le a b := by
  rw [extended, decide_eq_true_iff]

theorem extended_trans (h : OrderedOn le xs) (a b c : α) (hab : extended le xs a b = true)
    (hbc : extended le xs b c = true) : extended le xs a c = true := by
  rw [extended_iff] at *
  by_cases hc : c ∈ xs
  · obtain ⟨hb, hbc⟩ := hbc.resolve_left (not_not_intro hc)
    obtain ⟨ha, hab⟩ := hab.resolve_left (not_not_intro hb)
    exact .inr ⟨ha, h.trans a ha b hb c hc hab hbc⟩
  · exact .inl hc

theorem extended_total (h : OrderedOn le xs) (a b : α) :
    (extended le xs a b || extended le xs b a) = true := by
  rw [Bool.or_eq_true, extended_iff, extended_iff]
  by_cases ha : a ∈ xs
  · by_cases hb : b ∈ xs
    · exact (h.total a ha b hb).imp (fun hab => .inr ⟨ha, hab⟩) fun hba => .inr ⟨hb, hba⟩
    · exact .inl (.inl hb)
  · exact .inr (.inl ha)

/-- Sorting compares members only. -/
theorem mergeSort_extended (htest : ∀ a ∈ xs, ∀ b ∈ xs, (test a b = true ↔ le a b)) :
    xs.mergeSort test = xs.mergeSort (extended le xs) := by
  have hsame : ∀ a ∈ xs, ∀ b ∈ xs, test a b = extended le xs (id a) (id b) := fun a ha b hb => by
    rw [Bool.eq_iff_iff, htest a ha b hb, extended_iff]
    exact ⟨fun hab => .inr ⟨ha, hab⟩, fun hab => (hab.resolve_left (not_not_intro hb)).2⟩
  have hmap := List.map_mergeSort hsame
  rwa [List.map_id, List.map_id] at hmap

/-- Sorting puts the members in order. -/
theorem pairwise_mergeSort (h : OrderedOn le xs)
    (htest : ∀ a ∈ xs, ∀ b ∈ xs, (test a b = true ↔ le a b)) :
    (xs.mergeSort test).Pairwise le := by
  rw [mergeSort_extended htest]
  refine (List.pairwise_mergeSort (extended_trans h) (extended_total h) xs).imp_of_mem
    fun {a b} _ hb hab => ?_
  exact ((extended_iff.1 hab).resolve_left (not_not_intro (List.mem_mergeSort.1 hb))).2

/-- Sorting keeps the places of members that are in order. -/
theorem sublist_mergeSort (h : OrderedOn le xs)
    (htest : ∀ a ∈ xs, ∀ b ∈ xs, (test a b = true ↔ le a b)) {picks : List α}
    (hpicks : picks.Sublist xs) (hle : picks.Pairwise le) : picks.Sublist (xs.mergeSort test) := by
  rw [mergeSort_extended htest]
  refine List.sublist_mergeSort (extended_trans h) (extended_total h) ?_ hpicks
  exact hle.imp_of_mem fun ha _ hab => extended_iff.2 (.inr ⟨hpicks.subset ha, hab⟩)

open Classical in
/-- **Ties come from the input**: what stands in some order after sorting and is tied stood in that
order before. All that is tied with an entry keeps its places, and there is as much of it after
sorting as before. -/
theorem pair_sublist_of_tied (h : OrderedOn le xs)
    (htest : ∀ a ∈ xs, ∀ b ∈ xs, (test a b = true ↔ le a b)) {a b : α}
    (hpair : [a, b].Sublist (xs.mergeSort test)) (hab : le a b) (hba : le b a) :
    [a, b].Sublist xs := by
  have ha : a ∈ xs := List.mem_mergeSort.1 (hpair.subset (List.mem_cons_self ..))
  have haa : le a a := (h.total a ha a ha).elim id id
  let tied : α → Bool := fun x => decide (le a x ∧ le x a)
  have hkept : (xs.filter tied).Sublist ((xs.mergeSort test).filter tied) := by
    have hle : (xs.filter tied).Pairwise le := List.pairwise_of_forall_mem_list fun x hx y hy => by
      obtain ⟨hx, htx⟩ := List.mem_filter.1 hx
      obtain ⟨hy, hty⟩ := List.mem_filter.1 hy
      exact h.trans x hx a ha y hy (of_decide_eq_true htx).2 (of_decide_eq_true hty).1
    have hsub := (sublist_mergeSort h htest List.filter_sublist hle).filter tied
    rwa [List.filter_filter, funext fun x => Bool.and_self (tied x)] at hsub
  have heq : xs.filter tied = (xs.mergeSort test).filter tied :=
    hkept.eq_of_length ((List.mergeSort_perm xs test).filter tied).length_eq.symm
  have hta : tied a = true := decide_eq_true ⟨haa, haa⟩
  have htb : tied b = true := decide_eq_true ⟨hab, hba⟩
  have hfiltered := hpair.filter tied
  rw [List.filter_cons_of_pos hta, List.filter_cons_of_pos htb, List.filter_nil, ← heq] at hfiltered
  exact hfiltered.trans List.filter_sublist

end OneSort

/-! ## One key -/

/-- **Comparable values**: a total preorder on them that `==` and `<` agree with. -/
structure Comparable (le : Value → Value → Prop)
    (values : List Value) : Prop extends OrderedOn le values where
  equal : ∀ a ∈ values, ∀ b ∈ values, a.eq b = true → le a b ∧ le b a
  below : ∀ a ∈ values, ∀ b ∈ values, a.eq b = false → ∃ below, a.lt? b = some below ∧
    (below = true ↔ ¬ le b a)

theorem Comparable.mono {le : Value → Value → Prop} {values values' : List Value}
    (h : Comparable le values) (hsub : ∀ v ∈ values', v ∈ values) : Comparable le values' where
  total a ha b hb := h.total a (hsub a ha) b (hsub b hb)
  trans a ha b hb c hc := h.trans a (hsub a ha) b (hsub b hb) c (hsub c hc)
  equal a ha b hb := h.equal a (hsub a ha) b (hsub b hb)
  below a ha b hb := h.below a (hsub a ha) b (hsub b hb)

/-- An order of values that puts null first. -/
def NullsFirst (le : Value → Value → Prop) (a b : Value) : Prop := a = .null ∨ b ≠ .null ∧ le a b

/-- May the first value come before the second? Null comes first in ascending order, and last in
descending order. -/
def ComesBefore (le : Value → Value → Prop) (descending : Bool) (a b : Value) : Prop :=
  if descending then NullsFirst le b a else NullsFirst le a b

section OneKey

variable {le : Value → Value → Prop} {values : List Value}

theorem isNull_eq_false_iff {v : Value} : v.isNull = false ↔ v ≠ .null := by
  cases v <;> simp [Value.isNull]

theorem mem_filter_isNull {v : Value} (hv : v ∈ values) (hnull : v ≠ .null) :
    v ∈ values.filter fun v => !v.isNull :=
  List.mem_filter.2 ⟨hv, congrArg not (isNull_eq_false_iff.2 hnull)⟩

theorem nullsFirst_orderedOn (h : OrderedOn le (values.filter fun v => !v.isNull)) :
    OrderedOn (NullsFirst le) values := by
  constructor
  · intro a ha b hb
    by_cases hna : a = .null
    · exact .inl (.inl hna)
    by_cases hnb : b = .null
    · exact .inr (.inl hnb)
    exact (h.total a (mem_filter_isNull ha hna) b (mem_filter_isNull hb hnb)).imp (fun hab =>
      .inr ⟨hnb, hab⟩) fun hba => .inr ⟨hna, hba⟩
  · rintro a ha b hb c hc (hna | ⟨hnb, hab⟩) hbc
    · exact .inl hna
    obtain ⟨hnc, hbc⟩ := hbc.resolve_left hnb
    by_cases hna : a = .null
    · exact .inl hna
    · exact .inr ⟨hnc, h.trans a (mem_filter_isNull ha hna) b (mem_filter_isNull hb hnb) c
        (mem_filter_isNull hc hnc) hab hbc⟩

theorem comesBefore_orderedOn (descending : Bool)
    (h : OrderedOn le (values.filter fun v => !v.isNull)) :
    OrderedOn (ComesBefore le descending) values := by
  have hnulls := nullsFirst_orderedOn h
  cases descending with
  | false => exact hnulls
  | true => exact hnulls.swap

/-- Comparing two values says whether the second must stand behind the first. -/
theorem sortsBefore?_eq_some (h : Comparable le (values.filter fun v => !v.isNull)) {a b : Value}
    (ha : a ∈ values) (hb : b ∈ values) :
    ∃ before, sortsBefore? a b = some before ∧ (before = true ↔ ¬ NullsFirst le b a) := by
  unfold sortsBefore? NullsFirst
  rcases hna : a.isNull with _ | _ <;> rcases hnb : b.isNull with _ | _
  · rw [isNull_eq_false_iff] at hna hnb
    have ha := mem_filter_isNull ha hna
    have hb := mem_filter_isNull hb hnb
    rw [or_iff_right hnb, and_iff_right hna]
    rcases heq : a.eq b with _ | _
    · exact h.below a ha b hb heq
    · exact ⟨false, rfl, fun hf => absurd hf Bool.false_ne_true, fun hle =>
        absurd (h.equal a ha b hb heq).2 hle⟩
  all_goals
    cases a <;> cases b <;> simp_all [Value.isNull]

/-- The test by which a sort compares. -/
theorem inOrder_iff (h : Comparable le (values.filter fun v => !v.isNull)) {a b : Value}
    (ha : a ∈ values) (hb : b ∈ values) : inOrder a b = true ↔ NullsFirst le a b := by
  obtain ⟨before, hbefore, hiff⟩ := sortsBefore?_eq_some h hb ha
  unfold inOrder
  rw [hbefore, Option.getD_some, Bool.not_eq_true', ← Bool.not_eq_true, hiff, not_not]

/-- Comparable values can be sorted. -/
theorem sortable_of_comparable (h : Comparable le (values.filter fun v => !v.isNull))
    {chosen : List Value} (hsub : ∀ v ∈ chosen, v ∈ values) : sortable chosen = true := by
  induction chosen with
  | nil => rfl
  | cons a rest ih =>
    rw [sortable, Bool.and_eq_true, List.all_eq_true]
    refine ⟨fun b hb => ?_, ih fun v hv => hsub v (List.mem_cons_of_mem _ hv)⟩
    have ha := hsub a (List.mem_cons_self ..)
    have hb := hsub b (List.mem_cons_of_mem _ hb)
    obtain ⟨_, hab, -⟩ := sortsBefore?_eq_some h ha hb
    obtain ⟨_, hba, -⟩ := sortsBefore?_eq_some h hb ha
    rw [hab, hba]
    rfl

end OneKey

/-- Texts in the order of their characters. -/
def TextLe (a b : Value) : Prop := ∃ s t, a = .text s ∧ b = .text t ∧ s ≤ t

/-- Texts are comparable. -/
theorem comparable_texts {values : List Value} (h : ∀ v ∈ values, ∃ s, v = .text s) :
    Comparable TextLe values where
  total a ha b hb := by
    obtain ⟨s, rfl⟩ := h a ha
    obtain ⟨t, rfl⟩ := h b hb
    exact (String.le_total s t).imp (fun hst => ⟨s, t, rfl, rfl, hst⟩) fun hts =>
      ⟨t, s, rfl, rfl, hts⟩
  trans := by
    rintro _ - _ - _ - ⟨s, t, rfl, rfl, hst⟩ ⟨t', u, heq, rfl, htu⟩
    obtain rfl := Value.text.inj heq
    exact ⟨s, u, rfl, rfl, String.le_trans hst htu⟩
  equal a ha b hb heq := by
    obtain ⟨s, rfl⟩ := h a ha
    obtain ⟨t, rfl⟩ := h b hb
    rw [Value.eq, beq_iff_eq] at heq
    obtain rfl := heq
    exact ⟨⟨s, s, rfl, rfl, String.le_refl s⟩, s, s, rfl, rfl, String.le_refl s⟩
  below a ha b hb _ := by
    obtain ⟨s, rfl⟩ := h a ha
    obtain ⟨t, rfl⟩ := h b hb
    refine ⟨decide (s < t), rfl, ?_⟩
    rw [decide_eq_true_iff, ← String.not_le]
    refine not_congr ⟨fun hts => ⟨t, s, rfl, rfl, hts⟩, ?_⟩
    rintro ⟨t', s', ht, hs, hle⟩
    obtain rfl := Value.text.inj ht
    obtain rfl := Value.text.inj hs
    exact hle

/-! ## Sorting by one key -/

/-- The values by which a sort compares documents at a key, other than null. -/
def sortedValues (key : String) (docs : List Document) : List Value :=
  (docs.map (sortValue key)).filter fun v => !v.isNull

/-- **Sorting by one key** is merge sort by the order of the values at that key. -/
theorem sortByPath_eq_ok {le : Value → Value → Prop} {path : String} {docs : List Document}
    (descending : Bool) (h : Comparable le (sortedValues path docs)) :
    ∃ test, sortByPath path descending docs = .ok (docs.mergeSort test) ∧ ∀ d ∈ docs, ∀ e ∈ docs,
      (test d e = true ↔ ComesBefore le descending (sortValue path d) (sortValue path e)) := by
  unfold sortByPath
  rw [if_pos (sortable_of_comparable h fun _ hv => hv)]
  refine ⟨_, rfl, fun d hd e he => ?_⟩
  have hd := List.mem_map_of_mem (f := sortValue path) hd
  have he := List.mem_map_of_mem (f := sortValue path) he
  unfold ComesBefore
  split
  · exact inOrder_iff h he hd
  · exact inOrder_iff h hd he

/-! ## All keys -/

/-- **At a key**: may the first document come before the second? Only the direction `-1` is
descending. -/
def AtKey (le : String → Value → Value → Prop) (key : String × Value) (d e : Document) : Prop :=
  ∃ v w, KeyValue key.1 d v ∧ KeyValue key.1 e w ∧ ComesBefore (le key.1) (key.2.eq (.int (-1))) v w

/-- **Lexicographic order**: the first key decides, and what it leaves tied is left to the keys
after it. -/
def ByKeys (le : String → Value → Value → Prop) : List (String × Value) → Document → Document → Prop
  | [], _, _ => True
  | key :: rest, d, e => AtKey le key d e ∧ (AtKey le key e d → ByKeys le rest d e)

/-- Documents that are equal on all keys. -/
def Tied (le : String → Value → Value → Prop) (clause : List (String × Value))
    (d e : Document) : Prop :=
  ∀ key ∈ clause, AtKey le key d e ∧ AtKey le key e d

/-- **Comparable at a key**: any values that documents have there, other than null, are
comparable. -/
def ComparableAt (le : Value → Value → Prop) (key : String) (docs : List Document) : Prop :=
  ∀ values : List Value, (∀ v ∈ values, v ≠ .null ∧ ∃ d ∈ docs, KeyValue key d v) →
    Comparable le values

section AllKeys

variable {le : String → Value → Value → Prop} {docs : List Document}

/-- A sort compares the values at its key. -/
theorem atKey_iff {key : String × Value} {d e : Document} : AtKey le key d e ↔
    ComesBefore (le key.1) (isDescending key.2) (sortValue key.1 d) (sortValue key.1 e) := by
  constructor
  · rintro ⟨v, w, hv, hw, hle⟩
    rwa [keyValue_iff.1 hv, keyValue_iff.1 hw] at hle
  · exact fun hle => ⟨_, _, keyValue_iff.2 rfl, keyValue_iff.2 rfl, hle⟩

theorem ComparableAt.sortedValues {key : String} {docs' : List Document}
    (h : ComparableAt (le key) key docs) (hsub : ∀ d ∈ docs', d ∈ docs) :
    Comparable (le key) (sortedValues key docs') := by
  refine h _ fun v hv => ?_
  obtain ⟨hv, hnull⟩ := List.mem_filter.1 hv
  obtain ⟨d, hd, rfl⟩ := List.mem_map.1 hv
  exact ⟨isNull_eq_false_iff.1 (by simpa using hnull), d, hsub d hd, keyValue_iff.2 rfl⟩

theorem atKey_orderedOn {key : String × Value}
    (h : OrderedOn (le key.1) (sortedValues key.1 docs)) :
    OrderedOn (AtKey le key) docs := by
  have hordered := (comesBefore_orderedOn (isDescending key.2) h).comap
  constructor
  · intro d hd e he
    rw [atKey_iff, atKey_iff]
    exact hordered.total d hd e he
  · intro d hd e he f hf
    rw [atKey_iff, atKey_iff, atKey_iff]
    exact hordered.trans d hd e he f hf

/-- **Sorting by several keys** is a stable lexicographic sort. Let the values other than null at
each key be comparable by a total preorder. Then the stage succeeds; its result is a rearrangement
of the documents in the lexicographic order of the keys, and any documents that are equal on all
keys stay in the order in which they came. -/
theorem runStage_sort (view : Collections) {clause : List (String × Value)}
    (hkeys : ∀ key ∈ clause, ComparableAt (le key.1) key.1 docs) :
    ∃ sorted, runStage view "$sort" (.object clause) docs = .ok sorted ∧ sorted.Perm docs ∧
      sorted.Pairwise (ByKeys le clause) ∧
      ∀ picks : List Document, picks.Sublist docs → picks.Pairwise (Tied le clause) →
        picks.Sublist sorted := by
  change ∃ sorted, sortByKeys clause docs = .ok sorted ∧ _
  induction clause with
  | nil =>
    exact ⟨docs, rfl, .refl _, List.pairwise_of_forall fun _ _ => trivial, fun _ hpicks _ => hpicks⟩
  | cons key rest ih =>
    obtain ⟨inner, hinner, hperm, hsorted, hstable⟩ :=
      ih fun k hk => hkeys k (List.mem_cons_of_mem _ hk)
    have hkey := (hkeys key (List.mem_cons_self ..)).sortedValues fun _ => hperm.mem_iff.1
    have hordered : OrderedOn (AtKey le key) inner := atKey_orderedOn hkey.toOrderedOn
    obtain ⟨test, hsort, htest⟩ := sortByPath_eq_ok (isDescending key.2) hkey
    have htest : ∀ d ∈ inner, ∀ e ∈ inner, (test d e = true ↔ AtKey le key d e) := by
      intro d hd e he
      rw [htest d hd e he, atKey_iff]
    refine ⟨inner.mergeSort test, ?_, (List.mergeSort_perm _ _).trans hperm, ?_,
      fun picks hpicks htied => ?_⟩
    · rw [sortByKeys, hinner]
      exact hsort
    · rw [List.pairwise_iff_forall_sublist]
      intro d e hde
      have hle := List.pairwise_iff_forall_sublist.1 (pairwise_mergeSort hordered htest) hde
      refine ⟨hle, fun hback => ?_⟩
      exact List.pairwise_iff_forall_sublist.1 hsorted
        (pair_sublist_of_tied hordered htest hde hle hback)
    · have hrest := hstable picks hpicks (htied.imp fun h k hk => h k (List.mem_cons_of_mem _ hk))
      exact sublist_mergeSort hordered htest hrest (htied.imp fun h =>
        (h key (List.mem_cons_self ..)).1)

end AllKeys

/-- A task that is nobody's. -/
def washing : Document := [("title", .text "wash")]

/-- Two tasks of one person. -/
def painting : Document := [("owner", .text "Ann"), ("title", .text "paint")]

def building : Document := [("owner", .text "Ann"), ("title", .text "build")]

/-- By owner backwards, and then by title. -/
def taskOrder : List (String × Value) := [("owner", .int (-1)), ("title", .int 1)]

/-- Sorting three documents of which each is to come behind the next. -/
theorem mergeSort_backwards {α : Type} {test : α → α → Bool} {a b c : α} (hab : test a b = false)
    (hbc : test b c = false) : [a, b, c].mergeSort test = [c, b, a] := by
  simp [List.mergeSort, List.MergeSort.Internal.splitInTwo, hab, hbc]

/-- Sorting three documents of which each may come before those after it. -/
theorem mergeSort_forwards {α : Type} {test : α → α → Bool} {a b c : α} (hab : test a b = true)
    (hac : test a c = true) (hbc : test b c = true) : [a, b, c].mergeSort test = [a, b, c] := by
  simp [List.mergeSort, List.MergeSort.Internal.splitInTwo, hab, hac, hbc]

/-- Three tasks, sorted: the one without an owner comes last, and the titles decide among the
others. -/
theorem runStage_sort_tasks :
    runStage [] "$sort" (.object taskOrder)
    [washing, painting, building] = .ok [building, painting, washing] ∧
      [building, painting, washing].Pairwise (ByKeys (fun _ => TextLe) taskOrder) := by
  have hkeys : ∀ key ∈ taskOrder, ComparableAt TextLe key.1 [washing, painting, building] := by
    intro key hkey values hvalues
    refine comparable_texts fun v hv => ?_
    obtain ⟨hnull, d, hd, hvalue⟩ := hvalues v hv
    obtain rfl := keyValue_iff.1 hvalue
    simp only [taskOrder, List.mem_cons, List.not_mem_nil, or_false] at hkey hd
    rcases hkey with rfl | rfl <;> rcases hd with rfl | rfl | rfl
    · exact absurd rfl hnull
    all_goals exact ⟨_, rfl⟩
  have htitles : sortByPath "title" false [washing, painting, building] =
      .ok [building, painting, washing] := by
    unfold sortByPath
    rw [if_pos (by decide +kernel)]
    exact congrArg Except.ok (mergeSort_backwards (by decide +kernel) (by decide +kernel))
  have howners : sortByPath "owner" true [building, painting, washing] =
      .ok [building, painting, washing] := by
    unfold sortByPath
    rw [if_pos (by decide +kernel)]
    exact congrArg Except.ok (mergeSort_forwards (by decide +kernel) (by decide +kernel)
      (by decide +kernel))
  have hrun : runStage [] "$sort" (.object taskOrder) [washing, painting, building] =
      .ok [building, painting, washing] := by
    change (do
      let docs ← (do
        let docs ← pure [washing, painting, building]
        sortByPath "title" false docs)
      sortByPath "owner" true docs : Outcome (List Document)) = _
    rw [pure_bind, htitles]
    exact howners
  obtain ⟨sorted, hsorted, -, hordered, -⟩ := @runStage_sort (fun _ => TextLe) _ [] _ hkeys
  cases hrun.symm.trans hsorted
  exact ⟨hrun, hordered⟩

end EntityGraph
