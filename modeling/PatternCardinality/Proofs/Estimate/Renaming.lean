import Mathlib.Logic.Relator
import PatternCardinality.Estimate.Expression
import PatternCardinality.Proofs.Estimate.Operator

/-!
# Results under other names

What an operator computes does not depend on how variables are called. Names correspond by a
relation that is one to one; operators are the same up to it, and then results that agree at
corresponding names lead to results that do.
-/

namespace PatternCardinality.Estimate

variable {α ν : Type} {R : String → String → Prop}

/-- Tables that agree at corresponding names. -/
def Alike (R : String → String → Prop) (m m' : OrderedMap String ν) : Prop :=
  ∀ v v', R v v' → m'.get? v' = m.get? v

section Tables

variable {m m' : OrderedMap String ν} {v v' : String}

theorem Alike.insert (h : Alike R m m') (hR : Relator.BiUnique R) (hv : R v v') (x : ν) :
    Alike R (m.insert v x) (m'.insert v' x) := by
  intro w w' hw
  have hsame : w = v ↔ w' = v' := Relator.rel_eq hR hw hv
  rw [OrderedMap.get?_insert, OrderedMap.get?_insert, h w w' hw]
  simp only [hsame]

theorem Alike.erase (h : Alike R m m') (hR : Relator.BiUnique R) (hv : R v v') :
    Alike R (m.erase v) (m'.erase v') := by
  intro w w' hw
  have hsame : w = v ↔ w' = v' := Relator.rel_eq hR hw hv
  rw [OrderedMap.get?_erase, OrderedMap.get?_erase, h w w' hw]
  simp only [hsame]

theorem alike_singleton (hR : Relator.BiUnique R) (hv : R v v') (x : ν) :
    Alike R (OrderedMap.singleton v x) (OrderedMap.singleton v' x) := by
  intro w w' hw
  have hsame : w = v ↔ w' = v' := Relator.rel_eq hR hw hv
  rw [OrderedMap.get?_singleton, OrderedMap.get?_singleton]
  simp only [hsame]

theorem alike_empty : Alike R (∅ : OrderedMap String ν) ∅ := fun _ _ _ => rfl

end Tables

/-- Results that agree but for how variables are called. -/
structure Profile.Renamed (R : String → String → Prop) (p p' : Profile α) : Prop where
  nodes : Alike R p.nodes p'.nodes
  relationships : Alike R p.relationships p'.relationships
  size : p'.size = p.size
  initial : p'.initial = p.initial

/-- Operators that take one result and agree but for how variables are called. -/
inductive Operator.Renamed (R : String → String → Prop) : Operator α → Operator α → Prop
  | expand {base base' relationship relationship' target target'} (direction : Direction)
      (types : TypeSet) (hbase : R base base') (hrelationship : R relationship relationship')
      (htarget : R target target') :
      Renamed R (.expand base direction relationship types target)
        (.expand base' direction relationship' types target')
  | selectLabel {v v'} (label : LabelId) (hv : R v v') :
      Renamed R (.selectLabel v label) (.selectLabel v' label)
  | selectProperties {v v'} (predicates : PropertyPredicates α) (fixed : Option α) (hv : R v v') :
      Renamed R (.selectProperties v predicates fixed) (.selectProperties v' predicates fixed)
  | selectTypes {v v'} (types : TypeSet) (hv : R v v') :
      Renamed R (.selectTypes v types) (.selectTypes v' types)
  | mergeOn {staying staying' leaving leaving'} (hstaying : R staying staying')
      (hleaving : R leaving leaving') :
      Renamed R (.mergeOn staying leaving) (.mergeOn staying' leaving')
  | selfJoin {staying staying' leaving leaving'} (hstaying : R staying staying')
      (hleaving : R leaving leaving') :
      Renamed R (.selfJoin staying leaving) (.selfJoin staying' leaving')

/-- Expressions of one shape, with operators and results that agree but for how variables are
called. -/
inductive Expression.Renamed (R : String → String → Prop) : Expression α → Expression α → Prop
  | scan {v v' p p'} (hv : R v v') (here : p.Renamed R p') :
      Renamed R (.node (.scan v) [] p) (.node (.scan v') [] p')
  | apply {op op' e e' p p'} (hop : op.Renamed R op') (below : Renamed R e e')
      (here : p.Renamed R p') : Renamed R (.node op [e] p) (.node op' [e'] p')
  | join {left left' right right' p p'} (hleft : Renamed R left left')
      (hright : Renamed R right right') (here : p.Renamed R p') :
      Renamed R (.node .join [left, right] p) (.node .join [left', right'] p')

theorem Expression.Renamed.profile {e e' : Expression α} (h : e.Renamed R e') :
    e.profile.Renamed R e'.profile := by
  cases h <;> assumption

variable [Scalar α] {db : Database α} {p p' r r' : Profile α}

theorem scan_renamed (hR : Relator.BiUnique R) {v v' : String} (hv : R v v')
    (h : scan db v = .ok r) (h' : scan db v' = .ok r') : r.Renamed R r' := by
  rw [scan_eq_ok h, scan_eq_ok h']
  exact ⟨alike_singleton hR hv _, alike_empty, rfl, rfl⟩

section Steps

variable {v v' : String}

theorem expand_renamed (hR : Relator.BiUnique R) (hp : p.Renamed R p')
    {base base' relationship relationship' target target' : String} {direction : Direction}
    {types : TypeSet} (hbase : R base base') (hrelationship : R relationship relationship')
    (htarget : R target target')
    (h : expand db base direction relationship types target p = .ok r)
    (h' : expand db base' direction relationship' types target' p' = .ok r') :
    r.Renamed R r' := by
  obtain ⟨shares, hshares, rfl⟩ := expand_eq_ok h
  obtain ⟨shares', hshares', rfl⟩ := expand_eq_ok h'
  rw [hp.nodes base base' hbase, hshares] at hshares'
  cases hshares'
  have hreached : reached ⟨db, types, direction⟩ target' shares p' =
      reached ⟨db, types, direction⟩ target shares p := by
    rw [reached, reached, hp.initial, hp.size, hp.nodes target target' htarget]
  rw [hreached]
  exact ⟨(hp.nodes.insert hR hbase _).insert hR htarget _,
    hp.relationships.insert hR hrelationship _, rfl, rfl⟩

theorem selectLabel_renamed (hR : Relator.BiUnique R) (hp : p.Renamed R p') (hv : R v v')
    {label : LabelId} (h : selectLabel db v label p = .ok r)
    (h' : selectLabel db v' label p' = .ok r') : r.Renamed R r' := by
  obtain ⟨shares, hshares, rfl⟩ := selectLabel_eq_ok h
  obtain ⟨shares', hshares', rfl⟩ := selectLabel_eq_ok h'
  rw [hp.nodes v v' hv, hshares] at hshares'
  cases hshares'
  split
  · exact ⟨hp.nodes, hp.relationships, rfl, rfl⟩
  · exact ⟨hp.nodes.insert hR hv _, hp.relationships, by rw [hp.size], rfl⟩

theorem selectTypes_renamed (hR : Relator.BiUnique R) (hp : p.Renamed R p') (hv : R v v')
    {types : TypeSet} (h : selectTypes db v types p = .ok r)
    (h' : selectTypes db v' types p' = .ok r') : r.Renamed R r' := by
  obtain ⟨old, ratio, hold, hratio, rfl⟩ := selectTypes_eq_ok h
  obtain ⟨old', ratio', hold', hratio', rfl⟩ := selectTypes_eq_ok h'
  have hsame : p'.types? v' = p.types? v := hp.relationships v v' hv
  rw [hsame, hold] at hold'
  cases hold'
  exact ⟨hp.nodes, hp.relationships.insert hR hv _, by rw [hp.size, hratio, hratio'], rfl⟩

theorem identified_renamed (hR : Relator.BiUnique R) (hp : p.Renamed R p')
    {staying staying' leaving leaving' : String} (hstaying : R staying staying')
    (hleaving : R leaving leaving') {shares : LabelShares α} {factor : α}
    (h : identified p staying leaving shares factor = .ok r)
    (h' : identified p' staying' leaving' shares factor = .ok r') : r.Renamed R r' := by
  rw [identified_eq_ok h, identified_eq_ok h']
  exact ⟨(hp.nodes.erase hR hleaving).insert hR hstaying _, hp.relationships, by rw [hp.size], rfl⟩

theorem mergeOn_renamed (hR : Relator.BiUnique R) (hp : p.Renamed R p')
    {staying staying' leaving leaving' : String} (hstaying : R staying staying')
    (hleaving : R leaving leaving') (h : mergeOn db staying leaving p = .ok r)
    (h' : mergeOn db staying' leaving' p' = .ok r') : r.Renamed R r' := by
  obtain ⟨s, l, hs, hl, h⟩ := mergeOn_eq_ok h
  obtain ⟨s', l', hs', hl', h'⟩ := mergeOn_eq_ok h'
  rw [hp.nodes _ _ hstaying, hs] at hs'
  rw [hp.nodes _ _ hleaving, hl] at hl'
  cases hs'
  cases hl'
  exact identified_renamed hR hp hstaying hleaving h h'

theorem selfJoin_renamed (hR : Relator.BiUnique R) (hp : p.Renamed R p')
    {staying staying' leaving leaving' : String} (hstaying : R staying staying')
    (hleaving : R leaving leaving') (h : selfJoin db staying leaving p = .ok r)
    (h' : selfJoin db staying' leaving' p' = .ok r') : r.Renamed R r' := by
  obtain ⟨s, l, hs, hl, h⟩ := selfJoin_eq_ok h
  obtain ⟨s', l', hs', hl', h'⟩ := selfJoin_eq_ok h'
  rw [hp.nodes _ _ hstaying, hs] at hs'
  rw [hp.nodes _ _ hleaving, hl] at hl'
  cases hs'
  cases hl'
  exact identified_renamed hR hp hstaying hleaving h h'

theorem get?_joinedNodes (left right : OrderedMap String (LabelShares α)) (v : String) :
    (joinedNodes db left right).1.get? v =
      ((right.get? v).map (fun shares =>
        (left.get? v).elim shares (fun s => joinedShares db s shares))).or (left.get? v) := by
  have hfold : (joinedNodes db left right).1 = right.entries.foldl (fun m e =>
      m.insert e.1 ((left.get? e.1).elim e.2 (fun s => joinedShares db s e.2))) left := by
    refine (List.foldl_hom Prod.fst (fun s e => ?_)).symm
    cases left.get? e.1 <;> rfl
  rw [hfold]
  exact OrderedMap.get?_foldl_entries
    (fun v shares => (left.get? v).elim shares (fun s => joinedShares db s shares)) left right v

/-- Results are joined alike if as many node variables are shared. -/
theorem join_renamed {left left' right right' : Profile α} (hleft : left.Renamed R left')
    (hright : right.Renamed R right')
    (hshared : (joinedNodes db left'.nodes right'.nodes).2 =
      (joinedNodes db left.nodes right.nodes).2)
    (h : join db left right = .ok r) (h' : join db left' right' = .ok r') : r.Renamed R r' := by
  rw [join_eq_ok h, join_eq_ok h']
  refine ⟨fun v v' hv => ?_, fun v v' hv => ?_, ?_, rfl⟩
  · rw [get?_joinedNodes, get?_joinedNodes, hleft.nodes v v' hv, hright.nodes v v' hv]
  · rw [OrderedMap.get?_union, OrderedMap.get?_union, hleft.relationships v v' hv,
      hright.relationships v v' hv]
  · rw [hleft.size, hright.size, hshared]

variable [Statistics.NumberHash α]

/-- Predicates select alike at a node variable, and alike at a relationship variable. -/
theorem selectProperties_renamed (hR : Relator.BiUnique R) (hp : p.Renamed R p') (hv : R v v')
    {predicates : PropertyPredicates α} {fixed : Option α}
    (h : selectProperties db v predicates fixed p = .ok r)
    (h' : selectProperties db v' predicates fixed p' = .ok r') : r.Renamed R r' := by
  have htypes : p'.types? v' = p.types? v := hp.relationships v v' hv
  rw [selectProperties] at h h'
  rw [hp.nodes v v' hv, htypes] at h'
  split at h
  · cases h
  · next hne =>
    rw [if_neg hne] at h'
    cases hnode : p.nodes.get? v with
    | some shares =>
      simp only [hnode, selectNodes] at h h'
      rw [(Profile.make_eq_ok h).1, (Profile.make_eq_ok h').1]
      refine ⟨?_, hp.relationships, by rw [hp.size], rfl⟩
      dsimp only
      split
      · exact hp.nodes.insert hR hv _
      · exact hp.nodes
    | none =>
      simp only [hnode] at h h'
      cases hrelationship : p.types? v with
      | none =>
        simp only [hrelationship] at h
        cases h
      | some types =>
        simp only [hrelationship, selectRelationships] at h h'
        split at h
        · cases h
        · next hsome =>
          rw [if_neg hsome] at h'
          rw [(Profile.make_eq_ok h).1, (Profile.make_eq_ok h').1]
          exact ⟨hp.nodes, hp.relationships.insert hR hv _, by rw [hp.size], rfl⟩

/-- Operators that differ in names only have results that differ in names only. -/
theorem compute_renamed (hR : Relator.BiUnique R) {op op' : Operator α} (hop : op.Renamed R op')
    (hp : p.Renamed R p') (h : op.compute db [p] = .ok r) (h' : op'.compute db [p'] = .ok r') :
    r.Renamed R r' := by
  cases hop with
  | expand _ _ hbase hrelationship htarget =>
    exact expand_renamed hR hp hbase hrelationship htarget h h'
  | selectLabel _ hv => exact selectLabel_renamed hR hp hv h h'
  | selectProperties _ _ hv => exact selectProperties_renamed hR hp hv h h'
  | selectTypes _ hv => exact selectTypes_renamed hR hp hv h h'
  | mergeOn hstaying hleaving => exact mergeOn_renamed hR hp hstaying hleaving h h'
  | selfJoin hstaying hleaving => exact selfJoin_renamed hR hp hstaying hleaving h h'

end Steps

end PatternCardinality.Estimate
