import PatternCardinality.Proofs.Number.Comparison
import PatternCardinality.Proofs.Query.ConditionText
import PatternCardinality.Proofs.Query.WellFormed

/-!
# Conditions read from a text

A text is read as a list of conditions, but they are collected by owner and property before they
are added, so that of several conditions on one property only the last is added. Adding all of
them one after the other comes to the same exactly if they ask for the same value, or if a
condition that is added fails anyway.
-/

namespace PatternCardinality

namespace PropertyValue

/-- Numbers are no NaN. -/
def Valid : PropertyValue → Prop
  | text _ => True
  | number x => (x == x) = true

/-- The predicate that asks for the value. -/
def asked : PropertyValue → Predicate Float
  | text s => .text s
  | number x => .range (Double.toBound x) (Double.toBound x)

/-- The same value is asked for. -/
def Agrees : PropertyValue → PropertyValue → Prop
  | text s, text t => s = t
  | number x, number y => (x == y) = true
  | _, _ => False

variable {v w u : PropertyValue}

theorem Agrees.trans (h : v.Agrees w) (h' : w.Agrees u) : v.Agrees u := by
  cases v <;> cases w <;> cases u <;> simp only [Agrees] at *
  · exact Eq.trans h h'
  · exact Double.beq_trans h h'

theorem Agrees.valid (h : v.Agrees w) : v.Valid := by
  cases v with
  | text s => trivial
  | number x =>
    cases w with
    | text t => exact h.elim
    | number y => exact Double.beq_self_of_beq h

theorem predicate_eq_ok_iff {p : Predicate Float} :
    v.predicate = .ok p ↔ v.Valid ∧ p = v.asked := by
  cases v with
  | text s => simp [predicate, Valid, asked, eq_comm]
  | number x =>
    cases hx : x == x <;>
      simp [predicate, Predicate.equalTo, Predicate.between, Bound.isNaN_toBound,
        Bound.lt_irrefl, Valid, asked, hx, eq_comm]

/-- Two values are asked for at once only if they are equal, and then the second one is. -/
theorem merge_asked (hv : v.Valid) (hw : w.Valid) {p : Predicate Float} :
    v.asked.merge w.asked = .ok p ↔ v.Agrees w ∧ p = w.asked := by
  cases v with
  | text s =>
    cases w with
    | text t =>
      by_cases hst : s = t <;> simp [asked, Predicate.merge, Agrees, hst, eq_comm]
    | number y => simp [asked, Predicate.merge, Agrees]
  | number x =>
    cases w with
    | text t => simp [asked, Predicate.merge, Agrees]
    | number y =>
      have hx : (Double.toBound x).isNaN = false := by
        rw [Bound.isNaN_toBound, show (x == x) = true from hv]
        rfl
      have hy : (Double.toBound y).isNaN = false := by
        rw [Bound.isNaN_toBound, show (y == y) = true from hw]
        rfl
      have hiff := Bound.eq_iff_not_lt hx hy
      rw [Bound.eq_toBound] at hiff
      simp only [asked, Predicate.merge, Agrees, hiff]
      cases hlt : (Double.toBound x).lt (Double.toBound y) with
      | true =>
        have hgt := Bound.not_lt_of_lt hlt
        simp [Bound.greatest, Bound.least, Predicate.between, hlt, hgt, hx, hy]
      | false =>
        cases hgt : (Double.toBound y).lt (Double.toBound x) <;>
          simp [Bound.greatest, Bound.least, Predicate.between, hlt, hgt, hx, hy,
            Bound.lt_irrefl, eq_comm]

end PropertyValue

namespace Condition

/-- What the condition is on. -/
def key (c : Condition) : String × String := (c.owner, c.property)

/-- The conditions that no later one on the same property takes the place of. -/
def lasting : List Condition → List Condition
  | [] => []
  | c :: l => if c.key ∈ l.map key then lasting l else c :: lasting l

theorem mem_keys_lasting {l : List Condition} {k : String × String} :
    k ∈ (lasting l).map key ↔ k ∈ l.map key := by
  induction l with
  | nil => rfl
  | cons c l ih =>
    rw [lasting]
    split
    · next hc =>
      rw [ih, List.map_cons, List.mem_cons]
      exact ⟨.inr, fun h => h.elim (fun h => h ▸ hc) id⟩
    · simp [ih]

theorem lasting_sublist (l : List Condition) : (lasting l).Sublist l := by
  induction l with
  | nil => exact .slnil
  | cons c l ih =>
    rw [lasting]
    split
    · exact ih.cons c
    · exact ih.cons_cons c

theorem nodup_keys_lasting (l : List Condition) : ((lasting l).map key).Nodup := by
  induction l with
  | nil => exact .nil
  | cons c l ih =>
    rw [lasting]
    split
    · exact ih
    · next hc => exact List.nodup_cons.mpr ⟨fun h => hc (mem_keys_lasting.mp h), ih⟩

end Condition

namespace Conditions

open Condition

variable {all all' : Conditions} {k : String × String} {v : PropertyValue} {l : List Condition}

/-- The value that is kept for a property of an owner. -/
def value? (all : Conditions) (k : String × String) : Option PropertyValue :=
  (all.getD k.1 ∅).get? k.2

/-- No owner is kept without a condition. -/
def Filled (all : Conditions) : Prop :=
  ∀ owner table, all.get? owner = some table → table.isEmpty = false

@[simp] theorem value?_empty : value? ∅ k = none := rfl

theorem value?_put (all : Conditions) (c : Condition) :
    (all.put c.owner c.property c.value).value? k = if k = c.key then some c.value else
      all.value? k := by
  obtain ⟨owner, property⟩ := k
  rw [value?, put, OrderedMap.getD, OrderedMap.get?_insert]
  by_cases howner : owner = c.owner
  · subst howner
    by_cases hproperty : property = c.property <;>
      simp [key, hproperty, OrderedMap.get?_insert, value?]
  · simp [key, howner, value?, OrderedMap.getD]

theorem filled_empty : Filled ∅ := fun _ _ h => by cases h

theorem Filled.put (h : all.Filled) (owner property : String) (v : PropertyValue) :
    (all.put owner property v).Filled := by
  intro other table htable
  rw [Conditions.put, OrderedMap.get?_insert] at htable
  split at htable
  · cases htable
    refine Bool.eq_false_iff.mpr (fun hempty => ?_)
    have hnone := OrderedMap.isEmpty_iff.mp hempty property
    rw [OrderedMap.get?_insert, if_pos rfl] at hnone
    cases hnone
  · exact h other table htable

theorem Filled.putAll (h : all.Filled) (l : List Condition) : (all.putAll l).Filled := by
  induction l generalizing all with
  | nil => exact h
  | cons c l ih => exact ih (h.put _ _ _)

/-- Conditions that keep the same values are equal. -/
theorem Filled.ext (h : all.Filled) (h' : all'.Filled) (heq : ∀ k, all.value? k = all'.value? k) :
    all = all' := by
  have hget : ∀ {all all' : Conditions}, all.Filled → (∀ k, all.value? k = all'.value? k) →
      ∀ {owner table}, all.get? owner = some table → all'.get? owner = some table := by
    intro all all' hall hvalues owner table htable
    have hinner : ∀ property, table.get? property = (all'.getD owner ∅).get? property := by
      intro property
      have hvalue := hvalues (owner, property)
      rwa [value?, value?, OrderedMap.getD, htable] at hvalue
    cases hother : all'.get? owner with
    | none =>
      simp only [OrderedMap.getD, hother] at hinner
      have hempty := OrderedMap.isEmpty_iff.mpr hinner
      rw [hall owner table htable] at hempty
      cases hempty
    | some other =>
      simp only [OrderedMap.getD, hother] at hinner
      rw [OrderedMap.ext hinner]
      rfl
  refine OrderedMap.ext (fun owner => Option.ext (fun table => ?_))
  exact ⟨hget h heq, hget h' (fun k => (heq k).symm)⟩

/-- What is kept before a condition on the property does not matter. -/
theorem value?_putAll_congr (h : k ∈ l.map key ∨ all.value? k = all'.value? k) :
    (all.putAll l).value? k = (all'.putAll l).value? k := by
  induction l generalizing all all' with
  | nil => exact h.resolve_left List.not_mem_nil
  | cons c l ih =>
    refine ih ?_
    rw [value?_put, value?_put]
    by_cases hk : k = c.key
    · simp [hk]
    · rw [List.map_cons, List.mem_cons] at h
      simpa [hk] using h

theorem value?_putAll_lasting (all : Conditions) (l : List Condition) (k : String × String) :
    (all.putAll (lasting l)).value? k = (all.putAll l).value? k := by
  induction l generalizing all with
  | nil => rfl
  | cons c l ih =>
    rw [lasting]
    split
    · next hc =>
      refine (ih all).trans (value?_putAll_congr ?_)
      rw [value?_put]
      by_cases hk : k = c.key
      · exact .inl (hk ▸ hc)
      · exact .inr (by simp [hk])
    · exact ih _

/-- Of conditions on different properties each one is kept. -/
theorem value?_putAll_of_nodup (h : (l.map key).Nodup) :
    (all.putAll l).value? k = some v ↔
      ⟨k.1, k.2, v⟩ ∈ l ∨ k ∉ l.map key ∧ all.value? k = some v := by
  induction l generalizing all with
  | nil => simp [putAll]
  | cons c l ih =>
    obtain ⟨hc, hl⟩ := List.nodup_cons.mp h
    have hput : (all.putAll (c :: l)).value? k =
        ((all.put c.owner c.property c.value).putAll l).value? k := rfl
    rw [hput, ih hl, value?_put]
    have hfirst : (⟨k.1, k.2, v⟩ : Condition) = c ↔ k = c.key ∧ c.value = v := by
      obtain ⟨owner, property⟩ := k
      cases c
      simp [key, eq_comm, and_assoc]
    rw [List.map_cons, List.mem_cons, List.mem_cons, hfirst]
    by_cases hk : k = c.key
    · simp [hk, hc, or_comm]
    · simp [hk]

/-- The conditions that are kept, by owner and property. -/
def listed (all : Conditions) : List Condition :=
  all.entries.flatMap fun o => o.2.entries.map fun e => ⟨o.1, e.1, e.2⟩

theorem mem_listed {c : Condition} : c ∈ all.listed ↔ all.value? c.key = some c.value := by
  simp only [listed, List.mem_flatMap, List.mem_map, Prod.exists, OrderedMap.mem_entries_iff]
  constructor
  · rintro ⟨owner, table, htable, property, v, hv, rfl⟩
    simp [value?, key, OrderedMap.getD, htable, hv]
  · intro h
    rw [value?, OrderedMap.getD] at h
    cases htable : all.get? c.owner with
    | none => simp [key, htable] at h
    | some table =>
      have hv : table.get? c.property = some c.value := by simpa [key, htable] using h
      exact ⟨c.owner, table, htable, c.property, c.value, hv, rfl⟩

theorem nodup_keys_listed (all : Conditions) : (all.listed.map key).Nodup := by
  have hlt : all.listed.Pairwise (fun c d => c.key ≠ d.key) := by
    refine List.pairwise_flatMap.mpr ⟨fun o _ => ?_, ?_⟩
    · refine List.pairwise_map.mpr (o.2.increasing.imp (fun {a b} hab heq => ?_))
      rw [show a.1 = b.1 from (Prod.mk.inj heq).2] at hab
      simp at hab
    · refine all.increasing.imp (fun {a b} hab c hc d hd heq => ?_)
      obtain ⟨e, -, rfl⟩ := List.mem_map.mp hc
      obtain ⟨f, -, rfl⟩ := List.mem_map.mp hd
      rw [show a.1 = b.1 from (Prod.mk.inj heq).1] at hab
      simp at hab
  exact List.pairwise_map.mpr hlt

theorem Filled.putAll_listed (h : all.Filled) : Conditions.putAll ∅ all.listed = all := by
  refine Filled.ext (filled_empty.putAll _) h (fun k => Option.ext (fun v => ?_))
  rw [value?_putAll_of_nodup (nodup_keys_listed all), mem_listed]
  simp [key]

theorem putAll_lasting (l : List Condition) : putAll ∅ (lasting l) = putAll ∅ l :=
  Filled.ext (filled_empty.putAll _) (filled_empty.putAll _) (value?_putAll_lasting ∅ l)

theorem mem_listed_putAll {c : Condition} : c ∈ (putAll ∅ l).listed ↔ c ∈ lasting l := by
  rw [mem_listed, ← putAll_lasting, value?_putAll_of_nodup (nodup_keys_lasting l)]
  simp [key]

end Conditions

namespace Query

open Condition

variable {q q' : Query Float} {p : Pattern} {all : Conditions} {c : Condition} {l : List Condition}

/-- Adds conditions one after the other. -/
def addAll (q : Query Float) (l : List Condition) : Except (Failure Float) (Query Float) :=
  l.foldlM (fun q c => q.addCondition c.owner c.property c.value) q

/-- The pattern has the owner of the condition, and the value is one. -/
def Admits (p : Pattern) (c : Condition) : Prop :=
  c.value.Valid ∧ (p.contains c.owner = true ∨ p.relationships.any (·.name = c.owner) = true)

/-- The predicates of some owners. -/
def askedOf (all : Conditions) (owners : String → Bool) : OrderedMap String (Predicates Float) :=
  (all.filter (fun owner _ => owners owner)).mapValues fun _ table =>
    table.mapValues fun _ v => v.asked

/-- The pattern with the predicates that the conditions ask for. -/
def settled (p : Pattern) (all : Conditions) : Query Float :=
  ⟨p, askedOf all p.contains, askedOf all (fun owner => !p.contains owner)⟩

theorem settled_empty (p : Pattern) : settled p ∅ = ofPattern p := rfl

section Added

variable {owners : String → Bool}

theorem askedOf_put_of_not (owners : String → Bool) (h : owners c.owner = false) :
    askedOf (all.put c.owner c.property c.value) owners = askedOf all owners := by
  refine OrderedMap.ext (fun owner => ?_)
  simp only [askedOf, OrderedMap.get?_mapValues, OrderedMap.get?_filter, Conditions.put,
    OrderedMap.get?_insert]
  by_cases howner : owner = c.owner
  · subst howner
    cases all.get? c.owner <;> simp [h]
  · simp [howner]

theorem mapValues_insert_asked (table : OrderedMap String PropertyValue) (property : String)
    (v : PropertyValue) :
    (table.insert property v).mapValues (fun _ v => v.asked) =
      (table.mapValues (fun _ v => v.asked)).insert property v.asked := by
  refine OrderedMap.ext (fun k => ?_)
  simp only [OrderedMap.get?_mapValues, OrderedMap.get?_insert]
  split <;> rfl

theorem getD_askedOf (h : owners c.owner = true) :
    (askedOf all owners).getD c.owner ∅ =
      (all.getD c.owner ∅).mapValues (fun _ v => v.asked) := by
  rw [OrderedMap.getD, OrderedMap.getD, askedOf, OrderedMap.get?_mapValues, OrderedMap.get?_filter]
  cases all.get? c.owner with
  | none => rfl
  | some table => simp [Option.filter, h]

theorem askedOf_put (h : owners c.owner = true) :
    askedOf (all.put c.owner c.property c.value) owners =
      (askedOf all owners).insert c.owner
        (((askedOf all owners).getD c.owner ∅).insert c.property c.value.asked) := by
  rw [getD_askedOf h, ← mapValues_insert_asked]
  refine OrderedMap.ext (fun owner => ?_)
  simp only [askedOf, OrderedMap.get?_mapValues, OrderedMap.get?_filter, Conditions.put,
    OrderedMap.get?_insert]
  by_cases howner : owner = c.owner
  · simp [howner, h]
  · simp [howner]

/-- A condition is added if it agrees with the one that stands there, and takes its place. -/
theorem added_askedOf (owners : String → Bool) (h : owners c.owner = true)
    (hvalid : ∀ v, all.value? c.key = some v → v.Valid) (hc : c.value.Valid)
    (table : OrderedMap String (Predicates Float)) :
    added (askedOf all owners) c.owner c.property c.value.asked = .ok table ↔
      (∀ v, all.value? c.key = some v → v.Agrees c.value) ∧
        table = askedOf (all.put c.owner c.property c.value) owners := by
  have hget : ((askedOf all owners).getD c.owner ∅).get? c.property =
      (all.value? c.key).map PropertyValue.asked := by
    rw [getD_askedOf h, OrderedMap.get?_mapValues]
    rfl
  rw [askedOf_put h, added, hget]
  cases hv : all.value? c.key with
  | none => simp [bind, Except.bind, pure, Except.pure, eq_comm]
  | some v =>
    have hmerge := fun m => PropertyValue.merge_asked (p := m) (hvalid v hv) hc
    simp only [Option.map_some, Outcome.bind_eq_ok, hmerge]
    simp [pure, Except.pure, eq_comm]

end Added

/-- The conditions that are kept ask for values. -/
def Settled (all : Conditions) : Prop := ∀ k v, all.value? k = some v → v.Valid

theorem settled_put_of_node (h : p.contains c.owner = true) :
    settled p (all.put c.owner c.property c.value) =
      { settled p all with
        nodePredicates := askedOf (all.put c.owner c.property c.value) p.contains } := by
  rw [settled, askedOf_put_of_not (fun owner => !p.contains owner) (by simp [h])]
  rfl

theorem settled_put_of_relationship (h : p.contains c.owner = false) :
    settled p (all.put c.owner c.property c.value) =
      { settled p all with
        relationshipPredicates :=
          askedOf (all.put c.owner c.property c.value) (fun owner => !p.contains owner) } := by
  rw [settled, askedOf_put_of_not _ h]
  rfl

/-- One condition is added to settled ones. -/
theorem addCondition_settled (h : Settled all) :
    (settled p all).addCondition c.owner c.property c.value = .ok q ↔
      Admits p c ∧ (∀ v, all.value? c.key = some v → v.Agrees c.value) ∧
        q = settled p (all.put c.owner c.property c.value) := by
  rw [addCondition, Outcome.bind_eq_ok]
  simp only [PropertyValue.predicate_eq_ok_iff, and_assoc, exists_and_left, exists_eq_left, Admits]
  refine and_congr_right (fun hc => ?_)
  have hpattern : (settled p all).pattern = p := rfl
  cases hnode : p.contains c.owner with
  | true =>
    have hadded := added_askedOf p.contains hnode (h c.key) hc
    have htable : (settled p all).nodePredicates = askedOf all p.contains := rfl
    rw [hpattern, hnode, if_pos rfl, addNodePredicate, hpattern, hnode, if_pos rfl,
      Outcome.bind_eq_ok, settled_put_of_node hnode, htable]
    simp only [hadded, and_assoc, exists_and_left, exists_eq_left]
    simp [pure, Except.pure, hpattern, eq_comm (a := q)]
  | false =>
    have hother : (fun owner => !p.contains owner) c.owner = true := by simp [hnode]
    have hadded := added_askedOf (fun owner => !p.contains owner) hother (h c.key) hc
    have htable : (settled p all).relationshipPredicates =
      askedOf all (fun owner => !p.contains owner) := rfl
    rw [hpattern, hnode, if_neg Bool.false_ne_true, addRelationshipPredicate, hpattern,
      settled_put_of_relationship hnode, htable]
    cases howner : p.relationships.any (·.name = c.owner) with
    | true =>
      rw [if_pos rfl, Outcome.bind_eq_ok]
      simp only [hadded, and_assoc, exists_and_left, exists_eq_left]
      simp [pure, Except.pure, hpattern, eq_comm (a := q)]
    | false => simp

/-- Conditions that ask for the same value where they are on the same property. -/
def Agreeing (l : List Condition) : Prop :=
  l.Pairwise (fun c d => c.key = d.key → c.value.Agrees d.value)

/-- A condition that is put in agrees with those before and after it. -/
theorem agreeing_cons_iff :
    (Agreeing (c :: l) ∧ ∀ d ∈ c :: l, ∀ v, all.value? d.key = some v → v.Agrees d.value) ↔
      (∀ v, all.value? c.key = some v → v.Agrees c.value) ∧ Agreeing l ∧
        ∀ d ∈ l, ∀ v, (all.put c.owner c.property c.value).value? d.key = some v →
          v.Agrees d.value := by
  simp only [Conditions.value?_put, Agreeing, List.pairwise_cons, List.forall_mem_cons]
  constructor
  · rintro ⟨⟨hlater, hl⟩, hc, hkept⟩
    refine ⟨hc, hl, fun d hd v hv => ?_⟩
    split at hv
    · next hkey =>
      cases hv
      exact hlater d hd hkey.symm
    · exact hkept d hd v hv
  · rintro ⟨hc, hl, hput⟩
    have hlater : ∀ d ∈ l, c.key = d.key → c.value.Agrees d.value := fun d hd hkey =>
      hput d hd c.value (if_pos hkey.symm)
    refine ⟨⟨hlater, hl⟩, hc, fun d hd v hv => ?_⟩
    by_cases hkey : d.key = c.key
    · exact (hc v (hkey ▸ hv)).trans (hlater d hd hkey.symm)
    · exact hput d hd v (by rwa [if_neg hkey])

/-- Conditions are added one after the other if the pattern admits each of them and they agree
with one another and with those that stand there. The last on each property stays. -/
theorem addAll_settled (h : Settled all) :
    (settled p all).addAll l = .ok q ↔
      (∀ c ∈ l, Admits p c) ∧
        (Agreeing l ∧ ∀ c ∈ l, ∀ v, all.value? c.key = some v → v.Agrees c.value) ∧
          q = settled p (all.putAll l) := by
  induction l generalizing all with
  | nil => simp [addAll, pure, Except.pure, Conditions.putAll, Agreeing, eq_comm]
  | cons c l ih =>
    have hstep : (settled p all).addAll (c :: l) =
        (settled p all).addCondition c.owner c.property c.value >>= fun q => q.addAll l :=
      List.foldlM_cons
    have hput : all.putAll (c :: l) = (all.put c.owner c.property c.value).putAll l := rfl
    have hsettled : c.value.Valid → Settled (all.put c.owner c.property c.value) := by
      intro hc k v hv
      rw [Conditions.value?_put] at hv
      split at hv
      · cases hv
        exact hc
      · exact h k v hv
    rw [hstep, Outcome.bind_eq_ok, hput, agreeing_cons_iff, List.forall_mem_cons]
    simp only [addCondition_settled h]
    constructor
    · rintro ⟨q', ⟨hc, hagree, rfl⟩, hrest⟩
      obtain ⟨hl, ⟨hlist, hkept⟩, rfl⟩ := (ih (hsettled hc.1)).mp hrest
      exact ⟨⟨hc, hl⟩, ⟨hagree, hlist, hkept⟩, rfl⟩
    · rintro ⟨⟨hc, hl⟩, ⟨hagree, hlist, hkept⟩, rfl⟩
      exact ⟨_, ⟨hc, hagree, rfl⟩, (ih (hsettled hc.1)).mpr ⟨hl, ⟨hlist, hkept⟩, rfl⟩⟩

theorem addAll_ofPattern :
    (ofPattern p).addAll l = .ok q ↔
      (∀ c ∈ l, Admits p c) ∧ Agreeing l ∧ q = settled p (Conditions.putAll ∅ l) := by
  have hempty : Settled ∅ := fun _ _ h => by cases h
  rw [← settled_empty, addAll_settled hempty]
  simp

theorem agreeing_of_nodup (h : (l.map key).Nodup) : Agreeing l :=
  (List.pairwise_map.mp h).imp (fun hne heq => absurd heq hne)

/-- Conditions that are collected are added like the lasting ones. -/
theorem addAll_listed :
    (ofPattern p).addAll (Conditions.putAll ∅ l).listed = .ok q ↔
      (ofPattern p).addAll (lasting l) = .ok q := by
  rw [addAll_ofPattern, addAll_ofPattern,
    (Conditions.filled_empty.putAll l).putAll_listed, Conditions.putAll_lasting]
  simp only [Conditions.mem_listed_putAll, agreeing_of_nodup (Conditions.nodup_keys_listed _),
    agreeing_of_nodup (nodup_keys_lasting l)]

theorem admits_of_agreeing (hagree : Agreeing l) (h : ∀ c ∈ lasting l, Admits p c) :
    ∀ c ∈ l, Admits p c := by
  induction l with
  | nil => simp
  | cons c l ih =>
    obtain ⟨hlater, hl⟩ := List.pairwise_cons.mp hagree
    rw [lasting] at h
    split at h
    · next hc =>
      have hrest := ih hl h
      obtain ⟨d, hd, hkey⟩ := List.mem_map.mp hc
      obtain ⟨howner, -⟩ := Prod.mk.inj hkey
      refine List.forall_mem_cons.mpr ⟨⟨(hlater d hd hkey.symm).valid, ?_⟩, hrest⟩
      exact howner ▸ (hrest d hd).2
    · obtain ⟨hc, h⟩ := List.forall_mem_cons.mp h
      exact List.forall_mem_cons.mpr ⟨hc, ih hl h⟩

theorem addAll_lasting :
    (ofPattern p).addAll (lasting l) = .ok q ↔
      (∀ c ∈ lasting l, Admits p c) ∧ q = settled p (Conditions.putAll ∅ l) := by
  rw [addAll_ofPattern, Conditions.putAll_lasting,
    and_iff_right (agreeing_of_nodup (nodup_keys_lasting l))]

/-- All conditions come to the same as the lasting ones if one of those fails, or if conditions on
the same property agree. -/
theorem addAll_lasting_iff :
    (∀ q, (ofPattern p).addAll (lasting l) = .ok q ↔ (ofPattern p).addAll l = .ok q) ↔
      (∀ q, (ofPattern p).addAll (lasting l) ≠ .ok q) ∨ Agreeing l := by
  simp only [Ne, addAll_lasting]
  simp only [addAll_ofPattern]
  constructor
  · intro h
    by_cases hadmits : ∀ c ∈ lasting l, Admits p c
    · exact .inr ((h _).mp ⟨hadmits, rfl⟩).2.1
    · exact .inl (fun q hq => hadmits hq.1)
  · rintro (hfail | hagree) q
    · refine iff_of_false (hfail q) (fun hall => hfail q ⟨fun c hc => ?_, hall.2.2⟩)
      exact hall.1 c ((lasting_sublist l).subset hc)
    · refine ⟨fun hq => ⟨admits_of_agreeing hagree hq.1, hagree, hq.2⟩, fun hq => ⟨?_, hq.2.2⟩⟩
      exact fun c hc => hq.1 c ((lasting_sublist l).subset hc)

theorem addAll_append (q : Query Float) (l l' : List Condition) :
    q.addAll (l ++ l') = q.addAll l >>= fun q => q.addAll l' := List.foldlM_append

/-- The conditions that are kept are added by owner and property. -/
theorem foldlM_entries (entries : List (String × OrderedMap String PropertyValue))
    (q : Query Float) :
    entries.foldlM (fun q owner => owner.2.entries.foldlM
        (fun q p => q.addCondition owner.1 p.1 p.2) q) q =
      q.addAll (entries.flatMap fun o => o.2.entries.map fun e => ⟨o.1, e.1, e.2⟩) := by
  induction entries generalizing q with
  | nil => rfl
  | cons o entries ih =>
    rw [List.foldlM_cons, List.flatMap_cons, addAll_append, addAll, List.foldlM_map]
    exact congrArg _ (funext (fun q => ih q))

theorem parse_none_eq_ok_iff {pattern : String} :
    Query.parse pattern none = .ok q ↔
      ∃ p, (Pattern.parse pattern : Except (Failure Float) _) = .ok p ∧ q = ofPattern p := by
  rw [Query.parse, Outcome.bind_eq_ok]
  simp [pure, Except.pure, eq_comm (b := q)]

theorem parse_some_eq_ok_iff {pattern s : String} (h : Conditions.Listing l (Text.trim s.toList)) :
    Query.parse pattern (some s) = .ok q ↔
      ∃ p, (Pattern.parse pattern : Except (Failure Float) _) = .ok p ∧
        (ofPattern p).addAll (lasting l) = .ok q := by
  have hall : Conditions.parse s = .ok (Conditions.putAll ∅ l) :=
    Conditions.parse_eq_ok_iff.mpr ⟨l, h, rfl⟩
  rw [Query.parse, Outcome.bind_eq_ok]
  refine exists_congr (fun p => and_congr_right (fun _ => ?_))
  rw [← addAll_listed, Conditions.listed, ← foldlM_entries]
  simp only [hall]
  rfl

/-- Of the conditions in a text, those are added that no later one on the same property takes the
place of. That comes to the same as adding all of them in their order exactly if one of those that
are added fails, or if conditions on the same property ask for the same value. -/
theorem parse_conditions {s : String} (h : Conditions.Listing l (Text.trim s.toList))
    (pattern : String) :
    (∀ q, Query.parse pattern (some s) = .ok q ↔
      ∃ q₀, Query.parse pattern none = .ok q₀ ∧ q₀.addAll (lasting l) = .ok q) ∧
    ((∀ q, Query.parse pattern (some s) = .ok q ↔
        ∃ q₀, Query.parse pattern none = .ok q₀ ∧ q₀.addAll l = .ok q) ↔
      (∀ q, Query.parse pattern (some s) ≠ .ok q) ∨ Agreeing l) := by
  simp only [Ne, parse_some_eq_ok_iff h, parse_none_eq_ok_iff]
  refine ⟨fun q => by simp, ?_⟩
  cases (Pattern.parse pattern : Except (Failure Float) _) with
  | error f => simp
  | ok p => simpa using addAll_lasting_iff

/-- The property `x` of `a` is a text. -/
def textCondition (t : String) : Condition := ⟨"a", "x", .text t⟩

theorem spelled_textCondition {t : String} (h : ∀ c ∈ t.toList, c ≠ '"' ∧ c ≠ '\\') :
    Conditions.Spelled (textCondition t) ('"' :: (t.toList ++ ['"'])) := by
  have hquoted : ∀ l : List Char, (∀ c ∈ l, c ≠ '"' ∧ c ≠ '\\') →
      Conditions.Quoted l (l ++ ['"']) := by
    intro l hl
    induction l with
    | nil => exact .close
    | cons c l ih =>
      obtain ⟨hc, hl⟩ := List.forall_mem_cons.mp hl
      exact .plain hc.1 hc.2 (ih hl)
  have hvalue : Conditions.ValueText (textCondition t).value ('"' :: (t.toList ++ ['"'])) := by
    have htext := Conditions.ValueText.text (hquoted t.toList h)
      (show ∀ c ∈ [], Text.isBlank c = true by simp)
    rwa [String.ofList_toList, List.append_nil] at htext
  exact ⟨show '\x60' ∉ "a".toList by decide, show '\x60' ∉ "x".toList by decide, hvalue⟩

/-- Two texts for the property, with a blank behind the comma. -/
theorem listing_textConditions {s : String} {t u : String}
    (ht : ∀ c ∈ t.toList, c ≠ '"' ∧ c ≠ '\\') (hu : ∀ c ∈ u.toList, c ≠ '"' ∧ c ≠ '\\')
    (hs : Text.trim s.toList =
      Conditions.conditionText (textCondition t) ('"' :: (t.toList ++ ['"'])) ++
        ',' :: ([' '] ++ Conditions.conditionText (textCondition u) ('"' :: (u.toList ++ ['"'])))) :
    Conditions.Listing [textCondition t, textCondition u] (Text.trim s.toList) := by
  have hblank : ∀ c ∈ [' '], Text.isBlank c = true := List.forall_mem_singleton.mpr (by decide)
  have hhead : ∀ c ∈ (Conditions.conditionText (textCondition u)
      ('"' :: (u.toList ++ ['"']))).head?, Text.isBlank c = false := by
    intro c hc
    cases hc
    decide
  rw [hs]
  exact .cons (spelled_textCondition ht) (.comma hblank hhead)
    (.cons (spelled_textCondition hu) .nothing .nil)

/-- A condition may be repeated. -/
theorem parse_conditions_repeated :
    Conditions.Listing [textCondition "u", textCondition "u"]
        (Text.trim "`a`.`x`=\"u\", `a`.`x`=\"u\"".toList) ∧
      Agreeing [textCondition "u", textCondition "u"] ∧
      ∀ q, Query.parse "(a)" (some "`a`.`x`=\"u\", `a`.`x`=\"u\"") = .ok q ↔
        ∃ q₀, Query.parse "(a)" none = .ok q₀ ∧
          q₀.addAll [textCondition "u", textCondition "u"] = .ok q := by
  have hlisting := listing_textConditions (s := "`a`.`x`=\"u\", `a`.`x`=\"u\"") (t := "u")
    (u := "u") (by simp) (by simp) (by decide)
  have hagree : Agreeing [textCondition "u", textCondition "u"] := by
    refine List.pairwise_pair.mpr (fun _ => ?_)
    exact rfl
  exact ⟨hlisting, hagree, (parse_conditions hlisting "(a)").2.mpr (.inr hagree)⟩

/-- Two conditions that contradict one another are read, though the second cannot be added to the
first. -/
theorem parse_conditions_contradicting :
    Conditions.Listing [textCondition "u", textCondition "v"]
        (Text.trim "`a`.`x`=\"u\", `a`.`x`=\"v\"".toList) ∧
      ∃ q₀ q, Query.parse "(a)" none = .ok q₀ ∧
        q₀.addAll [textCondition "u", textCondition "v"] =
          .error (.badPredicate (.differentValues "u" "v")) ∧
        Query.parse "(a)" (some "`a`.`x`=\"u\", `a`.`x`=\"v\"") = .ok q := by
  have hlisting := listing_textConditions (s := "`a`.`x`=\"u\", `a`.`x`=\"v\"") (t := "u")
    (u := "v") (by simp) (by simp) (by decide)
  exact ⟨hlisting, ofPattern ⟨[⟨"a", ∅⟩], []⟩, _, rfl, rfl, rfl⟩

end Query

end PatternCardinality
