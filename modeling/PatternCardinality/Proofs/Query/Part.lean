import PatternCardinality.Proofs.Ordered.Map
import PatternCardinality.Proofs.Ordered.Sorting
import PatternCardinality.Proofs.Query.Connected

/-!
# Connected parts of queries

The parts of a query with a given number of node variables are enumerated as sets of places among
the sorted names. Places and names correspond, edges between places are relationships between
names, and smaller places are smaller names; so the parts are those of the connected sets of
names, in lexicographic order.
-/

namespace PatternCardinality.Query

open Pattern

section Places

variable {names : List String} {s t : OrderedSet ℕ} {v : String}

/-- The names at some places. -/
def namesAt (names : List String) (s : OrderedSet ℕ) : OrderedSet String :=
  OrderedSet.ofList (s.toList.map (names.getD · ""))

theorem mem_namesAt (hs : ∀ i ∈ s, i < names.length) :
    v ∈ namesAt names s ↔ ∃ i ∈ s, names[i]? = some v := by
  rw [namesAt, OrderedSet.mem_ofList, List.mem_map]
  refine exists_congr (fun i => and_congr_right (fun hi => ?_))
  have hlt := hs i hi
  simp [hlt]

variable (hnames : names.Pairwise (fun a b => compare a b = .lt))

include hnames

private theorem compare_places {i j : ℕ} (hi : i < names.length) (hj : j < names.length)
    (h : compare i j = .lt) : compare (names.getD i "") (names.getD j "") = .lt := by
  rw [← List.getElem_eq_getD (h := hi) "", ← List.getElem_eq_getD (h := hj) ""]
  exact List.pairwise_iff_getElem.mp hnames i j hi hj (Nat.compare_eq_lt.mp h)

theorem toList_namesAt (hs : ∀ i ∈ s, i < names.length) :
    (namesAt names s).toList = s.toList.map (names.getD · "") := by
  refine OrderedSet.eq_of_increasing id (namesAt names s).increasing ?_ (fun v => ?_)
  · refine List.pairwise_map.mpr (s.increasing.imp_of_mem (fun {i j} hi hj hij => ?_))
    exact compare_places hnames (hs i hi) (hs j hj) hij
  · exact OrderedSet.mem_ofList

theorem size_namesAt (hs : ∀ i ∈ s, i < names.length) : (namesAt names s).size = s.size := by
  rw [OrderedSet.size, toList_namesAt hnames hs, List.length_map, OrderedSet.size]

theorem namesAt_lt (hs : ∀ i ∈ s, i < names.length) (ht : ∀ i ∈ t, i < names.length)
    (h : compare s t = .lt) : (namesAt names s).toList < (namesAt names t).toList := by
  rw [toList_namesAt hnames hs, toList_namesAt hnames ht]
  refine lt_of_compare_strings (compare_map_eq_lt _ (fun i hi j hj hij => ?_) h)
  exact compare_places hnames (hs i hi) (ht j hj) hij

omit hnames in
/-- Every set of names is found at some places. -/
theorem exists_namesAt {u : OrderedSet String} (h : ∀ v ∈ u, v ∈ names) :
    ∃ s, (∀ i ∈ s, i < names.length) ∧ namesAt names s = u := by
  have hmem : ∀ i, i ∈ OrderedSet.ofList
        ((List.range names.length).filter (fun i => decide (names.getD i "" ∈ u))) ↔
      i < names.length ∧ names.getD i "" ∈ u := by
    intro i
    simp [OrderedSet.mem_ofList]
  refine ⟨_, fun i hi => ((hmem i).mp hi).1, OrderedSet.ext (fun v => ?_)⟩
  rw [mem_namesAt (fun i hi => ((hmem i).mp hi).1)]
  constructor
  · rintro ⟨i, hi, hv⟩
    simpa [List.getD_eq_getElem?_getD, hv] using ((hmem i).mp hi).2
  · intro hv
    obtain ⟨i, hi, hiv⟩ := List.mem_iff_getElem.mp (h v hv)
    exact ⟨i, (hmem i).mpr ⟨hi, by simpa [hi, hiv] using hv⟩, by simp [hi, hiv]⟩

/-- Places have the connections of the names at them. -/
theorem connected_namesAt {edges : List (ℕ × ℕ)} {ends : List (String × String)}
    (hedges : ∀ i j, (i, j) ∈ edges ↔
      ∃ v w, names[i]? = some v ∧ names[j]? = some w ∧ (v, w) ∈ ends)
    (hs : ∀ i ∈ s, i < names.length) :
    Connected ends (namesAt names s) ↔ Connected edges s := by
  have hnodup : names.Nodup := OrderedSet.nodup_of_increasing id hnames
  have hplace : ∀ {i : ℕ} {v : String}, names[i]? = some v → names.idxOf v = i := by
    intro i v hv
    obtain ⟨hi, rfl⟩ := List.getElem?_eq_some_iff.mp hv
    exact hnodup.idxOf_getElem i hi
  have hname : ∀ i ∈ s, names[i]? = some (names.getD i "") := by
    intro i hi
    simp [hs i hi]
  have htoPlaces : ∀ v w, (v, w) ∈ inside ends (namesAt names s) →
      (names.idxOf v, names.idxOf w) ∈ inside edges s := by
    intro v w hvw
    obtain ⟨hends, hv, hw⟩ := mem_inside.mp hvw
    obtain ⟨i, hi, hiv⟩ := (mem_namesAt hs).mp hv
    obtain ⟨j, hj, hjw⟩ := (mem_namesAt hs).mp hw
    rw [hplace hiv, hplace hjw]
    exact mem_inside.mpr ⟨(hedges i j).mpr ⟨v, w, hiv, hjw, hends⟩, hi, hj⟩
  have htoNames : ∀ i j, (i, j) ∈ inside edges s →
      (names.getD i "", names.getD j "") ∈ inside ends (namesAt names s) := by
    intro i j hij
    obtain ⟨hedge, hi, hj⟩ := mem_inside.mp hij
    obtain ⟨v, w, hv, hw, hends⟩ := (hedges i j).mp hedge
    rw [List.getD_eq_getElem?_getD, List.getD_eq_getElem?_getD, hv, hw]
    exact mem_inside.mpr
      ⟨hends, (mem_namesAt hs).mpr ⟨i, hi, hv⟩, (mem_namesAt hs).mpr ⟨j, hj, hw⟩⟩
  constructor
  · intro h i hi j hj
    have hlink := h (names.getD i "") ((mem_namesAt hs).mpr ⟨i, hi, hname i hi⟩)
      (names.getD j "") ((mem_namesAt hs).mpr ⟨j, hj, hname j hj⟩)
    have hmap := hlink.map (fun v => names.idxOf v) htoPlaces
    rwa [hplace (hname i hi), hplace (hname j hj)] at hmap
  · intro h v hv w hw
    obtain ⟨i, hi, hiv⟩ := (mem_namesAt hs).mp hv
    obtain ⟨j, hj, hjw⟩ := (mem_namesAt hs).mp hw
    have hmap := (h i hi j hj).map (fun i => names.getD i "") htoNames
    simpa [List.getD_eq_getElem?_getD, hiv, hjw] using hmap

end Places

section Edges

variable {α : Type} {q : Query α} {names : List String}

theorem placeOf?_eq_some (hnodup : names.Nodup) {v : String} {i : ℕ} :
    placeOf? names v = some i ↔ names[i]? = some v := by
  have hplace : ∀ j, names.reverse.findIdx? (· = v) = some j →
      j < names.length ∧ names[names.length - 1 - j]? = some v := by
    intro j hj
    obtain ⟨hlt, hjv, -⟩ := List.findIdx?_eq_some_iff_getElem.mp hj
    rw [List.length_reverse] at hlt
    refine ⟨hlt, ?_⟩
    rw [← List.getElem?_reverse hlt, List.getElem?_eq_some_iff]
    exact ⟨by simpa using hlt, of_decide_eq_true hjv⟩
  rw [placeOf?, Option.map_eq_some_iff]
  constructor
  · rintro ⟨j, hj, rfl⟩
    exact (hplace j hj).2
  · intro hv
    have hmem : v ∈ names.reverse := List.mem_reverse.mpr (List.mem_of_getElem? hv)
    cases hfind : names.reverse.findIdx? (· = v) with
    | none => simpa using List.findIdx?_eq_none_iff.mp hfind v hmem
    | some j =>
      obtain ⟨hlt, hjv⟩ := hplace j hfind
      refine ⟨j, rfl, ?_⟩
      exact (List.getElem?_inj (by omega) hnodup).mp (hjv.trans hv.symm)

theorem mem_placedEdges (hnodup : names.Nodup) {i j : ℕ} :
    (i, j) ∈ q.placedEdges names ↔
      ∃ v w, names[i]? = some v ∧ names[j]? = some w ∧ (v, w) ∈ q.pattern.ends := by
  simp only [placedEdges, List.mem_filterMap, Option.bind_eq_bind, Option.bind_eq_some_iff,
    placeOf?_eq_some hnodup, ends, List.mem_map]
  constructor
  · rintro ⟨r, hr, a, ha, b, hb, h⟩
    cases h
    exact ⟨r.source, r.target, ha, hb, r, hr, rfl⟩
  · rintro ⟨v, w, hv, hw, r, hr, h⟩
    cases h
    exact ⟨r, hr, i, hv, j, hw, rfl⟩

end Edges

/-- A query on some of the node variables of another: they keep their labels and their predicates,
and relationships between them keep theirs by name. -/
structure Part {α : Type} (q : Query α) (s : OrderedSet String) (p : Query α) : Prop where
  nodes : p.pattern.nodes = q.pattern.nodes.filter (fun n => decide (n.name ∈ s))
  relationships : p.pattern.relationships =
    q.pattern.relationships.filter (fun r => decide (r.source ∈ s ∧ r.target ∈ s))
  nodePredicates : ∀ v,
    p.nodePredicates.get? v = if v ∈ s then q.nodePredicates.get? v else none
  relationshipPredicates : ∀ name, p.relationshipPredicates.get? name =
    if name ∈ p.pattern.relationships.map (·.name) then q.relationshipPredicates.get? name else none

variable {α : Type}

theorem increasing_sortedNames {q : Query α} (h : q.pattern.names.Nodup) :
    q.sortedNames.Pairwise (fun a b => compare a b = .lt) := increasing_sortBy h

theorem sortedNames_perm (q : Query α) : q.sortedNames.Perm q.pattern.names := sortBy_perm _ _

theorem restrictedTo_part (q : Query α) (s : OrderedSet String) : q.Part s (q.restrictedTo s) := by
  refine ⟨rfl, ?_, fun v => OrderedMap.get?_filter_key, fun name => ?_⟩
  · simp [restrictedTo]
  · simp only [restrictedTo, OrderedMap.get?_filter_key, OrderedSet.mem_ofList]

/-- The sets of names for which a query has a part with `k` node variables, in the order of the
parts: all connected sets of `k` names, each once. -/
structure Enumerated (q : Query α) (k : ℕ) (sets : List (OrderedSet String)) : Prop where
  lexicographic : sets.Pairwise (fun s t => s.toList < t.toList)
  mem_iff : ∀ s, s ∈ sets ↔
    s.size = k ∧ (∀ v ∈ s, v ∈ q.pattern.names) ∧ Connected q.pattern.ends s
  parts : List.Forall₂ q.Part sets (q.parts k)

/-- Below the number of its node variables, a query has exactly one part for each connected set of
names. -/
theorem parts_enumerated {q : Query α} (h : q.pattern.Proper) {k : ℕ} (hk : 0 < k)
    (hlt : k < q.pattern.nodes.length) : ∃ sets, q.Enumerated k sets := by
  have hnames := increasing_sortedNames h.distinct
  have hperm := q.sortedNames_perm
  have hlength : q.sortedNames.length = q.pattern.nodes.length := by
    rw [hperm.length_eq, Pattern.names, List.length_map]
  have hnodup : q.sortedNames.Nodup := hperm.nodup_iff.mpr h.distinct
  have hedges := fun i j => mem_placedEdges (q := q) hnodup (i := i) (j := j)
  have hinside : ∀ e ∈ q.placedEdges q.sortedNames,
      e.1 < q.sortedNames.length ∧ e.2 < q.sortedNames.length := by
    rintro ⟨i, j⟩ he
    obtain ⟨v, w, hv, hw, -⟩ := (hedges i j).mp he
    exact ⟨(List.getElem?_eq_some_iff.mp hv).1, (List.getElem?_eq_some_iff.mp hw).1⟩
  have hplaces := fun t => mem_connectedSets_iff (t := t) hinside hk
  -- the sets of names in the order in which the sets of places are enumerated
  refine ⟨(connectedSets q.sortedNames.length (q.placedEdges q.sortedNames) k).toList.map
    (namesAt q.sortedNames), ?_, fun s => ?_, ?_⟩
  · refine List.pairwise_map.mpr (List.Pairwise.imp_of_mem (fun {s t} hs ht hst => ?_)
      (connectedSets q.sortedNames.length (q.placedEdges q.sortedNames) k).increasing)
    exact namesAt_lt hnames ((hplaces s).mp hs).2.1 ((hplaces t).mp ht).2.1 hst
  · rw [List.mem_map]
    constructor
    · rintro ⟨t, ht, rfl⟩
      obtain ⟨hsize, hmem, hconnected⟩ := (hplaces t).mp ht
      refine ⟨by rw [size_namesAt hnames hmem, hsize], fun v hv => ?_,
        (connected_namesAt hnames hedges hmem).mpr hconnected⟩
      obtain ⟨i, -, hi⟩ := (mem_namesAt hmem).mp hv
      exact hperm.mem_iff.mp (List.mem_of_getElem? hi)
    · rintro ⟨hsize, hmem, hconnected⟩
      obtain ⟨t, ht, rfl⟩ := exists_namesAt (fun v hv => hperm.mem_iff.mpr (hmem v hv))
      refine ⟨t, (hplaces t).mpr ⟨?_, ht, ?_⟩, rfl⟩
      · rw [← size_namesAt hnames ht, hsize]
      · exact (connected_namesAt hnames hedges ht).mp hconnected
  · rw [Query.parts, if_neg (by omega), if_neg (by omega), List.forall₂_map_left_iff,
      List.forall₂_map_right_iff, List.forall₂_same]
    exact fun t _ => restrictedTo_part q (namesAt q.sortedNames t)

/-- A triangle with a tail, and a variable apart. -/
def tailed : Pattern :=
  ((((Pattern.empty.addRelationship "c" none .outgoing "a").addRelationship "a" none .both
    "b").addRelationship "b" none .incoming "c").addRelationship "c" none .outgoing "d").addNode
    "e" []

theorem parts_enumerated_of_tailed :
    tailed.Proper ∧ 0 < 3 ∧ 3 < tailed.nodes.length ∧
      ∃ sets, (ofPattern tailed : Query Float).Enumerated 3 sets := by
  have h : tailed.Proper := ⟨by decide, by decide, by decide⟩
  have hlt : 3 < tailed.nodes.length := by decide
  exact ⟨h, by decide, hlt, parts_enumerated h (by decide) hlt⟩

end PatternCardinality.Query
