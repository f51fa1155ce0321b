import PatternCardinality.Proofs.Number.Order
import PatternCardinality.Proofs.Query.Conditions

/-!
# Conditions at once

A predicate accepts a text or the numbers between two ends. Merging two predicates gives one that
accepts what both accept, and fails exactly if there is nothing that both accept. So what comes of
merging several predicates is told by what all of them accept, in whatever order and grouping they
are merged.
-/

namespace PatternCardinality

namespace Predicate

/-- A text accepts itself, a range the numbers between its ends. -/
def Accepts : Predicate Float → PropertyValue → Prop
  | text s, .text t => t = s
  | range low high, .number x => Double.ofBound low ≤ x ∧ x ≤ Double.ofBound high
  | _, _ => False

instance (p : Predicate Float) (v : PropertyValue) : Decidable (p.Accepts v) :=
  match p, v with
  | text _, .text _ => inferInstanceAs (Decidable (_ = _))
  | range _ _, .number _ => inferInstanceAs (Decidable (_ ∧ _))
  | text _, .number _ => inferInstanceAs (Decidable False)
  | range _ _, .text _ => inferInstanceAs (Decidable False)

/-- Predicates made of a text or of numbers. -/
inductive Built : Predicate Float → Prop
  | text (s : String) : Built (text s)
  | between {x y p} (h : between (Double.toBound x) (Double.toBound y) = .ok p) : Built p
  | equalTo {x p} (h : equalTo (Double.toBound x) = .ok p) : Built p
  | compared {op x p} (h : compared op (Double.toBound x) = .ok p) : Built p

section Ranges

variable {x y z : Float} {p : Predicate Float}

/-- A range is made of two numbers in order. -/
theorem between_toBound (x y : Float) : between (Double.toBound x) (Double.toBound y) =
    if x ≤ y then .ok (range (Double.toBound x) (Double.toBound y))
    else .error (.badPredicate (.brokenRange (Double.toBound x) (Double.toBound y))) := by
  have hbroken : (!(x == x) || !(y == y) || decide (y < x)) = true ↔ ¬x ≤ y := by
    grind [Double.le_iff_place, Double.lt_iff_place]
  rw [between, Bound.isNaN_toBound, Bound.isNaN_toBound, Bound.lt_toBound, if_congr hbroken rfl rfl,
    ite_not]

theorem accepts_range (hx : (x == x) = true) (hy : (y == y) = true) :
    (range (Double.toBound x) (Double.toBound y)).Accepts (.number z) ↔ x ≤ z ∧ z ≤ y := by
  have hlow := Double.beq_iff_place.mp (Bound.ofBound_toBound hx)
  have hhigh := Double.beq_iff_place.mp (Bound.ofBound_toBound hy)
  simp only [Accepts, Double.le_iff_place, hlow, hhigh]

/-- What is made of numbers is a range between numbers in order. -/
theorem Built.text_or_range (h : p.Built) :
    (∃ s, p = .text s) ∨ ∃ x y, x ≤ y ∧ p = range (Double.toBound x) (Double.toBound y) := by
  have hbetween : ∀ {x y}, Predicate.between (Double.toBound x) (Double.toBound y) = .ok p →
      ∃ x y, x ≤ y ∧ p = range (Double.toBound x) (Double.toBound y) := by
    intro x y h
    rw [between_toBound] at h
    split at h
    · next hxy =>
      cases h
      exact ⟨x, y, hxy, rfl⟩
    · cases h
  have hlowest : Double.toBound (-Double.infinity) = .lowest := by decide
  have hhighest : Double.toBound Double.infinity = .highest := by decide
  cases h with
  | text s => exact .inl ⟨s, rfl⟩
  | between h => exact .inr (hbetween h)
  | equalTo h => exact .inr (hbetween h)
  | compared h =>
    rw [Predicate.compared, ← hlowest, ← hhighest] at h
    split at h
    · exact .inr (hbetween h)
    · split at h
      · exact .inr (hbetween h)
      · split at h
        · exact .inr (hbetween h)
        · cases h

theorem Built.exists_accepts (h : p.Built) : ∃ v : PropertyValue, v.Valid ∧ p.Accepts v := by
  rcases h.text_or_range with ⟨s, rfl⟩ | ⟨x, y, hxy, rfl⟩
  · exact ⟨.text s, trivial, rfl⟩
  · obtain ⟨hx, hy, hplace⟩ := Double.le_iff_place.mp hxy
    refine ⟨.number x, hx, (accepts_range hx hy).mpr ⟨?_, hxy⟩⟩
    exact Double.le_iff_place.mpr ⟨hx, hx, le_rfl⟩

end Ranges

/-- What comes of putting conditions together that accept the values in a set: a predicate that
accepts them, or a failure if there are none. -/
inductive Settles (accepted : PropertyValue → Prop) : Except (Failure Float) (Predicate Float) → Prop
  | ok {p} (built : p.Built) (accepts : ∀ v, p.Accepts v ↔ accepted v) : Settles accepted (.ok p)
  | error {e} (none : ∀ v, ¬accepted v) : Settles accepted (.error e)

/-- Outcomes that both fail, or accept the same. -/
def Alike : Except (Failure Float) (Predicate Float) →
    Except (Failure Float) (Predicate Float) → Prop
  | .ok p, .ok p' => ∀ v, p.Accepts v ↔ p'.Accepts v
  | .error _, .error _ => True
  | _, _ => False

namespace Settles

variable {accepted accepted' : PropertyValue → Prop}
  {outcome outcome' : Except (Failure Float) (Predicate Float)}

theorem isOk_iff (h : Settles accepted outcome) :
    (∃ p, outcome = .ok p) ↔ ∃ v : PropertyValue, v.Valid ∧ accepted v := by
  cases h with
  | ok built accepts =>
    obtain ⟨v, hv, hp⟩ := built.exists_accepts
    exact ⟨fun _ => ⟨v, hv, (accepts v).mp hp⟩, fun _ => ⟨_, rfl⟩⟩
  | error none =>
    refine ⟨fun ⟨_, hp⟩ => ?_, fun ⟨v, _, hv⟩ => absurd hv (none v)⟩
    cases hp

theorem accepts_iff (h : Settles accepted outcome) {p : Predicate Float} (hp : outcome = .ok p)
    (v : PropertyValue) : p.Accepts v ↔ accepted v := by
  cases h with
  | ok _ accepts =>
    cases hp
    exact accepts v
  | error _ => cases hp

/-- Conditions that accept the same have the same outcome. -/
theorem alike (h : Settles accepted outcome) (h' : Settles accepted' outcome')
    (hsame : ∀ v, accepted v ↔ accepted' v) : Alike outcome outcome' := by
  cases h with
  | ok built accepts =>
    obtain ⟨v, -, hv⟩ := built.exists_accepts
    cases h' with
    | ok _ accepts' => exact fun v => (accepts v).trans ((hsame v).trans (accepts' v).symm)
    | error none => exact none v ((hsame v).mp ((accepts v).mp hv))
  | error none =>
    cases h' with
    | ok built accepts' =>
      obtain ⟨v, -, hv⟩ := built.exists_accepts
      exact none v ((hsame v).mpr ((accepts' v).mp hv))
    | error _ => trivial

end Settles

theorem merge_ranges {x y x' y' : Float} (hxy : x ≤ y) (hxy' : x' ≤ y') :
    Settles
      (fun v => (range (Double.toBound x) (Double.toBound y)).Accepts v ∧
        (range (Double.toBound x') (Double.toBound y')).Accepts v)
      ((range (Double.toBound x) (Double.toBound y)).merge
        (range (Double.toBound x') (Double.toBound y'))) := by
  obtain ⟨hx, hy, -⟩ := Double.le_iff_place.mp hxy
  obtain ⟨hx', hy', -⟩ := Double.le_iff_place.mp hxy'
  have hlow : ∀ z, Scalar.greatest x x' ≤ z ↔ x ≤ z ∧ x' ≤ z :=
    fun z => Double.greatest_le_iff hx hx'
  have hhigh : ∀ z, z ≤ Scalar.least y y' ↔ z ≤ y ∧ z ≤ y' := fun z => Double.le_least_iff hy hy'
  have hmerge : (range (Double.toBound x) (Double.toBound y)).merge
      (range (Double.toBound x') (Double.toBound y')) =
        between (Double.toBound (Scalar.greatest x x')) (Double.toBound (Scalar.least y y')) := by
    rw [merge, Bound.greatest_toBound, Bound.least_toBound]
  rw [hmerge, between_toBound]
  split
  · next hle =>
    have hbuilt := Built.between ((between_toBound _ _).trans (if_pos hle))
    obtain ⟨hc, hd, -⟩ := Double.le_iff_place.mp hle
    refine .ok hbuilt (fun v => ?_)
    cases v with
    | text s => exact ⟨False.elim, And.left⟩
    | number z =>
      rw [accepts_range hc hd, accepts_range hx hy, accepts_range hx' hy', hlow, hhigh]
      tauto
  · next hle =>
    refine .error (fun v hv => ?_)
    cases v with
    | text s => exact hv.1
    | number z =>
      rw [accepts_range hx hy, accepts_range hx' hy'] at hv
      obtain ⟨⟨hxz, hzy⟩, hxz', hzy'⟩ := hv
      exact hle (Double.le_trans ((hlow z).mpr ⟨hxz, hxz'⟩) ((hhigh z).mpr ⟨hzy, hzy'⟩))

/-- Merging settles what both predicates accept. -/
theorem merge_settles {a b : Predicate Float} (ha : a.Built) (hb : b.Built) :
    Settles (fun v => a.Accepts v ∧ b.Accepts v) (a.merge b) := by
  rcases ha.text_or_range with ⟨s, rfl⟩ | ⟨x, y, hxy, rfl⟩ <;>
    rcases hb.text_or_range with ⟨t, rfl⟩ | ⟨x', y', hxy', rfl⟩
  · rw [merge]
    split
    · next hst =>
      subst hst
      exact .ok ha (fun v => (and_self_iff).symm)
    · next hst =>
      refine .error (fun v hv => ?_)
      cases v with
      | text u => exact hst (hv.1.symm.trans hv.2)
      | number z => exact hv.1
  · refine .error (fun v hv => ?_)
    cases v with
    | text u => exact hv.2
    | number z => exact hv.1
  · refine .error (fun v hv => ?_)
    cases v with
    | text u => exact hv.1
    | number z => exact hv.2
  · exact merge_ranges hxy hxy'

/-- Merging two outcomes settles what both settle. -/
theorem Settles.both {accepted accepted' : PropertyValue → Prop}
    {outcome outcome' : Except (Failure Float) (Predicate Float)} (h : Settles accepted outcome)
    (h' : Settles accepted' outcome') :
    Settles (fun v => accepted v ∧ accepted' v) (do (← outcome).merge (← outcome')) := by
  cases h with
  | error none => exact .error (fun v hv => none v hv.1)
  | @ok a ha haccepts =>
    cases h' with
    | error none => exact .error (fun v hv => none v hv.2)
    | @ok b hb hbaccepts =>
      have hboth : (fun v => accepted v ∧ accepted' v) = fun v => a.Accepts v ∧ b.Accepts v :=
        funext (fun v => propext (and_congr (haccepts v).symm (hbaccepts v).symm))
      rw [hboth]
      exact merge_settles ha hb

/-- An order and grouping in which predicates are merged. -/
inductive Merging where
  | single (p : Predicate Float)
  | both (first second : Merging)

namespace Merging

variable {s t : Merging}

/-- The predicates in their order. -/
def leaves : Merging → List (Predicate Float)
  | single p => [p]
  | both s t => s.leaves ++ t.leaves

/-- The outcome, a failure as soon as something fails. -/
def merged : Merging → Except (Failure Float) (Predicate Float)
  | single p => .ok p
  | both s t => do (← s.merged).merge (← t.merged)

/-- Merging in any order and grouping settles what all predicates accept. -/
theorem merged_settles (h : ∀ p ∈ t.leaves, p.Built) :
    Settles (fun v => ∀ p ∈ t.leaves, p.Accepts v) t.merged := by
  induction t with
  | single p =>
    refine .ok (h p (List.mem_singleton_self p)) (fun v => ?_)
    exact (List.forall_mem_singleton (p := fun q : Predicate Float => q.Accepts v)).symm
  | both s t ihs iht =>
    obtain ⟨hs, ht⟩ := List.forall_mem_append.mp h
    simp only [leaves, List.forall_mem_append]
    exact (ihs hs).both (iht ht)

/-- Neither order nor grouping matters, nor how often a predicate is merged. -/
theorem merged_alike (h : ∀ p ∈ s.leaves, p.Built) (hst : ∀ p, p ∈ s.leaves ↔ p ∈ t.leaves) :
    Alike s.merged t.merged :=
  (merged_settles h).alike (merged_settles (fun p hp => h p ((hst p).mpr hp)))
    (fun _ => forall_congr' (fun p => imp_congr_left (hst p)))

end Merging

/-- Merging is the meet of conditions: it succeeds if some value is accepted by both predicates, and
then leaves the values that are. So it is idempotent, commutative and associative, failures included,
and predicates can be merged in any order and grouping. -/
theorem merge_isMeet {a b c : Predicate Float} (ha : a.Built) (hb : b.Built) (hc : c.Built)
    {s t : Merging} (hs : ∀ p ∈ s.leaves, p.Built) (hst : s.leaves.Perm t.leaves) :
    ((∃ p, a.merge b = .ok p) ↔ ∃ v : PropertyValue, v.Valid ∧ a.Accepts v ∧ b.Accepts v) ∧
      (∀ p, a.merge b = .ok p → ∀ v, p.Accepts v ↔ a.Accepts v ∧ b.Accepts v) ∧
      Alike (a.merge a) (.ok a) ∧
      Alike (a.merge b) (b.merge a) ∧
      Alike (do (← a.merge b).merge c) (do a.merge (← b.merge c)) ∧
      Alike s.merged t.merged := by
  have hmerge := merge_settles ha hb
  refine ⟨hmerge.isOk_iff, fun p hp => hmerge.accepts_iff hp, ?_, ?_, ?_, ?_⟩
  · refine Merging.merged_alike (s := .both (.single a) (.single a)) (t := .single a) ?_ ?_
    · simpa [Merging.leaves] using ha
    · simp [Merging.leaves]
  · refine Merging.merged_alike (s := .both (.single a) (.single b))
      (t := .both (.single b) (.single a)) ?_ ?_
    · simpa [Merging.leaves] using ⟨ha, hb⟩
    · simp [Merging.leaves, or_comm]
  · refine Merging.merged_alike (s := .both (.both (.single a) (.single b)) (.single c))
      (t := .both (.single a) (.both (.single b) (.single c))) ?_ ?_
    · simpa [Merging.leaves] using ⟨ha, hb, hc⟩
    · simp [Merging.leaves]
  · exact Merging.merged_alike hs (fun p => hst.mem_iff)

/-- At least eighteen. -/
def adult : Predicate Float := .range (.number 18) .highest

/-- At most thirty. -/
def young : Predicate Float := .range .lowest (.number 30)

def twenty : Predicate Float := .range (.number 20) (.number 20)

theorem built_ages : adult.Built ∧ young.Built ∧ twenty.Built := by
  have hadult : compared ">" (Double.toBound 18) = .ok adult := rfl
  have hyoung : compared "<" (Double.toBound 30) = .ok young := rfl
  have htwenty : equalTo (Double.toBound 20) = .ok twenty := rfl
  exact ⟨.compared hadult, .compared hyoung, .equalTo htwenty⟩

/-- Ages have values in common, but no text, and the predicates on them are merged in two ways. -/
theorem merge_isMeet_ages :
    (∃ p, adult.merge young = .ok p) ∧
      Alike (do (← adult.merge young).merge (.text "Ann"))
        (do adult.merge (← young.merge (.text "Ann"))) ∧
      Alike (Merging.both (.both (.single adult) (.single young)) (.single twenty)).merged
        (Merging.both (.single twenty) (.both (.single young) (.single adult))).merged := by
  obtain ⟨hadult, hyoung, htwenty⟩ := built_ages
  have hcommon : adult.Accepts (.number 25) ∧ young.Accepts (.number 25) := by decide +kernel
  have hvalid : (PropertyValue.number 25).Valid :=
    (by decide +kernel : ((25 : Float) == 25) = true)
  have hperm : [adult, young, twenty].Perm [twenty, young, adult] :=
    (List.reverse_perm [adult, young, twenty]).symm
  obtain ⟨hok, -, -, -, hassoc, hmerged⟩ := merge_isMeet hadult hyoung (.text "Ann")
    (s := .both (.both (.single adult) (.single young)) (.single twenty))
    (t := .both (.single twenty) (.both (.single young) (.single adult)))
    (by simp [Merging.leaves, hadult, hyoung, htwenty]) hperm
  exact ⟨hok.mpr ⟨.number 25, hvalid, hcommon⟩, hassoc, hmerged⟩

end Predicate

end PatternCardinality
