import Mathlib
import PatternCardinality.Number.Double

/-!
# Comparison of doubles

Doubles that are numbers are ordered, and those that are equal without being the same are zeros.
So equality is an equivalence among numbers, and holds of two that no order tells apart. The ends
of ranges compare as the numbers that they are made of.
-/

namespace PatternCardinality

namespace Double

open Float.Model Float.Model.UnpackedFloat

section Unpacked

variable {a b : UnpackedFloat}

private theorem compare_sign_self (s : Sign) : compare s s = .eq := by cases s <;> rfl

private theorem swap_then (m n : ℕ) (d e : ℤ) :
    ((compare e d).then (compare m n)).swap = (compare d e).then (compare n m) := by
  rw [Ordering.swap_then, Int.compare_swap, Nat.compare_swap]

/-- Only what is not a number is not ordered. -/
theorem compare_eq_none_iff : a.compare b = none ↔ a = .notANumber ∨ b = .notANumber := by
  rcases a with s | _ | s | ⟨s, m, e, hm⟩ <;> rcases b with t | _ | t | ⟨t, n, d, hn⟩ <;>
    try cases s <;> try cases t
  all_goals simp [UnpackedFloat.compare]

/-- Equal numbers are zeros, or the same. -/
theorem compare_eq_eq_iff : a.compare b = some .eq ↔
    (∃ s t, a = .zero s ∧ b = .zero t) ∨ a = b ∧ a ≠ .notANumber := by
  rcases a with s | _ | s | ⟨s, m, e, hm⟩ <;> rcases b with t | _ | t | ⟨t, n, d, hn⟩ <;>
    try cases s <;> try cases t
  all_goals simp [UnpackedFloat.compare, compare_sign_self, and_comm]

theorem compare_swap : b.compare a = (a.compare b).map Ordering.swap := by
  rcases a with s | _ | s | ⟨s, m, e, hm⟩ <;> rcases b with t | _ | t | ⟨t, n, d, hn⟩ <;>
    try cases s <;> try cases t
  all_goals simp [UnpackedFloat.compare, compare_sign_self, swap_then]
  all_goals rfl

end Unpacked

variable {x y z : Float}

theorem beq_iff : (x == y) = true ↔ x.toModel.unpack.compare y.toModel.unpack = some .eq := by
  change (x.toModel.unpack.compare y.toModel.unpack == some .eq) = true ↔ _
  exact beq_iff_eq

theorem lt_iff : x < y ↔ x.toModel.unpack.compare y.toModel.unpack = some .lt := by
  change decide (x.toModel < y.toModel) = true ↔ _
  rw [decide_eq_true_iff]
  change (x.toModel.unpack.compare y.toModel.unpack == some .lt) = true ↔ _
  exact beq_iff_eq

theorem beq_self_iff : (x == x) = true ↔ x.toModel.unpack ≠ .notANumber := by
  rw [beq_iff, compare_eq_eq_iff]
  refine ⟨?_, fun h => .inr ⟨rfl, h⟩⟩
  rintro (⟨s, t, hs, -⟩ | ⟨-, h⟩)
  · simp [hs]
  · exact h

theorem beq_symm (h : (x == y) = true) : (y == x) = true := by
  rw [beq_iff] at h ⊢
  rw [compare_swap, h]
  rfl

theorem beq_trans (h : (x == y) = true) (h' : (y == z) = true) : (x == z) = true := by
  rw [beq_iff, compare_eq_eq_iff] at h h' ⊢
  rcases h with ⟨s, t, hx, hy⟩ | ⟨hxy, hx⟩
  · rcases h' with ⟨s', t', -, hz⟩ | ⟨hyz, -⟩
    · exact .inl ⟨s, t', hx, hz⟩
    · exact .inl ⟨s, t, hx, hyz ▸ hy⟩
  · rw [hxy]
    exact h'

theorem beq_comm (x y : Float) : (x == y) = (y == x) :=
  Bool.eq_iff_iff.mpr ⟨beq_symm, beq_symm⟩

theorem beq_congr_left (h : (x == y) = true) (z : Float) : (x == z) = (y == z) :=
  Bool.eq_iff_iff.mpr ⟨beq_trans (beq_symm h), beq_trans h⟩

theorem beq_congr_right (h : (x == y) = true) (z : Float) : (z == x) = (z == y) := by
  rw [beq_comm z x, beq_congr_left h, beq_comm]

theorem beq_self_of_beq (h : (x == y) = true) : (x == x) = true := beq_trans h (beq_symm h)

theorem not_lt_of_lt (h : x < y) : ¬y < x := by
  rw [lt_iff] at h ⊢
  rw [compare_swap, h]
  simp

/-- Numbers are equal if neither is below the other. -/
theorem beq_iff_not_lt (hx : (x == x) = true) (hy : (y == y) = true) :
    (x == y) = true ↔ ¬x < y ∧ ¬y < x := by
  have hnone : x.toModel.unpack.compare y.toModel.unpack ≠ none := by
    rw [Ne, compare_eq_none_iff]
    exact not_or.mpr ⟨beq_self_iff.mp hx, beq_self_iff.mp hy⟩
  have hswap := compare_swap (a := x.toModel.unpack) (b := y.toModel.unpack)
  rw [beq_iff, lt_iff, lt_iff, hswap]
  cases h : x.toModel.unpack.compare y.toModel.unpack with
  | none => exact absurd h hnone
  | some o => cases o <;> simp

end Double

namespace Bound

variable {x y : Float}

theorem not_lt_of_lt {b c : Bound Float} (h : b.lt c = true) : c.lt b = false := by
  cases b <;> cases c <;> try rfl
  all_goals try cases h
  exact decide_eq_false (Double.not_lt_of_lt (of_decide_eq_true h))

theorem lt_irrefl (b : Bound Float) : b.lt b = false := by
  cases h : b.lt b with
  | false => rfl
  | true => exact h.symm.trans (not_lt_of_lt h)

theorem toBound_cases (x : Float) :
    (x == Double.infinity) = true ∧ Double.toBound x = .highest ∨
      (x == -Double.infinity) = true ∧ Double.toBound x = .lowest ∨
      (x == Double.infinity) = false ∧ (x == -Double.infinity) = false ∧
        Double.toBound x = .number x := by
  unfold Double.toBound
  cases hhigh : x == Double.infinity <;> cases hlow : x == -Double.infinity <;> simp

theorem isNaN_toBound (x : Float) : (Double.toBound x).isNaN = !(x == x) := by
  rcases toBound_cases x with ⟨h, hx⟩ | ⟨h, hx⟩ | ⟨-, -, hx⟩
  · simp [hx, isNaN, Double.beq_self_of_beq h]
  · simp [hx, isNaN, Double.beq_self_of_beq h]
  · simp [hx, isNaN, Scalar.isNaN]

/-- Ends made of numbers are equal as the numbers are. -/
theorem eq_toBound (x y : Float) : (Double.toBound x).eq (Double.toBound y) = (x == y) := by
  have hends : (Double.infinity == -Double.infinity) = false := by decide
  rcases toBound_cases y with ⟨hy, hby⟩ | ⟨hy, hby⟩ | ⟨hyh, hyl, hby⟩
  · rw [Double.beq_congr_right hy]
    rcases toBound_cases x with ⟨hx, hbx⟩ | ⟨hx, hbx⟩ | ⟨hx, -, hbx⟩
    · simp [hbx, hby, hx, eq]
    · simp [hbx, hby, Double.beq_congr_left hx, Double.beq_comm (-_), hends, eq]
    · simp [hbx, hby, hx, eq]
  · rw [Double.beq_congr_right hy]
    rcases toBound_cases x with ⟨hx, hbx⟩ | ⟨hx, hbx⟩ | ⟨-, hx, hbx⟩
    · simp [hbx, hby, Double.beq_congr_left hx, hends, eq]
    · simp [hbx, hby, hx, eq]
    · simp [hbx, hby, hx, eq]
  · rcases toBound_cases x with ⟨hx, hbx⟩ | ⟨hx, hbx⟩ | ⟨-, -, hbx⟩
    · simp [hbx, hby, Double.beq_congr_left hx, Double.beq_comm _ y, hyh, eq]
    · simp [hbx, hby, Double.beq_congr_left hx, Double.beq_comm _ y, hyl, eq]
    · simp [hbx, hby, eq]

/-- Ends that are numbers are equal if neither is below the other. -/
theorem eq_iff_not_lt {b c : Bound Float} (hb : b.isNaN = false) (hc : c.isNaN = false) :
    b.eq c = true ↔ b.lt c = false ∧ c.lt b = false := by
  cases b <;> cases c
  case number.number x y =>
    have hx : (x == x) = true := by simpa [isNaN, Scalar.isNaN] using hb
    have hy : (y == y) = true := by simpa [isNaN, Scalar.isNaN] using hc
    simpa [eq, lt] using Double.beq_iff_not_lt hx hy
  all_goals simp_all [eq, lt, isNaN]

end Bound

end PatternCardinality
