import Ladybug.Common.Interval
import Mathlib.Tactic.LinearCombination

/-!
# Comparing and dividing intervals

* `interval_comparison_iff`: the comparisons of intervals, and where `<` is not transitive;
* `interval_divide_of_nonneg`: the error of a division.
-/

namespace Ladybug.IntervalT

lemma eq_iff {a b : IntervalT} : a.eq b = true ↔ a = b := by
  cases a
  cases b
  simp only [eq, decide_eq_true_eq, mk.injEq]
  tauto

lemma greaterThan_iff {a b : IntervalT} :
    a.greaterThan b = true ↔
      let l := a.normalizeIntervalEntries
      let r := b.normalizeIntervalEntries
      r.months < l.months ∨ r.months = l.months ∧
        (r.days < l.days ∨ r.days = l.days ∧ r.micros < l.micros) := by
  simp only [greaterThan]
  split_ifs <;> simp <;> omega

lemma greaterThan_of_normalize {a b : IntervalT}
    (h : a.normalizeIntervalEntries = b.normalizeIntervalEntries) : ¬a.greaterThan b := by
  rw [greaterThan_iff, h]
  omega

/-- Exactly one of the comparisons holds, and the others are what they should be.  But `<` is
transitive at `a`, `b`, `c` only if it is not that `a` and `c` are the same interval and `b` another
one with the same normal form: then `a < b` and `b < a`. -/
theorem interval_comparison_iff (a b c : IntervalT) :
    (a.lt b ∧ ¬a.eq b ∧ ¬a.greaterThan b ∨ ¬a.lt b ∧ a.eq b ∧ ¬a.greaterThan b ∨
      ¬a.lt b ∧ ¬a.eq b ∧ a.greaterThan b) ∧
    (a.le b ↔ a.lt b ∨ a.eq b) ∧ (a.ge b ↔ a.greaterThan b ∨ a.eq b) ∧ (a.ne b ↔ ¬a.eq b) ∧
    ((a.lt b → b.lt c → a.lt c) ↔
      (a = c → a.normalizeIntervalEntries = b.normalizeIntervalEntries → a = b)) := by
  have hself (heq : a = b) := greaterThan_of_normalize (congrArg normalizeIntervalEntries heq)
  simp only [lt, le, ge, ne, Bool.not_eq_true', Bool.or_eq_true, ← Bool.not_eq_true, eq_iff,
    not_or]
  refine ⟨by tauto, by tauto, by tauto, by tauto, ?_, ?_⟩
  · rintro htrans rfl hnorm
    by_contra hne
    exact (htrans ⟨greaterThan_of_normalize hnorm, hne⟩
      ⟨greaterThan_of_normalize hnorm.symm, Ne.symm hne⟩).2 rfl
  · rintro hcond ⟨hab, hne⟩ ⟨hbc, -⟩
    rw [greaterThan_iff] at hab hbc ⊢
    refine ⟨by omega, ?_⟩
    rintro rfl
    exact hne (hcond rfl (IntervalT.ext (by omega) (by omega) (by omega)))

theorem interval_comparison_months :
    (⟨1, 0, 0⟩ : IntervalT).lt ⟨0, 30, 0⟩ ∧ (⟨0, 30, 0⟩ : IntervalT).lt ⟨1, 0, 0⟩ ∧
      ¬(⟨1, 0, 0⟩ : IntervalT).lt ⟨1, 0, 0⟩ := by
  decide

abbrev Fits (bits : ℕ) (x : ℤ) : Prop := -2 ^ (bits - 1) ≤ x ∧ x < 2 ^ (bits - 1)

/-- The interval, and the results of its division with their signs, fit their types. -/
structure NoOverflow (iv : IntervalT) (n : ℕ) : Prop where
  months : Fits 32 iv.months
  days : Fits 32 iv.days
  quotient : Fits 32 ((iv.days + iv.months.tmod n * daysPerMonth).tdiv n)
  remainder : Fits 32 ((iv.days + iv.months.tmod n * daysPerMonth).tmod n)
  micros : Fits 64
    (iv.micros + (iv.days + iv.months.tmod n * daysPerMonth).tmod n * microsPerDay)

/-- A division of numbers that are not negative and fit is exact. -/
lemma divMod_exact {bits n : ℕ} {x : ℤ} (hx : 0 ≤ x) (hlt : x < 2 ^ 64) :
    (x / n < 2 ^ bits → (x % 2 ^ 64 / n).bmod (2 ^ (bits + 1)) = x / n) ∧
      (x % n < 2 ^ bits → 0 < n → (x % 2 ^ 64 % n).bmod (2 ^ (bits + 1)) = x % n) := by
  have hbmod {y : ℤ} (hy : 0 ≤ y) (hfit : y < 2 ^ bits) : y.bmod (2 ^ (bits + 1)) = y := by
    apply Int.bmod_eq_of_le <;> push_cast <;> omega
  rw [Int.emod_eq_of_lt hx hlt]
  exact ⟨hbmod (Int.ediv_nonneg hx (by omega)), fun hfit hn =>
    hbmod (Int.emod_nonneg x (by omega)) hfit⟩

/-- **Division.**  When none of the three dividends is negative (the months, the days with what is
left of the months, the microseconds with what is left of the days), less than a microsecond is lost
for each of the `n` parts. -/
theorem interval_divide_of_nonneg (iv : IntervalT) (n : ℕ) (hn : 0 < n) (h : NoOverflow iv n)
    (hm : 0 ≤ iv.months) (hpos : 0 ≤ iv.days + iv.months % n * daysPerMonth)
    (hmicros : 0 ≤ iv.micros + (iv.days + iv.months % n * daysPerMonth) % n * microsPerDay) :
    |iv.getMicro - n * (iv.divide n).getMicro| < n := by
  have hn' : (n : ℤ) ≠ 0 := by omega
  obtain ⟨⟨-, h₁⟩, ⟨-, h₂⟩, ⟨-, h₃⟩, ⟨-, h₄⟩, ⟨-, h₅⟩⟩ := h
  rw [Int.tmod_eq_emod_of_nonneg hm] at h₃ h₄ h₅
  have hmonths := Int.mul_ediv_add_emod iv.months n
  have hq := Int.ediv_le_self n hm
  have hr := Int.emod_nonneg iv.months hn'
  have hr' : iv.months % n ≤ iv.months := by
    have := Int.mul_nonneg n.cast_nonneg (Int.ediv_nonneg hm n.cast_nonneg)
    omega
  -- no conversion to an unsigned type wraps
  have hlt : iv.days + iv.months % n * daysPerMonth < 2 ^ 64 := by
    simp only [daysPerMonth]
    omega
  rw [Int.tmod_eq_emod_of_nonneg hpos] at h₄ h₅
  rw [Int.tdiv_eq_ediv_of_nonneg hpos] at h₃
  rw [divide, (divMod_exact hm (by omega)).1 (by omega),
    (divMod_exact hm (by omega)).2 (by omega) hn, (divMod_exact hpos hlt).1 h₃,
    (divMod_exact hpos hlt).2 h₄ hn]
  generalize hdays : iv.days + iv.months % n * daysPerMonth = days at h₃ h₄ h₅ hpos hmicros hlt ⊢
  have hq' := Int.ediv_le_self n hmicros
  rw [(divMod_exact hmicros (by omega)).1 (by omega)]
  have hdiv := Int.mul_ediv_add_emod days n
  have hlost := Int.mul_ediv_add_emod (iv.micros + days % n * microsPerDay) n
  -- only the microseconds lose a remainder
  have heq : iv.getMicro - n * (IntervalT.mk (iv.months / n) (days / n)
      ((iv.micros + days % n * microsPerDay) / n)).getMicro =
      (iv.micros + days % n * microsPerDay) % n := by
    simp only [getMicro, microsPerMonth]
    linear_combination -microsPerDay * daysPerMonth * hmonths + microsPerDay * hdays -
      microsPerDay * hdiv - hlost
  rw [heq, abs_of_nonneg (Int.emod_nonneg _ hn')]
  exact Int.emod_lt_of_pos _ (by omega)

/-- A third of a month without a day is nine days and sixteen hours. -/
theorem interval_divide_of_nonneg_third :
    (⟨1, -1, 0⟩ : IntervalT).divide 3 = ⟨0, 9, 16 * 3600 * 1000000⟩ ∧
      |(⟨1, -1, 0⟩ : IntervalT).getMicro -
        (3 : ℕ) * ((⟨1, -1, 0⟩ : IntervalT).divide 3).getMicro| < (3 : ℕ) :=
  ⟨by decide, interval_divide_of_nonneg ⟨1, -1, 0⟩ 3 (by decide)
    (by constructor <;> decide) (by decide) (by decide) (by decide)⟩

/-- A third of a month ago is more than a hundred million years ahead. -/
theorem interval_divide_neg : NoOverflow ⟨-1, 0, 0⟩ 3 ∧
    ((⟨-1, 0, 0⟩ : IntervalT).divide 3) = ⟨1431655765, 0, 0⟩ ∧
    ¬|(⟨-1, 0, 0⟩ : IntervalT).getMicro - 3 * ((⟨-1, 0, 0⟩ : IntervalT).divide 3).getMicro|
      < 3 := by
  refine ⟨?_, by decide, by decide⟩
  constructor <;> decide

end Ladybug.IntervalT
