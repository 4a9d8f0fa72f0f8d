import Ladybug.Common.Int128
import Mathlib.Tactic.Ring

/-!
# The operations of the 128-bit integers

The word-wise operations of `int128_t` are those of the numbers of 128 bits:

* `addAssign_eq`: a sum is an error when it does not fit;
* `sub_eq`: a difference is one also when it is the least number, although that fits;
* `negate_eq`: the least number has no negative;
* `operators_exact`.
-/

namespace Ladybug

open BitVec

/-! ### The width of a number -/

/-- The bits needed for a number. -/
lemma bitWidth_le {x n : ℕ} : bitWidth x ≤ n ↔ x < 2 ^ n := by
  unfold bitWidth
  split_ifs with hx
  · rw [hx]
    exact ⟨fun _ => Nat.two_pow_pos n, fun _ => Nat.zero_le n⟩
  · exact Nat.log2_lt hx

lemma lt_bitWidth {x n : ℕ} : n < bitWidth x ↔ 2 ^ n ≤ x := by
  rw [← not_le, bitWidth_le, not_lt]

lemma lt_two_pow_bitWidth (x : ℕ) : x < 2 ^ bitWidth x := bitWidth_le.mp (le_refl _)

lemma bitWidth_mono {x y : ℕ} (h : x ≤ y) : bitWidth x ≤ bitWidth y :=
  bitWidth_le.mpr (lt_of_le_of_lt h (lt_two_pow_bitWidth y))

namespace Int128

/-! ### Words -/

/-- A number is its two words. -/
lemma ofWords_low_high (x : BitVec 128) : ofWords (low x) (high x) = x := by
  unfold ofWords low high
  ext i hi
  simp only [getElem_append, getElem_extractLsb']
  split
  · simp [getLsbD_eq_getElem hi]
  · have hadd : 64 + (i - 64) = i := by omega
    simp [hadd, getLsbD_eq_getElem hi]

lemma toNat_ofWords (l h : BitVec 64) : (ofWords l h).toNat = 2 ^ 64 * h.toNat + l.toNat := by
  rw [ofWords, toNat_append, Nat.shiftLeft_eq, Nat.mul_comm]
  exact (Nat.two_pow_add_eq_or_of_lt l.isLt h.toNat).symm

lemma toNat_eq (x : BitVec 128) : x.toNat = 2 ^ 64 * (high x).toNat + (low x).toNat := by
  rw [← toNat_ofWords, ofWords_low_high]

/-- Only the high word is signed. -/
lemma toInt_ofWords (l h : BitVec 64) : (ofWords l h).toInt = 2 ^ 64 * h.toInt + l.toNat := by
  rw [toInt_eq_toNat_cond, toInt_eq_toNat_cond, toNat_ofWords]
  split <;> split <;> omega

lemma toInt_eq (x : BitVec 128) : x.toInt = 2 ^ 64 * (high x).toInt + (low x).toNat := by
  rw [← toInt_ofWords, ofWords_low_high]

lemma low_ofWords (l h : BitVec 64) : low (ofWords l h) = l := by
  apply eq_of_toNat_eq
  rw [low, extractLsb'_toNat, toNat_ofWords]
  omega

lemma high_ofWords (l h : BitVec 64) : high (ofWords l h) = h := by
  apply eq_of_toNat_eq
  rw [high, extractLsb'_toNat, toNat_ofWords, Nat.shiftRight_eq_div_pow]
  omega

lemma eq_iff_words {x y : BitVec 128} : x = y ↔ low x = low y ∧ high x = high y := by
  constructor
  · rintro rfl
    exact ⟨rfl, rfl⟩
  · rintro ⟨hl, hh⟩
    rw [← ofWords_low_high x, ← ofWords_low_high y, hl, hh]

lemma words_intMin_iff (x : BitVec 128) : (high x = intMin 64 ∧ low x = 0) ↔ x = intMin 128 := by
  rw [eq_iff_words]
  have hl : low (intMin 128) = 0 := by decide
  have hh : high (intMin 128) = intMin 64 := by decide
  rw [hl, hh]
  exact and_comm

/-! ### Comparison, shifts and width -/

/-- `lessThan` is the signed comparison. -/
lemma lessThan_eq (x y : BitVec 128) : lessThan x y = x.slt y := by
  have heq : high x = high y ↔ (high x).toInt = (high y).toInt := toInt_inj.symm
  rw [Bool.eq_iff_iff]
  simp only [lessThan, Bool.or_eq_true, Bool.and_eq_true, beq_iff_eq, heq, slt_iff_toInt_lt,
    ult_iff_lt, lt_def, toInt_eq x, toInt_eq y]
  omega

lemma getLsbD_ofWords (l h : BitVec 64) (i : ℕ) :
    (ofWords l h).getLsbD i = if i < 64 then l.getLsbD i else h.getLsbD (i - 64) :=
  getLsbD_append

section

variable (x : BitVec 128)

lemma getLsbD_low (i : ℕ) : (low x).getLsbD i = (decide (i < 64) && x.getLsbD i) := by
  rw [low, getLsbD_extractLsb', Nat.zero_add]

lemma getLsbD_high (i : ℕ) : (high x).getLsbD i = (decide (i < 64) && x.getLsbD (64 + i)) :=
  getLsbD_extractLsb' 64 64 x i

/-- `leftShift` is the shift of the whole number. -/
lemma leftShift_eq (n : ℕ) : leftShift x n = x <<< n := by
  apply eq_of_getLsbD_eq
  intro i hi
  unfold leftShift
  by_cases hn : 64 ≤ n
  · rw [if_pos hn, getLsbD_ofWords]
    by_cases h64 : i < 64
    · have hlt : i < n := by omega
      simp [h64, hlt]
    · have hsub : i - 64 - (n - 64) = i - n := by omega
      have hiff : i - 64 < n - 64 ↔ i < n := by omega
      have hpos : i - 64 < 64 := by omega
      have hlow : i - n < 64 := by omega
      rw [if_neg h64, getLsbD_shiftLeft, getLsbD_shiftLeft, getLsbD_low, hsub]
      simp [hiff, hpos, hlow, hi]
  · rw [if_neg hn]
    split_ifs with h0
    · rw [h0, shiftLeft_zero]
    · rw [getLsbD_ofWords]
      simp only [getLsbD_or, getLsbD_shiftLeft, getLsbD_ushiftRight, getLsbD_low, getLsbD_high]
      generalize x.getLsbD = f
      grind

/-- `rightShift` is arithmetic. -/
lemma rightShift_eq (n : ℕ) : rightShift x n = x.sshiftRight n := by
  apply eq_of_getLsbD_eq
  intro i hi
  have hmsb : (high x).msb = x.msb := by
    rw [msb_eq_getLsbD_last, msb_eq_getLsbD_last, getLsbD_high]
    simp
  unfold rightShift
  by_cases hn : 64 ≤ n
  · rw [if_pos hn, getLsbD_ofWords]
    simp only [getLsbD_sshiftRight, getLsbD_high, hmsb, msb_eq_getLsbD_last]
    generalize x.getLsbD = f
    grind
  · rw [if_neg hn]
    split_ifs with h0
    · rw [h0, sshiftRight_zero]
    · rw [getLsbD_ofWords]
      simp only [getLsbD_or, getLsbD_shiftLeft, getLsbD_ushiftRight,
        getLsbD_sshiftRight, getLsbD_low, getLsbD_high, hmsb]
      generalize x.getLsbD = f
      grind

lemma bitWidth_eq : bitWidth x = Ladybug.bitWidth x.toNat := by
  unfold bitWidth
  by_cases hh : high x = 0
  · rw [if_neg (not_not.mpr hh), toNat_eq x, hh]
    simp
  · rw [if_pos hh]
    have hpos : 0 < (high x).toNat := by
      rcases Nat.eq_zero_or_pos (high x).toNat with h | h
      · exact absurd (eq_of_toNat_eq (by simpa using h)) hh
      · exact h
    -- both sides are the least `n` with `x < 2 ^ n`
    apply le_antisymm
    · have hx := lt_two_pow_bitWidth x.toNat
      have hge : 64 ≤ Ladybug.bitWidth x.toNat := by
        apply le_of_lt
        rw [lt_bitWidth, toNat_eq x]
        omega
      obtain ⟨k, hk⟩ := Nat.exists_eq_add_of_le hge
      rw [hk]
      apply Nat.add_le_add_left
      rw [bitWidth_le]
      rw [hk, toNat_eq x, Nat.pow_add] at hx
      omega
    · have hx := lt_two_pow_bitWidth (high x).toNat
      rw [bitWidth_le, toNat_eq x, Nat.pow_add]
      omega

end

/-! ### Arithmetic -/

lemma toInt_bounds (x : BitVec 64) : -2 ^ 63 ≤ x.toInt ∧ x.toInt < 2 ^ 63 := ⟨le_toInt x, toInt_lt⟩

section

variable (x y : BitVec 128)

/-- The carry out of the low words. -/
lemma low_add :
    ((low x + low y).toNat : ℤ) = (low x).toNat + (low y).toNat -
      2 ^ 64 * (if (low x + low y).toNat < (low x).toNat then 1 else 0) := by
  rw [toNat_add]
  split <;> omega

lemma ofWords_add :
    ofWords (low x + low y) (high x + high y +
      BitVec.ofInt 64 (if (low x + low y).toNat < (low x).toNat then 1 else 0)) = x + y := by
  apply eq_of_toNat_eq
  rw [toNat_ofWords, toNat_add, toNat_add, toNat_add, toNat_add, toNat_eq x, toNat_eq y]
  split <;> simp <;> omega

/-- `addInPlace` succeeds exactly in range. -/
lemma addInPlace_eq :
    addInPlace x y =
      if -2 ^ 127 ≤ x.toInt + y.toInt ∧ x.toInt + y.toInt < 2 ^ 127 then some (x + y)
      else none := by
  have hx := toInt_eq x
  have hy := toInt_eq y
  have hxh := toInt_bounds (high x)
  have hcarry := low_add x y
  have hwords := ofWords_add x y
  simp only [addInPlace]
  generalize hc : (if (low x + low y).toNat < (low x).toNat then (1 : ℤ) else 0) = c at *
  by_cases hrange : -2 ^ 127 ≤ x.toInt + y.toInt ∧ x.toInt + y.toInt < 2 ^ 127
  · rw [if_pos hrange, if_neg (by omega), if_neg (by omega), hwords, if_neg]
    -- a sum of positive numbers that fits is not the least number
    rintro ⟨hxpos, hypos, hmin, hzero⟩
    have hsum : x + y = intMin 128 := by
      rw [← hwords, hmin, hzero]
      decide
    have htoInt : (x + y).toInt = -2 ^ 127 := by
      rw [hsum]
      decide
    rw [toInt_add, Int.bmod_eq_of_le (by omega) (by omega)] at htoInt
    omega
  · rw [if_neg hrange]
    by_cases hpos : 0 ≤ (high y).toInt
    · rw [if_pos (by omega)]
    · rw [if_neg (by omega), if_pos (by omega)]

/-- The borrow out of the low words. -/
lemma low_sub :
    ((low x - low y).toNat : ℤ) = (low x).toNat - (low y).toNat +
      2 ^ 64 * (if (low x).toNat < (low x - low y).toNat then 1 else 0) := by
  rw [toNat_sub]
  split <;> omega

lemma ofWords_sub :
    ofWords (low x - low y) (high x - high y -
      BitVec.ofInt 64 (if (low x).toNat < (low x - low y).toNat then 1 else 0)) = x - y := by
  apply eq_of_toNat_eq
  rw [toNat_ofWords, toNat_sub, toNat_sub, toNat_sub, toNat_sub, toNat_eq x, toNat_eq y]
  split <;> simp <;> omega

/-- `subInPlace` refuses the minimum, too. -/
lemma subInPlace_eq :
    subInPlace x y =
      if -2 ^ 127 < x.toInt - y.toInt ∧ x.toInt - y.toInt < 2 ^ 127 then some (x - y)
      else none := by
  have hx := toInt_eq x
  have hy := toInt_eq y
  have hxh := toInt_bounds (high x)
  have hyh := toInt_bounds (high y)
  have hborrow := low_sub x y
  have hwords := ofWords_sub x y
  simp only [subInPlace]
  generalize hc : (if (low x).toNat < (low x - low y).toNat then (1 : ℤ) else 0) = c at *
  by_cases hfits : -2 ^ 127 ≤ x.toInt - y.toInt ∧ x.toInt - y.toInt < 2 ^ 127
  · rw [if_neg (by omega), if_neg (by omega), hwords]
    have htoInt : (x - y).toInt = x.toInt - y.toInt := by
      rw [toInt_sub, Int.bmod_eq_of_le (by omega) (by omega)]
    have hmin : (high x - high y - BitVec.ofInt 64 c = intMin 64 ∧ low x - low y = 0) ↔
        x.toInt - y.toInt = -2 ^ 127 := by
      have hminInt : (intMin 128).toInt = -2 ^ 127 := by decide
      rw [← htoInt, ← hminInt, toInt_inj, ← hwords, ← words_intMin_iff, low_ofWords, high_ofWords]
    by_cases hlast : x.toInt - y.toInt = -2 ^ 127
    · rw [if_pos (hmin.mpr hlast), if_neg (by omega)]
    · rw [if_neg (fun h => hlast (hmin.mp h)), if_pos (by omega)]
  · have hout : ¬ (-2 ^ 127 < x.toInt - y.toInt ∧ x.toInt - y.toInt < 2 ^ 127) := by omega
    rw [if_neg hout]
    by_cases hpos : 0 ≤ (high y).toInt
    · rw [if_pos (by omega)]
    · rw [if_neg (by omega), if_pos (by omega)]

lemma addAssign_eq :
    addAssign x y =
      if -2 ^ 127 ≤ x.toInt + y.toInt ∧ x.toInt + y.toInt < 2 ^ 127 then .ok (x + y)
      else .error "INT128 is out of range: cannot add in place." := by
  rw [addAssign, addInPlace_eq]
  split_ifs with h
  · rfl
  · rfl

/-- `operator-` fails when the difference does not fit or is the least number. -/
lemma sub_eq :
    sub x y =
      if -2 ^ 127 < x.toInt - y.toInt ∧ x.toInt - y.toInt < 2 ^ 127 then .ok (x - y)
      else .error "INT128 is out of range: cannot subtract." := by
  rw [sub, subInPlace_eq]
  split_ifs with h
  · rfl
  · rfl

end

/-- `negate` fails at the minimum only. -/
lemma negate_eq (x : BitVec 128) :
    negate x = if x = intMin 128 then
        .error "INT128 is out of range: cannot negate INT128_MIN"
      else .ok (-x) := by
  unfold negate
  by_cases hmin : x = intMin 128
  · rw [if_pos ((words_intMin_iff x).mpr hmin), if_pos hmin]
    rfl
  · rw [if_neg (fun h => hmin ((words_intMin_iff x).mp h)), if_neg hmin]
    apply congrArg Except.ok
    apply eq_of_toNat_eq
    -- the lower word is zero exactly when it was zero, and then the upper one is negated fully
    have hzero : 0 - low x = 0 ↔ (low x).toNat = 0 := by
      rw [← toNat_inj, toNat_sub]
      simp
      omega
    rw [toNat_ofWords, toNat_neg, toNat_eq x]
    by_cases h0 : (low x).toNat = 0
    · rw [if_pos (hzero.mpr h0), hzero.mpr h0]
      simp [h0]
      omega
    · rw [if_neg (fun h => h0 (hzero.mp h))]
      simp
      omega

/-- **Exactness.** The operators on words are those of the integers: each gives the exact result or
throws, and `operator-` of two operands throws also for the least number. -/
theorem operators_exact (x y z : BitVec 128) :
    (lessThan x y = true ↔ x.toInt < y.toInt) ∧
      (addAssign x y = .ok z ↔ z.toInt = x.toInt + y.toInt) ∧
      (sub x y = .ok z ↔ z.toInt = x.toInt - y.toInt ∧ z ≠ intMin 128) ∧
      (negate x = .ok z ↔ z.toInt = -x.toInt) := by
  have hx := x.le_toInt
  have hx' := x.toInt_lt
  have hz := z.le_toInt
  have hz' := z.toInt_lt
  have hmin {w : BitVec 128} : w = intMin 128 ↔ w.toInt = -2 ^ 127 := toInt_inj.symm
  have hok {p : Prop} [Decidable p] {e : String} {w : BitVec 128} :
      (if p then Except.ok w else .error e) = .ok z ↔ p ∧ w.toInt = z.toInt := by
    split_ifs <;> simp [toInt_inj, *]
  refine ⟨by rw [lessThan_eq, slt_iff_toInt_lt], ?_, ?_, ?_⟩
  · rw [addAssign_eq, hok, toInt_add, Int.bmod_def]
    omega
  · rw [sub_eq, hok, toInt_sub, Int.bmod_def, ne_eq, hmin]
    omega
  · rw [negate_eq, ← ite_not, hok, hmin, toInt_neg, Int.bmod_def]
    omega

lemma ite_negate_eq {x : BitVec 128} (h : x ≠ intMin 128) :
    (if lessThan x 0 then negate x else return x) = .ok (if x.toInt < 0 then -x else x) := by
  have hzero : (0 : BitVec 128).toInt = 0 := by decide
  rw [lessThan_eq, negate_eq, if_neg h, slt_eq_decide, hzero]
  by_cases hneg : x.toInt < 0
  · simp [hneg]
  · simp [hneg]
    rfl

end Int128

end Ladybug
