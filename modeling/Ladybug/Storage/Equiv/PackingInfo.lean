import Ladybug.Storage.Equiv.IntegerBitpacking
import Mathlib.Tactic.Positivity
import Mathlib.Tactic.Zify

/-!
# The packing of a range of values

`packing t m M` is the packing that `getPackingInfo` chooses for values between `m` and `M`, on
numbers without a width (`getPackingInfo_eq`). Values between `m` and `M` survive their packing
(`packing_roundTrip`) unless `m` is the least value of a signed type. The source takes absolute
values to find the width, and that value has none: the other types keep it as it is, so that only
`M` counts, and `int128_t` throws (`getPackingInfo_error`).
-/

namespace Ladybug

open IntType
open BitVec (intMin ofInt ofInt_neg ofNat_toNat setWidth_eq)

namespace IntType

variable {t : IntType} {x y : BitVec t.width}

/-! ### Numbers of a type -/

def minInt (t : IntType) : ℤ :=
  if t.isSigned then -2 ^ (t.width - 1) else 0

/-- The first number behind those of a type. -/
def endInt (t : IntType) : ℤ :=
  if t.isSigned then 2 ^ (t.width - 1) else 2 ^ t.width

/-- Values are at least the type's minimum. -/
lemma minInt_le (x : BitVec t.width) : t.minInt ≤ t.toInt x := by
  unfold minInt toInt
  cases t.isSigned with
  | true => exact BitVec.le_toInt x
  | false => exact Int.natCast_nonneg _

/-- Values are below the type's end. -/
lemma lt_endInt (x : BitVec t.width) : t.toInt x < t.endInt := by
  unfold endInt toInt
  cases t.isSigned with
  | true => exact BitVec.toInt_lt
  | false =>
    show (x.toNat : ℤ) < 2 ^ t.width
    exact_mod_cast x.isLt

/-- A value is determined by its integer. -/
lemma ofInt_toInt (x : BitVec t.width) : ofInt t.width (t.toInt x) = x := by
  unfold toInt
  cases t.isSigned with
  | true => exact BitVec.ofInt_toInt
  | false =>
    show ofInt t.width (x.toNat : ℤ) = x
    rw [BitVec.ofInt_natCast, ofNat_toNat, setWidth_eq]

lemma toInt_inj (h : t.toInt x = t.toInt y) : x = y := by
  rw [← ofInt_toInt x, ← ofInt_toInt y, h]

lemma two_pow_width (t : IntType) : (2 : ℤ) ^ t.width = 2 * 2 ^ (t.width - 1) := by
  have hpos := t.width_pos
  rw [← pow_succ', Nat.sub_add_cancel hpos]

/-- Integers in the type's range are kept. -/
lemma toInt_ofInt {i : ℤ} (hmin : t.minInt ≤ i) (hend : i < t.endInt) :
    t.toInt (ofInt t.width i) = i := by
  have hw := t.two_pow_width
  unfold minInt at hmin
  unfold endInt at hend
  unfold toInt
  cases hs : t.isSigned with
  | true =>
    simp only [hs, if_true] at hmin hend ⊢
    rw [BitVec.toInt_ofInt]
    apply Int.bmod_eq_of_le <;> push_cast <;> omega
  | false =>
    simp only [hs, Bool.false_eq_true, if_false] at hmin hend ⊢
    rw [BitVec.toNat_ofInt, Int.emod_eq_of_lt hmin (by push_cast; exact hend)]
    exact Int.toNat_of_nonneg hmin

/-- A value that is not negative is its own bits. -/
lemma toNat_of_nonneg (h : 0 ≤ t.toInt x) : (x.toNat : ℤ) = t.toInt x := by
  unfold toInt at h ⊢
  cases hs : t.isSigned with
  | true =>
    simp only [hs, if_true] at h ⊢
    have hcond := BitVec.toInt_eq_toNat_cond x
    split at hcond <;> omega
  | false => simp only [Bool.false_eq_true, if_false]

/-- The bits of a negative value. -/
lemma toNat_of_neg (h : t.toInt x < 0) : (x.toNat : ℤ) = 2 ^ t.width + t.toInt x := by
  unfold toInt at h ⊢
  cases hs : t.isSigned with
  | true =>
    simp only [hs, if_true] at h ⊢
    have hcond := BitVec.toInt_eq_toNat_cond x
    split at hcond <;> push_cast at hcond <;> omega
  | false =>
    simp only [hs, Bool.false_eq_true, if_false] at h
    omega

lemma toInt_zero : t.toInt 0 = 0 := by
  unfold toInt
  cases t.isSigned <;> simp

lemma ofInt_sub (w : ℕ) (i j : ℤ) :
    ofInt w (i - j) = ofInt w i - ofInt w j := by
  rw [Int.sub_eq_add_neg, BitVec.ofInt_add, ofInt_neg, BitVec.sub_eq_add_neg]

/-- A difference that fits is exact. -/
lemma toInt_sub (hmin : t.minInt ≤ t.toInt x - t.toInt y)
    (hend : t.toInt x - t.toInt y < t.endInt) : t.toInt (x - y) = t.toInt x - t.toInt y := by
  have hsub : x - y = ofInt t.width (t.toInt x - t.toInt y) := by
    rw [ofInt_sub, ofInt_toInt, ofInt_toInt]
  rw [hsub, toInt_ofInt hmin hend]

/-! ### Absolute values -/

lemma toInt_eq_minInt_iff (hs : t.isSigned = true) : t.toInt x = t.minInt ↔ x = intMin t.width := by
  have hmin : t.toInt (intMin t.width) = t.minInt := by
    unfold toInt minInt
    rw [if_pos hs, if_pos hs, BitVec.toInt_intMin]
    have hpos := t.width_pos
    have hlt : 2 ^ (t.width - 1) < 2 ^ t.width := Nat.pow_lt_pow_right (by decide) (by omega)
    rw [Nat.mod_eq_of_lt hlt]
    push_cast
    rfl
  constructor
  · intro h
    exact toInt_inj (h.trans hmin.symm)
  · rintro rfl
    exact hmin

lemma ite_slt_zero {w : ℕ} (x : BitVec w) :
    (if (true && x.slt 0) = true then -x else x) = if x.toInt < 0 then -x else x := by
  simp [BitVec.slt_eq_decide]

/-- Apart from the minimum of `INT128`, `abs` negates negative values. -/
lemma abs_eq (h : t = .int128 → t.toInt x ≠ t.minInt) :
    t.abs x = .ok (if t.toInt x < 0 then -x else x) := by
  cases t with
  | int128 =>
    have hne : x ≠ intMin 128 := fun hx => h rfl ((toInt_eq_minInt_iff rfl).mpr hx)
    exact Int128.ite_negate_eq hne
  | int8 | int16 | int32 | int64 => exact congrArg Except.ok (ite_slt_zero x)
  | uint8 | uint16 | uint32 | uint64 =>
    have hnonneg : ¬ ((x.toNat : ℤ) < 0) := by omega
    show Except.ok (if (false && BitVec.slt x 0) = true then -x else x) = _
    rw [Bool.false_and, if_neg Bool.false_ne_true]
    exact congrArg Except.ok (if_neg hnonneg).symm

/-- `abs` fails at the minimum of `INT128`. -/
lemma abs_error (ht : t = .int128) (hx : t.toInt x = t.minInt) : ∃ e, t.abs x = .error e := by
  subst ht
  have hmin : x = intMin 128 := (toInt_eq_minInt_iff rfl).mp hx
  subst hmin
  exact ⟨_, rfl⟩

lemma toInt_neg (hs : t.isSigned = true) (h : t.toInt x ≠ t.minInt) :
    t.toInt (-x) = -t.toInt x := by
  have hmin := minInt_le x
  have hend := lt_endInt x
  have hbound : t.endInt = -t.minInt := by
    unfold endInt minInt
    rw [if_pos hs, if_pos hs, neg_neg]
  have hneg : -x = ofInt t.width (-t.toInt x) := by
    rw [ofInt_neg, ofInt_toInt]
  rw [hneg, toInt_ofInt (by omega) (by omega)]

/-- The minimum is its own negation. -/
lemma neg_minInt (hs : t.isSigned = true) (h : t.toInt x = t.minInt) : -x = x := by
  rw [(toInt_eq_minInt_iff hs).mp h, BitVec.neg_intMin]

lemma isSigned_of_neg (h : t.toInt x < 0) : t.isSigned = true := by
  unfold toInt at h
  cases hs : t.isSigned with
  | true => rfl
  | false =>
    simp only [hs, Bool.false_eq_true, if_false] at h
    omega

lemma minInt_nonpos (t : IntType) : t.minInt ≤ 0 := by
  unfold minInt
  split
  · have hpos : (0 : ℤ) < 2 ^ (t.width - 1) := by positivity
    omega
  · exact le_refl 0

end IntType

namespace IntegerBitpacking

/-! ### The choice of the packing -/

/-- The packing of values between `m` and `M`. -/
def packing (t : IntType) (m M : ℤ) : BitpackInfo t :=
  if 0 < m ∧ bitWidth (M - m).toNat < bitWidth M.toNat then
    ⟨bitWidth (M - m).toNat, false, ofInt t.width m⟩
  else if 0 ≤ m then ⟨bitWidth M.toNat, false, 0⟩
  else ⟨bitWidth (if m = t.minInt then M.natAbs else max m.natAbs M.natAbs) + 1, true, 0⟩

variable {t : IntType} {lo hi x : BitVec t.width} {metadata : CompressionMetadata}

lemma toNat_sub_of_nonneg (hlo : 0 ≤ t.toInt lo) (hlt : t.toInt lo < t.toInt hi) :
    (hi - lo).toNat = (t.toInt hi - t.toInt lo).toNat := by
  have hend := lt_endInt hi
  have hmin := t.minInt_nonpos
  have hsub := toInt_sub (x := hi) (y := lo) (by omega) (by omega)
  have hnat := toNat_of_nonneg (x := hi - lo) (by omega)
  omega

/-- Differences of non-negative values fit. -/
lemma subFits_of_nonneg (hlo : 0 ≤ t.toInt lo) (hlt : t.toInt lo < t.toInt hi) :
    t.SubFits hi lo := by
  intro ht
  subst ht
  have hend : int128.toInt hi < 2 ^ 127 := lt_endInt hi
  omega

/-- When the positive frame of reference is taken. -/
lemma positiveFrameOfReference_eq (hlt : t.toInt lo < t.toInt hi) :
    positiveFrameOfReference t lo hi =
      .ok (decide (0 < t.toInt lo ∧
        bitWidth (t.toInt hi - t.toInt lo).toNat < bitWidth (t.toInt hi).toNat)) := by
  rw [positiveFrameOfReference, t.lessThan_eq, t.lessThan_eq, toInt_zero]
  by_cases hpos : 0 < t.toInt lo
  · have hhi : 0 < t.toInt hi := by omega
    have hnat := toNat_of_nonneg (le_of_lt hhi)
    have hcast : hi.toNat = (t.toInt hi).toNat := by omega
    rw [sub_ok (subFits_of_nonneg (le_of_lt hpos) hlt), ← toNat_sub_of_nonneg (le_of_lt hpos) hlt]
    simp only [hpos, hhi, decide_true, Bool.and_true, if_true, t.bitWidth_eq, hcast, true_and]
    rfl
  · simp only [hpos, decide_false, Bool.false_and, Bool.false_eq_true, if_false, false_and]
    rfl

/-- The differences of negative values take all bits, so the offset never saves one. -/
lemma negativeFrameOfReference_eq (hlt : t.toInt lo < t.toInt hi) :
    negativeFrameOfReference t lo hi = .ok false := by
  rw [negativeFrameOfReference, t.lessThan_eq, t.lessThan_eq, toInt_zero]
  by_cases hneg : t.toInt hi < 0
  · have hlo : t.toInt lo < 0 := by omega
    have hs := isSigned_of_neg hlo
    have hmin := minInt_le lo
    have hminInt : t.minInt = -2 ^ (t.width - 1) := if_pos hs
    have hendInt : t.endInt = 2 ^ (t.width - 1) := if_pos hs
    have hw := t.two_pow_width
    have hsub := toInt_sub (x := lo) (y := hi) (by omega) (by omega)
    have hnat := toNat_of_neg (x := lo - hi) (by omega)
    have hfits : t.SubFits lo hi := by
      intro ht
      subst ht
      have hmin' : -2 ^ 127 ≤ int128.toInt lo := minInt_le lo
      omega
    have hwide : ¬ bitWidth (lo - hi).toNat < bitWidth hi.toNat := by
      have hhi : bitWidth hi.toNat ≤ t.width := bitWidth_le.mpr hi.isLt
      have hsubw : t.width - 1 < bitWidth (lo - hi).toNat := by
        rw [lt_bitWidth]
        zify
        omega
      omega
    rw [sub_ok hfits]
    simp only [hlo, hneg, decide_true, Bool.and_true, if_true, t.bitWidth_eq]
    show Except.ok (decide _) = _
    rw [decide_eq_false hwide]
  · simp only [hneg, decide_false, Bool.and_false, Bool.false_eq_true, if_false]
    rfl

lemma toInt_ite_neg (h : t.toInt x < 0 → t.toInt x ≠ t.minInt) :
    t.toInt (if t.toInt x < 0 then -x else x) = (t.toInt x).natAbs := by
  split_ifs with hneg
  · rw [toInt_neg (isSigned_of_neg hneg) (h hneg)]
    omega
  · omega

lemma toNat_ite_neg (h : t.toInt x < 0 → t.toInt x ≠ t.minInt) :
    (if t.toInt x < 0 then -x else x).toNat = (t.toInt x).natAbs := by
  have hint := toInt_ite_neg h
  have hnat := toNat_of_nonneg (x := if t.toInt x < 0 then -x else x) (by omega)
  omega

/-- The larger one of the absolute values counts, unless the least value of the type is there. -/
lemma absBitWidth_eq (hlt : t.toInt lo < t.toInt hi) (h : t = .int128 → t.toInt lo ≠ t.minInt) :
    absBitWidth t lo hi =
      .ok (bitWidth (if t.toInt lo < 0 ∧ t.toInt lo = t.minInt then (t.toInt hi).natAbs
        else max (t.toInt lo).natAbs (t.toInt hi).natAbs)) := by
  have hmin := minInt_le lo
  have hhi : t.toInt hi ≠ t.minInt := by omega
  have hhiInt := toInt_ite_neg (x := hi) fun _ => hhi
  have hhiNat := toNat_ite_neg (x := hi) fun _ => hhi
  rw [absBitWidth, abs_eq h, abs_eq fun _ => hhi]
  apply congrArg Except.ok
  rw [t.lessThan_eq, t.bitWidth_eq, hhiInt]
  by_cases hm : t.toInt lo < 0 ∧ t.toInt lo = t.minInt
  · -- the least value is its own absolute value, and smaller than all others
    have hself : (if t.toInt lo < 0 then -lo else lo) = lo := by
      rw [if_pos hm.1, neg_minInt (isSigned_of_neg hm.1) hm.2]
    have hless : t.toInt lo < ((t.toInt hi).natAbs : ℤ) := by omega
    rw [hself, if_pos (decide_eq_true hless), hhiNat, if_pos hm]
  · have hlo : t.toInt lo < 0 → t.toInt lo ≠ t.minInt := fun hneg heq => hm ⟨hneg, heq⟩
    rw [toInt_ite_neg hlo, if_neg hm]
    by_cases hle : (t.toInt lo).natAbs < (t.toInt hi).natAbs
    · rw [if_pos (decide_eq_true (by exact_mod_cast hle)), hhiNat, max_eq_right (le_of_lt hle)]
    · have hle' : ¬ ((t.toInt lo).natAbs : ℤ) < (t.toInt hi).natAbs := by exact_mod_cast hle
      rw [decide_eq_false hle', if_neg Bool.false_ne_true, toNat_ite_neg hlo,
        max_eq_left (not_lt.mp hle)]

/-- **The packing** chosen for a minimum and a maximum. -/
lemma getPackingInfo_eq (hmin : metadata.min.get t = lo) (hmax : metadata.max.get t = hi)
    (hlt : t.toInt lo < t.toInt hi) (h : t = .int128 → t.toInt lo ≠ t.minInt) :
    getPackingInfo t metadata = .ok (packing t (t.toInt lo) (t.toInt hi)) := by
  simp only [getPackingInfo, packing, hmin, hmax, positiveFrameOfReference_eq hlt,
    negativeFrameOfReference_eq hlt, absBitWidth_eq hlt h, t.lessThan_eq, toInt_zero]
  by_cases hframe : 0 < t.toInt lo ∧
      bitWidth (t.toInt hi - t.toInt lo).toNat < bitWidth (t.toInt hi).toNat
  · have hwidth : t.bitWidth (hi - lo) = bitWidth (t.toInt hi - t.toInt lo).toNat := by
      rw [t.bitWidth_eq, toNat_sub_of_nonneg (le_of_lt hframe.1) hlt]
    rw [sub_ok (subFits_of_nonneg (le_of_lt hframe.1) hlt), if_pos hframe, ofInt_toInt, ← hwidth]
    rw [← hwidth] at hframe
    exact if_pos (decide_eq_true hframe)
  · rw [if_neg hframe]
    show (if decide _ = true then _ else _) = _
    rw [if_neg (by simpa using hframe)]
    by_cases hneg : t.toInt lo < 0
    · have hnot : ¬ 0 ≤ t.toInt lo := by omega
      have hand : (t.toInt lo < 0 ∧ t.toInt lo = t.minInt) ↔ t.toInt lo = t.minInt :=
        and_iff_right hneg
      rw [if_pos (decide_eq_true hneg), if_neg hnot]
      simp only [hand]
      rfl
    · have hnat : max (t.toInt lo).natAbs (t.toInt hi).natAbs = (t.toInt hi).toNat := by omega
      have hnonneg : 0 ≤ t.toInt lo := by omega
      have hnot : ¬ (t.toInt lo < 0 ∧ t.toInt lo = t.minInt) := fun hand => hneg hand.1
      rw [if_neg (by simpa using hneg), if_pos hnonneg, if_neg hnot, hnat]
      rfl

/-- The choice fails at the minimum of `INT128`. -/
lemma getPackingInfo_error (hmin : metadata.min.get t = lo)
    (hmax : metadata.max.get t = hi) (hlt : t.toInt lo < t.toInt hi) (ht : t = .int128)
    (hlo : t.toInt lo = t.minInt) : ∃ e, getPackingInfo t metadata = .error e := by
  obtain ⟨e, he⟩ := abs_error ht hlo
  have hneg : t.toInt lo < 0 := by
    rw [hlo, ht]
    decide
  refine ⟨e, ?_⟩
  simp only [getPackingInfo, hmin, hmax, positiveFrameOfReference_eq hlt,
    negativeFrameOfReference_eq hlt, absBitWidth, he, t.lessThan_eq, toInt_zero]
  show (if decide _ = true then _ else _) = _
  rw [if_neg (by simp; omega)]
  rw [if_pos (decide_eq_true hneg)]
  rfl

end IntegerBitpacking

/-! ### Values that survive their packing -/

namespace BitpackInfo

variable {t : IntType}

/-- The difference of a value and the offset has the bits of a packed value. -/
def Fits (info : BitpackInfo t) (value : BitVec t.width) : Prop :=
  if info.hasNegative then
    -2 ^ (info.bitWidth - 1) ≤ t.toInt value - t.toInt info.offset ∧
      t.toInt value - t.toInt info.offset < 2 ^ (info.bitWidth - 1)
  else
    0 ≤ t.toInt value - t.toInt info.offset ∧
      t.toInt value - t.toInt info.offset < 2 ^ info.bitWidth

/-- What is read back of a value. -/
def reread (info : BitpackInfo t) (value : BitVec t.width) : Except String (BitVec t.width) :=
  IntegerBitpacking.decodeValue info
    (BitVec.ofNat t.width ((info.encode value).toNat % 2 ^ info.bitWidth))

end BitpackInfo

namespace IntegerBitpacking

variable {t : IntType} {info : BitpackInfo t} {v : BitVec t.width} {n : ℕ}

/-- A value and the number it stands for have the same lower bits. -/
lemma bmod_toNat (hn : n ≤ t.width) (v : BitVec t.width) :
    (v.toNat : ℤ).bmod (2 ^ n) = (t.toInt v).bmod (2 ^ n) := by
  rcases lt_or_ge (t.toInt v) 0 with hneg | hnonneg
  · have hpow : (2 : ℤ) ^ t.width + t.toInt v =
        t.toInt v + ((2 ^ n : ℕ) : ℤ) * 2 ^ (t.width - n) := by
      push_cast
      rw [← pow_add, Nat.add_sub_cancel' hn]
      ring
    rw [toNat_of_neg hneg, hpow, Int.add_mul_bmod_self_left]
  · rw [toNat_of_nonneg hnonneg]

lemma two_pow_le_half (hn : n < t.width) : (2 : ℤ) ^ n ≤ 2 ^ (t.width - 1) :=
  pow_le_pow_right₀ (by decide) (by omega)

lemma two_pow_le_endInt (hn : n < t.width) : (2 : ℤ) ^ n ≤ t.endInt := by
  have hhalf := two_pow_le_half hn
  have hw := t.two_pow_width
  have hpos : (0 : ℤ) < 2 ^ (t.width - 1) := by positivity
  unfold endInt
  split <;> omega

section

variable (hbits : info.bitWidth < t.width)

include hbits

/-- Values are read back with a frame of reference, or as they are. -/
lemma reread_of_nonneg (hneg : info.hasNegative = false)
    (hoffset : 0 ≤ t.toInt info.offset) (hfits : info.Fits v) :
    info.Encodable v ∧ info.reread v = .ok v := by
  unfold BitpackInfo.Fits at hfits
  rw [hneg, if_neg Bool.false_ne_true] at hfits
  obtain ⟨hle, hlt⟩ := hfits
  have hmin := t.minInt_nonpos
  have hv := lt_endInt v
  have hsub := toInt_sub (x := v) (y := info.offset) (by omega) (by omega)
  have hnat := toNat_of_nonneg (x := v - info.offset) (by omega)
  have hmod : (info.encode v).toNat % 2 ^ info.bitWidth = (v - info.offset).toNat := by
    apply Nat.mod_eq_of_lt
    zify
    rw [BitpackInfo.encode]
    omega
  have hext : ∀ x, info.extend x = x := fun x => if_neg (by simp [hneg])
  constructor
  · intro _ ht
    subst ht
    have hv' : int128.toInt v < 2 ^ 127 := hv
    omega
  · rw [BitpackInfo.reread, hmod, ofNat_toNat, setWidth_eq, decodeValue_eq hbits, hext]
    by_cases h0 : info.offset = 0
    · rw [if_neg (not_not.mpr h0), h0]
      exact congrArg Except.ok (BitVec.sub_zero v)
    · have hfits : t.AddFits (v - info.offset) info.offset := by
        intro ht
        subst ht
        have hv' : int128.toInt v < 2 ^ 127 := hv
        omega
      rw [if_pos h0, addAssign_ok hfits, BitVec.sub_add_cancel]

/-- A signed packing reads back the low bits, as signed. -/
lemma reread_signed (hpos : 0 < info.bitWidth)
    (hneg : info.hasNegative = true) (hoffset : info.offset = 0) (v : BitVec t.width) :
    info.reread v = .ok (ofInt t.width ((t.toInt v).bmod (2 ^ info.bitWidth))) := by
  have henc : info.encode v = v := by
    rw [BitpackInfo.encode, hoffset]
    exact BitVec.sub_zero v
  have hlt : v.toNat % 2 ^ info.bitWidth < 2 ^ t.width := lt_of_le_of_lt (Nat.mod_le _ _) v.isLt
  rw [BitpackInfo.reread, henc, decodeValue_eq hbits, if_neg (not_not.mpr hoffset),
    BitpackInfo.extend, if_pos ⟨hneg, hpos⟩, BitVec.toNat_ofNat, Nat.mod_eq_of_lt hlt,
    Int.natCast_mod, Int.emod_bmod, bmod_toNat (le_of_lt hbits)]

/-- A signed packing keeps exactly the values that fit. -/
lemma reread_signed_iff (hpos : 0 < info.bitWidth)
    (hneg : info.hasNegative = true) (hoffset : info.offset = 0) (hs : t.isSigned = true)
    (v : BitVec t.width) : info.reread v = .ok v ↔ info.Fits v := by
  have hpow : ((2 ^ info.bitWidth : ℕ) : ℤ) = 2 * 2 ^ (info.bitWidth - 1) := by
    push_cast
    rw [← pow_succ', Nat.sub_add_cancel hpos]
  have hfits : info.Fits v ↔ -2 ^ (info.bitWidth - 1) ≤ t.toInt v ∧
      t.toInt v < 2 ^ (info.bitWidth - 1) := by
    rw [BitpackInfo.Fits, hneg, if_pos rfl, hoffset, toInt_zero, sub_zero]
  rw [reread_signed hbits hpos hneg hoffset, hfits]
  constructor
  · intro h
    -- a number that was cut to the lower bits lies in their range
    have heq := congrArg t.toInt (Except.ok.inj h)
    have hge := Int.le_bmod (x := t.toInt v) (m := 2 ^ info.bitWidth) (Nat.two_pow_pos _)
    have hlt := Int.bmod_lt (x := t.toInt v) (m := 2 ^ info.bitWidth) (Nat.two_pow_pos _)
    have hhalf := two_pow_le_half hbits
    have hmin : t.minInt = -2 ^ (t.width - 1) := if_pos hs
    have hend : t.endInt = 2 ^ (t.width - 1) := if_pos hs
    have hbw : (2 : ℤ) ^ (info.bitWidth - 1) ≤ 2 ^ info.bitWidth :=
      pow_le_pow_right₀ (by decide) (by omega)
    rw [toInt_ofInt (by omega) (by omega)] at heq
    omega
  · rintro ⟨hge, hlt⟩
    rw [Int.bmod_eq_of_le (by omega) (by omega), ofInt_toInt]

end

/-! ### Packings of ranges -/

variable {m M : ℤ}

/-- The three packings: with an offset, unsigned and signed. -/
lemma packing_cases (t : IntType) (m M : ℤ) :
    (0 < m ∧ bitWidth (M - m).toNat < bitWidth M.toNat ∧
      packing t m M = ⟨bitWidth (M - m).toNat, false, ofInt t.width m⟩) ∨
    (0 ≤ m ∧ ¬ (0 < m ∧ bitWidth (M - m).toNat < bitWidth M.toNat) ∧
      packing t m M = ⟨bitWidth M.toNat, false, 0⟩) ∨
    (m < 0 ∧ packing t m M =
      ⟨bitWidth (if m = t.minInt then M.natAbs else max m.natAbs M.natAbs) + 1, true, 0⟩) := by
  unfold packing
  by_cases hframe : 0 < m ∧ bitWidth (M - m).toNat < bitWidth M.toNat
  · exact .inl ⟨hframe.1, hframe.2, if_pos hframe⟩
  · rw [if_neg hframe]
    rcases lt_or_ge m 0 with hneg | hnonneg
    · exact .inr (.inr ⟨hneg, if_neg (by omega)⟩)
    · exact .inr (.inl ⟨hnonneg, hframe, if_pos hnonneg⟩)

lemma le_two_pow_bitWidth (i : ℤ) : i < 2 ^ bitWidth i.toNat := by
  have hlt : ((i.toNat : ℕ) : ℤ) < ((2 ^ bitWidth i.toNat : ℕ) : ℤ) :=
    Int.ofNat_lt.mpr (lt_two_pow_bitWidth i.toNat)
  push_cast at hlt
  omega

lemma natAbs_lt_two_pow_bitWidth {i : ℤ} (h : i.natAbs ≤ n) :
    -2 ^ bitWidth n < i ∧ i < 2 ^ bitWidth n := by
  have hlt : (n : ℤ) < ((2 ^ bitWidth n : ℕ) : ℤ) := Int.ofNat_lt.mpr (lt_two_pow_bitWidth n)
  push_cast at hlt
  omega

/-- The values between the bounds fit, unless the least value of a signed type is one of them. -/
lemma packing_fits (hm : t.minInt ≤ m) (hM : M < t.endInt) (hne : m < 0 → m ≠ t.minInt)
    (hlo : m ≤ t.toInt v) (hhi : t.toInt v ≤ M) : (packing t m M).Fits v := by
  rcases packing_cases t m M with ⟨hpos, -, hp⟩ | ⟨hnonneg, -, hp⟩ | ⟨hneg, hp⟩
  · have hwidth := le_two_pow_bitWidth (M - m)
    rw [hp, BitpackInfo.Fits, if_neg Bool.false_ne_true, toInt_ofInt hm (by omega)]
    constructor
    · omega
    · show _ < (2 : ℤ) ^ bitWidth (M - m).toNat
      omega
  · have hwidth := le_two_pow_bitWidth M
    rw [hp, BitpackInfo.Fits, if_neg Bool.false_ne_true, toInt_zero]
    constructor
    · omega
    · show _ < (2 : ℤ) ^ bitWidth M.toNat
      omega
  · have hwidth := natAbs_lt_two_pow_bitWidth (i := t.toInt v) (n := max m.natAbs M.natAbs)
      (by omega)
    rw [hp, BitpackInfo.Fits, if_pos rfl, toInt_zero, if_neg (hne hneg)]
    constructor <;> simp only [Nat.add_sub_cancel] <;> omega

/-- Values between the bounds survive the packing. -/
lemma packing_roundTrip (hbits : (packing t m M).bitWidth < t.width) (hm : t.minInt ≤ m)
    (hM : M < t.endInt) (hne : m < 0 → m ≠ t.minInt) (hlo : m ≤ t.toInt v) (hhi : t.toInt v ≤ M) :
    (packing t m M).Encodable v ∧ (packing t m M).reread v = .ok v := by
  have hfits := packing_fits hm hM hne hlo hhi
  rcases packing_cases t m M with ⟨hpos, -, hp⟩ | ⟨hnonneg, -, hp⟩ | ⟨hneg, hp⟩
  · apply reread_of_nonneg hbits (by rw [hp]) _ hfits
    rw [hp, toInt_ofInt hm (by omega)]
    omega
  · apply reread_of_nonneg hbits (by rw [hp]) _ hfits
    rw [hp, toInt_zero]
  · have hs : t.isSigned = true := by
      cases hs : t.isSigned with
      | true => rfl
      | false =>
        rw [minInt, hs, if_neg Bool.false_ne_true] at hm
        omega
    have hoffset : (packing t m M).offset = 0 := by rw [hp]
    refine ⟨fun h0 => absurd hoffset h0, ?_⟩
    have hpos : 0 < (packing t m M).bitWidth := by
      rw [hp]
      exact Nat.succ_pos _
    exact (reread_signed_iff hbits hpos (by rw [hp]) hoffset hs v).mpr hfits

end IntegerBitpacking

end Ladybug
