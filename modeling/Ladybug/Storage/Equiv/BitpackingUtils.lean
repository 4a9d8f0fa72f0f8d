import Ladybug.Common.Equiv.Int128
import Ladybug.Storage.BitpackingUtils

/-!
# What is packed is unpacked

Packing and unpacking a single value write and read the bit field of its position. The blocks of
128-bit values have the layout of FastPFor, whose blocks these functions can therefore also read and
write.
-/

namespace Ladybug

open List BitField BitVec FastPFor Int128

namespace IntType

variable (t : IntType) {n : ℕ}

/-! ### Types and their operations -/

lemma fieldBits_pos : 0 < t.fieldBits := by
  cases t <;> decide

lemma fieldBits_le_width : t.fieldBits ≤ t.width := by
  cases t <;> decide

lemma width_le : t.width ≤ 4 * t.fieldBits := by
  cases t <;> decide

lemma width_pos : 0 < t.width := by
  cases t <;> decide

/-- `shiftLeft` is the shift of all types. -/
lemma shiftLeft_eq (x : BitVec t.width) (n : ℕ) : t.shiftLeft x n = x <<< n := by
  cases t with
  | int128 => exact leftShift_eq x n
  | _ => rfl

/-- Without a sign bit the two ways to shift to the right are the same. -/
lemma shiftRight_eq_of_msb {x : BitVec t.width} (h : t = .int128 → x.msb = false) (n : ℕ) :
    t.shiftRight x n = x >>> n := by
  cases t with
  | int128 =>
    exact (rightShift_eq x n).trans (sshiftRight_eq_of_msb_false (h rfl))
  | _ => rfl

lemma shiftRight_setWidth_eq (x : BitVec t.fieldBits) (n : ℕ) :
    t.shiftRight (x.setWidth t.width) n = x.setWidth t.width >>> n := by
  cases t with
  | int128 =>
    apply shiftRight_eq_of_msb
    intro
    rw [msb_setWidth]
    exact getLsbD_of_ge x _ (by decide)
  | _ => rfl

lemma lessThan_eq (x y : BitVec t.width) : t.lessThan x y = decide (t.toInt x < t.toInt y) := by
  cases t with
  | int128 => exact lessThan_eq x y
  | int8 | int16 | int32 | int64 => rfl
  | uint8 | uint16 | uint32 | uint64 =>
    simp [lessThan, toInt, isSigned, BitVec.ult]

lemma bitWidth_eq (x : BitVec t.width) : t.bitWidth x = Ladybug.bitWidth x.toNat := by
  cases t with
  | int128 => exact bitWidth_eq x
  | _ => rfl

lemma getLsbD_one_shiftLeft_sub_one {w : ℕ} (hn : n < w) (i : ℕ) :
    (1#w <<< n - 1#w).getLsbD i = decide (i < n) := by
  have htwo : (1#w <<< n).toNat = 2 ^ n := toNat_twoPow_of_lt hn
  have hone : (1#w).toNat = 1 := Nat.mod_eq_of_lt (Nat.one_lt_two_pow (by omega))
  have hle : 1#w ≤ 1#w <<< n := by
    rw [le_def, htwo, hone]
    exact Nat.one_le_two_pow
  rw [getLsbD, toNat_sub_of_le hle, htwo, hone, Nat.testBit_two_pow_sub_one]

/-- The widths with a mask: a mask of 128 bits is not what it should be. -/
def Packable (n : ℕ) : Prop := n ≤ t.width ∧ (t = .int128 → n < 128)

variable {t} in
lemma packable_of_lt (hn : n < t.width) : t.Packable n := ⟨hn.le, fun ht => by rwa [ht] at hn⟩

/-- The mask keeps the low bits. -/
lemma getLsbD_all1sMask (hn : t.Packable n) (i : ℕ) :
    (t.all1sMaskForLeastSignificantBits n).getLsbD i = decide (i < n) := by
  cases t with
  | int128 =>
    have hmax : ~~~(leftShift 1 127) = 1#128 <<< 127 - 1#128 := by decide
    have hmsb : (1#128 <<< 127 - 1#128).msb = false := by decide
    have hn' : n < 128 := hn.2 rfl
    refine (congrArg (getLsbD · i) (if_pos hn')).trans ?_
    show (rightShift (~~~(leftShift 1 127)) (127 - n)).getLsbD i = _
    rw [rightShift_eq, hmax, sshiftRight_eq_of_msb_false hmsb, getLsbD_ushiftRight,
      getLsbD_one_shiftLeft_sub_one (by decide)]
    grind
  | _ =>
    obtain hlt | rfl := Nat.lt_or_eq_of_le hn.1
    · have hne : n ≠ _ := Nat.ne_of_lt hlt
      exact (congrArg (getLsbD · i) (if_neg hne)).trans (getLsbD_one_shiftLeft_sub_one hlt i)
    · exact (congrArg (getLsbD · i) (if_pos rfl)).trans getLsbD_allOnes

end IntType

/-! ### Single values -/

namespace BitpackingUtils

variable (t : IntType)

/-- The bits of a loaded field. -/
lemma getLsbD_loadField (buffer pos i j : ℕ) :
    (loadField t buffer pos i).getLsbD j =
      (decide (j < t.fieldBits) && buffer.testBit (pos + t.fieldBits * i + j)) := by
  rw [loadField, getLsbD_ofNat, testBit_get]
  simp

/-- Storing a field changes its own bits. -/
lemma testBit_storeField (buffer pos i q : ℕ) (field : BitVec t.fieldBits) :
    (storeField t buffer pos i field).testBit q =
      if pos + t.fieldBits * i ≤ q ∧ q < pos + t.fieldBits * i + t.fieldBits then
        field.getLsbD (q - (pos + t.fieldBits * i))
      else buffer.testBit q := by
  rw [storeField, testBit_set]
  rfl

variable {bitWidth shift : ℕ}

/-- The fields `0, …, i` hold the bits from `shift` of the first one on. -/
lemma getLsbD_unpackSingleField (hshift : shift < t.fieldBits) (buffer pos i j : ℕ) :
    (unpackSingleField t buffer pos shift i).getLsbD j =
      (decide (j < t.width) && decide (shift + j < (i + 1) * t.fieldBits) &&
        buffer.testBit (pos + (shift + j))) := by
  have hle := t.fieldBits_le_width
  induction i with
  | zero =>
    rw [unpackSingleField, t.shiftRight_setWidth_eq, getLsbD_ushiftRight,
      getLsbD_setWidth, getLsbD_loadField]
    simp only [Nat.mul_zero, Nat.add_zero, Nat.zero_add, Nat.one_mul]
    by_cases hj : shift + j < t.fieldBits
    · have hw : shift + j < t.width := by omega
      have hjw : j < t.width := by omega
      simp [hj, hw, hjw]
    · simp [hj]
  | succ i ih =>
    have hexp : (i + 1 + 1) * t.fieldBits = (i + 1) * t.fieldBits + t.fieldBits := Nat.succ_mul _ _
    have hge : t.fieldBits ≤ (i + 1) * t.fieldBits := Nat.le_mul_of_pos_left _ (Nat.succ_pos i)
    rw [unpackSingleField, getLsbD_or, ih, t.shiftLeft_eq, getLsbD_shiftLeft,
      getLsbD_setWidth, getLsbD_loadField, hexp]
    by_cases hj : shift + j < (i + 1) * t.fieldBits
    · -- the bit lies in a field before
      have hlt : j < (i + 1) * t.fieldBits - shift := by omega
      have hnext : shift + j < (i + 1) * t.fieldBits + t.fieldBits := by omega
      simp [hj, hlt, hnext]
    -- the bit lies in this field
    · have hnlt : ¬ j < (i + 1) * t.fieldBits - shift := by omega
      have hpos : pos + t.fieldBits * (i + 1) + (j - ((i + 1) * t.fieldBits - shift)) =
          pos + (shift + j) := by
        rw [Nat.mul_comm t.fieldBits]
        omega
      have hiff : j - ((i + 1) * t.fieldBits - shift) < t.fieldBits ↔
          shift + j < (i + 1) * t.fieldBits + t.fieldBits := by omega
      rw [hpos]
      by_cases hw : j < t.width
      · have hw' : j - ((i + 1) * t.fieldBits - shift) < t.width := by omega
        simp [hj, hnlt, hiff, hw, hw']
      · simp [hw]

lemma le_lastField {delta : ℕ} (hdelta : delta ≤ t.width) (hshift : shift < t.fieldBits) :
    delta + shift ≤ (lastField t delta shift + 1) * t.fieldBits := by
  have hw := t.width_le
  unfold lastField
  split_ifs <;> omega

section

variable (hbits : t.Packable bitWidth) {j : ℕ}

include hbits

/-- **`unpackSingle`** reads one bit field. -/
lemma unpackSingle_eq (buffer pos srcOffset : ℕ) :
    unpackSingle t buffer pos bitWidth srcOffset =
      BitVec.ofNat t.width (BitField.get buffer (pos + srcOffset * bitWidth) bitWidth) := by
  have hF := t.fieldBits_pos
  have hshift : srcOffset * bitWidth % t.fieldBits < t.fieldBits := Nat.mod_lt _ hF
  have hlast := le_lastField t hbits.1 hshift
  have hdiv := Nat.div_add_mod (srcOffset * bitWidth) t.fieldBits
  apply eq_of_getLsbD_eq
  intro j hj
  rw [unpackSingle, unpackSingleValueInPlace, getLsbD_and, getLsbD_unpackSingleField t hshift,
    t.getLsbD_all1sMask hbits, getLsbD_ofNat, testBit_get]
  by_cases hjb : j < bitWidth
  · have hin : srcOffset * bitWidth % t.fieldBits + j <
        (lastField t bitWidth (srcOffset * bitWidth % t.fieldBits) + 1) * t.fieldBits := by omega
    have hpos : pos + t.fieldBits * (srcOffset * bitWidth / t.fieldBits) +
        (srcOffset * bitWidth % t.fieldBits + j) = pos + srcOffset * bitWidth + j := by omega
    simp [hj, hjb, hin, hpos]
  · simp [hjb]

/-- The first field of a value gets the bits that are moved to the left. -/
lemma getLsbD_setValue_left (hj : j < t.fieldBits)
    (out : BitVec t.fieldBits) (value : BitVec t.width) (shift : ℕ) :
    (setValueForBitsMatchingMask t false out value (t.all1sMaskForLeastSignificantBits bitWidth)
      shift).getLsbD j =
      if shift ≤ j ∧ j < shift + bitWidth then value.getLsbD (j - shift) else out.getLsbD j := by
  have hjw : j < t.width := lt_of_lt_of_le hj t.fieldBits_le_width
  simp only [setValueForBitsMatchingMask, Bool.false_eq_true, if_false, t.shiftLeft_eq,
    getLsbD_and, getLsbD_or, getLsbD_not, getLsbD_setWidth,
    getLsbD_shiftLeft, t.getLsbD_all1sMask hbits, hj, hjw, decide_true, Bool.true_and]
  by_cases hs : j < shift
  · have hout : ¬ (shift ≤ j ∧ j < shift + bitWidth) := by omega
    simp [hs, hout]
  · have hiff : j - shift < bitWidth ↔ j < shift + bitWidth := by omega
    have hle : shift ≤ j := by omega
    by_cases hb : j < shift + bitWidth
    · cases hv : value.getLsbD (j - shift) <;> simp [hs, hle, hiff, hb]
    · simp [hs, hiff, hb]

lemma msb_all1sMask (ht : t = .int128) :
    (t.all1sMaskForLeastSignificantBits bitWidth).msb = false := by
  have hlt := hbits.2 ht
  have hlast : ¬ t.width - 1 < bitWidth := by
    rw [ht]
    exact not_lt.mpr (Nat.le_of_lt_succ hlt)
  rw [msb_eq_getLsbD_last, t.getLsbD_all1sMask hbits]
  simp [hlast]

lemma msb_and_all1sMask (value : BitVec t.width) (ht : t = .int128) :
    (value &&& t.all1sMaskForLeastSignificantBits bitWidth).msb = false := by
  rw [msb_and, msb_all1sMask t hbits ht, Bool.and_false]

/-- The bits written into a later field. -/
lemma getLsbD_setValue_right (hj : j < t.fieldBits)
    (out : BitVec t.fieldBits) (value : BitVec t.width) (shift : ℕ) :
    (setValueForBitsMatchingMask t true out value (t.all1sMaskForLeastSignificantBits bitWidth)
      shift).getLsbD j =
      if shift + j < bitWidth then value.getLsbD (shift + j) else out.getLsbD j := by
  simp only [setValueForBitsMatchingMask, if_true, t.shiftRight_eq_of_msb (msb_all1sMask t hbits),
    t.shiftRight_eq_of_msb (msb_and_all1sMask t hbits value),
    getLsbD_and, getLsbD_or, getLsbD_not, getLsbD_setWidth,
    getLsbD_ushiftRight, t.getLsbD_all1sMask hbits, hj, decide_true, Bool.true_and]
  by_cases hb : shift + j < bitWidth
  · cases hv : value.getLsbD (shift + j) <;> simp [hb]
  · simp [hb]

/-- The fields `0, …, i` get their part of the value, and nothing else changes. -/
lemma testBit_packSingleField
    (hshift : shift < t.fieldBits) (value : BitVec t.width) (buffer pos i q : ℕ) :
    (packSingleField t value (t.all1sMaskForLeastSignificantBits bitWidth) pos shift buffer
      i).testBit q =
      if pos + shift ≤ q ∧ q < pos + shift + bitWidth ∧ q < pos + (i + 1) * t.fieldBits then
        value.getLsbD (q - (pos + shift))
      else buffer.testBit q := by
  induction i with
  | zero =>
    rw [packSingleField, testBit_storeField, Nat.mul_zero, Nat.add_zero, Nat.zero_add, Nat.one_mul]
    by_cases hq : pos ≤ q ∧ q < pos + t.fieldBits
    · have hj : q - pos < t.fieldBits := by omega
      have hsub : q - pos - shift = q - (pos + shift) := by omega
      have hback : pos + (q - pos) = q := by omega
      rw [if_pos hq, getLsbD_setValue_left t hbits hj, getLsbD_loadField, hsub, Nat.mul_zero,
        Nat.add_zero, hback]
      have hiff : (shift ≤ q - pos ∧ q - pos < shift + bitWidth) ↔
          (pos + shift ≤ q ∧ q < pos + shift + bitWidth ∧ q < pos + t.fieldBits) := by omega
      simp [hiff, hj]
    · rw [if_neg hq, if_neg (by omega)]
  | succ i ih =>
    have hexp : (i + 1 + 1) * t.fieldBits = (i + 1) * t.fieldBits + t.fieldBits := Nat.succ_mul _ _
    have hge : t.fieldBits ≤ (i + 1) * t.fieldBits := Nat.le_mul_of_pos_left _ (Nat.succ_pos i)
    rw [packSingleField, testBit_storeField, Nat.mul_comm t.fieldBits (i + 1), hexp]
    by_cases hq : pos + (i + 1) * t.fieldBits ≤ q ∧ q < pos + (i + 1) * t.fieldBits + t.fieldBits
    · -- the bit lies in the new field, which the fields before did not touch
      have hj : q - (pos + (i + 1) * t.fieldBits) < t.fieldBits := by omega
      have hback : pos + t.fieldBits * (i + 1) + (q - (pos + (i + 1) * t.fieldBits)) = q := by
        rw [Nat.mul_comm t.fieldBits]
        omega
      have hsub : (i + 1) * t.fieldBits - shift + (q - (pos + (i + 1) * t.fieldBits)) =
          q - (pos + shift) := by omega
      rw [if_pos hq, getLsbD_setValue_right t hbits hj, getLsbD_loadField, hback, hsub, ih]
      have hiff : (q - (pos + shift) < bitWidth) ↔ (pos + shift ≤ q ∧
          q < pos + shift + bitWidth ∧ q < pos + ((i + 1) * t.fieldBits + t.fieldBits)) := by omega
      have hold : ¬ (pos + shift ≤ q ∧ q < pos + shift + bitWidth ∧
          q < pos + (i + 1) * t.fieldBits) := by omega
      simp [hiff, hold, hj]
    -- the other bits are as the fields before left them
    · rw [if_neg hq, ih]
      have hiff : (pos + shift ≤ q ∧ q < pos + shift + bitWidth ∧ q < pos + (i + 1) * t.fieldBits) ↔
          (pos + shift ≤ q ∧ q < pos + shift + bitWidth ∧
            q < pos + ((i + 1) * t.fieldBits + t.fieldBits)) := by omega
      simp only [hiff]

/-- **`packSingle`** writes one bit field. -/
lemma packSingle_eq (value : BitVec t.width) (buffer pos dstOffset : ℕ) :
    packSingle t value buffer pos bitWidth dstOffset =
      BitField.set buffer (pos + dstOffset * bitWidth) bitWidth value.toNat := by
  have hF := t.fieldBits_pos
  have hshift : dstOffset * bitWidth % t.fieldBits < t.fieldBits := Nat.mod_lt _ hF
  have hlast := le_lastField t hbits.1 hshift
  have hdiv := Nat.div_add_mod (dstOffset * bitWidth) t.fieldBits
  apply Nat.eq_of_testBit_eq
  intro q
  rw [packSingle, testBit_packSingleField t hbits hshift, testBit_set]
  have hpos : pos + t.fieldBits * (dstOffset * bitWidth / t.fieldBits) +
      dstOffset * bitWidth % t.fieldBits = pos + dstOffset * bitWidth := by omega
  rw [hpos]
  have hiff : (pos + dstOffset * bitWidth ≤ q ∧ q < pos + dstOffset * bitWidth + bitWidth ∧ q < pos
        + t.fieldBits * (dstOffset * bitWidth / t.fieldBits) + (lastField t bitWidth (dstOffset *
        bitWidth % t.fieldBits) + 1) * t.fieldBits) ↔
      (pos + dstOffset * bitWidth ≤ q ∧ q < pos + dstOffset * bitWidth + bitWidth) := by omega
  simp only [hiff]
  rfl

end

/-- **A packed value is unpacked**, and the other values stay, for every width that a type has,
except that a value of 128 bits is lost. -/
theorem packSingle_unpackSingle_iff (bitWidth : ℕ) (hwidth : bitWidth ≤ t.width) :
    (∀ value buffer pos p,
      unpackSingle t (packSingle t value buffer pos bitWidth p) pos bitWidth p =
        BitVec.ofNat t.width (value.toNat % 2 ^ bitWidth) ∧
      ∀ q ≠ p, unpackSingle t (packSingle t value buffer pos bitWidth p) pos bitWidth q =
        unpackSingle t buffer pos bitWidth q) ↔
      (t = .int128 → bitWidth < 128) := by
  constructor
  · rintro h rfl
    by_contra hlt
    obtain rfl : bitWidth = 128 := le_antisymm hwidth (not_lt.mp hlt)
    exact absurd (congrArg BitVec.toNat (h (1#128 <<< 64) 0 0 0).1) (by decide)
  · intro h value buffer pos p
    have hbits : t.Packable bitWidth := ⟨hwidth, h⟩
    rw [packSingle_eq t hbits, unpackSingle_eq t hbits, get_set_self]
    refine ⟨rfl, fun q hq => ?_⟩
    rw [unpackSingle_eq t hbits, unpackSingle_eq t hbits, get_set_of_disjoint]
    rcases Nat.lt_or_gt_of_ne hq with hlt | hlt <;>
    · have := Nat.mul_le_mul_right bitWidth (Nat.succ_le_of_lt hlt)
      rw [Nat.succ_mul] at this
      omega

/-- The high word of a value of 128 bits comes back as zero. -/
theorem packSingle_unpackSingle_int128 :
    (unpackSingle .int128 (packSingle .int128 (1#128 <<< 64) 0 0 128 0) 0 128 0).toNat = 0 := by
  decide

/-- Five bits that begin in the second byte and end in the third. -/
theorem packSingle_unpackSingle_uint8 :
    unpackSingle .uint8 (packSingle .uint8 201 0 3 5 2) 3 5 2 = 9 :=
  (((packSingle_unpackSingle_iff .uint8 5 (by decide)).mpr nofun) 201 0 3 2).1

end BitpackingUtils

/-! ### Blocks of 32 values -/

theorem FastPFor.fastpack_writes {w : ℕ} (values : List (BitVec w)) (buffer pos bitWidth : ℕ) :
    Writes buffer (fastpack values buffer pos bitWidth) pos bitWidth (values.map BitVec.toNat) := by
  have h := Writes.foldl_set (fun v : BitVec w => v.toNat) buffer pos bitWidth values 0
  rwa [Nat.zero_mul, Nat.add_zero] at h

namespace Int128Packer

open BitpackingUtils

lemma testBit_storeWord (buffer pos i q : ℕ) (word : BitVec 32) :
    (storeField .int128 buffer pos i word).testBit q =
      if pos + 32 * i ≤ q ∧ q < pos + 32 * i + 32 then word.getLsbD (q - (pos + 32 * i))
      else buffer.testBit q :=
  testBit_storeField .int128 buffer pos i q word

/-- Storing the words of a value stores its low bits. -/
lemma foldl_storeField (value : BitVec 128) (pos k n : ℕ) (hn : n ≤ 4) (buffer : ℕ) :
    (List.range n).foldl (fun buffer j => storeField .int128 buffer pos (k + j)
      ((rightShift value (32 * j)).setWidth 32)) buffer =
      BitField.set buffer (pos + 32 * k) (32 * n) value.toNat := by
  induction n with
  | zero =>
    apply Nat.eq_of_testBit_eq
    intro q
    rw [range_zero, foldl_nil, testBit_set, if_neg (by omega)]
  | succ n ih =>
    rw [range_succ, foldl_append, ih (by omega), foldl_cons, foldl_nil]
    apply Nat.eq_of_testBit_eq
    intro q
    rw [testBit_storeWord, testBit_set, testBit_set, rightShift_eq]
    by_cases hq : pos + 32 * (k + n) ≤ q ∧ q < pos + 32 * (k + n) + 32
    · -- the bit lies in the last word
      have hin : pos + 32 * k ≤ q ∧ q < pos + 32 * k + 32 * (n + 1) := by omega
      have hj : q - (pos + 32 * (k + n)) < 32 := by omega
      have hsum : 32 * n + (q - (pos + 32 * (k + n))) = q - (pos + 32 * k) := by omega
      rw [if_pos hq, if_pos hin, getLsbD_setWidth, getLsbD_sshiftRight, hsum]
      simp only [hj, decide_true, Bool.true_and]
      rw [if_pos (by omega)]
      simp [getLsbD, show ¬ 128 ≤ q - (pos + 32 * (k + n)) by omega]
    · rw [if_neg hq]
      have hiff : (pos + 32 * k ≤ q ∧ q < pos + 32 * k + 32 * n) ↔
          (pos + 32 * k ≤ q ∧ q < pos + 32 * k + 32 * (n + 1)) := by omega
      simp only [hiff]

/-- The whole-word packings are ordinary ones. -/
lemma packDelta_eq (numWords : ℕ) (hn : numWords ≤ 4) (values : List (BitVec 128))
    (buffer pos : ℕ) :
    packDelta numWords values buffer pos = fastpack values buffer pos (32 * numWords) := by
  unfold packDelta fastpack
  congr 1
  funext buffer v
  have hpos : pos + 32 * (numWords * v.2) = pos + v.2 * (32 * numWords) := by ring
  rw [foldl_storeField v.1 pos (numWords * v.2) numWords hn, hpos]

/-- Loading the words of a value loads its low bits. -/
lemma foldl_loadField (buffer pos k n : ℕ) (hn : n ≤ 4) :
    (List.range n).foldl (fun out j => out ||| leftShift
      ((loadField .int128 buffer pos (k + j)).setWidth 128) (32 * j)) 0 =
      BitVec.ofNat 128 (BitField.get buffer (pos + 32 * k) (32 * n)) := by
  induction n with
  | zero =>
    simp [BitField.get, Nat.mod_one]
  | succ n ih =>
    rw [range_succ, foldl_append, ih (by omega), foldl_cons, foldl_nil]
    apply eq_of_getLsbD_eq
    intro q hq
    have hword : IntType.int128.fieldBits = 32 := rfl
    rw [getLsbD_or, getLsbD_ofNat, getLsbD_ofNat, testBit_get, testBit_get, leftShift_eq,
      getLsbD_shiftLeft, getLsbD_setWidth, getLsbD_loadField, hword]
    by_cases hin : q < 32 * n
    · have hnext : q < 32 * (n + 1) := by omega
      simp [hin, hnext]
    · have hpos : pos + 32 * (k + n) + (q - 32 * n) = pos + 32 * k + q := by omega
      have hiff : q - 32 * n < 32 ↔ q < 32 * (n + 1) := by omega
      have hlt : q - 32 * n < 128 := by omega
      rw [hpos]
      simp [hin, hiff, hlt, hq]

/-- The whole-word unpackings are ordinary ones. -/
lemma unpackDelta_eq (numWords : ℕ) (hn : numWords ≤ 4) (buffer pos : ℕ) :
    unpackDelta numWords buffer pos = fastunpack 128 buffer pos (32 * numWords) := by
  apply map_congr_left
  intro i _
  have hpos : pos + 32 * (numWords * i) = pos + i * (32 * numWords) := by ring
  rw [foldl_loadField buffer pos (numWords * i) numWords hn, hpos]

variable {width : ℕ}

/-- `pack` packs 32 values one after the other. -/
lemma pack_eq (hwidth : width ≤ 128) (values : List (BitVec 128)) (buffer pos : ℕ) :
    pack values buffer pos width = fastpack values buffer pos width := by
  unfold pack
  by_cases h0 : width = 0
  · rw [if_pos h0, h0]
    simp only [fastpack, set_zero]
    induction values.zipIdx with
    | nil => rfl
    | cons v vs ih => exact ih
  rw [if_neg h0]
  by_cases h32 : width = 32
  · rw [if_pos h32, h32]
    exact packDelta_eq 1 (by decide) values buffer pos
  rw [if_neg h32]
  by_cases h64 : width = 64
  · rw [if_pos h64, h64]
    exact packDelta_eq 2 (by decide) values buffer pos
  rw [if_neg h64]
  by_cases h96 : width = 96
  · rw [if_pos h96, h96]
    exact packDelta_eq 3 (by decide) values buffer pos
  rw [if_neg h96]
  split_ifs with h128
  · rw [h128]
    exact packDelta_eq 4 (by decide) values buffer pos
  congr 1
  funext buffer v
  exact packSingle_eq .int128 ⟨hwidth, fun _ => lt_of_le_of_ne hwidth h128⟩ v.1 buffer pos v.2

lemma pack_writes (hwidth : width ≤ 128) (values : List (BitVec 128)) (buffer pos : ℕ) :
    Writes buffer (pack values buffer pos width) pos width (values.map BitVec.toNat) := by
  rw [pack_eq hwidth]
  exact fastpack_writes values buffer pos width

lemma unpackSingleField_zero (buffer pos shift : ℕ) :
    unpackSingleField .int128 buffer pos shift 0 =
      (loadField .int128 buffer pos 0).setWidth 128 >>> shift :=
  IntType.shiftRight_setWidth_eq .int128 _ shift

/-- A value whose last bit is the last bit of a word needs no mask. -/
lemma unpackLast_eq (hpos : 0 < width) (hlt : width < 128) (buffer pos : ℕ) :
    unpackLast buffer (pos + 32 * (31 * width / 32)) width =
      BitVec.ofNat 128 (BitField.get buffer (pos + 31 * width) width) := by
  obtain ⟨k, hk, hfields⟩ : ∃ k, width + width * 31 % 32 = (k + 1) * 32 ∧
      unpackLast buffer (pos + 32 * (31 * width / 32)) width = unpackSingleField .int128 buffer
        (pos + 32 * (31 * width / 32)) (width * 31 % 32) k := by
    -- the value fills `k + 1` words together with the bits before it
    unfold unpackLast
    by_cases h32 : width > 32
    · by_cases h64 : width > 64
      · by_cases h96 : width > 96
        · refine ⟨3, by omega, ?_⟩
          simp only [h32, h64, h96, if_true, ← unpackSingleField_zero]
          rfl
        · refine ⟨2, by omega, ?_⟩
          simp only [h32, h64, h96, if_true, if_false, ← unpackSingleField_zero]
          rfl
      · have h96 : ¬ width > 96 := by omega
        refine ⟨1, by omega, ?_⟩
        simp only [h32, h64, h96, if_false, ← unpackSingleField_zero]
        rfl
    · have h64 : ¬ width > 64 := by omega
      have h96 : ¬ width > 96 := by omega
      refine ⟨0, by omega, ?_⟩
      simp only [h32, h64, h96, if_false]
      exact (unpackSingleField_zero _ _ _).symm
  have hshift : width * 31 % 32 < IntType.int128.fieldBits := Nat.mod_lt _ (by decide)
  have hword : IntType.int128.fieldBits = 32 := rfl
  rw [hfields]
  refine eq_of_getLsbD_eq (w := 128) fun q hq => ?_
  have hq' : q < IntType.int128.width := hq
  have hpos' : pos + 32 * (31 * width / 32) + (width * 31 % 32 + q) = pos + 31 * width + q := by
    omega
  have hiff : width * 31 % 32 + q < (k + 1) * 32 ↔ q < width := by omega
  rw [getLsbD_ofNat, testBit_get]
  refine (getLsbD_unpackSingleField .int128 hshift _ _ k q).trans ?_
  simp [hpos', hword, hiff, hq, hq']

/-- `unpack` reads 32 values one after the other. -/
lemma unpack_eq (hwidth : width ≤ 128) (buffer pos : ℕ) :
    unpack buffer pos width = fastunpack 128 buffer pos width := by
  unfold unpack
  by_cases h0 : width = 0
  · rw [if_pos h0, h0]
    simp only [fastunpack, BitField.get, Nat.pow_zero, Nat.mod_one]
    rfl
  rw [if_neg h0]
  by_cases h32 : width = 32
  · rw [if_pos h32, h32]
    exact unpackDelta_eq 1 (by decide) buffer pos
  rw [if_neg h32]
  by_cases h64 : width = 64
  · rw [if_pos h64, h64]
    exact unpackDelta_eq 2 (by decide) buffer pos
  rw [if_neg h64]
  by_cases h96 : width = 96
  · rw [if_pos h96, h96]
    exact unpackDelta_eq 3 (by decide) buffer pos
  rw [if_neg h96]
  by_cases h128 : width = 128
  · rw [if_pos h128, h128]
    exact unpackDelta_eq 4 (by decide) buffer pos
  rw [if_neg h128]
  have hlt : width < 128 := lt_of_le_of_ne hwidth h128
  have hsingle : ∀ i, unpackSingle .int128 buffer pos width i =
      BitVec.ofNat 128 (BitField.get buffer (pos + i * width) width) :=
    unpackSingle_eq .int128 ⟨hwidth, fun _ => hlt⟩ buffer pos
  have hrange : List.range 32 = List.range 31 ++ [31] := rfl
  rw [fastunpack, hrange, map_append, unpackLast_eq (Nat.pos_of_ne_zero h0) hlt]
  simp only [hsingle]
  rfl

end Int128Packer

end Ladybug
