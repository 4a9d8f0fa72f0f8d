import Ladybug.Lib.ExceptList
import Ladybug.Storage.Compression
import Ladybug.Storage.Equiv.BitpackingUtils

/-!
# Packing and unpacking pages

* `packValues_packsAt`: packing a list of values succeeds when the offset can be subtracted from
  each of them, and then the page holds the lower bits of the differences in a row;
* `decompressFromPage_eq`: decompressing any range of a page decodes the fields of its values, one
  after the other, however the range lies over the chunks.
-/

namespace Ladybug

open List BitVec ExceptList
open List (range)

namespace IntType

variable {t : IntType}

/-! ### Sums and differences -/

/-- A difference that `operator-` computes. -/
def SubFits (t : IntType) (x y : BitVec t.width) : Prop :=
  t = .int128 → -2 ^ 127 < t.toInt x - t.toInt y ∧ t.toInt x - t.toInt y < 2 ^ 127

/-- A sum that `operator+=` computes. -/
def AddFits (t : IntType) (x y : BitVec t.width) : Prop :=
  t = .int128 → -2 ^ 127 ≤ t.toInt x + t.toInt y ∧ t.toInt x + t.toInt y < 2 ^ 127

variable {x y : BitVec t.width}

/-- Differences that fit are computed. -/
lemma sub_ok (h : t.SubFits x y) : t.sub x y = .ok (x - y) := by
  cases t with
  | int128 => exact (Int128.sub_eq x y).trans (if_pos (h rfl))
  | _ => rfl

/-- Other differences are an error. -/
lemma sub_error (h : ¬ t.SubFits x y) : ∃ e, t.sub x y = .error e := by
  cases t with
  | int128 => exact ⟨_, (Int128.sub_eq x y).trans (if_neg fun hf => h fun _ => hf)⟩
  | _ => exact absurd (fun ht => by cases ht) h

lemma addAssign_ok (h : t.AddFits x y) : t.addAssign x y = .ok (x + y) := by
  cases t with
  | int128 => exact (Int128.addAssign_eq x y).trans (if_pos (h rfl))
  | _ => rfl

lemma addAssign_error (h : ¬ t.AddFits x y) : ∃ e, t.addAssign x y = .error e := by
  cases t with
  | int128 => exact ⟨_, (Int128.addAssign_eq x y).trans (if_neg fun hf => h fun _ => hf)⟩
  | _ => exact absurd (fun ht => by cases ht) h

end IntType

/-! ### Packing -/

namespace BitpackInfo

variable {t : IntType} (info : BitpackInfo t)

def encode (value : BitVec t.width) : BitVec t.width :=
  value - info.offset

/-- The offset can be subtracted from a value. -/
def Encodable (value : BitVec t.width) : Prop :=
  info.offset ≠ 0 → t.SubFits value info.offset

end BitpackInfo

namespace IntegerBitpacking

variable {t : IntType} {info : BitpackInfo t}

/-- Values are copied with the offset subtracted, if this is possible for all of them. -/
structure CopiesChunk (info : BitpackInfo t) (Enc : BitVec t.width → Prop)
    (copy : List (BitVec t.width) → Except String (List (BitVec t.width))) : Prop where
  ok : ∀ values, (∀ v ∈ values, Enc v) → copy values = .ok (values.map info.encode)
  enc : ∀ values tmp, copy values = .ok tmp → ∀ v ∈ values, Enc v

/-- Subtracting the offset encodes the chunk. -/
lemma copiesChunk_withOffset (info : BitpackInfo t) :
    CopiesChunk info (fun v => t.SubFits v info.offset)
      fun values => copyValuesToTempChunkWithOffset values info where
  ok values h := mapM_ok fun v hv => IntType.sub_ok (h v hv)
  enc values tmp h v hv := by
    by_contra hfits
    obtain ⟨e, he⟩ := IntType.sub_error hfits
    obtain ⟨e', he'⟩ := mapM_error (f := fun v => t.sub v info.offset) hv he
    rw [copyValuesToTempChunkWithOffset, he'] at h
    cases h

lemma copiesChunk_temp (info : BitpackInfo t) :
    CopiesChunk info info.Encodable fun values => tempChunk values info where
  ok values h := by
    unfold tempChunk
    by_cases h0 : info.offset = 0
    · have hid : values.map info.encode = values := by
        have hfun : ∀ v, info.encode v = v := fun v => by
          rw [BitpackInfo.encode, h0]
          exact BitVec.sub_zero v
        exact (map_congr_left fun v _ => hfun v).trans (map_id values)
      rw [if_pos h0, hid]
      rfl
    · rw [if_neg h0]
      exact (copiesChunk_withOffset info).ok values fun v hv => h v hv h0
  enc values tmp h v hv h0 := by
    rw [tempChunk, if_neg h0] at h
    exact (copiesChunk_withOffset info).enc values tmp h v hv

lemma fastpack_writes (hbits : info.bitWidth < t.width) (values : List (BitVec t.width))
    (buffer pos : ℕ) :
    BitField.Writes buffer (fastpack values buffer pos info.bitWidth) pos info.bitWidth
      (values.map BitVec.toNat) := by
  cases t with
  | int128 => exact Int128Packer.pack_writes (le_of_lt hbits) values buffer pos
  | _ => exact FastPFor.fastpack_writes values buffer pos info.bitWidth

/-- A partial chunk is written value by value. -/
lemma packPartialChunk_writes (hbits : info.bitWidth < t.width) (values : List (BitVec t.width))
    (buffer pos posInDst : ℕ) :
    BitField.Writes buffer (packPartialChunk values buffer pos posInDst info)
      (pos + posInDst * info.bitWidth) info.bitWidth (values.map BitVec.toNat) := by
  have hw := BitField.Writes.foldl_set (fun v : BitVec t.width => v.toNat) buffer
    (pos + posInDst * info.bitWidth) info.bitWidth values 0
  rw [Nat.zero_mul, Nat.add_zero] at hw
  have hfun : (fun buffer (v : BitVec t.width × ℕ) =>
      BitpackingUtils.packSingle t v.1 buffer pos info.bitWidth (v.2 + posInDst)) =
      fun buffer v => BitField.set buffer (pos + posInDst * info.bitWidth + v.2 * info.bitWidth)
        info.bitWidth v.1.toNat := by
    funext buffer v
    have hpos : pos + (v.2 + posInDst) * info.bitWidth =
        pos + posInDst * info.bitWidth + v.2 * info.bitWidth := by ring
    rw [BitpackingUtils.packSingle_eq t (IntType.packable_of_lt hbits), hpos]
  rw [packPartialChunk, hfun]
  exact hw

/-- Chunks start at whole bytes. -/
lemma chunkStart_eq (c bitWidth : ℕ) :
    8 * (c * CHUNK_SIZE * bitWidth / 8) = c * CHUNK_SIZE * bitWidth := by
  have hmul : c * CHUNK_SIZE * bitWidth = 8 * (4 * c * bitWidth) := by
    unfold CHUNK_SIZE
    ring
  rw [hmul, Nat.mul_div_cancel_left _ (by decide)]

/-- A step that packs values one after the other, from the field `pos` on, if all of them can be
encoded. -/
structure PacksAt (info : BitpackInfo t) (Enc : BitVec t.width → Prop) (step : ℕ → Except String ℕ)
    (pos : ℕ) (values : List (BitVec t.width)) : Prop where
  ok : ∀ buffer, (∀ v ∈ values, Enc v) → ∃ page, step buffer = .ok page
  spec : ∀ buffer page, step buffer = .ok page →
    (∀ v ∈ values, Enc v) ∧ BitField.Writes buffer page (pos * info.bitWidth) info.bitWidth
      (values.map fun v => (info.encode v).toNat)

namespace PacksAt

variable {Enc : BitVec t.width → Prop} {step step' : ℕ → Except String ℕ} {pos pos' : ℕ}
  {values values' : List (BitVec t.width)}

lemma nil (info : BitpackInfo t) (Enc : BitVec t.width → Prop) (pos : ℕ) :
    PacksAt info Enc pure pos [] where
  ok buffer _ := ⟨buffer, rfl⟩
  spec buffer page h := by
    cases h
    exact ⟨fun v hv => (not_mem_nil hv).elim, BitField.Writes.nil _ _ _⟩

/-- Packings one after the other pack both lists. -/
lemma append (h : PacksAt info Enc step pos values) (h' : PacksAt info Enc step' pos' values')
    (hpos : pos' = pos + values.length) :
    PacksAt info Enc (fun buffer => step buffer >>= step') pos (values ++ values') where
  ok buffer henc := by
    obtain ⟨page, hpage⟩ := h.ok buffer fun v hv => henc v (mem_append_left _ hv)
    obtain ⟨page', hpage'⟩ := h'.ok page fun v hv => henc v (mem_append_right _ hv)
    exact ⟨page', by rw [hpage]; exact hpage'⟩
  spec buffer page hstep := by
    obtain ⟨page', hpage', hstep⟩ := bind_ok hstep
    obtain ⟨henc, hwrites⟩ := h.spec _ _ hpage'
    obtain ⟨henc', hwrites'⟩ := h'.spec _ _ hstep
    refine ⟨fun v hv => (mem_append.mp hv).elim (henc v) (henc' v), ?_⟩
    rw [map_append]
    apply hwrites.append hwrites'
    rw [hpos, Nat.add_mul, length_map]

lemma copy {copy : List (BitVec t.width) → Except String (List (BitVec t.width))}
    {pack : List (BitVec t.width) → ℕ → ℕ} (hcopy : CopiesChunk info Enc copy)
    (hpack : ∀ tmp buffer, BitField.Writes buffer (pack tmp buffer) (pos * info.bitWidth)
      info.bitWidth (tmp.map BitVec.toNat)) (values : List (BitVec t.width)) :
    PacksAt info Enc (fun buffer => do
      let tmp ← copy values
      return pack tmp buffer) pos values where
  ok buffer henc := ⟨_, by rw [hcopy.ok values henc]; rfl⟩
  spec buffer page h := by
    obtain ⟨tmp, htmp, h⟩ := bind_ok h
    cases h
    have henc := hcopy.enc values tmp htmp
    rw [hcopy.ok values henc] at htmp
    cases htmp
    refine ⟨henc, ?_⟩
    have hwrites := hpack (values.map info.encode) buffer
    rwa [map_map] at hwrites

end PacksAt

/-- The loops over the first `k` full chunks, which start at the field `pos`. -/
def packChunks (copy : List (BitVec t.width) → Except String (List (BitVec t.width)))
    (values : List (BitVec t.width)) (dstBuffer pos : ℕ) (info : BitpackInfo t) (k : ℕ) :
    Except String ℕ :=
  (range k).foldlM (fun buffer c => do
    let tmp ← copy ((values.drop (c * CHUNK_SIZE)).take CHUNK_SIZE)
    return fastpack tmp buffer (8 * ((pos + c * CHUNK_SIZE) * info.bitWidth / 8)) info.bitWidth)
    dstBuffer

/-- The chunks are packed in order. -/
lemma packChunks_packsAt (hbits : info.bitWidth < t.width) {Enc : BitVec t.width → Prop}
    {copy : List (BitVec t.width) → Except String (List (BitVec t.width))}
    (hcopy : CopiesChunk info Enc copy) (values : List (BitVec t.width)) {pos : ℕ}
    (hpos : CHUNK_SIZE ∣ pos) {k : ℕ} (hk : k * CHUNK_SIZE ≤ values.length) :
    PacksAt info Enc (fun buffer => packChunks copy values buffer pos info k) pos
      (values.take (k * CHUNK_SIZE)) := by
  obtain ⟨c, rfl⟩ := hpos
  induction k with
  | zero =>
    rw [Nat.zero_mul, take_zero]
    exact PacksAt.nil info Enc _
  | succ k ih =>
    have hk' : k * CHUNK_SIZE ≤ values.length := by
      rw [Nat.add_one_mul] at hk
      omega
    have hchunk : PacksAt info Enc (fun buffer => do
        let tmp ← copy ((values.drop (k * CHUNK_SIZE)).take CHUNK_SIZE)
        return fastpack tmp buffer
          (8 * ((CHUNK_SIZE * c + k * CHUNK_SIZE) * info.bitWidth / 8)) info.bitWidth)
        (CHUNK_SIZE * c + k * CHUNK_SIZE) ((values.drop (k * CHUNK_SIZE)).take CHUNK_SIZE) := by
      apply PacksAt.copy hcopy
      intro tmp buffer
      rw [Nat.mul_comm CHUNK_SIZE c, ← Nat.add_mul, chunkStart_eq]
      exact fastpack_writes hbits tmp buffer _
    -- the chunks before, then this one
    rw [Nat.add_one_mul, take_add]
    have hall := (ih hk').append hchunk (by rw [length_take, min_eq_left hk'])
    have hstep : (fun buffer => packChunks copy values buffer (CHUNK_SIZE * c) info (k + 1)) =
        fun buffer => packChunks copy values buffer (CHUNK_SIZE * c) info k >>= fun buffer => do
          let tmp ← copy ((values.drop (k * CHUNK_SIZE)).take CHUNK_SIZE)
          return fastpack tmp buffer
            (8 * ((CHUNK_SIZE * c + k * CHUNK_SIZE) * info.bitWidth / 8)) info.bitWidth := by
      funext buffer
      rw [packChunks, range_succ, foldlM_append, packChunks]
      simp
    rw [hstep]
    exact hall

/-- **`packValues`** packs all values. -/
lemma packValues_packsAt (hbits : info.bitWidth < t.width) (values : List (BitVec t.width)) :
    PacksAt info info.Encodable (fun buffer => packValues values buffer info) 0 values := by
  have hle : values.length / CHUNK_SIZE * CHUNK_SIZE ≤ values.length := Nat.div_mul_le_self _ _
  have hchunks := packChunks_packsAt hbits (copiesChunk_temp info) values (dvd_zero _) hle
  by_cases hrest : 0 < values.length % CHUNK_SIZE
  · have hlast : PacksAt info info.Encodable (fun buffer => do
        let tmp ← tempChunk (values.drop (values.length / CHUNK_SIZE * CHUNK_SIZE)) info
        return packPartialChunk tmp buffer
          (8 * (values.length / CHUNK_SIZE * CHUNK_SIZE * info.bitWidth / 8)) 0 info)
        (values.length / CHUNK_SIZE * CHUNK_SIZE)
        (values.drop (values.length / CHUNK_SIZE * CHUNK_SIZE)) := by
      apply PacksAt.copy (copiesChunk_temp info)
      intro tmp buffer
      have hwrites := packPartialChunk_writes hbits tmp buffer
        (values.length / CHUNK_SIZE * CHUNK_SIZE * info.bitWidth) 0
      rw [Nat.zero_mul, Nat.add_zero] at hwrites
      rwa [chunkStart_eq]
    have hall := hchunks.append hlast (by rw [length_take, min_eq_left hle, Nat.zero_add])
    rw [take_append_drop] at hall
    simp only [packChunks, Nat.zero_add] at hall
    simp only [packValues, if_pos hrest]
    exact hall
  · -- the chunks take all values
    have hall : values.take (values.length / CHUNK_SIZE * CHUNK_SIZE) = values := by
      have hmod := Nat.div_add_mod values.length CHUNK_SIZE
      rw [Nat.mul_comm] at hmod
      exact take_of_length_le (by omega)
    rw [hall] at hchunks
    simp only [packChunks, Nat.zero_add] at hchunks
    simp only [packValues, if_neg hrest, bind_pure]
    exact hchunks

/-! ### Unpacking -/

variable {n x w : ℕ}

lemma xor_two_pow_of_lt (h : x < 2 ^ n) : x ^^^ 2 ^ n = x + 2 ^ n := by
  apply Nat.eq_of_testBit_eq
  intro i
  have hmul : x + 2 ^ n = 2 ^ n * 1 + x := by ring
  rw [hmul, Nat.testBit_two_pow_mul_add 1 h, Nat.testBit_xor, Nat.testBit_two_pow]
  by_cases hi : i < n
  · have hne : n ≠ i := by omega
    simp [hi, hne]
  · have hx : x.testBit i = false :=
      Nat.testBit_lt_two_pow (lt_of_lt_of_le h (Nat.pow_le_pow_right (by decide) (by omega)))
    by_cases hn : n = i
    · simp [hx, hn]
    · have hone : Nat.testBit 1 (i - n) = false :=
        Nat.testBit_lt_two_pow (Nat.one_lt_two_pow (by omega))
      simp [hx, hn, hi, hone]

/-- The sign extension by exclusive or. -/
lemma xor_sub_eq_bmod (h : x < 2 ^ (n + 1)) :
    ((x ^^^ 2 ^ n : ℕ) : ℤ) - 2 ^ n = (x : ℤ).bmod (2 ^ (n + 1)) := by
  have hcast : ((2 ^ n : ℕ) : ℤ) = 2 ^ n := by norm_cast
  rcases Nat.lt_or_ge x (2 ^ n) with hx | hx
  · rw [xor_two_pow_of_lt hx, Int.bmod_eq_of_le] <;> push_cast <;> omega
  · obtain ⟨y, rfl⟩ := Nat.exists_eq_add_of_le' hx
    have hy : y < 2 ^ n := by omega
    rw [← xor_two_pow_of_lt hy, Nat.xor_assoc, Nat.xor_self, Nat.xor_zero]
    have hwrap : ((y ^^^ 2 ^ n : ℕ) : ℤ) = (y - 2 ^ n : ℤ) + (2 ^ (n + 1) : ℕ) := by
      rw [xor_two_pow_of_lt hy]
      push_cast
      omega
    rw [hwrap, Int.add_bmod_right, Int.bmod_eq_of_le] <;> push_cast <;> omega

lemma sub_eq_ofInt (x y : BitVec w) : x - y = BitVec.ofInt w ((x.toNat : ℤ) - y.toNat) := by
  rw [Int.sub_eq_add_neg, ofInt_add, ofInt_neg, ofInt_natCast, ofInt_natCast, ofNat_toNat,
    ofNat_toNat, setWidth_eq, setWidth_eq, sub_eq_add_neg]

lemma toNat_and_all1sMask (hn : n < t.width) (value : BitVec t.width) :
    (value &&& t.all1sMaskForLeastSignificantBits n).toNat = value.toNat % 2 ^ n := by
  apply Nat.eq_of_testBit_eq
  intro i
  have hmask : (t.all1sMaskForLeastSignificantBits n).toNat.testBit i = decide (i < n) :=
    t.getLsbD_all1sMask (IntType.packable_of_lt hn) i
  rw [toNat_and, Nat.testBit_and, hmask, Nat.testBit_mod_two_pow, Bool.and_comm]

lemma toNat_one_shiftLeft (hn : n < w) : ((1 : BitVec w) <<< n).toNat = 2 ^ n :=
  toNat_twoPow_of_lt hn

/-- `signExtend` reads the low bits as signed. -/
lemma signExtend_eq {width : ℕ} (hpos : 0 < width) (hbits : width < t.width)
    (value : BitVec t.width) :
    signExtend value width = .ok (BitVec.ofInt t.width ((value.toNat : ℤ).bmod (2 ^ width))) := by
  obtain ⟨n, rfl⟩ : ∃ n, width = n + 1 := ⟨width - 1, by omega⟩
  have hmask : ((1 : BitVec t.width) <<< n).toNat = 2 ^ n := toNat_one_shiftLeft (by omega)
  have hx : value.toNat % 2 ^ (n + 1) < 2 ^ (n + 1) := Nat.mod_lt _ (Nat.two_pow_pos _)
  have hy : ((value &&& t.all1sMaskForLeastSignificantBits (n + 1)) ^^^
      ((1 : BitVec t.width) <<< n)).toNat = value.toNat % 2 ^ (n + 1) ^^^ 2 ^ n := by
    rw [toNat_xor, toNat_and_all1sMask hbits, hmask]
  have hylt : value.toNat % 2 ^ (n + 1) ^^^ 2 ^ n < 2 ^ (n + 1) :=
    Nat.xor_lt_two_pow hx (Nat.pow_lt_pow_right (by decide) (Nat.lt_succ_self n))
  have hhalf : 2 * 2 ^ (n + 1) ≤ 2 ^ t.width := by
    rw [← Nat.pow_succ']
    exact Nat.pow_le_pow_right (by decide) hbits
  rw [signExtend, t.shiftLeft_eq, Nat.add_sub_cancel, IntType.sub_ok, sub_eq_ofInt, hy, hmask]
  · rw [Nat.cast_pow, Nat.cast_ofNat, xor_sub_eq_bmod hx, Int.natCast_mod, Int.emod_bmod]
  · intro ht
    subst ht
    -- both operands are below half of the range, so they stand for themselves
    have hyInt := toInt_eq_toNat_of_lt (x := (value &&&
      IntType.int128.all1sMaskForLeastSignificantBits (n + 1)) ^^^
        ((1 : BitVec IntType.int128.width) <<< n)) (by omega)
    have hmInt := toInt_eq_toNat_of_lt (x := (1 : BitVec IntType.int128.width) <<< n) (by omega)
    have hw : 2 ^ IntType.int128.width = 2 * 2 ^ 127 := rfl
    show _ < BitVec.toInt _ - BitVec.toInt _ ∧ BitVec.toInt _ - BitVec.toInt _ < _
    rw [hyInt, hmInt, hy, hmask]
    omega

end IntegerBitpacking

namespace BitpackInfo

variable {t : IntType} (info : BitpackInfo t)

/-- The field of a packed value, as it is unpacked. -/
def field (buffer pos : ℕ) : BitVec t.width :=
  BitVec.ofNat t.width (BitField.get buffer pos info.bitWidth)

/-- An unpacked value with its sign. -/
def extend (value : BitVec t.width) : BitVec t.width :=
  if info.hasNegative ∧ 0 < info.bitWidth then
    BitVec.ofInt t.width ((value.toNat : ℤ).bmod (2 ^ info.bitWidth))
  else value

end BitpackInfo

namespace IntegerBitpacking

variable {t : IntType} {info : BitpackInfo t}

section

variable (hbits : info.bitWidth < t.width)

include hbits

lemma signExtend_ok (hneg : info.hasNegative ∧ 0 < info.bitWidth) (value : BitVec t.width) :
    signExtend value info.bitWidth = .ok (info.extend value) := by
  rw [signExtend_eq hneg.2 hbits, BitpackInfo.extend, if_pos hneg]

/-- Decoding extends the sign and adds the offset. -/
lemma decodeValue_eq (out : BitVec t.width) :
    decodeValue info out =
      if info.offset ≠ 0 then t.addAssign (info.extend out) info.offset
      else .ok (info.extend out) := by
  unfold decodeValue
  by_cases hneg : info.hasNegative ∧ 0 < info.bitWidth
  · rw [if_pos hneg, signExtend_ok hbits hneg]
    rfl
  · have hext : info.extend out = out := if_neg hneg
    rw [if_neg hneg, hext]
    rfl

/-- `getValues` decodes field by field. -/
lemma getValues_eq (buffer chunkStart pos n : ℕ) :
    getValues buffer chunkStart pos n info = (range n).mapM fun i =>
      decodeValue info (info.field buffer (chunkStart + (pos + i) * info.bitWidth)) := by
  apply mapM_congr
  intro i _
  rw [BitpackingUtils.unpackSingle_eq t (IntType.packable_of_lt hbits), BitpackInfo.field]

lemma fastunpack_eq (buffer pos : ℕ) :
    fastunpack t buffer pos info.bitWidth =
      (range 32).map fun i => info.field buffer (pos + i * info.bitWidth) := by
  cases t with
  | int128 => exact Int128Packer.unpack_eq (le_of_lt hbits) buffer pos
  | _ => rfl

/-- `getChunk` decodes 32 fields. -/
lemma getChunk_eq (buffer chunkStart : ℕ) :
    getChunk buffer chunkStart info = (range 32).mapM fun i =>
      decodeValue info (info.field buffer (chunkStart + i * info.bitWidth)) := by
  -- the signs of a chunk are extended before the offset is added to its first value
  have hoffset : (if info.offset ≠ 0 then ((range 32).map fun i => info.extend (info.field buffer
      (chunkStart + i * info.bitWidth))).mapM fun value => t.addAssign value info.offset else .ok
      ((range 32).map fun i => info.extend (info.field buffer (chunkStart + i * info.bitWidth)))) =
      (range 32).mapM fun i =>
        decodeValue info (info.field buffer (chunkStart + i * info.bitWidth)) := by
    simp only [decodeValue_eq hbits]
    split_ifs with h0
    · exact mapM_map _ _ _
    · exact (mapM_ok fun _ _ => rfl).symm
  unfold getChunk
  by_cases hneg : info.hasNegative ∧ 0 < info.bitWidth
  · rw [if_pos hneg, fastunpack_eq hbits,
      mapM_ok fun value _ => signExtend_ok hbits hneg value, map_map]
    exact hoffset
  · have hext : ∀ value, info.extend value = value := fun value => if_neg hneg
    simp only [hext] at hoffset
    rw [if_neg hneg, fastunpack_eq hbits]
    exact hoffset

/-- `getAlignedValues` decodes field by field. -/
lemma getAlignedValues_eq (buffer srcCursor n : ℕ) :
    getAlignedValues buffer srcCursor n info = (range n).mapM fun i =>
      decodeValue info (info.field buffer (srcCursor + i * info.bitWidth)) := by
  have hn : n = n / CHUNK_SIZE * CHUNK_SIZE + n % CHUNK_SIZE := (Nat.div_add_mod' _ _).symm
  -- whole chunks, then the rest
  have hchunks : ∀ c, getChunk buffer (srcCursor + c * (8 * (CHUNK_SIZE / 8 * info.bitWidth)))
      info = (range CHUNK_SIZE).mapM fun i =>
        decodeValue info (info.field buffer
          (srcCursor + (c * CHUNK_SIZE + i) * info.bitWidth)) := by
    intro c
    rw [getChunk_eq hbits]
    apply mapM_congr
    intro i _
    have hpos : srcCursor + c * (8 * (CHUNK_SIZE / 8 * info.bitWidth)) + i * info.bitWidth =
        srcCursor + (c * CHUNK_SIZE + i) * info.bitWidth := by
      show srcCursor + c * (8 * (4 * info.bitWidth)) + i * info.bitWidth =
        srcCursor + (c * 32 + i) * info.bitWidth
      ring
    rw [hpos]
  have hrest : getValues buffer
      (srcCursor + n / CHUNK_SIZE * (8 * (CHUNK_SIZE / 8 * info.bitWidth)))
      0 (n % CHUNK_SIZE) info = (range (n % CHUNK_SIZE)).mapM fun i =>
        decodeValue info (info.field buffer
          (srcCursor + (n / CHUNK_SIZE * CHUNK_SIZE + i) * info.bitWidth)) := by
    rw [getValues_eq hbits]
    apply mapM_congr
    intro i _
    have hpos : srcCursor + n / CHUNK_SIZE * (8 * (CHUNK_SIZE / 8 * info.bitWidth)) +
        (0 + i) * info.bitWidth =
        srcCursor + (n / CHUNK_SIZE * CHUNK_SIZE + i) * info.bitWidth := by
      show srcCursor + n / 32 * (8 * (4 * info.bitWidth)) + (0 + i) * info.bitWidth =
        srcCursor + (n / 32 * 32 + i) * info.bitWidth
      ring
    rw [hpos]
  conv_rhs => rw [hn, mapM_range_add, mapM_range_mul]
  simp only [getAlignedValues, hchunks, hrest, map_eq_pure_bind, bind_assoc, pure_bind]

/-- Decompressing a range of a page decodes the fields of its values. -/
lemma decompressFromPage_eq {metadata : CompressionMetadata}
    (hinfo : getPackingInfo t metadata = .ok info) (buffer srcOffset n : ℕ) :
    decompressFromPage t buffer srcOffset n metadata = (range n).mapM fun i =>
      decodeValue info (info.field buffer ((srcOffset + i) * info.bitWidth)) := by
  -- the cursor is at the start of the chunk
  have hdiv := Nat.div_add_mod' srcOffset CHUNK_SIZE
  have hcursor : 8 * (srcOffset / CHUNK_SIZE * info.bitWidth * CHUNK_SIZE / 8) =
      srcOffset / CHUNK_SIZE * CHUNK_SIZE * info.bitWidth := by
    have hmul : srcOffset / CHUNK_SIZE * info.bitWidth * CHUNK_SIZE =
        srcOffset / CHUNK_SIZE * CHUNK_SIZE * info.bitWidth := by ring
    rw [hmul, chunkStart_eq]
  have hfirst : ∀ m, getValues buffer (srcOffset / CHUNK_SIZE * CHUNK_SIZE * info.bitWidth)
      (srcOffset % CHUNK_SIZE) m info = (range m).mapM fun i =>
        decodeValue info (info.field buffer ((srcOffset + i) * info.bitWidth)) := by
    intro m
    rw [getValues_eq hbits]
    apply mapM_congr
    intro i _
    rw [← Nat.add_mul, ← Nat.add_assoc, hdiv]
  have hmod : srcOffset % CHUNK_SIZE < CHUNK_SIZE := Nat.mod_lt _ (by decide)
  simp only [decompressFromPage, hinfo]
  show (if min (CHUNK_SIZE - srcOffset % CHUNK_SIZE) n < CHUNK_SIZE then _ else _) = _
  by_cases hpartial : min (CHUNK_SIZE - srcOffset % CHUNK_SIZE) n < CHUNK_SIZE
  · rw [if_pos hpartial, hcursor, hfirst]
    by_cases hall : n = min (CHUNK_SIZE - srcOffset % CHUNK_SIZE) n
    · -- the range ends in the first chunk
      simp only [if_pos hall]
      rw [← hall, bind_pure]
    -- the first chunk to its end, then whole chunks
    · have hmin : min (CHUNK_SIZE - srcOffset % CHUNK_SIZE) n =
          CHUNK_SIZE - srcOffset % CHUNK_SIZE := by omega
      have hn : n = CHUNK_SIZE - srcOffset % CHUNK_SIZE +
          (n - (CHUNK_SIZE - srcOffset % CHUNK_SIZE)) := by omega
      have hcursor' : srcOffset / CHUNK_SIZE * CHUNK_SIZE * info.bitWidth +
          8 * (CHUNK_SIZE / 8 * info.bitWidth) =
          (srcOffset + (CHUNK_SIZE - srcOffset % CHUNK_SIZE)) * info.bitWidth := by
        have hsum : srcOffset + (CHUNK_SIZE - srcOffset % CHUNK_SIZE) =
            srcOffset / CHUNK_SIZE * CHUNK_SIZE + CHUNK_SIZE := by omega
        rw [hsum, Nat.add_mul]
        show _ + 8 * (4 * info.bitWidth) = _ + 32 * info.bitWidth
        ring
      have hrest : getAlignedValues buffer
          ((srcOffset + (CHUNK_SIZE - srcOffset % CHUNK_SIZE)) * info.bitWidth)
          (n - (CHUNK_SIZE - srcOffset % CHUNK_SIZE)) info =
          (range (n - (CHUNK_SIZE - srcOffset % CHUNK_SIZE))).mapM fun i =>
            decodeValue info (info.field buffer
              ((srcOffset + (CHUNK_SIZE - srcOffset % CHUNK_SIZE + i)) * info.bitWidth)) := by
        rw [getAlignedValues_eq hbits]
        apply mapM_congr
        intro i _
        rw [← Nat.add_mul, Nat.add_assoc]
      simp only [if_neg hall]
      rw [hmin, hcursor', hrest]
      conv_rhs => rw [hn, mapM_range_add]
  · -- the range starts with a chunk
    have hzero : srcOffset % CHUNK_SIZE = 0 := by omega
    rw [hzero, Nat.add_zero] at hdiv
    rw [if_neg hpartial, hcursor, hdiv, getAlignedValues_eq hbits]
    apply mapM_congr
    intro i _
    rw [← Nat.add_mul]

end

end IntegerBitpacking

end Ladybug
