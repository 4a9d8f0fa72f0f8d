import Ladybug.Storage.Equiv.StoredSegment

/-!
# The round trip of integer segments

`roundTrips_iff` says which lists of integers come back from a compressed segment. `getTypedMinMax`
finds the least and the greatest of the values that are not null (`getTypedMinMax_eq_some`), and all
values between them survive their packing, with two exceptions (`Compressible`):

* The least value of a signed type has no absolute value: `std::abs` gives it back, and the packing
  is then chosen for the greatest value only; the absolute value of an `int128_t` throws.
* The sums and differences of `int128_t` throw when they are out of range. With a frame of
  reference, this can happen to the values of the null rows, which are compressed like all others.
-/

namespace Ladybug

open List IntType IntegerBitpacking StorageValue

variable {t : IntType} {values : List (BitVec t.width)} {nullMask : Option NullMask} {offset w : ℕ}
  {α : Type*} {v : α}

/-! ### The minimum and the maximum -/

lemma setWidth_signExtend_of_le_64 (hw : w ≤ 64) (v : BitVec w) :
    ((v.signExtend 64).setWidth 128).setWidth w = v := by
  apply BitVec.eq_of_getLsbD_eq
  intro i hi
  have h64 : i < 64 := lt_of_lt_of_le hi hw
  have h128 : i < 128 := by omega
  simp only [BitVec.getLsbD_setWidth, BitVec.getLsbD_signExtend, hi, h64, h128, decide_true,
    Bool.true_and, if_true]

lemma setWidth_setWidth_of_le_64 (hw : w ≤ 64) (v : BitVec w) :
    ((v.setWidth 64).setWidth 128).setWidth w = v := by
  rw [BitVec.setWidth_setWidth_of_le _ (by omega), BitVec.setWidth_setWidth_of_le _ hw,
    BitVec.setWidth_eq]

/-- A stored value is read back. -/
lemma StorageValue.get_ofValue (t : IntType) (v : BitVec t.width) : (ofValue t v).get t = v := by
  cases t with
  | int128 => exact BitVec.setWidth_eq v
  | int8 | int16 | int32 | int64 => exact setWidth_signExtend_of_le_64 (by decide) v
  | uint8 | uint16 | uint32 | uint64 => exact setWidth_setWidth_of_le_64 (by decide) v

/-- The values of the rows that are not null, when the first row is the row `offset` of the mask. -/
def nonNullFrom {α : Type*} (values : List α) (nullMask : Option NullMask) (offset : ℕ) : List α :=
  (values.zipIdx.filter fun v => !isNullRow nullMask (offset + v.2)).map Prod.fst

/-- The values of the rows that are not null. -/
def nonNullValues {α : Type*} (values : List α) (nullMask : Option NullMask) : List α :=
  nonNullFrom values nullMask 0

/-- The values that are not null. -/
lemma mem_nonNullFrom {values : List α} :
    v ∈ nonNullFrom values nullMask offset ↔
      ∃ i : ℕ, values[i]? = some v ∧ isNullRow nullMask (offset + i) = false := by
  rw [nonNullFrom, mem_map]
  constructor
  · rintro ⟨⟨w, i⟩, hmem, rfl⟩
    rw [mem_filter, mem_zipIdx_iff_getElem?] at hmem
    exact ⟨i, hmem.1, by simpa using hmem.2⟩
  · rintro ⟨i, hv, hnull⟩
    refine ⟨(v, i), ?_, rfl⟩
    rw [mem_filter, mem_zipIdx_iff_getElem?]
    exact ⟨hv, by simpa using hnull⟩

lemma mem_nonNullValues {values : List α} :
    v ∈ nonNullValues values nullMask ↔
      ∃ i : ℕ, values[i]? = some v ∧ isNullRow nullMask i = false := by
  rw [nonNullValues, mem_nonNullFrom]
  simp

lemma isNullRow_of_hasNoNullsGuarantee (h : nullMask.all (·.hasNoNullsGuarantee) = true) (i : ℕ) :
    isNullRow nullMask i = false := by
  cases nullMask with
  | none => rfl
  | some mask =>
    have hno : mask.mayContainNulls = false := by simpa [NullMask.hasNoNullsGuarantee] using h
    show mask.data.getD i false = false
    rw [getD_eq_getElem?_getD]
    cases hi : mask.data[i]? with
    | none => rfl
    | some null => exact mask.noNulls hno null (mem_of_getElem? hi)

/-- The minimum and maximum skip the nulls. -/
lemma getTypedMinMax_eq (offset : ℕ) :
    getTypedMinMax t values nullMask offset =
      (nonNullFrom values nullMask offset).foldl (updateMinMax t) (none, none) := by
  unfold getTypedMinMax
  split
  · next h =>
    have hall : nonNullFrom values nullMask offset = values := by
      rw [nonNullFrom, filter_eq_self.mpr, zipIdx_map_fst]
      intro v _
      rw [isNullRow_of_hasNoNullsGuarantee h]
      rfl
    rw [hall]
  · rw [nonNullFrom, foldl_map, foldl_filter]
    congr 1
    funext acc v
    cases isNullRow nullMask (offset + v.2) <;> rfl

/-- `lo` and `hi` are the least and the greatest of the values. -/
structure IsRange (t : IntType) (vs : List (BitVec t.width)) (lo hi : BitVec t.width) : Prop where
  lo_mem : lo ∈ vs
  hi_mem : hi ∈ vs
  lo_le : ∀ v ∈ vs, t.toInt lo ≤ t.toInt v
  le_hi : ∀ v ∈ vs, t.toInt v ≤ t.toInt hi

variable {info : BitpackInfo t} {hi lo : BitVec t.width} {vs : List (BitVec t.width)}

/-- There is one minimum and one maximum. -/
lemma IsRange.unique {lo' hi' : BitVec t.width}
    (h : IsRange t vs lo hi) (h' : IsRange t vs lo' hi') : lo = lo' ∧ hi = hi' :=
  ⟨toInt_inj (le_antisymm (h.lo_le _ h'.lo_mem) (h'.lo_le _ h.lo_mem)),
    toInt_inj (le_antisymm (h'.le_hi _ h.hi_mem) (h.le_hi _ h'.hi_mem))⟩

/-- One value widens the range. -/
lemma IsRange.updateMinMax (h : IsRange t vs lo hi) (v : BitVec t.width) :
    ∃ lo' hi', Ladybug.updateMinMax t (some (.ofValue t lo), some (.ofValue t hi)) v =
      (some (.ofValue t lo'), some (.ofValue t hi')) ∧ IsRange t (vs ++ [v]) lo' hi' := by
  refine ⟨if t.toInt v < t.toInt lo then v else lo,
    if t.toInt hi < t.toInt v then v else hi, ?_, ?_⟩
  · simp only [Ladybug.updateMinMax, Option.all_some, get_ofValue, t.lessThan_eq, decide_eq_true_eq]
    congr 1 <;> split <;> rfl
  · constructor
    · split
      · exact mem_append_right _ (mem_singleton_self v)
      · exact mem_append_left _ h.lo_mem
    · split
      · exact mem_append_right _ (mem_singleton_self v)
      · exact mem_append_left _ h.hi_mem
    · intro w hw
      rcases mem_append.mp hw with hw | hw
      · have := h.lo_le w hw
        split <;> omega
      · rw [mem_singleton.mp hw]
        split <;> omega
    · intro w hw
      rcases mem_append.mp hw with hw | hw
      · have := h.le_hi w hw
        split <;> omega
      · rw [mem_singleton.mp hw]
        split <;> omega

lemma foldl_updateMinMax (h : IsRange t vs lo hi) (ws : List (BitVec t.width)) :
    ∃ lo' hi', ws.foldl (Ladybug.updateMinMax t) (some (.ofValue t lo), some (.ofValue t hi)) =
      (some (.ofValue t lo'), some (.ofValue t hi')) ∧ IsRange t (vs ++ ws) lo' hi' := by
  induction ws generalizing vs lo hi with
  | nil => exact ⟨lo, hi, rfl, by rwa [append_nil]⟩
  | cons w ws ih =>
    obtain ⟨lo', hi', heq, hrange⟩ := h.updateMinMax w
    obtain ⟨lo'', hi'', heq', hrange'⟩ := ih hrange
    rw [append_assoc, singleton_append] at hrange'
    exact ⟨lo'', hi'', by rw [foldl_cons, heq, heq'], hrange'⟩

/-- `getTypedMinMax` finds the bounds of the values that are not null. -/
lemma getTypedMinMax_eq_some (h : nonNullFrom values nullMask offset ≠ []) :
    ∃ lo hi, getTypedMinMax t values nullMask offset =
      (some (.ofValue t lo), some (.ofValue t hi)) ∧
        IsRange t (nonNullFrom values nullMask offset) lo hi := by
  rw [getTypedMinMax_eq]
  cases hvs : nonNullFrom values nullMask offset with
  | nil => exact absurd hvs h
  | cons v vs =>
    have hsingle : IsRange t [v] v v :=
      ⟨mem_singleton_self v, mem_singleton_self v, fun w hw => by rw [mem_singleton.mp hw],
        fun w hw => by rw [mem_singleton.mp hw]⟩
    exact foldl_updateMinMax hsingle vs

/-! ### Round trips -/

/-- The segment can be written, and every range of its rows can be read, with the values of the rows
that are not null. -/
def SegmentRoundTrips (t : IntType) (values : List (BitVec t.width)) (nullMask : Option NullMask) :
    Prop :=
  ∃ segment, flush t values nullMask = .ok segment ∧
    ∀ startOffset length, startOffset + length ≤ values.length →
      ∃ out, segment.readCompressedValues t startOffset length = .ok out ∧ out.length = length ∧
        ∀ i < length, isNullRow nullMask (startOffset + i) = false →
          out[i]? = values[startOffset + i]?

/-- What there is to show of a segment whose rows are read one by one. -/
lemma roundTrips_iff_rows {segment : StoredSegment} (row : ℕ → Except String (BitVec t.width))
    (hflush : flush t values nullMask = .ok segment)
    (hread : ∀ startOffset n, startOffset + n ≤ values.length →
      segment.readCompressedValues t startOffset n =
        (List.range n).mapM fun i => row (startOffset + i)) :
    SegmentRoundTrips t values nullMask ↔
      ∀ i v, values[i]? = some v → ∃ r, row i = .ok r ∧ (isNullRow nullMask i = false → r = v) := by
  constructor
  -- each row is read on its own
  · rintro ⟨segment', hflush', htrips⟩ i v hv
    rw [hflush] at hflush'
    cases hflush'
    have hi : i < values.length := (List.getElem?_eq_some_iff.mp hv).1
    obtain ⟨out, hout, -, hrows⟩ := htrips i 1 hi
    rw [hread i 1 hi] at hout
    obtain ⟨-, hget⟩ := ExceptList.getElem?_of_mapM_ok hout
    obtain ⟨r, hr, hrow⟩ := hget 0 0 rfl
    refine ⟨r, hrow, fun hnull => ?_⟩
    have heq := hrows 0 (by decide) hnull
    rw [hr, Nat.add_zero, hv] at heq
    exact Option.some.inj heq
  · intro h
    refine ⟨segment, hflush, fun startOffset n hle => ?_⟩
    have hrow : ∀ i ∈ List.range n, row (startOffset + i) = .ok
        (match row (startOffset + i) with | .ok r => r | .error _ => 0) := by
      intro i hi
      have hlt : startOffset + i < values.length := by
        have := mem_range.mp hi
        omega
      obtain ⟨r, hr, -⟩ := h _ _ (getElem?_eq_getElem hlt)
      rw [hr]
    rw [hread startOffset n hle]
    refine ⟨_, ExceptList.mapM_ok hrow, by simp, fun i hi hnull => ?_⟩
    have hlt : startOffset + i < values.length := by omega
    obtain ⟨r, hr, hval⟩ := h _ _ (getElem?_eq_getElem hlt)
    rw [getElem?_map, getElem?_range hi, Option.map_some, hr, getElem?_eq_getElem hlt, ← hval hnull]

section flush

variable {compMeta : CompressionMetadata} {numPages perPage : ℕ}

section

variable (hmeta : getMetadataToFlush t values nullMask = .ok (compMeta, numPages))

include hmeta

/-- Equal values are stored without pages. -/
lemma flush_constant (hc : compMeta.compression = .constant) :
    flush t values nullMask = .ok ⟨compMeta, values.length, []⟩ := by
  rw [flush, hmeta]
  exact if_pos (.inl hc)

/-- Other values are written to pages. -/
lemma flush_pages (hc : compMeta.compression ≠ .constant) (hne : values ≠ [])
    (hper : compMeta.numValues LBUG_PAGE_SIZE t = .ok perPage) :
    flush t values nullMask = (do
      let pages ← writePages compMeta perPage values.length values 0
      return ⟨compMeta, values.length, pages ++ List.replicate (numPages - pages.length) 0⟩) := by
  rw [flush, hmeta]
  show (if _ then _ else _) = _
  rw [if_neg (not_or.mpr ⟨hc, hne⟩), hper]
  rfl

/-- Values copied as they are survive. -/
lemma roundTrips_uncompressed (hc : compMeta.compression = .uncompressed) (hne : values ≠ []) :
    SegmentRoundTrips t values nullMask := by
  have hper : compMeta.numValues LBUG_PAGE_SIZE t = .ok (LBUG_PAGE_SIZE / t.numBytes) := by
    rw [CompressionMetadata.numValues, hc]
    rfl
  have hpages := compressesPages_uncompressed (t := t) hc
  obtain ⟨pages, hwrite⟩ := writePages_ok (perPage_uncompressed_pos t) hpages
    (le_refl values.length) (fun _ _ => trivial) 0
  obtain ⟨-, hfields⟩ := writePages_spec (perPage_uncompressed_pos t) hpages hwrite
  have hflush := flush_pages hmeta (by rw [hc]; decide) hne hper
  rw [hwrite] at hflush
  rw [roundTrips_iff_rows (fun i => .ok (values.getD i 0)) hflush fun startOffset n hle =>
    StoredSegment.readCompressedValues_uncompressed hc hfields.append hle]
  intro i v hv
  refine ⟨v, ?_, fun _ => rfl⟩
  rw [getD_eq_getElem?_getD, hv]
  rfl

/-- Packed segments: every row has to survive its packing, and the null rows must not fail. -/
lemma roundTrips_packed_iff (hc : compMeta.compression = .integerBitpacking) (hne : values ≠ [])
    (hinfo : getPackingInfo t compMeta = .ok info)
    (hpos : 0 < info.bitWidth) (hbits : info.bitWidth < t.width) :
    SegmentRoundTrips t values nullMask ↔
      ∀ i v, values[i]? = some v → info.Encodable v ∧
        ∃ r, info.reread v = .ok r ∧ (isNullRow nullMask i = false → r = v) := by
  have hper := numValues_packed hinfo hpos hc
  have hpages := compressesPages_packed hinfo hpos (by rw [hc]; decide) hbits
  have hn := perPage_packed_pos hpos hbits
  have hflush := flush_pages hmeta (by rw [hc]; decide) hne hper
  have hrows : ∀ pages, writePages compMeta (LBUG_PAGE_SIZE * 8 / info.bitWidth) values.length
      values 0 = .ok pages → (SegmentRoundTrips t values nullMask ↔
        ∀ i v, values[i]? = some v →
          ∃ r, info.reread v = .ok r ∧ (isNullRow nullMask i = false → r = v)) := by
    intro pages hwrite
    obtain ⟨-, hfields⟩ := writePages_spec hn hpages hwrite
    rw [hwrite] at hflush
    rw [roundTrips_iff_rows (fun i => info.reread (values.getD i 0)) hflush fun startOffset n hle =>
      StoredSegment.readCompressedValues_packed hc hinfo hpos hbits hfields.append hle]
    apply forall₃_congr
    intro i v hv
    rw [getD_eq_getElem?_getD, hv, Option.getD_some]
  constructor
  · intro htrips
    obtain ⟨segment, hsegment, -⟩ := id htrips
    rw [hflush] at hsegment
    obtain ⟨pages, hwrite, -⟩ := ExceptList.bind_ok hsegment
    obtain ⟨henc, -⟩ := writePages_spec hn hpages hwrite
    exact fun i v hv => ⟨henc v (mem_of_getElem? hv), (hrows pages hwrite).mp htrips i v hv⟩
  -- what can be encoded is written
  · intro h
    have henc : ∀ v ∈ values, info.Encodable v := by
      intro v hv
      obtain ⟨i, hi⟩ := mem_iff_getElem?.mp hv
      exact (h i v hi).1
    obtain ⟨pages, hwrite⟩ := writePages_ok hn hpages (le_refl values.length) henc 0
    exact (hrows pages hwrite).mpr fun i v hv => (h i v hv).2

end

end flush

/-! ### Null rows in a frame of reference -/

namespace IntegerBitpacking

section

variable (hbits : info.bitWidth < t.width)

include hbits

/-- The packed difference of a value and the offset, as a number. -/
lemma toNat_encode_mod (v : BitVec t.width) :
    (((info.encode v).toNat % 2 ^ info.bitWidth : ℕ) : ℤ) =
      (t.toInt v - t.toInt info.offset) % 2 ^ info.bitWidth := by
  have hdvd : ((2 ^ info.bitWidth : ℕ) : ℤ) ∣ ((2 ^ t.width : ℕ) : ℤ) :=
    Int.natCast_dvd_natCast.mpr (Nat.pow_dvd_pow 2 (le_of_lt hbits))
  have hnonneg := Int.emod_nonneg (t.toInt v - t.toInt info.offset)
    (show ((2 ^ t.width : ℕ) : ℤ) ≠ 0 by positivity)
  have hsub : info.encode v = BitVec.ofInt t.width (t.toInt v - t.toInt info.offset) := by
    rw [ofInt_sub, ofInt_toInt, ofInt_toInt, BitpackInfo.encode]
  rw [hsub, BitVec.toNat_ofInt, Int.natCast_mod,
    Int.toNat_of_nonneg hnonneg, Int.emod_emod_of_dvd _ hdvd]
  push_cast
  rfl

/-- A value can be packed and read with a frame of reference, whatever is read. -/
lemma reread_frame_ok_iff (hneg : info.hasNegative = false)
    (hoffset : 0 < t.toInt info.offset) (v : BitVec t.width) :
    (info.Encodable v ∧ ∃ r, info.reread v = .ok r) ↔
      (t = .int128 → -2 ^ 127 < t.toInt v - t.toInt info.offset ∧
        (t.toInt v - t.toInt info.offset) % 2 ^ info.bitWidth + t.toInt info.offset < 2 ^ 127) := by
  have h0 : info.offset ≠ 0 := by
    intro h
    rw [h, toInt_zero] at hoffset
    exact lt_irrefl _ hoffset
  have hext : ∀ x, info.extend x = x := fun x => if_neg (by simp [hneg])
  have hmod := toNat_encode_mod hbits v
  have hend := two_pow_le_endInt hbits
  have hmin := t.minInt_nonpos
  -- the field holds the difference, reduced
  have hfield : t.toInt (BitVec.ofNat t.width ((info.encode v).toNat % 2 ^ info.bitWidth)) =
      (t.toInt v - t.toInt info.offset) % 2 ^ info.bitWidth := by
    rw [← BitVec.ofInt_natCast, toInt_ofInt (by omega) (by omega), hmod]
  have hreread : info.reread v = t.addAssign
      (BitVec.ofNat t.width ((info.encode v).toNat % 2 ^ info.bitWidth)) info.offset := by
    rw [BitpackInfo.reread, decodeValue_eq hbits, if_pos h0, hext]
  rw [hreread]
  constructor
  · rintro ⟨henc, r, hr⟩ ht
    have hadd : t.AddFits (BitVec.ofNat t.width ((info.encode v).toNat % 2 ^ info.bitWidth))
        info.offset := by
      by_contra hfits
      obtain ⟨e, he⟩ := addAssign_error hfits
      rw [he] at hr
      cases hr
    have hadd := (hadd ht).2
    rw [hfield] at hadd
    exact ⟨(henc h0 ht).1, hadd⟩
  · intro h
    have hv := lt_endInt v
    constructor
    · intro _ ht
      have hend' : t.endInt = 2 ^ 127 := by
        rw [ht]
        rfl
      exact ⟨(h ht).1, by omega⟩
    · refine ⟨_, addAssign_ok fun ht => ?_⟩
      rw [hfield]
      exact ⟨by omega, (h ht).2⟩

lemma reread_ok_of_offset (h0 : info.offset = 0)
    (v : BitVec t.width) : info.Encodable v ∧ ∃ r, info.reread v = .ok r := by
  refine ⟨fun hne => absurd h0 hne, ?_⟩
  rw [BitpackInfo.reread, decodeValue_eq hbits, if_neg (not_not.mpr h0)]
  exact ⟨_, rfl⟩

end

end IntegerBitpacking

/-! ### The lists that survive -/

/-- The lists of integers that come back from a segment: the least value of a signed type is stored
only in a constant segment or beside a value that needs all bits, and never beside another
`int128_t`; in a frame of reference of `int128_t`, no sum or difference of a null row is out of
range. -/
def Compressible (t : IntType) (values : List (BitVec t.width)) (nullMask : Option NullMask) :
    Prop :=
  ∀ lo hi, IsRange t (nonNullValues values nullMask) lo hi → lo ≠ hi →
    (t.toInt lo < 0 → t.toInt lo = t.minInt →
      t ≠ .int128 ∧ 2 ^ (t.width - 2) ≤ (t.toInt hi).natAbs) ∧
    (t = .int128 → 0 < t.toInt lo →
      bitWidth (t.toInt hi - t.toInt lo).toNat < bitWidth (t.toInt hi).toNat →
      ∀ (i : ℕ) v, values[i]? = some v → isNullRow nullMask i = true →
        -2 ^ 127 < t.toInt v - t.toInt lo ∧
        (t.toInt v - t.toInt lo) % 2 ^ bitWidth (t.toInt hi - t.toInt lo).toNat + t.toInt lo
          < 2 ^ 127)

lemma IsRange.lt (h : IsRange t vs lo hi) (hne : lo ≠ hi) : t.toInt lo < t.toInt hi :=
  lt_of_le_of_ne (h.lo_le _ h.hi_mem) fun heq => hne (toInt_inj heq)

/-- For the bounds of a list, `Compressible` is about these bounds. -/
lemma compressible_iff (h : IsRange t (nonNullValues values nullMask) lo hi) (hne : lo ≠ hi) :
    Compressible t values nullMask ↔
      (t.toInt lo < 0 → t.toInt lo = t.minInt →
        t ≠ .int128 ∧ 2 ^ (t.width - 2) ≤ (t.toInt hi).natAbs) ∧
      (t = .int128 → 0 < t.toInt lo →
        bitWidth (t.toInt hi - t.toInt lo).toNat < bitWidth (t.toInt hi).toNat →
        ∀ (i : ℕ) v, values[i]? = some v → isNullRow nullMask i = true →
          -2 ^ 127 < t.toInt v - t.toInt lo ∧
            (t.toInt v - t.toInt lo) % 2 ^ bitWidth (t.toInt hi - t.toInt lo).toNat + t.toInt lo <
              2 ^ 127) := by
  constructor
  · exact fun hc => hc lo hi h hne
  · rintro hc lo' hi' h' -
    obtain ⟨rfl, rfl⟩ := h.unique h'
    exact hc

lemma packing_bitWidth_pos (hlt : t.toInt lo < t.toInt hi) :
    0 < (packing t (t.toInt lo) (t.toInt hi)).bitWidth := by
  have hbit : ∀ n, 0 < n → 0 < bitWidth n := by
    intro n hn
    rcases Nat.eq_zero_or_pos (bitWidth n) with h0 | hpos
    · have := lt_two_pow_bitWidth n
      rw [h0] at this
      omega
    · exact hpos
  rcases packing_cases t (t.toInt lo) (t.toInt hi) with
    ⟨-, -, hp⟩ | ⟨hnonneg, -, hp⟩ | ⟨-, hp⟩
  · rw [hp]
    exact hbit _ (by omega)
  · rw [hp]
    exact hbit _ (by omega)
  · rw [hp]
    exact Nat.succ_pos _

/-- The minimum is left out of the width. -/
lemma packing_bitWidth_of_minInt (hneg : t.toInt lo < 0) (hlo : t.toInt lo = t.minInt) (M : ℤ) :
    (packing t (t.toInt lo) M).bitWidth = bitWidth M.natAbs + 1 := by
  rcases packing_cases t (t.toInt lo) M with ⟨h, -, -⟩ | ⟨h, -, -⟩ | ⟨-, hp⟩
  · omega
  · omega
  · rw [hp, if_pos hlo]

lemma toNat_toInt_lt (v : BitVec t.width) : (t.toInt v).toNat < 2 ^ t.width := by
  have hlt := lt_endInt v
  have hend : t.endInt ≤ 2 ^ t.width := by
    have hw := t.two_pow_width
    have hpos : (0 : ℤ) < 2 ^ (t.width - 1) := by positivity
    unfold IntType.endInt
    split <;> omega
  rw [Int.toNat_lt_of_ne_zero (Nat.ne_of_gt (Nat.two_pow_pos _))]
  push_cast
  omega

/-- Bit packing is used if it saves bits. -/
lemma getBitpackingMetadata_eq {min max : StorageValue}
    (hinfo : getPackingInfo t ⟨min, max, .integerBitpacking⟩ = .ok info) (numValues : ℕ) :
    ∃ numPages, getBitpackingMetadata t numValues min max = .ok (⟨min, max,
      if t.width ≤ info.bitWidth then .uncompressed else .integerBitpacking⟩, numPages) := by
  have hwidth : t.numBytes * 8 = t.width := by rw [t.width_eq_numBytes, Nat.mul_comm]
  rw [getBitpackingMetadata, hinfo]
  show ∃ numPages, (CompressionMetadata.numValues
    (if info.bitWidth ≥ t.numBytes * 8 then _ else _) _ _ >>= _) = _
  rw [hwidth]
  split_ifs with hbits
  · exact ⟨_, rfl⟩
  · rw [CompressionMetadata.numValues]
    simp only [hinfo]
    exact ⟨_, rfl⟩

/-- Values that differ go to the bit packing. -/
lemma getMetadataToFlush_eq
    (hminmax : getTypedMinMax t values nullMask 0 = (some (.ofValue t lo), some (.ofValue t hi)))
    (hne : lo ≠ hi) :
    getMetadataToFlush t values nullMask =
      getBitpackingMetadata t values.length (.ofValue t lo) (.ofValue t hi) := by
  have hvalue : ofValue t lo ≠ ofValue t hi := by
    intro heq
    apply hne
    rw [← get_ofValue t lo, heq, get_ofValue]
  simp [getMetadataToFlush, hminmax, getCompressionMetadata, hvalue]

/-- Each row is read back, nulls as something. -/
lemma exists_reread {i : ℕ} {v : BitVec t.width}
    (hnull : isNullRow nullMask i = true → info.Encodable v ∧ ∃ r, info.reread v = .ok r)
    (hvalue : isNullRow nullMask i = false → info.Encodable v ∧ info.reread v = .ok v) :
    info.Encodable v ∧ ∃ r, info.reread v = .ok r ∧ (isNullRow nullMask i = false → r = v) := by
  cases hrow : isNullRow nullMask i with
  | false =>
    obtain ⟨henc, hread⟩ := hvalue hrow
    exact ⟨henc, v, hread, fun _ => rfl⟩
  | true =>
    obtain ⟨henc, r, hread⟩ := hnull hrow
    exact ⟨henc, r, hread, fun h => by cases h⟩

/-- The rows of a packed segment survive exactly when the list is compressible. -/
lemma reread_all_iff (hrange : IsRange t (nonNullValues values nullMask) lo hi) (hne : lo ≠ hi)
    (hbits : (packing t (t.toInt lo) (t.toInt hi)).bitWidth < t.width) :
    (∀ i v, values[i]? = some v → (packing t (t.toInt lo) (t.toInt hi)).Encodable v ∧
      ∃ r, (packing t (t.toInt lo) (t.toInt hi)).reread v = .ok r ∧
        (isNullRow nullMask i = false → r = v)) ↔
      Compressible t values nullMask := by
  have hlt := hrange.lt hne
  have hmin := t.minInt_le lo
  have hend := lt_endInt hi
  have hmem : ∀ i v, values[i]? = some v → isNullRow nullMask i = false →
      t.toInt lo ≤ t.toInt v ∧ t.toInt v ≤ t.toInt hi := by
    intro i v hv hnull
    have hv := mem_nonNullValues.mpr ⟨i, hv, hnull⟩
    exact ⟨hrange.lo_le v hv, hrange.le_hi v hv⟩
  have hvalue : (t.toInt lo < 0 → t.toInt lo ≠ t.minInt) → ∀ i v, values[i]? = some v →
      isNullRow nullMask i = false →
        (packing t (t.toInt lo) (t.toInt hi)).Encodable v ∧
          (packing t (t.toInt lo) (t.toInt hi)).reread v = .ok v := by
    intro hnot i v hv hnull
    obtain ⟨hge, hle⟩ := hmem i v hv hnull
    exact packing_roundTrip hbits hmin hend hnot hge hle
  rw [compressible_iff hrange hne]
  rcases packing_cases t (t.toInt lo) (t.toInt hi) with
    ⟨hpos, hframe, hp⟩ | ⟨hnonneg, hframe, hp⟩ | ⟨hneg, hp⟩
  · -- a frame of reference
    have hoffset : (packing t (t.toInt lo) (t.toInt hi)).offset = lo := by
      rw [hp]
      exact ofInt_toInt lo
    have hnull := reread_frame_ok_iff hbits (by rw [hp]) (by rw [hoffset]; exact hpos)
    have hwidth : (packing t (t.toInt lo) (t.toInt hi)).bitWidth =
        bitWidth (t.toInt hi - t.toInt lo).toNat := by rw [hp]
    rw [hoffset, hwidth] at hnull
    constructor
    · intro h
      refine ⟨fun hneg => absurd hneg (by omega), fun ht _ _ i v hv _ => ?_⟩
      obtain ⟨henc, r, hr, -⟩ := h i v hv
      exact (hnull v).mp ⟨henc, r, hr⟩ ht
    · rintro ⟨-, h⟩ i v hv
      apply exists_reread _ (hvalue (fun hneg => absurd hneg (by omega)) i v hv)
      exact fun hrow => (hnull v).mpr fun ht => h ht hpos hframe i v hv hrow
  · -- the values as they are
    apply iff_of_true
    · intro i v hv
      apply exists_reread _ (hvalue (fun hneg => absurd hneg (by omega)) i v hv)
      exact fun _ => reread_ok_of_offset hbits (by rw [hp]) v
    · exact ⟨fun hneg => absurd hneg (by omega), fun _ hpos h => absurd ⟨hpos, h⟩ hframe⟩
  · -- values with a sign
    have hoffset : (packing t (t.toInt lo) (t.toInt hi)).offset = 0 := by rw [hp]
    by_cases hlo : t.toInt lo = t.minInt
    · have hs := isSigned_of_neg hneg
      have hwidth := packing_bitWidth_of_minInt hneg hlo (t.toInt hi)
      apply iff_of_false
      · intro h
        -- the least value would have to fit into the bits of the greatest one
        obtain ⟨i, hget, hnull⟩ := mem_nonNullValues.mp hrange.lo_mem
        obtain ⟨-, r, hr, hval⟩ := h i lo hget
        rw [hval hnull] at hr
        have hfits := (reread_signed_iff hbits (packing_bitWidth_pos hlt)
          (by rw [hp]) hoffset hs lo).mp hr
        rw [BitpackInfo.Fits, if_pos (by rw [hp]), hoffset, toInt_zero, hwidth, hlo,
          Nat.add_sub_cancel, IntType.minInt, if_pos hs] at hfits
        have hpow : (2 : ℤ) ^ bitWidth (t.toInt hi).natAbs < 2 ^ (t.width - 1) :=
          pow_lt_pow_right₀ (by decide) (by omega)
        omega
      · rintro ⟨h, -⟩
        have hle := lt_bitWidth.mpr (h hneg hlo).2
        omega
    · apply iff_of_true
      · intro i v hv
        apply exists_reread _ (hvalue (fun _ => hlo) i v hv)
        exact fun _ => reread_ok_of_offset hbits hoffset v
      · exact ⟨fun _ h => absurd h hlo, fun _ hpos => absurd hpos (by omega)⟩

/-- Lists with two different values whose absolute values can be computed. -/
lemma roundTrips_iff_of_packing
    (hminmax : getTypedMinMax t values nullMask 0 = (some (.ofValue t lo), some (.ofValue t hi)))
    (hrange : IsRange t (nonNullValues values nullMask) lo hi) (hne : lo ≠ hi)
    (habs : t = .int128 → t.toInt lo ≠ t.minInt) :
    SegmentRoundTrips t values nullMask ↔ Compressible t values nullMask := by
  have hlt := hrange.lt hne
  have hinfo : getPackingInfo t
      ⟨.ofValue t lo, .ofValue t hi, .integerBitpacking⟩ =
        .ok (packing t (t.toInt lo) (t.toInt hi)) :=
    getPackingInfo_eq (get_ofValue t lo) (get_ofValue t hi) hlt habs
  obtain ⟨numPages, hmeta⟩ := getBitpackingMetadata_eq hinfo values.length
  rw [← getMetadataToFlush_eq hminmax hne] at hmeta
  have hvalues : values ≠ [] := by
    rintro rfl
    cases hrange.lo_mem
  split_ifs at hmeta with hbits
  · apply iff_of_true (roundTrips_uncompressed hmeta rfl hvalues)
    rw [compressible_iff hrange hne]
    constructor
    · intro hneg hlo
      rw [packing_bitWidth_of_minInt hneg hlo] at hbits
      have hw : 8 ≤ t.width := by cases t <;> decide
      exact ⟨fun ht => habs ht hlo, lt_bitWidth.mp (by omega)⟩
    · -- with a frame of reference there are less bits than in the greatest value
      intro ht hpos hframe
      simp only [packing, if_pos (And.intro hpos hframe)] at hbits
      have hle := bitWidth_le.mpr (toNat_toInt_lt hi)
      omega
  · rw [roundTrips_packed_iff hmeta rfl hvalues hinfo (packing_bitWidth_pos hlt) (not_le.mp hbits)]
    exact reread_all_iff hrange hne (not_le.mp hbits)

/-- Equal values survive. -/
lemma roundTrips_constant (hminmax : (getTypedMinMax t values nullMask 0).1.getD 0 =
      (getTypedMinMax t values nullMask 0).2.getD 0) (hvalue : ∀ w ∈ nonNullValues values nullMask,
      ((getTypedMinMax t values nullMask 0).1.getD 0).get t = w) :
    SegmentRoundTrips t values nullMask := by
  have hmeta : getMetadataToFlush t values nullMask =
      .ok (⟨(getTypedMinMax t values nullMask 0).1.getD 0,
        (getTypedMinMax t values nullMask 0).2.getD 0, .constant⟩, 0) := by
    rw [getMetadataToFlush]
    exact if_pos hminmax
  refine ⟨_, flush_constant hmeta rfl, fun startOffset n hle => ?_⟩
  refine ⟨_, StoredSegment.readCompressedValues_constant rfl startOffset n, by simp, ?_⟩
  intro i hi hnull
  have hlt : startOffset + i < values.length := by omega
  have hget := getElem?_eq_getElem hlt
  rw [getElem?_replicate_of_lt hi, hget, hvalue _ (mem_nonNullValues.mpr ⟨_, hget, hnull⟩)]

/-- The lists of integers that survive their compression. -/
theorem roundTrips_iff (t : IntType) (values : List (BitVec t.width)) (nullMask : Option NullMask) :
    SegmentRoundTrips t values nullMask ↔ Compressible t values nullMask := by
  by_cases hnone : nonNullValues values nullMask = []
  -- all rows are null
  · have hminmax : getTypedMinMax t values nullMask 0 = (none, none) := by
      rw [getTypedMinMax_eq, ← nonNullValues, hnone]
      rfl
    apply iff_of_true
    · apply roundTrips_constant
      · rw [hminmax]
      · rw [hnone]
        intro w hw
        cases hw
    · intro lo hi hrange
      have hmem := hrange.lo_mem
      rw [hnone] at hmem
      cases hmem
  · obtain ⟨lo, hi, hminmax, hrange⟩ := getTypedMinMax_eq_some (t := t) hnone
    by_cases hne : lo = hi
    -- all values are equal
    · subst hne
      apply iff_of_true
      · apply roundTrips_constant
        · rw [hminmax]
        · rw [hminmax]
          intro w hw
          rw [Option.getD_some, get_ofValue]
          exact toInt_inj (le_antisymm (hrange.lo_le w hw) (hrange.le_hi w hw))
      · intro lo' hi' hrange' hne'
        obtain ⟨hlo, hhi⟩ := hrange.unique hrange'
        exact absurd (hlo.symm.trans hhi) hne'
    · by_cases habs : t = .int128 ∧ t.toInt lo = t.minInt
      -- the minimum of `INT128` has no absolute value
      · obtain ⟨ht, hlo⟩ := habs
        have hlt := hrange.lt hne
        obtain ⟨e, he⟩ : ∃ e, getPackingInfo t
            ⟨.ofValue t lo, .ofValue t hi, .integerBitpacking⟩ = .error e :=
          getPackingInfo_error (get_ofValue t lo) (get_ofValue t hi) hlt ht hlo
        apply iff_of_false
        · rintro ⟨segment, hflush, -⟩
          rw [flush, getMetadataToFlush_eq hminmax hne, getBitpackingMetadata, he] at hflush
          cases hflush
        · rw [compressible_iff hrange hne]
          rintro ⟨h, -⟩
          have hneg : t.toInt lo < 0 := by
            rw [hlo, ht]
            decide
          exact (h hneg hlo).1 ht
      · exact roundTrips_iff_of_packing hminmax hrange hne fun ht hlo => habs ⟨ht, hlo⟩

/-- `std::abs` of the least `int8_t` is the least `int8_t`, so that four bits seem to be enough. -/
theorem not_roundTrips_least_int8 : ¬ SegmentRoundTrips .int8 [0x80#8, 5#8] none := by
  rintro ⟨segment, hflush, hread⟩
  obtain ⟨out, hout, -, hrows⟩ := hread 0 2 (by decide)
  have hzero : (flush .int8 [0x80#8, 5#8] none >>= fun segment =>
      segment.readCompressedValues .int8 0 2) = .ok [0#8, 5#8] := by decide +kernel
  rw [hflush] at hzero
  have heq : Except.ok out = Except.ok [0#8, 5#8] := hout.symm.trans hzero
  cases heq
  have hrow := hrows 0 (by decide) rfl
  revert hrow
  decide

end Ladybug
