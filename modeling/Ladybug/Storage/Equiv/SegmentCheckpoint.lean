import Ladybug.Storage.Equiv.SegmentWrites

/-!
# Checkpoints of packed segments in place

A packed segment stores a field for each of its rows (`Stores`), as `flush` leaves it
(`flush_stores`), and reading it decodes the fields (`Stores.readsRows`). A checkpoint in place
that is safe keeps this (`checkpointInPlace_stores`).

`checkpointInPlace_iff` says which checkpoints are safe. As in
`Ladybug.Storage.Equiv.IntegerRoundTrip`, what is missing is the least value of a signed type, whose
absolute value does not count, and the data of null rows of type `int128_t`.
-/

namespace Ladybug

open List IntegerBitpacking IntegerColumn ExceptList IntType SegmentCheckpointState

variable {t : IntType} {w : ℕ}

/-! ### Statistics -/

lemma toInt_signExtend_64 (hw : w ≤ 64) (x : BitVec w) :
    (((x.signExtend 64).setWidth 128).setWidth 64).toInt = x.toInt := by
  rw [BitVec.setWidth_setWidth_of_le _ (by decide), BitVec.setWidth_eq,
    BitVec.toInt_signExtend_of_le hw]

lemma toNat_setWidth_64 (hw : w ≤ 64) (x : BitVec w) :
    (((x.setWidth 64).setWidth 128).setWidth 64).toNat = x.toNat := by
  rw [BitVec.setWidth_setWidth_of_le _ (by decide), BitVec.setWidth_eq,
    BitVec.toNat_setWidth_of_le hw]

/-- Stored values compare as the integers. -/
lemma StorageValue.gt_ofValue (t : IntType) (x y : BitVec t.width) :
    StorageValue.gt t (.ofValue t x) (.ofValue t y) = decide (t.toInt y < t.toInt x) := by
  have hsigned : ∀ {w : ℕ}, w ≤ 64 → ∀ x y : BitVec w,
      (((y.signExtend 64).setWidth 128).setWidth 64).slt
        (((x.signExtend 64).setWidth 128).setWidth 64) = decide (y.toInt < x.toInt) := by
    intro w hw x y
    rw [BitVec.slt_eq_decide, toInt_signExtend_64 hw, toInt_signExtend_64 hw]
  have hunsigned : ∀ {w : ℕ}, w ≤ 64 → ∀ x y : BitVec w,
      (((y.setWidth 64).setWidth 128).setWidth 64).ult
        (((x.setWidth 64).setWidth 128).setWidth 64) =
        decide ((y.toNat : ℤ) < x.toNat) := by
    intro w hw x y
    rw [BitVec.ult_eq_decide, toNat_setWidth_64 hw, toNat_setWidth_64 hw]
    simp
  cases t with
  | int128 => exact Int128.lessThan_eq y x
  | int8 | int16 | int32 | int64 => exact hsigned (by decide) x y
  | uint8 | uint16 | uint32 | uint64 => exact hunsigned (by decide) x y

namespace IntegerColumn

lemma updateStatistics_numValues (segment : StoredSegment) (maxIndex : ℕ)
    (min max : Option StorageValue) :
    (updateStatistics t segment maxIndex min max).numValues =
      Max.max segment.numValues (maxIndex + 1) := by
  show (if _ then _ else _) = _
  split
  · rw [max_eq_right (by omega)]
  · rw [max_eq_left (by omega)]

end IntegerColumn

/-! ### Stored rows -/

/-- What is known of the rows: nothing, that a row is null, or its value. -/
abbrev Rows (t : IntType) := ℕ → Option (Option (BitVec t.width))

/-- Every range of known rows can be read, with the values of the rows that are not null. -/
def ReadsRows (segment : StoredSegment) (t : IntType) (rows : Rows t) : Prop :=
  ∀ startOffset length, (∀ i < length, (rows (startOffset + i)).isSome) →
    ∃ out, segment.readCompressedValues t startOffset length = .ok out ∧ out.length = length ∧
      ∀ i < length, ∀ v, rows (startOffset + i) = some (some v) → out[i]? = some v

/-- The number of values on a page of a packed segment. -/
def perPageOf (info : BitpackInfo t) : ℕ :=
  LBUG_PAGE_SIZE * 8 / info.bitWidth

/-- A packed segment that stores the rows. -/
structure Stores (segment : StoredSegment) (info : BitpackInfo t) (rows : Rows t) : Prop where
  metadata : ∃ lo hi, PackedMetadata segment.compMeta lo hi info
  bits : info.bitWidth < t.width
  bound : ∀ i, (rows i).isSome → i < segment.numValues
  field : ∀ i row, rows i = some row →
    ∃ x, fieldAt segment.pages (perPageOf info) info.bitWidth i = some x ∧
      ∃ out, IntegerBitpacking.decodeValue info (BitVec.ofNat t.width x) = .ok out ∧
        ∀ v, row = some v → out = v

namespace Stores

variable {segment : StoredSegment} {info : BitpackInfo t} {rows : Rows t}

section

variable (h : Stores segment info rows)

include h

lemma compression : segment.compMeta.compression = .integerBitpacking := by
  obtain ⟨lo, hi, hmeta⟩ := h.metadata
  rw [hmeta.eq]

lemma getPackingInfo : getPackingInfo t segment.compMeta = .ok info := by
  obtain ⟨lo, hi, hmeta⟩ := h.metadata
  exact hmeta.getPackingInfo

lemma bitWidth_pos : 0 < info.bitWidth := by
  obtain ⟨lo, hi, hmeta⟩ := h.metadata
  exact hmeta.bitWidth_pos

lemma readsRows : ReadsRows segment t rows := by
  intro startOffset length hknown
  have hrow : ∀ i < length, ∃ x, fieldAt segment.pages (perPageOf info) info.bitWidth
      (startOffset + i) = some x ∧ ∃ out, decodeValue info
        (BitVec.ofNat t.width x) = .ok out ∧
          ∀ v, rows (startOffset + i) = some (some v) → out = v := by
    intro i hi
    obtain ⟨row, hr⟩ := Option.isSome_iff_exists.mp (hknown i hi)
    obtain ⟨x, hx, out, hout, hval⟩ := h.field _ _ hr
    refine ⟨x, hx, out, hout, fun v hv => ?_⟩
    rw [hr, Option.some.injEq] at hv
    exact hval v hv
  rw [StoredSegment.readCompressedValues_fields h.compression h.getPackingInfo h.bitWidth_pos
    h.bits fun i hi => by
      obtain ⟨x, hx, -⟩ := hrow i hi
      exact Option.isSome_of_eq_some hx]
  choose! x hx out hout hval using hrow
  refine ⟨(List.range length).map out, ?_, by simp, ?_⟩
  · apply mapM_ok
    intro i hi
    have hi := mem_range.mp hi
    rw [← perPageOf, hx i hi, Option.getD_some, hout i hi]
  · intro i hi v hv
    rw [getElem?_map, getElem?_range hi, Option.map_some, hval i hi v hv]

end

end Stores

/-! ### Runs of writes -/

namespace IntegerColumn.SegmentCheckpointState

/-- The new row `i` of a range. -/
def row (state : IntegerColumn.SegmentCheckpointState t) (i : ℕ) : Option (BitVec t.width) :=
  if isNullRow state.nullMask (state.startRowInData + i) then none else state.values[i]?

/-- A row of the segment that is in the range. -/
def covers (state : IntegerColumn.SegmentCheckpointState t) (j : ℕ) : Bool :=
  decide (state.offsetInSegment ≤ j ∧ j < state.offsetInSegment + state.numRows)

/-- Ranges without a common row. -/
def Disjoint (state state' : IntegerColumn.SegmentCheckpointState t) : Prop :=
  state.offsetInSegment + state.numRows ≤ state'.offsetInSegment ∨
    state'.offsetInSegment + state'.numRows ≤ state.offsetInSegment

lemma length_values (state : SegmentCheckpointState t) : state.values.length = state.numRows := by
  have hle := state.inData
  rw [values, length_take, length_drop]
  omega

end IntegerColumn.SegmentCheckpointState

/-- The rows after the ranges were written. -/
def updatedRows (states : List (IntegerColumn.SegmentCheckpointState t)) (rows : Rows t) : Rows t :=
  fun j =>
  match states.find? (·.covers j) with
  | some state => some (state.row (j - state.offsetInSegment))
  | none => rows j

variable {segment segment' : StoredSegment} {hi' lo' : BitVec t.width}
  {values : List (BitVec t.width)} {state : IntegerColumn.SegmentCheckpointState t}
  {states : List (IntegerColumn.SegmentCheckpointState t)}

namespace IntegerColumn

section fields

variable {info : BitpackInfo t} {metadata : CompressionMetadata} {lo hi : BitVec t.width}
  (hmeta : PackedMetadata metadata lo hi info) (hbits : info.bitWidth < t.width)

include hmeta

lemma numValues_perPageOf : metadata.numValues LBUG_PAGE_SIZE t = .ok (perPageOf info) :=
  numValues_packed hmeta.getPackingInfo hmeta.bitWidth_pos (by rw [hmeta.eq])

include hbits

/-- A write stores the encoded values in its fields. -/
lemma writeSegment_writes (h : writeSegment metadata segment state = .ok segment') :
    (∀ v ∈ state.values, t.SubFits v info.offset) ∧
      WritesFields (perPageOf info) info.bitWidth segment.pages segment'.pages
        state.offsetInSegment (state.values.map fun v => (info.encode v).toNat) := by
  have hn : 0 < perPageOf info := perPage_packed_pos hmeta.bitWidth_pos hbits
  rw [writeSegment, numValues_perPageOf hmeta] at h
  obtain ⟨pages, hpages, h⟩ := bind_ok (show (writeValuesToPage metadata _ _ _ _ _ _ >>=
    _) = _ from h)
  cases h
  obtain ⟨henc, hwrites⟩ := writeValuesToPage_writes (perPageOf info) (by rw [hmeta.eq])
    hmeta.getPackingInfo hbits hn (Nat.mod_lt _ hn) hpages
  rw [Nat.div_add_mod'] at hwrites
  exact ⟨henc, hwrites⟩

/-- A write that fits succeeds. -/
lemma writeSegment_ok
    (hpages : state.offsetInSegment + state.numRows ≤ segment.pages.length * perPageOf info)
    (henc : ∀ v ∈ state.values, t.SubFits v info.offset) :
    ∃ segment', writeSegment metadata segment state = .ok segment' := by
  have hn : 0 < perPageOf info := perPage_packed_pos hmeta.bitWidth_pos hbits
  obtain ⟨pages, hwrite⟩ := writeValuesToPage_ok (perPageOf info) (by rw [hmeta.eq])
    hmeta.getPackingInfo hbits hn (Nat.mod_lt state.offsetInSegment hn)
    (le_of_eq state.length_values) (by rw [Nat.div_add_mod', state.length_values]; exact hpages)
    henc
  rw [writeSegment, numValues_perPageOf hmeta]
  show ∃ segment', (writeValuesToPage metadata _ _ _ _ _ _ >>= _) = _
  rw [hwrite]
  exact ⟨_, rfl⟩

/-- Disjoint writes all stay in place. -/
lemma foldlM_writeSegment_fields (hdisjoint : states.Pairwise SegmentCheckpointState.Disjoint)
    (h : states.foldlM (writeSegment metadata) segment = .ok segment') :
    (∀ state ∈ states, ∀ (i : ℕ) v, state.values[i]? = some v → t.SubFits v info.offset ∧
      fieldAt segment'.pages (perPageOf info) info.bitWidth (state.offsetInSegment + i) =
        some ((info.encode v).toNat % 2 ^ info.bitWidth)) ∧
    (∀ j, (∀ state ∈ states, state.covers j = false) →
      fieldAt segment'.pages (perPageOf info) info.bitWidth j =
        fieldAt segment.pages (perPageOf info) info.bitWidth j) := by
  induction states generalizing segment with
  | nil =>
    cases h
    exact ⟨fun state hstate => (not_mem_nil hstate).elim, fun _ _ => rfl⟩
  | cons state states ih =>
    rw [foldlM_cons] at h
    obtain ⟨segment1, hfirst, h⟩ := bind_ok h
    obtain ⟨hhead, htail⟩ := pairwise_cons.mp hdisjoint
    obtain ⟨hfields, hframe⟩ := ih htail h
    obtain ⟨henc, hwrites⟩ := writeSegment_writes hmeta hbits hfirst
    have hlen : (state.values.map fun v => (info.encode v).toNat).length = state.numRows := by
      rw [length_map, state.length_values]
    refine ⟨fun state' hstate i v hv => ?_, fun j hj => ?_⟩
    · rcases mem_cons.mp hstate with rfl | hmem
      · -- the other ranges do not touch this one
        have hi : i < state'.numRows := by
          rw [← state'.length_values]
          exact (List.getElem?_eq_some_iff.mp hv).1
        refine ⟨henc v (List.mem_of_getElem? hv), ?_⟩
        rw [hframe, hwrites.field i (info.encode v).toNat (by rw [getElem?_map, hv]; rfl)]
        intro other hother
        have hdis := hhead other hother
        unfold SegmentCheckpointState.Disjoint at hdis
        rw [covers, decide_eq_false_iff_not]
        omega
      · exact hfields state' hmem i v hv
    -- a row outside all ranges
    · have hstate := hj state mem_cons_self
      rw [covers, decide_eq_false_iff_not] at hstate
      rw [hframe j fun other hother => hj other (mem_cons_of_mem _ hother),
        hwrites.frame j (by omega)]

/-- The writes succeed when all values can be encoded and there are pages for them. -/
lemma foldlM_writeSegment_ok (hpages : ∀ state ∈ states,
      state.offsetInSegment + state.numRows ≤ segment.pages.length * perPageOf info)
    (henc : ∀ state ∈ states, ∀ v ∈ state.values, t.SubFits v info.offset) :
    ∃ segment', states.foldlM (writeSegment metadata) segment = .ok segment' := by
  induction states generalizing segment with
  | nil => exact ⟨segment, rfl⟩
  | cons state states ih =>
    obtain ⟨segment1, hfirst⟩ := writeSegment_ok hmeta hbits (hpages state mem_cons_self)
      (henc state mem_cons_self)
    have hlen := (writeSegment_writes hmeta hbits hfirst).2.length
    rw [foldlM_cons, hfirst]
    apply ih
    · intro other hother
      rw [hlen]
      exact hpages other (mem_cons_of_mem _ hother)
    · exact fun other hother => henc other (mem_cons_of_mem _ hother)

end fields

end IntegerColumn

/-! ### The metadata after the writes -/

/-- The metadata after some of the accepted ranges were written: each bound has moved in such a way
that it has the old packing together with some other bound. -/
structure MovedMetadata (metadata : CompressionMetadata) (lo hi : BitVec t.width)
    (info : BitpackInfo t) (lo' hi' : BitVec t.width) : Prop where
  eq : metadata = ⟨.ofValue t lo', .ofValue t hi', .integerBitpacking⟩
  le_lo : t.toInt lo' ≤ t.toInt lo
  hi_le : t.toInt hi ≤ t.toInt hi'
  least : t.toInt lo' < 0 → t.toInt lo' = t.minInt → t.toInt lo = t.minInt
  left : ∃ M, packing t (t.toInt lo') M = info
  right : ∃ m, t.minInt ≤ m ∧ m ≤ t.toInt lo ∧ (m < 0 → m = t.minInt → t.toInt lo = t.minInt) ∧
    packing t m (t.toInt hi') = info

section metadata

variable {metadata metadata' : CompressionMetadata} {lo hi : BitVec t.width} {info : BitpackInfo t}

lemma PackedMetadata.moved (h : PackedMetadata metadata lo hi info) :
    MovedMetadata metadata lo hi info lo hi where
  eq := h.eq
  le_lo := le_refl _
  hi_le := le_refl _
  least _ heq := heq
  left := ⟨_, h.info_eq⟩
  right := ⟨_, t.minInt_le lo, le_refl _, fun _ heq => heq, h.info_eq⟩

/-- Moved bounds keep the packing. -/
lemma MovedMetadata.packed
    (h : MovedMetadata metadata' lo hi info lo' hi') (hold : PackedMetadata metadata lo hi info) :
    PackedMetadata metadata' lo' hi' info where
  eq := h.eq
  lt := lt_of_le_of_lt h.le_lo (lt_of_lt_of_le hold.lt h.hi_le)
  abs ht heq := by
    apply hold.abs ht
    apply h.least _ heq
    rw [heq, ht]
    decide
  info_eq := by
    obtain ⟨M, hleft⟩ := h.left
    obtain ⟨m, hmin, hle, hleast, hright⟩ := h.right
    exact packing_sandwich (t.minInt_le lo') hmin (lt_endInt lo) h.le_lo
      hle hold.lt h.hi_le h.least hleast hold.info_eq hleft hright

/-- One accepted range whose values are not below the lowest one that has the bits of the
packing. -/
lemma MovedMetadata.updateBounds (h : MovedMetadata metadata' lo hi info lo' hi')
    (hbits : info.bitWidth < t.width) {a b : BitVec t.width} (hrange : IsRange t values a b)
    (hinfo : packing t (min (t.toInt lo) (t.toInt a)) (max (t.toInt hi) (t.toInt b)) = info)
    (hlow : ∀ v ∈ values, info.hasNegative = true → -2 ^ (info.bitWidth - 1) ≤ t.toInt v) :
    ∃ lo'' hi'', MovedMetadata (updateBounds t metadata' (some (.ofValue t a))
      (some (.ofValue t b))) lo hi info lo'' hi'' := by
  have hleast : min (t.toInt lo) (t.toInt a) < 0 → min (t.toInt lo) (t.toInt a) = t.minInt →
      t.toInt lo = t.minInt := by
    intro hneg heq
    by_contra hne
    have ha : t.toInt a = t.minInt := by omega
    have hs := isSigned_of_neg (show t.toInt a < 0 by omega)
    have hnegative : info.hasNegative = true := by
      rw [← hinfo, hasNegative_packing]
      exact hneg
    have hge := hlow a hrange.lo_mem hnegative
    rw [ha, minInt, if_pos hs] at hge
    have hpow : (2 : ℤ) ^ (info.bitWidth - 1) < 2 ^ (t.width - 1) := by
      have hpos : 0 < info.bitWidth := by
        rw [← hinfo, packing_of_neg hneg]
        exact Nat.succ_pos _
      exact pow_lt_pow_right₀ (by decide) (by omega)
    omega
  have hmin : metadata'.min = .ofValue t lo' := by rw [h.eq]
  have hmax : metadata'.max = .ofValue t hi' := by rw [h.eq]
  have hle := h.le_lo
  have hge := h.hi_le
  simp only [IntegerColumn.updateBounds, hmin, hmax, StorageValue.gt_ofValue, decide_eq_true_eq]
  -- the source moves the maximum, or else the minimum
  by_cases hb : t.toInt hi' < t.toInt b
  · rw [if_pos hb]
    refine ⟨lo', b, by rw [h.eq], hle, by omega, h.least, h.left, ?_⟩
    refine ⟨min (t.toInt lo) (t.toInt a), le_min (t.minInt_le lo) (t.minInt_le a),
      min_le_left _ _, hleast, ?_⟩
    rwa [max_eq_right (by omega)] at hinfo
  · rw [if_neg hb]
    split_ifs with ha
    · rw [min_eq_right (by omega)] at hinfo hleast
      exact ⟨a, hi', by rw [h.eq], by omega, hge, hleast, ⟨_, hinfo⟩, h.right⟩
    · exact ⟨lo', hi', h⟩

end metadata

namespace IntegerColumn

variable {info : BitpackInfo t} {metadata : CompressionMetadata} {lo hi : BitVec t.width}

/-! ### Accepted checkpoints -/

lemma le_endRowIdxToWrite (h : state ∈ states) :
    state.offsetInSegment + state.numRows ≤ endRowIdxToWrite states := by
  have hfold : ∀ (states : List (SegmentCheckpointState t)) (n : ℕ),
      n ≤ states.foldl (fun endRow state => max endRow (state.offsetInSegment + state.numRows)) n ∧
      ∀ state ∈ states, state.offsetInSegment + state.numRows ≤
        states.foldl (fun endRow state => max endRow (state.offsetInSegment + state.numRows))
          n := by
    intro states
    induction states with
    | nil => exact fun n => ⟨le_refl n, fun state hstate => (not_mem_nil hstate).elim⟩
    | cons first states ih =>
      intro n
      obtain ⟨hle, hall⟩ := ih (max n (first.offsetInSegment + first.numRows))
      refine ⟨le_trans (le_max_left _ _) hle, fun state hstate => ?_⟩
      rcases mem_cons.mp hstate with rfl | hmem
      · exact le_trans (le_max_right _ _) hle
      · exact hall state hmem
  exact (hfold states 0).2 state h

/-- What the in-place test has checked. -/
lemma of_canCheckpointInPlace (hmeta : PackedMetadata segment.compMeta lo hi info)
    (h : canCheckpointInPlace segment states = .ok true) :
    ∀ state ∈ states,
      canUpdateInPlace state.values segment.compMeta state.nullMask
        state.startRowInData = .ok true ∧
      state.offsetInSegment + state.numRows ≤ segment.pages.length * perPageOf info := by
  have hc : segment.compMeta.compression = .integerBitpacking := by rw [hmeta.eq]
  have hcapacity : isEndOffsetOutOfPagesCapacity t segment (endRowIdxToWrite states) =
      .ok (decide (perPageOf info * segment.pages.length ≤ endRowIdxToWrite states)) := by
    rw [isEndOffsetOutOfPagesCapacity, if_neg (by rw [hc]; decide), numValues_perPageOf hmeta]
    rfl
  rw [canCheckpointInPlace, hcapacity] at h
  by_cases hout : perPageOf info * segment.pages.length ≤ endRowIdxToWrite states
  · rw [decide_eq_true hout] at h
    cases h
  · rw [decide_eq_false hout] at h
    change (if segment.compMeta.canAlwaysUpdateInPlace then _ else _) = _ at h
    rw [if_neg (by rw [CompressionMetadata.canAlwaysUpdateInPlace, hc]; decide), allM_ok] at h
    intro state hstate
    have haccept := h state hstate
    simp only [CompressionMetadata.canUpdateInPlace, hc] at haccept
    have hle := le_endRowIdxToWrite hstate
    rw [Nat.mul_comm]
    exact ⟨haccept, by omega⟩

/-- A write updates the bounds by its values. -/
lemma writeSegment_metadata (h : writeSegment metadata segment state = .ok segment') :
    segment'.compMeta = updateBounds t segment.compMeta
        (getTypedMinMax t state.values state.nullMask state.startRowInData).1
        (getTypedMinMax t state.values state.nullMask state.startRowInData).2 ∧
      segment'.numValues = max segment.numValues (state.offsetInSegment + state.numRows) := by
  obtain ⟨perPage, -, h⟩ := bind_ok h
  obtain ⟨pages, -, h⟩ := bind_ok h
  cases h
  have hpos := state.numRows_pos
  refine ⟨rfl, ?_⟩
  rw [updateStatistics_numValues]
  congr 1
  omega

/-- The writes keep the packing of the segment. -/
lemma foldlM_writeSegment_metadata (hmeta : PackedMetadata metadata lo hi info)
    (hbits : info.bitWidth < t.width)
    (haccept : ∀ state ∈ states,
      canUpdateInPlace state.values metadata state.nullMask state.startRowInData = .ok true)
    (hlow : ∀ state ∈ states, ∀ v ∈ nonNullFrom state.values state.nullMask state.startRowInData,
      info.hasNegative = true → -2 ^ (info.bitWidth - 1) ≤ t.toInt v)
    (hmoved : MovedMetadata segment.compMeta lo hi info lo' hi')
    (h : states.foldlM (writeSegment metadata) segment = .ok segment') :
    ∃ lo'' hi'', MovedMetadata segment'.compMeta lo hi info lo'' hi'' := by
  induction states generalizing segment lo' hi' with
  | nil =>
    cases h
    exact ⟨lo', hi', hmoved⟩
  | cons state states ih =>
    rw [foldlM_cons] at h
    obtain ⟨segment1, hfirst, h⟩ := bind_ok h
    obtain ⟨lo1, hi1, hmoved1⟩ : ∃ lo1 hi1, MovedMetadata segment1.compMeta lo hi info lo1 hi1 := by
      rw [(writeSegment_metadata hfirst).1]
      by_cases hnone : nonNullFrom state.values state.nullMask state.startRowInData = []
      · have hminmax : getTypedMinMax t state.values state.nullMask state.startRowInData =
            (none, none) := by
          rw [getTypedMinMax_eq, hnone]
          rfl
        rw [hminmax]
        exact ⟨lo', hi', hmoved⟩
      · obtain ⟨a, b, hminmax, hrange, -, hinfo⟩ :=
          hmeta.accepted (haccept state mem_cons_self) hnone
        rw [hminmax]
        exact hmoved.updateBounds hbits hrange hinfo (hlow state mem_cons_self)
    exact ih (fun other hother => haccept other (mem_cons_of_mem _ hother))
      (fun other hother => hlow other (mem_cons_of_mem _ hother)) hmoved1 h

/-- The segment covers the rows written. -/
lemma foldlM_writeSegment_numValues
    (h : states.foldlM (writeSegment metadata) segment = .ok segment') :
    segment.numValues ≤ segment'.numValues ∧
      ∀ state ∈ states, state.offsetInSegment + state.numRows ≤ segment'.numValues := by
  induction states generalizing segment with
  | nil =>
    cases h
    exact ⟨le_refl _, fun state hstate => (not_mem_nil hstate).elim⟩
  | cons state states ih =>
    rw [foldlM_cons] at h
    obtain ⟨segment1, hfirst, h⟩ := bind_ok h
    obtain ⟨hle, hall⟩ := ih h
    have hnum := (writeSegment_metadata hfirst).2
    refine ⟨by omega, fun other hother => ?_⟩
    rcases mem_cons.mp hother with rfl | hmem
    · omega
    · exact hall other hmem

end IntegerColumn

/-! ### Checkpoints in place -/

/-- The ranges that survive a checkpoint in place.  In a packing with signs, no value is below the
lowest one that has its bits: such a value is accepted only when the old minimum or a value of its
range is the least value of the type.  The data of null rows of type `int128_t` must not leave the
type when the offset is subtracted and added again. -/
def InPlaceSafe (info : BitpackInfo t) (states : List (IntegerColumn.SegmentCheckpointState t)) :
    Prop :=
  ∀ state ∈ states, ∀ (i : ℕ) v, state.values[i]? = some v →
    (isNullRow state.nullMask (state.startRowInData + i) = false → info.hasNegative = true →
      -2 ^ (info.bitWidth - 1) ≤ t.toInt v) ∧
    (isNullRow state.nullMask (state.startRowInData + i) = true → t = .int128 →
      -2 ^ 127 < t.toInt v - t.toInt info.offset ∧ t.toInt v - t.toInt info.offset < 2 ^ 127 ∧
      (info.offset ≠ 0 →
        (t.toInt v - t.toInt info.offset) % 2 ^ info.bitWidth + t.toInt info.offset < 2 ^ 127))

namespace PackedMetadata

variable {metadata : CompressionMetadata} {lo hi : BitVec t.width} {info : BitpackInfo t}

/-- A packing with an offset has no sign. -/
lemma frame_of_offset (h : PackedMetadata metadata lo hi info) (hoffset : info.offset ≠ 0) :
    info.hasNegative = false ∧ 0 < t.toInt info.offset := by
  have hinfo := h.info_eq
  rcases packing_cases t (t.toInt lo) (t.toInt hi) with
    ⟨hpos, -, hp⟩ | ⟨-, -, hp⟩ | ⟨-, hp⟩
  · rw [hinfo] at hp
    rw [hp]
    exact ⟨rfl, by rw [ofInt_toInt]; exact hpos⟩
  · rw [hinfo] at hp
    exact absurd (by rw [hp]) hoffset
  · rw [hinfo] at hp
    exact absurd (by rw [hp]) hoffset

/-- When the value under a null can be read. -/
lemma reread_null_iff (h : PackedMetadata metadata lo hi info) (hbits : info.bitWidth < t.width)
    (v : BitVec t.width) :
    (t.SubFits v info.offset ∧ ∃ r, info.reread v = .ok r) ↔
      (t = .int128 → -2 ^ 127 < t.toInt v - t.toInt info.offset ∧
        t.toInt v - t.toInt info.offset < 2 ^ 127 ∧ (info.offset ≠ 0 →
          (t.toInt v - t.toInt info.offset) % 2 ^ info.bitWidth + t.toInt info.offset <
            2 ^ 127)) := by
  by_cases h0 : info.offset = 0
  · have hread := (reread_ok_of_offset hbits h0 v).2
    constructor
    · exact fun hnull ht => ⟨(hnull.1 ht).1, (hnull.1 ht).2, fun hne => absurd h0 hne⟩
    · exact fun hnull => ⟨fun ht => ⟨(hnull ht).1, (hnull ht).2.1⟩, hread⟩
  · obtain ⟨hneg, hpos⟩ := h.frame_of_offset h0
    have hframe := reread_frame_ok_iff hbits hneg hpos v
    constructor
    · rintro ⟨hfits, hread⟩ ht
      exact ⟨(hfits ht).1, (hfits ht).2, fun _ => (hframe.mp ⟨fun _ => hfits, hread⟩ ht).2⟩
    · intro hnull
      refine ⟨fun ht => ⟨(hnull ht).1, (hnull ht).2.1⟩, ?_⟩
      exact (hframe.mpr fun ht => ⟨(hnull ht).1, (hnull ht).2.2 h0⟩).2

end PackedMetadata

section checkpoint

variable {info : BitpackInfo t} {rows : Rows t}

/-- An updated row has its new value. -/
lemma updatedRows_of_covers (hdisjoint : states.Pairwise SegmentCheckpointState.Disjoint)
    (hstate : state ∈ states) {i : ℕ} (hi : i < state.numRows) :
    updatedRows states rows (state.offsetInSegment + i) = some (state.row i) := by
  have hfind : states.find? (·.covers (state.offsetInSegment + i)) = some state := by
    induction states with
    | nil => cases hstate
    | cons first states ih =>
      obtain ⟨hhead, htail⟩ := pairwise_cons.mp hdisjoint
      rcases mem_cons.mp hstate with rfl | hmem
      · rw [find?_cons_of_pos]
        rw [covers, decide_eq_true_eq]
        omega
      · rw [find?_cons_of_neg, ih htail hmem]
        have hdis := hhead state hmem
        unfold SegmentCheckpointState.Disjoint at hdis
        rw [covers, decide_eq_true_eq]
        omega
  rw [updatedRows, hfind]
  simp

/-- Other rows are unchanged. -/
lemma updatedRows_of_not_covers {j : ℕ} (h : ∀ state ∈ states, state.covers j = false) :
    updatedRows states rows j = rows j := by
  have hfind : states.find? (·.covers j) = none :=
    find?_eq_none.mpr fun state hstate => by simp [h state hstate]
  rw [updatedRows, hfind]

/-- **The checkpoint** stores the updated rows. -/
lemma checkpointInPlace_stores (hstored : Stores segment info rows)
    (hdisjoint : states.Pairwise SegmentCheckpointState.Disjoint)
    (haccept : canCheckpointInPlace segment states = .ok true) (hsafe : InPlaceSafe info states) :
    ∃ segment', checkpointColumnChunkInPlace segment states = .ok segment' ∧
      Stores segment' info (updatedRows states rows) := by
  obtain ⟨lo, hi, hmeta⟩ := hstored.metadata
  have hbits := hstored.bits
  have hchecked := of_canCheckpointInPlace hmeta haccept
  -- every value can be written and read
  have hreread : ∀ state ∈ states, ∀ (i : ℕ) v, state.values[i]? = some v →
      t.SubFits v info.offset ∧ ∃ r, info.reread v = .ok r ∧ ∀ w, state.row i = some w → r = w := by
    intro state hstate i v hv
    obtain ⟨hlow, hnull⟩ := hsafe state hstate i v hv
    cases hrow : isNullRow state.nullMask (state.startRowInData + i) with
    | true =>
      obtain ⟨hfits, r, hr⟩ := (hmeta.reread_null_iff hbits v).mpr (hnull hrow)
      refine ⟨hfits, r, hr, fun w hw => ?_⟩
      rw [SegmentCheckpointState.row, hrow, if_pos rfl] at hw
      cases hw
    | false =>
      -- the value is in the range that was accepted
      have hmem := mem_nonNullFrom.mpr ⟨i, hv, hrow⟩
      obtain ⟨a, b, -, hrange, habs, hinfo⟩ :=
        hmeta.accepted (hchecked state hstate).1 (ne_nil_of_mem hmem)
      obtain ⟨hfits, hr⟩ := reread_of_accepted hbits hinfo habs
        (le_min (t.minInt_le lo) (t.minInt_le a)) (max_lt (lt_endInt hi) (lt_endInt b))
        (le_trans (min_le_right _ _) (hrange.lo_le v hmem))
        (le_trans (hrange.le_hi v hmem) (le_max_right _ _)) (hlow hrow)
      refine ⟨hfits, v, hr, fun w hw => ?_⟩
      rw [SegmentCheckpointState.row, hrow, if_neg Bool.false_ne_true, hv] at hw
      exact Option.some.inj hw
  obtain ⟨segment', hwrite⟩ := foldlM_writeSegment_ok hmeta hbits
    (fun state hstate => (hchecked state hstate).2) fun state hstate v hv => by
      obtain ⟨i, hi⟩ := mem_iff_getElem?.mp hv
      exact (hreread state hstate i v hi).1
  obtain ⟨hfields, hframe⟩ := foldlM_writeSegment_fields hmeta hbits hdisjoint hwrite
  obtain ⟨hnum, hnumStates⟩ := foldlM_writeSegment_numValues hwrite
  obtain ⟨lo', hi', hmoved⟩ := foldlM_writeSegment_metadata hmeta hbits
    (fun state hstate => (hchecked state hstate).1)
    (fun state hstate v hv => by
      obtain ⟨i, hi, hrow⟩ := mem_nonNullFrom.mp hv
      exact (hsafe state hstate i v hi).1 hrow) hmeta.moved hwrite
  refine ⟨segment', hwrite, ⟨lo', hi', hmoved.packed hmeta⟩, hbits, ?_, ?_⟩
  · intro j hj
    by_cases hcover : ∃ state ∈ states, state.covers j = true
    · obtain ⟨state, hstate, hj⟩ := hcover
      rw [covers, decide_eq_true_eq] at hj
      have := hnumStates state hstate
      omega
    · rw [updatedRows_of_not_covers fun state hstate => by
        simpa using fun hj => hcover ⟨state, hstate, hj⟩] at hj
      exact lt_of_lt_of_le (hstored.bound j hj) hnum
  · intro j row hrow
    by_cases hcover : ∃ state ∈ states, state.covers j = true
    · obtain ⟨state, hstate, hj⟩ := hcover
      rw [covers, decide_eq_true_eq] at hj
      obtain ⟨i, rfl⟩ := Nat.exists_eq_add_of_le hj.1
      have hi : i < state.numRows := by omega
      rw [updatedRows_of_covers hdisjoint hstate hi, Option.some.injEq] at hrow
      have hget := getElem?_eq_getElem (show i < state.values.length by
        rwa [state.length_values])
      obtain ⟨-, r, hr, hval⟩ := hreread state hstate i _ hget
      refine ⟨_, (hfields state hstate i _ hget).2, r, hr, fun w hw => hval w ?_⟩
      rw [hrow, hw]
    · have hnot : ∀ state ∈ states, state.covers j = false := fun state hstate => by
        simpa using fun hj => hcover ⟨state, hstate, hj⟩
      rw [updatedRows_of_not_covers hnot] at hrow
      rw [hframe j hnot]
      exact hstored.field j row hrow

lemma IntegerColumn.updateBounds_compression (metadata : CompressionMetadata)
    (min max : Option StorageValue) :
    (updateBounds t metadata min max).compression = metadata.compression := by
  cases min <;> cases max <;> simp only [updateBounds]
  split_ifs <;> rfl

lemma IntegerColumn.foldlM_writeSegment_compression {metadata : CompressionMetadata}
    (h : states.foldlM (writeSegment metadata) segment = .ok segment') :
    segment'.compMeta.compression = segment.compMeta.compression := by
  induction states generalizing segment with
  | nil =>
    cases h
    rfl
  | cons state states ih =>
    rw [foldlM_cons] at h
    obtain ⟨segment1, hfirst, h⟩ := bind_ok h
    rw [ih h, (writeSegment_metadata hfirst).1, updateBounds_compression]

/-- If the new rows can be read with the old packing, the checkpoint was safe. -/
lemma inPlaceSafe_of_readsRows (hstored : Stores segment info rows)
    (hdisjoint : states.Pairwise SegmentCheckpointState.Disjoint)
    (hwrite : checkpointColumnChunkInPlace segment states = .ok segment')
    (hinfo : getPackingInfo t segment'.compMeta = .ok info)
    (hreads : ReadsRows segment' t (updatedRows states rows)) : InPlaceSafe info states := by
  obtain ⟨lo, hi, hmeta⟩ := hstored.metadata
  have hbits := hstored.bits
  obtain ⟨hfields, -⟩ := foldlM_writeSegment_fields hmeta hbits hdisjoint hwrite
  have hc : segment'.compMeta.compression = .integerBitpacking := by
    rw [foldlM_writeSegment_compression hwrite, hstored.compression]
  intro state hstate i v hv
  have hi : i < state.numRows := by
    rw [← state.length_values]
    exact (List.getElem?_eq_some_iff.mp hv).1
  obtain ⟨hfits, hfield⟩ := hfields state hstate i v hv
  -- read the row alone
  have hafter : updatedRows states rows (state.offsetInSegment + i) = some (state.row i) :=
    updatedRows_of_covers hdisjoint hstate hi
  obtain ⟨out, hout, -, hval⟩ := hreads (state.offsetInSegment + i) 1 fun k hk => by
    rw [Nat.lt_one_iff.mp hk, Nat.add_zero, hafter]
    rfl
  rw [StoredSegment.readCompressedValues_fields hc hinfo hstored.bitWidth_pos hbits fun k hk => by
    rw [Nat.lt_one_iff.mp hk, Nat.add_zero, ← perPageOf, hfield]
    rfl] at hout
  obtain ⟨-, hget⟩ := getElem?_of_mapM_ok hout
  obtain ⟨r, hr, hread⟩ := hget 0 0 rfl
  rw [Nat.add_zero, ← perPageOf, hfield, Option.getD_some, ← BitpackInfo.reread] at hread
  refine ⟨fun hrow hneg => ?_, fun _ => (hmeta.reread_null_iff hbits v).mp ⟨hfits, r, hread⟩⟩
  have hsame := hval 0 (by decide) v (by
    rw [Nat.add_zero, hafter, SegmentCheckpointState.row, hrow, if_neg Bool.false_ne_true, hv])
  rw [hr, Option.some.injEq] at hsame
  rw [hsame] at hread
  -- a value that is read back in a packing with signs has its bits
  have hoffset : info.offset = 0 := by
    by_contra h0
    rw [(hmeta.frame_of_offset h0).1] at hneg
    cases hneg
  have hs : t.isSigned = true := by
    rw [← hmeta.info_eq, hasNegative_packing] at hneg
    exact isSigned_of_neg hneg
  have hfits := (reread_signed_iff hbits hmeta.bitWidth_pos hneg hoffset hs v).mp hread
  rw [BitpackInfo.Fits, if_pos hneg, hoffset, toInt_zero, sub_zero] at hfits
  exact hfits.1

/-- Accepted checkpoints in place keep the packing and all rows exactly when they are safe. -/
theorem checkpointInPlace_iff (hstored : Stores segment info rows)
    (hdisjoint : states.Pairwise IntegerColumn.SegmentCheckpointState.Disjoint)
    (haccept : IntegerColumn.canCheckpointInPlace segment states = .ok true) :
    (∃ segment', IntegerColumn.checkpointColumnChunkInPlace segment states = .ok segment' ∧
      IntegerBitpacking.getPackingInfo t segment'.compMeta = .ok info ∧
      ReadsRows segment' t (updatedRows states rows)) ↔
      InPlaceSafe info states := by
  constructor
  · rintro ⟨segment', hwrite, hinfo, hreads⟩
    exact inPlaceSafe_of_readsRows hstored hdisjoint hwrite hinfo hreads
  · intro hsafe
    obtain ⟨segment', hwrite, hstores⟩ :=
      checkpointInPlace_stores hstored hdisjoint haccept hsafe
    exact ⟨segment', hwrite, hstores.getPackingInfo, hstores.readsRows⟩

end checkpoint

/-! ### Segments that were flushed -/

/-- The rows of a list with a null mask. -/
def rowsOf (values : List (BitVec t.width)) (nullMask : Option NullMask) : Rows t := fun i =>
  values[i]?.map fun v => if isNullRow nullMask i then none else some v

/-- `flush` stores the rows of a list that can be compressed, if it packs them. -/
lemma flush_stores {nullMask : Option NullMask} (h : Compressible t values nullMask)
    (hflush : flush t values nullMask = .ok segment)
    (hc : segment.compMeta.compression = .integerBitpacking) :
    ∃ info, Stores segment info (rowsOf values nullMask) := by
  obtain ⟨⟨compMeta, numPages⟩, hmeta, hrest⟩ := bind_ok hflush
  have hconstant : (getTypedMinMax t values nullMask 0).1.getD 0 ≠
      (getTypedMinMax t values nullMask 0).2.getD 0 := by
    -- a constant segment is not packed
    intro heq
    rw [getMetadataToFlush] at hmeta
    have hmeta := (if_pos heq).symm.trans hmeta
    cases hmeta
    cases (if_pos (.inl rfl)).symm.trans hrest
    cases hc
  by_cases hnone : nonNullFrom values nullMask 0 = []
  · rw [getTypedMinMax_eq, hnone] at hconstant
    exact absurd rfl hconstant
  obtain ⟨lo, hi, hminmax, hrange⟩ := getTypedMinMax_eq_some (t := t) hnone
  have hne : lo ≠ hi := by
    rintro rfl
    rw [hminmax] at hconstant
    exact hconstant rfl
  have hlt := hrange.lt hne
  have habs : t = .int128 → t.toInt lo ≠ t.minInt := by
    intro ht hlo
    have hneg : t.toInt lo < 0 := by
      rw [hlo, ht]
      decide
    exact (h lo hi hrange hne).1 hneg hlo |>.1 ht
  have hinfo : getPackingInfo t
      ⟨.ofValue t lo, .ofValue t hi, .integerBitpacking⟩ =
        .ok (packing t (t.toInt lo) (t.toInt hi)) :=
    getPackingInfo_eq (StorageValue.get_ofValue t lo) (StorageValue.get_ofValue t hi) hlt habs
  obtain ⟨numPages', hmeta'⟩ := getBitpackingMetadata_eq hinfo values.length
  rw [← getMetadataToFlush_eq hminmax hne, hmeta] at hmeta'
  obtain ⟨rfl, rfl⟩ := Prod.mk.inj (Except.ok.inj hmeta')
  have hvalues : values ≠ [] := by
    rintro rfl
    cases hrange.lo_mem
  generalize hp : packing t (t.toInt lo) (t.toInt hi) = info at *
  by_cases hbits : t.width ≤ info.bitWidth
  · -- an uncompressed segment is not packed either
    rw [if_pos hbits] at hmeta
    have hper : (⟨.ofValue t lo, .ofValue t hi, .uncompressed⟩ : CompressionMetadata).numValues
        LBUG_PAGE_SIZE t = .ok (LBUG_PAGE_SIZE / t.numBytes) := rfl
    rw [flush_pages hmeta (by simp) hvalues hper] at hflush
    obtain ⟨pages, -, hflush⟩ := bind_ok hflush
    cases hflush
    cases hc
  · rw [if_neg hbits] at hmeta
    have hbits := not_le.mp hbits
    have hpacked : PackedMetadata ⟨.ofValue t lo, .ofValue t hi, .integerBitpacking⟩ lo hi info :=
      ⟨rfl, hlt, habs, hp⟩
    have hpos := hpacked.bitWidth_pos
    rw [flush_pages hmeta (by simp) hvalues (numValues_packed hinfo hpos rfl)] at hflush
    obtain ⟨pages, hwrite, hflush⟩ := bind_ok hflush
    cases hflush
    obtain ⟨-, hfields⟩ := writePages_spec (perPage_packed_pos hpos hbits)
      (compressesPages_packed hinfo hpos (by simp) hbits) hwrite
    have hread := (reread_all_iff hrange hne (by rwa [hp])).mpr h
    rw [hp] at hread
    refine ⟨info, ⟨lo, hi, hpacked⟩, hbits, ?_, ?_⟩
    · intro i hi
      rw [rowsOf, Option.isSome_map, Option.isSome_iff_exists] at hi
      obtain ⟨v, hv⟩ := hi
      exact (List.getElem?_eq_some_iff.mp hv).1
    · intro i row hrow
      obtain ⟨v, hv, hrow⟩ := Option.map_eq_some_iff.mp hrow
      obtain ⟨-, r, hr, hval⟩ := hread i v hv
      refine ⟨_, hfields.append i _ (by rw [getElem?_map, hv]; rfl), r, hr, fun w hw => ?_⟩
      cases hnull : isNullRow nullMask i with
      | true =>
        rw [hnull, if_pos rfl, hw] at hrow
        cases hrow
      | false =>
        rw [hnull, if_neg Bool.false_ne_true, hw, Option.some.injEq] at hrow
        rw [hval hnull, hrow]

/-! ### Two updates of `int8_t` -/

/-- One value for the row `offset`. -/
def singleUpdate (v : BitVec t.width) (offset : ℕ) : IntegerColumn.SegmentCheckpointState t :=
  ⟨[v], none, 0, offset, 1, by decide, by simp⟩

/-- The least `int8_t` is accepted into four bits and comes back as zero. -/
theorem checkpointInPlace_loses_least :
    ∃ segment, flush .int8 [0xfb#8, 5#8] none = .ok segment ∧
      IntegerColumn.canCheckpointInPlace segment [singleUpdate (t := .int8) 0x80#8 0] = .ok true ∧
      ¬ ∃ segment', IntegerColumn.checkpointColumnChunkInPlace segment
        [singleUpdate (t := .int8) 0x80#8 0] = .ok segment' ∧ ReadsRows segment' .int8
          (updatedRows [singleUpdate (t := .int8) 0x80#8 0] (rowsOf [0xfb#8, 5#8] none)) := by
  have hrun : (do
      let segment ← flush .int8 [0xfb#8, 5#8] none
      let accepted ← canCheckpointInPlace segment [singleUpdate (t := .int8) 0x80#8 0]
      let segment' ← checkpointColumnChunkInPlace segment [singleUpdate (t := .int8) 0x80#8 0]
      let out ← segment'.readCompressedValues .int8 0 1
      return (accepted, out)) = .ok (true, [0#8]) := by decide +kernel
  obtain ⟨segment, hflush, hrun⟩ := bind_ok hrun
  obtain ⟨accepted, haccept, hrun⟩ := bind_ok hrun
  obtain ⟨segment', hwrite, hrun⟩ := bind_ok hrun
  obtain ⟨out, hout, hrun⟩ := bind_ok hrun
  cases hrun
  refine ⟨segment, hflush, haccept, ?_⟩
  rintro ⟨segment'', hwrite', hreads⟩
  rw [hwrite] at hwrite'
  cases hwrite'
  obtain ⟨out', hout', -, hrow⟩ := hreads 0 1 (by decide)
  rw [hout] at hout'
  cases hout'
  have hzero := hrow 0 (by decide) 0x80#8 rfl
  revert hzero
  decide

/-- The values -5, 2 and 5 are packed in four bits with signs, and so are the new values -7 and 7 of
the first and the last row. -/
def signedUpdates : List (IntegerColumn.SegmentCheckpointState .int8) :=
  [singleUpdate (t := .int8) 0xf9#8 0, singleUpdate (t := .int8) 7#8 2]

theorem checkpointInPlace_signed :
    ∃ segment segment', flush .int8 [0xfb#8, 2#8, 5#8] none = .ok segment ∧
      IntegerColumn.checkpointColumnChunkInPlace segment signedUpdates = .ok segment' ∧
      ReadsRows segment' .int8
        (updatedRows signedUpdates (rowsOf [0xfb#8, 2#8, 5#8] none)) := by
  have hrun : (do
      let segment ← flush .int8 [0xfb#8, 2#8, 5#8] none
      let accepted ← canCheckpointInPlace segment signedUpdates
      let info ← getPackingInfo .int8 segment.compMeta
      return (accepted, info, segment.compMeta.compression)) =
        .ok (true, ⟨4, true, 0⟩, .integerBitpacking) := by decide +kernel
  obtain ⟨segment, hflush, hrun⟩ := bind_ok hrun
  obtain ⟨accepted, haccept, hrun⟩ := bind_ok hrun
  obtain ⟨info, hinfo, hrun⟩ := bind_ok hrun
  obtain ⟨rfl, hpair⟩ := Prod.mk.inj (Except.ok.inj hrun)
  obtain ⟨rfl, hc⟩ := Prod.mk.inj hpair
  have hcompressible : Compressible .int8 [0xfb#8, 2#8, 5#8] none := by
    have hmin : ∀ v ∈ [0xfb#8, 2#8, 5#8], v.toInt ≠ IntType.minInt .int8 := by decide
    intro lo hi hrange _
    exact ⟨fun _ heq => absurd heq (hmin lo hrange.lo_mem), fun ht => (nomatch ht)⟩
  obtain ⟨info', hstores⟩ := flush_stores hcompressible hflush hc
  have heq := hstores.getPackingInfo
  rw [hinfo] at heq
  cases heq
  have hsafe : InPlaceSafe (⟨4, true, 0⟩ : BitpackInfo .int8) signedUpdates := by
    have hvalues : ∀ state ∈ signedUpdates, ∀ v ∈ state.values, -2 ^ 3 ≤ v.toInt := by decide
    exact fun state hstate i v hv => ⟨fun _ _ => hvalues state hstate v (mem_of_getElem? hv),
      fun _ ht => (nomatch ht)⟩
  obtain ⟨segment', hwrite, -, hreads⟩ :=
    (checkpointInPlace_iff hstores (pairwise_pair.mpr (.inl (by decide))) haccept).mpr hsafe
  exact ⟨segment, segment', hflush, hwrite, hreads⟩

end Ladybug
