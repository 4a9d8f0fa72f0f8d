import Ladybug.Storage.SegmentCheckpoint
import Ladybug.Storage.Equiv.IntegerRoundTrip

/-!
# Writes into packed segments

`setValuesFromUncompressed` writes the fields of the new values into a page and leaves all others
(`setValuesFromUncompressed_packsAt`), and so does `writeValuesToPage` with the pages of a segment
(`writeValuesToPage_writes`).

`canUpdateInPlace` accepts a range of rows when the packing of the old bounds together with those of
the range is the old one (`PackedMetadata.accepted`). Every range is checked with the old metadata
only, but the answers compose (`packing_sandwich`): the packing does not change when the lower bound
moves with one range and the upper bound with another. The least value of a signed type is an
exception, because its absolute value does not count.
-/

namespace Ladybug

open List IntegerBitpacking StorageValue

variable {t : IntType}

/-! ### Writing into a page -/

variable {pageIdx pos : ℕ} {m M : ℤ} {values : List (BitVec t.width)} {info : BitpackInfo t}

namespace IntegerBitpacking

section

variable (hbits : info.bitWidth < t.width)

include hbits

section

variable (values : List (BitVec t.width))

/-- A partial chunk is packed in place. -/
lemma setPartialChunkInPlace_packsAt (posInDst : ℕ) :
    PacksAt info (fun v => t.SubFits v info.offset)
      (fun buffer => setPartialChunkInPlace values buffer posInDst info) posInDst values := by
  apply PacksAt.copy (copiesChunk_withOffset info)
  intro tmp buffer
  have hwrites := packPartialChunk_writes hbits tmp buffer 0 posInDst
  rwa [Nat.zero_add] at hwrites

/-- Whole chunks are packed in place. -/
lemma setFullChunks_packsAt (hpos : CHUNK_SIZE ∣ pos ∨ values.length / CHUNK_SIZE = 0) :
    PacksAt info (fun v => t.SubFits v info.offset)
      (fun buffer => setFullChunks values buffer pos info) pos
      (values.take (values.length / CHUNK_SIZE * CHUNK_SIZE)) := by
  rcases hpos with hpos | hzero
  · exact packChunks_packsAt hbits (copiesChunk_withOffset info) values hpos
      (Nat.div_mul_le_self _ _)
  · have hstep : (fun buffer => setFullChunks values buffer pos info) = pure := by
      funext buffer
      rw [setFullChunks, hzero]
      rfl
    rw [hstep, hzero, Nat.zero_mul, take_zero]
    exact PacksAt.nil _ _ _

lemma setLastChunk_packsAt (pos n : ℕ) :
    PacksAt info (fun v => t.SubFits v info.offset) (fun buffer =>
      if 0 < values.length - n then setPartialChunkInPlace (values.drop n) buffer (pos + n) info
      else pure buffer) (pos + n) (values.drop n) := by
  split_ifs with hrest
  · exact setPartialChunkInPlace_packsAt hbits _ _
  · rw [drop_eq_nil_of_le (by omega)]
    exact PacksAt.nil _ _ _

end

/-- `setValuesFromUncompressed` packs the values from the field `posInDst` on. -/
lemma setValuesFromUncompressed_packsAt {metadata : CompressionMetadata}
    (hinfo : getPackingInfo t metadata = .ok info) (values : List (BitVec t.width)) (posInDst : ℕ) :
    PacksAt info (fun v => t.SubFits v info.offset)
      (fun buffer => setValuesFromUncompressed values buffer posInDst metadata) posInDst
      values := by
  have hlast : ∀ pos (rest : List (BitVec t.width)),
      (CHUNK_SIZE ∣ pos ∨ rest.length / CHUNK_SIZE = 0) →
      PacksAt info (fun v => t.SubFits v info.offset) (fun buffer => do
        let dstBuffer ← setFullChunks rest buffer pos info
        if 0 < rest.length - rest.length / CHUNK_SIZE * CHUNK_SIZE then
          setPartialChunkInPlace (rest.drop (rest.length / CHUNK_SIZE * CHUNK_SIZE)) dstBuffer
            (pos + rest.length / CHUNK_SIZE * CHUNK_SIZE) info
        else pure dstBuffer) pos rest := by
    intro pos rest hpos
    have hall := (setFullChunks_packsAt hbits rest hpos).append
      (setLastChunk_packsAt hbits rest pos _)
      (by rw [length_take, min_eq_left (Nat.div_mul_le_self _ _)])
    rwa [take_append_drop] at hall
  have hmod := Nat.div_add_mod posInDst CHUNK_SIZE
  have hlt := Nat.mod_lt posInDst (show 0 < CHUNK_SIZE by decide)
  simp only [setValuesFromUncompressed, hinfo]
  by_cases hfirst : min (CHUNK_SIZE - posInDst % CHUNK_SIZE) values.length < CHUNK_SIZE
  -- the rest of the first chunk, then whole chunks
  · have hpart := (setPartialChunkInPlace_packsAt hbits
      (values.take (min (CHUNK_SIZE - posInDst % CHUNK_SIZE) values.length)) posInDst).append
      (hlast (posInDst + min (CHUNK_SIZE - posInDst % CHUNK_SIZE) values.length)
        (values.drop (min (CHUNK_SIZE - posInDst % CHUNK_SIZE) values.length)) ?_)
      (by rw [length_take, min_assoc, min_self])
    · rw [take_append_drop] at hpart
      simp only [if_pos hfirst]
      exact hpart
    · -- the first chunk is filled, or there are no values left
      rcases Nat.lt_or_ge (CHUNK_SIZE - posInDst % CHUNK_SIZE) values.length with hlen | hge
      · left
        rw [min_eq_left (le_of_lt hlen)]
        exact ⟨posInDst / CHUNK_SIZE + 1, by rw [Nat.mul_add_one]; omega⟩
      · right
        rw [min_eq_right hge, drop_length, length_nil, Nat.zero_div]
  · simp only [if_neg hfirst, Nat.add_zero, drop_zero]
    exact hlast posInDst values (.inl ⟨posInDst / CHUNK_SIZE, by omega⟩)

end

end IntegerBitpacking

/-! ### Writing into pages -/

/-- The fields `xs` were written from row `start` on. -/
structure WritesFields (perPage width : ℕ) (pages pages' : List ℕ) (start : ℕ) (xs : List ℕ) :
    Prop where
  field : ∀ i x, xs[i]? = some x → fieldAt pages' perPage width (start + i) = some (x % 2 ^ width)
  frame : ∀ j, j < start ∨ start + xs.length ≤ j →
    fieldAt pages' perPage width j = fieldAt pages perPage width j
  length : pages'.length = pages.length

namespace WritesFields

variable {perPage width start start' : ℕ} {pages pages' pages'' xs ys : List ℕ}

lemma nil (perPage width : ℕ) (pages : List ℕ) (start : ℕ) :
    WritesFields perPage width pages pages start [] where
  field i x h := by simp at h
  frame _ _ := rfl
  length := rfl

lemma append (h : WritesFields perPage width pages pages' start xs)
    (h' : WritesFields perPage width pages' pages'' start' ys)
    (hstart : start' = start + xs.length) :
    WritesFields perPage width pages pages'' start (xs ++ ys) where
  field i x hx := by
    rcases Nat.lt_or_ge i xs.length with hi | hi
    · rw [getElem?_append_left hi] at hx
      rw [h'.frame _ (.inl (by omega)), h.field i x hx]
    · rw [getElem?_append_right hi] at hx
      have hfield := h'.field _ _ hx
      have hindex : start' + (i - xs.length) = start + i := by omega
      rwa [hindex] at hfield
  frame j hj := by
    rw [length_append] at hj
    rw [h'.frame j (by omega), h.frame j (by omega)]
  length := h'.length.trans h.length

lemma set {page page' : ℕ} (hpage : pages[pageIdx]? = some page)
    (hlen : pos + xs.length ≤ perPage) (h : BitField.Writes page page' (pos * width) width xs) :
    WritesFields perPage width pages (pages.set pageIdx page') (pageIdx * perPage + pos) xs where
  field i x hx := by
    have hi := (List.getElem?_eq_some_iff.mp hx).1
    have hidx := (List.getElem?_eq_some_iff.mp hpage).1
    rw [Nat.add_assoc, fieldAt_of_page (by omega) (getElem?_set_self hidx), Nat.add_mul,
      h.field i x hx]
  frame j hj := by
    rw [fieldAt, fieldAt]
    by_cases hsame : pageIdx = j / perPage
    · -- another field of the same page
      subst hsame
      have hidx := (List.getElem?_eq_some_iff.mp hpage).1
      have hmod := Nat.div_add_mod' j perPage
      rw [getElem?_set_self hidx, hpage, Option.map_some, Option.map_some]
      congr 1
      apply h.get_of_disjoint
      rcases hj with hj | hj
      · left
        have hle : j % perPage + 1 ≤ pos := by omega
        calc j % perPage * width + width = (j % perPage + 1) * width := by rw [Nat.add_one_mul]
          _ ≤ pos * width := Nat.mul_le_mul_right width hle
      · right
        have hle : pos + xs.length ≤ j % perPage := by omega
        calc pos * width + xs.length * width = (pos + xs.length) * width := by rw [Nat.add_mul]
          _ ≤ j % perPage * width := Nat.mul_le_mul_right width hle
    · rw [getElem?_set_ne hsame]
  length := length_set

end WritesFields

namespace IntegerColumn

variable {metadata : CompressionMetadata} (perPage : ℕ)
  (hc : metadata.compression = .integerBitpacking)
  (hinfo : IntegerBitpacking.getPackingInfo t metadata = .ok info) (hbits : info.bitWidth < t.width)
  (hn : 0 < perPage)

include hc hinfo hbits

variable {pages pages' : List ℕ} {fuel : ℕ}

/-- Values are written to one page. -/
lemma updatePage_writes (hlen : pos + values.length ≤ perPage)
    (h : updatePage metadata pages pageIdx pos values = .ok pages') :
    (∀ v ∈ values, t.SubFits v info.offset) ∧
      WritesFields perPage info.bitWidth pages pages' (pageIdx * perPage + pos)
        (values.map fun v => (info.encode v).toNat) := by
  rw [updatePage, if_neg (by rw [hc]; decide)] at h
  cases hpage : pages[pageIdx]? with
  | none =>
    rw [hpage] at h
    cases h
  | some frame =>
    simp only [hpage, CompressionMetadata.writeValuesToFrame, hc] at h
    rw [map_eq_pure_bind] at h
    obtain ⟨page', hpage', h⟩ := ExceptList.bind_ok h
    cases h
    obtain ⟨henc, hwrites⟩ := (setValuesFromUncompressed_packsAt hbits hinfo
      values pos).spec _ _ hpage'
    exact ⟨henc, WritesFields.set hpage (by rwa [length_map]) hwrites⟩

/-- Values that fit are written. -/
lemma updatePage_ok (hidx : pageIdx < pages.length) (pos : ℕ)
    (henc : ∀ v ∈ values, t.SubFits v info.offset) :
    ∃ pages', updatePage metadata pages pageIdx pos values = .ok pages' := by
  obtain ⟨page', hpage'⟩ := (setValuesFromUncompressed_packsAt hbits hinfo
    values pos).ok pages[pageIdx] henc
  rw [updatePage, if_neg (by rw [hc]; decide), getElem?_eq_getElem hidx]
  simp only [CompressionMetadata.writeValuesToFrame, hc, hpage']
  exact ⟨_, rfl⟩

include hn

/-- Values are written across pages. -/
lemma writeValuesToPage_writes (hpos : pos < perPage)
    (h : writeValuesToPage metadata perPage fuel pages pageIdx pos values = .ok pages') :
    (∀ v ∈ values, t.SubFits v info.offset) ∧
      WritesFields perPage info.bitWidth pages pages' (pageIdx * perPage + pos)
        (values.map fun v => (info.encode v).toNat) := by
  induction fuel generalizing pages pageIdx pos values with
  | zero =>
    cases values with
    | nil =>
      cases h
      exact ⟨fun v hv => (not_mem_nil hv).elim, WritesFields.nil _ _ _ _⟩
    | cons v values => cases h
  | succ fuel ih =>
    cases values with
    | nil =>
      cases h
      exact ⟨fun v hv => (not_mem_nil hv).elim, WritesFields.nil _ _ _ _⟩
    | cons v values =>
      obtain ⟨pages1, hfirst, h⟩ := ExceptList.bind_ok (show (updatePage metadata pages pageIdx pos
        ((v :: values).take (min (v :: values).length (perPage - pos))) >>= _) = _ from h)
      obtain ⟨henc, hset⟩ := updatePage_writes perPage hc hinfo hbits
        (by rw [length_take]; omega) hfirst
      obtain ⟨henc', hrest⟩ := ih hn h
      have hsplit := take_append_drop (min (v :: values).length (perPage - pos)) (v :: values)
      refine ⟨fun w hw => ?_, ?_⟩
      · rw [← hsplit] at hw
        exact (mem_append.mp hw).elim (henc w) (henc' w)
      · rcases Nat.lt_or_ge (perPage - pos) (v :: values).length with hlt | hge
        -- the page is filled, and the rest goes to the next one
        · have hall := hset.append hrest (by
            rw [length_map, length_take, min_eq_right (le_of_lt hlt),
              min_eq_left (le_of_lt hlt), Nat.add_one_mul]
            omega)
          rwa [← map_append, hsplit] at hall
        · -- the page takes all values
          rw [min_eq_left hge, drop_length] at h
          rw [min_eq_left hge, take_length] at hset
          cases fuel <;> cases h <;> exact hset

/-- Values that can be encoded are written when there are pages for them. -/
lemma writeValuesToPage_ok (hpos : pos < perPage) (hfuel : values.length ≤ fuel)
    (hpages : pageIdx * perPage + pos + values.length ≤ pages.length * perPage)
    (henc : ∀ v ∈ values, t.SubFits v info.offset) :
    ∃ pages', writeValuesToPage metadata perPage fuel pages pageIdx pos values = .ok pages' := by
  induction fuel generalizing pages pageIdx pos values with
  | zero =>
    rw [length_eq_zero_iff.mp (Nat.le_zero.mp hfuel)]
    exact ⟨pages, rfl⟩
  | succ fuel ih =>
    cases values with
    | nil => exact ⟨pages, rfl⟩
    | cons v values =>
      -- a value left means a page left
      have hidx : pageIdx < pages.length := by
        by_contra hge
        have hle := Nat.mul_le_mul_right perPage (Nat.le_of_not_lt hge)
        rw [length_cons] at hpages
        omega
      have hfirstEnc : ∀ w ∈ (v :: values).take (min (v :: values).length (perPage - pos)),
          t.SubFits w info.offset := fun w hw => henc w (mem_of_mem_take hw)
      obtain ⟨pages1, hfirst⟩ := updatePage_ok hc hinfo hbits hidx pos hfirstEnc
      have hlen := (updatePage_writes perPage hc hinfo hbits
        (by rw [length_take]; omega) hfirst).2.length
      show ∃ pages', (updatePage metadata pages pageIdx pos
        ((v :: values).take (min (v :: values).length (perPage - pos))) >>= _) = _
      rw [hfirst]
      rcases Nat.lt_or_ge (perPage - pos) (v :: values).length with hlt | hge
      · apply ih hn
        · rw [length_drop]
          omega
        · rw [length_drop, hlen, min_eq_right (le_of_lt hlt), Nat.add_one_mul]
          omega
        · exact fun w hw => henc w (mem_of_mem_drop hw)
      · rw [min_eq_left hge, drop_length]
        cases fuel <;> exact ⟨_, rfl⟩

end IntegerColumn

/-! ### Packings that do not change -/

lemma bitWidth_max (x y : ℕ) : bitWidth (max x y) = max (bitWidth x) (bitWidth y) := by
  rcases le_total x y with h | h
  · rw [max_eq_right h, max_eq_right (bitWidth_mono h)]
  · rw [max_eq_left h, max_eq_left (bitWidth_mono h)]

namespace IntegerBitpacking

/-- A negative minimum gives a signed packing. -/
lemma packing_of_neg (hneg : m < 0) (M : ℤ) : packing t m M =
    ⟨bitWidth (if m = t.minInt then M.natAbs else max m.natAbs M.natAbs) + 1, true, 0⟩ := by
  rcases packing_cases t m M with ⟨h, -, -⟩ | ⟨h, -, -⟩ | ⟨-, h⟩
  · omega
  · omega
  · exact h

/-- Without an offset values are stored as they are. -/
lemma packing_of_plain (hm : 0 ≤ m)
    (hframe : ¬ (0 < m ∧ bitWidth (M - m).toNat < bitWidth M.toNat)) :
    packing t m M = ⟨bitWidth M.toNat, false, 0⟩ := by
  rw [packing, if_neg hframe, if_pos hm]

/-- The sign is that of the minimum. -/
lemma hasNegative_packing (t : IntType) (m M : ℤ) : (packing t m M).hasNegative = true ↔ m < 0 := by
  rcases packing_cases t m M with ⟨h, -, hp⟩ | ⟨h, -, hp⟩ | ⟨h, hp⟩
  · rw [hp]
    exact iff_of_false Bool.false_ne_true (by omega)
  · rw [hp]
    exact iff_of_false Bool.false_ne_true (by omega)
  · rw [hp]
    exact iff_of_true rfl h

lemma toInt_offset_packing (hm : 0 ≤ m) (hend : m < t.endInt) (M : ℤ) :
    t.toInt (packing t m M).offset =
      if 0 < m ∧ bitWidth (M - m).toNat < bitWidth M.toNat then m else 0 := by
  have hmin := t.minInt_nonpos
  rcases packing_cases t m M with ⟨hpos, hframe, hp⟩ | ⟨-, hframe, hp⟩ | ⟨h, hp⟩
  · rw [hp, if_pos ⟨hpos, hframe⟩, IntType.toInt_ofInt (by omega) hend]
  · rw [hp, if_neg hframe, IntType.toInt_zero]
  · omega

/-- Both bounds may move, as long as each of them could move with the packing unchanged.  The least
value of a type must not come in. -/
lemma packing_sandwich {lo hi lo' hi' m' M' : ℤ}
    (hmin : t.minInt ≤ lo') (hmin' : t.minInt ≤ m') (hend : lo < t.endInt) (hlo : lo' ≤ lo)
    (hm : m' ≤ lo) (hlt : lo < hi) (hhi : hi ≤ hi')
    (hleast : lo' < 0 → lo' = t.minInt → lo = t.minInt)
    (hleast' : m' < 0 → m' = t.minInt → lo = t.minInt) (h : packing t lo hi = info)
    (hleft : packing t lo' M' = info) (hright : packing t m' hi' = info) :
    packing t lo' hi' = info := by
  have hsign : ∀ m M, packing t m M = info → (info.hasNegative = true ↔ m < 0) := by
    rintro m M rfl
    exact hasNegative_packing t m M
  have hsign0 := hsign _ _ h
  have hsign1 := hsign _ _ hleft
  have hsign2 := hsign _ _ hright
  -- the sign of the minimum decides whether the packing is signed
  rcases lt_or_ge lo 0 with hneg | hnonneg
  · have hneg1 : lo' < 0 := by omega
    have hneg2 : m' < 0 := by omega
    by_cases hloMin : lo = t.minInt
    · -- all three are the least value
      have heq : lo' = m' := by omega
      rw [heq, hright]
    · have hne1 : lo' ≠ t.minInt := fun heq => hloMin (hleast hneg1 heq)
      have hne2 : m' ≠ t.minInt := fun heq => hloMin (hleast' hneg2 heq)
      rw [packing_of_neg hneg, if_neg hloMin, bitWidth_max] at h
      rw [packing_of_neg hneg1, if_neg hne1, bitWidth_max] at hleft
      rw [packing_of_neg hneg2, if_neg hne2, bitWidth_max] at hright
      rw [packing_of_neg hneg1, if_neg hne1, bitWidth_max, ← h]
      have hwidth := congrArg BitpackInfo.bitWidth h
      have hwidth1 := congrArg BitpackInfo.bitWidth hleft
      have hwidth2 := congrArg BitpackInfo.bitWidth hright
      have hmono1 : bitWidth lo.natAbs ≤ bitWidth lo'.natAbs := bitWidth_mono (by omega)
      have hmono2 : bitWidth hi.natAbs ≤ bitWidth hi'.natAbs ∨
          bitWidth hi.natAbs ≤ bitWidth lo.natAbs := by
        rcases lt_or_ge hi 0 with hneg | hnonneg
        · exact .inr (bitWidth_mono (by omega))
        · exact .inl (bitWidth_mono (by omega))
      congr 1
      simp only at hwidth hwidth1 hwidth2
      omega
  · have hnonneg1 : 0 ≤ lo' := by
      by_contra hneg
      have := hsign1.mpr (by omega)
      have := hsign0.mp this
      omega
    have hnonneg2 : 0 ≤ m' := by
      by_contra hneg
      have := hsign2.mpr (by omega)
      have := hsign0.mp this
      omega
    have hoffset := toInt_offset_packing hnonneg hend hi
    have hoffset1 := toInt_offset_packing hnonneg1 (by omega : lo' < t.endInt) M'
    have hoffset2 := toInt_offset_packing hnonneg2 (by omega : m' < t.endInt) hi'
    rw [h] at hoffset
    rw [hleft, hoffset] at hoffset1
    rw [hright, hoffset] at hoffset2
    by_cases hframe : 0 < lo ∧ bitWidth (hi - lo).toNat < bitWidth hi.toNat
    · -- the offset of a frame of reference is its least value
      rw [if_pos hframe] at hoffset1 hoffset2
      have heq1 : lo' = lo := by
        split at hoffset1 <;> omega
      have heq2 : m' = lo := by
        split at hoffset2 <;> omega
      rw [heq1, ← heq2, hright]
    · rw [if_neg hframe] at hoffset2
      have hplain2 : ¬ (0 < m' ∧ bitWidth (hi' - m').toNat < bitWidth hi'.toNat) := by
        intro hframe'
        rw [if_pos hframe'] at hoffset2
        omega
      -- the wider bounds take no frame of reference either
      have hplain : ¬ (0 < lo' ∧ bitWidth (hi' - lo').toNat < bitWidth hi'.toNat) := by
        rintro ⟨hpos, hless⟩
        rw [packing_of_plain hnonneg hframe] at h
        rw [packing_of_plain hnonneg2 hplain2, ← h] at hright
        have hwidth : bitWidth hi'.toNat = bitWidth hi.toNat := congrArg BitpackInfo.bitWidth hright
        have hmono : bitWidth (hi - lo).toNat ≤ bitWidth (hi' - lo').toNat :=
          bitWidth_mono (by omega)
        omega
      rw [packing_of_plain hnonneg1 hplain, ← packing_of_plain hnonneg2 hplain2, hright]

end IntegerBitpacking

/-! ### Ranges that are accepted -/

lemma toInt_stdMin (a b : BitVec t.width) :
    t.toInt (stdMin t a b) = min (t.toInt a) (t.toInt b) := by
  rw [stdMin, t.lessThan_eq]
  by_cases h : t.toInt b < t.toInt a
  · rw [if_pos (decide_eq_true h), min_eq_right (le_of_lt h)]
  · rw [if_neg (by simpa using h), min_eq_left (not_lt.mp h)]

lemma toInt_stdMax (a b : BitVec t.width) :
    t.toInt (stdMax t a b) = max (t.toInt a) (t.toInt b) := by
  rw [stdMax, t.lessThan_eq]
  by_cases h : t.toInt a < t.toInt b
  · rw [if_pos (decide_eq_true h), max_eq_right (le_of_lt h)]
  · rw [if_neg (by simpa using h), max_eq_left (not_lt.mp h)]

/-- The metadata of a packed segment with the bounds `lo` and `hi`. -/
structure PackedMetadata (metadata : CompressionMetadata) (lo hi : BitVec t.width)
    (info : BitpackInfo t) : Prop where
  eq : metadata = ⟨.ofValue t lo, .ofValue t hi, .integerBitpacking⟩
  lt : t.toInt lo < t.toInt hi
  abs : t = .int128 → t.toInt lo ≠ t.minInt
  info_eq : IntegerBitpacking.packing t (t.toInt lo) (t.toInt hi) = info

namespace PackedMetadata

variable {metadata : CompressionMetadata} {lo hi : BitVec t.width}

section

variable (h : PackedMetadata metadata lo hi info)

include h

lemma getPackingInfo : getPackingInfo t metadata = .ok info := by
  rw [h.eq, ← h.info_eq]
  exact getPackingInfo_eq (get_ofValue t lo) (get_ofValue t hi) h.lt h.abs

lemma bitWidth_pos : 0 < info.bitWidth := by
  rw [← h.info_eq]
  exact packing_bitWidth_pos h.lt

/-- A range of rows that is accepted has the same packing together with the old bounds. -/
lemma accepted {nullMask : Option NullMask} {offset : ℕ}
    (haccept : canUpdateInPlace values metadata nullMask offset = .ok true)
    (hne : nonNullFrom values nullMask offset ≠ []) :
    ∃ a b, getTypedMinMax t values nullMask offset = (some (.ofValue t a), some (.ofValue t b)) ∧
      IsRange t (nonNullFrom values nullMask offset) a b ∧
      (t = .int128 → min (t.toInt lo) (t.toInt a) ≠ t.minInt) ∧
      packing t (min (t.toInt lo) (t.toInt a)) (max (t.toInt hi) (t.toInt b)) = info := by
  obtain ⟨a, b, hminmax, hrange⟩ := getTypedMinMax_eq_some (t := t) hne
  have hlt : t.toInt (stdMin t lo a) < t.toInt (stdMax t hi b) := by
    have := h.lt
    rw [toInt_stdMin, toInt_stdMax]
    omega
  have hmin : metadata.min.get t = lo := by
    rw [h.eq]
    exact get_ofValue t lo
  have hmax : metadata.max.get t = hi := by
    rw [h.eq]
    exact get_ofValue t hi
  simp only [canUpdateInPlace, h.getPackingInfo, hminmax, hmin, hmax, get_ofValue] at haccept
  refine ⟨a, b, hminmax, hrange, ?_⟩
  rw [← toInt_stdMin, ← toInt_stdMax]
  by_cases habs : t = .int128 ∧ t.toInt (stdMin t lo a) = t.minInt
  · -- the absolute value of the new minimum throws
    obtain ⟨e, he⟩ : ∃ e, IntegerBitpacking.getPackingInfo t
        ⟨.ofValue t (stdMin t lo a), .ofValue t (stdMax t hi b), metadata.compression⟩ = .error e :=
      IntegerBitpacking.getPackingInfo_error (get_ofValue t _) (get_ofValue t _) hlt habs.1 habs.2
    rw [he] at haccept
    cases haccept
  · have hnew : IntegerBitpacking.getPackingInfo t
        ⟨.ofValue t (stdMin t lo a), .ofValue t (stdMax t hi b), metadata.compression⟩ = .ok _ :=
      IntegerBitpacking.getPackingInfo_eq (get_ofValue t _)
        (get_ofValue t _) hlt fun ht hmin => habs ⟨ht, hmin⟩
    -- the packing of the wider bounds is the one in use
    rw [hnew] at haccept
    have heq := of_decide_eq_true (Except.ok.inj haccept)
    exact ⟨fun ht hmin => habs ⟨ht, hmin⟩, heq.symm⟩

end

end PackedMetadata

/-- Values between the bounds of a packing come back, except for values below the lowest one that
has its bits. -/
lemma reread_of_accepted {v : BitVec t.width} (hbits : info.bitWidth < t.width)
    (hinfo : packing t m M = info) (habs : t = .int128 → m ≠ t.minInt) (hmin : t.minInt ≤ m)
    (hend : M < t.endInt) (hlo : m ≤ t.toInt v) (hhi : t.toInt v ≤ M)
    (hlow : info.hasNegative = true → -2 ^ (info.bitWidth - 1) ≤ t.toInt v) :
    t.SubFits v info.offset ∧ info.reread v = .ok v := by
  by_cases hleast : m < 0 ∧ m = t.minInt
  -- the least value is left out of the width
  · obtain ⟨hneg, hm⟩ := hleast
    have hp := packing_of_neg (t := t) hneg M
    rw [hinfo, if_pos hm] at hp
    have hupper := (natAbs_lt_two_pow_bitWidth (le_refl M.natAbs)).2
    have hs : t.isSigned = true := by
      by_contra hs
      rw [hm, IntType.minInt, if_neg hs] at hneg
      omega
    refine ⟨fun ht => absurd hm (habs ht), ?_⟩
    have hneg' : info.hasNegative = true := by rw [hp]
    have hoffset : info.offset = 0 := by rw [hp]
    have hwidth : info.bitWidth - 1 = bitWidth M.natAbs := by
      rw [hp]
      exact Nat.add_sub_cancel _ 1
    have hpos : 0 < info.bitWidth := by
      rw [hp]
      exact Nat.succ_pos _
    rw [reread_signed_iff hbits hpos hneg' hoffset hs, BitpackInfo.Fits,
      if_pos hneg', hoffset, IntType.toInt_zero, sub_zero]
    refine ⟨hlow hneg', ?_⟩
    rw [hwidth]
    omega
  · subst hinfo
    obtain ⟨henc, hread⟩ := packing_roundTrip hbits hmin hend
      (fun hneg hm => hleast ⟨hneg, hm⟩) hlo hhi
    refine ⟨fun ht => ?_, hread⟩
    by_cases h0 : (packing t m M).offset = 0
    · have hv := IntType.lt_endInt v
      have hend' : t.endInt = 2 ^ 127 := by
        rw [ht]
        rfl
      have hmin' : t.minInt = -2 ^ 127 := by
        rw [ht]
        rfl
      rw [h0, IntType.toInt_zero, sub_zero]
      omega
    · exact henc h0 ht

end Ladybug
