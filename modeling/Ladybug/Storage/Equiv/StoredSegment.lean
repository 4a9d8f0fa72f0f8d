import Ladybug.Lib.Paging
import Ladybug.Storage.Equiv.PackingInfo

/-!
# Reading stored segments

What `flush` writes, the rows of a segment find as fields of a fixed width on pages with the same
number of fields (`HoldsFields`), whatever the compression is. `writePages_spec` and
`writePages_ok` say so for every algorithm that compresses one page (`CompressesPages`), and
`readCompressedValues_eq` says that reading a range of rows reads every row of the range by itself.

From this follows what reading a segment gives: the rows as they are for a segment that is not
compressed (`readCompressedValues_uncompressed`), the one value of a constant segment
(`readCompressedValues_constant`), and `BitpackInfo.reread` of the rows for a packed one
(`readCompressedValues_packed`).
-/

namespace Ladybug

open List CompressionMetadata IntegerBitpacking ExceptList
open List (range)

/-! ### Fields on pages -/

/-- The field of row `i`, with `perPage` rows on a page. -/
def fieldAt (pages : List ℕ) (perPage width i : ℕ) : Option ℕ :=
  pages[i / perPage]?.map fun page => BitField.get page (i % perPage * width) width

variable {fuel n page pageIdx perPage pos width : ℕ} {pages fields : List ℕ}

lemma fieldAt_of_page (hpos : pos < perPage) (hpage : pages[pageIdx]? = some page) (width : ℕ) :
    fieldAt pages perPage width (pageIdx * perPage + pos) =
      some (BitField.get page (pos * width) width) := by
  rw [fieldAt, Paging.mul_add_div_of_lt hpos, hpage, Option.map_some, Nat.mul_add_mod_of_lt hpos]

lemma exists_page (hpos : pos < perPage)
    (h : (fieldAt pages perPage width (pageIdx * perPage + pos)).isSome) :
    ∃ page, pages[pageIdx]? = some page := by
  rw [fieldAt, Paging.mul_add_div_of_lt hpos, Option.isSome_map] at h
  exact Option.isSome_iff_exists.mp h

/-- The pages hold the fields one after the other. -/
def HoldsFields (pages : List ℕ) (perPage width : ℕ) (fields : List ℕ) : Prop :=
  ∀ i x, fields[i]? = some x → fieldAt pages perPage width i = some (x % 2 ^ width)

lemma HoldsFields.nil (perPage width : ℕ) : HoldsFields [] perPage width [] := by
  intro i x h
  simp at h

/-- The first page and the rest. -/
lemma HoldsFields.cons (hn : 0 < perPage)
    (hpage : ∀ i x, (fields.take perPage)[i]? = some x →
      BitField.get page (i * width) width = x % 2 ^ width)
    (h : HoldsFields pages perPage width (fields.drop perPage)) :
    HoldsFields (page :: pages) perPage width fields := by
  intro i x hx
  rcases Nat.lt_or_ge i perPage with hi | hi
  · rw [fieldAt, Nat.div_eq_of_lt hi, Nat.mod_eq_of_lt hi]
    exact congrArg some (hpage i x (by rwa [getElem?_take_of_lt hi]))
  · obtain ⟨j, rfl⟩ := Nat.exists_eq_add_of_le hi
    have hj := h j x (by rwa [getElem?_drop])
    rwa [fieldAt, Nat.add_div_left j hn, Nat.add_mod_left]

lemma HoldsFields.append {more : List ℕ} (h : HoldsFields pages perPage width fields) :
    HoldsFields (pages ++ more) perPage width fields := by
  intro i x hx
  have hfield := h i x hx
  obtain ⟨page, hpage, -⟩ := Option.map_eq_some_iff.mp hfield
  rwa [fieldAt, List.getElem?_append_left (List.getElem?_eq_some_iff.mp hpage).1]

/-! ### Writing -/

/-- A page takes the next `perPage` values as fields, if all of them can be encoded. -/
structure CompressesPages {t : IntType} (metadata : CompressionMetadata) (perPage width : ℕ)
    (Enc : BitVec t.width → Prop) (enc : BitVec t.width → ℕ) : Prop where
  ok : ∀ src buffer, (∀ v ∈ src.take perPage, Enc v) →
    ∃ page, metadata.compressNextPage src buffer LBUG_PAGE_SIZE = .ok page
  spec : ∀ src buffer page size,
    metadata.compressNextPage src buffer LBUG_PAGE_SIZE = .ok (page, size) →
      (∀ v ∈ src.take perPage, Enc v) ∧ (src.take perPage).length * width ≤ 8 * size ∧
        BitField.Writes buffer page 0 width ((src.take perPage).map enc)

section writePages

variable {t : IntType} {metadata : CompressionMetadata} {Enc : BitVec t.width → Prop}
  {enc : BitVec t.width → ℕ} {src : List (BitVec t.width)}

/-- The page as it is written: behind the compressed values it is cleared. -/
def clearTail (page size : ℕ) : ℕ :=
  if size < LBUG_PAGE_SIZE then
    BitField.set page (8 * size) (8 * (LBUG_PAGE_SIZE - size)) 0
  else page

/-- Clearing the tail keeps the packed fields. -/
lemma get_clearTail {size i k : ℕ} (hi : i < k) (hk : k * width ≤ 8 * size) :
    BitField.get (clearTail page size) (i * width) width = BitField.get page (i * width) width := by
  have hle : (i + 1) * width ≤ k * width := Nat.mul_le_mul_right width hi
  have hmul : (i + 1) * width = i * width + width := Nat.add_one_mul i width
  unfold clearTail
  split
  · exact BitField.get_set_of_disjoint (.inl (by omega))
  · rfl

lemma writePages_cons (v : BitVec t.width) (src : List (BitVec t.width)) (fuel buffer : ℕ) :
    writePages metadata perPage (fuel + 1) (v :: src) buffer = (do
      let (page, size) ← metadata.compressNextPage (v :: src) buffer LBUG_PAGE_SIZE
      let rest ← writePages metadata perPage fuel ((v :: src).drop perPage) (clearTail page size)
      return clearTail page size :: rest) :=
  rfl

/-- The pages written hold the encoded values. -/
lemma writePages_spec (hn : 0 < perPage) (hc : CompressesPages metadata perPage width Enc enc)
    {buffer : ℕ} (h : writePages metadata perPage fuel src buffer = .ok pages) :
    (∀ v ∈ src, Enc v) ∧ HoldsFields pages perPage width (src.map enc) := by
  induction fuel generalizing src buffer pages with
  | zero =>
    cases src with
    | nil =>
      cases h
      exact ⟨by simp, HoldsFields.nil perPage width⟩
    | cons v src => cases h
  | succ fuel ih =>
    cases src with
    | nil =>
      cases h
      exact ⟨by simp, HoldsFields.nil perPage width⟩
    | cons v src =>
      rw [writePages_cons] at h
      obtain ⟨⟨page, size⟩, hpage, h⟩ := bind_ok h
      obtain ⟨rest, hrest, h⟩ := bind_ok h
      cases h
      obtain ⟨henc, hsize, hwrites⟩ := hc.spec _ _ _ _ hpage
      obtain ⟨hencRest, hfields⟩ := ih hrest
      refine ⟨fun w hw => ?_, ?_⟩
      · rw [← take_append_drop perPage (v :: src), mem_append] at hw
        exact hw.elim (henc w) (hencRest w)
      -- the first page holds its fields, the rest by induction
      · rw [map_drop] at hfields
        rw [map_take] at hwrites
        apply HoldsFields.cons hn _ hfields
        intro i x hx
        have hi := (List.getElem?_eq_some_iff.mp hx).1
        rw [← List.map_take, List.length_map] at hi
        have hfield := hwrites.field i x hx
        rw [Nat.zero_add] at hfield
        rw [get_clearTail hi hsize, hfield]

/-- Encodable values are written. -/
lemma writePages_ok (hn : 0 < perPage) (hc : CompressesPages metadata perPage width Enc enc)
    (hfuel : src.length ≤ fuel) (h : ∀ v ∈ src, Enc v) (buffer : ℕ) :
    ∃ pages, writePages metadata perPage fuel src buffer = .ok pages := by
  induction fuel generalizing src buffer with
  | zero =>
    rw [length_eq_zero_iff.mp (Nat.le_zero.mp hfuel)]
    exact ⟨[], rfl⟩
  | succ fuel ih =>
    cases src with
    | nil => exact ⟨[], rfl⟩
    | cons v src =>
      obtain ⟨⟨page, size⟩, hpage⟩ := hc.ok (v :: src) buffer fun w hw => h w (mem_of_mem_take hw)
      have hlen : ((v :: src).drop perPage).length ≤ fuel := by
        rw [length_drop]
        omega
      obtain ⟨pages, hpages⟩ := ih hlen (fun w hw => h w (mem_of_mem_drop hw)) (clearTail page size)
      refine ⟨clearTail page size :: pages, ?_⟩
      rw [writePages_cons, hpage]
      show (writePages metadata perPage fuel _ _ >>= _) = _
      rw [hpages]
      rfl

end writePages

/-! ### The algorithms -/

section algorithms

variable {t : IntType}

lemma IntType.width_eq_numBytes (t : IntType) : t.width = 8 * t.numBytes := by
  cases t <;> rfl

lemma take_min_length {α : Type*} (as : List α) (n : ℕ) : as.take (min as.length n) = as.take n :=
  take_eq_take_iff.mpr (by omega)

/-- Without compression values are copied. -/
lemma compressesPages_uncompressed {metadata : CompressionMetadata}
    (h : metadata.compression = .uncompressed) :
    CompressesPages metadata (LBUG_PAGE_SIZE / t.numBytes) t.width (fun _ : BitVec t.width => True)
      BitVec.toNat where
  ok src buffer _ := ⟨_, if_pos h⟩
  spec src buffer page size heq := by
    rw [CompressionMetadata.compressNextPage, if_pos h] at heq
    cases heq
    refine ⟨fun _ _ => trivial, ?_, ?_⟩
    · have hsize : ∀ n, n * t.width = 8 * (n * t.numBytes) := fun n => by
        rw [t.width_eq_numBytes, Nat.mul_left_comm]
      rw [length_take, Nat.min_comm, hsize]
    · have hw := BitField.Writes.foldl_set (fun v : BitVec t.width => v.toNat) buffer 0 t.width
        (src.take (LBUG_PAGE_SIZE / t.numBytes)) 0
      rw [Nat.zero_mul, Nat.add_zero] at hw
      have hpos : ∀ i, 8 * (i * t.numBytes) = 0 + i * t.width := by
        intro i
        rw [t.width_eq_numBytes, Nat.zero_add, Nat.mul_left_comm]
      simp only [take_min_length, hpos]
      exact hw

section packed

variable {metadata : CompressionMetadata} {info : BitpackInfo t}
  (hinfo : getPackingInfo t metadata = .ok info) (hpos : 0 < info.bitWidth)

include hinfo hpos

/-- A page takes as many values as fit. -/
lemma compressNextPage_packed (h : metadata.compression ≠ .uncompressed)
    (src : List (BitVec t.width))
    (buffer : ℕ) : metadata.compressNextPage src buffer LBUG_PAGE_SIZE = (do
      let n := min src.length (LBUG_PAGE_SIZE * 8 / info.bitWidth)
      let page ← IntegerBitpacking.packValues
        (src.take (LBUG_PAGE_SIZE * 8 / info.bitWidth)) buffer info
      return (page, n * info.bitWidth / 8 + if n * info.bitWidth % 8 ≠ 0 then 1 else 0)) := by
  have hne : info.bitWidth ≠ 0 := Nat.ne_of_gt hpos
  rw [CompressionMetadata.compressNextPage, if_neg h, IntegerBitpacking.compressNextPage, hinfo]
  show (if _ then _ else _) = _
  rw [if_neg hne, IntegerBitpacking.numValues, if_neg hne, take_min_length]

/-- Bit packing encodes page by page. -/
lemma compressesPages_packed (h : metadata.compression ≠ .uncompressed)
    (hbits : info.bitWidth < t.width) :
    CompressesPages metadata (LBUG_PAGE_SIZE * 8 / info.bitWidth) info.bitWidth info.Encodable
      fun v => (info.encode v).toNat where
  ok src buffer henc := by
    obtain ⟨page, hpage⟩ := (packValues_packsAt hbits _).ok buffer henc
    rw [compressNextPage_packed hinfo hpos h, hpage]
    exact ⟨_, rfl⟩
  spec src buffer page size heq := by
    rw [compressNextPage_packed hinfo hpos h] at heq
    obtain ⟨buffer', hbuffer, heq⟩ := bind_ok heq
    cases heq
    obtain ⟨henc, hwrites⟩ := (packValues_packsAt hbits _).spec _ _ hbuffer
    rw [Nat.zero_mul] at hwrites
    refine ⟨henc, ?_, hwrites⟩
    rw [length_take, Nat.min_comm]
    -- the size of a compressed page in bytes is rounded up
    split <;> omega

lemma numValues_packed (hc : metadata.compression = .integerBitpacking) :
    metadata.numValues LBUG_PAGE_SIZE t = .ok (LBUG_PAGE_SIZE * 8 / info.bitWidth) := by
  rw [CompressionMetadata.numValues, hc]
  simp only [hinfo, IntegerBitpacking.numValues]
  exact congrArg Except.ok (if_neg (Nat.ne_of_gt hpos))

end packed

lemma perPage_uncompressed_pos (t : IntType) : 0 < LBUG_PAGE_SIZE / t.numBytes := by
  cases t <;> decide

lemma perPage_packed_pos (hpos : 0 < n) (hbits : n < t.width) : 0 < LBUG_PAGE_SIZE * 8 / n := by
  have hw : t.width ≤ 128 := by cases t <;> decide
  apply Nat.div_pos _ hpos
  unfold LBUG_PAGE_SIZE
  omega

end algorithms

/-! ### Reading -/

namespace StoredSegment

variable {t : IntType} {segment : StoredSegment}

/-- What a segment reads from the rows of one page. -/
def readRows (segment : StoredSegment) (t : IntType) (pageIdx pos n : ℕ) :
    Except String (List (BitVec t.width)) := do
  let frame ← segment.readFromPage pageIdx
  segment.compMeta.readValuesFromPage t frame pos n

/-- If the pages read the rows between `start` and `stop` one by one, so do the pages together. -/
lemma readPages_eq (hn : 0 < perPage) {row : ℕ → Except String (BitVec t.width)} {start stop : ℕ}
    (hrows : ∀ pageIdx pos n, 0 < n → pos + n ≤ perPage → start ≤ pageIdx * perPage + pos →
      pageIdx * perPage + pos + n ≤ stop → segment.readRows t pageIdx pos n =
        (range n).mapM fun i => row (pageIdx * perPage + pos + i))
    (hfuel : n ≤ fuel) (hpos : pos < perPage)
    (hge : start ≤ pageIdx * perPage + pos) (hle : pageIdx * perPage + pos + n ≤ stop) :
    segment.readPages t perPage fuel pageIdx pos n =
      (range n).mapM fun i => row (pageIdx * perPage + pos + i) := by
  induction fuel generalizing pageIdx pos n with
  | zero =>
    rw [Nat.le_zero.mp hfuel]
    rfl
  | succ fuel ih =>
    cases n with
    | zero => rfl
    | succ n =>
      have hfirst : 0 < min (perPage - pos) (n + 1) := by omega
      have hread := hrows pageIdx pos _ hfirst (by omega) hge (by omega)
      have hmul : (pageIdx + 1) * perPage = pageIdx * perPage + perPage :=
        Nat.add_one_mul pageIdx perPage
      have hrest : segment.readPages t perPage fuel (pageIdx + 1) 0
          (n + 1 - min (perPage - pos) (n + 1)) =
          (range (n + 1 - min (perPage - pos) (n + 1))).mapM fun i =>
            row (pageIdx * perPage + pos + (min (perPage - pos) (n + 1) + i)) := by
        rcases Nat.lt_or_ge (perPage - pos) (n + 1) with hlt | hall
        · rw [ih (by omega) hn (by omega) (by omega)]
          apply mapM_congr
          intro i _
          congr 1
          omega
        · -- the page holds all the rows that are left
          rw [Nat.min_eq_right hall, Nat.sub_self]
          cases fuel <;> rfl
      -- the rows of this page, then the rest
      have hsplit : n + 1 = min (perPage - pos) (n + 1) +
          (n + 1 - min (perPage - pos) (n + 1)) := by omega
      conv_rhs => rw [hsplit, mapM_range_add]
      rw [← hread, ← hrest, readRows, bind_assoc]
      rfl

variable {startOffset : ℕ} {values : List (BitVec t.width)}

/-- Reading over page borders is reading row by row. -/
lemma readCompressedValues_eq (row : ℕ → Except String (BitVec t.width))
    (hper : segment.compMeta.numValues LBUG_PAGE_SIZE t = .ok perPage) (hn : 0 < perPage)
    (hrows : ∀ pageIdx pos k, 0 < k → pos + k ≤ perPage → startOffset ≤ pageIdx * perPage + pos →
      pageIdx * perPage + pos + k ≤ startOffset + n → segment.readRows t pageIdx pos k =
        (range k).mapM fun i => row (pageIdx * perPage + pos + i)) :
    segment.readCompressedValues t startOffset n =
      (range n).mapM fun i => row (startOffset + i) := by
  have hstart := Nat.div_add_mod' startOffset perPage
  rw [readCompressedValues, hper]
  show segment.readPages t perPage n _ _ n = _
  rw [readPages_eq hn hrows (le_refl n) (Nat.mod_lt _ hn) (by omega) (by omega), hstart]

/-- Constant segments need no page. -/
lemma readCompressedValues_constant (h : segment.compMeta.compression = .constant)
    (startOffset n : ℕ) :
    segment.readCompressedValues t startOffset n =
      .ok (List.replicate n (segment.compMeta.min.get t)) := by
  have hrow : ∀ n, (range n).mapM (fun _ => Except.ok (segment.compMeta.min.get t)) =
      (.ok (List.replicate n (segment.compMeta.min.get t)) : Except String _) := by
    intro n
    rw [mapM_ok (g := fun _ => segment.compMeta.min.get t) fun _ _ => rfl, map_const', length_range]
  have hper : segment.compMeta.numValues LBUG_PAGE_SIZE t = .ok UINT64_MAX := by
    rw [CompressionMetadata.numValues, h]
    rfl
  rw [← hrow n]
  apply readCompressedValues_eq (fun _ => .ok (segment.compMeta.min.get t)) hper (by decide)
  intro pageIdx pos n _ _ _ _
  rw [hrow, readRows, readFromPage, if_pos h]
  show segment.compMeta.readValuesFromPage t 0 pos n = _
  rw [readValuesFromPage, h]
  rfl

/-- Copied values are read back. -/
lemma readCompressedValues_uncompressed (h : segment.compMeta.compression = .uncompressed)
    (hfields : HoldsFields segment.pages (LBUG_PAGE_SIZE / t.numBytes) t.width
      (values.map BitVec.toNat)) (hle : startOffset + n ≤ values.length) :
    segment.readCompressedValues t startOffset n =
      (range n).mapM fun i => .ok (values.getD (startOffset + i) 0) := by
  have hper : segment.compMeta.numValues LBUG_PAGE_SIZE t = .ok (LBUG_PAGE_SIZE / t.numBytes) := by
    rw [CompressionMetadata.numValues, h]
    rfl
  have hfield : ∀ j (hj : j < values.length),
      fieldAt segment.pages (LBUG_PAGE_SIZE / t.numBytes) t.width j = some values[j].toNat := by
    intro j hj
    rw [hfields j values[j].toNat (by rw [getElem?_map, getElem?_eq_getElem hj]; rfl),
      Nat.mod_eq_of_lt (BitVec.isLt _)]
  apply readCompressedValues_eq (fun i => .ok (values.getD i 0)) hper (perPage_uncompressed_pos t)
  intro pageIdx pos n hpos hpage _ hlen
  obtain ⟨page, hget⟩ := exists_page (show pos < LBUG_PAGE_SIZE / t.numBytes by omega)
    (Option.isSome_of_eq_some (hfield (pageIdx * (LBUG_PAGE_SIZE / t.numBytes) + pos) (by omega)))
  rw [readRows, readFromPage, if_neg (by rw [h]; decide), hget]
  show segment.compMeta.readValuesFromPage t page pos n = _
  rw [readValuesFromPage, h]
  symm
  apply mapM_ok
  intro i hi
  have hi := mem_range.mp hi
  have hlt : pageIdx * (LBUG_PAGE_SIZE / t.numBytes) + (pos + i) < values.length := by omega
  have hoffset : 8 * ((pos + i) * t.numBytes) = (pos + i) * t.width := by
    rw [t.width_eq_numBytes, Nat.mul_left_comm]
  have heq := hfield _ hlt
  rw [fieldAt_of_page (by omega) hget, Option.some.injEq] at heq
  rw [hoffset, heq, BitVec.ofNat_toNat, BitVec.setWidth_eq, Nat.add_assoc, getD_eq_getElem _ _ hlt]

section packed

variable {info : BitpackInfo t} (h : segment.compMeta.compression = .integerBitpacking)
  (hinfo : getPackingInfo t segment.compMeta = .ok info)
  (hpos : 0 < info.bitWidth) (hbits : info.bitWidth < t.width)

include h hinfo hpos hbits

/-- Packed fields are decoded. -/
lemma readCompressedValues_fields
    (hfields : ∀ i < n, (fieldAt segment.pages (LBUG_PAGE_SIZE * 8 / info.bitWidth) info.bitWidth
      (startOffset + i)).isSome) :
    segment.readCompressedValues t startOffset n = (range n).mapM fun i =>
      decodeValue info (BitVec.ofNat t.width
        ((fieldAt segment.pages (LBUG_PAGE_SIZE * 8 / info.bitWidth) info.bitWidth
          (startOffset + i)).getD 0)) := by
  have hper := numValues_packed hinfo hpos h
  apply readCompressedValues_eq (fun j => decodeValue info (BitVec.ofNat t.width
    ((fieldAt segment.pages (LBUG_PAGE_SIZE * 8 / info.bitWidth) info.bitWidth j).getD 0))) hper
    (perPage_packed_pos hpos hbits)
  intro pageIdx pos k hk hpage hge hle
  have hfirst := hfields (pageIdx * (LBUG_PAGE_SIZE * 8 / info.bitWidth) + pos - startOffset)
    (by omega)
  rw [Nat.add_sub_cancel' hge] at hfirst
  obtain ⟨page, hget⟩ := exists_page (by omega) hfirst
  rw [readRows, readFromPage, if_neg (by rw [h]; decide), hget]
  show segment.compMeta.readValuesFromPage t page pos k = _
  rw [readValuesFromPage, h]
  rw [decompressFromPage_eq hbits hinfo]
  apply mapM_congr
  intro i hi
  have hi := mem_range.mp hi
  rw [Nat.add_assoc, fieldAt_of_page (by omega) hget, Option.getD_some, BitpackInfo.field]

/-- Packed values are reread. -/
lemma readCompressedValues_packed
    (hfields : HoldsFields segment.pages (LBUG_PAGE_SIZE * 8 / info.bitWidth) info.bitWidth
      (values.map fun v => (info.encode v).toNat)) (hle : startOffset + n ≤ values.length) :
    segment.readCompressedValues t startOffset n =
      (range n).mapM fun i => info.reread (values.getD (startOffset + i) 0) := by
  have hfield : ∀ i < n, fieldAt segment.pages (LBUG_PAGE_SIZE * 8 / info.bitWidth) info.bitWidth
      (startOffset + i) =
        some ((info.encode (values.getD (startOffset + i) 0)).toNat % 2 ^ info.bitWidth) := by
    intro i hi
    have hlt : startOffset + i < values.length := by omega
    rw [hfields (startOffset + i) _ (by rw [getElem?_map, getElem?_eq_getElem hlt]; rfl),
      getD_eq_getElem _ _ hlt]
  rw [readCompressedValues_fields h hinfo hpos hbits
    fun i hi => Option.isSome_of_eq_some (hfield i hi)]
  apply mapM_congr
  intro i hi
  rw [hfield i (mem_range.mp hi), Option.getD_some, BitpackInfo.reread]

end packed

end StoredSegment

end Ladybug
