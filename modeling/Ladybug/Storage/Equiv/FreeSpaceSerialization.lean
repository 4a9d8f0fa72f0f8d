import Ladybug.Common.Equiv.Serializer
import Ladybug.Storage.Equiv.PageManager
import Ladybug.Storage.FreeSpaceSerialization

/-!
# Correctness of the free page ranges in a checkpoint

* `Valid.checkpointMetadata`: the pages allocated for the metadata suffice, and what is
  free when the file is opened again is what was free or waiting when the metadata was written;
* `dataFile_roundTrip`: these are all pages without an owner exactly when no page was lost before,
  and the file is not longer than the page manager knows.
-/

namespace Ladybug

open List Multiset Checkpointer FreeSpaceManager Option SerializePagesUsedTracker InMemFileWriter
open DataFile (act new)

/-! ### The estimate -/

namespace SerializePagesUsedTracker

/-- The bytes that were counted fit into the pages that were counted. -/
structure Covers (t : SerializePagesUsedTracker) (numBytes : ℕ) : Prop where
  used_le : t.numBytesUsedInPage ≤ lbugPageSize
  le_pages : numBytes ≤ t.numPagesUsed * lbugPageSize + t.numBytesUsedInPage

/-- The tracker counts one more value. -/
lemma Covers.process {t : SerializePagesUsedTracker} {numBytes : ℕ} (h : t.Covers numBytes)
    {value : ProcessedValue} (hsize : sizeOf value ≤ lbugPageSize) :
    (t.process value).Covers (numBytes + sizeOf value) := by
  obtain ⟨hused, hle⟩ := h
  unfold SerializePagesUsedTracker.process updatePagesUsed
  split
  case isTrue =>
    refine ⟨hsize, ?_⟩
    show numBytes + sizeOf value ≤ (t.numPagesUsed + 1) * lbugPageSize + sizeOf value
    rw [Nat.add_mul, Nat.one_mul]
    omega
  case isFalse hfits =>
    refine ⟨Nat.le_of_not_lt hfits, ?_⟩
    show numBytes + sizeOf value ≤
      t.numPagesUsed * lbugPageSize + (t.numBytesUsedInPage + sizeOf value)
    omega

lemma Covers.foldl {values : List ProcessedValue} :
    ∀ {t : SerializePagesUsedTracker} {numBytes : ℕ}, t.Covers numBytes →
      (∀ value ∈ values, sizeOf value ≤ lbugPageSize) →
      (values.foldl SerializePagesUsedTracker.process t).Covers
        (numBytes + (values.map sizeOf).sum) := by
  induction values with
  | nil => exact fun h _ => h
  | cons value values ih =>
    intro t numBytes h hsize
    rw [List.foldl_cons, List.map_cons, List.sum_cons, ← Nat.add_assoc]
    exact ih (h.process (hsize value List.mem_cons_self))
      fun x hx => hsize x (mem_cons_of_mem value hx)

/-- The pages counted hold the bytes. -/
lemma Covers.le_numPages {t : SerializePagesUsedTracker} {numBytes : ℕ} (h : t.Covers numBytes) :
    numBytes ≤ (t.numPagesUsed + if t.numBytesUsedInPage > 0 then 1 else 0) * lbugPageSize := by
  obtain ⟨hused, hle⟩ := h
  split
  case isTrue =>
    rw [Nat.add_mul, Nat.one_mul]
    omega
  case isFalse hzero =>
    rw [Nat.add_zero]
    omega

end SerializePagesUsedTracker

variable {n : ℕ} {range : PageRange} {rs : List PageRange}

namespace FreeSpaceManager

variable {fsm : FreeSpaceManager}

/-- The entries that a checkpoint writes. -/
def entries (fsm : FreeSpaceManager) : List PageRange :=
  fsm.freeLists.flatten ++ fsm.uncheckpointedFreePageRanges

/-- The values written: a count, then the entries. -/
lemma serializeInternal_eq (fsm : FreeSpaceManager) :
    fsm.serializeInternal =
      [.debuggingInfo "page_manager", .debuggingInfo "numEntries",
        .rowIdx (UInt64.ofNat (fsm.numEntries + fsm.uncheckpointedFreePageRanges.length)),
        .debuggingInfo "entries"] ++ fsm.entries.flatMap processEntry := by
  rw [serializeInternal, entries, flatMap_append, append_assoc]

lemma sizeOf_processEntry : ((rs.flatMap processEntry).map sizeOf).sum = 8 * rs.length := by
  induction rs with
  | nil => rfl
  | cons r rs ih =>
    rw [flatMap_cons, map_append, sum_append, ih, length_cons]
    show 8 + 8 * rs.length = _
    omega

/-- The pages reserved hold the serialized ranges. -/
lemma le_getMaxNumPagesForSerialization (fsm : FreeSpaceManager) :
    8 + 8 * fsm.entries.length ≤ fsm.getMaxNumPagesForSerialization * lbugPageSize := by
  have hsize : ∀ value ∈ fsm.serializeInternal,
      SerializePagesUsedTracker.sizeOf value ≤ lbugPageSize := by
    intro value hvalue
    rw [serializeInternal_eq, mem_append] at hvalue
    rcases hvalue with hhead | hentry
    · simp only [List.mem_cons, List.not_mem_nil, or_false] at hhead
      rcases hhead with rfl | rfl | rfl | rfl
      · decide
      · decide
      · show 8 ≤ 4096
        decide
      · decide
    · obtain ⟨r, -, hr⟩ := List.mem_flatMap.mp hentry
      simp only [processEntry, List.mem_cons, List.not_mem_nil, or_false] at hr
      rcases hr with rfl | rfl <;>
      · show 4 ≤ 4096
        decide
  have hcovers := (SerializePagesUsedTracker.Covers.foldl (t := {}) ⟨Nat.zero_le _, Nat.zero_le _⟩
    hsize).le_numPages
  have hsum : (fsm.serializeInternal.map sizeOf).sum = 61 + 8 * fsm.entries.length := by
    rw [serializeInternal_eq, map_append, sum_append, sizeOf_processEntry]
    rfl
  rw [hsum] at hcovers
  exact Nat.le_trans (by omega) hcovers

/-! ### Reading what was written -/

/-- The entry fits into two values of type `page_idx_t`. -/
def Fits (r : PageRange) : Prop := r.startPageIdx < 2 ^ 32 ∧ r.numPages < 2 ^ 32

lemma flatten_processEntry (r : PageRange) :
    ((processEntry r).flatMap serializeProcessed).flatten =
      (serializeValue (UInt32.ofNat r.startPageIdx)).flatten ++
        (serializeValue (UInt32.ofNat r.numPages)).flatten := by
  simp [processEntry, serializeProcessed]

/-- An entry is read back. -/
lemma parses_entry {r : PageRange} (h : Fits r) :
    Parses deserializeEntry ((processEntry r).flatMap serializeProcessed).flatten r := by
  have hr : r = ⟨(UInt32.ofNat r.startPageIdx).toNat, (UInt32.ofNat r.numPages).toNat⟩ := by
    rw [UInt32.toNat_ofNat_of_lt' h.1, UInt32.toNat_ofNat_of_lt' h.2]
  rw [flatten_processEntry]
  conv => rhs; rw [hr]
  exact (parses_value _).bind (parses_value _).bind_pure

lemma flatten_serialize (fsm : FreeSpaceManager) :
    fsm.serialize.flatten =
      (serializeValue
        (UInt64.ofNat (fsm.numEntries + fsm.uncheckpointedFreePageRanges.length))).flatten ++
      (fsm.entries.flatMap fun r => (processEntry r).flatMap serializeProcessed).flatten := by
  rw [serialize, serializeInternal_eq, flatMap_append, flatten_append, flatMap_assoc]
  simp [serializeProcessed]

/-- **Round trip.** Reading gives back the entries that were written. -/
theorem parses_serialize (hv : fsm.Valid) (hfits : ∀ r ∈ fsm.entries, Fits r)
    (hlen : fsm.entries.length < 2 ^ 64) :
    Parses deserialize fsm.serialize.flatten fsm.entries := by
  have hcount : fsm.numEntries + fsm.uncheckpointedFreePageRanges.length = fsm.entries.length := by
    rw [hv.numEntries_eq, entries, length_append]
  rw [flatten_serialize, hcount]
  refine (parses_value _).bind ?_
  rw [UInt64.toNat_ofNat_of_lt' hlen]
  exact parses_elements fun r hr => parses_entry (hfits r hr)

/-- The bytes written: eight for the count and for each entry. -/
lemma length_serialize (fsm : FreeSpaceManager) :
    fsm.serialize.flatten.length = 8 + 8 * fsm.entries.length := by
  have hentries : ∀ rs : List PageRange,
      (rs.flatMap fun r => (processEntry r).flatMap serializeProcessed).flatten.length =
        8 * rs.length := by
    intro rs
    induction rs with
    | nil => rfl
    | cons r rs ih =>
      rw [flatMap_cons, flatten_append, length_append, ih, flatten_processEntry]
      simp only [serializeValue, flatten_singleton, length_append,
        Trivial.length_toBytes, length_cons]
      show 4 + 4 + 8 * rs.length = _
      omega
  rw [flatten_serialize, length_append, hentries, serializeValue, flatten_singleton,
    Trivial.length_toBytes]
  rfl

end FreeSpaceManager

/-- The number of pages that `allocatePageRange` adds to the file: none if there is a free range. -/
def PageManager.numPagesToAdd (pm : PageManager) (numPages : ℕ) : ℕ :=
  match pm.freeSpaceManager.popFreePages numPages with
  | some (none, _) => numPages
  | _ => 0

/-- Only a failed search grows the file. -/
lemma PageManager.allocatePageRange_numPages {pm pm' : PageManager}
    (h : pm.allocatePageRange n = some (range, pm')) :
    pm'.numPages = pm.numPages + pm.numPagesToAdd n := by
  obtain ⟨⟨chunk, fsm⟩, hpop, hrest⟩ := bind_eq_some_iff.mp h
  rw [numPagesToAdd, hpop]
  cases chunk with
  | none | some chunk =>
    obtain ⟨-, rfl⟩ := Prod.mk.inj (some.inj hrest)
    rfl

/-- There are no more ranges than pages. -/
lemma length_le_card_pagesOf (hpos : ∀ r ∈ rs, 0 < r.numPages) : rs.length ≤ (pagesOf rs).card := by
  induction rs with
  | nil => exact Nat.zero_le _
  | cons r rs ih =>
    have hr := hpos r mem_cons_self
    have hcard : r.pages.card = r.numPages := by simp [PageRange.pages]
    have hrs := ih fun x hx => hpos x (mem_cons_of_mem r hx)
    rw [pagesOf_cons, card_add, hcard, length_cons]
    omega

namespace PageSystem

variable {s s' : PageSystem} {live : List PageRange}

lemma pagesOf_entries (s : PageSystem) :
    pagesOf s.pageManager.freeSpaceManager.entries = pagesOf s.free + pagesOf s.uncheckpointed := by
  rw [entries, pagesOf_append]
  rfl

lemma Valid.entries_pos (hs : s.Valid) :
    ∀ r ∈ s.pageManager.freeSpaceManager.entries, 0 < r.numPages := by
  intro r hr
  rcases mem_append.mp hr with hfree | hunchk
  · exact hs.manager.free_pos r hfree
  · exact hs.manager.uncheckpointed_pos r hunchk

lemma entries_le_pages (s : PageSystem) :
    pagesOf s.pageManager.freeSpaceManager.entries ≤ s.pages := by
  rw [pagesOf_entries, pages, add_assoc]
  exact le_add_left _ _

/-- There are no more entries than pages in the file. -/
lemma Valid.length_entries_le (hs : s.Valid) :
    s.pageManager.freeSpaceManager.entries.length ≤ s.pageManager.numPages := by
  have hnodup := nodup_of_le s.entries_le_pages hs.nodup
  have hrange : pagesOf s.pageManager.freeSpaceManager.entries ≤
      Multiset.range s.pageManager.numPages := by
    rw [le_iff_subset hnodup]
    intro p hp
    exact Multiset.mem_range.mpr (hs.lt_numPages p (Multiset.mem_of_le s.entries_le_pages hp))
  calc _ ≤ (pagesOf s.pageManager.freeSpaceManager.entries).card :=
        length_le_card_pagesOf hs.entries_pos
    _ ≤ (Multiset.range s.pageManager.numPages).card := card_le_card hrange
    _ = s.pageManager.numPages := card_range _

/-! ### Writing the metadata -/

/-- The number of pages that are allocated for the metadata. -/
def numMetadataPages (s : PageSystem) (numMetadataBytes : ℕ) : ℕ :=
  getNumPagesToFlush numMetadataBytes +
    s.pageManager.freeSpaceManager.getMaxNumPagesForSerialization

/-- Reserved pages suffice for the added bytes. -/
lemma getNumPagesToFlush_add_le {m k : ℕ} (h : n ≤ k * lbugPageSize) :
    getNumPagesToFlush (m + n) ≤ getNumPagesToFlush m + k := by
  have hle : m + n + lbugPageSize - 1 ≤ (m + lbugPageSize - 1) + lbugPageSize * k := by
    rw [Nat.mul_comm]
    omega
  calc _ ≤ ((m + lbugPageSize - 1) + lbugPageSize * k) / lbugPageSize := Nat.div_le_div_right hle
    _ = _ := Nat.add_mul_div_left _ _ (by decide)

/-- **Serialization** stays valid and fits its range. -/
lemma Valid.serializeMetadata (hs : s.Valid) (numMetadataBytes : ℕ) :
    ∃ range s', s.serializeMetadata numMetadataBytes =
        some (range, s'.pageManager.freeSpaceManager.serialize.flatten, s') ∧ s'.Valid ∧
      getNumPagesToFlush (numMetadataBytes +
        s'.pageManager.freeSpaceManager.serialize.flatten.length) ≤ range.numPages ∧
      s'.pageManager.numPages = s.pageManager.numPages +
        s.pageManager.numPagesToAdd (s.numMetadataPages numMetadataBytes) ∧
      s'.owned = range :: s.owned ∧ s'.uncheckpointed = s.uncheckpointed ∧
      range.pages + pagesOf s'.free = pagesOf s.free + PageRange.pages
        ⟨s.pageManager.numPages, s'.pageManager.numPages - s.pageManager.numPages⟩ := by
  obtain ⟨range, pm, hallocate, hrange, -, hnum, hv, hpages, hunchk⟩ :=
    PageManager.allocatePageRange_spec hs.manager hs.nodup_free
      (s.numMetadataPages numMetadataBytes)
  obtain ⟨s', hstep, hvalid, -⟩ := hs.allocatePageRange (s.numMetadataPages numMetadataBytes)
  rw [PageSystem.step, hallocate] at hstep
  obtain rfl := some.inj hstep
  refine ⟨range, _, ?_, hvalid, ?_, PageManager.allocatePageRange_numPages hallocate, rfl, hunchk,
    hpages.trans (add_comm _ _)⟩
  · exact bind_eq_some_iff.mpr ⟨(range, pm), hallocate, rfl⟩
  · -- an allocation does not add entries, so the estimate still covers them
    have hentries : pm.freeSpaceManager.entries.length ≤
        s.pageManager.freeSpaceManager.entries.length := by
      rw [hv.numEntries_eq, hs.manager.numEntries_eq] at hnum
      rw [entries, entries, length_append, length_append, hunchk]
      omega
    have hbytes : pm.freeSpaceManager.serialize.flatten.length ≤
        s.pageManager.freeSpaceManager.getMaxNumPagesForSerialization * lbugPageSize := by
      have := s.pageManager.freeSpaceManager.le_getMaxNumPagesForSerialization
      rw [length_serialize]
      omega
    rw [hrange]
    exact getNumPagesToFlush_add_le hbytes

/-- The page count of the file handle when the header is written. -/
def recordedNumPages (s : PageSystem) (metadataPageRange : Option PageRange)
    (numMetadataBytes : ℕ) : ℕ :=
  let s := match metadataPageRange with
    | some range => { s with pageManager := s.pageManager.freePageRange range }
    | none => s
  s.pageManager.numPages + s.pageManager.numPagesToAdd (s.numMetadataPages numMetadataBytes)

/-- **Writing the metadata.** The pages suffice, the old pages wait, and those that were free are
free or in use by the new metadata. -/
theorem Valid.checkpointMetadata (hs : s.Valid) {metadataPageRange : Option PageRange}
    (hmetadata : ∀ r, metadataPageRange = some r → r ∈ s.owned ∧ 0 < r.numPages)
    (numMetadataBytes : ℕ) :
    ∃ range s', s.checkpointMetadata metadataPageRange numMetadataBytes =
        some (range, s'.pageManager.freeSpaceManager.serialize.flatten, s') ∧ s'.Valid ∧
      getNumPagesToFlush (numMetadataBytes +
        s'.pageManager.freeSpaceManager.serialize.flatten.length) ≤ range.numPages ∧
      s'.pageManager.numPages = s.recordedNumPages metadataPageRange numMetadataBytes ∧
      pagesOf metadataPageRange.toList + pagesOf s'.owned = range.pages + pagesOf s.owned ∧
      pagesOf s'.uncheckpointed = pagesOf s.uncheckpointed + pagesOf metadataPageRange.toList ∧
      range.pages + pagesOf s'.free = pagesOf s.free + PageRange.pages
        ⟨s.pageManager.numPages, s'.pageManager.numPages - s.pageManager.numPages⟩ := by
  cases metadataPageRange with
  | none =>
    obtain ⟨range, s', hserialize, hvalid, hfit, hnum, howned, hunchk, hpages⟩ :=
      hs.serializeMetadata numMetadataBytes
    refine ⟨range, s', hserialize, hvalid, hfit, hnum, ?_, ?_, hpages⟩
    · rw [howned, toList_none, pagesOf_nil, zero_add, pagesOf_cons]
    · rw [hunchk, toList_none, pagesOf_nil, add_zero]
  | some r =>
    -- the range of the last checkpoint is freed first
    obtain ⟨hmem, hpos⟩ := hmetadata r rfl
    have hallowed : s.Allowed (.freePageRange r r) := ⟨hmem, hpos, Nat.le_refl _, Nat.le_refl _⟩
    obtain ⟨s1, hfree, hvalid1, -⟩ := hs.freePageRange hallowed
    obtain ⟨range, s', hserialize, hvalid, hfit, hnum, howned, hunchk, hpages⟩ :=
      hvalid1.serializeMetadata numMetadataBytes
    have hs1 := some.inj hfree
    refine ⟨range, s', ?_, hvalid, hfit, ?_, ?_, ?_, ?_⟩
    · rw [← hserialize, ← hs1]
      rfl
    · rw [hnum, ← hs1]
      rfl
    · have hrelease := pagesOf_release hmem (Nat.le_refl r.startPageIdx) (Nat.le_refl r.stop)
      have howned1 : s1.owned = release s.owned r r := by rw [← hs1]
      rw [howned, pagesOf_cons, howned1, hrelease, toList_some, pagesOf_cons, pagesOf_nil, add_zero]
      abel
    · have hunchk1 : s1.uncheckpointed = s.uncheckpointed ++ [r] := by rw [← hs1]; rfl
      rw [hunchk, hunchk1, pagesOf_append, toList_some]
    · rw [← hs1] at hpages
      exact hpages

lemma mem_pages_of_owned {p : ℕ} (h : p ∈ pagesOf s.owned) : p ∈ s.pages := by
  rw [pages, held, pagesOf_append, add_assoc, add_assoc]
  exact mem_add.mpr (.inl h)

lemma owned_entries_le_pages (s : PageSystem) :
    pagesOf s.owned + (pagesOf s.free + pagesOf s.uncheckpointed) ≤ s.pages := by
  rw [pages, held, pagesOf_append, add_assoc (_ + _)]
  exact add_le_add_left (le_add_right _ _) _

/-! ### Opening the file again -/

/-- Every page that the page manager counts is in use, free or waiting. -/
def Accounted (s : PageSystem) (live : List PageRange) : Prop :=
  ∀ p < s.pageManager.numPages, p ∈ pagesOf live + (pagesOf s.free + pagesOf s.uncheckpointed)

/-- Taking a live range out leaves the others. -/
lemma pagesOf_diff {range : Option PageRange} (h : ∀ r, range = some r → r ∈ live) :
    pagesOf live = pagesOf range.toList + pagesOf (live.diff range.toList) := by
  cases range with
  | none => simp
  | some r =>
    rw [toList_some, diff_cons, diff_nil, ← pagesOf_append]
    exact pagesOf_perm (perm_cons_erase (h r rfl))

/-- What was free or waiting when the metadata was written is free when the file is opened. -/
lemma Valid.readCheckpoint (hs : s.Valid) (hlive : pagesOf live ≤ pagesOf s.owned)
    {numFilePages : ℕ} (hle : s.pageManager.numPages ≤ numFilePages) (hlt : numFilePages < 2 ^ 32) :
    ∃ pm, PageManager.readCheckpoint numFilePages
        s.pageManager.freeSpaceManager.serialize.flatten = some pm ∧
      Valid { pageManager := pm, owned := live } ∧
      pagesOf pm.freeSpaceManager.freeLists.flatten =
        pagesOf s.free + pagesOf s.uncheckpointed := by
  have hpages : pagesOf (live ++ s.pageManager.freeSpaceManager.entries) ≤ s.pages := by
    rw [pagesOf_append, pagesOf_entries, pages, held, pagesOf_append, add_assoc (_ + _)]
    exact add_le_add_left (hlive.trans (le_add_right _ _)) _
  have hfits : ∀ r ∈ s.pageManager.freeSpaceManager.entries, FreeSpaceManager.Fits r := by
    intro r hr
    have hstop := hs.stop_le s.entries_le_pages hr (hs.entries_pos r hr)
    simp only [PageRange.stop] at hstop
    constructor <;> omega
  have hlen : s.pageManager.freeSpaceManager.entries.length < 2 ^ 64 := by
    have := hs.length_entries_le
    omega
  have hreads := parses_serialize hs.manager hfits hlen
  obtain ⟨pm, hpm, hvalid, hfree⟩ := Valid.deserialize hs.entries_pos
    (nodup_pagesOf_iff.mp (nodup_of_le hpages hs.nodup))
    fun r hr hpos => (hs.stop_le hpages hr hpos).trans hle
  refine ⟨pm, ?_, hvalid, hfree.trans s.pagesOf_entries⟩
  rw [PageManager.readCheckpoint, hreads.feed]
  exact hpm

section Accounting

variable {rest : List PageRange} {old : Multiset ℕ}

/-- **Accounting.** After the metadata was written, the pages of the file that are free or waiting
are those that are not in use, exactly if no page was lost before and the file is not longer than
the page manager knows. -/
theorem Valid.free_iff_accounted (hvalid : s'.Valid) (numFilePages : ℕ)
    (hlive : pagesOf live = old + pagesOf rest)
    (hlive' : pagesOf (range :: rest) ≤ pagesOf s'.owned)
    (hunchk : pagesOf s'.uncheckpointed = pagesOf s.uncheckpointed + old)
    (hle : s.pageManager.numPages ≤ s'.pageManager.numPages)
    (hpages : range.pages + pagesOf s'.free = pagesOf s.free + PageRange.pages
      ⟨s.pageManager.numPages, s'.pageManager.numPages - s.pageManager.numPages⟩) :
    (∀ p < max numFilePages s'.pageManager.numPages,
        p ∈ pagesOf s'.free + pagesOf s'.uncheckpointed ↔ p ∉ pagesOf (range :: rest)) ↔
      s.Accounted live ∧ numFilePages ≤ s'.pageManager.numPages := by
  -- the new metadata is in free pages or in new ones
  have hnew : ∀ p, p ∈ range.pages ∨ p ∈ pagesOf s'.free ↔
      p ∈ pagesOf s.free ∨ (s.pageManager.numPages ≤ p ∧ p < s'.pageManager.numPages) := by
    intro p
    rw [← mem_add, hpages, mem_add, PageRange.mem_pages]
    apply or_congr_right
    simp only [PageRange.stop]
    omega
  simp only [Accounted, hlive, hunchk, pagesOf_cons, mem_add]
  constructor
  · intro hequal
    constructor
    · -- a page is free or in use afterwards, so it was in use, free or waiting before
      intro p hp
      have hiff := hequal p (Nat.lt_of_lt_of_le hp (hle.trans (Nat.le_max_right _ _)))
      grind
    · -- the first page behind those that are counted is neither free nor in use
      by_contra hlonger
      have hiff := hequal s'.pageManager.numPages (lt_max_of_lt_left (Nat.not_le.mp hlonger))
      rw [← mem_add, ← mem_add, ← mem_add, ← hunchk, ← pagesOf_cons] at hiff
      have hnotFree : s'.pageManager.numPages ∉ pagesOf s'.free + pagesOf s'.uncheckpointed := by
        rw [← pagesOf_entries]
        intro hp
        exact absurd (hvalid.lt_numPages _ (mem_of_le s'.entries_le_pages hp)) (Nat.lt_irrefl _)
      have hnotLive : s'.pageManager.numPages ∉ pagesOf (range :: rest) := by
        intro hp
        exact absurd (hvalid.lt_numPages _ (mem_pages_of_owned (mem_of_le hlive' hp)))
          (Nat.lt_irrefl _)
      exact hnotFree (hiff.mpr hnotLive)
  · rintro ⟨haccounted, hshort⟩ p hp
    rw [max_eq_right hshort] at hp
    constructor
    · -- no page is there twice
      intro hfree hinUse
      rw [← mem_add, ← mem_add, ← hunchk] at hfree
      rw [← mem_add, ← pagesOf_cons] at hinUse
      have hnodup := nodup_of_le s'.owned_entries_le_pages hvalid.nodup
      exact disjoint_left.mp (nodup_add.mp hnodup).2.2 (mem_of_le hlive' hinUse) hfree
    · intro hinUse
      by_cases hpold : p < s.pageManager.numPages
      · have hacc := haccounted p hpold
        grind
      · have hge : s.pageManager.numPages ≤ p ∧ p < s'.pageManager.numPages := by omega
        grind

end Accounting

end PageSystem

/-- **The free pages in a checkpoint.** A checkpoint of a file whose pages `live` are in use by
tables, indexes, the catalog or the metadata finds room for its metadata.  When the file is opened
again, no free page is in use, and the free pages are all pages of the file that are not in use,
exactly if before the checkpoint every page was in use, free or waiting, and the file had no more
pages than the file handle counts when the header is written. -/
theorem dataFile_roundTrip (d : DataFile) (numMetadataBytes : ℕ) (live : List PageRange)
    (hd : d.system.Valid) (hlive : pagesOf live ≤ pagesOf d.system.owned)
    (hmetadata : ∀ r, d.metadataPageRange = some r →
      r ∈ d.system.owned ∧ r ∈ live ∧ 0 < r.numPages) :
    ∃ bytes d' range, d.writeCheckpoint numMetadataBytes = some (bytes, d') ∧
      d'.metadataPageRange = some range ∧
      getNumPagesToFlush (numMetadataBytes + bytes.length) ≤ range.numPages ∧
      (d'.numFilePages < 2 ^ 32 →
        ∃ pm, PageManager.readCheckpoint d'.numFilePages bytes = some pm ∧
          PageSystem.Valid
            { pageManager := pm, owned := range :: live.diff d.metadataPageRange.toList } ∧
          ((∀ p < d'.numFilePages, p ∈ pagesOf pm.freeSpaceManager.freeLists.flatten ↔
              p ∉ pagesOf (range :: live.diff d.metadataPageRange.toList)) ↔
            d.system.Accounted live ∧ d.numFilePages ≤
              d.system.recordedNumPages d.metadataPageRange numMetadataBytes)) := by
  obtain ⟨range, s', hcheckpoint, hvalid, hfit, hnum, howned, hunchk, hpages⟩ :=
    hd.checkpointMetadata (fun r hr => ⟨(hmetadata r hr).1, (hmetadata r hr).2.2⟩) numMetadataBytes
  obtain ⟨s'', hfinalize, -⟩ := hvalid.finalizeCheckpoint
  refine ⟨s'.pageManager.freeSpaceManager.serialize.flatten,
    { system := s''
      metadataPageRange := some range
      numFilePages := max d.numFilePages s'.pageManager.numPages }, range, ?_, rfl, hfit, ?_⟩
  · exact bind_eq_some_iff.mpr ⟨_, hcheckpoint, bind_eq_some_iff.mpr ⟨s'', hfinalize, rfl⟩⟩
  intro hlt
  have hdiff := PageSystem.pagesOf_diff fun r hr => (hmetadata r hr).2.1
  set rest := live.diff d.metadataPageRange.toList
  set old := pagesOf d.metadataPageRange.toList
  -- the ranges in use afterwards are ranges that were handed out
  have hlive' : pagesOf (range :: rest) ≤ pagesOf s'.owned := by
    rw [pagesOf_cons]
    have h : old + (range.pages + pagesOf rest) ≤ old + pagesOf s'.owned := by
      rw [howned, add_left_comm, ← hdiff]
      exact add_le_add_right hlive _
    exact Multiset.add_le_add_iff_left.mp h
  obtain ⟨pm, hread, hopened, hfree⟩ := hvalid.readCheckpoint hlive' (Nat.le_max_right _ _) hlt
  refine ⟨pm, hread, hopened, ?_⟩
  have hle : d.system.pageManager.numPages ≤ s'.pageManager.numPages := by
    rw [hnum]
    cases d.metadataPageRange <;> exact Nat.le_add_right _ _
  rw [hfree, ← hnum]
  exact hvalid.free_iff_accounted d.numFilePages hdiff hlive' hunchk hle hpages

lemma DataFile.new_valid : new.system.Valid := by
  refine ⟨⟨by simp [new], by simp [new], rfl⟩, by simp [new], ?_, ?_⟩
  · decide
  · decide

/-- The first checkpoint of a new file. -/
theorem dataFile_roundTrip_new :
    ∃ bytes d' range pm, new.writeCheckpoint 100 = some (bytes, d') ∧
      PageManager.readCheckpoint d'.numFilePages bytes = some pm ∧
      ∀ p < d'.numFilePages, p ∈ pagesOf pm.freeSpaceManager.freeLists.flatten ↔
        p ∉ pagesOf [range, ⟨0, 1⟩] := by
  obtain ⟨bytes, d', range, hwrite, -, -, hopen⟩ :=
    dataFile_roundTrip new 100 [⟨0, 1⟩] DataFile.new_valid le_rfl nofun
  have hsize : d'.numFilePages = 3 := by
    have h : (new.writeCheckpoint 100).map (·.2.numFilePages) = some 3 := by
      decide +kernel
    rw [hwrite] at h
    exact some.inj h
  obtain ⟨pm, hread, -, hiff⟩ := hopen (by rw [hsize]; decide)
  have haccounted : new.system.Accounted [⟨0, 1⟩] := by
    unfold PageSystem.Accounted
    decide
  exact ⟨bytes, d', range, pm, hwrite, hread, hiff.mpr ⟨haccounted, by decide +kernel⟩⟩

/-- The fourth checkpoint of a file.  The third one gave up the pages 3 to 5 at the end, which are
still in the file; the fourth one uses two of them, and page 5 is lost. -/
theorem dataFile_roundTrip_lostPage :
    ∃ d bytes d' pm,
      [DataFile.Action.writeCheckpoint 100, .writeCheckpoint 5000, .writeCheckpoint 100].foldlM
        act new = some d ∧
      d.writeCheckpoint 100 = some (bytes, d') ∧
      PageManager.readCheckpoint d'.numFilePages bytes = some pm ∧
      5 < d'.numFilePages ∧ 5 ∉ pagesOf pm.freeSpaceManager.freeLists.flatten ∧
      5 ∉ pagesOf d'.system.owned := by
  refine ⟨{
      system := {
        pageManager := { numPages := 3, version := 3 }
        owned := [⟨1, 2⟩, ⟨3, 0⟩, ⟨6, 0⟩, ⟨1, 0⟩, ⟨3, 0⟩, ⟨0, 1⟩] }
      metadataPageRange := some ⟨1, 2⟩
      numFilePages := 6 },
    [1, 0, 0, 0, 0, 0, 0, 0, 1, 0, 0, 0, 2, 0, 0, 0], {
      system := {
        pageManager := {
          freeSpaceManager := { freeLists := [[], [⟨1, 2⟩]], numEntries := 1 }
          numPages := 5
          version := 4 }
        owned := [⟨3, 2⟩, ⟨1, 0⟩, ⟨3, 0⟩, ⟨3, 0⟩, ⟨6, 0⟩, ⟨1, 0⟩, ⟨3, 0⟩, ⟨0, 1⟩] }
      metadataPageRange := some ⟨3, 2⟩
      numFilePages := 6 }, {
      freeSpaceManager := { freeLists := [[], [⟨1, 2⟩]], numEntries := 1 }
      numPages := 6 }, ?_, ?_, ?_, by decide, by decide, by decide⟩
  · decide +kernel
  · decide +kernel
  · decide +kernel

/-! ### The writer of the metadata -/

namespace InMemFileWriter

variable {w : InMemFileWriter} {bytes remaining : List UInt8} {size : ℕ}

/-- What was written: full pages, and a last one that is not empty. -/
inductive Holds : InMemFileWriter → List UInt8 → Prop
  | empty : Holds {} []
  | pages {full : List (List UInt8)} {last : List UInt8}
      (hfull : ∀ page ∈ full, page.length = lbugPageSize) (hpos : last ≠ [])
      (hle : last.length ≤ lbugPageSize) :
      Holds ⟨full ++ [last], last.length⟩ (full ++ [last]).flatten

lemma length_flatten_full {full : List (List UInt8)}
    (hfull : ∀ page ∈ full, page.length = lbugPageSize) :
    full.flatten.length = full.length * lbugPageSize := by
  rw [length_flatten, ← length_map length]
  exact sum_eq_card_nsmul _ _ (by simpa using hfull)

section

variable (h : w.Holds bytes)

include h

lemma Holds.flatten_eq : w.pages.flatten = bytes := by
  cases h <;> rfl

lemma Holds.getNumPagesToFlush_eq :
    w.getNumPagesToFlush = Ladybug.getNumPagesToFlush bytes.length := by
  cases h with
  | empty => rfl
  | @pages full last hfull hpos hle =>
    have hlast := length_pos_iff.mpr hpos
    rw [Ladybug.getNumPagesToFlush, flatten_concat, length_append, length_flatten_full hfull,
      getNumPagesToFlush, length_append, length_singleton]
    unfold lbugPageSize at hle ⊢
    omega

/-- A turn of the loop has a page to write to.  In the first one all data remains, and later ones
begin behind a full page. -/
lemma Holds.newBuffer (hne : remaining ≠ [])
    (hsize : remaining.length = size ∨ w.pageOffset = lbugPageSize ∧ 0 < size) :
    ∃ full last remaining', w.newBuffer size remaining =
        (remaining', ⟨full ++ [last], last.length⟩) ∧
      (∀ page ∈ full, page.length = lbugPageSize) ∧ last.length < lbugPageSize ∧
      remaining' ≠ [] ∧ remaining'.length ≤ remaining.length ∧
      bytes ++ remaining = (full ++ [last]).flatten ++ remaining' := by
  cases h with
  | empty => exact ⟨[], [], remaining, rfl, by simp, by decide, hne, le_rfl, rfl⟩
  | @pages full last hfull hpos hle =>
    have hlen := length_pos_iff.mpr hne
    unfold newBuffer needNewBuffer
    by_cases hroom : last.length + size > lbugPageSize
    · -- the last page is filled
      have hcopy : min size (lbugPageSize - last.length) = lbugPageSize - last.length := by omega
      have hlt : lbugPageSize - last.length < remaining.length := by
        rcases hsize with hsize | ⟨hfilled, -⟩
        · omega
        · rw [show last.length = lbugPageSize from hfilled]
          omega
      refine ⟨full ++ [last ++ remaining.take (lbugPageSize - last.length)], [],
        remaining.drop (lbugPageSize - last.length), ?_, fun page hpage => ?_, by decide, ?_,
        (drop_sublist _ _).length_le, ?_⟩
      · simp [hroom, hcopy, modifyLast_concat]
      · rcases mem_append.mp hpage with hpage | hpage
        · exact hfull page hpage
        · rw [List.mem_singleton.mp hpage, length_append, length_take]
          omega
      · exact length_pos_iff.mp (by rw [length_drop]; omega)
      · simp [take_append_drop]
    · -- all of the data fits on the last page
      refine ⟨full, last, remaining, by simp [hroom], hfull, ?_, hne, le_rfl, rfl⟩
      rcases hsize with hsize | ⟨hfilled, hsize⟩
      · omega
      · rw [show last.length = lbugPageSize from hfilled] at hroom
        omega

/-- The loop writes all that remains. -/
lemma Holds.writeLoop {fuel : ℕ}
    (hsize : remaining ≠ [] → remaining.length = size ∨ w.pageOffset = lbugPageSize ∧ 0 < size)
    (hfuel : remaining.length ≤ fuel) :
    (writeLoop size fuel remaining w).Holds (bytes ++ remaining) := by
  induction fuel generalizing w bytes remaining with
  | zero =>
    obtain rfl := length_eq_zero_iff.mp (Nat.le_zero.mp hfuel)
    rwa [append_nil]
  | succ fuel ih =>
    rw [writeLoop]
    by_cases hne : remaining = []
    · subst hne
      rwa [append_nil]
    · have hsize := hsize hne
      obtain ⟨full, last, remaining', hnew, hfull, hlt, hne', hle, hbytes⟩ := h.newBuffer hne hsize
      rw [if_neg (by simpa using hne), hnew, hbytes]
      have hpos' := length_pos_iff.mpr hne'
      set toCopy := min remaining'.length (lbugPageSize - last.length) with htoCopy
      have hlast : (last ++ remaining'.take toCopy).length = last.length + toCopy := by
        rw [length_append, length_take]
        omega
      -- what is copied stays in order
      have hcopied : (full ++ [last]).flatten ++ remaining' =
          (full ++ [last ++ remaining'.take toCopy]).flatten ++ remaining'.drop toCopy := by
        simp [take_append_drop]
      simp only [modifyLast_concat, ← htoCopy, ← hlast, hcopied]
      refine ih (.pages hfull ?_ ?_) (fun hdrop => .inr ⟨?_, by omega⟩) ?_
      · exact length_pos_iff.mp (by omega)
      · omega
      · -- something remains only when the page is full
        have := length_pos_iff.mpr hdrop
        rw [length_drop] at this
        show (last ++ remaining'.take toCopy).length = lbugPageSize
        omega
      · rw [length_drop]
        omega

/-- A write appends its bytes. -/
lemma Holds.write (data : List UInt8) : (w.write data).Holds (bytes ++ data) :=
  h.writeLoop (fun _ => .inl rfl) le_rfl

lemma Holds.foldl_write (datas : List (List UInt8)) :
    (datas.foldl InMemFileWriter.write w).Holds (bytes ++ datas.flatten) := by
  induction datas generalizing w bytes with
  | nil => simpa using h
  | cons data datas ih =>
    rw [List.foldl_cons, flatten_cons, ← append_assoc]
    exact ih (h.write data)

end

/-- **The pages of the writer hold what was written.**  Cut at the page offset they are the data of
all writes, `getSize` is its length, and a range with enough pages gets it page by page. -/
theorem inMemFileWriter_flush (datas : List (List UInt8)) (behind : List UInt8) (range : PageRange)
    (hrange : (datas.foldl write {}).getNumPagesToFlush ≤ range.numPages) :
    ((datas.foldl write {}).flushTo behind).flatten = datas.flatten ∧
    (datas.foldl write {}).getSize = datas.flatten.length ∧
    ((datas.foldl write {}).flush behind range).map Prod.snd =
      List.range' range.startPageIdx range.numPages ∧
    datas.flatten <+: (((datas.foldl write {}).flush behind range).map Prod.fst).flatten := by
  have h := Holds.empty.foldl_write datas
  rw [List.nil_append] at h
  generalize datas.foldl write {} = w, datas.flatten = bytes at h hrange ⊢
  rw [getNumPagesToFlush] at hrange
  rw [flush, zipIdx_map_snd, zipIdx_map_fst, length_append, length_map, length_replicate,
    getNumPagesToFlush, Nat.add_sub_cancel' hrange]
  cases h with
  | empty => exact ⟨rfl, rfl, rfl, nil_prefix⟩
  | @pages full last hfull hpos hle =>
    have hmap : full.map (fun page => (page ++ behind).take lbugPageSize) = full := by
      refine (map_congr_left fun page hpage => ?_).trans (map_id' full)
      rw [← hfull page hpage, take_left]
    refine ⟨?_, ?_, rfl, ?_⟩
    · simp [flushTo, hmap]
    · simp only [getSize, flatten_concat, length_append, length_flatten_full hfull,
        length_singleton, Nat.add_sub_cancel, Nat.mul_comm full.length]
      split_ifs with hlen
      · rfl
      · rw [show full.length = 0 by omega, Nat.mul_zero]
    · rw [map_append, hmap, append_assoc, flatten_append, flatten_append, prefix_append_right_inj,
        flatten_append]
      refine IsPrefix.trans ?_ (prefix_append _ _)
      simpa [prefix_take_iff] using hle

theorem inMemFileWriter_flush_two :
    ((([[1], [2, 3]] : List (List UInt8)).foldl write {}).flush [] ⟨7, 1⟩).map Prod.snd = [7] :=
  (inMemFileWriter_flush [[1], [2, 3]] [] ⟨7, 1⟩ (by decide)).2.2.1

end InMemFileWriter

/-- **The pages for the metadata suffice.** In every run from an opened file and for all storage
metadata, the metadata and the free ranges after the allocation fit into the pages that were
allocated before. -/
theorem checkpointer_serializeMetadata (f : OpenedFile) : f.Always fun s =>
    ∀ metadata, ∃ range w s', Checkpointer.serializeMetadata s metadata = some (range, w, s') ∧
      w.pages.flatten = metadata.flatten ++ s'.pageManager.freeSpaceManager.serialize.flatten ∧
      w.getNumPagesToFlush ≤ range.numPages := by
  refine f.always (fun _ => True) (fun _ _ => trivial) (fun _ _ _ _ _ => trivial)
    fun s hs _ metadata => ?_
  obtain ⟨range, s', hserialize, -, hle, -⟩ := hs.serializeMetadata metadata.flatten.length
  have hdata := InMemFileWriter.Holds.empty.foldl_write metadata
  have hw := hdata.foldl_write s'.pageManager.freeSpaceManager.serialize
  rw [List.nil_append] at hdata hw
  refine ⟨range, _, s', ?_, hw.flatten_eq, ?_⟩
  · -- the code counts the pages of the metadata that is written, the model its bytes
    rw [PageSystem.serializeMetadata, ← hdata.getNumPagesToFlush_eq] at hserialize
    rw [Checkpointer.serializeMetadata]
    cases hrange : s.pageManager.allocatePageRange _ with
    | none => simp [hrange] at hserialize
    | some x =>
      rw [hrange] at hserialize
      obtain ⟨rfl, hrest⟩ := Prod.mk.inj (some.inj hserialize)
      obtain ⟨-, rfl⟩ := Prod.mk.inj hrest
      rfl
  · rwa [hw.getNumPagesToFlush_eq, length_append]

end Ladybug
