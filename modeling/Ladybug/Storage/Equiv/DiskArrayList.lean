import Ladybug.Storage.Equiv.DiskArray
import Mathlib.Data.List.Nodup

/-!
# A disk array is a list

`Layout` says how the pages of a disk array hang together, `Contents` what lies in them. Every
action keeps both, so that a disk array is a pair of lists: the list of the last checkpoint and the
current list of the writer (`run_get`).
-/

namespace Ladybug

open Paging Function ShadowFile Option
open List hiding getElem?_eq_some_iff

variable {V : Type} {k m : ℕ} {alloc : ℕ → ℕ}

/-- What a disk array stands for: the list of the last checkpoint and the list of the writer.  The
writer has `written` since the last checkpoint or rollback. -/
structure ListPair (V : Type) where
  checkpointed : List V
  current : List V
  written : Bool
  deriving DecidableEq

variable {v : V} {i n n' p apIdx j a : ℕ} {α : Type} {ckpt cur : List V} {P aps aps' : List ℕ}
  {s s' : DiskArray V} {sf : ShadowFile V} {written : Bool}

namespace DiskArray

/-! ### The layout -/

/-- The allocator has returned page `p`. -/
def Allocated (alloc : ℕ → ℕ) (s : DiskArray V) (p : ℕ) : Prop := ∃ j < s.numAllocated, alloc j = p

/-- The pages of a disk array that had `n` elements at the last checkpoint and has `n'` now; `aps`
are its array pages. -/
structure Layout (k m : ℕ) (alloc : ℕ → ℕ) (s : DiskArray V) (aps : List ℕ) (n n' : ℕ) : Prop where
  numElements : s.header.numElements = n
  numElementsForWriteTrx : s.headerForWriteTrx.numElements = n'
  le : n ≤ n'
  length_aps : aps.length = numPages k n'
  pips : Represents m (s.pips.map PIPWrapper.table) (aps.take (numPages k n))
  tables : Represents m s.tables aps
  updatedLast : s.UpdatedLast
  linked : s.Linked
  lastAP : ∀ p ∈ s.lastAPPageIdx, aps.getLast? = some p ∨ n' % k = 0 ∧ n' = n
  nodup : (aps ++ s.pipPages).Nodup
  allocated : ∀ p ∈ aps ++ s.pipPages, s.Allocated alloc p

section

variable (h : s.Layout k m alloc aps n n')

include h

/-- The layout depends on headers and PIPs only. -/
lemma Layout.congr (hs : SameLayout s s') : s'.Layout k m alloc aps n n' := by
  have hpips : s'.checkpointedPIPs = s.checkpointedPIPs := by
    unfold checkpointedPIPs
    rw [hs.pips, hs.pipUpdates]
  exact {
    numElements := by rw [hs.header, h.numElements]
    numElementsForWriteTrx := by rw [hs.headerForWriteTrx, h.numElementsForWriteTrx]
    le := h.le
    length_aps := h.length_aps
    pips := by rw [hs.pips]; exact h.pips
    tables := by rw [DiskArray.tables, hpips]; exact h.tables
    updatedLast := by
      rw [UpdatedLast, hs.pips, hs.pipUpdates]
      exact h.updatedLast
    linked := by
      rw [Linked, hs.pips, hs.pipUpdates]
      exact h.linked
    lastAP := by rw [hs.lastAPPageIdx]; exact h.lastAP
    nodup := by rw [pipPages, hpips]; exact h.nodup
    allocated := by
      rw [pipPages, hpips]
      unfold Allocated
      rw [hs.numAllocated]
      exact h.allocated }

/-- The writer finds every array page. -/
lemma Layout.getAPPageIdx (hp : aps[apIdx]? = some p) :
    s.getAPPageIdx m apIdx .checkpoint = some p := by
  obtain ⟨hlt, rfl⟩ := getElem?_eq_some_iff.mp hp
  rw [getAPPageIdx_checkpoint h.updatedLast, h.tables.lookup_eq _ hlt]

/-- A reader finds the array pages of the last checkpoint. -/
lemma Layout.getAPPageIdx_readOnly (hlt : apIdx < numPages k n)
    (hp : aps[apIdx]? = some p) : s.getAPPageIdx m apIdx .readOnly = some p := by
  rw [← List.getElem?_take_of_lt hlt] at hp
  obtain ⟨hlt', heq⟩ := getElem?_eq_some_iff.mp hp
  rw [DiskArray.getAPPageIdx_readOnly, h.pips.lookup_eq _ hlt', heq]

end

/-- Every element has an array page. -/
lemma Layout.exists_page (hk : 0 < k)
    (h : s.Layout k m alloc aps n n') (hi : i < n') : ∃ p, aps[i / k]? = some p := by
  have hlt : i / k < aps.length := by
    rw [h.length_aps]
    exact div_lt_numPages hk hi
  exact ⟨aps[i / k], getElem?_eq_getElem hlt⟩

/-- A page that the allocator returns is a new one. -/
lemma Layout.fresh (h : s.Layout k m alloc aps n n') (halloc : Injective alloc)
    (hj : s.numAllocated ≤ j) : alloc j ∉ aps ++ s.pipPages := by
  intro hmem
  obtain ⟨i, hi, heq⟩ := h.allocated _ hmem
  have := halloc heq
  omega

/-- The iterator holds the frame of the array page under its cursor. -/
def IterOk (s : DiskArray V) (aps : List ℕ) (it : WriteIterator) : Prop :=
  ∀ a ∈ it.apIdx, ∃ p frame, aps[a]? = some p ∧ it.frame = some frame ∧ s.FrameFor p frame

lemma iterOk_mk {frame : Frame} (hp : aps[a]? = some p) (hframe : s.FrameFor p frame) :
    s.IterOk aps ⟨some a, some frame⟩ := by
  intro b hb
  obtain rfl := some.inj hb
  exact ⟨p, frame, hp, rfl, hframe⟩

/-- Element `slot` of page `p` is written. -/
structure Writes (s s' : DiskArray V) (p slot : ℕ) (v : V) : Prop extends Changes s s' p where
  slot_self : (s'.view p).slot slot = some v
  slot_ne : ∀ j, j ≠ slot → (s'.view p).slot j = (s.view p).slot j

/-- A write through the frame of a page, which is pinned now or was pinned before. -/
lemma writes_of_getPage (hok : s.shadowFile.Ok) (p slot : ℕ) (v : V) :
    SameLayout s ((s.getPage p false).2.writeFrame slot v (s.getPage p false).1) ∧
      Writes s ((s.getPage p false).2.writeFrame slot v (s.getPage p false).1) p slot v ∧
      FrameFor ((s.getPage p false).2.writeFrame slot v (s.getPage p false).1) p
        (s.getPage p false).1 := by
  obtain ⟨hlayout, hchanges, hframe, hview⟩ := getPage_spec hok p false
  obtain ⟨hlayout', hchanges', hview'⟩ := writeFrame_spec hchanges.ok hframe slot v
  refine ⟨hlayout.trans hlayout', ⟨hchanges.trans hchanges', ?_, fun j hj => ?_⟩,
    hframe.mono hchanges'⟩
  · rw [hview', Page.slot_setSlot_self]
  · rw [hview', Page.slot_setSlot_of_ne hj, hview rfl]

variable {cur' : List V} {it : WriteIterator}

/-- A write through the iterator sets one element. -/
lemma seekAndWrite_spec (hk : 0 < k) (h : s.Layout k m alloc aps n n') (hok : s.shadowFile.Ok)
    (hit : s.IterOk aps it) (hi : i < n') (v : V) :
    ∃ it' s' p, seekAndWrite k m it s i v = some (it', s') ∧ aps[i / k]? = some p ∧
      SameLayout s s' ∧ Writes s s' p (i % k) v ∧ s'.IterOk aps it' := by
  obtain ⟨p, hp⟩ := h.exists_page hk hi
  unfold seekAndWrite
  by_cases hcur : it.apIdx = some (i / k)
  · -- the page is pinned
    obtain ⟨p', frame, hp', hframe, hfor⟩ := hit _ hcur
    obtain rfl : p' = p := some.inj (hp'.symm.trans hp)
    obtain ⟨hlayout, hchanges, hview⟩ := writeFrame_spec hok hfor (i % k) v
    have hwrites : Writes s _ p' (i % k) v :=
      ⟨hchanges, by rw [hview, Page.slot_setSlot_self],
        fun j hj => by rw [hview, Page.slot_setSlot_of_ne hj]⟩
    refine ⟨⟨some (i / k), some frame⟩, _, p', ?_, hp, hlayout, hwrites,
      iterOk_mk hp (hfor.mono hchanges)⟩
    rw [if_pos hcur, hframe]
    rfl
  · obtain ⟨hlayout, hwrites, hfor⟩ := writes_of_getPage hok p (i % k) v
    refine ⟨⟨some (i / k), some (s.getPage p false).1⟩, _, p, ?_, hp, hlayout, hwrites,
      iterOk_mk hp hfor⟩
    rw [if_neg hcur, h.getAPPageIdx hp]
    rfl

/-- `pushBack` gets the array page `p` of the new element, which may be a new page. -/
structure PageForPush (k m : ℕ) (alloc : ℕ → ℕ) (s : DiskArray V) (aps : List ℕ) (n n' p : ℕ)
    (isNewlyAdded : Bool) (s₁ : DiskArray V) (aps' : List ℕ) : Prop where
  get : s.getAPPageIdxAndAddAPToPIPIfNecessary k m alloc (n' / k) = some ((p, isNewlyAdded), s₁)
  sameContents : SameContents s s₁
  hasTransactionalUpdates : s₁.hasTransactionalUpdates = s.hasTransactionalUpdates
  pips : s₁.pips = s.pips
  page : aps'[n' / k]? = some p
  aps_eq : isNewlyAdded = false ∧ aps' = aps ∧ s₁.numAllocated = s.numAllocated ∨
    isNewlyAdded = true ∧ aps' = aps ++ [p] ∧ n' % k = 0 ∧ p = alloc s.numAllocated ∧
      s.numAllocated < s₁.numAllocated
  layout : ∀ s' : DiskArray V, SameLayout { s₁ with
      lastAPPageIdx := some p
      headerForWriteTrx := { s₁.headerForWriteTrx with numElements := n' + 1 } } s' →
    s'.Layout k m alloc aps' n (n' + 1)

/-- The last array page has room. -/
lemma getAPPageIdxAndAddAPToPIPIfNecessary_room (hk : 0 < k) (h : s.Layout k m alloc aps n n')
    (hmod : n' % k ≠ 0) : ∃ p, PageForPush k m alloc s aps n n' p false s aps := by
  have hnum : s.headerForWriteTrx.getNumAPs k = n' / k + 1 := by
    rw [DiskArrayHeader.getNumAPs, h.numElementsForWriteTrx]
    exact numPages_of_mod_ne_zero hk hmod
  have hlen : aps.length = n' / k + 1 := by rw [h.length_aps, numPages_of_mod_ne_zero hk hmod]
  have hlt : n' / k < aps.length := by rw [hlen]; exact Nat.lt_succ_self _
  have hlast : aps.getLast? = some aps[n' / k] := by
    rw [getLast?_eq_getElem?, hlen, Nat.add_sub_cancel, getElem?_eq_getElem hlt]
  refine ⟨aps[n' / k], ?_, ⟨rfl, rfl, rfl, rfl⟩, rfl, rfl, getElem?_eq_getElem hlt,
    .inl ⟨rfl, rfl, rfl⟩, fun s' hs' => Layout.congr ?_ hs'⟩
  · rw [getAPPageIdxAndAddAPToPIPIfNecessary, hnum, decide_eq_true rfl]
    cases hap : s.lastAPPageIdx with
    | some p =>
      have hp := (h.lastAP p hap).resolve_right fun hfull => hmod hfull.1
      rw [hlast, Option.some.injEq] at hp
      rw [← hp]
    | none =>
      rw [if_pos (Nat.lt_succ_self _), h.getAPPageIdx (getElem?_eq_getElem hlt)]
      rfl
  · exact { h with
      numElementsForWriteTrx := rfl
      le := h.le.trans (Nat.le_succ _)
      length_aps := by rw [h.length_aps, numPages_succ_of_mod_ne_zero hk hmod]
      lastAP := fun q hq => by
        rw [mem_some_iff] at hq
        rw [hlast, hq]
        exact .inl rfl }

/-- The pages are full: a page is allocated, and maybe one for a new PIP. -/
lemma getAPPageIdxAndAddAPToPIPIfNecessary_full (hk : 0 < k) (hm : 0 < m)
    (h : s.Layout k m alloc aps n n') (halloc : Injective alloc) (hmod : n' % k = 0) :
    ∃ s₁, PageForPush k m alloc s aps n n' (alloc s.numAllocated) true s₁
      (aps ++ [alloc s.numAllocated]) := by
  have hnum : s.headerForWriteTrx.getNumAPs k = n' / k := by
    rw [DiskArrayHeader.getNumAPs, h.numElementsForWriteTrx]
    exact numPages_of_mod_eq_zero hk hmod
  have hlen : aps.length = n' / k := by rw [h.length_aps, numPages_of_mod_eq_zero hk hmod]
  have hle : numPages k n ≤ aps.length := by rw [h.length_aps]; exact numPages_mono hk h.le
  set p := alloc s.numAllocated
  set s0 : DiskArray V := { s with numAllocated := s.numAllocated + 1 }
  have hpips : s0.pips.length ≤ aps.length / m + 1 := by
    have hlenP := h.pips.length_eq
    rw [length_map, length_take, Nat.min_eq_left hle] at hlenP
    rw [hlenP]
    exact (numPages_mono hm hle).trans (numPages_le_div_succ hm _)
  obtain ⟨first, updates, c, hadd, hspec⟩ :=
    addAPToPIP_spec (s := s0) hm alloc h.updatedLast h.linked h.tables hpips p
  set s₁ : DiskArray V := { s0 with
    headerForWriteTrx := { s0.headerForWriteTrx with firstPIPPageIdx := first }
    pipUpdates := updates
    numAllocated := s.numAllocated + 1 + c } with hs1
  obtain ⟨htables, hlast, hlinked, hpages⟩ := hspec s₁ rfl rfl
  have hnumAllocated : s₁.numAllocated = s.numAllocated + (c + 1) := by simp [hs1]; omega
  -- all pages, the allocated ones last
  have hperm : aps ++ [p] ++ s₁.pipPages ~
      aps ++ s.pipPages ++ (range' s.numAllocated (c + 1)).map alloc := by
    rw [hpages, range'_succ, map_cons, append_assoc, singleton_append, append_assoc]
    exact perm_middle.symm.append_left aps
  refine ⟨s₁, ?_, ⟨rfl, rfl, rfl, rfl⟩, rfl, rfl, by rw [← hlen, getElem?_concat_length],
    .inr ⟨rfl, rfl, hmod, rfl, by omega⟩, fun s' hs' => Layout.congr ?_ hs'⟩
  · rw [getAPPageIdxAndAddAPToPIPIfNecessary, hnum, decide_eq_false (by omega)]
    have hrest : (if n' / k < n' / k then do
          let apPageIdx ← s.getAPPageIdx m (n' / k) .checkpoint
          return ((apPageIdx, false), s)
        else do
          let s ← s0.addAPToPIP m alloc (n' / k) p
          return ((p, true), s) : Option ((ℕ × Bool) × DiskArray V))
          = some ((p, true), s₁) := by
      rw [if_neg (lt_irrefl _), ← hlen]
      exact bind_eq_some_iff.mpr ⟨_, hadd, rfl⟩
    cases s.lastAPPageIdx <;> exact hrest
  · exact {
      numElements := h.numElements
      numElementsForWriteTrx := rfl
      le := h.le.trans (Nat.le_succ _)
      length_aps := by
        rw [length_append, length_singleton, h.length_aps, numPages_succ_of_mod_eq_zero hk hmod]
      pips := by
        rw [take_append_of_le_length hle]
        exact h.pips
      tables := htables
      updatedLast := hlast
      linked := hlinked
      lastAP := fun q hq => by
        rw [mem_some_iff] at hq
        rw [← hq]
        exact .inl (by simp)
      nodup := by
        refine hperm.nodup_iff.mpr (nodup_append.mpr
          ⟨h.nodup, (nodup_range' ..).map halloc, fun x hx y hy hxy => ?_⟩)
        obtain ⟨j, hj, rfl⟩ := mem_map.mp hy
        exact h.fresh halloc (mem_range'_1.mp hj).1 (hxy ▸ hx)
      allocated := fun q hq => by
        rcases mem_append.mp (hperm.mem_iff.mp hq) with hq | hq
        · obtain ⟨j, hj, heq⟩ := h.allocated q hq
          exact ⟨j, hj.trans_le (hnumAllocated ▸ Nat.le_add_right ..), heq⟩
        · obtain ⟨j, hj, rfl⟩ := mem_map.mp hq
          exact ⟨j, hnumAllocated ▸ (mem_range'_1.mp hj).2, rfl⟩ }

/-- `pushBack`.  The elements before the new one in its page stay as they are. -/
lemma pushBack_spec (hk : 0 < k) (hm : 0 < m) (halloc : Injective alloc)
    (h : s.Layout k m alloc aps n n') (hok : s.shadowFile.Ok) (hit : s.IterOk aps it) (v : V) :
    ∃ it' s' aps' p, pushBack k m alloc it s v = some (it', s') ∧
      s'.Layout k m alloc aps' n (n' + 1) ∧ aps'[n' / k]? = some p ∧ Changes s s' p ∧
      (s'.view p).slot (n' % k) = some v ∧
      (∀ j < n' % k, (s'.view p).slot j = (s.view p).slot j) ∧
      (aps' = aps ∧ s'.numAllocated = s.numAllocated ∨ aps' = aps ++ [p] ∧ n' % k = 0 ∧
        p = alloc s.numAllocated ∧ s.numAllocated < s'.numAllocated) ∧
      s'.hasTransactionalUpdates = s.hasTransactionalUpdates ∧ s'.pips = s.pips ∧
      s'.IterOk aps' it' := by
  obtain ⟨p, new, s₁, aps', hpush⟩ :
      ∃ p new s₁ aps', PageForPush k m alloc s aps n n' p new s₁ aps' := by
    by_cases hmod : n' % k = 0
    · obtain ⟨s₁, hs1⟩ := getAPPageIdxAndAddAPToPIPIfNecessary_full hk hm h halloc hmod
      exact ⟨_, _, s₁, _, hs1⟩
    · obtain ⟨p, hp⟩ := getAPPageIdxAndAddAPToPIPIfNecessary_room hk h hmod
      exact ⟨p, _, _, _, hp⟩
  set s2 : DiskArray V := { s₁ with
    lastAPPageIdx := some p
    headerForWriteTrx := { s₁.headerForWriteTrx with numElements := n' + 1 } } with hs2
  have hsame : SameContents s s2 := { hpush.sameContents with }
  have hok2 : s2.shadowFile.Ok := by rw [hsame.shadowFile]; exact hok
  -- the page is pinned, or it is pinned now
  obtain ⟨frame, s', hframe, hlayout, hchanges, hfor, hview⟩ : ∃ frame s',
      pushBack k m alloc it s v =
        some (⟨some (n' / k), some frame⟩, s'.writeFrame (n' % k) v frame) ∧
      SameLayout s2 s' ∧ Changes s2 s' p ∧ FrameFor s' p frame ∧
      (new = false → s'.view p = s2.view p) := by
    rw [pushBack, h.numElementsForWriteTrx, hpush.get, Option.bind_eq_bind, Option.bind_some]
    by_cases hcur : (new || decide (it.apIdx ≠ some (n' / k))) = true
    · refine ⟨_, _, ?_, getPage_spec hok2 p new⟩
      dsimp only
      rw [hcur]
      cases it.frame <;> rfl
    · simp only [Bool.or_eq_true, decide_eq_true_eq, not_or, Bool.not_eq_true, not_not] at hcur
      obtain ⟨p', frame, hp', hframe, hfor⟩ := hit _ hcur.2
      have hpage := hpush.page
      rcases hpush.aps_eq with ⟨-, haps, -⟩ | ⟨hnew, -⟩
      · rw [haps] at hpage
        obtain rfl : p' = p := some.inj (hp'.symm.trans hpage)
        refine ⟨frame, s2, ?_, .refl s2, .refl hok2 p', hsame.frameFor hfor, fun _ => rfl⟩
        simp [hframe, hcur.1, hcur.2, hs2]
      · cases hnew.symm.trans hcur.1
  obtain ⟨hlayout', hchanges', hview'⟩ := writeFrame_spec hchanges.ok hfor (n' % k) v
  refine ⟨⟨some (n' / k), some frame⟩, _, aps', p, hframe, hpush.layout _ (hlayout.trans hlayout'),
    hpush.page, hsame.changes (hchanges.trans hchanges'), ?_, fun j hj => ?_, ?_,
    (hlayout.trans hlayout').hasTransactionalUpdates.trans hpush.hasTransactionalUpdates,
    (hlayout.trans hlayout').pips.trans hpush.pips, iterOk_mk hpush.page (hfor.mono hchanges')⟩
  · rw [hview', Page.slot_setSlot_self]
  · rcases hpush.aps_eq with ⟨hnew, -⟩ | ⟨-, -, hmod, -⟩
    · rw [hview', Page.slot_setSlot_of_ne (Nat.ne_of_lt hj), hview hnew, hsame.view]
    · omega
  · rw [(hlayout.trans hlayout').numAllocated]
    exact hpush.aps_eq.imp And.right And.right

/-! ### The contents -/

/-- The array pages hold the list `ckpt` of the last checkpoint and the list `cur` of the writer. -/
structure Contents (k : ℕ) (alloc : ℕ → ℕ) (s : DiskArray V) (aps : List ℕ) (ckpt cur : List V) :
    Prop where
  ok : s.shadowFile.Ok
  current : ∀ i v p, cur[i]? = some v → aps[i / k]? = some p → (s.view p).slot (i % k) = some v
  checkpointed : ∀ i v p, ckpt[i]? = some v → aps[i / k]? = some p → s.isShadowed p →
    (s.file p).slot (i % k) = some v
  record : ∀ j p page, s.shadowFile.shadowPageRecords[j]? = some (p, page) →
    s.Allocated alloc p ∧ (p ∈ aps → s.shadowFile.shadowPagesMap p = some j ∧ s.isShadowed p)

/-- Element `i` of page `p` is written, where `p` may be a new page. -/
lemma Contents.change (h : s.Contents k alloc aps ckpt cur) (hch : Changes s s' p)
    (hnodup : aps'.Nodup) (hp : aps'[i / k]? = some p) (haps : ∀ j, j ≠ i / k → aps'[j]? = aps[j]?)
    (hnew : p ∈ aps ∨ ¬s.Allocated alloc p)
    (hckpt : ∀ j v, ckpt[j]? = some v → aps'[j / k]? = aps[j / k]?)
    (hmono : s.numAllocated ≤ s'.numAllocated) (halloc : s'.Allocated alloc p)
    (hself : ∀ v, cur'[i]? = some v → (s'.view p).slot (i % k) = some v)
    (hcur : ∀ j v, j ≠ i → cur'[j]? = some v → cur[j]? = some v ∧ (j / k = i / k → aps[i / k]? =
      some p ∧ (s'.view p).slot (j % k) = (s.view p).slot (j % k))) :
    s'.Contents k alloc aps' ckpt cur' where
  ok := hch.ok
  current := fun j v q hv hq => by
    by_cases hji : j = i
    -- the element that changes
    · subst hji
      obtain rfl : p = q := some.inj (hp.symm.trans hq)
      exact hself v hv
    · obtain ⟨hv', hsame⟩ := hcur j v hji hv
      by_cases hpage : j / k = i / k
      -- another element of its page
      · obtain ⟨hold, hslot⟩ := hsame hpage
        rw [hpage] at hq
        obtain rfl : p = q := some.inj (hp.symm.trans hq)
        rw [hslot]
        exact h.current j v p hv' (by rw [hpage]; exact hold)
      · -- another page
        have hqp : q ≠ p := fun heq =>
          hpage ((getElem?_inj (getElem?_eq_some_iff.mp hq).1 hnodup).mp (by rw [hq, hp, heq]))
        rw [haps _ hpage] at hq
        rw [hch.view_ne q hqp]
        exact h.current j v q hv' hq
  checkpointed := fun j v q hv hq hsh => by
    rw [isShadowed_congr hch.lastPageOnDisk] at hsh
    rw [hckpt j v hv] at hq
    rw [hch.file_eq q (.inr hsh)]
    exact h.checkpointed j v q hv hq hsh
  record := fun j q page hj => by
    rw [isShadowed_congr hch.lastPageOnDisk]
    rcases hch.record j q page hj with ⟨page', hj'⟩ | ⟨rfl, hsh, hmap⟩
    -- a page recorded before
    · obtain ⟨⟨a, ha, haq⟩, hmap⟩ := h.record j q page' hj'
      refine ⟨⟨a, ha.trans_le hmono, haq⟩, fun hmem => ?_⟩
      have hmem' : q ∈ aps := by
        obtain ⟨b, hb⟩ := mem_iff_getElem?.mp hmem
        by_cases hbi : b = i / k
        · rw [hbi] at hb
          obtain rfl : p = q := some.inj (hp.symm.trans hb)
          exact hnew.resolve_right (not_not.mpr ⟨a, ha, haq⟩)
        · rw [haps b hbi] at hb
          exact mem_of_getElem? hb
      obtain ⟨hmap, hsh⟩ := hmap hmem'
      exact ⟨hch.map_mono q j hmap, hsh⟩
    · exact ⟨halloc, fun _ => ⟨hmap, hsh⟩⟩

/-! ### Actions of the writer -/

/-- A write through an iterator, on the list. -/
def listWrite (cur : List V) : IteratorWrite V → Option (List V)
  | .pushBack v => some (cur ++ [v])
  | .seek idx v => if idx < cur.length then some (cur.set idx v) else none

/-- An action, on the two lists. -/
def listStep (l : ListPair V) : Action V → Option (ListPair V)
  | .write ws => (ws.foldlM listWrite l.current).map fun current => ⟨l.checkpointed, current, true⟩
  | .update idx v =>
    if idx < l.current.length then some ⟨l.checkpointed, l.current.set idx v, true⟩ else none
  | .resize newNumElements defaultVal =>
    some ⟨l.checkpointed,
      l.current ++ List.replicate (newNumElements - l.current.length) defaultVal, true⟩
  | .checkpoint => some ⟨l.current, l.current, false⟩
  | .rollback _ => some ⟨l.checkpointed, l.checkpointed, false⟩

/-- A disk array under a writer's iterator. -/
structure WriterRep (k m : ℕ) (alloc : ℕ → ℕ) (s : DiskArray V) (it : WriteIterator)
    (aps : List ℕ) (ckpt cur : List V) : Prop where
  layout : s.Layout k m alloc aps ckpt.length cur.length
  contents : s.Contents k alloc aps ckpt cur
  iter : s.IterOk aps it
  hasTransactionalUpdates : s.hasTransactionalUpdates = true

lemma Layout.nodup_aps (h : s.Layout k m alloc aps n n') : aps.Nodup := (nodup_append.mp h.nodup).1

lemma Layout.allocated_of_getElem?
    (h : s.Layout k m alloc aps n n') (hp : aps[a]? = some p) : s.Allocated alloc p :=
  h.allocated p (mem_append_left _ (mem_of_getElem? hp))

/-- A write to an element sets it in the list. -/
lemma Contents.set (h : s.Contents k alloc aps ckpt cur) (hlayout : s.Layout k m alloc aps n n')
    (hsame : SameLayout s s') (hp : aps[i / k]? = some p)
    (hw : Writes s s' p (i % k) v) : s'.Contents k alloc aps ckpt (cur.set i v) := by
  refine h.change hw.toChanges hlayout.nodup_aps hp (fun _ _ => rfl)
    (.inl (mem_of_getElem? hp)) (fun _ _ _ => rfl) hsame.numAllocated.ge
    ((hlayout.congr hsame).allocated_of_getElem? hp) (fun w hw' => ?_) fun j w hj hw' => ⟨?_, ?_⟩
  · rw [getElem?_set_self', Option.map_eq_map, Option.map_eq_some_iff] at hw'
    obtain ⟨-, -, rfl⟩ := hw'
    exact hw.slot_self
  · rwa [getElem?_set_ne (Ne.symm hj)] at hw'
  · intro hpage
    exact ⟨hp, hw.slot_ne _ fun hmod => hj (Nat.ext_div_mod hpage hmod)⟩

/-- Every write through the iterator is one on the list. -/
lemma iteratorStep_spec (hk : 0 < k) (hm : 0 < m) (halloc : Injective alloc)
    (h : s.WriterRep k m alloc it aps ckpt cur) {w : IteratorWrite V}
    (hw : listWrite cur w = some cur') :
    ∃ it' s' aps', iteratorStep k m alloc (it, s) w = some (it', s') ∧
      s'.WriterRep k m alloc it' aps' ckpt cur' := by
  cases w with
  | seek i v =>
    simp only [listWrite] at hw
    split_ifs at hw with hi
    obtain rfl := some.inj hw
    obtain ⟨it', s', p, hseek, hp, hsame, hwrites, hit⟩ :=
      seekAndWrite_spec hk h.layout h.contents.ok h.iter hi v
    exact ⟨it', s', aps, hseek, by
      rw [length_set]
      exact h.layout.congr hsame, h.contents.set h.layout hsame hp hwrites, hit,
      hsame.hasTransactionalUpdates.trans h.hasTransactionalUpdates⟩
  | pushBack v =>
    obtain rfl := some.inj hw
    obtain ⟨it', s', aps', p, hpush, hlayout, hp, hch, hself, hbefore, haps, htu, -, hit⟩ :=
      pushBack_spec hk hm halloc h.layout h.contents.ok h.iter v
    refine ⟨it', s', aps', hpush, by simpa using hlayout, ?_, hit,
      htu.trans h.hasTransactionalUpdates⟩
    have hlen := h.layout.length_aps
    -- elements before the new one lie in old pages
    have hold : ∀ j < cur.length, aps'[j / k]? = aps[j / k]? := fun j hj => by
      rcases haps with ⟨rfl, -⟩ | ⟨rfl, -⟩
      · rfl
      · rw [getElem?_append_left (by rw [hlen]; exact div_lt_numPages hk hj)]
    refine h.contents.change (i := cur.length) hch hlayout.nodup_aps hp (fun j hj => ?_) ?_
      (fun j w hw' => hold j ?_) ?_ (hlayout.allocated_of_getElem? hp) (fun w hw' => ?_)
      fun j w hj hw' => ?_
    · rcases haps with ⟨rfl, -⟩ | ⟨rfl, hmod, -⟩
      · rfl
      · have hlen' : aps.length = cur.length / k := by
          rw [hlen, numPages_of_mod_eq_zero hk hmod]
        rcases Nat.lt_or_ge j aps.length with hlt | hge
        · rw [getElem?_append_left hlt]
        · rw [getElem?_eq_none (by simp; omega), getElem?_eq_none hge]
    · rcases haps with ⟨rfl, -⟩ | ⟨-, -, rfl, -⟩
      · exact .inl (mem_of_getElem? hp)
      · refine .inr ?_
        rintro ⟨a, ha, heq⟩
        exact absurd (halloc heq) (Nat.ne_of_lt ha)
    · exact (getElem?_eq_some_iff.mp hw').1.trans_le h.layout.le
    · rcases haps with ⟨-, hn⟩ | ⟨-, -, -, hn⟩
      · exact hn.ge
      · exact hn.le
    · rw [getElem?_concat_length, Option.some.injEq] at hw'
      rw [← hw', hself]
    · have hlt : j < cur.length := by
        have := (getElem?_eq_some_iff.mp hw').1
        rw [List.length_append, List.length_singleton] at this
        omega
      rw [getElem?_append_left hlt] at hw'
      refine ⟨hw', fun hpage => ⟨?_, hbefore _ ?_⟩⟩
      · rw [← hpage, ← hold j hlt, hpage, hp]
      · have h1 := Nat.div_add_mod j k
        have h2 := Nat.div_add_mod cur.length k
        rw [hpage] at h1
        omega

/-- A disk array with its list of the last checkpoint and its current list. -/
structure Rep (k m : ℕ) (alloc : ℕ → ℕ) (s : DiskArray V) (aps : List ℕ) (ckpt cur : List V)
    (written : Bool) : Prop where
  layout : s.Layout k m alloc aps ckpt.length cur.length
  contents : s.Contents k alloc aps ckpt cur
  hasTransactionalUpdates : s.hasTransactionalUpdates = written
  settled : s.hasTransactionalUpdates = false → cur = ckpt ∧ s.pipUpdates = ⟨none, []⟩

lemma WriterRep.rep
    (h : s.WriterRep k m alloc it aps ckpt cur) : s.Rep k m alloc aps ckpt cur true where
  layout := h.layout
  contents := h.contents
  hasTransactionalUpdates := h.hasTransactionalUpdates
  settled := fun hfalse => by
    rw [h.hasTransactionalUpdates] at hfalse
    cases hfalse

/-- A writer starts with the list. -/
lemma Rep.iterMut (h : s.Rep k m alloc aps ckpt cur written) :
    s.iterMut.2.WriterRep k m alloc s.iterMut.1 aps ckpt cur where
  layout := { h.layout with }
  contents := { h.contents with }
  iter := nofun
  hasTransactionalUpdates := rfl

/-- A writer that uses an iterator changes the list. -/
lemma write_spec (hk : 0 < k) (hm : 0 < m) (halloc : Injective alloc)
    (h : s.Rep k m alloc aps ckpt cur written)
    {ws : List (IteratorWrite V)} (hws : ws.foldlM listWrite cur = some cur') :
    ∃ s' aps', s.write k m alloc ws = some s' ∧ s'.Rep k m alloc aps' ckpt cur' true := by
  obtain ⟨⟨it', s'⟩, hrun, aps', hrep⟩ := Fold.foldlM_simulation listWrite (iteratorStep k m alloc)
    (fun cur p => ∃ aps, p.2.WriterRep k m alloc p.1 aps ckpt cur)
    (fun cur p w cur' ⟨aps, hrep⟩ hw => by
      obtain ⟨it', s', aps', hstep, hrep'⟩ := iteratorStep_spec hk hm halloc hrep hw
      exact ⟨(it', s'), hstep, aps', hrep'⟩)
    (t := s.iterMut) ⟨aps, h.iterMut⟩ hws
  refine ⟨s', aps', ?_, hrep.rep⟩
  rw [write, hrun]
  rfl

/-- `update` sets an element of the list. -/
lemma update_spec (hk : 0 < k) (h : s.Rep k m alloc aps ckpt cur written) (hi : i < cur.length)
    (v : V) :
    ∃ s', s.update k m i v = some s' ∧ s'.Rep k m alloc aps ckpt (cur.set i v) true := by
  have hw := h.iterMut
  obtain ⟨p, hp⟩ := h.layout.exists_page hk hi
  obtain ⟨hsame, hwrites, -⟩ := writes_of_getPage hw.contents.ok p (i % k) v
  refine ⟨(s.iterMut.2.getPage p false).2.writeFrame (i % k) v (s.iterMut.2.getPage p false).1,
    bind_eq_some_iff.mpr ⟨p, hw.layout.getAPPageIdx hp, rfl⟩, ?_,
    hw.contents.set hw.layout hsame hp hwrites, hsame.hasTransactionalUpdates, fun hfalse => ?_⟩
  · rw [length_set]
    exact hw.layout.congr hsame
  · rw [hsame.hasTransactionalUpdates] at hfalse
    cases hfalse

lemma foldlM_listWrite_replicate (cur : List V) (c : ℕ) (v : V) :
    (List.replicate c (IteratorWrite.pushBack v)).foldlM listWrite cur
      = some (cur ++ List.replicate c v) := by
  induction c generalizing cur with
  | zero => simp
  | succ c ih =>
    rw [replicate_succ, foldlM_cons]
    show (List.replicate c (IteratorWrite.pushBack v)).foldlM listWrite (cur ++ [v]) = _
    rw [ih, append_assoc, singleton_append, replicate_succ]

/-! ### Checkpoint -/

end DiskArray

/-- Only the shadow pages of the pages `P` are changed. -/
structure ShadowFile.ChangesIn (P : List ℕ) (sf sf' : ShadowFile V) : Prop where
  ok : sf'.Ok
  map_eq : ∀ q, q ∉ P → sf'.shadowPagesMap q = sf.shadowPagesMap q
  shadowPage_eq : ∀ q, q ∉ P → sf'.shadowPage q = sf.shadowPage q
  record : ∀ (j q : ℕ) (page : Page V), sf'.shadowPageRecords[j]? = some (q, page) →
    (∃ page', sf.shadowPageRecords[j]? = some (q, page')) ∨ q ∈ P

lemma ShadowFile.ChangesIn.refl (hok : sf.Ok) (P : List ℕ) : ChangesIn P sf sf :=
  ⟨hok, fun _ _ => rfl, fun _ _ => rfl, fun _ _ page hj => .inl ⟨page, hj⟩⟩

lemma ShadowFile.ChangesIn.trans {sf' sf'' : ShadowFile V}
    (h : ChangesIn P sf sf') (h' : ChangesIn P sf' sf'') : ChangesIn P sf sf'' where
  ok := h'.ok
  map_eq := fun q hq => (h'.map_eq q hq).trans (h.map_eq q hq)
  shadowPage_eq := fun q hq => (h'.shadowPage_eq q hq).trans (h.shadowPage_eq q hq)
  record := fun j q page hj => by
    rcases h'.record j q page hj with ⟨page', hj'⟩ | hq
    · exact h.record j q page' hj'
    · exact .inr hq

lemma ShadowFile.changesIn_modify (hok : sf.Ok) {r : ℕ}
    (hp : p ∈ P) (hr : sf.shadowPagesMap p = some r) (f : Page V → Page V) :
    ChangesIn P sf (sf.modify r f) := by
  refine ⟨hok.modify r f, fun _ _ => rfl, fun q hq => ?_, fun j q page hj => ?_⟩
  · rw [shadowPage_modify hok hr]
    have hne : q ≠ p := fun heq => hq (heq ▸ hp)
    simp [hne]
  · rw [getElem?_modify, Option.map_eq_some_iff] at hj
    obtain ⟨⟨q', page'⟩, hx, hxq⟩ := hj
    cases hxq
    exact .inl ⟨page', hx⟩

lemma ShadowFile.changesIn_push (hok : sf.Ok)
    (hp : p ∈ P) (page : Page V) : ChangesIn P sf (sf.push p page) := by
  have hne : ∀ q, q ∉ P → q ≠ p := fun q hq heq => hq (heq ▸ hp)
  refine ⟨hok.push p page, fun q hq => shadowPagesMap_push_of_ne sf (hne q hq) page,
    fun q hq => ?_, fun j q page' hj => ?_⟩
  · rw [shadowPage_push hok, if_neg (hne q hq)]
  · rcases getElem?_push_cases hj with hj' | ⟨rfl, -⟩
    · exact .inl ⟨page', hj'⟩
    · exact .inr hp

/-- The shadow copy of a page is written. -/
lemma ShadowFile.changesIn_updatePage (hok : sf.Ok)
    (hp : p ∈ P) (skip : Bool) (page : Page V) (f : Page V → Page V) :
    ChangesIn P sf (sf.updatePage p skip page f) := by
  unfold updatePage
  cases hmap : sf.shadowPagesMap p with
  | some r =>
    rw [createShadowVersionIfNecessary_of_mapped hmap]
    exact changesIn_modify hok hp hmap f
  | none =>
    rw [createShadowVersionIfNecessary_of_unmapped hmap]
    have hpush := changesIn_push hok hp (if skip then .blank else page)
    exact hpush.trans (changesIn_modify hpush.ok hp (shadowPagesMap_push_self ..) f)

/-- The shadow copy of a page is dropped. -/
lemma ShadowFile.changesIn_clearShadowPage (hok : sf.Ok)
    (hp : p ∈ P) : ChangesIn P sf (sf.clearShadowPage p) := by
  have hself : (sf.clearShadowPage p).shadowPagesMap p = none := update_self ..
  have hother : ∀ q, q ≠ p → (sf.clearShadowPage p).shadowPagesMap q = sf.shadowPagesMap q :=
    fun q hq => update_of_ne hq ..
  have hne : ∀ q, q ∉ P → (sf.clearShadowPage p).shadowPagesMap q = sf.shadowPagesMap q :=
    fun q hq => hother q fun heq => hq (heq ▸ hp)
  refine ⟨fun q r hq => ?_, hne, fun q hq => ?_, fun _ _ page hj => .inl ⟨page, hj⟩⟩
  · by_cases hqp : q = p
    · rw [hqp, hself] at hq
      cases hq
    · exact hok q r ((hother q hqp).symm.trans hq)
  · rw [shadowPage, hne q hq]
    rfl

lemma ShadowFile.changesIn_foldl {f : ShadowFile V → α → ShadowFile V} {as : List α}
    (hf : ∀ sf : ShadowFile V, ∀ a ∈ as, sf.Ok → ChangesIn P sf (f sf a))
    (hok : sf.Ok) : ChangesIn P sf (as.foldl f sf) := by
  induction as generalizing sf with
  | nil => exact .refl hok P
  | cons a as ih =>
    have ha := hf sf a mem_cons_self hok
    exact ha.trans (ih (fun sf' b hb => hf sf' b (mem_cons_of_mem a hb)) ha.ok)

/-- The last record of a page goes to the file; here all of them have the same contents. -/
lemma ShadowFile.applyShadowPages_eq {file : ℕ → Page V} {q : ℕ}
    {page : Page V} (hall : ∀ r ∈ sf.shadowPageRecords, r.1 = q → r.2 = page)
    (hex : (∃ r ∈ sf.shadowPageRecords, r.1 = q) ∨ file q = page) :
    sf.applyShadowPages file q = page := by
  unfold applyShadowPages
  generalize sf.shadowPageRecords = records at hall hex
  induction records generalizing file with
  | nil => exact hex.resolve_left (by simp)
  | cons r records ih =>
    rw [foldl_cons]
    refine ih (fun r' hr' => hall r' (mem_cons_of_mem r hr')) ?_
    by_cases hr : r.1 = q
    · refine .inr ?_
      rw [← hr, update_self, hall r mem_cons_self hr]
    · rw [update_of_ne (Ne.symm hr)]
      rcases hex with ⟨r', hr', hq⟩ | hfile
      · rcases mem_cons.mp hr' with rfl | hr'
        · exact absurd hq hr
        · exact .inl ⟨r', hr', hq⟩
      · exact .inr hfile

namespace DiskArray

/-- `checkpoint` writes shadow copies of PIPs only. -/
lemma checkpoint_changesIn (hok : s.shadowFile.Ok) :
    ChangesIn s.pipPages s.shadowFile s.checkpoint.shadowFile := by
  refine changesIn_foldl (fun sf pip hpip hok' => ?_) hok
  refine changesIn_updatePage hok' ?_ ..
  refine mem_map_of_mem ?_
  rw [checkpointedPIPs]
  rcases mem_append.mp hpip with hlast | hnew
  · rw [mem_toList] at hlast
    rw [hlast]
    simp
  · exact mem_append_right _ hnew

lemma updatedPIPPages_subset (h : s.UpdatedLast) (hp : p ∈ s.updatedPIPPages) : p ∈ s.pipPages := by
  rw [pipPages_eq h]
  rcases mem_append.mp hp with hlast | hnew
  · refine mem_append_left _ ?_
    cases hu : s.pipUpdates.updatedLastPIP with
    | none =>
      rw [hu] at hlast
      cases hlast
    | some u =>
      rw [hu, mem_toList, map_eq_some_iff] at hlast
      obtain ⟨pip, hpip, rfl⟩ := hlast
      exact mem_map_of_mem (mem_of_getLast? hpip)
  · exact mem_append_right _ hnew

/-- A rollback drops shadow copies of PIPs only. -/
lemma clear_changesIn (h : s.UpdatedLast) (hok : sf.Ok) :
    ChangesIn s.pipPages sf (s.updatedPIPPages.foldl clearShadowPage sf) :=
  changesIn_foldl (fun _ _ hp hok' =>
    changesIn_clearShadowPage hok' (updatedPIPPages_subset h hp)) hok

lemma checkpointedPIPs_of_no_updates (h : s.pipUpdates = ⟨none, []⟩) :
    s.checkpointedPIPs = s.pips := by
  rw [checkpointedPIPs_none (by rw [h]), h, append_nil]

/-- The state after a checkpoint of the owner.  `lastPageOnDisk` comes from the header of the
checkpoint before. -/
lemma checkpointIndex_spec (hk : 0 < k) (h : s.Layout k m alloc aps n n') (hok : s.shadowFile.Ok)
    (hsettled : s.hasTransactionalUpdates = false → s.pipUpdates = ⟨none, []⟩) :
    ∃ sf last, s.checkpointIndex k m = some { s with
        shadowFile := sf
        header := s.headerForWriteTrx
        hasTransactionalUpdates := false
        pips := s.checkpointedPIPs
        pipUpdates := ⟨none, []⟩
        lastPageOnDisk := last } ∧
      ChangesIn s.pipPages s.shadowFile sf ∧
      (last = s.lastPageOnDisk ∧ (s.hasTransactionalUpdates = false ∨ s.lastPageOnDisk = none) ∨
        s.hasTransactionalUpdates = true ∧ s.lastPageOnDisk.isSome ∧
          (n = 0 ∧ last = some 0 ∨ 0 < n ∧ ∃ p, aps[(n - 1) / k]? = some p ∧ last = some p)) := by
  have hcheckpoint := checkpoint_changesIn hok
  cases htu : s.hasTransactionalUpdates with
  | false =>
    have hpips := checkpointedPIPs_of_no_updates (hsettled htu)
    refine ⟨s.checkpoint.shadowFile, s.lastPageOnDisk,
      bind_eq_some_iff.mpr ⟨s.checkpoint, ?_, ?_⟩, hcheckpoint, .inl ⟨rfl, .inl rfl⟩⟩
    · exact if_pos (by rw [show s.checkpoint.hasTransactionalUpdates = false from htu]; rfl)
    · rw [hpips, ← hsettled htu, ← htu]
      rfl
  | true =>
    have hclear := clear_changesIn h.updatedLast hcheckpoint.ok
    set sf := s.updatedPIPPages.foldl clearShadowPage s.checkpoint.shadowFile
    -- the state in memory before `lastPageOnDisk` is looked up
    set s₁ : DiskArray V := { s with
      shadowFile := sf
      pips := s.checkpointedPIPs
      pipUpdates := ⟨none, []⟩
      hasTransactionalUpdates := false }
    have hmem : s.checkpoint.checkpointOrRollbackInMemoryIfNecessary k m true
        = if s.lastPageOnDisk.isSome then s₁.updateLastPageOnDisk k m else some s₁ := by
      unfold checkpointOrRollbackInMemoryIfNecessary
      rw [if_neg (by rw [show s.checkpoint.hasTransactionalUpdates = true from htu]; simp)]
      simp only [true_and, if_true]
      rfl
    cases hlast : s.lastPageOnDisk with
    | none =>
      rw [hlast] at hmem
      exact ⟨sf, none, bind_eq_some_iff.mpr ⟨s₁, hmem, by rw [← hlast]; rfl⟩,
        hcheckpoint.trans hclear, .inl ⟨rfl, .inr rfl⟩⟩
    | some last =>
      rw [hlast] at hmem
      have hmem' := hmem.trans (if_pos rfl)
      unfold updateLastPageOnDisk at hmem'
      rw [show s₁.header.numElements = n from h.numElements] at hmem'
      rcases Nat.eq_zero_or_pos n with hn | hn
      · rw [if_pos hn] at hmem'
        exact ⟨sf, some 0, bind_eq_some_iff.mpr ⟨_, hmem', rfl⟩, hcheckpoint.trans hclear,
          .inr ⟨rfl, rfl, .inl ⟨hn, rfl⟩⟩⟩
      · -- the page of the last element of the checkpoint before
        obtain ⟨p, hp⟩ := h.exists_page hk (i := n - 1) (by have := h.le; omega)
        obtain ⟨hlt, hpe⟩ := getElem?_eq_some_iff.mp hp
        have hget : s₁.getAPPageIdx m ((n - 1) / k) .readOnly = some p := by
          rw [getAPPageIdx_readOnly, ← hpe]
          exact h.tables.lookup_eq _ hlt
        rw [if_neg (Nat.ne_of_gt hn), hget] at hmem'
        exact ⟨sf, some p, bind_eq_some_iff.mpr ⟨_, hmem', rfl⟩, hcheckpoint.trans hclear,
          .inr ⟨rfl, rfl, .inr ⟨hn, p, hp, rfl⟩⟩⟩

/-- The checkpoint of an owner that has not written. -/
lemma checkpointIndex_of_settled (htu : s.hasTransactionalUpdates = false)
    (hpips : s.pipUpdates = ⟨none, []⟩) :
    s.checkpointIndex k m = some { s with header := s.headerForWriteTrx } := by
  have hcheckpoint : s.checkpoint = s := by
    have hnone : s.pipUpdates.updatedLastPIP.toList ++ s.pipUpdates.newPIPs = [] := by
      rw [hpips]
      rfl
    unfold checkpoint
    rw [hnone, foldl_nil]
  refine bind_eq_some_iff.mpr ⟨s, ?_, rfl⟩
  unfold checkpointOrRollbackInMemoryIfNecessary
  rw [hcheckpoint, if_pos (by rw [htu]; rfl)]

/-- The PIPs hold the array pages `aps` of `n` elements, and all these pages are distinct ones that
the allocator has returned. -/
structure Stored (k m : ℕ) (alloc : ℕ → ℕ) (numAllocated : ℕ) (pips : List PIPWrapper)
    (aps : List ℕ) (n : ℕ) : Prop where
  length_aps : aps.length = numPages k n
  represents : Represents m (pips.map PIPWrapper.table) aps
  nodup : (aps ++ pips.map PIPWrapper.pipPageIdx).Nodup
  allocated : ∀ p ∈ aps ++ pips.map PIPWrapper.pipPageIdx, ∃ j < numAllocated, alloc j = p

/-- The layout when no PIP has changed: after a checkpoint, a rollback or the opening. -/
lemma Stored.layout (h : Stored k m alloc s.numAllocated s.pips aps n)
    (hheader : s.header.numElements = n) (hwrite : s.headerForWriteTrx.numElements = n)
    (hupdates : s.pipUpdates = ⟨none, []⟩)
    (hlast : ∀ p ∈ s.lastAPPageIdx, aps.getLast? = some p ∨ n % k = 0) :
    s.Layout k m alloc aps n n := by
  have hchk := checkpointedPIPs_of_no_updates hupdates
  exact {
    numElements := hheader
    numElementsForWriteTrx := hwrite
    le := le_rfl
    length_aps := h.length_aps
    pips := by
      rw [← h.length_aps, take_length]
      exact h.represents
    tables := by rw [tables, hchk]; exact h.represents
    updatedLast := fun u hu => by
      rw [hupdates] at hu
      cases hu
    linked := fun hne => by
      rw [hupdates] at hne
      exact absurd rfl hne
    lastAP := fun p hp => (hlast p hp).imp_right fun hmod => ⟨hmod, rfl⟩
    nodup := by rw [pipPages, hchk]; exact h.nodup
    allocated := by rw [pipPages, hchk]; exact h.allocated }

/-- A checkpoint makes the changed PIPs the PIPs. -/
lemma Layout.checkpointed
    (h : s.Layout k m alloc aps n n') (hheader : s'.header = s.headerForWriteTrx)
    (hwrite : s'.headerForWriteTrx = s.headerForWriteTrx) (hpips : s'.pips = s.checkpointedPIPs)
    (hupdates : s'.pipUpdates = ⟨none, []⟩) (hlast : s'.lastAPPageIdx = s.lastAPPageIdx)
    (hnum : s'.numAllocated = s.numAllocated) : s'.Layout k m alloc aps n' n' := by
  refine Stored.layout ?_ (by rw [hheader, h.numElementsForWriteTrx])
    (by rw [hwrite, h.numElementsForWriteTrx]) hupdates fun p hp => ?_
  · rw [hpips, hnum]
    exact ⟨h.length_aps, h.tables, h.nodup, h.allocated⟩
  · rw [hlast] at hp
    exact (h.lastAP p hp).imp_right And.left

/-- Changes in the shadow pages of the PIPs are none of the array pages. -/
lemma Contents.changesIn (h : s.Contents k alloc aps ckpt cur) (hfile : s'.file = s.file)
    (hlast : s'.lastPageOnDisk = s.lastPageOnDisk) (hnum : s'.numAllocated = s.numAllocated)
    (hch : ChangesIn P s.shadowFile s'.shadowFile) (hdisj : ∀ p ∈ P, p ∉ aps)
    (hP : ∀ p ∈ P, s.Allocated alloc p) : s'.Contents k alloc aps ckpt cur := by
  have hnot : ∀ {a p}, aps[a]? = some p → p ∉ P := fun hp hmem =>
    hdisj _ hmem (mem_of_getElem? hp)
  refine ⟨hch.ok, fun i v p hv hp => ?_, fun i v p hv hp hsh => ?_, fun j p page hj => ?_⟩
  · rw [view_congr hlast (hch.shadowPage_eq p (hnot hp)) (by rw [hfile])]
    exact h.current i v p hv hp
  · rw [isShadowed_congr hlast] at hsh
    rw [hfile]
    exact h.checkpointed i v p hv hp hsh
  · rw [Allocated, hnum, isShadowed_congr hlast]
    rcases hch.record j p page hj with ⟨page', hj'⟩ | hmem
    · obtain ⟨halloc, hmap⟩ := h.record j p page' hj'
      refine ⟨halloc, fun hp => ?_⟩
      rw [hch.map_eq p fun hmem => hdisj p hmem hp]
      exact hmap hp
    · exact ⟨hP p hmem, fun hp => absurd hp (hdisj p hmem)⟩

/-- Applying the shadow pages makes what the writer sees the contents of the file. -/
lemma Contents.applyShadowPages (h : s.Contents k alloc aps ckpt cur) (hp : p ∈ aps) :
    s.shadowFile.applyShadowPages s.file p = s.view p := by
  cases hmap : s.shadowFile.shadowPagesMap p with
  | none =>
    have hview : s.view p = s.file p := by
      rw [view, shadowPage_of_unmapped hmap]
      split_ifs <;> rfl
    rw [hview]
    refine applyShadowPages_eq (fun r hr hrp => ?_) (.inr rfl)
    obtain ⟨j, hj⟩ := mem_iff_getElem?.mp hr
    obtain ⟨q, page⟩ := r
    obtain rfl : q = p := hrp
    have := ((h.record j q page hj).2 hp).1
    rw [hmap] at this
    cases this
  | some r =>
    obtain ⟨page, hpage⟩ := h.ok p r hmap
    have hsh := ((h.record r p page hpage).2 hp).2
    have hview : s.view p = page := by
      rw [view_of_isShadowed hsh, shadowPage_of_map hmap, hpage]
      rfl
    rw [hview]
    refine applyShadowPages_eq (fun r' hr' hrp => ?_) (.inl ⟨_, mem_of_getElem? hpage, rfl⟩)
    obtain ⟨j, hj⟩ := mem_iff_getElem?.mp hr'
    obtain ⟨q, page'⟩ := r'
    obtain rfl : q = p := hrp
    have hmap' := ((h.record j q page' hj).2 hp).1
    rw [hmap, Option.some.injEq] at hmap'
    subst hmap'
    rw [hpage] at hj
    exact (congrArg Prod.snd (some.inj hj)).symm

/-- Shadow copies of PIPs hold no elements. -/
lemma Rep.changesIn (h : s.Rep k m alloc aps ckpt cur written)
    (hch : ChangesIn s.pipPages s.shadowFile sf) :
    Contents k alloc { s with shadowFile := sf } aps ckpt cur :=
  h.contents.changesIn rfl rfl rfl hch
    (fun p hp hmem => (nodup_append.mp h.layout.nodup).2.2 p hmem p hp rfl)
    fun p hp => h.layout.allocated p (mem_append_right _ hp)

/-- A checkpoint keeps the current list. -/
lemma checkpointAll_rep (hk : 0 < k) (h : s.Rep k m alloc aps ckpt cur written) :
    ∃ s', s.checkpointAll k m = some s' ∧ s'.Rep k m alloc aps cur cur false := by
  obtain ⟨sf, last, hstep, hch, -⟩ :=
    checkpointIndex_spec hk h.layout h.contents.ok fun htu => (h.settled htu).2
  refine ⟨_, bind_eq_some_iff.mpr ⟨_, hstep, rfl⟩, h.layout.checkpointed rfl rfl rfl rfl rfl rfl,
    ?_, rfl, fun _ => ⟨rfl, rfl⟩⟩
  -- the PIPs are in the shadow file, the array pages are as before
  have hcontents := h.changesIn hch
  have hfile : ∀ i v p, cur[i]? = some v → aps[i / k]? = some p →
      (sf.applyShadowPages s.file p).slot (i % k) = some v := by
    intro i v p hv hp
    rw [hcontents.applyShadowPages (mem_of_getElem? hp)]
    exact hcontents.current i v p hv hp
  refine ⟨nofun, fun i v p hv hp => ?_, fun i v p hv hp _ => hfile i v p hv hp,
    fun j p page hj => ?_⟩
  · unfold view
    split_ifs <;> exact hfile i v p hv hp
  · cases hj

/-! ### Rollback -/

/-- A rollback takes back the header and the changed PIPs. -/
lemma rollbackAll_spec (h : s.Layout k m alloc aps n n') (hok : s.shadowFile.Ok)
    (hsettled : s.hasTransactionalUpdates = false → s.pipUpdates = ⟨none, []⟩) :
    ∃ sf, s.rollbackAll k m = some { s with
        shadowFile := sf
        headerForWriteTrx := s.header
        hasTransactionalUpdates := false
        pipUpdates := ⟨none, []⟩ } ∧
      ChangesIn s.pipPages s.shadowFile sf := by
  unfold rollbackAll checkpointOrRollbackInMemoryIfNecessary
  cases htu : s.hasTransactionalUpdates with
  | false =>
    refine ⟨s.shadowFile, ?_, .refl hok _⟩
    rw [← hsettled htu, ← htu]
    exact bind_eq_some_iff.mpr ⟨s, if_pos (by rw [htu]; rfl), rfl⟩
  | true =>
    exact ⟨_, rfl, clear_changesIn h.updatedLast hok⟩

/-- The layout after a rollback. -/
lemma Layout.rolledBack (hk : 0 < k)
    (h : s.Layout k m alloc aps n n') (hheader : s'.header = s.header)
    (hwrite : s'.headerForWriteTrx = s.header) (hpips : s'.pips = s.pips)
    (hupdates : s'.pipUpdates = ⟨none, []⟩) (hlast : s'.lastAPPageIdx = s.lastAPPageIdx)
    (hnum : s'.numAllocated = s.numAllocated) (hpage : n % k = 0 ∨ numPages k n' = numPages k n) :
    s'.Layout k m alloc (aps.take (numPages k n)) n n := by
  have hle : numPages k n ≤ aps.length := by rw [h.length_aps]; exact numPages_mono hk h.le
  have hsub : (aps.take (numPages k n) ++ s.pips.map PIPWrapper.pipPageIdx).Sublist
      (aps ++ s.pipPages) := by
    rw [pipPages_eq h.updatedLast]
    exact (take_sublist ..).append (sublist_append_left ..)
  refine Stored.layout ?_ (by rw [hheader, h.numElements]) (by rw [hwrite, h.numElements])
    hupdates fun p hp => ?_
  · rw [hpips, hnum]
    exact ⟨by rw [length_take, Nat.min_eq_left hle], h.pips, h.nodup.sublist hsub,
      fun p hp => h.allocated p (hsub.subset hp)⟩
  · rw [hlast] at hp
    rcases hpage with hmod | hsame
    · exact .inr hmod
    · -- the cached page is the last page of the checkpoint
      rw [← hsame, ← h.length_aps, take_length]
      exact (h.lastAP p hp).imp_right fun ⟨hmod, heq⟩ => heq ▸ hmod

/-- The writer has only appended to the list of the last checkpoint, and either that list fills its
pages or the writer has added no page. -/
def CanRollback (k : ℕ) (l : ListPair V) : Prop :=
  l.checkpointed <+: l.current ∧
    (l.checkpointed.length % k = 0 ∨ numPages k l.current.length = numPages k l.checkpointed.length)

lemma getElem?_of_init {xs ys : List α} (h : xs <+: ys) {x : α}
    (hx : xs[i]? = some x) : ys[i]? = some x := by
  obtain ⟨zs, rfl⟩ := h
  rw [List.getElem?_append_left (getElem?_eq_some_iff.mp hx).1, hx]

/-- A rollback returns to the list of the last checkpoint. -/
lemma rollbackAll_rep (hk : 0 < k)
    (h : s.Rep k m alloc aps ckpt cur written) (hcan : CanRollback k ⟨ckpt, cur, written⟩) :
    ∃ s' aps', s.rollbackAll k m = some s' ∧ s'.Rep k m alloc aps' ckpt ckpt false := by
  obtain ⟨sf, hstep, hch⟩ := rollbackAll_spec h.layout h.contents.ok fun htu => (h.settled htu).2
  refine ⟨_, _, hstep, h.layout.rolledBack hk rfl rfl rfl rfl rfl rfl hcan.2, ?_, rfl,
    fun _ => ⟨rfl, rfl⟩⟩
  have hcontents := h.changesIn hch
  have htake : ∀ {a p}, (aps.take (numPages k ckpt.length))[a]? = some p → aps[a]? = some p :=
    getElem?_of_init ⟨_, take_append_drop ..⟩
  refine ⟨hcontents.ok, fun i v p hv hp => ?_, fun i v p hv hp hsh => ?_, fun j p page hj => ?_⟩
  · exact hcontents.current i v p (getElem?_of_init hcan.1 hv) (htake hp)
  · exact hcontents.checkpointed i v p hv (htake hp) hsh
  · obtain ⟨halloc, hmap⟩ := hcontents.record j p page hj
    exact ⟨halloc, fun hp => hmap (mem_of_mem_take hp)⟩

/-- The PIPs in the shadow file change no element. -/
lemma Rep.checkpoint (h : s.Rep k m alloc aps ckpt cur written) :
    s.checkpoint.Rep k m alloc aps ckpt cur written where
  layout := h.layout.congr ⟨rfl, rfl, rfl, rfl, rfl, rfl, rfl⟩
  contents := h.changesIn (checkpoint_changesIn h.contents.ok)
  hasTransactionalUpdates := h.hasTransactionalUpdates
  settled := h.settled

/-- A rollback is possible before the checkpoint of the owner is complete, or when the owner has not
written. -/
def Action.Allowed (k : ℕ) (l : ListPair V) : Action V → Prop
  | .rollback .checkpointInMemory => l.written = false
  | .rollback _ => CanRollback k l
  | _ => True

/-- A checkpoint that fails returns to the last one. -/
lemma failedCheckpoint_rep (hk : 0 < k) (h : s.Rep k m alloc aps ckpt cur written)
    {stage : CheckpointStage} (ha : Action.Allowed k ⟨ckpt, cur, written⟩ (.rollback stage)) :
    ∃ s' aps', s.failedCheckpoint k m stage = some s' ∧ s'.Rep k m alloc aps' ckpt ckpt false := by
  cases stage with
  | writing => exact rollbackAll_rep hk h ha
  | checkpoint => exact rollbackAll_rep hk h.checkpoint ha
  | checkpointInMemory =>
    have htu := h.hasTransactionalUpdates.trans ha
    obtain ⟨rfl, hpips⟩ := h.settled htu
    have hrep : Rep k m alloc { s with header := s.headerForWriteTrx } aps cur cur written :=
      ⟨{ h.layout with numElements := h.layout.numElementsForWriteTrx }, { h.contents with },
        h.hasTransactionalUpdates, h.settled⟩
    obtain ⟨s', aps', hstep, hrep'⟩ := rollbackAll_rep hk hrep ⟨prefix_rfl, .inr rfl⟩
    exact ⟨s', aps', bind_eq_some_iff.mpr ⟨_, checkpointIndex_of_settled htu hpips, hstep⟩, hrep'⟩

/-! ### Runs -/

/-- The writer reads the current list. -/
lemma Rep.get_checkpoint (hk : 0 < k) (h : s.Rep k m alloc aps ckpt cur written)
    (hv : cur[i]? = some v) :
    s.get k m i .checkpoint = some v := by
  obtain ⟨p, hp⟩ := h.layout.exists_page hk (getElem?_eq_some_iff.mp hv).1
  refine bind_eq_some_iff.mpr ⟨p, h.layout.getAPPageIdx hp, ?_⟩
  have hcur := h.contents.current i v p hv hp
  cases hsh : s.isShadowed p with
  | false =>
    rw [if_pos (by simp), ← view_of_not_isShadowed hsh]
    exact hcur
  | true =>
    cases htu : s.hasTransactionalUpdates with
    | false =>
      rw [if_pos (by simp)]
      exact h.contents.checkpointed i v p (by rw [← (h.settled htu).1]; exact hv) hp hsh
    | true =>
      rw [if_neg (by simp)]
      rw [view_of_isShadowed hsh] at hcur
      cases hpage : s.shadowFile.shadowPage p with
      | none | some page =>
        rw [hpage] at hcur
        exact hcur

/-- A reader reads the list of the last checkpoint. -/
lemma Rep.get_readOnly (hk : 0 < k) (h : s.Rep k m alloc aps ckpt cur written)
    (happend : ckpt <+: cur) (hv : ckpt[i]? = some v) : s.get k m i .readOnly = some v := by
  have hi := (getElem?_eq_some_iff.mp hv).1
  obtain ⟨p, hp⟩ := h.layout.exists_page hk (hi.trans_le h.layout.le)
  refine bind_eq_some_iff.mpr ⟨p, h.layout.getAPPageIdx_readOnly (div_lt_numPages hk hi) hp, ?_⟩
  rw [if_pos (by simp)]
  cases hsh : s.isShadowed p with
  | false =>
    rw [← view_of_not_isShadowed hsh]
    exact h.contents.current i v p (getElem?_of_init happend hv) hp
  | true => exact h.contents.checkpointed i v p hv hp hsh

/-- Different elements have different slots. -/
lemma Rep.slot_inj (hk : 0 < k)
    (h : s.Rep k m alloc aps ckpt cur written) (hi : i < cur.length) (hj : j < cur.length)
    (hpage : s.getAPPageIdx m (i / k) .checkpoint = s.getAPPageIdx m (j / k) .checkpoint)
    (hslot : i % k = j % k) : i = j := by
  obtain ⟨p, hp⟩ := h.layout.exists_page hk hi
  obtain ⟨q, hq⟩ := h.layout.exists_page hk hj
  rw [h.layout.getAPPageIdx hp, h.layout.getAPPageIdx hq, Option.some.injEq] at hpage
  have hlt := (getElem?_eq_some_iff.mp hp).1
  refine Nat.ext_div_mod ((getElem?_inj hlt h.layout.nodup_aps).mp ?_) hslot
  rw [hp, hq, hpage]

/-! ### Opening -/

section opening

variable {file : ℕ → Page V} {header : DiskArrayHeader} {bypassShadowing : Bool}
  {fuel numAllocated : ℕ} (hk : 0 < k)
  (hload : load k m file header bypassShadowing fuel numAllocated = some s)
  (hstored : Stored k m alloc numAllocated s.pips aps header.numElements)

include hk hload hstored

/-- What the constructor reads from the file. -/
lemma load_spec :
    ∃ last, s = { new file false with
        header, headerForWriteTrx := header, pips := s.pips,
        numAllocated, lastPageOnDisk := last } ∧
      (bypassShadowing = false ∧ last = none ∨ bypassShadowing = true ∧
        (header.numElements = 0 ∧ last = some 0 ∨ 0 < header.numElements ∧
          ∃ p, aps[(header.numElements - 1) / k]? = some p ∧ last = some p)) := by
  obtain ⟨pips, -, hload⟩ := bind_eq_some_iff.mp hload
  cases bypassShadowing with
  | false =>
    cases hload
    exact ⟨none, rfl, .inl ⟨rfl, rfl⟩⟩
  | true =>
    rw [if_pos rfl, updateLastPageOnDisk] at hload
    rcases Nat.eq_zero_or_pos header.numElements with hn | hn
    · rw [if_pos hn] at hload
      cases hload
      exact ⟨some 0, rfl, .inr ⟨rfl, .inl ⟨hn, rfl⟩⟩⟩
    · rw [if_neg (Nat.ne_of_gt hn)] at hload
      obtain ⟨p, hp, hload⟩ := bind_eq_some_iff.mp hload
      cases hload
      have hlt : (header.numElements - 1) / k < aps.length := by
        rw [hstored.length_aps]
        exact div_lt_numPages hk (by omega)
      rw [getAPPageIdx_readOnly, hstored.represents.lookup_eq _ hlt] at hp
      exact ⟨some p, rfl, .inr ⟨rfl, .inr ⟨hn, p, by rw [getElem?_eq_getElem hlt, hp], rfl⟩⟩⟩

/-- An opened array has the layout of its elements. -/
lemma load_layout : s.Layout k m alloc aps header.numElements header.numElements := by
  obtain ⟨last, hs, -⟩ := load_spec hk hload hstored
  generalize s.pips = pips at hs hstored
  subst hs
  exact hstored.layout rfl rfl rfl nofun

/-- An opened array is the list that its pages hold. -/
lemma load_rep {list : List V} (hlength : list.length = header.numElements)
    (hlist : ∀ i v p, list[i]? = some v → aps[i / k]? = some p →
      (file p).slot (i % k) = some v) :
    s.Rep k m alloc aps list list false := by
  have hlayout := load_layout hk hload hstored
  obtain ⟨last, hs, -⟩ := load_spec hk hload hstored
  generalize s.pips = pips at hs
  subst hs
  refine ⟨hlength ▸ hlayout, ⟨nofun, fun i v p hv hp => ?_, fun i v p hv hp _ => hlist i v p hv hp,
    nofun⟩, rfl, fun _ => ⟨rfl, rfl⟩⟩
  rw [view]
  split_ifs <;> exact hlist i v p hv hp

end opening

/-! ### Runs from an opened array -/

instance (l : ListPair V) [DecidableEq V] : Decidable (CanRollback k l) :=
  inferInstanceAs (Decidable (_ ∧ _))

instance (l : ListPair V) (a : Action V) [DecidableEq V] : Decidable (a.Allowed k l) :=
  match a with
  | .rollback .checkpointInMemory => inferInstanceAs (Decidable (l.written = false))
  | .rollback .writing | .rollback .checkpoint => inferInstanceAs (Decidable (CanRollback k l))
  | .write _ | .update .. | .resize .. | .checkpoint => inferInstanceAs (Decidable True)

/-- Every allowed action is one on the lists. -/
lemma step_rep (hk : 0 < k) (hm : 0 < m) (halloc : Injective alloc) {l l' : ListPair V}
    (h : s.Rep k m alloc aps l.checkpointed l.current l.written)
    {a : Action V} (ha : a.Allowed k l) (hstep : listStep l a = some l') :
    ∃ s' aps', s.step k m alloc a = some s' ∧
      s'.Rep k m alloc aps' l'.checkpointed l'.current l'.written := by
  cases a with
  | write ws =>
    obtain ⟨cur', hws, rfl⟩ := map_eq_some_iff.mp hstep
    exact write_spec hk hm halloc h hws
  | update i v =>
    simp only [listStep] at hstep
    split_ifs at hstep with hi
    obtain rfl := some.inj hstep
    obtain ⟨s', hs', hrep⟩ := update_spec hk h hi v
    exact ⟨s', aps, hs', hrep⟩
  | resize n v =>
    obtain rfl := some.inj hstep
    refine write_spec hk hm halloc h ?_
    rw [h.layout.numElementsForWriteTrx]
    exact foldlM_listWrite_replicate ..
  | checkpoint =>
    obtain rfl := some.inj hstep
    obtain ⟨s', hs', hrep⟩ := checkpointAll_rep hk h
    exact ⟨s', aps, hs', hrep⟩
  | rollback stage =>
    obtain rfl := some.inj hstep
    exact failedCheckpoint_rep hk h ha

/-- **A disk array is a list**, from its opening on and in every run whose rollbacks find a writer
that has only appended and has added no array page behind one with room, and do not come after the
checkpoint of an owner that has written. -/
theorem run_get (hk : 0 < k) (hm : 0 < m) (halloc : Function.Injective alloc)
    {file : ℕ → Page V} {header : DiskArrayHeader} {bypassShadowing : Bool}
    {fuel numAllocated : ℕ} {array : DiskArray V}
    (hload : load k m file header bypassShadowing fuel numAllocated = some array)
    (hstored : Stored k m alloc numAllocated array.pips aps header.numElements) {list : List V}
    (hlength : list.length = header.numElements) (hlist : ∀ i v p, list[i]? = some v →
      aps[i / k]? = some p → (file p).slot (i % k) = some v)
    {as : List (Action V)} {l : ListPair V}
    (hrun : as.foldlM listStep ⟨list, list, false⟩ = some l)
    (hallowed : Fold.Guarded listStep (fun l a => a.Allowed k l) ⟨list, list, false⟩ as) :
    ∃ s, array.run k m alloc as = some s ∧
      s.header.numElements = l.checkpointed.length ∧
      s.headerForWriteTrx.numElements = l.current.length ∧
      (∀ i v, l.current[i]? = some v → s.get k m i .checkpoint = some v) ∧
      (l.checkpointed <+: l.current →
        ∀ i v, l.checkpointed[i]? = some v → s.get k m i .readOnly = some v) ∧
      ∀ i j, i < l.current.length → j < l.current.length →
        s.getAPPageIdx m (i / k) .checkpoint = s.getAPPageIdx m (j / k) .checkpoint →
        i % k = j % k → i = j := by
  obtain ⟨s, hs, aps, hrep⟩ := Fold.foldlM_guarded_simulation listStep
    (fun l a => a.Allowed k l) (step k m alloc)
    (fun l s => ∃ aps, s.Rep k m alloc aps l.checkpointed l.current l.written)
    (fun l s a l' ⟨aps, hrep⟩ ha hstep => by
      obtain ⟨s', aps', hs', hrep'⟩ := step_rep hk hm halloc hrep ha hstep
      exact ⟨s', hs', aps', hrep'⟩)
    ⟨aps, load_rep hk hload hstored hlength hlist⟩ hallowed hrun
  exact ⟨s, hs, hrep.layout.numElements, hrep.layout.numElementsForWriteTrx,
    fun i v hv => hrep.get_checkpoint hk hv, fun happend i v hv => hrep.get_readOnly hk happend hv,
    fun i j hi hj hpage hslot => hrep.slot_inj hk hi hj hpage hslot⟩

/-- The PIP of an array with the array pages 1 and 3. -/
def storedPIP : PIP := ⟨none, fun offset => [1, 3][offset]?⟩

/-- A file with the array `[1, 2, 3, 4]`. -/
def storedFile : ℕ → Page ℕ
  | 1 => .array fun i => [1, 2][i]?
  | 2 => .pip storedPIP
  | 3 => .array fun i => [3, 4][i]?
  | _ => .blank

/-- The array as it is opened. -/
def storedArray : DiskArray ℕ :=
  { new storedFile false with
    header := ⟨4, some 2⟩
    headerForWriteTrx := ⟨4, some 2⟩
    pips := [⟨2, storedPIP⟩]
    lastPageOnDisk := some 3
    numAllocated := 3 }

lemma storedArray_stored : Stored 2 3 Nat.succ 3 storedArray.pips [1, 3] 4 :=
  ⟨rfl, ⟨rfl, by decide⟩, by decide, by decide⟩

/-- A writer that appends to the array that was opened and rolls back, and another one. -/
theorem run_get_append :
    ∃ s, storedArray.run 2 3 Nat.succ [.write [.pushBack 5], .rollback .writing,
        .write [.pushBack 6, .pushBack 7, .pushBack 8]] = some s ∧
      s.get 2 3 4 .checkpoint = some 6 ∧ s.get 2 3 3 .readOnly = some 4 := by
  obtain ⟨s, hs, -, -, hget, hread, -⟩ := run_get (k := 2) (m := 3) (by decide) (by decide)
    Nat.succ_injective
    (show load 2 3 storedFile ⟨4, some 2⟩ true 1 3 = some storedArray from rfl) storedArray_stored
    (show [1, 2, 3, 4].length = 4 from rfl)
    (fun i v p hv hp => by
      have hi : i < 4 := (getElem?_eq_some_iff.mp hv).1
      obtain rfl | rfl | rfl | rfl : i = 0 ∨ i = 1 ∨ i = 2 ∨ i = 3 := by omega
      all_goals
        cases hv
        cases hp
        rfl)
    (show [Action.write [.pushBack 5], .rollback .writing,
      .write [.pushBack 6, .pushBack 7, .pushBack 8]].foldlM listStep
        ⟨[1, 2, 3, 4], [1, 2, 3, 4], false⟩ =
          some ⟨[1, 2, 3, 4], [1, 2, 3, 4, 6, 7, 8], true⟩ by decide +kernel)
    (by decide +kernel)
  exact ⟨s, hs, hget 4 6 rfl, hread (by decide) 3 4 rfl⟩

/-- After a writer that added an array page was rolled back, the next element goes to that page: the
array is `[1, 4]` and its element 1 is the 2 of the writer that was rolled back. -/
theorem rollback_newPage :
    [Action.write [.pushBack 1], .checkpoint, .write [.pushBack 2, .pushBack 3], .rollback .writing,
        .write [.pushBack 4]].foldlM listStep ⟨[], [], false⟩ = some ⟨[1], [1, 4], true⟩ ∧
      ((new (fun _ => .blank) true).run 2 3 Nat.succ
        [.write [.pushBack 1], .checkpoint, .write [.pushBack 2, .pushBack 3], .rollback .writing,
          .write [.pushBack 4]]).bind (·.get 2 3 1 .checkpoint) = some 2 := by
  decide +kernel

end DiskArray

end Ladybug
