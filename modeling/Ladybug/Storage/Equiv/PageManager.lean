import Ladybug.Storage.PageManager
import Mathlib.Data.Multiset.OrderedMonoid
import Mathlib.Order.Interval.Finset.Nat
import Mathlib.Tactic.Abel

/-!
# No page has two owners

Every operation moves pages between the owners, the free lists and the list of ranges that wait for
the next checkpoint, so the correctness proofs count pages: `pagesOf` is the multiset of the pages
of some ranges, and no page is in the sum twice.

* `PageSystem.Valid.step`: every allowed action succeeds and keeps the invariant;
* `pageSystem_disjoint`: the same for whole runs, and what a checkpoint makes of the free ranges.
-/

namespace Ladybug

open List hiding Disjoint disjoint_left
open Multiset (disjoint_left mem_add mem_of_le nodup_add nodup_of_le)
open SortedFreeList (insert popLowerBound)
open Option (bind_eq_bind bind_some map_some)
open PageRange (stop)
open PageSystem (step)

/-! ### Pages -/

def PageRange.pages (r : PageRange) : Multiset ℕ := range' r.startPageIdx r.numPages

def pagesOf (rs : List PageRange) : Multiset ℕ := (rs.map PageRange.pages).sum

variable {i n level p : ℕ} {entry r : PageRange} {pm : PageManager} {rs : List PageRange}
  {allocator : OptimisticAllocator} {ls : List SortedFreeList} {l : SortedFreeList}

lemma PageRange.mem_pages : p ∈ r.pages ↔ r.startPageIdx ≤ p ∧ p < r.stop := by
  simp [PageRange.pages, stop]

lemma PageRange.nodup_pages (r : PageRange) : r.pages.Nodup := by
  simpa [PageRange.pages] using nodup_range'

lemma PageRange.start_mem_pages (h : 0 < r.numPages) : r.startPageIdx ∈ r.pages := by
  rw [mem_pages, stop]
  omega

@[simp] lemma PageRange.pages_empty (start : ℕ) : PageRange.pages ⟨start, 0⟩ = 0 := rfl

/-- A range splits into its first pages and the rest. -/
lemma PageRange.pages_add (start m n : ℕ) :
    PageRange.pages ⟨start, m + n⟩ = PageRange.pages ⟨start, m⟩ +
      PageRange.pages ⟨start + m, n⟩ := by
  simp only [PageRange.pages, Multiset.coe_add, range'_append_1]

@[simp] lemma pagesOf_nil : pagesOf [] = 0 := rfl

@[simp] lemma pagesOf_cons (r : PageRange) (rs : List PageRange) :
    pagesOf (r :: rs) = r.pages + pagesOf rs := by
  rw [pagesOf, map_cons, sum_cons]
  rfl

@[simp] lemma pagesOf_append (rs rs' : List PageRange) :
    pagesOf (rs ++ rs') = pagesOf rs + pagesOf rs' := by
  rw [pagesOf, map_append, sum_append]
  rfl

/-- The order of the ranges does not matter. -/
lemma pagesOf_perm {rs' : List PageRange} (h : rs.Perm rs') : pagesOf rs = pagesOf rs' :=
  (h.map PageRange.pages).sum_eq

lemma mem_pagesOf : p ∈ pagesOf rs ↔ ∃ r ∈ rs, p ∈ r.pages := by
  induction rs with
  | nil => simp
  | cons r rs ih => simp [ih]

/-- No page of some ranges occurs twice when the ranges are disjoint, and only then. -/
lemma nodup_pagesOf_iff : (pagesOf rs).Nodup ↔ rs.Pairwise fun a b => Disjoint a.pages b.pages := by
  induction rs with
  | nil => simp
  | cons r rs ih =>
    rw [pagesOf_cons, nodup_add, pairwise_cons, ih, and_iff_right r.nodup_pages, and_comm]
    refine and_congr_left fun _ => ⟨fun h b hb => ?_, fun h => ?_⟩
    · exact disjoint_left.mpr fun hp hpb => disjoint_left.mp h hp (mem_pagesOf.mpr ⟨b, hb, hpb⟩)
    · refine disjoint_left.mpr fun hp hmem => ?_
      obtain ⟨b, hb, hpb⟩ := mem_pagesOf.mp hmem
      exact disjoint_left.mp (h b hb) hp hpb

/-- A range that is not empty is not among ranges with other pages. -/
lemma not_mem_of_nodup (hr : 0 < r.numPages) (h : (r.pages + pagesOf rs).Nodup) : r ∉ rs := by
  intro hmem
  have hstart := PageRange.start_mem_pages hr
  exact disjoint_left.mp (nodup_add.mp h).2.2 hstart (mem_pagesOf.mpr ⟨r, hmem, hstart⟩)

/-! ### Free lists -/

/-- The comparator of the free lists is total. -/
lemma eq_of_not_entryCmp {a b : PageRange} (hab : ¬entryCmp a b) (hba : ¬entryCmp b a) : a = b := by
  obtain ⟨s, n⟩ := a
  obtain ⟨s', n'⟩ := b
  simp only [entryCmp] at hab hba
  split_ifs at hab hba <;> simp_all <;> omega

/-- Inserting a new entry adds just it. -/
lemma SortedFreeList.insert_perm (h : entry ∉ l) : (insert entry l).Perm (entry :: l) := by
  induction l with
  | nil => exact List.Perm.refl _
  | cons x xs ih =>
    rw [mem_cons, not_or] at h
    rw [insert]
    split_ifs with hlt hgt
    · exact List.Perm.refl _
    · exact ((ih h.2).cons x).trans (List.Perm.swap entry x xs)
    · exact absurd (eq_of_not_entryCmp hlt hgt) h.1

/-- The entry that is found is large enough, and the rest is left. -/
lemma SortedFreeList.popLowerBound_spec {l' : SortedFreeList}
    (h : popLowerBound ⟨0, n⟩ l = some (entry, l')) :
    l.Perm (entry :: l') ∧ n ≤ entry.numPages := by
  induction l generalizing l' with
  | nil => simp [popLowerBound] at h
  | cons x xs ih =>
    rw [popLowerBound] at h
    split_ifs at h with hlt
    · obtain ⟨⟨entry', xs'⟩, hpop, heq⟩ := Option.map_eq_some_iff.mp h
      obtain ⟨rfl, rfl⟩ := Prod.mk.inj heq
      obtain ⟨hperm, hle⟩ := ih hpop
      exact ⟨(hperm.cons x).trans (List.Perm.swap entry' x xs'), hle⟩
    · obtain ⟨rfl, rfl⟩ := Prod.mk.inj (Option.some.inj h)
      refine ⟨List.Perm.refl _, ?_⟩
      simp only [entryCmp] at hlt
      split_ifs at hlt with heq
      · exact Nat.le_of_eq heq.symm
      · simpa using hlt

namespace FreeSpaceManager

/-- Changing one level changes the union alike. -/
lemma modifyFreeList_perm {f : SortedFreeList → SortedFreeList}
    (hf : (f (ls.getD level [])).Perm (entry :: ls.getD level [])) :
    (modifyFreeList f ls level).flatten.Perm (entry :: ls.flatten) := by
  induction ls generalizing level with
  | nil =>
    induction level with
    | zero => simpa [modifyFreeList] using hf
    | succ level ih => simpa [modifyFreeList] using ih (by simpa using hf)
  | cons l ls ih =>
    cases level with
    | zero => simpa [modifyFreeList] using hf.append_right ls.flatten
    | succ level =>
      have hrest : (modifyFreeList f ls level).flatten.Perm (entry :: ls.flatten) :=
        ih (by simpa using hf)
      simp only [modifyFreeList, flatten_cons]
      exact (hrest.append_left l).trans perm_middle

/-- A found entry is taken out and is large enough. -/
lemma searchFreeLists_spec {ls' : List SortedFreeList}
    (h : searchFreeLists n ls level = some (entry, ls')) :
    ls.flatten.Perm (entry :: ls'.flatten) ∧ n ≤ entry.numPages := by
  induction ls generalizing level ls' with
  | nil => simp [searchFreeLists] at h
  | cons l ls ih =>
    -- both ways to go on leave the first list as it is
    have hrest : ∀ {level}, ((searchFreeLists n ls level).map fun x => (x.1, l :: x.2)) =
        some (entry, ls') → (l :: ls).flatten.Perm (entry :: ls'.flatten) ∧ n ≤ entry.numPages := by
      intro level h
      obtain ⟨⟨entry', rest⟩, hsearch, heq⟩ := Option.map_eq_some_iff.mp h
      obtain ⟨rfl, rfl⟩ := Prod.mk.inj heq
      obtain ⟨hperm, hle⟩ := ih hsearch
      exact ⟨(hperm.append_left l).trans perm_middle, hle⟩
    cases level with
    | succ level => exact hrest h
    | zero =>
      rw [searchFreeLists] at h
      cases hpop : popLowerBound ⟨0, n⟩ l with
      | none =>
        rw [hpop] at h
        exact hrest h
      | some x =>
        obtain ⟨entry', l'⟩ := x
        rw [hpop] at h
        obtain ⟨rfl, rfl⟩ := Prod.mk.inj (Option.some.inj h)
        obtain ⟨hperm, hle⟩ := SortedFreeList.popLowerBound_spec hpop
        exact ⟨hperm.append_right ls.flatten, hle⟩

/-- The free ranges are not empty, and `numEntries` counts them. -/
structure Valid (fsm : FreeSpaceManager) : Prop where
  free_pos : ∀ r ∈ fsm.freeLists.flatten, 0 < r.numPages
  uncheckpointed_pos : ∀ r ∈ fsm.uncheckpointedFreePageRanges, 0 < r.numPages
  numEntries_eq : fsm.numEntries = fsm.freeLists.flatten.length

variable {fsm : FreeSpaceManager}

/-- The free lists get the pages `given` and lose the pages `taken`. -/
structure Moves (given taken : Multiset ℕ) (fsm fsm' : FreeSpaceManager) : Prop where
  valid : fsm'.Valid
  pages_eq : taken + pagesOf fsm'.freeLists.flatten = given + pagesOf fsm.freeLists.flatten
  uncheckpointed_eq : fsm'.uncheckpointedFreePageRanges = fsm.uncheckpointedFreePageRanges

variable {given given' taken taken' : Multiset ℕ} {fsm1 fsm2 : FreeSpaceManager} {prev : PageRange}

lemma Moves.pages (h : Moves given 0 fsm fsm1) :
    pagesOf fsm1.freeLists.flatten = given + pagesOf fsm.freeLists.flatten := by
  simpa using h.pages_eq

lemma Moves.trans (h : Moves given taken fsm fsm1) (h' : Moves given' taken' fsm1 fsm2) :
    Moves (given + given') (taken + taken') fsm fsm2 := by
  refine ⟨h'.valid, ?_, h'.uncheckpointed_eq.trans h.uncheckpointed_eq⟩
  rw [add_assoc, h'.pages_eq, add_left_comm, h.pages_eq]
  abel

section

variable (hv : fsm.Valid)

include hv

/-- A new entry joins the free lists. -/
lemma Valid.addFreePages_spec (hpos : 0 < entry.numPages) (hnot : entry ∉ fsm.freeLists.flatten) :
    ∃ fsm', fsm.addFreePages entry = some fsm' ∧ Moves entry.pages 0 fsm fsm' ∧
      fsm'.freeLists.flatten.Perm (entry :: fsm.freeLists.flatten) := by
  have hnot' : entry ∉ fsm.freeLists.getD (getLevel entry.numPages) [] := by
    intro hmem
    rw [getD_eq_getElem?_getD] at hmem
    cases hget : fsm.freeLists[getLevel entry.numPages]? with
    | none => simp [hget] at hmem
    | some l =>
      rw [hget, Option.getD_some] at hmem
      exact hnot (mem_flatten.mpr ⟨l, mem_of_getElem? hget, hmem⟩)
  have hperm := modifyFreeList_perm (SortedFreeList.insert_perm hnot')
  refine ⟨_, if_pos ⟨hpos, hnot'⟩, ⟨⟨fun r hr => ?_, hv.uncheckpointed_pos, ?_⟩, ?_, rfl⟩, hperm⟩
  · rcases mem_cons.mp (hperm.subset hr) with rfl | hmem
    · exact hpos
    · exact hv.free_pos r hmem
  · exact (congrArg (· + 1) hv.numEntries_eq).trans hperm.length_eq.symm
  · rw [zero_add, pagesOf_perm hperm, pagesOf_cons]

lemma Valid.addFreePages (hpos : 0 < entry.numPages)
    (hnodup : (entry.pages + pagesOf fsm.freeLists.flatten).Nodup) :
    ∃ fsm', fsm.addFreePages entry = some fsm' ∧ Moves entry.pages 0 fsm fsm' ∧
      fsm'.numEntries = fsm.numEntries + 1 := by
  obtain ⟨fsm', hadd, hmoves, hperm⟩ := hv.addFreePages_spec hpos (not_mem_of_nodup hpos hnodup)
  refine ⟨fsm', hadd, hmoves, ?_⟩
  rw [hmoves.valid.numEntries_eq, hperm.length_eq, hv.numEntries_eq, length_cons]

/-- Disjoint ranges are added one by one. -/
lemma Valid.foldlM_addFreePages (hpos : ∀ r ∈ rs, 0 < r.numPages)
    (hnodup : (pagesOf rs + pagesOf fsm.freeLists.flatten).Nodup) :
    ∃ fsm', rs.foldlM FreeSpaceManager.addFreePages fsm = some fsm' ∧
      Moves (pagesOf rs) 0 fsm fsm' := by
  induction rs generalizing fsm with
  | nil => exact ⟨fsm, rfl, hv, rfl, rfl⟩
  | cons r rs ih =>
    rw [pagesOf_cons, add_assoc] at hnodup
    obtain ⟨fsm1, hadd, hmoves1, -⟩ := hv.addFreePages (hpos r (by simp))
      (nodup_of_le (add_le_add_right le_add_self _) hnodup)
    rw [add_left_comm, ← hmoves1.pages] at hnodup
    obtain ⟨fsm', hloop, hmoves⟩ :=
      ih hmoves1.valid (fun x hx => hpos x (mem_cons_of_mem r hx)) hnodup
    refine ⟨fsm', ?_, ?_⟩
    · rw [foldlM_cons, hadd]
      exact hloop
    · rw [pagesOf_cons]
      exact hmoves1.trans hmoves

/-- The first pages of a range are handed out, and the rest is free. -/
lemma Valid.splitPageRange {chunk : PageRange}
    (hle : n ≤ chunk.numPages) (hnodup : (chunk.pages + pagesOf fsm.freeLists.flatten).Nodup) :
    ∃ fsm', fsm.splitPageRange chunk n = some (⟨chunk.startPageIdx, n⟩, fsm') ∧
      Moves chunk.pages (PageRange.pages ⟨chunk.startPageIdx, n⟩) fsm fsm' ∧
      fsm'.numEntries ≤ fsm.numEntries + 1 := by
  rw [FreeSpaceManager.splitPageRange, if_neg (Nat.not_lt.mpr hle)]
  by_cases hlt : n < chunk.numPages
  · have hsplit : chunk.pages = PageRange.pages ⟨chunk.startPageIdx, n⟩ +
        PageRange.pages ⟨chunk.startPageIdx + n, chunk.numPages - n⟩ := by
      rw [← PageRange.pages_add, Nat.add_sub_cancel' hle]
    rw [hsplit, add_assoc] at hnodup
    obtain ⟨fsm', hadd, hmoves, hnum⟩ :=
      hv.addFreePages (Nat.sub_pos_of_lt hlt) (nodup_add.mp hnodup).2.1
    rw [if_pos hlt, hadd]
    refine ⟨fsm', rfl, ⟨hmoves.valid, ?_, hmoves.uncheckpointed_eq⟩, hnum.le⟩
    rw [hmoves.pages, hsplit, add_assoc]
  · have heq : n = chunk.numPages := by omega
    rw [if_neg hlt]
    exact ⟨fsm, rfl, ⟨hv, by rw [heq], rfl⟩, Nat.le_succ _⟩

/-- `popFreePages` changes nothing, or hands out a part of a free range. -/
lemma Valid.popFreePages (hnodup : (pagesOf fsm.freeLists.flatten).Nodup) (n : ℕ) :
    fsm.popFreePages n = some (none, fsm) ∨
      ∃ start fsm', fsm.popFreePages n = some (some ⟨start, n⟩, fsm') ∧
        Moves 0 (PageRange.pages ⟨start, n⟩) fsm fsm' ∧ fsm'.numEntries ≤ fsm.numEntries := by
  unfold FreeSpaceManager.popFreePages
  split_ifs with hpos
  · cases hsearch : searchFreeLists n fsm.freeLists (getLevel n) with
    | none => exact .inl rfl
    | some x =>
      obtain ⟨entry, freeLists⟩ := x
      right
      obtain ⟨hperm, hle⟩ := searchFreeLists_spec hsearch
      rw [pagesOf_perm hperm, pagesOf_cons] at hnodup
      have hnum : fsm.numEntries = freeLists.flatten.length + 1 :=
        hv.numEntries_eq.trans hperm.length_eq
      have hv1 : Valid { fsm with freeLists := freeLists, numEntries := fsm.numEntries - 1 } :=
        ⟨fun r hr => hv.free_pos r (hperm.symm.subset (mem_cons_of_mem entry hr)),
          hv.uncheckpointed_pos, Nat.sub_eq_of_eq_add hnum⟩
      obtain ⟨fsm', hsplit, hmoves, hle'⟩ := hv1.splitPageRange hle hnodup
      refine ⟨entry.startPageIdx, fsm', ?_, ⟨hmoves.valid, ?_, hmoves.uncheckpointed_eq⟩, ?_⟩
      · simp [hsplit]
      · rw [hmoves.pages_eq, zero_add, pagesOf_perm hperm, pagesOf_cons]
      · simp only at hle'
        omega
  · exact .inl rfl

end

/-! ### Merging -/

/-- No range ends where another one starts. -/
def Separated (rs : List PageRange) : Prop := ∀ a ∈ rs, ∀ b ∈ rs, a.stop ≠ b.startPageIdx

/-- What the merged ranges are, while the loop is running: they are separated and end before the
range that may still grow. -/
structure MergedBefore (fsm : FreeSpaceManager) (prev : PageRange) : Prop where
  valid : fsm.Valid
  prev_pos : 0 < prev.numPages
  separated : Separated fsm.freeLists.flatten
  stop_lt : ∀ r ∈ fsm.freeLists.flatten, r.stop < prev.startPageIdx

/-- The finished range joins the separated ones. -/
lemma MergedBefore.add (h : fsm.MergedBefore prev) :
    ∃ fsm', fsm.addFreePages prev = some fsm' ∧ Moves prev.pages 0 fsm fsm' ∧
      Separated fsm'.freeLists.flatten ∧ ∀ r ∈ fsm'.freeLists.flatten, r.stop ≤ prev.stop := by
  have hprev : prev.startPageIdx < prev.stop := Nat.lt_add_of_pos_right h.prev_pos
  have hlt : ∀ r ∈ fsm.freeLists.flatten, r.startPageIdx < prev.startPageIdx ∧
      r.stop < prev.startPageIdx := by
    intro r hr
    have hstop := h.stop_lt r hr
    exact ⟨lt_of_le_of_lt (Nat.le_add_right _ _) hstop, hstop⟩
  obtain ⟨fsm', hadd, hmoves, hperm⟩ := h.valid.addFreePages_spec h.prev_pos fun hmem =>
    Nat.lt_irrefl _ (hlt prev hmem).1
  have hmem : ∀ r ∈ fsm'.freeLists.flatten, r = prev ∨ r ∈ fsm.freeLists.flatten :=
    fun r hr => mem_cons.mp (hperm.subset hr)
  refine ⟨fsm', hadd, hmoves, fun a ha b hb => ?_, fun r hr => ?_⟩
  · rcases hmem a ha with rfl | hold <;> rcases hmem b hb with rfl | hold'
    · omega
    · have := (hlt b hold').1
      omega
    · exact Nat.ne_of_lt (hlt a hold).2
    · exact h.separated a hold b hold'
  · rcases hmem r hr with rfl | hold
    · exact Nat.le_refl _
    · have := (hlt r hold).2
      omega

/-- **The merge loop** keeps the pages and separates the ranges. -/
lemma mergeLoop_spec {entries : List PageRange} (h : fsm.MergedBefore prev)
    (hpos : ∀ r ∈ entries, 0 < r.numPages)
    (hsorted : (prev :: entries).Pairwise fun a b => a.stop ≤ b.startPageIdx) :
    ∃ last fsm', mergeLoop entries prev fsm = some (last, fsm') ∧ fsm'.MergedBefore last ∧
      Moves (prev.pages + pagesOf entries) last.pages fsm fsm' := by
  induction entries generalizing prev fsm with
  | nil => exact ⟨prev, fsm, rfl, h, h.valid, by simp, rfl⟩
  | cons entry entries ih =>
    -- the sorted entries overlap neither `prev` nor each other
    obtain ⟨hprev, hsorted'⟩ := pairwise_cons.mp hsorted
    have hle : prev.stop ≤ entry.startPageIdx := hprev entry (by simp)
    have hpos' : ∀ r ∈ entries, 0 < r.numPages := fun r hr => hpos r (mem_cons_of_mem entry hr)
    rw [mergeLoop, if_neg (by rw [← stop]; omega)]
    by_cases hadj : prev.startPageIdx + prev.numPages = entry.startPageIdx
    · -- the two ranges become one
      rw [if_pos hadj]
      have hgrown : PageRange.pages { prev with numPages := prev.numPages + entry.numPages } =
          prev.pages + entry.pages := by
        rw [PageRange.pages_add, hadj]
      have hstop : stop { prev with numPages := prev.numPages + entry.numPages } = entry.stop := by
        simp only [stop]
        omega
      have hmerged : fsm.MergedBefore { prev with numPages := prev.numPages + entry.numPages } :=
        ⟨h.valid, Nat.add_pos_left h.prev_pos _, h.separated, h.stop_lt⟩
      obtain ⟨last, fsm', hloop, hm', hmoves⟩ := ih hmerged hpos' (by
        obtain ⟨hentry, hrest⟩ := pairwise_cons.mp hsorted'
        refine pairwise_cons.mpr ⟨fun r hr => ?_, hrest⟩
        rw [hstop]
        exact hentry r hr)
      rw [hgrown, add_assoc, ← pagesOf_cons] at hmoves
      exact ⟨last, fsm', hloop, hm', hmoves⟩
    · -- a gap
      rw [if_neg hadj]
      obtain ⟨fsm1, hadd, hmoves1, hsep1, hstop1⟩ := h.add
      have hmerged : fsm1.MergedBefore entry := by
        refine ⟨hmoves1.valid, hpos entry (by simp), hsep1, fun r hr => ?_⟩
        have hr' := hstop1 r hr
        have hprev' : prev.stop = prev.startPageIdx + prev.numPages := rfl
        omega
      obtain ⟨last, fsm', hloop, hm', hmoves⟩ := ih hmerged hpos' hsorted'
      refine ⟨last, fsm', by rw [hadd]; exact hloop, hm', ?_⟩
      simpa using hmoves1.trans hmoves

/-- What `finalizeCheckpoint` makes of the free ranges: the pages at the end of the file are cut
off, the others stay free, and no two ranges are adjacent. -/
lemma Valid.finalizeCheckpoint (hv : fsm.Valid) (fileNumPages : ℕ)
    (hnodup : (pagesOf (fsm.uncheckpointedFreePageRanges ++ fsm.freeLists.flatten)).Nodup) :
    ∃ fsm' fileNumPages', fsm.finalizeCheckpoint fileNumPages = some (fsm', fileNumPages') ∧
      fsm'.Valid ∧ fsm'.uncheckpointedFreePageRanges = [] ∧ Separated fsm'.freeLists.flatten ∧
      fileNumPages' ≤ fileNumPages ∧
      pagesOf (fsm.uncheckpointedFreePageRanges ++ fsm.freeLists.flatten) =
        pagesOf fsm'.freeLists.flatten +
          PageRange.pages ⟨fileNumPages', fileNumPages - fileNumPages'⟩ := by
  set all := fsm.uncheckpointedFreePageRanges ++ fsm.freeLists.flatten with hall
  unfold FreeSpaceManager.finalizeCheckpoint mergePageRanges
  dsimp only
  rw [← hall]
  have hpos : ∀ r ∈ all, 0 < r.numPages := fun r hr =>
    (mem_append.mp hr).elim (hv.uncheckpointed_pos r) (hv.free_pos r)
  have hperm := mergeSort_perm all fun a b => a.startPageIdx ≤ b.startPageIdx
  have hsorted : (all.mergeSort fun a b => a.startPageIdx ≤ b.startPageIdx).Pairwise
      fun a b => decide (a.startPageIdx ≤ b.startPageIdx) = true :=
    pairwise_mergeSort (fun a b c hab hbc => by simp only [decide_eq_true_eq] at *; omega)
      (fun a b => by simp only [Bool.or_eq_true, decide_eq_true_eq]; omega) all
  simp only [decide_eq_true_eq] at hsorted
  rw [← pagesOf_perm hperm] at hnodup ⊢
  replace hpos : ∀ r ∈ all.mergeSort fun a b => a.startPageIdx ≤ b.startPageIdx,
      0 < r.numPages := fun r hr => hpos r (hperm.subset hr)
  cases hsort : all.mergeSort fun a b => a.startPageIdx ≤ b.startPageIdx with
  | nil =>
    rw [hsort] at hperm
    have hnil := hperm.symm.eq_nil
    rw [hall, append_eq_nil_iff] at hnil
    refine ⟨_, fileNumPages, rfl, ⟨hv.free_pos, by simp, hv.numEntries_eq⟩, rfl, ?_, Nat.le_refl _,
      ?_⟩
    · intro a ha
      simp only [hnil.2] at ha
      exact absurd ha not_mem_nil
    · simp [hnil.2]
  | cons prev entries =>
    rw [hsort] at hnodup hsorted hpos
    have hstart : MergedBefore {} prev := by
      refine ⟨⟨?_, ?_, rfl⟩, hpos prev (by simp), ?_, ?_⟩ <;> simp [Separated]
    -- disjoint ranges that are ordered by their first pages come one after the other
    have hstops : (prev :: entries).Pairwise fun a b => a.stop ≤ b.startPageIdx := by
      refine (hsorted.and (nodup_pagesOf_iff.mp hnodup)).imp_of_mem ?_
      rintro a b _ hb ⟨hle, hdisjoint⟩
      by_contra hlt
      exact disjoint_left.mp hdisjoint (PageRange.mem_pages.mpr ⟨hle, by omega⟩)
        (PageRange.start_mem_pages (hpos b hb))
    obtain ⟨last, fsm1, hloop, hm, hmoves⟩ := mergeLoop_spec hstart
      (fun r hr => hpos r (mem_cons_of_mem prev hr)) hstops
    have hpages' : pagesOf (prev :: entries) = last.pages + pagesOf fsm1.freeLists.flatten := by
      rw [hmoves.pages_eq, pagesOf_cons]
      simp
    -- the last range ends inside the file
    simp only [hloop, Option.bind_eq_bind, bind_some, handleLastPageRange]
    split_ifs with hend hle
    · have := hm.prev_pos
      omega
    · refine ⟨fsm1, last.startPageIdx, rfl, hm.valid, hmoves.uncheckpointed_eq, hm.separated,
        by omega, ?_⟩
      rw [hpages', ← hend, Nat.add_sub_cancel_left, add_comm]
    · obtain ⟨fsm', hadd, hmoves', hsep', -⟩ := hm.add
      refine ⟨fsm', fileNumPages, by rw [hadd]; rfl, hmoves'.valid,
        hmoves'.uncheckpointed_eq.trans hmoves.uncheckpointed_eq, hsep', Nat.le_refl _, ?_⟩
      rw [hpages', hmoves'.pages, Nat.sub_self]
      simp

end FreeSpaceManager

/-! ### The page manager -/

open FreeSpaceManager (Moves rollbackCheckpoint)

/-- A range comes from the free pages or from new pages at the end of the file. -/
lemma PageManager.allocatePageRange_spec (hv : pm.freeSpaceManager.Valid)
    (hnodup : (pagesOf pm.freeSpaceManager.freeLists.flatten).Nodup) (n : ℕ) :
    ∃ range pm', pm.allocatePageRange n = some (range, pm') ∧ range.numPages = n ∧
      pm.numPages ≤ pm'.numPages ∧
      pm'.freeSpaceManager.numEntries ≤ pm.freeSpaceManager.numEntries ∧
      Moves (PageRange.pages ⟨pm.numPages, pm'.numPages - pm.numPages⟩) range.pages
        pm.freeSpaceManager pm'.freeSpaceManager := by
  unfold PageManager.allocatePageRange
  rcases hv.popFreePages hnodup n with hpop | ⟨start, fsm', hpop, hmoves, hnum⟩
  · refine ⟨⟨pm.numPages, n⟩, { pm with numPages := pm.numPages + n }, by rw [hpop]; rfl, rfl,
      Nat.le_add_right _ _, le_rfl, hv, ?_, rfl⟩
    rw [Nat.add_sub_cancel_left]
  · refine ⟨⟨start, n⟩, { pm with freeSpaceManager := fsm', version := pm.version + 1 },
      by rw [hpop]; rfl, rfl, Nat.le_refl _, hnum, ?_⟩
    rw [Nat.sub_self]
    exact hmoves

lemma PageManager.foldlM_freeImmediatelyRewritablePageRange (pm : PageManager)
    (rs : List PageRange) :
    rs.foldlM freeImmediatelyRewritablePageRange pm =
      (rs.foldlM FreeSpaceManager.addFreePages pm.freeSpaceManager).map fun fsm =>
        { pm with freeSpaceManager := fsm, version := pm.version + rs.length } := by
  induction rs generalizing pm with
  | nil => rfl
  | cons r rs ih =>
    rw [foldlM_cons, foldlM_cons, freeImmediatelyRewritablePageRange]
    cases pm.freeSpaceManager.addFreePages r with
    | none => rfl
    | some fsm =>
      simp [ih, Nat.add_assoc, Nat.add_comm 1]

/-- A rollback frees every page of the allocator. -/
lemma OptimisticAllocator.rollback_spec (hv : pm.freeSpaceManager.Valid)
    (hpos : ∀ r ∈ allocator.optimisticallyAllocatedPages, 0 < r.numPages)
    (hnodup : (pagesOf allocator.optimisticallyAllocatedPages +
      pagesOf pm.freeSpaceManager.freeLists.flatten).Nodup) :
    ∃ pm', allocator.rollback pm = some ({}, pm') ∧ pm'.numPages = pm.numPages ∧
      Moves (pagesOf allocator.optimisticallyAllocatedPages) 0 pm.freeSpaceManager
        pm'.freeSpaceManager := by
  obtain ⟨fsm, hadd, hmoves⟩ := hv.foldlM_addFreePages hpos hnodup
  rw [OptimisticAllocator.rollback, PageManager.foldlM_freeImmediatelyRewritablePageRange, hadd]
  exact ⟨_, rfl, rfl, hmoves⟩

/-! ### The whole system -/

/-- Replacing one allocator leaves the others' pages. -/
lemma pagesOf_flatMap_set {allocators : List OptimisticAllocator}
    (h : allocators[i]? = some allocator) :
    ∃ others, pagesOf (allocators.flatMap (·.optimisticallyAllocatedPages)) =
        pagesOf allocator.optimisticallyAllocatedPages + others ∧
      ∀ allocator' : OptimisticAllocator,
        pagesOf ((allocators.set i allocator').flatMap (·.optimisticallyAllocatedPages)) =
          pagesOf allocator'.optimisticallyAllocatedPages + others := by
  induction allocators generalizing i with
  | nil => simp at h
  | cons x xs ih =>
    cases i with
    | zero =>
      obtain rfl := Option.some.inj h
      exact ⟨pagesOf (xs.flatMap (·.optimisticallyAllocatedPages)), by simp, fun _ => by simp⟩
    | succ i =>
      obtain ⟨others, hothers, hset⟩ := ih h
      refine ⟨pagesOf x.optimisticallyAllocatedPages + others, ?_, fun allocator' => ?_⟩
      · rw [flatMap_cons, pagesOf_append, hothers, add_left_comm]
      · rw [set_cons_succ, flatMap_cons, pagesOf_append, hset, add_left_comm]

/-- The pages that can be written at once after an action. -/
def PageAction.rewritable : PageAction → Multiset ℕ
  | .freeImmediatelyRewritablePageRange _ entry => entry.pages
  | _ => 0

namespace PageSystem

/-- All pages: in use, free, or waiting for the next checkpoint. -/
def pages (s : PageSystem) : Multiset ℕ :=
  pagesOf s.held + pagesOf s.free + pagesOf s.uncheckpointed

/-- The pages that are in use and not optimistically allocated, and those that wait. -/
def kept (s : PageSystem) : Multiset ℕ := pagesOf s.owned + pagesOf s.uncheckpointed

/-- No page is there twice, and all of them are in the file. -/
structure Valid (s : PageSystem) : Prop where
  manager : s.pageManager.freeSpaceManager.Valid
  optimistic_pos : ∀ allocator ∈ s.optimisticAllocators,
    ∀ r ∈ allocator.optimisticallyAllocatedPages, 0 < r.numPages
  nodup : s.pages.Nodup
  lt_numPages : ∀ p ∈ s.pages, p < s.pageManager.numPages

/-- An action succeeds and keeps the invariant.  A page that is in use or waiting stays so until a
checkpoint is finalized, unless its owner gives it up at once. -/
def Keeps (s : PageSystem) (a : PageAction) : Prop :=
  ∃ s', s.step a = some s' ∧ s'.Valid ∧ (a ≠ .finalizeCheckpoint → s.kept ≤ a.rewritable + s'.kept)

variable {s s' : PageSystem}

/-- Pages kept are freed or kept still. -/
lemma kept_le {freed : Multiset ℕ} (hunchk : s'.uncheckpointed = s.uncheckpointed)
    (howned : pagesOf s.owned ≤ freed + pagesOf s'.owned) : s.kept ≤ freed + s'.kept := by
  rw [kept, kept, hunchk, ← add_assoc]
  exact add_le_add_left howned _

section

variable (h : s.Valid)

include h

/-- No page is free twice. -/
lemma Valid.nodup_free : (pagesOf s.free).Nodup :=
  nodup_of_le (le_add_self.trans le_self_add) h.nodup

/-- The ranges lie within the file. -/
lemma Valid.stop_le (hle : pagesOf rs ≤ s.pages) (hr : r ∈ rs)
    (hpos : 0 < r.numPages) : r.stop ≤ s.pageManager.numPages := by
  have hlast : r.stop - 1 ∈ r.pages := by
    rw [PageRange.mem_pages, stop]
    omega
  have := h.lt_numPages _ (mem_of_le hle (mem_pagesOf.mpr ⟨r, hr, hlast⟩))
  omega

variable (hpos : ∀ allocator ∈ s'.optimisticAllocators,
  ∀ r ∈ allocator.optimisticallyAllocatedPages, 0 < r.numPages)

include hpos

/-- Pages are moved, and new pages are added at the end of the file. -/
lemma Valid.of_pages_eq (hmanager : s'.pageManager.freeSpaceManager.Valid)
    (hle : s.pageManager.numPages ≤ s'.pageManager.numPages)
    (hpages : s'.pages = s.pages + PageRange.pages ⟨s.pageManager.numPages,
      s'.pageManager.numPages - s.pageManager.numPages⟩) : s'.Valid := by
  refine ⟨hmanager, hpos, ?_, fun p hp => ?_⟩
  · rw [hpages, nodup_add]
    refine ⟨h.nodup, PageRange.nodup_pages _, ?_⟩
    rw [disjoint_left]
    intro p hp hnew
    have hold := h.lt_numPages p hp
    have hfrom := (PageRange.mem_pages.mp hnew).1
    exact absurd hold (Nat.not_lt.mpr hfrom)
  · rw [hpages, mem_add] at hp
    rcases hp with hold | hnew
    · exact Nat.lt_of_lt_of_le (h.lt_numPages p hold) hle
    · have := (PageRange.mem_pages.mp hnew).2
      simp only [stop] at this
      omega

/-- Validity depends on the pages only. -/
lemma Valid.of_pages_same (hmanager : s'.pageManager.freeSpaceManager.Valid)
    (hnum : s'.pageManager.numPages = s.pageManager.numPages) (hpages : s'.pages = s.pages) :
    s'.Valid :=
  h.of_pages_eq hpos hmanager (Nat.le_of_eq hnum.symm)
    (by rw [hpages, hnum, Nat.sub_self, PageRange.pages_empty, add_zero])

/-- A step that moves pages between holders stays valid. -/
lemma Valid.of_moves {given taken : Multiset ℕ}
    (hmoves : Moves given taken s.pageManager.freeSpaceManager s'.pageManager.freeSpaceManager)
    (hle : s.pageManager.numPages ≤ s'.pageManager.numPages)
    (hheld : given + pagesOf s'.held = taken + pagesOf s.held + PageRange.pages
      ⟨s.pageManager.numPages, s'.pageManager.numPages - s.pageManager.numPages⟩) : s'.Valid := by
  refine h.of_pages_eq hpos hmoves.valid hle (add_left_cancel (a := taken) ?_)
  calc taken + s'.pages
      = pagesOf s'.held + (taken + pagesOf s'.free) + pagesOf s'.uncheckpointed := by
        rw [pages]
        abel
    _ = given + pagesOf s'.held + pagesOf s.free + pagesOf s.uncheckpointed := by
        rw [free, hmoves.pages_eq, uncheckpointed, hmoves.uncheckpointed_eq, free, uncheckpointed]
        abel
    _ = _ := by
        rw [hheld, pages]
        abel

end

variable {range : PageRange} {owned : List PageRange}

/-- Releasing part of an owned range keeps the rest. -/
lemma pagesOf_release (hmem : range ∈ owned)
    (hstart : range.startPageIdx ≤ entry.startPageIdx) (hstop : entry.stop ≤ range.stop) :
    pagesOf owned = entry.pages + pagesOf (release owned range entry) := by
  obtain ⟨s, n⟩ := range
  obtain ⟨t, m⟩ := entry
  simp only [stop] at hstart hstop
  have hparts : PageRange.pages ⟨s, n⟩ = PageRange.pages ⟨s, t - s⟩ + (PageRange.pages ⟨t, m⟩ +
      PageRange.pages ⟨t + m, s + n - (t + m)⟩) := by
    have hn : n = (t - s) + (m + (s + n - (t + m))) := by omega
    have ht : s + (t - s) = t := by omega
    conv_lhs => rw [hn]
    rw [PageRange.pages_add, ht, PageRange.pages_add]
  rw [pagesOf_perm (perm_cons_erase hmem), pagesOf_cons, hparts, release, pagesOf_cons,
    pagesOf_cons]
  simp only [stop]
  abel

section

variable (h : s.Valid)

include h

lemma Valid.allocatePageRange (n : ℕ) : s.Keeps (.allocatePageRange n) := by
  obtain ⟨range, pm, hallocate, -, hle, -, hmoves⟩ :=
    PageManager.allocatePageRange_spec h.manager h.nodup_free n
  rw [Keeps, step, hallocate]
  refine ⟨_, rfl, h.of_moves h.optimistic_pos hmoves hle ?_,
    fun _ => kept_le hmoves.uncheckpointed_eq ?_⟩
  · simp only [held, cons_append, pagesOf_cons]
    abel
  · rw [pagesOf_cons]
    exact le_add_self.trans le_add_self

lemma Valid.freePageRange (ha : s.Allowed (.freePageRange range entry)) :
    s.Keeps (.freePageRange range entry) := by
  obtain ⟨hmem, hpos, hstart, hstop⟩ := ha
  refine ⟨_, rfl, h.of_pages_same h.optimistic_pos
    ⟨h.manager.free_pos, ?_, h.manager.numEntries_eq⟩ rfl ?_, fun _ => le_of_eq ?_⟩
  · intro r hr
    rcases mem_append.mp hr with hold | hnew
    · exact h.manager.uncheckpointed_pos r hold
    · rwa [mem_singleton.mp hnew]
  · simp only [pages, held, free, uncheckpointed, PageManager.freePageRange,
      FreeSpaceManager.addUncheckpointedFreePages, pagesOf_append, pagesOf_cons, pagesOf_nil]
    rw [pagesOf_release hmem hstart hstop]
    abel
  · simp only [kept, uncheckpointed, PageManager.freePageRange, PageAction.rewritable,
      FreeSpaceManager.addUncheckpointedFreePages, pagesOf_append, pagesOf_cons, pagesOf_nil]
    rw [pagesOf_release hmem hstart hstop]
    abel

lemma Valid.freeImmediatelyRewritablePageRange
    (ha : s.Allowed (.freeImmediatelyRewritablePageRange range entry)) :
    s.Keeps (.freeImmediatelyRewritablePageRange range entry) := by
  obtain ⟨hmem, hpos, hstart, hstop⟩ := ha
  have hnodup : (entry.pages + pagesOf s.free).Nodup := by
    refine nodup_of_le ?_ h.nodup
    rw [pages, held, pagesOf_append, pagesOf_release hmem hstart hstop]
    refine (add_le_add_left ?_ (pagesOf s.free)).trans le_self_add
    rw [add_assoc]
    exact le_self_add
  obtain ⟨fsm, hadd, hmoves, -⟩ := h.manager.addFreePages hpos hnodup
  rw [Keeps, step, PageManager.freeImmediatelyRewritablePageRange, hadd]
  refine ⟨_, rfl, h.of_moves h.optimistic_pos hmoves le_rfl ?_,
    fun _ => kept_le hmoves.uncheckpointed_eq (pagesOf_release hmem hstart hstop).le⟩
  simp only [held, pagesOf_append, pagesOf_release hmem hstart hstop, Nat.sub_self,
    PageRange.pages_empty]
  abel

/-- The list of an allocator is replaced by another one without empty ranges. -/
lemma Valid.optimistic_pos_set (i : ℕ)
    (hpos : ∀ r ∈ allocator.optimisticallyAllocatedPages, 0 < r.numPages) :
    ∀ x ∈ s.optimisticAllocators.set i allocator,
      ∀ r ∈ x.optimisticallyAllocatedPages, 0 < r.numPages := by
  intro x hx
  rcases mem_or_eq_of_mem_set hx with hold | rfl
  · exact h.optimistic_pos x hold
  · exact hpos

section

variable (hi : s.optimisticAllocators[i]? = some allocator)

include hi

lemma Valid.allocateOptimistically (n : ℕ) : s.Keeps (.allocateOptimistically i n) := by
  obtain ⟨range, pm, hallocate, hn, hle, -, hmoves⟩ :=
    PageManager.allocatePageRange_spec h.manager h.nodup_free n
  obtain ⟨others, hothers, hset⟩ := pagesOf_flatMap_set hi
  have hold := h.optimistic_pos allocator (mem_of_getElem? hi)
  simp only [Keeps, step, hi, OptimisticAllocator.allocatePageRange, hallocate,
    bind_eq_bind, bind_some]
  -- the new range goes to the allocator, or to the caller when it is empty
  split_ifs with hpos
  · refine ⟨_, rfl, h.of_moves (h.optimistic_pos_set i fun r hr => ?_) hmoves hle ?_,
      fun _ => kept_le hmoves.uncheckpointed_eq le_add_self⟩
    · rcases mem_append.mp hr with hr | hr
      · exact hold r hr
      · rw [mem_singleton.mp hr, hn]
        exact hpos
    · simp only [held, pagesOf_append, pagesOf_cons, pagesOf_nil, hothers, hset]
      abel
  · refine ⟨_, rfl, h.of_moves (h.optimistic_pos_set i hold) hmoves hle ?_,
      fun _ => kept_le hmoves.uncheckpointed_eq ?_⟩
    · simp only [held, pagesOf_append, pagesOf_cons, hothers, hset]
      abel
    · rw [pagesOf_cons]
      exact le_add_self.trans le_add_self

lemma Valid.commit : s.Keeps (.commit i) := by
  obtain ⟨others, hothers, hset⟩ := pagesOf_flatMap_set hi
  rw [Keeps, step, hi]
  refine ⟨_, rfl, h.of_pages_same (h.optimistic_pos_set i ?_) h.manager rfl ?_,
    fun _ => kept_le rfl ?_⟩
  · simp [OptimisticAllocator.commit]
  · simp only [pages, held, free, uncheckpointed, pagesOf_append, hset, hothers,
      OptimisticAllocator.commit, pagesOf_nil]
    abel
  · rw [pagesOf_append]
    exact le_add_self.trans le_add_self

lemma Valid.rollback : s.Keeps (.rollback i) := by
  obtain ⟨others, hothers, hset⟩ := pagesOf_flatMap_set hi
  have hnodup : (pagesOf allocator.optimisticallyAllocatedPages + pagesOf s.free).Nodup := by
    refine nodup_of_le ?_ h.nodup
    rw [pages, held, pagesOf_append, hothers]
    refine (add_le_add_left ?_ (pagesOf s.free)).trans le_self_add
    exact le_self_add.trans le_add_self
  obtain ⟨pm, hrollback, hnum, hmoves⟩ := OptimisticAllocator.rollback_spec h.manager
    (h.optimistic_pos allocator (mem_of_getElem? hi)) hnodup
  simp only [Keeps, step, hi, hrollback, bind_eq_bind, bind_some]
  refine ⟨_, rfl, h.of_moves (h.optimistic_pos_set i (by simp)) hmoves hnum.ge ?_,
    fun _ => kept_le hmoves.uncheckpointed_eq le_add_self⟩
  simp only [held, pagesOf_append, hset, hothers, pagesOf_nil, hnum, Nat.sub_self,
    PageRange.pages_empty]
  abel

end

/-- A checkpoint: what becomes of the free ranges, and what stays. -/
lemma Valid.finalizeCheckpoint :
    ∃ s', s.step .finalizeCheckpoint = some s' ∧ s'.Valid ∧ s'.held = s.held ∧
      s'.uncheckpointed = [] ∧ FreeSpaceManager.Separated s'.free ∧
      s'.pageManager.numPages ≤ s.pageManager.numPages ∧
      pagesOf (s.uncheckpointed ++ s.free) = pagesOf s'.free + PageRange.pages
        ⟨s'.pageManager.numPages, s.pageManager.numPages - s'.pageManager.numPages⟩ := by
  have hle : pagesOf (s.uncheckpointed ++ s.free) ≤ s.pages := by
    rw [pagesOf_append, pages, add_assoc, add_comm (pagesOf s.uncheckpointed)]
    exact le_add_self
  obtain ⟨fsm, numPages, hfinalize, hv, hunchk, hsep, hnum, hpages⟩ :=
    h.manager.finalizeCheckpoint s.pageManager.numPages (nodup_of_le hle h.nodup)
  -- the pages of the file before, split into those kept and those cut off
  have hsum : s.pages = pagesOf s.held + pagesOf fsm.freeLists.flatten +
      PageRange.pages ⟨numPages, s.pageManager.numPages - numPages⟩ := by
    have hfree : pagesOf s.free + pagesOf s.uncheckpointed = pagesOf fsm.freeLists.flatten +
        PageRange.pages ⟨numPages, s.pageManager.numPages - numPages⟩ := by
      rw [← hpages, pagesOf_append, add_comm]
      rfl
    rw [pages, add_assoc, hfree, add_assoc]
  have hpages' : PageSystem.pages { s with
      pageManager := { s.pageManager with freeSpaceManager := fsm, numPages := numPages } } =
        pagesOf s.held + pagesOf fsm.freeLists.flatten := by
    simp only [PageSystem.pages, free, uncheckpointed, hunchk, pagesOf_nil, add_zero]
    rfl
  refine ⟨{ s with
      pageManager := { s.pageManager with freeSpaceManager := fsm, numPages := numPages } }, ?_,
    ⟨hv, h.optimistic_pos, ?_, fun p hp => ?_⟩, rfl, hunchk, hsep, hnum, hpages⟩
  · simp [step, PageManager.finalizeCheckpoint, hfinalize]
  · rw [hpages']
    refine nodup_of_le ?_ h.nodup
    rw [hsum]
    exact le_self_add
  · -- a page that is left is not one of those that were cut off
    rw [hpages'] at hp
    have hnodup := h.nodup
    rw [hsum, nodup_add] at hnodup
    have hnot := disjoint_left.mp hnodup.2.2 hp
    have hlt : p < s.pageManager.numPages := by
      refine h.lt_numPages p ?_
      rw [hsum]
      exact mem_add.mpr (.inl hp)
    rw [PageRange.mem_pages] at hnot
    simp only [stop] at hnot
    show p < numPages
    omega

/-- **Each step** of the page manager keeps it valid. -/
lemma Valid.step {a : PageAction} (ha : s.Allowed a) : s.Keeps a := by
  cases a with
  | allocatePageRange n => exact h.allocatePageRange n
  | freePageRange range entry => exact h.freePageRange ha
  | freeImmediatelyRewritablePageRange range entry =>
    exact h.freeImmediatelyRewritablePageRange ha
  | addOptimisticAllocator =>
    refine ⟨_, rfl, h.of_pages_same (fun x hx => ?_) h.manager rfl ?_, fun _ => le_add_self⟩
    · rcases mem_append.mp hx with hold | hnew
      · exact h.optimistic_pos x hold
      · rw [mem_singleton.mp hnew]
        simp
    · simp [pages, held, free, uncheckpointed]
  | allocateOptimistically i n =>
    exact h.allocateOptimistically (getElem?_eq_getElem ha) n
  | commit i => exact h.commit (getElem?_eq_getElem ha)
  | rollback i => exact h.rollback (getElem?_eq_getElem ha)
  | finalizeCheckpoint =>
    obtain ⟨s', hs', hv', -⟩ := h.finalizeCheckpoint
    exact ⟨s', hs', hv', fun h => absurd rfl h⟩
  | rollbackCheckpoint =>
    refine ⟨_, rfl, h.of_pages_same h.optimistic_pos
      ⟨h.manager.free_pos, ?_, h.manager.numEntries_eq⟩ rfl ?_, fun _ => le_of_eq ?_⟩
    · simp [PageManager.rollbackCheckpoint, rollbackCheckpoint]
    · simp only [pages, held, free, uncheckpointed, PageManager.rollbackCheckpoint,
        rollbackCheckpoint, pagesOf_append, pagesOf_nil]
      abel
    · simp only [kept, uncheckpointed, PageManager.rollbackCheckpoint, PageAction.rewritable,
        rollbackCheckpoint, pagesOf_append, pagesOf_nil]
      abel

end

/-- A manager read back from disjoint ranges is valid. -/
lemma Valid.deserialize {numPages : ℕ} {entries : List PageRange}
    (hentries : ∀ r ∈ entries, 0 < r.numPages)
    (hdisjoint : (owned ++ entries).Pairwise fun a b => Disjoint a.pages b.pages)
    (hfile : ∀ r ∈ owned ++ entries, 0 < r.numPages → r.stop ≤ numPages) :
    ∃ pm, PageManager.deserialize numPages entries = some pm ∧
      Valid { pageManager := pm, owned := owned } ∧
      pagesOf pm.freeSpaceManager.freeLists.flatten = pagesOf entries := by
  have hnodup := nodup_pagesOf_iff.mpr hdisjoint
  rw [pagesOf_append] at hnodup
  have hempty : FreeSpaceManager.Valid {} := ⟨by simp, by simp, rfl⟩
  obtain ⟨fsm, hfold, hmoves⟩ := hempty.foldlM_addFreePages hentries
    (by simpa using (nodup_add.mp hnodup).2.1)
  have hpages : pagesOf fsm.freeLists.flatten = pagesOf entries := by simpa using hmoves.pages
  have hunchk := hmoves.uncheckpointed_eq
  have hpages' : PageSystem.pages
      { pageManager := { freeSpaceManager := fsm, numPages := numPages }, owned := owned } =
        pagesOf owned + pagesOf entries := by
    simp [PageSystem.pages, held, free, uncheckpointed, hpages, hunchk]
  refine ⟨{ freeSpaceManager := fsm, numPages := numPages }, ?_,
    ⟨hmoves.valid, by simp, ?_, fun p hp => ?_⟩, hpages⟩
  · rw [PageManager.deserialize, hfold, map_some]
  · rw [hpages']
    exact hnodup
  · rw [hpages', ← pagesOf_append] at hp
    obtain ⟨r, hr, hpr⟩ := mem_pagesOf.mp hp
    have hbounds := PageRange.mem_pages.mp hpr
    have hpos : 0 < r.numPages := by
      simp only [stop] at hbounds
      omega
    exact Nat.lt_of_lt_of_le hbounds.2 (hfile r hr hpos)

end PageSystem

/-- A file that is opened: some ranges are in use and others, the entries, are free. -/
structure OpenedFile where
  numPages : ℕ
  owned : List PageRange
  entries : List PageRange
  entries_pos : ∀ r ∈ entries, 0 < r.numPages
  disjoint : (owned ++ entries).Pairwise fun a b => Disjoint a.pages b.pages
  stop_le : ∀ r ∈ owned ++ entries, r.stop ≤ numPages

/-- The new file, which has only the page of the header. -/
instance : Inhabited OpenedFile := ⟨1, [⟨0, 1⟩], [], by simp, by simp, by decide⟩

namespace OpenedFile

/-- The file can be opened, and every run of allowed actions ends in a state with `P`. -/
def Always (f : OpenedFile) (P : PageSystem → Prop) : Prop :=
  ∃ pm, PageManager.deserialize f.numPages f.entries = some pm ∧
    ∀ actions, Fold.Guarded step PageSystem.Allowed
        { pageManager := pm, owned := f.owned } actions →
      ∃ s, actions.foldlM step { pageManager := pm, owned := f.owned } = some s ∧ P s

/-- The run rule: next to validity, another invariant `I` of the steps may be used. -/
lemma always (f : OpenedFile) (I : PageSystem → Prop) {P : PageSystem → Prop}
    (hopen : ∀ pm, PageManager.deserialize f.numPages f.entries = some pm →
      I { pageManager := pm, owned := f.owned })
    (hstep : ∀ s a s', I s → step s a = some s' → I s')
    (hP : ∀ s, s.Valid → I s → P s) : f.Always P := by
  obtain ⟨pm, hpm, hvalid, -⟩ := PageSystem.Valid.deserialize f.entries_pos f.disjoint
    fun r hr _ => f.stop_le r hr
  refine ⟨pm, hpm, fun actions hactions => ?_⟩
  obtain ⟨s, hrun, hs, hI⟩ := Fold.foldlM_guarded step PageSystem.Allowed (fun s => s.Valid ∧ I s)
    (fun s a hs ha => (hs.1.step ha).imp fun s' h => ⟨h.1, h.2.1, hstep s a s' hs.2 h.1⟩)
    ⟨hvalid, hopen pm hpm⟩ hactions
  exact ⟨s, hrun, hP s hs hI⟩

end OpenedFile

/-- **No page has two owners.** From a database file with some ranges in use and some free ones, in
every run in which the owners free only ranges that they hold, no assertion fails, and the ranges
that are in use, free, or waiting for the next checkpoint are disjoint and inside the file.  A
checkpoint then keeps the free pages, but for those at the end that it cuts off, and leaves no two
adjacent free ranges. -/
theorem pageSystem_disjoint (numPages : ℕ) (owned entries : List PageRange)
    (hentries : ∀ r ∈ entries, 0 < r.numPages)
    (hdisjoint : (owned ++ entries).Pairwise fun a b => Disjoint a.pages b.pages)
    (hfile : ∀ r ∈ owned ++ entries, r.stop ≤ numPages) :
    ∃ pm, PageManager.deserialize numPages entries = some pm ∧
      ∀ actions, Fold.Guarded step PageSystem.Allowed
          { pageManager := pm, owned := owned } actions →
        ∃ s, actions.foldlM step { pageManager := pm, owned := owned } = some s ∧
          ((s.held ++ s.free ++ s.uncheckpointed).Pairwise fun a b => Disjoint a.pages b.pages) ∧
          (∀ r ∈ s.held ++ s.free ++ s.uncheckpointed,
            0 < r.numPages → r.stop ≤ s.pageManager.numPages) ∧
          ∃ s', s.step .finalizeCheckpoint = some s' ∧ s'.held = s.held ∧
            s'.uncheckpointed = [] ∧ FreeSpaceManager.Separated s'.free ∧
            s'.pageManager.numPages ≤ s.pageManager.numPages ∧
            pagesOf (s.uncheckpointed ++ s.free) = pagesOf s'.free + PageRange.pages
              ⟨s'.pageManager.numPages, s.pageManager.numPages - s'.pageManager.numPages⟩ := by
  refine OpenedFile.always ⟨numPages, owned, entries, hentries, hdisjoint, hfile⟩ (fun _ => True)
    (fun _ _ => trivial) (fun _ _ _ _ _ => trivial) fun s hs _ => ?_
  have hpages : pagesOf (s.held ++ s.free ++ s.uncheckpointed) = s.pages := by
    rw [pagesOf_append, pagesOf_append, PageSystem.pages]
  obtain ⟨s', hs', -, hrest⟩ := hs.finalizeCheckpoint
  exact ⟨nodup_pagesOf_iff.mp (hpages ▸ hs.nodup), fun r => hs.stop_le hpages.le, s', hs', hrest⟩

/-- A page is freed, another one is allocated, and a checkpoint follows. -/
theorem pageSystem_disjoint_checkpoint :
    ∃ pm s, PageManager.deserialize 10 [⟨4, 2⟩] = some pm ∧
      [PageAction.freePageRange ⟨1, 3⟩ ⟨2, 1⟩, .allocatePageRange 1, .finalizeCheckpoint].foldlM
        step { pageManager := pm, owned := [⟨0, 1⟩, ⟨1, 3⟩, ⟨6, 4⟩] } = some s ∧
      ((s.held ++ s.free ++ s.uncheckpointed).Pairwise fun a b => Disjoint a.pages b.pages) := by
  obtain ⟨pm, hpm, hruns⟩ := pageSystem_disjoint 10 [⟨0, 1⟩, ⟨1, 3⟩, ⟨6, 4⟩] [⟨4, 2⟩]
    (by decide) (nodup_pagesOf_iff.mp (by decide)) (by decide)
  obtain ⟨s, hrun, hdisjoint, -⟩ := hruns
    [.freePageRange ⟨1, 3⟩ ⟨2, 1⟩, .allocatePageRange 1, .finalizeCheckpoint]
    ⟨⟨by simp, by decide, by decide, by decide⟩,
      fun _ _ => ⟨trivial, fun _ _ => ⟨trivial, fun _ _ => trivial⟩⟩⟩
  exact ⟨pm, s, hpm, hrun, hdisjoint⟩

end Ladybug
