import Ladybug.Storage.Equiv.PageManager
import Mathlib.Data.Nat.Log

/-!
# The free range that an allocation takes

The lists of the free space manager hold the free ranges by level, the logarithm of their size
rounded down, and each list is ordered by size (`Leveled`). Every action keeps this, so the search
of `popFreePages`, which starts in the list of the level that it needs, stops at a smallest range
that is large enough.

* `pageSystem_popFreePages`: what `popFreePages` does in every run.
-/

namespace Ladybug

open List hiding Disjoint disjoint_left
open Option (bind_eq_some_iff map_eq_some_iff some.inj)

variable {level base m : ℕ} {entry r b a : PageRange} {l : SortedFreeList}
  {ls : List SortedFreeList}

/-! ### The order inside a list -/

lemma entryCmp_trans {c : PageRange} (hab : entryCmp a b = true) (hbc : entryCmp b c = true) :
    entryCmp a c = true := by
  unfold entryCmp at hab hbc ⊢
  split_ifs at hab hbc ⊢ <;> simp only [decide_eq_true_eq] at hab hbc ⊢ <;> omega

lemma numPages_le_of_entryCmp (h : entryCmp a b = true) : a.numPages ≤ b.numPages := by
  unfold entryCmp at h
  split_ifs at h with heq
  · exact heq.le
  · exact (of_decide_eq_true h).le

/-- The search key sorts after exactly the smaller entries. -/
lemma entryCmp_bound : entryCmp r ⟨0, n⟩ = true ↔ r.numPages < n := by
  unfold entryCmp
  split_ifs with heq <;> simp
  exact heq.ge

namespace SortedFreeList

lemma mem_insert (h : r ∈ insert entry l) : r = entry ∨ r ∈ l := by
  induction l with
  | nil => exact .inl (mem_singleton.mp h)
  | cons x xs ih =>
    rw [insert] at h
    split_ifs at h
    · exact mem_cons.mp h
    · rcases mem_cons.mp h with rfl | h
      · exact .inr mem_cons_self
      · exact (ih h).imp_right (mem_cons_of_mem x)
    · exact .inr h

lemma pairwise_insert (h : l.Pairwise fun a b => entryCmp a b = true) :
    (insert entry l).Pairwise fun a b => entryCmp a b = true := by
  induction l with
  | nil => exact pairwise_singleton _ _
  | cons x xs ih =>
    obtain ⟨hx, hxs⟩ := pairwise_cons.mp h
    rw [insert]
    split_ifs with hlt hgt
    · refine pairwise_cons.mpr ⟨fun r hr => ?_, h⟩
      rcases mem_cons.mp hr with rfl | hr
      · exact hlt
      · exact entryCmp_trans hlt (hx r hr)
    · refine pairwise_cons.mpr ⟨fun r hr => ?_, ih hxs⟩
      rcases mem_insert hr with rfl | hr
      · exact hgt
      · exact hx r hr
    · exact h

/-- The search fails only if all entries are smaller. -/
lemma popLowerBound_none (h : popLowerBound ⟨0, n⟩ l = none) : ∀ r ∈ l, r.numPages < n := by
  induction l with
  | nil => simp
  | cons x xs ih =>
    rw [popLowerBound] at h
    split_ifs at h with hlt
    intro r hr
    rcases mem_cons.mp hr with rfl | hr
    · exact entryCmp_bound.mp hlt
    · exact ih (Option.map_eq_none_iff.mp h) r hr

/-- The search finds a smallest fitting entry. -/
lemma popLowerBound_best {l' : SortedFreeList} (hs : l.Pairwise fun a b => entryCmp a b = true)
    (h : popLowerBound ⟨0, n⟩ l = some (entry, l')) :
    l'.Sublist l ∧ ∀ r ∈ l, n ≤ r.numPages → entry.numPages ≤ r.numPages := by
  induction l generalizing l' with
  | nil => simp [popLowerBound] at h
  | cons x xs ih =>
    obtain ⟨hx, hxs⟩ := pairwise_cons.mp hs
    rw [popLowerBound] at h
    split_ifs at h with hlt
    · obtain ⟨⟨entry', xs'⟩, hpop, heq⟩ := map_eq_some_iff.mp h
      obtain ⟨rfl, rfl⟩ := Prod.mk.inj heq
      obtain ⟨hsub, hbest⟩ := ih hxs hpop
      refine ⟨hsub.cons_cons x, fun r hr hle => ?_⟩
      rcases mem_cons.mp hr with rfl | hr
      · exact absurd (entryCmp_bound.mp hlt) (Nat.not_lt.mpr hle)
      · exact hbest r hr hle
    · obtain ⟨rfl, rfl⟩ := Prod.mk.inj (some.inj h)
      refine ⟨sublist_cons_self x xs, fun r hr _ => ?_⟩
      rcases mem_cons.mp hr with rfl | hr
      · exact le_rfl
      · exact numPages_le_of_entryCmp (hx r hr)

end SortedFreeList

namespace FreeSpaceManager

/-! ### The levels -/

/-- Larger entries are on higher levels. -/
lemma getLevel_mono (h : m ≤ n) : getLevel m ≤ getLevel n := by
  unfold getLevel
  rw [Nat.log2_eq_log_two, Nat.log2_eq_log_two]
  exact Nat.log_mono_right h

lemma lt_of_getLevel_lt (h : getLevel m < getLevel n) : m < n := by
  by_contra hle
  exact absurd (getLevel_mono (Nat.not_lt.mp hle)) (Nat.not_le.mpr h)

/-- Free lists from a level on: the ranges of each list have its level and are ordered. -/
def Leveled : ℕ → List SortedFreeList → Prop
  | _, [] => True
  | level, l :: ls => ((∀ r ∈ l, getLevel r.numPages = level) ∧
      l.Pairwise fun a b => entryCmp a b = true) ∧ Leveled (level + 1) ls

/-- Entries are no smaller than their level. -/
lemma Leveled.le_getLevel (h : Leveled level ls) (hr : r ∈ ls.flatten) :
    level ≤ getLevel r.numPages := by
  induction ls generalizing level with
  | nil => simp at hr
  | cons l ls ih =>
    rw [flatten_cons, mem_append] at hr
    rcases hr with hr | hr
    · exact (h.1.1 r hr).ge
    · exact Nat.le_of_succ_le (ih h.2 hr)

/-- Entries are inserted at their level. -/
lemma Leveled.insert (h : Leveled base ls) (hlevel : getLevel entry.numPages = base + level) :
    Leveled base (modifyFreeList (SortedFreeList.insert entry) ls level) := by
  fun_induction modifyFreeList (SortedFreeList.insert entry) ls level generalizing base with
  | case1 =>
    refine ⟨⟨fun r hr => ?_, SortedFreeList.pairwise_insert .nil⟩, trivial⟩
    rcases SortedFreeList.mem_insert hr with rfl | hr
    · exact hlevel
    · simp at hr
  | case2 level ih => exact ⟨⟨by simp, .nil⟩, ih trivial (by omega)⟩
  | case3 l ls =>
    obtain ⟨⟨hl, hsorted⟩, hls⟩ := h
    refine ⟨⟨fun r hr => ?_, SortedFreeList.pairwise_insert hsorted⟩, hls⟩
    rcases SortedFreeList.mem_insert hr with rfl | hr
    · exact hlevel
    · exact hl r hr
  | case4 l ls level ih => exact ⟨h.1, ih h.2 (by omega)⟩

/-- What a search of some lists for `n` pages is to find: nothing when all ranges are too small, or
else a smallest one that is large enough. -/
def Best (n base : ℕ) (ls : List SortedFreeList) :
    Option (PageRange × List SortedFreeList) → Prop
  | none => ∀ r ∈ ls.flatten, r.numPages < n
  | some (entry, ls') =>
    Leveled base ls' ∧ ∀ r ∈ ls.flatten, n ≤ r.numPages → entry.numPages ≤ r.numPages

/-- The ranges of the first list are too small, and the search goes on behind it. -/
lemma Best.cons {result : Option (PageRange × List SortedFreeList)}
    (h : Best n (base + 1) ls result) (hl : Leveled base (l :: ls))
    (hsmall : ∀ r ∈ l, r.numPages < n) :
    Best n base (l :: ls) (result.map fun (entry, ls) => (entry, l :: ls)) := by
  cases result with
  | none =>
    intro r hr
    rw [flatten_cons, mem_append] at hr
    exact hr.elim (hsmall r) (h r)
  | some x =>
    refine ⟨⟨hl.1, h.1⟩, fun r hr hle => ?_⟩
    rw [flatten_cons, mem_append] at hr
    exact hr.elim (fun hr => absurd (hsmall r hr) (Nat.not_lt.mpr hle)) fun hr => h.2 r hr hle

/-- **The search.** It starts at the level of the request, or behind it. -/
theorem searchFreeLists_best (h : Leveled base ls)
    (hlevel : base + level = getLevel n ∨ level = 0 ∧ getLevel n ≤ base) :
    Best n base ls (searchFreeLists n ls level) := by
  induction ls generalizing base level with
  | nil => exact fun r hr => absurd hr not_mem_nil
  | cons l ls ih =>
    cases level with
    | succ level =>
      refine (ih h.2 (by omega)).cons h fun r hr => lt_of_getLevel_lt ?_
      rw [h.1.1 r hr]
      omega
    | zero =>
      rw [searchFreeLists]
      cases hpop : SortedFreeList.popLowerBound ⟨0, n⟩ l with
      | none => exact (ih h.2 (by omega)).cons h (SortedFreeList.popLowerBound_none hpop)
      | some x =>
        obtain ⟨entry, l'⟩ := x
        obtain ⟨hsub, hbest⟩ := SortedFreeList.popLowerBound_best h.1.2 hpop
        refine ⟨⟨⟨fun r hr => h.1.1 r (hsub.subset hr), h.1.2.sublist hsub⟩, h.2⟩,
          fun r hr hle => ?_⟩
        rw [flatten_cons, mem_append] at hr
        rcases hr with hr | hr
        · exact hbest r hr hle
        · -- the ranges of the lists behind have a higher level than the entry
          have hentry : getLevel entry.numPages = base :=
            h.1.1 entry ((SortedFreeList.popLowerBound_spec hpop).1.symm.subset mem_cons_self)
          have hr := h.2.le_getLevel hr
          exact (lt_of_getLevel_lt (by omega)).le

/-! ### The operations -/

variable {fsm fsm' : FreeSpaceManager} {range : PageRange}

section

variable (h : Leveled 0 fsm.freeLists)

include h

lemma Leveled.addFreePages
    (hadd : fsm.addFreePages entry = some fsm') : Leveled 0 fsm'.freeLists := by
  unfold FreeSpaceManager.addFreePages at hadd
  split_ifs at hadd
  obtain rfl := some.inj hadd
  exact h.insert (Nat.zero_add _).symm

lemma Leveled.foldlM_addFreePages {rs : List PageRange}
    (hadd : rs.foldlM FreeSpaceManager.addFreePages fsm = some fsm') :
    Leveled 0 fsm'.freeLists :=
  Fold.foldlM_guarded_invariant (P := fun fsm : FreeSpaceManager => Leveled 0 fsm.freeLists)
    (fun _ _ _ h _ => h.addFreePages) h (.of_forall (fun _ _ _ => trivial) fsm) hadd

lemma Leveled.splitPageRange
    (hsplit : fsm.splitPageRange entry n = some (range, fsm')) : Leveled 0 fsm'.freeLists := by
  simp only [FreeSpaceManager.splitPageRange] at hsplit
  split_ifs at hsplit
  · obtain ⟨fsm1, hadd, heq⟩ := map_eq_some_iff.mp hsplit
    obtain ⟨-, rfl⟩ := Prod.mk.inj heq
    exact h.addFreePages hadd
  · obtain ⟨-, rfl⟩ := Prod.mk.inj (some.inj hsplit)
    exact h

lemma Leveled.popFreePages {range : Option PageRange}
    (hpop : fsm.popFreePages n = some (range, fsm')) : Leveled 0 fsm'.freeLists := by
  unfold FreeSpaceManager.popFreePages at hpop
  have hbest := searchFreeLists_best (n := n) h (.inl (Nat.zero_add _))
  split_ifs at hpop
  · cases hsearch : searchFreeLists n fsm.freeLists (getLevel n) with
    | none =>
      rw [hsearch] at hpop
      obtain ⟨-, rfl⟩ := Prod.mk.inj (some.inj hpop)
      exact h
    | some x =>
      rw [hsearch] at hpop hbest
      obtain ⟨⟨range', fsm1⟩, hsplit, heq⟩ := map_eq_some_iff.mp hpop
      obtain ⟨-, rfl⟩ := Prod.mk.inj heq
      exact Leveled.splitPageRange hbest.1 hsplit
  · obtain ⟨-, rfl⟩ := Prod.mk.inj (some.inj hpop)
    exact h

lemma Leveled.mergeLoop {entries : List PageRange} {prev last : PageRange}
    (hmerge : mergeLoop entries prev fsm = some (last, fsm')) :
    Leveled 0 fsm'.freeLists := by
  induction entries generalizing prev fsm with
  | nil =>
    obtain ⟨-, rfl⟩ := Prod.mk.inj (some.inj hmerge)
    exact h
  | cons entry entries ih =>
    rw [mergeLoop] at hmerge
    split_ifs at hmerge
    · exact ih h hmerge
    · obtain ⟨fsm1, hadd, hrest⟩ := bind_eq_some_iff.mp hmerge
      exact ih (h.addFreePages hadd) hrest

lemma Leveled.finalizeCheckpoint {numPages numPages' : ℕ}
    (hfinalize : fsm.finalizeCheckpoint numPages = some (fsm', numPages')) :
    Leveled 0 fsm'.freeLists := by
  simp only [FreeSpaceManager.finalizeCheckpoint, mergePageRanges] at hfinalize
  split at hfinalize
  · obtain ⟨rfl, -⟩ := Prod.mk.inj (some.inj hfinalize)
    exact h
  · obtain ⟨⟨last, fsm1⟩, hmerge, hlast⟩ := bind_eq_some_iff.mp hfinalize
    have hmerged : Leveled 0 fsm1.freeLists := by
      apply Leveled.mergeLoop _ hmerge
      trivial
    simp only [handleLastPageRange] at hlast
    split_ifs at hlast
    · obtain ⟨rfl, -⟩ := Prod.mk.inj (some.inj hlast)
      exact hmerged
    · obtain ⟨rfl, -⟩ := Prod.mk.inj (some.inj hlast)
      exact hmerged
    · obtain ⟨fsm2, hadd, heq⟩ := map_eq_some_iff.mp hlast
      obtain ⟨rfl, -⟩ := Prod.mk.inj heq
      exact hmerged.addFreePages hadd

end

/-! ### What is handed out -/

/-- What a request for `n` pages is to give: nothing when every free range is too small, or else the
first pages of a smallest range that is large enough, and all other pages stay free. -/
def Pops (fsm : FreeSpaceManager) (n : ℕ) : Option PageRange × FreeSpaceManager → Prop
  | (none, fsm') => fsm' = fsm ∧ ∀ r ∈ fsm.freeLists.flatten, r.numPages < n
  | (some range, fsm') => ∃ r ∈ fsm.freeLists.flatten, n ≤ r.numPages ∧
      (∀ r' ∈ fsm.freeLists.flatten, n ≤ r'.numPages → r.numPages ≤ r'.numPages) ∧
      range = ⟨r.startPageIdx, n⟩ ∧
      pagesOf fsm.freeLists.flatten = range.pages + pagesOf fsm'.freeLists.flatten

/-- The first pages of the entry are taken. -/
lemma splitPageRange_eq (hsplit : fsm.splitPageRange entry n = some (range, fsm')) :
    range = ⟨entry.startPageIdx, n⟩ := by
  simp only [splitPageRange] at hsplit
  split_ifs at hsplit
  · obtain ⟨fsm1, -, heq⟩ := map_eq_some_iff.mp hsplit
    exact (Prod.mk.inj heq).1.symm
  · exact (Prod.mk.inj (some.inj hsplit)).1.symm

/-- **Popping** takes the best fit. -/
lemma Valid.popFreePages_pops (hv : fsm.Valid)
    (hnodup : (pagesOf fsm.freeLists.flatten).Nodup) (hl : Leveled 0 fsm.freeLists) (hn : 0 < n) :
    ∃ popped, fsm.popFreePages n = some popped ∧ fsm.Pops n popped := by
  have hbest := searchFreeLists_best (n := n) hl (.inl (Nat.zero_add _))
  have hpop := hv.popFreePages hnodup n
  unfold FreeSpaceManager.popFreePages at hpop ⊢
  rw [if_pos hn] at hpop ⊢
  cases hsearch : searchFreeLists n fsm.freeLists (getLevel n) with
  | none =>
    rw [hsearch] at hbest
    exact ⟨_, rfl, rfl, hbest⟩
  | some x =>
    obtain ⟨entry, freeLists⟩ := x
    obtain ⟨hperm, hle⟩ := searchFreeLists_spec hsearch
    rw [hsearch] at hbest hpop
    -- the range that was found is split, and only its first pages leave the free lists
    rcases hpop with hnone | ⟨start, fsm', hsome, hmoves, -⟩
    · obtain ⟨_, -, heq⟩ := map_eq_some_iff.mp hnone
      simp at heq
    · obtain ⟨⟨range, fsm1⟩, hsplit, heq⟩ := map_eq_some_iff.mp hsome
      obtain ⟨hrange, rfl⟩ := Prod.mk.inj heq
      obtain rfl := some.inj hrange
      refine ⟨_, hsome, entry, hperm.symm.subset mem_cons_self, hle, hbest.2,
        splitPageRange_eq hsplit, ?_⟩
      rw [hmoves.pages_eq, zero_add]

end FreeSpaceManager

namespace PageSystem

open FreeSpaceManager

variable {s s' : PageSystem} {pm pm' : PageManager}

lemma allocatePageRange_leveled {range : PageRange} (h : Leveled 0 pm.freeSpaceManager.freeLists)
    (halloc : pm.allocatePageRange n = some (range, pm')) :
    Leveled 0 pm'.freeSpaceManager.freeLists := by
  obtain ⟨⟨chunk, fsm⟩, hpop, hrest⟩ := bind_eq_some_iff.mp halloc
  cases chunk with
  | none | some range =>
    obtain ⟨-, rfl⟩ := Prod.mk.inj (some.inj hrest)
    exact h.popFreePages hpop

/-- The free lists of a system are in order. -/
def Leveled (s : PageSystem) : Prop :=
  FreeSpaceManager.Leveled 0 s.pageManager.freeSpaceManager.freeLists

lemma Leveled.step (h : s.Leveled) {a : PageAction} (hs : s.step a = some s') : s'.Leveled := by
  cases a with
  | allocatePageRange n =>
    obtain ⟨⟨range, pm⟩, halloc, hrest⟩ := bind_eq_some_iff.mp hs
    obtain rfl := some.inj hrest
    exact allocatePageRange_leveled h halloc
  | freeImmediatelyRewritablePageRange range entry =>
    obtain ⟨pm, hfree, hrest⟩ := bind_eq_some_iff.mp hs
    obtain rfl := some.inj hrest
    obtain ⟨fsm, hadd, rfl⟩ := map_eq_some_iff.mp hfree
    exact Leveled.addFreePages h hadd
  | allocateOptimistically i n =>
    obtain ⟨allocator, -, hs⟩ := bind_eq_some_iff.mp hs
    obtain ⟨⟨range, allocator', pm⟩, halloc, hrest⟩ := bind_eq_some_iff.mp hs
    obtain rfl := some.inj hrest
    obtain ⟨⟨range', pm'⟩, halloc, hrest⟩ := bind_eq_some_iff.mp halloc
    have hpm : pm' = pm := by
      split_ifs at hrest <;> exact congrArg (·.2.2) (some.inj hrest)
    exact hpm ▸ allocatePageRange_leveled h halloc
  | rollback i =>
    obtain ⟨allocator, -, hs⟩ := bind_eq_some_iff.mp hs
    obtain ⟨⟨allocator', pm⟩, hrollback, hrest⟩ := bind_eq_some_iff.mp hs
    obtain rfl := some.inj hrest
    -- the pages are freed one range at a time
    obtain ⟨pm', hfree, heq⟩ := map_eq_some_iff.mp hrollback
    obtain ⟨-, rfl⟩ := Prod.mk.inj heq
    rw [PageManager.foldlM_freeImmediatelyRewritablePageRange] at hfree
    obtain ⟨fsm, hadd, rfl⟩ := map_eq_some_iff.mp hfree
    exact FreeSpaceManager.Leveled.foldlM_addFreePages h hadd
  | finalizeCheckpoint =>
    obtain ⟨pm, hpm, rfl⟩ := map_eq_some_iff.mp hs
    obtain ⟨⟨fsm, numPages⟩, hfinalize, rfl⟩ := map_eq_some_iff.mp hpm
    exact Leveled.finalizeCheckpoint h hfinalize
  | commit i =>
    obtain ⟨allocator, -, hs⟩ := bind_eq_some_iff.mp hs
    obtain rfl := some.inj hs
    exact h
  | freePageRange | addOptimisticAllocator | rollbackCheckpoint =>
    obtain rfl := some.inj hs
    exact h

end PageSystem

/-- **What an allocation takes.** In every run from an opened file, a request for at least one page
gets the first pages of a smallest free range that is large enough, or nothing when there is none,
and every other free page stays free.  A request for no pages gets nothing and changes nothing. -/
theorem pageSystem_popFreePages (f : OpenedFile) : f.Always fun s =>
    (∀ n, 0 < n → ∃ popped, s.pageManager.freeSpaceManager.popFreePages n = some popped ∧
      s.pageManager.freeSpaceManager.Pops n popped) ∧
    s.pageManager.freeSpaceManager.popFreePages 0 =
      some (none, s.pageManager.freeSpaceManager) := by
  refine f.always PageSystem.Leveled (fun pm hpm => ?_) (fun _ _ _ h => h.step)
    fun s hs hl => ⟨fun n hn => hs.manager.popFreePages_pops hs.nodup_free hl hn, rfl⟩
  obtain ⟨fsm, hadd, rfl⟩ := map_eq_some_iff.mp hpm
  have hempty : FreeSpaceManager.Leveled 0 (FreeSpaceManager.freeLists {}) := trivial
  exact hempty.foldlM_addFreePages hadd

/-- A request for no pages gets nothing, although there is a free range. -/
theorem popFreePages_zero :
    ∃ pm, PageManager.deserialize 10 [⟨4, 2⟩] = some pm ∧
      pm.freeSpaceManager.popFreePages 0 = some (none, pm.freeSpaceManager) ∧
      ∃ r ∈ pm.freeSpaceManager.freeLists.flatten, 0 ≤ r.numPages :=
  ⟨_, rfl, rfl, ⟨4, 2⟩, by decide, by decide⟩

end Ladybug
