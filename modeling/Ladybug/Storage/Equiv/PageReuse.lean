import Ladybug.Storage.Equiv.PageManager

/-!
# Freed pages wait for the next checkpoint

A page that `freePageRange` gave back may still be used by the last checkpoint, so it must not be
handed out again before the next checkpoint is finalized. `PageHistory` runs a `PageSystem` and
remembers which pages were freed since the last `finalizeCheckpoint`, and which pages were in use
when it ran.

* `PageSystem.mem_kept_step`: a page that is in use or waiting stays so until a checkpoint is
  finalized, unless it is freed as immediately rewritable;
* `pageHistory_freed_not_returned`: no freed page is returned before a checkpoint is finalized.
-/

namespace Ladybug

open Multiset Option

/-- A page system with what happened since the last checkpoint was finalized. -/
structure PageHistory where
  system : PageSystem
  /-- the pages that `freePageRange` freed since then -/
  waiting : Multiset ℕ := 0
  /-- the pages that were in use at that time: those that the checkpoint refers to -/
  checkpointed : Multiset ℕ

namespace PageHistory

/-- When a database is opened, the last checkpoint refers to the pages in use. -/
def opened (pm : PageManager) (owned : List PageRange) : PageHistory :=
  { system := { pageManager := pm, owned := owned }, checkpointed := pagesOf owned }

def step (h : PageHistory) (a : PageAction) : Option PageHistory := do
  let system ← h.system.step a
  match a with
  | .freePageRange _ entry => return { h with system, waiting := entry.pages + h.waiting }
  | .finalizeCheckpoint => return { system, checkpointed := pagesOf h.system.owned }
  | _ => return { h with system }

/-- What the callers promise.  Only pages that no checkpoint needs are freed as immediately
rewritable: the one caller in the source is the rollback of an optimistic allocator, which is an
action of its own. -/
def Allowed (h : PageHistory) (a : PageAction) : Prop :=
  h.system.Allowed a ∧
    ∀ range entry, a = .freeImmediatelyRewritablePageRange range entry →
      Disjoint entry.pages h.waiting ∧ Disjoint entry.pages h.checkpointed

end PageHistory

namespace PageSystem

variable {s s' : PageSystem} {a : PageAction} {range : PageRange} {p : ℕ}

/-- What `allocatePageRange` returns, to an owner or to an optimistic allocator. -/
def returned (s : PageSystem) : PageAction → Option PageRange
  | .allocatePageRange numPages => (s.pageManager.allocatePageRange numPages).map (·.1)
  | .allocateOptimistically i numPages => do
    let allocator ← s.optimisticAllocators[i]?
    let (range, _, _) ← allocator.allocatePageRange s.pageManager numPages
    return range
  | _ => none

lemma kept_le_pages (s : PageSystem) : s.kept + pagesOf s.free ≤ s.pages := by
  have h : s.pages = s.kept + pagesOf s.free +
      pagesOf (s.optimisticAllocators.flatMap (·.optimisticallyAllocatedPages)) := by
    rw [pages, held, kept, pagesOf_append]
    abel
  rw [h]
  exact le_add_right _ _

/-- An optimistic allocator returns what the page manager returns. -/
lemma returned_eq_some (h : s.returned a = some range) :
    ∃ n pm, s.pageManager.allocatePageRange n = some (range, pm) := by
  cases a with
  | allocatePageRange n =>
    obtain ⟨⟨r, pm⟩, hallocate, rfl⟩ := map_eq_some_iff.mp h
    exact ⟨n, pm, hallocate⟩
  | allocateOptimistically i n =>
    obtain ⟨allocator, -, h⟩ := bind_eq_some_iff.mp h
    obtain ⟨⟨r, allocator', pm⟩, hallocate, hr⟩ := bind_eq_some_iff.mp h
    obtain rfl : r = range := some.inj hr
    obtain ⟨⟨r', pm'⟩, hallocate', hrest⟩ := bind_eq_some_iff.mp hallocate
    refine ⟨n, pm', ?_⟩
    have hr' : r' = r := by
      simp only at hrest
      split at hrest <;> exact (Prod.mk.inj (some.inj hrest)).1
    rw [hallocate', hr']
  | _ => simp [returned] at h

/-- **An allocation returns pages that were free or did not exist.** -/
theorem Valid.returned_not_mem (hs : s.Valid) (h : s.returned a = some range)
    (hp : p ∈ range.pages) : p ∉ s.kept := by
  obtain ⟨n, pm, hallocate⟩ := returned_eq_some h
  obtain ⟨range', pm', hallocate', -, -, -, hmoves⟩ :=
    PageManager.allocatePageRange_spec hs.manager hs.nodup_free n
  obtain ⟨rfl, rfl⟩ := Prod.mk.inj (some.inj (hallocate.symm.trans hallocate'))
  have hfrom : p ∈ range.pages + pagesOf pm.freeSpaceManager.freeLists.flatten :=
    mem_add.mpr (.inl hp)
  rw [hmoves.pages_eq] at hfrom
  rcases mem_add.mp hfrom with hnew | hfree
  · -- a new page is behind all others
    intro hkept
    have hlt := hs.lt_numPages p (mem_of_le s.kept_le_pages (mem_add.mpr (.inl hkept)))
    exact absurd hlt (Nat.not_lt.mpr (PageRange.mem_pages.mp hnew).1)
  · -- a free page is not in use, since no page is there twice
    have hnodup := nodup_of_le s.kept_le_pages hs.nodup
    exact disjoint_right.mp (nodup_add.mp hnodup).2.2 hfree

/-- **A page that is in use or waiting stays so** until a checkpoint is finalized. -/
theorem mem_kept_step (hkept : s.kept ≤ a.rewritable + s'.kept) (hp : p ∈ s.kept)
    (hrewritable : ∀ range entry, a = .freeImmediatelyRewritablePageRange range entry →
      p ∉ entry.pages) : p ∈ s'.kept := by
  refine (mem_add.mp (mem_of_le hkept hp)).resolve_left fun hentry => ?_
  cases a with
  | freeImmediatelyRewritablePageRange range entry => exact hrewritable range entry rfl hentry
  | _ => exact Multiset.notMem_zero p hentry

end PageSystem

namespace PageHistory

variable {h h' : PageHistory} {a : PageAction}

/-- The pages that were freed and those that the last checkpoint refers to are in use or waiting. -/
structure Kept (h : PageHistory) : Prop where
  valid : h.system.Valid
  waiting : ∀ p ∈ h.waiting, p ∈ h.system.kept
  checkpointed : ∀ p ∈ h.checkpointed, p ∈ h.system.kept

lemma step_eq_some (hstep : h.step a = some h') :
    h.system.step a = some h'.system ∧
      ((a = .finalizeCheckpoint ∧ h'.waiting = 0 ∧ h'.checkpointed = pagesOf h.system.owned) ∨
       (∃ range entry, a = .freePageRange range entry ∧
          h'.waiting = entry.pages + h.waiting ∧ h'.checkpointed = h.checkpointed) ∨
       (a ≠ .finalizeCheckpoint ∧ h'.waiting = h.waiting ∧ h'.checkpointed = h.checkpointed)) := by
  obtain ⟨system, hs, hrest⟩ := bind_eq_some_iff.mp hstep
  cases a with
  | freePageRange range entry =>
    obtain rfl := some.inj hrest
    exact ⟨hs, .inr (.inl ⟨range, entry, rfl, rfl, rfl⟩)⟩
  | finalizeCheckpoint =>
    obtain rfl := some.inj hrest
    exact ⟨hs, .inl ⟨rfl, rfl, rfl⟩⟩
  | _ =>
    obtain rfl := some.inj hrest
    exact ⟨hs, .inr (.inr ⟨nofun, rfl, rfl⟩)⟩

lemma exists_step_of_system {s' : PageSystem} (hs : h.system.step a = some s') :
    ∃ h', h.step a = some h' := by
  rw [PageHistory.step, hs]
  cases a <;> exact ⟨_, rfl⟩

lemma Kept.step (hk : h.Kept) (ha : h.Allowed a) : ∃ h', h.step a = some h' ∧ h'.Kept := by
  obtain ⟨s', hs', hvalid', hkept⟩ := hk.valid.step ha.1
  obtain ⟨h', hstep⟩ := exists_step_of_system hs'
  obtain ⟨hsystem, hcases⟩ := step_eq_some hstep
  obtain rfl : s' = h'.system := some.inj (hs'.symm.trans hsystem)
  refine ⟨h', hstep, ?_⟩
  rcases hcases with ⟨rfl, hw, hc⟩ | ⟨range, entry, rfl, hw, hc⟩ | ⟨hne, hw, hc⟩
  · -- a finalized checkpoint: nothing waits, and the ranges in use are those of before
    obtain ⟨pm, -, hpm⟩ := map_eq_some_iff.mp hsystem
    refine ⟨hvalid', ?_, ?_⟩
    · simp [hw]
    · intro p hp
      rw [hc] at hp
      rw [← hpm]
      exact mem_add.mpr (.inl hp)
  · refine ⟨hvalid', ?_, ?_⟩
    · intro p hp
      rw [hw] at hp
      rcases mem_add.mp hp with hentry | hold
      · -- the entry is now the last of the ranges that wait
        rw [← some.inj hsystem]
        refine mem_add.mpr (.inr ?_)
        simp only [PageSystem.uncheckpointed, PageManager.freePageRange,
          FreeSpaceManager.addUncheckpointedFreePages, pagesOf_append, pagesOf_cons, pagesOf_nil,
          add_zero]
        exact mem_add.mpr (.inr hentry)
      · exact PageSystem.mem_kept_step (hkept (by simp)) (hk.waiting p hold) (by simp)
    · intro p hp
      rw [hc] at hp
      exact PageSystem.mem_kept_step (hkept (by simp)) (hk.checkpointed p hp) (by simp)
  -- any other step frees no page that waits
  · refine ⟨hvalid', ?_, ?_⟩
    · intro p hp
      rw [hw] at hp
      exact PageSystem.mem_kept_step (hkept hne) (hk.waiting p hp)
        fun range entry heq => disjoint_right.mp (ha.2 range entry heq).1 hp
    · intro p hp
      rw [hc] at hp
      exact PageSystem.mem_kept_step (hkept hne) (hk.checkpointed p hp)
        fun range entry heq => disjoint_right.mp (ha.2 range entry heq).2 hp

end PageHistory

/-- **Freed pages are not reused before the next checkpoint.** From every opened database file, in
every run of allocations, frees, optimistic allocations with their commits and rollbacks, finalized
and failed checkpoints, no allocation returns a page that `freePageRange` freed since the last
`finalizeCheckpoint`, nor any other page that the last checkpoint refers to. -/
theorem pageHistory_freed_not_returned (numPages : ℕ) (owned entries : List PageRange)
    (hentries : ∀ r ∈ entries, 0 < r.numPages)
    (hdisjoint : (owned ++ entries).Pairwise fun a b => Disjoint a.pages b.pages)
    (hfile : ∀ r ∈ owned ++ entries, r.stop ≤ numPages) :
    ∃ pm, PageManager.deserialize numPages entries = some pm ∧
      ∀ actions, Fold.Guarded PageHistory.step PageHistory.Allowed
          (PageHistory.opened pm owned) actions →
        ∃ h, actions.foldlM PageHistory.step (PageHistory.opened pm owned) = some h ∧
          ∀ a range, h.system.returned a = some range →
            Disjoint range.pages h.waiting ∧ Disjoint range.pages h.checkpointed := by
  obtain ⟨pm, hpm, hvalid, -⟩ := PageSystem.Valid.deserialize hentries hdisjoint
    fun r hr _ => hfile r hr
  refine ⟨pm, hpm, fun actions hactions => ?_⟩
  have hopened : (PageHistory.opened pm owned).Kept := by
    refine ⟨hvalid, ?_, ?_⟩
    · simp [PageHistory.opened]
    · intro p hp
      exact mem_add.mpr (.inl hp)
  obtain ⟨h, hrun, hkept⟩ := Fold.foldlM_guarded PageHistory.step PageHistory.Allowed
    PageHistory.Kept (fun h a hk ha => hk.step ha) hopened hactions
  refine ⟨h, hrun, fun a range hreturned => ?_⟩
  constructor
  · rw [disjoint_left]
    intro p hp hwaiting
    exact hkept.valid.returned_not_mem hreturned hp (hkept.waiting p hwaiting)
  · rw [disjoint_left]
    intro p hp hcheckpointed
    exact hkept.valid.returned_not_mem hreturned hp (hkept.checkpointed p hcheckpointed)

/-- A page is freed, a checkpoint fails, and a page is allocated. -/
theorem pageHistory_freed_not_returned_rollback :
    ∃ pm h, PageManager.deserialize 10 [⟨4, 2⟩] = some pm ∧
      [PageAction.freePageRange ⟨1, 3⟩ ⟨2, 1⟩, .rollbackCheckpoint].foldlM PageHistory.step
        (PageHistory.opened pm [⟨0, 1⟩, ⟨1, 3⟩, ⟨6, 4⟩]) = some h ∧
      ∀ range, h.system.returned (.allocatePageRange 1) = some range →
        Disjoint range.pages h.waiting := by
  obtain ⟨pm, hpm, hruns⟩ := pageHistory_freed_not_returned 10 [⟨0, 1⟩, ⟨1, 3⟩, ⟨6, 4⟩] [⟨4, 2⟩]
    (by decide) (nodup_pagesOf_iff.mp (by decide)) (by decide)
  obtain ⟨h, hrun, hreturned⟩ := hruns [.freePageRange ⟨1, 3⟩ ⟨2, 1⟩, .rollbackCheckpoint]
    ⟨⟨⟨by simp [PageHistory.opened], by decide, by decide, by decide⟩, nofun⟩,
      fun _ _ => ⟨⟨trivial, nofun⟩, fun _ _ => trivial⟩⟩
  exact ⟨pm, h, hpm, hrun, fun range hrange => (hreturned _ range hrange).1⟩

end Ladybug
