import Ladybug.Index.Equiv.InMemHashIndex
import Ladybug.Index.HashIndexCheckpoint
import Ladybug.Lib.Fold

/-!
# The size of the persistent hash index

The persistent index never has more primary slots than its entries and its level ask for (`Fits`).
`reserve` keeps that as long as the entries that a checkpoint announces to it are the ones that it
then merges; the size of the local insertions also counts the keys that were deleted from them.
While it holds, the header of the persistent index addresses its primary slots:

* `run_reserve`: no call of `reserve` wraps;
* `run_addresses`: the law of linear hashing, for the local insertions and the persistent index.
-/

namespace Ladybug

open HashIndexUtils Chain List PersistentIndex Option

variable {K : Type} {cap pCap : ℕ} {hash : K → ℕ}

/-! ### `reserve` -/

lemma HashIndexHeader.currentLevel_le_incrementNextSplitSlotId (h : HashIndexHeader) :
    h.currentLevel ≤ h.incrementNextSplitSlotId.currentLevel := by
  unfold incrementNextSplitSlotId
  split_ifs
  · exact le_rfl
  · exact Nat.le_succ _

lemma HashIndexHeader.iterate_incrementNextSplitSlotId (n : ℕ) (h : HashIndexHeader) :
    h.currentLevel ≤ (incrementNextSplitSlotId^[n] h).currentLevel ∧
      (incrementNextSplitSlotId^[n] h).numEntries = h.numEntries := by
  induction n generalizing h with
  | zero => exact ⟨le_rfl, rfl⟩
  | succ n ih =>
    obtain ⟨hlevel, hnum⟩ := ih h.incrementNextSplitSlotId
    exact ⟨h.currentLevel_le_incrementNextSplitSlotId.trans hlevel,
      hnum.trans h.numEntries_incrementNextSplitSlotId⟩

lemma InMemHashIndex.raiseLevel_mono (newNumSlots fuel : ℕ) (h : HashIndexHeader) :
    h.currentLevel ≤ (raiseLevel newNumSlots fuel h).currentLevel ∧
      (raiseLevel newNumSlots fuel h).numEntries = h.numEntries := by
  induction fuel generalizing h with
  | zero => exact ⟨le_rfl, rfl⟩
  | succ fuel ih =>
    unfold raiseLevel
    split_ifs
    · obtain ⟨hlevel, hnum⟩ := ih h.incrementLevel
      exact ⟨(Nat.le_succ _).trans hlevel, hnum⟩
    · exact ⟨le_rfl, rfl⟩

namespace PersistentIndex

/-- The index has no more primary slots than its entries and its level ask for. -/
def Fits (pCap : ℕ) (p : PersistentIndex) : Prop := p.numPrimarySlots ≤ p.numRequiredSlots pCap 0

variable {p : PersistentIndex} {newEntries : ℕ}

/-- More entries need no fewer slots. -/
lemma numRequiredSlots_mono {p' : PersistentIndex} {e e' : ℕ}
    (hentries : p.indexHeader.numEntries + e ≤ p'.indexHeader.numEntries + e')
    (hlevel : p.indexHeader.currentLevel ≤ p'.indexHeader.currentLevel) :
    p.numRequiredSlots pCap e ≤ p'.numRequiredSlots pCap e' := by
  unfold numRequiredSlots getNumRequiredEntries
  refine max_le_max (max_le_max (Nat.div_le_div_right ?_) ?_) le_rfl
  · omega
  · exact Nat.pow_le_pow_right (by decide) hlevel

lemma two_pow_currentLevel_le (p : PersistentIndex) (e : ℕ) :
    2 ^ p.indexHeader.currentLevel ≤ p.numRequiredSlots pCap e :=
  (le_max_right _ _).trans (le_max_left _ _)

/-- The number of splits, without underflow. -/
lemma numSlotsToSplit_eq (hle : p.numPrimarySlots ≤ p.numRequiredSlots pCap newEntries) :
    p.numSlotsToSplit pCap newEntries
      = (p.numRequiredSlots pCap newEntries - p.numPrimarySlots) % 2 ^ 64 := by
  unfold numSlotsToSplit
  omega

lemma Fits.le (h : p.Fits pCap) (newEntries : ℕ) :
    p.numPrimarySlots ≤ p.numRequiredSlots pCap newEntries :=
  h.trans (numRequiredSlots_mono (Nat.add_le_add_left (Nat.zero_le _) _) le_rfl)

/-- `reserve` makes as many primary slots as it computes, and keeps the entries. -/
lemma reserve_spec (h : p.numPrimarySlots ≤ p.numRequiredSlots pCap newEntries) :
    (p.reserve pCap newEntries).numPrimarySlots ≤ p.numRequiredSlots pCap newEntries ∧
      (p.numRequiredSlots pCap newEntries < 2 ^ 64 →
        (p.reserve pCap newEntries).numPrimarySlots = p.numRequiredSlots pCap newEntries) ∧
      (p.reserve pCap newEntries).indexHeader.numEntries = p.indexHeader.numEntries ∧
      p.indexHeader.currentLevel ≤ (p.reserve pCap newEntries).indexHeader.currentLevel := by
  unfold reserve
  by_cases hzero : p.indexHeader.numEntries = 0
  · obtain ⟨hlevel, hnum⟩ := InMemHashIndex.raiseLevel_mono (p.numRequiredSlots pCap newEntries)
      (p.numRequiredSlots pCap newEntries) p.indexHeader
    simp only [if_pos hzero, max_eq_right h]
    refine ⟨le_rfl, fun _ => trivial, ?_, ?_⟩
    · split_ifs <;> exact hnum
    · split_ifs <;> exact hlevel
  · obtain ⟨hlevel, hnum⟩ := HashIndexHeader.iterate_incrementNextSplitSlotId
      (p.numSlotsToSplit pCap newEntries) p.indexHeader
    rw [if_neg hzero]
    have hslots : (p.splitSlots (p.numSlotsToSplit pCap newEntries)).numPrimarySlots
        = p.numPrimarySlots + (p.numRequiredSlots pCap newEntries - p.numPrimarySlots)
          % 2 ^ 64 := by
      rw [← numSlotsToSplit_eq h]
      rfl
    refine ⟨?_, fun hlt => ?_, hnum, hlevel⟩
    · rw [hslots]
      omega
    · rw [hslots, Nat.mod_eq_of_lt (by omega)]
      omega

/-- The header addresses the primary slots, unless the index is new. -/
def Addressed (p : PersistentIndex) : Prop :=
  p = ⟨{}, 0⟩ ∨ HeaderRep p.indexHeader p.numPrimarySlots

lemma Addressed.masksRep (h : p.Addressed) : InMemHashIndex.MasksRep p.indexHeader := by
  rcases h with rfl | h
  · exact ⟨rfl, rfl⟩
  · exact ⟨h.levelHashMask, h.higherLevelHashMask⟩

/-- `reserve` sets the header for the primary slots that it makes, if there are not more already. -/
lemma reserve_header (h : p.Addressed)
    (hle : p.numPrimarySlots ≤ p.numRequiredSlots pCap newEntries) :
    HeaderRep (p.reserve pCap newEntries).indexHeader
      (p.reserve pCap newEntries).numPrimarySlots := by
  unfold reserve
  by_cases hzero : p.indexHeader.numEntries = 0
  · set n := p.numRequiredSlots pCap newEntries with hn
    have hlevel : 2 ^ p.indexHeader.currentLevel ≤ n := p.two_pow_currentLevel_le newEntries
    obtain ⟨hmasks, hle', hlt, -, -⟩ := InMemHashIndex.raiseLevel_spec n n p.indexHeader h.masksRep
      hlevel (Nat.lt_two_pow_self.trans_le (Nat.pow_le_pow_right (by decide) (by omega)))
    set header := InMemHashIndex.raiseLevel n n p.indexHeader
    rw [Nat.pow_succ] at hlt
    rw [if_pos hzero]
    simp only [max_eq_right hle, ge_iff_le]
    rw [if_pos hle']
    refine ⟨hmasks.1, hmasks.2, ?_, ?_⟩
    · show n - 2 ^ header.currentLevel < 2 ^ header.currentLevel
      omega
    · show n = 2 ^ header.currentLevel + (n - 2 ^ header.currentLevel)
      omega
  · -- a new index has no entries
    have hr : HeaderRep p.indexHeader p.numPrimarySlots := h.resolve_left fun hnew =>
      hzero (by rw [hnew])
    rw [if_neg hzero]
    exact hr.iterate_increment_rep _

end PersistentIndex

/-! ### The entries that are merged -/

namespace InMemHashIndex

variable {idx : InMemHashIndex K}

/-- Counting the entries of a chain. -/
lemma countChainEntries_eq (l : List SlotInfo) : ∀ (a : SlotInfo) (fuel : ℕ),
    Seg idx.nextChainedSlot (some a) (a :: l) none → l.length + 1 ≤ fuel →
    idx.countChainEntries fuel a = some ((flat idx.cellsAt (a :: l)).countP (·.valid)) := by
  induction l with
  | nil =>
    intro a fuel hseg hfuel
    obtain ⟨fuel, rfl⟩ : ∃ n, fuel = n + 1 := ⟨fuel - 1, by omega⟩
    have hnext : idx.nextChainedSlot a = none := hseg.2
    rw [countChainEntries, hnext, flat_cons, flat_nil, append_nil]
    rfl
  | cons b l ih =>
    intro a fuel hseg hfuel
    obtain ⟨fuel, rfl⟩ : ∃ n, fuel = n + 1 := ⟨fuel - 1, by omega⟩
    have hnext : idx.nextChainedSlot a = some b := hseg.2.1
    rw [countChainEntries, hnext, flat_cons, countP_append]
    simp only [ih b fuel (hnext ▸ hseg.2) (by simpa using hfuel)]
    rfl

/-- Merging counts all entries. -/
lemma numMerged_spec {chains : ℕ → List ℕ} {ents : ℕ → List (K × ℕ)} {free : List ℕ}
    (h : Rep cap hash idx chains ents free) :
    idx.numMerged = some (content ents idx.pSlots.length).card := by
  have hchain : ∀ i < idx.pSlots.length,
      idx.countChainEntries idx.maxChain ⟨i, .PRIMARY⟩ = some (ents i).length := by
    intro i hi
    obtain ⟨tail, hflat, htail, -⟩ := h.holds i hi
    rw [← countP_cells htail, ← hflat]
    exact countChainEntries_eq _ _ _ (h.heap.links i hi) (h.heap.length_le hi)
  suffices hfold : ∀ n ≤ idx.pSlots.length, (List.range n).foldlM
      (fun c i => (idx.countChainEntries idx.maxChain ⟨i, .PRIMARY⟩).map (c + ·)) 0
      = some (content ents n).card from hfold _ le_rfl
  intro n hn
  induction n with
  | zero => rfl
  | succ n ih =>
    rw [range_succ, Fold.foldlM_append_some]
    refine ⟨_, ih (by omega), ?_⟩
    rw [foldlM_cons, hchain n (by omega)]
    simp [content, Finset.sum_range_succ]

/-- The slots of the index hold some entries. -/
def Valid (cap : ℕ) (hash : K → ℕ) (idx : InMemHashIndex K) : Prop :=
  ∃ chains ents free, Rep cap hash idx chains ents free

lemma Valid.numMerged_isSome (h : Valid cap hash idx) : ∃ merged, idx.numMerged = some merged := by
  obtain ⟨chains, ents, free, h⟩ := h
  exact ⟨_, numMerged_spec h⟩

variable [Inhabited K]

lemma valid_clear (idx : InMemHashIndex K) : Valid cap hash (idx.clear cap) := by
  obtain ⟨chains, hrep⟩ := allocateSlots_nil cap hash idx.numFreeSlots
  exact ⟨chains, _, _, hrep⟩

lemma valid_create : Valid cap hash (create cap) := by
  obtain ⟨chains, hrep⟩ := allocateSlots_nil cap hash 0
  exact ⟨chains, _, _, hrep⟩

variable [BEq K]

/-- Each operation keeps the local index valid. -/
lemma Valid.step (hcap : 4 ≤ cap) (heq : ∀ a b : K, (a == b) = true → hash a = hash b)
    (h : Valid cap hash idx) (op : Op K) :
    ∃ idx' result, idx.step cap hash op = some (idx', result) ∧ Valid cap hash idx' := by
  obtain ⟨chains, ents, free, h⟩ := h
  obtain ⟨idx', result, _, hstep, ⟨chains', ents', free', hrep, -⟩, -⟩ :=
    step_spec hcap heq h.entries op
  exact ⟨idx', result, hstep, chains', ents', free', hrep⟩

end InMemHashIndex

namespace CheckpointedIndex

/-- The invariant between two actions. -/
structure Inv (cap pCap : ℕ) (hash : K → ℕ) (s : CheckpointedIndex K) : Prop where
  valid : s.localStorage.localInsertions.Valid cap hash
  same : s.forWriteTrx = s.forReadTrx
  fits : s.forWriteTrx.Fits pCap
  addressed : s.forWriteTrx.Addressed

/-- At a checkpoint, the entries that are announced to `reserve` ask for as many primary slots as
the entries that are merged. -/
def Action.Allowed (pCap : ℕ) (s : CheckpointedIndex K) : Action K → Prop
  | .checkpoint => ∀ merged ∈ s.localStorage.localInsertions.numMerged,
      s.forWriteTrx.numRequiredSlots pCap s.localStorage.localInsertions.size
        ≤ s.forWriteTrx.numRequiredSlots pCap merged
  | _ => True

variable {s : CheckpointedIndex K}

/-- No more slots are split than the insertions require. -/
lemma reserveNetInserts_spec (h : s.forWriteTrx.Fits pCap) :
    (s.reserveNetInserts pCap).numPrimarySlots
        ≤ s.forWriteTrx.numRequiredSlots pCap s.localStorage.localInsertions.size ∧
      (s.reserveNetInserts pCap).indexHeader.numEntries = s.forWriteTrx.indexHeader.numEntries ∧
      s.forWriteTrx.indexHeader.currentLevel
        ≤ (s.reserveNetInserts pCap).indexHeader.currentLevel := by
  unfold reserveNetInserts
  split_ifs with hnet
  · obtain ⟨hle, -, hnum, hlevel⟩ := reserve_spec (h.le s.localStorage.getNetInserts.toNat)
    refine ⟨hle.trans (numRequiredSlots_mono (Nat.add_le_add_left ?_ _) le_rfl), hnum, hlevel⟩
    unfold HashIndexLocalStorage.getNetInserts
    omega
  · exact ⟨h.le _, rfl, le_rfl⟩

/-- The slots after the first call are no more than the second one asks for. -/
lemma reserveNetInserts_le (h : s.forWriteTrx.Fits pCap) :
    (s.reserveNetInserts pCap).numPrimarySlots
      ≤ (s.reserveNetInserts pCap).numRequiredSlots pCap s.localStorage.localInsertions.size := by
  obtain ⟨hle, hnum, hlevel⟩ := reserveNetInserts_spec h
  exact hle.trans (numRequiredSlots_mono (by rw [hnum]) hlevel)

/-- The slots stay addressed by the header. -/
lemma reserveNetInserts_addressed (h : s.forWriteTrx.Fits pCap) (ha : s.forWriteTrx.Addressed) :
    (s.reserveNetInserts pCap).Addressed := by
  unfold reserveNetInserts
  split_ifs
  · exact .inr (reserve_header ha (h.le _))
  · exact ha

variable [Inhabited K]

/-- A checkpoint keeps the invariant. -/
lemma checkpoint_inv (h : s.Inv cap pCap hash) (hallowed : Action.Allowed pCap s .checkpoint) :
    ∃ s', s.checkpoint cap pCap = some s' ∧ s'.Inv cap pCap hash := by
  unfold checkpoint
  split_ifs
  · obtain ⟨merged, hmerged⟩ := h.valid.numMerged_isSome
    obtain ⟨-, hnum, hlevel⟩ := reserveNetInserts_spec h.fits
    obtain ⟨hle, -, hnum', hlevel'⟩ := reserve_spec (reserveNetInserts_le h.fits)
    set p := (s.reserveNetInserts pCap).reserve pCap s.localStorage.localInsertions.size with hp
    have hheader : HeaderRep p.indexHeader p.numPrimarySlots :=
      reserve_header (reserveNetInserts_addressed h.fits h.addressed) (reserveNetInserts_le h.fits)
    refine ⟨⟨s.localStorage.clear cap, _, _⟩, bind_eq_some_iff.mpr ⟨_,
      bind_eq_some_iff.mpr ⟨merged, hmerged, rfl⟩, rfl⟩, InMemHashIndex.valid_clear _, rfl, ?_,
      .inr ⟨hheader.levelHashMask, hheader.higherLevelHashMask, hheader.nextSplit_lt, hheader.size⟩⟩
    -- the slots that were made are the ones that the merged entries ask for
    set p' : PersistentIndex := { p with
      indexHeader := { p.indexHeader with numEntries := p.indexHeader.numEntries + merged } }
      with hp'
    have hentries : p'.indexHeader.numEntries = s.forWriteTrx.indexHeader.numEntries + merged := by
      rw [hp']
      rw [hnum', hnum]
    have hmerge : s.forWriteTrx.numRequiredSlots pCap merged ≤ p'.numRequiredSlots pCap 0 :=
      numRequiredSlots_mono hentries.ge (hlevel.trans hlevel')
    have hslots := (hallowed merged hmerged).trans hmerge
    refine hle.trans ?_
    -- the level asks for no more slots than the entries
    unfold numRequiredSlots at hslots ⊢
    rw [max_le_iff, max_le_iff] at hslots ⊢
    rw [hnum]
    refine ⟨⟨hslots.1.1, ?_⟩, hslots.2⟩
    exact (Nat.pow_le_pow_right (by decide) hlevel').trans (p'.two_pow_currentLevel_le 0)
  · exact ⟨s, rfl, h⟩

section Run

variable [BEq K] (hcap : 4 ≤ cap) (heq : ∀ a b : K, (a == b) = true → hash a = hash b)

include hcap heq

/-- Other actions keep the invariant. -/
lemma local_step (h : s.Inv cap pCap hash) {a : Action K}
    (ha : a ≠ .checkpoint) : ∃ s', s.step cap pCap hash a = some s' ∧ s'.Inv cap pCap hash := by
  have hstep := h.valid.step hcap heq
  have hlocal {op : Option (HashIndexLocalStorage K)} {ls : HashIndexLocalStorage K}
      (hop : op = some ls) (hvalid : ls.localInsertions.Valid cap hash) :
      ∃ s', (do return { s with localStorage := ← op }) = some s' ∧ s'.Inv cap pCap hash :=
    ⟨_, bind_eq_some_iff.mpr ⟨ls, hop, rfl⟩, hvalid, h.same, h.fits, h.addressed⟩
  cases a with
  | insert key value isVisible | append key value isVisible =>
    obtain ⟨idx, result, hrun, hvalid⟩ := hstep (.append key value isVisible)
    obtain ⟨⟨idx', b⟩, happend, hidx⟩ := bind_eq_some_iff.mp hrun
    cases hidx
    exact hlocal (bind_eq_some_iff.mpr ⟨_, happend, rfl⟩) hvalid
  | appendBuffer buffer bufferOffset inBuffer isVisible =>
    obtain ⟨idx, n, hrun, hvalid⟩ := hstep (.appendBuffer buffer bufferOffset inBuffer isVisible)
    exact hlocal (bind_eq_some_iff.mpr ⟨_, hrun, rfl⟩) hvalid
  | reserveInserts newEntries =>
    obtain ⟨idx, result, hrun, hvalid⟩ := hstep (.reserve newEntries)
    obtain ⟨idx', hreserve, hidx⟩ := bind_eq_some_iff.mp hrun
    cases hidx
    exact hlocal (bind_eq_some_iff.mpr ⟨_, hreserve, rfl⟩) hvalid
  | deleteKey key | discard key =>
    obtain ⟨idx, result, hrun, hvalid⟩ := hstep (.deleteKey key)
    obtain ⟨⟨idx', b⟩, hdelete, hidx⟩ := bind_eq_some_iff.mp hrun
    cases hidx
    exact hlocal (bind_eq_some_iff.mpr ⟨_, hdelete, rfl⟩) hvalid
  | checkpoint => exact absurd rfl ha
  | failedCheckpoint =>
    have hfits := h.fits
    have haddressed := h.addressed
    rw [h.same] at hfits haddressed
    exact ⟨_, rfl, h.valid, rfl, hfits, haddressed⟩

/-- **Every run** keeps the invariant. -/
lemma run_inv {as : List (Action K)}
    (hallowed : Fold.Guarded (step cap pCap hash) (fun s a => a.Allowed pCap s) (create cap) as) :
    ∃ s, (create cap : CheckpointedIndex K).run cap pCap hash as = some s ∧ s.Inv cap pCap hash :=
  Fold.foldlM_guarded (step cap pCap hash) (fun s a => a.Allowed pCap s) (Inv cap pCap hash)
    (fun s a hs ha => by
      by_cases hcheckpoint : a = .checkpoint
      · subst hcheckpoint
        exact checkpoint_inv hs ha
      · exact local_step hcap heq hs hcheckpoint)
    ⟨InMemHashIndex.valid_create, rfl, Nat.zero_le _, .inl rfl⟩ hallowed

/-- **`reserve` does not wrap**, in every run whose checkpoints merge as many entries as the local
insertions count, as far as the number of primary slots goes. -/
theorem run_reserve {as : List (Action K)}
    (hallowed : Fold.Guarded (step cap pCap hash) (fun s a => a.Allowed pCap s) (create cap) as) :
    ∃ s, (create cap : CheckpointedIndex K).run cap pCap hash as = some s ∧
      ∀ call ∈ s.reserveCalls pCap, call.1.numPrimarySlots ≤ call.1.numRequiredSlots pCap call.2 ∧
        (call.1.numRequiredSlots pCap call.2 < 2 ^ 64 →
          call.1.numSlotsToSplit pCap call.2
            = call.1.numRequiredSlots pCap call.2 - call.1.numPrimarySlots ∧
          (call.1.reserve pCap call.2).numPrimarySlots = call.1.numRequiredSlots pCap call.2) := by
  obtain ⟨s, hrun, h⟩ := run_inv hcap heq hallowed
  have hcall : ∀ (p : PersistentIndex) (e : ℕ), p.numPrimarySlots ≤ p.numRequiredSlots pCap e →
      p.numPrimarySlots ≤ p.numRequiredSlots pCap e ∧
        (p.numRequiredSlots pCap e < 2 ^ 64 →
          p.numSlotsToSplit pCap e = p.numRequiredSlots pCap e - p.numPrimarySlots ∧
          (p.reserve pCap e).numPrimarySlots = p.numRequiredSlots pCap e) := by
    intro p e hle
    refine ⟨hle, fun hlt => ⟨?_, (reserve_spec hle).2.1 hlt⟩⟩
    rw [numSlotsToSplit_eq hle, Nat.mod_eq_of_lt (by omega)]
  refine ⟨s, hrun, fun call hmem => ?_⟩
  unfold reserveCalls at hmem
  split_ifs at hmem
  · rcases mem_append.mp hmem with hmem | hmem
    · exact mem_singleton.mp hmem ▸ hcall _ _ (h.fits.le _)
    · exact mem_singleton.mp hmem ▸ hcall _ _ (reserveNetInserts_le h.fits)
  · rw [nil_append, mem_singleton] at hmem
    exact hmem ▸ hcall _ _ (reserveNetInserts_le h.fits)
  · cases hmem

/-- **Linear hashing.**  In every such run the header of the local insertions addresses their
primary slots, and so do the headers of the persistent index, for readers, for the checkpoint and
after its first call of `reserve`, unless no entries were moved there so far. -/
theorem run_addresses {as : List (Action K)}
    (hallowed : Fold.Guarded (step cap pCap hash) (fun s a => a.Allowed pCap s) (create cap) as) :
    ∃ s, (create cap : CheckpointedIndex K).run cap pCap hash as = some s ∧
      s.localStorage.localInsertions.indexHeader.Addresses
        s.localStorage.localInsertions.pSlots.length ∧
      ∀ p ∈ [s.forReadTrx, s.forWriteTrx, s.reserveNetInserts pCap], p = ⟨{}, 0⟩ ∨
        p.indexHeader.Addresses p.numPrimarySlots := by
  obtain ⟨s, hrun, h⟩ := run_inv hcap heq hallowed
  obtain ⟨_, _, _, hrep⟩ := h.valid
  refine ⟨s, hrun, hrep.header.addresses, fun p hp => ?_⟩
  have haddressed : p.Addressed := by
    rw [← h.same, mem_cons, mem_cons, mem_singleton] at hp
    rcases hp with rfl | rfl | rfl
    · exact h.addressed
    · exact h.addressed
    · exact reserveNetInserts_addressed h.fits h.addressed
  exact haddressed.imp_right HeaderRep.addresses

end Run

instance [DecidableEq K] (s : CheckpointedIndex K) (a : Action K) : Decidable (a.Allowed pCap s) :=
  match a with
  | .checkpoint =>
    inferInstanceAs (Decidable (∀ merged ∈ s.localStorage.localInsertions.numMerged, _))
  | .insert .. | .append .. | .appendBuffer .. | .reserveInserts .. | .deleteKey .. | .discard .. |
    .failedCheckpoint => inferInstanceAs (Decidable True)

/-- The theorem at the capacities of string keys: a key is deleted from the local insertions before
the first checkpoint. -/
theorem run_reserve_discard :
    ∃ s, (create 5 : CheckpointedIndex ℕ).run 5 9 id
        [.insert 1 1 fun _ => true, .insert 2 2 fun _ => true, .discard 1, .failedCheckpoint,
          .checkpoint, .insert 3 3 fun _ => true] = some s ∧
      ∀ call ∈ s.reserveCalls 9,
        call.1.numPrimarySlots ≤ call.1.numRequiredSlots 9 call.2 := by
  obtain ⟨s, hs, h⟩ := run_reserve (by decide) (fun _ _ h => eq_of_beq h)
    (show Fold.Guarded (step 5 9 id) (fun s a => a.Allowed 9 s) (create 5 : CheckpointedIndex ℕ)
      [.insert 1 1 fun _ => true, .insert 2 2 fun _ => true, .discard 1, .failedCheckpoint,
        .checkpoint, .insert 3 3 fun _ => true] by decide +kernel)
  exact ⟨s, hs, fun call hcall => (h call hcall).1⟩

/-- 149 times a key is inserted and deleted again before the first checkpoint, which makes 17
primary slots for one entry.  At the next checkpoint 16 slots are required: the number of splits
wraps. -/
theorem reserve_wraps :
    ((create 14 : CheckpointedIndex ℕ).run 14 14 id ((List.replicate 149 [Action.insert 0 0 fun _ =>
        true, .discard 0]).flatten ++ [.insert 0 0 fun _ => true, .checkpoint, .insert 1 1 fun _ =>
        true])).map
      (fun s => (s.localStorage.getNetInserts, s.forWriteTrx.indexHeader.numEntries,
        s.forWriteTrx.numPrimarySlots, s.forWriteTrx.numRequiredSlots 14 1,
        s.forWriteTrx.numSlotsToSplit 14 1)) = some (1, 1, 17, 16, 2 ^ 64 - 1) := by
  decide +kernel

/-- The theorem at 160 keys, which take two slots more than their level has. -/
theorem run_addresses_split :
    ∃ s, (create 14 : CheckpointedIndex ℕ).run 14 14 id
        [.appendBuffer ((List.range 160).map fun i => (i, i)) 0 (Nat.zero_le _) fun _ => true,
          .checkpoint, .insert 200 200 fun _ => true] = some s ∧
      s.forReadTrx.indexHeader.nextSplitSlotId = 2 ∧
      s.forReadTrx.indexHeader.Addresses s.forReadTrx.numPrimarySlots := by
  obtain ⟨s, hs, -, h⟩ := run_addresses (by decide) (fun _ _ h => eq_of_beq h)
    (show Fold.Guarded (step 14 14 id) (fun s a => a.Allowed 14 s) (create 14 : CheckpointedIndex ℕ)
      [.appendBuffer ((List.range 160).map fun i => (i, i)) 0 (Nat.zero_le _) fun _ => true,
        .checkpoint, .insert 200 200 fun _ => true] by decide +kernel)
  obtain ⟨s', hs', hnext⟩ := map_eq_some_iff.mp (show ((create 14 : CheckpointedIndex ℕ).run 14 14
      id [.appendBuffer ((List.range 160).map fun i => (i, i)) 0 (Nat.zero_le _) fun _ => true,
        .checkpoint, .insert 200 200 fun _ => true]).map
      (·.forReadTrx.indexHeader.nextSplitSlotId) = some 2 by decide +kernel)
  obtain rfl := some.inj (hs'.symm.trans hs)
  refine ⟨s', hs', hnext, (h _ (mem_cons_self ..)).resolve_left fun hnew => ?_⟩
  rw [hnew] at hnext
  cases hnext

/-- 150 times a key is inserted and deleted again before the first checkpoint, which makes 17
primary slots for no entry.  At the next checkpoint the header is set for the 16 slots that are
required, and the 17 slots stay. -/
theorem reserve_keeps_slots :
    ((create 14 : CheckpointedIndex ℕ).run 14 14 id ((List.replicate 150 [Action.insert 0 0 fun _ =>
        true, .discard 0]).flatten ++ [.checkpoint, .insert 1 1 fun _ => true, .checkpoint])).map
      (fun s => (s.forReadTrx.numPrimarySlots, s.forReadTrx.indexHeader.currentLevel,
        s.forReadTrx.indexHeader.nextSplitSlotId)) = some (17, 4, 0) := by
  decide +kernel

end CheckpointedIndex

end Ladybug
