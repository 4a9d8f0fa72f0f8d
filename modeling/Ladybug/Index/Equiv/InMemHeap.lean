import Ladybug.Index.InMemHashIndex
import Ladybug.Lib.Chain
import Mathlib.Data.Finset.Card

/-!
# The slots of the in-memory hash index as a heap

`Heap cap idx chains free` says how the slots of an index hang together: `chains i` are the
overflow slots behind primary slot `i`, `free` is the free list, and no overflow slot is used
twice. The lemmas say what the writes of the index do to it:

* `Heap.allocateAOSlot`: a new overflow slot comes from nowhere else;
* `Heap.reclaimOverflowSlots`: the empty slots at the end of a chain go to the free list.
-/

namespace Ladybug

open Chain List Function

/-- The primary slot `slotId`. -/
abbrev SlotInfo.prim (slotId : ℕ) : SlotInfo := ⟨slotId, .PRIMARY⟩

/-- The overflow slot `slotId`. -/
abbrev SlotInfo.ovf (slotId : ℕ) : SlotInfo := ⟨slotId, .OVF⟩

lemma SlotInfo.ovf_injective : Injective SlotInfo.ovf := fun _ _ h => congrArg SlotInfo.slotId h

open SlotInfo (ovf ovf_injective prim)

lemma ovf_mem_map {l : List ℕ} {o : ℕ} : ovf o ∈ l.map ovf ↔ o ∈ l :=
  mem_map_of_injective ovf_injective

/-- The addresses of the chain of primary slot `i` with the overflow slots `chain`. -/
def chainAddrs (i : ℕ) (chain : List ℕ) : List SlotInfo :=
  prim i :: chain.map ovf

variable {i n o j : ℕ} {chain : List ℕ}

/-- A chain without repetitions has distinct addresses. -/
lemma chainAddrs_nodup (h : chain.Nodup) : (chainAddrs i chain).Nodup := by
  refine nodup_cons.mpr ⟨?_, h.map ovf_injective⟩
  simp [prim, ovf]

@[simp] lemma prim_mem_chainAddrs : prim j ∈ chainAddrs i chain ↔ j = i := by
  simp [chainAddrs, prim, ovf]

@[simp] lemma ovf_mem_chainAddrs : ovf o ∈ chainAddrs i chain ↔ o ∈ chain := by
  simp [chainAddrs, prim, ovf]

@[simp] lemma chainAddrs_length (i : ℕ) (chain : List ℕ) :
    (chainAddrs i chain).length = chain.length + 1 := by
  simp [chainAddrs]

lemma chainAddrs_append (i : ℕ) (chain rest : List ℕ) :
    chainAddrs i (chain ++ rest) = chainAddrs i chain ++ rest.map ovf := by
  simp [chainAddrs]

/-- Distinct overflow slots are no more than there are. -/
lemma length_le_of_nodup_lt {l : List ℕ} (hl : l.Nodup) (hlt : ∀ o ∈ l, o < n) : l.length ≤ n := by
  have hsub : l <+~ range n := subperm_of_subset hl fun o ho => mem_range.mpr (hlt o ho)
  exact hsub.length_le.trans_eq length_range

/-! ### Writes to one slot -/

namespace Slot

variable {K : Type}

/-- The slot with the position `pos` replaced. -/
def setCell (s : Slot K) (pos : ℕ) (c : SlotCell K) : Slot K :=
  { s with cells := s.cells.set pos c }

@[simp] lemma setCell_next (s : Slot K) (pos : ℕ) (c : SlotCell K) :
    (s.setCell pos c).nextOvfSlotId = s.nextOvfSlotId := rfl

@[simp] lemma setCell_cells (s : Slot K) (pos : ℕ) (c : SlotCell K) :
    (s.setCell pos c).cells = s.cells.set pos c := rfl

lemma modify_eq_set {α : Type} [Inhabited α] (l : List α) (pos : ℕ) (f : α → α) :
    l.modify pos f = l.set pos (f (l.getD pos default)) := by
  rw [List.modify_eq_set, getD_eq_getElem?_getD]

variable [Inhabited K]

lemma setEntryInvalid_eq (s : Slot K) (pos : ℕ) :
    s.setEntryInvalid pos = s.setCell pos { s.cell pos with valid := false } := by
  rw [setEntryInvalid, setCell, modify_eq_set, cell]

/-- Writing an entry and its fingerprint sets one cell. -/
lemma setEntry_setEntryValid (s : Slot K) (pos : ℕ) (key : K) (value fingerprint : ℕ) :
    (s.setEntry pos key value).setEntryValid pos fingerprint =
      s.setCell pos ⟨true, fingerprint, key, value⟩ := by
  simp only [setEntry, setEntryValid, setCell, modify_modify_eq, comp_def]
  rw [modify_eq_set]

end Slot

namespace InMemHashIndex

variable {K : Type}

/-- The address lies in the vectors. -/
def InRange (idx : InMemHashIndex K) (a : SlotInfo) : Prop :=
  match a.slotType with
  | .PRIMARY => a.slotId < idx.pSlots.length
  | .OVF => a.slotId < idx.oSlots.length

variable {a : SlotInfo} {idx : InMemHashIndex K} {f : Slot K → Slot K}

@[simp] lemma inRange_prim : idx.InRange (.prim i) ↔ i < idx.pSlots.length := Iff.rfl

@[simp] lemma inRange_ovf : idx.InRange (.ovf o) ↔ o < idx.oSlots.length := Iff.rfl

section

variable (idx : InMemHashIndex K)

@[simp] lemma updateSlot_pSlots_length (a : SlotInfo)
    (f : Slot K → Slot K) : (idx.updateSlot a f).pSlots.length = idx.pSlots.length := by
  obtain ⟨id, ty⟩ := a
  cases ty <;> simp [updateSlot]

@[simp] lemma updateSlot_oSlots_length (a : SlotInfo)
    (f : Slot K → Slot K) : (idx.updateSlot a f).oSlots.length = idx.oSlots.length := by
  obtain ⟨id, ty⟩ := a
  cases ty <;> simp [updateSlot]

@[simp] lemma updateSlot_indexHeader (a : SlotInfo)
    (f : Slot K → Slot K) : (idx.updateSlot a f).indexHeader = idx.indexHeader := by
  obtain ⟨id, ty⟩ := a
  cases ty <;> rfl

@[simp] lemma updateSlot_numFreeSlots (a : SlotInfo)
    (f : Slot K → Slot K) : (idx.updateSlot a f).numFreeSlots = idx.numFreeSlots := by
  obtain ⟨id, ty⟩ := a
  cases ty <;> rfl

end

@[simp] lemma updateSlot_inRange {b : SlotInfo} :
    (idx.updateSlot a f).InRange b ↔ idx.InRange b := by
  obtain ⟨id, ty⟩ := b
  cases ty <;> simp [InRange]

/-- An update changes one slot. -/
lemma getSlot_updateSlot (ha : idx.InRange a) (f : Slot K → Slot K) :
    (idx.updateSlot a f).getSlot = update idx.getSlot a (f (idx.getSlot a)) := by
  funext b
  by_cases h : b = a
  · subst h
    obtain ⟨id, ty⟩ := b
    rw [update_self]
    cases ty with
    | PRIMARY => simp [updateSlot, getSlot, inRange_prim.mp ha]
    | OVF => simp [updateSlot, getSlot, inRange_ovf.mp ha]
  · obtain ⟨ida, tya⟩ := a
    obtain ⟨idb, tyb⟩ := b
    rw [update_of_ne h]
    cases tya <;> cases tyb <;> simp_all [updateSlot, getSlot, eq_comm]

/-- The cells of the slot at an address. -/
def cellsAt (idx : InMemHashIndex K) (a : SlotInfo) : List (SlotCell K) := (idx.getSlot a).cells

/-- An update changes the link of one slot. -/
lemma nextChainedSlot_updateSlot (ha : idx.InRange a) (f : Slot K → Slot K) :
    (idx.updateSlot a f).nextChainedSlot = update idx.nextChainedSlot a
      ((f (idx.getSlot a)).nextOvfSlotId.map ovf) := by
  funext b
  rw [nextChainedSlot, getSlot_updateSlot ha]
  by_cases h : b = a
  · subst h
    rw [update_self, update_self]
  · rw [update_of_ne h, update_of_ne h, nextChainedSlot]

lemma cellsAt_updateSlot (ha : idx.InRange a) (f : Slot K → Slot K) :
    (idx.updateSlot a f).cellsAt = update idx.cellsAt a (f (idx.getSlot a)).cells := by
  funext b
  rw [cellsAt, getSlot_updateSlot ha]
  by_cases h : b = a
  · subst h
    rw [update_self, update_self]
  · rw [update_of_ne h, update_of_ne h, cellsAt]

/-! ### The heap invariant -/

/-- The slots hang together: `chains i` are the overflow slots behind primary slot `i`, `free` is
the free list. -/
structure Heap (cap : ℕ) (idx : InMemHashIndex K) (chains : ℕ → List ℕ) (free : List ℕ) : Prop where
  width : ∀ a, idx.InRange a → (idx.cellsAt a).length = cap
  links : ∀ i < idx.pSlots.length,
    Seg idx.nextChainedSlot (some (.prim i)) (chainAddrs i (chains i)) none
  chain_lt : ∀ i < idx.pSlots.length, ∀ o ∈ chains i, o < idx.oSlots.length
  chain_nodup : ∀ i < idx.pSlots.length, (chains i).Nodup
  disjoint : ∀ i < idx.pSlots.length, ∀ j < idx.pSlots.length,
    ∀ o, o ∈ chains i → o ∈ chains j → i = j
  free_links : Seg idx.nextChainedSlot (idx.indexHeader.firstFreeOverflowSlotId.map ovf)
    (free.map ovf) none
  free_lt : ∀ o ∈ free, o < idx.oSlots.length
  free_nodup : free.Nodup
  free_disjoint : ∀ i < idx.pSlots.length, ∀ o ∈ chains i, o ∉ free
  free_empty : ∀ o ∈ free, ∀ c ∈ idx.cellsAt (.ovf o), c.valid = false
  free_count : free.length ≤ idx.numFreeSlots

def FreeChain (idx : InMemHashIndex K) (free : List ℕ) : Prop :=
  Seg idx.nextChainedSlot (idx.indexHeader.firstFreeOverflowSlotId.map ovf) (free.map ovf) none

/-- The links determine the free chain. -/
lemma FreeChain.unique {free' : List ℕ} (h : idx.FreeChain free) (h' : idx.FreeChain free') :
    free = free' :=
  map_injective_iff.mpr ovf_injective (Seg.unique h h')

/-- `numFreeSlots` is by `n` above the length of the free chain. -/
def Stale (idx : InMemHashIndex K) (n : ℕ) : Prop :=
  ∃ free, idx.FreeChain free ∧ free.length + n = idx.numFreeSlots

namespace Heap

variable {cap o' : ℕ} {idx' : InMemHashIndex K} {chains chains' : ℕ → List ℕ}
  {free free' dropped kept : List ℕ}

section

variable (h : Heap cap idx chains free)

include h

section

variable (hi : i < idx.pSlots.length)

include hi

/-- The slots of a chain are in the arrays. -/
lemma inRange : ∀ a ∈ chainAddrs i (chains i), idx.InRange a := by
  intro a ha
  obtain ⟨id, ty⟩ := a
  cases ty with
  | PRIMARY => exact (prim_mem_chainAddrs.mp ha) ▸ hi
  | OVF => exact h.chain_lt i hi id (ovf_mem_chainAddrs.mp ha)

lemma width_chain : ∀ a ∈ chainAddrs i (chains i), (idx.cellsAt a).length = cap :=
  fun a ha => h.width a (h.inRange hi a ha)

/-- A chain has the cells of all its slots. -/
lemma flat_length :
    (flat idx.cellsAt (chainAddrs i (chains i))).length = ((chains i).length + 1) * cap := by
  rw [Chain.flat_length (h.width_chain hi), chainAddrs_length]

/-- A chain is not longer than the walks along it. -/
lemma length_le : (chainAddrs i (chains i)).length ≤ idx.maxChain := by
  have hle := length_le_of_nodup_lt (h.chain_nodup i hi) (h.chain_lt i hi)
  rw [chainAddrs_length, maxChain]
  omega

/-- The chain of one primary slot is apart from the chain of another one. -/
lemma not_mem_chain (hj : j < idx.pSlots.length) (hij : i ≠ j)
    (ha : a ∈ chainAddrs i (chains i)) : a ∉ chainAddrs j (chains j) := by
  obtain ⟨id, ty⟩ := a
  intro ha'
  cases ty with
  | PRIMARY => exact hij ((prim_mem_chainAddrs.mp ha).symm.trans (prim_mem_chainAddrs.mp ha'))
  | OVF =>
    exact hij (h.disjoint i hi j hj id (ovf_mem_chainAddrs.mp ha) (ovf_mem_chainAddrs.mp ha'))

/-- A slot in use is not free. -/
lemma not_mem_free (ha : a ∈ chainAddrs i (chains i)) : a ∉ free.map ovf := by
  intro ha'
  obtain ⟨o, ho, rfl⟩ := mem_map.mp ha'
  exact h.free_disjoint i hi o (ovf_mem_chainAddrs.mp ha) ho

end

/-- Writing cells of a slot in use keeps the heap. -/
lemma setCell (ha : idx.InRange a) (hfree : a ∉ free.map ovf)
    (hnext : (f (idx.getSlot a)).nextOvfSlotId = (idx.getSlot a).nextOvfSlotId)
    (hlen : (f (idx.getSlot a)).cells.length = (idx.getSlot a).cells.length) :
    Heap cap (idx.updateSlot a f) chains free := by
  have hn : (idx.updateSlot a f).nextChainedSlot = idx.nextChainedSlot := by
    rw [nextChainedSlot_updateSlot ha, hnext]
    exact update_eq_self a idx.nextChainedSlot
  have hw : ∀ b, idx.InRange b → ((idx.updateSlot a f).cellsAt b).length = cap := by
    intro b hb
    rw [cellsAt_updateSlot ha]
    by_cases hba : b = a
    · subst hba
      rw [update_self, hlen]
      exact h.width b hb
    · rw [update_of_ne hba]
      exact h.width b hb
  refine ⟨fun b hb => hw b (updateSlot_inRange.mp hb), ?_, ?_, ?_, ?_, ?_, ?_, h.free_nodup, ?_, ?_,
    ?_⟩
  · simpa [hn] using h.links
  · simpa using h.chain_lt
  · simpa using h.chain_nodup
  · simpa using h.disjoint
  · simpa [hn] using h.free_links
  · simpa using h.free_lt
  · simpa using h.free_disjoint
  · intro o ho c hc
    have hne : ovf o ≠ a := fun hoa => hfree (hoa ▸ mem_map_of_mem ho)
    rw [cellsAt_updateSlot ha, update_of_ne hne] at hc
    exact h.free_empty o ho c hc
  · simpa using h.free_count

end

/-! ### Slots that no chain uses -/

/-- Slot `o` is empty and lies in no chain. -/
structure Unowned (idx : InMemHashIndex K) (chains : ℕ → List ℕ) (free : List ℕ) (o : ℕ) :
    Prop where
  lt : o < idx.oSlots.length
  not_chain : ∀ i < idx.pSlots.length, o ∉ chains i
  not_free : o ∉ free
  empty : ∀ c ∈ idx.cellsAt (.ovf o), c.valid = false

/-- An unowned slot is in no chain. -/
lemma Unowned.not_mem_addrs (ho : Unowned idx chains free o)
    (hi : i < idx.pSlots.length) : ovf o ∉ chainAddrs i (chains i) :=
  fun h => ho.not_chain i hi (ovf_mem_chainAddrs.mp h)

lemma Unowned.not_mem_free (ho : Unowned idx chains free o) : ovf o ∉ free.map ovf :=
  mt ovf_mem_map.mp ho.not_free

/-- New links keep the heap when the chains and the free list they make are there. -/
lemma relinked (h : Heap cap idx chains free)
    (hp : idx'.pSlots.length = idx.pSlots.length) (ho : idx'.oSlots.length = idx.oSlots.length)
    (hcells : idx'.cellsAt = idx.cellsAt) (hlinks : ∀ i < idx.pSlots.length,
      Seg idx'.nextChainedSlot (some (.prim i)) (chainAddrs i (chains' i)) none)
    (hlt : ∀ i < idx.pSlots.length, ∀ o ∈ chains' i, o < idx.oSlots.length)
    (hnodup : ∀ i < idx.pSlots.length, (chains' i).Nodup)
    (hdisj : ∀ i < idx.pSlots.length, ∀ j < idx.pSlots.length,
      ∀ o, o ∈ chains' i → o ∈ chains' j → i = j)
    (hfree : Seg idx'.nextChainedSlot (idx'.indexHeader.firstFreeOverflowSlotId.map ovf)
      (free'.map ovf) none)
    (hflt : ∀ o ∈ free', o < idx.oSlots.length) (hfnodup : free'.Nodup)
    (hfdisj : ∀ i < idx.pSlots.length, ∀ o ∈ chains' i, o ∉ free')
    (hfempty : ∀ o ∈ free', ∀ c ∈ idx.cellsAt (.ovf o), c.valid = false)
    (hfcount : free'.length ≤ idx'.numFreeSlots) : Heap cap idx' chains' free' := by
  refine ⟨?_, ?_, ?_, ?_, ?_, hfree, ?_, hfnodup, ?_, ?_, hfcount⟩
  · intro a ha
    obtain ⟨id, ty⟩ := a
    rw [hcells]
    cases ty with
    | PRIMARY => exact h.width _ (inRange_prim.mpr (hp ▸ inRange_prim.mp ha))
    | OVF => exact h.width _ (inRange_ovf.mpr (ho ▸ inRange_ovf.mp ha))
  · rwa [hp]
  · rwa [hp, ho]
  · rwa [hp]
  · rwa [hp]
  · rwa [ho]
  · rwa [hp]
  · rwa [hcells]

lemma cellsAt_setNext (ha : idx.InRange a) (next : Option ℕ) :
    (idx.updateSlot a (·.setNext next)).cellsAt = idx.cellsAt := by
  rw [cellsAt_updateSlot ha]
  exact update_eq_self a idx.cellsAt

lemma nextChainedSlot_setNext (ha : idx.InRange a) (next : Option ℕ) :
    (idx.updateSlot a (·.setNext next)).nextChainedSlot =
      update idx.nextChainedSlot a (next.map ovf) :=
  nextChainedSlot_updateSlot ha _

/-- The link of an unowned slot may be set. -/
lemma setNext_unowned (h : Heap cap idx chains free) (ho : Unowned idx chains free o)
    (next : Option ℕ) : Heap cap (idx.updateSlot (.ovf o) (·.setNext next)) chains free := by
  have hr : idx.InRange (.ovf o) := ho.lt
  refine h.relinked (by simp) (by simp) (cellsAt_setNext hr next) ?_ h.chain_lt h.chain_nodup
    h.disjoint ?_ h.free_lt h.free_nodup h.free_disjoint h.free_empty (by simpa using h.free_count)
  · intro i hi
    rw [nextChainedSlot_setNext hr]
    exact (h.links i hi).update (ho.not_mem_addrs hi)
  · rw [nextChainedSlot_setNext hr, updateSlot_indexHeader]
    exact h.free_links.update ho.not_mem_free

lemma Unowned.setNext (ho : Unowned idx chains free o) (hr : idx.InRange (.ovf o'))
    (next : Option ℕ) : Unowned (idx.updateSlot (.ovf o') (·.setNext next)) chains free o := by
  refine ⟨by simpa using ho.lt, by simpa using ho.not_chain, ho.not_free, ?_⟩
  rw [cellsAt_setNext hr]
  exact ho.empty

/-! ### The free list -/

lemma cellsAt_addFreeOverflowSlot (ho : idx.InRange (.ovf o)) :
    (idx.addFreeOverflowSlot o).cellsAt = idx.cellsAt :=
  cellsAt_setNext ho _

lemma nextChainedSlot_addFreeOverflowSlot (ho : idx.InRange (.ovf o)) :
    (idx.addFreeOverflowSlot o).nextChainedSlot = update idx.nextChainedSlot (.ovf o)
      (idx.indexHeader.firstFreeOverflowSlotId.map ovf) :=
  nextChainedSlot_setNext ho _

/-- An unowned slot may become free. -/
lemma addFreeOverflowSlot (h : Heap cap idx chains free)
    (ho : Unowned idx chains free o) : Heap cap (idx.addFreeOverflowSlot o) chains (o :: free) := by
  have hr : idx.InRange (.ovf o) := ho.lt
  refine h.relinked (updateSlot_pSlots_length _ _ _) (updateSlot_oSlots_length _ _ _)
    (cellsAt_addFreeOverflowSlot hr) ?_ h.chain_lt h.chain_nodup h.disjoint ?_ ?_ ?_ ?_ ?_ ?_
  · intro i hi
    rw [nextChainedSlot_addFreeOverflowSlot hr]
    exact (h.links i hi).update (ho.not_mem_addrs hi)
  · -- the new head links to the old free list, whose links are as before
    rw [nextChainedSlot_addFreeOverflowSlot hr]
    refine ⟨rfl, ?_⟩
    rw [update_self]
    exact h.free_links.update ho.not_mem_free
  · intro x hx
    rcases mem_cons.mp hx with rfl | hx
    · exact ho.lt
    · exact h.free_lt x hx
  · exact nodup_cons.mpr ⟨ho.not_free, h.free_nodup⟩
  · intro i hi x hx hmem
    rcases mem_cons.mp hmem with rfl | hmem
    · exact ho.not_chain i hi hx
    · exact h.free_disjoint i hi x hx hmem
  · intro x hx
    rcases mem_cons.mp hx with rfl | hx
    · exact ho.empty
    · exact h.free_empty x hx
  · have hcount := h.free_count
    simp [InMemHashIndex.addFreeOverflowSlot]
    omega

/-! ### Growing the vector of overflow slots -/

section Extend

variable [Inhabited K]

/-- The index with `n` more overflow slots. -/
def extendO (cap : ℕ) (idx : InMemHashIndex K) (n : ℕ) : InMemHashIndex K :=
  { idx with oSlots := idx.oSlots ++ List.replicate n (Slot.empty cap) }

lemma getSlot_extendO (ha : idx.InRange a) : (extendO cap idx n).getSlot a = idx.getSlot a := by
  obtain ⟨id, ty⟩ := a
  cases ty with
  | PRIMARY => rfl
  | OVF =>
    have hlt : id < idx.oSlots.length := ha
    simp [getSlot, extendO, getElem?_append_left hlt]

lemma getSlot_extendO_new (hge : idx.oSlots.length ≤ o) (hlt : o < idx.oSlots.length + n) :
    (extendO cap idx n).getSlot (.ovf o) = Slot.empty cap := by
  have hsub : o - idx.oSlots.length < n := by omega
  simp [getSlot, extendO, getElem?_append_right hge, hsub]

section

variable (h : Heap cap idx chains free)

include h

/-- New empty slots, as overflow slots that no chain uses or as primary slots of their own. -/
lemma grow (hrange : ∀ a, idx.InRange a → idx'.InRange a)
    (hget : ∀ a, idx.InRange a → idx'.getSlot a = idx.getSlot a)
    (hnew : ∀ a, idx'.InRange a → ¬ idx.InRange a → idx'.getSlot a = Slot.empty cap)
    (hheader : idx'.indexHeader = idx.indexHeader) (hcount : idx'.numFreeSlots = idx.numFreeSlots)
    (hchains : ∀ i < idx'.pSlots.length,
      chains' i = if i < idx.pSlots.length then chains i else []) : Heap cap idx' chains' free := by
  -- the chains of old slots are as before
  have hmem : ∀ i < idx'.pSlots.length, ∀ o ∈ chains' i, i < idx.pSlots.length ∧ o ∈ chains i := by
    intro i hi o ho
    rw [hchains i hi] at ho
    split_ifs at ho with hlt
    · exact ⟨hlt, ho⟩
    · cases ho
  have hnext : ∀ a, idx.InRange a → idx'.nextChainedSlot a = idx.nextChainedSlot a := by
    intro a ha
    rw [nextChainedSlot, hget a ha, nextChainedSlot]
  have hfree : ∀ o ∈ free, idx.InRange (.ovf o) := h.free_lt
  refine ⟨fun a ha => ?_, fun i hi => ?_, ?_, fun i hi => ?_, ?_, ?_, ?_, h.free_nodup, ?_, ?_,
    hcount ▸ h.free_count⟩
  · by_cases hr : idx.InRange a
    · rw [cellsAt, hget a hr]
      exact h.width a hr
    · rw [cellsAt, hnew a ha hr]
      simp [Slot.empty]
  · rw [hchains i hi]
    split_ifs with hlt
    · exact (h.links i hlt).congr fun a ha => hnext a (h.inRange hlt a ha)
    · refine ⟨rfl, ?_⟩
      rw [nextChainedSlot, hnew _ (inRange_prim.mpr hi) (mt inRange_prim.mp hlt)]
      rfl
  · intro i hi o ho
    obtain ⟨hlt, ho⟩ := hmem i hi o ho
    exact hrange (.ovf o) (h.chain_lt i hlt o ho)
  · rw [hchains i hi]
    split_ifs with hlt
    · exact h.chain_nodup i hlt
    · exact nodup_nil
  · intro i hi j hj o hoi hoj
    obtain ⟨hi', hoi'⟩ := hmem i hi o hoi
    obtain ⟨hj', hoj'⟩ := hmem j hj o hoj
    exact h.disjoint i hi' j hj' o hoi' hoj'
  · rw [hheader]
    refine h.free_links.congr fun a ha => ?_
    obtain ⟨o, ho, rfl⟩ := mem_map.mp ha
    exact hnext _ (hfree o ho)
  · exact fun o ho => hrange _ (hfree o ho)
  · intro i hi o ho
    obtain ⟨hlt, ho⟩ := hmem i hi o ho
    exact h.free_disjoint i hlt o ho
  · intro o ho c hc
    rw [cellsAt, hget _ (hfree o ho)] at hc
    exact h.free_empty o ho c hc

/-- New overflow slots at the end keep the heap. -/
lemma extend (n : ℕ) : Heap cap (extendO cap idx n) chains free := by
  have hlen : (extendO cap idx n).oSlots.length = idx.oSlots.length + n := by simp [extendO]
  refine h.grow (fun a ha => ?_) (fun a => getSlot_extendO) (fun a ha hr => ?_) rfl rfl
    fun i hi => (if_pos hi).symm
  · obtain ⟨id, ty⟩ := a
    cases ty with
    | PRIMARY => exact ha
    | OVF =>
      rw [inRange_ovf] at ha ⊢
      omega
  · obtain ⟨id, ty⟩ := a
    cases ty with
    | PRIMARY => exact absurd ha hr
    | OVF =>
      rw [inRange_ovf] at ha hr
      exact getSlot_extendO_new (by omega) (by omega)

/-- The new slots are unowned. -/
lemma unowned_extend (hge : idx.oSlots.length ≤ o)
    (hlt : o < idx.oSlots.length + n) : Unowned (extendO cap idx n) chains free o := by
  refine ⟨by simpa [extendO] using hlt, ?_, ?_, ?_⟩
  · intro i hi hmem
    have := h.chain_lt i hi o hmem
    omega
  · intro hmem
    have := h.free_lt o hmem
    omega
  · intro c hc
    rw [cellsAt, getSlot_extendO_new hge hlt] at hc
    obtain rfl := eq_of_mem_replicate hc
    rfl

end

end Extend

/-! ### Allocating an overflow slot -/

/-- What an operation leaves alone: the primary slots are as many as before, and the header
changes in the free list alone, as long as the counter says. -/
structure SameShape (idx idx' : InMemHashIndex K) : Prop where
  pSlots : idx'.pSlots.length = idx.pSlots.length
  header : idx'.indexHeader = { idx.indexHeader with
    firstFreeOverflowSlotId := idx'.indexHeader.firstFreeOverflowSlotId }
  stale : ∀ n, idx.Stale n → idx'.Stale n

lemma SameShape.refl (idx : InMemHashIndex K) : SameShape idx idx := ⟨rfl, rfl, fun _ => id⟩

lemma SameShape.trans {idx'' : InMemHashIndex K} (h : SameShape idx idx')
    (h' : SameShape idx' idx'') : SameShape idx idx'' := by
  refine ⟨h'.pSlots.trans h.pSlots, ?_, fun n hn => h'.stale n (h.stale n hn)⟩
  rw [h'.header, h.header]

/-- How far the counter is off depends on the numbers only. -/
lemma stale (h : Heap cap idx chains free) (h' : Heap cap idx' chains' free')
    (hnum : idx'.numFreeSlots + free.length = idx.numFreeSlots + free'.length) (n : ℕ)
    (hn : idx.Stale n) : idx'.Stale n := by
  obtain ⟨l, hl, hlen⟩ := hn
  obtain rfl := hl.unique h.free_links
  exact ⟨free', h'.free_links, by omega⟩

lemma SameShape.updateSlot {f : Slot K → Slot K} (h : Heap cap idx chains free)
    (h' : Heap cap (idx.updateSlot a f) chains' free) : SameShape idx (idx.updateSlot a f) := by
  refine ⟨by simp, ?_, h.stale h' (by simp)⟩
  rw [updateSlot_indexHeader]

/-- `allocateAOSlot` hands out a slot that is in no chain any more and changes no other slot. -/
lemma allocateAOSlot_spec [Inhabited K] (h : Heap cap idx chains free) :
    ∃ o idx' free', idx.allocateAOSlot cap = (o, idx') ∧ Heap cap idx' chains free' ∧
      Unowned idx' chains free' o ∧ idx'.nextChainedSlot (.ovf o) = none ∧
      SameShape idx idx' ∧ ∀ a, idx.InRange a → a ≠ .ovf o → idx'.getSlot a = idx.getSlot a := by
  cases hfirst : idx.indexHeader.firstFreeOverflowSlotId with
  | none =>
    refine ⟨idx.oSlots.length, extendO cap idx 1, free, ?_, h.extend 1,
      h.unowned_extend le_rfl (by omega), ?_, ⟨rfl, rfl, h.stale (h.extend 1) rfl⟩,
      fun a ha _ => getSlot_extendO ha⟩
    · simp [InMemHashIndex.allocateAOSlot, hfirst, extendO]
    · rw [nextChainedSlot, getSlot_extendO_new le_rfl (by omega)]
      rfl
  | some o =>
    -- the free list starts with `o`; the rest of it is the new free list
    have hlinks := h.free_links
    rw [hfirst] at hlinks
    cases hfree : free with
    | nil => rw [hfree] at hlinks; cases hlinks
    | cons o' rest =>
      rw [hfree] at hlinks
      obtain rfl : o = o' := ovf_injective (Option.some.inj hlinks.1)
      have hmem : o ∈ free := hfree ▸ mem_cons_self
      have hr : idx.InRange (.ovf o) := h.free_lt o hmem
      obtain ⟨ho_rest, hrest_nodup⟩ := nodup_cons.mp (hfree ▸ h.free_nodup)
      have hsub : ∀ x ∈ rest, x ∈ free := fun x hx => hfree ▸ mem_cons_of_mem o hx
      have hchain : ∀ i < idx.pSlots.length, o ∉ chains i :=
        fun i hi hoi => h.free_disjoint i hi o hoi hmem
      set idx1 := idx.updateSlot (.ovf o) (·.setNext none) with hidx1
      have hheap : Heap cap { idx1 with
          indexHeader := { idx1.indexHeader with
            firstFreeOverflowSlotId := (idx.getSlot (.ovf o)).nextOvfSlotId }
          numFreeSlots := idx1.numFreeSlots - 1 } chains rest := by
        refine h.relinked (updateSlot_pSlots_length _ _ _) (updateSlot_oSlots_length _ _ _)
          (cellsAt_setNext hr none) ?_ h.chain_lt h.chain_nodup h.disjoint ?_ ?_ hrest_nodup
          ?_ ?_ ?_
        · intro i hi
          show Seg idx1.nextChainedSlot _ _ _
          rw [nextChainedSlot_setNext hr]
          exact (h.links i hi).update fun ha => hchain i hi (ovf_mem_chainAddrs.mp ha)
        · show Seg idx1.nextChainedSlot _ _ _
          rw [nextChainedSlot_setNext hr]
          exact hlinks.2.update (mt ovf_mem_map.mp ho_rest)
        · exact fun x hx => h.free_lt x (hsub x hx)
        · exact fun i hi x hx hxr => h.free_disjoint i hi x hx (hsub x hxr)
        · exact fun x hx => h.free_empty x (hsub x hx)
        · have hcount := h.free_count
          rw [hfree, length_cons] at hcount
          show rest.length ≤ idx1.numFreeSlots - 1
          rw [hidx1, updateSlot_numFreeSlots]
          omega
      refine ⟨o, _, rest, ?_, hheap, ?_, ?_, ?_, ?_⟩
      · simp [InMemHashIndex.allocateAOSlot, hfirst, hidx1]
      · refine ⟨?_, ?_, ho_rest, ?_⟩
        · rw [hidx1, updateSlot_oSlots_length]
          exact h.free_lt o hmem
        · intro i hi
          have hp : idx1.pSlots.length = idx.pSlots.length := updateSlot_pSlots_length _ _ _
          exact hchain i (hp ▸ hi)
        · intro c hc
          have hcells : idx1.cellsAt = idx.cellsAt := cellsAt_setNext hr none
          exact h.free_empty o hmem c ((congrFun hcells (.ovf o)) ▸ hc)
      · exact (congrFun (nextChainedSlot_setNext hr none) (.ovf o)).trans (update_self _ _ _)
      · refine ⟨updateSlot_pSlots_length _ _ _, ?_, h.stale hheap ?_⟩
        · rw [hidx1, updateSlot_indexHeader]
        · have hcount := h.free_count
          rw [hfree, length_cons] at hcount ⊢
          show idx1.numFreeSlots - 1 + _ = _
          rw [hidx1, updateSlot_numFreeSlots]
          omega
      · intro a _ hne
        show idx1.getSlot a = idx.getSlot a
        rw [hidx1, getSlot_updateSlot hr, update_of_ne hne]

/-- Freeing a slot keeps the shape. -/
lemma SameShape.addFreeOverflowSlot (h : Heap cap idx chains free)
    (ho : Unowned idx chains free o) : SameShape idx (idx.addFreeOverflowSlot o) := by
  refine ⟨updateSlot_pSlots_length _ _ _, ?_, h.stale (h.addFreeOverflowSlot ho) ?_⟩ <;>
    simp [InMemHashIndex.addFreeOverflowSlot]
  omega

lemma Unowned.addFreeOverflowSlot (ho : Unowned idx chains free o)
    (ho' : Unowned idx chains free o') (hne : o' ≠ o) :
    Unowned (idx.addFreeOverflowSlot o) chains (o :: free) o' := by
  refine ⟨?_, ?_, ?_, ?_⟩
  · simpa [InMemHashIndex.addFreeOverflowSlot] using ho'.lt
  · simpa [InMemHashIndex.addFreeOverflowSlot] using ho'.not_chain
  · simpa [hne] using ho'.not_free
  · rw [cellsAt_addFreeOverflowSlot (inRange_ovf.mpr ho.lt)]
    exact ho'.empty

/-- The loop that frees the slots from `newSlotId` on. -/
lemma addFreeOverflowSlots_spec (total : ℕ) : ∀ (fuel i newSlotId : ℕ) (idx : InMemHashIndex K)
    (free : List ℕ), Heap cap idx chains free →
    (∀ o, newSlotId ≤ o → o < newSlotId + fuel → Unowned idx chains free o) →
    ∃ free', Heap cap (addFreeOverflowSlots total fuel i newSlotId idx) chains free' ∧
      SameShape idx (addFreeOverflowSlots total fuel i newSlotId idx) ∧
      ∀ a, (∀ o, newSlotId ≤ o → a ≠ .ovf o) →
        (addFreeOverflowSlots total fuel i newSlotId idx).getSlot a = idx.getSlot a := by
  intro fuel
  induction fuel with
  | zero => exact fun i newSlotId idx free h _ => ⟨free, h, SameShape.refl idx, fun _ _ => rfl⟩
  | succ fuel ih =>
    intro i newSlotId idx free h hun
    rw [addFreeOverflowSlots]
    split
    · have ho := hun newSlotId le_rfl (by omega)
      obtain ⟨free', hheap, hshape, hget⟩ := ih (i + 1) (newSlotId + 1) _ _
        (h.addFreeOverflowSlot ho) fun o hge hlt =>
          Unowned.addFreeOverflowSlot ho (hun o (by omega) (by omega)) (by omega)
      refine ⟨free', hheap, (SameShape.addFreeOverflowSlot h ho).trans hshape, ?_⟩
      intro a ha
      rw [hget a fun o hge => ha o (by omega)]
      show (idx.updateSlot (.ovf newSlotId) _).getSlot a = idx.getSlot a
      rw [getSlot_updateSlot (inRange_ovf.mpr ho.lt), update_of_ne (ha newSlotId le_rfl)]
    · exact ⟨free, h, SameShape.refl idx, fun _ _ => rfl⟩

section

variable (h : Heap cap idx chains free)

include h

/-- `reserveOverflowSlots` changes no slot that was there before, but for the free list. -/
lemma reserveOverflowSlots_spec [Inhabited K] (total : ℕ) :
    ∃ free', Heap cap (idx.reserveOverflowSlots cap total) chains free' ∧
      SameShape idx (idx.reserveOverflowSlots cap total) ∧
      ∀ a, idx.InRange a → (idx.reserveOverflowSlots cap total).getSlot a = idx.getSlot a := by
  rw [reserveOverflowSlots]
  split
  · obtain ⟨free', hheap, hshape, hget⟩ := addFreeOverflowSlots_spec total
      (total - idx.numFreeSlots) 0 idx.oSlots.length _ _ (h.extend (total - idx.numFreeSlots))
      fun o hge hlt => h.unowned_extend hge hlt
    refine ⟨free', hheap, ⟨hshape.pSlots, hshape.header, fun n hn =>
      hshape.stale n (h.stale (h.extend _) rfl n hn)⟩, fun a ha => ?_⟩
    have hnew : ∀ o, idx.oSlots.length ≤ o → a ≠ .ovf o := by
      rintro o hge rfl
      exact absurd (inRange_ovf.mp ha) (Nat.not_lt.mpr hge)
    exact (hget a hnew).trans (getSlot_extendO ha)
  · exact ⟨free, h, SameShape.refl idx, fun _ _ => rfl⟩

/-! ### Lengthening and cutting a chain -/

section

variable (hi : i < idx.pSlots.length)

include hi

/-- An unowned slot without successor is put behind the last slot of a chain. -/
lemma link (hc : chains i = chain) (hlast : (chainAddrs i chain)[chain.length]? = some a)
    (ho : Unowned idx chains free o) (hnext : idx.nextChainedSlot (.ovf o) = none) :
    Heap cap (idx.updateSlot a (·.setNext (some o))) (update chains i (chain ++ [o])) free := by
  subst hc
  have hmem : a ∈ chainAddrs i (chains i) := mem_of_getElem? hlast
  obtain ⟨l, hla⟩ : ∃ l, chainAddrs i (chains i) = l ++ [a] :=
    ⟨_, (dropLast_append_getLast? a (by simpa [getLast?_eq_getElem?] using hlast)).symm⟩
  have hr : idx.InRange a := h.inRange hi a hmem
  have hal : a ∉ l := by
    have hnodup := chainAddrs_nodup (i := i) (h.chain_nodup i hi)
    rw [hla] at hnodup
    exact fun hmem' => (nodup_append.mp hnodup).2.2 a hmem' a mem_cons_self rfl
  have hao : ovf o ≠ a := fun hoa => ho.not_mem_addrs hi (hoa ▸ hmem)
  have hsub : ∀ j, ∀ x ∈ update chains i (chains i ++ [o]) j, x ∈ chains j ∨ j = i ∧ x = o := by
    refine (forall_update_iff chains fun j c => ∀ x ∈ c, x ∈ chains j ∨ j = i ∧ x = o).mpr
      ⟨fun x hx => ?_, fun j _ x hx => .inl hx⟩
    simpa using hx
  refine h.relinked (updateSlot_pSlots_length _ _ _) (updateSlot_oSlots_length _ _ _)
    (cellsAt_setNext hr _) ?_ ?_ ?_ ?_ ?_ h.free_lt h.free_nodup ?_ h.free_empty
    (by simpa using h.free_count)
  · rw [nextChainedSlot_setNext hr]
    refine (forall_update_iff chains fun j c => j < idx.pSlots.length →
      Seg _ (some (.prim j)) (chainAddrs j c) none).mpr ⟨fun _ => ?_, fun j hji hj => ?_⟩
    · rw [chainAddrs_append]
      refine seg_append.mpr ⟨some (.ovf o), ?_, rfl, ?_⟩
      -- the chain up to its old end, and then `o`
      · have hseg := h.links i hi
        rw [hla] at hseg ⊢
        exact hseg.relink hal
      · rw [update_of_ne hao]
        exact hnext
    · exact (h.links j hj).update fun hb => h.not_mem_chain hj hi hji hb hmem
  · intro j hj x hx
    rcases hsub j x hx with hx | ⟨-, rfl⟩
    · exact h.chain_lt j hj x hx
    · exact ho.lt
  · refine (forall_update_iff chains fun j c => j < idx.pSlots.length → c.Nodup).mpr
      ⟨fun _ => ?_, fun j _ => h.chain_nodup j⟩
    exact nodup_append.mpr ⟨h.chain_nodup i hi, nodup_singleton o,
      fun x hx y hy hxy => ho.not_chain i hi (mem_singleton.mp hy ▸ hxy ▸ hx)⟩
  · -- `o` is in no other chain
    intro j hj k hk x hxj hxk
    rcases hsub j x hxj with hj' | ⟨hji, rfl⟩
    · rcases hsub k x hxk with hk' | ⟨-, rfl⟩
      · exact h.disjoint j hj k hk x hj' hk'
      · exact absurd hj' (ho.not_chain j hj)
    · rcases hsub k x hxk with hk' | ⟨hki, -⟩
      · exact absurd hk' (ho.not_chain k hk)
      · exact hji.trans hki.symm
  · rw [nextChainedSlot_setNext hr, updateSlot_indexHeader]
    exact h.free_links.update (h.not_mem_free hi hmem)
  · intro j hj x hx
    rcases hsub j x hx with hx | ⟨-, rfl⟩
    · exact h.free_disjoint j hj x hx
    · exact ho.not_free

/-- An allocated slot becomes the end of a chain. -/
lemma allocateAOSlot_link [Inhabited K] (hc : chains i = chain)
    (hlast : (chainAddrs i chain)[chain.length]? = some a) :
    ∃ o idx1 idx' free', idx.allocateAOSlot cap = (o, idx1) ∧
      idx' = idx1.updateSlot a (·.setNext (some o)) ∧
      Heap cap idx' (update chains i (chain ++ [o])) free' ∧ SameShape idx idx' ∧
      idx'.nextChainedSlot a = some (.ovf o) ∧ (∀ c ∈ idx'.cellsAt (.ovf o), c.valid = false) ∧
      ∀ j < idx.pSlots.length, ∀ b ∈ chainAddrs j (chains j),
        b ≠ .ovf o ∧ idx'.cellsAt b = idx.cellsAt b := by
  obtain ⟨o, idx1, free', halloc, hheap, hun, hnext, hshape, hget⟩ := h.allocateAOSlot_spec
  have hi1 : i < idx1.pSlots.length := hshape.pSlots ▸ hi
  have hr := hheap.inRange hi1 a (hc ▸ mem_of_getElem? hlast)
  have hlink := hheap.link hi1 hc hlast hun hnext
  refine ⟨o, idx1, _, free', halloc, rfl, hlink, hshape.trans (.updateSlot hheap hlink), ?_, ?_,
    fun j hj b hb => ?_⟩
  · rw [nextChainedSlot_setNext hr, update_self]
    rfl
  · rw [cellsAt_setNext hr]
    exact hun.empty
  · have hne : b ≠ .ovf o := ne_of_mem_of_not_mem hb (hun.not_mem_addrs (hshape.pSlots ▸ hj))
    rw [cellsAt_setNext hr, cellsAt, hget b (h.inRange hj b hb) hne]
    exact ⟨hne, rfl⟩

/-- The link behind slot `a` of a chain is cut: the chain ends there, and the slots behind it are
linked as before. -/
lemma cut
    (hchain : chains i = kept ++ dropped) {l : List SlotInfo} (hla : chainAddrs i kept = l ++ [a]) :
    Heap cap (idx.updateSlot a (·.setNext none)) (update chains i kept) free ∧
      Seg (idx.updateSlot a (·.setNext none)).nextChainedSlot
        (dropped.head?.map ovf) (dropped.map ovf) none := by
  have haddrs : chainAddrs i (chains i) = l ++ [a] ++ dropped.map ovf := by
    rw [hchain, chainAddrs_append, hla]
  have hmem : a ∈ chainAddrs i (chains i) := by rw [haddrs]; simp
  have hr : idx.InRange a := h.inRange hi a hmem
  have hnodup := chainAddrs_nodup (i := i) (h.chain_nodup i hi)
  rw [haddrs] at hnodup
  obtain ⟨hla_nodup, -, hapart⟩ := nodup_append.mp hnodup
  have hal : a ∉ l := fun hmem' => (nodup_append.mp hla_nodup).2.2 a hmem' a mem_cons_self rfl
  have hadropped : a ∉ dropped.map ovf :=
    fun hmem' => hapart a (mem_append_right l mem_cons_self) a hmem' rfl
  have hsub : ∀ j, ∀ x ∈ update chains i kept j, x ∈ chains j := by
    refine (forall_update_iff chains fun j c => ∀ x ∈ c, x ∈ chains j).mpr
      ⟨fun x hx => ?_, fun j _ x hx => hx⟩
    rw [hchain]
    exact mem_append_left dropped hx
  obtain ⟨x, hseg, hrest⟩ := seg_append.mp (haddrs ▸ h.links i hi)
  constructor
  · refine h.relinked (updateSlot_pSlots_length _ _ _) (updateSlot_oSlots_length _ _ _)
      (cellsAt_setNext hr _) ?_ (fun j hj o ho => h.chain_lt j hj o (hsub j o ho)) ?_
      (fun j hj k hk o hoj hok => h.disjoint j hj k hk o (hsub j o hoj) (hsub k o hok)) ?_
      h.free_lt h.free_nodup (fun j hj o ho => h.free_disjoint j hj o (hsub j o ho)) h.free_empty
      (by simpa using h.free_count)
    · rw [nextChainedSlot_setNext hr]
      refine (forall_update_iff chains fun j c => j < idx.pSlots.length →
        Seg _ (some (.prim j)) (chainAddrs j c) none).mpr ⟨fun _ => ?_, fun j hji hj => ?_⟩
      -- the kept part ends at `a`
      · rw [hla]
        exact hseg.relink hal
      · exact (h.links j hj).update fun hb => h.not_mem_chain hj hi hji hb hmem
    · exact (forall_update_iff chains fun j c => j < idx.pSlots.length → c.Nodup).mpr
        ⟨fun _ => (nodup_append.mp (hchain ▸ h.chain_nodup i hi)).1, fun j _ => h.chain_nodup j⟩
    · rw [nextChainedSlot_setNext hr, updateSlot_indexHeader]
      exact h.free_links.update (h.not_mem_free hi hmem)
  · have hx : x = dropped.head?.map ovf := by
      cases dropped with
      | nil => exact hrest
      | cons o dropped => exact hrest.1
    rw [nextChainedSlot_setNext hr, ← hx]
    exact hrest.update hadropped

end

end

/-! ### Reclaiming -/

/-- The second loop of `reclaimOverflowSlots` puts the slots it meets on the free list. -/
lemma freeSlots_spec : ∀ (os : List ℕ) (fuel : ℕ) (idx : InMemHashIndex K) (free : List ℕ),
    Heap cap idx chains free → os.length ≤ fuel → os.Nodup →
    (∀ o ∈ os, Unowned idx chains free o) →
    Seg idx.nextChainedSlot (os.head?.map ovf) (os.map ovf) none →
    ∃ idx', freeSlots fuel (os.head?.map ovf) idx = some idx' ∧
      Heap cap idx' chains (os.reverse ++ free) ∧ SameShape idx idx' ∧
      idx'.cellsAt = idx.cellsAt := by
  intro os
  induction os with
  | nil =>
    intro fuel idx free h _ _ _ _
    refine ⟨idx, ?_, h, SameShape.refl idx, rfl⟩
    cases fuel <;> rfl
  | cons o os ih =>
    intro fuel idx free h hfuel hnodup hun hseg
    obtain ⟨hoos, hos⟩ := nodup_cons.mp hnodup
    have ho := hun o mem_cons_self
    have hr : idx.InRange (.ovf o) := ho.lt
    have hnext : idx.nextChainedSlot (.ovf o) = os.head?.map ovf := by
      cases os with
      | nil => exact hseg.2
      | cons o' os => exact hseg.2.1
    cases fuel with
    | zero => simp at hfuel
    | succ fuel =>
      -- the first slot is freed, the rest by induction
      set idx1 := idx.updateSlot (.ovf o) (·.setNext none) with hidx1
      have h1 : Heap cap idx1 chains free := h.setNext_unowned ho none
      have ho1 : Unowned idx1 chains free o := Unowned.setNext ho hr none
      have hr1 : idx1.InRange (.ovf o) := ho1.lt
      have hlinks : Seg (idx1.addFreeOverflowSlot o).nextChainedSlot (os.head?.map ovf)
          (os.map ovf) none := by
        have hnot := mt ovf_mem_map.mp hoos
        rw [← hnext, nextChainedSlot_addFreeOverflowSlot hr1, nextChainedSlot_setNext hr]
        exact (hseg.2.update hnot).update hnot
      obtain ⟨idx', hrun, hheap, hshape, hcells⟩ := ih fuel (idx1.addFreeOverflowSlot o) (o :: free)
        (h1.addFreeOverflowSlot ho1) (by simpa using hfuel) hos
        (fun x hx => Unowned.addFreeOverflowSlot ho1 (Unowned.setNext (hun x (mem_cons_of_mem o hx))
          hr none) (fun hxo => hoos (hxo ▸ hx))) hlinks
      refine ⟨idx', ?_, by simpa using hheap, ?_, ?_⟩
      · rw [← hrun, head?_cons, Option.map_some, freeSlots, hnext]
        rfl
      · exact ((SameShape.updateSlot h h1).trans (.addFreeOverflowSlot h1 ho1)).trans hshape
      · rw [hcells, cellsAt_addFreeOverflowSlot hr1, hidx1, cellsAt_setNext hr]

/-- The first loop of `reclaimOverflowSlots` stops between the slots with entries and the others. -/
lemma skipNonEmpty_spec (hdropped : ∀ o ∈ dropped, (idx.getSlot (.ovf o)).numEntries = 0)
    {m : List SlotInfo} {fuel : ℕ} (last : SlotInfo) (hfuel : (m ++ dropped.map ovf).length < fuel)
    (hkeep : ∀ x ∈ a :: m, (idx.getSlot x).numEntries > 0 ∨ x.slotType = .PRIMARY)
    (hseg : Seg idx.nextChainedSlot (some a) (a :: (m ++ dropped.map ovf)) none) :
    idx.skipNonEmpty fuel a last =
      some ((a :: m).getLast (cons_ne_nil _ _), dropped.head?.map ovf) := by
  induction m generalizing a last fuel with
  | nil =>
    obtain ⟨fuel, rfl⟩ := Nat.exists_eq_succ_of_ne_zero (Nat.ne_zero_of_lt hfuel)
    rw [skipNonEmpty, if_pos (hkeep a mem_cons_self)]
    cases dropped with
    | nil =>
      rw [show idx.nextChainedSlot a = none from hseg.2]
      rfl
    | cons o dropped =>
      rw [show idx.nextChainedSlot a = some (.ovf o) from hseg.2.1]
      obtain ⟨fuel, rfl⟩ := Nat.exists_eq_succ_of_ne_zero
        (Nat.ne_zero_of_lt (Nat.lt_of_succ_lt_succ hfuel))
      show idx.skipNonEmpty (fuel + 1) (.ovf o) a = _
      have hstop : ¬ ((idx.getSlot (.ovf o)).numEntries > 0 ∨ (ovf o).slotType = .PRIMARY) := by
        simp [hdropped o mem_cons_self]
      rw [skipNonEmpty, if_neg hstop]
      rfl
  | cons a' m ih =>
    obtain ⟨fuel, rfl⟩ := Nat.exists_eq_succ_of_ne_zero (Nat.ne_zero_of_lt hfuel)
    have hnext : idx.nextChainedSlot a = some a' := hseg.2.1
    rw [skipNonEmpty, if_pos (hkeep a mem_cons_self), hnext, getLast_cons_cons]
    exact ih a (Nat.lt_of_succ_lt_succ hfuel) (fun x hx => hkeep x (mem_cons_of_mem a hx))
      (hnext ▸ hseg.2)

/-- `reclaimOverflowSlots`, started at a slot that is kept, moves the empty slots at the end of the
chain to the free list. -/
lemma reclaimOverflowSlots_spec (h : Heap cap idx chains free) (hi : i < idx.pSlots.length)
    (hchain : chains i = kept ++ dropped) {iter : SlotInfo}
    (hiter : iter ∈ chainAddrs i kept) (hkept : ∀ o ∈ kept, 0 < (idx.getSlot (.ovf o)).numEntries)
    (hdropped : ∀ o ∈ dropped, (idx.getSlot (.ovf o)).numEntries = 0) :
    ∃ idx' free', idx.reclaimOverflowSlots iter = some idx' ∧
      Heap cap idx' (update chains i kept) free' ∧ SameShape idx idx' ∧
      idx'.cellsAt = idx.cellsAt := by
  obtain ⟨before, m, hsplit⟩ := append_of_mem hiter
  have haddrs : chainAddrs i (chains i) = before ++ iter :: (m ++ dropped.map ovf) := by
    rw [hchain, chainAddrs_append, hsplit, append_assoc, cons_append]
  -- the links from `iter` on
  obtain ⟨x, -, hseg⟩ := seg_append.mp (haddrs ▸ h.links i hi)
  obtain rfl : x = some iter := hseg.1
  rw [reclaimOverflowSlots]
  by_cases hnone : (idx.getSlot iter).nextOvfSlotId = none
  · -- nothing follows, so nothing is dropped
    have hend : m ++ dropped.map ovf = [] := by
      have hrest := hseg.2
      rw [nextChainedSlot, hnone] at hrest
      cases hm : m ++ dropped.map ovf with
      | nil => rfl
      | cons b rest =>
        rw [hm] at hrest
        cases hrest.1
    obtain rfl : dropped = [] := map_eq_nil_iff.mp (append_eq_nil_iff.mp hend).2
    refine ⟨idx, free, by simp [hnone], ?_, SameShape.refl idx, rfl⟩
    rw [← hchain.trans (append_nil kept), update_eq_self]
    exact h
  · have hsome : (idx.getSlot iter).nextOvfSlotId.isSome = true :=
      Option.isSome_iff_ne_none.mpr hnone
    have hkept_addrs : ∀ x ∈ iter :: m, (idx.getSlot x).numEntries > 0 ∨ x.slotType = .PRIMARY := by
      intro x hx
      obtain ⟨id, ty⟩ := x
      cases ty with
      | PRIMARY => exact .inr rfl
      | OVF =>
        have hmem : ovf id ∈ chainAddrs i kept := hsplit ▸ mem_append_right before hx
        exact .inl (hkept id (ovf_mem_chainAddrs.mp hmem))
    have hfuel : (m ++ dropped.map ovf).length < idx.maxChain := by
      have hle := h.length_le hi
      rw [haddrs, length_append, length_cons] at hle
      omega
    have hskip := skipNonEmpty_spec hdropped iter hfuel hkept_addrs hseg
    set b := (iter :: m).getLast (cons_ne_nil _ _) with hb
    have hcut : chainAddrs i kept = (before ++ (iter :: m).dropLast) ++ [b] := by
      rw [hsplit, append_assoc, hb, dropLast_append_getLast]
    obtain ⟨h1, hrest⟩ := h.cut hi hchain hcut
    have hr : idx.InRange b := by
      refine h.inRange hi b ?_
      rw [hchain, chainAddrs_append, hcut]
      simp
    set idx1 := idx.updateSlot b (·.setNext none) with hidx1
    have hun : ∀ o ∈ dropped, Unowned idx1 (update chains i kept) free o := by
      intro o ho
      have hoi : o ∈ chains i := hchain ▸ mem_append_right kept ho
      refine ⟨?_, ?_, h.free_disjoint i hi o hoi, ?_⟩
      · rw [hidx1, updateSlot_oSlots_length]
        exact h.chain_lt i hi o hoi
      · intro j hj hoj
        rw [hidx1, updateSlot_pSlots_length] at hj
        by_cases hji : j = i
        · subst hji
          rw [update_self] at hoj
          exact (nodup_append.mp (hchain ▸ h.chain_nodup j hj)).2.2 o hoj o ho rfl
        · rw [update_of_ne hji] at hoj
          exact hji (h.disjoint j hj i hi o hoj hoi)
      · rw [hidx1, cellsAt_setNext hr]
        intro c hc
        have hzero := countP_eq_zero.mp (hdropped o ho) c hc
        simpa using hzero
    have hnodup : dropped.Nodup := (nodup_append.mp (hchain ▸ h.chain_nodup i hi)).2.1
    obtain ⟨idx', hrun, hheap, hshape, hcells⟩ := freeSlots_spec dropped idx.maxChain idx1 free h1
      (by simp at hfuel; omega) hnodup hun hrest
    refine ⟨idx', _, ?_, hheap, (SameShape.updateSlot h h1).trans hshape, ?_⟩
    · rw [if_pos hsome, hskip]
      exact hrun
    · rw [hcells, hidx1, cellsAt_setNext hr]

end Heap

end InMemHashIndex

end Ladybug
