import Ladybug.Index.Equiv.InMemReserve
import Ladybug.Lib.Multimap
import Ladybug.Lib.Paging

/-!
# The in-memory hash index is a multimap

Each operation keeps the invariant `Rep`. An insertion adds an entry at the end of the chain that
the key addresses; a deletion puts the last entry of the chain in the place of the first one with
the key. Hence every sequence of operations refines a multimap: `inMemHashIndex_refines`.
-/

namespace Ladybug

open Chain HashIndexUtils List Function Multiset
open Function (update)

namespace InMemHashIndex

variable {K α : Type} {cap i j : ℕ} {hash : K → ℕ} {idx : InMemHashIndex K} {chains : ℕ → List ℕ}
  {ents : ℕ → List (K × ℕ)} {free : List ℕ} {M : Multiset (K × ℕ)} {es : List α}

/-- `idx'` is `idx` with `chain` in the place of chain `i`, where it stores `es`; the other chains
are as before. -/
structure ChainUpdate (cap : ℕ) (hash : K → ℕ) (idx : InMemHashIndex K) (chains : ℕ → List ℕ)
    (i : ℕ)
    (idx' : InMemHashIndex K) (chain : List ℕ) (es : List (K × ℕ)) (free' : List ℕ) : Prop where
  heap : Heap cap idx' (update chains i chain) free'
  shape : Heap.SameShape idx idx'
  holds : Holds cap hash idx' (chainAddrs i chain) es
  frame : ∀ j < idx.pSlots.length, j ≠ i → ∀ b ∈ chainAddrs j (chains j),
    idx'.cellsAt b = idx.cellsAt b

/-- An update of one chain leaves the others. -/
lemma Rep.updateChain (h : Rep cap hash idx chains ents free) {idx' : InMemHashIndex K}
    {chain free' : List ℕ} {es : List (K × ℕ)}
    (hu : ChainUpdate cap hash idx chains i idx' chain es free') {n : ℕ} (hn : n ≠ 0)
    (hplaced : ∀ e ∈ es, getPrimarySlotIdForHash idx.indexHeader (hash e.1) = i) :
    Rep cap hash { idx' with indexHeader := { idx'.indexHeader with numEntries := n } }
      (update chains i chain) (update ents i es) free' := by
  have hlen := hu.shape.pSlots
  rw [hu.shape.header]
  refine ⟨hu.heap.setHeader rfl, ?_, ?_, ?_, fun hzero => absurd hzero hn, hlen ▸ h.size⟩
  · have hr := h.header
    rw [← hlen] at hr
    exact ⟨hr.levelHashMask, hr.higherLevelHashMask, hr.nextSplit_lt, hr.size⟩
  · intro j hj
    by_cases hji : j = i
    · subst hji
      rw [update_self, update_self]
      exact hu.holds
    · rw [update_of_ne hji, update_of_ne hji]
      exact (h.holds j (hlen ▸ hj)).congr (hu.frame j (hlen ▸ hj) hji)
  · intro j hj e he
    by_cases hji : j = i
    · subst hji
      rw [update_self] at he
      exact hplaced e he
    · rw [update_of_ne hji] at he
      exact h.placed j (hlen ▸ hj) e he

/-- The iterator walks the chain. -/
lemma Rep.walk (h : Rep cap hash idx chains ents free) (hi : i < idx.pSlots.length) :
    Walk cap hash idx ((chains i).map SlotInfo.ovf) (.prim i) (ents i) idx.maxChain := by
  have hfuel := h.heap.length_le hi
  rw [chainAddrs_length] at hfuel
  exact (h.holds i hi).walk (h.heap.links i hi) (h.heap.width_chain hi)
    (by simpa [Nat.succ_le_iff] using hfuel)

def lastAddr (i : ℕ) (chain : List ℕ) : SlotInfo :=
  (.prim i :: chain.map SlotInfo.ovf).getLast (cons_ne_nil _ _)

lemma chainAddrs_lastAddr (i : ℕ) (chain : List ℕ) :
    (chainAddrs i chain)[chain.length]? = some (lastAddr i chain) := by
  rw [lastAddr, ← getLast?_eq_some_getLast, getLast?_eq_getElem?]
  simp [chainAddrs]

/-- A list with its last element in the place of the one at `j`. -/
def swapRemove {α : Type} (es : List α) (j : ℕ) : List α :=
  match es.getLast? with
  | none => []
  | some x => (es.set j x).dropLast

lemma swapRemove_of_lt {x : α} (hj : j < es.length) : swapRemove (es ++ [x]) j = es.set j x := by
  rw [swapRemove, getLast?_concat]
  show ((es ++ [x]).set j x).dropLast = _
  rw [set_append_left _ _ hj, dropLast_concat]

lemma swapRemove_last (es : List α) (x : α) : swapRemove (es ++ [x]) es.length = es := by
  rw [swapRemove, getLast?_concat]
  show ((es ++ [x]).set es.length x).dropLast = _
  rw [set_append_right _ _ le_rfl, Nat.sub_self, set_cons_zero, dropLast_concat]

/-- The last entry takes the removed one's place. -/
lemma swapRemove_perm {e : α} (he : es[j]? = some e) : es.Perm (e :: swapRemove es j) := by
  obtain ⟨hj, rfl⟩ := List.getElem?_eq_some_iff.mp he
  rcases List.eq_nil_or_concat' es with rfl | ⟨es', x, rfl⟩
  · simp at hj
  by_cases hlt : j < es'.length
  · rw [swapRemove_of_lt hlt, getElem_append_left hlt]
    have herase := getElem_cons_eraseIdx_perm hlt
    have hset := set_perm_cons_eraseIdx hlt x
    calc (es' ++ [x]).Perm (x :: es') := perm_append_singleton x es'
      List.Perm _ (x :: es'[j] :: es'.eraseIdx j) := herase.symm.cons x
      List.Perm _ (es'[j] :: x :: es'.eraseIdx j) := List.Perm.swap _ _ _
      List.Perm _ (es'[j] :: es'.set j x) := hset.symm.cons _
  · obtain rfl : j = es'.length := by
      rw [length_append, length_singleton] at hj
      omega
    rw [swapRemove_last]
    simp

lemma Rep.mem_content_chain (h : Rep cap hash idx chains ents free) {e : K × ℕ}
    (he : e ∈ ents (getPrimarySlotIdForHash idx.indexHeader (hash key))) :
    e ∈ content ents idx.pSlots.length :=
  mem_content.mpr ⟨_, h.header.getPrimarySlotIdForHash_lt _, he⟩

lemma Rep.entries (h : Rep cap hash idx chains ents free) :
    Entries cap hash idx (content ents idx.pSlots.length) := ⟨chains, ents, free, h, rfl⟩

section Ops

variable [Inhabited K] (hcap : 0 < cap) {iter : SlotInfo}

/-! ### The writes to a chain -/

section Writes

variable (h : Rep cap hash idx chains ents free) (hi : i < idx.pSlots.length)

include h hi

omit [Inhabited K] in
/-- The end of the chain is found. -/
lemma Rep.lastChainedSlot (hiter : iter ∈ chainAddrs i (chains i)) :
    idx.lastChainedSlot idx.maxChain iter = some (lastAddr i (chains i)) := by
  obtain ⟨pre, l, hsplit⟩ := append_of_mem hiter
  obtain ⟨x, -, hx⟩ := seg_append.mp (hsplit ▸ h.heap.links i hi)
  obtain rfl : x = some iter := hx.1
  have hlen := congrArg List.length hsplit
  have hfuel := h.heap.length_le hi
  rw [length_append, length_cons] at hlen
  rw [lastChainedSlot_spec hx (by omega), lastAddr, ← getLast?_eq_some_getLast,
    ← getLast?_eq_some_getLast, show SlotInfo.prim i :: _ = pre ++ iter :: l from hsplit]
  exact (getLast?_append_of_ne_nil _ (cons_ne_nil _ _)).symm

include hcap

/-- An entry is written behind the last one of a chain whose last slot has room. -/
lemma putEntry_last (hroom : (idx.getSlot (lastAddr i (chains i))).numEntries < cap) (e : K × ℕ) :
    ChainUpdate cap hash idx chains i (idx.putEntry (lastAddr i (chains i))
      (idx.getSlot (lastAddr i (chains i))).numEntries e.1 e.2 (getFingerprintForHash (hash e.1)))
      (chains i) (ents i ++ [e]) free := by
  have hb := chainAddrs_lastAddr i (chains i)
  obtain ⟨tail, hflat, htail, hcompact⟩ := h.holds i hi
  have hnum := numEntries_eq (h.heap.width_chain hi) hflat htail hb
  have hlen := h.heap.entries_length hi rfl hflat
  rw [chainAddrs_length] at hcompact
  have hle : (chains i).length * cap ≤ (ents i).length := by
    rcases hcompact with hone | hlt
    · have hzero : (chains i).length = 0 := by omega
      rw [hzero]
      omega
    · omega
  obtain ⟨hheap, hset, hframe⟩ := h.heap.putEntry hi rfl hb hroom e.1 e.2
    (getFingerprintForHash (hash e.1))
  refine ⟨by rwa [update_eq_self], .updateSlot h.heap hheap, ?_,
    fun j hj hji a ha => hframe a (h.heap.not_mem_chain hj hi hji ha)⟩
  cases tail with
  | nil =>
    simp only [length_nil] at hlen
    omega
  | cons x tail =>
    refine ⟨tail, ?_, fun c hc => htail c (mem_cons_of_mem x hc), ?_⟩
    · rw [hset, hflat, set_append_cons _ _ _ _ (by rw [length_map]; omega)]
      simp [cellOf]
    · rw [chainAddrs_length]
      rw [length_cons] at hcompact
      exact hcompact.imp id fun hlt => by omega

/-- A full chain grows by an overflow slot. -/
lemma insertToNewOvfSlot_last
    (hfull : ¬ (idx.getSlot (lastAddr i (chains i))).numEntries < cap) (e : K × ℕ) :
    ∃ chain free', ChainUpdate cap hash idx chains i
      (idx.insertToNewOvfSlot cap e.1 (lastAddr i (chains i)) e.2
        (getFingerprintForHash (hash e.1))) chain (ents i ++ [e]) free' := by
  have hb := chainAddrs_lastAddr i (chains i)
  obtain ⟨tail, hflat, htail, hcompact⟩ := h.holds i hi
  have hnum := numEntries_eq (h.heap.width_chain hi) hflat htail hb
  have hlen := h.heap.entries_length hi rfl hflat
  obtain rfl : tail = [] := length_eq_zero_iff.mp (by omega)
  rw [append_nil] at hflat
  obtain ⟨o, idx1, idx2, free2, halloc, hidx2, hheap2, hshape2, -, hempty, hold⟩ :=
    h.heap.allocateAOSlot_link hi rfl hb
  have hi2 : i < idx2.pSlots.length := hshape2.pSlots ▸ hi
  have hrun : idx.insertToNewOvfSlot cap e.1 (lastAddr i (chains i)) e.2
      (getFingerprintForHash (hash e.1)) =
        idx2.putEntry (.ovf o) 0 e.1 e.2 (getFingerprintForHash (hash e.1)) := by
    rw [insertToNewOvfSlot, halloc, hidx2]
  -- the new slot is the last one of the chain
  obtain ⟨hheap3, hset, hframe⟩ := hheap2.putEntry (t := (chains i).length + 1) (a := .ovf o) hi2
    (update_self _ _ _) (by simp [chainAddrs]) hcap e.1 e.2 (getFingerprintForHash (hash e.1))
  rw [hrun]
  refine ⟨chains i ++ [o], free2, hheap3, hshape2.trans (.updateSlot hheap2 hheap3), ?_, ?_⟩
  · have hwidth : (idx2.cellsAt (.ovf o)).length = cap := hheap2.width_chain hi2 _ (by simp)
    have hflat2 : flat idx2.cellsAt (chainAddrs i (chains i ++ [o])) =
        (ents i).map (cellOf hash) ++ idx2.cellsAt (.ovf o) := by
      rw [chainAddrs_append, flat_append, flat_congr fun a ha => (hold i hi a ha).2, hflat,
        List.map_singleton, flat_cons, flat_nil, List.append_nil]
    cases hcells : idx2.cellsAt (.ovf o) with
    | nil =>
      rw [hcells] at hwidth
      simp only [length_nil] at hwidth
      omega
    | cons x rest =>
      rw [hcells] at hflat2 hwidth hempty
      rw [length_cons] at hwidth
      refine ⟨rest, ?_, fun c hc => hempty c (mem_cons_of_mem x hc), .inr (by omega)⟩
      simp only [length_nil] at hlen
      rw [hset, hflat2, set_append_cons _ _ _ _ (by rw [length_map, Nat.succ_mul]; omega)]
      simp [cellOf]
  · intro j hj hji a haj
    obtain ⟨hne, hcells⟩ := hold j hj a haj
    refine (hframe a fun hmem => ?_).trans hcells
    rw [chainAddrs_append] at hmem
    rcases mem_append.mp hmem with hmem | hmem
    · exact h.heap.not_mem_chain hj hi hji haj hmem
    · exact hne (List.mem_singleton.mp hmem)

/-- The writes of `deleteKey` to the chain: the entry at `j` is replaced by the last one. -/
lemma deleteKey_writes (hj : j < (ents i).length)
    (hiter : (chainAddrs i (chains i))[j / cap]? = some iter) {b : SlotInfo}
    (hb : (chainAddrs i (chains i))[(chains i).length]? = some b) {r : ℕ}
    (hlast : r = (idx.getSlot b).numEntries - 1) :
    ∃ idx1 tail, (if b ≠ iter ∨ j % cap ≠ r then
          (idx.putEntry iter (j % cap) ((idx.getSlot b).cell r).key ((idx.getSlot b).cell r).value
            ((idx.getSlot b).cell r).fingerprint).updateSlot b (·.setEntryInvalid r)
        else idx.updateSlot iter (·.setEntryInvalid (j % cap))) = idx1 ∧
      Heap cap idx1 chains free ∧ Heap.SameShape idx idx1 ∧
      flat idx1.cellsAt (chainAddrs i (chains i)) =
        (swapRemove (ents i) j).map (cellOf hash) ++ tail ∧ (∀ c ∈ tail, c.valid = false) ∧
      ∀ k < idx.pSlots.length, k ≠ i → ∀ a ∈ chainAddrs k (chains k),
        idx1.cellsAt a = idx.cellsAt a := by
  obtain ⟨tail, hflat, htail, hcompact⟩ := h.holds i hi
  have hw := h.heap.width_chain hi
  have hnum := numEntries_eq hw hflat htail hb
  have hlen := h.heap.entries_length hi rfl hflat
  rw [chainAddrs_length] at hcompact
  obtain ⟨es, x, hes⟩ : ∃ es x, ents i = es ++ [x] :=
    ⟨(ents i).dropLast, (ents i).getLast (ne_nil_of_length_pos (by omega)),
      (dropLast_append_getLast _).symm⟩
  have hes_len : (ents i).length = es.length + 1 := by rw [hes]; simp
  -- position `r` of the last slot holds the last entry
  obtain ⟨hr, hrcap⟩ : (chains i).length * cap + r = es.length ∧ r < cap := by
    rcases hcompact with hone | hlt
    · have hzero : (chains i).length = 0 := by omega
      rw [hzero] at hnum hlen ⊢
      omega
    · omega
  have hcell : (idx.getSlot b).cell r = cellOf hash x :=
    cell_eq hw hflat hb hrcap (by rw [hr, hes]; simp)
  have hj_split := Nat.div_add_mod' j cap
  have hinvalid : ∀ c : SlotCell K, ∀ c' ∈ { c with valid := false } :: tail, c'.valid = false := by
    intro c c' hc
    rcases mem_cons.mp hc with rfl | hc
    · rfl
    · exact htail c' hc
  by_cases hj_last : j = es.length
  · -- the entry is the last one
    have hdiv : j / cap = (chains i).length := by
      rw [hj_last, ← hr, Paging.mul_add_div_of_lt hrcap]
    obtain rfl : b = iter := Option.some.inj (hb.symm.trans (hdiv ▸ hiter))
    have hpos : j % cap = r := by
      rw [hdiv] at hj_split
      omega
    obtain ⟨hheap, hset, hframe⟩ := h.heap.setEntryInvalid hi rfl hb hrcap
    rw [hpos]
    refine ⟨_, { (idx.getSlot b).cell r with valid := false } :: tail, if_neg (by simp), hheap,
      .updateSlot h.heap hheap, ?_, hinvalid _,
      fun k hk hki a ha => hframe a (h.heap.not_mem_chain hk hi hki ha)⟩
    rw [hset, hflat, hes, map_append, append_assoc, hr, hj_last, swapRemove_last]
    exact set_append_cons _ _ _ _ (length_map _).symm
  · have hjlt : j < es.length := by omega
    have hcond : b ≠ iter ∨ j % cap ≠ r := by
      by_contra hnot
      obtain ⟨hbi, hpos⟩ : b = iter ∧ j % cap = r := by
        simpa [not_or] using hnot
      have hnodup := chainAddrs_nodup (i := i) (h.heap.chain_nodup i hi)
      have hsame : (chains i).length = j / cap :=
        (getElem?_inj (show (chains i).length < _ by simp) hnodup).mp (hb.trans (hbi ▸ hiter.symm))
      rw [hsame, ← hpos, hj_split] at hr
      exact hj_last hr
    obtain ⟨hheap1, hset1, hframe1⟩ := h.heap.putEntry hi rfl hiter (Nat.mod_lt j hcap)
      (cellOf hash x).key (cellOf hash x).value (cellOf hash x).fingerprint
    rw [hcell]
    set idx1 := idx.putEntry iter (j % cap) (cellOf hash x).key (cellOf hash x).value
      (cellOf hash x).fingerprint with hidx1
    have hi1 : i < idx1.pSlots.length := by
      rw [hidx1, putEntry, updateSlot_pSlots_length]
      exact hi
    obtain ⟨hheap2, hset2, hframe2⟩ := hheap1.setEntryInvalid hi1 rfl hb hrcap
    refine ⟨_, { (idx1.getSlot b).cell r with valid := false } :: tail, if_pos hcond, hheap2,
      (Heap.SameShape.updateSlot h.heap hheap1).trans (.updateSlot hheap1 hheap2), ?_, hinvalid _,
      fun k hk hki a ha => ?_⟩
    · have hset : (es.map (cellOf hash) ++ cellOf hash x :: tail).set j
          ⟨true, (cellOf hash x).fingerprint, (cellOf hash x).key, (cellOf hash x).value⟩ =
          (es.set j x).map (cellOf hash) ++ cellOf hash x :: tail := by
        rw [set_append_left _ _ (by simpa using hjlt), map_set]
        rfl
      rw [hset2, hset1, hflat, hes, map_append, append_assoc, hj_split, swapRemove_of_lt hjlt]
      show ((es.map (cellOf hash) ++ cellOf hash x :: tail).set j _).set _ _ = _
      rw [hset]
      exact set_append_cons _ _ _ _ (by rw [length_map, length_set]; exact hr)
    · have hnot := h.heap.not_mem_chain hk hi hki ha
      exact (hframe2 a hnot).trans (hframe1 a hnot)

end Writes

/-! ### The operations on the chain that a key addresses -/

variable [BEq K] (heq : ∀ a b : K, (a == b) = true → hash a = hash b) {key : K}
  {isVisible : ℕ → Bool}

section Chain

variable (h : Rep cap hash idx chains ents free)
  (hkey : getPrimarySlotIdForHash idx.indexHeader (hash key) = i)

include h hkey

omit [Inhabited K] [BEq K] in
lemma Rep.slot_lt : i < idx.pSlots.length := hkey ▸ h.header.getPrimarySlotIdForHash_lt _

include heq

/-- A missing key is not deleted. -/
lemma deleteKey_missing (hnone : (ents i).findIdx? (Matches key fun _ => true) = none) :
    idx.deleteKey cap hash key = some (idx, false) := by
  rw [deleteKey]
  by_cases hzero : idx.indexHeader.numEntries = 0
  · rw [if_pos hzero]
  rw [if_neg hzero, hkey]
  show (idx.findValidEntry cap key _ idx.maxChain (.prim i)).bind _ = _
  rw [findValidEntry_eq heq (h.walk (h.slot_lt hkey)),
    findEntry_missing heq (h.walk (h.slot_lt hkey)) hnone]
  rfl

include hcap

/-- A lookup searches the chain of the key. -/
lemma lookup_eq (isVisible : ℕ → Bool) :
    idx.lookup cap hash key isVisible =
      some (((ents i).find? (Matches key isVisible)).map Prod.snd) := by
  have hi := h.slot_lt hkey
  rw [lookup]
  split_ifs with hzero
  · rw [h.counted hzero i hi]
    rfl
  rw [hkey, find?_eq_bind_findIdx?_getElem?]
  show (idx.findEntry cap key _ isVisible idx.maxChain (.prim i)).bind _ = _
  cases hidx : (ents i).findIdx? (Matches key isVisible) with
  | none =>
    rw [findEntry_missing heq (h.walk hi) hidx]
    rfl
  | some j =>
    obtain ⟨hj, -⟩ := findIdx?_eq_some_iff_getElem.mp hidx
    obtain ⟨info, hinfo, hrun⟩ := findEntry_found heq (h.walk hi) hcap hidx
    obtain ⟨tail, hflat, -, -⟩ := h.holds i hi
    have hcell := cell_eq (h.heap.width_chain hi) hflat hinfo (Nat.mod_lt j hcap) (e := (ents i)[j])
      (by rw [Nat.div_add_mod']; exact getElem?_eq_getElem hj)
    rw [hrun]
    show some (some ((idx.getSlot info).cell (j % cap)).value) = some ((ents i)[j]?.map Prod.snd)
    rw [hcell, getElem?_eq_getElem hj]
    rfl

/-- A visible key is not appended again. -/
lemma appendInternal_found (value : ℕ) (hj : (ents i).findIdx? (Matches key isVisible) = some j) :
    idx.appendInternal cap hash key value isVisible = some (idx, false) := by
  obtain ⟨info, -, hrun⟩ := findEntry_found heq (h.walk (h.slot_lt hkey)) hcap hj
  rw [appendInternal, hkey]
  rw [hrun]
  rfl

/-- `appendInternal` of a key without a visible entry adds the entry at the end of its chain. -/
lemma appendInternal_new (value : ℕ) (hnone : (ents i).findIdx? (Matches key isVisible) = none) :
    ∃ idx' chains' free', idx.appendInternal cap hash key value isVisible = some (idx', true) ∧
      Rep cap hash idx' chains' (update ents i (ents i ++ [(key, value)])) free' ∧
      idx'.pSlots.length = idx.pSlots.length ∧ Tallied idx idx' 1 := by
  have hi := h.slot_lt hkey
  -- the entry is put into the last slot or a new one; either way one chain grows
  obtain ⟨idx1, chain, free1, hrun, hu⟩ : ∃ idx1 chain free1,
      (if (idx.getSlot (lastAddr i (chains i))).numEntries < cap then idx.putEntry (lastAddr i
        (chains i)) (idx.getSlot (lastAddr i (chains i))).numEntries key value
        (getFingerprintForHash (hash key)) else idx.insertToNewOvfSlot cap key (lastAddr i (chains
        i)) value (getFingerprintForHash (hash key))) = idx1 ∧
      ChainUpdate cap hash idx chains i idx1 chain (ents i ++ [(key, value)]) free1 := by
    by_cases hroom : (idx.getSlot (lastAddr i (chains i))).numEntries < cap
    · exact ⟨_, chains i, free, if_pos hroom, putEntry_last hcap h hi hroom (key, value)⟩
    · obtain ⟨chain, free', hu⟩ := insertToNewOvfSlot_last hcap h hi hroom (key, value)
      exact ⟨_, chain, free', if_neg hroom, hu⟩
  refine ⟨_, _, free1, ?_, h.updateChain hu (idx1.indexHeader.numEntries.succ_ne_zero) ?_,
    hu.shape.pSlots, congrArg (·.numEntries + 1) hu.shape.header, hu.shape.stale⟩
  · rw [appendInternal, hkey]
    rw [findEntry_missing heq (h.walk hi) hnone]
    subst hrun
    rfl
  · intro e he
    rcases mem_append.mp he with he | he
    · exact h.placed i hi e he
    · rw [List.mem_singleton.mp he, hkey]

/-- `deleteKey` removes the first entry of the chain with the key. -/
lemma deleteKey_found (hj : (ents i).findIdx? (Matches key fun _ => true) = some j) :
    ∃ idx' chains' free', idx.deleteKey cap hash key = some (idx', true) ∧
      Rep cap hash idx' chains' (update ents i (swapRemove (ents i) j)) free' ∧
      idx'.pSlots.length = idx.pSlots.length ∧ Tallied idx idx' 0 := by
  have hi := h.slot_lt hkey
  have hb := chainAddrs_lastAddr i (chains i)
  obtain ⟨hjlt, -⟩ := findIdx?_eq_some_iff_getElem.mp hj
  have hzero : idx.indexHeader.numEntries ≠ 0 := by
    intro hzero
    rw [h.counted hzero i hi] at hjlt
    simp at hjlt
  obtain ⟨iter, hiter, hfind⟩ := findEntry_found heq (h.walk hi) hcap hj
  have hlast := h.lastChainedSlot hi (mem_of_getElem? hiter)
  obtain ⟨idx1, tail, hrun, hheap, hshape, hflat, htail, hframe⟩ :=
    deleteKey_writes hcap h hi hjlt hiter hb rfl
  have hi1 : i < idx1.pSlots.length := hshape.pSlots ▸ hi
  have hnum := numEntries_eq (hheap.width_chain hi1) hflat htail hb
  have hlen := hheap.entries_length hi1 rfl hflat
  -- the last slot is reclaimed when it lost its last entry
  obtain ⟨idx', chain, free', hreclaim, hu⟩ : ∃ idx' chain free',
      (if (idx1.getSlot (lastAddr i (chains i))).numEntries = 0 then
        idx1.reclaimOverflowSlots (.prim i) else some idx1) = some idx' ∧
      ChainUpdate cap hash idx chains i idx' chain (swapRemove (ents i) j) free' := by
    by_cases hempty : (idx1.getSlot (lastAddr i (chains i))).numEntries = 0
    · obtain ⟨idx', kept, free', hreclaim, hheap', hshape', hcells, hholds⟩ :=
        hheap.reclaim_holds hcap hi1 rfl hflat htail (show (chainAddrs i (chains i))[0]? =
          some (.prim i) from rfl) (.inl rfl)
      rw [if_pos hempty]
      exact ⟨idx', kept, free', hreclaim, hheap', hshape.trans hshape', hholds, hcells ▸ hframe⟩
    · rw [if_neg hempty]
      refine ⟨idx1, chains i, free, rfl, by rwa [update_eq_self], hshape,
        ⟨tail, hflat, htail, .inr ?_⟩, hframe⟩
      omega
  refine ⟨idx', _, free', ?_, h.updateChain hu (n := idx'.indexHeader.numEntries) ?_ ?_,
    hu.shape.pSlots, congrArg (·.numEntries) hu.shape.header, hu.shape.stale⟩
  · rw [deleteKey, if_neg hzero, hkey]
    show (idx.findValidEntry cap key _ idx.maxChain (.prim i)).bind _ = _
    rw [findValidEntry_eq heq (h.walk hi), hfind]
    show (idx.lastChainedSlot idx.maxChain iter).bind _ = _
    rw [hlast]
    split_ifs at hreclaim with hempty <;> subst hrun
    · exact (if_pos hempty).trans (congrArg (Option.bind · _) hreclaim)
    · cases hreclaim
      exact if_neg hempty
  · rw [hu.shape.header]
    exact hzero
  · intro e he
    refine h.placed i hi e ?_
    exact (swapRemove_perm (getElem?_eq_getElem hjlt)).symm.subset (mem_cons_of_mem _ he)

end Chain

/-! ### The index as a multimap -/

include hcap heq

omit [Inhabited K] hcap in
/-- A key not in its chain is nowhere. -/
lemma Rep.forall_chain (h : Rep cap hash idx chains ents free)
    (hslot : getPrimarySlotIdForHash idx.indexHeader (hash key) = i)
    (hnone : ∀ e ∈ ents i, Matches key isVisible e = false) :
    ∀ e ∈ content ents idx.pSlots.length, (key == e.1) = true → isVisible e.2 = false := by
  intro e he hkey
  -- an entry with the key is in the chain that the key addresses
  obtain ⟨j, hj, hej⟩ := mem_content.mp he
  rw [← h.placed j hj e hej, ← heq key e.1 hkey, hslot] at hej
  have hmatch := hnone e hej
  simpa [Matches, hkey] using hmatch

section

variable (h : Entries cap hash idx M)

include h

/-- A lookup in the index is a lookup in the multimap of its entries. -/
lemma lookup_spec (key : K) (isVisible : ℕ → Bool) :
    ∃ r, idx.lookup cap hash key isVisible = some r ∧ Multimap.Found M key isVisible r := by
  obtain ⟨chains, ents, free, h, rfl⟩ := h
  refine ⟨_, lookup_eq hcap heq h rfl isVisible, ?_⟩
  cases hfind : (ents (getPrimarySlotIdForHash idx.indexHeader (hash key))).find?
      (Matches key isVisible) with
  | none =>
    refine h.forall_chain heq rfl fun e he => ?_
    simpa using find?_eq_none.mp hfind e he
  | some e =>
    have hmatch := find?_some hfind
    simp only [Matches, Bool.and_eq_true] at hmatch
    exact ⟨hmatch.2, e, h.mem_content_chain (mem_of_find?_eq_some hfind), hmatch.1, rfl⟩

/-- **Appending** adds an entry unless the key is visible. -/
lemma appendInternal_spec (key : K) (value : ℕ) (isVisible : ℕ → Bool) :
    ∃ idx' b M', idx.appendInternal cap hash key value isVisible = some (idx', b) ∧
      Entries cap hash idx' M' ∧ Multimap.Append M key value isVisible b M' ∧
      Tallied idx idx' b.toNat := by
  obtain ⟨chains, ents, free, h, rfl⟩ := h
  set i := getPrimarySlotIdForHash idx.indexHeader (hash key)
  have hi : i < idx.pSlots.length := h.header.getPrimarySlotIdForHash_lt _
  cases hidx : (ents i).findIdx? (Matches key isVisible) with
  | some j =>
    refine ⟨idx, false, _, appendInternal_found hcap heq h rfl value hidx, h.entries, ?_⟩
    obtain ⟨hj, hmatch, -⟩ := findIdx?_eq_some_iff_getElem.mp hidx
    simp only [Matches, Bool.and_eq_true] at hmatch
    exact ⟨⟨⟨(ents i)[j], h.mem_content_chain (getElem_mem hj), hmatch⟩, rfl⟩, .refl _⟩
  | none =>
    obtain ⟨idx', chains', free', hrun, h', hlen, hnum⟩ :=
      appendInternal_new hcap heq h rfl value hidx
    refine ⟨idx', true, _, hrun, h'.entries, ⟨?_, ?_⟩, hnum⟩
    · exact h.forall_chain heq rfl (findIdx?_eq_none_iff.mp hidx)
    · rw [hlen, content_update hi, content_eq_add hi, ← coe_add, add_right_comm,
        coe_singleton, add_comm, singleton_add]

/-- **Deleting** removes one entry of the key. -/
lemma deleteKey_spec (key : K) :
    ∃ idx' b M', idx.deleteKey cap hash key = some (idx', b) ∧ Entries cap hash idx' M' ∧
      Multimap.Delete M key b M' ∧ Tallied idx idx' 0 := by
  obtain ⟨chains, ents, free, h, rfl⟩ := h
  set i := getPrimarySlotIdForHash idx.indexHeader (hash key)
  have hi : i < idx.pSlots.length := h.header.getPrimarySlotIdForHash_lt _
  cases hidx : (ents i).findIdx? (Matches key fun _ => true) with
  | none =>
    refine ⟨idx, false, _, deleteKey_missing heq h rfl hidx, h.entries, ⟨?_, rfl⟩, .refl _⟩
    intro e he
    by_contra hkey
    rw [Bool.not_eq_false] at hkey
    exact absurd (h.forall_chain heq rfl (findIdx?_eq_none_iff.mp hidx) e he hkey) (by simp)
  | some j =>
    obtain ⟨idx', chains', free', hrun, h', hlen, hnum⟩ := deleteKey_found hcap heq h rfl hidx
    obtain ⟨hj, hmatch, -⟩ := findIdx?_eq_some_iff_getElem.mp hidx
    refine ⟨idx', true, _, hrun, h'.entries, ⟨(ents i)[j], by simpa [Matches] using hmatch, ?_⟩,
      hnum⟩
    have hperm : (ents i : Multiset (K × ℕ)) = (ents i)[j] ::ₘ swapRemove (ents i) j :=
      coe_eq_coe.mpr (swapRemove_perm (getElem?_eq_getElem hj))
    rw [hlen, content_update hi, content_eq_add hi, hperm, cons_add]

end

/-- Entries are appended up to the first visible one. -/
lemma appendEntries_spec (isVisible : ℕ → Bool) (buffer : List (K × ℕ))
    (h : Entries cap hash idx M) :
    ∃ idx' n M', appendEntries cap hash isVisible buffer idx = some (idx', n) ∧
      Entries cap hash idx' M' ∧ Multimap.AppendAll isVisible buffer M n M' ∧
      Tallied idx idx' n := by
  induction buffer generalizing idx M with
  | nil => exact ⟨idx, 0, M, rfl, h, ⟨rfl, rfl⟩, .refl _⟩
  | cons e buffer ih =>
    obtain ⟨key, value⟩ := e
    obtain ⟨idx1, b, M₁, hrun1, h1, happ, hnum1⟩ :=
      appendInternal_spec hcap heq h key value isVisible
    rw [appendEntries, hrun1]
    cases b with
    | false => exact ⟨idx1, 0, M₁, rfl, h1, .inr ⟨happ, rfl⟩, hnum1⟩
    | true =>
      obtain ⟨idx', n, M', hrun, h', hall, hnum⟩ := ih h1
      refine ⟨idx', n + 1, M', ?_, h', .inl ⟨n, _, happ, hall, rfl⟩,
        add_comm n 1 ▸ hnum1.trans hnum⟩
      show (appendEntries cap hash isVisible buffer idx1).bind _ = _
      rw [hrun]
      rfl

end Ops

/-! ### Runs -/

section Run

variable [BEq K]

/-- What an operation does to the multimap `M`, with the result that it returns. -/
def MultimapStep (M : Multiset (K × ℕ)) : Op K → ℕ → Multiset (K × ℕ) → Prop
  | .append key value isVisible, result, M' =>
    ∃ b : Bool, result = b.toNat ∧ Multimap.Append M key value isVisible b M'
  | .appendBuffer buffer bufferOffset _ isVisible, result, M' =>
    Multimap.AppendAll isVisible (buffer.drop bufferOffset) M result M'
  | .deleteKey key, result, M' => ∃ b : Bool, result = b.toNat ∧ Multimap.Delete M key b M'
  | .reserve _, _, M' => M' = M
  | .clear, _, M' => M' = 0

/-- What `numEntries` is after an operation, by its value before and the operation's result. -/
def countAfter (numEntries : ℕ) : Op K → ℕ → ℕ
  | .append .., result | .appendBuffer .., result => numEntries + result
  | .deleteKey _, _ | .reserve _, _ => numEntries
  | .clear, _ => 0

/-- By how much `numFreeSlots` is off after an operation: `clear` does not reset it. -/
def staleAfter (idx : InMemHashIndex K) (n : ℕ) : Op K → ℕ
  | .clear => idx.numFreeSlots
  | _ => n

/-- A sequence of operations on the multimap `M`, with their results. -/
def MultimapRun : Multiset (K × ℕ) → List (Op K) → List ℕ → Multiset (K × ℕ) → Prop
  | M, [], results, M' => results = [] ∧ M' = M
  | M, op :: ops, results, M' => ∃ result rest M₁, results = result :: rest ∧
    MultimapStep M op result M₁ ∧ MultimapRun M₁ ops rest M'

/-- The entries `M` are stored in the slots: every entry in the chain of the primary slot that its
hash addresses, and every chain without a gap before its last entry. -/
def Stored (cap : ℕ) (hash : K → ℕ) (idx : InMemHashIndex K) (M : Multiset (K × ℕ)) : Prop :=
  ∃ (chains : ℕ → List ℕ) (ents : ℕ → List (K × ℕ)), content ents idx.pSlots.length = M ∧
    ∀ i < idx.pSlots.length,
      Seg idx.nextChainedSlot (some (.prim i)) (chainAddrs i (chains i)) none ∧
      (∀ a ∈ chainAddrs i (chains i), (idx.cellsAt a).length = cap) ∧
      (∃ unused, flat idx.cellsAt (chainAddrs i (chains i)) =
        (ents i).map (cellOf hash) ++ unused ∧ ∀ c ∈ unused, c.valid = false) ∧
      ∀ e ∈ ents i, getPrimarySlotIdForHash idx.indexHeader (hash e.1) = i

omit [BEq K] in
lemma Rep.stored (h : Rep cap hash idx chains ents free) :
    Stored cap hash idx (content ents idx.pSlots.length) := by
  refine ⟨chains, ents, rfl, fun i hi => ⟨h.heap.links i hi, h.heap.width_chain hi, ?_,
    h.placed i hi⟩⟩
  obtain ⟨tail, hflat, htail, -⟩ := h.holds i hi
  exact ⟨tail, hflat, htail⟩

variable [Inhabited K] (hcap : 4 ≤ cap) (heq : ∀ a b : K, (a == b) = true → hash a = hash b)

include hcap heq

/-- Every operation returns and does to the entries what it does to the multimap.  A deletion leaves
the counter of the entries as it is. -/
lemma step_spec (h : Entries cap hash idx M) (op : Op K) :
    ∃ idx' result M', idx.step cap hash op = some (idx', result) ∧ Entries cap hash idx' M' ∧
      MultimapStep M op result M' ∧
      idx'.indexHeader.numEntries = countAfter idx.indexHeader.numEntries op result ∧
      ∀ n, idx.Stale n → idx'.Stale (idx.staleAfter n op) := by
  have hpos : 0 < cap := by omega
  cases op with
  | append key value isVisible =>
    obtain ⟨idx1, hrun1, h1, hnum1⟩ := reserve_spec hcap h (idx.indexHeader.numEntries + 1)
    obtain ⟨idx', b, M', hrun, h', happ, hnum⟩ :=
      appendInternal_spec hpos heq h1 key value isVisible
    have ht := hnum1.trans hnum
    refine ⟨idx', b.toNat, M', ?_, h', ⟨b, rfl, happ⟩, zero_add b.toNat ▸ ht.numEntries, ht.stale⟩
    rw [step, append, hrun1]
    show ((idx1.appendInternal cap hash key value isVisible).bind _) = _
    rw [hrun]
    rfl
  | appendBuffer buffer bufferOffset hoffset isVisible =>
    obtain ⟨idx1, hrun1, h1, hnum1⟩ :=
      reserve_spec hcap h (idx.indexHeader.numEntries + buffer.length - bufferOffset)
    obtain ⟨idx', n, M', hrun, h', hall, hnum⟩ :=
      appendEntries_spec hpos heq isVisible (buffer.drop bufferOffset) h1
    have ht := hnum1.trans hnum
    refine ⟨idx', n, M', ?_, h', hall, zero_add n ▸ ht.numEntries, ht.stale⟩
    rw [step, appendBuffer, hrun1]
    exact hrun
  | deleteKey key =>
    obtain ⟨idx', b, M', hrun, h', hdel, hnum⟩ := deleteKey_spec hpos heq h key
    refine ⟨idx', b.toNat, M', ?_, h', ⟨b, rfl, hdel⟩, hnum.numEntries, hnum.stale⟩
    rw [step, hrun]
    rfl
  | reserve numEntries =>
    obtain ⟨idx', hrun, h', hnum⟩ := reserve_spec hcap h numEntries
    refine ⟨idx', 0, M, ?_, h', rfl, hnum.numEntries, hnum.stale⟩
    rw [step, hrun]
    rfl
  | clear =>
    -- the counter of free slots survives
    obtain ⟨chains', h'⟩ := allocateSlots_nil cap hash idx.numFreeSlots
    exact ⟨idx.clear cap, 0, _, rfl, h'.entries, by simp [MultimapStep, content], rfl,
      fun _ _ => ⟨[], h'.heap.free_links, zero_add idx.numFreeSlots⟩⟩

/-- **A run** of the index is one of a multimap. -/
lemma run_spec (ops : List (Op K)) (h : Entries cap hash idx M) :
    ∃ idx' results M', idx.run cap hash ops = some (idx', results) ∧ Entries cap hash idx' M' ∧
      MultimapRun M ops results M' ∧ ((∃ n, idx.Stale n) → ∃ n, idx'.Stale n) := by
  induction ops generalizing idx M with
  | nil => exact ⟨idx, [], M, rfl, h, ⟨rfl, rfl⟩, id⟩
  | cons op ops ih =>
    obtain ⟨idx1, result, M₁, hstep, h1, hmstep, -, hstale⟩ := step_spec hcap heq h op
    obtain ⟨idx', results, M', hrun, h', hmrun, hstale'⟩ := ih h1
    refine ⟨idx', result :: results, M', ?_, h', ⟨result, results, _, rfl, hmstep, hmrun⟩,
      fun ⟨n, hn⟩ => hstale' ⟨_, hstale n hn⟩⟩
    rw [run, hstep]
    show ((idx1.run cap hash ops).bind _) = _
    rw [hrun]
    rfl

/-- **The in-memory hash index refines a multimap.**  Every sequence of operations on a new index
returns, with results that the operations on a multimap give.  Afterwards every lookup returns an
entry of the multimap that the reader sees, or nothing when there is none, and every entry is stored
in the chain that its hash addresses, without a gap. -/
theorem inMemHashIndex_refines (ops : List (Op K)) :
    ∃ idx results M, (create cap : InMemHashIndex K).run cap hash ops = some (idx, results) ∧
      MultimapRun 0 ops results M ∧
      (∀ key isVisible, ∃ r, idx.lookup cap hash key isVisible = some r ∧
        Multimap.Found M key isVisible r) ∧
      Stored cap hash idx M := by
  obtain ⟨chains, h⟩ := allocateSlots_nil cap hash 0
  obtain ⟨idx', results, M', hrun, h', hmrun, -⟩ := run_spec hcap heq ops h.entries
  have hlookup := lookup_spec (by omega) heq h'
  obtain ⟨chains', ents', free', h', rfl⟩ := h'
  refine ⟨idx', results, _, hrun, ?_, hlookup, h'.stored⟩
  simpa [content] using hmrun

end Run

/-- The theorem at the capacity of 8-byte keys: a key that was deleted may be inserted again. -/
theorem inMemHashIndex_refines_reinsert :
    ∃ idx results M, (create 14 : InMemHashIndex ℕ).run 14 id
        [.append 3 7 fun _ => true, .deleteKey 3, .append 3 9 fun _ => true] =
          some (idx, results) ∧
      MultimapRun 0 [.append 3 7 fun _ => true, .deleteKey 3, .append 3 9 fun _ => true] results M ∧
      (∀ key isVisible, ∃ r, idx.lookup 14 id key isVisible = some r ∧
        Multimap.Found M key isVisible r) ∧
      Stored 14 id idx M :=
  inMemHashIndex_refines (by decide) (fun _ _ h => eq_of_beq h) _

end InMemHashIndex

end Ladybug
