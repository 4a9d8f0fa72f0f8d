import Ladybug.Index.Equiv.HashIndexHeader
import Ladybug.Index.Equiv.InMemContent

/-!
# Splitting a slot

`splitSlot` walks along the chain of the slot that is split. An entry whose hash now addresses the
new slot is appended to the chain of that slot; an entry that stays is moved to the first gap.
`SplitInv` describes the state when the first `p` entries have been handled;
afterwards both chains are without gaps.
-/

namespace Ladybug

open Chain HashIndexUtils List Function

namespace InMemHashIndex

variable {K : Type}

lemma set_append_cons {α : Type} (l m : List α) (x y : α) {n : ℕ} (hn : n = l.length) :
    (l ++ x :: m).set n y = l ++ y :: m := by
  subst hn
  rw [set_append_right _ _ le_rfl, Nat.sub_self, set_cons_zero]

/-- Whether an entry of the slot that is split goes to the new slot. -/
def moves (hash : K → ℕ) (header : HashIndexHeader) (e : K × ℕ) : Bool :=
  hash e.1 &&& header.higherLevelHashMask ≠ header.nextSplitSlotId

/-- The first `p` entries of the chain of slot `src` have been handled: `stay` of them are still in
the chain, followed by as many gaps as were moved to the chain of the new slot `dst`. -/
structure SplitInv (cap : ℕ) (hash : K → ℕ) (base : InMemHashIndex K) (chains : ℕ → List ℕ)
    (src dst : ℕ) (es : List (K × ℕ)) (tail : List (SlotCell K)) (p : ℕ) (s : SplitState K)
    (newChain free : List ℕ) (stay moved : List (K × ℕ)) (gap newTail : List (SlotCell K)) :
    Prop where
  heap : Heap cap s.index (Function.update chains dst newChain) free
  shape : Heap.SameShape base s.index
  others : ∀ i < base.pSlots.length, i ≠ src → i ≠ dst → ∀ a ∈ chainAddrs i (chains i),
    s.index.cellsAt a = base.cellsAt a
  stay_eq : stay = (es.take p).filter fun e => !moves hash base.indexHeader e
  moved_eq : moved = (es.take p).filter (moves hash base.indexHeader)
  src_flat : flat s.index.cellsAt (chainAddrs src (chains src)) =
    stay.map (cellOf hash) ++ (gap ++ ((es.drop p).map (cellOf hash) ++ tail))
  gap_invalid : ∀ c ∈ gap, c.valid = false
  gap_length : gap.length = moved.length
  dst_flat : flat s.index.cellsAt (chainAddrs dst newChain) = moved.map (cellOf hash) ++ newTail
  newTail_invalid : ∀ c ∈ newTail, c.valid = false
  newSlot : (chainAddrs dst newChain)[newChain.length]? = some s.newSlot
  newSlotPos : newChain.length * cap + s.newSlotPos = moved.length
  insert : ∃ t, (chainAddrs src (chains src))[t]? = some s.originalSlotForInsert ∧
    s.entryPosToInsert < cap ∧ t * cap + s.entryPosToInsert ≤ stay.length ∧
    (t = 0 ∨ t * cap < stay.length)
  gaps : s.gaps = true ↔ moved ≠ []

variable {q t cap : ℕ} {idx : InMemHashIndex K} {l : List SlotInfo} {c : SlotCell K}

/-- Whether a position of a slot of a chain is valid, read off the cells of the chain. -/
lemma isEntryValid_eq [Inhabited K] {a : SlotInfo} (hw : ∀ a ∈ l, (idx.cellsAt a).length = cap)
    (ht : l[t]? = some a) (hq : q < cap) (hc : (flat idx.cellsAt l)[t * cap + q]? = some c) :
    (idx.getSlot a).isEntryValid q = c.valid := by
  have hget := flat_getElem? hw ht hq
  rw [hc] at hget
  rw [Slot.isEntryValid, Slot.cell, getD_eq_getElem?_getD]
  show ((idx.cellsAt a)[q]?.getD default).valid = _
  rw [← hget]
  rfl

/-- The search for the first gap stops at the first invalid cell of the chain. -/
lemma findGap_spec [Inhabited K] {k : ℕ}
    {first : SlotInfo} (hw : ∀ a ∈ l, (idx.cellsAt a).length = cap)
    (hlinks : Seg idx.nextChainedSlot (some first) l none)
    (hvalid : ∀ f < k, ∃ c, (flat idx.cellsAt l)[f]? = some c ∧ c.valid = true)
    (hk : (flat idx.cellsAt l)[k]? = some c) (hc : c.valid = false) :
    ∀ (d t q : ℕ) (a : SlotInfo) (fuel : ℕ), t * cap + q + d = k → q < cap → l[t]? = some a →
    d + 1 ≤ fuel → ∃ t' q' a', idx.findGap cap fuel a q = some (a', q') ∧ l[t']? = some a' ∧
      q' < cap ∧ t' * cap + q' = k := by
  intro d
  induction d with
  | zero =>
    intro t q a fuel hd hq ht hfuel
    obtain ⟨fuel, rfl⟩ : ∃ n, fuel = n + 1 := ⟨fuel - 1, by omega⟩
    have hinv : (idx.getSlot a).isEntryValid q = false := by
      rw [isEntryValid_eq hw ht hq (c := c) (by rw [← hk, ← hd, Nat.add_zero]), hc]
    exact ⟨t, q, a, by simp [findGap, hinv], ht, hq, hd⟩
  | succ d ih =>
    intro t q a fuel hd hq ht hfuel
    obtain ⟨fuel, rfl⟩ : ∃ n, fuel = n + 1 := ⟨fuel - 1, by omega⟩
    obtain ⟨c', hc', hc'v⟩ := hvalid (t * cap + q) (by omega)
    have hval : (idx.getSlot a).isEntryValid q = true := by
      rw [isEntryValid_eq hw ht hq hc', hc'v]
    by_cases hlast : q + 1 ≥ cap
    · -- the gap lies in a later slot
      have hflat_len := flat_length hw
      have hk_lt : k < l.length * cap := by
        rw [← hflat_len]
        exact (List.getElem?_eq_some_iff.mp hk).1
      have hstart : (t + 1) * cap + 0 + d = k := by rw [Nat.succ_mul]; omega
      have ht_lt : t + 1 < l.length := by
        by_contra hge
        have := Nat.mul_le_mul_right cap (Nat.not_lt.mp hge)
        omega
      obtain ⟨b, hb⟩ : ∃ b, l[t + 1]? = some b := ⟨_, getElem?_eq_getElem ht_lt⟩
      have hnext : idx.nextChainedSlot a = some b := by
        rw [hlinks.next_getElem? ht, if_pos ht_lt, hb]
      obtain ⟨t', q', a', hrun, hrest⟩ := ih (t + 1) 0 b fuel hstart (by omega) hb (by omega)
      refine ⟨t', q', a', ?_, hrest⟩
      rw [findGap, if_pos hval, if_pos hlast, hnext]
      exact hrun
    -- the next position of the same slot
    · obtain ⟨t', q', a', hrun, hrest⟩ := ih t (q + 1) a fuel (by omega) (by omega) ht (by omega)
      refine ⟨t', q', a', ?_, hrest⟩
      rw [findGap, if_pos hval, if_neg hlast]
      exact hrun

namespace SplitInv

variable {src dst p : ℕ} {hash : K → ℕ} {base : InMemHashIndex K} {chains : ℕ → List ℕ}
  {es stay moved : List (K × ℕ)} {tail gap newTail : List (SlotCell K)} {s : SplitState K}
  {newChain free : List ℕ} {e : K × ℕ}

lemma take_succ_filter {P : K × ℕ → Bool} (he : es[p]? = some e) :
    (es.take (p + 1)).filter P = (es.take p).filter P ++ if P e then [e] else [] := by
  rw [take_add_one, he, filter_append]
  cases hP : P e <;> simp [hP]

lemma drop_eq_cons (he : es[p]? = some e) : es.drop p = e :: es.drop (p + 1) := by
  obtain ⟨hlt, rfl⟩ := List.getElem?_eq_some_iff.mp he
  exact List.drop_eq_getElem_cons hlt

variable (h : SplitInv cap hash base chains src dst es tail p s newChain free stay moved
  gap newTail)

include h

lemma stay_moved_length (hp : p ≤ es.length) : stay.length + moved.length = p := by
  have hsum := length_eq_length_filter_add (l := es.take p) (moves hash base.indexHeader)
  rw [length_take, Nat.min_eq_left hp] at hsum
  rw [h.stay_eq, h.moved_eq]
  omega

lemma take_succ (he : es[p]? = some e) :
    (es.take (p + 1)).filter (fun e => !moves hash base.indexHeader e) =
        stay ++ (if moves hash base.indexHeader e then [] else [e]) ∧
      (es.take (p + 1)).filter (moves hash base.indexHeader) =
        moved ++ if moves hash base.indexHeader e then [e] else [] := by
  rw [take_succ_filter he, take_succ_filter he, ← h.stay_eq, ← h.moved_eq]
  cases moves hash base.indexHeader e <;> exact ⟨rfl, rfl⟩

/-- An entry stays where it is if there is no gap. -/
lemma keep_spec (he : es[p]? = some e) (hmoves : moves hash base.indexHeader e = false)
    (hgaps : s.gaps = false) :
    SplitInv cap hash base chains src dst es tail (p + 1) s newChain free (stay ++ [e]) moved gap
      newTail := by
  have hmoved : moved = [] := by
    by_contra hne
    rw [h.gaps.mpr hne] at hgaps
    cases hgaps
  have hgap : gap = [] := length_eq_zero_iff.mp (by rw [h.gap_length, hmoved]; rfl)
  obtain ⟨hstay', hmoved'⟩ := h.take_succ he
  rw [hmoves] at hstay' hmoved'
  refine ⟨h.heap, h.shape, h.others, hstay'.symm, ?_, ?_, h.gap_invalid, h.gap_length, h.dst_flat,
    h.newTail_invalid, h.newSlot, h.newSlotPos, ?_, h.gaps⟩
  · simpa using hmoved'.symm
  · rw [h.src_flat, hgap, drop_eq_cons he]
    simp
  · obtain ⟨t, ht, hq, hle, hcases⟩ := h.insert
    rw [length_append]
    exact ⟨t, ht, hq, by omega, hcases.imp id fun hlt => by omega⟩

section

variable (hdst : dst < base.pSlots.length)

include hdst

/-- The position in the new slot stays in the slot. -/
lemma newSlotPos_le :
    s.newSlotPos ≤ cap ∧ moved.length + newTail.length = newChain.length * cap + cap := by
  have hlen := h.heap.entries_length (h.shape.pSlots ▸ hdst) (update_self _ _ _) h.dst_flat
  have hpos := h.newSlotPos
  exact ⟨by omega, hlen⟩

end

variable [Inhabited K] (hsrc : src < base.pSlots.length) (hdst : dst < base.pSlots.length)
  (hne : src ≠ dst)

include hsrc hne

omit [Inhabited K] in
lemma src_chain : src < s.index.pSlots.length ∧
    (∀ a ∈ chainAddrs src (chains src), (s.index.cellsAt a).length = cap) ∧
    Seg s.index.nextChainedSlot (some (.prim src)) (chainAddrs src (chains src)) none ∧
    (chainAddrs src (chains src)).length ≤ s.index.maxChain := by
  have hlt : src < s.index.pSlots.length := h.shape.pSlots ▸ hsrc
  have hw := h.heap.width_chain hlt
  have hlinks := h.heap.links src hlt
  have hle := h.heap.length_le hlt
  rw [update_of_ne hne] at hw hlinks hle
  exact ⟨hlt, hw, hlinks, hle⟩

section Entry

variable {orig : SlotInfo} (horig : (chainAddrs src (chains src))[t]? = some orig) (hq : q < cap)
  (hp : p = t * cap + q)

include horig hq hp

omit [Inhabited K] in
lemma getElem?_orig (hle : p ≤ es.length) :
    (s.index.cellsAt orig)[q]? = ((es.drop p).map (cellOf hash) ++ tail)[0]? := by
  have hlen := h.stay_moved_length hle
  have hget := flat_getElem? (h.src_chain hsrc hne).2.1 horig hq
  rw [h.src_flat, ← hp, getElem?_append_right (by simp; omega), length_map,
    getElem?_append_right (by rw [h.gap_length]; omega), h.gap_length] at hget
  rw [← hget]
  congr 1
  omega

/-- The entries not yet visited are untouched. -/
lemma cell_orig (he : es[p]? = some e) : (s.index.getSlot orig).cell q = cellOf hash e := by
  have hget := h.getElem?_orig hsrc hne horig hq hp (List.getElem?_eq_some_iff.mp he).1.le
  rw [drop_eq_cons he] at hget
  rw [Slot.cell, getD_eq_getElem?_getD]
  show ((s.index.cellsAt orig)[q]?).getD default = _
  rw [hget]
  rfl

end Entry

include hdst

/-- After `nextNewPos` there is room at the end of the new chain. -/
lemma nextNewPos_spec (hcap : 0 < cap) (hpos : s.newSlotPos ≤ cap) :
    ∃ newChain' free' newTail', SplitInv cap hash base chains src dst es tail p
      (nextNewPos cap s) newChain' free' stay moved gap newTail' ∧
      (nextNewPos cap s).newSlotPos < cap := by
  rw [nextNewPos]
  by_cases hfull : s.newSlotPos ≥ cap
  -- the slot is full, and an overflow slot is chained to it
  · have hps : s.index.pSlots.length = base.pSlots.length := h.shape.pSlots
    obtain ⟨o, idx1, idx2, free2, halloc, hidx2, hheap2, hshape2, hnew, hempty, hold⟩ :=
      h.heap.allocateAOSlot_link (hps ▸ hdst) (update_self _ _ _) h.newSlot
    rw [update_idem] at hheap2
    have hcells : ∀ i < base.pSlots.length, i ≠ dst → ∀ a ∈ chainAddrs i (chains i),
        idx2.cellsAt a = s.index.cellsAt a :=
      fun i hi hid a ha => (hold i (hps ▸ hi) a (by rwa [update_of_ne hid])).2
    refine ⟨newChain ++ [o], free2, newTail ++ idx2.cellsAt (.ovf o), ?_, ?_⟩
    · rw [if_pos hfull, halloc]
      show SplitInv _ _ _ _ _ _ _ _ _ { s with
        index := idx1.updateSlot s.newSlot (·.setNext (some o))
        newSlot := ((idx1.updateSlot s.newSlot (·.setNext (some o))).nextChainedSlot
          s.newSlot).getD s.newSlot
        newSlotPos := 0 } _ _ _ _ _ _
      rw [← hidx2, hnew]
      refine ⟨hheap2, h.shape.trans hshape2, ?_, h.stay_eq, h.moved_eq, ?_, h.gap_invalid,
        h.gap_length, ?_, ?_, by simp [chainAddrs], ?_, h.insert, h.gaps⟩
      · exact fun i hi his hid a ha =>
          (hcells i hi hid a ha).trans (h.others i hi his hid a ha)
      · exact (flat_congr (hcells src hsrc hne)).trans h.src_flat
      · have hdst_cells : ∀ a ∈ chainAddrs dst newChain, idx2.cellsAt a = s.index.cellsAt a :=
          fun a ha => (hold dst (hps ▸ hdst) a (by rwa [update_self])).2
        rw [chainAddrs_append, flat_append]
        show flat idx2.cellsAt (chainAddrs dst newChain) ++ flat idx2.cellsAt [SlotInfo.ovf o] = _
        rw [flat_congr hdst_cells, h.dst_flat, flat_cons, flat_nil, append_nil, append_assoc]
      · exact forall_mem_append.mpr ⟨h.newTail_invalid, hempty⟩
      · have hlen := h.newSlotPos
        show (newChain ++ [o]).length * cap + 0 = moved.length
        rw [length_append, length_singleton, Nat.succ_mul]
        omega
    · rw [if_pos hfull]
      exact hcap
  · rw [if_neg hfull]
    exact ⟨newChain, free, newTail, h, by omega⟩

variable {orig : SlotInfo} (horig : (chainAddrs src (chains src))[t]? = some orig) (hq : q < cap)
  (hp : p = t * cap + q) (he : es[p]? = some e)

include horig hq hp he

/-- An entry is appended to the new chain and its old position becomes a gap. -/
lemma move_spec (hroom : s.newSlotPos < cap) (hmoves : moves hash base.indexHeader e = true) :
    ∃ gap' newTail', SplitInv cap hash base chains src dst es tail (p + 1)
      { s with
        index := (s.index.putEntry s.newSlot s.newSlotPos e.1 e.2
          (getFingerprintForHash (hash e.1))).updateSlot orig (·.setEntryInvalid q)
        newSlotPos := s.newSlotPos + 1, gaps := true }
      newChain free stay (moved ++ [e]) gap' newTail' := by
  have hps : s.index.pSlots.length = base.pSlots.length := h.shape.pSlots
  have hlen := h.stay_moved_length (List.getElem?_eq_some_iff.mp he).1.le
  -- the write to the new chain
  obtain ⟨hheap1, hflat1, hframe1⟩ := h.heap.putEntry (hps ▸ hdst) (update_self _ _ _) h.newSlot
    hroom e.1 e.2 (getFingerprintForHash (hash e.1))
  have hshape1 := h.shape.trans (.updateSlot h.heap hheap1)
  set idx1 := s.index.putEntry s.newSlot s.newSlotPos e.1 e.2 (getFingerprintForHash (hash e.1))

  -- the write to the old chain
  obtain ⟨hheap2, hflat2, hframe2⟩ := hheap1.setEntryInvalid (hshape1.pSlots ▸ hsrc)
    (update_of_ne hne _ _) horig hq
  have hapart : ∀ i < base.pSlots.length, i ≠ dst → ∀ a ∈ chainAddrs i (chains i),
      a ∉ chainAddrs dst newChain := by
    intro i hi hid a ha
    have hnot := h.heap.not_mem_chain (hps ▸ hi) (hps ▸ hdst) hid (a := a)
    rw [update_of_ne hid, update_self] at hnot
    exact hnot ha
  -- the new chain has an invalid cell to write to
  obtain ⟨x, newTail', rfl⟩ : ∃ x newTail', newTail = x :: newTail' := by
    refine exists_cons_of_ne_nil fun hn => ?_
    have hle := (h.newSlotPos_le hdst).2
    have hpos := h.newSlotPos
    rw [hn, length_nil] at hle
    omega
  obtain ⟨hstay', hmoved'⟩ := h.take_succ he
  rw [hmoves] at hstay' hmoved'
  refine ⟨gap ++ [{ (idx1.getSlot orig).cell q with valid := false }], newTail', hheap2,
    hshape1.trans (.updateSlot hheap1 hheap2), ?_, ?_, hmoved'.symm, ?_, ?_, ?_, ?_,
    fun c hc => h.newTail_invalid c (mem_cons_of_mem x hc), h.newSlot, ?_, h.insert, by simp⟩
  · intro i hi his hid a ha
    have hnot := h.heap.not_mem_chain (hps ▸ hi) (hps ▸ hsrc) his (a := a)
    rw [update_of_ne hid, update_of_ne hne] at hnot
    exact (hframe2 a (hnot ha)).trans
      ((hframe1 a (hapart i hi hid a ha)).trans (h.others i hi his hid a ha))
  · simpa using hstay'.symm
  · have hidx : t * cap + q = (stay.map (cellOf hash) ++ gap).length := by
      rw [length_append, length_map, h.gap_length]
      omega
    refine hflat2.trans ?_
    rw [flat_congr fun a ha => hframe1 a (hapart src hsrc hne a ha), h.src_flat, drop_eq_cons he,
      map_cons, cons_append, ← append_assoc, set_append_cons _ _ _ _ hidx]
    simp
  · exact forall_mem_append.mpr ⟨h.gap_invalid, by simp⟩
  · rw [length_append, length_append, h.gap_length]
    rfl
  · refine (flat_congr fun a ha => hframe2 a fun ha' => hapart src hsrc hne a ha' ha).trans
      (hflat1.trans ?_)
    rw [h.dst_flat, set_append_cons _ _ _ _ (by rw [length_map]; exact h.newSlotPos)]
    simp [cellOf]
  · have hpos := h.newSlotPos
    show newChain.length * cap + (s.newSlotPos + 1) = (moved ++ [e]).length
    rw [length_append, length_singleton]
    omega

/-- An entry that stays fills the first gap. -/
lemma fill_spec (hmoves : moves hash base.indexHeader e = false) (hgaps : s.gaps = true) :
    ∃ slotInfo pos gap', s.index.findGap cap (s.index.maxChain * cap + 1) s.originalSlotForInsert
        s.entryPosToInsert = some (slotInfo, pos) ∧
      SplitInv cap hash base chains src dst es tail (p + 1)
      { s with
        index := (s.index.putEntry slotInfo pos e.1 e.2
          (getFingerprintForHash (hash e.1))).updateSlot orig (·.setEntryInvalid q)
        originalSlotForInsert := slotInfo, entryPosToInsert := pos }
      newChain free (stay ++ [e]) moved gap' newTail := by
  have hps : s.index.pSlots.length = base.pSlots.length := h.shape.pSlots
  have hlen := h.stay_moved_length (List.getElem?_eq_some_iff.mp he).1.le
  obtain ⟨hlt, hw, hlinks, hbound⟩ := h.src_chain hsrc hne
  have hgap_len := h.gap_length
  -- the first gap is at flat index `stay.length`
  obtain ⟨x, gap', rfl⟩ : ∃ x gap', gap = x :: gap' := by
    refine exists_cons_of_ne_nil fun hg => ?_
    rw [hg, length_nil] at hgap_len
    exact h.gaps.mp hgaps (length_eq_zero_iff.mp hgap_len.symm)
  have hk : (flat s.index.cellsAt (chainAddrs src (chains src)))[stay.length]? = some x := by
    rw [h.src_flat, getElem?_append_right (by simp)]
    simp
  have hvalid : ∀ f < stay.length, ∃ c,
      (flat s.index.cellsAt (chainAddrs src (chains src)))[f]? = some c ∧ c.valid = true := by
    intro f hf
    refine ⟨cellOf hash stay[f], ?_, rfl⟩
    rw [h.src_flat, getElem?_append_left (by simpa using hf)]
    simp [hf]
  obtain ⟨t0, ht0, hq0, hle0, -⟩ := h.insert
  have hstay_lt : stay.length < (chainAddrs src (chains src)).length * cap := by
    rw [← flat_length hw]
    exact (List.getElem?_eq_some_iff.mp hk).1
  have hfuel := Nat.mul_le_mul_right cap hbound
  obtain ⟨t', q', a', hrun, ht', hq', hk'⟩ := findGap_spec hw hlinks hvalid hk
    (h.gap_invalid x mem_cons_self) (stay.length - (t0 * cap + s.entryPosToInsert))
    t0 s.entryPosToInsert s.originalSlotForInsert (s.index.maxChain * cap + 1) (by omega) hq0 ht0
    (by omega)
  -- the two writes to the chain
  obtain ⟨hheap1, hflat1, hframe1⟩ := h.heap.putEntry hlt (update_of_ne hne _ _) ht' hq' e.1 e.2
    (getFingerprintForHash (hash e.1))
  have hshape1 := h.shape.trans (.updateSlot h.heap hheap1)
  set idx1 := s.index.putEntry a' q' e.1 e.2 (getFingerprintForHash (hash e.1)) with hidx1
  obtain ⟨hheap2, hflat2, hframe2⟩ := hheap1.setEntryInvalid (hshape1.pSlots ▸ hsrc)
    (update_of_ne hne _ _) horig hq
  set idx2 := idx1.updateSlot orig (·.setEntryInvalid q) with hidx2
  rw [length_cons] at hgap_len
  have hapart : ∀ i < base.pSlots.length, i ≠ src →
      ∀ a ∈ chainAddrs i (Function.update chains dst newChain i),
        idx2.cellsAt a = s.index.cellsAt a := by
    intro i hi his a ha
    have hns := h.heap.not_mem_chain (hps ▸ hi) hlt his ha
    rw [update_of_ne hne] at hns
    exact (hframe2 a hns).trans (hframe1 a hns)
  obtain ⟨hstay', hmoved'⟩ := h.take_succ he
  rw [hmoves] at hstay' hmoved'
  refine ⟨a', q', gap' ++ [{ (idx1.getSlot orig).cell q with valid := false }], hrun, hheap2,
    hshape1.trans (.updateSlot hheap1 hheap2), ?_, hstay'.symm, ?_, ?_, ?_, ?_, ?_,
    h.newTail_invalid, h.newSlot, h.newSlotPos, ⟨t', ht', hq', ?_, .inr ?_⟩, h.gaps⟩
  · intro i hi his hid a ha
    exact (hapart i hi his a (by rwa [update_of_ne hid])).trans (h.others i hi his hid a ha)
  · simpa using hmoved'.symm
  · have hidx1 : t' * cap + q' = (stay.map (cellOf hash)).length := by simpa using hk'
    have hidx2 : t * cap + q = (stay.map (cellOf hash) ++ cellOf hash e :: gap').length := by
      rw [length_append, length_map, length_cons]
      omega
    refine hflat2.trans ?_
    rw [hflat1, h.src_flat, drop_eq_cons he, map_cons, cons_append, cons_append,
      set_append_cons _ _ _ _ hidx1]
    show (stay.map (cellOf hash) ++
      cellOf hash e :: (gap' ++ cellOf hash e :: ((es.drop (p + 1)).map (cellOf hash) ++ tail))).set
        (t * cap + q) _ = _
    rw [← cons_append, ← append_assoc, set_append_cons _ _ _ _ hidx2]
    simp
  · exact forall_mem_append.mpr ⟨fun c hc => h.gap_invalid c (mem_cons_of_mem x hc), by simp⟩
  · rw [length_append, length_singleton]
    exact hgap_len
  · refine (flat_congr fun a ha => hapart dst hdst hne.symm a ?_).trans h.dst_flat
    rwa [update_self]
  · rw [length_append, length_singleton]
    show t' * cap + q' ≤ stay.length + 1
    omega
  · rw [length_append, length_singleton]
    omega

end SplitInv

/-- The invariant of the split loop with its parts hidden: the first `p` entries have been
handled, and the new chain has no slot without entries behind its primary slot. -/
def Splitting (cap : ℕ) (hash : K → ℕ) (base : InMemHashIndex K) (chains : ℕ → List ℕ)
    (src dst : ℕ) (es : List (K × ℕ)) (tail : List (SlotCell K)) (p : ℕ) (s : SplitState K) :
    Prop :=
  ∃ newChain free stay moved gap newTail,
    SplitInv cap hash base chains src dst es tail p s newChain free stay moved gap newTail ∧
      (s.newSlotPos = 0 → newChain = [])

section Loop

variable [Inhabited K] {src dst : ℕ} {hash : K → ℕ} {base : InMemHashIndex K} {chains : ℕ → List ℕ}
  {es : List (K × ℕ)} {tail : List (SlotCell K)} (hcap : 0 < cap) (hsrc : src < base.pSlots.length)
  (hdst : dst < base.pSlots.length) (hne : src ≠ dst)

include hcap hsrc hdst hne

variable {orig : SlotInfo} {s : SplitState K} {p : ℕ}
  (horig : (chainAddrs src (chains src))[t]? = some orig)

include horig

/-- One entry of the split. -/
lemma splitEntry_spec (h : Splitting cap hash base chains src dst es tail p s)
    (hlt : p < es.length) (hq : q < cap) (hp : p = t * cap + q) :
    ∃ s', splitEntry cap hash orig q s = some s' ∧
      Splitting cap hash base chains src dst es tail (p + 1) s' := by
  obtain ⟨newChain, free, stay, moved, gap, newTail, hinv, hcompact⟩ := h
  obtain ⟨e, he⟩ : ∃ e, es[p]? = some e := ⟨_, getElem?_eq_getElem hlt⟩
  have hcell := hinv.cell_orig hsrc hne horig hq hp he
  have htest : (hash e.1 &&& s.index.indexHeader.higherLevelHashMask ≠
      s.index.indexHeader.nextSplitSlotId) ↔ moves hash base.indexHeader e = true := by
    rw [hinv.shape.header]
    simp [moves]
  rw [splitEntry, hcell]
  cases hmoves : moves hash base.indexHeader e with
  | true =>
    -- the entry moves to the new slot
    obtain ⟨newChain', free', newTail', hinv', hroom⟩ := hinv.nextNewPos_spec hsrc hdst hne hcap
      (hinv.newSlotPos_le hdst).1
    obtain ⟨gap', newTail'', hinv''⟩ := hinv'.move_spec hsrc hdst hne horig hq hp he hroom hmoves
    refine ⟨_, if_pos (htest.mpr hmoves), newChain', free', stay, moved ++ [e], gap', newTail'',
      hinv'', ?_⟩
    intro hzero
    cases hzero
  | false =>
    have hno : ¬ (hash e.1 &&& s.index.indexHeader.higherLevelHashMask ≠
        s.index.indexHeader.nextSplitSlotId) := by
      rw [htest, hmoves]
      exact Bool.false_ne_true
    -- it fills a gap, or stays where it is
    by_cases hgaps : s.gaps = true
    · obtain ⟨slotInfo, pos, gap', hfind, hinv'⟩ :=
        hinv.fill_spec hsrc hdst hne horig hq hp he hmoves hgaps
      refine ⟨_, ?_, newChain, free, stay ++ [e], moved, gap', newTail, hinv', hcompact⟩
      exact (if_neg hno).trans (by rw [if_pos hgaps, hfind]; rfl)
    · refine ⟨s, ?_, newChain, free, stay ++ [e], moved, gap, newTail,
        hinv.keep_spec he hmoves (Bool.eq_false_iff.mpr hgaps), hcompact⟩
      exact (if_neg hno).trans (if_neg hgaps)

omit hcap hdst in
lemma isEntryValid_orig (htail : ∀ c ∈ tail, c.valid = false)
    (h : Splitting cap hash base chains src dst es tail p s) (hle : p ≤ es.length)
    (hq : q < cap) (hp : p = t * cap + q) :
    (s.index.getSlot orig).isEntryValid q = decide (p < es.length) := by
  obtain ⟨newChain, free, stay, moved, gap, newTail, hinv, -⟩ := h
  have hget := hinv.getElem?_orig hsrc hne horig hq hp hle
  rw [Slot.isEntryValid, Slot.cell, getD_eq_getElem?_getD]
  show ((s.index.cellsAt orig)[q]?.getD default).valid = _
  rw [hget]
  by_cases hlt : p < es.length
  · rw [drop_eq_getElem_cons hlt, map_cons, decide_eq_true hlt]
    rfl
  · have hnil : es.drop p = [] := drop_eq_nil_of_le (by omega)
    rw [hnil, map_nil, nil_append, decide_eq_false hlt]
    cases tail with
    | nil => rfl
    | cons c tail => exact htail c mem_cons_self

/-- All entries of one slot. -/
lemma splitEntries_spec (htail : ∀ c ∈ tail, c.valid = false) :
    ∀ (r q : ℕ) (s : SplitState K), q + r = cap → t * cap + q ≤ es.length →
    Splitting cap hash base chains src dst es tail (t * cap + q) s →
    ∃ s' ended, splitEntries cap hash orig (List.range' q r) s = some (s', ended) ∧
      (ended = true → Splitting cap hash base chains src dst es tail es.length s') ∧
      (ended = false → (t + 1) * cap ≤ es.length ∧
        Splitting cap hash base chains src dst es tail ((t + 1) * cap) s') := by
  intro r
  induction r with
  | zero =>
    intro q s hr hle h
    obtain rfl : q = cap := by omega
    rw [← Nat.succ_mul] at hle h
    exact ⟨s, false, rfl, fun h' => (Bool.false_ne_true h').elim, fun _ => ⟨hle, h⟩⟩
  | succ r ih =>
    intro q s hr hle h
    have hvalid := isEntryValid_orig hsrc hne horig htail h hle (by omega) rfl
    rw [List.range'_succ, splitEntries, hvalid]
    by_cases hlt : t * cap + q < es.length
    · obtain ⟨s1, hrun1, h1⟩ := splitEntry_spec hcap hsrc hdst hne horig h hlt (by omega) rfl
      obtain ⟨s', ended, hrun, hended, hgoon⟩ := ih (q + 1) s1 (by omega) (by omega) h1
      refine ⟨s', ended, ?_, hended, hgoon⟩
      simpa [hlt, hrun1] using hrun
    · have heq : t * cap + q = es.length := by omega
      rw [heq] at h
      refine ⟨s, true, ?_, fun _ => h, fun h' => (Bool.false_ne_true h'.symm).elim⟩
      simp [hlt]

/-- The loop over the slots of the chain, from slot number `t` on. -/
lemma splitChain_spec (htail : ∀ c ∈ tail, c.valid = false)
    (hlen : es.length + tail.length = (chainAddrs src (chains src)).length * cap) (fuel : ℕ)
    (hfuel : (chainAddrs src (chains src)).length ≤ t + fuel)
    (hle : t * cap ≤ es.length) (h : Splitting cap hash base chains src dst es tail (t * cap) s) :
    ∃ s', splitChain cap hash fuel orig s = some s' ∧
      Splitting cap hash base chains src dst es tail es.length s' := by
  have ht := (List.getElem?_eq_some_iff.mp horig).1
  induction fuel generalizing t orig s with
  | zero => omega
  | succ fuel ih =>
    obtain ⟨s', ended, hrun, hended, hgoon⟩ :=
      splitEntries_spec hcap hsrc hdst hne horig htail cap 0 s (by omega) hle h
    rw [← range_eq_range'] at hrun
    rw [splitChain, hrun]
    cases hends : ended with
    | true => exact ⟨s', rfl, hended hends⟩
    | false =>
      obtain ⟨hle', h'⟩ := hgoon hends
      have hnext : s'.index.nextChainedSlot orig = if t + 1 < (chainAddrs src (chains src)).length
          then (chainAddrs src (chains src))[t + 1]? else none := by
        obtain ⟨newChain, free, stay, moved, gap, newTail, hinv, -⟩ := h'
        exact (hinv.src_chain hsrc hne).2.2.1.next_getElem? horig
      by_cases hlt : t + 1 < (chainAddrs src (chains src)).length
      · rw [if_pos hlt, getElem?_eq_getElem hlt] at hnext
        obtain ⟨s'', hrun'', h''⟩ := ih (getElem?_eq_getElem hlt) (by omega) hle' h' hlt
        exact ⟨s'', by simpa [hnext] using hrun'', h''⟩
      · -- the last slot was full, so all entries have been handled
        have hall : t + 1 = (chainAddrs src (chains src)).length := by omega
        rw [if_neg hlt] at hnext
        rw [← hall] at hlen
        have hes : (t + 1) * cap = es.length := by omega
        exact ⟨s', by simp [hnext], hes ▸ h'⟩

end Loop

end InMemHashIndex

end Ladybug
