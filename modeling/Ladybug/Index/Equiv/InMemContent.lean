import Ladybug.Index.Equiv.InMemHeap

/-!
# The entries of a chain

`Holds cap hash idx l es` says that the chain of slots at `l` stores the entries `es`, in this
order and without a gap. The walks along a chain are searches of `es`, and `reclaimOverflowSlots`
leaves the slots that the entries need.
-/

namespace Ladybug

open Chain HashIndexUtils List

namespace InMemHashIndex

variable {K : Type}

/-- The position that stores an entry. -/
def cellOf (hash : K → ℕ) (e : K × ℕ) : SlotCell K :=
  ⟨true, getFingerprintForHash (hash e.1), e.1, e.2⟩

@[simp] lemma cellOf_valid (hash : K → ℕ) (e : K × ℕ) : (cellOf hash e).valid = true := rfl

/-- The slots at `l` store the entries `es` one after the other, and only as many slots as the
entries need. -/
def Holds (cap : ℕ) (hash : K → ℕ) (idx : InMemHashIndex K) (l : List SlotInfo)
    (es : List (K × ℕ)) : Prop :=
  ∃ tail, flat idx.cellsAt l = es.map (cellOf hash) ++ tail ∧ (∀ c ∈ tail, c.valid = false) ∧
    (l.length ≤ 1 ∨ tail.length < cap)

variable {cap : ℕ} {hash : K → ℕ} {idx : InMemHashIndex K}

/-! ### Cells, positions and counts -/

variable {q t n : ℕ} {a : SlotInfo} {es : List (K × ℕ)} {l : List SlotInfo}
  {tail : List (SlotCell K)} {α : Type}

lemma Holds.congr {idx' : InMemHashIndex K}
    (h : Holds cap hash idx l es) (hcells : ∀ a ∈ l, idx'.cellsAt a = idx.cellsAt a) :
    Holds cap hash idx' l es := by
  obtain ⟨tail, hflat, htail, hcompact⟩ := h
  exact ⟨tail, (flat_congr hcells).trans hflat, htail, hcompact⟩

lemma countP_cells (htail : ∀ c ∈ tail, c.valid = false) :
    (es.map (cellOf hash) ++ tail).countP (·.valid) = es.length := by
  have hzero : tail.countP (·.valid) = 0 := by
    rw [countP_eq_zero]
    intro c hc
    simp [htail c hc]
  rw [countP_append, hzero, Nat.add_zero, countP_map]
  exact countP_eq_length.mpr fun e _ => rfl

/-- The entries of one slot of a chain. -/
lemma numEntries_eq (hw : ∀ a ∈ l, (idx.cellsAt a).length = cap)
    (hflat : flat idx.cellsAt l = es.map (cellOf hash) ++ tail)
    (htail : ∀ c ∈ tail, c.valid = false) (ht : l[t]? = some a) :
    (idx.getSlot a).numEntries = min cap (es.length - t * cap) := by
  have hcells : (idx.getSlot a).cells = ((es.drop (t * cap)).take cap).map (cellOf hash) ++
      (tail.drop (t * cap - es.length)).take (cap - (es.length - t * cap)) := by
    have hblock := flat_block hw ht
    rw [hflat, drop_append, take_append, length_map, length_drop, length_map] at hblock
    rw [map_take, map_drop]
    exact hblock
  rw [Slot.numEntries, hcells, countP_cells, length_take, length_drop]
  intro c hc
  exact htail c (drop_subset _ _ (take_subset _ _ hc))

lemma cell_eq [Inhabited K] (hw : ∀ a ∈ l, (idx.cellsAt a).length = cap)
    (hflat : flat idx.cellsAt l = es.map (cellOf hash) ++ tail) (ht : l[t]? = some a)
    (hq : q < cap) {e : K × ℕ} (he : es[t * cap + q]? = some e) :
    (idx.getSlot a).cell q = cellOf hash e := by
  have hget := flat_getElem? hw ht hq
  rw [hflat, List.getElem?_append_left
    (by simpa using (List.getElem?_eq_some_iff.mp he).1), List.getElem?_map, he] at hget
  rw [Slot.cell, List.getD_eq_getElem?_getD]
  show ((idx.cellsAt a)[q]?).getD default = _
  rw [← hget]
  rfl

lemma Holds.head (ha : (idx.cellsAt a).length = cap) (h : Holds cap hash idx (a :: l) es) :
    ∃ tail, idx.cellsAt a = (es.take cap).map (cellOf hash) ++ tail ∧
      ∀ c ∈ tail, c.valid = false := by
  obtain ⟨tail, hflat, htail, -⟩ := h
  have htake : (flat idx.cellsAt (a :: l)).take cap = idx.cellsAt a := by
    rw [flat_cons, ← ha, take_left]
  refine ⟨tail.take (cap - es.length), ?_, fun c hc => htail c (take_subset _ _ hc)⟩
  rw [← htake, hflat, take_append, map_take, length_map]

/-- A chain with further slots has a full first slot, and the other slots hold the other entries. -/
lemma Holds.rest {b : SlotInfo} (hw : ∀ x ∈ a :: b :: l, (idx.cellsAt x).length = cap)
    (h : Holds cap hash idx (a :: b :: l) es) :
    cap ≤ es.length ∧ Holds cap hash idx (b :: l) (es.drop cap) := by
  obtain ⟨tail, hflat, htail, hcompact⟩ := h
  have htail_lt : tail.length < cap := by simpa using hcompact
  have ha : (idx.cellsAt a).length = cap := hw a mem_cons_self
  have hlen := congrArg List.length hflat
  rw [flat_length hw, length_append, length_map, length_cons, length_cons,
    Nat.succ_mul, Nat.succ_mul] at hlen
  have hle : cap ≤ es.length := by omega
  refine ⟨hle, tail, ?_, htail, .inr htail_lt⟩
  have hdrop : (flat idx.cellsAt (a :: b :: l)).drop cap = flat idx.cellsAt (b :: l) := by
    rw [flat_cons, ← ha, drop_left]
  rw [← hdrop, hflat, drop_append, map_drop, length_map, Nat.sub_eq_zero_of_le hle, drop_zero]

/-- A chain of one slot has no more entries than the slot has positions. -/
lemma Holds.single (ha : (idx.cellsAt a).length = cap)
    (h : Holds cap hash idx [a] es) : es.length ≤ cap := by
  obtain ⟨tail, hflat, -, -⟩ := h
  have hlen := congrArg List.length hflat
  rw [flat_cons, flat_nil, append_nil, length_append, length_map, ha] at hlen
  omega

/-- A walk from slot `a` through `l`, with fuel for each slot: the first slot holds the first
entries, the other slots the others. -/
inductive Walk (cap : ℕ) (hash : K → ℕ) (idx : InMemHashIndex K) :
    List SlotInfo → SlotInfo → List (K × ℕ) → ℕ → Prop
  | last {a es fuel tail} (hnext : idx.nextChainedSlot a = none)
      (ha : (idx.cellsAt a).length = cap) (hcells : idx.cellsAt a = es.map (cellOf hash) ++ tail)
      (htail : ∀ c ∈ tail, c.valid = false) (hle : es.length ≤ cap) :
      Walk cap hash idx [] a es (fuel + 1)
  | more {a b l es fuel tail} (hnext : idx.nextChainedSlot a = some b)
      (ha : (idx.cellsAt a).length = cap)
      (hcells : idx.cellsAt a = (es.take cap).map (cellOf hash) ++ tail)
      (htail : ∀ c ∈ tail, c.valid = false) (hle : cap ≤ es.length)
      (rest : Walk cap hash idx l b (es.drop cap) fuel) :
      Walk cap hash idx (b :: l) a es (fuel + 1)

/-- Walking the chain meets its entries in order. -/
lemma Holds.walk (h : Holds cap hash idx (a :: l) es)
    (hs : Seg idx.nextChainedSlot (some a) (a :: l) none)
    (hw : ∀ x ∈ a :: l, (idx.cellsAt x).length = cap) {fuel : ℕ} (hfuel : l.length < fuel) :
    Walk cap hash idx l a es fuel := by
  refine Seg.walk (motive := fun l a fuel => ∀ es, (∀ x ∈ a :: l, (idx.cellsAt x).length = cap) →
    Holds cap hash idx (a :: l) es → Walk cap hash idx l a es fuel) ?_ ?_ hs hfuel es hw h
  · intro a fuel hnext es hw h
    have ha := hw a mem_cons_self
    obtain ⟨tail, hcells, htail⟩ := h.head ha
    rw [take_of_length_le (h.single ha)] at hcells
    exact .last hnext ha hcells htail (h.single ha)
  · intro a b l fuel hnext ih es hw h
    have ha := hw a mem_cons_self
    obtain ⟨hle, hrest⟩ := h.rest hw
    obtain ⟨tail, hcells, htail⟩ := h.head ha
    exact .more hnext ha hcells htail hle (ih _ (fun x hx => hw x (mem_cons_of_mem a hx)) hrest)

/-! ### Searching a chain -/

lemma find?_range_getD (d : α) (Q : α → Bool) {l : List α} (hn : n ≤ l.length) :
    (List.range n).find? (fun pos => Q (l.getD pos d)) = (l.take n).findIdx? Q := by
  induction l generalizing n with
  | nil =>
    obtain rfl : n = 0 := by simpa using hn
    rfl
  | cons x l ih =>
    cases n with
    | zero => rfl
    | succ n =>
      have htail : find? ((fun pos => Q ((x :: l).getD pos d)) ∘ Nat.succ) (range n) =
          findIdx? Q (take n l) := ih (show n ≤ l.length by simpa using hn)
      rw [range_succ_eq_map, find?_cons, take_succ_cons, findIdx?_cons]
      cases hx : Q x with
      | true => simp [hx]
      | false => simp only [getD_cons_zero, hx, find?_map, htail, Bool.false_eq_true, if_false]

/-- The search of one slot finds the first of its entries with the property. -/
lemma findIdx?_cells (Q : SlotCell K → Bool)
    (P : K × ℕ → Bool) (hQ : ∀ e, Q (cellOf hash e) = P e) (htail : ∀ c ∈ tail, Q c = false) :
    (es.map (cellOf hash) ++ tail).findIdx? Q = es.findIdx? P := by
  have hnone : tail.findIdx? Q = none := findIdx?_eq_none_iff.mpr htail
  rw [findIdx?_append, hnone, Option.map_none, Option.or_none, findIdx?_map]
  congr 1
  funext e
  exact hQ e

/-- The first match lies among the first `n` elements or behind them. -/
lemma findIdx?_take_drop {P : α → Bool} {es : List α} {j : ℕ} (hn : n ≤ es.length)
    (hj : es.findIdx? P = some j) :
    ((es.take n).findIdx? P = some j ∧ j < n) ∨
      ((es.take n).findIdx? P = none ∧ ∃ j', (es.drop n).findIdx? P = some j' ∧ j' + n = j) := by
  have hsplit := hj
  rw [← take_append_drop n es, findIdx?_append] at hsplit
  cases hfirst : (es.take n).findIdx? P with
  | some j' =>
    obtain rfl : j' = j := by simpa [hfirst] using hsplit
    have hlt := (findIdx?_eq_some_iff_findIdx_eq.mp hfirst).1
    rw [length_take] at hlt
    exact .inl ⟨rfl, by omega⟩
  | none =>
    have hrest : ∃ j', (es.drop n).findIdx? P = some j' ∧ j' + n = j := by
      simpa [hfirst, length_take, Nat.min_eq_left hn] using hsplit
    exact .inr ⟨rfl, hrest⟩

section Search

variable [Inhabited K] [BEq K] {key : K}

/-- The property `findEntry` looks for. -/
def Matches (key : K) (isVisible : ℕ → Bool) (e : K × ℕ) : Bool := key == e.1 && isVisible e.2

variable (heq : ∀ a b : K, (a == b) = true → hash a = hash b)

include heq

omit [Inhabited K] in
/-- The test of `findEntry` at one position, when equal keys have equal hashes. -/
lemma matches_cellOf (isVisible : ℕ → Bool) (e : K × ℕ) :
    ((cellOf hash e).fingerprint == getFingerprintForHash (hash key) &&
      key == (cellOf hash e).key && isVisible (cellOf hash e).value) = Matches key isVisible e := by
  simp only [cellOf, Matches]
  cases hkey : key == e.1 with
  | false => simp
  | true => simp [heq key e.1 hkey]

section

variable (hcells : idx.cellsAt a = es.map (cellOf hash) ++ tail)
  (htail : ∀ c ∈ tail, c.valid = false)

include hcells htail

omit [Inhabited K] [BEq K] heq in
lemma numEntries_slot : (idx.getSlot a).numEntries = es.length := by
  rw [Slot.numEntries]
  show (idx.cellsAt a).countP _ = _
  rw [hcells, countP_cells htail]

/-- The search of one slot, by fingerprint and key. -/
lemma findEntry_slot (key : K) (isVisible : ℕ → Bool) :
    ((List.range (idx.getSlot a).numEntries).find? fun entryPos =>
      ((idx.getSlot a).cell entryPos).fingerprint == getFingerprintForHash (hash key) &&
        key == ((idx.getSlot a).cell entryPos).key &&
          isVisible ((idx.getSlot a).cell entryPos).value) =
      es.findIdx? (Matches key isVisible) := by
  have hle : es.length ≤ (idx.cellsAt a).length := by rw [hcells]; simp
  have hfind := find?_range_getD (default : SlotCell K)
    (fun c => c.fingerprint == getFingerprintForHash (hash key) && key == c.key &&
      isVisible c.value) hle
  have htake : (idx.cellsAt a).take es.length = es.map (cellOf hash) ++ [] := by
    rw [hcells, append_nil]
    exact take_left' (by simp)
  rw [numEntries_slot hcells htail]
  refine hfind.trans ?_
  rw [htake]
  exact findIdx?_cells _ _ (matches_cellOf heq isVisible) (by simp)

/-- The search among the valid entries. -/
lemma findValidEntry_slot (key : K) (ha : (idx.cellsAt a).length = cap) :
    ((List.range cap).find? fun entryPos => (idx.getSlot a).isEntryValid entryPos &&
      ((idx.getSlot a).cell entryPos).fingerprint == getFingerprintForHash (hash key) &&
      key == ((idx.getSlot a).cell entryPos).key) = es.findIdx? (Matches key fun _ => true) := by
  have hfind := find?_range_getD (default : SlotCell K)
    (fun c => c.valid && c.fingerprint == getFingerprintForHash (hash key) && key == c.key)
    (le_of_eq ha.symm)
  refine hfind.trans ?_
  rw [take_of_length_le (le_of_eq ha), hcells]
  refine findIdx?_cells _ _ (fun e => ?_) fun c hc => by simp [htail c hc]
  simpa using matches_cellOf heq (fun _ => true) e

end

variable {fuel j : ℕ} (h : Walk cap hash idx l a es fuel) {isVisible : ℕ → Bool}

include h

/-- `findEntry` stops at the first entry of the chain that matches. -/
lemma findEntry_found (hcap : 0 < cap) (hj : es.findIdx? (Matches key isVisible) = some j) :
    ∃ info, (a :: l)[j / cap]? = some info ∧
      idx.findEntry cap key (getFingerprintForHash (hash key)) isVisible fuel a =
        some (info, some (j % cap)) := by
  induction h generalizing j with
  | @last a _ _ _ hnext ha hcells htail hle =>
    have hlt : j < cap := lt_of_lt_of_le (findIdx?_eq_some_iff_findIdx_eq.mp hj).1 hle
    refine ⟨a, by simp [Nat.div_eq_of_lt hlt], ?_⟩
    rw [findEntry, findEntry_slot heq hcells htail key isVisible, hj, Nat.mod_eq_of_lt hlt]
  | @more a _ _ _ _ _ hnext ha hcells htail hle _ ih =>
    have hnum := numEntries_slot hcells htail
    rw [length_take, Nat.min_eq_left hle] at hnum
    rw [findEntry, findEntry_slot heq hcells htail key isVisible]
    rcases findIdx?_take_drop hle hj with ⟨hfirst, hlt⟩ | ⟨hfirst, j', hj', rfl⟩
    · rw [hfirst]
      exact ⟨a, by simp [Nat.div_eq_of_lt hlt], by simp [Nat.mod_eq_of_lt hlt]⟩
    · -- the slot is full, so the search goes on with the entries behind it
      obtain ⟨info, hinfo, hrun⟩ := ih hj'
      rw [hfirst, Nat.add_div_right j' hcap, getElem?_cons_succ, Nat.add_mod_right]
      exact ⟨info, hinfo, by simpa [hnum, hnext] using hrun⟩

/-- `findEntry` ends in the last slot of the chain when no entry matches. -/
lemma findEntry_missing (hnone : es.findIdx? (Matches key isVisible) = none) :
    idx.findEntry cap key (getFingerprintForHash (hash key)) isVisible fuel a =
      some ((a :: l).getLast (cons_ne_nil _ _), none) := by
  induction h with
  | last hnext ha hcells htail hle =>
    rw [findEntry, findEntry_slot heq hcells htail key isVisible, hnone]
    simp [hnext]
  | @more _ _ _ es _ _ hnext ha hcells htail hle _ ih =>
    have hnum := numEntries_slot hcells htail
    rw [length_take, Nat.min_eq_left hle] at hnum
    rw [← take_append_drop cap es, findIdx?_append, Option.or_eq_none_iff,
      Option.map_eq_none_iff] at hnone
    obtain ⟨hfirst, hsecond⟩ := hnone
    rw [findEntry, findEntry_slot heq hcells htail key isVisible, hfirst]
    simpa [hnum, hnext] using ih hsecond

/-- The search of `deleteKey` stops where `findEntry` does when every row is visible. -/
lemma findValidEntry_eq :
    idx.findValidEntry cap key (getFingerprintForHash (hash key)) fuel a =
      (idx.findEntry cap key (getFingerprintForHash (hash key)) (fun _ => true) fuel a).map
        fun (iter, entryPos) => entryPos.map (iter, ·) := by
  induction h with
  | last hnext ha hcells htail hle =>
    rw [findValidEntry, findEntry, findValidEntry_slot heq hcells htail key ha,
      findEntry_slot heq hcells htail key (fun _ => true), hnext]
    split <;> simp
  | more hnext ha hcells htail hle _ ih =>
    have hnum := numEntries_slot hcells htail
    rw [length_take, Nat.min_eq_left hle] at hnum
    rw [findValidEntry, findEntry, findValidEntry_slot heq hcells htail key ha,
      findEntry_slot heq hcells htail key (fun _ => true), hnext]
    split
    · rfl
    · simpa [hnum] using ih

end Search

/-! ### Walks to the end of a chain -/

section

variable {fuel : ℕ} (hs : Seg idx.nextChainedSlot (some a) (a :: l) none) (hfuel : l.length < fuel)

include hs hfuel

lemma lastChainedSlot_spec :
    idx.lastChainedSlot fuel a = some ((a :: l).getLast (cons_ne_nil _ _)) := by
  refine Seg.walk (motive := fun l a fuel => idx.lastChainedSlot fuel a =
    some ((a :: l).getLast (cons_ne_nil _ _))) ?_ ?_ hs hfuel
  · intro a fuel hnext
    rw [lastChainedSlot, hnext]
    rfl
  · intro a b l fuel hnext ih
    rw [lastChainedSlot, hnext, getLast_cons_cons]
    exact ih

lemma countSlots_spec : idx.countSlots fuel a = some (l.length + 1) := by
  refine Seg.walk (motive := fun l a fuel => idx.countSlots fuel a = some (l.length + 1)) ?_ ?_ hs
    hfuel
  · intro a fuel hnext
    rw [countSlots, hnext]
    rfl
  · intro a b l fuel hnext ih
    rw [countSlots, hnext]
    simp [ih]

end

/-! ### Writes to a chain -/

namespace Heap

variable {chains : ℕ → List ℕ} {free : List ℕ} {i : ℕ}

section

variable (h : Heap cap idx chains free) (hi : i < idx.pSlots.length) {chain : List ℕ}
  (hc : chains i = chain)

include h hi hc

lemma entries_length
    (hflat : flat idx.cellsAt (chainAddrs i chain) = es.map (cellOf hash) ++ tail) :
    es.length + tail.length = chain.length * cap + cap := by
  subst hc
  have hlen := congrArg List.length hflat
  rw [h.flat_length hi, length_append, length_map, Nat.succ_mul] at hlen
  exact hlen.symm

variable (ht : (chainAddrs i chain)[t]? = some a) (hq : q < cap)

include ht hq

/-- A write to position `q` of slot number `t` of a chain writes one cell of the chain, and nothing
else. -/
lemma write {f : Slot K → Slot K} {c : SlotCell K}
    (hnext : (f (idx.getSlot a)).nextOvfSlotId = (idx.getSlot a).nextOvfSlotId)
    (hcells : (f (idx.getSlot a)).cells = (idx.cellsAt a).set q c) :
    Heap cap (idx.updateSlot a f) chains free ∧
      flat (idx.updateSlot a f).cellsAt (chainAddrs i chain) =
        (flat idx.cellsAt (chainAddrs i chain)).set (t * cap + q) c ∧
      ∀ b ∉ chainAddrs i chain, (idx.updateSlot a f).cellsAt b = idx.cellsAt b := by
  subst hc
  have hmem := mem_of_getElem? ht
  have hr := h.inRange hi a hmem
  rw [cellsAt_updateSlot hr, hcells]
  refine ⟨h.setCell hr (h.not_mem_free hi hmem) hnext ?_, ?_, ?_⟩
  · rw [hcells, length_set]
    rfl
  · exact flat_update (h.width_chain hi) (chainAddrs_nodup (h.chain_nodup i hi)) ht hq c
  · exact fun b hb => Function.update_of_ne (ne_of_mem_of_not_mem hmem hb).symm _ _

variable [Inhabited K]

lemma putEntry (key : K) (value fingerprint : ℕ) :
    Heap cap (idx.putEntry a q key value fingerprint) chains free ∧
      flat (idx.putEntry a q key value fingerprint).cellsAt (chainAddrs i chain) =
        (flat idx.cellsAt (chainAddrs i chain)).set (t * cap + q) ⟨true, fingerprint, key, value⟩ ∧
      ∀ b ∉ chainAddrs i chain,
        (idx.putEntry a q key value fingerprint).cellsAt b = idx.cellsAt b := by
  refine h.write hi hc ht hq ?_ ?_
  · rw [Slot.setEntry_setEntryValid, Slot.setCell_next]
  · rw [Slot.setEntry_setEntryValid, Slot.setCell_cells]
    rfl

lemma setEntryInvalid :
    Heap cap (idx.updateSlot a (·.setEntryInvalid q)) chains free ∧
      flat (idx.updateSlot a (·.setEntryInvalid q)).cellsAt (chainAddrs i chain) =
        (flat idx.cellsAt (chainAddrs i chain)).set (t * cap + q)
          { (idx.getSlot a).cell q with valid := false } ∧
      ∀ b ∉ chainAddrs i chain,
        (idx.updateSlot a (·.setEntryInvalid q)).cellsAt b = idx.cellsAt b := by
  refine h.write hi hc ht hq ?_ ?_
  · rw [Slot.setEntryInvalid_eq, Slot.setCell_next]
  · rw [Slot.setEntryInvalid_eq, Slot.setCell_cells]
    rfl

end

/-- `reclaimOverflowSlots` on a chain without gaps leaves the slots that its entries need. -/
lemma reclaim_holds (hcap : 0 < cap) (h : Heap cap idx chains free) (hi : i < idx.pSlots.length)
    {chain : List ℕ} (hc : chains i = chain)
    (hflat : flat idx.cellsAt (chainAddrs i chain) = es.map (cellOf hash) ++ tail)
    (htail : ∀ c ∈ tail, c.valid = false) {iter : SlotInfo}
    (hiter : (chainAddrs i chain)[t]? = some iter) (ht : t = 0 ∨ t * cap < es.length) :
    ∃ idx' kept free', idx.reclaimOverflowSlots iter = some idx' ∧
      Heap cap idx' (Function.update chains i kept) free' ∧ SameShape idx idx' ∧
      idx'.cellsAt = idx.cellsAt ∧ Holds cap hash idx' (chainAddrs i kept) es := by
  -- `k` overflow slots are needed
  set k := (es.length - 1) / cap
  have hle_k : ∀ s, s ≤ k ↔ s * cap ≤ es.length - 1 := fun s => Nat.le_div_iff_mul_le hcap
  have hlen := h.entries_length hi hc hflat
  subst hc
  have hk_le : k ≤ (chains i).length := by
    by_contra hgt
    have hle := (hle_k ((chains i).length + 1)).mp (by omega)
    rw [Nat.succ_mul] at hle
    omega
  have hnum : ∀ s o, (chains i)[s]? = some o →
      (idx.getSlot (.ovf o)).numEntries = min cap (es.length - (s + 1) * cap) := by
    intro s o hs
    have hget : (chainAddrs i (chains i))[s + 1]? = some (.ovf o) := by
      simp [chainAddrs, hs]
    exact numEntries_eq (h.width_chain hi) hflat htail hget
  have hchain : chains i = (chains i).take k ++ (chains i).drop k := (take_append_drop k _).symm
  have hmem : iter ∈ chainAddrs i ((chains i).take k) := by
    have htk : t ≤ k := by
      rcases ht with rfl | ht
      · exact Nat.zero_le k
      · exact (hle_k t).mpr (by omega)
    have htake : chainAddrs i ((chains i).take k) = (chainAddrs i (chains i)).take (k + 1) := by
      simp [chainAddrs]
    rw [htake]
    refine mem_of_getElem? (i := t) ?_
    rw [getElem?_take_of_lt (by omega)]
    exact hiter
  have hkept : ∀ o ∈ (chains i).take k, 0 < (idx.getSlot (.ovf o)).numEntries := by
    intro o ho
    obtain ⟨s, hs⟩ := mem_iff_getElem?.mp ho
    have hsk : s < k := by
      by_contra hge
      rw [getElem?_take, if_neg hge] at hs
      cases hs
    rw [getElem?_take_of_lt hsk] at hs
    rw [hnum s o hs]
    have hle := (hle_k (s + 1)).mp (by omega)
    have hpos : 0 < (s + 1) * cap := Nat.mul_pos (Nat.succ_pos _) hcap
    omega
  have hdropped : ∀ o ∈ (chains i).drop k, (idx.getSlot (.ovf o)).numEntries = 0 := by
    intro o ho
    obtain ⟨s, hs⟩ := mem_iff_getElem?.mp ho
    rw [getElem?_drop] at hs
    rw [hnum (k + s) o hs]
    have hgt : ¬ (k + s + 1) * cap ≤ es.length - 1 := fun hle => by
      have := (hle_k (k + s + 1)).mpr hle
      omega
    omega
  obtain ⟨idx', free', hrun, hheap, hshape, hcells⟩ :=
    h.reclaimOverflowSlots_spec hi hchain hmem hkept hdropped
  refine ⟨idx', (chains i).take k, free', hrun, hheap, hshape, hcells, ?_⟩
  -- the kept slots hold all entries, and the last of them one of them
  have hkept_len : (flat idx.cellsAt (chainAddrs i ((chains i).take k))).length =
      (k + 1) * cap := by
    have hw : ∀ a ∈ chainAddrs i ((chains i).take k), (idx.cellsAt a).length = cap := by
      intro a ha
      refine h.width_chain hi a ?_
      rw [hchain, chainAddrs_append]
      exact mem_append_left _ ha
    rw [Chain.flat_length hw, chainAddrs_length, length_take, Nat.min_eq_left hk_le]
  have hgt : es.length ≤ (k + 1) * cap := by
    have : ¬ (k + 1) * cap ≤ es.length - 1 := fun hle => by
      have := (hle_k (k + 1)).mpr hle
      omega
    omega
  have hkept_flat : flat idx.cellsAt (chainAddrs i ((chains i).take k)) =
      es.map (cellOf hash) ++ tail.take ((k + 1) * cap - es.length) := by
    have hall := hflat
    rw [hchain, chainAddrs_append, Chain.flat_append] at hall
    have hfull : (es.map (cellOf hash)).take ((k + 1) * cap) = es.map (cellOf hash) :=
      take_of_length_le (by simpa using hgt)
    have htake := congrArg (List.take ((k + 1) * cap)) hall
    rw [← hkept_len, take_left, hkept_len, take_append, length_map, hfull] at htake
    exact htake
  refine ⟨tail.take ((k + 1) * cap - es.length), ?_, fun c hc => htail c (take_subset _ _ hc), ?_⟩
  · rw [hcells]
    exact hkept_flat
  · by_cases hk0 : k = 0
    · left
      simp [hk0]
    · right
      have hle := (hle_k k).mp le_rfl
      have hpos : 0 < k * cap := Nat.mul_pos (Nat.pos_of_ne_zero hk0) hcap
      rw [length_take, Nat.succ_mul]
      omega

end Heap

end InMemHashIndex

end Ladybug
