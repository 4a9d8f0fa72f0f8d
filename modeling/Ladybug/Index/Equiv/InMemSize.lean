import Ladybug.Index.Equiv.LayeredIndex
import Ladybug.Index.HashIndexCheckpoint
import Ladybug.Lib.Fold

/-!
# The counters of the in-memory hash index

* `step_counts_iff`: an operation on an index that counts its entries leaves one that does, unless
  it deletes a key of the index: `deleteKey` does not decrement the counter.
* `inMemHashIndex_size_iff`: an index counts its entries throughout a run exactly when no operation
  of the run deletes a key of the index.
* `inMemHashIndex_freeSlots_iff`: it counts its free slots exactly when none is left to a `clear`.
-/

namespace Ladybug

namespace InMemHashIndex

section Runs

variable {K : Type} {cap : ℕ} {hash : K → ℕ} {idx : InMemHashIndex K} {M M' : Multiset (K × ℕ)}

/-- The size of the index is the number of the entries in its slots. -/
def Counts (idx : InMemHashIndex K) : Prop := idx.size = idx.entries.card

variable [BEq K] {isVisible : ℕ → Bool}

/-- The operation deletes no key of the index. -/
def DeletesNone (idx : InMemHashIndex K) : Op K → Prop
  | .deleteKey key => ∀ e ∈ idx.entries, (key == e.1) = false
  | .append .. | .appendBuffer .. | .reserve _ | .clear => True

instance (idx : InMemHashIndex K) (op : Op K) : Decidable (idx.DeletesNone op) :=
  match op with
  | .deleteKey key => inferInstanceAs (Decidable (∀ e ∈ idx.entries, (key == e.1) = false))
  | .append .. | .appendBuffer .. | .reserve _ | .clear => inferInstanceAs (Decidable True)

/-- The operations return, and `P` holds before and after each of them. -/
def Throughout [Inhabited K] (cap : ℕ) (hash : K → ℕ) (P : InMemHashIndex K → Prop) :
    InMemHashIndex K → List (Op K) → Prop
  | idx, [] => P idx
  | idx, op :: ops =>
    P idx ∧ ∃ idx' result, idx.step cap hash op = some (idx', result) ∧
      Throughout cap hash P idx' ops

omit [BEq K] in
lemma Entries.entries_eq (h : Entries cap hash idx M) : idx.entries = M := by
  obtain ⟨chains, ents, free, hrep, rfl⟩ := h
  exact InMemHashIndex.entries_eq hrep

lemma card_append {key : K} {value : ℕ} {b : Bool}
    (h : Multimap.Append M key value isVisible b M') : M'.card = M.card + b.toNat := by
  cases b with
  | false => exact congrArg _ h.2
  | true => rw [h.2, Multiset.card_cons, Bool.toNat_true]

lemma card_appendAll {buffer : List (K × ℕ)} {n : ℕ}
    (h : Multimap.AppendAll isVisible buffer M n M') : M'.card = M.card + n := by
  induction buffer generalizing M n with
  | nil => rw [h.1, h.2, add_zero]
  | cons e buffer ih =>
    rcases h with ⟨m, M1, happ, hall, rfl⟩ | ⟨happ, rfl⟩
    · rw [ih hall, card_append happ, Bool.toNat_true]
      omega
    · exact card_append happ

omit [BEq K] in
/-- Every round of the loop counts a free slot, which takes a round from its bound. -/
lemma numFreeSlots_addFreeOverflowSlots (total : ℕ) : ∀ fuel i slotId (idx : InMemHashIndex K),
    total - idx.numFreeSlots - i ≤ fuel →
    (addFreeOverflowSlots total fuel i slotId idx).numFreeSlots =
      idx.numFreeSlots + (total - idx.numFreeSlots - i + 1) / 2 := by
  intro fuel
  induction fuel with
  | zero => exact fun i slotId idx hle => by simp [addFreeOverflowSlots, Nat.le_zero.mp hle]
  | succ fuel ih =>
    intro i slotId idx hle
    rw [addFreeOverflowSlots]
    split
    · have hnum : (idx.addFreeOverflowSlot slotId).numFreeSlots = idx.numFreeSlots + 1 := by
        simp [addFreeOverflowSlot]
      rw [ih _ _ _ (by omega), hnum]
      omega
    · omega

/-- A `clear` finds no free slot. -/
def ClearsNone (idx : InMemHashIndex K) : Op K → Prop
  | .clear => idx.numFreeSlots = 0
  | _ => True

variable [Inhabited K]

/-- A property holds throughout a run exactly when the run has only the operations that keep it. -/
lemma throughout_iff {P : InMemHashIndex K → Prop} {allowed : InMemHashIndex K → Op K → Prop}
    (hkeep : ∀ {idx : InMemHashIndex K} {M}, Entries cap hash idx M → P idx → ∀ op, ∃ idx' result
      M', idx.step cap hash op = some (idx', result) ∧ Entries cap hash idx' M' ∧ (P idx' ↔ allowed
      idx op)) (ops : List (Op K)) (h : Entries cap hash idx M) (hP : P idx) :
    Throughout cap hash P idx ops ↔
      Fold.Guarded (fun idx op => (idx.step cap hash op).map Prod.fst) allowed idx ops := by
  induction ops generalizing idx M with
  | nil => exact iff_of_true hP trivial
  | cons op ops ih =>
    obtain ⟨idx', result, M', hstep, h', hiff⟩ := hkeep h hP op
    have hnext : (idx.step cap hash op).map Prod.fst = some idx' := congrArg _ hstep
    constructor
    · rintro ⟨-, idx1, result1, hstep1, hrest⟩
      obtain ⟨rfl, rfl⟩ := Prod.mk.inj (Option.some.inj (hstep.symm.trans hstep1))
      have hP' : P idx' := by
        cases ops with
        | nil => exact hrest
        | cons op ops => exact hrest.1
      refine ⟨hiff.mp hP', fun s hs => ?_⟩
      obtain rfl := Option.some.inj (hnext.symm.trans hs)
      exact (ih h' hP').mp hrest
    · rintro ⟨hnone, hrest⟩
      exact ⟨hP, idx', result, hstep, (ih h' (hiff.mpr hnone)).mpr (hrest idx' hnext)⟩

variable (hcap : 4 ≤ cap) (heq : ∀ a b : K, (a == b) = true → hash a = hash b)

include hcap heq

/-- An operation adds as many entries as it counts, except that a deletion of a key of the index
takes an entry and leaves the counter as it is. -/
lemma step_counts_iff (h : Entries cap hash idx M) (hcounts : idx.Counts) (op : Op K) :
    ∃ idx' result M', idx.step cap hash op = some (idx', result) ∧ Entries cap hash idx' M' ∧
      (idx'.Counts ↔ idx.DeletesNone op) := by
  obtain ⟨idx', result, M', hstep, h', hmap, hnum, -⟩ := step_spec hcap heq h op
  refine ⟨idx', result, M', hstep, h', ?_⟩
  have hcard : idx.indexHeader.numEntries = M.card := hcounts.trans (congrArg _ h.entries_eq)
  show idx'.indexHeader.numEntries = idx'.entries.card ↔ _
  rw [hnum, hcard, h'.entries_eq]
  cases op with
  | append key value isVisible =>
    obtain ⟨b, rfl, happ⟩ := hmap
    exact iff_of_true (card_append happ).symm trivial
  | appendBuffer buffer bufferOffset hoffset isVisible =>
    exact iff_of_true (card_appendAll hmap).symm trivial
  | deleteKey key =>
    obtain ⟨b, -, hdel⟩ := hmap
    show M.card = M'.card ↔ ∀ e ∈ idx.entries, (key == e.1) = false
    rw [h.entries_eq]
    cases b with
    | false => exact iff_of_true (congrArg _ hdel.2.symm) hdel.1
    | true =>
      obtain ⟨e, hkey, rfl⟩ := hdel
      apply iff_of_false
      · rw [Multiset.card_cons]
        exact M'.card.succ_ne_self
      · exact fun hnone => Bool.false_ne_true ((hnone e (M'.mem_cons_self e)).symm.trans hkey)
  | reserve numEntries => exact iff_of_true (congrArg _ hmap.symm) trivial
  | clear => exact iff_of_true (congrArg Multiset.card hmap).symm trivial

/-- **The counter of the entries is right exactly in the runs that delete no key of the index.** -/
theorem inMemHashIndex_size_iff (ops : List (Op K)) :
    Throughout cap hash Counts (create cap) ops ↔
      Fold.Guarded (fun idx op => (idx.step cap hash op).map Prod.fst) DeletesNone
        (create cap) ops := by
  obtain ⟨chains, h⟩ := allocateSlots_nil cap hash 0
  apply throughout_iff (step_counts_iff hcap heq) ops h.entries
  show 0 = _
  rw [h.entries.entries_eq]
  simp [content]

lemma step_freeSlots_iff (h : Entries cap hash idx M) (hcount : idx.Stale 0) (op : Op K) :
    ∃ idx' result M', idx.step cap hash op = some (idx', result) ∧ Entries cap hash idx' M' ∧
      (idx'.Stale 0 ↔ idx.ClearsNone op) := by
  obtain ⟨idx', result, M', hstep, h', -, -, hstale⟩ := step_spec hcap heq h op
  refine ⟨idx', result, M', hstep, h', ?_⟩
  obtain ⟨free, hfree, hlen⟩ := hstale 0 hcount
  have hiff : idx'.Stale 0 ↔ idx.staleAfter 0 op = 0 := by
    constructor
    · rintro ⟨free', hfree', hlen'⟩
      obtain rfl := hfree.unique hfree'
      omega
    · exact fun h0 => ⟨free, hfree, h0 ▸ hlen⟩
  rw [hiff]
  cases op <;> simp [staleAfter, ClearsNone]

/-- **The free overflow chain has the length that is counted exactly in the runs that clear no free
slot.**  It is never longer than that and never has a slot of a primary slot's chain, and
`reserveOverflowSlots` leaves `n` free slots exactly when the chain has them or one slot is missing
that the counter misses too. -/
theorem inMemHashIndex_freeSlots_iff (ops : List (Op K)) :
    (Throughout cap hash (·.Stale 0) (create cap) ops ↔
      Fold.Guarded (fun idx op => (idx.step cap hash op).map Prod.fst) ClearsNone
        (create cap) ops) ∧
    ∀ idx results, (create cap : InMemHashIndex K).run cap hash ops = some (idx, results) →
      (∃ k, idx.Stale k) ∧
      (∀ free, idx.FreeChain free → ∀ i < idx.pSlots.length, ∀ chain,
        Chain.Seg idx.nextChainedSlot (some (.prim i)) chain none → ∀ o ∈ free, .ovf o ∉ chain) ∧
      ∀ k n, idx.Stale k →
        ((∃ free, (idx.reserveOverflowSlots cap n).FreeChain free ∧ n ≤ free.length) ↔
          n + k ≤ idx.numFreeSlots ∨ k = 0 ∧ n = idx.numFreeSlots + 1) := by
  obtain ⟨chains, h⟩ := allocateSlots_nil cap hash 0
  have hnew : (create cap : InMemHashIndex K).Stale 0 := ⟨[], h.heap.free_links, rfl⟩
  refine ⟨throughout_iff (step_freeSlots_iff hcap heq) ops h.entries hnew,
    fun idx results hrun => ?_⟩
  obtain ⟨idx', _, _, hrun', ⟨chains, ents, free, hrep, -⟩, -, hstale⟩ :=
    run_spec hcap heq ops h.entries
  obtain ⟨rfl, -⟩ := Prod.mk.inj (Option.some.inj (hrun'.symm.trans hrun))
  refine ⟨hstale ⟨0, hnew⟩, ?_, ?_⟩
  · rintro free' hfree i hi chain hchain o ho hmem
    obtain rfl := FreeChain.unique hrep.heap.free_links hfree
    obtain rfl := hchain.unique (hrep.heap.links i hi)
    exact hrep.heap.not_mem_free hi hmem (List.mem_map_of_mem ho)
  · intro k n hstale
    obtain ⟨-, -, hshape, -⟩ := hrep.heap.reserveOverflowSlots_spec n
    obtain ⟨free2, hfree2, hlen⟩ := hshape.stale k hstale
    -- the free chain is determined by the index
    have hiff : (∃ free, (idx'.reserveOverflowSlots cap n).FreeChain free ∧ n ≤ free.length) ↔
        n + k ≤ (idx'.reserveOverflowSlots cap n).numFreeSlots := by
      constructor
      · rintro ⟨free, hfree, hle⟩
        obtain rfl := hfree.unique hfree2
        omega
      · exact fun hle => ⟨free2, hfree2, by omega⟩
    rw [hiff, reserveOverflowSlots]
    split
    · rw [numFreeSlots_addFreeOverflowSlots]
      · show _ ≤ idx'.numFreeSlots + (n - idx'.numFreeSlots - 0 + 1) / 2 ↔ _
        omega
      · exact Nat.sub_le _ _
    · omega

end Runs

/-- Fifteen keys share a slot, and the split of the slot leaves two free slots. -/
def splitOps : List (Op ℕ) :=
  (List.range 15).map (.append · 0 fun _ => true) ++ [.reserve 180, .deleteKey 4]

/-- Nothing is cleared, and both free slots are in the chain. -/
theorem inMemHashIndex_freeSlots_kept :
    ((create 14 : InMemHashIndex ℕ).run 14 (· * 16) splitOps).map (·.1.numFreeSlots) = some 2 ∧
      Throughout 14 (· * 16) (·.Stale 0) (create 14 : InMemHashIndex ℕ) splitOps := by
  have heq : ∀ a b : ℕ, (a == b) = true → a * 16 = b * 16 := fun a b h => by rw [eq_of_beq h]
  refine ⟨by decide +kernel, (inMemHashIndex_freeSlots_iff (by decide) heq splitOps).1.mpr ?_⟩
  refine Fold.Guarded.of_forall (fun op hop idx => ?_) _
  rcases List.mem_append.mp hop with hop | hop
  · obtain ⟨i, -, rfl⟩ := List.mem_map.mp hop
    trivial
  · simp only [List.mem_cons, List.not_mem_nil, or_false] at hop
    rcases hop with rfl | rfl <;> trivial

/-- Fifteen keys share a slot.  A `clear` after the split leaves two free slots counted, and two
reserved slots are one. -/
theorem inMemHashIndex_freeSlots_stale :
    ((create 14 : InMemHashIndex ℕ).run 14 (· * 16)
      ((List.range 15).map (.append · 0 fun _ => true) ++ [.reserve 180, .clear])).map
      (fun r => (r.1.numFreeSlots, r.1.indexHeader.firstFreeOverflowSlotId)) = some (2, none) ∧
    ((create 14 : InMemHashIndex ℕ).reserveOverflowSlots 14 2).numFreeSlots = 1 := by
  decide +kernel

/-- A key is deleted that is not in the index. -/
theorem inMemHashIndex_size_absent :
    Throughout 14 id Counts (create 14 : InMemHashIndex ℕ)
      [.append 3 7 fun _ => true, .deleteKey 4, .clear] := by
  apply (inMemHashIndex_size_iff (by decide) (fun _ _ h => eq_of_beq h) _).mpr
  decide +kernel

/-- The index counts a key that was deleted from it. -/
theorem inMemHashIndex_size_deleted :
    ((create 14 : InMemHashIndex ℕ).run 14 id [.append 3 7 fun _ => true, .deleteKey 3]).map
      (fun r => (r.1.size, r.1.entries.card)) = some (1, 0) := by
  decide +kernel

end InMemHashIndex

end Ladybug
