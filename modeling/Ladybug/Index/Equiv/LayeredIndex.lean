import Ladybug.Index.Equiv.InMemHashIndex

/-!
# Entries of two ages in the in-memory hash index

An operation adds entries behind those of a chain, and a split keeps the order of the entries of a
chain. So the entries that were there before a batch stay in front of the entries of the batch, in
every chain and in their order, until an operation deletes one of them.

* `entries`: the entries of an index, read from its slots; `entries_eq` gives them for an index
  with the invariant.
* `Layered`: the entries `M` from before in front of the entries `b` of the batch.
* `Layered.append`, `Layered.appendBuffer`, `Layered.reserve`: a batch only adds to `b`.
* `Layered.deleteKey_batch`: a deletion of a key that `M` has not takes an entry from `b`;
  `Layered.deleteKey_older`: any other deletion takes one from `M`.
-/

namespace Ladybug

open Chain HashIndexUtils List Function Multiset
open Function (update)

namespace InMemHashIndex

variable {K : Type} {ents : ℕ → List (K × ℕ)} {chains : ℕ → List ℕ} {idx : InMemHashIndex K}
  {free : List ℕ}

/-! ### The entries of an index -/

/-- The entry at a position of a slot, if there is one. -/
def entryOf (c : SlotCell K) : Option (K × ℕ) := if c.valid then some (c.key, c.value) else none

/-- The entries of the slots of a chain, from a slot on. -/
def chainEntries (idx : InMemHashIndex K) : ℕ → SlotInfo → List (K × ℕ)
  | 0, _ => []
  | fuel + 1, iter =>
    (idx.getSlot iter).cells.filterMap entryOf ++
      match idx.nextChainedSlot iter with
      | some next => chainEntries idx fuel next
      | none => []

def entries (idx : InMemHashIndex K) : Multiset (K × ℕ) :=
  ∑ i ∈ Finset.range idx.pSlots.length, (idx.chainEntries idx.maxChain (.prim i) : Multiset _)

lemma chainEntries_eq : ∀ (l : List SlotInfo) (a : SlotInfo) (fuel : ℕ),
    Seg idx.nextChainedSlot (some a) (a :: l) none → (a :: l).length ≤ fuel →
    idx.chainEntries fuel a = (flat idx.cellsAt (a :: l)).filterMap entryOf := by
  intro l
  induction l with
  | nil =>
    intro a fuel hs hle
    obtain ⟨fuel, rfl⟩ : ∃ k, fuel = k + 1 := ⟨fuel - 1, by simp at hle; omega⟩
    have hnext : idx.nextChainedSlot a = none := hs.2
    simp [chainEntries, hnext, flat, cellsAt]
  | cons b l ih =>
    intro a fuel hs hle
    obtain ⟨fuel, rfl⟩ : ∃ k, fuel = k + 1 := ⟨fuel - 1, by simp at hle; omega⟩
    have hnext : idx.nextChainedSlot a = some b := hs.2.1
    have hrest := ih b fuel (hnext ▸ hs.2) (by simpa using hle)
    simp only [chainEntries, hnext, hrest]
    simp [flat, cellsAt]

/-- The entries are those of all chains. -/
lemma entries_eq {cap : ℕ} {hash : K → ℕ} (h : Rep cap hash idx chains ents free) :
    idx.entries = content ents idx.pSlots.length := by
  refine Finset.sum_congr rfl fun i hi => ?_
  have hlt : i < idx.pSlots.length := Finset.mem_range.mp hi
  obtain ⟨tail, hflat, htail, -⟩ := h.holds i hlt
  have hnone : tail.filterMap entryOf = [] :=
    filterMap_eq_nil_iff.mpr fun c hc => by simp [entryOf, htail c hc]
  have hsome : entryOf ∘ cellOf hash = some := by
    funext e
    simp [entryOf, cellOf]
  have hchain := chainEntries_eq ((chains i).map SlotInfo.ovf) (.prim i) idx.maxChain
    (h.heap.links i hlt) (h.heap.length_le hlt)
  rw [hchain]
  refine congrArg Multiset.ofList ?_
  show (flat idx.cellsAt (chainAddrs i (chains i))).filterMap entryOf = _
  rw [hflat, List.filterMap_append, hnone, List.append_nil, List.filterMap_map, hsome,
    List.filterMap_some]

/-! ### Older entries and entries of the batch -/

/-- The entries of the index are `M` and, behind them in every chain, `b`.  `older x` are the
entries of `M` of hash `x`, in their order. -/
def Layered (cap : ℕ) (hash : K → ℕ) (idx : InMemHashIndex K) (older : ℕ → List (K × ℕ))
    (M b : Multiset (K × ℕ)) : Prop :=
  ∃ chains A B free, Rep cap hash idx chains (fun i => A i ++ B i) free ∧
    content A idx.pSlots.length = M ∧ content B idx.pSlots.length = b ∧
    ∀ x, (A (getPrimarySlotIdForHash idx.indexHeader x)).filter (fun e => hash e.1 = x) = older x

variable {cap : ℕ} {hash : K → ℕ} {older : ℕ → List (K × ℕ)} {M b : Multiset (K × ℕ)}

lemma Layered.of_rep (h : Rep cap hash idx chains ents free) :
    Layered cap hash idx
      (fun x => (ents (getPrimarySlotIdForHash idx.indexHeader x)).filter fun e => hash e.1 = x)
      (content ents idx.pSlots.length) 0 :=
  ⟨chains, ents, fun _ => [], free, by simpa using h, rfl, by simp [content], fun _ => rfl⟩

variable (h : Layered cap hash idx older M b)

include h

lemma Layered.entries_eq : idx.entries = M + b := by
  obtain ⟨chains, A, B, free, hrep, rfl, rfl, -⟩ := h
  rw [InMemHashIndex.entries_eq hrep, content_append]

variable [Inhabited K]

/-- Reserving keeps the layers. -/
lemma Layered.reserve (hcap : 4 ≤ cap) (numEntries : ℕ) :
    ∃ idx', idx.reserve cap hash numEntries = some idx' ∧ Layered cap hash idx' older M b := by
  obtain ⟨chains, A, B, free, hrep, hM, hb, holder⟩ := h
  obtain ⟨idx', chains', A', B', free', hrun, hrep', -, hA, hB⟩ :=
    reserve_split hcap hrep numEntries
  refine ⟨idx', hrun, chains', A', B', free', hrep', hA.content_eq.trans hM,
    hB.content_eq.trans hb, fun x => ?_⟩
  rw [hA.order, holder]

variable [BEq K]

section

variable (hcap : 0 < cap) (heq : ∀ a b : K, (a == b) = true → hash a = hash b)

include hcap heq

/-- An append adds to the new layer. -/
lemma Layered.appendInternal (key : K) (value : ℕ)
    (isVisible : ℕ → Bool) :
    ∃ idx' inserted, idx.appendInternal cap hash key value isVisible = some (idx', inserted) ∧
      Layered cap hash idx' older M (b + if inserted then {(key, value)} else 0) := by
  obtain ⟨chains, A, B, free, hrep, hM, hb, holder⟩ := h
  obtain ⟨i, hslot⟩ : ∃ i, getPrimarySlotIdForHash idx.indexHeader (hash key) = i := ⟨_, rfl⟩
  have hi := hrep.slot_lt hslot
  cases hidx : (A i ++ B i).findIdx? (Matches key isVisible) with
  | some j =>
    refine ⟨idx, false, appendInternal_found hcap heq hrep hslot value hidx, chains, A, B,
      free, hrep, hM, ?_, holder⟩
    simpa using hb
  | none =>
    obtain ⟨idx', chains', free', hrun, hrep', hlen, -⟩ :=
      appendInternal_new hcap heq hrep hslot value hidx
    have hheader' := hrep'.header
    rw [hlen] at hheader'
    rw [append_assoc, ← funext (apply_update (fun _ x => _ ++ x) B _ _)] at hrep'
    refine ⟨idx', true, hrun, chains', A, _, free', hrep', ?_, ?_, ?_⟩
    · rw [hlen, hM]
    · rw [hlen, content_update hi, ← hb, content_eq_add hi, ← coe_add, add_right_comm]
      rfl
    · intro x
      rw [hrep.header.primarySlot_congr hheader']
      exact holder x

/-- A key that the batch has not is looked up among the older entries. -/
lemma Layered.lookup (key : K) (isVisible : ℕ → Bool)
    (hnone : ∀ e ∈ b, (key == e.1) = false) :
    idx.lookup cap hash key isVisible =
      some (((older (hash key)).find? (Matches key isVisible)).map Prod.snd) := by
  obtain ⟨chains, A, B, free, hrep, -, rfl, holder⟩ := h
  obtain ⟨i, hslot⟩ : ∃ i, getPrimarySlotIdForHash idx.indexHeader (hash key) = i := ⟨_, rfl⟩
  have hi := hrep.slot_lt hslot
  rw [lookup_eq hcap heq hrep hslot isVisible]
  have hB : (B i).find? (Matches key isVisible) = none := by
    refine find?_eq_none.mpr fun e he => ?_
    simp [Matches, hnone e (mem_content.mpr ⟨i, hi, he⟩)]
  -- an entry that matches has the hash of the key
  have hhash : (fun e : K × ℕ => decide (decide (hash e.1 = hash key) = true ∧
      Matches key isVisible e = true)) = Matches key isVisible := by
    funext e
    cases hkey : key == e.1 with
    | false => simp [Matches, hkey]
    | true => simp [heq key e.1 hkey]
  rw [← holder (hash key), hslot, find?_filter, hhash, find?_append, hB, Option.or_none]

omit [Inhabited K] h hcap heq in
/-- Removing from the new layer leaves the older one. -/
lemma swapRemove_append {α : Type} (A B : List α) {j : ℕ} (hj : j < B.length) :
    swapRemove (A ++ B) (j + A.length) = A ++ swapRemove B j := by
  rcases eq_nil_or_concat' B with rfl | ⟨B', x, rfl⟩
  · simp at hj
  rw [← append_assoc]
  by_cases hlt : j < B'.length
  · rw [swapRemove_of_lt hlt, swapRemove_of_lt (by rw [length_append]; omega),
      set_append_right _ _ (by omega), Nat.add_sub_cancel]
  · have hjeq : j = B'.length := by
      simp at hj
      omega
    rw [hjeq, swapRemove_last, Nat.add_comm, ← length_append, swapRemove_last]

/-- A deletion of a key without an older entry takes an entry of the batch, if there is one. -/
lemma Layered.deleteKey_batch (key : K)
    (hM : ∀ e ∈ M, (key == e.1) = false) :
    (∃ idx' e b', idx.deleteKey cap hash key = some (idx', true) ∧ (key == e.1) = true ∧
        b = e ::ₘ b' ∧ Layered cap hash idx' older M b') ∨
      idx.deleteKey cap hash key = some (idx, false) ∧ ∀ e ∈ b, (key == e.1) = false := by
  obtain ⟨chains, A, B, free, hrep, rfl, rfl, holder⟩ := h
  obtain ⟨i, hslot⟩ : ∃ i, getPrimarySlotIdForHash idx.indexHeader (hash key) = i := ⟨_, rfl⟩
  have hi := hrep.slot_lt hslot
  -- no older entry has the key
  have hA : (A i).findIdx? (Matches key fun _ => true) = none := by
    refine findIdx?_eq_none_iff.mpr fun e he => ?_
    simp [Matches, hM e (mem_content.mpr ⟨i, hi, he⟩)]
  have hchain : (A i ++ B i).findIdx? (Matches key fun _ => true) =
      ((B i).findIdx? (Matches key fun _ => true)).map fun j => j + (A i).length := by
    rw [findIdx?_append, hA, Option.none_or]
  cases hidx : (B i).findIdx? (Matches key fun _ => true) with
  | none =>
    rw [hidx] at hchain
    refine .inr ⟨deleteKey_missing heq hrep hslot hchain, fun e he => ?_⟩
    by_contra hkey
    rw [Bool.not_eq_false] at hkey
    have hmem : e ∈ content (fun i => A i ++ B i) idx.pSlots.length := by
      rw [content_append]
      exact mem_add.mpr (.inr he)
    have hfalse := hrep.forall_chain heq hslot (findIdx?_eq_none_iff.mp hchain) e hmem hkey
    exact absurd hfalse (by simp)
  | some j =>
    rw [hidx] at hchain
    obtain ⟨hj, hmatch, -⟩ := findIdx?_eq_some_iff_getElem.mp hidx
    obtain ⟨idx', chains', free', hrun, hrep', hlen, -⟩ :=
      deleteKey_found hcap heq hrep hslot hchain
    have hheader' := hrep'.header
    rw [hlen] at hheader'
    rw [swapRemove_append _ _ hj, ← funext (apply_update (fun _ x => _ ++ x) B _ _)] at hrep'
    have hperm : (B i : Multiset (K × ℕ)) = (B i)[j] ::ₘ swapRemove (B i) j :=
      coe_eq_coe.mpr (swapRemove_perm (getElem?_eq_getElem hj))
    refine .inl ⟨idx', (B i)[j], content (update B i (swapRemove (B i) j))
      idx.pSlots.length, hrun, by simpa [Matches] using hmatch, ?_, chains', A, _, free', hrep',
      by rw [hlen], by rw [hlen], fun x => ?_⟩
    · rw [content_update hi, content_eq_add hi, hperm, cons_add]
    · rw [hrep.header.primarySlot_congr hheader']
      exact holder x

/-- A deletion of a key with an older entry takes an older entry. -/
lemma Layered.deleteKey_older (key : K)
    (hM : ∃ e ∈ M, (key == e.1) = true) :
    ∃ idx' chains' ents' free' e M', idx.deleteKey cap hash key = some (idx', true) ∧
      Rep cap hash idx' chains' ents' free' ∧ M = e ::ₘ M' ∧
      content ents' idx'.pSlots.length = M' + b := by
  obtain ⟨chains, A, B, free, hrep, rfl, rfl, -⟩ := h
  obtain ⟨i, hslot⟩ : ∃ i, getPrimarySlotIdForHash idx.indexHeader (hash key) = i := ⟨_, rfl⟩
  have hi := hrep.slot_lt hslot
  -- the first entry of the chain with the key is an older one
  obtain ⟨j, hidx⟩ : ∃ j, (A i).findIdx? (Matches key fun _ => true) = some j := by
    cases hidx : (A i).findIdx? (Matches key fun _ => true) with
    | some j => exact ⟨j, rfl⟩
    | none =>
      obtain ⟨e, he, hkey⟩ := hM
      obtain ⟨k, hk, hek⟩ := mem_content.mp he
      have hplaced := hrep.placed k hk e (mem_append_left _ hek)
      rw [← heq key e.1 hkey] at hplaced
      have hfalse := findIdx?_eq_none_iff.mp hidx e (hslot.symm.trans hplaced ▸ hek)
      simp [Matches, hkey] at hfalse
  obtain ⟨hj, -, -⟩ := findIdx?_eq_some_iff_getElem.mp hidx
  have hchain : (A i ++ B i).findIdx? (Matches key fun _ => true) = some j := by
    rw [findIdx?_append, hidx, Option.some_or]
  obtain ⟨idx', chains', free', hrun, hrep', hlen, -⟩ := deleteKey_found hcap heq hrep hslot hchain
  have hget : (A i ++ B i)[j]? = some (A i)[j] := by
    rw [getElem?_append_left hj, getElem?_eq_getElem hj]
  have hperm : ((A i ++ B i : List (K × ℕ)) : Multiset (K × ℕ)) =
      (A i)[j] ::ₘ swapRemove (A i ++ B i) j := coe_eq_coe.mpr (swapRemove_perm hget)
  have hA : (A i : Multiset (K × ℕ)) = (A i)[j] ::ₘ ((A i).eraseIdx j : Multiset (K × ℕ)) :=
    coe_eq_coe.mpr (getElem_cons_eraseIdx_perm hj).symm
  refine ⟨idx', chains', _, free', (A i)[j], content (update A i ((A i).eraseIdx j))
    idx.pSlots.length, hrun, hrep', ?_, ?_⟩
  · rw [content_update hi, content_eq_add hi, hA, cons_add]
  · have hall := content_append A B idx.pSlots.length
    rw [content_eq_add hi] at hall
    have hcons : (A i)[j] ::ₘ content (update (fun i => A i ++ B i) i
        (swapRemove (A i ++ B i) j)) idx.pSlots.length =
        (A i)[j] ::ₘ (content (update A i ((A i).eraseIdx j)) idx.pSlots.length +
          content B idx.pSlots.length) := by
      rw [content_update hi, ← cons_add, ← hperm, hall, ← cons_add,
        content_update hi, ← cons_add, ← hA, ← content_eq_add hi]
    rw [hlen]
    exact (Multiset.cons_inj_right _).mp hcons

end

section

variable (hcap : 4 ≤ cap) (heq : ∀ a b : K, (a == b) = true → hash a = hash b)

include hcap heq

lemma Layered.append (key : K) (value : ℕ)
    (isVisible : ℕ → Bool) :
    ∃ idx' inserted, idx.append cap hash key value isVisible = some (idx', inserted) ∧
      Layered cap hash idx' older M (b + if inserted then {(key, value)} else 0) := by
  obtain ⟨idx1, hrun1, h1⟩ := h.reserve hcap (idx.indexHeader.numEntries + 1)
  obtain ⟨idx', inserted, hrun, h'⟩ := h1.appendInternal (by omega) heq key value isVisible
  refine ⟨idx', inserted, ?_, h'⟩
  rw [InMemHashIndex.append, hrun1]
  exact hrun

omit h in
/-- Appends add to the new layer. -/
lemma Layered.appendEntries (isVisible : ℕ → Bool) : ∀ (buffer : List (K × ℕ))
    {idx : InMemHashIndex K} {b : Multiset (K × ℕ)}, Layered cap hash idx older M b →
    ∃ idx' n c, appendEntries cap hash isVisible buffer idx = some (idx', n) ∧
      c ≤ (buffer : Multiset (K × ℕ)) ∧ Layered cap hash idx' older M (b + c) := by
  intro buffer
  induction buffer with
  | nil => exact fun h => ⟨_, 0, 0, rfl, le_rfl, by simpa using h⟩
  | cons e buffer ih =>
    intro idx b h
    obtain ⟨key, value⟩ := e
    obtain ⟨idx1, inserted, hrun1, h1⟩ := h.appendInternal (by omega) heq key value isVisible
    rw [InMemHashIndex.appendEntries, hrun1]
    cases inserted with
    | false => exact ⟨idx1, 0, 0, rfl, zero_le _, h1⟩
    | true =>
      obtain ⟨idx', n, c, hrun, hc, h'⟩ := ih h1
      refine ⟨idx', n + 1, (key, value) ::ₘ c, ?_, cons_le_cons _ hc, ?_⟩
      · show (InMemHashIndex.appendEntries cap hash isVisible buffer idx1).bind _ = _
        rw [hrun]
        rfl
      · rw [← singleton_add, ← add_assoc]
        exact h'

/-- A bulk append adds to the new layer. -/
lemma Layered.appendBuffer (buffer : List (K × ℕ))
    (bufferOffset : ℕ) (isVisible : ℕ → Bool) :
    ∃ idx' n c, idx.appendBuffer cap hash buffer bufferOffset isVisible = some (idx', n) ∧
      c ≤ (buffer.drop bufferOffset : Multiset (K × ℕ)) ∧
      Layered cap hash idx' older M (b + c) := by
  obtain ⟨idx1, hrun1, h1⟩ := h.reserve hcap
    (idx.indexHeader.numEntries + buffer.length - bufferOffset)
  obtain ⟨idx', n, c, hrun, hc, h'⟩ :=
    h1.appendEntries hcap heq isVisible (buffer.drop bufferOffset)
  refine ⟨idx', n, c, ?_, hc, h'⟩
  rw [InMemHashIndex.appendBuffer, hrun1]
  exact hrun

end

end InMemHashIndex

end Ladybug
