import Ladybug.Index.PrimaryKeyIndex
import Ladybug.Index.Equiv.LayeredIndex
import Ladybug.Lib.Fold
import Mathlib.Algebra.Order.BigOperators.Group.Finset

/-!
# Batches of insertions in the primary key index

* `PrimaryKeyIndex.Layered`: the older entries `M` and the entries `b` of a batch, by hash index.
* `Layered.runInserts`: the insertions of a batch return and only add to `b`.
* `Layered.discardLocal_batch` and `Layered.discardLocal_older`: what a discarded key takes away.
-/

namespace Ladybug

namespace PrimaryKeyIndex

open InMemHashIndex Function Multiset HashIndex PrimaryKeyIndex

variable {K : Type}

/-- The multisets of all hash indexes together. -/
def total (b : ℕ → Multiset (K × ℕ)) : Multiset (K × ℕ) :=
  ∑ pos ∈ Finset.range numHashIndexes, b pos

variable {pos : ℕ} {e : K × ℕ} {b : ℕ → Multiset (K × ℕ)} {hashIndex : HashIndex K}
  {c : Multiset (K × ℕ)}

lemma mem_total : e ∈ total b ↔ ∃ pos < numHashIndexes, e ∈ b pos := by
  simp [total, mem_sum]

/-- Adding to one partition adds to the total. -/
lemma total_update (hpos : pos < numHashIndexes)
    (c : Multiset (K × ℕ)) : total (update b pos (b pos + c)) = total b + c := by
  have hmem := Finset.mem_range.mpr hpos
  have hrest : ∀ j ∈ (Finset.range numHashIndexes).erase pos, update b pos (b pos + c) j = b j :=
    fun j hj => update_of_ne (Finset.ne_of_mem_erase hj) _ _
  rw [total, total, ← Finset.add_sum_erase _ _ hmem, Finset.sum_congr rfl hrest,
    update_self, ← Finset.add_sum_erase _ _ hmem, add_right_comm]

lemma total_cons (hpos : pos < numHashIndexes) (hb : b pos = e ::ₘ c) :
    total b = e ::ₘ total (update b pos c) := by
  have hself : update (update b pos c) pos (update b pos c pos + {e}) = b := by
    rw [update_idem, update_self, add_comm, singleton_add, ← hb, update_eq_self]
  have hadd := total_update (b := update b pos c) hpos {e}
  rw [hself] at hadd
  rw [hadd, add_comm, singleton_add]

lemma total_add (b c : ℕ → Multiset (K × ℕ)) :
    total (fun pos => b pos + c pos) = total b + total c := Finset.sum_add_distrib

/-- The local entries of the index. -/
def entries (idx : PrimaryKeyIndex K) : Multiset (K × ℕ) :=
  total fun pos => (idx.hashIndices pos).localInsertions.entries

/-- The invariant of the index: every entry is in the hash index that its hash gives. -/
def Rep (cap : ℕ) (hash : K → ℕ) (idx : PrimaryKeyIndex K) : Prop :=
  ∀ pos < numHashIndexes, ∃ chains ents free,
    InMemHashIndex.Rep cap hash (idx.hashIndices pos).localInsertions chains ents free ∧
    ∀ e ∈ content ents (idx.hashIndices pos).localInsertions.pSlots.length,
      getHashIndexPosition (hash e.1) = pos

lemma entries_setHashIndex (idx : PrimaryKeyIndex K) (pos : ℕ) (hashIndex : HashIndex K) :
    (idx.setHashIndex pos hashIndex).entries =
      total (update (fun p => (idx.hashIndices p).localInsertions.entries) pos
        hashIndex.localInsertions.entries) := by
  refine congrArg total (funext fun p => ?_)
  by_cases hp : p = pos
  · subst hp
    rw [setHashIndex_self, update_self]
  · rw [setHashIndex_of_ne _ hp, update_of_ne hp]

/-- Partitions change one at a time. -/
lemma Rep.set {cap : ℕ} {hash : K → ℕ} {idx : PrimaryKeyIndex K} (h : Rep cap hash idx)
    {chains : ℕ → List ℕ} {ents : ℕ → List (K × ℕ)}
    {free : List ℕ} (hrep : InMemHashIndex.Rep cap hash hashIndex.localInsertions chains ents free)
    (hplaced : ∀ e ∈ content ents hashIndex.localInsertions.pSlots.length,
      getHashIndexPosition (hash e.1) = pos) : Rep cap hash (idx.setHashIndex pos hashIndex) := by
  intro p hp
  by_cases hpp : p = pos
  · subst hpp
    rw [setHashIndex_self]
    exact ⟨chains, ents, free, hrep, hplaced⟩
  · rw [setHashIndex_of_ne _ hpp]
    exact h p hp

/-- The entries `M` from before the batch, in front of the entries `b` of the batch.  `base` is the
index before the batch. -/
structure Layered (cap : ℕ) (hash : K → ℕ) (base : PrimaryKeyIndex K)
    (older : ℕ → ℕ → List (K × ℕ)) (M b : ℕ → Multiset (K × ℕ)) (idx : PrimaryKeyIndex K) :
    Prop where
  layered : ∀ pos < numHashIndexes,
    (idx.hashIndices pos).localInsertions.Layered cap hash (older pos) (M pos) (b pos)
  placed : ∀ pos < numHashIndexes, ∀ e ∈ M pos + b pos, getHashIndexPosition (hash e.1) = pos
  persistent : ∀ pos, (idx.hashIndices pos).lookupInPersistentIndex =
    (base.hashIndices pos).lookupInPersistentIndex

variable {cap : ℕ} {hash : K → ℕ} {base idx : PrimaryKeyIndex K} {older : ℕ → ℕ → List (K × ℕ)}
  {M : ℕ → Multiset (K × ℕ)}

/-- At first, all entries are older ones. -/
lemma Rep.layered (h : Rep cap hash base) :
    ∃ older M, Layered cap hash base older M (fun _ => 0) base ∧ total M = base.entries := by
  choose! chains ents free hrep hplaced using h
  refine ⟨_, fun pos => content (ents pos) (base.hashIndices pos).localInsertions.pSlots.length,
    ⟨fun pos hpos => .of_rep (hrep pos hpos), fun pos hpos e he => ?_, fun _ => rfl⟩, ?_⟩
  · rw [add_zero] at he
    exact hplaced pos hpos e he
  · refine Finset.sum_congr rfl fun pos hpos => ?_
    rw [entries_eq (hrep pos (Finset.mem_range.mp hpos))]

namespace Layered

variable (h : Layered cap hash base older M b idx)

include h

lemma entries_eq : idx.entries = total M + total b := by
  rw [total, total, ← Finset.sum_add_distrib]
  exact Finset.sum_congr rfl fun pos hpos => (h.layered pos (Finset.mem_range.mp hpos)).entries_eq

lemma rep : Rep cap hash idx := by
  intro pos hpos
  obtain ⟨chains, A, B, free, hrep, hM, hb, -⟩ := h.layered pos hpos
  refine ⟨chains, _, free, hrep, fun e he => h.placed pos hpos e ?_⟩
  rwa [content_append, hM, hb] at he

lemma set (hpos : pos < numHashIndexes)
    (hlayered : hashIndex.localInsertions.Layered cap hash (older pos) (M pos) c)
    (hplaced : ∀ e ∈ c, getHashIndexPosition (hash e.1) = pos)
    (hpersistent : hashIndex.lookupInPersistentIndex =
      (idx.hashIndices pos).lookupInPersistentIndex) :
    Layered cap hash base older M (update b pos c) (idx.setHashIndex pos hashIndex) := by
  refine ⟨fun j hj => ?_, fun j hj e he => ?_, fun j => ?_⟩
  · by_cases hjp : j = pos
    · subst hjp
      rwa [setHashIndex_self, update_self]
    · rw [setHashIndex_of_ne _ hjp, update_of_ne hjp]
      exact h.layered j hj
  · by_cases hjp : j = pos
    · subst hjp
      rw [update_self] at he
      rcases mem_add.mp he with he | he
      · exact h.placed j hj e (mem_add.mpr (.inl he))
      · exact hplaced e he
    · rw [update_of_ne hjp] at he
      exact h.placed j hj e he
  · by_cases hjp : j = pos
    · subst hjp
      rw [setHashIndex_self, hpersistent, h.persistent]
    · rw [setHashIndex_of_ne _ hjp, h.persistent]

variable [Inhabited K] [BEq K] (hcap : 4 ≤ cap) (heq : ∀ a b : K, (a == b) = true → hash a = hash b)

include hcap heq

/-! ### The insertions -/

lemma insertInternal (key : K) (value : ℕ)
    (isVisible : ℕ → Bool) (hpos : pos < numHashIndexes) :
    ∃ hashIndex inserted,
      (idx.hashIndices pos).insertInternal cap hash key value isVisible =
        some (hashIndex, inserted) ∧
      hashIndex.localInsertions.Layered cap hash (older pos) (M pos)
        (b pos + if inserted then {(key, value)} else 0) ∧
      hashIndex.lookupInPersistentIndex = (idx.hashIndices pos).lookupInPersistentIndex := by
  have hl := h.layered pos hpos
  have hsame : (idx.hashIndices pos).localInsertions.Layered cap hash (older pos) (M pos)
      (b pos + if false then {(key, value)} else 0) := by simpa using hl
  obtain ⟨chains, ents, free, hrep, -⟩ := h.rep pos hpos
  obtain ⟨r, hlookup, -⟩ := lookup_spec (by omega) heq hrep.entries key isVisible
  rw [HashIndex.insertInternal, hlookup]
  cases r with
  | some v => exact ⟨_, false, rfl, hsame, rfl⟩
  | none =>
    by_cases hp : ((idx.hashIndices pos).lookupInPersistentIndex key isVisible).isSome
    · exact ⟨_, false, if_pos hp, hsame, rfl⟩
    · obtain ⟨l, inserted, hrun, hl'⟩ := hl.append hcap heq key value isVisible
      refine ⟨{ idx.hashIndices pos with localInsertions := l }, inserted, (if_neg hp).trans ?_,
        hl', rfl⟩
      rw [hrun]
      rfl

omit h in
/-- The loop adds new entries over the older ones. -/
lemma appendLoop (isVisible : ℕ → Bool) : ∀ (buffer : List (K × ℕ))
    {hashIndex : HashIndex K} {c : Multiset (K × ℕ)},
    hashIndex.localInsertions.Layered cap hash (older pos) (M pos) c → ∀ i n,
    ∃ hashIndex' m d, appendLoop cap hash isVisible buffer hashIndex i n = some (hashIndex', m) ∧
      d ≤ (buffer : Multiset (K × ℕ)) ∧
      hashIndex'.localInsertions.Layered cap hash (older pos) (M pos) (c + d) ∧
      hashIndex'.lookupInPersistentIndex = hashIndex.lookupInPersistentIndex := by
  intro buffer
  induction buffer with
  | nil => exact fun h i n => ⟨_, n, 0, rfl, le_rfl, by simpa using h, rfl⟩
  | cons e buffer ih =>
    intro hashIndex c h i n
    obtain ⟨key, value⟩ := e
    by_cases hp : (hashIndex.lookupInPersistentIndex key isVisible).isSome
    · exact ⟨_, i, 0, if_pos hp, zero_le _, by simpa using h, rfl⟩
    · obtain ⟨l, inserted, hrun1, h1⟩ := h.append hcap heq key value isVisible
      have hnext : ({ hashIndex with localInsertions := l } : HashIndex K).localInsertions.Layered
        cap hash (older pos) (M pos) _ := h1
      obtain ⟨hashIndex', m, d, hrun, hd, h', hpersistent⟩ := ih hnext (i + 1) (n + inserted.toNat)
      refine ⟨hashIndex', m, (if inserted then {(key, value)} else 0) + d, ?_, ?_, ?_, hpersistent⟩
      · refine (if_neg hp).trans ?_
        rw [hrun1]
        exact hrun
      · rw [← cons_coe, ← singleton_add]
        refine add_le_add ?_ hd
        cases inserted
        · exact zero_le _
        · exact le_rfl
      · rw [← add_assoc]
        exact h'

/-- A bulk append adds entries of its buffer. -/
lemma appendNoLock (buffer : List (K × ℕ))
    (bufferOffset : ℕ) (isVisible : ℕ → Bool) (hpos : pos < numHashIndexes) :
    ∃ hashIndex n d,
      (idx.hashIndices pos).appendNoLock cap hash buffer bufferOffset isVisible =
        some (hashIndex, n) ∧
      d ≤ (buffer.drop bufferOffset : Multiset (K × ℕ)) ∧
      hashIndex.localInsertions.Layered cap hash (older pos) (M pos) (b pos + d) ∧
      hashIndex.lookupInPersistentIndex = (idx.hashIndices pos).lookupInPersistentIndex := by
  have hl := h.layered pos hpos
  rw [HashIndex.appendNoLock]
  split_ifs with hentries
  · obtain ⟨l, hrun1, h1⟩ := hl.reserve hcap
      ((idx.hashIndices pos).localInsertions.indexHeader.numEntries +
        (buffer.length - bufferOffset))
    have hnext : ({ idx.hashIndices pos with localInsertions := l } :
      HashIndex K).localInsertions.Layered cap hash (older pos) (M pos) _ := h1
    obtain ⟨hashIndex, n, d, hrun, hd, h', hpersistent⟩ := appendLoop hcap heq isVisible
      (buffer.drop bufferOffset) hnext 0 0
    refine ⟨hashIndex, n, d, ?_, hd, h', hpersistent⟩
    rw [hrun1]
    exact hrun
  · obtain ⟨l, n, d, hrun, hd, h'⟩ := hl.appendBuffer hcap heq buffer bufferOffset isVisible
    refine ⟨{ idx.hashIndices pos with localInsertions := l }, n, d, ?_, hd, h', rfl⟩
    rw [hrun]
    rfl

/-- One call adds entries of its own. -/
lemma call (call : InsertCall hash) :
    ∃ idx' b' d, call.run cap idx = some idx' ∧ d ≤ (call.entries : Multiset (K × ℕ)) ∧
      Layered cap hash base older M b' idx' ∧ total b' = total b + d := by
  cases call with
  | insert key value isVisible =>
    have hpos := getHashIndexPosition_lt (hash key)
    obtain ⟨hashIndex, inserted, hrun, hl, hp⟩ := h.insertInternal hcap heq key value isVisible hpos
    refine ⟨_, _, _, ?_, ?_, h.set hpos hl ?_ hp, total_update hpos _⟩
    · rw [InsertCall.run, insert, getTypedHashIndex, hrun]
      rfl
    · cases inserted
      · exact zero_le _
      · exact le_rfl
    · intro e he
      rcases mem_add.mp he with he | he
      · exact h.placed _ hpos e (mem_add.mpr (.inr he))
      · cases inserted
        · simp at he
        · rw [if_pos rfl, mem_singleton] at he
          rw [he]
  | append buffer bufferOffset indexPos isVisible inBuffer hpos positions =>
    obtain ⟨hashIndex, n, d, hrun, hd, hl, hp⟩ :=
      h.appendNoLock hcap heq buffer bufferOffset isVisible hpos
    refine ⟨_, _, d, ?_, hd, h.set hpos hl ?_ hp, total_update hpos d⟩
    · rw [InsertCall.run, appendWithIndexPos, hrun]
      rfl
    · intro e he
      rcases mem_add.mp he with he | he
      · exact h.placed _ hpos e (mem_add.mpr (.inr he))
      · exact positions e (List.mem_of_mem_drop (mem_coe.mp (mem_of_le hd he)))

omit h in
/-- The calls add entries over the older ones. -/
lemma runInserts : ∀ (calls : List (InsertCall hash)) {b : ℕ → Multiset (K × ℕ)}
    {idx : PrimaryKeyIndex K}, Layered cap hash base older M b idx →
    ∃ idx' b' d, idx.runInserts cap hash calls = some idx' ∧
      d ≤ (calls.flatMap InsertCall.entries : Multiset (K × ℕ)) ∧
      Layered cap hash base older M b' idx' ∧ total b' = total b + d := by
  intro calls
  induction calls with
  | nil => exact fun h => ⟨_, _, 0, rfl, le_rfl, h, (add_zero _).symm⟩
  | cons c calls ih =>
    intro b idx h
    obtain ⟨idx1, b1, d1, hrun1, hd1, h1, htotal1⟩ := h.call hcap heq c
    obtain ⟨idx', b', d, hrun, hd, h', htotal⟩ := ih h1
    refine ⟨idx', b', d1 + d, ?_, ?_, h', ?_⟩
    · exact Fold.foldlM_cons_some.mpr ⟨idx1, hrun1, hrun⟩
    · rw [List.flatMap_cons, ← coe_add]
      exact add_le_add hd1 hd
    · rw [htotal, htotal1, add_assoc]

/-! ### Lookups -/

omit [Inhabited K] hcap in
/-- A key's entries are in its partition. -/
lemma mem_of_key {key : K}
    (hpos : pos < numHashIndexes) (he : e ∈ M pos + b pos) (hkey : (key == e.1) = true) :
    getHashIndexPosition (hash key) = pos := by
  rw [heq key e.1 hkey]
  exact h.placed pos hpos e he

/-- A key without an entry of the batch is looked up as before the batch. -/
lemma lookup
    (hbase : Layered cap hash base older M (fun _ => 0) base) (key : K) (isVisible : ℕ → Bool)
    (hnone : ∀ e ∈ total b, (key == e.1) = false) :
    idx.lookup cap hash key isVisible = base.lookup cap hash key isVisible := by
  have hpos := getHashIndexPosition_lt (hash key)
  have hl := (h.layered _ hpos).lookup (by omega) heq key isVisible
    fun e he => hnone e (mem_total.mpr ⟨_, hpos, he⟩)
  have hl0 := (hbase.layered _ hpos).lookup (by omega) heq key isVisible (by simp)
  rw [PrimaryKeyIndex.lookup, PrimaryKeyIndex.lookup, HashIndex.lookupInternal,
    lookupInternal, getTypedHashIndex, getTypedHashIndex, hl, hl0, h.persistent]

/-! ### Discarded keys -/

/-- A discarded key without an older entry takes an entry of the batch, if there is one. -/
lemma discardLocal_batch (key : K)
    (hM : ∀ e ∈ total M, (key == e.1) = false) :
    ∃ idx' d b', idx.discardLocal cap hash key = some (idx', d) ∧
      Layered cap hash base older M b' idx' ∧
      ((∃ e, (key == e.1) = true ∧ total b = e ::ₘ total b') ∨
        total b' = total b ∧ ∀ e ∈ total b, (key == e.1) = false) := by
  have hpos := getHashIndexPosition_lt (hash key)
  set pos := getHashIndexPosition (hash key) with hpos_def
  have hMpos : ∀ e ∈ M pos, (key == e.1) = false := fun e he => hM e (mem_total.mpr ⟨pos, hpos, he⟩)
  rcases (h.layered pos hpos).deleteKey_batch (by omega) heq key hMpos with
    ⟨l, e, c, hrun, hkey, hb, hl⟩ | ⟨hrun, hnone⟩
  · have hnext : ({ idx.hashIndices pos with localInsertions := l } :
      HashIndex K).localInsertions.Layered cap hash (older pos) (M pos) c := hl
    refine ⟨_, true, _, ?_, h.set hpos hnext ?_ rfl, .inl ⟨e, hkey, total_cons hpos hb⟩⟩
    · rw [PrimaryKeyIndex.discardLocal, getTypedHashIndex, HashIndex.discardLocal, hrun]
      rfl
    · intro x hx
      refine h.placed pos hpos x (mem_add.mpr (.inr ?_))
      rw [hb]
      exact mem_cons_of_mem hx
  · refine ⟨_, false, _, ?_, h.set hpos (h.layered pos hpos) ?_ rfl, .inr ⟨?_, ?_⟩⟩
    · rw [PrimaryKeyIndex.discardLocal, getTypedHashIndex, HashIndex.discardLocal, hrun]
      rfl
    · exact fun x hx => h.placed pos hpos x (mem_add.mpr (.inr hx))
    · rw [update_eq_self]
    · intro e he
      obtain ⟨p, hp, hep⟩ := mem_total.mp he
      by_contra hkey
      rw [Bool.not_eq_false] at hkey
      have hp' := h.mem_of_key heq hp (mem_add.mpr (.inr hep)) hkey
      rw [← hp', ← hpos_def] at hep
      exact absurd (hnone e hep) (by simp [hkey])

/-- Discarding an older key removes one of its entries. -/
lemma discardLocal_older (key : K)
    (hM : ∃ e ∈ total M, (key == e.1) = true) :
    ∃ idx' d e M', idx.discardLocal cap hash key = some (idx', d) ∧ Rep cap hash idx' ∧
      total M = e ::ₘ M' ∧ idx'.entries = M' + total b := by
  have hpos := getHashIndexPosition_lt (hash key)
  set pos := getHashIndexPosition (hash key) with hpos_def
  obtain ⟨x, hx, hxkey⟩ := hM
  obtain ⟨p, hp, hxp⟩ := mem_total.mp hx
  have hp' := h.mem_of_key heq hp (mem_add.mpr (.inl hxp)) hxkey
  rw [← hp', ← hpos_def] at hxp
  obtain ⟨l, chains', ents', free', e, c, hrun, hrep, hMpos, hcontent⟩ :=
    (h.layered pos hpos).deleteKey_older (by omega) heq key ⟨x, hxp, hxkey⟩
  have hM' : total M = e ::ₘ total (update M pos c) := total_cons hpos hMpos
  refine ⟨idx.setHashIndex pos { idx.hashIndices pos with localInsertions := l }, true, e,
    total (update M pos c), ?_, h.rep.set hrep fun y hy => ?_, hM', ?_⟩
  · rw [PrimaryKeyIndex.discardLocal, getTypedHashIndex, HashIndex.discardLocal, hrun]
    rfl
  · have hy' : y ∈ M pos + b pos := by
      rw [hMpos, cons_add]
      exact mem_cons_of_mem (hcontent ▸ hy)
    exact h.placed pos hpos y hy'
  · have hl : l.entries = c + b pos := (InMemHashIndex.entries_eq hrep).trans hcontent
    rw [entries_setHashIndex, ← total_add, hl]
    refine Finset.sum_congr rfl fun p hp => ?_
    show _ = update M pos c p + b p
    by_cases hpp : p = pos
    · subst hpp
      rw [update_self, update_self]
    · rw [update_of_ne hpp, update_of_ne hpp]
      exact (h.layered p (Finset.mem_range.mp hp)).entries_eq

end Layered

lemma Rep.discardLocal [Inhabited K] [BEq K] (hcap : 0 < cap)
    (heq : ∀ a b : K, (a == b) = true → hash a = hash b) (h : Rep cap hash idx) (key : K) :
    ∃ idx' d, idx.discardLocal cap hash key = some (idx', d) ∧ Rep cap hash idx' ∧
      idx'.entries ≤ idx.entries := by
  have hpos := getHashIndexPosition_lt (hash key)
  set pos := getHashIndexPosition (hash key) with hpos_def
  obtain ⟨chains, ents, free, hrep, hplaced⟩ := h pos hpos
  obtain ⟨l, d, _, hrun, ⟨chains', ents', free', hrep', rfl⟩, hdelete, -⟩ :=
    deleteKey_spec hcap heq hrep.entries key
  have hle : content ents' l.pSlots.length ≤
      content ents (idx.hashIndices pos).localInsertions.pSlots.length := by
    cases d with
    | false => exact hdelete.2.le
    | true =>
      obtain ⟨e, -, he⟩ := hdelete
      rw [he]
      exact le_cons_self _ _
  refine ⟨idx.setHashIndex pos { idx.hashIndices pos with localInsertions := l }, d, ?_,
    h.set hrep' fun e he => hplaced e (mem_of_le hle he), ?_⟩
  · rw [PrimaryKeyIndex.discardLocal, getTypedHashIndex, HashIndex.discardLocal, hrun]
    rfl
  · rw [entries_setHashIndex]
    refine Finset.sum_le_sum fun p _ => ?_
    by_cases hpp : p = pos
    · subst hpp
      rw [update_self, entries_eq hrep', entries_eq hrep]
      exact hle
    · rw [update_of_ne hpp]

end PrimaryKeyIndex

end Ladybug
