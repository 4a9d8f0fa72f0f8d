import Ladybug.Index.HashIndexSlot

/-!
# Linear hashing

`HeaderRep h n` says that header `h` addresses exactly the primary slots below `n`. Splitting the
slot `nextSplitSlotId` changes the addressing of its own hashes alone; `Addresses` is the law of
linear hashing that follows.
-/

namespace Ladybug

open HashIndexUtils

lemma HashIndexHeader.numEntries_incrementNextSplitSlotId (h : HashIndexHeader) :
    h.incrementNextSplitSlotId.numEntries = h.numEntries := by
  unfold incrementNextSplitSlotId
  split_ifs <;> rfl

/-- The law of linear hashing: the header addresses only the `n` primary slots that its level and
its next split ask for, and a split moves a hash only from the slot that is split to a new one. -/
structure HashIndexHeader.Addresses (h : HashIndexHeader) (n : ℕ) : Prop where
  size : n = 2 ^ h.currentLevel + h.nextSplitSlotId
  lt : ∀ hash, getPrimarySlotIdForHash h hash < n
  split : ∀ hash, getPrimarySlotIdForHash h.incrementNextSplitSlotId hash ≠
      getPrimarySlotIdForHash h hash →
    getPrimarySlotIdForHash h hash = h.nextSplitSlotId ∧
      getPrimarySlotIdForHash h.incrementNextSplitSlotId hash = n

/-- The header addresses the primary slots below `n`. -/
structure HeaderRep (h : HashIndexHeader) (n : ℕ) : Prop where
  levelHashMask : h.levelHashMask = 2 ^ h.currentLevel - 1
  higherLevelHashMask : h.higherLevelHashMask = 2 ^ (h.currentLevel + 1) - 1
  nextSplit_lt : h.nextSplitSlotId < 2 ^ h.currentLevel
  size : n = 2 ^ h.currentLevel + h.nextSplitSlotId

namespace HeaderRep

variable {h : HashIndexHeader} {n hash : ℕ}

/-- Slots already split are addressed by one more bit. -/
lemma primarySlot_eq (hr : HeaderRep h n) (hash : ℕ) :
    getPrimarySlotIdForHash h hash =
      if hash % 2 ^ h.currentLevel < h.nextSplitSlotId then hash % 2 ^ (h.currentLevel + 1)
      else hash % 2 ^ h.currentLevel := by
  rw [getPrimarySlotIdForHash, hr.levelHashMask, hr.higherLevelHashMask,
    Nat.and_two_pow_sub_one_eq_mod, Nat.and_two_pow_sub_one_eq_mod]

/-- Reading one bit more leaves the slot or moves it up by the number of slots of the level. -/
lemma mod_two_pow_succ_cases (hash level : ℕ) :
    hash % 2 ^ (level + 1) = hash % 2 ^ level ∨
      hash % 2 ^ (level + 1) = hash % 2 ^ level + 2 ^ level := by
  rw [Nat.mod_pow_succ]
  rcases Nat.mod_two_eq_zero_or_one (hash / 2 ^ level) with hbit | hbit
  · left
    rw [hbit, Nat.mul_zero, Nat.add_zero]
  · right
    rw [hbit, Nat.mul_one]

section

variable (hr : HeaderRep h n) {h' : HashIndexHeader}

include hr

/-- Hashes address the primary slots. -/
lemma getPrimarySlotIdForHash_lt (hash : ℕ) : getPrimarySlotIdForHash h hash < n := by
  have hsize := hr.size
  rw [hr.primarySlot_eq]
  split_ifs with hlt
  · rcases mod_two_pow_succ_cases hash h.currentLevel with hm | hm <;> omega
  · omega

lemma currentLevel_le (hr' : HeaderRep h' n) : h.currentLevel ≤ h'.currentLevel := by
  by_contra hlt
  have hpow : 2 ^ (h'.currentLevel + 1) ≤ 2 ^ h.currentLevel :=
    Nat.pow_le_pow_right (by decide) (by omega)
  have hsize := hr.size
  have hsize' := hr'.size
  have hlt' := hr'.nextSplit_lt
  rw [Nat.pow_succ] at hpow
  omega

/-- The number of slots determines the addresses. -/
lemma primarySlot_congr (hr' : HeaderRep h' n)
    (hash : ℕ) : getPrimarySlotIdForHash h' hash = getPrimarySlotIdForHash h hash := by
  have hlevel : h'.currentLevel = h.currentLevel :=
    (hr'.currentLevel_le hr).antisymm (hr.currentLevel_le hr')
  have hnext : h'.nextSplitSlotId = h.nextSplitSlotId := by
    have hsize := hr.size
    have hsize' := hr'.size
    rw [hlevel] at hsize'
    omega
  rw [hr.primarySlot_eq, hr'.primarySlot_eq, hlevel, hnext]

lemma nextSplit_lt_size : h.nextSplitSlotId < n := by
  have hpos := Nat.two_pow_pos h.currentLevel
  have hsize := hr.size
  omega

/-- One more slot is addressed. -/
lemma increment_rep : HeaderRep h.incrementNextSplitSlotId (n + 1) := by
  have hlt := hr.nextSplit_lt
  have hsize := hr.size
  rw [HashIndexHeader.incrementNextSplitSlotId]
  split_ifs with hnext
  · refine ⟨hr.levelHashMask, hr.higherLevelHashMask, ?_, ?_⟩
    · show h.nextSplitSlotId + 1 < 2 ^ h.currentLevel
      omega
    · show n + 1 = 2 ^ h.currentLevel + (h.nextSplitSlotId + 1)
      omega
  · refine ⟨rfl, rfl, Nat.two_pow_pos _, ?_⟩
    show n + 1 = 2 ^ (h.currentLevel + 1) + 0
    rw [Nat.pow_succ]
    omega

lemma increment_primarySlot (hash : ℕ) :
    getPrimarySlotIdForHash h.incrementNextSplitSlotId hash =
      if hash % 2 ^ h.currentLevel < h.nextSplitSlotId + 1 then hash % 2 ^ (h.currentLevel + 1)
      else hash % 2 ^ h.currentLevel := by
  rw [hr.increment_rep.primarySlot_eq, HashIndexHeader.incrementNextSplitSlotId]
  by_cases hnext : h.nextSplitSlotId < 2 ^ h.currentLevel - 1
  · rw [if_pos hnext]
  · -- the last slot of the level was split: all hashes are read at the next level
    have hall : hash % 2 ^ h.currentLevel < h.nextSplitSlotId + 1 := by omega
    rw [if_neg hnext, if_pos hall]
    exact if_neg (Nat.not_lt_zero _)

/-- Hashes of the other slots stay. -/
lemma increment_of_ne (hne : getPrimarySlotIdForHash h hash ≠ h.nextSplitSlotId) :
    getPrimarySlotIdForHash h.incrementNextSplitSlotId hash = getPrimarySlotIdForHash h hash := by
  rw [hr.increment_primarySlot]
  rw [hr.primarySlot_eq] at hne ⊢
  split_ifs at hne ⊢ <;> omega

section

variable (heq : getPrimarySlotIdForHash h hash = h.nextSplitSlotId)

include heq

/-- Hashes of the split slot are divided. -/
lemma increment_of_eq :
    getPrimarySlotIdForHash h.incrementNextSplitSlotId hash = hash &&& h.higherLevelHashMask := by
  rw [hr.increment_primarySlot, hr.higherLevelHashMask, Nat.and_two_pow_sub_one_eq_mod]
  rw [hr.primarySlot_eq] at heq
  split_ifs at heq ⊢ <;> omega

/-- A hash of the slot that is split stays there or goes to the new slot. -/
lemma higher_cases :
    hash &&& h.higherLevelHashMask = h.nextSplitSlotId ∨ hash &&& h.higherLevelHashMask = n := by
  have hsize := hr.size
  have hcases := mod_two_pow_succ_cases hash h.currentLevel
  rw [hr.primarySlot_eq] at heq
  rw [hr.higherLevelHashMask, Nat.and_two_pow_sub_one_eq_mod]
  split_ifs at heq with hlt <;> omega

end

lemma iterate_increment_rep (k : ℕ) :
    HeaderRep (HashIndexHeader.incrementNextSplitSlotId^[k] h) (n + k) := by
  induction k generalizing h n with
  | zero => exact hr
  | succ k ih =>
    rw [← Nat.add_assoc, Nat.add_right_comm]
    exact ih hr.increment_rep

lemma addresses : h.Addresses n where
  size := hr.size
  lt := hr.getPrimarySlotIdForHash_lt
  split hash hmoved := by
    have hsplit := not_imp_comm.mp hr.increment_of_ne hmoved
    rw [hr.increment_of_eq hsplit] at hmoved ⊢
    exact ⟨hsplit, (hr.higher_cases hsplit).resolve_left fun h => hmoved (h.trans hsplit.symm)⟩

end

end HeaderRep

end Ladybug
