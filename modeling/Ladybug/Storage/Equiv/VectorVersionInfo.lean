import Ladybug.Lib.Fold
import Ladybug.Storage.VersionHistory

/-!
# Correctness of `VectorVersionInfo`

The rows of one vector are described by two functions of the row, `ins` and `del`, that give the
stamp of its insertion and of its deletion. `VectorRep` says that a `VectorVersionInfo`
represents them, in whichever of its compressed states.

A commit or a rollback replays several undo records. A compressed state jumps ahead of the
records: the first of them turns the version of the whole vector. `Lag` says by how much the
rows may stay behind meanwhile.
-/

namespace Ladybug

open Mvcc SelectionVector Option
open List (range)

/-! ### Stamps and the words that hold them -/

/-- The `transaction_t` word of a stamp. -/
def versionOf : Option Stamp → ℕ
  | none => invalidTransaction
  | some (.active id) => id
  | some (.committed ts) => ts

/-- Ids and timestamps are on their own side of `startTransactionID`. -/
def StampOk : Option Stamp → Prop
  | none => True
  | some (.active id) => startTransactionID ≤ id ∧ id < invalidTransaction
  | some (.committed ts) => ts < startTransactionID

@[simp] lemma versionOf_none : versionOf none = invalidTransaction := rfl

@[simp] lemma versionOf_active (id : ℕ) : versionOf (some (.active id)) = id := rfl

@[simp] lemma versionOf_committed (ts : ℕ) : versionOf (some (.committed ts)) = ts := rfl

@[simp] lemma stampOk_none : StampOk none := trivial

variable {s : Option Stamp}

lemma versionOf_eq_invalid_iff (hs : StampOk s) : versionOf s = invalidTransaction ↔ s = none := by
  have hlt := startTransactionID_lt
  rcases s with _ | ⟨id⟩ | ⟨ts⟩
  · simp
  · simp only [versionOf_active, reduceCtorEq, iff_false]
    exact hs.2.ne
  · simp only [versionOf_committed, reduceCtorEq, iff_false]
    have : ts < startTransactionID := hs
    omega

variable {id : ℕ}

lemma versionOf_eq_id_iff (hs : StampOk s)
    (hid : StampOk (some (.active id))) : versionOf s = id ↔ s = some (.active id) := by
  obtain ⟨hle, hlt⟩ := hid
  rcases s with _ | ⟨t⟩ | ⟨ts⟩
  · simp only [versionOf_none, reduceCtorEq, iff_false]
    omega
  · simp
  · simp only [versionOf_committed, Option.some.injEq, reduceCtorEq, iff_false]
    have : ts < startTransactionID := hs
    omega

/-- Proper stamps have different versions. -/
lemma versionOf_inj {s' : Option Stamp} (hs : StampOk s) (hs' : StampOk s')
    (h : versionOf s = versionOf s') : s = s' := by
  rcases s' with _ | ⟨id⟩ | ⟨ts⟩
  · exact (versionOf_eq_invalid_iff hs).mp h
  · exact (versionOf_eq_id_iff hs hs').mp h
  · have hlt := startTransactionID_lt
    have hts : ts < startTransactionID := hs'
    rcases s with _ | ⟨id'⟩ | ⟨ts'⟩
    · simp only [versionOf_none, versionOf_committed] at h
      omega
    · have := hs.1
      simp only [versionOf_active, versionOf_committed] at h
      omega
    · simpa using h

/-- The comparison of the code on the word of a stamp is visibility of the stamp. -/
lemma check_versionOf (T : Transaction) (hs : StampOk s) :
    (decide (versionOf s = T.id) || decide (versionOf s ≤ T.startTS)) =
      visible T.id T.startTS s := by
  have hstart := startTransactionID_lt
  have hid := T.id_lt
  have hts := T.startTS_lt
  rcases s with _ | ⟨t⟩ | ⟨ts⟩
  · have h1 : invalidTransaction ≠ T.id := by omega
    have h2 : ¬invalidTransaction ≤ T.startTS := by omega
    simp [h1, h2]
  · have h2 : ¬t ≤ T.startTS := by have := hs.1; omega
    by_cases h : t = T.id <;> simp [h, h2]
  · -- the dummy id `0` is a timestamp as well, but one that everybody sees
    have h1 : ts = T.id → ts ≤ T.startTS := by
      have hlt : ts < startTransactionID := hs
      intro h
      rcases T.id_eq_or_le with h0 | h0
      · rw [h, h0]; exact Nat.zero_le _
      · omega
    by_cases h : ts ≤ T.startTS
    · simp [h]
    · have h2 : ts ≠ T.id := fun he => h (h1 he)
      simp [h, h2]

/-! ### Version arrays -/

variable {i : ℕ}

section arrays

variable {cap : ℕ}

lemma versionAt_initVersionArray (i : ℕ) :
    versionAt (initVersionArray cap) i = invalidTransaction := by
  unfold versionAt initVersionArray
  by_cases h : i < cap <;> simp [h]

lemma versionAt_setIfInBounds (a : Vector ℕ cap) (hi : i < cap) (row version : ℕ) :
    versionAt (a.setIfInBounds row version) i = if i = row then version else versionAt a i := by
  unfold versionAt
  rw [Vector.getElem?_setIfInBounds]
  by_cases h : row = i
  · simp [h, hi]
  · rw [if_neg h, if_neg (Ne.symm h)]

/-- Filling sets the rows of the segment. -/
lemma versionAt_fillVersions (a : Vector ℕ cap) (startRow version numRows : ℕ) (hi : i < cap) :
    versionAt (fillVersions a startRow version numRows) i =
      if startRow ≤ i ∧ i < startRow + numRows then version else versionAt a i := by
  induction numRows with
  | zero =>
    have : ¬(startRow ≤ i ∧ i < startRow + 0) := by omega
    rw [if_neg this, fillVersions]
  | succ numRows ih =>
    rw [fillVersions, versionAt_setIfInBounds _ hi, ih]
    split_ifs <;> first | rfl | omega

lemma any_ne_invalid_iff (a : Vector ℕ cap) :
    a.any (· != invalidTransaction) = true ↔ ∃ i < cap, versionAt a i ≠ invalidTransaction := by
  rw [Vector.any_eq_true]
  constructor
  · rintro ⟨i, hi, h⟩
    exact ⟨i, hi, by simpa [versionAt, hi] using h⟩
  · rintro ⟨i, hi, h⟩
    exact ⟨i, hi, by simpa [versionAt, hi] using h⟩

variable {a : Vector ℕ cap} {f : ℕ → Option Stamp} (h : ∀ i < cap, versionAt a i = versionOf (f i))

include h

/-- The stamps of an array after a loop that writes one of them into some of its entries. -/
lemma versionAt_fillVersions_stamp (startRow numRows : ℕ) (t : Option Stamp) :
    ∀ i < cap, versionAt (fillVersions a startRow (versionOf t) numRows) i =
      versionOf (if startRow ≤ i ∧ i < startRow + numRows then t else f i) := by
  intro i hi
  rw [versionAt_fillVersions _ _ _ _ hi]
  split_ifs
  · rfl
  · exact h i hi

/-- No stamp is left once a loop has found no version in the array. -/
lemma eq_none_of_not_any (hok : ∀ i < cap, StampOk (f i)) {startRow numRows : ℕ}
    (hany : ¬(fillVersions a startRow invalidTransaction numRows).any (· != invalidTransaction)) :
    ∀ i < cap, (if startRow ≤ i ∧ i < startRow + numRows then none else f i) = none := by
  intro i hi
  have hentry := versionAt_fillVersions_stamp h startRow numRows none i hi
  have hinvalid : versionAt (fillVersions a startRow invalidTransaction numRows) i
      = invalidTransaction := by
    by_contra hne
    exact hany ((any_ne_invalid_iff _).mpr ⟨i, hi, hne⟩)
  split_ifs with hrow
  · rfl
  · rw [if_neg hrow] at hentry
    exact (versionOf_eq_invalid_iff (hok i hi)).mp (hentry.symm.trans hinvalid)

end arrays

/-! ### The representation -/

/-- The stamp is there and is one of `own`. -/
def OwnStamp (own : Stamp → Prop) (s : Option Stamp) : Prop := ∃ o, own o ∧ s = some o

/-- How far the stamps of the rows may stay behind a compressed state. -/
structure Lag where
  /-- a row may have this stamp although the whole vector has this version -/
  same : ℕ → Option Stamp → Prop
  /-- a row may have this stamp although the vector has no insertion and no deletion -/
  empty : Option Stamp → Prop

namespace Lag

/-- Between the actions of the transactions nothing stays behind. -/
def none : Lag where
  same := fun _ _ => False
  empty := fun _ => False

/-- While `id` commits at `ts`, rows of later records still have the stamp of `id`. -/
def committing (id ts : ℕ) : Lag where
  same := fun v s => v = ts ∧ s = some (.active id)
  empty := fun _ => False

/-- While a transaction rolls back, rows of earlier records still have one of its stamps `own`.
There are two of them after a commit that has failed halfway. -/
def rollingBack (own : Stamp → Prop) : Lag where
  same := fun v s => (∃ o, own o ∧ v = versionOf (some o)) ∧ OwnStamp own s
  empty := OwnStamp own

end Lag

variable {cap : ℕ}

/-- `vv` represents the insertions `ins` of the first `n` rows of its vector.  `ck` says whether
the rows were loaded from a checkpoint. -/
inductive InsRep (lag : Lag) (ck : Bool) (n : ℕ) (ins : ℕ → Option Stamp)
    (vv : VectorVersionInfo cap) : Prop
  | empty (hck : ck = false) (hstatus : vv.insertionStatus = .noInserted)
      (hsame : vv.sameInsertionVersion = invalidTransaction)
      (harr : vv.insertedVersions = .none)
      (hrows : ∀ i < cap, ins i = .none ∨ lag.empty (ins i))
  | always (hck : ck = true) (hstatus : vv.insertionStatus = .alwaysInserted)
      (hsame : vv.sameInsertionVersion = invalidTransaction)
      (harr : vv.insertedVersions = .none)
      (hrows : ∀ i < cap, i < n → ins i = some (.committed 0))
  | same (hck : ck = false) (hstatus : vv.insertionStatus = .checkVersion)
      (hsame : vv.sameInsertionVersion ≠ invalidTransaction)
      (harr : vv.insertedVersions = .none)
      (hrows : ∀ i < cap, i < n → ins i ≠ .none ∧ versionOf (ins i) = vv.sameInsertionVersion ∨
        lag.same vv.sameInsertionVersion (ins i))
  | array (a : Vector ℕ cap) (hck : ck = false) (hstatus : vv.insertionStatus = .checkVersion)
      (hsame : vv.sameInsertionVersion = invalidTransaction)
      (harr : vv.insertedVersions = some a)
      (hrows : ∀ i < cap, versionAt a i = versionOf (ins i))

/-- `vv` represents the deletions `del` of the rows of its vector. -/
structure DelRep (lag : Lag) (del : ℕ → Option Stamp) (vv : VectorVersionInfo cap) : Prop where
  same : vv.sameDeletionVersion = invalidTransaction
  entries : ∀ i < cap, vv.deletionAt i = versionOf (del i)
  alloc : vv.deletionStatus = .checkVersion → vv.deletedVersions ≠ .none
  noDeleted : vv.deletionStatus = .noDeleted → ∀ i < cap, del i = .none ∨ lag.empty (del i)

/-- The insertion fields of `vv'` are those of `vv`. -/
structure SameInsertions (vv vv' : VectorVersionInfo cap) : Prop where
  status : vv'.insertionStatus = vv.insertionStatus
  version : vv'.sameInsertionVersion = vv.sameInsertionVersion
  array : vv'.insertedVersions = vv.insertedVersions

/-- The deletion fields of `vv'` are those of `vv`. -/
structure SameDeletions (vv vv' : VectorVersionInfo cap) : Prop where
  status : vv'.deletionStatus = vv.deletionStatus
  version : vv'.sameDeletionVersion = vv.sameDeletionVersion
  array : vv'.deletedVersions = vv.deletedVersions

lemma SameInsertions.refl (vv : VectorVersionInfo cap) : SameInsertions vv vv := ⟨rfl, rfl, rfl⟩

lemma SameDeletions.refl (vv : VectorVersionInfo cap) : SameDeletions vv vv := ⟨rfl, rfl, rfl⟩

variable {n : ℕ} {ins : ℕ → Option Stamp} {vv vv' : VectorVersionInfo cap} {lag : Lag} {ck : Bool}

/-- The representation looks at the rows of the vector only. -/
lemma InsRep.congr {n' : ℕ} {ins' : ℕ → Option Stamp} (h : InsRep lag ck n ins vv)
    (hins : ∀ i < cap, ins' i = ins i) (hn : ∀ i < cap, i < n' → i < n)
    (hvv : SameInsertions vv vv') : InsRep lag ck n' ins' vv' := by
  cases h with
  | empty hck h1 h2 h3 hrows =>
    exact .empty hck (hvv.status.trans h1) (hvv.version.trans h2) (hvv.array.trans h3)
      fun i hi => hins i hi ▸ hrows i hi
  | always hck h1 h2 h3 hrows =>
    exact .always hck (hvv.status.trans h1) (hvv.version.trans h2) (hvv.array.trans h3)
      fun i hi hlt => (hins i hi).trans (hrows i hi (hn i hi hlt))
  | same hck h1 h2 h3 hrows =>
    refine .same hck (hvv.status.trans h1) (hvv.version ▸ h2) (hvv.array.trans h3)
      fun i hi hlt => ?_
    rw [hins i hi, hvv.version]
    exact hrows i hi (hn i hi hlt)
  | array a hck h1 h2 h3 hrows =>
    exact .array a hck (hvv.status.trans h1) (hvv.version.trans h2) (hvv.array.trans h3)
      fun i hi => hins i hi ▸ hrows i hi

variable {del : ℕ → Option Stamp} {a : Vector ℕ cap}

lemma DelRep.congr {del' : ℕ → Option Stamp}
    (h : DelRep lag del vv) (hdel : ∀ i < cap, del' i = del i) (hvv : SameDeletions vv vv') :
    DelRep lag del' vv' where
  same := hvv.version.trans h.same
  entries := fun i hi => by
    rw [hdel i hi, ← h.entries i hi, VectorVersionInfo.deletionAt, hvv.array]
    rfl
  alloc := fun hs => hvv.array ▸ h.alloc (hvv.status.symm.trans hs)
  noDeleted := fun hs i hi => hdel i hi ▸ h.noDeleted (hvv.status.symm.trans hs) i hi

lemma DelRep.entries_some (h : DelRep lag del vv)
    (ha : vv.deletedVersions = some a) : ∀ i < cap, versionAt a i = versionOf (del i) := by
  intro i hi
  rw [← h.entries i hi, VectorVersionInfo.deletionAt, ha, getD_some]

/-- The stamps say that row `row` is inserted for `T` and not deleted for `T`. -/
def VersionInfo.rowSelected (ins del : ℕ → Option Stamp) (T : Transaction) (row : ℕ) : Bool :=
  visible T.id T.startTS (ins row) && !visible T.id T.startTS (del row)

open VersionInfo (rowSelected)

/-! ### Appending -/

variable {m s ts : ℕ} {own : Stamp → Prop}

namespace VectorVersionInfo

/-- Once the entries of the new rows are free, the array of the result holds their versions. -/
lemma appendToArray_spec (vv : VectorVersionInfo cap) (hstatus : vv.insertionStatus = .checkVersion)
    (hsame : vv.sameInsertionVersion = invalidTransaction)
    (hrows : ∀ i < cap, versionAt a i = versionOf (ins i)) (hnm : n + m ≤ cap)
    (hfree : ∀ i < cap, n ≤ i → ins i = none) :
    ∃ vv', vv.appendToArray a id n m = some vv' ∧
      InsRep Lag.none false (n + m)
        (fun i => if n ≤ i ∧ i < n + m then some (.active id) else ins i) vv' ∧
      SameDeletions vv vv' := by
  have hinvalid : ∀ i < m, versionAt a (n + i) = invalidTransaction := by
    intro i hi
    rw [hrows (n + i) (by omega), hfree (n + i) (by omega) (by omega), versionOf_none]
  exact ⟨_, if_pos hinvalid, .array _ rfl hstatus hsame rfl
    (versionAt_fillVersions_stamp hrows n m (some (.active id))), ⟨rfl, rfl, rfl⟩⟩

/-- Appended rows are stamped by the transaction. -/
lemma append_spec (h : InsRep Lag.none false n ins vv) (hid : StampOk (some (.active id)))
    (hnm : n + m ≤ cap) (hfree : ∀ i < cap, n ≤ i → ins i = none)
    (hlast : 0 < n → ins (n - 1) ≠ none) :
    ∃ vv', vv.append id n m = some vv' ∧
      InsRep Lag.none false (n + m)
        (fun i => if n ≤ i ∧ i < n + m then some (.active id) else ins i) vv' ∧
      SameDeletions vv vv' := by
  have hne : id ≠ invalidTransaction := by have := hid.2; omega
  cases h with
  | empty hck hstatus hsame harr hrows =>
    -- the last row in use is inserted, so a vector without insertions has no row in use
    have hn : n = 0 := by
      by_contra hn
      rcases hrows (n - 1) (by omega) with hnone | hf
      · exact hlast (by omega) hnone
      · exact hf
    subst hn
    simp only [append, hsame, hne, harr, isSameInsertionVersion, bne_self_eq_false,
      Bool.not_false, if_true, if_false]
    refine ⟨_, rfl, .same rfl rfl hne rfl fun i _ hlt => .inl ?_, ⟨rfl, rfl, rfl⟩⟩
    rw [if_pos ⟨Nat.zero_le i, hlt⟩]
    exact ⟨by simp, rfl⟩
  | always hck => exact absurd hck (by decide)
  | same hck hstatus hsame harr hrows =>
    by_cases heq : id = vv.sameInsertionVersion
    · simp only [append, heq, if_true]
      refine ⟨_, rfl, .same rfl rfl hsame harr fun i hi hlt => .inl ?_, ⟨rfl, rfl, rfl⟩⟩
      simp only
      split_ifs with hnew
      · exact ⟨by simp, rfl⟩
      · exact (hrows i hi (by omega)).resolve_right not_false
    · have hbne : (vv.sameInsertionVersion != invalidTransaction) = true := by simpa using hsame
      simp only [append, heq, harr, isSameInsertionVersion, hbne, Bool.not_true, if_false,
        Bool.false_eq_true]
      -- the array spells out what the compressed state meant
      have hentries : ∀ i < cap, versionAt
          (fillVersions (initVersionArray cap) 0 vv.sameInsertionVersion n) i
            = versionOf (ins i) := by
        intro i hi
        rw [versionAt_fillVersions _ _ _ _ hi, versionAt_initVersionArray]
        split_ifs with hlt
        · exact ((hrows i hi (by omega)).resolve_right not_false).2.symm
        · rw [hfree i hi (by omega), versionOf_none]
      obtain ⟨vv', hvv', hrep, hdel⟩ := appendToArray_spec
        { vv with insertionStatus := .checkVersion, sameInsertionVersion := invalidTransaction }
        rfl rfl hentries hnm hfree
      exact ⟨vv', hvv', hrep, ⟨hdel.status, hdel.version, hdel.array⟩⟩
  | array a hck hstatus hsame harr hrows =>
    have happend : vv.append id n m
        = { vv with insertionStatus := .checkVersion }.appendToArray a id n m := by
      simp [append, hsame, hne, harr]
    rw [happend]
    obtain ⟨vv', hvv', hrep, hdel⟩ := appendToArray_spec
      { vv with insertionStatus := .checkVersion } rfl hsame hrows hnm hfree
    exact ⟨vv', hvv', hrep, ⟨hdel.status, hdel.version, hdel.array⟩⟩

/-! ### Deleting -/

/-- A row is deleted once. -/
lemma delete_spec (h : DelRep Lag.none del vv) {s : Stamp} {row : ℕ} (hs : StampOk (some s))
    (hrow : row < cap) (hok : StampOk (del row)) :
    DelRep Lag.none (if del row = none then Function.update del row (some s) else del)
        (vv.delete_ (versionOf (some s)) row).1 ∧
      SameInsertions vv (vv.delete_ (versionOf (some s)) row).1 ∧
      ((vv.delete_ (versionOf (some s)) row).2 = .ok true ↔ del row = none) ∧
      ((vv.delete_ (versionOf (some s)) row).2 = .ok false ↔ del row = some s) := by
  have hne : versionOf (some s) ≠ invalidTransaction := by
    rw [ne_eq, versionOf_eq_invalid_iff hs]
    exact some_ne_none s
  have hentry : versionAt (vv.deletedVersions.getD (initVersionArray cap)) row
      = versionOf (del row) := h.entries row hrow
  unfold delete_
  simp only [h.same, hne, isSameDeletionVersion, bne_self_eq_false, Bool.false_eq_true, if_false,
    hentry]
  by_cases hown : versionOf (del row) = versionOf (some s)
  · have hdel := versionOf_inj hok hs hown
    simp only [if_true, hdel, reduceCtorEq, if_false]
    exact ⟨⟨rfl, h.entries, by simp, by simp⟩, ⟨rfl, rfl, rfl⟩, by simp⟩
  · have hother : del row ≠ some s := fun heq => hown (heq ▸ rfl)
    simp only [hown, if_false]
    by_cases hnone : del row = none
    -- nobody has deleted the row
    · simp only [hnone, versionOf_none, ne_eq, not_true_eq_false, if_false, if_true]
      refine ⟨⟨rfl, fun i hi => ?_, by simp, by simp⟩, ⟨rfl, rfl, rfl⟩, by simp, by simp⟩
      simp only [deletionAt, getD_some]
      rw [versionAt_setIfInBounds _ hi]
      by_cases hir : i = row
      · simp [hir]
      · rw [if_neg hir, Function.update_of_ne hir]
        exact h.entries i hi
    -- another transaction has
    · have hinv : versionOf (del row) ≠ invalidTransaction :=
        fun he => hnone ((versionOf_eq_invalid_iff hok).mp he)
      simp only [hinv, ne_eq, not_false_eq_true, if_true, hnone, if_false]
      exact ⟨⟨rfl, h.entries, by simp, by simp⟩, ⟨rfl, rfl, rfl⟩, by simp, by simpa using hother⟩

/-! ### Records of a commit -/

/-- Committing stamps the inserted rows. -/
lemma setInsertCommitTS_spec (h : InsRep (Lag.committing id ts) false n ins vv)
    (hid : StampOk (some (.active id))) (hts : ts < startTransactionID)
    (hok : ∀ i < cap, StampOk (ins i)) (hm : 0 < m) (hsm : s + m ≤ cap)
    (hseg : ∀ i, s ≤ i → i < s + m →
      i < n ∧ (ins i = some (.active id) ∨ ins i = some (.committed ts))) :
    ∃ vv', vv.setInsertCommitTS ts s m = some vv' ∧
      InsRep (Lag.committing id ts) false n
        (fun i => if s ≤ i ∧ i < s + m then some (.committed ts) else ins i) vv' ∧
      SameDeletions vv vv' := by
  have hlt := startTransactionID_lt
  obtain ⟨hsn, hs⟩ := hseg s le_rfl (by omega)
  unfold setInsertCommitTS
  cases h with
  | empty _ _ _ _ hrows =>
    rcases hrows s (by omega) with hnone | hf
    · simp [hnone] at hs
    · exact hf.elim
  | always hck => exact absurd hck (by decide)
  | same hck hstatus hsame harr hrows =>
    have hbne : vv.isSameInsertionVersion = true := by simpa [isSameInsertionVersion] using hsame
    -- the record is the first one of `id`, or the vector has been turned already
    have hversion : vv.sameInsertionVersion = id ∨ vv.sameInsertionVersion = ts := by
      rcases hrows s (by omega) hsn with ⟨-, hv⟩ | ⟨hv, -⟩
      · rcases hs with hs | hs
        · rw [hs] at hv; exact .inl hv.symm
        · rw [hs] at hv; exact .inr hv.symm
      · exact .inr hv
    rw [if_pos hbne]
    refine ⟨_, rfl, .same rfl hstatus (by simp only; omega) harr fun i hi hin => ?_,
      ⟨rfl, rfl, rfl⟩⟩
    simp only
    split_ifs with hsegi
    · exact .inl ⟨by simp, rfl⟩
    · rcases hrows i hi hin with ⟨hne, hv⟩ | ⟨-, hact⟩
      · rcases hversion with hversion | hversion
        · exact .inr ⟨rfl, (versionOf_eq_id_iff (hok i hi) hid).mp (hv.trans hversion)⟩
        · exact .inl ⟨hne, hv.trans hversion⟩
      · exact .inr ⟨rfl, hact⟩
  | array a hck hstatus hsame harr hrows =>
    have hbne : vv.isSameInsertionVersion = false := by simp [isSameInsertionVersion, hsame]
    rw [hbne, harr]
    exact ⟨_, rfl, .array _ rfl hstatus hsame rfl
      (versionAt_fillVersions_stamp hrows s m (some (.committed ts))), ⟨rfl, rfl, rfl⟩⟩

/-- Committing stamps the deleted rows. -/
lemma setDeleteCommitTS_spec (h : DelRep (Lag.committing id ts) del vv)
    (hm : 0 < m) (hsm : s + m ≤ cap) (hseg : ∀ i, s ≤ i → i < s + m → del i ≠ none) :
    ∃ vv', vv.setDeleteCommitTS ts s m = some vv' ∧
      DelRep (Lag.committing id ts)
        (fun i => if s ≤ i ∧ i < s + m then some (.committed ts) else del i) vv' ∧
      SameInsertions vv vv' := by
  have hstatus : vv.deletionStatus = .checkVersion := by
    cases hst : vv.deletionStatus with
    | checkVersion => rfl
    | noDeleted =>
      rcases h.noDeleted hst s (by omega) with hnone | hf
      · exact absurd hnone (hseg s le_rfl (by omega))
      · exact hf.elim
  obtain ⟨a, ha⟩ := ne_none_iff_exists'.mp (h.alloc hstatus)
  have hsame : vv.isSameDeletionVersion = false := by simp [isSameDeletionVersion, h.same]
  rw [setDeleteCommitTS, hsame, ha]
  exact ⟨_, rfl, ⟨h.same, versionAt_fillVersions_stamp (h.entries_some ha) s m
    (some (.committed ts)),
    fun _ => by simp, fun hno => absurd (hstatus.symm.trans hno) (by decide)⟩, ⟨rfl, rfl, rfl⟩⟩

/-! ### Records of a rollback -/

/-- Rolling back forgets the inserted rows. -/
lemma rollbackInsertions_spec (h : InsRep (Lag.rollingBack own) false n ins vv)
    (hd : DelRep (Lag.rollingBack own) del vv) (hown : ∀ o, own o → StampOk (some o))
    (hok : ∀ i < cap, StampOk (ins i)) (hm : 0 < m) (hsm : s + m ≤ cap)
    (hseg : ∀ i, s ≤ i → i < s + m → i < n ∧ (ins i = none ∨ OwnStamp own (ins i)))
    (hfree : ∀ i < cap, n ≤ i → ins i = none)
    (hdel : ∀ i < cap, ins i = none ∨ OwnStamp own (ins i) → del i = none ∨ OwnStamp own (del i)) :
    InsRep (Lag.rollingBack own) false n
        (fun i => if s ≤ i ∧ i < s + m then none else ins i) (vv.rollbackInsertions s m) ∧
      DelRep (Lag.rollingBack own) del (vv.rollbackInsertions s m) := by
  obtain ⟨hsn, hs⟩ := hseg s le_rfl (by omega)
  -- once all rows left are rows of the transaction, the vector may be reset as a whole
  have hreset : ∀ vv' : VectorVersionInfo cap, (∀ i < cap, ins i = none ∨ OwnStamp own (ins i)) →
      vv'.sameInsertionVersion = invalidTransaction → vv'.insertedVersions = none →
      vv'.insertionStatus = .noInserted → vv'.deletionStatus = .noDeleted →
      vv'.sameDeletionVersion = vv.sameDeletionVersion →
      vv'.deletedVersions = vv.deletedVersions →
      InsRep (Lag.rollingBack own) false n
          (fun i => if s ≤ i ∧ i < s + m then none else ins i) vv' ∧
        DelRep (Lag.rollingBack own) del vv' := by
    intro vv' hall h1 h2 h3 h4 h5 h6
    refine ⟨.empty rfl h3 h1 h2 fun i hi => ?_, h5.trans hd.same, fun i hi => ?_, ?_, ?_⟩
    · split_ifs
      · exact .inl rfl
      · exact hall i hi
    · rw [← hd.entries i hi, deletionAt, h6]
      rfl
    · exact fun hcheck => absurd (h4.symm.trans hcheck) (by decide)
    · exact fun _ i hi => hdel i hi (hall i hi)
  cases h with
  | empty _ hstatus hsame harr hrows =>
    refine hreset _ hrows ?_ ?_ ?_ ?_ ?_ ?_ <;>
      simp [rollbackInsertions, isSameInsertionVersion, hsame, harr]
  | always hck => exact absurd hck (by decide)
  | same _ hstatus hsame harr hrows =>
    have hversion : ∃ o, own o ∧ vv.sameInsertionVersion = versionOf (some o) := by
      rcases hrows s (by omega) hsn with ⟨hne, hv⟩ | ⟨hv, -⟩
      · obtain ⟨o, ho, hso⟩ := hs.resolve_left hne
        exact ⟨o, ho, by rw [← hv, hso]⟩
      · exact hv
    obtain ⟨o, ho, hversion⟩ := hversion
    have hall : ∀ i < cap, ins i = none ∨ OwnStamp own (ins i) := by
      intro i hi
      by_cases hin : i < n
      · rcases hrows i hi hin with ⟨-, hv⟩ | ⟨-, hi⟩
        · exact .inr ⟨o, ho, versionOf_inj (hok i hi) (hown o ho) (hv.trans hversion)⟩
        · exact .inr hi
      · exact .inl (hfree i hi (by omega))
    refine hreset _ hall ?_ ?_ ?_ ?_ ?_ ?_ <;>
      simp [rollbackInsertions, isSameInsertionVersion, hsame, harr]
  | array a _ hstatus hsame harr hrows =>
    by_cases hany : (fillVersions a s invalidTransaction m).any (· != invalidTransaction) = true
    · have hvv : vv.rollbackInsertions s m
          = { vv with insertedVersions := some (fillVersions a s invalidTransaction m) } := by
        simp [rollbackInsertions, isSameInsertionVersion, hsame, harr, hany]
      rw [hvv]
      exact ⟨.array _ rfl hstatus hsame rfl (versionAt_fillVersions_stamp hrows s m none),
        hd.congr (fun _ _ => rfl) ⟨rfl, rfl, rfl⟩⟩
    · have hnone : ∀ i < cap, ins i = none ∨ OwnStamp own (ins i) := by
        intro i hi
        by_cases hsegi : s ≤ i ∧ i < s + m
        · exact (hseg i hsegi.1 hsegi.2).2
        · exact .inl ((if_neg hsegi).symm.trans (eq_none_of_not_any hrows hok hany i hi))
      refine hreset _ hnone ?_ ?_ ?_ ?_ ?_ ?_ <;>
        simp [rollbackInsertions, isSameInsertionVersion, hsame, harr, hany]

/-- Rolling back forgets the deletions. -/
lemma rollbackDeletions_spec (h : DelRep (Lag.rollingBack own) del vv)
    (hok : ∀ i < cap, StampOk (del i)) :
    DelRep (Lag.rollingBack own) (fun i => if s ≤ i ∧ i < s + m then none else del i)
        (vv.rollbackDeletions s m) ∧
      SameInsertions vv (vv.rollbackDeletions s m) := by
  have hsame : vv.isSameDeletionVersion = false := by simp [isSameDeletionVersion, h.same]
  have hlag : ∀ i, del i = none ∨ (Lag.rollingBack own).empty (del i) →
      (if s ≤ i ∧ i < s + m then none else del i) = none ∨
        (Lag.rollingBack own).empty (if s ≤ i ∧ i < s + m then none else del i) := by
    intro i hi
    split_ifs
    · exact .inl rfl
    · exact hi
  cases harr : vv.deletedVersions with
  | none =>
    -- there are no deletions to undo
    have hnone : ∀ i < cap, del i = none := by
      intro i hi
      have hentry := h.entries i hi
      rw [deletionAt, harr, getD_none, versionAt_initVersionArray] at hentry
      exact (versionOf_eq_invalid_iff (hok i hi)).mp hentry.symm
    have hvv : vv.rollbackDeletions s m = { vv with deletionStatus := .noDeleted } := by
      simp [rollbackDeletions, hsame, harr]
    rw [hvv]
    refine ⟨⟨h.same, fun i hi => ?_, by simp, fun _ i hi => hlag i (.inl (hnone i hi))⟩,
      ⟨rfl, rfl, rfl⟩⟩
    simp only [hnone i hi, ite_self]
    rw [deletionAt, harr, getD_none, versionAt_initVersionArray, versionOf_none]
  | some a =>
    have hrows := h.entries_some harr
    by_cases hany : (fillVersions a s invalidTransaction m).any (· != invalidTransaction) = true
    · have hvv : vv.rollbackDeletions s m
          = { vv with deletedVersions := some (fillVersions a s invalidTransaction m) } := by
        simp [rollbackDeletions, hsame, harr, hany]
      rw [hvv]
      exact ⟨⟨h.same, versionAt_fillVersions_stamp hrows s m none, by simp,
        fun hno i hi => hlag i (h.noDeleted hno i hi)⟩, ⟨rfl, rfl, rfl⟩⟩
    -- the last deletion is gone
    · have hnone := eq_none_of_not_any hrows hok hany
      have hvv : vv.rollbackDeletions s m
          = { vv with deletedVersions := none, deletionStatus := .noDeleted } := by
        simp [rollbackDeletions, hsame, harr, hany]
      rw [hvv]
      refine ⟨⟨h.same, fun i hi => ?_, by simp, fun _ i hi => .inl (hnone i hi)⟩, ⟨rfl, rfl, rfl⟩⟩
      rw [hnone i hi, deletionAt, getD_none, versionAt_initVersionArray, versionOf_none]

/-! ### What a transaction reads -/

/-- A row is inserted if its stamp is visible. -/
lemma isInserted_spec (h : InsRep Lag.none ck n ins vv) (T : Transaction) (hi : i < cap)
    (hin : i < n) (hok : StampOk (ins i)) :
    vv.isInserted T.startTS T.id i = some (visible T.id T.startTS (ins i)) := by
  unfold isInserted
  cases h with
  | empty _ hstatus _ _ hrows =>
    rw [hstatus, (hrows i hi).resolve_right not_false]
    rfl
  | always _ hstatus _ _ hrows =>
    rw [hstatus, hrows i hi hin]
    simp
  | same _ hstatus hsame _ hrows =>
    obtain ⟨-, hv⟩ := (hrows i hi hin).resolve_right not_false
    have hbne : vv.isSameInsertionVersion = true := by simpa [isSameInsertionVersion] using hsame
    simp only [hstatus, hbne, if_true, bind_eq_bind, bind_some, ← hv, check_versionOf T hok]
    rfl
  | array a _ hstatus hsame harr hrows =>
    simp only [hstatus, isSameInsertionVersion, hsame, harr, bne_self_eq_false, Bool.false_eq_true,
      if_false, map_some, bind_eq_bind, bind_some, hrows i hi, check_versionOf T hok]
    rfl

/-- A row is deleted if its stamp is visible. -/
lemma isDeleted_spec
    (h : DelRep Lag.none del vv) (T : Transaction) (hi : i < cap) (hok : StampOk (del i)) :
    vv.isDeleted T.startTS T.id i = some (visible T.id T.startTS (del i)) := by
  unfold isDeleted
  cases hstatus : vv.deletionStatus with
  | noDeleted =>
    rw [(h.noDeleted hstatus i hi).resolve_right not_false]
    rfl
  | checkVersion =>
    obtain ⟨a, ha⟩ := ne_none_iff_exists'.mp (h.alloc hstatus)
    simp only [isSameDeletionVersion, h.same, ha, bne_self_eq_false, Bool.false_eq_true,
      if_false, map_some, bind_eq_bind, bind_some, h.entries_some ha i hi, check_versionOf T hok]
    rfl

section

variable (h : InsRep Lag.none ck n ins vv)

include h

lemma isInsertedNotDeleted_spec (hd : DelRep Lag.none del vv) (T : Transaction) (hi : i < cap)
    (hin : i < n) (hok : StampOk (ins i)) (hdok : StampOk (del i)) :
    vv.isInsertedNotDeleted T.startTS T.id i = some (rowSelected ins del T i) := by
  unfold isInsertedNotDeleted
  rw [isInserted_spec h T hi hin hok, isDeleted_spec hd T hi hdok, rowSelected]
  cases visible T.id T.startTS (ins i) <;> rfl

/-- A vector in the state "always inserted" holds checkpointed rows. -/
lemma inserted_of_always (hs : vv.insertionStatus = .alwaysInserted) :
    ck = true ∧ ∀ i < cap, i < n → ins i = some (.committed 0) := by
  cases h with
  | always hck _ _ _ hrows => exact ⟨hck, hrows⟩
  | empty _ hstatus | same _ hstatus | array _ _ hstatus =>
    exact absurd (hstatus.symm.trans hs) (by decide)

/-- A vector in the state "always inserted, no deletion" has every row selected. -/
lemma selected_of_always (hd : DelRep Lag.none del vv)
    (T : Transaction) (hs : vv.deletionStatus = .noDeleted ∧ vv.insertionStatus = .alwaysInserted)
    (hi : i < cap) (hin : i < n) :
    rowSelected ins del T i = true := by
  rw [rowSelected, (inserted_of_always h hs.2).2 i hi hin,
    (hd.noDeleted hs.1 i hi).resolve_right not_false]
  simp

/-- A vector without insertions has no rows. -/
lemma inserted_of_noInserted (hs : vv.insertionStatus = .noInserted) :
    ck = false ∧ ∀ i < cap, ins i = none := by
  cases h with
  | empty hck _ _ _ hrows => exact ⟨hck, fun i hi => (hrows i hi).resolve_right not_false⟩
  | always _ hstatus | same _ hstatus | array _ _ hstatus =>
    exact absurd (hstatus.symm.trans hs) (by decide)

lemma isSelected_spec (hd : DelRep Lag.none del vv) (T : Transaction) (hi : i < cap) (hin : i < n)
    (hok : StampOk (ins i)) (hdok : StampOk (del i)) :
    vv.isSelected T.startTS T.id i = some (rowSelected ins del T i) := by
  unfold isSelected
  split_ifs with h1 h2
  · rw [selected_of_always h hd T h1 hi hin]
  · rw [rowSelected, (inserted_of_noInserted h h2).2 i hi]
    rfl
  · exact isInsertedNotDeleted_spec h hd T hi hin hok hdok

end

end VectorVersionInfo

/-! ### Selection vectors of a scan -/

variable {sv : SelectionVector}

namespace SelectionVector

lemma foldl_pushPosition_spec (h : sv.state = .dynamic) (out m : ℕ) :
    ((range m).foldl (fun sv i => sv.pushPosition (out + i)) sv).state = .dynamic ∧
      ((range m).foldl (fun sv i => sv.pushPosition (out + i)) sv).getSelectedPositions
        = sv.getSelectedPositions ++ (range m).map (out + ·) := by
  induction m with
  | zero => simp [h]
  | succ m ih =>
    rw [List.range_succ, List.foldl_append, List.foldl_cons, List.foldl_nil]
    refine ⟨ih.1, ?_⟩
    rw [getSelectedPositions_pushPosition ih.1, ih.2]
    simp

lemma foldlM_pushPosition_spec (h : sv.state = .dynamic) (out m : ℕ)
    {check : ℕ → Option Bool} {sel : ℕ → Bool} (hcheck : ∀ i < m, check i = some (sel i)) :
    ∃ sv', (range m).foldlM
        (fun sv i => do
          if ← check i then return pushPosition sv (out + i) else return sv) sv
        = some sv' ∧
      sv'.state = .dynamic ∧
      sv'.getSelectedPositions
        = sv.getSelectedPositions ++ ((range m).filter sel).map (out + ·) := by
  induction m with
  | zero => exact ⟨sv, rfl, h, by simp⟩
  | succ m ih =>
    obtain ⟨sv1, hrun, hstate, hpos⟩ := ih fun i hi => hcheck i (by omega)
    rw [List.range_succ, List.filter_append, List.map_append, ← List.append_assoc, ← hpos]
    refine ⟨if sel m then sv1.pushPosition (out + m) else sv1,
      Fold.foldlM_append_some.mpr ⟨sv1, hrun, ?_⟩, ?_, ?_⟩
    · rw [List.foldlM_cons, hcheck m (by omega)]
      cases sel m <;> rfl
    · split_ifs <;> simp [hstate]
    · cases hsel : sel m
      · simp [hsel]
      · simp [hsel, getSelectedPositions_pushPosition hstate]

end SelectionVector

/-- The state of a scan after `out` rows of which the positions `ps` are selected.  While the
vector is unfiltered, all rows of a checkpointed group and no row of another one are selected. -/
structure ScanOk (ck : Bool) (out : ℕ) (ps : List ℕ) (sv : SelectionVector) : Prop where
  positions : sv.getSelectedPositions = ps
  size : sv.state = .static → sv.selectedSize = if ck then out else 0

namespace ScanOk

variable {out : ℕ} {ps : List ℕ}

/-- The branch for rows that are all selected: it is taken for checkpointed rows only. -/
lemma all (h : ScanOk true out ps sv) :
    ScanOk true (out + m) (ps ++ (range m).map (out + ·))
      (if sv.isUnfiltered then sv.setSelSize (sv.selectedSize + m)
        else ((range m).foldl (fun sv i => sv.pushPosition (out + i)) sv).setToFiltered) := by
  cases hstate : sv.state with
  | static =>
    have hun : sv.isUnfiltered = true := by simp [isUnfiltered, hstate]
    have hsize : sv.selectedSize = out := h.size hstate
    rw [if_pos hun]
    refine ⟨?_, fun _ => by simp [setSelSize, hsize]⟩
    have hps := h.positions
    rw [getSelectedPositions_of_static hstate, hsize] at hps
    have hstate' : (sv.setSelSize (sv.selectedSize + m)).state = .static := hstate
    rw [getSelectedPositions_of_static hstate', ← hps, ← hsize]
    exact List.range_add
  | dynamic =>
    have hun : ¬sv.isUnfiltered = true := by simp [isUnfiltered, hstate]
    obtain ⟨hdyn, hpos⟩ := foldl_pushPosition_spec hstate out m
    rw [if_neg hun, setToFiltered_of_dynamic hdyn]
    exact ⟨by rw [hpos, h.positions], fun hs => absurd (hdyn.symm.trans hs) (by decide)⟩

end ScanOk

namespace VectorVersionInfo

/-- **A scan** selects the visible rows of the vector. -/
lemma getSelVectorForScan_spec (h : InsRep Lag.none ck n ins vv) (hd : DelRep Lag.none del vv)
    (T : Transaction) {out : ℕ} {ps : List ℕ} (hsv : ScanOk ck out ps sv) (hsm : s + m ≤ cap)
    (hsn : s + m ≤ n) (hok : ∀ i < cap, StampOk (ins i)) (hdok : ∀ i < cap, StampOk (del i)) :
    ∃ sv', vv.getSelVectorForScan T.startTS T.id sv s m out = some sv' ∧
      ScanOk ck (out + m)
        (ps ++ ((range m).filter fun i => rowSelected ins del T (s + i)).map (out + ·))
        sv' := by
  have hcheck : ∀ i < m, vv.isInsertedNotDeleted T.startTS T.id (s + i) =
      some (rowSelected ins del T (s + i)) :=
    fun i hi => isInsertedNotDeleted_spec h hd T (by omega) (by omega) (hok _ (by omega))
      (hdok _ (by omega))
  unfold getSelVectorForScan
  by_cases h1 : vv.deletionStatus = .noDeleted ∧ vv.insertionStatus = .alwaysInserted
  · -- checkpointed rows without deletions
    obtain ⟨rfl, -⟩ := inserted_of_always h h1.2
    have hall : (range m).filter (fun i => rowSelected ins del T (s + i)) = range m := by
      rw [List.filter_eq_self]
      intro i hi
      have := List.mem_range.mp hi
      exact selected_of_always h hd T h1 (by omega) (by omega)
    rw [if_pos h1, hall]
    refine ⟨_, ?_, hsv.all⟩
    split_ifs <;> rfl
  · rw [if_neg h1]
    by_cases h2 : vv.insertionStatus = .noInserted
    -- a vector without insertions selects nothing
    · obtain ⟨rfl, hnone⟩ := inserted_of_noInserted h h2
      have hno : (range m).filter (fun i => rowSelected ins del T (s + i)) = [] := by
        rw [List.filter_eq_nil_iff]
        intro i hi
        have := List.mem_range.mp hi
        simp [rowSelected, hnone (s + i) (by omega)]
      rw [if_neg (by simpa using h2), hno]
      exact ⟨sv, rfl, by simpa using hsv.positions, hsv.size⟩
    · rw [if_pos h2]
      -- otherwise each row is checked
      set sv0 := if sv.isUnfiltered then sv.makeDynamic else sv with hsv0
      have hstate : sv0.state = .dynamic := by
        rw [hsv0]
        split_ifs with hun
        · rfl
        · cases hs : sv.state with
          | dynamic => rfl
          | static => simp [isUnfiltered, hs] at hun
      have hpos0 : sv0.getSelectedPositions = ps := by
        rw [hsv0, ← hsv.positions]
        split_ifs <;> simp
      obtain ⟨sv', hrun, hstate', hpos'⟩ := foldlM_pushPosition_spec hstate out m hcheck
      refine ⟨sv', ?_, ⟨by rw [hpos', hpos0], fun hs => absurd (hstate'.symm.trans hs) (by decide)⟩⟩
      simp only [bind_eq_bind, pure_def] at hrun ⊢
      rw [hrun, bind_some, setToFiltered_of_dynamic hstate']

end VectorVersionInfo

end Ladybug
