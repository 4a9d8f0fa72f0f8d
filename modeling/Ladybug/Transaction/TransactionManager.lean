import Mathlib.Data.List.Nodup
import Ladybug.Lib.Mvcc
import Mathlib.Algebra.GroupWithZero.Nat

/-!
# Transaction ids, timestamps and the transaction manager

`transaction_t` is one 64-bit word that holds either the id of a running transaction or a commit
timestamp. Ids are handed out above `startTransactionID = 2^63`, timestamps below it, and
`invalidTransaction = 2^64 - 1` means "no transaction". The manager hands out both by counting;
the counters are natural numbers here, and a transaction that would leave the range of its kind
does not begin (or commit).
-/

namespace Ladybug

/-- `INVALID_TRANSACTION`. -/
def invalidTransaction : ℕ := 2 ^ 64 - 1

/-- `Transaction::START_TRANSACTION_ID`. -/
def startTransactionID : ℕ := 2 ^ 63

/-- `Transaction::DUMMY_TRANSACTION_ID`, the id of the checkpoint transaction too. -/
def dummyTransactionID : ℕ := 0

lemma startTransactionID_pos : 0 < startTransactionID := by decide

lemma startTransactionID_lt : startTransactionID < invalidTransaction := by decide

lemma startTransactionID_add_one_lt : startTransactionID + 1 < invalidTransaction := by decide

lemma startTransactionID_add_two_lt : startTransactionID + 2 < invalidTransaction := by decide

lemma start_le_add_two : startTransactionID + 2 = dummyTransactionID ∨
    startTransactionID ≤ startTransactionID + 2 := by decide

lemma one_lt_start : 1 < startTransactionID := by decide

/-- What a reader needs of `Transaction`: its id and the timestamp it started at. -/
structure Transaction where
  /-- `ID` -/
  id : ℕ
  /-- `startTS` -/
  startTS : ℕ
  id_lt : id < invalidTransaction
  id_eq_or_le : id = dummyTransactionID ∨ startTransactionID ≤ id
  startTS_lt : startTS < startTransactionID
  deriving DecidableEq

/-- `DUMMY_CHECKPOINT_TRANSACTION`: it sees everything that is committed. -/
def dummyCheckpointTransaction : Transaction where
  id := dummyTransactionID
  startTS := startTransactionID - 1
  id_lt := by decide
  id_eq_or_le := .inl rfl
  startTS_lt := by decide

/-- `TransactionManager`: the last id and timestamp handed out, and the running transactions. -/
structure TransactionManager where
  lastTransactionID : ℕ
  lastTimestamp : ℕ
  activeTransactions : List Transaction
  start_le : startTransactionID ≤ lastTransactionID
  lastTransactionID_lt : lastTransactionID < invalidTransaction
  lastTimestamp_lt : lastTimestamp < startTransactionID
  /-- running transactions have ids and start timestamps that were handed out -/
  active_le : ∀ t ∈ activeTransactions,
    startTransactionID ≤ t.id ∧ t.id ≤ lastTransactionID ∧ t.startTS ≤ lastTimestamp
  /-- no two running transactions share an id -/
  active_nodup : (activeTransactions.map Transaction.id).Nodup

namespace TransactionManager

/-- The manager of a database that has just been opened. -/
def init : TransactionManager where
  lastTransactionID := startTransactionID
  lastTimestamp := 1
  activeTransactions := []
  start_le := Nat.le_refl _
  lastTransactionID_lt := startTransactionID_lt
  lastTimestamp_lt := one_lt_start
  active_le := by simp
  active_nodup := by simp

/-- Whether `id` is the id of a running transaction. -/
def isActive (m : TransactionManager) (id : ℕ) : Bool :=
  m.activeTransactions.any fun t => t.id == id

lemma isActive_iff {m : TransactionManager} {id : ℕ} :
    m.isActive id = true ↔ ∃ t ∈ m.activeTransactions, t.id = id := by
  simp [isActive]

/-- `clearTransactionNoLock`. -/
def clearTransaction (m : TransactionManager) (id : ℕ) : TransactionManager :=
  { m with
    activeTransactions := m.activeTransactions.filter fun t => t.id != id
    active_le := fun t ht => m.active_le t (List.mem_of_mem_filter ht)
    active_nodup := m.active_nodup.sublist (List.filter_sublist.map _) }

/-- `beginTransaction`: the next id, and the last timestamp as the start timestamp. -/
def beginTransaction (m : TransactionManager) : Option TransactionManager :=
  if h : m.lastTransactionID + 1 < invalidTransaction then
    some
      { m with
        lastTransactionID := m.lastTransactionID + 1
        activeTransactions := m.activeTransactions ++
          [{ id := m.lastTransactionID + 1
             startTS := m.lastTimestamp
             id_lt := h
             id_eq_or_le := .inr (by have := m.start_le; omega)
             startTS_lt := m.lastTimestamp_lt }]
        start_le := by have := m.start_le; omega
        lastTransactionID_lt := h
        active_le := by
          intro t ht
          rcases List.mem_append.mp ht with ht | ht
          · obtain ⟨h₁, h₂, h₃⟩ := m.active_le t ht
            exact ⟨h₁, by omega, h₃⟩
          · obtain rfl := List.mem_singleton.mp ht
            have := m.start_le
            exact ⟨by simp only; omega, Nat.le_refl _, Nat.le_refl _⟩
        active_nodup := by
          rw [List.map_append, List.map_singleton]
          refine m.active_nodup.append (List.nodup_singleton _) ?_
          rw [List.disjoint_singleton]
          intro hmem
          obtain ⟨t, ht, hid⟩ := List.mem_map.mp hmem
          have := (m.active_le t ht).2.1
          simp only at hid
          omega }
  else none

/-- `commit`: the next timestamp is the commit timestamp, and the transaction leaves. -/
def commit (m : TransactionManager) (id : ℕ) : Option (ℕ × TransactionManager) :=
  if h : m.isActive id ∧ m.lastTimestamp + 1 < startTransactionID then
    some (m.lastTimestamp + 1,
      { m.clearTransaction id with
        lastTimestamp := m.lastTimestamp + 1
        lastTimestamp_lt := h.2
        active_le := by
          intro t ht
          obtain ⟨h₁, h₂, h₃⟩ := (m.clearTransaction id).active_le t ht
          exact ⟨h₁, h₂, Nat.le_succ_of_le h₃⟩ })
  else none

/-- `rollback`: the transaction leaves. -/
def rollback (m : TransactionManager) (id : ℕ) : Option TransactionManager :=
  if m.isActive id then some (m.clearTransaction id) else none

@[simp] lemma isActive_clearTransaction (m : TransactionManager) (id id' : ℕ) :
    (m.clearTransaction id).isActive id' = (m.isActive id' && id' != id) := by
  rw [Bool.eq_iff_iff, isActive_iff, Bool.and_eq_true, isActive_iff, bne_iff_ne]
  simp only [clearTransaction, List.mem_filter, bne_iff_ne]
  constructor
  · rintro ⟨t, ⟨ht, hne⟩, rfl⟩
    exact ⟨⟨t, ht, rfl⟩, hne⟩
  · rintro ⟨⟨t, ht, rfl⟩, hne⟩
    exact ⟨t, ⟨ht, hne⟩, rfl⟩

/-- Active transactions stay so when others begin. -/
lemma isActive_of_begin {m m' : TransactionManager} (h : m.beginTransaction = some m') {id : ℕ}
    (hid : m.isActive id = true) : m'.isActive id = true := by
  unfold beginTransaction at h
  split_ifs at h
  obtain rfl := Option.some.inj h
  obtain ⟨t, ht, rfl⟩ := isActive_iff.mp hid
  exact isActive_iff.mpr ⟨t, List.mem_append_left _ ht, rfl⟩

/-- A new transaction sees what is committed. -/
lemma begin_fields {m m' : TransactionManager} (h : m.beginTransaction = some m') :
    ∃ T : Transaction, m'.activeTransactions = m.activeTransactions ++ [T] ∧
      T.id = m.lastTransactionID + 1 ∧ m'.lastTransactionID = m.lastTransactionID + 1 ∧
      m'.lastTimestamp = m.lastTimestamp := by
  unfold beginTransaction at h
  split_ifs at h
  obtain rfl := Option.some.inj h
  exact ⟨_, rfl, rfl, rfl, rfl⟩

/-- A transaction that was running has left. -/
structure Left (m m' : TransactionManager) (id : ℕ) : Prop where
  running : m.isActive id = true
  active : m'.activeTransactions = m.activeTransactions.filter fun t => t.id != id
  timestamp_le : m.lastTimestamp ≤ m'.lastTimestamp
  transactionID : m'.lastTransactionID = m.lastTransactionID

lemma Left.isActive_eq {m m' : TransactionManager} {id : ℕ} (h : m.Left m' id) (id' : ℕ) :
    m'.isActive id' = (m.isActive id' && id' != id) := by
  rw [isActive, h.active]
  exact isActive_clearTransaction m id id'

/-- The commit timestamp is the next one. -/
lemma commit_some {m m' : TransactionManager} {id ts : ℕ} (h : m.commit id = some (ts, m')) :
    m.Left m' id ∧ ts = m.lastTimestamp + 1 ∧ ts < startTransactionID ∧ m'.lastTimestamp = ts := by
  unfold commit at h
  split_ifs at h with hg
  simp only [Option.some.injEq, Prod.mk.injEq] at h
  obtain ⟨rfl, rfl⟩ := h
  exact ⟨⟨hg.1, rfl, Nat.le_add_right _ 1, rfl⟩, rfl, hg.2, rfl⟩

lemma rollback_left {m m' : TransactionManager} {id : ℕ} (h : m.rollback id = some m') :
    m.Left m' id := by
  unfold rollback at h
  split_ifs at h with hg
  obtain rfl := Option.some.inj h
  exact ⟨hg, rfl, Nat.le_refl _, rfl⟩

end TransactionManager

end Ladybug
