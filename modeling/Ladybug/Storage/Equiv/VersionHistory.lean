import Ladybug.Storage.Equiv.VersionInfo

/-!
# What transactions read from a `VersionInfo`

In every history of appends, deletes, commits and rollbacks by interleaved transactions the code
runs without a failed assertion or a null pointer, and every transaction selects exactly the rows
that are inserted and not deleted for it.

* `versionInfo_selects`: what `isSelected` and `getSelVectorToScan` answer, also in comparison
  with the expanded arrays;
* `isSelected_snapshot`: the others do not change what a transaction selects.
-/

namespace Ladybug

open Mvcc List Function RowHistory TransactionManager VersionInfo VersionRecord
open Lag (committing rollingBack)
open Option (bind_eq_some_iff map_eq_some_iff)

variable {cap : ℕ}

/-! ### Undo buffers -/

/-- The stamps after the rows that one of the records is about have got the stamp `s`. -/
def stampRecords (about : ℕ → VersionRecord → Bool) (records : List VersionRecord)
    (ins : ℕ → Option Stamp) (s : Option Stamp) : ℕ → Option Stamp :=
  fun row => if records.any (about row) then s else ins row

variable {id n row startRow ts numRows i : ℕ} {ck : Bool} {r : VersionRecord}
  {ins del : ℕ → Option Stamp} {done : List VersionRecord} {undo : ℕ → List VersionRecord}
  {about : ℕ → VersionRecord → Bool} {vi : VersionInfo cap} {h : RowHistory}

/-- A record about other rows changes nothing. -/
lemma stampRecords_append_of_not (records : List VersionRecord) (ins : ℕ → Option Stamp)
    (s : Option Stamp) (hr : ∀ row, about row r = false) :
    stampRecords about (records ++ [r]) ins s = stampRecords about records ins s := by
  funext row
  simp [stampRecords, hr row]

/-- A record stamps the rows of its range. -/
lemma stampRecords_append_of_range (records : List VersionRecord) (ins : ℕ → Option Stamp)
    (s : Option Stamp) (hr : ∀ row, about row r = (startRow ≤ row && row < startRow + n)) :
    stampRecords about (records ++ [r]) ins s =
      stampRange (stampRecords about records ins s) startRow n s := by
  funext row
  by_cases h : startRow ≤ row ∧ row < startRow + n
  · simp [stampRecords, stampRange, hr row, h]
  · have hno : ¬(startRow ≤ row && row < startRow + n) = true := by simpa using h
    simp [stampRecords, stampRange, hr row, hno, h]

/-- A row has got the new stamp, or it has the old one. -/
lemma stampRecords_elim {P : Option Stamp → Prop} {records : List VersionRecord} {s : Option Stamp}
    (hs : P s) (hins : P (ins row)) : P (stampRecords about records ins s row) := by
  unfold stampRecords
  split_ifs
  · exact hs
  · exact hins

/-- What the undo buffer of a transaction with the stamps `own` says about the rows. -/
structure RecordsOk (own : Stamp → Prop) (ck : Bool) (numRows : ℕ) (ins del : ℕ → Option Stamp)
    (records : List VersionRecord) : Prop where
  insOk : ∀ row, StampOk (ins row)
  delOk : ∀ row, StampOk (del row)
  ownOk : ∀ o, own o → StampOk (some o)
  own_ne : ¬own (.committed 0)
  free : ∀ row, numRows ≤ row → ins row = none
  checkpointed : ck = true → ∀ row < numRows, ins row = some (.committed 0)
  /-- a row is deleted by the transaction that inserted it, or after it has been committed -/
  owner : ∀ row, ins row = none ∨ OwnStamp own (ins row) → del row = none ∨ OwnStamp own (del row)
  inserts : ∀ row, records.any (VersionRecord.inserts row) = true → OwnStamp own (ins row)
  deletes : ∀ row, records.any (VersionRecord.deletes row) = true → OwnStamp own (del row)
  /-- no row is deleted twice -/
  distinct : records.Pairwise fun a b => ∀ row, ¬(a.deletes row = true ∧ b.deletes row = true)

/-- The version information after some records have been replayed, whose rows have got the stamp
`s`. -/
def Replayed (lag : Lag) (ck : Bool) (numRows : ℕ) (ins del : ℕ → Option Stamp)
    (done : List VersionRecord) (s : Option Stamp) (vi : VersionInfo cap) : Prop :=
  Rep lag ck numRows (stampRecords VersionRecord.inserts done ins s)
    (stampRecords VersionRecord.deletes done del s) vi

section records

variable {own : Stamp → Prop} {records : List VersionRecord}

lemma RecordsOk.insertInfo_eq_zero (hr : RecordsOk own true numRows ins del records)
    (h : insertInfo startRow n ∈ records) : n = 0 := by
  by_contra hn
  obtain ⟨o, ho, hact⟩ := hr.inserts startRow
    (any_eq_true.mpr ⟨_, h, by simp [VersionRecord.inserts]; omega⟩)
  by_cases hlt : startRow < numRows
  · rw [hr.checkpointed rfl startRow hlt] at hact
    exact hr.own_ne (Option.some.inj hact ▸ ho)
  · rw [hr.free startRow (by omega)] at hact
    simp at hact

section

variable (hr : RecordsOk own ck numRows ins del records)

include hr

/-- Inserted rows carry the transaction's stamp. -/
lemma RecordsOk.insertInfo_row (h : insertInfo startRow n ∈ records)
    (hlo : startRow ≤ row) (hhi : row < startRow + n) :
    row < numRows ∧ OwnStamp own (ins row) := by
  have hact := hr.inserts row (any_eq_true.mpr ⟨_, h, by simp [VersionRecord.inserts, hlo, hhi]⟩)
  refine ⟨?_, hact⟩
  by_contra hge
  rw [hr.free row (by omega)] at hact
  simp [OwnStamp] at hact

/-- Deleted rows carry the transaction's stamp. -/
lemma RecordsOk.deleteInfo_row (h : deleteInfo startRow n ∈ records)
    (hlo : startRow ≤ row) (hhi : row < startRow + n) : OwnStamp own (del row) :=
  hr.deletes row (any_eq_true.mpr ⟨_, h, by simp [VersionRecord.deletes, hlo, hhi]⟩)

lemma RecordsOk.reverse : RecordsOk own ck numRows ins del records.reverse :=
  { hr with
    inserts := fun row hrow => hr.inserts row (by simpa using hrow)
    deletes := fun row hrow => hr.deletes row (by simpa using hrow)
    distinct := pairwise_reverse.mpr (hr.distinct.imp fun hab row hba => hab row hba.symm) }

end

lemma commit_record (hcap : 0 < cap) (hr : RecordsOk (· = .active id) ck numRows ins del records)
    (hts : ts < startTransactionID) (hts0 : ts ≠ 0) (hmem : r ∈ records)
    (h : Replayed (committing id ts) ck numRows ins del done (some (.committed ts)) vi) :
    ∃ vi', r.commit ts vi = some vi' ∧ Replayed (committing id ts) ck numRows ins del
      (done ++ [r]) (some (.committed ts)) vi' := by
  unfold Replayed at h ⊢
  cases r with
  | insertInfo startRow n =>
    rw [stampRecords_append_of_range done ins _ (inserts_insertInfo startRow n),
      stampRecords_append_of_not done del _ fun _ => rfl]
    cases ck with
    | true =>
      -- checkpointed rows have no insertions
      obtain rfl := hr.insertInfo_eq_zero hmem
      rw [stampRange_zero]
      exact ⟨vi, rfl, h⟩
    | false =>
      refine commitInsert_spec hcap h (hr.ownOk _ rfl) hts hts0
        (fun row => stampRecords_elim hts (hr.insOk row)) fun row hlo hhi => ?_
      obtain ⟨hlt, _, rfl, hact⟩ := hr.insertInfo_row hmem hlo hhi
      exact ⟨hlt, stampRecords_elim (P := fun x => x = _ ∨ x = _) (.inr rfl) (.inl hact)⟩
  | deleteInfo startRow n =>
    rw [stampRecords_append_of_range done del _ (deletes_deleteInfo startRow n),
      stampRecords_append_of_not done ins _ fun _ => rfl]
    refine commitDelete_spec hcap h fun row hlo hhi => ?_
    obtain ⟨_, rfl, hact⟩ := hr.deleteInfo_row hmem hlo hhi
    exact stampRecords_elim (P := (· ≠ none)) (by simp) (by simp [hact])

/-- Replaying the records of a commit stamps their rows with the commit timestamp. -/
lemma commit_records (hcap : 0 < cap) (h : Rep Lag.none ck numRows ins del vi)
    (hr : RecordsOk (· = .active id) ck numRows ins del records) (hts : ts < startTransactionID)
    (hts0 : ts ≠ 0) :
    ∃ vi', records.foldlM (commit ts) vi = some vi' ∧
      Replayed (committing id ts) ck numRows ins del records (some (.committed ts)) vi' :=
  Fold.foldlM_progress _ (Replayed (committing id ts) ck numRows ins del · _)
    (fun done r rest vi hsplit => commit_record hcap hr hts hts0 (by rw [← hsplit]; simp))
    (h.startLag _)

lemma rollback_record (hcap : 0 < cap) (hr : RecordsOk own ck numRows ins del records)
    (hmem : r ∈ records) (hdone : ∀ r ∈ done, r ∈ records)
    (hnew : ∀ row, r.deletes row = true → done.any (deletes row) = false)
    (h : Replayed (rollingBack own) ck numRows ins del done none vi) :
    ∃ vi', r.rollback vi = some vi' ∧
      Replayed (rollingBack own) ck numRows ins del (done ++ [r]) none vi' := by
  unfold Replayed at h ⊢
  have hany : ∀ {about : VersionRecord → Bool}, done.any about = true →
      records.any about = true := by
    intro about ha
    obtain ⟨x, hx, hax⟩ := any_eq_true.mp ha
    exact any_eq_true.mpr ⟨x, hdone x hx, hax⟩
  cases r with
  | insertInfo startRow n =>
    rw [stampRecords_append_of_range done ins _ (inserts_insertInfo startRow n),
      stampRecords_append_of_not done del _ fun _ => rfl]
    cases ck with
    | true =>
      -- checkpointed rows have no insertions to undo
      obtain rfl := hr.insertInfo_eq_zero hmem
      rw [stampRange_zero]
      exact ⟨vi, rfl, h⟩
    | false =>
      refine rollbackInsert_spec hcap h hr.ownOk hr.own_ne
        (fun row => stampRecords_elim stampOk_none (hr.insOk row)) (fun row hlo hhi => ?_)
        (fun row hge => stampRecords_elim (P := (· = none)) rfl (hr.free row hge))
        (fun row hrow => ?_)
      · obtain ⟨hlt, hact⟩ := hr.insertInfo_row hmem hlo hhi
        exact ⟨hlt, stampRecords_elim (P := fun x => x = none ∨ OwnStamp own x) (.inl rfl)
          (.inr hact)⟩
      · -- a row without insertion, or of the transaction, is deleted by nobody else
        have hins : ins row = none ∨ OwnStamp own (ins row) := by
          unfold stampRecords at hrow
          split_ifs at hrow with hd
          · exact .inr (hr.inserts row (hany hd))
          · exact hrow
        exact stampRecords_elim (P := fun x => x = none ∨ OwnStamp own x) (.inl rfl)
          (hr.owner row hins)
  | deleteInfo startRow n =>
    rw [stampRecords_append_of_range done del _ (deletes_deleteInfo startRow n),
      stampRecords_append_of_not done ins _ fun _ => rfl]
    refine rollbackDelete_spec hcap h (fun row => stampRecords_elim stampOk_none (hr.delOk row))
      fun row hlo hhi => ?_
    -- the row has not been rolled back before
    have hdel := hnew row (by simp [deletes, hlo, hhi])
    obtain ⟨o, -, ho⟩ := hr.deleteInfo_row hmem hlo hhi
    rw [stampRecords, hdel, ho]
    simp

/-- Replaying the records of a rollback clears the stamps of their rows. -/
lemma rollback_records (hcap : 0 < cap) (h : Rep (rollingBack own) ck numRows ins del vi)
    (hr : RecordsOk own ck numRows ins del records) :
    ∃ vi', records.foldlM VersionRecord.rollback vi = some vi' ∧
      Replayed (rollingBack own) ck numRows ins del records none vi' := by
  refine Fold.foldlM_progress _ (Replayed (rollingBack own) ck numRows ins del · none) ?_ h
  intro done r rest vi hsplit hrep
  have hpair := hr.distinct
  rw [← hsplit] at hpair
  refine rollback_record hcap hr (by rw [← hsplit]; simp)
    (fun x hx => by rw [← hsplit]; simp [hx]) (fun row hrow => ?_) hrep
  rw [any_eq_false]
  intro x hx hxrow
  exact (pairwise_append.mp hpair).2.2 x hx r (by simp) row ⟨hxrow, hrow⟩

end records

/-! ### The invariant -/

/-- The rows and the undo buffers of the running transactions. -/
structure HistoryOk (ck : Bool) (h : RowHistory) (undo : ℕ → List VersionRecord) : Prop where
  insOk : ∀ row, StampOk (h.inserted row)
  delOk : ∀ row, StampOk (h.deleted row)
  free : ∀ row, h.numRows ≤ row → h.inserted row = none
  /-- the next free row is the one after the last inserted row -/
  last : 0 < h.numRows → h.inserted (h.numRows - 1) ≠ none
  checkpointed : ck = true → ∀ row < h.numRows, h.inserted row = some (.committed 0)
  /-- a row is deleted by the transaction that inserted it, or after it has been committed -/
  owner : ∀ row s, h.deleted row = some s →
    (∃ ts, h.inserted row = some (.committed ts)) ∨
      ∃ t, h.inserted row = some (.active t) ∧ s = .active t
  inserts : ∀ id row, (undo id).any (VersionRecord.inserts row) = true ↔
    h.inserted row = some (.active id)
  deletes : ∀ id row, (undo id).any (VersionRecord.deletes row) = true ↔
    h.deleted row = some (.active id)
  distinct : ∀ id, (undo id).Pairwise fun a b =>
    ∀ row, ¬(a.deletes row = true ∧ b.deletes row = true)
  /-- only running transactions have records -/
  running : ∀ id, undo id ≠ [] → h.mgr.isActive id = true

/-- The state of the code and the rows it stands for. -/
structure Related (ck : Bool) (h : RowHistory) (s : VersionStore cap) : Prop where
  mgr : s.mgr = h.mgr
  ok : HistoryOk ck h s.undoBuffer
  rep : Rep Lag.none ck h.numRows h.inserted h.deleted s.info

lemma TransactionManager.stampOk_of_isActive {m : TransactionManager}
    (h : m.isActive id = true) : StampOk (some (.active id)) := by
  obtain ⟨t, ht, rfl⟩ := isActive_iff.mp h
  obtain ⟨hle, hlast, -⟩ := m.active_le t ht
  exact ⟨hle, lt_of_le_of_lt hlast m.lastTransactionID_lt⟩

lemma HistoryOk.recordsOk (ho : HistoryOk ck h undo) (hid : h.mgr.isActive id = true) :
    RecordsOk (· = .active id) ck h.numRows h.inserted h.deleted (undo id) where
  insOk := ho.insOk
  delOk := ho.delOk
  ownOk := by
    rintro _ rfl
    exact stampOk_of_isActive hid
  own_ne := by simp
  free := ho.free
  checkpointed := ho.checkpointed
  owner := by
    intro row hrow
    cases hdel : h.deleted row with
    | none => exact .inl rfl
    | some s =>
      rcases ho.owner row s hdel with ⟨ts, hts⟩ | ⟨t, ht, rfl⟩
      · simp [OwnStamp, hts] at hrow
      · simp only [OwnStamp, ht, reduceCtorEq, Option.some.injEq, exists_eq_left,
          Stamp.active.injEq, false_or] at hrow
        exact .inr ⟨_, rfl, by rw [hrow]⟩
  inserts := fun row hrow => ⟨_, rfl, (ho.inserts id row).mp hrow⟩
  deletes := fun row hrow => ⟨_, rfl, (ho.deletes id row).mp hrow⟩
  distinct := ho.distinct id

lemma related_init (cap numCheckpointed : ℕ) :
    Related (numCheckpointed != 0) (RowHistory.init numCheckpointed) (VersionStore.init cap) where
  mgr := rfl
  ok := by
    have hins : ∀ row, (RowHistory.init numCheckpointed).inserted row
        = if row < numCheckpointed then some (.committed 0) else none := fun _ => rfl
    refine ⟨fun row => ?_, fun row => trivial, fun row hrow => ?_, fun hpos => ?_,
      fun _ row hrow => ?_, fun row s hs => ?_, fun id row => ?_, fun id row => ?_,
      fun _ => .nil, fun id hne => absurd rfl hne⟩
    · rw [hins]
      split_ifs
      · exact startTransactionID_pos
      · trivial
    · exact if_neg (not_lt.mpr hrow)
    · have hlt : (RowHistory.init numCheckpointed).numRows - 1 < numCheckpointed :=
        Nat.sub_lt hpos Nat.one_pos
      rw [hins, if_pos hlt]
      simp
    · exact if_pos hrow
    · exact absurd hs (by simp [RowHistory.init])
    · rw [hins]
      simp only [VersionStore.init, any_nil, Bool.false_eq_true, false_iff]
      split_ifs <;> simp
    · simp [VersionStore.init, RowHistory.init]
  rep := by
    intro v
    refine ⟨fun i _ => rfl, fun i _ (hin : i < numCheckpointed - v * cap) => ⟨?_, if_pos ?_⟩⟩
    · simp
      omega
    · omega

/-! ### The actions -/

/-- The records of each transaction are about the rows that carry its stamp. -/
def RecordedRows (undo : ℕ → List VersionRecord) (about : ℕ → VersionRecord → Bool)
    (f : ℕ → Option Stamp) : Prop :=
  ∀ id row, (undo id).any (about row) = true ↔ f row = some (.active id)

namespace RecordedRows

variable {f : ℕ → Option Stamp}

section

variable (hf : RecordedRows undo about f)

include hf

/-- A record about rows without a stamp, which get that of its transaction. -/
lemma push (id : ℕ) (hnew : ∀ row, about row r = true → f row = none) :
    RecordedRows (update undo id (undo id ++ [r])) about
      fun row => if about row r then some (.active id) else f row := by
  intro t row
  by_cases ht : t = id
  · subst ht
    rw [update_self, any_append, Bool.or_eq_true, hf]
    by_cases hr : about row r = true
    · simp [hr]
    · simp [hr]
  · rw [update_of_ne ht, hf]
    by_cases hr : about row r = true
    · simp [hr, hnew row hr, Ne.symm ht]
    · simp [hr]

/-- The records of a transaction that ends go, and its stamps with them. -/
lemma ended {st : Option Stamp} (id : ℕ) (hst : ∀ t, st ≠ some (.active t)) :
    RecordedRows (update undo id []) about fun row => resolve id st (f row) := by
  intro t row
  rw [resolve_eq_active_iff hst]
  by_cases ht : t = id
  · simp [ht]
  · rw [update_of_ne ht, hf]
    simp [ht]

/-- The records of a transaction stamp exactly its rows. -/
lemma stampRecords_eq (id : ℕ) (st : Option Stamp) :
    stampRecords about (undo id) f st = fun row => resolve id st (f row) := by
  funext row
  simp only [stampRecords, resolve, hf id row]

/-- Clearing the rows of all records forgets the transaction, whatever the first of the records
have been stamped with. -/
lemma stampRecords_undo (st : Option Stamp) (hdone : ∀ r ∈ done, r ∈ undo id) :
    stampRecords about (undo id).reverse (stampRecords about done f st) none =
      fun row => forget id (f row) := by
  funext row
  simp only [stampRecords, forget, any_reverse, hf id row]
  split_ifs with hact hd
  · rfl
  · obtain ⟨r, hr, hrow⟩ := any_eq_true.mp hd
    exact absurd ((hf id row).mp (any_eq_true.mpr ⟨r, hdone r hr, hrow⟩)) hact
  · rfl

end

end RecordedRows

section actions

variable {h' : RowHistory} {s : VersionStore cap} {mgr : TransactionManager}
  {rest : List VersionRecord} {numCheckpointed : ℕ} {st : Option Stamp}

lemma begin_related (hrel : Related ck h s) (hb : h.mgr.beginTransaction = some mgr) :
    Related ck { h with mgr := mgr } { s with mgr := mgr } :=
  ⟨rfl, { hrel.ok with running := fun id hne =>
    TransactionManager.isActive_of_begin hb (hrel.ok.running id hne) }, hrel.rep⟩

/-- A record is pushed, and the rows that it is about get the stamp of its transaction. -/
lemma HistoryOk.push (ho : HistoryOk ck h undo) (hid : h.mgr.isActive id = true)
    (hmgr : h'.mgr = h.mgr)
    (hins : h'.inserted = fun row => if r.inserts row then some (.active id) else h.inserted row)
    (hdel : h'.deleted = fun row => if r.deletes row then some (.active id) else h.deleted row)
    (hnewIns : ∀ row, r.inserts row = true → h.inserted row = none)
    (hnewDel : ∀ row, r.deletes row = true → h.deleted row = none)
    (hfree : ∀ row, h'.numRows ≤ row → h'.inserted row = none)
    (hlast : 0 < h'.numRows → h'.inserted (h'.numRows - 1) ≠ none)
    (hck : ck = true → ∀ row < h'.numRows, h'.inserted row = some (.committed 0))
    (howner : ∀ row s, h'.deleted row = some s → (∃ ts, h'.inserted row = some (.committed ts)) ∨
      ∃ t, h'.inserted row = some (.active t) ∧ s = .active t) :
    HistoryOk ck h' (update undo id (undo id ++ [r])) := by
  have hok : ∀ (f : ℕ → Option Stamp) (p : ℕ → Bool), (∀ row, StampOk (f row)) →
      ∀ row, StampOk (if p row then some (.active id) else f row) := by
    intro f p hf row
    split_ifs
    · exact stampOk_of_isActive hid
    · exact hf row
  refine ⟨by rw [hins]; exact hok _ _ ho.insOk, by rw [hdel]; exact hok _ _ ho.delOk, hfree, hlast,
    hck, howner, by rw [hins]; exact RecordedRows.push ho.inserts id hnewIns,
    by rw [hdel]; exact RecordedRows.push ho.deletes id hnewDel, ?_, ?_⟩
  · refine (forall_update_iff undo fun _ l => l.Pairwise _).mpr ⟨?_, fun t _ => ho.distinct t⟩
    refine pairwise_append.mpr ⟨ho.distinct id, pairwise_singleton _ _, fun a ha b hb row hab => ?_⟩
    rw [mem_singleton.mp hb] at hab
    have hold := (ho.deletes id row).mp (any_eq_true.mpr ⟨a, ha, hab.1⟩)
    simp [hnewDel row hab.2] at hold
  · rw [hmgr]
    exact (forall_update_iff undo fun t l => l ≠ [] → h.mgr.isActive t = true).mpr
      ⟨fun _ => hid, fun t _ => ho.running t⟩

lemma append_related (hcap : 0 < cap) (hrel : Related false h s) (hid : h.mgr.isActive id = true) :
    ∃ s', s.step (.append id h.numRows n) = some s' ∧
      Related false
        { h with
          inserted := fun row =>
            if h.numRows ≤ row ∧ row < h.numRows + n then some (.active id) else h.inserted row
          numRows := h.numRows + n } s' := by
  have ho := hrel.ok
  obtain ⟨vi', hrun, hrep⟩ := append_spec hcap hrel.rep (stampOk_of_isActive hid) ho.free ho.last n
  refine ⟨VersionStore.pushRecord { s with info := vi' } id (.insertInfo h.numRows n),
    by rw [VersionStore.step, hrun]; rfl, hrel.mgr, ?_, hrep⟩
  refine ho.push hid rfl (by simp [inserts]) (by simp [deletes])
    (fun row hrow => ?_) (by simp [deletes]) (fun row hrow => ?_) (fun hpos => ?_)
    (by simp) fun row st hst => ?_
  · simp only [inserts, Bool.and_eq_true, decide_eq_true_eq] at hrow
    exact ho.free row hrow.1
  · simp only at hrow ⊢
    rw [if_neg (by omega)]
    exact ho.free row (by omega)
  · simp only at hpos ⊢
    -- the last row is a new one if there is any
    by_cases hn : n = 0
    · subst hn
      rw [if_neg (by omega)]
      exact ho.last hpos
    · rw [if_pos (by omega)]
      simp
  · -- a deleted row was inserted before, so it is not one of the new rows
    have hold := ho.owner row st hst
    have hrow : ¬(h.numRows ≤ row ∧ row < h.numRows + n) := by
      rintro ⟨hge, -⟩
      simp [ho.free row hge] at hold
    simp only [if_neg hrow]
    exact hold

/-- The rows a transaction may delete. -/
lemma RowHistory.deletable_iff :
    h.deletable id row = true ↔ h.inserted row = some (.active id) ∨
      ∃ ts, h.inserted row = some (.committed ts) := by
  unfold deletable
  rcases h.inserted row with _ | ⟨t⟩ | ⟨ts⟩ <;> simp

/-- A first deletion adds its record; it is the only one of the row. -/
lemma HistoryOk.delete (ho : HistoryOk ck h undo) (hid : h.mgr.isActive id = true)
    (hrow : h.deletable id row = true) (hnone : h.deleted row = none) :
    HistoryOk ck { h with deleted := update h.deleted row (some (.active id)) }
      (update undo id (undo id ++ [.deleteInfo row 1])) := by
  have hrecord : ∀ row', VersionRecord.deletes row' (.deleteInfo row 1) = true ↔ row' = row := by
    intro row'
    simp only [VersionRecord.deletes, Bool.and_eq_true, decide_eq_true_eq]
    omega
  refine ho.push hid rfl (by simp [VersionRecord.inserts]) ?_ (by simp [VersionRecord.inserts])
    (fun row' hr => by rw [(hrecord row').mp hr, hnone]) ho.free ho.last ho.checkpointed
    fun row' st hst => ?_
  · funext row'
    simp only [hrecord, update_apply]
  · by_cases hr : row' = row
    · subst hr
      simp only [update_self, Option.some.injEq] at hst
      exact (deletable_iff.mp hrow).symm.imp_right fun hown => ⟨id, hown, hst.symm⟩
    · simp only [update_of_ne hr] at hst
      exact ho.owner row' st hst

lemma Related.delete_spec (hcap : 0 < cap) (hrel : Related ck h s)
    (hid : h.mgr.isActive id = true) (hrow : h.deletable id row = true) :
    Rep Lag.none ck h.numRows h.inserted
        (if h.deleted row = none then update h.deleted row (some (.active id)) else h.deleted)
        (s.info.delete_ id row).1 ∧
      ((s.info.delete_ id row).2 = .ok true ↔ h.deleted row = none) ∧
      ((s.info.delete_ id row).2 = .ok false ↔ h.deleted row = some (.active id)) := by
  have hins : h.inserted row ≠ none := by
    rcases deletable_iff.mp hrow with hown | ⟨ts, hcom⟩
    · simp [hown]
    · simp [hcom]
  have hlt : row < h.numRows := by
    by_contra hge
    exact hins (hrel.ok.free row (by omega))
  exact VersionInfo.delete_spec hcap hrel.rep (stampOk_of_isActive hid) hlt hins (hrel.ok.delOk row)

lemma delete_related (hcap : 0 < cap) (hrel : Related ck h s)
    (hid : h.mgr.isActive id = true) (hrow : h.deletable id row = true) :
    ∃ s', s.step (.delete id row) = some s' ∧
      Related ck
        { h with
          deleted :=
            if h.deleted row = none then update h.deleted row (some (.active id))
            else h.deleted } s' := by
  have ho := hrel.ok
  obtain ⟨hrep, hres, -⟩ := hrel.delete_spec hcap hid hrow
  rcases hdel : s.info.delete_ id row with ⟨vi', result⟩
  rw [hdel] at hrep hres
  by_cases hnone : h.deleted row = none
  · have htrue : result = .ok true := hres.mpr hnone
    subst htrue
    refine ⟨VersionStore.pushRecord { s with info := vi' } id (.deleteInfo row 1),
      by rw [VersionStore.step, hdel], hrel.mgr, ?_, hrep⟩
    simp only [hnone, if_true, VersionStore.pushRecord]
    exact ho.delete hid hrow hnone
  · have hne : result ≠ .ok true := fun hr => hnone (hres.mp hr)
    refine ⟨{ s with info := vi' }, ?_, hrel.mgr, ?_, hrep⟩
    · rw [VersionStore.step, hdel]
      split
      · rename_i heq
        exact absurd (congrArg Prod.snd heq) hne
      · rename_i heq
        obtain ⟨rfl, -⟩ := Prod.mk.inj heq
        rfl
    · simp only [hnone, if_false]
      exact ho

/-- The stamps of a transaction that ends leave with its undo buffer: they are forgotten, or turn
into a commit timestamp. -/
lemma HistoryOk.ended (ho : HistoryOk ck h undo) (hleft : h.mgr.Left mgr id)
    (hst : st = none ∨ ∃ ts < startTransactionID, st = some (.committed ts))
    (hle : numRows ≤ h.numRows)
    (hfree : ∀ row, numRows ≤ row → row < h.numRows → resolve id st (h.inserted row) = none)
    (hlast : 0 < numRows → resolve id st (h.inserted (numRows - 1)) ≠ none) :
    HistoryOk ck
      { mgr := mgr
        inserted := fun row => resolve id st (h.inserted row)
        deleted := fun row => resolve id st (h.deleted row)
        numRows := numRows }
      (update undo id []) := by
  -- a transaction that ended is not active
  have hne : ∀ t, st ≠ some (.active t) := by
    rintro t rfl
    simp at hst
  have hok : ∀ x : Option Stamp, StampOk x → StampOk (resolve id st x) := by
    intro x hx
    unfold resolve
    split_ifs
    · rcases hst with rfl | ⟨ts, hts, rfl⟩
      · trivial
      · exact hts
    · exact hx
  have hstay : ∀ {x : Option Stamp}, x ≠ some (.active id) → resolve id st x = x :=
    fun h => if_neg h
  refine ⟨fun row => hok _ (ho.insOk row), fun row => hok _ (ho.delOk row), fun row hrow => ?_,
    hlast, fun hck row hrow => ?_, fun row x hx => ?_, RecordedRows.ended ho.inserts id hne,
    RecordedRows.ended ho.deletes id hne,
    (forall_update_iff undo fun _ l => l.Pairwise _).mpr ⟨.nil, fun t _ => ho.distinct t⟩,
    (forall_update_iff undo fun t l => l ≠ [] → mgr.isActive t = true).mpr
      ⟨fun h => absurd rfl h, fun t ht hne => by simp [hleft.isActive_eq, ho.running t hne, ht]⟩⟩
  · by_cases hlt : row < h.numRows
    · exact hfree row hrow hlt
    · simp only [ho.free row (by omega)]
      rfl
  · have hold := ho.checkpointed hck row (lt_of_lt_of_le hrow hle)
    exact (hstay (by simp [hold])).trans hold
  · have hcommitted : ∀ {ts}, h.inserted row = some (.committed ts) →
        resolve id st (h.inserted row) = some (.committed ts) :=
      fun hts => (hstay (by simp [hts])).trans hts
    -- a row deleted by the transaction
    by_cases hd : h.deleted row = some (.active id)
    · have hx : st = some x := (if_pos hd).symm.trans hx
      rcases hst with rfl | ⟨ts, -, rfl⟩
      · simp at hx
      · rcases ho.owner row _ hd with ⟨ts', hts'⟩ | ⟨t, ht, hid⟩
        · exact .inl ⟨ts', hcommitted hts'⟩
        · exact .inl ⟨ts, if_pos (ht.trans (congrArg some hid.symm))⟩
    · simp only [hstay hd] at hx
      rcases ho.owner row x hx with ⟨ts', hts'⟩ | ⟨t, ht, rfl⟩
      · exact .inl ⟨ts', hcommitted hts'⟩
      · exact .inr ⟨t, (hstay fun hid => hd (hx.trans (ht.symm.trans hid))).trans ht, rfl⟩

lemma commit_related (hcap : 0 < cap) (hrel : Related ck h s)
    (hc : h.mgr.commit id = some (ts, mgr)) :
    ∃ vi, (s.undoBuffer id).foldlM (commit ts) s.info = some vi ∧
      Related ck
        { h with
          mgr := mgr
          inserted := fun row => (h.inserted row).map (Stamp.commit id ts)
          deleted := fun row => (h.deleted row).map (Stamp.commit id ts) }
        ⟨mgr, vi, update s.undoBuffer id []⟩ := by
  have ho := hrel.ok
  obtain ⟨hleft, htsEq, hts, -⟩ := commit_some hc
  obtain ⟨vi, hrun, hrep⟩ := commit_records hcap hrel.rep (ho.recordsOk hleft.running) hts
    (by omega)
  rw [Replayed, RecordedRows.stampRecords_eq ho.inserts,
    RecordedRows.stampRecords_eq ho.deletes] at hrep
  simp only [map_commit_eq_resolve]
  refine ⟨vi, hrun, rfl, ho.ended hleft (.inr ⟨ts, hts, rfl⟩) le_rfl (fun row hge hlt => ?_)
    fun hpos => ?_, hrep.endCommit
      fun row hrow => ((resolve_eq_active_iff (by simp)).mp hrow).2 rfl⟩
  · omega
  · rw [← map_commit_eq_resolve]
    simpa using ho.last hpos

lemma firstFreeRow_le (ins : ℕ → Option Stamp) (n : ℕ) : firstFreeRow ins n ≤ n := by
  induction n with
  | zero => exact le_rfl
  | succ n ih =>
    unfold firstFreeRow
    split_ifs <;> omega

/-- No row is inserted after the first free one. -/
lemma firstFreeRow_free (hge : firstFreeRow ins n ≤ row) (hlt : row < n) : ins row = none := by
  induction n with
  | zero => omega
  | succ n ih =>
    unfold firstFreeRow at hge
    split_ifs at hge with hsome
    · omega
    · by_cases hrow : row = n
      · simpa [hrow] using hsome
      · exact ih hge (by omega)

lemma firstFreeRow_last (hpos : 0 < firstFreeRow ins n) : ins (firstFreeRow ins n - 1) ≠ none := by
  induction n with
  | zero => simp [firstFreeRow] at hpos
  | succ n ih =>
    unfold firstFreeRow at hpos ⊢
    split_ifs at hpos ⊢ with hsome
    · simpa [Option.isSome_iff_ne_none] using hsome
    · exact ih hpos

/-- Rolling back all records of a transaction, of which the first may have been stamped before:
no stamp of the transaction is left. -/
lemma undo_related (hcap : 0 < cap) (hrel : Related ck h s)
    (hleft : h.mgr.Left mgr id) {own : Stamp → Prop}
    (hdone : ∀ r ∈ done, r ∈ s.undoBuffer id)
    (hrep : Replayed (rollingBack own) ck h.numRows h.inserted h.deleted done st vi)
    (hr : RecordsOk own ck h.numRows (stampRecords inserts done h.inserted st)
      (stampRecords deletes done h.deleted st) (s.undoBuffer id))
    (hgone : ∀ row o, own o → o ≠ .active id → h.inserted row ≠ some o ∧ h.deleted row ≠ some o) :
    ∃ vi', (s.undoBuffer id).reverse.foldlM VersionRecord.rollback vi = some vi' ∧
      Related ck (h.rolledBack id mgr) ⟨mgr, vi', update s.undoBuffer id []⟩ := by
  have ho := hrel.ok
  obtain ⟨vi', hrun, hrep'⟩ := rollback_records hcap hrep hr.reverse
  rw [Replayed, RecordedRows.stampRecords_undo ho.inserts st hdone,
    RecordedRows.stampRecords_undo ho.deletes st hdone] at hrep'
  refine ⟨vi', hrun, rfl, ho.ended hleft (.inl rfl) (firstFreeRow_le _ _)
    (fun _ => firstFreeRow_free) firstFreeRow_last, ?_⟩
  refine (hrep'.endRollback (fun row hrow => ?_) fun row hrow => ?_).mono (firstFreeRow_le _ _)
  · obtain ⟨o, hown, hrow⟩ := hrow
    obtain ⟨hrow, hne⟩ := forget_eq_some_iff.mp hrow
    exact (hgone row o hown hne).1 hrow
  · obtain ⟨o, hown, hrow⟩ := hrow
    obtain ⟨hrow, hne⟩ := forget_eq_some_iff.mp hrow
    exact (hgone row o hown hne).2 hrow

/-- Rolling back keeps the relation. -/
lemma rollback_related (hcap : 0 < cap) (hrel : Related ck h s)
    (hb : h.mgr.rollback id = some mgr) :
    ∃ vi, (s.undoBuffer id).reverse.foldlM VersionRecord.rollback s.info = some vi ∧
      Related ck (h.rolledBack id mgr) ⟨mgr, vi, update s.undoBuffer id []⟩ := by
  have hleft := rollback_left hb
  -- no record has been stamped
  have hrep : Replayed (rollingBack (· = .active id)) ck h.numRows h.inserted h.deleted []
      none s.info := hrel.rep.startLag _
  exact undo_related hcap hrel hleft (by simp) hrep (hrel.ok.recordsOk hleft.running)
    fun _ _ hown hne => absurd hown hne

/-- **One action of any transaction.** Whatever the callers may do, the code does without a
failed assertion, and it stands for the new rows. -/
theorem step_related (hcap : 0 < cap) (hrel : Related (numCheckpointed != 0) h s)
    {a : VersionAction} (hstep : h.step numCheckpointed a = some h') :
    ∃ s', s.step a = some s' ∧ Related (numCheckpointed != 0) h' s' := by
  cases a with
  | begin =>
    obtain ⟨mgr, hb, rfl⟩ := map_eq_some_iff.mp hstep
    exact ⟨_, map_eq_some_iff.mpr ⟨mgr, by rw [hrel.mgr, hb], rfl⟩, begin_related hrel hb⟩
  | append id startRow n =>
    simp only [step] at hstep
    split_ifs at hstep with hg
    obtain ⟨hid, rfl, rfl⟩ := hg
    obtain rfl := Option.some.inj hstep
    exact append_related hcap hrel hid
  | delete id row =>
    simp only [step] at hstep
    split_ifs at hstep with hg hnone
    · obtain rfl := Option.some.inj hstep
      simpa only [hnone, if_true] using delete_related hcap hrel hg.1 hg.2
    · obtain rfl := Option.some.inj hstep
      simpa only [hnone, if_false] using delete_related hcap hrel hg.1 hg.2
  | commit id =>
    obtain ⟨⟨ts, mgr⟩, hc, rfl⟩ := map_eq_some_iff.mp hstep
    obtain ⟨vi, hrun, hrel'⟩ := commit_related hcap hrel hc
    exact ⟨_, bind_eq_some_iff.mpr ⟨(ts, mgr), by rw [hrel.mgr, hc],
      bind_eq_some_iff.mpr ⟨vi, hrun, rfl⟩⟩, hrel'⟩
  | rollback id =>
    obtain ⟨mgr, hb, rfl⟩ := map_eq_some_iff.mp hstep
    obtain ⟨vi, hrun, hrel'⟩ := rollback_related hcap hrel hb
    exact ⟨_, bind_eq_some_iff.mpr ⟨mgr, by rw [hrel.mgr, hb],
      bind_eq_some_iff.mpr ⟨vi, hrun, rfl⟩⟩, hrel'⟩

/-- **Every run** keeps the relation. -/
lemma run_related (hcap : 0 < cap) {actions : List VersionAction}
    (hrun : actions.foldlM (step numCheckpointed) (.init numCheckpointed) = some h) :
    ∃ s, actions.foldlM VersionStore.step (.init cap) = some s ∧
      Related (numCheckpointed != 0) h s :=
  Fold.foldlM_simulation (step numCheckpointed) VersionStore.step
    (Related (numCheckpointed != 0)) (fun _ _ _ _ hrel hstep => step_related hcap hrel hstep)
    (related_init cap numCheckpointed) hrun

end actions

/-! ### The expanded arrays -/

theorem versionAt_ofFn (f : Fin cap → ℕ) (hi : i < cap) :
    versionAt (Vector.ofFn f) i = f ⟨i, hi⟩ := by
  simp [versionAt, hi]

/-- The version stored for a row. -/
lemma InsRep.insertionAt_eq
    {vv : VectorVersionInfo cap} (h : InsRep Lag.none ck n ins vv) (hi : i < cap) (hin : i < n) :
    vv.insertionAt i = versionOf (ins i) := by
  unfold VectorVersionInfo.insertionAt
  cases h with
  | empty _ hstatus _ _ hrows =>
    rw [hstatus, (hrows i hi).resolve_right not_false]
    rfl
  | always _ hstatus _ _ hrows =>
    rw [hstatus, hrows i hi hin]
    rfl
  | same _ hstatus hsame _ hrows =>
    have hbne : vv.isSameInsertionVersion = true := by
      simpa [VectorVersionInfo.isSameInsertionVersion] using hsame
    simp only [hstatus, hbne, if_true]
    exact ((hrows i hi hin).resolve_right not_false).2.symm
  | array a _ hstatus hsame harr hrows =>
    simp only [hstatus, VectorVersionInfo.isSameInsertionVersion, hsame, bne_self_eq_false,
      Bool.false_eq_true, if_false, harr, Option.getD_some]
    exact hrows i hi

/-- Expanding the versions changes no row. -/
lemma Rep.expand (hcap : 0 < cap) (h : Rep Lag.none ck numRows ins del vi)
    (hfree : ∀ row, numRows ≤ row → ins row = none) (hdel : ∀ row, numRows ≤ row → del row = none) :
    Rep Lag.none false numRows ins del (vi.expand numRows) := by
  intro v
  have hget : (vi.expand numRows).getVectorVersionInfo v = if v < numRows / cap + 1 then
      some (VectorVersionInfo.expand (numRows - v * cap) (vi.getVectorVersionInfo v))
      else none := by
    unfold getVectorVersionInfo VersionInfo.expand
    simp only [getElem?_map]
    by_cases hv : v < numRows / cap + 1
    · rw [getElem?_range hv, if_pos hv]
      rfl
    · rw [getElem?_eq_none (by simpa using hv), if_neg hv]
      rfl
  rw [hget]
  split_ifs with hv
  · -- what the vector, or its absence, says about its rows
    have hrows : (∀ i < cap, i < numRows - v * cap → ((vi.getVectorVersionInfo v).getD {
          insertionStatus := .alwaysInserted }).insertionAt i = versionOf (ins (v * cap + i))) ∧
        ∀ i < cap, ((vi.getVectorVersionInfo v).getD
          { insertionStatus := .alwaysInserted }).deletionAt i = versionOf (del (v * cap + i)) := by
      have hrep := h v
      cases hvec : vi.getVectorVersionInfo v with
      | some vv =>
        rw [hvec] at hrep
        exact ⟨fun i hi hin => hrep.1.insertionAt_eq hi hin, fun i hi => hrep.2.entries i hi⟩
      | none =>
        -- without versions the rows are those of a checkpoint
        rw [hvec] at hrep
        refine ⟨fun i hi hin => ?_, fun i hi => ?_⟩
        · have hins : ins (v * cap + i) = some (.committed 0) := (hrep.2 i hi hin).2
          rw [hins]
          rfl
        · have hnone : del (v * cap + i) = none := hrep.1 i hi
          rw [hnone]
          exact versionAt_initVersionArray i
    refine ⟨.array _ rfl rfl rfl rfl fun i hi => ?_,
      ⟨rfl, fun i hi => ?_, fun _ => by simp [VectorVersionInfo.expand],
        fun hs => by simp [VectorVersionInfo.expand] at hs⟩⟩
    · rw [versionAt_ofFn _ hi]
      simp only
      split_ifs with hin
      · exact hrows.1 i hi hin
      · rw [hfree _ (by omega), versionOf_none]
    · exact (versionAt_ofFn _ hi).trans (hrows.2 i hi)
  -- past the last row nothing is deleted
  · have hend : numRows ≤ v * cap := by
      have hlt := Nat.lt_mul_div_succ numRows hcap
      have hle : (numRows / cap + 1) * cap ≤ v * cap := Nat.mul_le_mul_right _ (by omega)
      rw [Nat.mul_comm] at hlt
      omega
    exact ⟨fun i _ => hdel _ (by omega), fun i _ hin => by omega⟩

/-! ### What transactions read -/

/-- **Selection of rows.**  After every sequence of appends at the next free row, deletes, commits
and rollbacks by interleaved transactions, for every transaction `T`: the code has run to the end;
`isSelected` holds exactly of the rows that are inserted by `T` or committed when `T` started, and
not deleted by `T` or by a transaction committed when `T` started; `getSelVectorToScan` lists
exactly the positions of such rows, for every range of rows; and both answer as they do on the
expanded arrays. -/
theorem versionInfo_selects (hcap : 0 < cap) {numCheckpointed : ℕ} {actions : List VersionAction}
    {h : RowHistory}
    (hrun : actions.foldlM (RowHistory.step numCheckpointed) (.init numCheckpointed) = some h)
    (T : Transaction) :
    ∃ s, actions.foldlM VersionStore.step (.init cap) = some s ∧
      (∀ row < h.numRows, s.info.isSelected T.startTS T.id row = some (h.selected T row) ∧
        (s.info.expand h.numRows).isSelected T.startTS T.id row = some (h.selected T row)) ∧
      ∀ startRow numRows sv, startRow + numRows ≤ h.numRows →
        ∃ sv' sv'', s.info.getSelVectorToScan T.startTS T.id sv startRow numRows = some sv' ∧
          (s.info.expand h.numRows).getSelVectorToScan T.startTS T.id sv startRow numRows
            = some sv'' ∧
          if numRows = 0 then sv' = sv ∧ sv'' = sv
          else
            sv'.getSelectedPositions
                = (List.range numRows).filter (fun i => h.selected T (startRow + i)) ∧
              sv''.getSelectedPositions = sv'.getSelectedPositions := by
  obtain ⟨s, hs, hrel⟩ := run_related hcap hrun
  have ho := hrel.ok
  -- a row that was never appended is not deleted
  have hdelfree : ∀ row, h.numRows ≤ row → h.deleted row = none := by
    intro row hrow
    cases hdel : h.deleted row with
    | none => rfl
    | some st =>
      have := ho.owner row st hdel
      simp [ho.free row hrow] at this
  have hexp := hrel.rep.expand hcap ho.free hdelfree
  refine ⟨s, hs, fun row hrow => ?_, fun startRow numRows sv hle => ?_⟩
  · exact ⟨isSelected_spec hcap hrel.rep ho.insOk ho.delOk T hrow,
      isSelected_spec hcap hexp ho.insOk ho.delOk T hrow⟩
  · by_cases hn : numRows = 0
    · subst hn
      exact ⟨sv, sv, rfl, rfl, rfl, rfl⟩
    · obtain ⟨sv', hrun', hpos'⟩ := getSelVectorToScan_spec hcap hrel.rep ho.insOk
        ho.delOk T (Nat.pos_of_ne_zero hn) hle sv
      obtain ⟨sv'', hrun'', hpos''⟩ := getSelVectorToScan_spec hcap hexp ho.insOk
        ho.delOk T (Nat.pos_of_ne_zero hn) hle sv
      exact ⟨sv', sv'', hrun', hrun'', by rw [if_neg hn]; exact ⟨hpos', hpos''.trans hpos'.symm⟩⟩

/-- Two transactions append in turn, and one of them deletes a row of its own and commits. -/
def interleavedActions : List VersionAction :=
  [.begin, .begin, .append (startTransactionID + 1) 0 3, .append (startTransactionID + 2) 3 2,
    .delete (startTransactionID + 1) 1, .commit (startTransactionID + 1)]

/-- With vectors of two rows the actions go through every state of a vector. -/
theorem versionInfo_selects_interleaved :
    ∃ h s, interleavedActions.foldlM (RowHistory.step 0) (.init 0) = some h ∧
      interleavedActions.foldlM VersionStore.step (.init 2) = some s ∧
      h.numRows = 5 ∧
      ∀ row < h.numRows, s.info.isSelected dummyCheckpointTransaction.startTS
          dummyCheckpointTransaction.id row
        = some (h.selected dummyCheckpointTransaction row) := by
  have hrows : (interleavedActions.foldlM (step 0) (.init 0)).map RowHistory.numRows
      = some 5 := by decide +kernel
  obtain ⟨h, hrun, hnum⟩ := map_eq_some_iff.mp hrows
  obtain ⟨s, hs, hsel, -⟩ :=
    versionInfo_selects (show 0 < 2 by decide) hrun dummyCheckpointTransaction
  exact ⟨h, s, hrun, hs, hnum, fun row hrow => (hsel row hrow).1⟩

/-! ### Snapshots -/

/-- The transaction that acts; a new one has no id yet. -/
def VersionAction.actor : VersionAction → Option ℕ
  | .begin => none
  | .append id .. | .delete id _ | .commit id | .rollback id => some id

section

variable {T : Transaction} {h h' : RowHistory} {s : VersionStore cap}

/-- Others' steps do not change what a transaction sees. -/
lemma selected_step (hrel : Related ck h s) (hT : T ∈ h.mgr.activeTransactions)
    {a : VersionAction} (hne : a.actor ≠ some T.id) (hstep : h.step n a = some h') :
    h'.selected T = h.selected T ∧ T ∈ h'.mgr.activeTransactions := by
  have hend : ∀ {id st} x, some id ≠ some T.id → visible T.id T.startTS st = false →
      visible T.id T.startTS (resolve id st x) = visible T.id T.startTS x := by
    grind [resolve, visible_some, Stamp.visibleTo_active]
  have hstay {id mgr} (hid : some id ≠ some T.id) (hleft : h.mgr.Left mgr id) :
      T ∈ mgr.activeTransactions := by grind [hleft.active]
  cases a with
  | begin =>
    obtain ⟨mgr, hb, rfl⟩ := map_eq_some_iff.mp hstep
    obtain ⟨_, hmgr, -⟩ := begin_fields hb
    exact ⟨rfl, hmgr ▸ mem_append_left _ hT⟩
  | append | delete =>
    -- an appended row was free, a deleted one not yet deleted
    have hfree := hrel.ok.free
    simp only [step, Option.ite_none_right_eq_some, Option.some.injEq] at hstep
    obtain ⟨hg, rfl⟩ := hstep
    refine ⟨funext fun row => ?_, hT⟩
    grind [selected, visible_none, visible_some, Stamp.visibleTo_active, update_apply,
      VersionAction.actor]
  | commit id =>
    obtain ⟨⟨ts, mgr⟩, hc, rfl⟩ := map_eq_some_iff.mp hstep
    -- the commit is later than the start of `T`
    have hts := (h.mgr.active_le T hT).2.2
    obtain ⟨hleft, hnew, -⟩ := commit_some hc
    refine ⟨funext fun row => ?_, hstay hne hleft⟩
    simp only [selected, map_commit_eq_resolve]
    rw [hend _ hne, hend _ hne] <;> simp <;> omega
  | rollback id =>
    obtain ⟨mgr, hb, rfl⟩ := map_eq_some_iff.mp hstep
    refine ⟨funext fun row => ?_, hstay hne (rollback_left hb)⟩
    exact congrArg₂ (· && !·) (hend _ hne rfl) (hend _ hne rfl)

/-- **Snapshots.** Whatever the others append, delete, commit and roll back while `T` runs,
`isSelected` answers `T` as before, and no row that `T` selects goes. -/
theorem isSelected_snapshot (hcap : 0 < cap) (before others : List VersionAction)
    (hrun : before.foldlM (step n) (.init n) = some h) (hT : T ∈ h.mgr.activeTransactions)
    (hothers : ∀ a ∈ others, a.actor ≠ some T.id) (hrun' : others.foldlM (step n) h = some h') :
    ∃ s s' : VersionStore cap, before.foldlM VersionStore.step (.init cap) = some s ∧
      others.foldlM VersionStore.step s = some s' ∧
      (∀ row < h.numRows, s.info.isSelected T.startTS T.id row = some (h.selected T row)) ∧
      (∀ row < h'.numRows, s'.info.isSelected T.startTS T.id row = some (h.selected T row)) ∧
      ∀ row, h'.numRows ≤ row → h.selected T row = false := by
  have hsel {h} {s : VersionStore cap} (hrel : Related (n != 0) h s) row (hrow : row < h.numRows) :
      s.info.isSelected T.startTS T.id row = some (h.selected T row) :=
    isSelected_spec hcap hrel.rep hrel.ok.insOk hrel.ok.delOk T hrow
  obtain ⟨s, hs, hrel⟩ := run_related hcap hrun
  obtain ⟨s', hs', hrel', heq, -⟩ := Fold.foldlM_guarded_simulation (step n)
    (fun _ a => a.actor ≠ some T.id) VersionStore.step
    (fun h₁ s₁ => Related (n != 0) h₁ s₁ ∧
      h₁.selected T = h.selected T ∧ T ∈ h₁.mgr.activeTransactions)
    (by
      rintro h₁ s₁ a h₂ ⟨hrel, heq, hT⟩ ha hstep
      obtain ⟨s₂, hs₂, hrel₂⟩ := step_related hcap hrel hstep
      exact ⟨s₂, hs₂, hrel₂, (selected_step hrel hT ha hstep).imp_left (·.trans heq)⟩)
    ⟨hrel, rfl, hT⟩ (.of_forall (fun a ha _ => hothers a ha) h) hrun'
  refine ⟨s, s', hs, hs', hsel hrel, heq ▸ hsel hrel', fun row hrow => ?_⟩
  rw [← heq, selected, hrel'.ok.free row hrow]
  rfl

/-- A writer appends a row and commits beside a reader. -/
theorem isSelected_snapshot_commit : ∃ (T : Transaction) (s s' : VersionStore 2),
    [.begin, .begin].foldlM VersionStore.step (.init 2) = some s ∧
      [.append (startTransactionID + 1) 0 1, .commit (startTransactionID + 1)].foldlM
        VersionStore.step s = some s' ∧ s'.info.isSelected T.startTS T.id 0 = some false := by
  obtain ⟨s, s', hs, hs', -, hsel, -⟩ := isSelected_snapshot (show 0 < 2 by decide)
    [.begin, .begin] [.append (startTransactionID + 1) 0 1, .commit (startTransactionID + 1)]
    (n := 0) rfl (.tail _ (.head _)) (by decide) rfl
  exact ⟨_, s, s', hs, hs', hsel 0 (by decide)⟩

end

end Ladybug
