import Ladybug.Wal.Equiv.WalReplayer

/-!
# Recovery from a cut log

The log of a sequence of committed transactions is cut after any number of bytes. Unless the cut is
inside a read that refills the buffer, the complete transactions are found and replayed, and what is
left after the truncation is their log.
-/

namespace Ladybug

open List LoggedTransaction
open List (length_append replicate)

variable {P : WalRecordType → Type} {codec : PayloadCodec P} {pageSize : ℕ}
  {databaseID : List UInt8} {chk : Bool}

/-! ### What the log holds -/

/-- The records of some transactions, and of a checkpoint. -/
def walRecords (txs : List (LoggedTransaction P)) (checkpointed : Bool) : List (WalRecord P) :=
  txs.flatMap LoggedTransaction.records ++ if checkpointed then [.checkpoint] else []

/-- The header and some records. -/
def walFile (codec : PayloadCodec P) (databaseID : List UInt8) (chk : Bool)
    (records : List (WalRecord P)) : List UInt8 :=
  entryBytes chk (headerBytes databaseID chk) ++ recordsBytes codec chk records

/-- The sizes of the writes that serialise a record. -/
def recordWrites (codec : PayloadCodec P) (record : WalRecord P) : List ℕ :=
  (record.serialize codec).map List.length

lemma recordsBytes_append (xs ys : List (WalRecord P)) :
    recordsBytes codec chk (xs ++ ys) = recordsBytes codec chk xs ++ recordsBytes codec chk ys := by
  rw [recordsBytes, map_append, flatten_append]
  rfl

lemma walFile_append (xs ys : List (WalRecord P)) :
    walFile codec databaseID chk (xs ++ ys) =
      walFile codec databaseID chk xs ++ recordsBytes codec chk ys := by
  rw [walFile, recordsBytes_append, ← append_assoc, walFile]

lemma length_walFile (records : List (WalRecord P)) :
    (walFile codec databaseID chk records).length =
      headerSize databaseID chk + (recordsBytes codec chk records).length := by
  rw [walFile, length_append, headerSize]

lemma headerSize_pos (chk : Bool) (hid : databaseID.length = 16) :
    0 < headerSize databaseID chk := by
  rw [← sum_entryReads_header hid]
  cases chk <;> simp [entryReads]

lemma walFile_ne_nil (hid : databaseID.length = 16) (records : List (WalRecord P)) :
    walFile codec databaseID chk records ≠ [] := by
  have hpos := headerSize_pos chk hid
  rw [← length_pos_iff, length_walFile]
  omega

/-- Entries that fit are written one after the other. -/
lemma writeEntries_spec (mem : Memory) {entries : List (List (List UInt8))}
    (hfits : chk = true → entriesFit pageSize (entries.map fun o => o.map List.length) = true) :
    writeEntries mem pageSize chk entries =
      some (entries.map fun o => entryBytes chk o.flatten).flatten := by
  cases chk with
  | false => rfl
  | true =>
    have hsize : (ChecksumWriter.init mem pageSize).entryBuffer.data.length = pageSize :=
      length_allocateBuffer mem 0 pageSize
    have hfits' : entriesFit (ChecksumWriter.init mem pageSize).entryBuffer.data.length
        (entries.map fun o => o.map List.length) = true := by
      rw [hsize]
      exact hfits rfl
    obtain ⟨w, hw, hout⟩ := writeObjects_of_fits mem hfits'
    rw [writeEntries, if_pos rfl, hw, Option.map_some, hout]
    rfl

lemma growsOnlyEmpty_header (hpage : 17 ≤ pageSize) :
    growsOnlyEmpty pageSize 0 [16, 1] = true ∧ sizeAfter pageSize 0 [16, 1] = pageSize := by
  have hgrown : grownSize pageSize 0 16 = pageSize := if_neg (by omega)
  constructor
  · rw [growsOnlyEmpty, growsOnlyEmpty, hgrown]
    simpa [growsOnlyEmpty] using hpage
  · show grownSize (grownSize pageSize 0 16) 16 1 = pageSize
    rw [hgrown]
    exact if_neg (by omega)

/-- What `logRecords` appends, and what it makes of an empty file. -/
lemma logRecords_spec (mem : Memory) (hpage : 17 ≤ pageSize) (hid : databaseID.length = 16)
    (file : List UInt8) {records : List (WalRecord P)}
    (hfits : chk = true → entriesFit pageSize (records.map (recordWrites codec)) = true) :
    logRecords codec mem pageSize databaseID chk file records =
      some (if file = [] then walFile codec databaseID chk records
        else file ++ recordsBytes codec chk records) := by
  have hlocal : writeEntries mem pageSize chk (records.map (WalRecord.serialize codec)) =
      some (recordsBytes codec chk records) := by
    rw [writeEntries_spec mem (by rwa [map_map]), map_map]
    rfl
  have hheader : writeEntries mem pageSize chk [headerWrites databaseID chk] =
      some (entryBytes chk (headerBytes databaseID chk)) := by
    rw [writeEntries_spec mem fun _ => ?_, map_singleton, flatten_singleton]
    · rfl
    · simp [headerWrites, hid, entriesFit, (growsOnlyEmpty_header hpage).1]
  unfold logRecords initWriter
  split_ifs with hnil
  · rw [hheader, hlocal]
    rfl
  · rw [hlocal]
    rfl

variable {cut off : ℕ} {txs : List (LoggedTransaction P)}

section

variable (mem : Memory) (hpage : 17 ≤ pageSize) (hid : databaseID.length = 16)
  (hfits : chk = true → ∀ t ∈ txs, entriesFit pageSize (t.records.map (recordWrites codec)) = true)

include hpage hid hfits

/-- The transactions that are logged to a file that has a header. -/
lemma logTransactions_walFile (records : List (WalRecord P)) :
    logTransactions codec mem pageSize databaseID chk (walFile codec databaseID chk records) txs =
      some (walFile codec databaseID chk (records ++ txs.flatMap LoggedTransaction.records)) := by
  induction txs generalizing records with
  | nil =>
    rw [flatMap_nil, append_nil]
    rfl
  | cons t txs ih =>
    have hstep := logRecords_spec mem hpage hid (walFile codec databaseID chk records)
      fun hc => hfits hc t (by simp)
    rw [if_neg (walFile_ne_nil hid records), ← walFile_append] at hstep
    rw [logTransactions, foldlM_cons, hstep, flatMap_cons, ← append_assoc]
    exact ih (fun hc u hu => hfits hc u (mem_cons_of_mem t hu)) (records ++ t.records)

/-- The log: a header, then the transactions' records. -/
lemma logTransactions_spec :
    logTransactions codec mem pageSize databaseID chk [] txs =
      some (if txs = [] then []
        else walFile codec databaseID chk (txs.flatMap records)) := by
  cases txs with
  | nil => rfl
  | cons t txs =>
    have hstep := logRecords_spec mem hpage hid [] fun hc => hfits hc t (by simp)
    rw [if_pos rfl] at hstep
    rw [logTransactions, foldlM_cons, hstep, if_neg (by simp), flatMap_cons]
    exact logTransactions_walFile mem hpage hid
      (fun hc u hu => hfits hc u (mem_cons_of_mem t hu)) t.records

/-- The log, with the checkpoint record. -/
lemma logOf_spec (checkpointed : Bool) :
    logOf codec mem pageSize databaseID chk txs checkpointed =
      some (if txs = [] ∧ checkpointed = false then []
        else walFile codec databaseID chk (walRecords txs checkpointed)) := by
  rw [logOf, logTransactions_spec mem hpage hid hfits, walRecords]
  cases checkpointed with
  | false => simp
  | true =>
    have hone : chk = true →
        entriesFit pageSize ([WalRecord.checkpoint].map (recordWrites codec)) = true := by
      intro _
      simp only [map_cons, map_nil, recordWrites, WalRecord.serialize, entriesFit, growsOnlyEmpty]
      simp
    have hstep := fun file => logRecords_spec mem hpage hid file hone
    simp only [Option.bind_eq_bind, Option.bind_some, if_true, hstep]
    by_cases htxs : txs = []
    · subst htxs
      simp
    · rw [if_neg htxs, if_neg (walFile_ne_nil hid _), ← walFile_append]
      simp

end

/-! ### Which transactions are complete -/

/-- The transactions of which all records are among the first `cut` bytes, from `off` on. -/
def completeTransactions (codec : PayloadCodec P) (chk : Bool) (cut : ℕ) :
    ℕ → List (LoggedTransaction P) → List (LoggedTransaction P)
  | _, [] => []
  | off, t :: txs =>
    let stop := off + (recordsBytes codec chk t.records).length
    if stop ≤ cut then t :: completeTransactions codec chk cut stop txs else []

/-- The complete transactions come first, and they are inside the cut. -/
lemma completeTransactions_append (codec : PayloadCodec P) (chk : Bool) (cut off : ℕ)
    (txs : List (LoggedTransaction P)) :
    ∃ rest, txs = completeTransactions codec chk cut off txs ++ rest ∧
      (completeTransactions codec chk cut off txs ≠ [] →
        off + (recordsBytes codec chk ((completeTransactions codec chk cut off txs).flatMap
          records)).length ≤ cut) := by
  induction txs generalizing off with
  | nil => exact ⟨[], rfl, fun h => absurd rfl h⟩
  | cons t txs ih =>
    rw [completeTransactions]
    by_cases hstop : off + (recordsBytes codec chk t.records).length ≤ cut
    · simp only [hstop, if_true]
      obtain ⟨rest, hrest, hle⟩ := ih (off + (recordsBytes codec chk t.records).length)
      refine ⟨rest, by rw [List.cons_append, ← hrest], fun _ => ?_⟩
      rw [List.flatMap_cons, recordsBytes_append, length_append, ← Nat.add_assoc]
      by_cases hnil : completeTransactions codec chk cut
          (off + (recordsBytes codec chk t.records).length) txs = []
      · rw [hnil]
        simpa [recordsBytes] using hstop
      · exact hle hnil
    · simp only [hstop, if_false]
      exact ⟨t :: txs, rfl, fun h => absurd rfl h⟩

/-- Transactions before the cut are complete. -/
lemma completeTransactions_of_le
    (hle : off + (recordsBytes codec chk (txs.flatMap records)).length ≤ cut) :
    completeTransactions codec chk cut off txs = txs := by
  induction txs generalizing off with
  | nil => rfl
  | cons t txs ih =>
    rw [List.flatMap_cons, recordsBytes_append, length_append] at hle
    rw [completeTransactions]
    simp only [show off + (recordsBytes codec chk t.records).length ≤ cut by omega, if_true]
    rw [ih (by omega)]

lemma replayInfoOf_body {info : WalReplayInfo} {body : List (WalRecord P)}
    (hbody : ∀ record ∈ body, record.isEnd = false) (rest : List (WalRecord P)) :
    replayInfoOf codec chk cut off info (body ++ rest) =
      if off + (recordsBytes codec chk body).length ≤ cut then
        replayInfoOf codec chk cut (off + (recordsBytes codec chk body).length) info rest
      else info := by
  induction body generalizing off with
  | nil =>
    have hzero : (recordsBytes codec chk ([] : List (WalRecord P))).length = 0 := rfl
    rw [nil_append, hzero, Nat.add_zero]
    split_ifs with hle
    · rfl
    · exact replayInfoOf_of_le (by omega) info rest
  | cons record body ih =>
    have hsame : record.type ≠ .checkpointRecord ∧ ∀ stop, info.after stop record = info := by
      have hend := hbody record (by simp)
      cases record with
      | commit | checkpoint => simp [WalRecord.isEnd] at hend
      | beginTransaction => exact ⟨by simp [WalRecord.type], fun _ => rfl⟩
      | payload type hasPayload p =>
        refine ⟨?_, fun _ => rfl⟩
        rintro rfl
        simp [WalRecordType.hasPayload] at hasPayload
    have hlen : (recordsBytes codec chk (record :: body)).length =
        recordSize codec chk record + (recordsBytes codec chk body).length := by
      rw [recordsBytes, List.map_cons, List.flatten_cons, length_append, recordSize]
      rfl
    rw [cons_append, replayInfoOf, hlen, if_neg hsame.1, hsame.2,
      ih fun r hr => hbody r (mem_cons_of_mem record hr), ← Nat.add_assoc]
    split_ifs <;> first | rfl | omega

/-- A transaction is replayed if its end is before the cut. -/
lemma replayInfoOf_transaction (info : WalReplayInfo) (t : LoggedTransaction P)
    (rest : List (WalRecord P)) :
    replayInfoOf codec chk cut off info (t.records ++ rest) =
      if off + (recordsBytes codec chk t.records).length ≤ cut then
        replayInfoOf codec chk cut (off + (recordsBytes codec chk t.records).length)
          { info with offsetDeserialized := off + (recordsBytes codec chk t.records).length } rest
      else info := by
  have hbody : ∀ record ∈ WalRecord.beginTransaction :: t.body, record.isEnd = false := by
    intro record hrecord
    rcases mem_cons.mp hrecord with rfl | hmem
    · rfl
    · exact t.body_isEnd record hmem
  have hlen : (recordsBytes codec chk t.records).length =
      (recordsBytes codec chk (.beginTransaction :: t.body)).length +
        recordSize codec chk (.commit : WalRecord P) := by
    rw [records, recordsBytes_append, length_append]
    congr 1
    rw [recordsBytes, map_singleton, flatten_singleton, recordSize]
  rw [records, append_assoc, replayInfoOf_body hbody, singleton_append,
    replayInfoOf, ← records, hlen, ← Nat.add_assoc]
  simp only [WalRecord.type, WalReplayInfo.after, reduceCtorEq, if_false]
  split_ifs <;> first | rfl | omega

/-- The last complete commit record is that of the last complete transaction. -/
lemma replayInfoOf_transactions (info : WalReplayInfo)
    (txs : List (LoggedTransaction P)) (rest : List (WalRecord P)) :
    replayInfoOf codec chk cut off info (txs.flatMap records ++ rest) =
      let complete := completeTransactions codec chk cut off txs
      let stop := off + (recordsBytes codec chk (complete.flatMap records)).length
      let info := if complete = [] then info else { info with offsetDeserialized := stop }
      if complete.length = txs.length then replayInfoOf codec chk cut stop info rest
      else info := by
  induction txs generalizing off info with
  | nil => simp [completeTransactions, recordsBytes]
  | cons t txs ih =>
    rw [List.flatMap_cons, List.append_assoc, replayInfoOf_transaction, completeTransactions]
    by_cases hstop : off + (recordsBytes codec chk t.records).length ≤ cut
    · simp only [hstop, if_true]
      rw [ih]
      simp only [List.flatMap_cons, recordsBytes_append, length_append, ← Nat.add_assoc,
        List.length_cons, Nat.add_right_cancel_iff, reduceCtorEq, if_false]
      by_cases hnil : completeTransactions codec chk cut
          (off + (recordsBytes codec chk t.records).length) txs = []
      · rw [hnil, if_pos rfl]
        rfl
      · rw [if_neg hnil]
    · simp [hstop]

/-! ### Recovery -/

lemma entriesFit_of_append {L : ℕ} {xs ys : List (List ℕ)} (h : entriesFit L (xs ++ ys) = true) :
    entriesFit L xs = true := by
  induction xs generalizing L with
  | nil => rfl
  | cons sizes xs ih =>
    rw [cons_append, entriesFit, Bool.and_eq_true] at h
    rw [entriesFit, Bool.and_eq_true]
    exact ⟨h.1, ih h.2⟩

/-- Truncation drops what was torn. -/
lemma truncateWALFile_append (file rest : List UInt8) :
    truncateWALFile (file ++ rest) file.length = file := by
  unfold truncateWALFile
  split_ifs with hlt
  · exact take_left
  · have hnil : rest = [] := by
      rw [length_append] at hlt
      exact List.length_eq_zero_iff.mp (by omega)
    rw [hnil, append_nil]

/-- What the dry run finds in a log. -/
lemma replayInfoOf_walRecords (txs : List (LoggedTransaction P)) (checkpointed : Bool)
    (hcut : cut ≤ (walFile codec databaseID chk (walRecords txs checkpointed)).length) :
    replayInfoOf codec chk cut (headerSize databaseID chk) ⟨0, false⟩
      (walRecords txs checkpointed) =
      let complete := completeTransactions codec chk cut (headerSize databaseID chk) txs
      if checkpointed = true ∧
          cut = (walFile codec databaseID chk (walRecords txs checkpointed)).length then
        ⟨cut, true⟩
      else
        ⟨if complete = [] then 0
          else (walFile codec databaseID chk (complete.flatMap records)).length, false⟩ := by
  obtain ⟨rest, hrest, -⟩ :=
    completeTransactions_append codec chk cut (headerSize databaseID chk) txs
  have hall := @completeTransactions_of_le P codec chk cut (headerSize databaseID chk) txs
  rw [walRecords, replayInfoOf_transactions]
  rw [walRecords, length_walFile, recordsBytes_append, length_append] at hcut
  simp only [length_walFile, recordsBytes_append, length_append]
  set complete := completeTransactions codec chk cut (headerSize databaseID chk) txs
  cases checkpointed with
  | false =>
    simp only [Bool.false_eq_true, false_and, if_false, replayInfoOf]
    split_ifs <;> rfl
  | true =>
    -- only the last byte of the log completes the checkpoint record
    have hone : (recordsBytes codec chk [(.checkpoint : WalRecord P)]).length =
        recordSize codec chk (.checkpoint : WalRecord P) := by
      rw [recordsBytes, map_singleton, flatten_singleton, recordSize]
    simp only [if_true, hone] at hcut
    simp only [if_true, true_and, hone, replayInfoOf, WalRecord.type, WalReplayInfo.after]
    by_cases heq : cut = headerSize databaseID chk +
        ((recordsBytes codec chk (txs.flatMap records)).length +
          recordSize codec chk (.checkpoint : WalRecord P))
    · rw [if_pos heq, hall (by omega), if_pos rfl, if_pos (by omega)]
      rw [heq, Nat.add_assoc]
    · rw [if_neg heq]
      by_cases hlen : complete.length = txs.length
      -- the cut is inside the checkpoint record
      · have hsame : complete = txs := by
          have hlen' := congrArg List.length hrest
          rw [length_append] at hlen'
          have hnil : rest = [] := List.length_eq_zero_iff.mp (by omega)
          rw [hnil, append_nil] at hrest
          exact hrest.symm
        rw [if_pos hlen, hsame, if_neg (by omega)]
        split_ifs <;> rfl
      · rw [if_neg hlen]
        split_ifs <;> rfl

/-- The payload of `LoadExtensionRecord` is a path; other records have no payload here. -/
abbrev ExtensionPath (t : WalRecordType) :=
  { path : List UInt8 // t = .loadExtensionRecord ∧ path.length < 2 ^ 64 }

def readPath (t : WalRecordType) (value : List UInt8) : ReadProgram (ExtensionPath t) :=
  if h : t = .loadExtensionRecord ∧ value.length < 2 ^ 64 then .done ⟨value, h⟩ else .throw ""

/-- The payload of `LoadExtensionRecord`: the length of the path and its bytes. -/
def stringCodec : PayloadCodec ExtensionPath where
  serialize _ path := [leBytes (.ofNat path.1.length), path.1]
  deserialize t :=
    .read (leBytes 0) fun valueLength =>
      .read (replicate (ofLeBytes valueLength).toNat 0) (readPath t)
  feed_serialize := by
    intro t ⟨path, hpath⟩
    have htake : (leBytes (.ofNat path.length) ++ path).take (leBytes 0).length =
        leBytes (.ofNat path.length) := by
      rw [length_leBytes, ← length_leBytes (.ofNat path.length), take_left]
    have hdrop : (leBytes (.ofNat path.length) ++ path).drop (leBytes 0).length = path := by
      rw [length_leBytes, ← length_leBytes (.ofNat path.length), drop_left]
    have hsize : (ofLeBytes (leBytes (.ofNat path.length))).toNat = path.length := by
      rw [ofLeBytes_leBytes, UInt64.toNat_ofNat_of_lt' hpath.2]
    simp only [ReadProgram.feed, flatten_cons, flatten_nil, append_nil]
    rw [if_pos (by simp), htake, hdrop]
    simp only [length_replicate, hsize]
    rw [if_pos (Nat.le_refl _), take_length, drop_length, readPath, dif_pos hpath]
    rfl

/-- A transaction that loads an extension. -/
def loadExtension (path : List UInt8) (h : path.length < 2 ^ 64) :
    LoggedTransaction ExtensionPath :=
  ⟨[.payload .loadExtensionRecord rfl ⟨path, rfl, h⟩], by simp [WalRecord.isEnd]⟩

end Ladybug
