import Ladybug.Wal.Equiv.WalReader

/-!
# Correctness of the replay of a cut log

* `dryReplayLoop_spec`: the loop of `dryReplay` finds the end of the last complete commit or
  checkpoint record;
* `dryReplay_spec` and `replayRecords_spec`: the same for a whole file, with its header.
-/

namespace Ladybug

open List ReadProgram WalRecord WalReader
open ReadProgram (feed)

variable {P : WalRecordType → Type} {codec : PayloadCodec P} {pageSize off fill L : ℕ}
  {file : List UInt8} {chk : Bool} {r r' : WalReader} {mem : Memory}

/-! ### One record -/

def recordBytes (codec : PayloadCodec P) (record : WalRecord P) : List UInt8 :=
  (record.serialize codec).flatten

/-- The sizes of the reads that deserialise a record. -/
def recordReads (codec : PayloadCodec P) (record : WalRecord P) : List ℕ :=
  (WalRecord.deserialize codec).readSizes (recordBytes codec record)

/-- The size of a record in the log. -/
def recordSize (codec : PayloadCodec P) (chk : Bool) (record : WalRecord P) : ℕ :=
  (entryBytes chk (recordBytes codec record)).length

lemma recordBytes_eq_cons (codec : PayloadCodec P) (record : WalRecord P) :
    ∃ rest, recordBytes codec record = record.type.toByte :: rest := by
  cases record with
  | payload type hasPayload p => exact ⟨(codec.serialize type p).flatten, rfl⟩
  | beginTransaction | commit | checkpoint => exact ⟨[], rfl⟩

lemma recordSize_pos (codec : PayloadCodec P) (chk : Bool) (record : WalRecord P) :
    0 < recordSize codec chk record := by
  obtain ⟨rest, hrest⟩ := recordBytes_eq_cons codec record
  cases chk <;> simp [recordSize, entryBytes, frame, hrest]

lemma deserializeType_payload {type : WalRecordType} (h : type.hasPayload = true) :
    deserializeType codec (some type) = (codec.deserialize type).map (.payload type h) := by
  exact dif_pos h

/-- A record is read back. -/
lemma feed_deserialize (codec : PayloadCodec P) (record : WalRecord P) :
    (deserialize codec).feed (recordBytes codec record) = some (record, []) := by
  have hfirst : ∀ rest : List UInt8,
      (deserialize codec).feed (record.type.toByte :: rest) =
        (deserializeType codec (some record.type)).feed rest := by
    intro rest
    simp [deserialize, feed, WalRecordType.ofByte?_toByte]
  cases record with
  | payload type hasPayload p =>
    rw [recordBytes, serialize, flatten_cons]
    refine (hfirst (codec.serialize type p).flatten).trans ?_
    rw [WalRecord.type, deserializeType_payload hasPayload, feed_map, codec.feed_serialize]
    rfl
  | beginTransaction | commit | checkpoint => exact hfirst []

/-- A mapped program returns mapped results. -/
lemma run_map {α β : Type} {f : α → β} {p : ReadProgram α} {b : β}
    {r : WalReader} (h : run mem pageSize (p.map f) r = .ok (b, r')) :
    ∃ a, b = f a := by
  induction p generalizing r with
  | done a =>
    simp only [ReadProgram.map, run, Except.ok.injEq, Prod.mk.injEq] at h
    exact ⟨a, h.1.symm⟩
  | throw message => simp [ReadProgram.map, run] at h
  | read data next ih =>
    simp only [ReadProgram.map, run] at h
    cases hread : r.read mem pageSize data with
    | error e => simp [hread] at h
    | ok x =>
      rw [hread] at h
      exact ih x.1 h

variable {fuel : ℕ} {databaseID more rest : List UInt8} {record : WalRecord P}
  {records : List (WalRecord P)} {check : List UInt8 → Bool → ReadProgram Unit}

/-- An exception, or a record with a payload at the end of the file. -/
def TornRecord (result : Except Fault (WalRecord P × WalReader)) : Prop :=
  (∃ message, result = .error (.exception message)) ∨
    ∃ type hasPayload p r, result = .ok (.payload type hasPayload p, r) ∧ r.finished = true

/-- Without checksums, a record of which the end is missing is refused, or taken for a record of the
same type at the end of the file. -/
lemma readRecord_torn_plain (mem : Memory) (h : WalAt pageSize false L file off fill r)
    {cut : List UInt8} (hcut : cut ≠ []) (hmore : more ≠ [])
    (hbytes : recordBytes codec record = cut ++ more) (hfile : file.drop off = cut)
    (hsafe : cutSafe pageSize file.length off fill (recordReads codec record) = true) :
    TornRecord (r.readObject mem pageSize (deserialize codec)) := by
  obtain ⟨b, cut', rfl⟩ := exists_cons_of_ne_nil hcut
  have hlenfile : file.length - off = cut'.length + 1 := by
    rw [← length_drop, hfile, length_cons]
  -- only a record with a payload has more than its type
  obtain ⟨type, hasPayload, p, rfl⟩ :
      ∃ type hasPayload p, record = .payload type hasPayload p := by
    cases record with
    | payload type hasPayload p => exact ⟨type, hasPayload, p, rfl⟩
    | beginTransaction | commit | checkpoint =>
      have hlen := congrArg List.length hbytes
      have := length_pos_iff.mpr hmore
      simp only [recordBytes, serialize, flatten_cons, flatten_nil,
        List.length_append, List.length_cons, List.length_nil] at hlen
      omega
  have hbytes' : type.toByte = b ∧ (codec.serialize type p).flatten = cut' ++ more := by
    simpa [recordBytes, serialize] using hbytes
  obtain ⟨rfl, hpayload⟩ := hbytes'
  cases r with
  | checksummed c => exact absurd h.kind (by simp [isChecksummed])
  | plain d =>
    -- the type is there
    obtain ⟨d1, hread, hat1, hdrop⟩ := read_append h.readerAt
      (show file.drop off = [type.toByte] ++ cut' from hfile)
      (show ([0] : List UInt8).length ≤ 1 from le_rfl)
    have hnext : deserializeType codec
        (([type.toByte] : List UInt8).head?.bind WalRecordType.ofByte?) =
          (codec.deserialize type).map (.payload type hasPayload) := by
      rw [head?_cons, Option.bind_some, WalRecordType.ofByte?_toByte,
        deserializeType_payload hasPayload]
    have hrun : (plain d).run mem pageSize (deserialize codec) =
        run mem pageSize ((codec.deserialize type).map (.payload type hasPayload)) (.plain d1) := by
      rw [deserialize, run, WalReader.read]
      simp only [WalReader.base] at hread
      rw [hread]
      simp only [Except.map]
      exact congrArg (run mem pageSize · (.plain d1)) hnext
    have hsizes : recordReads codec (.payload type hasPayload p) =
        1 :: (codec.deserialize type).readSizes (cut' ++ more) := by
      have hrest : (type.toByte :: (cut' ++ more)).drop 1 = cut' ++ more := rfl
      rw [recordReads, hbytes, deserialize, readSizes]
      simp only [length_cons, length_nil, Nat.zero_add, cons_append, hrest]
      rw [show (type.toByte :: (cut' ++ more)).take 1 = [type.toByte] from rfl, hnext,
        readSizes_map]
    rw [hsizes, cutSafe, if_pos (by omega)] at hsafe
    have htorn := run_torn mem (r := .plain d1)
      (p := (codec.deserialize type).map (WalRecord.payload type hasPayload)) hmore rfl hat1
      (hdrop.trans rfl : _ = cut') (by rw [feed_map, ← hpayload, codec.feed_serialize]; rfl)
      (by rw [readSizes_map]; exact hsafe)
    rw [readObject, show (plain d).onObjectBegin = .plain d from rfl, hrun]
    rcases htorn with ⟨message, hm⟩ | ⟨record, r', hok, hpast, -, hkind⟩
    · exact .inl ⟨message, by rw [hm]⟩
    · obtain ⟨p', rfl⟩ := run_map hok
      cases r' with
      | checksummed c => simp [isChecksummed] at hkind
      | plain d' => exact .inr ⟨type, hasPayload, p', .plain d', by rw [hok]; rfl, hpast.finished⟩

/-! ### The records of a file -/

/-- The bytes of a sequence of records in the log. -/
def recordsBytes (codec : PayloadCodec P) (chk : Bool) (records : List (WalRecord P)) :
    List UInt8 :=
  (records.map fun record => entryBytes chk (recordBytes codec record)).flatten

/-- The sizes of the reads for a sequence of records. -/
def recordsReads (codec : PayloadCodec P) (chk : Bool) (records : List (WalRecord P)) : List ℕ :=
  (records.map fun record => entryReads chk (recordReads codec record)).flatten

/-- What is known after a record that ends at `off`. -/
def WalReplayInfo.after (info : WalReplayInfo) (off : ℕ) : WalRecord P → WalReplayInfo
  | .checkpoint => ⟨off, true⟩
  | .commit => { info with offsetDeserialized := off }
  | .beginTransaction => info
  | .payload _ _ _ => info

/-- What `dryReplay` should find in a file of `cut` bytes, from a record at `off` on: the end of the
last complete commit record, or of a checkpoint record. -/
def replayInfoOf (codec : PayloadCodec P) (chk : Bool) (cut : ℕ) :
    ℕ → WalReplayInfo → List (WalRecord P) → WalReplayInfo
  | _, info, [] => info
  | off, info, record :: records =>
    if off + recordSize codec chk record ≤ cut then
      if record.type = .checkpointRecord then info.after (off + recordSize codec chk record) record
      else replayInfoOf codec chk cut (off + recordSize codec chk record)
        (info.after (off + recordSize codec chk record) record) records
    else info

/-- Nothing is replayed past the cut. -/
lemma replayInfoOf_of_le {cut : ℕ} (hle : cut ≤ off) (info : WalReplayInfo)
    (records : List (WalRecord P)) : replayInfoOf codec chk cut off info records = info := by
  cases records with
  | nil => rfl
  | cons record records =>
    have := recordSize_pos codec chk record
    rw [replayInfoOf, if_neg (by omega)]

lemma WalAt.getReadOffset (h : WalAt pageSize chk L file off fill r) : r.getReadOffset = off := by
  cases r <;> exact h.readerAt.readOffset_eq

/-- The reader is finished at the end of the file. -/
lemma WalAt.finished_iff (h : WalAt pageSize chk L file off fill r) :
    r.finished = true ↔ off = file.length := by
  cases r <;> exact h.readerAt.finished_iff

lemma dryReplayLoop_ok {info : WalReplayInfo}
    (h : r.readObject mem pageSize (deserialize codec) = .ok (record, r')) :
    dryReplayLoop codec mem pageSize (fuel + 1) r info =
      if record.type = .checkpointRecord ∨ r'.finished = true then
        some (info.after r'.getReadOffset record, none)
      else dryReplayLoop codec mem pageSize fuel r' (info.after r'.getReadOffset record) := by
  conv_lhs => unfold dryReplayLoop
  rw [h]
  cases record with
  | checkpoint | commit | beginTransaction => simp [WalRecord.type, WalReplayInfo.after]
  | payload type hasPayload p =>
    have hne : type ≠ .checkpointRecord := by
      rintro rfl
      simp [WalRecordType.hasPayload] at hasPayload
    simp [WalRecord.type, WalReplayInfo.after, hne]

/-- Two splits of one list. -/
lemma append_split {xs ys zs ws : List UInt8} (h : xs ++ ys = zs ++ ws)
    (hle : xs.length ≤ zs.length) : ∃ us, zs = xs ++ us ∧ ys = us ++ ws := by
  obtain ⟨us, rfl⟩ := prefix_of_prefix_length_le ⟨ys, h⟩ (prefix_append zs ws) hle
  rw [append_assoc, append_cancel_left_eq] at h
  exact ⟨us, rfl, h⟩

/-- **The dry run** finds the last complete commit. -/
lemma dryReplayLoop_spec (mem : Memory) (hpage : 8 ≤ pageSize) (info : WalReplayInfo)
    (h : WalAt pageSize chk L file off fill r)
    (hfile : recordsBytes codec chk records = file.drop off ++ rest) (hoff : off < file.length)
    (hfuel : file.length - off ≤ fuel)
    (hfits : chk = true → entriesFit L (records.map (recordReads codec)) = true)
    (hsafe : cutSafe pageSize file.length off fill (recordsReads codec chk records) = true) :
    ∃ fault, dryReplayLoop codec mem pageSize fuel r info =
        some (replayInfoOf codec chk file.length off info records, fault) ∧
      fault ≠ some .undefinedBehavior := by
  induction records generalizing r off fill L info fuel with
  | nil =>
    have hnil : file.drop off = [] := (append_eq_nil_iff.mp hfile.symm).1
    rw [drop_eq_nil_iff] at hnil
    omega
  | cons record records ih =>
    obtain ⟨fuel, rfl⟩ : ∃ n, fuel = n + 1 := ⟨fuel - 1, by omega⟩
    have hpos := recordSize_pos codec chk record
    have hlen : (file.drop off).length = file.length - off := length_drop
    rw [recordsBytes, map_cons, flatten_cons] at hfile
    rw [recordsReads, map_cons, flatten_cons] at hsafe
    rw [replayInfoOf]
    by_cases hcomplete : off + recordSize codec chk record ≤ file.length
    · -- the record is there in full
      rw [if_pos hcomplete]
      obtain ⟨us, hdrop, hrest⟩ := append_split hfile (by rw [hlen, ← recordSize]; omega)
      have hsum := sum_readSizes (feed_deserialize codec record)
      obtain ⟨⟨r', hobj, hat'⟩, hnext, hfits'⟩ :=
        readObject_complete mem h hdrop (feed_deserialize codec record) hfits
      rw [dryReplayLoop_ok hobj, hat'.getReadOffset, ← recordSize]
      rw [← recordSize] at hat'
      -- a checkpoint record or the end of the file ends the loop
      by_cases hcp : record.type = .checkpointRecord
      · rw [if_pos (.inl hcp), if_pos hcp]
        exact ⟨none, rfl, by simp⟩
      · rw [if_neg hcp]
        by_cases hfin : r'.finished = true
        · rw [if_pos (.inr hfin),
            replayInfoOf_of_le (Nat.le_of_eq (hat'.finished_iff.mp hfin).symm)]
          exact ⟨none, rfl, by simp⟩
        · rw [if_neg fun ho => ho.elim hcp hfin]
          have hne : off + recordSize codec chk record ≠ file.length :=
            fun heq => hfin (hat'.finished_iff.mpr heq)
          have hreads : (entryReads chk (recordReads codec record)).sum =
              recordSize codec chk record := by
            cases chk <;> simp [entryReads, recordReads, hsum, recordSize, entryBytes, frame]
          have hsafe' := hsafe
          rw [cutSafe_append (by omega), hreads] at hsafe'
          refine ih _ hat' ?_ (by omega) (by omega) hfits' hsafe'
          rw [recordSize, hnext]
          exact hrest
    · -- the file ends inside the record
      rw [if_neg hcomplete]
      obtain ⟨us, hentry, -⟩ := append_split hfile.symm (by rw [hlen, ← recordSize]; omega)
      have hus : us ≠ [] := by
        rintro rfl
        have := congrArg List.length hentry
        rw [append_nil, hlen, ← recordSize] at this
        omega
      have hcut : file.drop off ≠ [] := by
        rw [ne_eq, drop_eq_nil_iff]
        omega
      have htorn : TornRecord (r.readObject mem pageSize (deserialize codec)) := by
        have hsafe := cutSafe_of_append hsafe
        cases chk with
        | true =>
          exact .inl (readObject_torn mem hpage h hus hentry rfl (feed_deserialize codec record)
            hsafe)
        | false =>
          rw [entryReads, if_neg (by simp), append_nil] at hsafe
          exact readRecord_torn_plain mem h hcut hus hentry rfl hsafe
      -- the torn record is reported, or taken for the end of the log
      rcases htorn with ⟨message, hm⟩ | ⟨type, hasPayload, p, r', hobj, hfin⟩
      · refine ⟨some (.exception message), ?_, by simp⟩
        rw [dryReplayLoop, hm]
      · refine ⟨none, ?_, by simp⟩
        rw [dryReplayLoop_ok hobj, if_pos (.inr hfin)]
        rfl

/-- **The replay** reads the records. -/
lemma replayLoop_spec (mem : Memory) (h : WalAt pageSize chk L file off fill r)
    (hfile : file.drop off = recordsBytes codec chk records ++ rest)
    (hfuel : (recordsBytes codec chk records).length < fuel)
    (hfits : chk = true → entriesFit L (records.map (recordReads codec)) = true) :
    replayLoop codec mem pageSize (off + (recordsBytes codec chk records).length) fuel r =
      some (.ok records) := by
  induction records generalizing r off fill L fuel with
  | nil =>
    obtain ⟨fuel, rfl⟩ : ∃ n, fuel = n + 1 := ⟨fuel - 1, by omega⟩
    rw [replayLoop, h.getReadOffset, if_neg (by simp [recordsBytes])]
  | cons record records ih =>
    obtain ⟨fuel, rfl⟩ : ∃ n, fuel = n + 1 := ⟨fuel - 1, by omega⟩
    have hpos := recordSize_pos codec chk record
    have hcons : recordsBytes codec chk (record :: records) =
        entryBytes chk (recordBytes codec record) ++ recordsBytes codec chk records := rfl
    have hlen : (recordsBytes codec chk (record :: records)).length =
        recordSize codec chk record + (recordsBytes codec chk records).length := by
      rw [hcons, List.length_append, recordSize]
    rw [hcons, append_assoc] at hfile
    obtain ⟨⟨r', hobj, hat'⟩, hdrop, hfits'⟩ :=
      readObject_complete mem h hfile (feed_deserialize codec record) hfits
    rw [← recordSize] at hat' hdrop
    have hrec := ih hat' hdrop (show _ < fuel by omega) hfits'
    rw [replayLoop, h.getReadOffset, if_pos (by omega), hobj, hlen, ← Nat.add_assoc]
    simp only [hrec]
    rfl

/-! ### The header -/

def headerBytes (databaseID : List UInt8) (chk : Bool) : List UInt8 :=
  (headerWrites databaseID chk).flatten

/-- The size of the header in the log. -/
def headerSize (databaseID : List UInt8) (chk : Bool) : ℕ :=
  (entryBytes chk (headerBytes databaseID chk)).length

/-- The header is read back. -/
lemma feed_readWALHeader (hid : databaseID.length = 16)
    (hcheck : check databaseID chk = .done ()) :
    (readWALHeader check).feed (headerBytes databaseID chk) = some ((), []) ∧
      (readWALHeader check).readSizes (headerBytes databaseID chk) = [16, 1] := by
  have hbytes : headerBytes databaseID chk = databaseID ++ [if chk then 1 else 0] := by
    simp [headerBytes, headerWrites]
  have hflag : ([if chk = true then 1 else 0] != ([0] : List UInt8)) = chk := by
    cases chk <;> rfl
  have htake : (databaseID ++ [if chk = true then (1 : UInt8) else 0]).take 16 = databaseID := by
    rw [← hid, take_left]
  have hdrop : (databaseID ++ [if chk = true then (1 : UInt8) else 0]).drop 16 =
      [if chk = true then 1 else 0] := by
    rw [← hid, drop_left]
  rw [hbytes]
  constructor
  · rw [readWALHeader, feed]
    simp only [length_replicate, htake, hdrop]
    rw [if_pos (by simp [hid]), feed]
    simp [hflag, hcheck, feed]
  · rw [readWALHeader, readSizes]
    simp only [length_replicate, htake, hdrop, readSizes]
    simp [hflag, hcheck, readSizes]

/-- A fresh reader is at the start. -/
lemma walAt_init (pageSize : ℕ) (mem : Memory) (chk : Bool) (hfile : file ≠ []) :
    ∃ r, init mem pageSize chk file = .ok r ∧ WalAt pageSize chk pageSize file 0 pageSize r := by
  obtain ⟨d, hd, hat⟩ := readerAt_init pageSize hfile
  cases chk with
  | false => exact ⟨.plain d, by rw [init, if_neg (by simp), hd]; rfl, hat, rfl, by simp⟩
  | true =>
    refine ⟨.checksummed ⟨d, none, .allocateBuffer mem 0 pageSize⟩, ?_, hat, rfl, fun _ => ?_⟩
    · rw [init, if_pos rfl, ChecksumReader.init, hd]
      rfl
    · exact length_allocateBuffer mem 0 pageSize

/-- A complete header is read. -/
lemma readHeader_complete (mem : Memory) (hid : databaseID.length = 16)
    (hcheck : check databaseID chk = .done ()) (h : WalAt pageSize chk L file 0 fill r)
    (hfile : file = entryBytes chk (headerBytes databaseID chk) ++ rest)
    {entries : List (List ℕ)} (hfits : chk = true → entriesFit L ([16, 1] :: entries) = true) :
    (∃ r', r.readObject mem pageSize (readWALHeader check) = .ok ((), r') ∧ WalAt pageSize chk
      (sizeAfter L 0 [16, 1]) file (headerSize databaseID chk) (fillAfter pageSize 0 fill
      (entryReads chk [16, 1])) r') ∧
      file.drop (headerSize databaseID chk) = rest ∧
      (chk = true → entriesFit (sizeAfter L 0 [16, 1]) entries = true) := by
  obtain ⟨hfeed, hsizes⟩ := feed_readWALHeader hid hcheck
  have hdrop : file.drop 0 = entryBytes chk (headerBytes databaseID chk) ++ rest := hfile
  rw [← hsizes] at hfits
  have hobj := readObject_complete mem h hdrop hfeed hfits
  rwa [hsizes, ← headerSize, Nat.zero_add] at hobj

/-- A torn header is an error or the end of the log. -/
lemma readHeader_torn (mem : Memory) (hpage : 8 ≤ pageSize) (hid : databaseID.length = 16)
    (hcheck : check databaseID chk = .done ()) (hmore : more ≠ [])
    (h : WalAt pageSize chk L file 0 fill r)
    (hfile : entryBytes chk (headerBytes databaseID chk) = file ++ more)
    (hsafe : cutSafe pageSize file.length 0 fill (entryReads chk [16, 1]) = true) :
    (∃ message, r.readObject mem pageSize (readWALHeader check) = .error (.exception message)) ∨
      ∃ r', r.readObject mem pageSize (readWALHeader check) = .ok ((), r') ∧
        r'.finished = true := by
  obtain ⟨hfeed, hsizes⟩ := feed_readWALHeader hid hcheck
  cases chk with
  | true =>
    refine .inl (readObject_torn mem hpage h hmore hfile rfl hfeed ?_)
    rwa [hsizes]
  | false =>
    have hbytes : headerBytes databaseID false = file ++ more := hfile
    rw [entryReads, if_neg (by simp), append_nil] at hsafe
    cases r with
    | checksummed c => exact absurd h.kind (by simp [isChecksummed])
    | plain d =>
      have htorn := run_torn mem (p := readWALHeader check) hmore rfl h.readerAt rfl
        (by rw [drop_zero, ← hbytes]; exact hfeed)
        (by rw [drop_zero, ← hbytes, hsizes]; exact hsafe)
      rw [readObject, show (plain d).onObjectBegin = .plain d from rfl]
      rcases htorn with ⟨message, hm⟩ | ⟨_, r', hok, hpast, -, hkind⟩
      · exact .inl ⟨message, by rw [hm]⟩
      · cases r' with
        | checksummed c => simp [isChecksummed] at hkind
        | plain d' => exact .inr ⟨.plain d', by rw [hok]; rfl, hpast.finished⟩

/-! ### The whole file -/

lemma sum_entryReads_header (hid : databaseID.length = 16) :
    (entryReads chk [16, 1]).sum = headerSize databaseID chk := by
  cases chk <;> simp [entryReads, headerSize, entryBytes, headerBytes, headerWrites, frame, hid]

/-- The dry run, header included. -/
lemma dryReplay_spec (mem : Memory) (hpage : 8 ≤ pageSize) (hid : databaseID.length = 16)
    (hfile : entryBytes chk (headerBytes databaseID chk) ++ recordsBytes codec chk records =
      file ++ rest) (hfits : chk = true →
      entriesFit pageSize ([16, 1] :: records.map (recordReads codec)) = true)
    (hsafe : cutSafe pageSize file.length 0 pageSize
      (entryReads chk [16, 1] ++ recordsReads codec chk records) = true) :
    dryReplay codec mem pageSize chk false file =
      some (.ok (replayInfoOf codec chk file.length (headerSize databaseID chk) ⟨0, false⟩
        records)) := by
  have hcheck : checkWALHeader chk databaseID chk = .done () := by simp [checkWALHeader]
  unfold dryReplay
  by_cases hnil : file = []
  · subst hnil
    rw [length_nil, replayInfoOf_of_le (Nat.zero_le _)]
    cases chk <;> rfl
  obtain ⟨r, hinit, hat⟩ := walAt_init pageSize mem chk hnil
  simp only [hinit]
  by_cases hheader : headerSize databaseID chk ≤ file.length
  · -- the header is there, and the loop does the rest
    obtain ⟨us, hus, hrecords⟩ := append_split hfile hheader
    obtain ⟨⟨r', hobj, hat'⟩, hdrop, hfits'⟩ := readHeader_complete mem hid hcheck hat hus hfits
    simp only [hobj]
    -- a log with the header only
    by_cases hfin : r'.finished = true
    · rw [if_pos hfin, replayInfoOf_of_le (Nat.le_of_eq (hat'.finished_iff.mp hfin).symm)]
      rfl
    · have hne : headerSize databaseID chk ≠ file.length :=
        fun heq => hfin (hat'.finished_iff.mpr heq)
      rw [if_neg hfin]
      rw [cutSafe_append (by rw [Nat.zero_add, sum_entryReads_header hid]; exact hheader),
        Nat.zero_add, sum_entryReads_header hid] at hsafe
      obtain ⟨fault, hloop, hfault⟩ := dryReplayLoop_spec mem hpage ⟨0, false⟩ hat'
        (by rw [hdrop]; exact hrecords) (by omega) (show _ ≤ file.length + 1 by omega)
        hfits' hsafe
      rw [hloop]
      match fault, hfault with
      | none, _ => rfl
      | some (.exception message), _ => rfl
      | some .undefinedBehavior, hub => exact absurd rfl hub
  · -- the file ends inside the header
    rw [replayInfoOf_of_le (by omega)]
    obtain ⟨more, hmore, -⟩ := append_split hfile.symm (by rw [← headerSize]; omega)
    have hmore' : more ≠ [] := by
      rintro rfl
      rw [append_nil] at hmore
      exact hheader (Nat.le_of_eq (congrArg List.length hmore))
    rcases readHeader_torn mem hpage hid hcheck hmore' hat hmore (cutSafe_of_append hsafe) with
      ⟨message, hm⟩ | ⟨r', hobj, hfin⟩
    · simp only [hm]
      rfl
    · simp only [hobj, hfin]
      rfl

/-- The replay, header included. -/
lemma replayRecords_spec (mem : Memory) (hid : databaseID.length = 16)
    (hfile : file = entryBytes chk (headerBytes databaseID chk) ++
      (recordsBytes codec chk records ++ rest)) (hfits : chk = true →
      entriesFit pageSize ([16, 1] :: records.map (recordReads codec)) = true) :
    replayRecords codec mem pageSize databaseID chk file
        (headerSize databaseID chk + (recordsBytes codec chk records).length) =
      some (.ok records) := by
  have hcheck : verifyDatabaseID databaseID databaseID chk = .done () := by
    simp [verifyDatabaseID]
  have hpos : 0 < headerSize databaseID chk := by
    rw [← sum_entryReads_header hid]
    cases chk <;> simp [entryReads]
  have hlen : file.length = headerSize databaseID chk +
      ((recordsBytes codec chk records).length + rest.length) := by
    rw [hfile, List.length_append, List.length_append, headerSize]
  have hne : file ≠ [] := by
    rintro rfl
    simp only [length_nil] at hlen
    omega
  obtain ⟨r, hinit, hat⟩ := walAt_init pageSize mem chk hne
  obtain ⟨⟨r', hobj, hat'⟩, hdrop, hfits'⟩ := readHeader_complete mem hid hcheck hat hfile hfits
  unfold replayRecords
  simp only [hinit, hobj]
  rw [if_pos (by omega)]
  exact replayLoop_spec mem hat' hdrop (by omega) hfits'

end Ladybug
