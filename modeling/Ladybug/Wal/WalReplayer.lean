import Ladybug.Wal.WalRecord

/-!
# Writing and replaying the write-ahead log

The log is a header with the id of the database, the records of each committed transaction
(collected by a `LocalWAL` and appended at commit) and, before a checkpoint is applied, a checkpoint
record. After a crash the file may end anywhere. `dryReplay` looks for the end of the last record
that is a commit or a checkpoint, `replayRecords` reads the records up to there, and the file is
truncated.
-/

namespace Ladybug

variable {P : WalRecordType → Type}

/-! ### Writing -/

/-- One sequence of objects, through a `ChecksumWriter` or straight to the output. -/
def writeEntries (mem : Memory) (pageSize : ℕ) (enableChecksums : Bool)
    (entries : List (List (List UInt8))) : Option (List UInt8) :=
  if enableChecksums then
    (entries.foldlM (ChecksumWriter.writeObject mem) (.init mem pageSize)).map (·.output)
  else some (entries.map List.flatten).flatten

/-- `WAL::writeHeader`. -/
def headerWrites (databaseID : List UInt8) (enableChecksums : Bool) : List (List UInt8) :=
  [databaseID, [if enableChecksums then 1 else 0]]

/-- What `WAL::initWriter` makes of the file: an empty file gets a header. -/
def initWriter (mem : Memory) (pageSize : ℕ) (databaseID : List UInt8) (enableChecksums : Bool)
    (file : List UInt8) : Option (List UInt8) :=
  if file = [] then
    writeEntries mem pageSize enableChecksums [headerWrites databaseID enableChecksums]
  else some file

/-- `WAL::logCommittedWAL` for a `LocalWAL` with the given records, and (as they do the same for a
single record) `WAL::logAndFlushCheckpoint`. -/
def logRecords (codec : PayloadCodec P) (mem : Memory) (pageSize : ℕ) (databaseID : List UInt8)
    (enableChecksums : Bool) (file : List UInt8) (records : List (WalRecord P)) :
    Option (List UInt8) := do
  let file ← initWriter mem pageSize databaseID enableChecksums file
  let localWAL ← writeEntries mem pageSize enableChecksums (records.map (WalRecord.serialize codec))
  return file ++ localWAL

/-- What the `LocalWAL` of a committed transaction holds between its first record and its last. -/
structure LoggedTransaction (P : WalRecordType → Type) where
  body : List (WalRecord P)
  body_isEnd : ∀ record ∈ body, record.isEnd = false

def LoggedTransaction.records (t : LoggedTransaction P) : List (WalRecord P) :=
  .beginTransaction :: t.body ++ [.commit]

section log

variable (codec : PayloadCodec P) (mem : Memory) (pageSize : ℕ) (databaseID : List UInt8)
  (enableChecksums : Bool)

/-- The log after the commits of some transactions. -/
def logTransactions (file : List UInt8) (txs : List (LoggedTransaction P)) : Option (List UInt8) :=
  txs.foldlM (fun file t => logRecords codec mem pageSize databaseID enableChecksums file t.records)
    file

/-- A new log, with or without a checkpoint record at its end. -/
def logOf (txs : List (LoggedTransaction P)) (checkpointed : Bool) : Option (List UInt8) := do
  let file ← logTransactions codec mem pageSize databaseID enableChecksums [] txs
  if checkpointed then
    logRecords codec mem pageSize databaseID enableChecksums file [.checkpoint]
  else return file

end log

/-! ### Reading -/

/-- The reader that `initDeserializer` sets up. -/
inductive WalReader where
  | checksummed (r : ChecksumReader)
  | plain (r : BufferedFileReader)

namespace WalReader

variable (mem : Memory) (pageSize : ℕ)

/-- `initDeserializer`. -/
def init (enableChecksums : Bool) (file : List UInt8) : Except Fault WalReader :=
  if enableChecksums then (ChecksumReader.init mem pageSize file).map checksummed
  else (BufferedFileReader.init pageSize file).map plain

def read (r : WalReader) (data : List UInt8) : Except Fault (List UInt8 × WalReader) :=
  match r with
  | checksummed r => (r.read mem pageSize data).map fun (bytes, r) => (bytes, checksummed r)
  | plain r => (r.read pageSize data).map fun (bytes, r) => (bytes, plain r)

def onObjectBegin : WalReader → WalReader
  | checksummed r => checksummed r.onObjectBegin
  | plain r => plain r

def onObjectEnd : WalReader → Except Fault WalReader
  | checksummed r => (r.onObjectEnd pageSize).map checksummed
  | plain r => .ok (plain r)

def finished : WalReader → Bool
  | checksummed r => r.finished
  | plain r => r.finished

/-- `getReadOffset` of the replayer. -/
def getReadOffset : WalReader → ℕ
  | checksummed r => r.getReadOffset
  | plain r => r.getReadOffset

def run {α : Type} : ReadProgram α → WalReader → Except Fault (α × WalReader)
  | .done a, r => .ok (a, r)
  | .throw message, _ => .error (.exception message)
  | .read data next, r =>
    match r.read mem pageSize data with
    | .error e => .error e
    | .ok (bytes, r) => run (next bytes) r

/-- One object: `onObjectBegin`, the reads, `onObjectEnd`. -/
def readObject {α : Type} (program : ReadProgram α) (r : WalReader) :
    Except Fault (α × WalReader) :=
  match run mem pageSize program r.onObjectBegin with
  | .error e => .error e
  | .ok (a, r) => (r.onObjectEnd pageSize).map fun r => (a, r)

end WalReader

/-- `readWALHeader`, and what is done with the database id and the flag before `onObjectEnd`. -/
def readWALHeader (check : List UInt8 → Bool → ReadProgram Unit) : ReadProgram Unit :=
  .read (List.replicate 16 0) fun databaseID => .read [0] fun bytes =>
    check databaseID (bytes != [0])

def checkWALHeader (enableChecksums : Bool) (_ : List UInt8) (flag : Bool) : ReadProgram Unit :=
  if enableChecksums ≠ flag then
    .throw "The database you are trying to open was serialized with another enableChecksums"
  else .done ()

def verifyDatabaseID (expectedDatabaseID databaseID : List UInt8) (_ : Bool) : ReadProgram Unit :=
  if expectedDatabaseID ≠ databaseID then
    .throw "Database ID for temporary file does not match the current database"
  else .done ()

structure WalReplayInfo where
  offsetDeserialized : ℕ
  isLastRecordCheckpoint : Bool
  deriving Repr, DecidableEq

section replay

variable (codec : PayloadCodec P) (mem : Memory) (pageSize : ℕ)

/-- The loop of `dryReplay`, with what it has found so far and how it ended; `none` only when `fuel`
is used up. -/
def dryReplayLoop : ℕ → WalReader → WalReplayInfo → Option (WalReplayInfo × Option Fault)
  | 0, _, _ => none
  | fuel + 1, r, info =>
    match r.readObject mem pageSize (WalRecord.deserialize codec) with
    | .error e => some (info, some e)
    | .ok (.checkpoint, r) => some (⟨r.getReadOffset, true⟩, none)
    | .ok (.commit, r) =>
      let info := { info with offsetDeserialized := r.getReadOffset }
      if r.finished then some (info, none) else dryReplayLoop fuel r info
    | .ok (_, r) => if r.finished then some (info, none) else dryReplayLoop fuel r info

def dryReplay (enableChecksums throwOnWalReplayFailure : Bool) (file : List UInt8) :
    Option (Except Fault WalReplayInfo) :=
  let found : Option (WalReplayInfo × Option Fault) :=
    match WalReader.init mem pageSize enableChecksums file with
    | .error e => some (⟨0, false⟩, some e)
    | .ok r =>
      match r.readObject mem pageSize (readWALHeader (checkWALHeader enableChecksums)) with
      | .error e => some (⟨0, false⟩, some e)
      | .ok (_, r) =>
        if r.finished then some (⟨0, false⟩, none)
        else dryReplayLoop codec mem pageSize (file.length + 1) r ⟨0, false⟩
  found.map fun
    | (info, none) => .ok info
    | (_, some .undefinedBehavior) => .error .undefinedBehavior
    | (info, some (.exception message)) =>
      if throwOnWalReplayFailure then .error (.exception message) else .ok info

/-- The loop of `replay`: the records up to `offsetDeserialized`, in order. -/
def replayLoop (offsetDeserialized : ℕ) :
    ℕ → WalReader → Option (Except Fault (List (WalRecord P)))
  | 0, _ => none
  | fuel + 1, r =>
    if r.getReadOffset < offsetDeserialized then
      match r.readObject mem pageSize (WalRecord.deserialize codec) with
      | .error e => some (.error e)
      | .ok (record, r) =>
        (replayLoop offsetDeserialized fuel r).map fun rest => rest.map (record :: ·)
    else some (.ok [])

/-- The records that `replay` replays when there is no checkpoint record. -/
def replayRecords (databaseID : List UInt8) (enableChecksums : Bool) (file : List UInt8)
    (offsetDeserialized : ℕ) : Option (Except Fault (List (WalRecord P))) :=
  match WalReader.init mem pageSize enableChecksums file with
  | .error e => some (.error e)
  | .ok r =>
    if offsetDeserialized > 0 then
      match r.readObject mem pageSize (readWALHeader (verifyDatabaseID databaseID)) with
      | .error e => some (.error e)
      | .ok (_, r) => replayLoop codec mem pageSize offsetDeserialized (file.length + 1) r
    else replayLoop codec mem pageSize offsetDeserialized (file.length + 1) r

end replay

def truncateWALFile (file : List UInt8) (size : ℕ) : List UInt8 :=
  if file.length > size then file.take size else file

end Ladybug
