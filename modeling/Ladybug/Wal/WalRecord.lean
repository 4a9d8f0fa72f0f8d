import Ladybug.Common.Serializer
import Ladybug.Wal.Checksum

/-!
# Records of the write-ahead log

A record is a type byte and a payload. What the payload of a type is, and how it is serialised, is
the parameter `PayloadCodec`; what is assumed of it is that deserialising a payload of some type
reads exactly what serialising it as a payload of that type wrote.
-/

namespace Ladybug

inductive WalRecordType where
  | invalidRecord
  | beginTransactionRecord
  | commitRecord
  | copyTableRecord
  | createCatalogEntryRecord
  | dropCatalogEntryRecord
  | alterTableEntryRecord
  | updateSequenceRecord
  | tableInsertionRecord
  | nodeDeletionRecord
  | nodeUpdateRecord
  | relDeletionRecord
  | relDetachDeleteRecord
  | relUpdateRecord
  | loadExtensionRecord
  | checkpointRecord
  deriving Repr, DecidableEq

namespace WalRecordType

def toByte : WalRecordType → UInt8
  | invalidRecord => 0
  | beginTransactionRecord => 1
  | commitRecord => 2
  | copyTableRecord => 13
  | createCatalogEntryRecord => 14
  | dropCatalogEntryRecord => 16
  | alterTableEntryRecord => 17
  | updateSequenceRecord => 18
  | tableInsertionRecord => 30
  | nodeDeletionRecord => 31
  | nodeUpdateRecord => 32
  | relDeletionRecord => 33
  | relDetachDeleteRecord => 34
  | relUpdateRecord => 35
  | loadExtensionRecord => 100
  | checkpointRecord => 254

def all : List WalRecordType :=
  [invalidRecord, beginTransactionRecord, commitRecord, copyTableRecord, createCatalogEntryRecord,
    dropCatalogEntryRecord, alterTableEntryRecord, updateSequenceRecord, tableInsertionRecord,
    nodeDeletionRecord, nodeUpdateRecord, relDeletionRecord, relDetachDeleteRecord,
    relUpdateRecord, loadExtensionRecord, checkpointRecord]

/-- The type of a byte, if it has one. -/
def ofByte? (b : UInt8) : Option WalRecordType := all.find? fun t => t.toByte == b

lemma ofByte?_toByte (t : WalRecordType) : ofByte? t.toByte = some t := by
  cases t <;> decide

def hasPayload (t : WalRecordType) : Bool :=
  t ≠ invalidRecord ∧ t ≠ beginTransactionRecord ∧ t ≠ commitRecord ∧ t ≠ checkpointRecord

end WalRecordType

/-- How the payloads `P t` of the records of type `t` are serialised. -/
structure PayloadCodec (P : WalRecordType → Type) where
  /-- the calls of `write` -/
  serialize : ∀ t, P t → List (List UInt8)
  deserialize : ∀ t, ReadProgram (P t)
  feed_serialize : ∀ t p, (deserialize t).feed (serialize t p).flatten = some (p, [])

inductive WalRecord (P : WalRecordType → Type) where
  | beginTransaction
  | commit
  | checkpoint
  | payload (type : WalRecordType) (hasPayload : type.hasPayload = true) (p : P type)

namespace WalRecord

variable {P : WalRecordType → Type}

def type : WalRecord P → WalRecordType
  | beginTransaction => .beginTransactionRecord
  | commit => .commitRecord
  | checkpoint => .checkpointRecord
  | payload type _ _ => type

/-- `serialize`: the calls of `write`. -/
def serialize (codec : PayloadCodec P) : WalRecord P → List (List UInt8)
  | payload type _ p => [type.toByte] :: codec.serialize type p
  | record => [[record.type.toByte]]

/-- `deserialize`, after the type has been read. -/
def deserializeType (codec : PayloadCodec P) (type : Option WalRecordType) :
    ReadProgram (WalRecord P) :=
  match type with
  | none => .throw "KU_UNREACHABLE"
  | some t =>
    if h : t.hasPayload = true then (codec.deserialize t).map (payload t h)
    else match t with
      | .beginTransactionRecord => .done beginTransaction
      | .commitRecord => .done commit
      | .checkpointRecord => .done checkpoint
      | _ => .throw "Corrupted wal file. Read out invalid WAL record type."

/-- `deserialize`, between `onObjectBegin` and `onObjectEnd`. -/
def deserialize (codec : PayloadCodec P) : ReadProgram (WalRecord P) :=
  .read [0] fun bytes => deserializeType codec (bytes.head?.bind WalRecordType.ofByte?)

/-- The record ends a transaction, or it is a checkpoint record. -/
def isEnd : WalRecord P → Bool
  | commit => true
  | checkpoint => true
  | _ => false

end WalRecord

end Ladybug
