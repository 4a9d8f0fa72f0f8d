import Ladybug.Wal.Equiv.BufferedFile

/-!
# Sequences of buffered reads and writes

A reader that is used as it has to be stands inside its file (`ReaderAt`), also after a read that
threw, so one step lemma decides every sequence of reads:

* `bufferedFileReader_reads_iff`: all reads of a sequence are right iff each of them stays in reach;
* `bufferedFile_roundTrip`: what was written is what is read, however both are split.
-/

namespace Ladybug

open List BufferedFileReader

namespace BufferedFileReader

variable (pageSize : ℕ)

/-- A read is right: it returns the next bytes if the file has that many, and throws if not. -/
def ReadsNext (r : BufferedFileReader) (data : List UInt8) : Prop :=
  match r.read pageSize data with
  | .ok (bytes, r') =>
    r.getReadOffset + data.length ≤ r.file.length ∧
      bytes = (r.file.drop r.getReadOffset).take data.length ∧
      r'.getReadOffset = r.getReadOffset + data.length
  | .error fault =>
    (∃ message, fault = .exception message) ∧ r.file.length < r.getReadOffset + data.length

/-- A read stays in reach: it is inside the file, or it fits a page and the buffer holds the end of
the file. -/
def InReach (r : BufferedFileReader) (data : List UInt8) : Prop :=
  r.getReadOffset + data.length ≤ r.file.length ∨
    data.length ≤ pageSize ∧ r.file.length ≤ r.fileOffset

/-- `P` holds of each read of a sequence. -/
def Throughout (P : BufferedFileReader → List UInt8 → Prop) :
    BufferedFileReader → List (List UInt8) → Prop
  | _, [] => True
  | r, data :: reads => P r data ∧ Throughout P (r.next pageSize data) reads

end BufferedFileReader

variable {pageSize off fill : ℕ} {file : List UInt8} {r : BufferedFileReader}

/-! ### One read -/

section

variable (h : ReaderAt pageSize file off fill r)

include h

lemma ReaderAt.afterThrow {size : ℕ} (hsmall : size ≤ pageSize) (hfilled : file.length ≤ fill) :
    ReaderAt pageSize file file.length fill (r.afterThrow pageSize size) := by
  have hfo := h.fileOffset_eq
  have hbs := h.size_le
  rw [BufferedFileReader.afterThrow, if_neg (by omega)]
  constructor
  · exact h.file_eq
  · exact h.length_buffer
  · exact hfo
  · exact Nat.le_refl _
  · exact hbs
  · exact h.size_le_page
  · simp only [getReadOffset]
    omega
  · simp

/-- A read stays in the file or in the filled buffer. -/
lemma ReaderAt.inReach_iff (data : List UInt8) :
    r.InReach pageSize data ↔
      off + data.length ≤ file.length ∨ data.length ≤ pageSize ∧ file.length ≤ fill := by
  rw [InReach, h.readOffset_eq, h.file_eq, h.fileOffset_eq, Nat.le_min]
  simp

/-- Reads in reach return the next bytes. -/
lemma ReaderAt.readsNext_iff (data : List UInt8) :
    r.ReadsNext pageSize data ↔ r.InReach pageSize data := by
  rw [h.inReach_iff]
  rw [ReadsNext, h.readOffset_eq, h.file_eq]
  by_cases hin : off + data.length ≤ file.length
  · obtain ⟨r', hread, hat⟩ := read_spec h data hin
    rw [hread]
    exact ⟨fun _ => .inl hin, fun _ => ⟨hin, rfl, hat.readOffset_eq⟩⟩
  by_cases hreach : data.length ≤ pageSize ∧ file.length ≤ fill
  · obtain ⟨message, hread⟩ := read_past_of_filled h hreach.1 (by omega) hreach.2
    rw [hread]
    exact ⟨fun _ => .inr hreach, fun _ => ⟨⟨message, rfl⟩, by omega⟩⟩
  · -- past the end and out of reach, the read returns
    have hread : ∃ data' r', r.read pageSize data = .ok (data', r') := by
      rcases Nat.lt_or_ge pageSize data.length with hlarge | hsmall
      · obtain ⟨data', r', hread, -⟩ := read_past_of_large h hlarge (by omega)
        exact ⟨data', r', hread⟩
      · -- the last page has to be read, and then the end of the file goes unnoticed
        have hfill := h.fill_eq
        have hbo := h.offset_le
        obtain ⟨r', hnext, -⟩ := h.readNextPage (show fill < file.length by omega)
        rw [BufferedFileReader.read, if_neg (by omega), if_neg (by omega), if_neg (by omega), hnext]
        exact ⟨_, _, rfl⟩
    obtain ⟨data', r', hread⟩ := hread
    rw [hread]
    exact ⟨fun hnext => absurd hnext.1 hin, fun hr => absurd hr (not_or.mpr ⟨hin, hreach⟩)⟩

lemma ReaderAt.next {data : List UInt8} (hreach : r.InReach pageSize data) :
    ∃ off' fill', ReaderAt pageSize file off' fill' (r.next pageSize data) := by
  rw [h.inReach_iff] at hreach
  unfold BufferedFileReader.next
  by_cases hin : off + data.length ≤ file.length
  · obtain ⟨r', hread, hat⟩ := read_spec h data hin
    rw [hread]
    exact ⟨_, _, hat⟩
  · obtain ⟨hsmall, hfilled⟩ := hreach.resolve_left hin
    obtain ⟨message, hread⟩ := read_past_of_filled h hsmall (by omega) hfilled
    rw [hread]
    exact ⟨_, _, h.afterThrow hsmall hfilled⟩

/-! ### Sequences of reads -/

lemma ReaderAt.throughout_iff (reads : List (List UInt8)) :
    Throughout pageSize (ReadsNext pageSize) r reads ↔
      Throughout pageSize (InReach pageSize) r reads := by
  induction reads generalizing r off fill with
  | nil => exact Iff.rfl
  | cons data reads ih =>
    rw [Throughout, h.readsNext_iff]
    apply and_congr_right
    intro hreach
    obtain ⟨off', fill', hat⟩ := h.next hreach
    exact ih hat

end

/-- The reads of a sequence all return the next bytes of the file or, past its end, throw, iff each
of them stays in reach. -/
theorem bufferedFileReader_reads_iff (pageSize : ℕ) (file : List UInt8) (r : BufferedFileReader)
    (hinit : BufferedFileReader.init pageSize file = .ok r) (reads : List (List UInt8)) :
    BufferedFileReader.Throughout pageSize (BufferedFileReader.ReadsNext pageSize) r reads ↔
      BufferedFileReader.Throughout pageSize (BufferedFileReader.InReach pageSize) r reads := by
  have hfile : file ≠ [] := by
    rintro rfl
    simp [BufferedFileReader.init, readNextPage] at hinit
  obtain ⟨r', hr', hat⟩ := readerAt_init pageSize hfile
  rw [hinit, Except.ok.injEq] at hr'
  subst hr'
  exact hat.throughout_iff reads

/-- A second read past the end, in reach. -/
theorem bufferedFileReader_reads_past :
    ∃ r, BufferedFileReader.init 4096 [7] = .ok r ∧
      BufferedFileReader.Throughout 4096 (BufferedFileReader.ReadsNext 4096) r [[0], [0], [0, 0]] :=
  ⟨_, rfl, (bufferedFileReader_reads_iff 4096 [7] _ rfl _).mpr
    ⟨.inl (by decide), .inr (by decide), .inr (by decide), trivial⟩⟩

/-- After the first page of a file of 4097 bytes, a read of two bytes returns a stale one. -/
theorem bufferedFileReader_reads_refill :
    ∃ r, BufferedFileReader.init 4096 (replicate 4097 7) = .ok r ∧
      ¬ BufferedFileReader.Throughout 4096 (BufferedFileReader.ReadsNext 4096) r
        [replicate 4096 0, [0, 0]] := by
  have hlen : (replicate 4097 (7 : UInt8)).length = 4097 := length_replicate
  have hdata : (replicate 4096 (0 : UInt8)).length = 4096 := length_replicate
  generalize replicate 4097 (7 : UInt8) = file at hlen ⊢
  generalize replicate 4096 (0 : UInt8) = data at hdata ⊢
  have hfile : file ≠ [] := by
    rintro rfl
    cases hlen
  obtain ⟨r, hinit, hat⟩ := readerAt_init 4096 hfile
  refine ⟨r, hinit, fun hall => ?_⟩
  obtain ⟨r', hread, hat'⟩ := read_spec hat data (by omega)
  have hright := hall.2.1
  rw [show r.next 4096 data = r' by rw [BufferedFileReader.next, hread], hat'.readsNext_iff,
    hat'.inReach_iff, hlen, hdata] at hright
  simp [nextFill] at hright

/-! ### The round trip -/

/-- A call of a `BufferedFileWriter`. -/
inductive WriterCall where
  | write (data : List UInt8)
  | flush
  deriving DecidableEq

namespace WriterCall

def bytes : WriterCall → List UInt8
  | write data => data
  | flush => []

def run (pageSize : ℕ) (w : BufferedFileWriter) : WriterCall → BufferedFileWriter
  | write data => w.write pageSize data
  | flush => w.flush pageSize

end WriterCall

/-- The bytes that a sequence of reads returns, one after the other. -/
def BufferedFileReader.readAll (pageSize : ℕ) :
    BufferedFileReader → List (List UInt8) → Except Fault (List UInt8 × BufferedFileReader)
  | r, [] => .ok ([], r)
  | r, data :: reads => do
    let (bytes, r) ← r.read pageSize data
    let (rest, r) ← r.readAll pageSize reads
    return (bytes ++ rest, r)

/-- The writer has written `bytes`: to the file, and after that to its buffer. -/
structure Written (pageSize : ℕ) (bytes : List UInt8) (w : BufferedFileWriter) : Prop where
  bytes_eq : w.file ++ w.buffer.take w.bufferOffset = bytes
  fileOffset_eq : w.fileOffset = w.file.length
  length_buffer : w.buffer.length = pageSize
  offset_le : w.bufferOffset ≤ pageSize

lemma writeFile_length (file data : List UInt8) :
    writeFile file data file.length = file ++ data := by
  simp [writeFile, memcpy]

namespace Written

variable {bytes : List UInt8} {w : BufferedFileWriter}

/-- Nothing is written at first. -/
lemma init (pageSize : ℕ) : Written pageSize [] (BufferedFileWriter.init pageSize) := by
  constructor <;> simp [BufferedFileWriter.init]

section

variable (h : Written pageSize bytes w)

include h

lemma flush : Written pageSize bytes (w.flush pageSize) ∧ (w.flush pageSize).bufferOffset = 0 := by
  unfold BufferedFileWriter.flush
  split_ifs with hzero
  · exact ⟨h, hzero⟩
  · rw [h.fileOffset_eq, writeFile_length, h.bytes_eq]
    have hlen : w.file.length + w.bufferOffset = bytes.length := by
      rw [← h.bytes_eq, length_append, length_take, h.length_buffer, Nat.min_eq_left h.offset_le]
    exact ⟨⟨by simp, hlen, by simp, Nat.zero_le _⟩, rfl⟩

lemma file_flush : (w.flush pageSize).file = bytes := by
  obtain ⟨hw, hzero⟩ := h.flush
  have hbytes := hw.bytes_eq
  rwa [hzero, take_zero, append_nil] at hbytes

lemma getSize_eq : w.getSize = bytes.length := by
  rw [← h.bytes_eq, length_append, length_take, h.length_buffer, Nat.min_eq_left h.offset_le]
  rfl

lemma buffer {data : List UInt8} (hfits : w.bufferOffset + data.length ≤ pageSize) :
    Written pageSize (bytes ++ data)
      { w with
        buffer := memcpy w.buffer w.bufferOffset data
        bufferOffset := w.bufferOffset + data.length } where
  bytes_eq := by rw [take_memcpy (h.length_buffer ▸ hfits), ← append_assoc, h.bytes_eq]
  fileOffset_eq := h.fileOffset_eq
  length_buffer := by rw [length_memcpy (h.length_buffer ▸ hfits), h.length_buffer]
  offset_le := hfits

/-- A write appends its bytes. -/
lemma write (data : List UInt8) : Written pageSize (bytes ++ data) (w.write pageSize data) := by
  have hle := h.offset_le
  unfold BufferedFileWriter.write
  dsimp only
  split_ifs with hlarge hfits
  · -- straight to the file, behind what the buffer held
    obtain ⟨hw, hzero⟩ := h.flush
    refine ⟨?_, ?_, hw.length_buffer, hw.offset_le⟩
    · simp only
      rw [hzero, take_zero, append_nil, hw.fileOffset_eq, writeFile_length, h.file_flush]
    · simp only
      rw [hw.fileOffset_eq, writeFile_length, length_append]
  · exact h.buffer hfits
  · -- the first part fills the buffer, the rest starts the next page
    have hlen : (data.take (pageSize - w.bufferOffset)).length = pageSize - w.bufferOffset := by
      rw [length_take]
      omega
    have hfill := h.buffer (show _ + (data.take (pageSize - w.bufferOffset)).length ≤ _ by omega)
    rw [hlen] at hfill
    obtain ⟨hw, hzero⟩ := hfill.flush
    have hrest := hw.buffer (show _ + (data.drop (pageSize - w.bufferOffset)).length ≤ _ by
      rw [hzero, length_drop]; omega)
    rw [append_assoc, take_append_drop, length_drop] at hrest
    rw [hzero] at hrest ⊢
    exact hrest

/-- **Every sequence of calls** writes its bytes in order. -/
lemma run (calls : List WriterCall) :
    Written pageSize (bytes ++ calls.flatMap WriterCall.bytes)
      (calls.foldl (WriterCall.run pageSize) w) := by
  induction calls generalizing bytes w with
  | nil => simpa using h
  | cons call calls ih =>
    rw [flatMap_cons, ← append_assoc]
    cases call with
    | write data => exact ih (h.write data)
    | flush =>
      rw [WriterCall.bytes, append_nil]
      exact ih h.flush.1

end

end Written

/-- Reads inside the file, one after the other, return its next bytes. -/
lemma ReaderAt.readAll (h : ReaderAt pageSize file off fill r) (reads : List (List UInt8))
    (hlen : off + (reads.map length).sum ≤ file.length) :
    ∃ r', r.readAll pageSize reads = .ok ((file.drop off).take (reads.map length).sum, r') ∧
      r'.getReadOffset = off + (reads.map length).sum := by
  induction reads generalizing r off fill with
  | nil => exact ⟨r, by simp [readAll], h.readOffset_eq⟩
  | cons data reads ih =>
    rw [map_cons, sum_cons] at hlen ⊢
    obtain ⟨r1, hread, hat⟩ := read_spec h data (by omega)
    obtain ⟨r', hreads, hoff⟩ := ih hat (by omega)
    refine ⟨r', ?_, by omega⟩
    rw [readAll, take_add, drop_drop, hread]
    simp only [bind, Except.bind, hreads]
    rfl

/-- What was written is what is read, however the writes and the reads are split: `getSize` counts
the bytes written, and, if there are any, `getReadOffset` counts those read. -/
theorem bufferedFile_roundTrip (pageSize : ℕ) (calls : List WriterCall) :
    let bytes := calls.flatMap WriterCall.bytes
    let w := calls.foldl (WriterCall.run pageSize) (BufferedFileWriter.init pageSize)
    w.getSize = bytes.length ∧
      (bytes ≠ [] → ∃ r, BufferedFileReader.init pageSize (w.flush pageSize).file = .ok r ∧
        ∀ reads : List (List UInt8), (reads.map length).sum ≤ bytes.length →
          ∃ r', r.readAll pageSize reads = .ok (bytes.take (reads.map length).sum, r') ∧
            r'.getReadOffset = (reads.map length).sum) := by
  have hw := (Written.init pageSize).run calls
  rw [nil_append] at hw
  refine ⟨hw.getSize_eq, fun hne => ?_⟩
  rw [hw.file_flush]
  obtain ⟨r, hinit, hat⟩ := readerAt_init pageSize hne
  refine ⟨r, hinit, fun reads hlen => ?_⟩
  have hall := hat.readAll reads (by rwa [Nat.zero_add])
  rwa [drop_zero, Nat.zero_add] at hall

theorem bufferedFile_roundTrip_split :
    ∃ r, BufferedFileReader.init 4096
        (([.write [1, 2, 3], .flush, .write [4]].foldl (WriterCall.run 4096)
          (BufferedFileWriter.init 4096)).flush 4096).file = .ok r ∧
      ∃ r', r.readAll 4096 [[0], [0, 0, 0]] = .ok ([1, 2, 3, 4], r') ∧ r'.getReadOffset = 4 := by
  obtain ⟨r, hinit, hall⟩ :=
    (bufferedFile_roundTrip 4096 [.write [1, 2, 3], .flush, .write [4]]).2 (by decide)
  exact ⟨r, hinit, hall [[0], [0, 0, 0]] (by decide)⟩

/-- Without a byte written, the reader cannot be constructed. -/
theorem bufferedFile_roundTrip_nil :
    BufferedFileReader.init 4096 ((BufferedFileWriter.init 4096).flush 4096).file =
      .error (.exception "Reading past the end of the file") := rfl

end Ladybug
