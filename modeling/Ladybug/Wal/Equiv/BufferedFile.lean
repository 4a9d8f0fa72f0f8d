import Mathlib.Tactic.Set
import Mathlib.Tactic.SplitIfs
import Ladybug.Common.BufferedFile

/-!
# Correctness of the buffered reads

`ReaderAt file off fill r` says that the reader `r` of `file` stands at offset `off`, with its
buffer filled up to `fill`, or up to the end of the file if that comes first. `nextFill` says how
far the buffer is filled after a read; it does not depend on the file.

* `read_past_of_large`, `read_past_of_filled`: two of the ways in which a read past the end of the
  file ends.
-/

namespace Ladybug

open List BufferedFileReader

/-- How far the buffer is filled after a read of `n` bytes at `off`. -/
def nextFill (pageSize off fill n : ℕ) : ℕ :=
  if n > pageSize then off + n else if off + n ≤ fill then fill else fill + pageSize

/-- The reader stands at `off`, with its buffer filled up to `fill`. -/
structure ReaderAt (pageSize : ℕ) (file : List UInt8) (off fill : ℕ) (r : BufferedFileReader) :
    Prop where
  file_eq : r.file = file
  length_buffer : r.buffer.length = pageSize
  fileOffset_eq : r.fileOffset = min file.length fill
  offset_le : r.bufferOffset ≤ r.bufferSize
  size_le : r.bufferSize ≤ r.fileOffset
  size_le_page : r.bufferSize ≤ pageSize
  readOffset_eq : r.getReadOffset = off
  buffered : (r.buffer.take r.bufferSize).drop r.bufferOffset =
    (file.drop off).take (r.bufferSize - r.bufferOffset)

variable {pageSize off fill offset : ℕ} {file data src dst : List UInt8} {r : BufferedFileReader}

/-- The unread part of the buffer ends where the buffer is filled to. -/
lemma ReaderAt.fill_eq (h : ReaderAt pageSize file off fill r) :
    off + (r.bufferSize - r.bufferOffset) = min file.length fill := by
  have h1 := h.offset_le
  have h2 := h.size_le
  have h3 := h.readOffset_eq
  have h4 := h.fileOffset_eq
  unfold getReadOffset at h3
  omega

lemma ReaderAt.off_le (h : ReaderAt pageSize file off fill r) : off ≤ file.length := by
  have := h.fill_eq
  omega

lemma length_memcpy (h : offset + src.length ≤ dst.length) :
    (memcpy dst offset src).length = dst.length := by
  simp only [memcpy, length_append, length_take, length_drop]
  omega

/-- What is copied follows what was there. -/
lemma take_memcpy (h : offset + src.length ≤ dst.length) :
    (memcpy dst offset src).take (offset + src.length) = dst.take offset ++ src := by
  apply take_left'
  rw [length_append, length_take, Nat.min_eq_left (by omega)]

/-- A read inside the file is complete. -/
lemma readFromFile_ok (buffer : List UInt8) {numBytes position : ℕ}
    (hlen : position + numBytes ≤ file.length) :
    readFromFile file buffer numBytes position =
      .ok ((file.drop position).take numBytes ++ buffer.drop numBytes) := by
  have hbytes : ((file.drop position).take numBytes).length = numBytes := by
    rw [length_take, length_drop]
    omega
  unfold readFromFile memcpy
  simp only [hbytes]
  simp

/-- The next page is buffered. -/
lemma ReaderAt.readNextPage (h : ReaderAt pageSize file off fill r) (hlt : fill < file.length) :
    ∃ r', r.readNextPage pageSize = .ok r' ∧ r'.bufferOffset = 0 ∧
      r'.bufferSize = min (file.length - fill) pageSize ∧
      ReaderAt pageSize file fill (fill + pageSize) r' := by
  have hfo : r.fileOffset = fill := by rw [h.fileOffset_eq]; omega
  rw [BufferedFileReader.readNextPage, h.file_eq, hfo, if_neg (by omega)]
  have hread := readFromFile_ok r.buffer
    (show fill + min (file.length - fill) pageSize ≤ file.length by omega)
  dsimp only
  rw [hread]
  refine ⟨_, rfl, rfl, rfl, ⟨rfl, ?_, ?_, Nat.zero_le _, ?_, Nat.min_le_right _ _, ?_, ?_⟩⟩
  · simp only [length_append, length_take, length_drop, h.length_buffer]
    omega
  · simp only
    omega
  · simp only
    omega
  · simp only [getReadOffset]
    omega
  · simp only [drop_zero, Nat.sub_zero]
    rw [take_append_of_le_length (by simp), take_take, Nat.min_self]

/-- A fresh reader is at the start. -/
lemma readerAt_init (pageSize : ℕ) (hfile : file ≠ []) :
    ∃ r, BufferedFileReader.init pageSize file = .ok r ∧ ReaderAt pageSize file 0 pageSize r := by
  have hlen : 0 < file.length := length_pos_iff.mpr hfile
  have hzero : ReaderAt pageSize file 0 0
      { file := file, buffer := List.replicate pageSize 0, fileOffset := 0, bufferOffset := 0,
        bufferSize := 0 } :=
    ⟨rfl, by simp, by simp, Nat.le_refl _, Nat.le_refl _, Nat.zero_le _, rfl, by simp⟩
  obtain ⟨r, hr, -, -, hat⟩ := hzero.readNextPage hlen
  rw [Nat.zero_add] at hat
  exact ⟨r, hr, hat⟩

section

variable (h : ReaderAt pageSize file off fill r)

include h

/-- **A read** inside the file returns its bytes. -/
lemma read_spec (data : List UInt8) (hlen : off + data.length ≤ file.length) :
    ∃ r', r.read pageSize data = .ok ((file.drop off).take data.length, r') ∧
      ReaderAt pageSize file (off + data.length) (nextFill pageSize off fill data.length) r' := by
  have hro := h.readOffset_eq
  have hbo := h.offset_le
  have hbs := h.size_le
  have hfo := h.fileOffset_eq
  have hsp := h.size_le_page
  unfold getReadOffset at hro
  unfold BufferedFileReader.read nextFill
  dsimp only
  by_cases hlarge : data.length > pageSize
  · -- straight from the file; the buffer is used up
    rw [if_pos hlarge, if_pos hlarge, hro, h.file_eq, readFromFile_ok data hlen]
    refine ⟨{ r with
        file := file
        fileOffset := off + data.length
        bufferOffset := r.bufferSize }, by rw [drop_length, append_nil]; rfl,
      rfl, h.length_buffer, ?_, Nat.le_refl _, ?_, h.size_le_page, ?_, ?_⟩
    · simp only
      omega
    · simp only
      omega
    · simp only [getReadOffset]
      omega
    · simp
  rw [if_neg hlarge, if_neg hlarge]
  by_cases hin : r.bufferOffset + data.length ≤ r.bufferSize
  · -- from the buffer
    rw [if_pos hin, if_pos (by omega)]
    have hbytes : (r.buffer.drop r.bufferOffset).take data.length =
        (file.drop off).take data.length := by
      have hb := congrArg (List.take data.length) h.buffered
      rw [drop_take, take_take, take_take, Nat.min_eq_left (by omega)] at hb
      exact hb
    refine ⟨{ r with bufferOffset := r.bufferOffset + data.length }, by rw [hbytes],
      h.file_eq, h.length_buffer, hfo, hin, hbs, h.size_le_page, ?_, ?_⟩
    · simp only [getReadOffset]
      omega
    · simp only
      rw [← drop_drop, h.buffered, drop_take, drop_drop, Nat.sub_sub]
  · -- the rest of the buffer, and the start of the next page
    have hlt : fill < file.length := by omega
    rw [if_neg hin, if_neg (by omega), if_neg (by omega)]
    obtain ⟨r', hnext, hbo', hbs', hat'⟩ := h.readNextPage hlt
    rw [hnext]
    set toCopy := r.bufferSize - r.bufferOffset
    have hrest : r'.buffer.take (data.length - toCopy) =
        (file.drop fill).take (data.length - toCopy) := by
      have hb := congrArg (List.take (data.length - toCopy)) hat'.buffered
      rw [hbo', drop_zero, Nat.sub_zero, take_take, take_take, Nat.min_eq_left (by omega)] at hb
      exact hb
    have hcopied : (r.buffer.drop r.bufferOffset).take toCopy = (file.drop off).take toCopy := by
      rw [← h.buffered, drop_take]
    refine ⟨{ r' with bufferOffset := data.length - toCopy }, ?_, hat'.file_eq,
      hat'.length_buffer, hat'.fileOffset_eq, ?_, hat'.size_le, hat'.size_le_page, ?_, ?_⟩
    -- what was copied and what is read next are consecutive
    · have hbytes : (file.drop off).take toCopy ++ (file.drop fill).take (data.length - toCopy) =
          (file.drop off).take data.length := by
        rw [show fill = off + toCopy by omega, ← drop_drop, ← take_add,
          show toCopy + (data.length - toCopy) = data.length by omega]
      rw [hcopied]
      simp only [Except.bind, bind, hrest, hbytes]
      rfl
    · simp only
      omega
    · have hro' := hat'.readOffset_eq
      simp only [getReadOffset] at hro' ⊢
      omega
    · have hb := hat'.buffered
      rw [hbo', drop_zero, Nat.sub_zero] at hb
      simp only
      rw [hb, drop_take, drop_drop,
        show fill + (data.length - toCopy) = off + data.length by omega]

lemma read_append {bytes rest : List UInt8} (hfile : file.drop off = bytes ++ rest)
    (hle : data.length ≤ bytes.length) :
    ∃ r', r.read pageSize data = .ok (bytes.take data.length, r') ∧
      ReaderAt pageSize file (off + data.length) (nextFill pageSize off fill data.length) r' ∧
      file.drop (off + data.length) = bytes.drop data.length ++ rest := by
  have hoff := h.off_le
  have hlen : file.length - off = bytes.length + rest.length := by
    rw [← length_drop, hfile, length_append]
  obtain ⟨r', hread, hat⟩ := read_spec h data (by omega)
  rw [hfile, take_append_of_le_length hle] at hread
  exact ⟨r', hread, hat, by rw [← drop_drop, hfile, drop_append_of_le_length hle]⟩

/-! ### Reads past the end of the file -/

/-- A large read has gone past the end of the file. -/
structure ReaderPast (file : List UInt8) (r : BufferedFileReader) : Prop where
  file_eq : r.file = file
  used_up : r.bufferOffset = r.bufferSize
  size_le : r.bufferSize ≤ r.fileOffset
  length_lt : file.length < r.fileOffset

/-- A large read past the end goes unnoticed. -/
lemma read_past_of_large
    (hlarge : pageSize < data.length) (hlen : file.length < off + data.length) :
    ∃ data' r', r.read pageSize data = .ok (data', r') ∧ ReaderPast file r' := by
  have hro := h.readOffset_eq
  have hoff := h.off_le
  have hsp := h.size_le_page
  unfold getReadOffset at hro
  have hbytes : ((file.drop off).take data.length).length = file.length - off := by
    rw [length_take, length_drop]
    omega
  unfold BufferedFileReader.read readFromFile
  dsimp only
  rw [if_pos hlarge, hro, h.file_eq, hbytes, if_neg (by omega)]
  exact ⟨_, _, rfl, rfl, rfl, by simp only; omega, hlen⟩

/-- A read past the end of the file throws when the buffer was filled to the end of the file. -/
lemma read_past_of_filled (hsmall : data.length ≤ pageSize)
    (hlen : file.length < off + data.length) (hfilled : file.length ≤ fill) :
    ∃ message, r.read pageSize data = .error (.exception message) := by
  have hfill := h.fill_eq
  have hbo := h.offset_le
  have hfo := h.fileOffset_eq
  rw [BufferedFileReader.read, if_neg (by omega), if_neg (by omega), if_neg (by omega)]
  rw [readNextPage, h.file_eq, if_pos (by omega)]
  exact ⟨_, rfl⟩

end

/-- The read after it is an error. -/
lemma ReaderPast.read (h : ReaderPast file r) (pageSize : ℕ) (hdata : data ≠ []) :
    ∃ message, r.read pageSize data = .error (.exception message) := by
  have hpos : 0 < data.length := length_pos_iff.mpr hdata
  have h1 := h.used_up
  have h2 := h.length_lt
  unfold BufferedFileReader.read
  dsimp only
  split_ifs
  · rw [readFromFile, h.file_eq, drop_eq_nil_of_le (by omega), take_nil,
      if_pos ⟨by simp only [length_nil]; omega, by simp only [length_nil]; omega⟩]
    exact ⟨_, rfl⟩
  · omega
  · omega
  · rw [readNextPage, h.file_eq, if_pos (by omega)]
    exact ⟨_, rfl⟩

lemma ReaderPast.finished (h : ReaderPast file r) : r.finished = true := by
  have h1 := h.used_up
  have h2 := h.length_lt
  simp only [BufferedFileReader.finished, h.file_eq, Bool.and_eq_true, decide_eq_true_eq]
  omega

lemma ReaderAt.finished_iff (h : ReaderAt pageSize file off fill r) :
    r.finished = true ↔ off = file.length := by
  have h1 := h.fill_eq
  have h3 := h.fileOffset_eq
  simp only [finished, h.file_eq, Bool.and_eq_true, decide_eq_true_eq]
  omega

end Ladybug
