import Mathlib.Data.List.SplitLengths
import Ladybug.Wal.Checksum
import Ladybug.Wal.Equiv.BufferedFile

/-!
# Correctness of the checksummed entries

* `appendAll_of_fits`, `appendAll_of_not_fits`: what the entry buffer holds, depending on whether it
  grows inside the entry;
* `checksummedFraming_iff`: writing and reading entries is right exactly when it never does.
-/

namespace Ladybug

open List ChecksumReader
open EntryBuffer (allocateBuffer resizeBufferIfNeeded)
open ChecksumWriter (write writeObject)
open List (length)

/-! ### The checksum -/

@[simp] lemma length_leBytes (x : UInt64) : (leBytes x).length = 8 := by simp [leBytes]

lemma ofLeBytes_leBytes (x : UInt64) : ofLeBytes (leBytes x) = x := by
  apply UInt64.toNat_inj.mp
  have hx := x.toNat_lt
  simp only [ofLeBytes, leBytes, List.range, List.range.loop, map_cons, map_nil,
    foldr_cons, foldr_nil, UInt64.toNat_ofNat', UInt8.toNat_ofNat']
  omega

variable {L fill off pageSize size : ℕ} {file xs rest pre : List UInt8} {buf : EntryBuffer}
  {r : ChecksumReader} {w : ChecksumWriter} {pieces reads : List (List UInt8)}
  {objects : List (List (List UInt8))} {mem : Memory} {b a : UInt8}

/-- Different states are never confused by the same bytes. -/
lemma checksumFrom_inj {a b : UInt64} (h : checksumFrom a xs = checksumFrom b xs) : a = b := by
  fun_induction checksumFrom a xs generalizing b with
  | case1 a b0 b1 b2 b3 b4 b5 b6 b7 rest ih =>
    rw [checksumFrom] at h
    exact (UInt64.xor_left_inj _).mp (ih h)
  | case2 => rwa [checksumFrom] at h
  | case3 a rest hblock hnil =>
    rw [checksumFrom.eq_3 _ _ hblock hnil] at h
    exact (UInt64.xor_left_inj _).mp h

lemma checksumWord_inj {x y : UInt64} (h : checksumWord x = checksumWord y) : x = y := by
  have hinv : (0xbf58476d1ce4e5b9 : UInt64) * 10871156337175269513 = 1 := by decide
  have := congrArg (· * (10871156337175269513 : UInt64)) h
  simpa only [checksumWord, UInt64.mul_assoc, hinv, UInt64.mul_one] using this

/-- The first byte is read back. -/
lemma ofLeBytes_cons_inj (h : ofLeBytes (a :: xs) = ofLeBytes (b :: xs)) : a = b := by
  have ha := a.toNat_lt
  have hb := b.toNat_lt
  apply UInt8.toNat_inj.mp
  have h' := congrArg UInt64.toNat h
  simp only [ofLeBytes, foldr_cons, UInt64.toNat_ofNat'] at h'
  omega

/-- Changing the first byte changes the checksum. -/
lemma checksum_ne_of_head (hlen : 7 ≤ xs.length) (hne : a ≠ b) :
    checksum (a :: xs) ≠ checksum (b :: xs) := by
  intro h
  have hcons : ∀ {n : ℕ} {l : List UInt8}, n + 1 ≤ l.length →
      ∃ x l', l = x :: l' ∧ n ≤ l'.length := by
    intro n l hl
    obtain ⟨x, l', rfl⟩ := exists_cons_of_length_pos (show 0 < l.length by omega)
    exact ⟨x, l', rfl, by simpa using hl⟩
  obtain ⟨x1, xs1, rfl, h1⟩ := hcons hlen
  obtain ⟨x2, xs2, rfl, h2⟩ := hcons h1
  obtain ⟨x3, xs3, rfl, h3⟩ := hcons h2
  obtain ⟨x4, xs4, rfl, h4⟩ := hcons h3
  obtain ⟨x5, xs5, rfl, h5⟩ := hcons h4
  obtain ⟨x6, xs6, rfl, h6⟩ := hcons h5
  obtain ⟨x7, rest, rfl, -⟩ := hcons h6
  rw [checksum, checksum, checksumFrom, checksumFrom] at h
  have hword := checksumWord_inj ((UInt64.xor_right_inj _).mp (checksumFrom_inj h))
  exact hne (ofLeBytes_cons_inj hword)

/-! ### The entry buffer -/

lemma le_bitCeil (n : ℕ) : n ≤ bitCeil n := Nat.le_pow_clog (by decide) n

section append

variable (mem : Memory)

@[simp] lemma length_allocateBuffer (n size : ℕ) :
    (allocateBuffer mem n size).data.length = size := by
  simp [allocateBuffer]

section

variable (buf : EntryBuffer)

/-- The buffer holds what was requested. -/
lemma length_resize (requestedSize : ℕ) :
    requestedSize ≤ (buf.resizeBufferIfNeeded mem requestedSize).data.length := by
  unfold resizeBufferIfNeeded
  split_ifs
  · rw [length_allocateBuffer]
    exact le_bitCeil _
  · omega

lemma EntryBuffer.length_append (size : ℕ) (data : List UInt8) :
    (buf.append mem size data).data.length = grownSize buf.data.length size data.length := by
  rw [EntryBuffer.append, length_memcpy (length_resize mem buf _)]
  unfold resizeBufferIfNeeded grownSize
  split_ifs
  · rw [length_allocateBuffer]
  · rfl

/-- Bytes are appended after what the resize kept. -/
lemma EntryBuffer.take_append (size : ℕ) (data : List UInt8) :
    (buf.append mem size data).data.take (size + data.length) =
      (buf.resizeBufferIfNeeded mem (size + data.length)).data.take size ++ data :=
  take_memcpy (length_resize mem buf _)

/-- The calls for one entry, from `size` bytes on. -/
def appendAll (mem : Memory) : EntryBuffer → ℕ → List (List UInt8) → EntryBuffer
  | buf, _, [] => buf
  | buf, size, data :: pieces =>
    appendAll mem (buf.append mem size data) (size + data.length) pieces

/-- The buffer size depends on the sizes only. -/
lemma length_appendAll (size : ℕ) (pieces : List (List UInt8)) :
    (appendAll mem buf size pieces).data.length =
      sizeAfter buf.data.length size (pieces.map length) := by
  induction pieces generalizing buf size with
  | nil => rfl
  | cons data pieces ih => rw [appendAll, ih, EntryBuffer.length_append, map_cons, sizeAfter]

end

/-- An entry that does not outgrow the buffer is in the buffer at its end. -/
lemma appendAll_of_fits
    (hfits : growsOnlyEmpty buf.data.length size (pieces.map length) = true) :
    (appendAll mem buf size pieces).data.take (size + pieces.flatten.length) =
      buf.data.take size ++ pieces.flatten := by
  induction pieces generalizing buf size with
  | nil => simp [appendAll]
  | cons data pieces ih =>
    simp only [map_cons, growsOnlyEmpty, Bool.and_eq_true, Bool.or_eq_true,
      decide_eq_true_eq, beq_iff_eq] at hfits
    obtain ⟨hstep, hrest⟩ := hfits
    rw [← EntryBuffer.length_append mem] at hrest
    have hkept : (buf.resizeBufferIfNeeded mem (size + data.length)).data.take size =
        buf.data.take size := by
      rcases hstep with hle | rfl
      · rw [resizeBufferIfNeeded, if_neg (by omega)]
      · simp
    have := ih hrest
    rw [EntryBuffer.take_append, hkept] at this
    rw [appendAll, flatten_cons, length_append, ← Nat.add_assoc, this, append_assoc]

end append

/-- A buffer that is large enough never grows. -/
lemma growsOnlyEmpty_of_le {sizes : List ℕ} (h : size + sizes.sum ≤ L) :
    growsOnlyEmpty L size sizes = true := by
  induction sizes generalizing size with
  | nil => rfl
  | cons n sizes ih =>
    rw [sum_cons] at h
    have hle : size + n ≤ L := by omega
    rw [growsOnlyEmpty, grownSize, if_neg (by omega), ih (by omega)]
    simp [hle]

lemma le_sizeAfter (L size : ℕ) (sizes : List ℕ) : L ≤ sizeAfter L size sizes := by
  induction sizes generalizing L size with
  | nil => exact Nat.le_refl L
  | cons n sizes ih =>
    refine Nat.le_trans ?_ (ih (grownSize L size n) (size + n))
    have := le_bitCeil (size + n)
    unfold grownSize
    split_ifs <;> omega

/-! ### An entry that outgrows the buffer

When the buffer grows inside an entry, what the entry ends up as depends on what is in the new
memory. In the worst case that is the entry itself but for its first byte. -/

/-- The bytes with their first byte changed. -/
def spoiled (bytes : List UInt8) : List UInt8 := bytes.modifyHead (· + 1)

/-- Memory that holds `bytes`, whenever it is allocated. -/
def memoryOf (bytes : List UInt8) : Memory := fun _ i => bytes.getD i 0

@[simp] lemma length_spoiled (bytes : List UInt8) : (spoiled bytes).length = bytes.length := by
  simp [spoiled]

lemma spoiled_append (h : xs ≠ []) (ys : List UInt8) : spoiled (xs ++ ys) = spoiled xs ++ ys := by
  obtain ⟨x, xs, rfl⟩ := exists_cons_of_ne_nil h
  rfl

/-- A spoiled entry differs. -/
lemma spoiled_ne (h : xs ≠ []) : spoiled xs ≠ xs := by
  obtain ⟨x, xs, rfl⟩ := exists_cons_of_ne_nil h
  intro heq
  have hx : x + 1 = x := (List.cons.inj heq).1
  have hx' := congrArg UInt8.toNat hx
  rw [UInt8.toNat_add] at hx'
  simp at hx'
  omega

lemma take_allocateBuffer (ys : List UInt8) (n : ℕ) (h : xs.length ≤ L) :
    ((allocateBuffer (memoryOf (xs ++ ys)) n L).data.take xs.length) = xs := by
  refine ext_getElem (by simp [h]) fun i h1 h2 => ?_
  simp [allocateBuffer, memoryOf, getElem?_append_left h2, h2]

/-- What is in the buffer after a byte has been lost: new memory looks just as bad. -/
lemma take_resize_spoiled {ys : List UInt8} (hpre : pre ≠ [])
    (hbuf : buf.data.take pre.length = spoiled pre) (n : ℕ) :
    (buf.resizeBufferIfNeeded (memoryOf (spoiled (pre ++ ys))) (pre.length + n)).data.take
      pre.length = spoiled pre := by
  unfold resizeBufferIfNeeded
  split_ifs
  · have hle : (spoiled pre).length ≤ bitCeil (pre.length + n) := by
      have := le_bitCeil (pre.length + n)
      rw [length_spoiled]
      omega
    have htake := take_allocateBuffer ys buf.numAllocated hle
    rw [length_spoiled] at htake
    rw [spoiled_append hpre, htake]
  · exact hbuf

/-- A spoiled beginning stays spoiled. -/
lemma appendAll_spoiled (hpre : pre ≠ []) (hbuf : buf.data.take pre.length = spoiled pre) :
    (appendAll (memoryOf (spoiled (pre ++ pieces.flatten))) buf pre.length pieces).data.take
      (pre ++ pieces.flatten).length = spoiled (pre ++ pieces.flatten) := by
  induction pieces generalizing pre buf with
  | nil => simpa [appendAll] using hbuf
  | cons data pieces ih =>
    rw [flatten_cons, ← append_assoc, appendAll, ← length_append]
    refine ih (by simp [hpre]) ?_
    rw [length_append, EntryBuffer.take_append, append_assoc, take_resize_spoiled hpre hbuf,
      spoiled_append hpre]

/-- An entry that grows mid-way may be spoiled. -/
lemma appendAll_of_not_fits (pre : List UInt8) (hbuf : buf.data.take pre.length = pre)
    (hfits : growsOnlyEmpty buf.data.length pre.length (pieces.map length) = false) :
    (appendAll (memoryOf (spoiled (pre ++ pieces.flatten))) buf pre.length pieces).data.take
      (pre ++ pieces.flatten).length = spoiled (pre ++ pieces.flatten) := by
  induction pieces generalizing pre buf with
  | nil => simp [growsOnlyEmpty] at hfits
  | cons data pieces ih =>
    rw [flatten_cons, ← append_assoc, appendAll, ← length_append]
    by_cases hgrow : pre.length + data.length ≤ buf.data.length ∨ pre.length = 0
    · -- not at this call
      refine ih _ ?_ ?_
      · rw [length_append, EntryBuffer.take_append]
        rcases hgrow with hle | hzero
        · rw [resizeBufferIfNeeded, if_neg (by omega), hbuf]
        · rw [length_eq_zero_iff.mp hzero]
          simp
      · rw [EntryBuffer.length_append, length_append]
        simp only [map_cons, growsOnlyEmpty] at hfits
        have hstep : (decide (pre.length + data.length ≤ buf.data.length) ||
            pre.length == 0) = true := by simpa using hgrow
        rwa [hstep, Bool.true_and] at hfits
    · -- at this call: what was there is lost
      have hpre : pre ≠ [] := fun h => hgrow (.inr (by rw [h]; rfl))
      refine appendAll_spoiled (by simp [hpre]) ?_
      rw [length_append, EntryBuffer.take_append, resizeBufferIfNeeded,
        if_pos (by omega), append_assoc, spoiled_append hpre, spoiled_append hpre]
      have hle : (spoiled pre).length ≤ bitCeil (pre.length + data.length) := by
        have := le_bitCeil (pre.length + data.length)
        rw [length_spoiled]
        omega
      have htake := take_allocateBuffer (data ++ pieces.flatten) buf.numAllocated hle
      rw [length_spoiled] at htake
      rw [htake]

/-! ### Writing -/

def frame (bytes : List UInt8) : List UInt8 := bytes ++ leBytes (checksum bytes)

lemma foldl_write (hw : w.currentEntrySize = some size) (pieces : List (List UInt8)) :
    pieces.foldl (write mem) w =
      { w with
        entryBuffer := appendAll mem w.entryBuffer size pieces
        currentEntrySize := some (size + pieces.flatten.length) } := by
  induction pieces generalizing w size with
  | nil => simp [appendAll, ← hw]
  | cons data pieces ih =>
    have hstep : w.write mem data =
        { w with
          entryBuffer := w.entryBuffer.append mem size data
          currentEntrySize := some (size + data.length) } := by
      simp only [write, hw]
    rw [foldl_cons, hstep, ih rfl, flatten_cons, length_append, Nat.add_assoc]
    rfl

/-- What `writeObject` emits: what the entry buffer holds at the end. -/
lemma writeObject_eq (mem : Memory) (w : ChecksumWriter) (writes : List (List UInt8)) :
    w.writeObject mem writes = some
      { output := w.output ++ frame
          ((appendAll mem w.entryBuffer 0 writes).data.take writes.flatten.length)
        currentEntrySize := none
        entryBuffer := appendAll mem w.entryBuffer 0 writes } := by
  rw [writeObject, foldl_write (w := w.onObjectBegin) rfl writes]
  simp [ChecksumWriter.onObjectEnd, ChecksumWriter.onObjectBegin, frame]

/-- Objects that fit are written as their frames. -/
lemma writeObjects_of_fits (mem : Memory) (hfits : entriesFit w.entryBuffer.data.length
      (objects.map fun o => o.map length) = true) :
    ∃ w', objects.foldlM (writeObject mem) w = some w' ∧
      w'.output = w.output ++ (objects.map fun o => frame o.flatten).flatten := by
  induction objects generalizing w with
  | nil => exact ⟨w, rfl, by simp⟩
  | cons o objects ih =>
    simp only [map_cons, entriesFit, Bool.and_eq_true] at hfits
    obtain ⟨ho, hrest⟩ := hfits
    have hentry := appendAll_of_fits mem ho
    simp only [take_zero, nil_append, Nat.zero_add] at hentry
    rw [← length_appendAll mem] at hrest
    rw [foldlM_cons, writeObject_eq, hentry]
    obtain ⟨w', hw', hout⟩ := ih (w := ⟨w.output ++ frame o.flatten, none,
      appendAll mem w.entryBuffer 0 o⟩) hrest
    exact ⟨w', hw', by rw [hout]; simp⟩

/-- Writing only appends. -/
lemma output_writeObjects {w' : ChecksumWriter}
    (h : objects.foldlM (writeObject mem) w = some w') :
    ∃ rest, w'.output = w.output ++ rest := by
  induction objects generalizing w with
  | nil =>
    obtain rfl := Option.some.inj h
    exact ⟨[], by simp⟩
  | cons o objects ih =>
    rw [foldlM_cons, writeObject_eq] at h
    obtain ⟨rest, hrest⟩ := ih h
    exact ⟨_, by rw [hrest, append_assoc]⟩

/-- An entry inside which the buffer grows is longer than the buffer. -/
lemma lt_length_of_not_fits
    (h : growsOnlyEmpty L 0 (pieces.map length) ≠ true) : L < pieces.flatten.length := by
  by_contra hle
  refine h (growsOnlyEmpty_of_le ?_)
  rw [← length_flatten]
  omega

/-- With an entry inside which the buffer grows, there is memory with which the output is wrong. -/
lemma writeObjects_of_not_fits
    (hfits : entriesFit L (objects.map fun o => o.map length) = false) :
    ∃ mem : Memory, ∀ w w' : ChecksumWriter, w.entryBuffer.data.length = L →
      objects.foldlM (writeObject mem) w = some w' →
      w'.output ≠ w.output ++ (objects.map fun o => frame o.flatten).flatten := by
  induction objects generalizing L with
  | nil => simp [entriesFit] at hfits
  | cons o objects ih =>
    by_cases ho : growsOnlyEmpty L 0 (o.map length) = true
    · -- the first entry fits
      simp only [map_cons, entriesFit, ho, Bool.true_and] at hfits
      obtain ⟨mem, hmem⟩ := ih hfits
      refine ⟨mem, fun w w' hL hrun => ?_⟩
      have hentry := appendAll_of_fits mem (hL ▸ ho)
      simp only [take_zero, nil_append, Nat.zero_add] at hentry
      rw [foldlM_cons, writeObject_eq, hentry] at hrun
      have hne := hmem _ w' (by rw [length_appendAll, hL]) hrun
      simpa only [map_cons, flatten_cons, ← append_assoc] using hne
    · -- the first entry loses its first byte
      have hne : o.flatten ≠ [] :=
        length_pos_iff.mp (Nat.lt_of_le_of_lt (Nat.zero_le L) (lt_length_of_not_fits ho))
      refine ⟨memoryOf (spoiled o.flatten), fun w w' hL hrun heq => ?_⟩
      have hgrows : growsOnlyEmpty w.entryBuffer.data.length 0 (o.map length) = false := by
        rw [hL]
        simpa using ho
      have hentry := appendAll_of_not_fits [] rfl hgrows
      simp only [nil_append, length_nil] at hentry
      rw [foldlM_cons, writeObject_eq, hentry] at hrun
      obtain ⟨rest, hrest⟩ := output_writeObjects hrun
      rw [hrest] at heq
      simp only [map_cons, flatten_cons, frame, append_assoc] at heq
      have hspoiled := append_inj_left (append_cancel_left heq) (length_spoiled _)
      exact spoiled_ne hne hspoiled

/-! ### Reading -/

/-- An object of the log: the calls that write it and the calls that read it back. -/
structure WalObject where
  writes : List (List UInt8)
  /-- the destinations of the reads -/
  reads : List (List UInt8)
  length_eq : (reads.map length).sum = writes.flatten.length

def WalObject.bytes (o : WalObject) : List UInt8 := o.writes.flatten

lemma WalObject.sum_reads (o : WalObject) : (o.reads.map length).sum = o.bytes.length :=
  o.length_eq

lemma WalObject.splitLengths_reads (o : WalObject) :
    ((o.reads.map length).splitLengths o.bytes).map length = o.reads.map length ∧
      ((o.reads.map length).splitLengths o.bytes).flatten = o.bytes :=
  ⟨map_splitLengths_length _ _ o.sum_reads.le, flatten_splitLengths _ _ o.sum_reads.ge⟩

variable {objects : List WalObject}

section

variable (mem : Memory) (hat : ReaderAt pageSize file off fill r.deserializer)

include hat

/-- The reads of an entry return its bytes. -/
lemma readAll_spec (hsize : r.currentEntrySize = some size) {bytes : List UInt8}
    (hlen : (reads.map length).sum = bytes.length) (hfile : file.drop off = bytes ++ rest) :
    ∃ deserializer fill', r.readAll mem pageSize reads = .ok (bytes,
        { deserializer := deserializer
          currentEntrySize := some (size + bytes.length)
          entryBuffer := appendAll mem r.entryBuffer size
            ((reads.map length).splitLengths bytes) }) ∧
      ReaderAt pageSize file (off + bytes.length) fill' deserializer := by
  induction reads generalizing r off fill size bytes with
  | nil =>
    obtain rfl : bytes = [] := length_eq_zero_iff.mp hlen.symm
    refine ⟨r.deserializer, fill, ?_, hat⟩
    rw [readAll]
    simp [appendAll, ← hsize]
  | cons data reads ih =>
    rw [map_cons, sum_cons] at hlen
    obtain ⟨d, hread, hat', hdrop⟩ := read_append hat hfile
      (show data.length ≤ bytes.length by omega)
    have hlen' : (bytes.take data.length).length = data.length := by
      rw [length_take]
      omega
    obtain ⟨d', fill', hrec, hat''⟩ := ih (r := ⟨d, some (size + data.length),
      r.entryBuffer.append mem size (bytes.take data.length)⟩) hat' rfl
      (by rw [length_drop]; omega) hdrop
    refine ⟨d', fill', ?_, by rwa [length_drop, Nat.add_assoc,
      Nat.add_sub_cancel' (by omega)] at hat''⟩
    rw [readAll, ChecksumReader.read, hread, hsize]
    simp only [bind, Except.bind, pure, Except.pure, hlen', hrec, take_append_drop,
      map_cons, splitLengths_cons, appendAll, length_drop]
    rw [Nat.add_assoc, Nat.add_sub_cancel' (by omega)]

/-- Reading an object: the bytes are right, and the entry buffer decides about the checksum. -/
lemma readObject_spec {bytes : List UInt8} (hlen : (reads.map length).sum = bytes.length)
    (hfile : file.drop off = frame bytes ++ rest) :
    ∃ r' fill', ReaderAt pageSize file (off + (frame bytes).length) fill' r'.deserializer ∧
      r'.entryBuffer = appendAll mem r.entryBuffer 0 ((reads.map length).splitLengths bytes) ∧
      r.readObject mem pageSize reads =
        if checksum bytes = checksum (r'.entryBuffer.data.take bytes.length) then .ok (bytes, r')
        else .error (.exception checksumMismatchMessage) := by
  have hfile' : file.drop off = bytes ++ (leBytes (checksum bytes) ++ rest) := by
    rw [hfile, frame, append_assoc]
  obtain ⟨d, fill1, hread, hat1⟩ := readAll_spec mem (r := r.onObjectBegin) hat rfl hlen hfile'
  have hdrop : file.drop (off + bytes.length) = leBytes (checksum bytes) ++ rest := by
    rw [← drop_drop, hfile', drop_left]
  obtain ⟨d', hread', hat2, -⟩ := read_append hat1 hdrop
    (show (leBytes 0).length ≤ _ by rw [length_leBytes, length_leBytes])
  rw [length_leBytes 0] at hat2
  rw [length_leBytes 0, ← length_leBytes (checksum bytes), take_length] at hread'
  refine ⟨⟨d', none, appendAll mem r.entryBuffer 0 ((reads.map length).splitLengths bytes)⟩,
    nextFill pageSize (off + bytes.length) fill1 8, ?_, rfl, ?_⟩
  · rw [frame, length_append, length_leBytes, ← Nat.add_assoc]
    exact hat2
  · rw [readObject, hread]
    simp only [bind, Except.bind, onObjectEnd, hread', ofLeBytes_leBytes, pure, Except.pure,
      Nat.zero_add, onObjectBegin]
    by_cases hsum : checksum bytes = checksum ((appendAll mem r.entryBuffer 0
        ((reads.map length).splitLengths bytes)).data.take bytes.length)
    · rw [if_pos hsum, if_neg (by simp [← hsum])]
    · rw [if_neg hsum, if_pos hsum]
      rfl

/-- An entry that fits is read back. -/
lemma readObject_of_fits (o : WalObject) (hfile : file.drop off = frame o.bytes ++ rest)
    (hfits : growsOnlyEmpty r.entryBuffer.data.length 0 (o.reads.map length) = true) :
    ∃ r' fill', r.readObject mem pageSize o.reads = .ok (o.bytes, r') ∧
      ReaderAt pageSize file (off + (frame o.bytes).length) fill' r'.deserializer ∧
      r'.entryBuffer.data.length =
        sizeAfter r.entryBuffer.data.length 0 (o.reads.map length) := by
  obtain ⟨r1, fill1, hat1, hbuf, hread⟩ := readObject_spec mem hat o.sum_reads hfile
  obtain ⟨hsizes, hflat⟩ := o.splitLengths_reads
  have hentry := appendAll_of_fits mem (by rw [hsizes]; exact hfits)
  rw [hflat, take_zero, nil_append, Nat.zero_add, ← hbuf] at hentry
  refine ⟨r1, fill1, hread.trans (if_pos (by rw [hentry])), hat1, ?_⟩
  rw [hbuf, length_appendAll, hsizes]

/-- Entries that fit are read back in order. -/
lemma readObjects_of_fits (hfile : file.drop off = (objects.map fun o => frame o.bytes).flatten)
    (hfits : entriesFit r.entryBuffer.data.length
      (objects.map fun o => o.reads.map length) = true) :
    ∃ r', r.readObjects mem pageSize (objects.map WalObject.reads) =
      .ok (objects.map WalObject.bytes, r') := by
  induction objects generalizing r off fill with
  | nil => exact ⟨r, rfl⟩
  | cons o objects ih =>
    simp only [map_cons, entriesFit, Bool.and_eq_true] at hfits
    rw [map_cons, flatten_cons] at hfile
    obtain ⟨r1, fill1, hread, hat1, hL⟩ := readObject_of_fits mem hat o hfile hfits.1
    rw [← hL] at hfits
    obtain ⟨r', hr'⟩ := ih hat1 (by rw [← drop_drop, hfile, drop_left]) hfits.2
    refine ⟨r', ?_⟩
    rw [map_cons, readObjects, hread]
    simp only [bind, Except.bind, hr', pure, Except.pure, map_cons]

end

/-- With an entry inside which the buffer grows, there is memory with which the reader reports a
mismatch. -/
lemma readObjects_of_not_fits (pageSize : ℕ) (hL : 7 ≤ L)
    (hfile : file.drop off = (objects.map fun o => frame o.bytes).flatten)
    (hfits : entriesFit L (objects.map fun o => o.reads.map length) = false) :
    ∃ mem : Memory, ∀ (fill : ℕ) (r : ChecksumReader),
      ReaderAt pageSize file off fill r.deserializer → r.entryBuffer.data.length = L →
      r.readObjects mem pageSize (objects.map WalObject.reads) =
        .error (.exception checksumMismatchMessage) := by
  induction objects generalizing off L with
  | nil => simp [entriesFit] at hfits
  | cons o objects ih =>
    rw [map_cons, flatten_cons] at hfile
    by_cases ho : growsOnlyEmpty L 0 (o.reads.map length) = true
    -- the entry fits, and a later one does not
    · simp only [map_cons, entriesFit, ho, Bool.true_and] at hfits
      have hrest : file.drop (off + (frame o.bytes).length) =
          (objects.map fun o => frame o.bytes).flatten := by
        rw [← drop_drop, hfile, drop_left]
      obtain ⟨mem, hmem⟩ := ih (Nat.le_trans hL (le_sizeAfter _ _ _)) hrest hfits
      refine ⟨mem, fun fill r hat hrL => ?_⟩
      obtain ⟨r1, fill1, hread, hat1, hL1⟩ := readObject_of_fits mem hat o hfile (hrL ▸ ho)
      rw [map_cons, readObjects, hread]
      simp only [bind, Except.bind, hmem fill1 r1 hat1 (by rw [hL1, hrL])]
    -- the buffer grows in the entry, which is spoiled
    · obtain ⟨hsizes, hflat⟩ := o.splitLengths_reads
      have hlong : L < o.bytes.length := by
        rw [← hflat]
        exact lt_length_of_not_fits (by rw [hsizes]; exact ho)
      refine ⟨memoryOf (spoiled o.bytes), fun fill r hat hrL => ?_⟩
      obtain ⟨r1, fill1, -, hbuf, hread⟩ :=
        readObject_spec (memoryOf (spoiled o.bytes)) hat o.sum_reads hfile
      have hgrows : growsOnlyEmpty r.entryBuffer.data.length 0
          (((o.reads.map length).splitLengths o.bytes).map length) = false := by
        rw [hsizes, hrL]
        simpa using ho
      have hentry := appendAll_of_not_fits [] rfl hgrows
      rw [nil_append, hflat, length_nil, ← hbuf] at hentry
      have hne : checksum o.bytes ≠ checksum (spoiled o.bytes) := by
        obtain ⟨b, bs, hb⟩ := exists_cons_of_length_pos (show 0 < o.bytes.length by omega)
        rw [hb] at hlong ⊢
        refine checksum_ne_of_head (by rw [length_cons] at hlong; omega) fun hb => ?_
        exact spoiled_ne (cons_ne_nil b []) (congrArg (fun x => [x]) hb.symm)
      rw [map_cons, readObjects, hread, hentry, if_neg hne]
      rfl

/-! ### The round trip -/

/-- Whatever is in the memory that the two allocate, `ChecksumWriter` emits each object's bytes and
the checksum of exactly those bytes, and `ChecksumReader` reads them back without a mismatch. -/
def RoundTrips (pageSize : ℕ) (objects : List WalObject) : Prop :=
  ∀ mem mem' : Memory, ∃ w,
    (objects.map WalObject.writes).foldlM (writeObject mem) (.init mem pageSize) = some w ∧
    w.output = (objects.map fun o => o.bytes ++ leBytes (checksum o.bytes)).flatten ∧
    (objects ≠ [] → ∃ r r', init mem' pageSize w.output = .ok r ∧ r.readObjects mem'
      pageSize (objects.map WalObject.reads) = .ok (objects.map WalObject.bytes, r'))

lemma readerAt_frames (mem : Memory) (pageSize : ℕ) (hne : objects ≠ []) :
    ∃ r, init mem pageSize (objects.map fun o => frame o.bytes).flatten = .ok r ∧
      r.entryBuffer.data.length = pageSize ∧
      ReaderAt pageSize (objects.map fun o => frame o.bytes).flatten 0 pageSize r.deserializer := by
  have hfile : (objects.map fun o => frame o.bytes).flatten ≠ [] := by
    obtain ⟨o, objects, rfl⟩ := exists_cons_of_ne_nil hne
    intro h
    have := congrArg length h
    simp only [map_cons, flatten_cons, length_append, frame, length_leBytes, length_nil] at this
    omega
  obtain ⟨d, hd, hat⟩ := readerAt_init pageSize hfile
  exact ⟨_, by rw [init, hd]; rfl, length_allocateBuffer mem 0 pageSize, hat⟩

/-- The buffers need not grow: the log is read back. -/
lemma roundTrips_of_fits
    (hwrites : entriesFit pageSize (objects.map fun o => o.writes.map length) = true)
    (hreads : entriesFit pageSize (objects.map fun o => o.reads.map length) = true) :
    RoundTrips pageSize objects := by
  intro mem mem'
  have hwrites' : entriesFit (ChecksumWriter.init mem pageSize).entryBuffer.data.length
      ((objects.map WalObject.writes).map fun o => o.map length) = true := by
    rw [ChecksumWriter.init, length_allocateBuffer, map_map]
    exact hwrites
  obtain ⟨w, hw, hout⟩ := writeObjects_of_fits mem hwrites'
  rw [map_map] at hout
  refine ⟨w, hw, hout, fun hne => ?_⟩
  obtain ⟨r, hinit, hL, hat⟩ := readerAt_frames mem' pageSize hne
  obtain ⟨r', hr'⟩ := readObjects_of_fits mem' hat rfl (by rw [hL]; exact hreads)
  exact ⟨r, r', by rw [hout]; exact hinit, hr'⟩

/-- A log read back never grew mid-entry. -/
lemma fits_of_roundTrips (hpage : 8 ≤ pageSize) (h : RoundTrips pageSize objects) :
    entriesFit pageSize (objects.map fun o => o.writes.map length) = true ∧
      entriesFit pageSize (objects.map fun o => o.reads.map length) = true := by
  constructor
  · by_contra hfits
    have hfits' : entriesFit pageSize
        ((objects.map WalObject.writes).map fun o => o.map length) = false := by
      rw [map_map]
      exact Bool.eq_false_iff.mpr hfits
    obtain ⟨mem, hmem⟩ := writeObjects_of_not_fits hfits'
    obtain ⟨w, hw, hout, -⟩ := h mem mem
    refine hmem _ w (length_allocateBuffer mem 0 pageSize) hw ?_
    rw [hout, map_map]
    rfl
  · by_contra hfits
    have hne : objects ≠ [] := by
      rintro rfl
      exact hfits rfl
    obtain ⟨mem, hmem⟩ := readObjects_of_not_fits pageSize (show 7 ≤ pageSize by omega)
      (drop_zero (l := (objects.map fun o => frame o.bytes).flatten))
      (Bool.eq_false_iff.mpr hfits)
    obtain ⟨w, -, hout, hread⟩ := h mem mem
    obtain ⟨r, r', hinit, hr'⟩ := hread hne
    obtain ⟨r0, hinit0, hL, hat⟩ := readerAt_frames mem pageSize hne
    rw [hout] at hinit
    obtain rfl : r = r0 := Except.ok.inj (hinit.symm.trans hinit0)
    exact absurd (hr'.symm.trans (hmem pageSize r hat hL)) (by simp)

/-- **Checksummed framing.**  Writing and reading back is right for a list of objects exactly when
neither the writer's nor the reader's entry buffer has to grow inside an object that already holds
bytes. -/
theorem checksummedFraming_iff (hpage : 8 ≤ pageSize) (objects : List WalObject) :
    RoundTrips pageSize objects ↔
      entriesFit pageSize (objects.map fun o => o.writes.map length) = true ∧
        entriesFit pageSize (objects.map fun o => o.reads.map length) = true :=
  ⟨fits_of_roundTrips hpage, fun h => roundTrips_of_fits h.1 h.2⟩

/-- An object of one byte more than a page, written and read in two calls. -/
def growingObject : WalObject where
  writes := [[7], List.replicate 4096 0]
  reads := [[0], List.replicate 4096 0]
  length_eq := by
    simp only [map_cons, map_nil, length_replicate, flatten_cons, flatten_nil, length_append,
      length_cons, length_nil, sum_cons, sum_nil]

/-- The second call makes the buffer grow, and the byte of the first is lost. -/
theorem growingObject_not_roundTrips : ¬RoundTrips 4096 [growingObject] := by
  intro h
  have hfits := (fits_of_roundTrips (by decide) h).1
  have hsizes : growingObject.writes.map length = [1, 4096] := by
    simp only [growingObject, map_cons, map_nil, length_replicate, length_cons, length_nil]
  rw [map_cons, hsizes] at hfits
  exact absurd hfits (by decide)

/-- An object that fits into a page. -/
theorem checksummedFraming_iff_page :
    RoundTrips 4096 [⟨[[1, 2], [3]], [[0], [0, 0]], by decide⟩] :=
  (checksummedFraming_iff (by decide) _).mpr (by decide)

end Ladybug
