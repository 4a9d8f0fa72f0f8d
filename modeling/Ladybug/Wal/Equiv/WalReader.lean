import Ladybug.Wal.WalReplayer
import Ladybug.Wal.Equiv.Checksum

/-!
# Correctness of reading one object of the log

* `readObject_complete`: an object that is there in full is read, and the reader stands behind it;
* `readObject_torn`: an object whose end is missing is refused with an exception, or (without
  checksums) accepted by a reader that has reached the end of the file, provided that the cut is not
  inside a read that had to refill the buffer.
-/

namespace Ladybug

open List WalReader
open ReadProgram (feed readSizes)

variable {α β : Type} {mem : Memory} {pageSize off fill : ℕ} {file : List UInt8}

/-! ### Programs that read -/

variable {a : α} {bytes rest : List UInt8} {p : ReadProgram α} {d : BufferedFileReader}
  {ys xs : List ℕ} {cut : ℕ}

lemma ReadProgram.sum_readSizes
    (h : p.feed bytes = some (a, [])) : (p.readSizes bytes).sum = bytes.length := by
  induction p generalizing bytes with
  | done b =>
    simp only [feed, Option.some.injEq, Prod.mk.injEq] at h
    rw [h.2]
    rfl
  | throw message => simp [feed] at h
  | read data next ih =>
    simp only [feed] at h
    split_ifs at h with hlen
    rw [readSizes, sum_cons, ih _ h, length_drop]
    omega

lemma ReadProgram.feed_map (f : α → β) (p : ReadProgram α) (bytes : List UInt8) :
    (p.map f).feed bytes = (p.feed bytes).map fun x => (f x.1, x.2) := by
  induction p generalizing bytes with
  | done a | throw message => rfl
  | read data next ih =>
    simp only [ReadProgram.map, feed, ih]
    split_ifs <;> rfl

lemma ReadProgram.readSizes_map (f : α → β) (p : ReadProgram α) (bytes : List UInt8) :
    (p.map f).readSizes bytes = p.readSizes bytes := by
  induction p generalizing bytes with
  | done a | throw message => rfl
  | read data next ih => simp only [ReadProgram.map, readSizes, ih]

/-- How far the buffer is filled after reads of the given sizes. -/
def fillAfter (pageSize : ℕ) : ℕ → ℕ → List ℕ → ℕ
  | _, fill, [] => fill
  | off, fill, n :: sizes => fillAfter pageSize (off + n) (nextFill pageSize off fill n) sizes

/-- The buffer after two sequences of reads. -/
lemma fillAfter_append (off fill : ℕ) (xs ys : List ℕ) :
    fillAfter pageSize off fill (xs ++ ys) =
      fillAfter pageSize (off + xs.sum) (fillAfter pageSize off fill xs) ys := by
  induction xs generalizing off fill with
  | nil => rfl
  | cons n xs ih =>
    simp [fillAfter, ih, Nat.add_assoc]

/-- The file does not end inside a read for which the buffer has just been refilled: the read in
which it ends is a large one, or the buffer was filled beyond the end. -/
def cutSafe (pageSize cut : ℕ) : ℕ → ℕ → List ℕ → Bool
  | _, _, [] => true
  | off, fill, n :: sizes =>
    if off + n ≤ cut then cutSafe pageSize cut (off + n) (nextFill pageSize off fill n) sizes
    else n > pageSize || cut ≤ fill

/-- A cut in the second sequence of reads. -/
lemma cutSafe_append (hle : off + xs.sum ≤ cut) :
    cutSafe pageSize cut off fill (xs ++ ys) =
      cutSafe pageSize cut (off + xs.sum) (fillAfter pageSize off fill xs) ys := by
  induction xs generalizing off fill with
  | nil => rfl
  | cons n xs ih =>
    rw [sum_cons] at hle
    rw [cons_append, cutSafe, if_pos (by omega), ih (by omega), fillAfter, sum_cons, Nat.add_assoc]

lemma cutSafe_of_append (h : cutSafe pageSize cut off fill (xs ++ ys) = true) :
    cutSafe pageSize cut off fill xs = true := by
  induction xs generalizing off fill with
  | nil => rfl
  | cons n xs ih =>
    rw [cons_append, cutSafe] at h
    rw [cutSafe]
    split_ifs at h ⊢
    · exact ih h
    · exact h

/-! ### Readers -/

namespace WalReader

def base : WalReader → BufferedFileReader
  | checksummed r => r.deserializer
  | plain r => r

def isChecksummed : WalReader → Bool
  | checksummed _ => true
  | plain _ => false

/-- A checksummed reader is between `onObjectBegin` and `onObjectEnd`. -/
def inObject : WalReader → Bool
  | checksummed r => r.currentEntrySize.isSome
  | plain _ => true

variable {r : WalReader} {data : List UInt8}

lemma read_error {e : Fault} (h : r.base.read pageSize data = .error e) :
    r.read mem pageSize data = .error e := by
  cases r with
  | plain r =>
    simp only [base] at h
    rw [read, h]
    rfl
  | checksummed r =>
    simp only [base] at h
    rw [read, ChecksumReader.read, h]
    rfl

lemma read_ok (mem : Memory) (hin : r.inObject = true)
    (h : r.base.read pageSize data = .ok (bytes, d)) :
    ∃ r', r.read mem pageSize data = .ok (bytes, r') ∧ r'.base = d ∧ r'.inObject = true ∧
      r'.isChecksummed = r.isChecksummed := by
  cases r with
  | plain r =>
    simp only [base] at h
    exact ⟨plain d, by rw [read, h]; rfl, rfl, rfl, rfl⟩
  | checksummed r =>
    simp only [base] at h
    obtain ⟨size, hsize⟩ := Option.isSome_iff_exists.mp hin
    refine ⟨checksummed ⟨d, some (size + bytes.length), r.entryBuffer.append mem size bytes⟩, ?_,
      rfl, rfl, rfl⟩
    rw [read, ChecksumReader.read, h, hsize]
    rfl

/-- The ways in which a run that meets the end of the file can end. -/
def EndsTorn (file : List UInt8) (checksummed : Bool) (result : Except Fault (α × WalReader)) :
    Prop :=
  (∃ message, result = .error (.exception message)) ∨
    ∃ a r', result = .ok (a, r') ∧ ReaderPast file r'.base ∧ r'.inObject = true ∧
      r'.isChecksummed = checksummed

/-- Past the end of the file every read is torn. -/
lemma run_past (hin : r.inObject = true) (h : ReaderPast file r.base) :
    EndsTorn file r.isChecksummed (run mem pageSize p r) := by
  induction p generalizing r with
  | done a => exact .inr ⟨a, r, rfl, h, hin, rfl⟩
  | throw message => exact .inl ⟨message, rfl⟩
  | read data next ih =>
    by_cases hdata : data = []
    · -- an empty read is answered from the buffer
      subst hdata
      have hread : ∃ d, r.base.read pageSize [] = .ok ([], d) ∧ ReaderPast file d := by
        have h1 := h.used_up
        refine ⟨{ r.base with bufferOffset := r.base.bufferOffset + 0 }, ?_, h.file_eq, ?_,
          h.size_le, h.length_lt⟩
        · unfold BufferedFileReader.read
          simp [h1]
        · exact h1
      obtain ⟨d, hd, hpast⟩ := hread
      obtain ⟨r', hr', hbase, hin', hchk⟩ := read_ok mem hin hd
      rw [run, hr', ← hchk]
      exact ih [] hin' (hbase ▸ hpast)
    · obtain ⟨message, hm⟩ := h.read pageSize hdata
      rw [run, read_error hm]
      exact .inl ⟨message, rfl⟩

/-- A torn entry is reported as such. -/
lemma run_torn (mem : Memory) {more : List UInt8} (hmore : more ≠ [])
    (hin : r.inObject = true) (hat : ReaderAt pageSize file off fill r.base)
    (hfile : file.drop off = bytes) (hfeed : p.feed (bytes ++ more) = some (a, []))
    (hsafe : cutSafe pageSize file.length off fill (p.readSizes (bytes ++ more)) = true) :
    EndsTorn file r.isChecksummed (run mem pageSize p r) := by
  induction p generalizing r off fill bytes with
  | done b =>
    simp only [feed, Option.some.injEq, Prod.mk.injEq, append_eq_nil_iff] at hfeed
    exact absurd hfeed.2.2 hmore
  | throw message => simp [feed] at hfeed
  | read data next ih =>
    have hlen : file.length - off = bytes.length := by rw [← length_drop, hfile]
    simp only [feed] at hfeed
    split_ifs at hfeed with hle
    rw [readSizes, cutSafe] at hsafe
    by_cases hin' : off + data.length ≤ file.length
    · -- this read is inside the file
      rw [if_pos hin'] at hsafe
      obtain ⟨d, hread, hat'⟩ := read_spec hat data hin'
      obtain ⟨r', hr', hbase, hinr, hchk⟩ := read_ok mem hin hread
      have htake : (file.drop off).take data.length = (bytes ++ more).take data.length := by
        rw [hfile, take_append_of_le_length (by omega)]
      have hdrop : (bytes ++ more).drop data.length = bytes.drop data.length ++ more :=
        drop_append_of_le_length (by omega)
      rw [hdrop] at hfeed hsafe
      rw [run, hr', ← hchk, htake]
      exact ih _ hinr (hbase ▸ hat') (by rw [← drop_drop, hfile]) hfeed hsafe
    · rw [if_neg hin'] at hsafe
      by_cases hlarge : pageSize < data.length
      -- a large read does not notice the end of the file
      · obtain ⟨data', d, hread, hpast⟩ := read_past_of_large hat hlarge (by omega)
        obtain ⟨r', hr', hbase, hinr, hchk⟩ := read_ok mem hin hread
        rw [run, hr', ← hchk]
        exact run_past hinr (hbase ▸ hpast)
      -- a read through the buffer fails
      · have hfilled : file.length ≤ fill := by
          simpa [hlarge] using hsafe
        obtain ⟨message, hm⟩ := read_past_of_filled hat
          (show data.length ≤ pageSize by omega) (by omega) hfilled
        rw [run, read_error hm]
        exact .inl ⟨message, rfl⟩

/-- The reader inside an object, with what the entry buffer holds. -/
def withEntry (d : BufferedFileReader) (size : ℕ) (buf : EntryBuffer) : Bool → WalReader
  | true => checksummed ⟨d, some size, buf⟩
  | false => plain d

/-- A complete entry is read. -/
lemma run_complete (mem : Memory) (size : ℕ) (buf : EntryBuffer) (chk : Bool)
    (hat : ReaderAt pageSize file off fill d) (hfile : file.drop off = bytes ++ rest)
    (hfeed : p.feed bytes = some (a, [])) :
    ∃ d', ReaderAt pageSize file (off + bytes.length)
        (fillAfter pageSize off fill (p.readSizes bytes)) d' ∧
      run mem pageSize p (withEntry d size buf chk) =
        .ok (a, withEntry d' (size + bytes.length)
          (appendAll mem buf size ((p.readSizes bytes).splitLengths bytes)) chk) := by
  induction p generalizing d off fill bytes size buf with
  | done b =>
    simp only [feed, Option.some.injEq, Prod.mk.injEq] at hfeed
    obtain ⟨rfl, rfl⟩ := hfeed
    exact ⟨d, hat, by cases chk <;> rfl⟩
  | throw message => simp [feed] at hfeed
  | read data next ih =>
    simp only [feed] at hfeed
    split_ifs at hfeed with hle
    obtain ⟨d1, hread, hat1, hdrop⟩ := read_append hat hfile hle
    have hlen1 : (bytes.take data.length).length = data.length := by
      rw [length_take]
      omega
    -- both readers return the bytes and remember them
    have hwr : (withEntry d size buf chk).read mem pageSize data = .ok (bytes.take data.length,
        withEntry d1 (size + data.length) (buf.append mem size (bytes.take data.length)) chk) := by
      cases chk
      · rw [withEntry, read, hread]
        rfl
      · rw [withEntry, read, ChecksumReader.read, hread]
        simp [bind, Except.bind, pure, Except.pure, Except.map, withEntry, hle]
    obtain ⟨d', hat', hrun⟩ := ih _ (size + data.length)
      (buf.append mem size (bytes.take data.length)) hat1 hdrop hfeed
    refine ⟨d', ?_, ?_⟩
    · rw [readSizes, fillAfter]
      rwa [length_drop, Nat.add_assoc, Nat.add_sub_cancel' hle] at hat'
    · rw [run, hwr]
      simp only
      rw [hrun, readSizes, splitLengths_cons, appendAll, hlen1, length_drop,
        Nat.add_assoc, Nat.add_sub_cancel' hle]

/-! ### Objects -/

/-- The entry buffer, where there is one. -/
def buffer : WalReader → EntryBuffer
  | checksummed r => r.entryBuffer
  | plain _ => ⟨[], 0⟩

lemma onObjectBegin_eq (r : WalReader) :
    r.onObjectBegin = withEntry r.base 0 r.buffer r.isChecksummed := by
  cases r <;> rfl

end WalReader

/-- The bytes of an object in the log. -/
def entryBytes (chk : Bool) (bytes : List UInt8) : List UInt8 := if chk then frame bytes else bytes

/-- The sizes of the reads for an object of the log: with checksums, the checksum is read last. -/
def entryReads (chk : Bool) (sizes : List ℕ) : List ℕ := sizes ++ if chk then [8] else []

/-- A reader between objects.  `L` is the size of its entry buffer. -/
structure WalAt (pageSize : ℕ) (chk : Bool) (L : ℕ) (file : List UInt8) (off fill : ℕ)
    (r : WalReader) : Prop where
  readerAt : ReaderAt pageSize file off fill r.base
  kind : r.isChecksummed = chk
  length : chk = true → r.buffer.data.length = L

variable {chk : Bool} {L : ℕ} {r : WalReader}

/-- The checksum of a complete entry matches. -/
lemma onObjectEnd_complete {size : ℕ} {buf : EntryBuffer} (hat : ReaderAt pageSize file off fill d)
    (hfile : file.drop off = leBytes (checksum (buf.data.take size)) ++ rest) :
    ∃ d', ReaderAt pageSize file (off + 8) (nextFill pageSize off fill 8) d' ∧
      (withEntry d size buf true).onObjectEnd pageSize = .ok (.checksummed ⟨d', none, buf⟩) := by
  obtain ⟨d', hread, hat', -⟩ := read_append hat hfile
    (show (leBytes 0).length ≤ _ by rw [length_leBytes, length_leBytes])
  rw [length_leBytes 0] at hat'
  rw [length_leBytes 0, ← length_leBytes (checksum (buf.data.take size)), take_length] at hread
  refine ⟨d', hat', ?_⟩
  simp only [withEntry, onObjectEnd, ChecksumReader.onObjectEnd, bind,
    Except.bind, hread, ofLeBytes_leBytes]
  rw [if_neg (by simp)]
  rfl

lemma onObjectEnd_error {c : ChecksumReader} {message : String}
    (hin : c.currentEntrySize.isSome = true)
    (hread : c.deserializer.read pageSize (leBytes 0) = .error (.exception message)) :
    (checksummed c).onObjectEnd pageSize = .error (.exception message) := by
  obtain ⟨size, hsize⟩ := Option.isSome_iff_exists.mp hin
  simp only [onObjectEnd, ChecksumReader.onObjectEnd, hsize, bind, Except.bind, hread]
  rfl

/-- An object that is there in full.  The entries behind it are `entries`. -/
lemma readObject_complete (mem : Memory) (h : WalAt pageSize chk L file off fill r)
    (hfile : file.drop off = entryBytes chk bytes ++ rest) (hfeed : p.feed bytes = some (a, []))
    {entries : List (List ℕ)}
    (hfits : chk = true → entriesFit L (p.readSizes bytes :: entries) = true) :
    (∃ r', r.readObject mem pageSize p = .ok (a, r') ∧ WalAt pageSize chk (sizeAfter L 0
      (p.readSizes bytes)) file (off + (entryBytes chk bytes).length) (fillAfter pageSize off fill
      (entryReads chk (p.readSizes bytes))) r') ∧
      file.drop (off + (entryBytes chk bytes).length) = rest ∧
      (chk = true → entriesFit (sizeAfter L 0 (p.readSizes bytes)) entries = true) := by
  simp only [entriesFit, Bool.and_eq_true, imp_and] at hfits
  refine ⟨?_, by rw [← drop_drop, hfile, drop_left], hfits.2⟩
  have hsum := ReadProgram.sum_readSizes hfeed
  rw [readObject, onObjectBegin_eq, h.kind]
  cases chk with
  | false =>
    obtain ⟨d, hat, hrun⟩ := run_complete mem 0 r.buffer false h.readerAt hfile hfeed
    rw [hrun]
    refine ⟨.plain d, rfl, ?_, rfl, by simp⟩
    rw [entryReads, if_neg (by simp), append_nil]
    exact hat
  | true =>
    have hfile' : file.drop off = bytes ++ (leBytes (checksum bytes) ++ rest) := by
      rw [hfile, entryBytes, if_pos rfl, frame, append_assoc]
    obtain ⟨d, hat, hrun⟩ := run_complete mem 0 r.buffer true h.readerAt hfile' hfeed
    have hsizes := map_splitLengths_length _ _ (Nat.le_of_eq hsum)
    have hflat := flatten_splitLengths _ _ (Nat.le_of_eq hsum.symm)
    -- the entry fits, so that the buffer holds its bytes
    have hgrows : growsOnlyEmpty r.buffer.data.length 0
        (((p.readSizes bytes).splitLengths bytes).map List.length) = true := by
      rw [hsizes, h.length rfl]
      exact hfits.1 rfl
    have hentry := appendAll_of_fits mem hgrows
    rw [hflat, take_zero, nil_append] at hentry
    have hdrop : file.drop (off + bytes.length) = leBytes (checksum ((appendAll mem r.buffer 0
        ((p.readSizes bytes).splitLengths bytes)).data.take (0 + bytes.length))) ++ rest := by
      rw [hentry, ← drop_drop, hfile', drop_left]
    obtain ⟨d', hat', hend⟩ := onObjectEnd_complete hat hdrop
    rw [hrun]
    refine ⟨_, by simp only [hend]; rfl, ?_, rfl, fun _ => ?_⟩
    · rw [entryReads, if_pos rfl, fillAfter_append, hsum, entryBytes, if_pos rfl, frame,
        List.length_append, length_leBytes, ← Nat.add_assoc]
      exact hat'
    · rw [WalReader.buffer, length_appendAll, hsizes, h.length rfl]

/-- With checksums, an object of which the end is missing is refused. -/
lemma readObject_torn (mem : Memory) (hpage : 8 ≤ pageSize)
    (h : WalAt pageSize true L file off fill r)
    {cut more : List UInt8} (hmore : more ≠ []) (hbytes : frame bytes = cut ++ more)
    (hfile : file.drop off = cut) (hfeed : p.feed bytes = some (a, []))
    (hsafe : cutSafe pageSize file.length off fill (entryReads true (p.readSizes bytes)) = true) :
    ∃ message, r.readObject mem pageSize p = .error (.exception message) := by
  have hsum := ReadProgram.sum_readSizes hfeed
  have hlenfile : file.length - off = cut.length := by rw [← length_drop, hfile]
  have hoff := h.readerAt.off_le
  have hlen : bytes.length + 8 = cut.length + more.length := by
    have := congrArg List.length hbytes
    simpa only [frame, List.length_append, length_leBytes] using this
  have hmorelen := List.length_pos_iff.mpr hmore
  rw [readObject, onObjectBegin_eq, h.kind]
  by_cases hin : cut.length < bytes.length
  · -- the payload is cut off
    have hpre : bytes = cut ++ bytes.drop cut.length := by
      have htake := congrArg (List.take cut.length) hbytes
      rw [frame, take_append_of_le_length (by omega), take_left] at htake
      rw [← htake, length_take, Nat.min_eq_left (by omega), take_append_drop]
    have hrest : bytes.drop cut.length ≠ [] := by
      rw [ne_eq, drop_eq_nil_iff]
      omega
    have htorn := run_torn mem (r := .withEntry r.base 0 r.buffer true) hrest rfl
      h.readerAt hfile (hpre ▸ hfeed) (hpre ▸ cutSafe_of_append hsafe)
    -- the payload is too short, or its checksum is
    rcases htorn with ⟨message, hm⟩ | ⟨a', r', hok, hpast, hin', hchk⟩
    · exact ⟨message, by rw [hm]⟩
    · rw [hok]
      cases r' with
      | plain d => simp [isChecksummed, withEntry] at hchk
      | checksummed c =>
        obtain ⟨message, hm⟩ := hpast.read pageSize (show leBytes 0 ≠ [] by simp [leBytes])
        refine ⟨message, ?_⟩
        simp only
        rw [onObjectEnd_error hin' hm]
        rfl
  · -- the checksum is cut off
    have hpre : cut = bytes ++ cut.drop bytes.length := by
      have htake := congrArg (List.take bytes.length) hbytes
      rw [frame, take_left, take_append_of_le_length (by omega)] at htake
      exact (take_append_drop bytes.length cut).symm.trans (by rw [← htake])
    obtain ⟨d, hat, hrun⟩ := run_complete mem 0 r.buffer true h.readerAt (hfile.trans hpre) hfeed
    rw [hrun]
    rw [entryReads, cutSafe_append (by omega), hsum] at hsafe
    have hfilled : file.length ≤ fillAfter pageSize off fill (p.readSizes bytes) := by
      simp only [if_true, cutSafe] at hsafe
      rw [if_neg (by omega)] at hsafe
      simpa [Nat.not_lt.mpr hpage] using hsafe
    obtain ⟨message, hm⟩ := read_past_of_filled hat
      (show (leBytes 0).length ≤ pageSize by rw [length_leBytes]; exact hpage)
      (by rw [length_leBytes]; omega) hfilled
    refine ⟨message, ?_⟩
    simp only [withEntry]
    rw [onObjectEnd_error rfl hm]
    rfl

end Ladybug
