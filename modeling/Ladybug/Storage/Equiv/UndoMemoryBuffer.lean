import Ladybug.Storage.UndoMemoryBuffer

/-!
# Reading the undo buffer

* `undoBuffer_iterate`: the undo buffer is read forwards and backwards.
-/

namespace Ladybug.UndoMemoryBuffer

open List LittleEndian

/-- The type is a `uint16_t` and the size a `uint32_t`. -/
def Fits (e : UndoEntry) : Prop := e.recordType < 2 ^ 16 ∧ e.record.length < 2 ^ 32

lemma entries_flatMap {es : List UndoEntry} (h : ∀ e ∈ es, Fits e) {fuel : ℕ}
    (hfuel : (es.flatMap UndoEntry.bytes).length ≤ fuel) :
    entries fuel (es.flatMap UndoEntry.bytes) = es := by
  induction es generalizing fuel with
  | nil => cases fuel <;> rfl
  | cons e es ih =>
    obtain ⟨he, hes⟩ := forall_mem_cons.mp h
    have htype : decode (encode 4 e.recordType) = e.recordType :=
      decode_encode_of_lt (he.1.trans (by decide))
    have hsize : decode (encode 4 e.record.length) = e.record.length := decode_encode_of_lt he.2
    rw [flatMap_cons, UndoEntry.bytes] at hfuel ⊢
    cases fuel with
    | zero => simp at hfuel
    | succ fuel =>
      simp only [length_append, length_encode] at hfuel
      have hrest : entries fuel (es.flatMap UndoEntry.bytes) = es := ih hes (by omega)
      rw [entries, if_neg (by simp [encode])]
      simp [htype, hsize, drop_append, drop_eq_nil_of_le, hrest]

/-- The loop ends with a capacity for the record. -/
lemma le_growCapacity {size fuel capacity : ℕ} (hpos : 0 < capacity)
    (h : size ≤ capacity + fuel) : size ≤ growCapacity size fuel capacity := by
  induction fuel generalizing capacity with
  | zero => exact h
  | succ fuel ih =>
    rw [growCapacity]
    split_ifs with hgt
    · exact ih (by omega) (by omega)
    · omega

/-- The memory buffers hold groups of entries, for which they have room. -/
structure Holds (memoryBuffers : List UndoMemoryBuffer) (groups : List (List UndoEntry)) :
    Prop where
  data_eq : memoryBuffers.map data = groups.map (flatMap UndoEntry.bytes)
  length_le : ∀ b ∈ memoryBuffers, b.data.length ≤ b.capacity

variable {memoryBuffers : List UndoMemoryBuffer} {groups : List (List UndoEntry)}

lemma createUndoRecord_holds (h : Holds memoryBuffers groups) (e : UndoEntry) :
    ∃ groups', Holds (createUndoRecord memoryBuffers e) groups' ∧
      groups'.flatten = groups.flatten ++ [e] := by
  rw [createUndoRecord]
  split_ifs with hfit
  · rcases memoryBuffers.eq_nil_or_concat with rfl | ⟨bs, last, rfl⟩
    · cases hfit
    rcases groups.eq_nil_or_concat with rfl | ⟨gs, g, rfl⟩
    · simpa using h.data_eq
    obtain ⟨hdata, hlength⟩ := h
    refine ⟨gs ++ [g ++ [e]], ⟨?_, ?_⟩, by simp⟩
    · simp_all [modifyLast_concat]
    · rw [concat_eq_append, modifyLast_concat]
      intro b hb
      rcases mem_append.mp hb with hb | hb
      · exact hlength b (by simp [hb])
      · rw [mem_singleton.mp hb, length_append]
        simpa [canFit] using hfit
  · have hgrow : e.bytes.length ≤ growCapacity e.bytes.length e.bytes.length 4096 :=
      le_growCapacity (by decide) (Nat.le_add_left _ _)
    refine ⟨groups ++ [[e]], ⟨?_, ?_⟩, by simp⟩
    · simp [modifyLast_concat, h.data_eq]
    · simpa [modifyLast_concat, or_imp, forall_and] using ⟨h.length_le, hgrow⟩

lemma foldl_createUndoRecord (es : List UndoEntry) (h : Holds memoryBuffers groups) :
    ∃ groups', Holds (es.foldl createUndoRecord memoryBuffers) groups' ∧
      groups'.flatten = groups.flatten ++ es := by
  induction es generalizing memoryBuffers groups with
  | nil => exact ⟨groups, h, (append_nil _).symm⟩
  | cons e es ih =>
    obtain ⟨groups₁, h₁, hflat₁⟩ := createUndoRecord_holds h e
    obtain ⟨groups', h', hflat⟩ := ih h₁
    exact ⟨groups', h', by rw [hflat, hflat₁, append_assoc, singleton_append]⟩

/-- **The undo buffer is read back.**  Whatever entries are pushed, `iterate` visits each of them
once in this order and `reverseIterate` in the reverse order, and no memory buffer is written behind
its end. -/
theorem undoBuffer_iterate (es : List UndoEntry) (hfits : ∀ e ∈ es, Fits e) :
    iterate (es.foldl createUndoRecord []) = es ∧
      reverseIterate (es.foldl createUndoRecord []) = es.reverse ∧
      ∀ b ∈ es.foldl createUndoRecord [], b.data.length ≤ b.capacity := by
  obtain ⟨groups, h, hflat⟩ := foldl_createUndoRecord es (show Holds [] [] from ⟨rfl, nofun⟩)
  obtain rfl : groups.flatten = es := hflat
  generalize groups.flatten.foldl createUndoRecord [] = memoryBuffers at h
  have hread : memoryBuffers.map (fun b => entries b.data.length b.data) = groups := by
    have hmap := congrArg (map fun d => entries d.length d) h.data_eq
    rw [map_map, map_map] at hmap
    refine hmap.trans ((map_congr_left fun g hg => ?_).trans (map_id' groups))
    exact entries_flatMap (fun e he => hfits e (mem_flatten.mpr ⟨g, hg, he⟩)) le_rfl
  rw [iterate, reverseIterate, flatMap_def, flatMap_def, hread, reverse_flatten]
  refine ⟨rfl, ?_, h.length_le⟩
  rw [← hread, map_map, ← map_reverse]
  rfl

theorem undoBuffer_iterate_two :
    reverseIterate ([⟨7, [1, 2]⟩, ⟨0, [3]⟩].foldl createUndoRecord []) = [⟨0, [3]⟩, ⟨7, [1, 2]⟩] :=
  (undoBuffer_iterate [⟨7, [1, 2]⟩, ⟨0, [3]⟩] (by simp [Fits])).2.1

end Ladybug.UndoMemoryBuffer
