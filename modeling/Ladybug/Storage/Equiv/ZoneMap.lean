import Ladybug.Storage.Equiv.ColumnChunkStats
import Ladybug.Storage.SegmentCheckpoint

/-!
# Zone maps are sound while a write moves one bound

The metadata of a segment on disk contain its values and its null bits (`SegmentSound`). A segment
that is flushed has them from its rows; a segment that is written in place takes them from
`updateStatistics`, which raises the maximum or lowers the minimum, but not both.

* `getMergedColumnChunkStats_sound`: after every run whose operations are allowed, the merged
  statistics bound the values of the chunk, and what they say about nulls is true. An operation is
  allowed when none of its values is NaN, when no range that a checkpoint writes in place both
  raises the maximum and lowers the minimum of a segment, when columns without null data get no
  nulls, and when internal ids come from chunks, without gaps.
* `zoneMap_misses_zero`: when a range does both, the minimum stays behind.
-/

namespace Ladybug.ZoneMap

open List OnDiskData
open Bool (and_eq_true not_eq_true')
open Option (bind_eq_some_iff map_eq_some_iff some.inj)

variable {V K : Type} [LinearOrder K] {key : V → Option K}

/-! ### Segments on disk -/

/-- Statistics whose interval contains the keys of the values. -/
def Contains (key : V → Option K) (stats : ColumnChunkStats V) (values : List V) : Prop :=
  ∃ I, Represents key stats I ∧ ∀ v ∈ values, ∀ k, key v = some k → Interval.pure k ≤ I

/-- The metadata of a segment contain its values that are not null and its null bits. -/
structure SegmentSound (key : V → Option K) (data : OnDiskData V) : Prop where
  keyed : KeyedRows key data.rows
  values : Contains key ⟨some data.min, some data.max⟩ (nonNull data.rows)
  nulls : Contains boolKey ⟨some data.nullMin, some data.nullMax⟩ (data.rows.map Prod.snd)
  noNullData : data.hasNullData = false → ∀ row ∈ data.rows, row.2 = false

variable {zero : V} {hasNullData : Bool} {values : List V} {policy : Policy V} {kind : ColumnKind}
  {I : Interval K} {rows : List (Row V)} {data : OnDiskData V} {stats : ColumnChunkStats V}
  {segments : List (OnDiskData V)} {states : List (SegmentCheckpointState (Row V))} {bounds : V × V}
  {S : Type}

lemma Contains.subset {values' : List V}
    (h : Contains key stats values) (hsub : ∀ v ∈ values', v ∈ values) :
    Contains key stats values' := by
  obtain ⟨I, hrep, hI⟩ := h
  exact ⟨I, hrep, fun v hv => hI v (hsub v hv)⟩

lemma contains_getD (hzero : (key zero).isSome) (hkeyed : Keyed key values) :
    Contains key ⟨some ((getMinMax key values).min.getD zero),
      some ((getMinMax key values).max.getD zero)⟩ values := by
  obtain ⟨k, hk⟩ := Option.isSome_iff_exists.mp hzero
  have hrep := represents_getMinMax hkeyed
  have hle : ∀ v ∈ values, ∀ k, key v = some k → Interval.pure k ≤ hull key values :=
    fun v hv k hk => pure_le_hull hv hk
  generalize getMinMax key values = minMax at hrep ⊢
  generalize hull key values = I at hrep hle
  cases hrep with
  | empty =>
    refine ⟨_, represents_value hk, fun v hv a ha => ?_⟩
    exact (hle v hv a ha).trans bot_le
  | bounds hmin hmax => exact ⟨_, .bounds hmin hmax, hle⟩

/-- A flushed segment has sound statistics. -/
lemma flush_sound (hzero : (key zero).isSome) (kind : ColumnKind) (hkeyed : KeyedRows key rows)
    (hno : hasNullData = false → ∀ row ∈ rows, row.2 = false) (noNulls : Bool) :
    SegmentSound key (OnDiskData.flush key zero kind hasNullData rows noNulls) where
  keyed := hkeyed
  values := by
    apply (contains_getD hzero (hkeyed.included (!hasNullData || noNulls))).subset
    intro v hv
    obtain ⟨row, hrow, rfl⟩ := mem_map.mp hv
    obtain ⟨hmem, hnull⟩ := mem_filter.mp hrow
    exact mem_included hmem (by simpa using hnull) _
  nulls := contains_getD rfl (keyed_boolKey _)
  noNullData := hno

/-- So do the segments of a split flush. -/
lemma flushSegments_sound (hzero : (key zero).isSome) (policy : Policy V)
    (kind : ColumnKind) (hkeyed : KeyedRows key rows)
    (hno : hasNullData = false → ∀ row ∈ rows, row.2 = false) (noNulls : Bool) :
    ∀ data ∈ flushSegments key zero policy kind hasNullData rows noNulls,
      SegmentSound key data := by
  intro data hdata
  rw [flushSegments] at hdata
  split at hdata
  case h_1 =>
    obtain rfl := mem_singleton.mp hdata
    exact flush_sound hzero kind hkeyed hno noNulls
  case h_2 segments hne =>
    obtain ⟨segment, hsegment, rfl⟩ := mem_map.mp hdata
    have hsub : ∀ row ∈ segment, row ∈ rows := by
      intro row hrow
      rw [← policy.split_flatten rows hne]
      exact mem_flatten_of_mem hsegment hrow
    exact flush_sound hzero kind (hkeyed.subset hsub)
      (fun hn row hrow => hno hn row (hsub row hrow)) _

/-! ### Writes in place -/

/-- The written values raise the maximum and lower the minimum. -/
def movesBoth (key : V → Option K) (bounds : V × V) (written : ColumnChunkStats V) : Bool :=
  written.max.any (gt key · bounds.2) && written.min.any (gt key bounds.1 ·)

/-- `updateStatistics` is the join of intervals unless both bounds would have to move. -/
lemma represents_updateStatistics {written : ColumnChunkStats V}
    {J : Interval K} (hbounds : Represents key (boundsStats bounds) I)
    (hwritten : Represents key written J) (hone : movesBoth key bounds written = false) :
    Represents key (boundsStats (updateStatistics key bounds written)) (I ⊔ J) := by
  have hupdate := represents_updateBy hbounds hwritten
  cases hwritten with
  | empty => exact hupdate
  | @bounds min max J hmin hmax =>
    have hone : (gt key max bounds.2 && gt key bounds.1 min) = false := hone
    have heq : ColumnChunkStats.updateBy key ⟨some bounds.1, some bounds.2⟩
        ⟨some min, some max⟩ = ⟨if gt key bounds.1 min then some min else some bounds.1,
          if gt key max bounds.2 then some max else some bounds.2⟩ := rfl
    rw [heq] at hupdate
    simp only [updateStatistics]
    cases hraise : gt key max bounds.2 with
    | true =>
      rw [hraise, Bool.true_and] at hone
      rw [hraise, hone] at hupdate
      exact hupdate
    | false =>
      rw [hraise] at hupdate
      cases hlower : gt key bounds.1 min with
      | true | false =>
        rw [hlower] at hupdate
        exact hupdate

/-- Every state moves one bound at most, from the bounds that the states before it leave. -/
def moveOneBound {S : Type} (key : V → Option K) (written : S → List V) : V × V → List S → Bool
  | _, [] => true
  | bounds, s :: states => !movesBoth key bounds (getMinMax key (written s)) &&
      moveOneBound key written (updateStatistics key bounds (getMinMax key (written s))) states

/-- Writes that move one bound at most widen the bounds as needed. -/
lemma contains_foldl_updateStatistics {written : S → List V} {states : List S}
    (hkeyed : ∀ s ∈ states, Keyed key (written s))
    (hbounds : Contains key (boundsStats bounds) values)
    (hone : moveOneBound key written bounds states = true) :
    Contains key (boundsStats <| states.foldl (fun bounds s =>
      updateStatistics key bounds (getMinMax key (written s))) bounds)
      (values ++ states.flatMap written) := by
  induction states generalizing bounds values with
  | nil => simpa using hbounds
  | cons s states ih =>
    rw [moveOneBound, and_eq_true, not_eq_true'] at hone
    obtain ⟨I, hrep, hI⟩ := hbounds
    have hs := represents_getMinMax (hkeyed s mem_cons_self)
    have hstep : Contains key (boundsStats
        (updateStatistics key bounds (getMinMax key (written s)))) (values ++ written s) := by
      refine ⟨_, represents_updateStatistics hrep hs hone.1, fun v hv k hk => ?_⟩
      obtain hold | hnew := mem_append.mp hv
      · exact (hI v hold k hk).trans le_sup_left
      · exact (pure_le_hull hnew hk).trans le_sup_right
    rw [foldl_cons, flatMap_cons, ← append_assoc]
    exact ih (fun s' hs' => hkeyed s' (mem_cons_of_mem s hs')) hstep hone.2

/-- Boolean bounds never move both ways at once. -/
lemma moveOneBound_boolKey (written : S → List Bool) (states : List S) {bounds : Bool × Bool}
    {I : Interval Bool} (hbounds : Represents boolKey (boundsStats bounds) I) :
    moveOneBound boolKey written bounds states = true := by
  induction states generalizing bounds I with
  | nil => rfl
  | cons s states ih =>
    have hone : movesBoth boolKey bounds (getMinMax boolKey (written s)) = false := by
      -- two bounds of booleans never have to move at once
      obtain ⟨min, max⟩ := bounds
      obtain ⟨wmin, wmax⟩ := getMinMax boolKey (written s)
      cases hbounds with
      | @bounds _ _ I hmin hmax =>
      have hle := I.fst_le_snd
      rw [← some.inj hmin, ← some.inj hmax] at hle
      cases min <;> cases max <;> rcases wmin with _ | _ | _ <;> rcases wmax with _ | _ | _ <;>
        first | rfl | exact absurd hle (by decide)
    rw [moveOneBound, and_eq_true, hone]
    exact ⟨rfl, ih (represents_updateStatistics hbounds
      (represents_getMinMax (keyed_boolKey _)) hone)⟩

/-- A row after the writes is an old or a written one. -/
lemma mem_writeStates {rows' : List (Row V)}
    (h : writeStates hasNullData rows states = some rows') {row : Row V} (hrow : row ∈ rows') :
    row ∈ rows ∨ ∃ s ∈ states, row ∈ writtenRows hasNullData s := by
  induction states generalizing rows with
  | nil =>
    obtain rfl := some.inj h
    exact .inl hrow
  | cons s states ih =>
    obtain ⟨m, hm, hrest⟩ := Fold.foldlM_cons_some.mp h
    obtain hmid | ⟨s', hs', hnew⟩ := ih hrest
    · rw [writeValues] at hm
      split at hm
      case isFalse => cases hm
      case isTrue =>
      obtain rfl := some.inj hm
      obtain hold | hnew := mem_overwrite hmid
      · exact .inl hold
      · rw [← map_drop, ← map_take] at hnew
        exact .inr ⟨s, mem_cons_self, hnew⟩
    · exact .inr ⟨s', mem_cons_of_mem s hs', hnew⟩

/-- The values of which a write in place takes the bounds. -/
def writtenValues (policy : Policy V) (hasNullData : Bool) (s : SegmentCheckpointState (Row V)) :
    List V :=
  included (!hasNullData || policy.noNulls s.chunkData) (writtenRows hasNullData s)

/-- A segment whose states, when they are written in place, move one bound at most each. -/
def OnDiskData.allowed (key : V → Option K) (policy : Policy V) (data : OnDiskData V)
    (states : List (SegmentCheckpointState (Row V))) : Bool :=
  !policy.canCheckpointInPlace data states ||
    moveOneBound key (writtenValues policy data.hasNullData) (data.min, data.max) states

/-- The null bounds follow the writes. -/
lemma nullBounds_contain (h : SegmentSound key data)
    (hrows : writeStates data.hasNullData data.rows states = some rows) {inPlace : Bool} :
    let nullMinMax := getMinMax boolKey (rows.map Prod.snd)
    let nullBounds := if inPlace then data.nullBoundsInPlace states
      else (nullMinMax.min.getD false, nullMinMax.max.getD false)
    Contains boolKey ⟨some nullBounds.1, some nullBounds.2⟩ (rows.map Prod.snd) := by
  cases inPlace with
  | false => exact contains_getD rfl (keyed_boolKey _)
  | true =>
    obtain ⟨J, hrep, -⟩ := h.nulls
    have hone : moveOneBound boolKey (fun s => (writtenRows data.hasNullData s).map Prod.snd)
        (data.nullMin, data.nullMax) states = true := moveOneBound_boolKey _ states hrep
    have hnulls := contains_foldl_updateStatistics (fun _ _ => keyed_boolKey _) h.nulls hone
    apply Contains.subset hnulls
    intro bit hbit
    obtain ⟨row, hrow, rfl⟩ := mem_map.mp hbit
    obtain hold | ⟨s, hs, hnew⟩ := mem_writeStates hrows hrow
    · exact mem_append_left _ (mem_map_of_mem hold)
    · exact mem_append_right _ (mem_flatMap_of_mem hs (mem_map_of_mem hnew))

/-- Checkpointing a segment keeps it sound. -/
lemma checkpointSegment_sound (hzero : (key zero).isSome) (h : SegmentSound key data)
    (hkeyed : ∀ s ∈ states, KeyedRows key s.chunkData)
    (hallowed : data.allowed key policy states = true)
    (hstep : data.checkpointSegment key zero policy states = some segments) :
    ∀ segment ∈ segments, SegmentSound key segment := by
  rw [checkpointSegment] at hstep
  split at hstep
  case isTrue =>
    obtain rfl := some.inj hstep
    intro segment hsegment
    rw [mem_singleton.mp hsegment]
    exact h
  case isFalse =>
  obtain ⟨rows, hrows, hstep⟩ := bind_eq_some_iff.mp hstep
  -- what is written in place
  have hwritten : ∀ s ∈ states, KeyedRows key (writtenRows data.hasNullData s) := by
    refine fun s hs => keyedRows_def.mpr (forall_mem_map.mpr fun row hrow => ?_)
    exact keyedRows_def.mp (hkeyed s hs) row (mem_of_mem_drop (mem_of_mem_take hrow))
  have hkeyedRows : KeyedRows key rows := by
    refine keyedRows_def.mpr fun row hrow => ?_
    obtain hold | ⟨s, hs, hnew⟩ := mem_writeStates hrows hrow
    · exact keyedRows_def.mp h.keyed row hold
    · exact keyedRows_def.mp (hwritten s hs) row hnew
  have hno : data.hasNullData = false → ∀ row ∈ rows, row.2 = false := by
    intro hn row hrow
    obtain hold | ⟨s, -, hnew⟩ := mem_writeStates hrows hrow
    · exact h.noNullData hn row hold
    · obtain ⟨row', -, rfl⟩ := mem_map.mp hnew
      rw [hn, Bool.false_and]
  -- out of place the rows are flushed again, in place the bounds are widened
  split at hstep
  case isFalse =>
    obtain rfl := some.inj hstep
    exact flushSegments_sound hzero policy data.kind hkeyedRows hno _
  case isTrue hinPlace =>
    obtain rfl := some.inj hstep
    intro segment hsegment
    rw [mem_singleton.mp hsegment]
    rw [OnDiskData.allowed, hinPlace, Bool.not_true, Bool.false_or] at hallowed
    have hvalues := contains_foldl_updateStatistics
      (fun s hs => (hwritten s hs).included (!data.hasNullData || policy.noNulls s.chunkData))
      h.values hallowed
    refine ⟨hkeyedRows, ?_, ?_, hno⟩
    · apply Contains.subset hvalues
      intro v hv
      obtain ⟨row, hrow, rfl⟩ := mem_map.mp hv
      obtain ⟨hmem, hnull⟩ := mem_filter.mp hrow
      have hnull : row.2 = false := by simpa using hnull
      -- a row that was there, or one written by a state
      obtain hold | ⟨s, hs, hnew⟩ := mem_writeStates hrows hmem
      · exact mem_append_left _ (mem_nonNull hold hnull)
      · exact mem_append_right _ (mem_flatMap_of_mem hs (mem_included hnew hnull _))
    · exact nullBounds_contain h hrows

/-! ### Chunks -/

def ChunkSound (key : V → Option K) (zero : V) : Chunk V → Prop
  | .inMemory data => ∃ I, Tracks key zero data I
  | .onDisk segments => (∀ segment ∈ segments, SegmentSound key segment) ∧
      ∃ kind, ∀ segment ∈ segments, segment.kind = kind

lemma kind_of_mem_flushSegments {noNulls : Bool}
    (h : data ∈ flushSegments key zero policy kind hasNullData rows noNulls) :
    data.kind = kind := by
  rw [flushSegments] at h
  split at h
  · rw [mem_singleton.mp h]
    rfl
  · obtain ⟨segment, -, rfl⟩ := mem_map.mp h
    rfl

lemma kind_of_mem_checkpointSegment
    (h : data.checkpointSegment key zero policy states = some segments) :
    ∀ segment ∈ segments, segment.kind = data.kind := by
  intro segment hsegment
  rw [checkpointSegment] at h
  split at h
  · obtain rfl := some.inj h
    rw [mem_singleton.mp hsegment]
  · obtain ⟨rows, -, h⟩ := bind_eq_some_iff.mp h
    split at h
    · obtain rfl := some.inj h
      rw [mem_singleton.mp hsegment]
    · obtain rfl := some.inj h
      exact kind_of_mem_flushSegments hsegment

/-- The segments of a checkpoint, each with the states that it gets. -/
def checkpointAllowed (key : V → Option K) (policy : Policy V)
    (states : List (ChunkCheckpointState (Row V))) : ℕ → List (OnDiskData V) → Bool
  | _, [] => true
  | segmentStart, segment :: segments =>
    segment.allowed key policy (states.filterMap
      (ColumnChunk.segmentState segmentStart segment.rows.length segments.isEmpty)) &&
    checkpointAllowed key policy states (segmentStart + segment.rows.length) segments

/-- Checkpointing all segments keeps them sound. -/
lemma checkpointLoop_sound (hzero : (key zero).isSome)
    {states : List (ChunkCheckpointState (Row V))}
    (hkeyed : ∀ state ∈ states, KeyedRows key state.chunkData) {segments' : List (OnDiskData V)}
    {segmentStart : ℕ}
    (hsegments : ∀ segment ∈ segments, SegmentSound key segment ∧ segment.kind = kind)
    (hallowed : checkpointAllowed key policy states segmentStart segments = true)
    (hstep : Chunk.checkpointLoop key zero policy states segmentStart segments = some segments') :
    ∀ segment ∈ segments', SegmentSound key segment ∧ segment.kind = kind := by
  induction segments generalizing segmentStart segments' with
  | nil =>
    obtain rfl := some.inj hstep
    exact hsegments
  | cons segment segments ih =>
    rw [Chunk.checkpointLoop] at hstep
    rw [checkpointAllowed, and_eq_true] at hallowed
    obtain ⟨new, hnew, hstep⟩ := bind_eq_some_iff.mp hstep
    obtain ⟨rest, hrest, hstep⟩ := bind_eq_some_iff.mp hstep
    obtain rfl := some.inj hstep
    obtain ⟨hsound, hkind⟩ := hsegments segment mem_cons_self
    -- the states of the segment are a part of all
    have hstates : ∀ s ∈ states.filterMap (ColumnChunk.segmentState segmentStart
        segment.rows.length segments.isEmpty), KeyedRows key s.chunkData := by
      intro s hs
      obtain ⟨state, hstate, hs⟩ := mem_filterMap.mp hs
      rw [ColumnChunk.segmentState] at hs
      split at hs
      · obtain rfl := some.inj hs
        exact hkeyed state hstate
      · cases hs
    intro out hout
    obtain hmem | hmem := mem_append.mp hout
    · exact ⟨checkpointSegment_sound hzero hsound hstates hallowed.1 hnew out hmem,
        (kind_of_mem_checkpointSegment hnew out hmem).trans hkind⟩
    · exact ih (fun s hs => hsegments s (mem_cons_of_mem segment hs)) hallowed.2 hrest out hmem

/-! ### Runs -/

/-- No value is NaN, also under a null bit. -/
def keyedRows (key : V → Option K) (rows : List (Row V)) : Bool :=
  rows.all fun row => (key row.1).isSome

/-- Columns without null data get no nulls. -/
def nullsFit (hasNullData : Bool) (rows : List (Row V)) : Bool :=
  hasNullData || rows.all fun row => !row.2

omit [LinearOrder K] in
lemma keyedRows_iff : keyedRows key rows = true ↔ KeyedRows key rows := by
  rw [keyedRows, all_eq_true, keyedRows_def]

lemma NullsFit.of_nullsFit (h : nullsFit hasNullData rows = true) : NullsFit hasNullData rows := by
  intro hn row hrow
  rw [nullsFit, hn, Bool.false_or, all_eq_true] at h
  simpa using h row hrow

/-- The operations after which the statistics are sound. -/
def Operation.allowed (key : V → Option K) (policy : Policy V) : Chunk V → Operation V → Bool
  | .inMemory data, .appendVector rows behind _ => data.kind != .internalID &&
      keyedRows key (rows ++ behind) && nullsFit data.hasNullData rows
  | .inMemory data, .appendChunk rows _ => keyedRows key rows && nullsFit data.hasNullData rows
  | .inMemory data, .writeVector row _ => data.kind != .internalID &&
      keyedRows key [row] && nullsFit data.hasNullData [row]
  | .inMemory data, .writeChunk rows _ dst =>
    (data.kind != .internalID || decide (dst ≤ data.numValues)) &&
      keyedRows key rows && nullsFit data.hasNullData rows
  | .inMemory data, .writeChunkAt entries _ _ =>
    (data.kind != .internalID || noGaps data.numValues (entries.map Prod.snd)) &&
      keyedRows key (entries.map Prod.fst) && nullsFit data.hasNullData (entries.map Prod.fst)
  | .inMemory data, .setValue value pos =>
    (data.kind != .internalID || decide (pos ≤ data.numValues)) && (key value).isSome
  | .onDisk segments, .checkpoint states =>
    states.all (fun state => keyedRows key state.chunkData) &&
      checkpointAllowed key policy states 0 segments
  | _, _ => true

lemma gap_of_allowed {fits : Bool}
    (h : (kind != .internalID || fits) = true) : kind = .internalID → fits = true := by
  rintro rfl
  exact h

/-- **Each operation** keeps the chunk sound. -/
lemma step_sound (hzero : (key zero).isSome)
    (chunk : Chunk V) (op : Operation V) (chunk' : Chunk V) (h : ChunkSound key zero chunk)
    (hallowed : op.allowed key policy chunk = true)
    (hstep : chunk.step key zero policy op = some chunk') : ChunkSound key zero chunk' := by
  cases chunk with
  | inMemory data =>
    obtain ⟨I, hI⟩ := h
    cases op with
    | appendVector rows behind filtered =>
      obtain ⟨data', hdata, rfl⟩ := map_eq_some_iff.mp hstep
      simp only [Operation.allowed, and_eq_true, bne_iff_ne] at hallowed
      obtain ⟨⟨hkind, hkeyed⟩, hfit⟩ := hallowed
      exact hI.appendVector hdata (keyedRows_iff.mp hkeyed) (.of_nullsFit hfit) hkind
    | appendChunk rows noNulls =>
      obtain ⟨data', hdata, rfl⟩ := map_eq_some_iff.mp hstep
      simp only [Operation.allowed, and_eq_true] at hallowed
      obtain ⟨hkeyed, hfit⟩ := hallowed
      exact hI.writeChunk hdata (keyedRows_iff.mp hkeyed) (.of_nullsFit hfit) fun _ => le_rfl
    | writeVector row offset =>
      obtain ⟨data', hdata, rfl⟩ := map_eq_some_iff.mp hstep
      simp only [Operation.allowed, and_eq_true, bne_iff_ne] at hallowed
      obtain ⟨⟨hkind, hkeyed⟩, hfit⟩ := hallowed
      exact hI.writeVector hdata (keyedRows_iff.mp hkeyed) (.of_nullsFit hfit) hkind
    | writeChunk rows noNulls dst =>
      obtain ⟨data', hdata, rfl⟩ := map_eq_some_iff.mp hstep
      rw [Operation.allowed, and_eq_true, and_eq_true] at hallowed
      obtain ⟨⟨hgap, hkeyed⟩, hfit⟩ := hallowed
      exact hI.writeChunk hdata (keyedRows_iff.mp hkeyed) (.of_nullsFit hfit)
        fun hid => of_decide_eq_true (gap_of_allowed hgap hid)
    | writeChunkAt entries noNulls multiplicityOne =>
      obtain ⟨data', hdata, rfl⟩ := map_eq_some_iff.mp hstep
      rw [Operation.allowed, and_eq_true, and_eq_true] at hallowed
      obtain ⟨⟨hgap, hkeyed⟩, hfit⟩ := hallowed
      exact hI.writeChunkAt hdata (keyedRows_iff.mp hkeyed) (.of_nullsFit hfit)
        (gap_of_allowed hgap)
    | setValue value pos =>
      obtain ⟨data', hdata, rfl⟩ := map_eq_some_iff.mp hstep
      rw [Operation.allowed, and_eq_true] at hallowed
      obtain ⟨hgap, hkeyed⟩ := hallowed
      exact hI.setValue hdata hkeyed fun hid => of_decide_eq_true (gap_of_allowed hgap hid)
    | resize newCapacity =>
      obtain rfl := some.inj hstep
      exact ⟨I, hI.resize hzero newCapacity⟩
    | flush =>
      obtain rfl := some.inj hstep
      -- the rows flushed are a part of the cells
      have hmem : ∀ row ∈ data.rows, row ∈ data.cells := fun _ hrow => mem_of_mem_take hrow
      exact ⟨flushSegments_sound hzero policy data.kind (hI.keyed.subset hmem) (fun hn row hrow =>
        hI.noNullData hn row (hmem row hrow)) _, data.kind, fun _ => kind_of_mem_flushSegments⟩
    | checkpoint states => cases hstep
  | onDisk segments =>
    cases op with
    | checkpoint states =>
      obtain ⟨segments', hsegments, rfl⟩ := map_eq_some_iff.mp hstep
      rw [Operation.allowed, and_eq_true, all_eq_true] at hallowed
      obtain ⟨hsound, kind, hkind⟩ := h
      have hall := checkpointLoop_sound hzero
        (fun state hstate => keyedRows_iff.mp (hallowed.1 state hstate))
        (fun segment hsegment => ⟨hsound segment hsegment, hkind segment hsegment⟩)
        hallowed.2 hsegments
      exact ⟨fun segment hsegment => (hall segment hsegment).1, kind,
        fun segment hsegment => (hall segment hsegment).2⟩
    | _ => cases hstep

/-! ### The merged statistics -/

/-- What the merged statistics are for: their minimum and their maximum bound the values that are
not null, and what they guarantee about nulls holds. -/
structure StatsSound (key : V → Option K) (rows : List (Row V))
    (merged : MergedColumnChunkStats V) : Prop where
  min_le : ∀ row ∈ rows, row.2 = false → ∀ min, merged.stats.min = some min →
    ∃ a b, key min = some a ∧ key row.1 = some b ∧ a ≤ b
  le_max : ∀ row ∈ rows, row.2 = false → ∀ max, merged.stats.max = some max →
    ∃ a b, key row.1 = some a ∧ key max = some b ∧ a ≤ b
  noNulls : merged.guaranteedNoNulls = true → ∀ row ∈ rows, row.2 = false
  allNulls : merged.guaranteedAllNulls = true → ∀ row ∈ rows, row.2 = true

/-- A value is between the bounds of statistics. -/
def Between (key : V → Option K) (stats : ColumnChunkStats V) (v : V) : Prop :=
  (∀ min, stats.min = some min → ∃ a b, key min = some a ∧ key v = some b ∧ a ≤ b) ∧
    ∀ max, stats.max = some max → ∃ a b, key v = some a ∧ key max = some b ∧ a ≤ b

/-- Soundness from the bounds and the two null flags. -/
lemma StatsSound.of_between {merged : MergedColumnChunkStats V}
    (hbounds : ∀ row ∈ rows, row.2 = false → Between key merged.stats row.1)
    (hno : merged.guaranteedNoNulls = true → ∀ row ∈ rows, row.2 = false)
    (hall : merged.guaranteedAllNulls = true → ∀ row ∈ rows, row.2 = true) :
    StatsSound key rows merged :=
  ⟨fun row hrow hnull => (hbounds row hrow hnull).1,
    fun row hrow hnull => (hbounds row hrow hnull).2, hno, hall⟩

/-- A value in the interval of statistics is between their bounds. -/
lemma bounds_of_represents (h : Represents key stats I) {v : V} {k : K} (hv : key v = some k)
    (hle : Interval.pure k ≤ I) : Between key stats v := by
  cases h with
  | empty => exact ⟨nofun, nofun⟩
  | @bounds m M I hm hM =>
    have hle : NonemptyInterval.pure k ≤ I := WithBot.coe_le_coe.mp hle
    refine ⟨fun min hmin => ?_, fun max hmax => ?_⟩
    · obtain rfl := some.inj hmin
      exact ⟨_, k, hm, hv, hle.1⟩
    · obtain rfl := some.inj hmax
      exact ⟨k, _, hv, hM, hle.2⟩

lemma eq_false_of_pure_le {nullStats : ColumnChunkStats Bool} {J : Interval Bool}
    (h : Represents boolKey nullStats J) (hmax : nullStats.max = some false) {bit : Bool}
    (hle : Interval.pure bit ≤ J) : bit = false := by
  obtain ⟨a, b, ha, hb, hab⟩ := (bounds_of_represents h rfl hle).2 false hmax
  rw [← some.inj ha, ← some.inj hb] at hab
  exact le_bot_iff.mp hab

lemma eq_empty_of_represents_bot (h : Represents key stats ⊥) : stats = .empty := by
  generalize hI : (⊥ : Interval K) = I at h
  cases h with
  | empty => rfl
  | bounds => exact absurd hI WithBot.bot_ne_coe

/-- In-memory statistics are sound. -/
lemma Tracks.statsSound (hzero : (key zero).isSome) {data : InMemoryData V}
    (h : Tracks key zero data I) :
    StatsSound key data.rows (data.getMergedColumnChunkStats key zero) := by
  obtain ⟨z, hz⟩ := Option.isSome_iff_exists.mp hzero
  refine .of_between (fun row hrow hnull => ?_) ?_ nofun
  · obtain ⟨i, hi⟩ := getElem?_of_mem hrow
    have hlt : i < data.numValues := by
      have hlen := (List.getElem?_eq_some_iff.mp hi).1
      rw [InMemoryData.rows, List.length_take] at hlen
      omega
    rw [InMemoryData.rows, getElem?_take_of_lt hlt] at hi
    obtain ⟨k, hk⟩ := h.keyed.key_eq_some (mem_of_getElem? hi)
    have hcovered := fun hreported => h.covered i row hi hnull hreported k hk
    have hstats : (data.getMergedColumnChunkStats key zero).stats =
        if data.kind.isStorageValueType then
          data.inMemoryStats.update key (some zero) (some zero)
        else data.inMemoryStats := rfl
    rw [hstats]
    cases hkind : data.kind with
    | other =>
      -- nothing is reported
      have hrep := h.represents
      rw [h.unreported hkind] at hrep
      rw [eq_empty_of_represents_bot hrep]
      exact ⟨nofun, nofun⟩
    | internalID =>
      have hle := hcovered (.inr ⟨hkind, hlt⟩)
      rw [metadataHull, hkind] at hle
      have hle : Interval.pure k ≤ I ⊔ ⊥ := hle
      rw [sup_bot_eq] at hle
      exact bounds_of_represents h.represents hk hle
    | storageValue | bool =>
      have hs : data.kind.isStorageValueType = true := by rw [hkind]; rfl
      have hle := hcovered (.inl hs)
      rw [metadataHull, if_pos hs] at hle
      refine bounds_of_represents (represents_updateBy h.represents (represents_value hz)) hk ?_
      rwa [hull_cons hz, hull_nil, sup_bot_eq] at hle
  intro hno row hrow
  have hmem : row ∈ data.cells := mem_of_mem_take hrow
  have hno : (!data.hasNullData || data.noNullsGuaranteedInMem) = true := hno
  rw [Bool.or_eq_true, not_eq_true'] at hno
  obtain hn | hstats := hno
  · exact h.noNullData hn row hmem
  · obtain ⟨J, hrep, hJ⟩ := h.nulls
    have hle := hJ row hmem
    have hmax : data.nullStats.max.all (!·) = true := hstats
    have hdefault : Represents boolKey ⟨some false, some false⟩ (Interval.pure false) :=
      represents_value rfl
    generalize data.nullStats = nullStats at hrep hmax
    cases hrep with
    | empty =>
      rw [bot_sup_eq] at hle
      exact eq_false_of_pure_le hdefault rfl hle
    | @bounds nullMin nullMax J hmin hmaxKey =>
      -- the default null bit is below a maximum that is false
      obtain rfl : nullMax = false := by simpa using hmax
      exact eq_false_of_pure_le (represents_updateBy (.bounds hmin hmaxKey) hdefault) rfl hle

/-- On-disk statistics are sound. -/
lemma SegmentSound.statsSound (h : SegmentSound key data) :
    StatsSound key data.rows data.getMergedColumnChunkStats := by
  obtain ⟨I, hrep, hI⟩ := h.values
  obtain ⟨J, hnulls, hJ⟩ := h.nulls
  refine .of_between (fun row hrow hnull => ?_) ?_ ?_
  · obtain ⟨k, hk⟩ := h.keyed.key_eq_some hrow
    rw [getMergedColumnChunkStats]
    split
    · exact bounds_of_represents hrep hk (hI row.1 (mem_nonNull hrow hnull) k hk)
    · exact ⟨nofun, nofun⟩
  · intro hno row hrow
    have hno : (!data.hasNullData || !data.nullMax) = true := hno
    rw [Bool.or_eq_true, not_eq_true', not_eq_true'] at hno
    obtain hn | hmax := hno
    · exact h.noNullData hn row hrow
    · exact eq_false_of_pure_le hnulls (congrArg some hmax)
        (hJ row.2 (mem_map_of_mem hrow) row.2 rfl)
  · intro hall row hrow
    have hall : (data.hasNullData && data.nullMin) = true := hall
    rw [and_eq_true] at hall
    obtain ⟨a, b, ha, hb, hab⟩ := (bounds_of_represents hnulls rfl
      (hJ row.2 (mem_map_of_mem hrow) row.2 rfl)).1 true (congrArg some hall.2)
    rw [← some.inj ha, ← some.inj hb] at hab
    exact top_le_iff.mp hab

/-! ### Merging the statistics of segments -/

section Merge

variable (base : MergedColumnChunkStats V)

/-- Merged bounds contain all segments. -/
lemma merge_contains (hsegments : ∀ segment ∈ segments, SegmentSound key segment ∧
      segment.kind.isStorageValueType = true) (hbase : Contains key base.stats values) :
    Contains key ((segments.map getMergedColumnChunkStats).foldl (Chunk.mergeStats key) base).stats
      (values ++ segments.flatMap fun segment => nonNull segment.rows) := by
  induction segments generalizing base values with
  | nil => simpa using hbase
  | cons segment segments ih =>
    obtain ⟨hsound, hkind⟩ := hsegments segment mem_cons_self
    obtain ⟨I, hI, hbase⟩ := hbase
    obtain ⟨J, hJ, hvalues⟩ := hsound.values
    rw [map_cons, foldl_cons, flatMap_cons, ← append_assoc]
    apply ih _ fun s hs => hsegments s (mem_cons_of_mem segment hs)
    have hstats : segment.getMergedColumnChunkStats.stats =
        ⟨some segment.min, some segment.max⟩ := by
      rw [getMergedColumnChunkStats, if_pos hkind]
    refine ⟨I ⊔ J, ?_, fun v hv k hk => ?_⟩
    · show Represents key (base.stats.updateBy key segment.getMergedColumnChunkStats.stats) _
      rw [hstats]
      exact represents_updateBy hI hJ
    · obtain hold | hnew := mem_append.mp hv
      · exact (hbase v hold k hk).trans le_sup_left
      · exact (hvalues v hnew k hk).trans le_sup_right

lemma merge_empty (hsegments : ∀ segment ∈ segments, segment.kind.isStorageValueType = false)
    (hbase : base.stats = .empty) :
    ((segments.map getMergedColumnChunkStats).foldl
      (Chunk.mergeStats key) base).stats = .empty := by
  induction segments generalizing base with
  | nil => exact hbase
  | cons segment segments ih =>
    rw [map_cons, foldl_cons]
    apply ih _ fun s hs => hsegments s (mem_cons_of_mem segment hs)
    show base.stats.updateBy key segment.getMergedColumnChunkStats.stats = .empty
    rw [getMergedColumnChunkStats, hsegments segment mem_cons_self, hbase]
    rfl

/-- A merged guarantee is one of each segment. -/
lemma merge_guaranteed {segment : OnDiskData V} (hsegment : segment ∈ segments) :
    let merged := (segments.map getMergedColumnChunkStats).foldl (Chunk.mergeStats key) base
    (merged.guaranteedNoNulls = true → segment.getMergedColumnChunkStats.guaranteedNoNulls = true) ∧
    (merged.guaranteedAllNulls = true →
      segment.getMergedColumnChunkStats.guaranteedAllNulls = true) := by
  have hfold : ∀ (stats : List (MergedColumnChunkStats V)) (base : MergedColumnChunkStats V),
      (stats.foldl (Chunk.mergeStats key) base).guaranteedNoNulls =
        (base.guaranteedNoNulls && stats.all (·.guaranteedNoNulls)) ∧
      (stats.foldl (Chunk.mergeStats key) base).guaranteedAllNulls =
        (base.guaranteedAllNulls && stats.all (·.guaranteedAllNulls)) := by
    intro stats
    induction stats with
    | nil => intro base; simp
    | cons m stats ih =>
      intro base
      rw [foldl_cons, (ih _).1, (ih _).2, all_cons, all_cons, ← Bool.and_assoc, ← Bool.and_assoc]
      exact ⟨rfl, rfl⟩
  have hmem : segment.getMergedColumnChunkStats ∈
      segments.map getMergedColumnChunkStats := mem_map_of_mem hsegment
  intro merged
  constructor
  · intro h
    rw [(hfold _ base).1, and_eq_true, all_eq_true] at h
    exact h.2 _ hmem
  · intro h
    rw [(hfold _ base).2, and_eq_true, all_eq_true] at h
    exact h.2 _ hmem

end Merge

/-- The statistics a scan sees are sound. -/
lemma ChunkSound.statsSound (hzero : (key zero).isSome) {chunk : Chunk V}
    (h : ChunkSound key zero chunk) :
    StatsSound key chunk.rows (chunk.getMergedColumnChunkStats key zero) := by
  cases chunk with
  | inMemory data =>
    obtain ⟨I, hI⟩ := h
    exact hI.statsSound hzero
  | onDisk segments =>
    obtain ⟨hsound, kind, hkind⟩ := h
    refine .of_between (fun row hrow hnull => ?_) ?_ ?_
    · obtain ⟨segment, hsegment, hrow⟩ := mem_flatMap.mp hrow
      obtain ⟨k, hk⟩ := (hsound segment hsegment).keyed.key_eq_some hrow
      have hbase : Contains key (ColumnChunkStats.empty (V := V)) [] := ⟨⊥, .empty, nofun⟩
      cases hs : kind.isStorageValueType with
      | true =>
        -- the merged bounds cover all segments
        have hmerge := merge_contains ⟨.empty, true, true⟩
          (fun s hs' => ⟨hsound s hs', by rw [hkind s hs', hs]⟩) hbase
        obtain ⟨I, hI, hvalues⟩ := hmerge
        refine bounds_of_represents hI hk (hvalues row.1 ?_ k hk)
        exact mem_flatMap_of_mem hsegment (mem_nonNull hrow hnull)
      | false =>
        -- other types have no bounds
        have hempty : (Chunk.getMergedColumnChunkStats key zero (.onDisk segments)).stats =
            .empty := merge_empty ⟨.empty, true, true⟩ (fun s hs' => by rw [hkind s hs', hs]) rfl
        rw [hempty]
        exact ⟨nofun, nofun⟩
    · intro hno row hrow
      obtain ⟨segment, hsegment, hrow⟩ := mem_flatMap.mp hrow
      exact (hsound segment hsegment).statsSound.noNulls ((merge_guaranteed _ hsegment).1 hno) row
        hrow
    · intro hall row hrow
      obtain ⟨segment, hsegment, hrow⟩ := mem_flatMap.mp hrow
      exact (hsound segment hsegment).statsSound.allNulls ((merge_guaranteed _ hsegment).2 hall) row
        hrow

/-- **Zone maps.** After every run of allowed operations on a new chunk, the merged statistics are
sound. -/
theorem getMergedColumnChunkStats_sound (key : V → Option K) {zero : V}
    (hzero : (key zero).isSome) (policy : Policy V) (kind : ColumnKind) (capacity : ℕ)
    (hasNullData : Bool) {ops : List (Operation V)} {chunk : Chunk V}
    (hallowed : Fold.Guarded (Chunk.step key zero policy)
      (fun chunk op => op.allowed key policy chunk = true)
      (.inMemory (.create kind zero capacity hasNullData)) ops)
    (hrun : ops.foldlM (Chunk.step key zero policy)
      (.inMemory (.create kind zero capacity hasNullData)) = some chunk) :
    StatsSound key chunk.rows (chunk.getMergedColumnChunkStats key zero) := by
  have hcreate : ChunkSound key zero (.inMemory (.create kind zero capacity hasNullData)) :=
    ⟨⊥, tracks_create hzero kind capacity hasNullData⟩
  exact (Fold.foldlM_guarded_invariant (step_sound hzero) hcreate hallowed hrun).statsSound hzero

/-! ### A column of `int8_t` -/

/-- How values of `int8_t` are compared. -/
def int8Key (value : BitVec 8) : Option ℤ := some value.toInt

/-- A state of a column of `int8_t`. -/
def int8State (s : SegmentCheckpointState (Row (BitVec 8))) :
    Option (IntegerColumn.SegmentCheckpointState .int8) :=
  if h : 0 < s.numRows ∧ s.startRowInData + s.numRows ≤ (s.chunkData.map Prod.fst).length then
    some ⟨s.chunkData.map Prod.fst, none, s.startRowInData, s.offsetInSegment, s.numRows, h.1, h.2⟩
  else none

/-- The decision of a column of `int8_t` about a segment without nulls that has been flushed. -/
def int8Policy : Policy (BitVec 8) where
  canCheckpointInPlace data states :=
    decide ((do
      let segment ← flush .int8 (data.rows.map Prod.fst) none
      IntegerColumn.canCheckpointInPlace segment (states.filterMap int8State)) = .ok true)
  canCheckpointNullsInPlace _ _ := true
  noNulls rows := rows.all fun row => !row.2
  split _ := []
  split_flatten _ h := absurd rfl h

/-- The values 1 and 10 are flushed, and a range is written over them. -/
def overwrite (v w : BitVec 8) : List (Operation (BitVec 8)) :=
  [.appendChunk [(1#8, false), (10#8, false)] true, .flush,
    .checkpoint [⟨[(v, false), (w, false)], 0, 2⟩]]

/-- The values 0 and 12 are written in place over 1 and 10: the minimum that is reported is 1. -/
theorem zoneMap_misses_zero :
    ∃ chunk, (overwrite 0#8 12#8).foldlM (Chunk.step int8Key 0#8 int8Policy)
      (.inMemory (.create .storageValue 0#8 8 true)) = some chunk ∧
    ¬ StatsSound int8Key chunk.rows (chunk.getMergedColumnChunkStats int8Key 0#8) := by
  refine ⟨.onDisk [⟨.storageValue, [(0#8, false), (12#8, false)], true, 1#8, 12#8, false, false⟩],
    by decide +kernel, fun h => ?_⟩
  obtain ⟨a, b, ha, hb, hle⟩ := h.min_le (0#8, false) mem_cons_self rfl 1#8 rfl
  cases ha
  cases hb
  revert hle
  decide

/-- The values 0 and 9 only lower the minimum. -/
theorem zoneMap_zero_nine :
    ∃ chunk, (overwrite 0#8 9#8).foldlM (Chunk.step int8Key 0#8 int8Policy)
      (.inMemory (.create .storageValue 0#8 8 true)) = some chunk ∧
    StatsSound int8Key chunk.rows (chunk.getMergedColumnChunkStats int8Key 0#8) := by
  have hrun : (overwrite 0#8 9#8).foldlM (Chunk.step int8Key 0#8 int8Policy)
      (.inMemory (.create .storageValue 0#8 8 true)) =
        some (.onDisk [⟨.storageValue, [(0#8, false), (9#8, false)], true, 0#8, 10#8, false,
          false⟩]) := by decide +kernel
  exact ⟨_, hrun, getMergedColumnChunkStats_sound int8Key rfl int8Policy .storageValue 8 true
    (by decide +kernel) hrun⟩

end Ladybug.ZoneMap
