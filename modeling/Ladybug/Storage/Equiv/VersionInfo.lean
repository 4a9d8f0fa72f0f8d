import Ladybug.Lib.Paging
import Ladybug.Storage.Equiv.VectorVersionInfo

/-!
# Correctness of `VersionInfo`

`Rep` lifts the representation of one vector to the list of vectors: row `v * cap + i` of the
group is row `i` of vector `v`. The operations on a range of rows are one loop over the vectors
that the range meets (`applyToVectors_spec`), so each of them follows from its vector version.
-/

namespace Ladybug

open Mvcc List Function VectorVersionInfo
open Nat (div_add_mod mod_lt mul_comm succ_mul)

variable {cap : ℕ}

/-! ### The loop over the vectors -/

/-- Row `i` of vector `v` is one of the `numRows` rows from `startRow` on. -/
def InRange (cap startRow numRows v i : ℕ) : Prop :=
  startRow ≤ v * cap + i ∧ v * cap + i < startRow + numRows

/-- The segment `s, …, s + m - 1` of vector `v` is its part of the range. -/
structure IsSegment (cap startRow numRows v s m : ℕ) : Prop where
  pos : 0 < m
  le : s + m ≤ cap
  iff : ∀ i < cap, s ≤ i ∧ i < s + m ↔ InRange cap startRow numRows v i

variable {i id m n numRows s startRow ts v numRows' : ℕ} {lag : Lag} {ck : Bool}
  {own : Stamp → Prop} {vi : VersionInfo cap} {del ins ins' del' : ℕ → Option Stamp}
  {f : VectorVersionInfo cap → ℕ → ℕ → Option (VectorVersionInfo cap)}
  {o : Option (VectorVersionInfo cap)}

lemma IsSegment.rows (hseg : IsSegment cap startRow n v s m) {P : ℕ → Prop}
    (hP : ∀ row, startRow ≤ row → row < startRow + n → P row) (i : ℕ) (hsi : s ≤ i)
    (him : i < s + m) : P (v * cap + i) := by
  have hr := (hseg.iff i (him.trans_le hseg.le)).mp ⟨hsi, him⟩
  exact hP _ hr.1 hr.2

/-- A segment covers its part of the range. -/
lemma mem_vectorSegments (hcap : 0 < cap) (hn : 0 < numRows)
    (h : (v, s, m) ∈ vectorSegments cap startRow numRows) :
    IsSegment cap startRow numRows v s m := by
  simp only [vectorSegments, mem_map, mem_range'_1, Prod.mk.injEq] at h
  obtain ⟨w, ⟨hlo, hhi⟩, rfl, rfl, rfl⟩ := h
  have hstart := div_add_mod startRow cap
  have hend := div_add_mod (startRow + numRows - 1) cap
  have hstartlt := mod_lt startRow hcap
  have hendlt := mod_lt (startRow + numRows - 1) hcap
  set a := startRow / cap
  set b := (startRow + numRows - 1) / cap
  rw [mul_comm] at hstart hend
  have hlt : ∀ {u v}, u < v → u * cap + cap ≤ v * cap := fun h => by
    rw [← succ_mul]
    exact Nat.mul_le_mul_right _ h
  -- the first vector, the last one, both or neither
  by_cases ha : w = a <;> by_cases hb : w = b
  · rw [if_pos ha, if_pos hb]
    rw [← ha] at hstart
    rw [← hb] at hend
    exact ⟨by omega, by omega, fun i hi => by rw [InRange]; omega⟩
  · have := hlt (by omega : w < b)
    rw [if_pos ha, if_neg hb]
    rw [← ha] at hstart
    exact ⟨by omega, by omega, fun i hi => by rw [InRange]; omega⟩
  · have := hlt (by omega : a < w)
    rw [if_neg ha, if_pos hb]
    rw [← hb] at hend
    exact ⟨by omega, by omega, fun i hi => by rw [InRange]; omega⟩
  · have := hlt (by omega : a < w)
    have := hlt (by omega : w < b)
    rw [if_neg ha, if_neg hb]
    exact ⟨by omega, by omega, fun i hi => by rw [InRange]; omega⟩

/-- The segments cover the range. -/
lemma vectorSegments_of_inRange (hi : i < cap) (h : InRange cap startRow numRows v i) :
    ∃ s m, (v, s, m) ∈ vectorSegments cap startRow numRows := by
  obtain ⟨hlo, hhi⟩ := h
  have hv := Paging.mul_add_div_of_lt hi v
  have h1 : startRow / cap ≤ v := hv ▸ Nat.div_le_div_right hlo
  have h2 : v ≤ (startRow + numRows - 1) / cap := by
    conv_lhs => rw [← hv]
    exact Nat.div_le_div_right (by omega)
  refine ⟨_, _, mem_map.mpr ⟨v, mem_range'_1.mpr ⟨h1, by omega⟩, rfl⟩⟩

/-- Each vector has one segment. -/
lemma vectorSegments_nodup (cap startRow numRows : ℕ) :
    ((vectorSegments cap startRow numRows).map Prod.fst).Nodup := by
  rw [vectorSegments, map_map]
  exact (map_id _).symm ▸ nodup_range'

namespace VersionInfo

lemma getVectorVersionInfo_setVectorVersionInfo (vi : VersionInfo cap) (idx v : ℕ)
    (vv : VectorVersionInfo cap) :
    (vi.setVectorVersionInfo idx vv).getVectorVersionInfo v
      = if v = idx then some vv else vi.getVectorVersionInfo v := by
  unfold getVectorVersionInfo setVectorVersionInfo
  simp only
  rw [getElem?_set]
  by_cases h : idx = v
  · subst h
    have hlen : idx < (vi.vectorsInfo ++
        List.replicate (idx + 1 - vi.vectorsInfo.length) none).length := by
      rw [length_append, length_replicate]
      omega
    rw [if_pos rfl, if_pos hlen, if_pos rfl, Option.join_some]
  · rw [if_neg h, if_neg (Ne.symm h)]
    by_cases hlt : v < vi.vectorsInfo.length
    · rw [getElem?_append_left hlt]
    · rw [getElem?_append_right (by omega), getElem?_eq_none (by omega : _ ≤ v), getElem?_replicate]
      split_ifs <;> rfl

/-- **The loop over the vectors.** Every vector that the range meets goes through `f` once, with
its own segment of the range; every other vector stays as it is. -/
theorem applyToVectors_spec (hcap : 0 < cap)
    {Q : ℕ → VectorVersionInfo cap → Prop} (hf : ∀ v s m, IsSegment cap startRow numRows v s m →
      ∃ w, f (vi.getOrCreateVersionInfo v) s m = some w ∧ Q v w) :
    ∃ vi', vi.applyToVectors f startRow numRows = some vi' ∧
      ∀ v, ((∃ i < cap, InRange cap startRow numRows v i) →
          ∃ w, vi'.getVectorVersionInfo v = some w ∧ Q v w) ∧
        ((∀ i < cap, ¬InRange cap startRow numRows v i) →
          vi'.getVectorVersionInfo v = vi.getVectorVersionInfo v) := by
  unfold applyToVectors
  split_ifs with hn
  · refine ⟨vi, rfl, fun v => ⟨?_, fun _ => rfl⟩⟩
    rintro ⟨i, -, h⟩
    unfold InRange at h
    omega
  have hseg : ∀ v s m, (v, s, m) ∈ vectorSegments cap startRow numRows →
      IsSegment cap startRow numRows v s m :=
    fun v s m h => mem_vectorSegments hcap (by omega) h
  -- the vectors of the segments that are done have been rewritten, the others not
  obtain ⟨vi', hrun, hdone, hrest⟩ := Fold.foldlM_progress (applyToVector f)
    (fun done (vi' : VersionInfo cap) =>
      (∀ v ∈ done.map Prod.fst, ∃ w, vi'.getVectorVersionInfo v = some w ∧ Q v w) ∧
      ∀ v, v ∉ done.map Prod.fst → vi'.getVectorVersionInfo v = vi.getVectorVersionInfo v)
    (by
      rintro done ⟨v, s, m⟩ rest vi' (hsplit : _ = vectorSegments cap startRow numRows)
        ⟨hdone, hrest⟩
      have hmem : (v, s, m) ∈ vectorSegments cap startRow numRows := by
        rw [← hsplit]; simp
      have hnew : v ∉ done.map Prod.fst := by
        have hnodup := vectorSegments_nodup cap startRow numRows
        rw [← hsplit, map_append, map_cons] at hnodup
        intro hv
        exact (nodup_append.mp hnodup).2.2 v hv v (by simp) rfl
      obtain ⟨w, hw, hQ⟩ := hf v s m (hseg v s m hmem)
      have hget : vi'.getOrCreateVersionInfo v = vi.getOrCreateVersionInfo v := by
        rw [getOrCreateVersionInfo, hrest v hnew, getOrCreateVersionInfo]
      refine ⟨vi'.setVectorVersionInfo v w, by rw [applyToVector, hget, hw]; rfl, ?_, ?_⟩
      · intro u hu
        rw [getVectorVersionInfo_setVectorVersionInfo]
        by_cases huv : u = v
        · exact ⟨w, if_pos huv, huv ▸ hQ⟩
        · rw [if_neg huv]
          exact hdone u (by simpa [huv] using hu)
      · intro u hu
        have huv : u ≠ v ∧ u ∉ done.map Prod.fst := by
          rw [map_append, mem_append, not_or] at hu
          exact ⟨by simpa using hu.2, hu.1⟩
        rw [getVectorVersionInfo_setVectorVersionInfo, if_neg huv.1]
        exact hrest u huv.2)
    (⟨by simp, by simp⟩ : _ ∧ ∀ v, _ → vi.getVectorVersionInfo v = _)
  refine ⟨vi', hrun, fun v => ⟨?_, fun hno => ?_⟩⟩
  · rintro ⟨i, hi, h⟩
    obtain ⟨s, m, hmem⟩ := vectorSegments_of_inRange hi h
    exact hdone v (mem_map.mpr ⟨_, hmem, rfl⟩)
  · refine hrest v fun hv => ?_
    obtain ⟨⟨v', s, m⟩, hmem, rfl⟩ := mem_map.mp hv
    have hs := hseg v' s m hmem
    have := hs.pos
    have := hs.le
    exact hno s (by omega) ((hs.iff s (by omega)).mp ⟨le_rfl, by omega⟩)

end VersionInfo

/-! ### The representation of a group -/

/-- The representation of one vector, which may be absent: it then has no deletion, and the rows
in use, if any, are checkpointed ones. -/
def VectorRep (lag : Lag) (ck : Bool) (n : ℕ) (ins del : ℕ → Option Stamp) :
    Option (VectorVersionInfo cap) → Prop
  | none => (∀ i < cap, del i = none) ∧ ∀ i < cap, i < n → ck = true ∧ ins i = some (.committed 0)
  | some vv => InsRep lag ck n ins vv ∧ DelRep lag del vv

/-- `vi` represents the insertions and deletions of the first `numRows` rows of a group. -/
def Rep (lag : Lag) (ck : Bool) (numRows : ℕ) (ins del : ℕ → Option Stamp)
    (vi : VersionInfo cap) : Prop :=
  ∀ v, VectorRep lag ck (numRows - v * cap) (fun i => ins (v * cap + i))
    (fun i => del (v * cap + i)) (vi.getVectorVersionInfo v)

lemma VectorRep.congr {n' : ℕ} (h : VectorRep lag ck n ins del o)
    (hins : ∀ i < cap, ins' i = ins i) (hdel : ∀ i < cap, del' i = del i)
    (hn : ∀ i < cap, i < n' → i < n) : VectorRep lag ck n' ins' del' o := by
  cases o with
  | none =>
    refine ⟨fun i hi => (hdel i hi).trans (h.1 i hi), fun i hi hlt => ?_⟩
    rw [hins i hi]
    exact h.2 i hi (hn i hi hlt)
  | some vv => exact ⟨h.1.congr hins hn (.refl vv), h.2.congr hdel (.refl vv)⟩

/-- The lag may change where the stamps agree. -/
lemma VectorRep.changeLag {lag' : Lag} (h : VectorRep lag ck n ins del o)
    (hsame : ∀ i < cap, ∀ v, lag.same v (ins i) → lag'.same v (ins i))
    (hins : ∀ i < cap, lag.empty (ins i) → lag'.empty (ins i))
    (hdel : ∀ i < cap, lag.empty (del i) → del i = none ∨ lag'.empty (del i)) :
    VectorRep lag' ck n ins del o := by
  cases o with
  | none => exact h
  | some vv =>
    obtain ⟨hi, hd⟩ := h
    refine ⟨?_, hd.same, hd.entries, hd.alloc, fun hs i hlt => ?_⟩
    · cases hi with
      | empty hck h1 h2 h3 hrows =>
        exact .empty hck h1 h2 h3 fun i hlt => (hrows i hlt).imp id (hins i hlt)
      | always hck h1 h2 h3 hrows => exact .always hck h1 h2 h3 hrows
      | same hck h1 h2 h3 hrows =>
        exact .same hck h1 h2 h3 fun i hlt hn => (hrows i hlt hn).imp id (hsame i hlt _)
      | array a hck h1 h2 h3 hrows => exact .array a hck h1 h2 h3 hrows
    · exact (hd.noDeleted hs i hlt).elim .inl (hdel i hlt)

/-- Without lag, any lag is allowed. -/
lemma Rep.startLag
    (h : Rep Lag.none ck numRows ins del vi) (lag : Lag) : Rep lag ck numRows ins del vi :=
  fun v => (h v).changeLag (fun _ _ _ hf => hf.elim) (fun _ _ hf => hf.elim) (fun _ _ hf => hf.elim)

/-- Once a transaction has no stamp left, its commit is complete. -/
lemma Rep.endCommit (h : Rep (Lag.committing id ts) ck numRows ins del vi)
    (hins : ∀ row, ins row ≠ some (.active id)) : Rep Lag.none ck numRows ins del vi :=
  fun v => (h v).changeLag (fun _ _ _ hf => (hins _ hf.2).elim) (fun _ _ hf => hf.elim)
    (fun _ _ hf => hf.elim)

/-- Once a transaction has no stamp left, its rollback is complete. -/
lemma Rep.endRollback (h : Rep (Lag.rollingBack own) ck numRows ins del vi)
    (hins : ∀ row, ¬OwnStamp own (ins row)) (hdel : ∀ row, ¬OwnStamp own (del row)) :
    Rep Lag.none ck numRows ins del vi :=
  fun v => (h v).changeLag (fun _ _ _ hf => (hins _ hf.2).elim) (fun _ _ hf => (hins _ hf).elim)
    (fun _ _ hf => (hdel _ hf).elim)

lemma Rep.mono (h : Rep lag ck numRows ins del vi) (hle : numRows' ≤ numRows) :
    Rep lag ck numRows' ins del vi :=
  fun v => (h v).congr (fun _ _ => rfl) (fun _ _ => rfl) (fun i _ hi => by omega)

namespace VersionInfo

/-- A row whose insertion or deletion is stamped otherwise than by a checkpoint lies in a vector
that is present. -/
lemma getOrCreate_rep (h : Rep lag ck numRows ins del vi)
    (hne : ∃ i < cap, del (v * cap + i) ≠ none ∨
      (v * cap + i < numRows ∧ ins (v * cap + i) ≠ some (.committed 0))) :
    InsRep lag ck (numRows - v * cap) (fun i => ins (v * cap + i)) (vi.getOrCreateVersionInfo v) ∧
      DelRep lag (fun i => del (v * cap + i)) (vi.getOrCreateVersionInfo v) := by
  have hv := h v
  unfold getOrCreateVersionInfo
  cases hget : vi.getVectorVersionInfo v with
  | some vv =>
    rw [hget] at hv
    exact hv
  | none =>
    rw [hget] at hv
    obtain ⟨i, hi, hdel | ⟨hlt, hins⟩⟩ := hne
    · exact absurd (hv.1 i hi) hdel
    · exact absurd (hv.2 i hi (by omega)).2 hins

/-- A loop over a range represents new stamps when its body does so on every segment, and the
stamps outside the range stay. -/
lemma applyToVectors_rep (hcap : 0 < cap) (h : Rep lag ck numRows ins del vi)
    (hf : ∀ v s m, IsSegment cap startRow n v s m →
      ∃ w, f (vi.getOrCreateVersionInfo v) s m = some w ∧
        InsRep lag ck (numRows' - v * cap) (fun i => ins' (v * cap + i)) w ∧
        DelRep lag (fun i => del' (v * cap + i)) w)
    (hins : ∀ row, ¬(startRow ≤ row ∧ row < startRow + n) → ins' row = ins row)
    (hdel : ∀ row, ¬(startRow ≤ row ∧ row < startRow + n) → del' row = del row)
    (hrows : ∀ row, ¬(startRow ≤ row ∧ row < startRow + n) → row < numRows' → row < numRows) :
    ∃ vi', vi.applyToVectors f startRow n = some vi' ∧ Rep lag ck numRows' ins' del' vi' := by
  obtain ⟨vi', hrun, hvec⟩ := applyToVectors_spec hcap hf
  refine ⟨vi', hrun, fun v => ?_⟩
  by_cases hv : ∃ i < cap, InRange cap startRow n v i
  · obtain ⟨w, hw, hrep⟩ := (hvec v).1 hv
    rw [hw]
    exact hrep
  · have hno : ∀ i < cap, ¬InRange cap startRow n v i := by simpa using hv
    rw [(hvec v).2 hno]
    refine (h v).congr (fun i hi => hins _ (hno i hi)) (fun i hi => hdel _ (hno i hi))
      fun i hi hlt => ?_
    have := hrows (v * cap + i) (hno i hi) (by omega)
    omega

/-- The stamps after the rows `startRow, …, startRow + n - 1` have got the stamp `s`. -/
def stampRange (ins : ℕ → Option Stamp) (startRow n : ℕ) (s : Option Stamp) :
    ℕ → Option Stamp :=
  fun row => if startRow ≤ row ∧ row < startRow + n then s else ins row

variable {row : ℕ}

lemma stampRange_of_not (s : Option Stamp)
    (h : ¬(startRow ≤ row ∧ row < startRow + n)) : stampRange ins startRow n s row = ins row :=
  if_neg h

lemma stampRange_zero (ins : ℕ → Option Stamp) (startRow : ℕ) (s : Option Stamp) :
    stampRange ins startRow 0 s = ins :=
  funext fun _ => if_neg (by omega)

/-- The range, seen from one vector. -/
lemma stampRange_segment (h : IsSegment cap startRow n v s m) (st : Option Stamp) (hi : i < cap) :
    stampRange ins startRow n st (v * cap + i)
      = if s ≤ i ∧ i < s + m then st else ins (v * cap + i) := by
  unfold stampRange
  have := h.iff i hi
  unfold InRange at this
  by_cases hseg : s ≤ i ∧ i < s + m
  · rw [if_pos hseg, if_pos (this.mp hseg)]
  · rw [if_neg hseg, if_neg fun hr => hseg (this.mpr hr)]

section

variable (hcap : 0 < cap)

include hcap

/-- Appended rows are stamped by the transaction. -/
lemma append_spec (h : Rep Lag.none false numRows ins del vi)
    (hid : StampOk (some (.active id))) (hfree : ∀ row, numRows ≤ row → ins row = none)
    (hlast : 0 < numRows → ins (numRows - 1) ≠ none) (n : ℕ) :
    ∃ vi', vi.append id numRows n = some vi' ∧
      Rep Lag.none false (numRows + n) (stampRange ins numRows n (some (.active id))) del vi' := by
  refine applyToVectors_rep hcap h (fun v s m hseg => ?_) (fun row => stampRange_of_not _)
    (fun _ _ => rfl) (fun row hrow hlt => by omega)
  have hpos := hseg.pos
  have hle := hseg.le
  -- the segment starts where the rows in use of the vector end
  have hs : numRows - v * cap = s := by
    have h1 := (hseg.iff s (by omega)).mp ⟨le_rfl, by omega⟩
    have h2 : 0 < s → ¬InRange cap numRows n v (s - 1) :=
      fun hs hr => absurd ((hseg.iff (s - 1) (by omega)).mpr hr) (by omega)
    unfold InRange at h1 h2
    by_cases hs : 0 < s
    · have := h2 hs
      omega
    · omega
  have hrep : InsRep Lag.none false s (fun i => ins (v * cap + i)) (vi.getOrCreateVersionInfo v) ∧
      DelRep Lag.none (fun i => del (v * cap + i)) (vi.getOrCreateVersionInfo v) := by
    have hv := h v
    unfold getOrCreateVersionInfo
    cases hget : vi.getVectorVersionInfo v with
    | some vv =>
      rw [hget, hs] at hv
      exact hv
    | none =>
      rw [hget, hs] at hv
      have hs0 : s = 0 := by
        by_contra hs0
        exact absurd (hv.2 0 (by omega) (by omega)).1 (by decide)
      refine ⟨.empty rfl rfl rfl rfl fun i hi => .inl (hfree _ (by omega)),
        ⟨rfl, fun i hi => ?_, by simp, fun _ i hi => .inl (hv.1 i hi)⟩⟩
      have hnone : del (v * cap + i) = none := hv.1 i hi
      rw [hnone]
      exact versionAt_initVersionArray i
  obtain ⟨w, hw, hins, hdel⟩ := VectorVersionInfo.append_spec hrep.1 hid hle
    (fun i hi hsi => hfree _ (by omega))
    (fun hs0 => by
      have : v * cap + (s - 1) = numRows - 1 := by omega
      rw [this]
      exact hlast (by omega))
  refine ⟨w, hw, hins.congr (fun i hi => stampRange_segment hseg _ hi) (fun i hi hlt => ?_)
    (.refl w), hrep.2.congr (fun _ _ => rfl) hdel⟩
  by_contra hge
  have := (hseg.iff i hi).not.mp (by omega)
  unfold InRange at this
  omega

/-- Committing stamps the inserted rows. -/
lemma commitInsert_spec (h : Rep (Lag.committing id ts) false numRows ins del vi)
    (hid : StampOk (some (.active id))) (hts : ts < startTransactionID) (hts0 : ts ≠ 0)
    (hok : ∀ row, StampOk (ins row)) (hrange : ∀ row, startRow ≤ row → row < startRow + n →
      row < numRows ∧ (ins row = some (.active id) ∨ ins row = some (.committed ts))) :
    ∃ vi', vi.commitInsert startRow n ts = some vi' ∧
      Rep (Lag.committing id ts) false numRows
        (stampRange ins startRow n (some (.committed ts))) del vi' := by
  refine applyToVectors_rep hcap h (fun v s m hseg => ?_) (fun row => stampRange_of_not _)
    (fun _ _ => rfl) (fun row _ hlt => hlt)
  have hpos := hseg.pos
  have hle := hseg.le
  have hrow := fun i hsi him => (hseg.rows hrange i hsi him).imp_left Nat.lt_sub_iff_add_lt'.mpr
  have hrep := getOrCreate_rep (v := v) h ⟨s, by omega, .inr ?_⟩
  · obtain ⟨w, hw, hins, hdel⟩ := setInsertCommitTS_spec hrep.1 hid hts
      (fun i _ => hok _) hpos hle hrow
    exact ⟨w, hw, hins.congr (fun i hi => stampRange_segment hseg _ hi) (fun _ _ hlt => hlt)
      (.refl w), hrep.2.congr (fun _ _ => rfl) hdel⟩
  · obtain ⟨hlt, hst | hst⟩ := hrow s le_rfl (by omega)
    · exact ⟨by omega, by simp [hst]⟩
    · exact ⟨by omega, by simp [hst, hts0]⟩

/-- Committing stamps the deletions. -/
lemma commitDelete_spec (h : Rep (Lag.committing id ts) ck numRows ins del vi)
    (hrange : ∀ row, startRow ≤ row → row < startRow + n → del row ≠ none) :
    ∃ vi', vi.commitDelete startRow n ts = some vi' ∧
      Rep (Lag.committing id ts) ck numRows ins
        (stampRange del startRow n (some (.committed ts))) vi' := by
  refine applyToVectors_rep hcap h (fun v s m hseg => ?_) (fun _ _ => rfl)
    (fun row => stampRange_of_not _) (fun row _ hlt => hlt)
  have hpos := hseg.pos
  have hle := hseg.le
  have hrow := hseg.rows hrange
  have hrep := getOrCreate_rep (v := v) h ⟨s, by omega, .inl (hrow s le_rfl (by omega))⟩
  obtain ⟨w, hw, hdel, hins⟩ := setDeleteCommitTS_spec hrep.2 hpos hle hrow
  exact ⟨w, hw, hrep.1.congr (fun _ _ => rfl) (fun _ _ hlt => hlt) hins,
    hdel.congr (fun i hi => stampRange_segment hseg _ hi) (.refl w)⟩

/-- Rolling back removes the inserted rows. -/
lemma rollbackInsert_spec (h : Rep (Lag.rollingBack own) false numRows ins del vi)
    (hown : ∀ o, own o → StampOk (some o)) (hown0 : ¬own (.committed 0))
    (hok : ∀ row, StampOk (ins row)) (hrange : ∀ row, startRow ≤ row → row < startRow + n →
      row < numRows ∧ (ins row = none ∨ OwnStamp own (ins row)))
    (hfree : ∀ row, numRows ≤ row → ins row = none)
    (hdel : ∀ row, ins row = none ∨ OwnStamp own (ins row) →
      del row = none ∨ OwnStamp own (del row)) :
    ∃ vi', vi.rollbackInsert startRow n = some vi' ∧
      Rep (Lag.rollingBack own) false numRows (stampRange ins startRow n none) del vi' := by
  refine applyToVectors_rep hcap h (fun v s m hseg => ⟨_, rfl, ?_⟩)
    (fun row => stampRange_of_not _) (fun _ _ => rfl) (fun row _ hlt => hlt)
  have hpos := hseg.pos
  have hle := hseg.le
  have hrow := fun i hsi him => (hseg.rows hrange i hsi him).imp_left Nat.lt_sub_iff_add_lt'.mpr
  have hrep := getOrCreate_rep (v := v) h ⟨s, by omega, .inr ?_⟩
  · obtain ⟨h1, h2⟩ := rollbackInsertions_spec hrep.1 hrep.2 hown
      (fun i _ => hok _) hpos hle hrow (fun i hi hge => hfree _ (by omega)) (fun i _ => hdel _)
    exact ⟨h1.congr (fun i hi => stampRange_segment hseg _ hi) (fun _ _ hlt => hlt) (.refl _), h2⟩
  · obtain ⟨hlt, hst | ⟨o, ho, hst⟩⟩ := hrow s le_rfl (by omega)
    · exact ⟨by omega, by simp [hst]⟩
    · refine ⟨by omega, fun h0 => hown0 ?_⟩
      rw [hst] at h0
      exact Option.some.inj h0 ▸ ho

/-- Rolling back removes the deletions. -/
lemma rollbackDelete_spec
    (h : Rep (Lag.rollingBack own) ck numRows ins del vi) (hok : ∀ row, StampOk (del row))
    (hrange : ∀ row, startRow ≤ row → row < startRow + n → del row ≠ none) :
    ∃ vi', vi.rollbackDelete startRow n = some vi' ∧
      Rep (Lag.rollingBack own) ck numRows ins (stampRange del startRow n none) vi' := by
  refine applyToVectors_rep hcap h (fun v s m hseg => ⟨_, rfl, ?_⟩) (fun _ _ => rfl)
    (fun row => stampRange_of_not _) (fun row _ hlt => hlt)
  have hpos := hseg.pos
  have hle := hseg.le
  have hrow := hseg.rows hrange s le_rfl (by omega)
  have hrep := getOrCreate_rep (v := v) h ⟨s, by omega, .inl hrow⟩
  obtain ⟨hd, hins⟩ := rollbackDeletions_spec (s := s) (m := m) hrep.2 (fun i _ => hok _)
  exact ⟨hrep.1.congr (fun _ _ => rfl) (fun _ _ hlt => hlt) hins,
    hd.congr (fun i hi => stampRange_segment hseg _ hi) (.refl _)⟩

end

/-- The vector that `delete_` works on: an absent one is created for checkpointed rows. -/
lemma delete_vector_rep (h : Rep Lag.none ck numRows ins del vi) (hi : i < cap)
    (hlt : v * cap + i < numRows) (hne : ins (v * cap + i) ≠ none) :
    let vv := vi.getOrCreateVersionInfo v
    let vv := if vv.insertionStatus = .noInserted then
      { vv with insertionStatus := .alwaysInserted } else vv
    InsRep Lag.none ck (numRows - v * cap) (fun i => ins (v * cap + i)) vv ∧
      DelRep Lag.none (fun i => del (v * cap + i)) vv := by
  have hv := h v
  unfold getOrCreateVersionInfo
  cases hget : vi.getVectorVersionInfo v with
  | some vv =>
    rw [hget] at hv
    have hstatus : vv.insertionStatus ≠ .noInserted := fun hs =>
      hne ((inserted_of_noInserted hv.1 hs).2 i hi)
    simp only [Option.getD_some, hstatus, if_false]
    exact hv
  | none =>
    rw [hget] at hv
    simp only [Option.getD_none, if_true]
    refine ⟨.always (hv.2 i hi (by omega)).1 rfl rfl rfl fun j hj hjn => (hv.2 j hj hjn).2,
      rfl, fun j hj => ?_, by simp, fun _ j hj => .inl (hv.1 j hj)⟩
    have hnone : del (v * cap + j) = none := hv.1 j hj
    rw [hnone]
    exact versionAt_initVersionArray j

/-- A row is deleted at most once. -/
lemma delete_spec (hcap : 0 < cap) (h : Rep Lag.none ck numRows ins del vi) {s : Stamp}
    (hs : StampOk (some s)) (hrow : row < numRows) (hins : ins row ≠ none)
    (hok : StampOk (del row)) :
    Rep Lag.none ck numRows ins (if del row = none then Function.update del row (some s) else del)
        (vi.delete_ (versionOf (some s)) row).1 ∧
      ((vi.delete_ (versionOf (some s)) row).2 = .ok true ↔ del row = none) ∧
      ((vi.delete_ (versionOf (some s)) row).2 = .ok false ↔ del row = some s) := by
  have hdm := Nat.div_add_mod' row cap
  have hmod := mod_lt row hcap
  have hrep := delete_vector_rep h (v := row / cap) hmod (by rw [hdm]; exact hrow)
    (by rw [hdm]; exact hins)
  obtain ⟨hd, hsame, hres⟩ := VectorVersionInfo.delete_spec hrep.2 hs hmod
    (by simp only [hdm]; exact hok)
  simp only [hdm] at hd hres
  refine ⟨fun v => ?_, hres⟩
  unfold delete_
  simp only
  rw [getVectorVersionInfo_setVectorVersionInfo]
  by_cases hv : v = row / cap
  · subst hv
    rw [if_pos rfl]
    refine ⟨hrep.1.congr (fun _ _ => rfl) (fun _ _ hlt => hlt) hsame,
      hd.congr (fun i hi => ?_) (.refl _)⟩
    split_ifs with hnone
    · by_cases him : i = row % cap
      · rw [him, hdm, update_self, update_self]
      · rw [update_of_ne him, update_of_ne (by omega)]
    · rfl
  -- another vector
  · rw [if_neg hv]
    refine (h v).congr (fun _ _ => rfl) (fun i hi => ?_) (fun _ _ hlt => hlt)
    split_ifs with hnone
    · refine update_of_ne (fun heq => hv ?_) _ _
      rw [← heq, Paging.mul_add_div_of_lt hi]
    · rfl

/-! ### What a transaction reads -/

/-- A row is selected if visible. -/
lemma isSelected_spec (hcap : 0 < cap) (h : Rep Lag.none ck numRows ins del vi)
    (hok : ∀ row, StampOk (ins row)) (hdok : ∀ row, StampOk (del row)) (T : Transaction)
    (hrow : row < numRows) :
    vi.isSelected T.startTS T.id row = some (rowSelected ins del T row) := by
  have hdm := Nat.div_add_mod' row cap
  have hmod := mod_lt row hcap
  have hv := h (row / cap)
  unfold isSelected
  cases hget : vi.getVectorVersionInfo (row / cap) with
  | some vv =>
    rw [hget] at hv
    have := VectorVersionInfo.isSelected_spec hv.1 hv.2 T hmod (by omega) (hok _) (hdok _)
    simp only [rowSelected, hdm] at this
    exact this
  | none =>
    rw [hget] at hv
    have hins := (hv.2 _ hmod (by omega)).2
    have hdel := hv.1 _ hmod
    simp only [hdm] at hins hdel
    rw [rowSelected, hins, hdel]
    simp

/-- One vector of a scan: `out` rows are done, and the segment is what comes next. -/
lemma scanSegment_spec (h : Rep Lag.none ck numRows ins del vi)
    (hok : ∀ row, StampOk (ins row)) (hdok : ∀ row, StampOk (del row)) (T : Transaction)
    {out : ℕ} {sv : SelectionVector} (hm : 0 < m) (hle : s + m ≤ cap)
    (hstart : v * cap + s = startRow + out) (hend : startRow + out + m ≤ numRows)
    (hsv : ScanOk ck out ((range out).filter fun i => rowSelected ins del T (startRow + i)) sv) :
    ∃ sv', vi.scanSegment T.startTS T.id (sv, out) (v, s, m) = some (sv', out + m) ∧
      ScanOk ck (out + m)
        ((range (out + m)).filter fun i => rowSelected ins del T (startRow + i)) sv' := by
  have hrows : ∀ i, startRow + (out + i) = v * cap + (s + i) := fun i => by omega
  rw [range_add, filter_append, filter_map]
  simp only [Function.comp_def, hrows]
  have hv := h v
  unfold scanSegment
  simp only
  cases hget : vi.getVectorVersionInfo v with
  | some vv =>
    rw [hget] at hv
    obtain ⟨sv', hrun, hsv'⟩ := getSelVectorForScan_spec hv.1 hv.2 T hsv hle
      (by omega) (fun i _ => hok _) (fun i _ => hdok _)
    refine ⟨sv', ?_, hsv'⟩
    simp only [hrun]
    rfl
  | none =>
    rw [hget] at hv
    -- an absent vector holds checkpointed rows without deletions, or no row at all
    have hall : (range m).filter (fun i => rowSelected ins del T (v * cap + (s + i)))
        = range m := by
      rw [filter_eq_self]
      intro i hi
      have := mem_range.mp hi
      have hins : ins (v * cap + (s + i)) = some (.committed 0) :=
        (hv.2 (s + i) (by omega) (by omega)).2
      have hdel : del (v * cap + (s + i)) = none := hv.1 (s + i) (by omega)
      rw [rowSelected, hins, hdel]
      simp
    rw [hall]
    have hck : ck = true := (hv.2 s (by omega) (by omega)).1
    subst hck
    refine ⟨_, ?_, hsv.all⟩
    split_ifs <;> rfl

end VersionInfo

/-- A segment starts at the start of the range or of its vector, whichever comes later, and ends
at the end of the range or of its vector, whichever comes first. -/
lemma IsSegment.bounds (h : IsSegment cap startRow numRows v s m) :
    v * cap + s = max startRow (v * cap) ∧
      v * cap + s + m = min (startRow + numRows) (v * cap + cap) := by
  have hpos := h.pos
  have hle := h.le
  have hfirst := (h.iff s (by omega)).mp ⟨le_rfl, by omega⟩
  have hlast := (h.iff (s + m - 1) (by omega)).mp ⟨by omega, by omega⟩
  have hbefore : 0 < s → ¬InRange cap startRow numRows v (s - 1) :=
    fun hs hr => absurd ((h.iff (s - 1) (by omega)).mpr hr) (by omega)
  have hafter : s + m < cap → ¬InRange cap startRow numRows v (s + m) :=
    fun hs hr => absurd ((h.iff (s + m) (by omega)).mpr hr) (by omega)
  unfold InRange at hfirst hlast hbefore hafter
  constructor
  · by_cases hs : 0 < s
    · have := hbefore hs
      omega
    · omega
  · by_cases hs : s + m < cap
    · have := hafter hs
      omega
    · omega

/-- **The loop over a range, row by row.** `P d` says what the loop has done after `d` rows; every
segment takes it further by its own rows. -/
theorem foldlM_vectorSegments (hcap : 0 < cap) {σ : Type} {f : σ → ℕ × ℕ × ℕ → Option σ}
    {P : ℕ → σ → Prop} (startRow : ℕ) (hn : 0 < n)
    (hstep : ∀ d v s m x, v * cap + s = startRow + d → 0 < m → s + m ≤ cap → d + m ≤ n → P d x →
      ∃ x', f x (v, s, m) = some x' ∧ P (d + m) x') {x : σ} (hx : P 0 x) :
    ∃ x', (vectorSegments cap startRow n).foldlM f x = some x' ∧ P n x' := by
  set a := startRow / cap with ha
  set b := (startRow + n - 1) / cap with hb
  have hab : a ≤ b := Nat.div_le_div_right (by omega)
  have hacap : a * cap ≤ startRow := Nat.div_mul_le_self _ _
  have hbcap' : startRow + n - 1 < (b + 1) * cap := by
    have h1 := div_add_mod (startRow + n - 1) cap
    have h2 := mod_lt (startRow + n - 1) hcap
    rw [← hb, mul_comm] at h1
    rw [succ_mul]
    omega
  -- after `k` vectors the rows before vector `a + k` are done
  have hloop : ∀ k ≤ b + 1 - a, ∃ x',
      ((vectorSegments cap startRow n).take k).foldlM f x = some x' ∧
        P (min (startRow + n) ((a + k) * cap) - startRow) x' := by
    intro k
    induction k with
    | zero =>
      intro _
      have h0 : min (startRow + n) ((a + 0) * cap) - startRow = 0 := by
        rw [add_zero]
        omega
      rw [h0]
      exact ⟨x, rfl, hx⟩
    | succ k ih =>
      intro hk
      obtain ⟨x1, hrun, hx1⟩ := ih (by omega)
      have hlen : k < (vectorSegments cap startRow n).length := by
        simp only [vectorSegments, length_map, length_range']
        omega
      rcases hseg' : (vectorSegments cap startRow n).get ⟨k, hlen⟩ with ⟨v, s, m⟩
      have hv : v = a + k := by
        have := congrArg Prod.fst hseg'
        simpa [vectorSegments, ha] using this.symm
      have hseg : IsSegment cap startRow n v s m := mem_vectorSegments hcap hn (hseg' ▸ get_mem _ _)
      obtain ⟨hbs, hbe⟩ := hseg.bounds
      have hpos := hseg.pos
      have hle := hseg.le
      rw [← hv] at hx1
      have hsucc : (a + (k + 1)) * cap = v * cap + cap := by
        rw [hv, ← succ_mul]
        rfl
      have hout : min (startRow + n) (v * cap) - startRow + m
          = min (startRow + n) (v * cap + cap) - startRow := by omega
      obtain ⟨x', hf, hx'⟩ := hstep _ v s m x1 (by omega) hpos hle (by omega) hx1
      rw [hout] at hx'
      rw [hsucc]
      refine ⟨x', ?_, hx'⟩
      rw [take_succ_eq_append_getElem hlen]
      refine Fold.foldlM_append_some.mpr ⟨_, hrun, ?_⟩
      rw [get_eq_getElem] at hseg'
      rw [hseg']
      simpa using hf
  obtain ⟨x', hrun, hx'⟩ := hloop (b + 1 - a) le_rfl
  have hout : min (startRow + n) ((a + (b + 1 - a)) * cap) - startRow = n := by
    have : a + (b + 1 - a) = b + 1 := by omega
    rw [this]
    omega
  rw [hout] at hx'
  have hlen : (vectorSegments cap startRow n).length = b + 1 - a := by
    simp [vectorSegments, ha, hb]
  rw [← hlen, take_length] at hrun
  exact ⟨x', hrun, hx'⟩

namespace VersionInfo

/-- **The scan** selects the visible rows. -/
lemma getSelVectorToScan_spec (hcap : 0 < cap) (h : Rep Lag.none ck numRows ins del vi)
    (hok : ∀ row, StampOk (ins row)) (hdok : ∀ row, StampOk (del row)) (T : Transaction)
    (hn : 0 < n) (hle : startRow + n ≤ numRows) (sv : SelectionVector) :
    ∃ sv', vi.getSelVectorToScan T.startTS T.id sv startRow n = some sv' ∧
      sv'.getSelectedPositions
        = (range n).filter fun i => rowSelected ins del T (startRow + i) := by
  obtain ⟨⟨sv', out⟩, hrun, rfl, hsv'⟩ := foldlM_vectorSegments hcap
    (f := vi.scanSegment T.startTS T.id)
    (P := fun d x => x.2 = d ∧
      ScanOk ck d ((range d).filter fun i => rowSelected ins del T (startRow + i)) x.1)
    startRow hn
    (by
      rintro d v s m ⟨sv, out⟩ hrow hm hcap' hdm ⟨rfl, hsv⟩
      obtain ⟨sv', hscan, hsv'⟩ := scanSegment_spec h hok hdok T hm hcap' hrow (by omega) hsv
      exact ⟨_, hscan, rfl, hsv'⟩)
    (x := (sv.setToUnfiltered 0, 0))
    ⟨rfl, rfl, fun _ => by simp [SelectionVector.setToUnfiltered]⟩
  refine ⟨sv', ?_, hsv'.positions⟩
  rw [getSelVectorToScan, if_neg (by omega), hrun]
  rfl

end VersionInfo

end Ladybug
