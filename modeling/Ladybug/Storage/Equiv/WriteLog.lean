import Ladybug.Storage.Equiv.UpdateInfo

/-!
# The log of writes

The invariants of a `WriteLog` that interleaved transactions produce (`Ordered`, `WriteLog.Ok`), and
the versions that a log stands for: `versions` groups the writes to a vector by transaction, the
transaction that wrote first to the vector last.

* `readChain_versions`: a read of the versions gives the last write that the reader may see;
* `WriteLog.read_eq`: so does a read of the log.
-/

namespace Ladybug

open List TransactionManager VectorUpdateInfo
open Write (isCommittedBy isOwn later)
open List (reverseRecOn)

variable {V : Type}

namespace Write

/-- The version word of a write: its commit timestamp, or the id of its transaction. -/
def word (w : Write V) : ℕ := w.commitTS.getD w.id

/-- Whether `T` reads versions with this word. -/
def readableBy (T : Transaction) (w : Write V) : Bool :=
  w.word == T.id || w.word ≤ T.startTS

end Write

/-! ### The order of the writes -/

/-- What holds between the writes of a log, oldest first. -/
structure Ordered (ws : List (Write V)) : Prop where
  running_id : ∀ w ∈ ws, w.commitTS = none → startTransactionID ≤ w.id
  committed_lt : ∀ w ∈ ws, ∀ c, w.commitTS = some c → w.startTS < c ∧ c < startTransactionID
  same : ∀ w ∈ ws, ∀ w' ∈ ws, w.id = w'.id → w.startTS = w'.startTS ∧ w.commitTS = w'.commitTS
  /-- a transaction commits after everything that was written before its own writes had begun -/
  order : ws.Pairwise fun a b => ∀ c, b.commitTS = some c → a.startTS < c
  /-- a row is written again only by a transaction that started after the write was committed -/
  separate : ws.Pairwise fun a b => a.row = b.row → a.id ≠ b.id →
    ∃ c, a.commitTS = some c ∧ c ≤ b.startTS

variable {ws : List (Write V)}

lemma Ordered.sublist {ws' : List (Write V)} (h : Ordered ws) (hsub : ws'.Sublist ws) :
    Ordered ws' where
  running_id w hw := h.running_id w (hsub.subset hw)
  committed_lt w hw := h.committed_lt w (hsub.subset hw)
  same w hw w' hw' := h.same w (hsub.subset hw) w' (hsub.subset hw')
  order := h.order.sublist hsub
  separate := h.separate.sublist hsub

variable {w : Write V} {h : WriteLog V}

lemma Ordered.init (h : Ordered (ws ++ [w])) : Ordered ws := h.sublist (sublist_append_left ws [w])

/-- An earlier writer of the row committed before the last one began. -/
lemma Ordered.separate_last (h : Ordered (ws ++ [w]))
    {a : Write V} (ha : a ∈ ws) (hrow : a.row = w.row) (hid : a.id ≠ w.id) :
    ∃ c, a.commitTS = some c ∧ c ≤ w.startTS :=
  (pairwise_append.mp h.separate).2.2 a ha w (by simp) hrow hid

/-- Readable are the reader's own writes and those committed when it started. -/
lemma Ordered.readableBy_iff (h : Ordered ws) (hw : w ∈ ws) (T : Transaction) :
    w.readableBy T = true ↔
      (w.commitTS = none ∧ w.id = T.id) ∨ ∃ c, w.commitTS = some c ∧ c ≤ T.startTS := by
  have hT := T.startTS_lt
  unfold Write.readableBy Write.word
  cases hc : w.commitTS with
  | none =>
    have hid := h.running_id w hw hc
    simp only [Option.getD_none, Bool.or_eq_true, beq_iff_eq, decide_eq_true_eq, true_and,
      reduceCtorEq, false_and, exists_false, or_false]
    omega
  | some c =>
    have hlt := h.committed_lt w hw c hc
    have hne : c ≠ T.id := by
      rcases T.id_eq_or_le with h0 | hle
      · rw [h0, dummyTransactionID]; omega
      · omega
    simp [hne]

/-! ### What is read -/

/-- The latest write is one of the writes. -/
lemma mem_of_foldl_later {l : List (Write V)} {b : Option (Write V)}
    (h : l.foldl later b = some w) : w ∈ l ∨ b = some w := by
  induction l generalizing b with
  | nil => exact .inr h
  | cons x l ih =>
    rcases ih h with hmem | hb
    · exact .inl (mem_cons_of_mem _ hmem)
    · unfold later at hb
      cases b with
      | none => exact .inl (by simp_all)
      | some b =>
        simp only at hb
        split_ifs at hb
        · exact .inl (by simp_all)
        · exact .inr hb

/-- The last write to the row that `T` may see. -/
def lastReadable (T : Transaction) (row : ℕ) (ws : List (Write V)) : Option (Write V) :=
  (ws.filter fun w => w.row == row && w.readableBy T).getLast?

/-- A readable write shadows those before it. -/
lemma lastReadable_concat (T : Transaction) (row : ℕ) (ws : List (Write V)) (w : Write V) :
    lastReadable T row (ws ++ [w]) =
      if w.row = row ∧ w.readableBy T = true then some w else lastReadable T row ws := by
  unfold lastReadable
  rw [filter_append, filter_singleton]
  by_cases h : w.row = row ∧ w.readableBy T = true
  · simp [h.1, h.2]
  · rw [if_neg h]
    have hf : (w.row == row && w.readableBy T) = false := by
      rw [Bool.eq_false_iff]
      simpa using h
    simp [hf]

/-- Reading by timestamps finds the last readable write. -/
lemma WriteLog.read_eq (ho : Ordered h.writes) (T : Transaction) (row : ℕ) :
    h.read T row = (lastReadable T row h.writes).map Write.value := by
  obtain ⟨mgr, ws⟩ := h
  simp only at ho ⊢
  unfold WriteLog.read WriteLog.latestCommitted
  induction ws using reverseRecOn with
  | nil => rfl
  | append_singleton ws w ih =>
    have ih := ih ho.init
    have hread := ho.readableBy_iff (w := w) (by simp) T
    rw [lastReadable_concat]
    simp only [filter_append, filter_singleton]
    by_cases hrow : w.row = row
    swap
    · -- another row
      have h1 : isOwn T.id row w = false := by simp [isOwn, hrow]
      have h2 : isCommittedBy T.startTS row w = false := by simp [isCommittedBy, hrow]
      simpa [h1, h2, hrow] using ih
    cases hc : w.commitTS with
    | none =>
      have h2 : isCommittedBy T.startTS row w = false := by simp [isCommittedBy, hc]
      by_cases hid : w.id = T.id
      · have h1 : isOwn T.id row w = true := by simp [isOwn, hrow, hid, hc]
        rw [if_pos ⟨hrow, hread.mpr (.inl ⟨hc, hid⟩)⟩]
        simp [h1]
      · have h1 : isOwn T.id row w = false := by simp [isOwn, hid]
        rw [if_neg fun hr => by simpa [hc, hid] using hread.mp hr.2]
        simpa [h1, h2] using ih
    | some c =>
      have h1 : isOwn T.id row w = false := by simp [isOwn, hc]
      by_cases hle : c ≤ T.startTS
      · have h2 : isCommittedBy T.startTS row w = true := by
          simp [isCommittedBy, hrow, hc, hle]
        rw [if_pos ⟨hrow, hread.mpr (.inr ⟨c, hc, hle⟩)⟩]
        -- the reader cannot have written the row before
        have hown : ws.filter (isOwn T.id row) = [] := by
          rw [filter_eq_nil_iff]
          intro a ha hown
          simp only [isOwn, Bool.and_eq_true, beq_iff_eq, Option.isNone_iff_eq_none] at hown
          obtain ⟨⟨harow, -⟩, hnone⟩ := hown
          have hne : a.id ≠ w.id := fun he => by
            have := (ho.same a (mem_append_left _ ha) w (by simp) he).2
            simp [hnone, hc] at this
          obtain ⟨c', hc', -⟩ := ho.separate_last ha (harow.trans hrow.symm) hne
          simp [hnone] at hc'
        -- and what was committed before has no later timestamp
        have hlater : later
            ((ws.filter (isCommittedBy T.startTS row)).foldl later none) w = some w := by
          cases hb : (ws.filter (isCommittedBy T.startTS row)).foldl later none with
          | none => rfl
          | some b =>
            rcases mem_of_foldl_later hb with hmem | hcontra
            · obtain ⟨hbmem, hbc⟩ := mem_filter.mp hmem
              simp only [isCommittedBy, Bool.and_eq_true, beq_iff_eq] at hbc
              have hts : b.commitTS.getD 0 ≤ w.commitTS.getD 0 := by
                by_cases hid : b.id = w.id
                · rw [(ho.same b (mem_append_left _ hbmem) w (by simp) hid).2]
                · obtain ⟨c', hc', hle'⟩ := ho.separate_last hbmem (hbc.1.trans hrow.symm) hid
                  have := (ho.committed_lt w (by simp) c hc).1
                  rw [hc', hc, Option.getD_some, Option.getD_some]
                  omega
              simp [later, hts]
            · simp at hcontra
        simp [h1, h2, hown, hlater]
      · have h2 : isCommittedBy T.startTS row w = false := by
          simp [isCommittedBy, hc, hle]
        rw [if_neg fun hr => by simpa [hc, hle] using hread.mp hr.2]
        simpa [h1, h2] using ih

/-! ### The versions that a log stands for -/

/-- The rows of a vector that one transaction has written. -/
structure RowVersion (V : Type) where
  id : ℕ
  startTS : ℕ
  commitTS : Option ℕ
  rows : List (ℕ × V)

namespace RowVersion

/-- The version as the code keeps it, without its address. -/
def toInfo (v : RowVersion V) : VectorUpdateInfo V := ⟨0, v.commitTS.getD v.id, v.rows⟩

/-- The version with a write of its transaction. -/
def write (cap : ℕ) (w : Write V) (v : RowVersion V) : RowVersion V :=
  if v.id = w.id then { v with rows := VectorUpdateInfo.writeRow (w.row % cap) w.value v.rows }
  else v

@[simp] lemma write_id (cap : ℕ) (w : Write V) (v : RowVersion V) : (v.write cap w).id = v.id := by
  unfold write; split_ifs <;> rfl

@[simp] lemma write_startTS (cap : ℕ) (w : Write V) (v : RowVersion V) :
    (v.write cap w).startTS = v.startTS := by
  unfold write; split_ifs <;> rfl

@[simp] lemma write_commitTS (cap : ℕ) (w : Write V) (v : RowVersion V) :
    (v.write cap w).commitTS = v.commitTS := by
  unfold write; split_ifs <;> rfl

end RowVersion

/-- The chain of a vector with one more write. -/
def insertWrite (cap : ℕ) (c : List (RowVersion V)) (w : Write V) : List (RowVersion V) :=
  if w.id ∈ c.map RowVersion.id then c.map (RowVersion.write cap w)
  else ⟨w.id, w.startTS, w.commitTS, [(w.row % cap, w.value)]⟩ :: c

/-- The versions of a vector, the newest first. -/
def versions (cap vectorIdx : ℕ) (ws : List (Write V)) : List (RowVersion V) :=
  (ws.filter fun w => w.row / cap == vectorIdx).foldl (insertWrite cap) []

/-- A write reaches the chain of its own vector. -/
lemma versions_concat (cap vectorIdx : ℕ) (ws : List (Write V)) (w : Write V) :
    versions cap vectorIdx (ws ++ [w]) =
      if w.row / cap = vectorIdx then insertWrite cap (versions cap vectorIdx ws) w
      else versions cap vectorIdx ws := by
  unfold versions
  rw [filter_append, filter_singleton, foldl_append]
  by_cases h : w.row / cap = vectorIdx
  · simp [h]
  · have hf : (w.row / cap == vectorIdx) = false := by simpa using h
    simp [h, hf]

variable {cap : ℕ} {v : RowVersion V} {c : List (RowVersion V)}

/-- A version after a write is an old one or the writer's new one. -/
lemma mem_insertWrite :
    v ∈ insertWrite cap c w →
      (∃ v0 ∈ c, v = v0.write cap w) ∨
        w.id ∉ c.map RowVersion.id ∧
          v = ⟨w.id, w.startTS, w.commitTS, [(w.row % cap, w.value)]⟩ := by
  unfold insertWrite
  split_ifs with hmem
  · intro h
    obtain ⟨v0, hv0, rfl⟩ := mem_map.mp h
    exact .inl ⟨v0, hv0, rfl⟩
  · intro h
    rcases mem_cons.mp h with rfl | hv
    · exact .inr ⟨hmem, rfl⟩
    · refine .inl ⟨v, hv, ?_⟩
      have hne : v.id ≠ w.id := fun he => hmem (he ▸ mem_map_of_mem hv)
      rw [RowVersion.write, if_neg hne]

/-- A transaction has one version per vector. -/
lemma versions_nodup (cap vectorIdx : ℕ) (ws : List (Write V)) :
    ((versions cap vectorIdx ws).map RowVersion.id).Nodup := by
  induction ws using reverseRecOn with
  | nil => exact nodup_nil
  | append_singleton ws w ih =>
    rw [versions_concat]
    split_ifs
    · -- the versions have the ids of the writes to the vector, each once
      unfold insertWrite
      split_ifs with hmem
      · rw [map_map]
        exact (map_congr_left fun v _ => RowVersion.write_id cap w v) ▸ ih
      · exact nodup_cons.mpr ⟨hmem, ih⟩
    · exact ih

lemma findRow_writeRow (i : ℕ) (value : V) (rows : List (ℕ × V)) (j : ℕ) :
    findRow (writeRow i value rows) j =
      if i = j then some value else findRow rows j := by
  induction rows with
  | nil => rw [writeRow, findRow_cons]
  | cons r rows ih =>
    unfold writeRow
    by_cases hr : r.1 = i
    · rw [if_pos hr, findRow_cons, findRow_cons]
      by_cases hij : i = j
      · rw [if_pos hij, if_pos (by simp only; omega)]
      · rw [if_neg hij, if_neg (by simp only; omega), if_neg (by omega)]
    · rw [if_neg hr, findRow_cons, findRow_cons, ih]
      by_cases hij : i = j
      · rw [if_pos hij, if_pos hij, if_neg (by omega)]
      · rw [if_neg hij, if_neg hij]

/-- Where a version comes from: the transaction has written to the vector, and every row of the
version is a row that it has written. -/
lemma mem_versions {vectorIdx : ℕ} (ho : Ordered ws) (hv : v ∈ versions cap vectorIdx ws) :
    (∃ w ∈ ws, w.id = v.id ∧ w.startTS = v.startTS ∧ w.commitTS = v.commitTS) ∧
      ∀ i, (findRow v.rows i).isSome →
        ∃ w ∈ ws, w.id = v.id ∧ w.row / cap = vectorIdx ∧ w.row % cap = i := by
  induction ws using reverseRecOn generalizing v with
  | nil => simp [versions] at hv
  | append_singleton ws w ih =>
    have hold : ∀ v ∈ versions cap vectorIdx ws,
        (∃ w' ∈ ws ++ [w], w'.id = v.id ∧ w'.startTS = v.startTS ∧ w'.commitTS = v.commitTS) ∧
          ∀ i, (findRow v.rows i).isSome →
            ∃ w' ∈ ws ++ [w], w'.id = v.id ∧ w'.row / cap = vectorIdx ∧ w'.row % cap = i := by
      intro v hv
      obtain ⟨⟨w', hw', hattr⟩, hrows⟩ := ih ho.init hv
      refine ⟨⟨w', mem_append_left _ hw', hattr⟩, fun i hi => ?_⟩
      obtain ⟨w'', hw'', hrow⟩ := hrows i hi
      exact ⟨w'', mem_append_left _ hw'', hrow⟩
    rw [versions_concat] at hv
    split_ifs at hv with hvec
    swap
    · exact hold v hv
    rcases mem_insertWrite hv with ⟨v0, hv0, rfl⟩ | ⟨-, rfl⟩
    -- a version that was there, with the row of the write if it is its own
    · obtain ⟨hattr, hrows⟩ := hold v0 hv0
      refine ⟨by simpa using hattr, fun i hi => ?_⟩
      rw [RowVersion.write_id]
      unfold RowVersion.write at hi
      split_ifs at hi with hid
      · rw [findRow_writeRow] at hi
        split_ifs at hi with hrow
        · exact ⟨w, by simp, hid.symm, hvec, hrow⟩
        · exact hrows i hi
      · exact hrows i hi
    · refine ⟨⟨w, by simp, rfl, rfl, rfl⟩, fun i hi => ?_⟩
      rw [findRow_cons] at hi
      split_ifs at hi with hrow
      · exact ⟨w, by simp, rfl, hvec, hrow⟩
      · simp at hi

/-- Every write is in its transaction's version. -/
lemma exists_version (cap : ℕ) (hw : w ∈ ws) :
    ∃ v ∈ versions cap (w.row / cap) ws, v.id = w.id ∧ (findRow v.rows (w.row % cap)).isSome := by
  induction ws using reverseRecOn with
  | nil => simp at hw
  | append_singleton ws w' ih =>
    rw [versions_concat]
    rcases mem_append.mp hw with hw | hw
    · obtain ⟨v, hv, hid, hrow⟩ := ih hw
      split_ifs with hvec
      swap
      · exact ⟨v, hv, hid, hrow⟩
      unfold insertWrite
      split_ifs with hmem
      · refine ⟨v.write cap w', mem_map_of_mem hv, by simpa using hid, ?_⟩
        unfold RowVersion.write
        split_ifs
        · rw [findRow_writeRow]
          split_ifs
          · rfl
          · exact hrow
        · exact hrow
      · exact ⟨v, mem_cons_of_mem _ hv, hid, hrow⟩
    · obtain rfl := mem_singleton.mp hw
      rw [if_pos rfl]
      unfold insertWrite
      split_ifs with hmem
      · obtain ⟨v, hv, hid⟩ := mem_map.mp hmem
        refine ⟨v.write cap w, mem_map_of_mem hv, by simpa using hid, ?_⟩
        rw [RowVersion.write, if_pos hid, findRow_writeRow, if_pos rfl]
        rfl
      · exact ⟨_, mem_cons_self, rfl, by simp [findRow_cons]⟩

/-- A version above another was committed, if at all, after the other's transaction started. -/
lemma versions_pairwise (cap vectorIdx : ℕ) (ho : Ordered ws) :
    (versions cap vectorIdx ws).Pairwise fun a b => ∀ c, a.commitTS = some c → b.startTS < c := by
  induction ws using reverseRecOn with
  | nil => exact List.Pairwise.nil
  | append_singleton ws w ih =>
    rw [versions_concat]
    split_ifs
    swap
    · exact ih ho.init
    unfold insertWrite
    split_ifs with hmem
    · rw [pairwise_map]
      simpa using ih ho.init
    · refine List.Pairwise.cons (fun b hb c hc => ?_) (ih ho.init)
      obtain ⟨⟨w', hw', -, hstart, -⟩, -⟩ := mem_versions ho.init hb
      rw [← hstart]
      exact (pairwise_append.mp ho.order).2.2 w' hw' w (by simp) c hc

/-! ### Reading the versions -/

/-- The first part of a chain is read first. -/
lemma readChain_append (T : Transaction) (c c' : List (VectorUpdateInfo V)) (i : ℕ) :
    readChain T (c ++ c') i = (readChain T c i).or (readChain T c' i) := by
  unfold readChain
  rw [filter_append, findSome?_append]

variable {T : Transaction}

/-- A transaction's second write changes its version in place. -/
lemma insertWrite_split (cap : ℕ)
    (hnodup : (c.map RowVersion.id).Nodup) (hmem : w.id ∈ c.map RowVersion.id) :
    ∃ above v below, c = above ++ v :: below ∧ v.id = w.id ∧
      insertWrite cap c w = above ++
        { v with rows := writeRow (w.row % cap) w.value v.rows } :: below := by
  obtain ⟨v, hv, hid⟩ := mem_map.mp hmem
  obtain ⟨above, below, rfl⟩ := append_of_mem hv
  refine ⟨above, v, below, rfl, hid, ?_⟩
  rw [map_append, map_cons, nodup_append] at hnodup
  obtain ⟨-, hbelow, habove⟩ := hnodup
  have keep : ∀ l : List (RowVersion V), (∀ u ∈ l, u.id ≠ w.id) →
    l.map (RowVersion.write cap w) = l := fun l hl => (map_congr_left fun u hu => by
      rw [RowVersion.write, if_neg (hl u hu), id]).trans (map_id l)
  rw [insertWrite, if_pos hmem, map_append, map_cons, keep above, keep below,
    RowVersion.write, if_pos hid]
  · intro u hu he
    exact (nodup_cons.mp hbelow).1 (hid ▸ he ▸ mem_map_of_mem hu)
  · intro u hu he
    exact habove _ (mem_map_of_mem hu) v.id mem_cons_self (he.trans hid.symm)

/-- A version whose transaction writes to a row has no version above it with that row. -/
lemma no_row_above (ho : Ordered (ws ++ [w])) {above below : List (RowVersion V)}
    (hsplit : versions cap (w.row / cap) ws = above ++ v :: below) (hid : v.id = w.id)
    {u : RowVersion V} (hu : u ∈ above) : findRow u.rows (w.row % cap) = none := by
  rw [← Option.not_isSome_iff_eq_none]
  intro hsome
  have hmem : u ∈ versions cap (w.row / cap) ws := hsplit ▸ mem_append_left _ hu
  have hvmem : v ∈ versions cap (w.row / cap) ws := hsplit ▸ by simp
  obtain ⟨⟨wu, hwu, huid, -, huc⟩, hrows⟩ := mem_versions ho.init hmem
  obtain ⟨wr, hwr, hrid, hdiv, hmod⟩ := hrows _ hsome
  obtain ⟨⟨wv, hwv, hvid, hvs, -⟩, -⟩ := mem_versions ho.init hvmem
  have hrow : wr.row = w.row := by
    rw [← Nat.div_add_mod wr.row cap, hdiv, hmod, Nat.div_add_mod]
  have hne : u.id ≠ v.id := by
    have hnodup := versions_nodup cap (w.row / cap) ws
    rw [hsplit, map_append, nodup_append] at hnodup
    exact hnodup.2.2 _ (mem_map_of_mem hu) _ (by simp)
  obtain ⟨c, hc, hle⟩ := ho.separate_last hwr hrow (by omega)
  have hpair := versions_pairwise cap (w.row / cap) ho.init
  rw [hsplit, pairwise_append] at hpair
  have huc' : u.commitTS = some c := by
    rw [← huc, (ho.init.same wu hwu wr hwr (huid.trans hrid.symm)).2, hc]
  have hlt := hpair.2.2 u hu v (by simp) c huc'
  have hstart := (ho.same wv (mem_append_left _ hwv) w (by simp) (by omega)).1
  omega

lemma readableBy_toInfo (hid : v.id = w.id) (hc : v.commitTS = w.commitTS) (T : Transaction) :
    v.toInfo.readableBy T = w.readableBy T := by
  unfold readableBy Write.readableBy Write.word RowVersion.toInfo
  rw [hid, hc]

/-- **Reading the chain** finds the last readable write. -/
lemma readChain_versions (ho : Ordered ws) (T : Transaction) (row : ℕ) :
    readChain T ((versions cap (row / cap) ws).map RowVersion.toInfo) (row % cap) =
      (lastReadable T row ws).map Write.value := by
  induction ws using reverseRecOn with
  | nil => rfl
  | append_singleton ws w ih =>
    have ih := ih ho.init
    rw [versions_concat, lastReadable_concat]
    by_cases hvec : w.row / cap = row / cap
    swap
    -- a write to another vector
    · have hrow : w.row ≠ row := fun h => hvec (by rw [h])
      rw [if_neg hvec, if_neg fun h => hrow h.1, ih]
    rw [if_pos hvec, apply_ite (Option.map Write.value), Option.map_some]
    have hrow : w.row % cap = row % cap ↔ w.row = row := by
      refine ⟨fun h => ?_, fun h => by rw [h]⟩
      rw [← Nat.div_add_mod w.row cap, hvec, h, Nat.div_add_mod]
    by_cases hmem : w.id ∈ (versions cap (row / cap) ws).map RowVersion.id
    · -- the transaction has a version of the vector
      obtain ⟨above, v, below, hsplit, hid, hins⟩ :=
        insertWrite_split cap (versions_nodup cap (row / cap) ws) hmem
      have hvmem : v ∈ versions cap (row / cap) ws := hsplit ▸ by simp
      obtain ⟨⟨wv, hwv, hvid, -, hvc⟩, -⟩ := mem_versions ho.init hvmem
      have hread := readableBy_toInfo hid (hvc.symm.trans
        (ho.same wv (mem_append_left _ hwv) w (by simp) (by omega)).2) T
      rw [hins, ← ih, hsplit]
      simp only [map_append, map_cons, readChain_append, readChain_cons]
      have hread' : ({ v with rows := writeRow (w.row % cap) w.value v.rows } :
          RowVersion V).toInfo.readableBy T = w.readableBy T := hread
      rw [hread, hread']
      simp only [lookup_eq, RowVersion.toInfo, findRow_writeRow]
      by_cases hr : w.row = row
      · cases hv : w.readableBy T
        · simp
        -- no newer version has the row
        · have habove : readChain T (above.map RowVersion.toInfo) (row % cap) = none := by
            rw [readChain, findSome?_eq_none_iff]
            intro info hinfo
            obtain ⟨u, hu, rfl⟩ := mem_map.mp (mem_of_mem_filter hinfo)
            subst hr
            exact no_row_above ho hsplit hid hu
          simp [hr, habove]
      · simp [hr, hrow]
    · -- it gets one, above all others
      rw [insertWrite, if_neg hmem, map_cons, readChain_cons, ih,
        readableBy_toInfo (w := w) rfl rfl T]
      simp only [lookup_eq, RowVersion.toInfo, findRow_cons, findRow_nil]
      by_cases hr : w.row = row
      · cases hv : w.readableBy T <;> simp [hr]
      · simp [hr, hrow]

/-! ### Commit and rollback -/

/-- A write after the transaction `id` has committed at `ts`. -/
def Write.commitBy (id ts : ℕ) (w : Write V) : Write V :=
  if w.id = id then { w with commitTS := some ts } else w

section

variable (id ts : ℕ)

@[simp] lemma Write.commitBy_id (w : Write V) : (w.commitBy id ts).id = w.id := by
  unfold commitBy; split_ifs <;> rfl

@[simp] lemma Write.commitBy_startTS (w : Write V) : (w.commitBy id ts).startTS = w.startTS := by
  unfold commitBy; split_ifs <;> rfl

@[simp] lemma Write.commitBy_row (w : Write V) : (w.commitBy id ts).row = w.row := by
  unfold commitBy; split_ifs <;> rfl

lemma Write.commitBy_commitTS (w : Write V) :
    (w.commitBy id ts).commitTS = if w.id = id then some ts else w.commitTS := by
  unfold commitBy; split_ifs <;> rfl

/-- A version after the transaction `id` has committed at `ts`. -/
def RowVersion.commitBy (id ts : ℕ) (v : RowVersion V) : RowVersion V :=
  if v.id = id then { v with commitTS := some ts } else v

@[simp] lemma RowVersion.commitBy_id (v : RowVersion V) : (v.commitBy id ts).id = v.id := by
  unfold commitBy; split_ifs <;> rfl

end

lemma RowVersion.write_commitBy (cap id ts : ℕ) (w : Write V) (v : RowVersion V) :
    (v.commitBy id ts).write cap (w.commitBy id ts) = (v.write cap w).commitBy id ts := by
  by_cases hv : v.id = id <;> by_cases hw : w.id = id <;> by_cases hvw : v.id = w.id <;>
    simp_all [RowVersion.commitBy, Write.commitBy, RowVersion.write]

lemma insertWrite_commitBy (cap id ts : ℕ) (c : List (RowVersion V)) (w : Write V) :
    insertWrite cap (c.map (RowVersion.commitBy id ts)) (w.commitBy id ts) =
      (insertWrite cap c w).map (RowVersion.commitBy id ts) := by
  have hids : (c.map (RowVersion.commitBy id ts)).map RowVersion.id = c.map RowVersion.id := by
    rw [map_map]
    exact map_congr_left fun v _ => RowVersion.commitBy_id id ts v
  unfold insertWrite
  rw [hids, Write.commitBy_id]
  split_ifs
  · rw [map_map, map_map]
    exact map_congr_left fun v _ => RowVersion.write_commitBy cap id ts w v
  · rw [map_cons]
    by_cases hw : w.id = id <;> simp [RowVersion.commitBy, Write.commitBy, hw]

/-- Stamping the writes stamps the versions. -/
lemma versions_commit (cap vectorIdx id ts : ℕ) (ws : List (Write V)) :
    versions cap vectorIdx (ws.map (Write.commitBy id ts)) =
      (versions cap vectorIdx ws).map (RowVersion.commitBy id ts) := by
  induction ws using reverseRecOn with
  | nil => rfl
  | append_singleton ws w ih =>
    rw [map_append, map_singleton, versions_concat, versions_concat, ih,
      insertWrite_commitBy, Write.commitBy_row]
    split_ifs <;> rfl

lemma filter_insertWrite (cap id : ℕ) (c : List (RowVersion V)) (w : Write V) :
    (insertWrite cap c w).filter (fun v => v.id != id) =
      if w.id = id then c.filter (fun v => v.id != id)
      else insertWrite cap (c.filter fun v => v.id != id) w := by
  have hfilter : (c.map (RowVersion.write cap w)).filter (fun v => v.id != id) =
      (c.filter fun v => v.id != id).map (RowVersion.write cap w) := by
    rw [filter_map]
    congr 1
    exact filter_congr fun v _ => by simp
  have hmem : w.id ≠ id →
      (w.id ∈ (c.filter fun v => v.id != id).map RowVersion.id ↔ w.id ∈ c.map RowVersion.id) := by
    intro hne
    simp only [mem_map, mem_filter, bne_iff_ne]
    constructor
    · rintro ⟨v, ⟨hv, -⟩, hid⟩
      exact ⟨v, hv, hid⟩
    · rintro ⟨v, hv, hid⟩
      exact ⟨v, ⟨hv, by omega⟩, hid⟩
  unfold insertWrite
  by_cases hid : w.id = id
  · rw [if_pos hid]
    split_ifs
    · rw [hfilter]
      -- the versions that stay are not the transaction's
      refine (map_congr_left fun v hv => ?_).trans (map_id _)
      have hv := (mem_filter.mp hv).2
      rw [RowVersion.write, if_neg (by simpa [hid] using hv)]
      rfl
    · rw [filter_cons_of_neg (by simpa using hid)]
  · rw [if_neg hid]
    simp only [hmem hid]
    split_ifs
    · exact hfilter
    · rw [filter_cons_of_pos (by simpa using hid)]

/-- Dropping a transaction's writes drops its versions. -/
lemma versions_rollback (cap vectorIdx id : ℕ) (ws : List (Write V)) :
    versions cap vectorIdx (ws.filter fun w => w.id != id) =
      (versions cap vectorIdx ws).filter fun v => v.id != id := by
  induction ws using reverseRecOn with
  | nil => rfl
  | append_singleton ws w ih =>
    rw [filter_append, filter_singleton, versions_concat]
    by_cases hid : w.id = id
    · have hf : (w.id != id) = false := by simpa using hid
      rw [hf, Bool.cond_false, append_nil, ih]
      split_ifs
      · rw [filter_insertWrite, if_pos hid]
      · rfl
    · have hf : (w.id != id) = true := by simpa using hid
      rw [hf, Bool.cond_true, versions_concat, ih]
      split_ifs
      · rw [filter_insertWrite, if_neg hid]
      · rfl

/-! ### The invariants along a run -/

structure WriteLog.Ok (h : WriteLog V) : Prop where
  ordered : Ordered h.writes
  running : ∀ w ∈ h.writes, w.commitTS = none →
    ∃ T ∈ h.mgr.activeTransactions, T.id = w.id ∧ T.startTS = w.startTS
  committed : ∀ w ∈ h.writes, ∀ c, w.commitTS = some c →
    c ≤ h.mgr.lastTimestamp ∧ w.id ≤ h.mgr.lastTransactionID ∧ h.mgr.isActive w.id = false

namespace WriteLog

lemma ok_init : (init : WriteLog V).Ok where
  ordered := ⟨by simp [init], by simp [init], by simp [init], .nil, .nil⟩
  running := by simp [init]
  committed := by simp [init]

/-- The writes of a running transaction are not committed, and carry its start timestamp. -/
lemma Ok.own (ho : h.Ok) (hT : T ∈ h.mgr.activeTransactions)
    (hw : w ∈ h.writes) (hid : w.id = T.id) : w.commitTS = none ∧ w.startTS = T.startTS := by
  cases hc : w.commitTS with
  | none =>
    obtain ⟨T', hT', hid', hs⟩ := ho.running w hw hc
    have hTT : T' = T :=
      List.inj_on_of_nodup_map (TransactionManager.active_nodup _) hT' hT (hid'.trans hid)
    exact ⟨rfl, by rw [← hs, hTT]⟩
  | some c =>
    have hinactive := (ho.committed w hw c hc).2.2
    have hactive : h.mgr.isActive w.id = true := isActive_iff.mpr ⟨T, hT, hid.symm⟩
    simp [hinactive] at hactive

/-- Writers began no later than now. -/
lemma Ok.startTS_le (ho : h.Ok) (hw : w ∈ h.writes) :
    w.startTS ≤ h.mgr.lastTimestamp ∧ w.id ≤ h.mgr.lastTransactionID := by
  cases hc : w.commitTS with
  | none =>
    obtain ⟨T, hT, hid, hs⟩ := ho.running w hw hc
    obtain ⟨-, h2, h3⟩ := h.mgr.active_le T hT
    exact ⟨by omega, by omega⟩
  | some c =>
    have h1 := (ho.ordered.committed_lt w hw c hc).1
    obtain ⟨h2, h3, -⟩ := ho.committed w hw c hc
    exact ⟨by omega, h3⟩

variable {mgr : TransactionManager}

lemma Ok.begin (ho : h.Ok) (hb : h.mgr.beginTransaction = some mgr) :
    WriteLog.Ok { h with mgr := mgr } := by
  obtain ⟨T, hact, hid, hlast, hts⟩ := begin_fields hb
  refine ⟨ho.ordered, fun w hw hc => ?_, fun w hw c hc => ?_⟩
  · obtain ⟨T', hT', hattr⟩ := ho.running w hw hc
    exact ⟨T', by simp only [hact]; exact mem_append_left _ hT', hattr⟩
  · obtain ⟨h1, h2, h3⟩ := ho.committed w hw c hc
    refine ⟨by simp only; omega, by simp only; omega, ?_⟩
    have hne : T.id ≠ w.id := by omega
    simp only [isActive, hact, any_append] at h3 ⊢
    simp [h3, hne]

variable {id : ℕ}

lemma Ok.update (ho : h.Ok) (hT : T ∈ h.mgr.activeTransactions) {row : ℕ}
    (value : V) (hconf : h.conflict T row = false) :
    WriteLog.Ok { h with writes := h.writes ++ [⟨T.id, T.startTS, row, value, none⟩] } := by
  have hactive := h.mgr.active_le T hT
  have hold := ho.ordered
  refine ⟨⟨fun w hw hc => ?_, fun w hw c hc => ?_, fun w hw w' hw' hid => ?_, ?_, ?_⟩,
    fun w hw hc => ?_, fun w hw c hc => ?_⟩
  · rcases mem_append.mp hw with hw | hw
    · exact hold.running_id w hw hc
    · obtain rfl := mem_singleton.mp hw
      exact hactive.1
  · rcases mem_append.mp hw with hw | hw
    · exact hold.committed_lt w hw c hc
    · obtain rfl := mem_singleton.mp hw
      simp at hc
  · rcases mem_append.mp hw with hw | hw <;> rcases mem_append.mp hw' with hw' | hw'
    · exact hold.same w hw w' hw' hid
    · obtain rfl := mem_singleton.mp hw'
      exact (ho.own hT hw hid).symm
    · obtain rfl := mem_singleton.mp hw
      obtain ⟨hc, hs⟩ := ho.own hT hw' hid.symm
      exact ⟨hs.symm, hc.symm⟩
    · obtain rfl := mem_singleton.mp hw
      obtain rfl := mem_singleton.mp hw'
      exact ⟨rfl, rfl⟩
  · refine pairwise_append.mpr ⟨hold.order, pairwise_singleton _ _, ?_⟩
    intro a _ b hb c hc
    obtain rfl := mem_singleton.mp hb
    simp at hc
  · refine pairwise_append.mpr ⟨hold.separate, pairwise_singleton _ _, ?_⟩
    intro a ha b hb hrow hid
    obtain rfl := mem_singleton.mp hb
    -- without a conflict the earlier writer committed before `T` began
    have hno := any_eq_false.mp hconf a ha
    cases hc : a.commitTS with
    | none => simp_all [Write.conflictsWith]
    | some c => exact ⟨c, rfl, by simp_all [Write.conflictsWith]⟩
  · rcases mem_append.mp hw with hw | hw
    · exact ho.running w hw hc
    · obtain rfl := mem_singleton.mp hw
      exact ⟨T, hT, rfl, rfl⟩
  · rcases mem_append.mp hw with hw | hw
    · exact ho.committed w hw c hc
    · obtain rfl := mem_singleton.mp hw
      simp at hc

lemma Ok.commit (ho : h.Ok) {ts : ℕ} (hcommit : h.mgr.commit id = some (ts, mgr)) :
    WriteLog.Ok ⟨mgr, h.writes.map (Write.commitBy id ts)⟩ := by
  obtain ⟨⟨hactive, hlist, -, hlastID⟩, hts, htslt, hlast⟩ := commit_some hcommit
  have hact' := (commit_some hcommit).1.isActive_eq
  have hold := ho.ordered
  -- the transaction has no committed write yet
  have hnone : ∀ w ∈ h.writes, ∀ c, w.commitTS = some c → w.id ≠ id := by
    rintro w hw c hc rfl
    have := (ho.committed w hw c hc).2.2
    simp [hactive] at this
  have hstart : ∀ w ∈ h.writes, w.startTS < ts := fun w hw => by
    have := (ho.startTS_le hw).1
    omega
  refine ⟨⟨?_, ?_, ?_, ?_, ?_⟩, ?_, ?_⟩
  · simp only [forall_mem_map, Write.commitBy_commitTS, Write.commitBy_id]
    intro w hw hc
    split_ifs at hc
    exact hold.running_id w hw hc
  · simp only [forall_mem_map, Write.commitBy_commitTS, Write.commitBy_startTS]
    intro w hw c hc
    split_ifs at hc with hid
    · obtain rfl := Option.some.inj hc
      exact ⟨hstart w hw, htslt⟩
    · exact hold.committed_lt w hw c hc
  · simp only [forall_mem_map, Write.commitBy_commitTS, Write.commitBy_startTS, Write.commitBy_id]
    intro w hw w' hw' hid
    obtain ⟨hs, hc⟩ := hold.same w hw w' hw' hid
    exact ⟨hs, by rw [hc, hid]⟩
  · refine pairwise_map.mpr (hold.order.imp_of_mem fun {a b} ha hb hab c hc => ?_)
    rw [Write.commitBy_commitTS] at hc
    rw [Write.commitBy_startTS]
    split_ifs at hc
    · obtain rfl := Option.some.inj hc
      exact hstart a ha
    · exact hab c hc
  · refine pairwise_map.mpr (hold.separate.imp_of_mem fun {a b} ha hb hab hrow hid => ?_)
    simp only [Write.commitBy_row, Write.commitBy_id] at hrow hid
    obtain ⟨c, hc, hle⟩ := hab hrow hid
    refine ⟨c, ?_, by rwa [Write.commitBy_startTS]⟩
    rw [Write.commitBy_commitTS, if_neg (hnone a ha c hc), hc]
  · simp only [forall_mem_map, Write.commitBy_commitTS, Write.commitBy_startTS, Write.commitBy_id]
    intro w hw hc
    split_ifs at hc with hid
    obtain ⟨T, hT, hTid, hTs⟩ := ho.running w hw hc
    refine ⟨T, ?_, hTid, hTs⟩
    rw [hlist, mem_filter]
    exact ⟨hT, by simpa [hTid] using hid⟩
  · simp only [forall_mem_map, Write.commitBy_commitTS, Write.commitBy_id]
    intro w hw c hc
    rw [hlast, hlastID, hact']
    split_ifs at hc with hid
    · obtain rfl := Option.some.inj hc
      exact ⟨Nat.le_refl _, (ho.startTS_le hw).2, by simp [hid]⟩
    · obtain ⟨h1, h2, h3⟩ := ho.committed w hw c hc
      exact ⟨by omega, h2, by simp [h3]⟩

lemma Ok.rollback (ho : h.Ok) (hleft : h.mgr.Left mgr id) : (h.rolledBack id mgr).Ok := by
  refine ⟨ho.ordered.sublist filter_sublist, fun w hw hc => ?_, fun w hw c hc => ?_⟩
  · obtain ⟨hw, hid⟩ := mem_filter.mp hw
    obtain ⟨T, hT, hTid, hTs⟩ := ho.running w hw hc
    exact ⟨T, hleft.active ▸ mem_filter.mpr ⟨hT, hTid ▸ hid⟩, hTid, hTs⟩
  · obtain ⟨h1, h2, h3⟩ := ho.committed w (mem_of_mem_filter hw) c hc
    exact ⟨h1.trans hleft.timestamp_le, h2.trans hleft.transactionID.ge,
      (hleft.isActive_eq _).trans (by rw [h3, Bool.false_and])⟩

end WriteLog

/-! ### Conflicts -/

/-- A version has the rows it can be read at. -/
lemma hasRow_eq (info : VectorUpdateInfo V) (i : ℕ) :
    info.hasRow i = (findRow info.rows i).isSome := by
  unfold VectorUpdateInfo.hasRow findRow
  rw [Option.isSome_map, Bool.eq_iff_iff, find?_isSome, any_eq_true]

/-- A running transaction meets a conflict exactly where the chain of the vector holds the row in a
version that is not its own and not committed when it started. -/
lemma WriteLog.conflict_iff (ho : h.Ok) (cap : ℕ) (hT : T ∈ h.mgr.activeTransactions) (row : ℕ) :
    h.conflict T row = true ↔
      ∃ info ∈ (versions cap (row / cap) h.writes).map RowVersion.toInfo,
        info.version ≠ T.id ∧ T.startTS < info.version ∧ info.hasRow (row % cap) = true := by
  have hTid := (h.mgr.active_le T hT).1
  have hTs := T.startTS_lt
  simp only [mem_map, exists_exists_and_eq_and, hasRow_eq]
  constructor
  -- a conflicting write is in a version that is too new
  · intro hconf
    obtain ⟨w, hw, hcw⟩ := any_eq_true.mp hconf
    simp only [Write.conflictsWith, Bool.and_eq_true, beq_iff_eq, bne_iff_ne] at hcw
    obtain ⟨⟨rfl, hid⟩, hall⟩ := hcw
    obtain ⟨v, hv, hvid, hrow⟩ := exists_version cap hw
    obtain ⟨⟨w', hw', hid', -, hc'⟩, -⟩ := mem_versions ho.ordered hv
    have hc := (ho.ordered.same w hw w' hw' (by omega)).2
    refine ⟨v, hv, ?_, ?_, hrow⟩ <;> simp only [RowVersion.toInfo, ← hc', ← hc, hvid]
    · cases hcc : w.commitTS with
      | none => simpa using hid
      | some c =>
        have := (ho.ordered.committed_lt w hw c hcc).2
        rw [Option.getD_some]
        omega
    · cases hcc : w.commitTS with
      | none =>
        have := ho.ordered.running_id w hw hcc
        rw [Option.getD_none]
        omega
      | some c => simpa [hcc] using hall
  -- a version that is too new has a conflicting write
  · rintro ⟨v, hv, hne, hlt, hrow⟩
    obtain ⟨⟨w', hw', hid', -, hc'⟩, hrows⟩ := mem_versions ho.ordered hv
    obtain ⟨w, hw, hwid, hdiv, hmod⟩ := hrows _ hrow
    have hc := (ho.ordered.same w hw w' hw' (by omega)).2
    simp only [RowVersion.toInfo, ← hc', ← hc, ← hwid] at hne hlt
    refine any_eq_true.mpr ⟨w, hw, ?_⟩
    have hwrow : w.row = row := by
      rw [← Nat.div_add_mod w.row cap, hdiv, hmod, Nat.div_add_mod]
    simp only [Write.conflictsWith, Bool.and_eq_true, beq_iff_eq, bne_iff_ne]
    refine ⟨⟨hwrow, fun hid => ?_⟩, ?_⟩
    · rw [(ho.own hT hw hid).1] at hne
      exact hne hid
    · cases hcc : w.commitTS with
      | none => rfl
      | some c => simpa [hcc] using hlt

end Ladybug
