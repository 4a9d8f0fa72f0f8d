import Ladybug.Catalog.CatalogStore
import Ladybug.Storage.Equiv.VersionHistory

/-!
# Correctness of the versions of a catalog entry

A chain of catalog entries stands for the versions of one name (`ChainRelated`). As long as no
transaction puts a version on top of one that it does not see, the versions of at most one running
transaction are on top of the committed ones, and its undo records point at the entries below them.

* `commit_chain`, `rollback_chain`: replaying the records of one transaction, the latter also after
  some of its entries have got a timestamp.
-/

namespace Ladybug

open Mvcc List Function CatalogSet
open CatalogEntry (ptr)

variable {E : Type}

namespace CatalogSet

/-! ### The records of one transaction -/

lemma unlinkNext_head (a b : CatalogEntry E) (rest : List (CatalogEntry E)) :
    unlinkNext b.ptr (a :: b :: rest) = some (b :: rest) := by
  rw [unlinkNext, if_pos rfl]

/-- The records of a transaction, newest first, unlink its entries. -/
lemma rollback_chain (own : List (CatalogEntry E)) (b : CatalogEntry E)
    (rest : List (CatalogEntry E)) :
    (own.map ptr ++ [b.ptr]).tail.foldlM (fun c p => unlinkNext p c)
      (own ++ b :: rest) = some (b :: rest) := by
  induction own with
  | nil => rfl
  | cons a own ih =>
    cases own with
    | nil =>
      simp only [map_cons, map_nil, cons_append, nil_append, tail_cons,
        foldlM_cons, unlinkNext_head]
      rfl
    | cons a' own =>
      simp only [map_cons, cons_append, tail_cons, foldlM_cons, unlinkNext_head] at ih ⊢
      exact ih

lemma setNextTimestamp_append (ts : ℕ) (newer : List (CatalogEntry E)) (e b : CatalogEntry E)
    (rest : List (CatalogEntry E)) (hnodup : ((newer ++ e :: b :: rest).map ptr).Nodup) :
    setNextTimestamp b.ptr ts (newer ++ e :: b :: rest) =
      some (newer ++ { e with timestamp := ts } :: b :: rest) := by
  induction newer with
  | nil => rw [nil_append, setNextTimestamp, if_pos rfl, nil_append]
  | cons a newer ih =>
    have hne : ∀ x ∈ newer ++ [e], x.ptr ≠ b.ptr := by
      intro x hx heq
      rw [cons_append, map_cons, nodup_cons] at hnodup
      have hsplit : newer ++ e :: b :: rest = (newer ++ [e]) ++ b :: rest := by simp
      rw [hsplit, map_append, nodup_append] at hnodup
      exact hnodup.2.2.2 x.ptr (mem_map_of_mem hx) b.ptr (by simp) heq
    have ih := ih (List.Nodup.of_cons hnodup)
    cases newer with
    | nil =>
      rw [nil_append] at ih
      rw [singleton_append, setNextTimestamp, if_neg (hne e (by simp)), ih]
      rfl
    | cons a' newer =>
      rw [cons_append] at ih
      rw [cons_append, cons_append, setNextTimestamp, if_neg (hne a' (by simp)), ih]
      rfl

/-- The entry after it has been committed. -/
def stampEntry (ts : ℕ) (e : CatalogEntry E) : CatalogEntry E := { e with timestamp := ts }

@[simp] lemma stampEntry_ptr (ts : ℕ) (e : CatalogEntry E) : (stampEntry ts e).ptr = e.ptr := rfl

/-- The first records of a transaction, oldest first, put a timestamp on some of its entries; all
records put it on all of them. -/
lemma commit_chain (ts : ℕ) (own : List (CatalogEntry E)) (b : CatalogEntry E)
    (rest : List (CatalogEntry E)) (j : ℕ) (hnodup : ((own ++ b :: rest).map ptr).Nodup) :
    ∃ own', ((own.map ptr ++ [b.ptr]).tail.reverse.take j).foldlM
        (fun c p => setNextTimestamp p ts c) (own ++ b :: rest) = some (own' ++ b :: rest) ∧
      own'.map ptr = own.map ptr ∧
      (own.length ≤ j → own' = own.map (stampEntry ts)) := by
  -- the oldest entry of the transaction is the last of `own`, and its record comes first
  induction own using List.reverseRecOn generalizing b rest j with
  | nil => exact ⟨[], by simp, rfl, fun _ => rfl⟩
  | append_singleton own e ih =>
    have hrecs : ((own ++ [e]).map ptr ++ [b.ptr]).tail.reverse =
        b.ptr :: (own.map ptr ++ [e.ptr]).tail.reverse := by
      rw [map_append, map_singleton, tail_append_of_ne_nil (by simp), reverse_append]
      rfl
    cases j with
    | zero => exact ⟨own ++ [e], by simp, rfl, by simp⟩
    | succ j =>
      have happ : own ++ [e] ++ b :: rest = own ++ e :: b :: rest := by simp
      rw [happ] at hnodup
      obtain ⟨own', hrun, hptr, hall⟩ := ih (stampEntry ts e) (b :: rest) j (by simpa using hnodup)
      refine ⟨own' ++ [stampEntry ts e], ?_, ?_, fun hle => ?_⟩
      · rw [hrecs, take_succ_cons, happ]
        refine Fold.foldlM_cons_some.mpr ⟨_, setNextTimestamp_append ts own e b rest hnodup, ?_⟩
        rw [append_assoc, singleton_append]
        exact hrun
      · rw [map_append, map_append, hptr]
        rfl
      · rw [hall (by simpa using hle), map_append]
        rfl

end CatalogSet

/-! ### What a chain stands for -/

structure Stands (v : EntryVersion E) (e : CatalogEntry E) : Prop where
  oid : e.oid = v.oid
  timestamp : e.timestamp = versionOf (some v.stamp)
  content : e.content = v.content

/-- The versions of at most one running transaction are on top of the committed ones, the last of
which everybody sees; the records of the transaction point below its versions. -/
structure Stacked (active : ℕ → Bool) (id : ℕ) (own old : List (EntryVersion E)) (ptrs : List ℕ)
    (records : ℕ → List ℕ) : Prop where
  own_stamp : ∀ v ∈ own, v.stamp = .active id
  old_stamp : ∀ v ∈ old, ∃ ts < startTransactionID, v.stamp = .committed ts
  bottom : ∃ v ∈ old, v.stamp = .committed 0
  running : own ≠ [] → active id = true
  own_records : records id = (ptrs.tail.take own.length).reverse
  other_records : ∀ id', id' ≠ id → records id' = []

/-- A chain of entries, with the records that are about it, stands for versions. -/
structure ChainRelated (active : ℕ → Bool) (nextPtr : ℕ) (vs : List (EntryVersion E))
    (c : List (CatalogEntry E)) (records : ℕ → List ℕ) : Prop where
  stands : List.Forall₂ Stands vs c
  ptr_nodup : (c.map ptr).Nodup
  ptr_lt : ∀ e ∈ c, e.ptr < nextPtr
  stacked : (vs = [] ∧ ∀ id, records id = []) ∨
    ∃ id own old, vs = own ++ old ∧ Stacked active id own old (c.map ptr) records

lemma forall₂_append_left {α β : Type} {R : α → β → Prop} {l1 l2 : List α} {l : List β}
    (h : List.Forall₂ R (l1 ++ l2) l) :
    ∃ m1 m2, l = m1 ++ m2 ∧ List.Forall₂ R l1 m1 ∧ List.Forall₂ R l2 m2 :=
  ⟨_, _, (take_append_drop l1.length l).symm, (forall₂_take_append _ _ _ h.flip).flip,
    (forall₂_drop_append _ _ _ h.flip).flip⟩

namespace Stacked

variable {active : ℕ → Bool} {id : ℕ} {records : ℕ → List ℕ} {own old : List (EntryVersion E)}

lemma split {c : List (CatalogEntry E)} (hs : Stacked active id own old (c.map ptr) records)
    (hstands : List.Forall₂ Stands (own ++ old) c) :
    ∃ cown b rest, c = cown ++ b :: rest ∧ List.Forall₂ Stands own cown ∧
      List.Forall₂ Stands old (b :: rest) ∧
      records id = (cown.map ptr ++ [b.ptr]).tail.reverse := by
  obtain ⟨cown, cold, rfl, h1, h2⟩ := forall₂_append_left hstands
  obtain ⟨v, hv, -⟩ := hs.bottom
  cases cold with
  | nil =>
    rw [List.forall₂_nil_right_iff] at h2
    simp [h2] at hv
  | cons b rest =>
    refine ⟨cown, b, rest, rfl, h1, h2, ?_⟩
    rw [hs.own_records, h1.length_eq]
    congr 1
    cases cown with
    | nil => rfl
    | cons a cown =>
      simp only [map_append, map_cons, cons_append, tail_cons, length_cons]
      have hlen : cown.length + 1 = (cown.map ptr ++ [b.ptr]).length := by simp
      have happ : cown.map ptr ++ b.ptr :: rest.map ptr =
          (cown.map ptr ++ [b.ptr]) ++ rest.map ptr := by simp
      rw [happ, hlen, take_left]

/-- Without the versions of the transaction, the committed ones are left. -/
lemma filter_eq {ptrs : List ℕ} (hs : Stacked active id own old ptrs records) :
    (own ++ old).filter (fun v => v.stamp != .active id) = old := by
  rw [filter_append, filter_eq_nil_iff.mpr fun v hv => by simp [hs.own_stamp v hv],
    filter_eq_self.mpr, nil_append]
  intro v hv
  obtain ⟨ts, -, hst⟩ := hs.old_stamp v hv
  simp [hst]

/-- Once the versions of the transaction on top are gone or committed, nobody has a record. -/
lemma settled {active' : ℕ → Bool} {all : List (EntryVersion E)} {ptrs ptrs' : List ℕ}
    (hs : Stacked active id own old ptrs records)
    (hstamp : ∀ v ∈ all, ∃ ts < startTransactionID, v.stamp = .committed ts)
    (hbottom : ∃ v ∈ all, v.stamp = .committed 0) :
    Stacked active' id [] all ptrs' (update records id []) where
  own_stamp := by simp
  old_stamp := hstamp
  bottom := hbottom
  running := by simp
  own_records := by simp
  other_records t ht := by rw [update_of_ne ht, hs.other_records t ht]

end Stacked

namespace ChainRelated

variable {active : ℕ → Bool} {nextPtr : ℕ} {vs : List (EntryVersion E)}
  {c : List (CatalogEntry E)} {records : ℕ → List ℕ} {v : EntryVersion E}

lemma stampOk (h : ChainRelated active nextPtr vs c records)
    (hactive : ∀ id, active id = true → StampOk (some (.active id)))
    (hv : v ∈ vs) : StampOk (some v.stamp) := by
  rcases h.stacked with ⟨rfl, -⟩ | ⟨id, own, old, rfl, hs⟩
  · simp at hv
  · rcases mem_append.mp hv with hv | hv
    · rw [hs.own_stamp v hv]
      exact hactive id (hs.running (ne_nil_of_mem hv))
    · obtain ⟨ts, hts, hv⟩ := hs.old_stamp v hv
      rw [hv]
      exact hts

/-! ### Reading -/

lemma readableBy_eq {e : CatalogEntry E} (hs : Stands v e)
    (hok : StampOk (some v.stamp)) (T : Transaction) :
    e.readableBy T = v.stamp.visibleTo T.id T.startTS := by
  have hcheck := check_versionOf T hok
  rw [visible_some, ← hs.timestamp] at hcheck
  rw [← hcheck, CatalogEntry.readableBy]
  rfl

/-- The traversal finds the entry of the newest version that the transaction sees. -/
lemma find?_stands (hstands : List.Forall₂ Stands vs c)
    (hok : ∀ v ∈ vs, StampOk (some v.stamp)) (T : Transaction) :
    (vs.find? (fun v => v.stamp.visibleTo T.id T.startTS) = none ∧
        traverseVersionChains T c = none) ∨
      ∃ v e, vs.find? (fun v => v.stamp.visibleTo T.id T.startTS) = some v ∧
        traverseVersionChains T c = some e ∧ Stands v e := by
  unfold traverseVersionChains
  induction hstands with
  | nil => exact .inl ⟨rfl, rfl⟩
  | @cons v e vs c hve _ ih =>
    have hread := readableBy_eq hve (hok v (by simp)) T
    by_cases hvis : v.stamp.visibleTo T.id T.startTS = true
    · simp only [find?_cons, hread, hvis]
      exact .inr ⟨v, e, rfl, rfl, hve⟩
    · rw [Bool.not_eq_true] at hvis
      simp only [find?_cons, hread, hvis]
      exact ih fun v hv => hok v (by simp [hv])

/-! ### New versions -/

/-- The chain of a name that has none starts with a deleted version. -/
lemma start (oid : ℕ) (h : ChainRelated active nextPtr vs c records) (hvs : vs = []) :
    ChainRelated active (nextPtr + 1) ([⟨oid, .committed 0, 0, none⟩] : List (EntryVersion E))
      [⟨nextPtr, oid, 0, none⟩] records := by
  have hrecords : ∀ id, records id = [] := by
    rcases h.stacked with ⟨-, hr⟩ | ⟨id, own, old, hsplit, hs⟩
    · exact hr
    · obtain ⟨v, hv, -⟩ := hs.bottom
      rw [hvs] at hsplit
      rw [(append_eq_nil_iff.mp hsplit.symm).2] at hv
      simp at hv
  refine ⟨.cons ⟨rfl, rfl, rfl⟩ .nil, by simp, by simp, .inr ⟨0, [], _, rfl, ?_⟩⟩
  exact ⟨by simp, by simpa using startTransactionID_pos, ⟨_, mem_singleton_self _, rfl⟩,
    by simp, by simp [hrecords], fun id _ => hrecords id⟩

/-- A running transaction puts a version on top of one that it sees. -/
lemma push (h : ChainRelated active nextPtr vs c records) {T : Transaction}
    (hT : active T.id = true) {v0 : EntryVersion E} (hv₀ : vs.head? = some v0)
    (hvis : v0.stamp.visibleTo T.id T.startTS = true) {e0 : CatalogEntry E}
    (he0 : c.head? = some e0) (oid : ℕ) (content : Option E) :
    ChainRelated active (nextPtr + 1) (⟨oid, .active T.id, T.startTS, content⟩ :: vs)
      (⟨nextPtr, oid, T.id, content⟩ :: c)
      (update records T.id (records T.id ++ [e0.ptr])) := by
  obtain ⟨c', rfl⟩ : ∃ c', c = e0 :: c' := ⟨c.tail, (cons_head?_tail he0).symm⟩
  obtain ⟨vs', rfl⟩ : ∃ vs', vs = v0 :: vs' := ⟨vs.tail, (cons_head?_tail hv₀).symm⟩
  obtain ⟨id, own, old, hsplit, hs⟩ := h.stacked.resolve_left (by simp)
  refine ⟨.cons ⟨rfl, rfl, rfl⟩ h.stands, ?_, ?_, .inr ?_⟩
  · rw [map_cons, nodup_cons]
    refine ⟨fun hmem => ?_, h.ptr_nodup⟩
    obtain ⟨e, he, hptr⟩ := mem_map.mp hmem
    have := h.ptr_lt e he
    simp only at hptr
    omega
  · intro e he
    rcases mem_cons.mp he with rfl | he
    · exact Nat.lt_succ_self _
    · exact Nat.lt_succ_of_lt (h.ptr_lt e he)
  · cases own with
    | nil =>
      -- all versions are committed, and nobody has a record
      have hempty : ∀ id', records id' = [] := by
        intro id'
        by_cases hid : id' = id
        · rw [hid, hs.own_records]
          rfl
        · exact hs.other_records id' hid
      refine ⟨T.id, [⟨oid, .active T.id, T.startTS, content⟩], old, by rw [hsplit]; rfl, by simp,
        hs.old_stamp, hs.bottom, fun _ => hT, ?_, fun id' hid => ?_⟩
      · rw [update_self, hempty]
        rfl
      · rw [update_of_ne hid]
        exact hempty id'
    | cons w own =>
      obtain ⟨rfl, -⟩ := List.cons.inj hsplit
      have hid : id = T.id := by
        rw [hs.own_stamp v0 (by simp)] at hvis
        simpa using hvis
      subst hid
      refine ⟨T.id, ⟨oid, .active T.id, T.startTS, content⟩ :: v0 :: own, old, by rw [hsplit]; rfl,
        ?_, hs.old_stamp, hs.bottom, fun _ => hT, ?_, fun id' hid => ?_⟩
      · intro v hv
        rcases mem_cons.mp hv with rfl | hv
        · rfl
        · exact hs.own_stamp v hv
      · rw [update_self, hs.own_records]
        simp [take_succ_cons]
      · rw [update_of_ne hid]
        exact hs.other_records id' hid

/-! ### The end of a transaction -/

variable {active' : ℕ → Bool} {id ts : ℕ}

section

variable (h : ChainRelated active nextPtr vs c records)

include h

lemma ended
    (hactive' : ∀ t, active' t = (active t && t != id)) (hnone : ∀ v ∈ vs, v.stamp ≠ .active id) :
    records id = [] ∧ ChainRelated active' nextPtr vs c (update records id []) := by
  have hrecords : records id = [] := by
    rcases h.stacked with ⟨-, hr⟩ | ⟨t, own, old, rfl, hs⟩
    · exact hr id
    · by_cases ht : id = t
      · subst ht
        cases own with
        | nil => rw [hs.own_records]; rfl
        | cons v own => exact absurd (hs.own_stamp v (by simp)) (hnone v (by simp))
      · exact hs.other_records id ht
  refine ⟨hrecords, ?_⟩
  rw [← hrecords, update_eq_self]
  refine ⟨h.stands, h.ptr_nodup, h.ptr_lt, ?_⟩
  rcases h.stacked with hempty | ⟨t, own, old, rfl, hs⟩
  · exact .inl hempty
  · refine .inr ⟨t, own, old, rfl, { hs with running := fun hne => ?_ }⟩
    obtain ⟨v, hv⟩ := exists_mem_of_ne_nil own hne
    have ht : t ≠ id := by
      rintro rfl
      exact hnone v (mem_append_left _ hv) (hs.own_stamp v hv)
    simp [hactive', hs.running hne, ht]

/-- A transaction with a version on top of the chain has no others there. -/
lemma stacked_of_mem (hmem : ∃ v ∈ vs, v.stamp = .active id) :
    ∃ own old, vs = own ++ old ∧ Stacked active id own old (c.map ptr) records := by
  obtain ⟨v, hv, hst⟩ := hmem
  rcases h.stacked with ⟨rfl, -⟩ | ⟨t, own, old, rfl, hs⟩
  · simp at hv
  · rcases mem_append.mp hv with hv | hv
    · have ht : t = id := by
        have := (hs.own_stamp v hv).symm.trans hst
        simpa using this
      exact ⟨own, old, rfl, ht ▸ hs⟩
    · obtain ⟨ts, -, hts⟩ := hs.old_stamp v hv
      simp [hts] at hst

/-- A commit that fails after some records, and is rolled back, takes the versions of the
transaction off the chain. -/
lemma failedCommit (hactive' : ∀ t, active' t = (active t && t != id)) (ts : ℕ)
    {done rest : List ℕ} (hsplit : records id = done ++ rest) :
    ∃ c1 c2, done.foldlM (fun c p => setNextTimestamp p ts c) c = some c1 ∧
      (records id).reverse.foldlM (fun c p => unlinkNext p c) c1 = some c2 ∧
      ChainRelated active' nextPtr (vs.filter fun v => v.stamp != .active id) c2
        (update records id []) := by
  by_cases hmem : ∃ v ∈ vs, v.stamp = .active id
  · obtain ⟨own, old, rfl, hs⟩ := h.stacked_of_mem hmem
    obtain ⟨cown, b, rest', rfl, hown, hold, hrec⟩ := hs.split h.stands
    have hdone : done = (cown.map ptr ++ [b.ptr]).tail.reverse.take done.length := by
      rw [← hrec, hsplit, take_left]
    obtain ⟨cown', hrun, hptr, -⟩ := commit_chain ts cown b rest' done.length h.ptr_nodup
    refine ⟨cown' ++ b :: rest', b :: rest', by rw [hdone]; exact hrun, ?_, ?_⟩
    · rw [hrec, reverse_reverse, ← hptr]
      exact rollback_chain cown' b rest'
    · rw [hs.filter_eq]
      have hnodup := h.ptr_nodup
      rw [map_append, nodup_append] at hnodup
      exact ⟨hold, hnodup.2.1, fun e he => h.ptr_lt e (mem_append_right _ he),
        .inr ⟨id, [], old, rfl, hs.settled hs.old_stamp hs.bottom⟩⟩
  · have hnone : ∀ v ∈ vs, v.stamp ≠ .active id := fun v hv hst => hmem ⟨v, hv, hst⟩
    obtain ⟨hrecords, hrel⟩ := h.ended hactive' hnone
    obtain ⟨rfl, rfl⟩ := append_eq_nil_iff.mp (hsplit.symm.trans hrecords)
    refine ⟨c, c, rfl, by rw [hrecords]; rfl, ?_⟩
    rw [filter_eq_self.mpr fun v hv => by simpa using hnone v hv]
    exact hrel

end

lemma map_commit_eq_self {vs : List (EntryVersion E)} (hnone : ∀ v ∈ vs, v.stamp ≠ .active id) :
    vs.map (fun v => { v with stamp := v.stamp.commit id ts }) = vs := by
  refine (map_congr_left fun v hv => ?_).trans (map_id vs)
  rw [Stamp.commit, if_neg (hnone v hv)]
  rfl

lemma stands_commit {own : List (EntryVersion E)} {cown : List (CatalogEntry E)}
    (hown : List.Forall₂ Stands own cown)
    (hstamp : ∀ v ∈ own, v.stamp.commit id ts = .committed ts) :
    List.Forall₂ Stands (own.map fun v => { v with stamp := v.stamp.commit id ts })
      (cown.map (stampEntry ts)) := by
  induction hown with
  | nil => exact .nil
  | @cons v e own cown hve _ ih =>
    refine .cons ⟨hve.oid, ?_, hve.content⟩ (ih fun v hv => hstamp v (by simp [hv]))
    simp only [hstamp v (by simp)]
    rfl

lemma commit (h : ChainRelated active nextPtr vs c records)
    (hactive' : ∀ t, active' t = (active t && t != id)) (hts : ts < startTransactionID) :
    ∃ c', (records id).foldlM (fun c p => setNextTimestamp p ts c) c = some c' ∧
      ChainRelated active' nextPtr (vs.map fun v => { v with stamp := v.stamp.commit id ts }) c'
        (update records id []) := by
  by_cases hmem : ∃ v ∈ vs, v.stamp = .active id
  -- the versions of the transaction are on top
  · obtain ⟨own, old, rfl, hs⟩ := h.stacked_of_mem hmem
    obtain ⟨cown, b, rest, rfl, hown, hold, hrec⟩ := hs.split h.stands
    obtain ⟨cown', hrun, hptr, hall⟩ := commit_chain ts cown b rest cown.length h.ptr_nodup
    have hlen : (records id).length ≤ cown.length := by simp [hrec]
    rw [← hrec, take_of_length_le hlen, hall le_rfl] at hrun
    have hold' : old.map (fun v => { v with stamp := v.stamp.commit id ts }) = old := by
      refine map_commit_eq_self fun v hv hst => ?_
      obtain ⟨t, -, ht⟩ := hs.old_stamp v hv
      simp [ht] at hst
    have hown' : ∀ v ∈ own, v.stamp.commit id ts = .committed ts := fun v hv =>
      if_pos (hs.own_stamp v hv)
    have hptrs : (cown.map (stampEntry ts) ++ b :: rest).map ptr =
        (cown ++ b :: rest).map ptr := by simp
    refine ⟨_, hrun, ?_, by rw [hptrs]; exact h.ptr_nodup, fun e he => ?_,
      .inr ⟨id, [], _, rfl, hs.settled (fun v hv => ?_) ?_⟩⟩
    · rw [map_append, hold']
      exact rel_append (stands_commit hown hown') hold
    · have hmem' : e.ptr ∈ (cown ++ b :: rest).map ptr := by
        rw [← hptrs]
        exact mem_map_of_mem he
      obtain ⟨e', he', hp⟩ := mem_map.mp hmem'
      rw [← hp]
      exact h.ptr_lt e' he'
    · rw [map_append, hold'] at hv
      rcases mem_append.mp hv with hv | hv
      · obtain ⟨w, hw, rfl⟩ := mem_map.mp hv
        exact ⟨ts, hts, hown' w hw⟩
      · exact hs.old_stamp v hv
    · obtain ⟨v, hv, hv0⟩ := hs.bottom
      rw [map_append, hold']
      exact ⟨v, mem_append_right _ hv, hv0⟩
  -- the transaction has no version here
  · have hnone : ∀ v ∈ vs, v.stamp ≠ .active id := fun v hv hst => hmem ⟨v, hv, hst⟩
    obtain ⟨hrecords, hrel⟩ := h.ended hactive' hnone
    refine ⟨c, by rw [hrecords]; rfl, ?_⟩
    rw [map_commit_eq_self hnone]
    exact hrel

end ChainRelated

end Ladybug
