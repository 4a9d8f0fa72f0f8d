import Ladybug.Lib.Fold
import Ladybug.Lib.Paging
import Ladybug.Storage.DiskArray

/-!
# Correctness of disk arrays

A disk array represents two lists: the one of the last checkpoint and the current one of the writer.
The proof goes from the page index pages over the contents of the array pages to the actions.
-/

namespace Ladybug

open Paging Function PIPWrapper Option
open List hiding lookup getElem?_eq_some_iff

variable {V : Type} {k m : ℕ}

/-! ### The page index pages -/

def PIPWrapper.table (pip : PIPWrapper) : ℕ → Option ℕ := pip.pipContents.pageIdxs

@[simp] lemma PIPWrapper.table_setPageIdx (offset pageIdx : ℕ) (pip : PIPWrapper) :
    (pip.setPageIdx offset pageIdx).table = Function.update pip.table offset (some pageIdx) := rfl

variable {i p q : ℕ} {s s' : DiskArray V}

namespace DiskArray

/-- The array pages that the writer finds through the PIPs. -/
def tables (s : DiskArray V) : List (ℕ → Option ℕ) := s.checkpointedPIPs.map PIPWrapper.table

/-- The pages of the PIPs of the writer. -/
def pipPages (s : DiskArray V) : List ℕ := s.checkpointedPIPs.map PIPWrapper.pipPageIdx

/-- The changed last PIP lies in the page of the last PIP. -/
def UpdatedLast (s : DiskArray V) : Prop :=
  ∀ u ∈ s.pipUpdates.updatedLastPIP, s.pips.getLast?.map PIPWrapper.pipPageIdx = some u.pipPageIdx

/-- Readers look into the PIPs of the last checkpoint. -/
lemma getAPPageIdx_readOnly (s : DiskArray V) (apIdx : ℕ) :
    s.getAPPageIdx m apIdx .readOnly = lookup m (s.pips.map PIPWrapper.table) apIdx := by
  unfold getAPPageIdx lookup
  rw [if_pos (.inl (by simp)), getElem?_map]
  cases s.pips[apIdx / m]? <;> rfl

variable {α : Type} {f : α → α} {u : PIPWrapper}

/-- A changed last PIP takes the place of the old one. -/
lemma checkpointedPIPs_updated {front : List PIPWrapper} {last : PIPWrapper}
    (hpips : s.pips = front ++ [last]) (hu : s.pipUpdates.updatedLastPIP = some u) :
    s.checkpointedPIPs = front ++ u :: s.pipUpdates.newPIPs := by
  rw [checkpointedPIPs, hu, hpips]
  simp

lemma checkpointedPIPs_none (hu : s.pipUpdates.updatedLastPIP = none) :
    s.checkpointedPIPs = s.pips ++ s.pipUpdates.newPIPs := by
  rw [checkpointedPIPs, hu]

section

variable (h : s.UpdatedLast)

include h

/-- A changed last PIP has an old one. -/
lemma UpdatedLast.exists_last (hu : s.pipUpdates.updatedLastPIP = some u) :
    ∃ front last, s.pips = front ++ [last] ∧ last.pipPageIdx = u.pipPageIdx := by
  rcases eq_nil_or_concat s.pips with hnil | ⟨front, last, hlast⟩
  · have := h u hu
    rw [hnil] at this
    simp at this
  · have hpage := h u hu
    rw [hlast] at hpage
    exact ⟨front, last, by rw [hlast, concat_eq_append], by simpa using hpage⟩

lemma length_checkpointedPIPs :
    s.checkpointedPIPs.length = s.pips.length + s.pipUpdates.newPIPs.length := by
  cases hu : s.pipUpdates.updatedLastPIP with
  | none => rw [checkpointedPIPs_none hu, length_append]
  | some u =>
    obtain ⟨front, last, hpips, -⟩ := h.exists_last hu
    rw [checkpointedPIPs_updated hpips hu, hpips]
    simp
    omega

lemma pipPages_eq : s.pipPages = s.pips.map pipPageIdx ++ s.pipUpdates.newPIPs.map pipPageIdx := by
  unfold pipPages
  cases hu : s.pipUpdates.updatedLastPIP with
  | none => rw [checkpointedPIPs_none hu, map_append]
  | some u =>
    obtain ⟨front, last, hpips, hpage⟩ := h.exists_last hu
    rw [checkpointedPIPs_updated hpips hu, hpips]
    simp [hpage]

/-- The writer looks into the PIPs with their changes. -/
lemma getAPPageIdx_checkpoint (apIdx : ℕ) :
    s.getAPPageIdx m apIdx .checkpoint = lookup m s.tables apIdx := by
  unfold getAPPageIdx lookup tables hasPIPUpdates
  rw [getElem?_map]
  cases hu : s.pipUpdates.updatedLastPIP with
  | none =>
    rw [checkpointedPIPs_none hu]
    by_cases hlt : apIdx / m < s.pips.length
    · rw [if_pos (by simp [hlt]), getElem?_append_left hlt]
      cases s.pips[apIdx / m]? <;> rfl
    · rw [if_neg (by simp; omega), if_neg (by simp), getElem?_append_right (by omega)]
      cases s.pipUpdates.newPIPs[apIdx / m - s.pips.length]? <;> rfl
  | some u =>
    obtain ⟨front, last, hpips, -⟩ := h.exists_last hu
    rw [checkpointedPIPs_updated hpips hu, hpips]
    have hlen : (front ++ [last]).length = front.length + 1 := by simp
    rw [hlen]
    rcases lt_trichotomy (apIdx / m) front.length with hlt | heq | hgt
    · rw [if_pos (by simp; omega), getElem?_append_left hlt, getElem?_append_left hlt]
      cases front[apIdx / m]? <;> rfl
    · rw [if_neg (by simp; omega), if_pos (by simp; omega), heq,
        getElem?_append_right le_rfl, Nat.sub_self]
      rfl
    · obtain ⟨d, hd⟩ : ∃ d, apIdx / m = front.length + 1 + d :=
        ⟨apIdx / m - front.length - 1, by omega⟩
      rw [if_neg (by simp; omega), if_neg (by simp; omega), hd, getElem?_append_right (by omega)]
      have h1 : front.length + 1 + d - front.length = d + 1 := by omega
      have h2 : front.length + 1 + d - (front.length + 1) = d := by omega
      rw [h1, h2, getElem?_cons_succ]
      cases s.pipUpdates.newPIPs[d]? <;> rfl

end

lemma map_modify {β : Type} {f' : β → β} {g : α → β} (h : ∀ x, g (f x) = f' (g x))
    (l : List α) (i : ℕ) : (l.modify i f).map g = (l.map g).modify i f' := by
  refine ext_getElem? fun j => ?_
  rw [getElem?_map, List.getElem?_modify, List.getElem?_modify, getElem?_map]
  cases l[j]? with
  | none => rfl
  | some x =>
    simp only [Option.map_eq_map, Option.map_some, Option.some.injEq]
    split_ifs
    · exact h x
    · rfl

lemma modify_append_right (xs ys : List α) (i : ℕ) :
    (xs ++ ys).modify (xs.length + i) f = xs ++ ys.modify i f := by
  induction xs with
  | nil => simp
  | cons x xs ih =>
    rw [length_cons, Nat.add_right_comm, cons_append, modify_succ_cons, ih, cons_append]

/-- New PIPs hang on the last PIP. -/
def Linked (s : DiskArray V) : Prop :=
  s.pipUpdates.newPIPs ≠ [] → s.pips ≠ [] → s.pipUpdates.updatedLastPIP.isSome

/-- The PIPs of the last checkpoint, with the change of the last one. -/
def oldPIPs (s : DiskArray V) : List PIPWrapper :=
  match s.pipUpdates.updatedLastPIP with
  | some pip => s.pips.dropLast ++ [pip]
  | none => s.pips

/-- The PIPs are the old ones and the new ones. -/
lemma checkpointedPIPs_eq (s : DiskArray V) :
    s.checkpointedPIPs = s.oldPIPs ++ s.pipUpdates.newPIPs := rfl

lemma oldPIPs_of_or (hi : i + 1 = s.pips.length)
    (hu : s.pipUpdates.updatedLastPIP.or s.pips[i]? = some u) :
    s.oldPIPs = s.pips.dropLast ++ [u] := by
  unfold oldPIPs
  cases hsu : s.pipUpdates.updatedLastPIP with
  | some u0 =>
    rw [hsu, some_or] at hu
    rw [Option.some.inj hu]
  | none =>
    rw [hsu, none_or] at hu
    rcases eq_nil_or_concat s.pips with hnil | ⟨front, last, hconcat⟩
    · rw [hnil] at hi
      simp at hi
    · rw [concat_eq_append] at hconcat
      rw [hconcat, length_append, length_singleton, Nat.add_right_cancel_iff] at hi
      rw [hconcat, hi, getElem?_append_right le_rfl, Nat.sub_self] at hu
      rw [hconcat, dropLast_concat]
      simpa using hu

/-- There is a last PIP, changed or not. -/
lemma exists_or (hi : i + 1 = s.pips.length) :
    ∃ u, s.pipUpdates.updatedLastPIP.or s.pips[i]? = some u := by
  cases s.pipUpdates.updatedLastPIP with
  | some u => exact ⟨u, rfl⟩
  | none => exact ⟨s.pips[i], by rw [none_or, getElem?_eq_getElem]⟩

lemma length_oldPIPs (h : s.UpdatedLast) : s.oldPIPs.length = s.pips.length := by
  have hlen := length_checkpointedPIPs h
  rw [checkpointedPIPs_eq, length_append] at hlen
  omega

variable {g : PIPWrapper → PIPWrapper}

/-- A change of one PIP changes one table and no page. -/
lemma pips_modify {g' : (ℕ → Option ℕ) → ℕ → Option ℕ}
    (hg : ∀ pip, (g pip).table = g' pip.table) (hpage : ∀ pip, (g pip).pipPageIdx = pip.pipPageIdx)
    (h : s'.checkpointedPIPs = s.checkpointedPIPs.modify i g) :
    s'.tables = s.tables.modify i g' ∧ s'.pipPages = s.pipPages := by
  rw [tables, pipPages, h]
  have hid : ∀ pip, (g pip).pipPageIdx = id pip.pipPageIdx := hpage
  exact ⟨map_modify hg .., (map_modify hid ..).trans (modify_id ..)⟩

/-- An array page is entered into one table. -/
lemma pips_setPageIdx {offset : ℕ}
    (h : s'.checkpointedPIPs = s.checkpointedPIPs.modify i (setPageIdx offset p)) :
    s'.tables = s.tables.modify i (fun t => Function.update t offset (some p)) ∧
      s'.pipPages = s.pipPages :=
  pips_modify (fun _ => table_setPageIdx ..) (fun _ => rfl) h

/-- A change of the last old PIP. -/
lemma modify_last (h : s.UpdatedLast) (hi : i + 1 = s.pips.length)
    (hu : s.pipUpdates.updatedLastPIP.or s.pips[i]? = some u)
    (hpage : (g u).pipPageIdx = u.pipPageIdx) (hpips : s'.pips = s.pips)
    (hups : s'.pipUpdates = ⟨some (g u), s.pipUpdates.newPIPs⟩) :
    s'.checkpointedPIPs = s.checkpointedPIPs.modify i g ∧ s'.UpdatedLast ∧ s'.Linked := by
  refine ⟨?_, fun w hw => ?_, fun _ _ => by rw [hups]; rfl⟩
  · have hfront : i = s.pips.dropLast.length + 0 := by
      rw [length_dropLast]
      exact Nat.eq_sub_of_add_eq hi
    rw [checkpointedPIPs_eq s, oldPIPs_of_or hi hu, append_assoc, hfront, modify_append_right]
    rw [checkpointedPIPs, hups, hpips]
    simp
  · -- it is changed in its page
    rw [hups, mem_some_iff] at hw
    rw [← hw, hpips, hpage]
    cases hsu : s.pipUpdates.updatedLastPIP with
    | some u0 =>
      rw [hsu, some_or] at hu
      exact h u (by rw [hsu]; exact hu)
    | none =>
      rw [hsu, none_or] at hu
      rw [getLast?_eq_getElem?, ← hi, Nat.add_sub_cancel, hu]
      rfl

/-- A change of the last new PIP. -/
lemma modify_new (h : s.UpdatedLast)
    (hsome : s.pips ≠ [] → s.pipUpdates.updatedLastPIP.isSome) (hpips : s'.pips = s.pips)
    (hups : s'.pipUpdates = { s.pipUpdates with newPIPs := s.pipUpdates.newPIPs.modify i g }) :
    s'.checkpointedPIPs = s.checkpointedPIPs.modify (s.pips.length + i) g ∧
      s'.UpdatedLast ∧ s'.Linked := by
  refine ⟨?_, ?_, fun _ => ?_⟩
  · have hold : s'.oldPIPs = s.oldPIPs := by
      unfold oldPIPs
      rw [hups, hpips]
    rw [checkpointedPIPs_eq s, ← length_oldPIPs h, modify_append_right, checkpointedPIPs_eq s',
      hold, hups]
  · rw [UpdatedLast, hups, hpips]
    exact h
  · rw [hups, hpips]
    exact hsome

/-- Setting the pointer to the next PIP leaves the page indexes and the pages of the PIPs as they
are. -/
lemma setNextPIPPageIdxOfPIP_spec (h : s.UpdatedLast) (pipIdx : ℕ) (hnew : s.pips.length ≤ pipIdx)
    (hlinked : s.pips.length < pipIdx → s.pips ≠ [] → s.pipUpdates.updatedLastPIP.isSome)
    (next : ℕ) :
    ∃ first updates, s.setNextPIPPageIdxOfPIP pipIdx next
        = some { s with
            headerForWriteTrx := { s.headerForWriteTrx with firstPIPPageIdx := first }
            pipUpdates := updates } ∧
      updates.newPIPs.length = s.pipUpdates.newPIPs.length ∧
      ∀ s' : DiskArray V, s'.pips = s.pips → s'.pipUpdates = updates →
        s'.tables = s.tables ∧ s'.pipPages = s.pipPages ∧ s'.UpdatedLast ∧ s'.Linked := by
  have hkeep : ∀ {s' : DiskArray V} {j : ℕ},
      s'.checkpointedPIPs = s.checkpointedPIPs.modify j (setNextPipPageIdx next) ∧
        s'.UpdatedLast ∧ s'.Linked →
      s'.tables = s.tables ∧ s'.pipPages = s.pipPages ∧ s'.UpdatedLast ∧ s'.Linked := by
    rintro s' j ⟨hmodify, hlast⟩
    have hid : ∀ pip : PIPWrapper, (pip.setNextPipPageIdx next).table = id pip.table := fun _ => rfl
    obtain ⟨htables, hpages⟩ := pips_modify hid (fun _ => rfl) hmodify
    exact ⟨htables.trans (modify_id ..), hpages, hlast⟩
  cases pipIdx with
  -- the first PIP is found through the header
  | zero =>
    have hnil := eq_nil_of_length_eq_zero (Nat.le_zero.mp hnew)
    refine ⟨some next, s.pipUpdates, rfl, rfl, fun s' hpips hups => ?_⟩
    unfold tables pipPages checkpointedPIPs UpdatedLast Linked
    rw [hups, hpips]
    exact ⟨rfl, rfl, h, fun _ hne => absurd hnil hne⟩
  | succ i =>
    unfold setNextPIPPageIdxOfPIP
    -- nothing has been checkpointed yet
    by_cases hzero : s.pips.length = 0
    · simp only [if_pos hzero]
      refine ⟨s.headerForWriteTrx.firstPIPPageIdx, _, rfl, length_modify .., fun s' hpips hups =>
        hkeep (modify_new h (fun hne => ?_) hpips hups)⟩
      exact absurd (eq_nil_of_length_eq_zero hzero) hne
    · simp only [if_neg hzero]
      by_cases hi : i + 1 = s.pips.length
      · -- the last PIP of the checkpoint gets the pointer
        obtain ⟨u, hu⟩ := exists_or hi
        rw [hu]
        simp only [if_pos hi, Option.bind_eq_bind, Option.bind_some, Option.pure_def]
        exact ⟨s.headerForWriteTrx.firstPIPPageIdx, _, rfl, rfl, fun s' hpips hups =>
          hkeep (modify_last h hi hu rfl hpips hups)⟩
      · -- a new PIP gets the pointer
        have hsome := hlinked (by omega) (by
          rintro hnil
          exact hzero (by rw [hnil]; rfl))
        obtain ⟨u, hu⟩ := isSome_iff_exists.mp hsome
        rw [hu, some_or]
        simp only [if_neg hi, Option.bind_eq_bind, Option.bind_some, Option.pure_def]
        exact ⟨s.headerForWriteTrx.firstPIPPageIdx, _, rfl, length_modify ..,
          fun s' hpips hups => hkeep (modify_new h (fun _ => hsome) hpips (hu ▸ hups))⟩

/-- Adding an array page to the PIPs, for which pages may be allocated. -/
lemma addAPToPIP_spec (hm : 0 < m) (alloc : ℕ → ℕ) (h : s.UpdatedLast)
    (hlinked : s.Linked) {aps : List ℕ} (htables : Represents m s.tables aps)
    (hpips : s.pips.length ≤ aps.length / m + 1) (p : ℕ) :
    ∃ first updates c, s.addAPToPIP m alloc aps.length p
        = some { s with
            headerForWriteTrx := { s.headerForWriteTrx with firstPIPPageIdx := first }
            pipUpdates := updates
            numAllocated := s.numAllocated + c } ∧
      ∀ s' : DiskArray V, s'.pips = s.pips → s'.pipUpdates = updates →
        Represents m s'.tables (aps ++ [p]) ∧ s'.UpdatedLast ∧ s'.Linked ∧
        s'.pipPages = s.pipPages ++ (range' s.numAllocated c).map alloc := by
  have hlen : s.tables.length = s.pips.length + s.pipUpdates.newPIPs.length := by
    rw [tables, length_map, length_checkpointedPIPs h]
  have hroom : ∀ s' : DiskArray V, aps.length / m < s.tables.length →
      s'.checkpointedPIPs = s.checkpointedPIPs.modify (aps.length / m)
        (setPageIdx (aps.length % m) p) ∧ s'.UpdatedLast ∧ s'.Linked →
      Represents m s'.tables (aps ++ [p]) ∧ s'.UpdatedLast ∧ s'.Linked ∧
        s'.pipPages = s.pipPages ++ (range' s.numAllocated 0).map alloc := by
    rintro s' hlt ⟨hmodify, hlast, hlinked'⟩
    obtain ⟨htables', hpages⟩ := pips_setPageIdx hmodify
    exact ⟨htables' ▸ htables.push_last hm hlt p, hlast, hlinked', by simpa using hpages⟩
  unfold addAPToPIP
  by_cases hcase1 : aps.length / m < s.pips.length
  · -- the last PIP of the checkpoint
    have hi : aps.length / m + 1 = s.pips.length := by omega
    obtain ⟨u, hu⟩ := exists_or hi
    simp only [if_pos hcase1, hu, Option.bind_eq_bind, Option.bind_some, Option.pure_def]
    exact ⟨s.headerForWriteTrx.firstPIPPageIdx, _, 0, rfl, fun s' hpips' hups =>
      hroom s' (by omega) (modify_last h hi hu rfl hpips' hups)⟩
  rw [if_neg hcase1]
  by_cases hcase2 : aps.length / m - s.pips.length < s.pipUpdates.newPIPs.length
  · -- a new PIP with room
    rw [if_pos hcase2]
    refine ⟨s.headerForWriteTrx.firstPIPPageIdx, _, 0, rfl, fun s' hpips' hups =>
      hroom s' (by omega) ?_⟩
    have hmodify := modify_new h
      (hlinked (ne_nil_of_length_pos (Nat.zero_lt_of_lt hcase2))) hpips' hups
    rwa [Nat.add_sub_cancel' (Nat.le_of_not_lt hcase1)] at hmodify
  · -- a PIP is added
    rw [if_neg hcase2]
    set pip : PIPWrapper := ⟨alloc s.numAllocated, .empty⟩
    set s1 : DiskArray V := { s with
      numAllocated := s.numAllocated + 1
      pipUpdates := { s.pipUpdates with newPIPs := s.pipUpdates.newPIPs ++ [pip] } } with hs1
    have hpips1 : s1.checkpointedPIPs = s.checkpointedPIPs ++ [pip] := (append_assoc ..).symm
    obtain ⟨first, updates, hset, hlenU, hkeep⟩ := setNextPIPPageIdxOfPIP_spec
      (s := s1) h (aps.length / m) (Nat.le_of_not_lt hcase1)
      (fun hlt => hlinked fun hnil => by
        have hle := div_le_numPages hm aps.length
        rw [hnil, length_nil, Nat.add_zero, htables.length_eq] at hlen
        exact absurd (lt_of_lt_of_le hlt hle) (by rw [hlen]; exact lt_irrefl _))
      (alloc s.numAllocated)
    refine ⟨first, _, 1, bind_eq_some_iff.mpr ⟨_, hset, rfl⟩, fun s' hpips' hups => ?_⟩
    -- the page index is set in the PIP that was added
    obtain ⟨htables2, hpages2, hlast2, hlinked2⟩ := hkeep { s1 with pipUpdates := updates } rfl rfl
    have hlenN : updates.newPIPs.length = s.pipUpdates.newPIPs.length + 1 := by
      rw [hlenU]
      simp [hs1]
    obtain ⟨hmodify, hlast', hlinked'⟩ := modify_new hlast2
      (hlinked2 (ne_nil_of_length_eq_add_one hlenN)) hpips' hups
    obtain ⟨htables', hpages'⟩ := pips_setPageIdx hmodify
    have hlast_idx : s.pips.length + (updates.newPIPs.length - 1) = s.tables.length + 0 := by
      rw [hlen, hlenN]
      rfl
    have htables1 : s1.tables = s.tables ++ [pip.table] := by
      rw [tables, hpips1, map_append]
      rfl
    have htables'' : s'.tables
        = s.tables ++ [Function.update pip.table (aps.length % m) (some p)] := by
      rw [htables2, htables1] at htables'
      refine htables'.trans ?_
      rw [hlast_idx, modify_append_right]
      rfl
    refine ⟨htables'' ▸ htables.push_new hm (by omega) p _ (update_self ..), hlast', hlinked', ?_⟩
    rw [hpages', hpages2, pipPages, hpips1, map_append]
    rfl

end DiskArray

/-! ### The shadow file -/

namespace Page

lemma slot_setSlot_self (i : ℕ) (v : V) (page : Page V) : (page.setSlot i v).slot i = some v :=
  update_self ..

lemma slot_setSlot_of_ne {j : ℕ} (h : j ≠ i) (v : V) (page : Page V) :
    (page.setSlot i v).slot j = page.slot j :=
  update_of_ne h ..

end Page

namespace ShadowFile

/-- The map of a shadow file leads to records of the shadowed pages. -/
def Ok (sf : ShadowFile V) : Prop :=
  ∀ p r, sf.shadowPagesMap p = some r → ∃ page, sf.shadowPageRecords[r]? = some (p, page)

variable {r : ℕ} {sf : ShadowFile V}

/-- A mapped page has the record that the map names. -/
lemma shadowPage_of_map (h : sf.shadowPagesMap p = some r) :
    sf.shadowPage p = sf.shadowPageRecords[r]?.map Prod.snd := by
  rw [shadowPage, h, bind_some]

lemma shadowPage_of_unmapped (h : sf.shadowPagesMap p = none) : sf.shadowPage p = none := by
  rw [shadowPage, h, bind_none]

/-- Different pages have different records. -/
lemma Ok.map_inj (h : sf.Ok)
    (hp : sf.shadowPagesMap p = some r) (hq : sf.shadowPagesMap q = some r) : p = q := by
  obtain ⟨page, hpage⟩ := h p r hp
  obtain ⟨page', hpage'⟩ := h q r hq
  rw [hpage] at hpage'
  exact congrArg Prod.fst (Option.some.inj hpage')

/-- A write to a record changes no other record. -/
lemma getElem?_modify (sf : ShadowFile V) (r : ℕ) (f : Page V → Page V) (j : ℕ) :
    (sf.modify r f).shadowPageRecords[j]?
      = sf.shadowPageRecords[j]?.map fun x => (x.1, if r = j then f x.2 else x.2) := by
  rw [modify, List.getElem?_modify]
  cases sf.shadowPageRecords[j]? with
  | none => rfl
  | some x => by_cases hrj : r = j <;> simp [hrj]

/-- Writing a record keeps the shadow file in order. -/
lemma Ok.modify (h : sf.Ok) (r : ℕ) (f : Page V → Page V) : (sf.modify r f).Ok := by
  intro p j hp
  obtain ⟨page, hpage⟩ := h p j hp
  exact ⟨_, by rw [getElem?_modify, hpage, map_some]⟩

/-- Changing the shadow page of `p` changes no other shadow page. -/
lemma shadowPage_modify (h : sf.Ok)
    (hp : sf.shadowPagesMap p = some r) (f : Page V → Page V) (q : ℕ) :
    (sf.modify r f).shadowPage q = (sf.shadowPage q).map fun x => if q = p then f x else x := by
  have hmap : (sf.modify r f).shadowPagesMap q = sf.shadowPagesMap q := rfl
  cases hq : sf.shadowPagesMap q with
  | none =>
    rw [shadowPage_of_unmapped hq, shadowPage_of_unmapped (hmap.trans hq)]
    rfl
  | some j =>
    rw [shadowPage_of_map hq, shadowPage_of_map (hmap.trans hq), getElem?_modify]
    have hiff : q = p ↔ r = j := by
      constructor
      · rintro rfl
        rw [hp] at hq
        exact Option.some.inj hq
      · rintro rfl
        exact h.map_inj hq hp
    cases sf.shadowPageRecords[j]? with
    | none => rfl
    | some x => simp only [map_some, hiff]

/-- A record is added for page `p`. -/
def push (sf : ShadowFile V) (p : ℕ) (page : Page V) : ShadowFile V where
  shadowPagesMap := Function.update sf.shadowPagesMap p (some sf.shadowPageRecords.length)
  shadowPageRecords := sf.shadowPageRecords ++ [(p, page)]

lemma shadowPagesMap_push_self (sf : ShadowFile V) (p : ℕ) (page : Page V) :
    (sf.push p page).shadowPagesMap p = some sf.shadowPageRecords.length :=
  update_self ..

lemma shadowPagesMap_push_of_ne (sf : ShadowFile V) (h : q ≠ p) (page : Page V) :
    (sf.push p page).shadowPagesMap q = sf.shadowPagesMap q :=
  update_of_ne h ..

lemma getElem?_push_length (sf : ShadowFile V) (p : ℕ) (page : Page V) :
    (sf.push p page).shadowPageRecords[sf.shadowPageRecords.length]? = some (p, page) :=
  getElem?_concat_length ..

lemma getElem?_push_of_lt (h : r < sf.shadowPageRecords.length) (p : ℕ) (page : Page V) :
    (sf.push p page).shadowPageRecords[r]? = sf.shadowPageRecords[r]? :=
  getElem?_append_left h

/-- A record is an old one or the new one. -/
lemma getElem?_push_cases {page page' : Page V}
    (h : (sf.push p page).shadowPageRecords[r]? = some (q, page')) :
    sf.shadowPageRecords[r]? = some (q, page') ∨ (q = p ∧ r = sf.shadowPageRecords.length) := by
  rcases lt_trichotomy r sf.shadowPageRecords.length with hlt | rfl | hgt
  · exact .inl (by rw [← h, getElem?_push_of_lt hlt])
  · rw [getElem?_push_length] at h
    exact .inr ⟨(congrArg Prod.fst (Option.some.inj h)).symm, rfl⟩
  · have hlen : (sf.push p page).shadowPageRecords.length = sf.shadowPageRecords.length + 1 :=
      length_append
    rw [getElem?_eq_none (by omega)] at h
    cases h

/-- The first write of a page adds a record. -/
lemma createShadowVersionIfNecessary_of_unmapped
    (hp : sf.shadowPagesMap p = none) (skip : Bool) (page : Page V) :
    sf.createShadowVersionIfNecessary p skip page
      = (sf.shadowPageRecords.length, sf.push p (if skip then .blank else page)) := by
  rw [createShadowVersionIfNecessary, hp]
  rfl

/-- Later writes find the record. -/
lemma createShadowVersionIfNecessary_of_mapped
    (hp : sf.shadowPagesMap p = some r) (skip : Bool) (page : Page V) :
    sf.createShadowVersionIfNecessary p skip page = (r, sf) := by
  rw [createShadowVersionIfNecessary, hp]

lemma Ok.push (h : sf.Ok) (p : ℕ) (page : Page V) : (sf.push p page).Ok := by
  intro q r hq
  by_cases hqp : q = p
  · rw [hqp, shadowPagesMap_push_self, Option.some.injEq] at hq
    exact ⟨page, by rw [← hq, hqp, getElem?_push_length]⟩
  · rw [shadowPagesMap_push_of_ne sf hqp] at hq
    obtain ⟨page', hpage'⟩ := h q r hq
    exact ⟨page', by rw [getElem?_push_of_lt (getElem?_eq_some_iff.mp hpage').1, hpage']⟩

/-- A new record is the copy of its page. -/
lemma shadowPage_push (h : sf.Ok) (p : ℕ) (page : Page V) (q : ℕ) :
    (sf.push p page).shadowPage q = if q = p then some page else sf.shadowPage q := by
  split_ifs with hqp
  · rw [hqp, shadowPage_of_map (shadowPagesMap_push_self ..), getElem?_push_length]
    rfl
  · cases hq : sf.shadowPagesMap q with
    | none =>
      rw [shadowPage_of_unmapped hq,
        shadowPage_of_unmapped ((shadowPagesMap_push_of_ne sf hqp page).trans hq)]
    | some r =>
      obtain ⟨page', hpage'⟩ := h q r hq
      rw [shadowPage_of_map hq, shadowPage_of_map ((shadowPagesMap_push_of_ne sf hqp page).trans
        hq), getElem?_push_of_lt (getElem?_eq_some_iff.mp hpage').1]

end ShadowFile

/-! ### The contents of the pages -/

namespace DiskArray

/-- A page as the writer sees it. -/
def view (s : DiskArray V) (p : ℕ) : Page V :=
  if s.isShadowed p then (s.shadowFile.shadowPage p).getD (s.file p) else s.file p

/-- The frame in which the writer changes page `p`. -/
def FrameFor (s : DiskArray V) (p : ℕ) : Frame → Prop
  | .shadow record => s.isShadowed p = true ∧ s.shadowFile.shadowPagesMap p = some record
  | .original q => s.isShadowed p = false ∧ q = p

lemma isShadowed_congr (h : s'.lastPageOnDisk = s.lastPageOnDisk) (q : ℕ) :
    s'.isShadowed q = s.isShadowed q := by
  unfold isShadowed
  rw [h]

/-- From `s` to `s'`, only the contents of page `p` changed. -/
structure Changes (s s' : DiskArray V) (p : ℕ) : Prop where
  lastPageOnDisk : s'.lastPageOnDisk = s.lastPageOnDisk
  ok : s'.shadowFile.Ok
  view_ne : ∀ q, q ≠ p → s'.view q = s.view q
  file_eq : ∀ q, q ≠ p ∨ s.isShadowed q → s'.file q = s.file q
  map_mono : ∀ q r, s.shadowFile.shadowPagesMap q = some r → s'.shadowFile.shadowPagesMap q = some r
  record : ∀ j q page, s'.shadowFile.shadowPageRecords[j]? = some (q, page) →
    (∃ page', s.shadowFile.shadowPageRecords[j]? = some (q, page')) ∨
      (q = p ∧ s.isShadowed p ∧ s'.shadowFile.shadowPagesMap p = some j)
  inPlace : ∀ q ∈ s'.inPlaceWrites, q ∈ s.inPlaceWrites ∨ (q = p ∧ s.isShadowed p = false)

variable {frame : Frame} {s'' : DiskArray V}

lemma Changes.refl (hok : s.shadowFile.Ok) (p : ℕ) : Changes s s p :=
  ⟨rfl, hok, fun _ _ => rfl, fun _ _ => rfl, fun _ _ h => h, fun _ _ page h => .inl ⟨page, h⟩,
    fun _ h => .inl h⟩

lemma Changes.trans (h : Changes s s' p) (h' : Changes s' s'' p) : Changes s s'' p where
  lastPageOnDisk := h'.lastPageOnDisk.trans h.lastPageOnDisk
  ok := h'.ok
  view_ne := fun q hq => (h'.view_ne q hq).trans (h.view_ne q hq)
  file_eq := fun q hq => (h'.file_eq q (by
    rw [isShadowed_congr h.lastPageOnDisk]
    exact hq)).trans (h.file_eq q hq)
  map_mono := fun q r hr => h'.map_mono q r (h.map_mono q r hr)
  record := fun j q page hj => by
    rcases h'.record j q page hj with ⟨page', hj'⟩ | ⟨rfl, hsh, hmap⟩
    · rcases h.record j q page' hj' with hj'' | ⟨rfl, hsh, hmap⟩
      · exact .inl hj''
      · exact .inr ⟨rfl, hsh, h'.map_mono _ _ hmap⟩
    · rw [isShadowed_congr h.lastPageOnDisk] at hsh
      exact .inr ⟨rfl, hsh, hmap⟩
  inPlace := fun q hq => by
    rcases h'.inPlace q hq with hq | ⟨rfl, hsh⟩
    · exact h.inPlace q hq
    · rw [isShadowed_congr h.lastPageOnDisk] at hsh
      exact .inr ⟨rfl, hsh⟩

/-- Everything but the contents of the pages. -/
structure SameLayout (s s' : DiskArray V) : Prop where
  header : s'.header = s.header
  headerForWriteTrx : s'.headerForWriteTrx = s.headerForWriteTrx
  hasTransactionalUpdates : s'.hasTransactionalUpdates = s.hasTransactionalUpdates
  pips : s'.pips = s.pips
  pipUpdates : s'.pipUpdates = s.pipUpdates
  lastAPPageIdx : s'.lastAPPageIdx = s.lastAPPageIdx
  numAllocated : s'.numAllocated = s.numAllocated

lemma SameLayout.refl (s : DiskArray V) : SameLayout s s := ⟨rfl, rfl, rfl, rfl, rfl, rfl, rfl⟩

lemma SameLayout.trans (h : SameLayout s s') (h' : SameLayout s' s'') :
    SameLayout s s'' where
  header := h'.header.trans h.header
  headerForWriteTrx := h'.headerForWriteTrx.trans h.headerForWriteTrx
  hasTransactionalUpdates := h'.hasTransactionalUpdates.trans h.hasTransactionalUpdates
  pips := h'.pips.trans h.pips
  pipUpdates := h'.pipUpdates.trans h.pipUpdates
  lastAPPageIdx := h'.lastAPPageIdx.trans h.lastAPPageIdx
  numAllocated := h'.numAllocated.trans h.numAllocated

/-- The contents of the pages, and how they are written. -/
structure SameContents (s s' : DiskArray V) : Prop where
  file : s'.file = s.file
  inPlaceWrites : s'.inPlaceWrites = s.inPlaceWrites
  shadowFile : s'.shadowFile = s.shadowFile
  lastPageOnDisk : s'.lastPageOnDisk = s.lastPageOnDisk

/-- The same contents show the same pages. -/
lemma SameContents.view (h : SameContents s s') (p : ℕ) : s'.view p = s.view p := by
  unfold DiskArray.view
  rw [isShadowed_congr h.lastPageOnDisk, h.shadowFile, h.file]

lemma SameContents.frameFor (h : SameContents s s')
    (hf : FrameFor s p frame) : FrameFor s' p frame := by
  cases frame with
  | shadow record =>
    exact ⟨(isShadowed_congr h.lastPageOnDisk p).trans hf.1, by rw [h.shadowFile]; exact hf.2⟩
  | original q => exact ⟨(isShadowed_congr h.lastPageOnDisk p).trans hf.1, hf.2⟩

lemma SameContents.changes (h : SameContents s s') (h' : Changes s' s'' p) : Changes s s'' p where
  lastPageOnDisk := h'.lastPageOnDisk.trans h.lastPageOnDisk
  ok := h'.ok
  view_ne := fun q hq => (h'.view_ne q hq).trans (h.view q)
  file_eq := fun q hq => (h'.file_eq q (by
    rw [isShadowed_congr h.lastPageOnDisk]
    exact hq)).trans (by rw [h.file])
  map_mono := fun q r hr => h'.map_mono q r (by rw [h.shadowFile]; exact hr)
  record := by
    rw [← h.shadowFile, ← isShadowed_congr h.lastPageOnDisk]
    exact h'.record
  inPlace := by
    rw [← h.inPlaceWrites, ← isShadowed_congr h.lastPageOnDisk]
    exact h'.inPlace

/-- A frame stays valid when another page changes. -/
lemma FrameFor.mono (h : Changes s s' p) (hf : FrameFor s q frame) : FrameFor s' q frame := by
  cases frame with
  | shadow record =>
    exact ⟨(isShadowed_congr h.lastPageOnDisk q).trans hf.1, h.map_mono q record hf.2⟩
  | original q' => exact ⟨(isShadowed_congr h.lastPageOnDisk q).trans hf.1, hf.2⟩

/-- Pages behind the last one on disk are read from the file. -/
lemma view_of_not_isShadowed (h : s.isShadowed p = false) : s.view p = s.file p := by
  rw [view, h]
  rfl

lemma view_of_isShadowed (h : s.isShadowed p = true) :
    s.view p = (s.shadowFile.shadowPage p).getD (s.file p) := by
  rw [view, h]
  rfl

lemma view_congr (hlast : s'.lastPageOnDisk = s.lastPageOnDisk)
    (hshadow : s'.shadowFile.shadowPage q = s.shadowFile.shadowPage q)
    (hfile : s'.file q = s.file q) : s'.view q = s.view q := by
  unfold view
  rw [isShadowed_congr hlast, hshadow, hfile]

/-- A pinned page is ready to be written. -/
lemma getPage_spec (hok : s.shadowFile.Ok) (p : ℕ) (isNewlyAdded : Bool) :
    SameLayout s (s.getPage p isNewlyAdded).2 ∧ Changes s (s.getPage p isNewlyAdded).2 p ∧
      FrameFor (s.getPage p isNewlyAdded).2 p (s.getPage p isNewlyAdded).1 ∧
      (isNewlyAdded = false → (s.getPage p isNewlyAdded).2.view p = s.view p) := by
  cases hsh : s.isShadowed p with
  | true =>
    have hget : s.getPage p isNewlyAdded
        = (.shadow (s.shadowFile.createShadowVersionIfNecessary p isNewlyAdded (s.file p)).1,
          { s with shadowFile :=
              (s.shadowFile.createShadowVersionIfNecessary p isNewlyAdded (s.file p)).2 }) := by
      rw [getPage, hsh]
      rfl
    rw [hget]
    cases hmap : s.shadowFile.shadowPagesMap p with
    | some r =>
      -- the page has a shadow version already
      rw [ShadowFile.createShadowVersionIfNecessary_of_mapped hmap]
      exact ⟨.refl s, .refl hok p, ⟨hsh, hmap⟩, fun _ => rfl⟩
    | none =>
      -- a shadow version is made
      rw [ShadowFile.createShadowVersionIfNecessary_of_unmapped hmap]
      refine ⟨⟨rfl, rfl, rfl, rfl, rfl, rfl, rfl⟩, ⟨rfl, hok.push p _, fun q hq => ?_,
        fun _ _ => rfl, fun q r hr => ?_, fun j q page hj => ?_, fun _ h => .inl h⟩,
        ⟨hsh, ShadowFile.shadowPagesMap_push_self ..⟩, fun hnew => ?_⟩
      · exact view_congr rfl (by rw [ShadowFile.shadowPage_push hok, if_neg hq]) rfl
      · refine (ShadowFile.shadowPagesMap_push_of_ne _ ?_ _).trans hr
        rintro rfl
        rw [hmap] at hr
        cases hr
      · rcases ShadowFile.getElem?_push_cases hj with hj | ⟨hq, hj⟩
        · exact .inl ⟨_, hj⟩
        · exact .inr ⟨hq, hsh, by rw [hj]; exact ShadowFile.shadowPagesMap_push_self ..⟩
      · rw [view_of_isShadowed hsh, view_of_isShadowed (by exact hsh),
          ShadowFile.shadowPage_push hok, if_pos rfl, ShadowFile.shadowPage_of_unmapped hmap, hnew]
        rfl
  | false =>
    -- the page itself is written
    have hget : s.getPage p isNewlyAdded
        = (.original p,
          { s with
            file := Function.update s.file p (if isNewlyAdded then .blank else s.file p)
            inPlaceWrites := p :: s.inPlaceWrites }) := by
      rw [getPage, hsh]
      rfl
    rw [hget]
    refine ⟨⟨rfl, rfl, rfl, rfl, rfl, rfl, rfl⟩, ⟨rfl, hok, fun q hq => ?_, fun q hq => ?_,
      fun _ _ h => h, fun _ _ page h => .inl ⟨page, h⟩, fun q hq => ?_⟩, ⟨hsh, rfl⟩, fun hnew => ?_⟩
    · exact view_congr rfl rfl (update_of_ne hq ..)
    · refine update_of_ne ?_ ..
      rintro rfl
      rcases hq with hne | hsh'
      · exact hne rfl
      · rw [hsh] at hsh'
        cases hsh'
    · rcases mem_cons.mp hq with rfl | hq
      · exact .inr ⟨rfl, hsh⟩
      · exact .inl hq
    · rw [hnew]
      exact view_congr rfl rfl (update_self ..)

/-- A write through a frame sets one slot of its page. -/
lemma writeFrame_spec (hok : s.shadowFile.Ok) (hf : FrameFor s p frame) (slot : ℕ) (v : V) :
    SameLayout s (s.writeFrame slot v frame) ∧ Changes s (s.writeFrame slot v frame) p ∧
      (s.writeFrame slot v frame).view p = (s.view p).setSlot slot v := by
  cases frame with
  | shadow r =>
    obtain ⟨hsh, hmap⟩ := hf
    have hshadow : ∀ q, (s.writeFrame slot v (.shadow r)).shadowFile.shadowPage q
        = (s.shadowFile.shadowPage q).map fun x => if q = p then x.setSlot slot v else x :=
      ShadowFile.shadowPage_modify hok hmap _
    refine ⟨⟨rfl, rfl, rfl, rfl, rfl, rfl, rfl⟩, ⟨rfl, hok.modify r _, fun q hq => ?_,
      fun _ _ => rfl, fun _ _ h => h, fun j q page hj => ?_, fun _ h => .inl h⟩, ?_⟩
    · refine view_congr rfl ?_ rfl
      rw [hshadow]
      simp [hq]
    · unfold writeFrame at hj
      rw [ShadowFile.getElem?_modify, Option.map_eq_some_iff] at hj
      obtain ⟨⟨q', page'⟩, hx, hxq⟩ := hj
      cases hxq
      exact .inl ⟨page', hx⟩
    -- the shadow page itself
    · obtain ⟨page, hpage⟩ := hok p r hmap
      rw [view_of_isShadowed hsh, view_of_isShadowed (by exact hsh), hshadow,
        ShadowFile.shadowPage_of_map hmap, hpage]
      simp
  | original q =>
    obtain ⟨hsh, rfl⟩ := hf
    refine ⟨⟨rfl, rfl, rfl, rfl, rfl, rfl, rfl⟩, ⟨rfl, hok, fun q' hq => ?_, fun q' hq => ?_,
      fun _ _ h => h, fun _ _ page h => .inl ⟨page, h⟩, fun _ h => .inl h⟩, ?_⟩
    · exact view_congr rfl rfl (update_of_ne hq ..)
    · refine update_of_ne ?_ ..
      rintro rfl
      rcases hq with hne | hsh'
      · exact hne rfl
      · rw [hsh] at hsh'
        cases hsh'
    · rw [view_of_not_isShadowed hsh, view_of_not_isShadowed (by exact hsh)]
      exact update_self ..

end DiskArray

end Ladybug
