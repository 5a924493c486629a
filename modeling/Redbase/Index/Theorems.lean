import Redbase.Index.Lemmas.File
import Redbase.Table.Lemmas.Codec
import Mathlib.Data.Prod.Lex

/-!
# Index files

The file of an index keeps its entries, sorted, and a lookup finds those of its key.
-/

namespace Redbase.Index

open Prog Text Page Record Files Table

variable {m : IndexMeta} {entries old l : List IndexEntry} {a b : IndexEntry} {d t : Disk}
  {name : String}

/-! ## The order of record ids and of entries -/

/-- The page, then the slot. -/
def ridKey (rid : Rid) : Lex (Nat × Nat) := toLex (rid.pageId, rid.slotId)

/-- The key, then the page, then the slot. -/
def IndexEntry.sortKey (entry : IndexEntry) : Lex (Int × Lex (Nat × Nat)) :=
  toLex (entry.key.toInt, ridKey entry.rid)

theorem sortKey_le_of_notAfter (h : a.notAfter b = true) : a.sortKey ≤ b.sortKey := by
  simp only [IndexEntry.notAfter, decide_eq_true_eq, Int32.lt_iff_toInt_lt] at h
  simp only [IndexEntry.sortKey, ridKey, Prod.Lex.toLex_le_toLex]
  cases h with
  | inl hkey => exact Or.inl hkey
  | inr hrid =>
      obtain ⟨hkey, hrid⟩ := hrid
      refine Or.inr ⟨congrArg Int32.toInt hkey, ?_⟩
      cases hrid with
      | inl hpage => exact Or.inl hpage
      | inr hslot => exact Or.inr hslot

theorem ridKey_le_of_sortKey (hkey : a.key = b.key) (h : a.sortKey ≤ b.sortKey) :
    ridKey a.rid ≤ ridKey b.rid := by
  simp only [IndexEntry.sortKey, hkey, Prod.Lex.toLex_le_toLex, lt_self_iff_false, true_and,
    false_or] at h
  exact h

theorem sortEntries_sorted (entries : List IndexEntry) :
    (sortEntries entries).Pairwise fun a b => a.sortKey ≤ b.sortKey :=
  (sortEntries_pairwise entries).imp sortKey_le_of_notAfter

/-! ## Round trip -/

/-- The index is about a table and a column with valid names, and has one. -/
structure IndexMeta.Named (m : IndexMeta) : Prop where
  name : validateIdentifier m.name = .ok ()
  table : validateIdentifier m.table = .ok ()
  column : validateIdentifier m.column = .ok ()

theorem IndexMeta.Named.storable (h : m.Named) : m.Storable :=
  ⟨isField_of_identifier h.name, isField_of_identifier h.table, isField_of_identifier h.column⟩

/-- The index `m` is in the directory with these entries: they are loaded in order, and a lookup
finds the record ids of every key, in order. -/
def ReadsBack (d : Disk) (m : IndexMeta) (entries : List IndexEntry) : Prop :=
  (∃ loaded, loadIndexFile d m.name = .ok (m, loaded) ∧ loaded.Perm entries ∧
      loaded.Pairwise fun a b => a.sortKey ≤ b.sortKey) ∧
    ∀ key, ∃ rids, lookupEq d m.name key = .ok rids ∧
      rids.Perm ((entries.filter fun entry => entry.key = key).map IndexEntry.rid) ∧
      rids.Pairwise fun a b => ridKey a ≤ ridKey b

theorem readsBack_content (hm : m.Named) (hfits : ∀ entry ∈ entries, entry.Fits)
    (hd : d.files (indexFilePath m.name) = some (utf8 (indexContent m entries))) :
    ReadsBack d m entries := by
  have hperm := sortEntries_perm entries
  have hsorted := sortEntries_sorted entries
  refine ⟨⟨sortEntries entries, loadIndexFile_content hm.storable hfits hd, hperm, hsorted⟩,
    fun key => ?_⟩
  refine ⟨_, lookupEq_content hm.storable hfits hd key, (hperm.filter _).map _, ?_⟩
  rw [List.pairwise_map]
  have hfound := hsorted.filter fun entry => entry.key = key
  refine hfound.imp_of_mem fun ha hb hle => ridKey_le_of_sortKey ?_ hle
  have hakey := (List.mem_filter.mp ha).2
  have hbkey := (List.mem_filter.mp hb).2
  simp only [decide_eq_true_eq] at hakey hbkey
  exact hakey.trans hbkey.symm

theorem loadIndexFile_congr (h : t.files = d.files) (name : String) :
    loadIndexFile t name = loadIndexFile d name := by
  simp only [loadIndexFile, Disk.readToString, h]

theorem writeIndexFile_writes : wp (writeIndexFile m entries)
    (fun _ t => t.files (indexFilePath m.name) = some (utf8 (indexContent m entries)))
    (fun _ _ => True) d := by
  unfold writeIndexFile
  rw [wp_mapError]
  exact Disk.write_files

theorem replaceIndexEntries_writes (h : loadIndexFile d name = .ok (m, old)) :
    wp (replaceIndexEntries name entries)
      (fun _ t => t.files (indexFilePath m.name) = some (utf8 (indexContent m entries)))
      (fun _ _ => True) d := by
  unfold replaceIndexEntries
  rw [wp_bind, wp_mapError]
  refine wp_mono Disk.turn_files (fun _ t ht => ?_) fun _ _ _ => trivial
  rw [wp_bind, wp_get, loadIndexFile_congr ht, h, wp_bind, wp_lift_ok]
  exact writeIndexFile_writes

theorem writeIndexFile_ok (hq : d.faults = []) :
    ∃ t, writeIndexFile m entries d = .ok () t ∧ t.faults = [] := by
  obtain ⟨_, t, ht, hfaults⟩ :=
    exists_ok_of_wp ((wp_writeIndexFile (Q := fun _ t => t.faults = []) hq).mpr hq)
  exact ⟨t, ht, hfaults⟩

theorem replaceIndexEntries_ok (hq : d.faults = []) (h : loadIndexFile d name = .ok (m, old)) :
    ∃ t, replaceIndexEntries name entries d = .ok () t := by
  have hrun : wp (replaceIndexEntries name entries) (fun _ _ => True) never d := by
    unfold replaceIndexEntries
    simp only [wp_bind, wp_mapError, Disk.wp_turn hq, wp_get, h, wp_lift_ok, wp_writeIndexFile hq]
  obtain ⟨_, t, ht, -⟩ := exists_ok_of_wp hrun
  exact ⟨t, ht⟩

/-- An index file keeps its entries: written, or written over, it holds what it was given. -/
theorem indexFile_roundTrip (hm : m.Named) (hfits : ∀ entry ∈ entries, entry.Fits) :
    ((d.faults = [] → ∃ t, writeIndexFile m entries d = .ok () t) ∧
        ∀ t, writeIndexFile m entries d = .ok () t → ReadsBack t m entries) ∧
      ∀ name old, loadIndexFile d name = .ok (m, old) →
        (d.faults = [] → ∃ t, replaceIndexEntries name entries d = .ok () t) ∧
          ∀ t, replaceIndexEntries name entries d = .ok () t → ReadsBack t m entries := by
  constructor
  · constructor
    · intro hq
      obtain ⟨t, ht, -⟩ := writeIndexFile_ok hq
      exact ⟨t, ht⟩
    · intro t ht
      exact readsBack_content hm hfits (wp_ok ht writeIndexFile_writes :)
  · intro name old hold
    constructor
    · intro hq
      exact replaceIndexEntries_ok hq hold
    · intro t ht
      exact readsBack_content hm hfits (wp_ok ht (replaceIndexEntries_writes hold) :)

/-- Both ends of the keys, one of them twice, written and then written over. -/
theorem indexFile_roundTrip_ends :
    ∃ t u, writeIndexFile ⟨"i", "t", "c", .int32⟩ [] Disk.empty = .ok () t ∧
      replaceIndexEntries "i" [⟨7, ⟨2, 0⟩⟩, ⟨-2147483648, ⟨1, 1⟩⟩, ⟨7, ⟨1, 4294967295⟩⟩]
        t = .ok () u ∧
      ReadsBack u ⟨"i", "t", "c", .int32⟩ [⟨7, ⟨2, 0⟩⟩, ⟨-2147483648, ⟨1, 1⟩⟩,
        ⟨7, ⟨1, 4294967295⟩⟩] := by
  have hm : IndexMeta.Named ⟨"i", "t", "c", .int32⟩ := ⟨by decide, by decide, by decide⟩
  have hfits :
      ∀ entry ∈ ([⟨7, ⟨2, 0⟩⟩, ⟨-2147483648, ⟨1, 1⟩⟩, ⟨7, ⟨1, 4294967295⟩⟩] : List IndexEntry),
      entry.Fits := by
    simp [IndexEntry.Fits]
  have hempty : ∃ t, writeIndexFile ⟨"i", "t", "c", .int32⟩ [] Disk.empty = .ok () t ∧
      t.faults = [] := writeIndexFile_ok rfl
  obtain ⟨t, ht, hq⟩ := hempty
  obtain ⟨⟨loaded, hloaded, -⟩, -⟩ := (indexFile_roundTrip hm (by simp)).1.2 t ht
  obtain ⟨hok, hback⟩ := (indexFile_roundTrip hm hfits).2 "i" loaded hloaded
  obtain ⟨u, hu⟩ := hok hq
  exact ⟨t, u, ht, hu, hback u hu⟩

end Redbase.Index
