import Redbase.Index.File
import Redbase.Index.Lemmas.Catalog

/-!
# Index files are read back

An index file is loaded as the meta data and the sorted entries it was written from, and a lookup
finds the entries of its key.
-/

namespace Redbase.Index

open Prog Text Page Record Files Function Search

variable {m : IndexMeta} {entries : List IndexEntry} {entry a b : IndexEntry} {d : Disk}
  {key : Int32}

/-! ## The order of the entries -/

theorem notAfter_total (a b : IndexEntry) : (a.notAfter b || b.notAfter a) = true := by
  simp only [IndexEntry.notAfter, Bool.or_eq_true, decide_eq_true_eq]
  grind

theorem notAfter_trans (a b c : IndexEntry) (hab : a.notAfter b = true)
    (hbc : b.notAfter c = true) :
    a.notAfter c = true := by
  simp only [IndexEntry.notAfter, decide_eq_true_eq] at *
  grind

theorem sortEntries_perm (entries : List IndexEntry) : (sortEntries entries).Perm entries :=
  List.mergeSort_perm ..

theorem sortEntries_pairwise (entries : List IndexEntry) :
    (sortEntries entries).Pairwise fun a b => a.notAfter b = true :=
  List.pairwise_mergeSort notAfter_trans notAfter_total entries

/-! ## Reading what was written -/

/-- An entry whose record id is one of the source's: both parts are a `u32`. -/
def IndexEntry.Fits (entry : IndexEntry) : Prop :=
  entry.rid.pageId < 2 ^ 32 ∧ entry.rid.slotId < 2 ^ 32

theorem entryRow_isField (entry : IndexEntry) : ∀ s ∈ entryRow entry, IsField s := by
  have htag : IsField "entry" := by decide
  simp only [entryRow, List.forall_mem_cons, List.not_mem_nil, false_implies,
    implies_true, and_true]
  exact ⟨htag, isField_toString_int _, isField_toString _, isField_toString _⟩

theorem addFields_entryRow (draft : IndexDraft) (h : entry.Fits) :
    draft.addFields (entryRow entry) = .ok { draft with entries := draft.entries ++ [entry] } := by
  simp only [entryRow, IndexDraft.addFields, parseInt32_toString, parseUnsigned_toString h.1,
    parseUnsigned_toString h.2]
  rfl

theorem addLines_entries (draft : IndexDraft) (h : ∀ entry ∈ entries, entry.Fits) :
    draft.addLines ((entries.map entryRow).map joinFields) =
      .ok { draft with entries := draft.entries ++ entries } := by
  induction entries generalizing draft with
  | nil => simp [IndexDraft.addLines]
  | cons entry rest ih =>
      obtain ⟨hentry, hrest⟩ := List.forall_mem_cons.mp h
      have hne : joinFields (entryRow entry) ≠ "" := joinFields_ne_empty (by decide)
      have hfields : fields (joinFields (entryRow entry)) = entryRow entry :=
        fields_joinFields (List.cons_ne_nil _ _) (entryRow_isField entry)
      rw [List.map_cons, List.map_cons, IndexDraft.addLines, if_neg hne, hfields,
        addFields_entryRow draft hentry]
      show IndexDraft.addLines _ _ = _
      rw [ih _ hrest, List.append_assoc]
      rfl

/-- The lines of the meta data. -/
def headRows (m : IndexMeta) : List (List String) :=
  [["name", m.name], ["table", m.table], ["column", m.column], ["key_type", m.keyType.word]]

theorem IndexMeta.Storable.headRows (h : m.Storable) :
    ∀ row ∈ headRows m, ∀ s ∈ row, IsField s := by
  have hword : IsField m.keyType.word := by
    cases m.keyType
    decide
  have hname : IsField "name" := by decide
  have htable : IsField "table" := by decide
  have hcolumn : IsField "column" := by decide
  have hkey : IsField "key_type" := by decide
  simp only [Index.headRows, List.forall_mem_cons, List.not_mem_nil, false_implies,
    implies_true, and_true]
  exact ⟨⟨hname, h.name⟩, ⟨htable, h.table⟩, ⟨hcolumn, h.column⟩, hkey, hword⟩

theorem addLines_cons {draft draft' : IndexDraft} {row : List String} {rest : List String}
    (hne : joinFields row ≠ "") (hrow : row ≠ []) (h : ∀ s ∈ row, IsField s)
    (hadd : draft.addFields row = .ok draft') :
    draft.addLines (joinFields row :: rest) = draft'.addLines rest := by
  rw [IndexDraft.addLines, if_neg hne, fields_joinFields hrow h, hadd]
  rfl

theorem addFields_keyType (draft : IndexDraft) (keyType : IndexKeyType) :
    draft.addFields ["key_type", keyType.word] = .ok { draft with keyType := some keyType } := by
  cases keyType
  rfl

theorem addLines_head (h : m.Storable) (rest : List String) :
    IndexDraft.empty.addLines ((headRows m).map joinFields ++ rest) =
      (⟨some m.name, some m.table, some m.column, some m.keyType, []⟩ : IndexDraft).addLines
        rest := by
  have hrows := h.headRows
  have hne : ∀ tag value, tag ≠ "" → joinFields [tag, value] ≠ "" :=
    fun tag value => joinFields_ne_empty
  have hcons : ∀ tag value : String, [tag, value] ≠ [] := fun _ _ => List.cons_ne_nil _ _
  simp only [headRows, List.map_cons, List.map_nil, List.cons_append, List.nil_append]
  rw [addLines_cons (hne _ _ (by decide)) (hcons _ _) (hrows _ (by simp [headRows])) rfl,
    addLines_cons (hne _ _ (by decide)) (hcons _ _) (hrows _ (by simp [headRows])) rfl,
    addLines_cons (hne _ _ (by decide)) (hcons _ _) (hrows _ (by simp [headRows])) rfl,
    addLines_cons (hne _ _ (by decide)) (hcons _ _) (hrows _ (by simp [headRows]))
      (addFields_keyType _ _)]
  rfl

/-- A file that was written is loaded. -/
theorem loadIndexFile_content {name : String} (hm : m.Storable) (he : ∀ entry ∈ entries, entry.Fits)
    (hd : d.files (indexFilePath name) = some (utf8 (indexContent m entries))) :
    loadIndexFile d name = .ok (m, sortEntries entries) := by
  have hsorted : ∀ entry ∈ sortEntries entries, entry.Fits := fun entry h =>
    he entry ((sortEntries_perm entries).mem_iff.mp h)
  have hrows : ∀ row ∈ [indexFileHeader] :: (headRows m ++ (sortEntries entries).map entryRow),
      ∀ s ∈ row, IsField s := by
    refine List.forall_mem_cons.mpr ⟨by simpa using isField_indexFileHeader, fun row hr => ?_⟩
    rcases List.mem_append.mp hr with hr | hr
    · exact hm.headRows row hr
    · obtain ⟨entry, -, rfl⟩ := List.mem_map.mp hr
      exact entryRow_isField entry
  have hcontent : indexContent m entries =
      fileText ([indexFileHeader] :: (headRows m ++ (sortEntries entries).map entryRow)) := rfl
  unfold loadIndexFile
  rw [Disk.readToString_of_write hd]
  simp only [Except.mapError, bind_eq_ok]
  refine ⟨_, rfl, ?_⟩
  rw [hcontent, lines_fileText hrows, List.map_cons, joinFields_singleton, List.map_append]
  simp only [ne_eq, not_true_eq_false, if_false, addLines_head hm, addLines_entries _ hsorted]
  rfl

theorem wp_writeIndexFile (hq : d.faults = []) {Q : Unit → Disk → Prop}
    {E : IndexError → Disk → Prop} :
    wp (writeIndexFile m entries) Q E d ↔
      Q () (d.put (indexFilePath m.name) (some (utf8 (indexContent m entries)))) := by
  unfold writeIndexFile
  rw [wp_mapError, Disk.wp_write hq]

/-! ## Lookups -/

/-- In a sorted list the entries with a smaller key, with the key and with a greater one follow each
other. -/
theorem filter_append_of_sorted {l : List IndexEntry}
    (h : l.Pairwise fun a b => a.notAfter b = true) (key : Int32) :
    l = (l.filter fun entry => entry.key < key) ++ ((l.filter fun entry => entry.key = key) ++
      l.filter fun entry => key < entry.key) := by
  induction l with
  | nil => rfl
  | cons head rest ih =>
      obtain ⟨hhead, hrest⟩ := List.pairwise_cons.mp h
      have hle : ∀ entry ∈ rest, head.key ≤ entry.key := by
        intro entry hm
        have hn := hhead entry hm
        simp only [IndexEntry.notAfter, decide_eq_true_eq] at hn
        grind
      have hsmaller : ¬ head.key < key → rest.filter (fun entry => entry.key < key) = [] := by
        intro hge
        refine List.filter_eq_nil_iff.mpr fun entry hm => ?_
        have := hle entry hm
        grind
      have hequal : key < head.key → rest.filter (fun entry => entry.key = key) = [] := by
        intro hlt
        refine List.filter_eq_nil_iff.mpr fun entry hm => ?_
        have := hle entry hm
        grind
      specialize ih hrest
      by_cases hlt : head.key < key
      · have h₁ : ¬ head.key = key := by grind
        have h₂ : ¬ key < head.key := by grind
        simp only [List.filter_cons, hlt, h₁, h₂, decide_true, decide_false, if_true,
          Bool.false_eq_true, if_false]
        exact congrArg (head :: ·) ih
      · rw [hsmaller hlt, List.nil_append] at ih
        by_cases heq : head.key = key
        · subst heq
          simp only [List.filter_cons, hlt, decide_true, decide_false, if_true,
            Bool.false_eq_true, if_false, hsmaller hlt, List.nil_append]
          exact congrArg (head :: ·) ih
        · have h₂ : key < head.key := by grind
          rw [hequal h₂, List.nil_append] at ih
          simp only [List.filter_cons, hlt, heq, h₂, decide_true, decide_false, if_true,
            Bool.false_eq_true, if_false, hsmaller hlt, hequal h₂, List.nil_append]
          exact congrArg (head :: ·) ih

theorem partitionPoint_sorted {l : List IndexEntry} (h : l.Pairwise fun a b => a.notAfter b = true)
    (key : Int32) :
    partitionPoint (fun entry : IndexEntry => entry.key < key) l =
      (l.filter fun entry => entry.key < key).length ∧
      partitionPoint (fun entry : IndexEntry => entry.key ≤ key) l =
        (l.filter fun entry => entry.key < key).length +
          (l.filter fun entry => entry.key = key).length := by
  have hsplit := filter_append_of_sorted h key
  constructor
  · conv_lhs => rw [hsplit]
    refine partitionPoint_append (fun entry hm => (List.mem_filter.mp hm).2) fun entry hm => ?_
    rcases List.mem_append.mp hm with hm | hm
    · have := (List.mem_filter.mp hm).2
      grind
    · have := (List.mem_filter.mp hm).2
      grind
  · conv_lhs => rw [hsplit, ← List.append_assoc]
    rw [← List.length_append]
    refine partitionPoint_append (fun entry hm => ?_) fun entry hm => ?_
    · rcases List.mem_append.mp hm with hm | hm
      · have := (List.mem_filter.mp hm).2
        grind
      · have := (List.mem_filter.mp hm).2
        grind
    · have := (List.mem_filter.mp hm).2
      grind

/-- A lookup finds the entries of its key, in the order of their record ids. -/
theorem lookupEq_content {name : String} (hm : m.Storable) (he : ∀ entry ∈ entries, entry.Fits)
    (hd : d.files (indexFilePath name) = some (utf8 (indexContent m entries))) (key : Int32) :
    lookupEq d name key = .ok (((sortEntries entries).filter fun entry => entry.key = key).map
      IndexEntry.rid) := by
  obtain ⟨hstart, hstop⟩ := partitionPoint_sorted (sortEntries_pairwise entries) key
  have hsplit := filter_append_of_sorted (sortEntries_pairwise entries) key
  unfold lookupEq
  rw [loadIndexFile_content hm he hd]
  simp only [Except.mapError, bind_eq_ok]
  refine ⟨_, rfl, ?_⟩
  simp only [hstart, hstop]
  rw [if_pos (Nat.le_add_right _ _), Nat.add_sub_cancel_left]
  have hdrop : (sortEntries entries).drop ((sortEntries entries).filter
        fun entry => entry.key < key).length =
      ((sortEntries entries).filter fun entry => entry.key = key) ++
        (sortEntries entries).filter fun entry => key < entry.key :=
    (congrArg (List.drop _) hsplit).trans List.drop_left
  rw [hdrop, List.take_left]
  rfl

end Redbase.Index
