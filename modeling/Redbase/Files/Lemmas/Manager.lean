import Redbase.Files.Manager
import Redbase.Record.Lemmas.Lifetime

/-!
# Creating and opening the file of a table
-/

namespace Redbase.Files

open Prog Bytes Page Buffer Record Function ByteIo Disk

variable {d : Disk} {path : String} {recordSize : Nat} {bytes : List UInt8} {h : RecordFileHeader}
  {pages : Nat → PageData} {chain : List Nat}

/-- The bytes are those of a page file without pages. -/
def EmptyPages (bytes : List UInt8) : Prop :=
  wp PageFile.open (fun file _ => ∀ pages, Plain file 0 pages) never (DiskPageIo.mk bytes)

/-- The bytes are those of a record file without records. -/
def EmptyRecords (bytes : List UInt8) (recordSize : Nat) : Prop :=
  ∃ h pages, Saved (DiskPageIo.mk bytes) h pages [] ∧ h.recordSize = recordSize ∧ h.numPages = 0

namespace PageManager

theorem createFile_exists (hd : d.faults = []) (hf : d.pathExists path = true)
    {Q : Unit → Disk → Prop} {E : PageStoreError → Disk → Prop} (he : E (.io .alreadyExists) d) :
    wp (createFile path) Q E d := by
  unfold createFile
  rw [wp_bind, wp_mapError, wp_createNew hd, if_pos hf]
  exact he

theorem createFile_spec (hd : d.faults = []) (hf : d.files path = none) :
    wp (createFile path) (fun _ t => ∃ bytes, t = d.put path (some bytes) ∧
      EmptyPages bytes) never d := by
  have hno : d.pathExists path = false := by rw [pathExists, hf]; rfl
  obtain ⟨file, hc, hrep⟩ := Page.create_spec (DiskPageIo.mk [])
  obtain ⟨_, t, hflush, ht, hfl⟩ := exists_ok_of_wp (flush_store_spec hrep)
  obtain ⟨_, u, hdrop, -, hfl'⟩ := exists_ok_of_wp (flush_store_spec ht)
  unfold createFile
  rw [wp_bind, wp_mapError, wp_createNew hd, hno]
  simp only [hc, hflush, finish, wp_modify]
  refine ⟨t.drop.file, put_put _ _ _ _, ?_⟩
  refine wp_mono (open_spec ht hfl' ?_) ?_ fun _ _ => id
  · rw [PageFile.drop, hdrop]
    rfl
  · exact fun file _ hu pages => Represents.plain hu pages

end PageManager

namespace RecordManager

theorem createFile_exists (hd : d.faults = []) (hf : d.pathExists path = true)
    {Q : Unit → Disk → Prop} {E : Stop RecordError → Disk → Prop}
    (he : E (.error (.pageStore (.io .alreadyExists))) d) :
    wp (createFile path recordSize) Q E d := by
  unfold createFile
  rw [wp_bind, wp_mapError]
  exact PageManager.createFile_exists hd hf he

/-- A new file is created for any record size that fits in a page; for any other the page file is
left behind. -/
theorem createFile_spec (hd : d.faults = []) (hf : d.files path = none) (recordSize : Nat) :
    wp (createFile path recordSize)
      (fun _ t => ∃ bytes, t = d.put path (some bytes) ∧ EmptyRecords bytes recordSize)
      (fun e t => (∃ e', e = .error e' ∧ RecordFileHeader.new recordSize = .error e') ∧
        ∃ bytes, t = d.put path (some bytes)) d := by
  unfold createFile
  simp only [wp_bind, wp_mapError]
  refine wp_mono (PageManager.createFile_spec hd hf) ?_ fun _ _ => False.elim
  rintro _ _ ⟨bytes, rfl, hempty⟩
  obtain ⟨file, io, hopen, hplain⟩ := exists_ok_of_wp hempty
  have hput : (d.put path (some bytes)).faults = [] := hd
  have hfile : (d.put path (some bytes)).files path = some bytes := update_self ..
  unfold PageManager.openFile
  simp only [wp_bind, wp_mapError, wp_openFile hput hfile, hopen, wp_pure]
  have hcap : 0 < defaultBufferCapacity := by decide
  rcases create_spec (hplain fun _ => Block.zero _) hcap recordSize
    with ⟨e, left, hnew, he⟩ | ⟨s, pages, hs, hh, hsize, hn⟩
  · simp only [he, wp_bind, wp_modify, wp_throw]
    refine ⟨⟨e, rfl, hnew⟩, ?_⟩
    cases left with
    | none => exact ⟨bytes, rfl⟩
    | some io => exact ⟨io.file, put_put _ _ _ _⟩
  · obtain ⟨_, t, hflush, pages', ht, -, hhdr, -⟩ := exists_ok_of_wp (flush_spec hh)
    obtain ⟨io, pages'', hdrop, -, hsaved⟩ := drop_spec ht
    simp only [hs, hflush, hdrop, wp_modify]
    refine ⟨io.file, put_put _ _ _ _, t.header, pages'', hsaved, ?_, ?_⟩
    · rw [hhdr, hsize]
    · rw [hhdr, hn]

/-- A record file is opened unless its header is refused. The directory is as before. -/
theorem openFile_spec (hd : d.faults = []) (hf : d.files path = some bytes)
    (hs : Saved (DiskPageIo.mk bytes) h pages chain) :
    wp (openFile path)
      (fun file t => t = d ∧ h.Valid ∧ file.header = h ∧ Holds file pages chain ∧
        Reading file.pool bytes ∧ file.headerDirty = false)
      (fun e t => t = d ∧ ¬ h.Valid ∧ ∃ e' buf, e = .error e' ∧
        RecordFileHeader.decode buf = .error e') d := by
  have hcap : 0 < defaultBufferCapacity := by decide
  obtain ⟨file, io, hopen, hcases⟩ := hs.open_cases hcap rfl
  unfold openFile PageManager.openFile
  simp only [wp_bind, wp_mapError, wp_openFile hd hf, hopen, wp_pure]
  rcases hcases with ⟨hv, s, he, hhdr, hh, hread, hdirty⟩ | ⟨hv, e, left, he, ⟨buf, hdec⟩, hleft⟩
  · simp only [he, wp_pure]
    exact ⟨trivial, hv, hhdr, hh, hread, hdirty⟩
  · simp only [he, wp_bind, wp_modify, wp_throw]
    refine ⟨put_self (hf.trans (congrArg some ?_)), hv, e, buf, rfl, hdec⟩
    exact hleft.symm

end RecordManager

end Redbase.Files
