import Redbase.Lib.Lines
import Redbase.Page.Io

/-!
# The directory of a database

The files in the root directory of a database, each under its name. A call reads back what was last
written; `faults` says which of the coming calls on the directory fail, without an effect.
-/

namespace Redbase.Files

open Prog Bytes Text Page Function

structure Disk where
  files : String → Option (List UInt8)
  faults : List (Option IoError)

/-- An empty directory, where no call fails. -/
def Disk.empty : Disk := ⟨fun _ => none, []⟩

abbrev DiskM := EStateM IoError Disk

namespace Disk

/-- The directory with `bytes` under `path`. -/
def put (d : Disk) (path : String) (bytes : Option (List UInt8)) : Disk :=
  { d with files := update d.files path bytes }

/-- `path.exists()`. -/
def pathExists (d : Disk) (path : String) : Bool := (d.files path).isSome

/-- `fs::read_to_string(path)`. -/
def readToString (d : Disk) (path : String) : Except IoError String :=
  match d.files path with
  | none => throw .notFound
  | some bytes =>
      match fromUtf8 bytes with
      | some content => return content
      | none => throw .invalidData

/-- A call fails when its turn says so. -/
def turn : DiskM Unit := do
  match (← get).faults with
  | [] => return ()
  | fault :: rest =>
      modify fun d => { d with faults := rest }
      match fault with
      | none => return ()
      | some e => throw e

/-- `DiskPageIo::open(path)`. -/
def openFile (path : String) : DiskM DiskPageIo := do
  turn
  match (← get).files path with
  | none => throw .notFound
  | some bytes => return ⟨bytes⟩

/-- `fs::write(path, content)`. -/
def write (path : String) (content : String) : DiskM Unit := do
  turn
  modify fun d => d.put path (some (utf8 content))

/-- `fs::remove_file(path)`. -/
def removeFile (path : String) : DiskM Unit := do
  turn
  if (← get).pathExists path then modify fun d => d.put path none else throw .notFound

/-- `DiskPageIo::create_new(path)`: an empty file that was not there. -/
def createNew (path : String) : DiskM DiskPageIo := do
  turn
  if (← get).pathExists path then throw .alreadyExists
  modify fun d => d.put path (some [])
  return ⟨[]⟩

/-- An open file is closed: its bytes are those in the directory. -/
def close (d : Disk) (path : String) (io : DiskPageIo) : Disk := d.put path (some io.file)

/-! ## What the calls do -/

section Specs

variable {d : Disk} {path path' : String} {bytes : List UInt8} {content : String}

@[simp] theorem files_put (d : Disk) (path : String) (bytes : Option (List UInt8)) :
    (d.put path bytes).files = update d.files path bytes := rfl

theorem files_put_self (d : Disk) (path : String) (bytes : Option (List UInt8)) :
    (d.put path bytes).files path = bytes :=
  update_self ..

theorem files_put_of_ne (h : path' ≠ path) (bytes : Option (List UInt8)) :
    (d.put path bytes).files path' = d.files path' :=
  update_of_ne h _ _

theorem put_put (d : Disk) (path : String) (bytes bytes' : Option (List UInt8)) :
    (d.put path bytes).put path bytes' = d.put path bytes' := by
  simp only [put, update_idem]

theorem put_self {bytes : Option (List UInt8)} (h : d.files path = bytes) :
    d.put path bytes = d := by
  simp only [put, ← h, update_eq_self]

theorem pathExists_iff : d.pathExists path = true ↔ ∃ bytes, d.files path = some bytes :=
  Option.isSome_iff_exists

theorem pathExists_of_read (h : d.readToString path = .ok content) : d.pathExists path = true := by
  unfold readToString at h
  cases hf : d.files path with
  | none => simp [hf] at h
  | some bytes => exact pathExists_iff.mpr ⟨bytes, hf⟩

theorem readToString_of_write (h : d.files path = some (utf8 content)) :
    d.readToString path = .ok content := by
  simp only [readToString, h, fromUtf8_utf8]
  rfl

variable {Q : Unit → Disk → Prop} {E : IoError → Disk → Prop}

/-- A call where none fails. -/
theorem wp_turn (h : d.faults = []) : wp turn Q E d ↔ Q () d := by
  unfold turn
  simp only [wp_bind, wp_get, h, wp_pure]

theorem turn_files : wp turn (fun _ t => t.files = d.files) (fun _ t => t.files = d.files) d := by
  unfold turn
  rw [wp_bind, wp_get]
  cases hf : d.faults with
  | nil => exact rfl
  | cons fault rest =>
      rw [wp_bind, wp_modify]
      cases fault with
      | none => exact rfl
      | some e => exact rfl

theorem wp_openFile {Q : DiskPageIo → Disk → Prop} (h : d.faults = [])
    (hf : d.files path = some bytes) :
    wp (openFile path) Q E d ↔ Q ⟨bytes⟩ d := by
  unfold openFile
  simp only [wp_bind, wp_turn h, wp_get, hf, wp_pure]

theorem wp_write (h : d.faults = []) :
    wp (write path content) Q E d ↔ Q () (d.put path (some (utf8 content))) := by
  unfold write
  rw [wp_bind, wp_turn h, wp_modify]

/-- A write that returns has written. -/
theorem write_files :
    wp (write path content) (fun _ t => t.files path = some (utf8 content))
      (fun _ _ => True) d := by
  unfold write
  rw [wp_bind]
  exact wp_mono (wp_true turn d) (fun _ t _ => files_put_self t path _) fun _ _ _ => trivial

theorem wp_removeFile (h : d.faults = []) (hf : d.files path = some bytes) :
    wp (removeFile path) Q E d ↔ Q () (d.put path none) := by
  unfold removeFile
  simp only [wp_bind, wp_turn h, wp_get]
  rw [if_pos (pathExists_iff.mpr ⟨bytes, hf⟩), wp_modify]

theorem wp_createNew {Q : DiskPageIo → Disk → Prop} (h : d.faults = []) :
    wp (createNew path) Q E d ↔
      if d.pathExists path then E .alreadyExists d else Q ⟨[]⟩ (d.put path (some [])) := by
  unfold createNew
  simp only [wp_bind, wp_turn h, wp_get]
  split
  · exact Iff.rfl
  · exact Iff.rfl

end Specs

end Disk

end Redbase.Files
