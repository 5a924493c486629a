import Redbase.Files.Disk
import Redbase.Record.File

/-!
# Record files in the directory

`PageManager` and `RecordManager` create and open the file of a table. The bytes of an open file are
its `DiskPageIo`; they are in the directory again when the file is dropped.
-/

namespace Redbase.Files

open Prog Bytes Page Record

abbrev defaultBufferCapacity : Nat := 8

abbrev DiskRecordFile := RecordFile DiskPageIo defaultBufferCapacity

/-- What is left of a file that is dropped is in the directory. -/
def Disk.leave (d : Disk) (path : String) : Option DiskPageIo → Disk
  | some io => d.close path io
  | none => d

namespace PageManager

/-- The file of a call that ended is dropped. -/
def finish (path : String) :
    EStateM.Result PageStoreError (PageFile DiskPageIo) Unit → EStateM PageStoreError Disk Unit
  | .ok _ file => modify fun d => d.close path file.drop
  | .error e file => do
      modify fun d => d.close path file.drop
      throw e

def createFile (path : String) : EStateM PageStoreError Disk Unit := do
  let io ← mapError .io (Disk.createNew path)
  match PageFile.create io with
  | .ok _ file => finish path (PageFile.flush file)
  | .error e file => finish path (.error e file)

/-- An open that fails has only read the file. -/
def openFile (path : String) : EStateM PageStoreError Disk (PageFile DiskPageIo) := do
  let io ← mapError .io (Disk.openFile path)
  match PageFile.open io with
  | .ok file _ => return file
  | .error e _ => throw e

end PageManager

namespace RecordManager

/-- An error of the page store as one of the record file. -/
def pageError (e : PageStoreError) : Stop RecordError := .error (.pageStore e)

def createFile (path : String) (recordSize : Nat) : EStateM (Stop RecordError) Disk Unit := do
  mapError pageError (PageManager.createFile path)
  let pageFile ← mapError pageError (PageManager.openFile path)
  match RecordFile.create pageFile defaultBufferCapacity recordSize with
  | .error (e, io) =>
      modify fun d => d.leave path io
      throw e
  | .ok file =>
      match RecordFile.flush file with
      | .ok _ file => modify fun d => d.leave path file.drop
      | .error e file =>
          modify fun d => d.leave path file.drop
          throw e

def openFile (path : String) : EStateM (Stop RecordError) Disk DiskRecordFile := do
  let pageFile ← mapError pageError (PageManager.openFile path)
  match RecordFile.open pageFile defaultBufferCapacity with
  | .ok file => return file
  | .error (e, io) =>
      modify fun d => d.leave path io
      throw e

end RecordManager

end Redbase.Files
