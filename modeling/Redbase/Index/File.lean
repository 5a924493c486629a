import Redbase.Index.Catalog
import Redbase.Lib.Decimal
import Redbase.Lib.Search

/-!
# Index files

The file of an index lists its entries by key and record id; a key is looked up by binary search.
-/

namespace Redbase.Index

open Prog Text Page Record Files Search

/-! ## Writing -/

/-- The order of `write_index_file`: by key, page and slot. -/
def IndexEntry.notAfter (a b : IndexEntry) : Bool :=
  a.key < b.key ∨ a.key = b.key ∧
    (a.rid.pageId < b.rid.pageId ∨ a.rid.pageId = b.rid.pageId ∧ a.rid.slotId ≤ b.rid.slotId)

/-- `sorted.sort_by_key(..)`. -/
def sortEntries (entries : List IndexEntry) : List IndexEntry :=
  entries.mergeSort IndexEntry.notAfter

def entryRow (entry : IndexEntry) : List String :=
  ["entry", toString entry.key.toInt, toString entry.rid.pageId, toString entry.rid.slotId]

/-- The file that `write_index_file` writes. -/
def indexContent (m : IndexMeta) (entries : List IndexEntry) : String :=
  fileText ([[indexFileHeader], ["name", m.name], ["table", m.table], ["column", m.column],
    ["key_type", m.keyType.word]] ++ (sortEntries entries).map entryRow)

def writeIndexFile (m : IndexMeta) (entries : List IndexEntry) : EStateM IndexError Disk Unit :=
  mapError .io (Disk.write (indexFilePath m.name) (indexContent m entries))

def createIndexFile (m : IndexMeta) : EStateM IndexError Disk Unit := writeIndexFile m []

def deleteIndexFile (name : String) : EStateM IndexError Disk Unit :=
  mapError .io (Disk.removeFile (indexFilePath name))

/-! ## Reading -/

/-- What has been read of an index file. -/
structure IndexDraft where
  name : Option String
  table : Option String
  column : Option String
  keyType : Option IndexKeyType
  entries : List IndexEntry

namespace IndexDraft

def empty : IndexDraft := ⟨none, none, none, none, []⟩

/-- The fields of one line. -/
def addFields (draft : IndexDraft) : List String → Except IndexError IndexDraft
  | [tag, value] =>
      if tag = "name" then return { draft with name := some value }
      else if tag = "table" then return { draft with table := some value }
      else if tag = "column" then return { draft with column := some value }
      else if tag = "key_type" ∧ value = "int32" then return { draft with keyType := some .int32 }
      else throw (.corrupted "unrecognized index file line")
  | [tag, key, page, slot] =>
      if tag = "entry" then do
        let some key := parseInt32 key | throw (.corrupted "invalid index key")
        let some page := parseUnsigned 32 page | throw (.corrupted "invalid index page id")
        let some slot := parseUnsigned 32 slot | throw (.corrupted "invalid index slot id")
        return { draft with entries := draft.entries ++ [⟨key, page, slot⟩] }
      else throw (.corrupted "unrecognized index file line")
  | _ => throw (.corrupted "unrecognized index file line")

/-- The loop of `load_index_file` over the lines after the first. -/
def addLines (draft : IndexDraft) : List String → Except IndexError IndexDraft
  | [] => return draft
  | line :: rest =>
      if line = "" then addLines draft rest
      else do addLines (← draft.addFields (fields line)) rest

/-- `option.ok_or(error)`. -/
def need {α : Type} (message : String) : Option α → Except IndexError α
  | some a => return a
  | none => throw (.corrupted message)

def finish (draft : IndexDraft) : Except IndexError (IndexMeta × List IndexEntry) := do
  let name ← need "missing index name" draft.name
  let table ← need "missing index table" draft.table
  let column ← need "missing index column" draft.column
  let keyType ← need "missing index key type" draft.keyType
  return (⟨name, table, column, keyType⟩, draft.entries)

end IndexDraft

def loadIndexFile (d : Disk) (name : String) : Except IndexError (IndexMeta × List IndexEntry) := do
  let content ← (d.readToString (indexFilePath name)).mapError .io
  match lines content with
  | [] => throw (.corrupted "missing index file header")
  | header :: rest =>
      if header ≠ indexFileHeader then throw (.corrupted "unexpected index file header")
      else do (← IndexDraft.empty.addLines rest).finish

def replaceIndexEntries (name : String) (entries : List IndexEntry) :
    EStateM IndexError Disk Unit := do
  mapError .io Disk.turn
  let (m, _) ← lift (loadIndexFile (← get) name)
  writeIndexFile m entries

/-- `entries[start..end]` panics when the file is not sorted. -/
def lookupEq (d : Disk) (name : String) (key : Int32) : Except (Stop IndexError) (List Rid) := do
  let (_, entries) ← (loadIndexFile d name).mapError .error
  let start := partitionPoint (fun entry : IndexEntry => entry.key < key) entries
  let stop := partitionPoint (fun entry : IndexEntry => entry.key ≤ key) entries
  if start ≤ stop then return ((entries.drop start).take (stop - start)).map IndexEntry.rid
  else throw .panic

end Redbase.Index
