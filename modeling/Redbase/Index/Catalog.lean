import Redbase.Record.Layout
import Redbase.Files.Disk
import Redbase.Lib.SortedMap

/-!
# Indexes and their catalog

What an index is about, its entries and its errors; and what indexes there are, by name, in memory
and in the file `indexes.txt`.
-/

namespace Redbase.Index

open Prog Text Page Record Files

inductive IndexKeyType where
  | int32
  deriving DecidableEq, Repr

structure IndexMeta where
  name : String
  table : String
  column : String
  keyType : IndexKeyType
  deriving DecidableEq, Repr

structure IndexEntry where
  key : Int32
  rid : Rid
  deriving DecidableEq, Repr

inductive IndexError where
  | io (error : IoError)
  | duplicateIndex (name : String)
  | indexNotFound (name : String)
  | unsupportedKeyType (kind : String)
  | corrupted (message : String)
  deriving DecidableEq, Repr

def indexCatalogPath : String := "indexes.txt"

def indexFilePath (name : String) : String := name ++ ".idx"

def indexFileHeader : String := "rs-redbase-index-v1"

def IndexKeyType.word : IndexKeyType → String
  | .int32 => "int32"

structure IndexCatalog where
  indexes : SortedMap String IndexMeta compareText

namespace IndexCatalog

def empty : IndexCatalog := ⟨SortedMap.empty⟩

/-- The loop of `load` over the lines after the first. -/
def loadLines (indexes : SortedMap String IndexMeta compareText) :
    List String → Except IndexError (SortedMap String IndexMeta compareText)
  | [] => return indexes
  | line :: rest =>
      if line = "" then loadLines indexes rest
      else match fields line with
        | [tag, name, table, column, kind] =>
            if tag = "index" ∧ kind = "int32" then
              if indexes.contains name then throw (.corrupted "duplicate index entry")
              else loadLines (indexes.insert name ⟨name, table, column, .int32⟩) rest
            else throw (.corrupted "unrecognized index catalog line")
        | _ => throw (.corrupted "unrecognized index catalog line")

def load (d : Disk) : Except IndexError IndexCatalog :=
  if d.pathExists indexCatalogPath = false then return empty
  else do
    let content ← (d.readToString indexCatalogPath).mapError .io
    match lines content with
    | [] => return empty
    | header :: rest =>
        if header ≠ indexFileHeader then throw (.corrupted "unexpected index catalog header")
        else return ⟨← loadLines SortedMap.empty rest⟩

/-- The line of an index. -/
def metaRow (m : IndexMeta) : List String := ["index", m.name, m.table, m.column, m.keyType.word]

/-- The file that `save` writes. -/
def content (catalog : IndexCatalog) : String :=
  fileText ([indexFileHeader] :: catalog.indexes.values.map metaRow)

def save (catalog : IndexCatalog) : EStateM IndexError Disk Unit :=
  mapError .io (Disk.write indexCatalogPath catalog.content)

def contains (catalog : IndexCatalog) (name : String) : Bool := catalog.indexes.contains name

def insert (catalog : IndexCatalog) (m : IndexMeta) : Except IndexError IndexCatalog :=
  if catalog.indexes.contains m.name then throw (.duplicateIndex m.name)
  else return ⟨catalog.indexes.insert m.name m⟩

/-- The index that is removed, and what is left. -/
def remove (catalog : IndexCatalog) (name : String) :
    Except IndexError (IndexMeta × IndexCatalog) :=
  match catalog.indexes.find name with
  | some m => return (m, ⟨catalog.indexes.erase name⟩)
  | none => throw (.indexNotFound name)

def list (catalog : IndexCatalog) : List IndexMeta := catalog.indexes.values

def indexesForTable (catalog : IndexCatalog) (table : String) : List IndexMeta :=
  catalog.indexes.values.filter fun m => m.table = table

end IndexCatalog

end Redbase.Index
