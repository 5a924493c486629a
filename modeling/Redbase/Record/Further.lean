import Redbase.Record.Invariant
import Redbase.Record.File
import Redbase.Page.Faults

/-!
# Record files over page files with further pages

`RecordFile::open` accepts a page file that has more pages than the record header declares. What it
says of the declared pages, and the runs of inserts on the opened file.
-/

namespace Redbase.Record

open Page RecordFile RecordScan

/-- The declared pages of the file with these `contents` are readable data pages with `chain` as
their free-page chain. -/
structure DataPages (h : RecordFileHeader) (contents : Nat → Option PageData)
    (pages : Nat → PageData) (chain : List Nat) : Prop where
  wf : WellFormed h pages chain
  readable : ∀ p, h.HasPage p → recordPageFull ≤ (headerOf (pages p)).nextFreePage
  shown : ∀ p, h.HasPage p → contents p = some (pages p)

section Inserts

variable {I : Type} [PageIo I] {cap : Nat}

/-- An insert of `data` that needs a page gets the one after the last declared page. -/
def TakesNext (s : RecordFile I cap) (data : List UInt8) : Prop :=
  data.length = s.header.recordSize → s.header.firstFreePage = recordPageListEnd →
    ∀ file, s.pool.files s.fileId = some file → nextPageId file = s.header.numPages + 1

/-- The runs of inserts from `s` whose calls meet `ok`, with the records that were inserted. -/
inductive Inserts (ok : RecordFile I cap → List UInt8 → Prop) (s : RecordFile I cap) :
    List Record → RecordFile I cap → Prop
  | start : Inserts ok s [] s
  | inserted {l : List Record} {t u : RecordFile I cap} {rid : Rid} (data : List UInt8) :
      Inserts ok s l t →
      ok t data → RecordFile.insert data t = .ok rid u → Inserts ok s (⟨rid, data⟩ :: l) u
  | refused {l : List Record} {t u : RecordFile I cap} {e : Prog.Stop RecordError}
      (data : List UInt8) : Inserts ok s l t →
      ok t data → RecordFile.insert data t = .error e u → Inserts ok s l u

/-- `get` and a full scan yield the record. -/
def Finds (s : RecordFile I cap) (r : Record) : Prop :=
  (∃ t, RecordFile.get r.rid s = .ok r t) ∧ ∃ l t, collect s.scan = .ok l t ∧ r ∈ l

end Inserts

end Redbase.Record
