import Redbase.Record.Run
import Redbase.Record.Lemmas.Filter

/-!
# Scans, asked again and again

The states of a record file with any number of pages, the calls that start a scan, and the records
that a scan yields when it is asked for the next one again and again.
-/

namespace Redbase.Record

open Prog Bytes Page RecordFile

section States

variable {I : Type} [PageIo I]

/-- The runs on a file created on `pageFile`, however many pages it grows to. -/
inductive Trace (pageFile : PageFile I) (recordSize : Nat) : List (Op × Reply) → Opened I → Prop
  | create {cap : Nat} {file : RecordFile I cap} (pos : 0 < cap) :
      RecordFile.create pageFile cap recordSize = .ok file →
        Trace pageFile recordSize [] ⟨cap, file⟩
  | step {h : List (Op × Reply)} {s : Opened I} (op : Op) : Trace pageFile recordSize h s →
      Trace pageFile recordSize ((op, (step s op).2) :: h) (step s op).1

end States

/-! ## Starting a scan -/

inductive ScanCall where
  | scan
  | scanWith (predicate : List UInt8 → Bool)
  | scanWithPredicate (predicate : ScanPredicate)
  | scanWithFilter (filter : CompoundPredicate)
  | scanWithLogic (filter : LogicFilter)

namespace RecordFile

variable {I : Type} {cap : Nat}

def startScan (file : RecordFile I cap) : ScanCall → Except RecordError (RecordScan I cap)
  | .scan => .ok file.scan
  | .scanWith predicate => .ok (file.scanWith fun bytes => .ok (predicate bytes))
  | .scanWithPredicate predicate => file.scanWithPredicate predicate
  | .scanWithFilter filter => file.scanWithFilter filter
  | .scanWithLogic filter => file.scanWithLogic filter

end RecordFile

/-! ## Asking for records -/

namespace RecordScan

variable {I : Type} [PageIo I] {cap : Nat}

/-- `n` calls of `next_record`, up to the first error. -/
def calls : Nat → ScanM I cap (List (Option Record))
  | 0 => return []
  | n + 1 => do
      let answer ← nextRecord
      let answers ← calls n
      return answer :: answers

/-- `l` is in order and has just the live records that the scan accepts. -/
structure Lists (sc : RecordScan I cap) (h : List (Op × Reply)) (l : List Record) : Prop where
  ordered : l.Pairwise fun a b => a.rid.Before b.rid
  mem_iff : ∀ record, record ∈ l ↔ stored h record.rid = some record.data ∧
    sc.predicate record.data = .ok true

/-- However often it is called, `next_record` yields the live records that the scan accepts, in
order and once each, then `None` for ever; and the live records stay what they were. -/
def Exact (sc : RecordScan I cap) (recordSize : Nat) (h : List (Op × Reply)) : Prop :=
  ∃ l, sc.Lists h l ∧ ∀ n, ∃ t, calls n sc = .ok ((l.map some ++ List.replicate n none).take n) t ∧
    ∀ rid, Answers recordSize h (step ⟨cap, t.file⟩ (.get rid)).2 (.get rid)

end RecordScan

end Redbase.Record
