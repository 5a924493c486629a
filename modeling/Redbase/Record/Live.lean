import Redbase.Record.Lemmas.Lifetime
import Redbase.Record.Lemmas.Scan

/-!
# What a record file shows

The pages and the records of an open file, read off its pool and its page file.
-/

namespace Redbase.Record

open Prog Bytes Page Buffer RecordFile

section Definitions

variable {I : Type} [ByteIo I] {cap : Nat}

/-- The bytes of page `p` as the pool shows them: in its frame, or in the page file. -/
def shows (s : RecordFile I cap) (p : Nat) : Option PageData :=
  match s.pool.pageTable ⟨s.fileId, p⟩ with
  | some frameId => some (s.pool.frames frameId).data
  | none => (s.pool.files s.fileId).bind fun file => file.contents p

/-- Every data page, as it is shown, has a header that `RecordPageHeader::validate` accepts. -/
def HeadersValid (s : RecordFile I cap) : Prop :=
  ∀ p, s.header.HasPage p → ∃ bytes header, shows s p = some bytes ∧
    readPageHeader s.header bytes = .ok header

/-- A page, as it is shown. -/
def shown (s : RecordFile I cap) (p : Nat) : PageData := (shows s p).getD (Block.zero _)

/-- The bytes under a record id, as they are shown. -/
def live (s : RecordFile I cap) : Rid → Option (List UInt8) := lookup s.header (shown s)

end Definitions

variable {I : Type} [ReliableIo I] {cap p : Nat} {s : RecordFile I cap} {pages : Nat → PageData}
  {chain : List Nat}

theorem Holds.shows (hh : Holds s pages chain) (hp : p ≤ s.header.numPages) :
    shows s p = some (pages p) := by
  have hmem : filePages s.fileId (s.header.numPages + 1) pages ⟨s.fileId, p⟩ = some (pages p) := by
    simp [filePages, Nat.lt_succ_of_le hp]
  unfold Record.shows
  cases hk : s.pool.pageTable ⟨s.fileId, p⟩ with
  | some frameId =>
      have hkey := (hh.quiet.inv.table.mem_iff _ _).mp hk
      exact (hh.quiet.backed.cached frameId _ hkey).symm.trans hmem
  | none =>
      cases hf : s.pool.files s.fileId with
      | none => exact absurd hf hh.quiet.file_known
      | some file =>
          show file.contents p = _
          rw [← hh.quiet.backed.stored _ file hf p fun x hx => by rw [hk] at hx; cases hx]
          exact hmem

theorem Holds.headersValid_iff (hh : Holds s pages chain) :
    HeadersValid s ↔ ∀ p, s.header.HasPage p → Readable s.header (pages p) := by
  refine forall_congr' fun p => forall_congr' fun hp =>
    ⟨?_, fun hr => ⟨_, _, hh.shows hp.2, hr.readPageHeader⟩⟩
  rintro ⟨bytes, header, hshow, hread⟩
  rw [hh.shows hp.2, Option.some.injEq] at hshow
  subst hshow
  by_contra hu
  rw [(hh.wf.page p hp).readPageHeader_error hu] at hread
  cases hread

theorem Holds.shown_eq (hh : Holds s pages chain) (hp : s.header.HasPage p) :
    shown s p = pages p := by
  rw [shown, hh.shows hp.2]
  rfl

theorem Holds.live_eq (hh : Holds s pages chain) : live s = lookup s.header pages :=
  lookup_congr fun _ hp => hh.shown_eq hp

end Redbase.Record
