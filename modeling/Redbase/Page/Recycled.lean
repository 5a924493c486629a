import Redbase.Page.Run
import Redbase.Page.Lemmas.Coherent

/-!
# What an opened file hands out

`PageFile::open` checks the head of the free list and nothing else of it; `allocate_page` follows
the links of the pages as it finds them.
-/

namespace Redbase.Page

open Bytes PageFile ByteIo

/-- The first `k` pages of the free list from `link` on, as the bytes `c` have it. A link to no page
of the file ends the list: every allocation fails there, or the list ends properly. -/
def freeLinks (c : List UInt8) : Nat → Int → List Nat
  | 0, _ => []
  | k + 1, link =>
      if link = freeListEnd ∨ (FileHeader.read (headerAt c)).numPages ≤ asU32 link then []
      else asU32 link :: freeLinks c k (pageAt c (asU32 link)).nextFree

/-- The free list of the bytes `c` comes to no page twice and to no page that is marked as used. -/
def FreeListClear (c : List UInt8) : Prop :=
  ∀ k, (freeLinks c k (FileHeader.read (headerAt c)).firstFreePage).Nodup ∧
    ∀ p ∈ freeLinks c k (FileHeader.read (headerAt c)).firstFreePage,
      (pageAt c p).nextFree ≠ pageUsed

/-- The states that calls of `allocate_page` lead to, with any changes through the guards. -/
inductive Allocating {I : Type} [PageIo I] (s : PageFile I) : PageFile I → Prop
  | start : Allocating s s
  | step {t : PageFile I} (change : PageData → PageData) : Allocating s t →
      Allocating s (step t (.allocate change)).1

theorem Allocating.head {I : Type} [PageIo I] {s u : PageFile I} {change : PageData → PageData}
    (ha : Allocating (Page.step s (.allocate change)).1 u) : Allocating s u := by
  induction ha with
  | start => exact .step change .start
  | step change' _ ih => exact .step change' ih

/-- The next `allocate_page` fails, or hands out a page beyond the end of the file or one that
neither the file nor the stored bytes show as used. -/
def HandsOutFree {I : Type} [ByteIo I] (t : PageFile I) : Prop :=
  ∀ change p d, (step t (.allocate change)).2 = .allocated p d →
    t.header.numPages ≤ p ∨
      (t.image p).nextFree ≠ pageUsed ∧ (pageAt (content t.io) p).nextFree ≠ pageUsed

/-- The pages that the bytes `c` mark as used are shown and stored as they are in `c`. -/
def KeepsUsed {I : Type} [ByteIo I] (c : List UInt8) (t : PageFile I) : Prop :=
  ∀ p < (FileHeader.read (headerAt c)).numPages, (pageAt c p).nextFree = pageUsed →
    t.image p = pageAt c p ∧ pageAt (content t.io) p = pageAt c p

/-- However a file with the bytes `c` is opened and whatever calls on its `PageIo` fail, allocations
on it recycle no page in use. -/
def NeverRecycles (c : List UInt8) : Prop :=
  ∀ (I : Type) [ByteIo I] (io io' : I) (s t : PageFile I), content io = c →
    PageFile.open io = .ok s io' → Allocating s t → HandsOutFree t ∧ KeepsUsed c t

end Redbase.Page
