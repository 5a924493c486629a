import Redbase.Buffer.Pool
import Redbase.Lib.Chain

/-!
# The invariant of the buffer pool

What the pool asks of its files, and how page table, frames, free list and guards fit together.
-/

namespace Redbase.Page

open Prog

/-- A page store whose calls may fail, but never take a page out of use, and which hands out only
pages that were not in use. `Valid` is the store's own invariant. -/
class LawfulPageStore (F : Type) extends PageStore F where
  Valid : F → Prop
  InUse : F → Nat → Prop
  allocate_law (file : F) (h : Valid file) :
    wp allocatePage
      (fun p t => (Valid t ∧ ∀ q, InUse file q → InUse t q) ∧ ¬ InUse file p ∧ InUse t p)
      (fun _ t => Valid t ∧ ∀ q, InUse file q → InUse t q) file
  read_law (file : F) (p : Nat) (h : Valid file) :
    wp (readPage p) (fun _ t => (Valid t ∧ ∀ q, InUse file q → InUse t q) ∧ InUse t p)
      (fun _ t => Valid t ∧ ∀ q, InUse file q → InUse t q) file
  write_law (file : F) (p : Nat) (data : PageData) (h : Valid file) :
    wp (writePage p data) (fun _ t => Valid t ∧ ∀ q, InUse file q → InUse t q)
      (fun _ t => Valid t ∧ ∀ q, InUse file q → InUse t q) file
  flush_law (file : F) (h : Valid file) :
    wp flush (fun _ t => Valid t ∧ ∀ q, InUse file q → InUse t q)
      (fun _ t => Valid t ∧ ∀ q, InUse file q → InUse t q) file

end Redbase.Page

namespace Redbase.Buffer

open Prog Bytes Page Function Linked

variable {F : Type} {cap : Nat}

namespace BufferPoolState

/-- The list of frames in use, as its links. -/
def links (s : BufferPoolState F cap) : Links (Fin cap) where
  head := s.mruHead
  tail := s.lruTail
  next frameId := (s.frames frameId).next
  prev frameId := (s.frames frameId).prev

def withLinks (s : BufferPoolState F cap) (L : Links (Fin cap)) : BufferPoolState F cap :=
  { s with
    frames := fun frameId =>
      { s.frames frameId with prev := L.prev frameId, next := L.next frameId }
    mruHead := L.head
    lruTail := L.tail }

end BufferPoolState

open BufferPoolState

/-- `l` lists the frames in use, most recently used first; the others are on the free list. -/
structure Order (s : BufferPoolState F cap) (l : List (Fin cap)) : Prop where
  links : s.links = Links.ofList l
  nodup : l.Nodup
  free_nodup : s.freeList.Nodup
  mem_iff : ∀ frameId, frameId ∈ l ↔ frameId ∉ s.freeList

/-- The page table and the frames tell the same story, of pages in use of registered files. -/
structure Table [LawfulPageStore F] (s : BufferPoolState F cap) : Prop where
  mem_iff : ∀ key frameId, s.pageTable key = some frameId ↔ (s.frames frameId).key = some key
  free : ∀ frameId ∈ s.freeList, (s.frames frameId).key = none
  idle : ∀ frameId, (s.frames frameId).key = none →
    (s.frames frameId).pinCount = 0 ∧ (s.frames frameId).dirty = false
  registered : ∀ frameId key, (s.frames frameId).key = some key → ∃ file,
    s.files key.fileId = some file ∧ LawfulPageStore.InUse file key.pageId
  valid : ∀ fileId file, s.files fileId = some file → LawfulPageStore.Valid file
  fresh : ∀ fileId, s.nextFileId ≤ fileId → s.files fileId = none

/-- Every frame is pinned as often as a live guard carries it, and guards know its page. -/
structure Pinned (s : BufferPoolState F cap) (guards : List (Guard cap)) : Prop where
  count : ∀ frameId, (s.frames frameId).pinCount = guards.countP (·.frameId = frameId)
  key : ∀ g ∈ guards, (s.frames g.frameId).key = some g.key

structure Inv [LawfulPageStore F] (s : BufferPoolState F cap) (guards : List (Guard cap)) :
    Prop where
  order : ∃ l, Order s l
  table : Table s
  pinned : Pinned s guards

/-- How a method may fail while the invariant holds: no report of a corrupted pool, apart from the
exhaustion of the file ids, and no endless walk through the frames. -/
def Expected : Stop BufferPoolError → Prop
  | .error (.corrupted message) => message = "file id overflow"
  | .error _ | .panic => True
  | .diverge => False

end Redbase.Buffer
