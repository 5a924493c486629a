import Redbase.Buffer.World

/-!
# Requests for pages that do not exist

A request may name a file that is not registered or a page that is out of range or free. What it
costs the pool is seen on the cached pages, their order and the free list.
-/

namespace Redbase.Page

open Prog

/-- A page store that does not refuse to write back a page in use; the write-back may fail
otherwise. -/
class AcceptingPageStore (F : Type) extends LawfulPageStore F where
  accepts_law (file : F) (p : Nat) (data : PageData) (h : LawfulPageStore.Valid file)
    (hu : LawfulPageStore.InUse file p) :
    wp (do PageStore.writePage p data; PageStore.flush) (fun _ _ => True)
      (fun e _ => ∀ q, e ≠ .invalidPageId q) file

end Redbase.Page

namespace Redbase.Buffer

open Prog Page

variable {F : Type} {cap : Nat}

/-- `UnknownFile` or `InvalidPageId`. -/
def Refusal (why : Stop BufferPoolError) : Prop :=
  (∃ fileId, why = .error (.unknownFile fileId)) ∨
    ∃ pageId, why = .error (.pageStore (.invalidPageId pageId))

/-- The event is a request for a page, and it is refused. -/
def Rejected [PageStore F] (s : World F cap) (e : Event F cap) : Prop :=
  match e with
  | .getPage _ _ | .getPageMut _ _ | .allocatePage _ =>
      ∃ why, (s.step e).2 = .failed why ∧ Refusal why
  | _ => False

/-- The cached pages, the most recently used one first. -/
def CachedInOrder (s : BufferPoolState F cap) (keys : List BufferKey) : Prop :=
  ∃ l, Order s l ∧ l.filterMap (fun f => (s.frames f).key) = keys

/-- The cached pages with their bytes, marks, pins and order and the free list are the same. -/
structure CostsNothing (s t : BufferPoolState F cap) : Prop where
  pageTable : t.pageTable = s.pageTable
  key : ∀ f, (t.frames f).key = (s.frames f).key
  data : ∀ f, (t.frames f).data = (s.frames f).data
  dirty : ∀ f, (t.frames f).dirty = (s.frames f).dirty
  pinCount : ∀ f, (t.frames f).pinCount = (s.frames f).pinCount
  order : ∀ keys, CachedInOrder s keys → CachedInOrder t keys
  freeList : t.freeList = s.freeList

/-- No frame is free, and the last frame of the list that is not pinned holds no page. -/
def TakesEmpty (s : BufferPoolState F cap) : Prop :=
  s.freeList = [] ∧ ∃ l₁ f l₂, Order s (l₁ ++ f :: l₂) ∧ (s.frames f).pinCount = 0 ∧
    (∀ x ∈ l₂, (s.frames x).pinCount ≠ 0) ∧ (s.frames f).key = none

end Redbase.Buffer
