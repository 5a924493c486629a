import Redbase.Buffer.World
import Redbase.Lib.Recency

/-!
# When frames were touched

A frame is touched when a request acquires it, when a request hits it, and when its last guard is
dropped. The events of a run determine its touches.
-/

namespace Redbase.Page

open Prog

/-- A page store that says what is on the disk: there are the bytes that were written back. -/
class DurablePageStore (F : Type) extends LawfulPageStore F where
  OnDisk : F → Nat → PageData → Prop
  writeBack_law (file : F) (p : Nat) (data : PageData) (h : LawfulPageStore.Valid file) :
    wp (do PageStore.writePage p data; PageStore.flush) (fun _ t => OnDisk t p data)
      (fun _ _ => True) file

end Redbase.Page

namespace Redbase.Buffer

open Prog Page BufferPoolState

variable {F : Type} [PageStore F] {cap : Nat}

/-- The frame that a request for an uncached page gets from `acquire_frame`, if it gets one. -/
def acquired (s : BufferPoolState F cap) : List (Fin cap) := (returned (acquireFrame s)).toList

/-- The page is not cached, or is a new one. -/
def Misses (s : BufferPoolState F cap) : Event F cap → Prop
  | .getPage fileId pageId => s.pageTable ⟨fileId, pageId⟩ = none
  | .getPageMut fileId pageId => s.pageTable ⟨fileId, pageId⟩ = none
  | .allocatePage _ => True
  | _ => False

/-- The frame that a request touches. -/
def requested (s : BufferPoolState F cap) (key : BufferKey) : List (Fin cap) :=
  match s.pageTable key with
  | some frameId => [frameId]
  | none => acquired s

namespace World

/-- The frames that a step touches. -/
def touched (s : World F cap) : Event F cap → List (Fin cap)
  | .getPage fileId pageId => requested s.pool ⟨fileId, pageId⟩
  | .getPageMut fileId pageId => requested s.pool ⟨fileId, pageId⟩
  | .allocatePage _ => acquired s.pool
  | .drop guard => if s.guards.countP (·.frameId = guard.frameId) = 1 then [guard.frameId] else []
  | _ => []

/-- The state after the events, which are listed newest first. -/
def replay : List (Event F cap) → World F cap
  | [] => new F cap
  | e :: es => ((replay es).step e).1

/-- The touches of the events, the newest first. -/
def touchLog : List (Event F cap) → List (Fin cap)
  | [] => []
  | e :: es => (replay es).touched e ++ touchLog es

end World

end Redbase.Buffer
