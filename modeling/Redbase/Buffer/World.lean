import Redbase.Buffer.Invariant

/-!
# A pool and its clients

The state of the pool together with the guards that live, and what any number of clients can do, one
step at a time: call a method of the pool, write through a guard, drop a guard. The lock makes each
call one step; a panic under the lock poisons it.
-/

namespace Redbase.Buffer

open Prog Bytes Page BufferPoolState

structure World (F : Type) (cap : Nat) where
  pool : BufferPoolState F cap
  guards : List (Guard cap)
  poisoned : Bool

/-- `write` replaces the bytes behind a write guard. -/
inductive Event (F : Type) (cap : Nat) where
  | registerFile (file : F)
  | getPage (fileId pageId : Nat)
  | getPageMut (fileId pageId : Nat)
  | allocatePage (fileId : Nat)
  | forceFile (fileId : Nat) (pageId : Option Nat)
  | flushFile (fileId : Nat)
  | removeFile (fileId : Nat)
  | write (guard : Guard cap) (data : PageData)
  | drop (guard : Guard cap)

/-- A guard shows the bytes of its page. -/
inductive Reply (F : Type) (cap : Nat) where
  | registered (fileId : Nat)
  | guard (guard : Guard cap) (data : PageData)
  | done
  | removed (file : F)
  | failed (why : Stop BufferPoolError)

namespace World

variable {F : Type} {cap : Nat}

/-- `BufferPool::new`. -/
def new (F : Type) (cap : Nat) : World F cap := ⟨BufferPoolState.new F cap, [], false⟩

/-- A method of the pool, under its lock. -/
def call {α : Type} (s : World F cap) (m : PoolM F cap α)
    (k : α → World F cap → World F cap × Reply F cap) : World F cap × Reply F cap :=
  if s.poisoned then (s, .failed (.error (.lockPoisoned "buffer pool state")))
  else match m s.pool with
    | .ok a pool => k a { s with pool }
    | .error why pool => ({ s with pool, poisoned := why = .panic }, .failed why)

def giveGuard (guard : Guard cap) (s : World F cap) : World F cap × Reply F cap :=
  ({ s with guards := guard :: s.guards }, .guard guard (s.pool.frames guard.frameId).data)

def step [PageStore F] (s : World F cap) : Event F cap → World F cap × Reply F cap
  | .registerFile file => s.call (registerFile file) fun fileId s => (s, .registered fileId)
  | .getPage fileId pageId => s.call (getPage fileId pageId) giveGuard
  | .getPageMut fileId pageId => s.call (getPageMut fileId pageId) giveGuard
  | .allocatePage fileId => s.call (allocatePage fileId) giveGuard
  | .forceFile fileId pageId => s.call (forceFile fileId pageId) fun _ s => (s, .done)
  | .flushFile fileId => s.call (flushFile fileId) fun _ s => (s, .done)
  | .removeFile fileId => s.call (removeFile fileId) fun file s => (s, .removed file)
  | .write guard data =>
      ({ s with pool := s.pool.modifyFrame guard.frameId fun frame => { frame with data } }, .done)
  | .drop guard =>
      ({ s with
          pool := if s.poisoned then s.pool else s.pool.unpinFrame guard.frameId
          guards := s.guards.erase guard }, .done)

/-- Only live guards can be used, and a registered file satisfies its own invariant. -/
def Possible [LawfulPageStore F] (s : World F cap) : Event F cap → Prop
  | .registerFile file => LawfulPageStore.Valid file
  | .write guard _ => guard ∈ s.guards ∧ guard.writable = true
  | .drop guard => guard ∈ s.guards
  | _ => True

/-- The runs of a new pool whose steps satisfy `P`, with their history, newest first. -/
inductive Run [LawfulPageStore F] (P : World F cap → Event F cap → Prop) :
    List (Event F cap × Reply F cap) → World F cap → Prop
  | new : Run P [] (new F cap)
  | step {h : List (Event F cap × Reply F cap)} {s : World F cap} (e : Event F cap) :
      Run P h s → s.Possible e → P s e → Run P ((e, (s.step e).2) :: h) (s.step e).1

end World

end Redbase.Buffer
