import Redbase.Buffer.Lemmas.Run
import Redbase.Buffer.Lemmas.Memory

/-!
# What the clients of a pool wrote

The history of a run determines the data of every page, as the clients left it. Runs whose writes
find their frames dirty lose nothing of it.
-/

namespace Redbase.Buffer

open Prog Bytes Page Function Linked BufferPoolState

variable {I : Type} [ReliableIo I] {cap : Nat}

/-- The bytes last written to a page through any guard: zeros if it was allocated and not written
since, what its file brought if it was never written. -/
def lastWrite : List (Event (PageFile I) cap × Reply (PageFile I) cap) → BufferKey → Option PageData
  | [], _ => none
  | (.registerFile file, .registered i) :: h, key =>
      if key.fileId = i then file.contents key.pageId else lastWrite h key
  | (.allocatePage _, .guard guard _) :: h, key =>
      if key = guard.key then some (Block.zero _) else lastWrite h key
  | (.write guard data, _) :: h, key => if key = guard.key then some data else lastWrite h key
  | _ :: h, key => lastWrite h key

/-- A write through a guard finds its frame still marked dirty. -/
def WritesDirty {F : Type} (s : World F cap) : Event F cap → Prop
  | .write guard _ => (s.pool.frames guard.frameId).dirty = true
  | _ => True

variable {s : World (PageFile I) cap}
  {h : List (Event (PageFile I) cap × Reply (PageFile I) cap)}

theorem step_backed (hp : s.poisoned = false) (hi : Inv s.pool s.guards)
    (hb : Backed s.pool (lastWrite h)) (e : Event (PageFile I) cap) (he : s.Possible e)
    (hd : WritesDirty s e) : Backed (s.step e).1.pool (lastWrite ((e, (s.step e).2) :: h)) := by
  cases e with
  | registerFile file =>
      refine call_cases (R := fun t => Backed t.1.pool (lastWrite ((.registerFile file, t.2) :: h)))
        hp (registerFile_backed hi hb he) ?_ ?_
      · exact fun i pool ht => ht.2.1
      · exact fun why pool ht => ht.2.1
  | getPage i p =>
      refine call_cases (R := fun t => Backed t.1.pool (lastWrite ((.getPage i p, t.2) :: h))) hp
        (getPage_backed hi hb i p) ?_ ?_
      · exact fun g pool ht => ht.2.1
      · exact fun why pool ht => ht.2.1.1
  | getPageMut i p =>
      refine call_cases (R := fun t => Backed t.1.pool (lastWrite ((.getPageMut i p, t.2) :: h))) hp
        (getPageMut_backed hi hb i p) ?_ ?_
      · exact fun g pool ht => ht.2.1
      · exact fun why pool ht => ht.2.1.1
  | allocatePage i =>
      refine call_cases (R := fun t => Backed t.1.pool (lastWrite ((.allocatePage i, t.2) :: h))) hp
        (allocatePage_backed hi hb i) ?_ ?_
      · intro g pool ht
        have hm : lastWrite ((.allocatePage i, .guard g (pool.frames g.frameId).data) :: h) =
            update (lastWrite h) g.key (some (Block.zero _)) := by
          funext key
          rw [update_apply]
          rfl
        exact hm ▸ ht.2.1
      · exact fun why pool ht => ht.2.1
  | forceFile i p =>
      refine call_cases (R := fun t => Backed t.1.pool (lastWrite ((.forceFile i p, t.2) :: h))) hp
        (forceFile_backed hi hb i p) ?_ ?_
      · exact fun _ pool ht => ht.2.1
      · exact fun why pool ht => ht.2.1
  | flushFile i =>
      refine call_cases (R := fun t => Backed t.1.pool (lastWrite ((.flushFile i, t.2) :: h))) hp
        (flushFile_backed hi hb i) ?_ ?_
      · exact fun _ pool ht => ht.2.1
      · exact fun why pool ht => ht.2.1
  | removeFile i =>
      refine call_cases (R := fun t => Backed t.1.pool (lastWrite ((.removeFile i, t.2) :: h))) hp
        (removeFile_backed hi hb i) ?_ ?_
      · exact fun file pool ht => ht.2.1
      · exact fun why pool ht => ht.2
  | write g d =>
      have hm : lastWrite ((.write g d, (s.step (.write g d)).2) :: h) =
          update (lastWrite h) g.key (some d) := by
        funext key
        rw [update_apply]
        rfl
      rw [hm]
      exact hb.write hi.table (hi.pinned.key g he.1) hd
  | drop g =>
      simp only [World.step, hp, Bool.false_eq_true, if_false]
      exact hb.unpin

theorem Run.backed (hr : World.Run WritesDirty h s) (hp : s.poisoned = false) :
    Backed s.pool (lastWrite h) := by
  induction hr with
  | new => exact backed_new _
  | @step h s e hr he hd ih =>
      cases hs : s.poisoned with
      | false => exact step_backed hs (Run.inv hr hs) (ih hs) e he hd
      | true => rw [step_poisoned hs e] at hp; cases hp

end Redbase.Buffer
