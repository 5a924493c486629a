import Redbase.Page.Run
import Redbase.Page.Lemmas.Coherent

/-!
# Page ids as links

A page id is an unsigned number of 32 bits, a link a signed one, and two negative links have a
meaning of their own.
-/

namespace Redbase.Page

open Bytes PageFile ByteIo

section Steps

variable {I : Type} [PageIo I]

/-- The file after the operations, and their answers. -/
def steps (s : PageFile I) : List Op → PageFile I × List Reply
  | [] => (s, [])
  | op :: ops => ((steps (step s op).1 ops).1, (step s op).2 :: (steps (step s op).1 ops).2)

/-- The next allocations hand out the pages `ps`, the last one first. -/
def HandsOut (s : PageFile I) (ps : List Nat) : Prop :=
  ∀ changes : List (PageData → PageData), changes.length = ps.length →
    (steps s (changes.map .allocate)).2 = ps.reverse.map fun p => .allocated p (Block.zero _)

end Steps

/-- The pages `ps` are disposed of, one after another. Each is reported as free then, and they are
handed out again in the opposite order, also when the file is closed and opened before. -/
structure SurvivesLinks {I : Type} [ByteIo I] (s : PageFile I) (ps : List Nat) : Prop where
  disposed : (steps s (ps.map .dispose)).2 = ps.map fun _ => .done
  reported : ∀ p ∈ ps, (step (steps s (ps.map .dispose)).1 (.dispose p)).2 =
    .failed (.pageAlreadyFree p) ∧
    (step (steps s (ps.map .dispose)).1 (.read p)).2 = .failed (.invalidPageId p)
  handsOut : HandsOut (steps s (ps.map .dispose)).1 ps
  reopened : ∃ t, flush (steps s (ps.map .dispose)).1 = .ok () t ∧
    ∀ io : I, content io = content t.io → ∃ u io', PageFile.open io = .ok u io' ∧ HandsOut u ps

end Redbase.Page
