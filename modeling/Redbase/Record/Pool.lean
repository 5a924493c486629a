import Redbase.Record.Lemmas.Pool
import Redbase.Record.Theorems

/-!
# The pool of a record file

In every run of a record file its pool goes through a run of its own, of one client with one guard
that writes while its frame is dirty. So no write is lost, and what the file holds is what the
pool's pages hold.
-/

namespace Redbase.Record

open Prog Bytes Page Buffer BufferPoolState World Recency

variable {I : Type} [ReliableIo I] {pageFile : PageFile I} {recordSize : Nat}
  {hist : List (Op × Reply)} {s : Opened I}

theorem Run.inRun (hp : Represents pageFile Store.empty) (hr : Run pageFile recordSize hist s) :
    InRun s.file.pool := by
  induction hr with
  | create pos hc => exact create_inRun ⟨_, hp⟩ hc
  | @step hist s op hr _ ih =>
      obtain ⟨hlt, pages, chain, hi⟩ := hr.implements hp
      rcases step_proceeds hi ih op with ⟨e, he, href⟩ | hrun
      · have ha := (step_simulates hi hlt op).answers
        rw [he] at ha
        exact absurd href (not_refuses_of_answers ha)
      · exact hrun

/-- The pool of a record file is in a run with one guard at a time and without a write to a clean
frame; the records are in the bytes that this run wrote last, and the pages that it requested last
are cached. -/
theorem run_pool (hp : Represents pageFile Store.empty) (hr : Run pageFile recordSize hist s) :
    ∃ h, World.Run (fun w e => OneGuard w e ∧ WritesDirty w e) h ⟨s.file.pool, [], false⟩ ∧
      (∃ pages, (∀ p ≤ s.file.header.numPages, lastWrite h ⟨s.file.fileId, p⟩ = some (pages p)) ∧
        lookup s.file.header pages = stored hist) ∧
      ∀ key, s.file.pool.pageTable key ≠ none ↔ key ∈ requests h ∧
        (since (requests h) key).card < s.cap := by
  obtain ⟨-, pages, chain, hi⟩ := hr.implements hp
  obtain ⟨h, hrun⟩ := Run.inRun hp hr
  have hquiet := hi.holds.quiet
  have hinv := Run.inv hrun rfl
  refine ⟨h, hrun, ⟨pages, fun q hq => ?_, hi.entries⟩, fun key => ?_⟩
  · have hback := Run.backed (hrun.mono fun _ _ he => he.2) rfl
    rw [Backed.unique hinv hback hquiet.backed hquiet.file_known]
    exact if_pos ⟨rfl, Nat.lt_succ_of_le hq⟩
  · obtain ⟨l, hl, -⟩ := (Run.caches (hrun.mono fun _ _ he => he.1) rfl).places
    rw [← hl.mem_iff hinv, mem_take_lastUsed]

/-- After one insert the record is in the bytes that the run of the pool wrote last. -/
theorem run_pool_insert :
    ∃ (pageFile : PageFile DiskPageIo) (s : Opened DiskPageIo) (rid : Rid)
      (h : List (Event (PageFile DiskPageIo) s.cap × Buffer.Reply (PageFile DiskPageIo) s.cap)),
      Run pageFile 4 [(.insert [1, 2, 3, 4], .inserted rid)] s ∧
        World.Run (fun w e => OneGuard w e ∧ WritesDirty w e) h ⟨s.file.pool, [], false⟩ ∧
        ∃ pages, (∀ p ≤ s.file.header.numPages, lastWrite h ⟨s.file.fileId, p⟩ = some (pages p)) ∧
          lookup s.file.header pages rid = some [1, 2, 3, 4] := by
  obtain ⟨pageFile, s, hp, run, hn⟩ := exists_created
  obtain ⟨hlt, pages, chain, hi⟩ := run.implements hp
  have hstep := step_simulates hi hlt (.insert [1, 2, 3, 4])
  have hlt₁ : (step s (.insert [1, 2, 3, 4])).1.file.header.numPages < 2 ^ 31 := by
    have := hstep.grows
    omega
  have run₁ := run.step (.insert [1, 2, 3, 4]) hlt₁
  obtain ⟨rid, hr, -⟩ := hstep.answers
  rw [hr] at run₁
  obtain ⟨h, hrun, ⟨pages, hlast, hlookup⟩, -⟩ := run_pool hp run₁
  refine ⟨pageFile, _, rid, h, run₁, hrun, pages, hlast, ?_⟩
  rw [hlookup]
  simp [stored]

end Redbase.Record
