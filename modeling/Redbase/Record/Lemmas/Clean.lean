import Redbase.Record.Lemmas.Scan
import Redbase.Buffer.Lemmas.Reading

/-!
# A record file that was only read

The methods that read leave the pool without anything to write back, so that a drop leaves the bytes
of the file as they were when it was opened.
-/

namespace Redbase.Record

open Prog Bytes Page Buffer BufferPoolState RecordFile RecordScan

variable {I : Type} [ByteIo I] {cap : Nat} {s : RecordFile I cap} {sc : RecordScan I cap}
  {bytes : List UInt8}

/-- An open file with nothing to write back, over `bytes`. -/
structure Clean (s : RecordFile I cap) (bytes : List UInt8) : Prop where
  pool : Reading s.pool bytes
  headerDirty : s.headerDirty = false

theorem withPage_clean {α : Type} (h : Clean s bytes) (pageId : Nat)
    (body : PageData → Except RecordError α) :
    wp (withPage pageId body) (fun _ t => Clean t bytes) (fun _ t => Clean t bytes) s := by
  have hw := getPage_reading h.pool s.fileId pageId
  unfold wp withPage
  unfold wp at hw
  cases hg : getPage s.fileId pageId s.pool with
  | error e pool =>
      rw [hg] at hw
      exact ⟨hw, h.headerDirty⟩
  | ok g pool =>
      rw [hg] at hw
      have ht : Clean { s with pool := pool.unpinFrame g.frameId } bytes :=
        ⟨hw.unpinFrame, h.headerDirty⟩
      cases hb : body (pool.frames g.frameId).data with
      | ok a =>
          simp only [hb]
          exact ht
      | error e =>
          simp only [hb]
          exact ht

theorem get_clean (h : Clean s bytes) (rid : Rid) :
    wp (RecordFile.get rid) (fun _ t => Clean t bytes) (fun _ t => Clean t bytes) s := by
  unfold RecordFile.get RecordFile.check
  simp only [wp_bind, wp_get]
  cases validateRid s.header rid with
  | error e => exact h
  | ok u => exact withPage_clean h _ _

theorem readRecordIfUsed_clean (h : Clean s bytes) (rid : Rid) :
    wp (readRecordIfUsed rid) (fun _ t => Clean t bytes) (fun _ t => Clean t bytes) s := by
  unfold readRecordIfUsed
  simp only [wp_bind, wp_get, wp_ite, wp_throw]
  split
  · exact h
  · exact withPage_clean h _ _

/-! ## Scans -/

theorem nextFrom_clean (h : Clean sc.file bytes) (fuel : Nat) :
    wp (nextFrom fuel) (fun _ t => Clean t.file bytes) (fun _ t => Clean t.file bytes) sc := by
  induction fuel generalizing sc with
  | zero => exact h
  | succ fuel ih =>
      unfold nextFrom
      simp only [wp_bind, wp_get, wp_ite, wp_pure, wp_modify, wp_zoom, (advanceCursor_file sc).1]
      split
      · exact h
      · refine wp_mono (readRecordIfUsed_clean h _) ?_ fun _ _ => id
        intro record file hf
        cases record with
        | none => exact ih hf
        | some record =>
            simp only [wp_bind]
            cases hp : sc.predicate record.data with
            | error e => exact hf
            | ok b =>
                simp only [Except.mapError, wp_lift_ok, wp_ite, wp_pure]
                split
                · exact hf
                · exact ih hf

theorem nextRecord_clean (h : Clean sc.file bytes) :
    wp nextRecord (fun _ t => Clean t.file bytes) (fun _ t => Clean t.file bytes) sc := by
  unfold nextRecord
  simp only [wp_bind, wp_get]
  exact nextFrom_clean h _

theorem drain_clean (h : Clean sc.file bytes) (fuel : Nat) :
    wp (drain fuel) (fun _ t => Clean t.file bytes) (fun _ t => Clean t.file bytes) sc := by
  induction fuel generalizing sc with
  | zero => exact h
  | succ fuel ih =>
      unfold drain
      simp only [wp_bind]
      refine wp_mono (nextRecord_clean h) ?_ fun _ _ => id
      intro record t ht
      cases record with
      | none => exact ht
      | some record =>
          simp only [wp_bind, wp_pure]
          exact ih ht

theorem collect_clean (h : Clean sc.file bytes) :
    wp collect (fun _ t => Clean t.file bytes) (fun _ t => Clean t.file bytes) sc := by
  unfold collect
  simp only [wp_bind, wp_get]
  exact drain_clean h _

/-! ## Dropping -/

theorem flush_clean (h : Clean s bytes) :
    wp RecordFile.flush (fun _ t => Clean t bytes) (fun _ t => Clean t bytes) s := by
  unfold RecordFile.flush persistHeader liftPool
  simp only [wp_bind, wp_get, h.headerDirty, wp_ite, wp_pure, wp_mapError, wp_zoom]
  rw [if_pos trivial]
  refine wp_mono (forceFile_reading h.pool s.fileId none) ?_ ?_
  · exact fun _ pool hp => ⟨hp, rfl⟩
  · exact fun _ pool hp => ⟨hp, rfl⟩

theorem Clean.drop_eq (h : Clean s bytes) {io : I} (hd : s.drop = some io) :
    ByteIo.content io = bytes := by
  have hclean := wp_final (R := fun t => Clean t bytes) (flush_clean h)
  obtain ⟨file, hf, rfl⟩ := Option.map_eq_some_iff.mp hd
  exact (hclean.pool.files _ file hf).drop_eq

end Redbase.Record
