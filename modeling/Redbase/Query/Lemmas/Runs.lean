import Redbase.Query.Lemmas.Select

/-!
# What holds after any run
-/

namespace Redbase.Query

open Prog Page Record Files Table Index Database

variable {s t : Database} {name : String}

theorem describeTable_reads (table : String) (s : Database) :
    Reads (QueryEngine.describeTable table) s := by
  unfold Reads QueryEngine.describeTable
  simp only [wp_bind, wp_get, wp_pure]
  exact wp_check.mpr ⟨fun _ _ => wp_check.mpr ⟨fun _ _ => rfl, fun _ _ => rfl⟩, fun _ _ => rfl⟩

theorem Good.reopen_eq (h : Good s) : QueryEngine.open s.root = .ok s := by
  unfold QueryEngine.open
  rw [h.sound.open_eq]
  rfl

theorem reopen_reads (h : Good s) : Reads QueryEngine.reopen s := by
  unfold Reads QueryEngine.reopen
  rw [wp_bind, wp_get, wp_bind, wp_check, h.reopen_eq]
  refine ⟨fun t ht => ?_, fun e he => by cases he⟩
  cases ht
  exact rfl

/-- Whether it succeeds or not, a request keeps the invariant. -/
theorem Request.keeps (h : Good s) (request : Request) : Keeps request.run s := by
  cases request with
  | createTable request => exact createTable_keeps h request
  | dropTable request => exact dropTable_keeps h request
  | createIndex request => exact createIndex_keeps h request
  | dropIndex request => exact dropIndex_keeps h request
  | insert request => exact (insert_keeps h request).discard
  | update request => exact (update_keeps h request).discard
  | delete request => exact (delete_keeps h request).discard
  | select request => exact (h.keeps_of_reads (select_reads h request)).discard
  | showTables => exact ⟨h, id⟩
  | showIndexes => exact ⟨h, id⟩
  | describeTable table => exact (h.keeps_of_reads (describeTable_reads table s)).discard
  | reopen => exact h.keeps_of_reads (reopen_reads h)

/-- An engine that is opened on an empty directory. -/
theorem start_eq (h : QueryEngine.open Disk.empty = .ok s) : s = ⟨Disk.empty, .empty, .empty⟩ := by
  have hopen : QueryEngine.open Disk.empty = .ok ⟨Disk.empty, .empty, .empty⟩ := rfl
  exact Except.ok.inj (h.symm.trans hopen)

theorem good_start (h : QueryEngine.open Disk.empty = .ok s) : Good s := by
  obtain rfl := start_eq h
  refine ⟨⟨fun name schema hfind => ?_, fun name m hfind => ?_,
    .inr ⟨rfl, rfl⟩, .inr ⟨rfl, rfl⟩⟩, rfl⟩
  · cases hfind
  · cases hfind

theorem fresh_start (h : QueryEngine.open Disk.empty = .ok s) : Fresh s := by
  obtain rfl := start_eq h
  intro name m hfind
  cases hfind

theorem Reachable.good (h : Reachable s) : Good s := by
  induction h with
  | start h => exact good_start h
  | step request _ ih =>
      exact wp_final (wp_mono (request.keeps ih) (fun _ _ ht => ht.1) fun _ _ ht => ht)

theorem Served.fresh (h : Served s) : Fresh s := by
  induction h with
  | start h => exact fresh_start h
  | step request hs hr ih => exact (wp_ok hr (request.keeps hs.reachable.good)).2 ih

end Redbase.Query
