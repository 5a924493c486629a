import Redbase.Query.Lemmas.Acceptance

/-!
# Which requests the engine carries out

The filters of a request are typed, and so are its other words; the engine carries out just what is
typed and fits, and turns down the rest.
-/

namespace Redbase.Query

open Prog Text Record Files Table Index Database QueryEngine

variable {s : Database} {schema : TableSchema} {layout : SchemaLayout}

/-! ## Filters -/

/-- After requests that all succeed, with room in every table, a request succeeds just when the
store accepts it. -/
theorem request_succeeds_iff (h : Served s) (hroom : Roomy s) (request : Request) :
    (∃ t, request.run s = .ok () t) ↔ Accepts (storeOf s) request := by
  rw [← (request.returnsIff (h.ready hroom)).exists_ok_iff]
  exact ⟨fun ⟨t, hr⟩ => ⟨(), t, hr⟩, fun ⟨_, t, hr⟩ => ⟨t, hr⟩⟩

/-! ### A table of a new database -/

theorem roomy_start : Roomy ⟨Disk.empty, .empty, .empty⟩ := by
  intro name schema layout bytes hs
  cases hs.listed

theorem Roomy.addTable {bytes : List UInt8} (h : Roomy s) (hc : Creatable s schema layout)
    (he : EmptyRecords bytes layout.recordSize) : Roomy (s.addTable schema bytes) := by
  intro name schema' layout' bytes' hs
  rcases eq_or_ne name schema.name with rfl | hne
  · obtain ⟨-, -, rfl⟩ := (hc.stored he).unique hs
    obtain ⟨header, pages, hsaved, -, hn⟩ := he
    rw [fileHeader_eq hsaved, hn]
    decide
  · obtain ⟨hother, hfile⟩ : (s.addTable schema bytes).catalog.tables.find name = _ ∧ _ :=
      addTable_other hne
    exact h name schema' layout' bytes' (hs.congr hother.symm hfile.symm)

theorem created_roomy (hs : Served s) (hroom : Roomy s) (hc : compileSchema schema = .ok layout)
    (haccept : Accepts (storeOf s) (.createTable ⟨schema⟩)) :
    ∃ t bytes, Served t ∧ Roomy t ∧ Stored t schema.name schema layout bytes := by
  have hready := hs.ready hroom
  obtain ⟨_, t, hr⟩ := (createTable_returnsIff hready ⟨schema⟩).exists_ok_iff.mpr haccept
  have hspec : wp (executeCreateTable ⟨schema⟩)
      (fun _ t => ∃ layout bytes, Creatable s schema layout ∧ EmptyRecords bytes layout.recordSize ∧
        t = s.addTable schema bytes)
      (fun _ _ => True) s := by
    unfold executeCreateTable
    rw [wp_liftDatabase]
    exact wp_mono (createTable_spec hready.good.faults schema) (fun _ _ => id) fun _ _ _ => trivial
  obtain ⟨layout', bytes, hcr, he, rfl⟩ := wp_ok hr hspec
  obtain rfl : layout' = layout := Except.ok.inj (hcr.compiled.symm.trans hc)
  exact ⟨_, bytes, hs.step (.createTable ⟨schema⟩) hr, hroom.addTable hcr he, hcr.stored he⟩

/-- A new table, and no other. -/
theorem exists_roomy :
    ∃ s bytes, Served s ∧ Roomy s ∧ Stored s "t" pagedSchema pagedLayout bytes := by
  have haccept : Accepts (storeOf ⟨Disk.empty, .empty, .empty⟩) (.createTable ⟨pagedSchema⟩) :=
    .createTable (wellFormed_iff.mpr ⟨pagedLayout, ⟨4004, 1, -1, 0⟩, compileSchema_paged,
      by decide⟩) rfl
  exact created_roomy (.start rfl) roomy_start compileSchema_paged haccept

/-- A row of the schema is inserted, and the values in another order are not. -/
theorem request_succeeds_row :
    ∃ s t, (Request.insert ⟨"t", .fullRow [.int32 5, .char "x"]⟩).run s = .ok () t ∧
      ¬ ∃ t, (Request.insert ⟨"t", .fullRow [.char "x", .int32 5]⟩).run s = .ok () t := by
  obtain ⟨s, bytes, hs, hroom, hstored⟩ := exists_roomy
  have haccept : Accepts (storeOf s) (.insert ⟨"t", .fullRow [.int32 5, .char "x"]⟩) := by
    refine .insert ((relations_stored hstored).mpr rfl) rfl (.cons trivial (.cons ?_ .nil))
    show (utf8 "x").length ≤ 4000
    decide
  obtain ⟨t, hr⟩ := (request_succeeds_iff hs hroom _).mpr haccept
  refine ⟨s, t, hr, fun hr' => ?_⟩
  have hno := (request_succeeds_iff hs hroom _).mp hr'
  cases hno with
  | insert listed gives fits =>
      obtain rfl := (relations_stored hstored).mp listed
      cases gives
      cases fits with
      | cons first _ => exact first

end Redbase.Query
