import Redbase.Record.Lemmas.Trace

/-!
# Scans with a filter

Whatever the pages hold and whatever I/O fails, a scan hands its predicate only bytes of the record
size. So a filter that was accepted never stops a scan, and filters that agree on such bytes give
the same scan.
-/

namespace Redbase.Record

open Prog Bytes Page Buffer BufferPoolState RecordFile RecordScan

variable {I : Type} {cap n : Nat}

/-- An error of a filter, not of the file. -/
def FilterError : Stop RecordError → Prop
  | .error (.invalidPredicate _) | .error (.predicateOutOfBounds _ _ _) => True
  | _ => False

/-! ## Reading a slot -/

section Slots

variable [PageIo I] {s : RecordFile I cap}

/-- The file is corrupted. -/
def Corrupted (e : RecordError) : Prop := ∃ message, e = .corrupted message

theorem readPageHeader_outcome (h : RecordFileHeader) (bytes : PageData) :
    outcome (readPageHeader h bytes) (fun _ => True) Corrupted := by
  simp only [readPageHeader_eq, RecordPageHeader.validate, outcome_bind, outcome_ite,
    outcome_throw, outcome_pure]
  repeat' split
  all_goals first | exact ⟨_, rfl⟩ | trivial

theorem recordRange_outcome (h : RecordFileHeader) (slot : Nat) :
    outcome (recordRange h slot) (fun start => start + h.recordSize ≤ pageDataSize) Corrupted := by
  simp only [recordRange, outcome_bind, outcome_ite, outcome_throw, outcome_pure]
  repeat' split
  all_goals first | exact ⟨_, rfl⟩ | omega

/-- What is read from a slot is as long as a record. -/
theorem readIfUsed_outcome (h : RecordFileHeader) (rid : Rid) (bytes : PageData) :
    outcome (readIfUsed h rid bytes) (fun record => ∀ r ∈ record, r.data.length = h.recordSize)
      Corrupted := by
  simp only [readIfUsed, outcome_bind, outcome_ite, outcome_throw, outcome_pure]
  refine outcome_mono (readPageHeader_outcome h bytes) (fun ph _ => ?_) fun _ => id
  split
  next => exact ⟨_, rfl⟩
  next =>
    split
    next => rintro _ ⟨⟩
    next =>
      refine outcome_mono (recordRange_outcome h rid.slotId) (fun start hle => ?_) fun _ => id
      rintro r ⟨⟩
      exact Block.length_read _ hle

theorem wp_withPage_any {α : Type} (pageId : Nat) {body : PageData → Except RecordError α}
    {Q : α → Prop} {E : RecordError → Prop} (hbody : ∀ bytes, outcome (body bytes) Q E) :
    wp (withPage pageId body) (fun a t => t.header = s.header ∧ Q a)
      (fun e t => t.header = s.header ∧
        ((∃ e', e = poolError e') ∨ ∃ e', e = .error e' ∧ E e')) s := by
  unfold wp withPage
  cases hg : getPage s.fileId pageId s.pool with
  | error e pool => exact ⟨rfl, .inl ⟨e, rfl⟩⟩
  | ok g pool =>
      have hb := hbody (pool.frames g.frameId).data
      cases hx : body (pool.frames g.frameId).data with
      | ok a =>
          rw [hx] at hb
          simp only [hx]
          exact ⟨trivial, hb⟩
      | error e =>
          rw [hx] at hb
          simp only [hx]
          exact ⟨trivial, .inr ⟨e, rfl, hb⟩⟩

theorem not_filterError_poolError (e : Stop BufferPoolError) : ¬ FilterError (poolError e) := by
  cases e <;> exact id

theorem not_filterError_corrupted {e : RecordError} (h : Corrupted e) :
    ¬ FilterError (.error e) := by
  obtain ⟨_, rfl⟩ := h
  exact id

theorem readRecordIfUsed_any (rid : Rid) :
    wp (readRecordIfUsed rid) (fun record t => t.header = s.header ∧ ∀ r ∈ record,
        r.data.length = s.header.recordSize)
      (fun e t => t.header = s.header ∧ ¬ FilterError e) s := by
  unfold readRecordIfUsed
  simp only [wp_bind, wp_get, wp_ite, wp_throw]
  split
  next => exact ⟨trivial, id⟩
  next =>
    refine wp_mono (wp_withPage_any rid.pageId (readIfUsed_outcome s.header rid))
      (fun _ _ h => h) ?_
    rintro _ t ⟨hh, ⟨e, rfl⟩ | ⟨e, rfl, he⟩⟩
    · exact ⟨hh, not_filterError_poolError e⟩
    · exact ⟨hh, not_filterError_corrupted he⟩

end Slots

/-! ## Two scans -/

/-- The scan `t` is `s` with the predicate `q`, which answers on the bytes of a record, and as `s`
does. -/
structure Agree (n : Nat) (s t : RecordScan I cap) : Prop where
  eq : t = { s with predicate := t.predicate }
  size : s.file.header.recordSize = n
  decides : Decides n t.predicate
  same : ∀ record, record.length = n → s.predicate record = t.predicate record

variable {s t : RecordScan I cap}

theorem Agree.file (h : Agree n s t) : t.file = s.file := by rw [h.eq]

theorem Agree.advance (h : Agree n s t) : Agree n s.advanceCursor t.advanceCursor := by
  obtain ⟨he, hsize, hdec, hsame⟩ := h
  obtain ⟨file, p, slot, q⟩ := t
  cases he
  simp only [RecordScan.advanceCursor]
  split <;> exact ⟨rfl, hsize, hdec, hsame⟩

section Reads

variable [PageIo I]

/-- Two scans that agree read the next slot alike. -/
theorem readSlot_alike (h : Agree n s t) (rid : Rid) :
    alike (Agree n) (fun record : Option Record => ∀ r ∈ record, r.data.length = n)
      (fun e => ¬ FilterError e)
      (zoom (·.file) (fun file s => { s with file }) (readRecordIfUsed rid) : ScanM I cap
        (Option Record))
      (zoom (·.file) (fun file s => { s with file }) (readRecordIfUsed rid)) s t := by
  have hread := readRecordIfUsed_any (s := s.file) rid
  have ht : ∀ file : RecordFile I cap, file.header = s.file.header →
      Agree n { s with file } { t with file } := fun file hh => by
    refine ⟨?_, (congrArg (·.recordSize) hh).trans h.size, h.decides, h.same⟩
    rw [h.eq]
  unfold wp at hread
  cases hr : readRecordIfUsed rid s.file with
  | ok record file =>
      rw [hr] at hread
      refine alike_ok (a := record) ?_ ?_ (h.size ▸ hread.2) (ht file hread.1)
      · simp only [zoom, hr]
      · simp only [zoom, h.file, hr]
  | error e file =>
      rw [hr] at hread
      refine alike_error (e := e) ?_ ?_ hread.2 (ht file hread.1)
      · simp only [zoom, hr]
      · simp only [zoom, h.file, hr]

theorem nextFrom_alike (h : Agree n s t) (fuel : Nat) :
    alike (Agree n) (fun _ => True) (fun e => ¬ FilterError e) (nextFrom fuel : ScanM I cap _)
      (nextFrom fuel) s t := by
  induction fuel generalizing s t with
  | zero => exact alike_throw id h
  | succ fuel ih =>
      unfold nextFrom
      refine alike_get ?_
      have he : t.nextPageId = s.nextPageId ∧ t.nextSlotId = s.nextSlotId := by
        rw [h.eq]
        exact ⟨rfl, rfl⟩
      rw [he.1, he.2, h.file]
      split
      next => exact alike_pure trivial h
      next =>
        refine alike_bind (V := fun _ => True) (alike_modify trivial h.advance)
          fun _ s₁ t₁ _ h₁ => ?_
        refine alike_bind (readSlot_alike h₁ _) fun record s₂ t₂ hlen h₂ => ?_
        cases record with
        | none => exact ih h₂
        | some record =>
            obtain ⟨b, hb⟩ := h.decides record.data (hlen record rfl)
            simp only [h.same record.data (hlen record rfl), hb]
            show alike _ _ _ (if b = true then _ else _) (if b = true then _ else _) _ _
            split
            next => exact alike_pure trivial h₂
            next => exact ih h₂

theorem nextRecord_alike (h : Agree n s t) :
    alike (Agree n) (fun _ => True) (fun e => ¬ FilterError e)
      (nextRecord : ScanM I cap _) nextRecord s t := by
  unfold nextRecord
  refine alike_get ?_
  have he : t.nextPageId = s.nextPageId := by rw [h.eq]
  rw [he, h.file]
  exact nextFrom_alike h _

theorem drain_alike (h : Agree n s t) (fuel : Nat) :
    alike (Agree n) (fun _ => True) (fun e => ¬ FilterError e) (drain fuel : ScanM I cap _)
      (drain fuel) s t := by
  induction fuel generalizing s t with
  | zero => exact alike_throw id h
  | succ fuel ih =>
      unfold drain
      refine alike_bind (nextRecord_alike h) fun record s₁ t₁ _ h₁ => ?_
      cases record with
      | none => exact alike_pure trivial h₁
      | some record => exact alike_bind (ih h₁) fun rest s₂ t₂ _ h₂ => alike_pure trivial h₂

theorem collect_alike (h : Agree n s t) :
    alike (Agree n) (fun _ => True) (fun e => ¬ FilterError e)
      (collect : ScanM I cap _) collect s t := by
  unfold collect
  refine alike_get ?_
  rw [h.file]
  exact drain_alike h _

theorem calls_alike (h : Agree n s t) (k : Nat) :
    alike (Agree n) (fun _ => True) (fun e => ¬ FilterError e) (calls k : ScanM I cap _)
      (calls k) s t := by
  induction k generalizing s t with
  | zero => exact alike_pure trivial h
  | succ k ih =>
      unfold calls
      exact alike_bind (nextRecord_alike h) fun answer s₁ t₁ _ h₁ =>
        alike_bind (ih h₁) fun answers s₂ t₂ _ h₂ => alike_pure trivial h₂

end Reads

end Redbase.Record
