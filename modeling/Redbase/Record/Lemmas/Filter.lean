import Redbase.Record.Meaning
import Redbase.Lib.Prog

/-!
# Accepted filters

A filter that is accepted for a record size answers with its value on every record of that size; one
that is not accepted fails on every such record.
-/

namespace Redbase.Record

open Prog Bytes

variable {record : List UInt8} {n : Nat}

/-- The answer of a predicate on every record of `n` bytes. -/
def Decides (n : Nat) (predicate : List UInt8 → Except RecordError Bool) : Prop :=
  ∀ record, record.length = n → ∃ b, predicate record = .ok b

/-- The predicate answers with the value that `denote` gives to the record. -/
def Computes (n : Nat) (predicate : List UInt8 → Except RecordError Bool)
    (denote : List UInt8 → Option Bool) : Prop :=
  ∀ record, record.length = n → ∃ b, denote record = some b ∧ predicate record = .ok b

theorem Computes.decides {predicate : List UInt8 → Except RecordError Bool}
    {denote : List UInt8 → Option Bool} (h : Computes n predicate denote) : Decides n predicate :=
  fun record hr => by
  obtain ⟨b, -, hb⟩ := h record hr
  exact ⟨b, hb⟩

/-! ## Fields -/

/-- The ranges of an accepted field lie in the record, and its width is that of its type. -/
theorem ScanFieldRef.validateForRecord_eq_ok {field : ScanFieldRef}
    (h : field.validateForRecord n = .ok ()) :
    field.offset + field.length ≤ n ∧ (field.fieldType ≠ .bytes → field.length = 4) ∧
      (field.fieldType = .bytes → field.length ≠ 0) := by
  simp only [ScanFieldRef.validateForRecord] at h
  split at h
  next hc =>
    rw [← checked_eq_some hc] at h
    split at h
    next => cases h
    next hle =>
      refine ⟨Nat.not_lt.mp hle, ?_⟩
      cases hf : field.fieldType <;> rw [hf] at h <;> simp_all
  next => cases h

theorem ScanFieldRef.denote_eq {field : ScanFieldRef}
    (h : field.validateForRecord record.length = .ok ()) :
    field.denote record =
      some (field.fieldType.decode (slice record field.offset field.length)) := by
  obtain ⟨hle, hwide, -⟩ := validateForRecord_eq_ok h
  rw [denote, if_neg (Nat.not_lt.mpr hle), if_neg fun hn => hn.2 (hwide hn.1)]

theorem compareFieldToValue_eq (bytes : List UInt8) (fieldType : ScanFieldType)
    (value : ScanValue) :
    compareFieldToValue bytes fieldType value =
      ((fieldType.decode bytes).compare value).elim
        (.error (.invalidPredicate "predicate field type does not match the right-hand value type"))
          .ok := by
  cases fieldType <;> cases value <;> rfl

theorem compareFields_eq (lhs rhs : List UInt8) (fieldType : ScanFieldType) :
    (fieldType.decode lhs).compare (fieldType.decode rhs) =
      some (compareFields lhs fieldType rhs) := by
  cases fieldType <;> rfl

theorem validateValueAgainstField_ok {field : ScanFieldRef} {value : ScanValue} (bytes : List UInt8)
    (h : validateValueAgainstField field value = .ok ()) :
    ∃ ordering, (field.fieldType.decode bytes).compare value = some ordering := by
  unfold validateValueAgainstField at h
  cases hf : field.fieldType <;> rw [hf] at h <;> cases value <;> first | exact ⟨_, rfl⟩ | cases h

/-! ## Clauses -/

theorem PredicateClause.computes {clause : PredicateClause}
    (h : clause.validateForRecord n = .ok ()) :
    Computes n clause.matches clause.denote := by
  rintro record rfl
  unfold PredicateClause.matches PredicateClause.denote
  by_cases hop : clause.compOp = .noOp
  · exact ⟨true, by rw [if_pos hop], by simp only [h, hop, if_true]; rfl⟩
  · have hv := h
    simp only [PredicateClause.validateForRecord, hop, if_false, bind_eq_ok] at hv
    obtain ⟨_, hlhs, hv⟩ := hv
    simp only [h, hop, if_false, fieldBytes, hlhs, ScanFieldRef.denote_eq hlhs]
    cases hr : clause.rhs with
    | value value =>
        rw [hr] at hv
        obtain ⟨ordering, ho⟩ :=
          validateValueAgainstField_ok (slice record clause.lhs.offset clause.lhs.length) hv
        refine ⟨compareOrdering ordering clause.compOp, ?_, ?_⟩
        · simp only [ScanRhs.denote, Option.bind_eq_bind, Option.bind_some, ho]
          rfl
        · show (compareFieldToValue (slice record clause.lhs.offset clause.lhs.length) _ _ >>= _) =
            _
          rw [compareFieldToValue_eq, ho]
          rfl
    | field rhs =>
        rw [hr] at hv
        simp only [bind_eq_ok, ite_eq_ok, throw_eq_ok, if_false_left, not_or, not_not] at hv
        obtain ⟨_, hrhs, ⟨htype, -⟩, -⟩ := hv
        refine ⟨_, ?_, by simp only [hrhs]; rfl⟩
        simp only [ScanRhs.denote, ScanFieldRef.denote_eq hrhs, Option.bind_eq_bind,
          Option.bind_some, ← htype, compareFields_eq]
        rfl

/-- The types of an accepted predicate agree. -/
theorem ScanPredicate.compare_ok {p : ScanPredicate} (hop : p.compOp ≠ .noOp)
    (h : p.validateForRecord n = .ok ()) (bytes : List UInt8) :
    ∃ value ordering, p.value = some value ∧
      compareFieldToValue bytes p.fieldType value = .ok ordering := by
  simp only [ScanPredicate.validateForRecord, hop, if_false] at h
  split at h
  next =>
    split at h
    next => cases h
    next =>
      split at h
      next hf _ hv => exact ⟨_, _, hv, by rw [hf]; rfl⟩
      next hf _ hv => exact ⟨_, _, hv, by rw [hf]; rfl⟩
      next => cases h
      next hf hv _ => exact ⟨_, _, hv, by rw [hf]; rfl⟩
      all_goals cases h
  next => cases h

theorem ScanPredicate.decides {p : ScanPredicate} (h : p.validateForRecord n = .ok ()) :
    Decides n p.matches := by
  rintro record rfl
  unfold ScanPredicate.matches
  by_cases hop : p.compOp = .noOp
  · exact ⟨true, by simp only [h, hop, if_true]; rfl⟩
  · obtain ⟨value, ordering, hv, ho⟩ :=
      ScanPredicate.compare_ok hop h (slice record p.offset p.length)
    exact ⟨compareOrdering ordering p.compOp, by simp only [h, hop, if_false, hv, ho]; rfl⟩

theorem CompoundPredicate.allMatch_ok {clauses : List PredicateClause}
    (h : clauses.forM (fun clause => clause.validateForRecord record.length) = .ok ()) :
    ∃ bs, clauses.mapM (fun clause => clause.denote record) = some bs ∧
      allMatch record clauses = .ok (bs.all id) := by
  induction clauses with
  | nil => exact ⟨[], rfl, rfl⟩
  | cons clause rest ih =>
      obtain ⟨_, hc, hrest⟩ := bind_eq_ok.mp h
      obtain ⟨b, hden, hb⟩ := PredicateClause.computes hc record rfl
      obtain ⟨bs, hdens, hbs⟩ := ih hrest
      refine ⟨b :: bs, ?_, ?_⟩
      · simp [List.mapM_cons, hden, hdens]
      · simp only [allMatch, hb]
        cases b with
        | true => exact hbs
        | false => rfl

theorem CompoundPredicate.computes {filter : CompoundPredicate}
    (h : filter.validateForRecord n = .ok ()) :
    Computes n filter.matches filter.denote := by
  rintro record rfl
  obtain ⟨bs, hden, hbs⟩ := allMatch_ok h
  refine ⟨bs.all id, ?_, ?_⟩
  · simp only [CompoundPredicate.denote, hden]
    rfl
  · unfold CompoundPredicate.matches
    rw [h]
    exact hbs

/-! ## Trees -/

theorem validateLogicChildren_eq_ok {children : List LogicFilter} {nodeName : String}
    {rest : Except RecordError Unit} (h : validateLogicChildren children nodeName rest = .ok ()) :
    rest = .ok () := by
  simp only [validateLogicChildren, ite_eq_ok, throw_eq_ok, if_false_left] at h
  exact h.2

mutual

theorem LogicFilter.matches_ok {filter : LogicFilter}
    (h : filter.validateForRecord record.length = .ok ()) :
    ∃ b, filter.denote record = some b ∧ filter.matches record = .ok b := by
  cases filter with
  | clause c =>
      simp only [LogicFilter.matches, LogicFilter.denote, h]
      exact PredicateClause.computes h record rfl
  | all filter =>
      simp only [LogicFilter.matches, LogicFilter.denote, h]
      exact CompoundPredicate.computes h record rfl
  | and children =>
      simp only [LogicFilter.matches, LogicFilter.denote, h]
      rw [LogicFilter.validateForRecord] at h
      obtain ⟨bs, hden, hand, -⟩ := LogicFilter.loops_ok (validateLogicChildren_eq_ok h)
      exact ⟨bs.all id, by rw [hden]; rfl, hand⟩
  | or children =>
      simp only [LogicFilter.matches, LogicFilter.denote, h]
      rw [LogicFilter.validateForRecord] at h
      obtain ⟨bs, hden, -, hor⟩ := LogicFilter.loops_ok (validateLogicChildren_eq_ok h)
      exact ⟨bs.any id, by rw [hden]; rfl, hor⟩
  | not child =>
      simp only [LogicFilter.matches, LogicFilter.denote, h]
      rw [LogicFilter.validateForRecord] at h
      obtain ⟨b, hden, hb⟩ := LogicFilter.matches_ok h
      exact ⟨!b, by rw [hden]; rfl, by simp only [hb]; rfl⟩

theorem LogicFilter.loops_ok {children : List LogicFilter}
    (h : validateEach record.length children = .ok ()) :
    ∃ bs, denoteEach record children = some bs ∧ andMatches record children = .ok (bs.all id) ∧
      orMatches record children = .ok (bs.any id) := by
  cases children with
  | nil => exact ⟨[], rfl, rfl, rfl⟩
  | cons child rest =>
      simp only [LogicFilter.validateEach, bind_eq_ok] at h
      obtain ⟨_, hc, hrest⟩ := h
      obtain ⟨b, hden, hb⟩ := LogicFilter.matches_ok hc
      obtain ⟨bs, hdens, hand, hor⟩ := LogicFilter.loops_ok hrest
      refine ⟨b :: bs, by rw [denoteEach, hden, hdens]; rfl, ?_⟩
      simp only [LogicFilter.andMatches, LogicFilter.orMatches, hb]
      cases b with
      | true => exact ⟨hand, rfl⟩
      | false => exact ⟨rfl, hor⟩

end

theorem LogicFilter.computes {filter : LogicFilter} (h : filter.validateForRecord n = .ok ()) :
    Computes n filter.matches filter.denote := by
  rintro record rfl
  exact matches_ok h

theorem LogicFilter.matches_error {filter : LogicFilter} {e : RecordError}
    (h : filter.validateForRecord record.length = .error e) : filter.matches record = .error e := by
  cases filter <;> simp only [LogicFilter.matches, h] <;> rfl

end Redbase.Record
