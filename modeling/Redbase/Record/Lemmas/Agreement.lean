import Redbase.Record.Lemmas.Filtered

/-!
# The filters of the scans agree

A `ScanPredicate` and the clause that says the same, and the three ways to ask for a list of
clauses.
-/

namespace Redbase.Record

open Prog Bytes Page

variable {record : List UInt8} {n : Nat}

/-! ## One comparison with a value -/

/-- The value can be compared with a field of that type and length. -/
def ComparesWith (fieldType : ScanFieldType) (length : Nat) : ScanValue → Prop
  | .int32 _ => fieldType = .int32 ∧ length = 4
  | .float32 _ => fieldType = .float32 ∧ length = 4
  | .bytes bytes => fieldType = .bytes ∧ length ≠ 0 ∧ bytes.length = length

/-- What both validations check of a comparison. -/
def ValueFits (field : ScanFieldRef) (value : ScanValue) (n : Nat) : Prop :=
  field.offset + field.length < 2 ^ 64 ∧ field.offset + field.length ≤ n ∧
    ComparesWith field.fieldType field.length value

variable {field : ScanFieldRef} {op : ScanCompOp} {value : ScanValue}

theorem ScanPredicate.validateForRecord_iff (hop : op ≠ .noOp) :
    ScanPredicate.validateForRecord ⟨field.offset, field.length, field.fieldType, op,
        some value⟩ n = .ok () ↔
      ValueFits field value n := by
  obtain ⟨offset, length, fieldType⟩ := field
  simp only [ScanPredicate.validateForRecord, hop, if_false, ValueFits]
  by_cases hlt : offset + length < 2 ^ 64
  · rw [checked_of_lt hlt]
    by_cases hle : offset + length ≤ n
    · simp only [if_neg (Nat.not_lt.mpr hle), hlt, hle, true_and]
      cases fieldType <;> cases value <;> simp only [ComparesWith]
      all_goals first | (split <;> simp_all) | simp
    · simp [Nat.not_le.mp hle, hle]
  · rw [show checked 64 (offset + length) = none from if_neg hlt]
    simp [-Nat.reducePow, hlt]

theorem validateValueAgainstField_iff :
    validateValueAgainstField field value = .ok () ∧ (field.fieldType = .bytes → field.length ≠ 0) ↔
      ComparesWith field.fieldType field.length value := by
  obtain ⟨offset, length, fieldType⟩ := field
  cases fieldType <;> cases value <;> simp [validateValueAgainstField, ComparesWith, and_comm]

theorem ScanFieldRef.validateForRecord_iff :
    field.validateForRecord n = .ok () ↔ field.offset + field.length < 2 ^ 64 ∧
      field.offset + field.length ≤ n ∧ (field.fieldType ≠ .bytes → field.length = 4) ∧
        (field.fieldType = .bytes → field.length ≠ 0) := by
  obtain ⟨offset, length, fieldType⟩ := field
  simp only [ScanFieldRef.validateForRecord]
  by_cases hlt : offset + length < 2 ^ 64
  · rw [checked_of_lt hlt]
    by_cases hle : offset + length ≤ n
    · cases fieldType <;> simp [-Nat.reducePow, Nat.not_lt.mpr hle, hlt, hle]
    · simp [Nat.not_le.mp hle, hle]
  · rw [show checked 64 (offset + length) = none from if_neg hlt]
    simp [-Nat.reducePow, hlt]

theorem PredicateClause.validateForRecord_iff (hop : op ≠ .noOp) :
    (PredicateClause.fieldEqualsValue field op value).validateForRecord n = .ok () ↔
      ValueFits field value n := by
  simp only [PredicateClause.validateForRecord, PredicateClause.fieldEqualsValue, hop,
    if_false, bind_eq_ok]
  have hv : _ ↔ ComparesWith field.fieldType field.length value := validateValueAgainstField_iff
  have hf : field.validateForRecord n = .ok () ↔ _ := ScanFieldRef.validateForRecord_iff
  constructor
  · rintro ⟨_, hfield, hvalue⟩
    obtain ⟨hlt, hle, -, hpos⟩ := hf.mp hfield
    exact ⟨hlt, hle, hv.mp ⟨hvalue, hpos⟩⟩
  · rintro ⟨hlt, hle, hc⟩
    obtain ⟨hvalue, hpos⟩ := hv.mpr hc
    refine ⟨(), hf.mpr ⟨hlt, hle, fun hne => ?_, hpos⟩, hvalue⟩
    cases value with
    | int32 _ => exact hc.2
    | float32 _ => exact hc.2
    | bytes _ => exact absurd hc.1 hne

/-- The predicate and the clause are accepted for the same record sizes, and then answer alike. -/
def ScanPredicate.Corresponds (p : ScanPredicate) (clause : PredicateClause) : Prop :=
  ∀ n, (p.validateForRecord n = .ok () ↔ clause.validateForRecord n = .ok ()) ∧
    (p.validateForRecord n = .ok () → ∀ record, record.length = n →
      p.matches record = clause.matches record)

theorem corresponds_value (field : ScanFieldRef) (op : ScanCompOp) (value : ScanValue) :
    ScanPredicate.Corresponds ⟨field.offset, field.length, field.fieldType, op, some value⟩
      (.fieldEqualsValue field op value) := by
  intro n
  by_cases hop : op = .noOp
  · subst hop
    exact ⟨Iff.rfl, fun _ _ _ => rfl⟩
  · have hiff : ScanPredicate.validateForRecord ⟨field.offset, field.length, field.fieldType, op,
          some value⟩ n = .ok () ↔
        (PredicateClause.fieldEqualsValue field op value).validateForRecord n = .ok () :=
      (ScanPredicate.validateForRecord_iff hop).trans
        (PredicateClause.validateForRecord_iff hop).symm
    refine ⟨hiff, ?_⟩
    rintro hp record rfl
    have hc := hiff.mp hp
    have hlhs := hc
    simp only [PredicateClause.validateForRecord, PredicateClause.fieldEqualsValue, hop, if_false,
      bind_eq_ok] at hlhs
    obtain ⟨_, hlhs, -⟩ := hlhs
    simp only [ScanPredicate.matches, PredicateClause.matches, hp, hc]
    simp only [PredicateClause.fieldEqualsValue, hop, if_false, fieldBytes, hlhs]
    rfl

/-! ## A list of clauses -/

theorem LogicFilter.clause_matches (clause : PredicateClause) (record : List UInt8) :
    LogicFilter.matches record (.clause clause) = clause.matches record := by
  rw [LogicFilter.matches, LogicFilter.validateForRecord, PredicateClause.matches]
  cases clause.validateForRecord record.length <;> rfl

theorem LogicFilter.validateEach_clauses (n : Nat) (clauses : List PredicateClause) :
    LogicFilter.validateEach n (clauses.map .clause) = clauses.forM fun clause =>
      clause.validateForRecord n := by
  induction clauses with
  | nil => rfl
  | cons clause rest ih =>
      rw [List.map_cons, LogicFilter.validateEach, LogicFilter.validateForRecord, ih]
      rfl

theorem LogicFilter.andMatches_clauses (record : List UInt8) (clauses : List PredicateClause) :
    LogicFilter.andMatches record (clauses.map .clause) =
      CompoundPredicate.allMatch record clauses := by
  induction clauses with
  | nil => rfl
  | cons clause rest ih =>
      rw [List.map_cons, LogicFilter.andMatches, LogicFilter.clause_matches, ih]
      rfl

variable {clauses : List PredicateClause}

theorem validate_and_clauses (hne : clauses ≠ []) (n : Nat) :
    LogicFilter.validateForRecord n (.and (clauses.map .clause)) =
      CompoundPredicate.validateForRecord ⟨clauses⟩ n := by
  rw [LogicFilter.validateForRecord, validateLogicChildren, if_neg (by simpa using hne),
    LogicFilter.validateEach_clauses]
  rfl

theorem matches_and_clauses (hne : clauses ≠ []) (record : List UInt8) :
    LogicFilter.matches record (.and (clauses.map .clause)) = CompoundPredicate.matches
      ⟨clauses⟩ record := by
  rw [LogicFilter.matches, validate_and_clauses hne, LogicFilter.andMatches_clauses]
  rfl

theorem matches_all_clauses (filter : CompoundPredicate) (record : List UInt8) :
    LogicFilter.matches record (.all filter) = filter.matches record := by
  rw [LogicFilter.matches, LogicFilter.validateForRecord, CompoundPredicate.matches]
  cases filter.validateForRecord record.length <;> rfl

/-! ## Scans -/

variable {I : Type} {cap : Nat}

theorem scanWithLogic_all (file : RecordFile I cap) (filter : CompoundPredicate) :
    file.scanWithLogic (.all filter) = file.scanWithFilter filter := by
  simp only [RecordFile.scanWithLogic, RecordFile.scanWithFilter, LogicFilter.validateForRecord,
    matches_all_clauses]

theorem scanWithLogic_and (file : RecordFile I cap) (hne : clauses ≠ []) :
    file.scanWithLogic (.and (clauses.map .clause)) = file.scanWithFilter ⟨clauses⟩ := by
  simp only [RecordFile.scanWithLogic, RecordFile.scanWithFilter, validate_and_clauses hne,
    matches_and_clauses hne]

/-- Both scans are refused, or both yield the same records and end with the same error, if any. -/
def SameScan [PageIo I] (x y : Except RecordError (RecordScan I cap)) : Prop :=
  match x, y with
  | .ok s, .ok t => returned (RecordScan.collect s) = returned (RecordScan.collect t) ∧
      thrown (RecordScan.collect s) = thrown (RecordScan.collect t)
  | .error _, .error _ => True
  | _, _ => False

theorem matches_singleton (clause : PredicateClause) (record : List UInt8) :
    CompoundPredicate.matches ⟨[clause]⟩ record = clause.matches record := by
  have hforM : CompoundPredicate.validateForRecord ⟨[clause]⟩ record.length =
      clause.validateForRecord record.length >>= fun _ => return () := rfl
  rw [CompoundPredicate.matches, hforM, CompoundPredicate.allMatch]
  cases hv : clause.validateForRecord record.length with
  | error e =>
      rw [PredicateClause.matches, hv]
      rfl
  | ok u =>
      cases clause.matches record with
      | error e => rfl
      | ok b => cases b <;> rfl

theorem sameScan_of_corresponds [PageIo I] {p : ScanPredicate} {clause : PredicateClause}
    (h : p.Corresponds clause) (file : RecordFile I cap) :
    SameScan (file.scanWithPredicate p) (file.scanWithFilter ⟨[clause]⟩) := by
  obtain ⟨hiff, heq⟩ := h file.header.recordSize
  have hforM : CompoundPredicate.validateForRecord ⟨[clause]⟩ file.header.recordSize =
      clause.validateForRecord file.header.recordSize >>= fun _ => return () := rfl
  simp only [RecordFile.scanWithPredicate, RecordFile.scanWithFilter, hforM]
  cases hp : p.validateForRecord file.header.recordSize with
  | error e =>
      cases hc : clause.validateForRecord file.header.recordSize with
      | error e' => exact trivial
      | ok u =>
          rw [hiff.mpr hc] at hp
          cases hp
  | ok u =>
      have hc := hiff.mp hp
      rw [hc]
      have hsame : Agree file.header.recordSize (file.scanWith fun bytes => p.matches bytes)
          (file.scanWith fun bytes => CompoundPredicate.matches ⟨[clause]⟩ bytes) := by
        refine ⟨rfl, rfl, fun record hr => ?_, fun record hr => ?_⟩
        · obtain ⟨b, -, hb⟩ := PredicateClause.computes hc record hr
          exact ⟨b, (matches_singleton clause record).trans hb⟩
        · exact (heq hp record hr).trans (matches_singleton clause record).symm
      obtain ⟨hr, ht, -⟩ := alike_returned (collect_alike hsame)
      exact ⟨hr, ht⟩

end Redbase.Record
