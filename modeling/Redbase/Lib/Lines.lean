import Redbase.Lib.Text

/-!
# Text files of lines and fields

A file is a list of rows, a row is a line of fields separated by tabs. What is written from fields
without tabs and ends of lines is split into the same fields.
-/

namespace Text

variable {row : List String} {rows : List (List String)}

/-! ## Writing -/

/-- The line of a row, without its end. -/
def joinFields (row : List String) : String :=
  String.ofList (['\t'].intercalate (row.map String.toList))

/-- The file of the rows. -/
def fileText (rows : List (List String)) : String :=
  String.ofList (rows.flatMap fun row => (joinFields row).toList ++ ['\n'])

/-! ## Reading -/

/-- A line, reversed, without the carriage return before its end. -/
def stripReturn (line : List Char) : List Char :=
  if line.head? = some '\r' then line.tail else line

/-- The rest of `str::lines` where the current line has begun with `line`, which is reversed. The
last line may lack its end. -/
def linesFrom (line : List Char) : List Char → List (List Char)
  | [] => if line.isEmpty then [] else [line.reverse]
  | c :: rest =>
      if c = '\n' then (stripReturn line).reverse :: linesFrom [] rest
      else linesFrom (c :: line) rest

/-- `content.lines()`. -/
def lines (content : String) : List String := (linesFrom [] content.toList).map String.ofList

/-- `line.split('\t').collect()`. -/
def fields (line : String) : List String := (line.toList.splitOn '\t').map String.ofList

/-! ## Reading what was written -/

/-- A field that is kept: nothing in it ends a field or a line. -/
def IsField (s : String) : Prop := ∀ c ∈ s.toList, c ≠ '\t' ∧ c ≠ '\n' ∧ c ≠ '\r'

instance (s : String) : Decidable (IsField s) := List.decidableBAll _ _

theorem toList_joinFields (row : List String) :
    (joinFields row).toList = ['\t'].intercalate (row.map String.toList) := by
  rw [joinFields, String.toList_ofList]

theorem mem_joinFields {c : Char} (h : c ∈ (joinFields row).toList) :
    c = '\t' ∨ ∃ s ∈ row, c ∈ s.toList := by
  rw [toList_joinFields] at h
  induction row with
  | nil => cases h
  | cons s rest ih =>
      cases rest with
      | nil => exact Or.inr ⟨s, List.mem_cons_self, by simpa using h⟩
      | cons s' rest =>
          rw [List.map_cons, List.map_cons, List.intercalate_cons_cons, List.mem_append,
            List.mem_append, List.mem_singleton] at h
          rcases h with (h | rfl) | h
          · exact Or.inr ⟨s, List.mem_cons_self, h⟩
          · exact Or.inl rfl
          · refine (ih h).imp_right ?_
            rintro ⟨t, ht, hc⟩
            exact ⟨t, List.mem_cons_of_mem _ ht, hc⟩

theorem joinFields_chars (h : ∀ s ∈ row, IsField s) {c : Char} (hc : c ∈ (joinFields row).toList) :
    c ≠ '\n' ∧ c ≠ '\r' := by
  rcases mem_joinFields hc with rfl | ⟨s, hs, hc⟩
  · decide
  · exact (h s hs c hc).2

theorem fields_joinFields (hne : row ≠ []) (h : ∀ s ∈ row, IsField s) :
    fields (joinFields row) = row := by
  rw [fields, toList_joinFields, List.splitOn_intercalate]
  · rw [List.map_map]
    conv_rhs => rw [← List.map_id row]
    exact List.map_congr_left fun s _ => String.ofList_toList
  · intro l hl
    obtain ⟨s, hs, rfl⟩ := List.mem_map.mp hl
    exact fun ht => (h s hs _ ht).1 rfl
  · simpa using hne

theorem joinFields_ne_empty {s : String} (hs : s ≠ "") : joinFields (s :: row) ≠ "" := by
  intro h
  have hl := congrArg String.toList h
  rw [toList_joinFields, List.map_cons] at hl
  have hs' : s.toList ≠ [] := by
    intro h
    exact hs (String.toList_inj.mp h)
  cases row with
  | nil => exact hs' (by simpa using hl)
  | cons s' rest =>
      rw [List.map_cons, List.intercalate_cons_cons] at hl
      simp at hl

/-- A line without an end inside it is taken whole. -/
theorem linesFrom_append {l line rest : List Char} (h : ∀ c ∈ l, c ≠ '\n') :
    linesFrom line (l ++ '\n' :: rest) = (stripReturn (l.reverse ++ line)).reverse ::
      linesFrom [] rest := by
  induction l generalizing line with
  | nil => simp [linesFrom]
  | cons c l ih =>
      obtain ⟨hc, hl⟩ := List.forall_mem_cons.mp h
      rw [List.cons_append, linesFrom, if_neg hc, ih hl]
      simp

theorem stripReturn_reverse {l : List Char} (h : ∀ c ∈ l, c ≠ '\r') :
    stripReturn l.reverse = l.reverse := by
  unfold stripReturn
  rw [if_neg]
  intro hc
  exact h _ (List.mem_reverse.mp (List.mem_of_mem_head? hc)) rfl

theorem lines_fileText (h : ∀ row ∈ rows, ∀ s ∈ row, IsField s) :
    lines (fileText rows) = rows.map joinFields := by
  rw [lines, fileText, String.toList_ofList]
  induction rows with
  | nil => rfl
  | cons row rest ih =>
      obtain ⟨hrow, hrest⟩ := List.forall_mem_cons.mp h
      have hchars := fun c => joinFields_chars (c := c) hrow
      rw [List.flatMap_cons, List.append_assoc, List.singleton_append, linesFrom_append
        fun c hc => (hchars c hc).1,
        List.append_nil, stripReturn_reverse fun c hc => (hchars c hc).2, List.reverse_reverse,
          List.map_cons, ih hrest,
        String.ofList_toList, List.map_cons]

end Text
