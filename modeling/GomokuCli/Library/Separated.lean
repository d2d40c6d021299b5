import Mathlib.Data.List.Basic

/-!
# Lines of fields

A file in which every line ends with one mark and the fields of a line are set apart by
another one.  What is written is read back (`read_write`), as long as no field contains one
of the marks and no line is without a field.

In other files a mark stands in front of what it sets apart (`splitOn_sections`).
-/

namespace Separated

variable {α : Type*} {field line : α} {rows : List (List (List α))}

/-- The text of some lines. -/
def write (field line : α) (rows : List (List (List α))) : List α :=
  rows.flatMap fun row => [field].intercalate row ++ [line]

theorem notMem_intercalate {row : List (List α)} (hmarks : field ≠ line)
    (hrow : ∀ x ∈ row, line ∉ x) : line ∉ [field].intercalate row := by
  induction row with
  | nil => exact List.not_mem_nil
  | cons x row ih =>
      have hx := hrow x (.head row)
      have hrest := ih fun y hy => hrow y (.tail x hy)
      cases row with
      | nil => rwa [List.intercalate_singleton]
      | cons y row =>
          rw [List.intercalate_cons_cons, List.mem_append, List.mem_append, List.mem_singleton]
          rintro ((hmem | hmem) | hmem)
          · exact hx hmem
          · exact hmarks hmem.symm
          · exact hrest hmem

/-- The sections of a text, each behind a mark, and what stands in front of the first one. -/
theorem splitOn_sections [BEq α] [LawfulBEq α] {start : List α} {sections : List (List α)}
    (hstart : line ∉ start) (h : ∀ l ∈ sections, line ∉ l) :
    (start ++ sections.flatMap (List.cons line)).splitOn line = start :: sections := by
  induction sections generalizing start with
  | nil => rw [List.flatMap_nil, List.append_nil, List.splitOn_eq_singleton hstart]
  | cons l sections ih =>
      rw [List.flatMap_cons, List.cons_append,
        List.splitOn_append_cons_self_of_not_mem hstart,
        ih (h l (.head sections)) fun k hk => h k (.tail l hk)]

variable [DecidableEq α]

/-- The fields of each line.  Nothing stands behind the last line. -/
def read (field line : α) (text : List α) : List (List (List α)) :=
  (text.splitOn line).dropLast.map fun row => row.splitOn field

/-- The lines of a text, and what stands behind the last one. -/
theorem splitOn_lines {lines : List (List α)} (h : ∀ l ∈ lines, line ∉ l) :
    (lines.flatMap fun l => l ++ [line]).splitOn line = lines ++ [[]] := by
  induction lines with
  | nil => rw [List.flatMap_nil, List.splitOn_nil, List.nil_append]
  | cons l lines ih =>
      rw [List.flatMap_cons, List.append_assoc, List.singleton_append,
        List.splitOn_append_cons_self_of_not_mem (h l (.head lines)),
        ih fun k hk => h k (.tail l hk), List.cons_append]

/-- **What is written is read back.** A row is not empty, because no fields at all would be
written as one field without characters. -/
theorem read_write (hmarks : field ≠ line) (hrows : ∀ row ∈ rows, row ≠ [])
    (hfields : ∀ row ∈ rows, ∀ x ∈ row, field ∉ x ∧ line ∉ x) :
    read field line (write field line rows) = rows := by
  have hlines : ∀ l ∈ rows.map fun row => [field].intercalate row, line ∉ l := by
    intro l hl
    obtain ⟨row, hrow, rfl⟩ := List.mem_map.mp hl
    exact notMem_intercalate hmarks fun x hx => (hfields row hrow x hx).2
  have htext : write field line rows =
      (rows.map fun row => [field].intercalate row).flatMap fun l => l ++ [line] := by
    rw [List.flatMap_map]
    rfl
  rw [read, htext, splitOn_lines hlines, List.dropLast_concat, List.map_map]
  refine (List.map_congr_left fun row hrow => ?_).trans (List.map_id rows)
  exact List.splitOn_intercalate field (fun x hx => (hfields row hrow x hx).1) (hrows row hrow)

end Separated
