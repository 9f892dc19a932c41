import Mathlib.Data.List.DropRight

/-!
# Brasa.Lib.Columns

Entries of two columns, **written as lines and read back**. The left part of an entry is
indented and filled up with blanks to the second column, where the right part begins. A
left part that is too long for its column has a line of its own, and the right part
follows on the next one.

A reader that knows the two widths finds every entry again (`readEntries_flatMap`), as
long as no left part begins or ends with a blank: a line that begins with as many blanks
as both columns have continues the line before it, and every other line is an entry.
-/

namespace Brasa.Lib.Columns

variable {α : Type*} [DecidableEq α] (blank : α) (indent column : ℕ)

/-- The lines of an entry. -/
def entryLines (e : List α × List α) : List (List α) :=
  if e.1.length < column then
    [List.replicate indent blank ++ (e.1 ++ List.replicate (column - e.1.length) blank) ++ e.2]
  else
    [List.replicate indent blank ++ e.1, List.replicate (column + indent) blank ++ e.2]

/-- The line begins with so many blanks. -/
def startsBlank (n : ℕ) (line : List α) : Bool := (List.replicate n blank).isPrefixOf line

/-- The entry that is all on one line. -/
def readLine (line : List α) : List α × List α :=
  (((line.drop indent).take column).rdropWhile (· == blank), line.drop (indent + column))

/-- The entries of some lines. -/
def readEntries : List (List α) → List (List α × List α)
  | [] => []
  | [line] => [readLine blank indent column line]
  | line :: next :: lines =>
    if startsBlank blank (column + indent) next then
      (line.drop indent, next.drop (column + indent)) :: readEntries lines
    else readLine blank indent column line :: readEntries (next :: lines)

/-- A left part that can be told from the blanks around it. -/
def Legible (left : List α) : Prop :=
  left ≠ [] ∧ left.head? ≠ some blank ∧ left.getLast? ≠ some blank

instance (left : List α) : Decidable (Legible blank left) :=
  inferInstanceAs (Decidable (_ ∧ _ ∧ _))

variable {blank indent column}

/-! ### The beginning of a line -/

theorem startsBlank_iff {n : ℕ} {line : List α} :
    startsBlank blank n line = true ↔ List.replicate n blank <+: line :=
  List.isPrefixOf_iff_prefix

theorem startsBlank_replicate {n m : ℕ} (hnm : n ≤ m) (l : List α) :
    startsBlank blank n (List.replicate m blank ++ l) = true := by
  rw [startsBlank_iff, ← Nat.add_sub_cancel' hnm, List.replicate_add, List.append_assoc]
  exact List.prefix_append _ _

/-- The blanks of a line end where a legible text begins. -/
theorem startsBlank_legible {left : List α} (h : Legible blank left) {n m : ℕ} (hmn : m < n)
    (l : List α) : startsBlank blank n (List.replicate m blank ++ (left ++ l)) = false := by
  cases left with
  | nil => exact absurd rfl h.1
  | cons a left =>
    have ha : a ≠ blank := fun heq => h.2.1 (by rw [heq, List.head?_cons])
    rw [← Bool.not_eq_true, startsBlank_iff]
    intro hprefix
    have hm := hprefix.getElem (i := m) (by rwa [List.length_replicate])
    rw [List.getElem_replicate, List.getElem_append_right (by rw [List.length_replicate])] at hm
    simp only [List.length_replicate, Nat.sub_self, List.cons_append, List.getElem_cons_zero] at hm
    exact ha hm.symm

theorem startsBlank_of_mem_entryLines {e : List α × List α} {line : List α}
    (h : line ∈ entryLines blank indent column e) : startsBlank blank indent line = true := by
  rw [entryLines] at h
  split at h
  · rw [List.mem_singleton, List.append_assoc] at h
    rw [h]
    exact startsBlank_replicate le_rfl _
  · rw [List.mem_pair] at h
    rcases h with rfl | rfl
    · exact startsBlank_replicate le_rfl _
    · exact startsBlank_replicate (Nat.le_add_left _ _) _

/-! ### Reading back -/

theorem rdropWhile_replicate {left : List α} (h : left.getLast? ≠ some blank) (n : ℕ) :
    (left ++ List.replicate n blank).rdropWhile (· == blank) = left := by
  induction n with
  | zero =>
    rw [List.replicate_zero, List.append_nil, List.rdropWhile_eq_self_iff]
    intro hne heq
    rw [List.getLast?_eq_some_getLast hne, beq_iff_eq.mp heq] at h
    exact h rfl
  | succ n ih =>
    rw [List.replicate_succ', ← List.append_assoc, List.rdropWhile_concat_pos _ _ _ (by simp), ih]

theorem readLine_entry {left : List α} (h : Legible blank left) (hcolumn : left.length < column)
    (right : List α) : readLine blank indent column (List.replicate indent blank
      ++ (left ++ List.replicate (column - left.length) blank) ++ right) = (left, right) := by
  have hlength : (left ++ List.replicate (column - left.length) blank).length = column := by
    rw [List.length_append, List.length_replicate, Nat.add_sub_cancel' hcolumn.le]
  have hdrop (n : ℕ) (l : List α) :
      (List.replicate indent blank ++ l).drop (indent + n) = l.drop n := by
    rw [← List.drop_drop, List.drop_left' (List.length_replicate)]
  have htext (l : List α) : (List.replicate indent blank ++ l).drop indent = l :=
    List.drop_left' List.length_replicate
  rw [readLine, List.append_assoc, hdrop, htext, List.take_left' hlength, List.drop_left' hlength,
    rdropWhile_replicate h.2.2]

/-- The first line of an entry does not continue the line before it. -/
theorem entryLines_cases {e : List α × List α} (h : Legible blank e.1) (hcolumn : 0 < column) :
    ∃ line lines, entryLines blank indent column e = line :: lines ∧
      startsBlank blank (column + indent) line = false := by
  rw [entryLines]
  by_cases hshort : e.1.length < column
  · rw [if_pos hshort, List.append_assoc, List.append_assoc]
    exact ⟨_, _, rfl, startsBlank_legible h (by omega) _⟩
  · rw [if_neg hshort, ← List.append_nil e.1]
    exact ⟨_, _, rfl, startsBlank_legible h (by omega) []⟩

/-- A line that is not continued is read alone. -/
theorem readEntries_cons {lines : List (List α)}
    (h : ∀ next ∈ lines.head?, startsBlank blank (column + indent) next = false) (line : List α) :
    readEntries blank indent column (line :: lines)
      = readLine blank indent column line :: readEntries blank indent column lines := by
  cases lines with
  | nil => rfl
  | cons next lines =>
    rw [readEntries, h next rfl, if_neg Bool.false_ne_true]

/-- **Reading back.** The lines of some entries are read as these entries. -/
theorem readEntries_flatMap (hcolumn : 0 < column) {entries : List (List α × List α)}
    (h : ∀ e ∈ entries, Legible blank e.1) : readEntries blank indent column
      (entries.flatMap (entryLines blank indent column)) = entries := by
  induction entries with
  | nil => rfl
  | cons e entries ih =>
    obtain ⟨he, hentries⟩ := List.forall_mem_cons.mp h
    rw [List.flatMap_cons, entryLines]
    by_cases hshort : e.1.length < column
    · have hhead : ∀ next ∈ (entries.flatMap (entryLines blank indent column)).head?,
          startsBlank blank (column + indent) next = false := by
        cases entries with
        | nil => nofun
        | cons e' entries =>
          obtain ⟨line, lines, hlines, hline⟩ : ∃ line lines,
              entryLines blank indent column e' = line :: lines ∧
                startsBlank blank (column + indent) line = false :=
            entryLines_cases (hentries e' List.mem_cons_self) hcolumn
          intro next hnext
          rw [List.flatMap_cons, hlines, List.cons_append, List.head?_cons,
            Option.mem_some] at hnext
          rwa [← hnext]
      rw [if_pos hshort, List.singleton_append, readEntries_cons hhead,
        readLine_entry he hshort, ih hentries]
    · have hdrop (n : ℕ) (l : List α) : (List.replicate n blank ++ l).drop n = l :=
        List.drop_left' List.length_replicate
      rw [if_neg hshort, List.cons_append, List.singleton_append, readEntries,
        startsBlank_replicate le_rfl, if_pos rfl, hdrop, hdrop, ih hentries]

end Brasa.Lib.Columns
