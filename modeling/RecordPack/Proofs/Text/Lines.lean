import Mathlib.Data.List.Basic
import RecordPack.Text.Blank

/-!
# Lines and words

The lines of a text end in line breaks, and the words of a line stand between blanks. Rows that are each ended by a line
break have the lines of each row in turn (`lines_flatMap`), one more than it has line breaks itself
(`length_splitOn_newline`). A line with blanks between its columns has their words in turn (`words_append_blanks`).
-/

namespace RecordPack.Text

/-! ## Lines -/

/-- The lines of a text. What follows the last line break is none of them. -/
def lines (cs : List Char) : List (List Char) := (cs.splitOn '\n').dropLast

/-- A row that is ended by a line break comes first with its lines. -/
theorem lines_append (row cs : List Char) : lines (row ++ '\n' :: cs) = row.splitOn '\n' ++ lines cs := by
  have hsplit : (row ++ '\n' :: cs).splitOn '\n' = row.splitOn '\n' ++ cs.splitOn '\n' :=
    List.splitOnP_append_cons row cs (by decide)
  have hne : cs.splitOn '\n' ≠ [] := List.splitOnP_ne_nil _ cs
  rw [lines, hsplit, List.dropLast_append_of_ne_nil hne, lines]

theorem lines_flatMap (rows : List (List Char)) :
    lines (rows.flatMap (· ++ ['\n'])) = rows.flatMap (·.splitOn '\n') := by
  induction rows with
  | nil => rfl
  | cons row rows ih =>
    rw [List.flatMap_cons, List.append_assoc, List.singleton_append, lines_append, ih, List.flatMap_cons]

theorem splitOn_newline_of_notMem {row : List Char} (h : '\n' ∉ row) : row.splitOn '\n' = [row] := by
  apply List.splitOnP_eq_singleton
  intro c hc
  have hne : c ≠ '\n' := fun heq => h (heq ▸ hc)
  simpa using hne

theorem length_splitOn_newline (row : List Char) : (row.splitOn '\n').length = row.count '\n' + 1 := by
  induction row with
  | nil => rfl
  | cons c row ih =>
    have hcons := List.splitOnP_cons_eq_if_modifyHead (p := (· == '\n')) c row
    rw [List.splitOn] at ih ⊢
    rw [hcons, List.count_cons]
    split <;> simp [ih]

/-! ## Words -/

/-- The words of a text, which blanks keep apart. -/
def words (cs : List Char) : List (List Char) := (cs.splitOnP isBlank).filter (· ≠ [])

theorem words_of_forall_not_blank {w : List Char} (hne : w ≠ []) (hw : ∀ c ∈ w, isBlank c = false) :
    words w = [w] := by
  rw [words, List.splitOnP_eq_singleton hw, List.filter_cons_of_pos (by simpa using hne), List.filter_nil]

theorem words_append_blank (cs ds : List Char) {c : Char} (hc : isBlank c = true) :
    words (cs ++ c :: ds) = words cs ++ words ds := by
  rw [words, List.splitOnP_append_cons cs ds hc, List.filter_append]
  rfl

theorem words_blanks_append (k : Nat) (cs : List Char) : words (List.replicate k ' ' ++ cs) = words cs := by
  induction k with
  | zero => rfl
  | succ k ih =>
    rw [List.replicate_succ, List.cons_append, ← List.nil_append (' ' :: _), words_append_blank _ _ (by decide), ih]
    rfl

/-- Blanks in any number keep words apart, if there are any. -/
theorem words_append_blanks (cs : List Char) {k : Nat} (hk : 0 < k) (ds : List Char) :
    words (cs ++ (List.replicate k ' ' ++ ds)) = words cs ++ words ds := by
  obtain ⟨k, rfl⟩ := Nat.exists_eq_succ_of_ne_zero (Nat.ne_of_gt hk)
  rw [List.replicate_succ, List.cons_append, words_append_blank _ _ (by decide), words_blanks_append]

end RecordPack.Text
