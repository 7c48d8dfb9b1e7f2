import SurfaceTape.Text.Blank
import Mathlib.Data.List.DropRight

/-!
# The words of a trimmed text

Blanks at the two ends of a text do not change its words. A text that is not blank throughout has a
first word: it begins where the trimmed text begins, and ends before the first blank in it.
-/

set_option autoImplicit false

namespace SurfaceTape.Text

variable {c : Char} {cs rest : List Char}

theorem words_nil : words [] = [] := by
  simp [words]

/-- The words to the two sides of a blank are the words of the whole. -/
private theorem words_append_blank (blank : isBlank c = true) :
    words (cs ++ c :: rest) = words cs ++ words rest := by
  rw [words, List.splitOnP_append_cons cs rest blank, List.filter_append]
  rfl

private theorem words_cons_of_blank (blank : isBlank c = true) : words (c :: cs) = words cs := by
  rw [← List.nil_append (c :: cs), words_append_blank blank, words_nil, List.nil_append]

private theorem words_of_inked {word : List Char} (nonempty : word ≠ [])
    (inked : ∀ c ∈ word, isBlank c = false) : words word = [word] := by
  rw [words, List.splitOnP_eq_singleton inked]
  simp [nonempty]

/-- The first word of a text that does not begin with a blank goes as far as the first blank. -/
theorem words_cons_of_inked (inked : isBlank c = false) :
    words (c :: cs) = (c :: cs.takeWhile (!isBlank ·)) :: words (cs.dropWhile (!isBlank ·)) := by
  have first : words (c :: cs.takeWhile (!isBlank ·)) = [c :: cs.takeWhile (!isBlank ·)] := by
    apply words_of_inked (List.cons_ne_nil _ _)
    intro d member
    rcases List.mem_cons.mp member with rfl | member
    · exact inked
    · simpa using List.mem_takeWhile_imp member
  have whole : c :: cs = c :: cs.takeWhile (!isBlank ·) ++ cs.dropWhile (!isBlank ·) := by
    rw [List.cons_append, List.takeWhile_append_dropWhile]
  cases after : cs.dropWhile (!isBlank ·) with
  | nil =>
      rw [after, List.append_nil] at whole
      rw [whole, first, words_nil]
  | cons b later =>
      have blank : isBlank b = true := by
        have stops := List.head_dropWhile_not (!isBlank ·) (l := cs) (by simp [after])
        simpa [after] using stops
      rw [after] at whole
      rw [whole, words_append_blank blank, first, words_cons_of_blank blank]
      rfl

private theorem words_dropWhile (cs : List Char) : words (cs.dropWhile isBlank) = words cs := by
  induction cs with
  | nil => rfl
  | cons c cs ih =>
      cases blank : isBlank c with
      | true => rw [List.dropWhile_cons_of_pos blank, ih, words_cons_of_blank blank]
      | false => rw [List.dropWhile_cons_of_neg (Bool.eq_false_iff.mp blank)]

private theorem words_rdropWhile (cs : List Char) : words (cs.rdropWhile isBlank) = words cs := by
  induction cs using List.reverseRecOn with
  | nil => rfl
  | append_singleton cs c ih =>
      cases blank : isBlank c with
      | true =>
          rw [List.rdropWhile_concat_pos _ _ _ blank, ih, words_append_blank blank, words_nil,
            List.append_nil]
      | false => rw [List.rdropWhile_concat_neg _ _ _ (Bool.eq_false_iff.mp blank)]

private theorem trim_eq_rdropWhile (cs : List Char) :
    trim cs = (cs.dropWhile isBlank).rdropWhile isBlank :=
  rfl

theorem words_trim (cs : List Char) : words (trim cs) = words cs := by
  rw [trim_eq_rdropWhile, words_rdropWhile, words_dropWhile]

theorem not_blank_of_trim (trimmed : trim cs = c :: rest) : isBlank c = false := by
  have leading : c :: rest <+: cs.dropWhile isBlank := by
    rw [← trimmed, trim_eq_rdropWhile]
    exact List.rdropWhile_prefix isBlank _
  obtain ⟨later, whole⟩ := leading
  have first := List.head_dropWhile_not isBlank (l := cs) (by simp [← whole])
  simpa only [← whole, List.cons_append, List.head_cons] using first

end SurfaceTape.Text
