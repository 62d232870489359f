import Mathlib.Algebra.Ring.Parity
import Mathlib.Data.List.Induction

/-!
# Strings in quotes

A string in quotes ends at the first quote that is not escaped: a quote is escaped by a backslash in
front of it, and that backslash must not be escaped itself. What may stand between two quotes is
said by counting backslashes, and once more by a scan from left to right that keeps one bit. The two
agree, and a reader that scans a whole text finds the strings that were written into it exactly if
each of them may stand between quotes.
-/

namespace HybridAutomata

namespace Quotation

variable {xs ys zs cs : List Char} {c : Char} {escaped : Bool}

/-- The number of backslashes at the end of a text. -/
def backslashes (cs : List Char) : Nat := (cs.reverse.takeWhile (· == '\\')).length

/-- Every quote in a text has an odd number of backslashes right before it. -/
def QuotesEscaped (cs : List Char) : Prop :=
  ∀ before after, cs = before ++ '"' :: after → Odd (backslashes before)

/-- Between two quotes the text is one string: no quote inside ends it, and the quote behind it
does. -/
structure WellQuoted (cs : List Char) : Prop where
  inside : QuotesEscaped cs
  closing : Even (backslashes cs)

theorem backslashes_concat (cs : List Char) (c : Char) :
    backslashes (cs ++ [c]) = if c = '\\' then backslashes cs + 1 else 0 := by
  by_cases h : c = '\\' <;> simp [backslashes, h]

theorem quotesEscaped_nil : QuotesEscaped [] := by
  intro before after split
  cases before <;> cases split

theorem quotesEscaped_concat_iff :
    QuotesEscaped (cs ++ [c]) ↔ QuotesEscaped cs ∧ (c = '"' → Odd (backslashes cs)) := by
  constructor
  · intro h
    refine ⟨fun before after split => ?_, fun quote => ?_⟩
    · exact h before (after ++ [c]) (by rw [split, List.append_assoc, List.cons_append])
    · exact h cs [] (by rw [quote])
  · rintro ⟨inside, last⟩ before after split
    obtain rfl | ⟨after, d, rfl⟩ := List.eq_nil_or_concat after
    · obtain ⟨rfl, quote⟩ := List.append_inj' split rfl
      exact last (List.singleton_inj.mp quote)
    · rw [List.concat_eq_append, ← List.cons_append, ← List.append_assoc] at split
      exact inside before after (List.append_inj' split rfl).1

/-! ## Scanning -/

/-- Whether a character escapes the next one. -/
def escapesNext (escaped : Bool) (c : Char) : Bool := c == '\\' && !escaped

/-- Reads on inside a string: whether the character after the text is escaped, or nothing if the
string ends in the text. -/
def scan (escaped : Bool) : List Char → Option Bool
  | [] => some escaped
  | c :: cs => if c = '"' ∧ escaped = false then none else scan (escapesNext escaped c) cs

theorem scan_append (escaped : Bool) (xs ys : List Char) :
    scan escaped (xs ++ ys) = (scan escaped xs).bind fun escaped' => scan escaped' ys := by
  induction xs generalizing escaped with
  | nil => rfl
  | cons c xs ih =>
      rw [List.cons_append, scan, scan]
      split
      · rfl
      · exact ih _

/-- The bit that the scan keeps is the parity of the backslashes before. -/
theorem scan_eq_some_iff {b : Bool} :
    scan false cs = some b ↔ QuotesEscaped cs ∧ (b = true ↔ Odd (backslashes cs)) := by
  induction cs using List.reverseRecOn generalizing b with
  | nil =>
      have even : ¬Odd (backslashes []) := by decide
      cases b <;> simp [scan, quotesEscaped_nil, even]
  | append_singleton cs c ih =>
      have step (escaped : Bool) : scan escaped [c] = some b ↔
          (c = '"' → escaped = true) ∧ b = escapesNext escaped c := by
        cases escaped <;> by_cases quote : c = '"' <;> simp [scan, quote, eq_comm]
      rw [scan_append, Option.bind_eq_some_iff, quotesEscaped_concat_iff, backslashes_concat]
      simp only [ih, step, escapesNext]
      by_cases odd : Odd (backslashes cs) <;> by_cases slash : c = '\\' <;> cases b <;>
        simp [odd, slash, Nat.odd_add_one]

theorem wellQuoted_iff_scan : WellQuoted cs ↔ scan false cs = some false := by
  rw [scan_eq_some_iff]
  constructor
  · intro h
    exact ⟨h.inside, iff_of_false (by decide) (Nat.not_odd_iff_even.mpr h.closing)⟩
  · rintro ⟨inside, parity⟩
    exact ⟨inside, Nat.not_odd_iff_even.mp fun odd => absurd (parity.mpr odd) (by decide)⟩

theorem quotesEscaped_iff_scan : QuotesEscaped cs ↔ ∃ b, scan false cs = some b := by
  constructor
  · intro h
    exact ⟨decide (Odd (backslashes cs)), scan_eq_some_iff.mpr ⟨h, decide_eq_true_iff⟩⟩
  · rintro ⟨b, scanned⟩
    exact (scan_eq_some_iff.mp scanned).1

instance : Decidable (WellQuoted cs) := decidable_of_iff _ wellQuoted_iff_scan.symm

theorem quotesEscaped_iff_isSome_scan : QuotesEscaped cs ↔ (scan false cs).isSome := by
  rw [quotesEscaped_iff_scan, Option.isSome_iff_exists]

instance : Decidable (QuotesEscaped cs) := decidable_of_iff _ quotesEscaped_iff_isSome_scan.symm

theorem wellQuoted_nil : WellQuoted [] := wellQuoted_iff_scan.mpr rfl

theorem wellQuoted_singleton (noQuote : c ≠ '"') (noBackslash : c ≠ '\\') : WellQuoted [c] :=
  wellQuoted_iff_scan.mpr (by simp [scan, escapesNext, noQuote, noBackslash])

/-- Behind a text that may stand between quotes, the scan starts anew. -/
theorem WellQuoted.append_iff (h : WellQuoted xs) : WellQuoted (xs ++ ys) ↔ WellQuoted ys := by
  rw [wellQuoted_iff_scan, wellQuoted_iff_scan, scan_append, wellQuoted_iff_scan.mp h]
  rfl

/-- Pieces that may stand between quotes each may do so together. -/
theorem wellQuoted_flatten {pieces : List (List Char)} (h : ∀ piece ∈ pieces, WellQuoted piece) :
    WellQuoted pieces.flatten := by
  induction pieces with
  | nil => exact wellQuoted_nil
  | cons piece pieces ih =>
      obtain ⟨first, others⟩ := List.forall_mem_cons.mp h
      exact first.append_iff.mpr (ih others)

/-- A text behind which the scan starts anew, whatever it comes from, separates what is in front
from what is behind: in front, it matters only that no quote ends the string. -/
theorem wellQuoted_append_iff_of_resets (resets : ∀ escaped, scan escaped ys = some false) :
    WellQuoted (xs ++ (ys ++ zs)) ↔ QuotesEscaped xs ∧ WellQuoted zs := by
  rw [wellQuoted_iff_scan, wellQuoted_iff_scan, quotesEscaped_iff_scan, scan_append,
    Option.bind_eq_some_iff]
  simp only [scan_append, resets, Option.bind_some, exists_and_right]

/-! ## Reading -/

/-- The strings in quotes that a reader finds in a text, one after the other; nothing if the last
one does not end. Inside a string the reader holds what it has read of it, and whether the next
character is escaped. -/
def readStrings : Option (List Char × Bool) → List Char → Option (List (List Char))
  | none, [] => some []
  | some _, [] => none
  | none, c :: cs => if c = '"' then readStrings (some ([], false)) cs else readStrings none cs
  | some (found, escaped), c :: cs =>
      if c = '"' ∧ escaped = false then (readStrings none cs).map (found :: ·)
      else readStrings (some (found ++ [c], escapesNext escaped c)) cs

/-- Outside quotes, the reader passes over everything else. -/
theorem readStrings_append_of_not_mem (h : '"' ∉ xs) (ys : List Char) :
    readStrings none (xs ++ ys) = readStrings none ys := by
  induction xs with
  | nil => rfl
  | cons c xs ih =>
      have first : c ≠ '"' := (List.ne_of_not_mem_cons h).symm
      rw [List.cons_append, readStrings, if_neg first, ih (List.not_mem_of_not_mem_cons h)]

/-- What the reader holds is the beginning of the string that it finds. -/
theorem exists_append_of_readStrings {found : List Char} {strings : List (List Char)}
    (h : readStrings (some (found, escaped)) cs = some strings) :
    ∃ rest others, strings = (found ++ rest) :: others := by
  induction cs generalizing found escaped with
  | nil => cases h
  | cons c cs ih =>
      rw [readStrings] at h
      split at h
      · obtain ⟨others, _, rfl⟩ := Option.map_eq_some_iff.mp h
        exact ⟨[], others, by rw [List.append_nil]⟩
      · obtain ⟨rest, others, rfl⟩ := ih h
        exact ⟨c :: rest, others, by simp⟩

/-- From inside a string, the reader finds what was written up to a quote exactly if the scan says
that the string ends there and not before. -/
theorem readStrings_inside_iff {found label rest : List Char} {others : List (List Char)} :
    readStrings (some (found, escaped)) (label ++ '"' :: rest) = some ((found ++ label) :: others) ↔
      scan escaped label = some false ∧ readStrings none rest = some others := by
  induction label generalizing found escaped with
  | nil =>
      rw [List.nil_append, List.append_nil, readStrings, scan]
      cases escaped with
      | false => simp
      | true =>
          -- the quote is escaped, and the string goes on behind it
          refine iff_of_false (fun h => ?_) (by simp)
          rw [if_neg (by simp)] at h
          obtain ⟨more, _, eq⟩ := exists_append_of_readStrings h
          simpa using congrArg List.length (List.cons.inj eq).1
  | cons c label ih =>
      rw [List.cons_append, readStrings, scan]
      split
      · -- the string ends inside the label
        refine iff_of_false (fun h => ?_) (by simp)
        obtain ⟨_, _, eq⟩ := Option.map_eq_some_iff.mp h
        simpa using congrArg List.length (List.cons.inj eq).1
      · rw [List.append_cons found c label]
        exact ih

/-- The reader finds a string that was written in quotes exactly if the string may stand between
them. -/
theorem readStrings_quoted_iff {plain label rest : List Char} {others : List (List Char)}
    (h : '"' ∉ plain) :
    readStrings none (plain ++ '"' :: (label ++ '"' :: rest)) = some (label :: others) ↔
      WellQuoted label ∧ readStrings none rest = some others := by
  rw [readStrings_append_of_not_mem h, readStrings, if_pos rfl, wellQuoted_iff_scan]
  exact readStrings_inside_iff

end Quotation

end HybridAutomata
