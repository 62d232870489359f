import HybridAutomata.Expr.Token
import HybridAutomata.Proofs.Success
import Mathlib.Data.List.TakeWhile

/-!
# Scanning what is written

The tokens of a text do not depend on its position, and the text in front of a blank, a parenthesis
or a comma is cut into tokens without a look at what follows. There is one statement for every kind
of token, and nothing after this module unfolds the scanner.
-/

namespace HybridAutomata

namespace Token

open Success

variable {α : Type} [Scalar α] {cs rest w : List Char} {ts : List (Token α)} {c : Char}

/-- The tokens of a text, wherever it starts. -/
def Scans (cs : List Char) (ts : List (Token α)) : Prop :=
  ∀ offset, ∃ ls, scan offset cs = .ok ls ∧ ls.map Lexeme.token = ts

/-- A text that goes on with none of the tokens before it: it is empty or begins with a blank, a
parenthesis or a comma. -/
def Separate (rest : List Char) : Prop :=
  ∀ c, rest.head? = some c → c = ' ' ∨ c = '(' ∨ c = ')' ∨ c = ','

attribute [local simp] scan

theorem scans_nil : Scans [] ([] : List (Token α)) := by
  intro offset
  simp

theorem Scans.blank (h : Scans rest ts) : Scans (' ' :: rest) ts := by
  intro offset
  rw [scan]
  exact h _

/-- What is in front of a text is one token. -/
theorem Scans.token {t : Token α}
    (step : ∀ offset, ∃ offset', scan offset cs = (do return ⟨t, offset⟩ :: (← scan offset' rest)))
    (h : Scans rest ts) : Scans cs (t :: ts) := by
  intro offset
  obtain ⟨offset', step⟩ := step offset
  obtain ⟨ls, scanned, rfl⟩ := h offset'
  rw [step, scanned]
  exact ⟨_, rfl, rfl⟩

theorem Scans.lparen (h : Scans rest ts) : Scans ('(' :: rest) (.lparen :: ts) := by
  refine Scans.token (fun offset => ⟨offset + 1, ?_⟩) h
  rw [scan]
  rfl

theorem Scans.rparen (h : Scans rest ts) : Scans (')' :: rest) (.rparen :: ts) := by
  refine Scans.token (fun offset => ⟨offset + 1, ?_⟩) h
  rw [scan]
  rfl

theorem Scans.comma (h : Scans rest ts) : Scans (',' :: rest) (.comma :: ts) := by
  refine Scans.token (fun offset => ⟨offset + 1, ?_⟩) h
  rw [scan]
  rfl

/-- A sign is scanned where nothing else begins. -/
theorem scan_symbol {s : Symbol} (offset : Nat) (noGap : isGap c = false)
    (noNumber : startsNumber (c :: cs) = false) (noName : isNameStart c = false)
    (noBracket : c ≠ '(' ∧ c ≠ ')' ∧ c ≠ ',')
    (sign : Symbol.scan? (c :: cs) = some (s, rest)) :
    scan (α := α) offset (c :: cs) = (do
      return ⟨.symbol s, offset⟩ :: (← scan (offset + s.text.utf8ByteSize) rest)) := by
  obtain ⟨noLparen, noRparen, noComma⟩ := noBracket
  rw [scan, if_neg (by simp [noGap]), dif_neg (by simp [noNumber]), if_neg (by simp [noName]),
    if_neg noLparen, if_neg noRparen, if_neg noComma]
  split
  · next found =>
      rw [sign] at found
      cases found
      rfl
  · next found =>
      rw [sign] at found
      cases found

theorem Scans.symbol {s : Symbol} (sign : Symbol.scan? (s.text.toList ++ rest) = some (s, rest))
    (h : Scans rest ts) : Scans (s.text.toList ++ rest) (.symbol s :: ts) := by
  refine Scans.token (fun offset => ⟨offset + s.text.utf8ByteSize, ?_⟩) h
  cases s <;> exact scan_symbol offset rfl rfl rfl (by decide) sign

theorem scan?_blank (s : Symbol) (rest : List Char) :
    Symbol.scan? (s.text.toList ++ ' ' :: rest) = some (s, ' ' :: rest) := by
  cases s <;> rfl

/-- A run of characters is cut off where a separate text begins. -/
theorem Separate.cut {p : Char → Bool} (separate : Separate rest) (all : ∀ c ∈ w, p c = true)
    (stops : ∀ c, c = ' ' ∨ c = '(' ∨ c = ')' ∨ c = ',' → p c = false) :
    (w ++ rest).takeWhile p = w ∧ (w ++ rest).dropWhile p = rest := by
  rw [List.takeWhile_append_of_pos all, List.dropWhile_append_of_pos all]
  cases rest with
  | nil => simp
  | cons c rest =>
      have stop := stops c (separate c rfl)
      simp [stop]

theorem stops_isNameChar (c : Char) (h : c = ' ' ∨ c = '(' ∨ c = ')' ∨ c = ',') :
    isNameChar c = false := by
  rcases h with rfl | rfl | rfl | rfl <;> rfl

theorem stops_isNumberChar (c : Char) (h : c = ' ' ∨ c = '(' ∨ c = ')' ∨ c = ',') :
    isNumberChar c = false := by
  rcases h with rfl | rfl | rfl | rfl <;> rfl

theorem eq_of_isGap (h : isGap c = true) :
    c = ' ' ∨ c = '\t' ∨ c = '\n' ∨ c = '\x0c' ∨ c = '\r' := by
  simpa [isGap, or_assoc] using h

theorem isGap_of_isNameStart (h : isNameStart c = true) : isGap c = false := by
  rw [← Bool.not_eq_true]
  intro gap
  rcases eq_of_isGap gap with rfl | rfl | rfl | rfl | rfl <;> cases h

theorem isGap_of_isDigit (h : c.isDigit = true) : isGap c = false := by
  rw [← Bool.not_eq_true]
  intro gap
  rcases eq_of_isGap gap with rfl | rfl | rfl | rfl | rfl <;> cases h

/-- The digits come before the letters. -/
theorem isDigit_of_le (h : 'A'.val ≤ c.val) : c.isDigit = false := by
  have above : ¬c.val ≤ '9'.val := UInt32.not_le.mpr (UInt32.lt_of_lt_of_le (by decide) h)
  exact Bool.and_eq_false_iff.mpr (.inr (decide_eq_false above))

theorem isDigit_of_isNameStart (h : isNameStart c = true) : c.isDigit = false := by
  rw [isNameStart, Bool.or_eq_true, beq_iff_eq] at h
  obtain letter | rfl := h
  · obtain upper | lower := Bool.or_eq_true_iff.mp letter
    · exact isDigit_of_le (of_decide_eq_true upper).1
    · have above : 'a'.val ≤ c.val := of_decide_eq_true (Bool.and_eq_true_iff.mp lower).1
      exact isDigit_of_le (UInt32.le_trans (by decide : 'A'.val ≤ 'a'.val) above)
  · rfl

theorem startsNumber_of_isNameStart (h : isNameStart c = true) :
    startsNumber (c :: cs) = false := by
  unfold startsNumber
  split
  · next found =>
      cases found
      cases h
  · next found =>
      cases found
      exact isDigit_of_isNameStart h
  · rfl

/-- A name is a letter or underscore, followed by letters, digits, underscores and points. -/
theorem Scans.name (start : isNameStart c = true) (all : ∀ c ∈ w, isNameChar c = true)
    (separate : Separate rest) (h : Scans rest ts) :
    Scans (c :: w ++ rest) (.ident (String.ofList (c :: w)) :: ts) := by
  obtain ⟨front, back⟩ := separate.cut all stops_isNameChar
  refine Scans.token (fun offset => ⟨offset + byteLength (c :: w), ?_⟩) h
  rw [List.cons_append, scan, if_neg (by simp [isGap_of_isNameStart start]),
    dif_neg (by simp [startsNumber_of_isNameStart start]), if_pos start, front, back]

/-- Digits and points, with a digit in front. -/
structure IsNumberText (w : List Char) : Prop where
  digit : ∃ c rest, w = c :: rest ∧ c.isDigit = true
  all : ∀ c ∈ w, isNumberChar c = true

theorem isNumberText_of_all (digit : c.isDigit = true) (all : (c :: w).all isNumberChar = true) :
    IsNumberText (c :: w) :=
  ⟨⟨c, w, rfl, digit⟩, List.all_eq_true.mp all⟩

theorem Separate.exponentLength (separate : Separate rest) : exponentLength rest = 0 := by
  cases rest with
  | nil => rfl
  | cons c rest =>
      obtain rfl | rfl | rfl | rfl := separate c rfl <;> rfl

theorem startsNumber_of_isDigit (h : c.isDigit = true) : startsNumber (c :: cs) = true := by
  unfold startsNumber
  split
  · next found =>
      cases found
      cases h
  · next found =>
      cases found
      exact h
  · next found => cases found

theorem Scans.number {n : Numeral} (isNumber : IsNumberText w) (reads : Numeral.ofList? w = some n)
    (separate : Separate rest) (h : Scans rest ts) :
    Scans (w ++ rest) (.number n.toScalar :: ts) := by
  obtain ⟨front, back⟩ := separate.cut isNumber.all stops_isNumberChar
  have length : numberLength (w ++ rest) = w.length := by
    rw [numberLength, front, back, separate.exponentLength]
    rfl
  obtain ⟨c, more, rfl, digit⟩ := isNumber.digit
  refine Scans.token (fun offset => ⟨offset + byteLength (c :: more), ?_⟩) h
  rw [List.cons_append] at length ⊢
  rw [scan, if_neg (by simp [isGap_of_isDigit digit]), dif_pos (startsNumber_of_isDigit digit),
    length]
  dsimp only
  rw [← List.cons_append, List.take_left, List.drop_left, reads]

/-! ## Names in scanned texts -/

/-- A letter or underscore, followed by letters, digits, underscores and points. -/
def IsIdentifier (name : String) : Prop :=
  ∃ c w, name.toList = c :: w ∧ isNameStart c = true ∧ ∀ d ∈ w, isNameChar d = true

theorem isIdentifier_of_all {name : String} (letters : name.toList = c :: w)
    (start : isNameStart c = true) (all : w.all isNameChar = true) : IsIdentifier name :=
  ⟨c, w, letters, start, List.all_eq_true.mp all⟩

omit [Scalar α] in
/-- A name that is scanned is the token in front or a name behind it. -/
theorem ident_of_step {t : Token α} {offset : Nat} {tail : Except ScanError (List (Lexeme α))}
    {ls : List (Lexeme α)} {name : String} {P : Prop}
    (scanned : (do return ⟨t, offset⟩ :: (← tail)) = Except.ok ls)
    (mem : .ident name ∈ ls.map Lexeme.token) (here : t = .ident name → P)
    (behind : ∀ more, tail = .ok more → .ident name ∈ more.map Lexeme.token → P) : P := by
  obtain ⟨more, rest, written⟩ := bind_eq_ok_iff.mp scanned
  cases written
  obtain first | mem := List.mem_cons.mp mem
  · exact here first.symm
  · exact behind more rest mem

/-- Every name that is scanned is spelled as names are. -/
theorem isIdentifier_of_scan {offset : Nat} {ls : List (Lexeme α)} {name : String}
    (scanned : scan (α := α) offset cs = .ok ls) (mem : .ident name ∈ ls.map Lexeme.token) :
    IsIdentifier name := by
  fun_induction scan (α := α) offset cs generalizing ls with
  | case1 => cases scanned; cases mem
  | case2 offset c rest gap ih => exact ih scanned mem
  | case3 =>
      rename_i ih
      exact ident_of_step scanned mem (by rintro ⟨⟩) fun _ => ih
  | case4 => cases scanned
  | case5 offset c rest gap noNumber start =>
      rename_i tail ih
      refine ident_of_step scanned mem ?_ fun _ => ih
      rintro ⟨⟩
      exact ⟨c, tail, String.toList_ofList, start, fun d mem => List.mem_takeWhile_imp mem⟩
  | case6 _ _ _ _ _ ih | case7 _ _ _ _ _ _ ih | case8 _ _ _ _ _ _ _ ih
  | case9 _ _ _ _ _ _ _ _ _ _ _ _ ih =>
      exact ident_of_step scanned mem (by rintro ⟨⟩) fun _ => ih
  | case10 => cases scanned

/-! ## Whole texts -/

theorem separate_nil : Separate [] := by
  rintro c ⟨⟩

theorem separate_cons (h : c = ' ' ∨ c = '(' ∨ c = ')' ∨ c = ',') : Separate (c :: rest) := by
  rintro d ⟨⟩
  exact h

/-- A text is cut into tokens in front of everything separate. -/
def Cuts (text : String) (ts : List (Token α)) : Prop :=
  ∀ rest us, Separate rest → Scans rest us → Scans (text.toList ++ rest) (ts ++ us)

section

variable {text left right name : String} {us : List (Token α)}

theorem Cuts.scans (h : Cuts text ts) : Scans text.toList ts := by
  have whole := h [] [] separate_nil scans_nil
  rwa [List.append_nil, List.append_nil] at whole

theorem Cuts.parentheses (h : Cuts text ts) :
    Cuts ("(" ++ text ++ ")") (.lparen :: (ts ++ [.rparen])) := by
  intro rest us _ scanned
  have inside := h (')' :: rest) (.rparen :: us) (separate_cons (by decide)) scanned.rparen
  simpa using inside.lparen

/-- An operator between its operands, with blanks around it. -/
theorem Cuts.operator (s : Symbol) (hl : Cuts left ts) (hr : Cuts right us) :
    Cuts (left ++ " " ++ s.text ++ " " ++ right) (ts ++ .symbol s :: us) := by
  intro rest vs separate scanned
  have back := (hr rest vs separate scanned).blank
  have sign := (Scans.symbol (scan?_blank s _) back).blank
  simpa using hl _ _ (separate_cons (.inl rfl)) sign

theorem Cuts.minus (h : Cuts text ts) : Cuts ("-" ++ text) (.symbol .minus :: ts) := by
  intro rest us separate scanned
  rw [String.toList_append, List.append_assoc]
  exact Scans.symbol (s := .minus) rfl (h rest us separate scanned)

theorem scan?_not {cs : List Char} (noEq : cs.head? ≠ some '=') :
    Symbol.scan? ('!' :: cs) = some (.not, cs) := by
  unfold Symbol.scan?
  split <;> simp_all

theorem Separate.head?_append (separate : Separate rest) (noEq : w.head? ≠ some '=') :
    (w ++ rest).head? ≠ some '=' := by
  cases w with
  | nil =>
      intro head
      have blank := separate _ head
      simp at blank
  | cons c w => exact noEq

/-- A negation sign, unless it is taken for the first half of an inequality sign. -/
theorem Cuts.not (h : Cuts text ts) (noEq : text.toList.head? ≠ some '=') :
    Cuts ("!" ++ text) (.symbol .not :: ts) := by
  intro rest us separate scanned
  rw [String.toList_append, List.append_assoc]
  exact Scans.symbol (s := .not) (scan?_not (separate.head?_append noEq))
    (h rest us separate scanned)

theorem cuts_name (isIdentifier : IsIdentifier name) : Cuts (α := α) name [.ident name] := by
  intro rest us separate scanned
  obtain ⟨c, w, letters, start, all⟩ := isIdentifier
  have whole := scanned.name start all separate
  rwa [← letters, String.ofList_toList] at whole

theorem cuts_number {n : Numeral} (isNumber : IsNumberText text.toList)
    (reads : Numeral.ofList? text.toList = some n) :
    Cuts (α := α) text [.number n.toScalar] :=
  fun _ _ separate scanned => scanned.number isNumber reads separate

/-- A call: the name in front of the arguments in parentheses. -/
theorem Cuts.call (hname : Cuts (α := α) name [.ident name]) (h : Cuts text ts) :
    Cuts (name ++ "(" ++ text ++ ")") (.ident name :: .lparen :: (ts ++ [.rparen])) := by
  intro rest us separate scanned
  have arguments := h.parentheses rest us separate scanned
  have separate : Separate (("(" ++ text ++ ")").toList ++ rest) := by
    simpa using separate_cons (.inr (.inl rfl))
  simpa [String.append_assoc] using hname _ _ separate arguments

/-- A further argument. -/
theorem Cuts.comma (hl : Cuts left ts) (hr : Cuts right us) :
    Cuts (left ++ ", " ++ right) (ts ++ .comma :: us) := by
  intro rest vs separate scanned
  have back := (hr rest vs separate scanned).blank.comma
  simpa using hl _ _ (separate_cons (by decide)) back

end

end Token

end HybridAutomata
