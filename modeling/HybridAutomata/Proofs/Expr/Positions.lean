import HybridAutomata.Proofs.Expr.Scanning

/-!
# Positions of tokens

The scanner counts the bytes that it has gone past, gaps included. The position of a token is
therefore the number of bytes in front of it, and scanning from there on gives the token and the
ones behind it: every token that is found is found where it says it is.
-/

namespace HybridAutomata

namespace Token

open Success

theorem byteLength_eq (cs : List Char) : byteLength cs = (String.ofList cs).utf8ByteSize := by
  have shifted (n : Nat) : cs.foldl (fun n c => n + c.utf8Size) n =
      n + (String.ofList cs).utf8ByteSize := by
    induction cs generalizing n with
    | nil => rfl
    | cons c cs ih =>
        rw [List.foldl_cons, ih, String.ofList_cons, String.utf8ByteSize_append,
          String.utf8ByteSize_singleton, Nat.add_assoc]
  rw [byteLength, shifted, Nat.zero_add]

/-- A sign takes up the text it is written with. -/
theorem eq_of_scan? {cs rest : List Char} {s : Symbol} (h : Symbol.scan? cs = some (s, rest)) :
    cs = s.text.toList ++ rest := by
  unfold Symbol.scan? at h
  split at h <;> cases h <;> rfl

/-- A text does not begin with a gap. -/
def NoGap (text : String) : Prop :=
  ∀ c, text.toList.head? = some c → isGap c = false

variable {α : Type} {text : String} {offset : Nat} {l : Lexeme α}
  {ls before after : List (Lexeme α)}

theorem token_of_step {t : Token α} {tail : Except ScanError (List (Lexeme α))}
    (step : (do return ⟨t, offset⟩ :: (← tail)) = Except.ok (l :: ls)) :
    l.offset = offset ∧ tail = .ok ls := by
  obtain ⟨more, rest, written⟩ := bind_eq_ok_iff.mp step
  cases written
  exact ⟨rfl, rest⟩

variable [Scalar α]

/-- Without a gap in front the first token begins where the text does, and the scanner goes on
behind the text of the token. -/
theorem token_of_scan {c : Char} {cs : List Char} (noGap : isGap c = false)
    (scanned : scan offset (c :: cs) = .ok (l :: ls)) :
    ∃ word rest, c :: cs = word ++ rest ∧ l.offset = offset ∧
      scan (offset + byteLength word) rest = .ok ls := by
  rw [scan, if_neg (by simp [noGap])] at scanned
  split at scanned
  · dsimp only at scanned
    split at scanned
    · obtain ⟨here, behind⟩ := token_of_step scanned
      exact ⟨_, _, (List.take_append_drop _ _).symm, here, behind⟩
    · cases scanned
  split at scanned
  · obtain ⟨here, behind⟩ := token_of_step scanned
    refine ⟨c :: cs.takeWhile isNameChar, cs.dropWhile isNameChar, ?_, here, behind⟩
    rw [List.cons_append, List.takeWhile_append_dropWhile]
  split at scanned
  · next isOpen =>
      subst isOpen
      obtain ⟨here, behind⟩ := token_of_step scanned
      exact ⟨['('], cs, rfl, here, behind⟩
  split at scanned
  · next isClose =>
      subst isClose
      obtain ⟨here, behind⟩ := token_of_step scanned
      exact ⟨[')'], cs, rfl, here, behind⟩
  split at scanned
  · next isComma =>
      subst isComma
      obtain ⟨here, behind⟩ := token_of_step scanned
      exact ⟨[','], cs, rfl, here, behind⟩
  split at scanned
  · next s rest sign =>
      obtain ⟨here, behind⟩ := token_of_step scanned
      refine ⟨s.text.toList, rest, eq_of_scan? sign, here, ?_⟩
      rw [byteLength_eq, String.ofList_toList, behind]
  · cases scanned

/-- The first token, the gap in front of it and the text behind it. -/
theorem first_of_scan (scanned : scan offset text.toList = .ok (l :: ls)) :
    ∃ gap word rest, text = gap ++ (word ++ rest) ∧ l.offset = offset + gap.utf8ByteSize ∧
      NoGap (word ++ rest) ∧ scan l.offset (word ++ rest).toList = .ok (l :: ls) ∧
      scan (l.offset + word.utf8ByteSize) rest.toList = .ok ls := by
  generalize letters : text.toList = cs at scanned
  obtain rfl : text = String.ofList cs := by rw [← letters, String.ofList_toList]
  clear letters
  induction cs generalizing offset with
  | nil => simp [scan] at scanned
  | cons c cs ih =>
      by_cases isGap : Token.isGap c = true
      · rw [scan, if_pos isGap] at scanned
        obtain ⟨gap, word, rest, split, place, noGap, here, behind⟩ := ih scanned
        refine ⟨.singleton c ++ gap, word, rest, ?_, ?_, noGap, here, behind⟩
        · rw [String.ofList_cons, split, String.append_assoc]
        · rw [place, String.utf8ByteSize_append, String.utf8ByteSize_singleton, Nat.add_assoc]
      · have noGap : Token.isGap c = false := by simpa using isGap
        obtain ⟨word, rest, split, here, behind⟩ := token_of_scan noGap scanned
        have whole : (String.ofList word ++ String.ofList rest).toList = c :: cs := by
          rw [← String.ofList_append, String.toList_ofList, split]
        refine ⟨"", .ofList word, .ofList rest, ?_, here, ?_, ?_, ?_⟩
        · rw [split, String.ofList_append, String.empty_append]
        · rw [NoGap, whole]
          rintro d ⟨⟩
          exact noGap
        · rw [whole, here, scanned]
        · rw [here, ← byteLength_eq, String.toList_ofList, behind]

/-- Every token is found at its position: the bytes in front of it are as many as it says, it begins
there, and the scanner finds it and the ones behind it from there on. -/
theorem position_of_scan (scanned : scan offset text.toList = .ok (before ++ l :: after)) :
    ∃ front back, text = front ++ back ∧ l.offset = offset + front.utf8ByteSize ∧ NoGap back ∧
      scan l.offset back.toList = .ok (l :: after) := by
  induction before generalizing offset text with
  | nil =>
      obtain ⟨gap, word, rest, split, place, noGap, here, -⟩ := first_of_scan scanned
      exact ⟨gap, word ++ rest, split, place, noGap, here⟩
  | cons b before ih =>
      obtain ⟨gap, word, rest, split, place, -, -, behind⟩ := first_of_scan scanned
      obtain ⟨front, back, rfl, place', noGap, here⟩ := ih behind
      refine ⟨gap ++ word ++ front, back, ?_, ?_, noGap, here⟩
      · rw [split, String.append_assoc, String.append_assoc]
      · rw [place', place, String.utf8ByteSize_append, String.utf8ByteSize_append]
        omega

end Token

end HybridAutomata
