/-!
# Blank characters

Rows of a model description and parameters of a pass are separated by blank characters. These are
the characters with the Unicode property White_Space, which has more members than the class that
core knows.
-/

namespace HybridAutomata

namespace Text

/-- A character with the property White_Space. -/
def isBlank (c : Char) : Bool :=
  let n := c.toNat
  (0x9 ≤ n && n ≤ 0xD) || n == 0x20 || n == 0x85 || n == 0xA0 || n == 0x1680 ||
    (0x2000 ≤ n && n ≤ 0x200A) || n == 0x2028 || n == 0x2029 || n == 0x202F || n == 0x205F ||
    n == 0x3000

/-- Drops blank characters from the end. -/
def trimEnd (cs : List Char) : List Char := (cs.reverse.dropWhile isBlank).reverse

/-- Drops blank characters from both ends. -/
def trim (text : String) : String := String.ofList (trimEnd (text.toList.dropWhile isBlank))

theorem length_dropWhile_le {α : Type} (p : α → Bool) (l : List α) :
    (l.dropWhile p).length ≤ l.length :=
  (List.dropWhile_sublist p).length_le

/-- The maximal runs of characters that are not blank. -/
def wordsOf (cs : List Char) : List (List Char) :=
  match _skipped : cs.dropWhile isBlank with
  | [] => []
  | c :: rest =>
      (c :: rest.takeWhile (!isBlank ·)) :: wordsOf (rest.dropWhile (!isBlank ·))
termination_by cs.length
decreasing_by
  have hskip := length_dropWhile_le isBlank cs
  have hword := length_dropWhile_le (!isBlank ·) rest
  rw [_skipped, List.length_cons] at hskip
  omega

/-- The words of a text. -/
def words (text : String) : List String := (wordsOf text.toList).map String.ofList

/-- The parts of a text between the occurrences of a separator; one part more than separators. -/
def splitList (separator : Char) : List Char → List (List Char)
  | [] => [[]]
  | c :: cs =>
      if c = separator then [] :: splitList separator cs
      else
        match splitList separator cs with
        | part :: parts => (c :: part) :: parts
        | [] => [[c]]

@[inherit_doc splitList] def split (separator : Char) (text : String) : List String :=
  (splitList separator text.toList).map String.ofList

/-- The parts before and after the first occurrence of a separator. -/
def splitOnce? (separator : Char) (text : String) : Option (String × String) :=
  let before := text.toList.takeWhile (· ≠ separator)
  match text.toList.dropWhile (· ≠ separator) with
  | [] => none
  | _ :: after => some (String.ofList before, String.ofList after)

end Text

end HybridAutomata
