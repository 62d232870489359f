/-!
# Control sequences

A text can hold characters that a terminal obeys and does not show: single controls, and sequences
that begin with an escape character and set a colour, move the cursor or name a window. A message
quotes a text without them, so that the message cannot be altered by what it quotes.

The main statements are that a text of printed characters stays as it is, and that what stays of any
text is printed.
-/

namespace HybridAutomata

namespace Text

/-- What a reader of a text is in the middle of. -/
inductive ControlState where
  /-- No sequence. -/
  | plain
  /-- A sequence of which only the escape character was read. -/
  | escape
  /-- A sequence that goes on up to a final character, which may be a digit or sign. -/
  | intermediate
  /-- A sequence with parameters, which goes on up to a letter or the like. -/
  | parameters
  /-- A text for the terminal itself, which a bell ends. -/
  | title
  /-- The beginning of a string for a device. -/
  | device
  /-- The parameters of a string for a device. -/
  | deviceParameters
  /-- What stands between the parameters and the string for a device. -/
  | deviceIntermediate
  /-- A string that a string terminator, another escape or a cancel ends. -/
  | string
deriving DecidableEq, Repr

/-- The controls that lay out a text. -/
def isLayout (c : Char) : Bool := c = '\t' || c = '\n' || c = '\x0c' || c = '\r'

/-- Whether a terminal shows a character that stands by itself. Outside ASCII every character is
taken to be shown. -/
def isPrinted (c : Char) : Bool := (0x20 ≤ c.toNat && c.toNat ≠ 0x7F) || isLayout c

/-- Whether the encoded character has a byte that is the string terminator of eight-bit controls. A
reader of bytes sees it inside a string. -/
def hasTerminator (c : Char) : Bool := (String.utf8EncodeChar c).contains 0x9C

namespace ControlState

/-- Whether a character is shown in a state. Layout controls are shown also in the middle of a short
sequence; nothing else that stands in a sequence is. -/
def shows (state : ControlState) (c : Char) : Bool :=
  match state with
  | plain => isPrinted c
  | escape | intermediate | parameters => isLayout c
  | title | device | deviceParameters | deviceIntermediate | string => false

/-- The state behind a character. An escape character begins a sequence anywhere; a cancel, a
substitute and whatever is shown end one. Characters that have no place in a sequence are skipped
and leave it open. -/
def next (state : ControlState) (c : Char) : ControlState :=
  if c = '\x1b' then escape
  else if state.shows c || c = '\x18' || c = '\x1a' then plain
  else
    match state with
    | plain => plain
    | escape =>
        if c = '[' then parameters
        else if c = ']' then title
        else if c = 'P' then device
        else if c = 'X' || c = '^' || c = '_' then string
        else if ' ' ≤ c && c ≤ '/' then intermediate
        else if '0' ≤ c && c ≤ '~' then plain
        else escape
    | intermediate => if '0' ≤ c && c ≤ '~' then plain else intermediate
    | parameters => if '@' ≤ c && c ≤ '~' then plain else parameters
    | title => if c = '\x07' then plain else title
    | device =>
        if ' ' ≤ c && c ≤ '/' then deviceIntermediate
        else if '0' ≤ c && c ≤ '?' then deviceParameters
        else if '@' ≤ c && c ≤ '~' then string
        else device
    | deviceParameters =>
        if ' ' ≤ c && c ≤ '/' then deviceIntermediate
        else if '<' ≤ c && c ≤ '~' then string
        else deviceParameters
    | deviceIntermediate => if '0' ≤ c && c ≤ '~' then string else deviceIntermediate
    | string => if hasTerminator c then plain else string

/-- The characters that are shown when a text is read from a state on. -/
def shown (state : ControlState) : List Char → List Char
  | [] => []
  | c :: cs => if state.shows c then c :: (state.next c).shown cs else (state.next c).shown cs

end ControlState

/-- A text without controls and control sequences. -/
def withoutControls (text : String) : String :=
  String.ofList (ControlState.plain.shown text.toList)

end Text

end HybridAutomata
