/-!
# Plain text

A terminal takes some characters as commands. Text for a stream without a terminal leaves them out:
control characters other than blanks, and the sequences that an escape character begins. The end of
a sequence depends on its kind; a new escape character always begins another one.

A blank control character inside a sequence is shown. Text after it is shown as well, and only at
the next character that is not shown does the sequence go on.
-/

set_option autoImplicit false

namespace SurfaceTape.Text

/-- Where in a sequence of commands a text stands. -/
inductive Sequence where
  | outside
  | escape
  | intermediate
  | control
  | device
  | deviceParameter
  | deviceIntermediate
  | payload
  | command
  deriving DecidableEq

def inRange (low high : Nat) (c : Char) : Bool := low ≤ c.toNat && c.toNat ≤ high

/-- Tabulator, line feed, form feed and carriage return. -/
def isControlBlank (c : Char) : Bool :=
  c = '\t' || c = '\n' || c = Char.ofNat 0x0C || c = '\r'

def isShown (c : Char) : Bool := isControlBlank c || (0x20 ≤ c.toNat && c.toNat ≠ 0x7F)

/-- Whether the string terminator is among the bytes of a character. -/
def holdsTerminator (c : Char) : Bool := (String.utf8EncodeChar c).contains 0x9C

namespace Sequence

def showsBlanks : Sequence → Bool
  | .escape => true
  | .intermediate => true
  | .control => true
  | _ => false

/-- The place in the sequence after one more character. A character that has no meaning there is
passed over. -/
def advance (s : Sequence) (c : Char) : Sequence :=
  match s with
  | .outside => .outside
  | .escape =>
      if c = '[' then .control
      else if c = ']' then .command
      else if c = 'P' then .device
      else if c = 'X' || c = '^' || c = '_' then .payload
      else if inRange 0x20 0x2F c then .intermediate
      else if inRange 0x30 0x7E c then .outside
      else s
  | .intermediate => if inRange 0x30 0x7E c then .outside else s
  | .control => if inRange 0x40 0x7E c then .outside else s
  | .device =>
      if inRange 0x20 0x2F c then .deviceIntermediate
      else if inRange 0x30 0x3F c then .deviceParameter
      else if inRange 0x40 0x7E c then .payload
      else s
  | .deviceParameter =>
      if inRange 0x20 0x2F c then .deviceIntermediate
      else if inRange 0x3C 0x7E c then .payload
      else s
  | .deviceIntermediate => if inRange 0x30 0x7E c then .payload else s
  | .payload => if holdsTerminator c then .outside else s
  | .command => if c = Char.ofNat 0x07 then .outside else s

end Sequence

/-- How far a text has been read: the sequence it is in, and whether text is shown in its midst. -/
structure PlainReader where
  sequence : Sequence
  interrupted : Bool

namespace PlainReader

/-- Reads one character and tells whether it is shown. Cancelling ends any sequence. -/
def next (r : PlainReader) (c : Char) : PlainReader × Bool :=
  if c = Char.ofNat 0x1B then (⟨.escape, false⟩, false)
  else if c = Char.ofNat 0x18 || c = Char.ofNat 0x1A then (⟨.outside, false⟩, false)
  else if r.sequence = .outside || r.interrupted then
    if isShown c then (⟨if c.toNat < 0x80 then r.sequence else .outside, true⟩, true)
    else (⟨r.sequence, false⟩, false)
  else if r.sequence.showsBlanks && isControlBlank c then (⟨r.sequence, true⟩, true)
  else (⟨r.sequence.advance c, false⟩, false)

def shown : PlainReader → List Char → List Char
  | _, [] => []
  | r, c :: cs =>
      match r.next c with
      | (r, true) => c :: r.shown cs
      | (r, false) => r.shown cs

end PlainReader

def plain (text : String) : String :=
  String.ofList (PlainReader.shown ⟨.outside, false⟩ text.toList)

/-- Outside of sequences a character that can be shown is shown, and the text stays outside. -/
private theorem PlainReader.next_of_isShown {c : Char} (visible : isShown c = true)
    (interrupted : Bool) :
    (PlainReader.mk .outside interrupted).next c = (⟨.outside, true⟩, true) := by
  have notEscape : c ≠ Char.ofNat 0x1B := by
    rintro rfl
    revert visible
    decide
  have notCancel : c ≠ Char.ofNat 0x18 := by
    rintro rfl
    revert visible
    decide
  have notSubstitute : c ≠ Char.ofNat 0x1A := by
    rintro rfl
    revert visible
    decide
  simp [next, notEscape, notCancel, notSubstitute, visible]

/-- A text without control characters stays as it is. -/
theorem PlainReader.shown_eq_self {cs : List Char} (visible : ∀ c ∈ cs, isShown c = true)
    (interrupted : Bool) : (PlainReader.mk .outside interrupted).shown cs = cs := by
  induction cs generalizing interrupted with
  | nil => rfl
  | cons c cs ih =>
      rw [shown, next_of_isShown (visible c List.mem_cons_self)]
      simp only [ih fun d member => visible d (List.mem_cons_of_mem c member)]

end SurfaceTape.Text
