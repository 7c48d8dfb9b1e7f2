import SurfaceTape.Source.Reader
import SurfaceTape.Proofs.Reachability
import Mathlib.Data.List.Induction

/-!
# The language of source text

Which texts are well formed, what graph they describe and which fault the others have is told here
from the lines of a text alone, without the state that a reader carries from line to line. A
statement is known by the statements before it: its arguments are looked up among their names, and
its node is numbered by their count.
-/

set_option autoImplicit false

namespace SurfaceTape

private theorem Operator.arity_pos (op : Operator) : 0 < op.arity := by
  cases op with
  | unary op => exact Nat.one_pos
  | binary op => exact Nat.two_pos

namespace Source

def axisWord : Axis → String
  | .x => "var-x"
  | .y => "var-y"
  | .z => "var-z"
  | .t => "var-t"

/-! ## Names -/

/-- What a name means after the statements with the given names: the latest one that gave it. -/
def Latest (names : List String) (name : String) (n : Nat) : Prop :=
  names[n]? = some name ∧ ∀ m, n < m → names[m]? ≠ some name

private theorem Latest.lt_length {names : List String} {name : String} {n : Nat}
    (latest : Latest names name n) : n < names.length :=
  (List.getElem?_eq_some_iff.mp latest.1).1

theorem Latest.mem {names : List String} {name : String} {n : Nat}
    (latest : Latest names name n) : name ∈ names :=
  List.mem_of_getElem? latest.1

theorem latest_concat_iff {names : List String} {name x : String} {n : Nat} :
    Latest (names ++ [name]) x n ↔ if x = name then n = names.length else Latest names x n := by
  grind [Latest]

theorem exists_latest {names : List String} {name : String} (given : name ∈ names) :
    ∃ n, Latest names name n := by
  induction names using List.reverseRecOn with
  | nil => cases given
  | append_singleton names last ih =>
      by_cases same : name = last
      · exact ⟨names.length, latest_concat_iff.mpr (by rw [if_pos same])⟩
      · have earlier : name ∈ names := by simpa [same] using given
        obtain ⟨n, latest⟩ := ih earlier
        exact ⟨n, latest_concat_iff.mpr (by rwa [if_neg same])⟩

/-! ## Statements -/

/-- The term that a statement describes, from the names that were given before and from what follows
its own name. Words after the last argument do not matter. -/
inductive Describes (names : List String) : List String → Term Float Nat → Prop where
  | const {text : String} {rest : List String} {c : Float} :
      Decimal.binary64? text.toList = some c → Describes names ("const" :: text :: rest) (.const c)
  | axis {rest : List String} (a : Axis) : Describes names (axisWord a :: rest) (.axis a)
  | unary {x : String} {rest : List String} {a : Nat} (op : UnaryOp) :
      Latest names x a → Describes names (op.name :: x :: rest) (.unary op a)
  | binary {x y : String} {rest : List String} {a b : Nat} (op : BinaryOp) :
      Latest names x a → Latest names y b →
      Describes names (op.name :: x :: y :: rest) (.binary op a b)

/-- The first fault of a statement, from left to right. -/
inductive Faulty (names : List String) (number : Nat) : List String → Error → Prop where
  | noOpcode : Faulty names number [] (.missingArgument number)
  | noLiteral : Faulty names number ["const"] (.missingArgument number)
  | badLiteral {text : String} {rest : List String} :
      Decimal.binary64? text.toList = none →
      Faulty names number ("const" :: text :: rest) (.badConstant text)
  | noArgument {arguments : List String} (op : Operator) :
      arguments.length < op.arity → (∀ x ∈ arguments, x ∈ names) →
      Faulty names number (op.name :: arguments) (.missingArgument number)
  | unknownName {rest : List String} {x : String} (op : Operator) (arguments : List String) :
      arguments.length < op.arity → (∀ y ∈ arguments, y ∈ names) → x ∉ names →
      Faulty names number (op.name :: (arguments ++ x :: rest)) (.unknownVariable x)
  | unknownOpcode {opcode : String} {arguments : List String} :
      opcode ≠ "const" → (∀ a, opcode ≠ axisWord a) → (∀ op : Operator, opcode ≠ op.name) →
      Faulty names number (opcode :: arguments) (.unknownOpcode opcode)

/-- A statement has an opcode and enough arguments: a literal for a constant, and names that were
given before for an operator. -/
def WellFormed (names : List String) : List String → Prop
  | [] => False
  | opcode :: arguments =>
      (opcode = "const" ∧ ∃ text ∈ arguments.head?, (Decimal.binary64? text.toList).isSome) ∨
        (∃ a, opcode = axisWord a) ∨
        ∃ op : Operator, opcode = op.name ∧ op.arity ≤ arguments.length ∧
          ∀ x ∈ arguments.take op.arity, x ∈ names

variable {names body : List String} {t : Term Float Nat}

theorem Describes.wellFormed (described : Describes names body t) : WellFormed names body := by
  cases described with
  | @const text rest c value => exact .inl ⟨rfl, text, rfl, by rw [value]; rfl⟩
  | axis a => exact .inr (.inl ⟨a, rfl⟩)
  | unary op first =>
      exact .inr (.inr ⟨.unary op, rfl, Nat.le_add_left _ _,
        by simpa [Operator.arity] using first.mem⟩)
  | binary op first second =>
      exact .inr (.inr ⟨.binary op, rfl, Nat.le_add_left _ _,
        by simpa [Operator.arity] using ⟨first.mem, second.mem⟩⟩)

theorem WellFormed.exists_describes (wellFormed : WellFormed names body) :
    ∃ t, Describes names body t := by
  cases body with
  | nil => cases wellFormed
  | cons opcode arguments =>
      rcases wellFormed with ⟨rfl, text, first, literal⟩ | ⟨a, rfl⟩ | ⟨op, rfl, enough, known⟩
      · obtain ⟨rest, rfl⟩ := List.head?_eq_some_iff.mp first
        obtain ⟨c, value⟩ := Option.isSome_iff_exists.mp literal
        exact ⟨_, .const value⟩
      · exact ⟨_, .axis a⟩
      · cases op with
        | unary op =>
            obtain ⟨x, rest, rfl⟩ := List.exists_cons_of_length_pos enough
            obtain ⟨a, latest⟩ := exists_latest (known x (by simp [Operator.arity]))
            exact ⟨_, .unary op latest⟩
        | binary op =>
            obtain ⟨x, later, rfl⟩ := List.exists_cons_of_length_pos (Nat.lt_of_succ_lt enough)
            obtain ⟨y, rest, rfl⟩ := List.exists_cons_of_length_pos (Nat.succ_lt_succ_iff.mp enough)
            obtain ⟨a, latest⟩ := exists_latest (known x (by simp [Operator.arity]))
            obtain ⟨b, latest'⟩ := exists_latest (known y (by simp [Operator.arity]))
            exact ⟨_, .binary op latest latest'⟩

theorem Describes.fits (described : Describes names body t) : t.Fits names.length := by
  cases described with
  | const _ => nofun
  | axis a => nofun
  | unary op first => exact Term.fits_unary.mpr first.lt_length
  | binary op first second => exact Term.fits_binary.mpr ⟨first.lt_length, second.lt_length⟩

/-- Every statement describes a term or has a fault. -/
theorem describes_or_faulty (names : List String) (number : Nat) (body : List String) :
    (∃ t, Describes names body t) ∨ ∃ e, Faulty names number body e := by
  cases body with
  | nil => exact .inr ⟨_, .noOpcode⟩
  | cons opcode arguments =>
      by_cases constant : opcode = "const"
      · subst constant
        cases arguments with
        | nil => exact .inr ⟨_, .noLiteral⟩
        | cons text rest =>
            cases value : Decimal.binary64? text.toList with
            | some c => exact .inl ⟨_, .const value⟩
            | none => exact .inr ⟨_, .badLiteral value⟩
      by_cases axis : ∃ a, opcode = axisWord a
      · obtain ⟨a, rfl⟩ := axis
        exact .inl ⟨_, .axis a⟩
      by_cases operator : ∃ op : Operator, opcode = op.name
      · obtain ⟨op, rfl⟩ := operator
        cases arguments with
        | nil => exact .inr ⟨_, .noArgument op op.arity_pos nofun⟩
        | cons x rest =>
            by_cases first : x ∈ names
            · obtain ⟨a, latest⟩ := exists_latest first
              cases op with
              | unary op => exact .inl ⟨_, .unary op latest⟩
              | binary op =>
                  cases rest with
                  | nil =>
                      exact .inr ⟨_, .noArgument (.binary op) Nat.one_lt_two (by simpa using first)⟩
                  | cons y rest =>
                      by_cases second : y ∈ names
                      · obtain ⟨b, latest'⟩ := exists_latest second
                        exact .inl ⟨_, .binary op latest latest'⟩
                      · exact .inr ⟨_, .unknownName (.binary op) [x] Nat.one_lt_two
                          (by simpa using first) second⟩
            · exact .inr ⟨_, .unknownName op [] op.arity_pos nofun first⟩
      · exact .inr ⟨_, .unknownOpcode constant (fun a same => axis ⟨a, same⟩)
          fun op same => operator ⟨op, same⟩⟩

/-! ## Lines -/

inductive Line where
  | garbled
  | skipped
  | statement (name : String) (body : List String)

namespace Line

/-- The line with the given text, which has no blanks at its ends. A statement has its name up to
the first blank, and then the words of its body. -/
def ofTrimmed : List Char → Line
  | [] => .skipped
  | c :: cs =>
      if c = '#' then .skipped
      else
        .statement (String.ofList (c :: cs.takeWhile (!Text.isBlank ·)))
          ((Text.words (cs.dropWhile (!Text.isBlank ·))).map String.ofList)

/-- Bytes that are not UTF-8 spoil a line, even in a comment. -/
def ofBytes (bytes : List UInt8) : Line :=
  match Text.decode? bytes with
  | none => .garbled
  | some text => ofTrimmed (Text.trim text)

def name? : Line → Option String
  | .statement name _ => some name
  | _ => none

end Line

/-! ## Texts -/

def namesOf (lines : List Line) : List String := lines.filterMap Line.name?

/-- A property of every line of a text, given the names before it. -/
def Throughout (good : List String → Line → Prop) (lines : List Line) : Prop :=
  ∀ earlier line later, lines = earlier ++ line :: later → good (namesOf earlier) line

def Line.Sound (names : List String) : Line → Prop
  | .garbled => False
  | .skipped => True
  | .statement _ body => WellFormed names body

inductive Line.Offends (names : List String) (number : Nat) : Line → Error → Prop where
  | garbled : Offends names number .garbled (.stream .invalidUtf8)
  | statement {name : String} {body : List String} {e : Error} :
      Faulty names number body e → Offends names number (.statement name body) e

/-- The node of a statement is numbered by the statements before it. -/
def Line.Stands (g : Graph Float) (names : List String) : Line → Prop
  | .statement _ body => ∃ t, g.term? names.length = some t ∧ Describes names body t
  | _ => True

structure Accepted (lines : List Line) : Prop where
  sound : Throughout Line.Sound lines
  nonempty : namesOf lines ≠ []

/-- The graph has one node for each statement, in order, and the last one is the root. -/
structure Built (lines : List Line) (g : Graph Float) (root : Nat) : Prop where
  size_eq : g.size = (namesOf lines).length
  stands : Throughout (Line.Stands g) lines
  root_eq : root + 1 = g.size

/-- The fault of a text is that of its first offending line. Lines are numbered from one, and all of
them count. A text in which no line offends may still have no statement. -/
inductive Fails (lines : List Line) : Error → Prop where
  | line {earlier later : List Line} {line : Line} {e : Error} :
      lines = earlier ++ line :: later → Throughout Line.Sound earlier →
      line.Offends (namesOf earlier) (earlier.length + 1) e → Fails lines e
  | empty : Throughout Line.Sound lines → namesOf lines = [] → Fails lines .emptyFile

def sourceLines (bytes : List UInt8) : List Line := (Text.lines bytes).map Line.ofBytes

variable {lines : List Line} {line : Line} {good : List String → Line → Prop}

theorem namesOf_concat_statement (name : String) (body : List String) :
    namesOf (lines ++ [.statement name body]) = namesOf lines ++ [name] := by
  simp [namesOf, Line.name?]

theorem namesOf_concat_of_nameless (nameless : line.name? = none) :
    namesOf (lines ++ [line]) = namesOf lines := by
  simp [namesOf, nameless]

theorem throughout_concat_iff :
    Throughout good (lines ++ [line]) ↔ Throughout good lines ∧ good (namesOf lines) line := by
  constructor
  · intro all
    refine ⟨fun earlier line' later split => ?_, all lines line [] rfl⟩
    exact all earlier line' (later ++ [line]) (by simp [split])
  · intro both earlier line' later split
    rcases List.eq_nil_or_concat later with rfl | ⟨later, last, rfl⟩
    · obtain ⟨rfl, same⟩ := List.append_inj' split rfl
      cases same
      exact both.2
    · rw [List.concat_eq_append, ← List.cons_append, ← List.append_assoc] at split
      exact both.1 earlier line' later (List.append_inj' split rfl).1

theorem Throughout.of_append {earlier later : List Line}
    (all : Throughout good (earlier ++ later)) : Throughout good earlier := by
  intro before line after split
  exact all before line (after ++ later) (by simp [split])

theorem sound_or_offends (names : List String) (number : Nat) (line : Line) :
    line.Sound names ∨ ∃ e, line.Offends names number e := by
  cases line with
  | garbled => exact .inr ⟨_, .garbled⟩
  | skipped => exact .inl trivial
  | statement name body =>
      rcases describes_or_faulty names number body with ⟨t, described⟩ | ⟨e, faulty⟩
      · exact .inl described.wellFormed
      · exact .inr ⟨e, .statement faulty⟩

theorem accepted_or_fails (lines : List Line) : Accepted lines ∨ ∃ e, Fails lines e := by
  have first : Throughout Line.Sound lines ∨ ∃ earlier line later e,
      lines = earlier ++ line :: later ∧ Throughout Line.Sound earlier ∧
        line.Offends (namesOf earlier) (earlier.length + 1) e := by
    induction lines using List.reverseRecOn with
    | nil => exact .inl fun earlier line later split => by simp at split
    | append_singleton lines last ih =>
        rcases ih with sound | ⟨earlier, line, later, e, split, sound, offends⟩
        · rcases sound_or_offends (namesOf lines) (lines.length + 1) last with fine | ⟨e, offends⟩
          · exact .inl (throughout_concat_iff.mpr ⟨sound, fine⟩)
          · exact .inr ⟨lines, last, [], e, rfl, sound, offends⟩
        · exact .inr ⟨earlier, line, later ++ [last], e, by simp [split], sound, offends⟩
  rcases first with sound | ⟨earlier, line, later, e, split, sound, offends⟩
  · by_cases empty : namesOf lines = []
    · exact .inr ⟨_, .empty sound empty⟩
    · exact .inl ⟨sound, empty⟩
  · exact .inr ⟨e, .line split sound offends⟩

theorem exists_statement {n : Nat} (inside : n < (namesOf lines).length) :
    ∃ earlier name body later, lines = earlier ++ .statement name body :: later ∧
      (namesOf earlier).length = n := by
  induction lines using List.reverseRecOn with
  | nil => cases inside
  | append_singleton lines last ih =>
      by_cases old : n < (namesOf lines).length
      · obtain ⟨earlier, name, body, later, split, count⟩ := ih old
        exact ⟨earlier, name, body, later ++ [last], by simp [split], count⟩
      · cases last with
        | statement name body =>
            rw [namesOf_concat_statement, List.length_append, List.length_singleton] at inside
            exact ⟨lines, name, body, [], rfl, by omega⟩
        | garbled => exact absurd (by rwa [namesOf_concat_of_nameless rfl] at inside) old
        | skipped => exact absurd (by rwa [namesOf_concat_of_nameless rfl] at inside) old

end Source

end SurfaceTape
