import SurfaceTape.Graph.Fold

/-!
# Simplification

Folding of constants and algebraic identities, in one pass from the leaves to the root. A rule looks
at one term and at the terms of its inputs, and names what the term may be replaced by. Some rules
ask for the replacement to be simplified in turn; how deep such requests may nest is bounded.

No law of arithmetic is used to select a rule: constants are compared with zero, one and minus one
by the comparison of the scalar type, and with nothing else.
-/

set_option autoImplicit false

namespace SurfaceTape

/-- What a rule puts in the place of a term. -/
inductive Reduct (α : Type) where
  | node (n : Nat)
  | constant (c : α)
  | term (t : Term α Nat)
  /-- The negation of a sum; the sum is simplified first, then its negation. -/
  | negatedSum (a b : Nat)
  | scaled (a : Nat) (c : α)

namespace Graph

variable {α : Type} [Scalar α]

def isConst (g : Graph α) (n : Nat) (c : α) : Bool :=
  match g.const? n with
  | some d => Scalar.same d c
  | none => false

def negand? (g : Graph α) (n : Nat) : Option Nat :=
  match g.term? n with
  | some (.unary .neg a) => some a
  | _ => none

/-- Rules for negation: `-(-p)` is `p`, and `-(p - q)` is `q - p`. -/
def negRule (g : Graph α) (a : Nat) : Option (Reduct α) :=
  match g.term? a with
  | some (.unary .neg p) => some (.node p)
  | some (.binary .sub p q) => some (.term (.binary .sub q p))
  | _ => none

/-- Rule for the cosine: `cos (-p)` is `cos p`. -/
def cosRule (g : Graph α) (a : Nat) : Option (Reduct α) :=
  (g.negand? a).map fun p => .term (.unary .cos p)

/-- Rules for sums: a zero goes, and a negated summand is subtracted. -/
def addRule (g : Graph α) (a b : Nat) : Option (Reduct α) :=
  if g.isConst b Scalar.zero then some (.node a)
  else if g.isConst a Scalar.zero then some (.node b)
  else
    match g.negand? a, g.negand? b with
    | some p, some q => some (.negatedSum p q)
    | some p, none => some (.term (.binary .sub b p))
    | none, some q => some (.term (.binary .sub a q))
    | none, none => none

/-- Rules for products: a zero wins, a one goes, a minus one negates, and two negations cancel. -/
def mulRule (g : Graph α) (a b : Nat) : Option (Reduct α) :=
  if g.isConst b Scalar.zero then some (.node b)
  else if g.isConst a Scalar.zero then some (.node a)
  else if g.isConst b Scalar.one then some (.node a)
  else if g.isConst a Scalar.one then some (.node b)
  else if g.isConst b Scalar.negOne then some (.term (.unary .neg a))
  else if g.isConst a Scalar.negOne then some (.term (.unary .neg b))
  else
    match g.negand? a, g.negand? b with
    | some p, some q => some (.term (.binary .mul p q))
    | _, _ => none

/-- Rules for differences: zero less a number is its negation, a zero goes, and a negated
subtrahend is added. -/
def subRule (g : Graph α) (a b : Nat) : Option (Reduct α) :=
  if g.isConst a Scalar.zero then some (.term (.unary .neg b))
  else if g.isConst b Scalar.zero then some (.node a)
  else (g.negand? b).map fun q => .term (.binary .add a q)

/-- Rules for quotients: a zero numerator wins, a constant divisor becomes a factor unless it is
zero, and two negations cancel. -/
def divRule (g : Graph α) (a b : Nat) : Option (Reduct α) :=
  if g.isConst a Scalar.zero then some (.node a)
  else if g.isConst b Scalar.one then some (.node a)
  else if g.isConst b Scalar.negOne then some (.term (.unary .neg a))
  else
    match g.const? b with
    | some c =>
        if Scalar.same c Scalar.zero then none
        else some (.scaled a (Arith.binary .div Scalar.one c))
    | none =>
        match g.negand? a, g.negand? b with
        | some p, some q => some (.term (.binary .div p q))
        | _, _ => none

/-- What a term may be replaced by. An operator over constants only is worked out. -/
def reduct? (g : Graph α) : Term α Nat → Option (Reduct α)
  | .axis _ => none
  | .const _ => none
  | .unary op a =>
      match g.const? a with
      | some c => some (.constant (Arith.unary op c))
      | none =>
          match op with
          | .neg => g.negRule a
          | .cos => g.cosRule a
          | _ => none
  | .binary op a b =>
      match g.const? a, g.const? b with
      | some c, some d => some (.constant (Arith.binary op c d))
      | _, _ =>
          match op with
          | .add => g.addRule a b
          | .sub => g.subRule a b
          | .mul => g.mulRule a b
          | .div => g.divRule a b
          | .min => none
          | .max => none

/-- Simplifies a term over nodes that are simplified, with rules nested at most `depth` deep. A term
without a rule is the node `kept` if there is one, and is appended otherwise. There is no result if
the depth does not suffice. -/
def reduce : Nat → Term α Nat → Option Nat → Graph α → Option Nat × Graph α
  | 0, _, _, g => (none, g)
  | depth + 1, t, kept, g =>
      match g.reduct? t with
      | none =>
          match kept with
          | some n => (some n, g)
          | none =>
              -- Never fails: a rule asks only for terms over nodes that are in the graph by then.
              if fits : t.Fits g.size then (some g.size, g.push t fits) else (none, g)
      | some (.node n) => (some n, g)
      | some (.constant c) => (some g.size, g.pushConst c)
      | some (.term t) => reduce depth t none g
      | some (.negatedSum a b) =>
          match reduce depth (.binary .add a b) none g with
          | (some sum, g) => reduce depth (.unary .neg sum) none g
          | (none, g) => (none, g)
      | some (.scaled a c) => reduce depth (.binary .mul a g.size) none (g.pushConst c)

/-- How deep the rules nest when the inputs of a term are simplified. -/
def reduceDepth : Nat := 5

end Graph

namespace Build

variable {α : Type} [Scalar α]

/-- The node that replaces a node, given the replacements of its inputs. A leaf stays. -/
def simplifyTerm (node : Nat) (before after : Term α Nat) : Build α Nat := fun g =>
  match before with
  | .axis _ => .ok node g
  | .const _ => .ok node g
  | _ =>
      let kept := if after.inputs = before.inputs then some node else none
      match g.reduce Graph.reduceDepth after kept with
      | (some n, g) => .ok n g
      -- Never taken: the depth suffices for every term over simplified inputs.
      | (none, g) => insert after g

def simplify (root : Nat) : Build α Nat := fold simplifyTerm root

end Build

end SurfaceTape
