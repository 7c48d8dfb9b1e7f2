import SurfaceTape.Proofs.SourceLanguage
import SurfaceTape.Proofs.Words

/-!
# Reading source text

Reading agrees with the language on every sequence of bytes. The reader carries a scope and a graph
from line to line; after any number of lines the scope knows each name by the latest statement that
gave it, and the graph holds the terms of the statements in order.
-/

set_option autoImplicit false

namespace SurfaceTape

theorem Operator.ofName?_eq_some_iff {word : String} {op : Operator} :
    Operator.ofName? word = some op ↔ word = op.name := by
  constructor
  · intro found
    rcases Option.or_eq_some_iff.mp found with unary | ⟨_, binary⟩
    · obtain ⟨u, named, rfl⟩ := Option.map_eq_some_iff.mp unary
      rw [UnaryOp.ofName?] at named
      have same := List.find?_some named
      exact (eq_of_beq same).symm
    · obtain ⟨b, named, rfl⟩ := Option.map_eq_some_iff.mp binary
      rw [BinaryOp.ofName?] at named
      have same := List.find?_some named
      exact (eq_of_beq same).symm
  · intro same
    rw [same, Operator.ofName?_name]

namespace Source

variable {scope : Scope} {names body : List String} {number : Nat} {t : Term Float Nat} {e : Error}

theorem axisOfWord?_eq_some_iff {word : String} {a : Axis} :
    axisOfWord? word = some a ↔ word = axisWord a := by
  constructor
  · intro found
    simp only [axisOfWord?] at found
    split at found
    · next same => cases found; exact same
    split at found
    · next same => cases found; exact same
    split at found
    · next same => cases found; exact same
    split at found
    · next same => cases found; exact same
    · cases found
  · intro same
    rw [same]
    cases a <;> rfl

def Agrees (scope : Scope) (names : List String) : Prop :=
  ∀ name n, scope[name]? = some n ↔ Latest names name n

theorem agrees_empty : Agrees ∅ [] := by
  intro name n
  simp [Latest]

theorem Agrees.insert {scope : Scope} {names : List String} (agrees : Agrees scope names)
    (name : String) : Agrees (scope.insert name names.length) (names ++ [name]) := by
  intro x n
  rw [latest_concat_iff, Std.TreeMap.getElem?_insert, ← agrees x n]
  by_cases same : name = x
  · simp [same, eq_comm]
  · simp [same, Ne.symm same]

theorem exists_agrees (names : List String) : ∃ scope, Agrees scope names := by
  induction names using List.reverseRecOn with
  | nil => exact ⟨∅, agrees_empty⟩
  | append_singleton names name ih =>
      obtain ⟨scope, agrees⟩ := ih
      exact ⟨_, agrees.insert name⟩

theorem Agrees.getElem?_eq_none {scope : Scope} {names : List String} {name : String}
    (agrees : Agrees scope names) (unknown : name ∉ names) : scope[name]? = none := by
  cases found : scope[name]? with
  | none => rfl
  | some n => exact absurd ((agrees name n).mp found).mem unknown

/-! ## Reading a statement -/

def bodyTerm (scope : Scope) (number : Nat) (body : List String) :
    Except Error (Term Float Nat) := do
  let (opcode, arguments) ← nextWord number body
  term scope number opcode arguments

private theorem nextNode_nil : nextNode scope number [] = .error (.missingArgument number) :=
  rfl

private theorem nextNode_of_latest {x : String} {rest : List String} {n : Nat}
    (agrees : Agrees scope names) (latest : Latest names x n) :
    nextNode scope number (x :: rest) = .ok (n, rest) := by
  have found := (agrees x n).mpr latest
  simp only [nextNode, nextWord, bind, Except.bind, found]
  rfl

private theorem nextNode_of_unknown {x : String} {rest : List String} (agrees : Agrees scope names)
    (unknown : x ∉ names) :
    nextNode scope number (x :: rest) = .error (.unknownVariable x) := by
  have absent := agrees.getElem?_eq_none unknown
  simp only [nextNode, nextWord, bind, Except.bind, absent]
  rfl

private theorem bodyTerm_const {arguments : List String} :
    bodyTerm scope number ("const" :: arguments) = (do
      let (text, _) ← nextWord number arguments
      match Decimal.binary64? text.toList with
      | some c => return .const c
      | none => throw (.badConstant text)) :=
  rfl

private theorem bodyTerm_axis {arguments : List String} (a : Axis) :
    bodyTerm scope number (axisWord a :: arguments) = .ok (.axis a) := by
  cases a <;> rfl

private theorem bodyTerm_unary {arguments : List String} (op : UnaryOp) :
    bodyTerm scope number (op.name :: arguments) = (do
      let (a, _) ← nextNode scope number arguments
      return .unary op a) := by
  cases op <;> rfl

private theorem bodyTerm_binary {arguments : List String} (op : BinaryOp) :
    bodyTerm scope number (op.name :: arguments) = (do
      let (a, rest) ← nextNode scope number arguments
      let (b, _) ← nextNode scope number rest
      return .binary op a b) := by
  cases op <;> rfl

private theorem bodyTerm_of_unknown {opcode : String} {arguments : List String}
    (other : opcode ≠ "const") (noAxis : ∀ a, opcode ≠ axisWord a)
    (noOperator : ∀ op : Operator, opcode ≠ op.name) :
    bodyTerm scope number (opcode :: arguments) = .error (.unknownOpcode opcode) := by
  have axis : axisOfWord? opcode = none := Option.eq_none_iff_forall_ne_some.mpr fun a found =>
    noAxis a (axisOfWord?_eq_some_iff.mp found)
  have operator : Operator.ofName? opcode = none :=
    Option.eq_none_iff_forall_ne_some.mpr fun op found =>
      noOperator op (Operator.ofName?_eq_some_iff.mp found)
  show term scope number opcode arguments = _
  simp only [term, if_neg other, axis, operator]
  rfl

theorem Describes.bodyTerm_eq (described : Describes names body t) (agrees : Agrees scope names)
    (number : Nat) : bodyTerm scope number body = .ok t := by
  cases described with
  | const value =>
      rw [bodyTerm_const, nextWord]
      show (match Decimal.binary64? _ with | some c => _ | none => _) = _
      rw [value]
      rfl
  | axis a => exact bodyTerm_axis a
  | unary op first =>
      rw [bodyTerm_unary, nextNode_of_latest agrees first]
      rfl
  | binary op first second =>
      rw [bodyTerm_binary, nextNode_of_latest agrees first]
      show (nextNode _ _ _ >>= _) = _
      rw [nextNode_of_latest agrees second]
      rfl

theorem Describes.unique {u : Term Float Nat} (first : Describes names body t)
    (second : Describes names body u) : t = u := by
  obtain ⟨scope, agrees⟩ := exists_agrees names
  cases (first.bodyTerm_eq agrees 0).symm.trans (second.bodyTerm_eq agrees 0)
  rfl

/-- After some of its arguments, an operator fails as the reading of the next one does. -/
private theorem bodyTerm_of_argument {arguments rest : List String} (op : Operator)
    (few : arguments.length < op.arity) (known : ∀ x ∈ arguments, x ∈ names)
    (agrees : Agrees scope names) (failed : nextNode scope number rest = .error e) :
    bodyTerm scope number (op.name :: (arguments ++ rest)) = .error e := by
  cases op with
  | unary op =>
      cases List.eq_nil_of_length_eq_zero (Nat.lt_one_iff.mp few)
      show bodyTerm scope number (op.name :: rest) = _
      rw [bodyTerm_unary, failed]
      rfl
  | binary op =>
      show bodyTerm scope number (op.name :: (arguments ++ rest)) = _
      rw [bodyTerm_binary]
      cases arguments with
      | nil =>
          rw [List.nil_append, failed]
          rfl
      | cons x later =>
          cases List.eq_nil_of_length_eq_zero (Nat.lt_one_iff.mp (Nat.succ_lt_succ_iff.mp few))
          obtain ⟨a, latest⟩ := exists_latest (known x List.mem_cons_self)
          rw [List.cons_append, nextNode_of_latest agrees latest]
          show (nextNode _ _ _ >>= _) = _
          rw [List.nil_append, failed]
          rfl

theorem Faulty.bodyTerm_eq (faulty : Faulty names number body e) (agrees : Agrees scope names) :
    bodyTerm scope number body = .error e := by
  cases faulty with
  | noOpcode => rfl
  | noLiteral => rfl
  | badLiteral bad =>
      rw [bodyTerm_const, nextWord]
      show (match Decimal.binary64? _ with | some c => _ | none => _) = _
      rw [bad]
      rfl
  | noArgument op few known =>
      simpa only [List.append_nil] using bodyTerm_of_argument op few known agrees nextNode_nil
  | unknownName op arguments few known unknown =>
      exact bodyTerm_of_argument op few known agrees (nextNode_of_unknown agrees unknown)
  | unknownOpcode other noAxis noOperator => exact bodyTerm_of_unknown other noAxis noOperator

/-! ## Reading a line -/

private theorem Line.ofTrimmed_ne_garbled (text : List Char) : Line.ofTrimmed text ≠ .garbled := by
  cases text with
  | nil => exact Line.noConfusion
  | cons c cs =>
      rw [Line.ofTrimmed]
      split <;> exact Line.noConfusion

/-- The words of a line are those of a statement, if it is one. -/
private theorem statementWords_eq (text : List Char) :
    statementWords text =
      match Line.ofTrimmed (Text.trim text) with
      | .statement name body => name :: body
      | _ => [] := by
  have same := Text.words_trim text
  cases trimmed : Text.trim text with
  | nil =>
      rw [trimmed, Text.words_nil] at same
      simp [statementWords, ← same, Line.ofTrimmed]
  | cons c rest =>
      rw [trimmed, Text.words_cons_of_inked (Text.not_blank_of_trim trimmed)] at same
      by_cases comment : c = '#'
      · subst comment
        simp [statementWords, ← same, Line.ofTrimmed]
      · simp [statementWords, ← same, Line.ofTrimmed, comment]

def Reader.add (name : String) (t : Term Float Nat) (r : Reader) : Except Error Reader :=
  if fits : t.Fits r.graph.size then
    .ok ⟨r.graph.push t fits, r.scope.insert name r.graph.size, some r.graph.size⟩
  else .error .badNode

theorem Reader.line_eq (number : Nat) (bytes : List UInt8) (r : Reader) :
    r.line number bytes =
      match Line.ofBytes bytes with
      | .garbled => .error (.stream .invalidUtf8)
      | .skipped => .ok r
      | .statement name body => bodyTerm r.scope number body >>= fun t => r.add name t := by
  rw [Reader.line, Line.ofBytes]
  cases Text.decode? bytes with
  | none => rfl
  | some text =>
      simp only [statementWords_eq]
      cases kind : Line.ofTrimmed (Text.trim text) with
      | garbled => exact absurd kind (Line.ofTrimmed_ne_garbled _)
      | skipped => rfl
      | statement name body =>
          show _ = (nextWord number body >>= fun x => term r.scope number x.1 x.2) >>= _
          rw [bind_assoc]
          rfl

/-! ## Reading a text -/

variable {lines done : List Line} {line : Line} {g : Graph Float} {r : Reader} {bytes : List UInt8}

/-- The lines of a text leave nothing open about the graph. -/
theorem Built.unique {h : Graph Float} {root root' : Nat} (first : Built lines g root)
    (second : Built lines h root') : g = h ∧ root = root' := by
  have terms : g = h := by
    apply Graph.ext_term?
    intro n
    by_cases inside : n < (namesOf lines).length
    · obtain ⟨earlier, name, body, later, split, rfl⟩ := exists_statement inside
      obtain ⟨t, stored, described⟩ := first.stands _ _ _ split
      obtain ⟨u, stored', described'⟩ := second.stands _ _ _ split
      rw [stored, stored', described.unique described']
    · rw [(g.term?_eq_none_iff n).mpr (by rw [first.size_eq]; omega),
        (h.term?_eq_none_iff n).mpr (by rw [second.size_eq]; omega)]
  subst terms
  exact ⟨rfl, Nat.succ_injective (first.root_eq.trans second.root_eq.symm)⟩

structure Follows (done : List Line) (r : Reader) : Prop where
  agrees : Agrees r.scope (namesOf done)
  size_eq : r.graph.size = (namesOf done).length
  stands : Throughout (Line.Stands r.graph) done
  root_iff : ∀ root, r.root = some root ↔ root + 1 = r.graph.size

theorem follows_start : Follows [] Reader.start where
  agrees := agrees_empty
  size_eq := rfl
  stands := fun earlier line later split => by simp at split
  root_iff := by simp [Reader.start, Graph.size, Graph.empty]

theorem Line.Stands.grow {h : Graph Float} {names : List String} (grown : g ≤ h)
    (stands : line.Stands g names) : line.Stands h names := by
  cases line with
  | garbled => trivial
  | skipped => trivial
  | statement name body =>
      obtain ⟨t, stored, described⟩ := stands
      exact ⟨t, Graph.term?_of_le grown stored, described⟩

theorem Follows.add (follows : Follows done r) (name : String)
    (described : Describes (namesOf done) body t) :
    ∃ r', r.add name t = .ok r' ∧ Follows (done ++ [.statement name body]) r' := by
  have fits : t.Fits r.graph.size := follows.size_eq ▸ described.fits
  have grown := r.graph.le_push t fits
  refine ⟨_, dif_pos fits, ?_, ?_, ?_, ?_⟩
  · rw [namesOf_concat_statement, follows.size_eq]
    exact follows.agrees.insert name
  · rw [namesOf_concat_statement, List.length_append, ← follows.size_eq]
    exact r.graph.size_push t fits
  · refine throughout_concat_iff.mpr ⟨fun earlier line later split => ?_, t, ?_, described⟩
    · exact (follows.stands earlier line later split).grow grown
    · rw [← follows.size_eq]
      exact r.graph.term?_push_self t fits
  · intro root
    simp [eq_comm]

/-- One line that is sound is read, and the reader knows the text up to there. -/
theorem Follows.line_of_sound (follows : Follows done r)
    (sound : (Line.ofBytes bytes).Sound (namesOf done)) :
    ∃ r', r.line (done.length + 1) bytes = .ok r' ∧ Follows (done ++ [Line.ofBytes bytes]) r' := by
  rw [Reader.line_eq]
  cases kind : Line.ofBytes bytes with
  | garbled =>
      rw [kind] at sound
      cases sound
  | skipped =>
      have names : namesOf (done ++ [.skipped]) = namesOf done := namesOf_concat_of_nameless rfl
      exact ⟨r, rfl, names ▸ follows.agrees, names ▸ follows.size_eq,
        throughout_concat_iff.mpr ⟨follows.stands, trivial⟩, follows.root_iff⟩
  | statement name body =>
      rw [kind] at sound
      obtain ⟨t, described⟩ := WellFormed.exists_describes sound
      obtain ⟨r', added, next⟩ := follows.add name described
      refine ⟨r', ?_, next⟩
      show bodyTerm _ _ _ >>= _ = _
      rw [described.bodyTerm_eq follows.agrees]
      exact added

theorem Follows.line_of_offends (follows : Follows done r)
    (offends : (Line.ofBytes bytes).Offends (namesOf done) (done.length + 1) e) :
    r.line (done.length + 1) bytes = .error e := by
  rw [Reader.line_eq]
  generalize Line.ofBytes bytes = line at offends ⊢
  cases offends with
  | garbled => rfl
  | statement faulty =>
      show bodyTerm _ _ _ >>= _ = _
      rw [faulty.bodyTerm_eq follows.agrees]
      rfl

theorem Follows.lines_of_sound (follows : Follows done r) (rest : List (List UInt8))
    (sound : Throughout Line.Sound (done ++ rest.map Line.ofBytes)) :
    ∃ r', r.lines (done.length + 1) rest = .ok r' ∧ Follows (done ++ rest.map Line.ofBytes) r' := by
  induction rest generalizing done r with
  | nil => exact ⟨r, rfl, by simpa using follows⟩
  | cons bytes rest ih =>
      have split : done ++ (bytes :: rest).map Line.ofBytes =
          done ++ [Line.ofBytes bytes] ++ rest.map Line.ofBytes := by simp
      rw [split] at sound ⊢
      obtain ⟨r', read, next⟩ :=
        follows.line_of_sound (throughout_concat_iff.mp sound.of_append).2
      obtain ⟨r'', finished, last⟩ := ih next sound
      refine ⟨r'', ?_, last⟩
      rw [List.length_append, List.length_singleton] at finished
      rw [Reader.lines, read]
      exact finished

private theorem Reader.lines_append (number : Nat) (first second : List (List UInt8)) (r : Reader) :
    r.lines number (first ++ second) =
      r.lines number first >>= fun r' => r'.lines (number + first.length) second := by
  induction first generalizing number r with
  | nil => rfl
  | cons bytes first ih =>
      rw [List.cons_append, Reader.lines, Reader.lines, bind_assoc]
      congr 1
      funext r'
      rw [ih, List.length_cons, Nat.add_right_comm, Nat.add_assoc]

/-- The reader is at its end; only the root is left to be looked for. -/
theorem read_of_lines (finished : Reader.start.lines 1 (Text.lines bytes) = .ok r) :
    read bytes = match r.root with
      | some root => .ok (r.graph, root)
      | none => .error .emptyFile := by
  rw [read, finished]
  show (match r.root with | some root => _ | none => _) = _
  cases r.root <;> rfl

theorem read_of_accepted (accepted : Accepted (sourceLines bytes)) :
    ∃ g root, read bytes = .ok (g, root) ∧ Built (sourceLines bytes) g root := by
  obtain ⟨r, finished, follows⟩ := follows_start.lines_of_sound (Text.lines bytes) accepted.sound
  have filled : 0 < r.graph.size := by
    rw [follows.size_eq]
    exact List.length_pos_iff.mpr accepted.nonempty
  obtain ⟨root, root_eq⟩ := Nat.exists_eq_add_of_le' filled
  refine ⟨r.graph, root, ?_, follows.size_eq, follows.stands, root_eq.symm⟩
  rw [read_of_lines finished, (follows.root_iff root).mpr root_eq.symm]

theorem read_of_fails (fails : Fails (sourceLines bytes) e) : read bytes = .error e := by
  cases fails with
  | empty sound empty =>
      obtain ⟨r, finished, follows⟩ := follows_start.lines_of_sound (Text.lines bytes) sound
      have rootless : r.root = none := by
        rw [Option.eq_none_iff_forall_ne_some]
        intro root found
        have filled := (follows.root_iff root).mp found
        rw [follows.size_eq] at filled
        rw [List.nil_append, ← sourceLines, empty] at filled
        cases filled
      rw [read_of_lines finished, rootless]
  | @line earlier later line _ split sound offends =>
      obtain ⟨first, second, whole, rfl, second_eq⟩ := List.map_eq_append_iff.mp split
      obtain ⟨bytes', later', rfl, rfl, _⟩ := List.map_eq_cons_iff.mp second_eq
      obtain ⟨r, finished, follows⟩ := follows_start.lines_of_sound first sound
      have failed := follows.line_of_offends offends
      rw [List.nil_append, List.length_map] at failed
      have stopped : Reader.start.lines 1 (Text.lines bytes) = .error e := by
        rw [whole, Reader.lines_append]
        show (Reader.start.lines (List.length (α := Line) [] + 1) first >>= _) = _
        rw [finished]
        show r.lines (1 + first.length) (bytes' :: later') = _
        rw [Nat.add_comm, Reader.lines, failed]
        rfl
      rw [read, stopped]
      rfl

/-- Reading accepts just the texts of the language, gives the graph that the text describes, and
reports the first fault of any other text. -/
theorem read_agrees_with_language (bytes : List UInt8) :
    ((∃ g root, read bytes = .ok (g, root)) ↔ Accepted (sourceLines bytes)) ∧
      (∀ g root, read bytes = .ok (g, root) ↔
        Accepted (sourceLines bytes) ∧ Built (sourceLines bytes) g root) ∧
      ∀ e, read bytes = .error e ↔ Fails (sourceLines bytes) e := by
  rcases accepted_or_fails (sourceLines bytes) with accepted | ⟨e, fails⟩
  · obtain ⟨g, root, succeeded, built⟩ := read_of_accepted accepted
    refine ⟨iff_of_true ⟨g, root, succeeded⟩ accepted, fun g' root' => ?_, fun e => ?_⟩
    · constructor
      · intro ran
        cases succeeded.symm.trans ran
        exact ⟨accepted, built⟩
      · intro described
        obtain ⟨rfl, rfl⟩ := built.unique described.2
        exact succeeded
    · constructor
      · intro failed
        cases succeeded.symm.trans failed
      · exact read_of_fails
  · have failed := read_of_fails fails
    have rejected : ¬Accepted (sourceLines bytes) := by
      intro accepted
      obtain ⟨g, root, succeeded, _⟩ := read_of_accepted accepted
      cases failed.symm.trans succeeded
    have never : ∀ g root, read bytes ≠ .ok (g, root) := by
      intro g root succeeded
      cases failed.symm.trans succeeded
    refine ⟨iff_of_false (fun ⟨g, root, ran⟩ => never g root ran) rejected,
      fun g root => iff_of_false (never g root) fun both => rejected both.1, fun e' => ?_⟩
    constructor
    · intro ran
      cases failed.symm.trans ran
      exact fails
    · exact read_of_fails

-- The second statement uses the name that it gives again, and the last one has a word too many.
example : (read "a var-x\na neg a\n\n  # a\nb add a a a".toUTF8.toList).map
      (fun built => (built.1.terms.toList.map Term.inputs, built.2)) =
    .ok ([[], [0], [1, 1]], 2) := by
  cbv

-- An unknown first argument is reported, although the second one is missing.
example : read "a var-x\n\nb add c\n".toUTF8.toList = .error (.unknownVariable "c") := by
  cbv

end Source

end SurfaceTape
