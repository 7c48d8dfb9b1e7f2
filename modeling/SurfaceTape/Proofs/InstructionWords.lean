import SurfaceTape.Tape.Instruction

/-!
# Words and fields

An instruction is made from an opcode and three numbers, packed into a word, and read back from it.
Making one fails for the first number that a byte cannot hold, and reading one fails for a byte that
is no opcode. Apart from that the two are inverse to each other, and nothing else is said in a word.
-/

set_option autoImplicit false

namespace SurfaceTape

namespace Opcode

private theorem map_byte_all : all.map (fun op => op.byte.toNat) = List.range 13 := rfl

theorem ofByte?_eq_some_iff {code : UInt8} {op : Opcode} :
    ofByte? code = some op ↔ code = op.byte := by
  constructor
  · intro found
    have place : (all.map fun op => op.byte.toNat)[code.toNat]? = some op.byte.toNat := by
      rw [List.getElem?_map, ← ofByte?, found]
      rfl
    obtain ⟨_, same⟩ := List.getElem?_eq_some_iff.mp (map_byte_all ▸ place)
    rw [List.getElem_range] at same
    exact UInt8.toNat_inj.mp same
  · rintro rfl
    exact ofByte?_byte op

theorem ofByte?_eq_none_iff {code : UInt8} : ofByte? code = none ↔ 12 < code.toNat :=
  List.getElem?_eq_none_iff

end Opcode

namespace Instruction

theorem opcode_eq_ok_iff {i : Instruction} {op : Opcode} : i.opcode = .ok op ↔ i.op = op.byte := by
  rw [← Opcode.ofByte?_eq_some_iff, opcode]
  cases Opcode.ofByte? i.op <;> simp

theorem opcode_eq_error_iff {i : Instruction} {e : Error} :
    i.opcode = .error e ↔ 12 < i.op.toNat ∧ e = .badOpcode i.op := by
  rw [← Opcode.ofByte?_eq_none_iff, opcode]
  cases Opcode.ofByte? i.op <;> simp [eq_comm]

/-- The first number that does not fit in a byte, and the field for which it was meant. -/
def firstTooLarge (out a b : Nat) : Option (InstructionField × Nat) :=
  [(.output, out), (.inputA, a), (.inputB, b)].find? fun field => 255 < field.2

theorem firstTooLarge_eq_none_iff {out a b : Nat} :
    firstTooLarge out a b = none ↔ out ≤ 255 ∧ a ≤ 255 ∧ b ≤ 255 := by
  simp [firstTooLarge]

private theorem checkField_of_le (field : InstructionField) {value : Nat} (fits : value ≤ 255) :
    checkField field value = .ok (.ofNat value) :=
  if_pos (Nat.lt_succ_of_le fits)

private theorem checkField_of_gt (field : InstructionField) {value : Nat} (large : 255 < value) :
    checkField field value = .error (.internal (.fieldOverflow field value)) :=
  if_neg (Nat.not_lt.mpr large)

/-- Making an instruction fails for the first number that is too large, or packs all of them. -/
theorem make_eq (op : Opcode) (out a b : Nat) :
    make op out a b =
      match firstTooLarge out a b with
      | some (field, value) => .error (.internal (.fieldOverflow field value))
      | none => .ok ⟨op.byte, .ofNat out, .ofNat a, .ofNat b⟩ := by
  rcases Nat.lt_or_ge 255 out with large | output
  · have found : firstTooLarge out a b = some (.output, out) := by simp [firstTooLarge, large]
    rw [found, make, checkField_of_gt _ large]
    rfl
  rcases Nat.lt_or_ge 255 a with large | first
  · have found : firstTooLarge out a b = some (.inputA, a) := by
      simp [firstTooLarge, Nat.not_lt.mpr output, large]
    rw [found, make, checkField_of_le _ output, checkField_of_gt _ large]
    rfl
  rcases Nat.lt_or_ge 255 b with large | second
  · have found : firstTooLarge out a b = some (.inputB, b) := by
      simp [firstTooLarge, Nat.not_lt.mpr output, Nat.not_lt.mpr first, large]
    rw [found, make, checkField_of_le _ output, checkField_of_le _ first, checkField_of_gt _ large]
    rfl
  · rw [firstTooLarge_eq_none_iff.mpr ⟨output, first, second⟩, make, checkField_of_le _ output,
      checkField_of_le _ first, checkField_of_le _ second]
    rfl

theorem make_eq_error_iff {op : Opcode} {out a b : Nat} {e : Error} :
    make op out a b = .error e ↔
      ∃ field value, firstTooLarge out a b = some (field, value) ∧
        e = .internal (.fieldOverflow field value) := by
  rw [make_eq]
  rcases firstTooLarge out a b with _ | ⟨field, value⟩
  · simp
  · constructor
    · intro failed
      cases failed
      exact ⟨field, value, rfl, rfl⟩
    · rintro ⟨_, _, same, rfl⟩
      cases same
      rfl

theorem make_eq_ok_iff {op : Opcode} {out a b : Nat} {i : Instruction} :
    make op out a b = .ok i ↔
      i.opcode = .ok op ∧ i.out.toNat = out ∧ i.a.toNat = a ∧ i.b.toNat = b := by
  rw [opcode_eq_ok_iff]
  constructor
  · intro made
    rw [make_eq] at made
    split at made
    · cases made
    · next fits =>
        obtain ⟨output, first, second⟩ := firstTooLarge_eq_none_iff.mp fits
        cases made
        exact ⟨rfl, UInt8.toNat_ofNat_of_lt' (Nat.lt_succ_of_le output),
          UInt8.toNat_ofNat_of_lt' (Nat.lt_succ_of_le first),
          UInt8.toNat_ofNat_of_lt' (Nat.lt_succ_of_le second)⟩
  · obtain ⟨code, out, a, b⟩ := i
    rintro ⟨rfl, rfl, rfl, rfl⟩
    have fits : firstTooLarge out.toNat a.toNat b.toNat = none :=
      firstTooLarge_eq_none_iff.mpr ⟨Nat.le_of_lt_succ out.toNat_lt, Nat.le_of_lt_succ a.toNat_lt,
        Nat.le_of_lt_succ b.toNat_lt⟩
    rw [make_eq, fits]
    simp only [UInt8.ofNat_toNat]

theorem fields_of_make {op : Opcode} {out a b : Nat} {i : Instruction}
    (made : make op out a b = .ok i) :
    i.opcode = .ok op ∧ i.out.toNat = out ∧ i.a.toNat = a ∧ i.b.toNat = b :=
  make_eq_ok_iff.mp made

theorem overflow_of_make {op : Opcode} {out a b : Nat} {e : Error}
    (failed : make op out a b = .error e) :
    (256 ≤ out ∧ e = .internal (.fieldOverflow .output out)) ∨
    (256 ≤ a ∧ e = .internal (.fieldOverflow .inputA a)) ∨
    (256 ≤ b ∧ e = .internal (.fieldOverflow .inputB b)) := by
  obtain ⟨field, value, found, rfl⟩ := make_eq_error_iff.mp failed
  have large : 255 < value := by simpa using List.find?_some found
  have listed := List.mem_of_find?_eq_some found
  simp only [List.mem_cons, Prod.mk.injEq, List.not_mem_nil, or_false] at listed
  rcases listed with ⟨rfl, rfl⟩ | ⟨rfl, rfl⟩ | ⟨rfl, rfl⟩
  · exact .inl ⟨large, rfl⟩
  · exact .inr (.inl ⟨large, rfl⟩)
  · exact .inr (.inr ⟨large, rfl⟩)

theorem exists_make (op : Opcode) {out a b : Nat} (output : out < 256) (first : a < 256)
    (second : b < 256) : ∃ i, make op out a b = .ok i := by
  have fits : firstTooLarge out a b = none :=
    firstTooLarge_eq_none_iff.mpr ⟨Nat.le_of_lt_succ output, Nat.le_of_lt_succ first,
      Nat.le_of_lt_succ second⟩
  rw [make_eq, fits]
  exact ⟨_, rfl⟩

/-- A word is the number whose digits to the base of 256 are its fields. -/
theorem make_eq_ok_iff_word {op : Opcode} {out a b : Nat} {i : Instruction} :
    make op out a b = .ok i ↔ (out ≤ 255 ∧ a ≤ 255 ∧ b ≤ 255) ∧
      i.word.toNat = op.byte.toNat * 0x1000000 + out * 0x10000 + a * 0x100 + b := by
  have code := op.byte.toNat_lt
  have code' := i.op.toNat_lt
  have output := i.out.toNat_lt
  have first := i.a.toNat_lt
  have second := i.b.toNat_lt
  rw [make_eq_ok_iff, opcode_eq_ok_iff, ← UInt8.toNat_inj, toNat_word]
  omega

/-- Words and fields determine each other. An instruction is made exactly from numbers that fit in a
byte, of the others the first is reported, and its word lists the fields from the highest byte to
the lowest. A word gives back the opcode and the numbers from which an instruction with that word is
made, and fails exactly for a highest byte that is no opcode. Another output changes that byte of
the word and no other. -/
theorem word_corresponds_to_fields (op : Opcode) (out a b : Nat) (w : UInt32) (output : UInt8) :
    ((∃ i, make op out a b = .ok i) ↔ out ≤ 255 ∧ a ≤ 255 ∧ b ≤ 255) ∧
    (∀ e, make op out a b = .error e ↔
      ∃ field value, firstTooLarge out a b = some (field, value) ∧
        e = .internal (.fieldOverflow field value)) ∧
    (∀ i, make op out a b = .ok i ↔ (out ≤ 255 ∧ a ≤ 255 ∧ b ≤ 255) ∧
      i.word.toNat = op.byte.toNat * 0x1000000 + out * 0x10000 + a * 0x100 + b) ∧
    ((∃ i, make op out a b = .ok i ∧ i.word = w) ↔
      (ofWord w).opcode = .ok op ∧ (ofWord w).out.toNat = out ∧ (ofWord w).a.toNat = a ∧
        (ofWord w).b.toNat = b) ∧
    (ofWord w).word = w ∧
    (∀ e, (ofWord w).opcode = .error e ↔
      12 < w.toNat / 0x1000000 ∧ e = .badOpcode (.ofNat (w.toNat / 0x1000000))) ∧
    ofWord ((ofWord w).setOutput output).word =
      ⟨(ofWord w).op, output, (ofWord w).a, (ofWord w).b⟩ := by
  refine ⟨?_, fun _ => make_eq_error_iff, fun _ => make_eq_ok_iff_word, ?_, word_ofWord w, ?_,
    ofWord_word _⟩
  · constructor
    · rintro ⟨i, made⟩
      exact (make_eq_ok_iff_word.mp made).1
    · rintro ⟨output, first, second⟩
      exact exists_make op (Nat.lt_succ_of_le output) (Nat.lt_succ_of_le first)
        (Nat.lt_succ_of_le second)
  · constructor
    · rintro ⟨i, made, rfl⟩
      rw [ofWord_word]
      exact make_eq_ok_iff.mp made
    · intro fields
      exact ⟨ofWord w, make_eq_ok_iff.mpr fields, word_ofWord w⟩
  · intro e
    have top : (ofWord w).op.toNat = w.toNat / 0x1000000 := by
      have bound := w.toNat_lt
      simp only [ofWord, UInt8.toNat_ofNat']
      omega
    rw [opcode_eq_error_iff, top]
    rfl

end Instruction

end SurfaceTape
