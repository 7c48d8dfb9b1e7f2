import SurfaceTape.Tape.Codec
import Mathlib

/-!
# What the stored form of a tape holds

Each reader is described exactly: it gives a value and a rest if and only if the bytes are the
written form of that value followed by that rest. So reading takes back what was written, whatever
follows it, and no proper beginning of a written form can be read, since it would be a written form
with another rest. The only thing that is lost is which NaN a constant was.

The whole of Mathlib is imported for `Float32.ofBits_toBits`, which none of its parts brings along.
-/

set_option autoImplicit false

namespace SurfaceTape

namespace Binary32

open Float.Model

/-- The patterns that stand for no number: every bit of the exponent is set, and some bit of the
fraction. -/
def IsNaN (w : UInt32) : Prop := w.toNat / 2 ^ 23 % 2 ^ 8 = 2 ^ 8 - 1 ∧ w.toNat % 2 ^ 23 ≠ 0

/-- Patterns of one value. Those that stand for no number are not told apart. -/
def SameValue (v w : UInt32) : Prop := v = w ∨ IsNaN v ∧ IsNaN w

private theorem isNaN_iff (w : UInt32) :
    IsNaN w ↔ @UnpackedFloat.unpackExponent .binary32 w.toBitVec = -1#8 ∧
      @UnpackedFloat.unpackMantissa .binary32 w.toBitVec ≠ 0#23 := by
  have exponent : @UnpackedFloat.unpackExponent .binary32 w.toBitVec = -1#8 ↔
      w.toNat / 2 ^ 23 % 2 ^ 8 = 2 ^ 8 - 1 := by
    rw [← BitVec.toNat_inj]
    simp [UnpackedFloat.unpackExponent, Nat.shiftRight_eq_div_pow]
  have fraction : @UnpackedFloat.unpackMantissa .binary32 w.toBitVec = 0#23 ↔
      w.toNat % 2 ^ 23 = 0 := by
    rw [← BitVec.toNat_inj]
    simp [UnpackedFloat.unpackMantissa]
  rw [exponent, Ne, fraction, IsNaN]

private theorem toBits_ofBits_of_isNaN {w : UInt32} (nan : IsNaN w) :
    (Float32.ofBits w).toBits = 0x7fc00000 := by
  obtain ⟨exponent, fraction⟩ := (isNaN_iff w).mp nan
  have unpacked : UnpackedFloat.unpack .binary32 w.toBitVec = .notANumber := by
    unfold UnpackedFloat.unpack
    dsimp only
    rw [if_pos exponent, if_neg fraction]
  rw [Float32.toBits, Float32.ofBits, Float32.Model.ofBits, unpacked]
  rfl

private theorem toBits_ofBits_of_number {w : UInt32} (number : ¬IsNaN w) :
    (Float32.ofBits w).toBits = w := by
  have valid : Format.binary32.Valid w.toBitVec :=
    ⟨fun exponent fraction => absurd ((isNaN_iff w).mpr ⟨exponent, fraction⟩) number⟩
  exact congrArg Float32.toBits (Float32.ofBits_toBits ⟨⟨w, valid⟩⟩)

/-- A pattern that is read and written again has kept its value. -/
theorem sameValue_toBits_ofBits (w : UInt32) : SameValue w (Float32.ofBits w).toBits := by
  by_cases nan : IsNaN w
  · rw [toBits_ofBits_of_isNaN nan]
    exact .inr ⟨nan, by decide, by decide⟩
  · exact .inl (toBits_ofBits_of_number nan).symm

end Binary32

namespace Bytes

theorem number?_eq_some_iff {width n : Nat} {bytes rest : List UInt8} :
    number? width bytes = some (n, rest) ↔
      n < 256 ^ width ∧ bytes = littleEndian width n ++ rest := by
  induction width generalizing n bytes with
  | zero =>
      rw [number?, Option.some.injEq, Prod.mk.injEq, Nat.pow_zero, Nat.lt_one_iff]
      exact and_congr_left fun _ => eq_comm
  | succ width ih =>
      cases bytes with
      | nil => simp [number?, littleEndian]
      | cons b bytes =>
          have small := b.toNat_lt
          have digit : b = UInt8.ofNat n ↔ b.toNat = n % 256 := by
            rw [← UInt8.toNat_inj, UInt8.toNat_ofNat']
          rw [number?, littleEndian, List.cons_append, List.cons.injEq, digit, Nat.pow_succ]
          constructor
          · intro read
            obtain ⟨⟨high, rest'⟩, readHigh, whole⟩ := Option.map_eq_some_iff.mp read
            cases whole
            obtain ⟨bound, rfl⟩ := ih.mp readHigh
            have split : (b.toNat + 256 * high) / 256 = high := by omega
            exact ⟨by omega, by omega, by rw [split]⟩
          · rintro ⟨bound, low, rfl⟩
            have readHigh := ih.mpr ⟨(by omega : n / 256 < 256 ^ width), rfl⟩
            rw [readHigh, Option.map_some, low]
            exact congrArg (fun m => some (m, rest)) (Nat.mod_add_div n 256)

def ofWordList (words : List UInt32) : List UInt8 := words.flatMap fun w => littleEndian 4 w.toNat

private theorem ofWordList_cons (w : UInt32) (words : List UInt32) :
    ofWordList (w :: words) = littleEndian 4 w.toNat ++ ofWordList words := by
  rw [ofWordList, List.flatMap_cons, ofWordList]

private theorem wordsOnto?_eq_some_iff {count : Nat} {bytes rest : List UInt8}
    {read after : List UInt32} :
    wordsOnto? count bytes read = some (after, rest) ↔
      ∃ words, words.length = count ∧ after = words.reverse ++ read ∧
        bytes = ofWordList words ++ rest := by
  induction count generalizing bytes read with
  | zero =>
      rw [wordsOnto?, Option.some.injEq, Prod.mk.injEq]
      constructor
      · rintro ⟨rfl, rfl⟩
        exact ⟨[], rfl, rfl, rfl⟩
      · rintro ⟨words, none, rfl, rfl⟩
        cases List.eq_nil_of_length_eq_zero none
        exact ⟨rfl, rfl⟩
  | succ count ih =>
      rw [wordsOnto?]
      constructor
      · intro readAll
        split at readAll
        · cases readAll
        · next n rest' first =>
            obtain ⟨bound, rfl⟩ := number?_eq_some_iff.mp first
            obtain ⟨words, length, rfl, rfl⟩ := ih.mp readAll
            have kept : (UInt32.ofNat n).toNat = n := UInt32.toNat_ofNat_of_lt' bound
            refine ⟨UInt32.ofNat n :: words, by rw [List.length_cons, length], by simp, ?_⟩
            rw [ofWordList_cons, kept, List.append_assoc]
      · rintro ⟨words, length, rfl, rfl⟩
        cases words with
        | nil => cases length
        | cons w words =>
            have first := number?_eq_some_iff.mpr
              ⟨w.toNat_lt, (List.append_assoc (littleEndian 4 w.toNat) (ofWordList words) rest)⟩
            rw [ofWordList_cons, first]
            refine ih.mpr ⟨words, Nat.succ.inj length, ?_, rfl⟩
            rw [UInt32.ofNat_toNat]
            simp

theorem words?_eq_some_iff {bytes rest : List UInt8} {words : List UInt32} :
    words? bytes = some (words, rest) ↔
      words.length < 2 ^ 64 ∧ bytes = ofWords words ++ rest := by
  simp only [words?, Option.bind_eq_bind, Option.bind_eq_some_iff, Option.pure_def,
    Option.some.injEq, Prod.mk.injEq]
  constructor
  · rintro ⟨⟨count, afterCount⟩, counted, ⟨reversed, rest'⟩, readAll, rfl, rfl⟩
    obtain ⟨bound, rfl⟩ := number?_eq_some_iff.mp counted
    obtain ⟨words, rfl, rfl, rfl⟩ := wordsOnto?_eq_some_iff.mp readAll
    rw [List.append_nil, List.reverse_reverse]
    exact ⟨bound, (List.append_assoc _ _ _).symm⟩
  · rintro ⟨bound, rfl⟩
    refine ⟨(words.length, ofWordList words ++ rest),
      number?_eq_some_iff.mpr ⟨bound, List.append_assoc _ _ _⟩, (words.reverse, rest), ?_,
      List.reverse_reverse words, rfl⟩
    exact wordsOnto?_eq_some_iff.mpr ⟨words, rfl, (List.append_nil _).symm, rfl⟩

end Bytes

namespace Tape

/-- The counts of the tape fit the eight bytes that they are stored in. -/
structure Storable (tape : Tape Float32) : Prop where
  code : tape.code.length < 2 ^ 64
  constants : tape.constants.length < 2 ^ 64
  slotCount : tape.slotCount < 2 ^ 64

/-- The stored form of a tape in which the constants are given as patterns. -/
def storedForm (code constants : List UInt32) (slotCount : Nat) : List UInt8 :=
  Bytes.ofWords code ++ (Bytes.ofWords constants ++ Bytes.littleEndian 8 slotCount)

def StoredAs (tape : Tape Float32) (form : List UInt8) : Prop :=
  tape.Storable ∧ ∃ patterns, tape.constants = patterns.map Float32.ofBits ∧
    form = storedForm (tape.code.map Instruction.word) patterns tape.slotCount

theorem Storable.storedAs_encode {tape : Tape Float32} (storable : tape.Storable) :
    tape.StoredAs tape.encode := by
  refine ⟨storable, tape.constants.map Float32.toBits, ?_, rfl⟩
  simp [List.map_map, Function.comp_def, Float32.ofBits_toBits]

theorem decode?_eq_some_iff {bytes : List UInt8} {tape : Tape Float32} :
    decode? bytes = some tape ↔ ∃ form rest, tape.StoredAs form ∧ bytes = form ++ rest := by
  simp only [decode?, Option.bind_eq_bind, Option.bind_eq_some_iff, Option.pure_def,
    Option.some.injEq]
  constructor
  · rintro ⟨⟨code, bytes⟩, readCode, ⟨patterns, bytes⟩, readConstants, ⟨slotCount, rest⟩,
      readCount, rfl⟩
    obtain ⟨codeBound, rfl⟩ := Bytes.words?_eq_some_iff.mp readCode
    obtain ⟨constantBound, rfl⟩ := Bytes.words?_eq_some_iff.mp readConstants
    obtain ⟨slotBound, rfl⟩ := Bytes.number?_eq_some_iff.mp readCount
    have words : (code.map Instruction.ofWord).map Instruction.word = code := by
      simp [List.map_map, Function.comp_def, Instruction.word_ofWord]
    refine ⟨_, rest, ⟨⟨by simpa using codeBound, by simpa using constantBound, slotBound⟩, patterns,
      rfl, rfl⟩, ?_⟩
    simp only [storedForm, words, List.append_assoc]
  · rintro ⟨form, rest, ⟨storable, patterns, constants, rfl⟩, rfl⟩
    have codeBound : (tape.code.map Instruction.word).length < 2 ^ 64 := by
      simpa using storable.code
    have patternBound : patterns.length < 2 ^ 64 := by
      simpa [constants] using storable.constants
    refine ⟨(tape.code.map Instruction.word, _),
      Bytes.words?_eq_some_iff.mpr ⟨codeBound, List.append_assoc _ _ _⟩, (patterns, _),
      Bytes.words?_eq_some_iff.mpr ⟨patternBound, List.append_assoc _ _ _⟩, (tape.slotCount, rest),
      Bytes.number?_eq_some_iff.mpr ⟨storable.slotCount, rfl⟩, ?_⟩
    have code : (tape.code.map Instruction.word).map Instruction.ofWord = tape.code := by
      simp [List.map_map, Function.comp_def, Instruction.ofWord_word]
    rw [code, ← constants]

/-- Where a stored form ends can be told from its bytes: the readers that the forms begin with take
the same from both. -/
theorem StoredAs.eq_nil_of_append {tape other : Tape Float32} {form shorter rest : List UInt8}
    (stored : tape.StoredAs form) (otherStored : other.StoredAs shorter)
    (split : form = shorter ++ rest) : rest = [] := by
  obtain ⟨storable, patterns, constants, rfl⟩ := stored
  obtain ⟨otherStorable, otherPatterns, otherConstants, rfl⟩ := otherStored
  have readCode := Bytes.words?_eq_some_iff.mpr
    ⟨by simpa using otherStorable.code, split.trans (List.append_assoc _ _ _)⟩
  rw [storedForm, Bytes.words?_eq_some_iff.mpr ⟨by simpa using storable.code, rfl⟩] at readCode
  have afterCode := (Prod.mk.inj (Option.some.inj readCode)).2
  have readConstants := Bytes.words?_eq_some_iff.mpr
    ⟨by simpa [otherConstants] using otherStorable.constants,
      afterCode.trans (List.append_assoc _ _ _)⟩
  rw [Bytes.words?_eq_some_iff.mpr ⟨by simpa [constants] using storable.constants, rfl⟩]
    at readConstants
  have afterConstants := (Prod.mk.inj (Option.some.inj readConstants)).2
  have readCount := Bytes.number?_eq_some_iff.mpr ⟨otherStorable.slotCount, afterConstants⟩
  rw [Bytes.number?_eq_some_iff.mpr ⟨storable.slotCount, (List.append_nil _).symm⟩] at readCount
  exact (Prod.mk.inj (Option.some.inj readCount)).2.symm

theorem Storable.decode?_eq_none {tape : Tape Float32} (storable : tape.Storable)
    {bytes : List UInt8} (beginning : bytes <+: tape.encode) (proper : bytes ≠ tape.encode) :
    decode? bytes = none := by
  cases decoded : decode? bytes with
  | none => rfl
  | some other =>
      obtain ⟨cut, whole⟩ := beginning
      obtain ⟨form, rest, otherStored, rfl⟩ := decode?_eq_some_iff.mp decoded
      have ended : rest ++ cut = [] := storable.storedAs_encode.eq_nil_of_append otherStored
        (whole.symm.trans (List.append_assoc _ _ _))
      rw [(List.append_eq_nil_iff.mp ended).2, List.append_nil] at whole
      exact absurd whole proper

/-- Storing loses nothing. A tape is read back from its stored form, whatever bytes follow; no
proper beginning of the form is read as a tape; and bytes that are read as a tape begin with its
stored form, up to the patterns of constants that are no numbers. -/
theorem stored_form_exact :
    (∀ tape : Tape Float32, tape.Storable →
      (∀ rest, decode? (tape.encode ++ rest) = some tape) ∧
      ∀ bytes, bytes <+: tape.encode → bytes ≠ tape.encode → decode? bytes = none) ∧
    ∀ bytes tape, decode? bytes = some tape →
      tape.encode = storedForm (tape.code.map Instruction.word)
        (tape.constants.map Float32.toBits) tape.slotCount ∧
      ∃ patterns rest,
        bytes = storedForm (tape.code.map Instruction.word) patterns tape.slotCount ++ rest ∧
        List.Forall₂ Binary32.SameValue patterns (tape.constants.map Float32.toBits) := by
  refine ⟨fun tape storable => ⟨fun rest => ?_, fun bytes => storable.decode?_eq_none⟩, ?_⟩
  · exact decode?_eq_some_iff.mpr ⟨tape.encode, rest, storable.storedAs_encode, rfl⟩
  · intro bytes tape decoded
    obtain ⟨_, rest, ⟨_, patterns, constants, rfl⟩, split⟩ := decode?_eq_some_iff.mp decoded
    refine ⟨rfl, patterns, rest, split, ?_⟩
    rw [constants, List.map_map, List.forall₂_map_right_iff]
    exact List.forall₂_same.mpr fun w _ => Binary32.sameValue_toBits_ofBits w

/-- A tape with an opcode that is unknown, a constant that is no number and a negative zero, and the
largest count of slots that can be stored. -/
def oddTape : Tape Float32 where
  code := [⟨255, 0, 7, 9⟩]
  constants := [Float32.ofBits 0xffc00001, Float32.ofBits 0x80000000]
  slotCount := 2 ^ 64 - 1

def oddForm : List UInt8 :=
  [1, 0, 0, 0, 0, 0, 0, 0, 9, 7, 0, 255, 2, 0, 0, 0, 0, 0, 0, 0, 1, 0, 192, 255, 0, 0, 0, 128,
    255, 255, 255, 255, 255, 255, 255, 255]

theorem stored_form_oddTape_exact :
    oddTape.Storable ∧ decode? (oddTape.encode ++ [1, 2, 3]) = some oddTape ∧
      decode? (oddTape.encode.take 35) = none ∧ decode? oddForm = some oddTape ∧
      ∃ patterns rest, oddForm =
          storedForm (oddTape.code.map Instruction.word) patterns oddTape.slotCount ++ rest ∧
        List.Forall₂ Binary32.SameValue patterns (oddTape.constants.map Float32.toBits) := by
  have storable : oddTape.Storable := ⟨by decide, by decide, by decide⟩
  have decoded : decode? oddForm = some oddTape := by cbv
  have proper : oddTape.encode.take 35 ≠ oddTape.encode := by
    intro same
    have length := congrArg List.length same
    cbv at length
  obtain ⟨stored, read⟩ := stored_form_exact
  obtain ⟨back, cut⟩ := stored oddTape storable
  exact ⟨storable, back _, cut _ (List.take_prefix 35 _) proper, decoded, (read _ _ decoded).2⟩

end Tape

end SurfaceTape
