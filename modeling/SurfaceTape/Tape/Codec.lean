import SurfaceTape.Tape.Basic

/-!
# Tapes as bytes

The stored form of a tape: the number of instructions and their words, the number of constants and
their bits, and the number of slots. All numbers are little-endian; counts have eight bytes, words
and constants four. Bytes after the stored form are not looked at.
-/

set_option autoImplicit false

namespace SurfaceTape

namespace Bytes

/-- The lowest `width` bytes of a number, lowest first. -/
def littleEndian : Nat → Nat → List UInt8
  | 0, _ => []
  | width + 1, n => UInt8.ofNat n :: littleEndian width (n / 256)

def number? : Nat → List UInt8 → Option (Nat × List UInt8)
  | 0, bytes => some (0, bytes)
  | _ + 1, [] => none
  | width + 1, b :: bytes =>
      (number? width bytes).map fun (n, rest) => (b.toNat + 256 * n, rest)

/-- Reads `count` numbers of four bytes and keeps them, last first, before those already read. -/
def wordsOnto? : Nat → List UInt8 → List UInt32 → Option (List UInt32 × List UInt8)
  | 0, bytes, read => some (read, bytes)
  | count + 1, bytes, read =>
      match number? 4 bytes with
      | none => none
      | some (n, rest) => wordsOnto? count rest (UInt32.ofNat n :: read)

/-- Reads a count of eight bytes and that many numbers of four bytes. -/
def words? (bytes : List UInt8) : Option (List UInt32 × List UInt8) := do
  let (count, bytes) ← number? 8 bytes
  let (reversed, bytes) ← wordsOnto? count bytes []
  return (reversed.reverse, bytes)

def ofWords (words : List UInt32) : List UInt8 :=
  littleEndian 8 words.length ++ words.flatMap fun w => littleEndian 4 w.toNat

end Bytes

namespace Tape

variable {β : Type}

/-- The instructions alone, each as one little-endian word. -/
def codeBytes (tape : Tape β) : List UInt8 :=
  tape.code.flatMap fun i => Bytes.littleEndian 4 i.word.toNat

def encode (tape : Tape Float32) : List UInt8 :=
  Bytes.ofWords (tape.code.map Instruction.word) ++
    (Bytes.ofWords (tape.constants.map Float32.toBits) ++ Bytes.littleEndian 8 tape.slotCount)

/-- The tape whose stored form the bytes begin with. -/
def decode? (bytes : List UInt8) : Option (Tape Float32) := do
  let (code, bytes) ← Bytes.words? bytes
  let (constants, bytes) ← Bytes.words? bytes
  let (slotCount, _) ← Bytes.number? 8 bytes
  return ⟨code.map Instruction.ofWord, constants.map Float32.ofBits, slotCount⟩

/-- Equality of tapes in which constants compare as numbers. -/
def same [BEq β] (tape other : Tape β) : Bool :=
  tape.code == other.code && tape.constants == other.constants &&
    tape.slotCount == other.slotCount

end Tape

end SurfaceTape
