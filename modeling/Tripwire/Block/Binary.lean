import Tripwire.Block
import Tripwire.Fault

/-!
# Blocks as bytes

An instruction of width `w` is written as `w` words. Each holds one byte of the
operand, the most significant first; the last word carries the opcode and the
others carry `extendedArg`.

* `Block.encode`: the bytes of a block, each instruction as wide as stated and
  no narrower than its operand needs;
* `Block.decode`: the block written in some bytes, or the first fault in them.
-/

namespace Tripwire

/-- Two bytes of code: an opcode byte and one byte of the operand. -/
abbrev Word := UInt8 × UInt8

/-- The bytes two by two. A last single byte is dropped. -/
def wordsOf : List UInt8 → List Word
  | code :: low :: rest => (code, low) :: wordsOf rest
  | _ => []

/-- The bytes of some words. -/
def bytesOf (ws : List Word) : List UInt8 := ws.flatMap fun (code, low) => [code, low]

/-- The widest encoding: three words of `extendedArg` and the instruction proper. -/
def maximalWidth : Nat := 4

namespace Instruction

/-- The width the instruction is written with. -/
def encodedWidth (i : Instruction) : Nat := max i.width (minimalWidth i.operand)

/-- The byte of the operand with the given place, the least significant being the byte of place
zero. -/
def operandByte (i : Instruction) (place : Nat) : UInt8 :=
  UInt8.ofNat (i.operand.toNat >>> (8 * place))

/-- The words for the operand bytes above the lowest `place` ones, by falling place. -/
def prefixWords (i : Instruction) : Nat → List Word
  | 0 => []
  | count + 1 => (Opcode.byte .extendedArg, i.operandByte (count + 1)) :: i.prefixWords count

/-- The words of the instruction. -/
def words (i : Instruction) : List Word :=
  i.prefixWords (i.encodedWidth - 1) ++ [(i.opcode.byte, i.operandByte 0)]

@[simp] theorem length_prefixWords (i : Instruction) (count : Nat) :
    (i.prefixWords count).length = count := by
  induction count with
  | zero => rfl
  | succ count ih => simp [prefixWords, ih]

theorem length_words (i : Instruction) : i.words.length = i.encodedWidth := by
  have := one_le_minimalWidth i.operand
  simp only [words, List.length_append, length_prefixWords, List.length_singleton, encodedWidth]
  omega

end Instruction

namespace Block

/-- The words of a block. -/
def words (b : Block) : List Word := b.flatMap Instruction.words

/-- The bytes of a block. -/
def encode (b : Block) : List UInt8 := bytesOf (words b)

/-- Reads instructions from words. The current instruction starts at `start`; `width` words of
`extendedArg` have been read for it, and `operand` holds their bytes. -/
def decodeWords (start : Nat) (operand : UInt32) (width : Nat) :
    List Word → Except DecodeFault Block
  | [] => if width = 0 then .ok [] else .error (.danglingPrefix (UInt32.ofNat start))
  | (code, low) :: rest =>
    match Opcode.ofByte? code with
    | none => .error (.invalidOpcode (UInt32.ofNat (start + width * wordSize)) code)
    | some opcode =>
      if maximalWidth ≤ width then .error (.operandOverflow (UInt32.ofNat start))
      else
        let operand := operand <<< 8 ||| low.toUInt32
        if opcode = .extendedArg then decodeWords start operand (width + 1) rest
        else
          let i : Instruction := ⟨opcode, operand, width + 1⟩
          (decodeWords (start + i.size) 0 0 rest).map (i :: ·)

/-- The block that some bytes are the code of. -/
def decode (bytes : List UInt8) : Except DecodeFault Block :=
  if bytes.length % wordSize = 0 then decodeWords 0 0 0 (wordsOf bytes)
  else .error (.oddLength bytes.length)

@[simp] theorem words_nil : words [] = [] := rfl

@[simp] theorem words_cons (i : Instruction) (b : Block) : words (i :: b) = i.words ++ words b := rfl

theorem words_append (a b : Block) : words (a ++ b) = words a ++ words b := by
  simp [words]

end Block

@[simp] theorem bytesOf_nil : bytesOf [] = [] := rfl

@[simp] theorem bytesOf_cons (w : Word) (ws : List Word) : bytesOf (w :: ws) = w.1 :: w.2 :: bytesOf ws :=
  rfl

@[simp] theorem wordsOf_bytesOf (ws : List Word) : wordsOf (bytesOf ws) = ws := by
  induction ws with
  | nil => rfl
  | cons w ws ih => simp [wordsOf, ih]

theorem length_bytesOf (ws : List Word) : (bytesOf ws).length = ws.length * wordSize := by
  induction ws with
  | nil => rfl
  | cons w ws ih => simp only [bytesOf_cons, List.length_cons, ih, wordSize]; omega

/-- Bytes of even length are the bytes of their words. -/
theorem bytesOf_wordsOf (bytes : List UInt8) (even : bytes.length % wordSize = 0) :
    bytesOf (wordsOf bytes) = bytes := by
  fun_induction wordsOf bytes with
  | case1 code low rest ih =>
    simp only [List.length_cons, wordSize] at even ih
    simp [ih (by omega)]
  | case2 bytes short =>
    cases bytes with
    | nil => rfl
    | cons a rest =>
      cases rest with
      | nil => simp [wordSize] at even
      | cons b rest => exact absurd rfl (short a b rest)

theorem Block.encode_append (a b : Block) : encode (a ++ b) = encode a ++ encode b := by
  simp [encode, words_append, bytesOf]

end Tripwire
