/-!
# Opcodes

The instruction set of a small stack machine. A word of code is two bytes, an
opcode and the low byte of its operand.

* `Opcode`: the defined opcodes, with `Opcode.byte` and `Opcode.mnemonic`;
* `Opcode.operandKind`: what the operand of an opcode refers to;
* `Opcode.flow`: how an opcode passes control on;
* `Opcode.stackEffect`: the net change of the operand stack.

Both spellings of an opcode determine it: `ofByte?_eq_some_iff` and
`ofMnemonic?_eq_some_iff`.
-/

namespace Tripwire

/-- The defined opcodes. `extendedArg` carries a higher byte of the operand of the word after it. -/
inductive Opcode
  | nop
  | popTop
  | dupTop
  | rotTwo
  | binaryAdd
  | binarySubtract
  | binaryMultiply
  | compareOp
  | returnValue
  | getIter
  | popBlock
  | yieldValue
  | yieldFrom
  | loadConst
  | loadFast
  | storeFast
  | loadGlobal
  | storeGlobal
  | loadAttr
  | loadMethod
  | callMethod
  | callFunction
  | buildList
  | jumpForward
  | forIter
  | setupFinally
  | setupWith
  | setupAsyncWith
  | jumpAbsolute
  | popJumpIfFalse
  | popJumpIfTrue
  | jumpIfFalseOrPop
  | jumpIfTrueOrPop
  | jumpIfNotExcMatch
  | extendedArg
  deriving DecidableEq, Repr

/-- What the operand of an opcode refers to. -/
inductive OperandKind
  | none
  | const
  | name
  | slot
  | jump
  | count
  | compare
  deriving DecidableEq, Repr

/-- How an opcode passes control on. The operand of an absolute jump is an offset, that of a
relative jump the distance from the next instruction. -/
inductive Flow
  | absoluteJump
  | relativeJump
  | suspension
  | other
  deriving DecidableEq, Repr

/-- Jumps are the absolute and the relative ones. -/
def Flow.isJump : Flow → Bool
  | .absoluteJump | .relativeJump => true
  | .suspension | .other => false

namespace Opcode

/-- All opcodes, by increasing byte. -/
def all : List Opcode :=
  [.nop, .popTop, .dupTop, .rotTwo, .binaryAdd, .binarySubtract, .binaryMultiply, .compareOp,
   .returnValue, .getIter, .popBlock, .yieldValue, .yieldFrom, .loadConst, .loadFast,
   .storeFast, .loadGlobal, .storeGlobal, .loadAttr, .loadMethod, .callMethod, .callFunction,
   .buildList, .jumpForward, .forIter, .setupFinally, .setupWith, .setupAsyncWith,
   .jumpAbsolute, .popJumpIfFalse, .popJumpIfTrue, .jumpIfFalseOrPop, .jumpIfTrueOrPop,
   .jumpIfNotExcMatch, .extendedArg]

/-- The byte that stands for an opcode. -/
def byte : Opcode → UInt8
  | .nop => 0x00
  | .popTop => 0x01
  | .dupTop => 0x02
  | .rotTwo => 0x03
  | .binaryAdd => 0x04
  | .binarySubtract => 0x05
  | .binaryMultiply => 0x06
  | .compareOp => 0x07
  | .returnValue => 0x08
  | .getIter => 0x09
  | .popBlock => 0x0A
  | .yieldValue => 0x0B
  | .yieldFrom => 0x0C
  | .loadConst => 0x10
  | .loadFast => 0x11
  | .storeFast => 0x12
  | .loadGlobal => 0x13
  | .storeGlobal => 0x14
  | .loadAttr => 0x15
  | .loadMethod => 0x16
  | .callMethod => 0x17
  | .callFunction => 0x18
  | .buildList => 0x19
  | .jumpForward => 0x20
  | .forIter => 0x21
  | .setupFinally => 0x22
  | .setupWith => 0x23
  | .setupAsyncWith => 0x24
  | .jumpAbsolute => 0x28
  | .popJumpIfFalse => 0x29
  | .popJumpIfTrue => 0x2A
  | .jumpIfFalseOrPop => 0x2B
  | .jumpIfTrueOrPop => 0x2C
  | .jumpIfNotExcMatch => 0x2D
  | .extendedArg => 0x7F

/-- The name of an opcode in source text and listings. -/
def mnemonic : Opcode → String
  | .nop => "nop"
  | .popTop => "pop_top"
  | .dupTop => "dup_top"
  | .rotTwo => "rot_two"
  | .binaryAdd => "binary_add"
  | .binarySubtract => "binary_subtract"
  | .binaryMultiply => "binary_multiply"
  | .compareOp => "compare_op"
  | .returnValue => "return_value"
  | .getIter => "get_iter"
  | .popBlock => "pop_block"
  | .yieldValue => "yield_value"
  | .yieldFrom => "yield_from"
  | .loadConst => "load_const"
  | .loadFast => "load_fast"
  | .storeFast => "store_fast"
  | .loadGlobal => "load_global"
  | .storeGlobal => "store_global"
  | .loadAttr => "load_attr"
  | .loadMethod => "load_method"
  | .callMethod => "call_method"
  | .callFunction => "call_function"
  | .buildList => "build_list"
  | .jumpForward => "jump_forward"
  | .forIter => "for_iter"
  | .setupFinally => "setup_finally"
  | .setupWith => "setup_with"
  | .setupAsyncWith => "setup_async_with"
  | .jumpAbsolute => "jump_absolute"
  | .popJumpIfFalse => "pop_jump_if_false"
  | .popJumpIfTrue => "pop_jump_if_true"
  | .jumpIfFalseOrPop => "jump_if_false_or_pop"
  | .jumpIfTrueOrPop => "jump_if_true_or_pop"
  | .jumpIfNotExcMatch => "jump_if_not_exc_match"
  | .extendedArg => "extended_arg"

/-- The opcode of a byte, if one is defined. -/
def ofByte? (b : UInt8) : Option Opcode :=
  all.find? fun op => op.byte == b

/-- The opcode with a given mnemonic. -/
def ofMnemonic? (name : String) : Option Opcode :=
  all.find? fun op => op.mnemonic == name

/-- The mnemonic in capitalised words without separators, as diagnostics name an opcode. -/
def title (op : Opcode) : String :=
  String.join ((op.mnemonic.splitOn "_").map String.capitalize)

/-- What the operand refers to. -/
def operandKind : Opcode → OperandKind
  | .loadConst => .const
  | .loadGlobal | .storeGlobal | .loadAttr | .loadMethod => .name
  | .loadFast | .storeFast => .slot
  | .callMethod | .callFunction | .buildList => .count
  | .compareOp => .compare
  | .jumpForward | .forIter | .setupFinally | .setupWith | .setupAsyncWith
  | .jumpAbsolute | .popJumpIfFalse | .popJumpIfTrue | .jumpIfFalseOrPop | .jumpIfTrueOrPop
  | .jumpIfNotExcMatch => .jump
  | _ => .none

/-- How control passes on. -/
def flow : Opcode → Flow
  | .yieldValue | .yieldFrom => .suspension
  | .jumpAbsolute | .popJumpIfFalse | .popJumpIfTrue | .jumpIfFalseOrPop | .jumpIfTrueOrPop
  | .jumpIfNotExcMatch => .absoluteJump
  | .jumpForward | .forIter | .setupFinally | .setupWith | .setupAsyncWith => .relativeJump
  | _ => .other

/-- The net change of the operand stack; `taken` selects the branch that jumps. -/
def stackEffect (op : Opcode) (arg : Nat) (taken : Bool) : Int :=
  match op with
  | .nop | .rotTwo | .getIter | .popBlock | .yieldValue | .loadAttr | .jumpForward | .jumpAbsolute
  | .extendedArg => 0
  | .popTop | .binaryAdd | .binarySubtract | .binaryMultiply | .compareOp | .returnValue
  | .yieldFrom | .storeFast | .storeGlobal | .popJumpIfFalse | .popJumpIfTrue => -1
  | .dupTop | .loadConst | .loadFast | .loadGlobal | .loadMethod => 1
  | .callMethod => -(arg + 1)
  | .callFunction => -arg
  | .buildList => 1 - arg
  | .forIter => if taken then -1 else 1
  | .setupFinally => if taken then 6 else 0
  | .setupWith => if taken then 6 else 1
  | .setupAsyncWith => if taken then 5 else 0
  | .jumpIfFalseOrPop | .jumpIfTrueOrPop => if taken then 0 else -1
  | .jumpIfNotExcMatch => -2

/-! ### Spellings determine the opcode -/

theorem mem_all (op : Opcode) : op ∈ all := by
  cases op <;> decide

theorem byte_injective {a b : Opcode} (h : a.byte = b.byte) : a = b := by
  revert h
  cases a <;> cases b <;> decide

@[simp] theorem ofByte?_byte (op : Opcode) : ofByte? op.byte = some op := by
  cases op <;> decide

theorem ofByte?_eq_some_iff {b : UInt8} {op : Opcode} : ofByte? b = some op ↔ op.byte = b := by
  constructor
  · intro h
    simpa using List.find?_some h
  · rintro rfl
    exact ofByte?_byte op

@[simp] theorem ofMnemonic?_mnemonic (op : Opcode) : ofMnemonic? op.mnemonic = some op := by
  cases op <;> decide

theorem ofMnemonic?_eq_some_iff {name : String} {op : Opcode} :
    ofMnemonic? name = some op ↔ op.mnemonic = name := by
  constructor
  · intro h
    simpa using List.find?_some h
  · rintro rfl
    exact ofMnemonic?_mnemonic op

end Opcode

/-- The comparisons, in the order of their operands. -/
def comparisonNames : List String := ["<", "<=", "==", "!=", ">", ">="]

/-- The comparison an operand selects. -/
def comparisonName? (arg : Nat) : Option String := comparisonNames[arg]?

end Tripwire
