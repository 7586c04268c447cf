import Tripwire.Block
import Tripwire.Constant
import Tripwire.Fault

/-!
# Injected calls

A breakpoint is a call of one method of a global object, with the number of the
breakpoint as its argument and the result dropped.

* `CallTarget`: the object and the method;
* `callBlock`: the five instructions of the call;
* `matchCall?`: the index of the argument in code of this shape;
* `findCall`: the call with a given argument among adjacent calls.
-/

namespace Tripwire

/-- The global object and its method that breakpoints call. -/
structure CallTarget where
  module : String
  callback : String
  deriving DecidableEq, Repr

/-- The target that is called unless another one is given. -/
def CallTarget.standard : CallTarget := ⟨"linehook", "breakpoint_callback"⟩

/-- The number of instructions in a call. -/
def callLength : Nat := 5

/-- The call, with the pool indices of its names and its argument. -/
def callBlock (module callback argument : UInt32) : Block :=
  [.narrow .loadGlobal module, .narrow .loadMethod callback, .narrow .loadConst argument,
    .narrow .callMethod 1, .bare .popTop]

/-- The index of the argument of a call, if five instructions are a call of the given names. Widths
do not matter, nor does the operand of the last instruction. -/
def matchCall? (module callback : UInt32) (load method argument call drop : Instruction) :
    Option UInt32 :=
  if load.opcode = .loadGlobal ∧ load.operand = module ∧
      method.opcode = .loadMethod ∧ method.operand = callback ∧
      argument.opcode = .loadConst ∧
      call.opcode = .callMethod ∧ call.operand = 1 ∧ drop.opcode = .popTop then
    some argument.operand
  else none

/-- The offset of the call with the argument `wanted` in a block that stands at `offset`. Only the
calls at the start of the block are looked at, up to the first instructions of another shape. -/
def findCall (module callback : UInt32) (constants : List Constant) (wanted : Constant)
    (offset : Nat) : Block → Except Fault (Option Nat)
  | load :: method :: argument :: call :: drop :: rest =>
    match matchCall? module callback load method argument call drop with
    | none => .ok none
    | some index =>
      match constants[index.toNat]? with
      | none => .error (.inconsistent (.constantRange index.toNat constants.length))
      | some found =>
        if found = wanted then .ok (some offset)
        else
          findCall module callback constants wanted
            (offset + Block.size [load, method, argument, call, drop]) rest
  | _ => .ok none

@[simp] theorem length_callBlock (module callback argument : UInt32) :
    (callBlock module callback argument).length = callLength := rfl

@[simp] theorem matchCall?_callBlock (module callback argument : UInt32) :
    matchCall? module callback (.narrow .loadGlobal module) (.narrow .loadMethod callback)
      (.narrow .loadConst argument) (.narrow .callMethod 1) (.bare .popTop) = some argument := by
  simp [matchCall?, Instruction.narrow, Instruction.bare]

end Tripwire
