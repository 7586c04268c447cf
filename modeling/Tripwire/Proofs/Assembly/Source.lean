import Tripwire.Assembly.Source
import Tripwire.Proofs.Assembly.Builder

/-!
# Assembled functions

Source text cannot say padding words, and its jumps lead to labels. So an
assembled function is one in which breakpoints can be set, unless it suspends.

* `Statement.Sayable`: the statements that are read;
* `Builder.Sound`: a builder whose items can be said;
* `Assembler.Extends`: what one statement does, with `Assembler.extends_of_run`;
* `Assembler.keeps_of_runLines`: what every statement keeps, a text keeps;
* `laid_of_assemble`, `wellFormed_of_assemble`: the function of a source text.
-/

namespace Tripwire

/-- The opcode is no padding word, and no jump. -/
def Opcode.Plain (op : Opcode) : Prop := op ≠ .extendedArg ∧ op.flow.isJump = false

/-- The operand of a jump is said to be one. -/
theorem Opcode.isJump_iff {op : Opcode} : op.flow.isJump = true ↔ op.operandKind = .jump := by
  cases op <;> decide

theorem Opcode.plain_of_operandKind {op : Opcode} (h : op ≠ .extendedArg)
    (hkind : op.operandKind ≠ .jump) : op.Plain :=
  ⟨h, by simpa using mt Opcode.isJump_iff.1 hkind⟩

namespace Statement

/-- What a statement that is read can say: its opcode takes an operand of its kind. -/
def Sayable : Statement → Prop
  | .plain op => op ≠ .extendedArg ∧ op.operandKind = .none
  | .load op _ => op ≠ .extendedArg ∧ op.operandKind = .const
  | .named op _ => op ≠ .extendedArg ∧ op.operandKind = .name
  | .counted op _ => op ≠ .extendedArg ∧ op.operandKind ≠ .jump ∧ op.operandKind ≠ .const ∧
    op.operandKind ≠ .name
  | .jump op _ => op ≠ .extendedArg
  | _ => True

end Statement

section Read

variable {line : List Char} {tokens : List (List Char)} {statement : Statement} {extra : Bool}

theorem sayable_of_readDirective (h : readDirective line tokens = .ok (statement, extra)) :
    statement.Sayable := by
  unfold readDirective at h
  simp only [followedBy] at h
  split at h
  all_goals
    first
    | (obtain ⟨⟨_, rest⟩, -, h⟩ := bind_eq_ok_iff.1 h
       cases h
       trivial)
    | (cases h <;> trivial)

theorem sayable_of_readInstruction (h : readInstruction line tokens = .ok (statement, extra)) :
    statement.Sayable := by
  unfold readInstruction at h
  simp only [followedBy] at h
  split at h
  · cases h
  · cases h
  · rename_i opcode hpadding _
    split at h
    · rename_i hkind
      cases h
      exact ⟨hpadding, hkind⟩
    · rename_i hkind
      split at h
      · cases h
      · cases h
        exact ⟨hpadding, hkind⟩
    · rename_i hkind
      obtain ⟨⟨name, rest⟩, -, h⟩ := bind_eq_ok_iff.1 h
      cases h
      exact ⟨hpadding, hkind⟩
    · rename_i hkind
      obtain ⟨⟨n, rest⟩, -, h⟩ := bind_eq_ok_iff.1 h
      cases h
      exact ⟨hpadding, by simp [hkind]⟩
    · rename_i hkind
      obtain ⟨⟨n, rest⟩, -, h⟩ := bind_eq_ok_iff.1 h
      cases h
      exact ⟨hpadding, by simp [hkind]⟩
    · rename_i hkind
      obtain ⟨⟨token, rest⟩, -, h⟩ := bind_eq_ok_iff.1 h
      obtain ⟨n, -, h⟩ := bind_eq_ok_iff.1 h
      cases h
      exact ⟨hpadding, by simp [hkind]⟩
    · obtain ⟨⟨token, rest⟩, -, h⟩ := bind_eq_ok_iff.1 h
      simp only at h
      split at h
      · cases h
      · cases h
        exact hpadding

theorem sayable_of_readStatement (h : readStatement line = .ok (some (statement, extra))) :
    statement.Sayable := by
  unfold readStatement at h
  split at h
  · cases h
  · obtain ⟨read, hread, heq⟩ := map_eq_ok_iff.1 h
    cases heq
    exact sayable_of_readDirective hread
  · obtain ⟨read, hread, heq⟩ := map_eq_ok_iff.1 h
    cases heq
    exact sayable_of_readInstruction hread

end Read

/-- The items of a builder can be said in source text. -/
def Builder.Sound (b : Builder) : Prop := ∀ item ∈ b.items.toList, item.Written

namespace Builder

variable {b : Builder}

theorem Sound.emit (h : b.Sound) {op : Opcode} (hop : op.Plain) (operand : UInt32) :
    (b.emit op operand).Sound := by
  intro item hitem
  rw [Builder.emit, Array.toList_push, List.mem_append, List.mem_singleton] at hitem
  rcases hitem with hitem | rfl
  · exact h item hitem
  · refine ⟨hop.1, fun hjump => ?_⟩
    rw [hop.2] at hjump
    cases hjump

theorem Sound.jump (h : b.Sound) {op : Opcode} (hop : op ≠ .extendedArg) (label : String) :
    (b.jump op label).Sound := by
  intro item hitem
  rw [Builder.jump, Array.toList_push, List.mem_append, List.mem_singleton] at hitem
  rcases hitem with hitem | rfl
  · exact h item hitem
  · exact ⟨hop, fun _ => ⟨label, rfl⟩⟩

theorem Sound.addConstant (h : b.Sound) (value : Constant) : (b.addConstant value).1.Sound := by
  unfold Builder.addConstant
  split <;> exact h

theorem Sound.addName (h : b.Sound) (name : String) : (b.addName name).1.Sound := by
  unfold Builder.addName
  split <;> exact h

end Builder

namespace Assembler

variable {a a' : Assembler}

/-- What one statement makes of an assembler. Its opcode is no padding word, and takes an operand of
the kind that the statement gives it. -/
inductive Extends (a : Assembler) : Assembler → Prop
  /-- Neither an item nor an entry of a pool is added. -/
  | set (name : String) (firstLine line stackDepth : Option Nat) (labels : Labels) :
      Extends a ⟨{ a.builder with name, firstLine, line, stackDepth, labels }, a.constants⟩
  | define (name : String) (value : Constant) :
      Extends a ⟨(a.builder.addConstant value).1,
        (name, (a.builder.addConstant value).2) :: a.constants⟩
  | emit (op : Opcode) (operand : UInt32) (h : op ≠ .extendedArg) (hjump : op.operandKind ≠ .jump)
      (hconst : op.operandKind ≠ .const) (hname : op.operandKind ≠ .name) :
      Extends a ⟨a.builder.emit op operand, a.constants⟩
  | loadNamed (op : Opcode) (name : String) (index : UInt32) (h : op ≠ .extendedArg)
      (hkind : op.operandKind = .const) (hlookup : a.constants.lookup name = some index) :
      Extends a ⟨a.builder.emit op index, a.constants⟩
  | load (op : Opcode) (value : Constant) (h : op ≠ .extendedArg)
      (hkind : op.operandKind = .const) :
      Extends a ⟨(a.builder.emitConstant op value).1, a.constants⟩
  | named (op : Opcode) (name : String) (h : op ≠ .extendedArg) (hkind : op.operandKind = .name) :
      Extends a ⟨(a.builder.emitName op name).1, a.constants⟩
  | jump (op : Opcode) (label : String) (h : op ≠ .extendedArg) :
      Extends a ⟨a.builder.jump op label, a.constants⟩

theorem extends_of_define {name : String} {text : List Char} (h : a.define name text = .ok a') :
    a.Extends a' := by
  unfold define at h
  split at h
  · cases h
  · split at h
    · cases h
    · obtain ⟨value, -, h⟩ := bind_eq_ok_iff.1 h
      cases h
      exact .define name value

theorem extends_of_load {op : Opcode} {text : List Char} (hop : op ≠ .extendedArg)
    (hkind : op.operandKind = .const) (h : a.load op text = .ok a') : a.Extends a' := by
  unfold load at h
  cases hlookup : a.constants.lookup (String.ofList text) with
  | some index =>
    simp only [hlookup] at h
    cases h
    exact .loadNamed op _ index hop hkind hlookup
  | none =>
    simp only [hlookup] at h
    obtain ⟨value, -, h⟩ := bind_eq_ok_iff.1 h
    cases h
    exact .load op value hop hkind

theorem extends_of_run {statement : Statement} (hsay : statement.Sayable)
    (h : a.run statement = .ok a') : a.Extends a' := by
  cases statement with
  | function name =>
    cases h
    exact .set ..
  | firstLine line =>
    cases h
    exact .set ..
  | stack depth =>
    cases h
    exact .set ..
  | line line =>
    cases h
    exact .set ..
  | noLine =>
    cases h
    exact .set ..
  | label name =>
    unfold run Builder.label at h
    cases hfind : a.builder.labels.find? name with
    | none =>
      simp only [hfind] at h
      cases h
      exact .set ..
    | some index =>
      simp only [hfind] at h
      cases h
  | const name text => exact extends_of_define h
  | plain op =>
    cases h
    exact .emit op 0 hsay.1 (by simp [hsay.2]) (by simp [hsay.2]) (by simp [hsay.2])
  | load op text => exact extends_of_load hsay.1 hsay.2 h
  | named op name =>
    cases h
    exact .named op name hsay.1 hsay.2
  | counted op operand =>
    cases h
    exact .emit op _ hsay.1 hsay.2.1 hsay.2.2.1 hsay.2.2.2
  | jump op label =>
    cases h
    exact .jump op label hsay

theorem Extends.sound (h : a.Extends a') (ha : a.builder.Sound) : a'.builder.Sound := by
  cases h with
  | set name firstLine line stackDepth labels => exact ha
  | define name value => exact ha.addConstant value
  | emit op operand h hjump hconst hname => exact ha.emit (Opcode.plain_of_operandKind h hjump) _
  | loadNamed op name index h hkind hlookup =>
    exact ha.emit (Opcode.plain_of_operandKind h (by simp [hkind])) _
  | load op value h hkind =>
    exact (ha.addConstant value).emit (Opcode.plain_of_operandKind h (by simp [hkind])) _
  | named op name h hkind =>
    exact (ha.addName name).emit (Opcode.plain_of_operandKind h (by simp [hkind])) _
  | jump op label h => exact ha.jump h label

/-- What every statement keeps, a line keeps. -/
theorem keeps_of_runLine {P : Assembler → Prop} {line : List Char}
    (hkeeps : ∀ {a a' : Assembler}, a.Extends a' → P a → P a')
    (ha : P a) (h : a.runLine line = .ok a') : P a' := by
  obtain ⟨read, hread, h⟩ := bind_eq_ok_iff.1 h
  cases read with
  | none =>
    cases h
    exact ha
  | some read =>
    obtain ⟨statement, extra⟩ := read
    obtain ⟨next, hnext, h⟩ := bind_eq_ok_iff.1 h
    have hkept := hkeeps (extends_of_run (sayable_of_readStatement hread) hnext) ha
    split at h
    · cases h
    · cases h
      exact hkept

/-- What every statement keeps, a text keeps. -/
theorem keeps_of_runLines {P : Assembler → Prop} {number : Nat} {lines : List (List Char)}
    (hkeeps : ∀ {a a' : Assembler}, a.Extends a' → P a → P a')
    (ha : P a) (h : runLines number lines a = .ok a') : P a' := by
  induction lines generalizing number a with
  | nil =>
    cases h
    exact ha
  | cons line rest ih =>
    unfold runLines at h
    cases hline : a.runLine line with
    | error cause =>
      simp only [hline] at h
      cases h
    | ok next =>
      simp only [hline] at h
      exact ih (keeps_of_runLine hkeeps ha hline) h

end Assembler

/-- The function of a source text is the one that its statements have built. -/
theorem assemble_eq_ok_iff {source : List Char} {f : Function} :
    assemble source = .ok f ↔
      ∃ a, Assembler.runLines 1 (Text.linesOf source) Assembler.start = .ok a ∧
        a.builder.finish = .ok f := by
  rw [assemble, bind_eq_ok_iff]
  refine exists_congr fun a => and_congr_right fun _ => ?_
  cases a.builder.finish with
  | error cause => simp [throw_eq_ok_iff]
  | ok g => simp [pure_eq_ok_iff]

theorem sound_of_runLines {number : Nat} {lines : List (List Char)} {a : Assembler}
    (h : Assembler.runLines number lines Assembler.start = .ok a) : a.builder.Sound := by
  have hempty : Assembler.start.builder.Sound := by
    intro item hitem
    cases hitem
  exact Assembler.keeps_of_runLines Assembler.Extends.sound hempty h

/-- The function of a source text has the code of its block, and a line table that fits it. -/
theorem laid_of_assemble {source : List Char} {f : Function} (h : assemble source = .ok f)
    (hsize : f.code.length < limit32) : ∃ b, f.Laid b := by
  obtain ⟨a, hlines, hfinish⟩ := assemble_eq_ok_iff.1 h
  exact Builder.laid_of_finish (sound_of_runLines hlines) hfinish hsize

/-- The code of a source text is read back with least widths, and the function is one in which
breakpoints can be set unless it suspends. -/
theorem wellFormed_of_assemble {source : List Char} {f : Function} (h : assemble source = .ok f)
    (hsmall : f.Small) : ∃ b, Block.decode f.code = .ok b ∧
      (∀ i ∈ b, i.width = minimalWidth i.operand) ∧
      ((∀ i ∈ b, i.flow ≠ .suspension) → f.WellFormed b) := by
  obtain ⟨b, hlaid⟩ := laid_of_assemble h hsmall.code_lt
  exact ⟨b, hlaid.decode_eq, hlaid.narrow, hlaid.wellFormed hsmall⟩

end Tripwire
