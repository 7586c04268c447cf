import Tripwire.Proofs.Assembly.Source

/-!
# Operands of assembled functions

Constants and names are added to the pools before the instructions that refer to
them, unless they are there already, and nothing is ever taken out of a pool. So in
an assembled function every operand that refers to a pool refers to one of its
entries, and no entry stands in a pool twice.

* `Opcode.Refers`: an operand that refers to an entry, if it refers to a pool;
* `Builder.Backed`, `Assembler.Backed`: a function under construction with such operands;
* `Assembler.Extends.backed`: every statement keeps it so;
* `exists_backed_of_assemble`: the function of a source text;
* `Builder.Distinct`: pools without an entry that stands twice, with `Assembler.Extends.distinct`;
* `assembled_of_assemble`: all that holds of the function of a source text.
-/

namespace Tripwire

/-- An operand that refers to a pool is the index of an entry. -/
def Opcode.Refers (constants : List Constant) (names : List String) (op : Opcode)
    (operand : UInt32) : Prop :=
  (op.operandKind = .const → operand.toNat < constants.length) ∧
    (op.operandKind = .name → operand.toNat < names.length)

/-- The operands of the function refer to the entries of its pools. -/
def Function.Backed (f : Function) (b : Block) : Prop :=
  ∀ i ∈ b, i.opcode.Refers f.constants f.names i.operand

/-- The operands of the items refer to the entries of the pools. -/
def Builder.Backed (b : Builder) : Prop :=
  ∀ item ∈ b.items.toList, ∀ operand, item.operand = .value operand →
    item.opcode.Refers b.constants b.names operand

theorem Opcode.Refers.mono {constants constants' : List Constant} {names names' : List String}
    {op : Opcode} {operand : UInt32} (h : op.Refers constants names operand)
    (hconstants : constants.length ≤ constants'.length) (hnames : names.length ≤ names'.length) :
    op.Refers constants' names' operand :=
  ⟨fun hkind => (h.1 hkind).trans_le hconstants, fun hkind => (h.2 hkind).trans_le hnames⟩

theorem toNat_ofNat_le (n : Nat) : (UInt32.ofNat n).toNat ≤ n := by
  rw [UInt32.toNat_ofNat']
  exact Nat.mod_le _ _

namespace Builder

variable {b : Builder}

theorem names_addConstant (b : Builder) (value : Constant) :
    (b.addConstant value).1.names = b.names := by
  unfold addConstant
  split <;> rfl

theorem constants_addName (b : Builder) (name : String) :
    (b.addName name).1.constants = b.constants := by
  unfold addName
  split <;> rfl

theorem Backed.emit (h : b.Backed) {op : Opcode} {operand : UInt32}
    (hrefers : op.Refers b.constants b.names operand) : (b.emit op operand).Backed := by
  intro item hitem value hvalue
  rw [Builder.emit, Array.toList_push, List.mem_append, List.mem_singleton] at hitem
  rcases hitem with hitem | rfl
  · exact h item hitem value hvalue
  · cases hvalue
    exact hrefers

theorem Backed.jump (h : b.Backed) (op : Opcode) (label : String) : (b.jump op label).Backed := by
  intro item hitem value hvalue
  rw [Builder.jump, Array.toList_push, List.mem_append, List.mem_singleton] at hitem
  rcases hitem with hitem | rfl
  · exact h item hitem value hvalue
  · cases hvalue

/-- A constant that is added has its index, and the pool only grows. -/
theorem Backed.addConstant (h : b.Backed) (value : Constant) :
    (b.addConstant value).1.Backed ∧
      (b.addConstant value).2.toNat < (b.addConstant value).1.constants.length ∧
      b.constants.length ≤ (b.addConstant value).1.constants.length := by
  unfold Builder.addConstant
  cases hfind : Pool.find? b.constants value with
  | some index =>
    obtain ⟨hmem, rfl⟩ := Pool.find?_eq_some_iff.1 hfind
    exact ⟨h, (toNat_ofNat_le _).trans_lt (List.idxOf_lt_length_of_mem hmem), le_rfl⟩
  | none =>
    have hlen : b.constants.length < (b.constants ++ [value]).length := by simp
    exact ⟨fun item hitem operand hoperand => (h item hitem operand hoperand).mono hlen.le le_rfl,
      (toNat_ofNat_le _).trans_lt hlen, hlen.le⟩

/-- A name that is added has its index, and the pool only grows. -/
theorem Backed.addName (h : b.Backed) (name : String) :
    (b.addName name).1.Backed ∧ (b.addName name).2.toNat < (b.addName name).1.names.length := by
  unfold Builder.addName
  cases hfind : Pool.find? b.names name with
  | some index =>
    obtain ⟨hmem, rfl⟩ := Pool.find?_eq_some_iff.1 hfind
    exact ⟨h, (toNat_ofNat_le _).trans_lt (List.idxOf_lt_length_of_mem hmem)⟩
  | none =>
    have hlen : b.names.length < (b.names ++ [name]).length := by simp
    exact ⟨fun item hitem operand hoperand => (h item hitem operand hoperand).mono le_rfl hlen.le,
      (toNat_ofNat_le _).trans_lt hlen⟩

end Builder

/-- The operands refer to the entries of the pools, and the named constants are entries. -/
structure Assembler.Backed (a : Assembler) : Prop where
  builder : a.builder.Backed
  named : ∀ entry ∈ a.constants, entry.2.toNat < a.builder.constants.length

namespace Assembler

variable {a a' : Assembler}

theorem Extends.backed (h : a.Extends a') (ha : a.Backed) : a'.Backed := by
  cases h with
  | set name firstLine line stackDepth labels => exact ⟨ha.builder, ha.named⟩
  | define name value =>
    obtain ⟨hbacked, hindex, hgrown⟩ := ha.builder.addConstant value
    refine ⟨hbacked, fun entry hentry => ?_⟩
    rcases List.mem_cons.1 hentry with rfl | hentry
    · exact hindex
    · exact (ha.named entry hentry).trans_le hgrown
  | emit op operand h hjump hconst hname =>
    exact ⟨ha.builder.emit ⟨fun hkind => absurd hkind hconst, fun hkind => absurd hkind hname⟩,
      ha.named⟩
  | loadNamed op name index h hkind hlookup =>
    have hindex : index.toNat < a.builder.constants.length := by
      obtain ⟨before, after, hsplit, -⟩ := List.lookup_eq_some_iff.1 hlookup
      refine ha.named (name, index) ?_
      rw [hsplit]
      exact List.mem_append_right _ (List.mem_cons_self ..)
    refine ⟨ha.builder.emit ⟨fun _ => hindex, ?_⟩, ha.named⟩
    simp [hkind]
  | load op value h hkind =>
    obtain ⟨hbacked, hindex, hgrown⟩ := ha.builder.addConstant value
    refine ⟨hbacked.emit ⟨fun _ => hindex, ?_⟩, ?_⟩
    · simp [hkind]
    · intro entry hentry
      exact (ha.named entry hentry).trans_le hgrown
  | named op name h hkind =>
    obtain ⟨hbacked, hindex⟩ := ha.builder.addName name
    refine ⟨hbacked.emit ⟨by simp [hkind], fun _ => hindex⟩, ?_⟩
    intro entry hentry
    show entry.2.toNat < (a.builder.addName name).1.constants.length
    rw [a.builder.constants_addName]
    exact ha.named entry hentry
  | jump op label h => exact ⟨ha.builder.jump op label, ha.named⟩

end Assembler

/-- The function of a source text has the code of its block, whose operands refer to the entries of
its pools. -/
theorem exists_backed_of_assemble {source : List Char} {f : Function} (h : assemble source = .ok f)
    (hsize : f.code.length < limit32) : ∃ b, f.Laid b ∧ f.Backed b := by
  obtain ⟨b, hlaid⟩ := laid_of_assemble h hsize
  obtain ⟨a, hlines, hfinish⟩ := assemble_eq_ok_iff.1 h
  have hempty : Assembler.start.Backed := by
    refine ⟨fun item hitem => ?_, fun entry hentry => ?_⟩
    · cases hitem
    · cases hentry
  have hbacked : a.Backed := Assembler.keeps_of_runLines Assembler.Extends.backed hempty hlines
  obtain ⟨c, hlayout, rfl⟩ := Builder.finish_eq_ok_iff.1 hfinish
  have hrealizes := realizes_of_layout hlayout ((Block.size_le_length_encode c).trans_lt hsize)
  have hread := Block.decode_encode
    (hrealizes.encodable fun item hitem => (sound_of_runLines hlines item hitem).ne_extendedArg)
  have hcode := hlaid.decode_eq
  rw [hread] at hcode
  cases hcode
  refine ⟨_, hlaid, fun i hi => ?_⟩
  obtain ⟨l, hl⟩ := List.mem_iff_getElem?.1 hi
  obtain ⟨item, hitem, hopcode⟩ := exists_getElem?_left hrealizes.opcodes hl
  cases hoperand : item.operand with
  | value operand =>
    rw [hopcode, hrealizes.operand_eq l item i operand hitem hl hoperand]
    exact hbacked.builder item (List.mem_of_getElem? hitem) operand hoperand
  | label name =>
    -- A jump refers to no pool.
    obtain ⟨m, -, -, htarget⟩ := hrealizes.target_eq l item i name hitem hl hoperand
    have hkind := Opcode.isJump_iff.1 (Block.isJump_of_target? htarget)
    exact ⟨by simp [hkind], by simp [hkind]⟩

/-- The operands of the function of a source text refer to the entries of its pools. -/
theorem backed_of_assemble {source : List Char} {f : Function} {b : Block}
    (h : assemble source = .ok f) (hsmall : f.Small) (hb : Block.decode f.code = .ok b) :
    f.Backed b := by
  obtain ⟨c, hlaid, hbacked⟩ := exists_backed_of_assemble h hsmall.code_lt
  rw [hlaid.decode_eq] at hb
  cases hb
  exact hbacked

/-! ### No entry twice -/

/-- The pools of the function under construction hold no entry twice. -/
structure Builder.Distinct (b : Builder) : Prop where
  constants : b.constants.Nodup
  names : b.names.Nodup

namespace Builder

variable {b : Builder}

/-- A constant is added as a request is merged. -/
theorem constants_addConstant (b : Builder) (value : Constant) :
    (b.addConstant value).1.constants = Pool.merge b.constants [value] := by
  unfold addConstant
  cases hfind : Pool.find? b.constants value with
  | some index => exact (Pool.merge_of_find?_eq_some hfind).symm
  | none => exact (Pool.merge_of_find?_eq_none hfind).symm

/-- A name is added as a request is merged. -/
theorem names_addName (b : Builder) (name : String) :
    (b.addName name).1.names = Pool.merge b.names [name] := by
  unfold addName
  cases hfind : Pool.find? b.names name with
  | some index => exact (Pool.merge_of_find?_eq_some hfind).symm
  | none => exact (Pool.merge_of_find?_eq_none hfind).symm

theorem Distinct.addConstant (h : b.Distinct) (value : Constant) :
    (b.addConstant value).1.Distinct := by
  refine ⟨?_, ?_⟩
  · rw [constants_addConstant]
    exact Pool.nodup_merge h.constants
  · rw [names_addConstant]
    exact h.names

theorem Distinct.addName (h : b.Distinct) (name : String) : (b.addName name).1.Distinct := by
  refine ⟨?_, ?_⟩
  · rw [constants_addName]
    exact h.constants
  · rw [names_addName]
    exact Pool.nodup_merge h.names

end Builder

theorem Assembler.Extends.distinct {a a' : Assembler} (h : a.Extends a')
    (ha : a.builder.Distinct) : a'.builder.Distinct := by
  cases h with
  | set name firstLine line stackDepth labels => exact ⟨ha.constants, ha.names⟩
  | define name value => exact ha.addConstant value
  | emit op operand h hjump hconst hname => exact ⟨ha.constants, ha.names⟩
  | loadNamed op name index h hkind hlookup => exact ⟨ha.constants, ha.names⟩
  | load op value h hkind => exact ⟨(ha.addConstant value).constants, (ha.addConstant value).names⟩
  | named op name h hkind => exact ⟨(ha.addName name).constants, (ha.addName name).names⟩
  | jump op label h => exact ⟨ha.constants, ha.names⟩

/-! ### Assembled functions -/

/-- The function is one that its source text makes: code, line table and pools fit each other, and
the pools hold no entry twice. -/
structure Function.Assembled (f : Function) (b : Block) : Prop where
  laid : f.Laid b
  backed : f.Backed b
  constants_nodup : f.constants.Nodup
  names_nodup : f.names.Nodup

/-- Every function of a source text is sound as long as 32-bit offsets suffice for its code. -/
theorem assembled_of_assemble {source : List Char} {f : Function} (h : assemble source = .ok f)
    (hsize : f.code.length < limit32) : ∃ b, f.Assembled b := by
  obtain ⟨b, hlaid, hbacked⟩ := exists_backed_of_assemble h hsize
  obtain ⟨a, hlines, hfinish⟩ := assemble_eq_ok_iff.1 h
  have hdistinct : a.builder.Distinct :=
    Assembler.keeps_of_runLines Assembler.Extends.distinct ⟨List.nodup_nil, List.nodup_nil⟩ hlines
  obtain ⟨c, -, rfl⟩ := Builder.finish_eq_ok_iff.1 hfinish
  exact ⟨b, hlaid, hbacked, hdistinct.constants, hdistinct.names⟩

/-- Source text with one constant under a name and as a literal, and with bytes that have no line. -/
def sharedPoolSource : List Char :=
  (".const limit 7\n.line 1\nload_const 7\nload_global print\nload_const limit\ncall_function 1\n" ++
    "jump_forward end\n.noline\nnop\n.line 9\n.label end\nreturn_value\n").toList

/-- The function of that text. -/
def Function.sharedPool : Function where
  name := "<asm>"
  code := [0x10, 0, 0x13, 0, 0x10, 0, 0x18, 1, 0x20, 2, 0x00, 0, 0x08, 0]
  constants := [.int 7]
  names := ["print"]
  lines := .ofSpans 1 [(10, some 1), (2, none), (2, some 9)]
  stackDepth := 3

theorem exists_assembled_sharedPool : assemble sharedPoolSource = .ok .sharedPool ∧
    Function.sharedPool.code.length < limit32 ∧ ∃ b, Function.sharedPool.Assembled b := by
  have h : assemble sharedPoolSource = .ok .sharedPool := by decide +kernel
  have hsize : Function.sharedPool.code.length < limit32 := by decide
  exact ⟨h, hsize, assembled_of_assemble h hsize⟩

end Tripwire
