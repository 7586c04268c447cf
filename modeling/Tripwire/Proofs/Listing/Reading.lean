import Mathlib.Data.List.DropRight
import Tripwire.Listing

/-!
# Reading listings

What a reader takes from the lines of a listing. A line marker shows a number or a dash. The
row of an instruction has three columns with tabs between them: the offset, the bytes in
hexadecimal digits, and the instruction in words, the mnemonic first and then the operand.

* `readNumber?`, `readHex?`: decimal numbers and bytes, with `readHex?_hexText`;
* `Row.hexColumn?`, `Row.read?`: a row, read from its line;
* `Row.line`, `Row.read?_line`: the line of a row, which is read as that row;
* `readWords?`, `readWords?_describe`: the instruction, read from the words.
-/

namespace Tripwire

variable {n : Nat} {c : Char} {cs : List Char}

/-! ### Numbers -/

/-- A decimal number, if a text holds nothing else. -/
def readNumber? (cs : List Char) : Option Nat :=
  if !cs.isEmpty && cs.all Char.isDigit then some (Nat.ofDigitChars 10 cs 0) else none

theorem readNumber?_eq_some_iff : readNumber? cs = some n ↔
    (cs ≠ [] ∧ ∀ c ∈ cs, c.isDigit = true) ∧ Nat.ofDigitChars 10 cs 0 = n := by
  rw [readNumber?, Option.ite_none_right_eq_some, Option.some.injEq, Bool.and_eq_true,
    Bool.not_eq_true', List.isEmpty_eq_false_iff, List.all_eq_true]

theorem isDigit_of_mem_toDigits (h : c ∈ Nat.toDigits 10 n) : c.isDigit = true :=
  Nat.isDigit_of_mem_toDigits (by decide) (by decide) h

theorem toList_toString (n : Nat) : (toString n).toList = Nat.toDigits 10 n := by
  rw [Nat.toString_eq_repr, Nat.repr_eq_ofList_toDigits, String.toList_ofList]

/-- Zeros in front of a number do not change it. -/
theorem readNumber?_zeros (zeros n : Nat) :
    readNumber? (List.replicate zeros '0' ++ Nat.toDigits 10 n) = some n := by
  have hdigits : ∀ c ∈ List.replicate zeros '0' ++ Nat.toDigits 10 n, c.isDigit = true := by
    intro c hc
    rcases List.mem_append.1 hc with hc | hc
    · rw [(List.mem_replicate.1 hc).2]
      rfl
    · exact isDigit_of_mem_toDigits hc
  have hne : List.replicate zeros '0' ++ Nat.toDigits 10 n ≠ [] := by simp [Nat.toDigits_ne_nil]
  refine readNumber?_eq_some_iff.2 ⟨⟨hne, hdigits⟩, ?_⟩
  rw [Nat.ofDigitChars_append, Nat.ofDigitChars_replicate_zero, Nat.mul_zero,
    Nat.ofDigitChars_ten_toDigits]

theorem readNumber?_toDigits (n : Nat) : readNumber? (Nat.toDigits 10 n) = some n :=
  readNumber?_zeros 0 n

theorem toList_fourDigits (n : Nat) : (fourDigits n).toList =
    List.replicate (4 - (toString n).length) '0' ++ Nat.toDigits 10 n := by
  rw [fourDigits, String.toList_append, String.toList_ofList, toList_toString]

theorem readNumber?_fourDigits (n : Nat) : readNumber? (fourDigits n).toList = some n := by
  rw [toList_fourDigits, readNumber?_zeros]

/-- What is read as a number consists of digits. -/
theorem isDigit_of_readNumber? (h : readNumber? cs = some n) : ∀ c ∈ cs, c.isDigit = true :=
  (readNumber?_eq_some_iff.1 h).1.2

theorem ne_nil_of_readNumber? (h : readNumber? cs = some n) : cs ≠ [] :=
  (readNumber?_eq_some_iff.1 h).1.1

theorem notMem_of_readNumber? (h : readNumber? cs = some n) (hc : c.isDigit = false) : c ∉ cs := by
  intro hmem
  rw [isDigit_of_readNumber? h c hmem] at hc
  cases hc

theorem notMem_toDigits (hc : c.isDigit = false) (n : Nat) : c ∉ Nat.toDigits 10 n :=
  notMem_of_readNumber? (readNumber?_toDigits n) hc

theorem notMem_fourDigits (hc : c.isDigit = false) (n : Nat) : c ∉ (fourDigits n).toList :=
  notMem_of_readNumber? (readNumber?_fourDigits n) hc

/-! ### Bytes -/

/-- The value of a hexadecimal digit. -/
def hexValue? (c : Char) : Option Nat :=
  if c.isDigit then some (c.toNat - '0'.toNat)
  else if 'a' ≤ c ∧ c ≤ 'f' then some (c.toNat - 'a'.toNat + 10)
  else none

/-- Bytes, from two hexadecimal digits each. -/
def readHex? : List Char → Option (List UInt8)
  | [] => some []
  | [_] => none
  | high :: low :: cs => do
    let high ← hexValue? high
    let low ← hexValue? low
    let bytes ← readHex? cs
    pure (.ofNat (16 * high + low) :: bytes)

theorem hexValue?_digitChar (h : n < 16) : hexValue? (Nat.digitChar n) = some n := by
  have hall : ∀ n < 16, hexValue? (Nat.digitChar n) = some n := by decide
  exact hall n h

theorem toList_hexText_cons (b : UInt8) (bytes : List UInt8) : (hexText (b :: bytes)).toList =
    Nat.digitChar (b.toNat / 16) :: Nat.digitChar (b.toNat % 16) :: (hexText bytes).toList := by
  rw [hexText, List.map_cons, String.join_cons, String.toList_append, hexByte,
    String.toList_ofList]
  rfl

theorem readHex?_hexText (bytes : List UInt8) : readHex? (hexText bytes).toList = some bytes := by
  induction bytes with
  | nil => rfl
  | cons b bytes ih =>
    have hlt := b.toNat_lt
    rw [toList_hexText_cons, readHex?, hexValue?_digitChar (by omega),
      hexValue?_digitChar (by omega), ih]
    show some (UInt8.ofNat (16 * (b.toNat / 16) + b.toNat % 16) :: bytes) = some (b :: bytes)
    rw [Nat.div_add_mod, UInt8.ofNat_toNat]

/-- Hexadecimal digits are neither blank nor a tab. -/
theorem notMem_hexText (bytes : List UInt8) (h : ∀ n, Nat.digitChar n ≠ c) :
    c ∉ (hexText bytes).toList := by
  induction bytes with
  | nil => exact List.not_mem_nil
  | cons b bytes ih =>
    rw [toList_hexText_cons, List.mem_cons, List.mem_cons]
    rintro (hhigh | hlow | hmem)
    · exact h _ hhigh.symm
    · exact h _ hlow.symm
    · exact ih hmem

/-! ### Rows -/

/-- The text in front of the first `c` and the text behind it. -/
def cut? (c : Char) (cs : List Char) : Option (List Char × List Char) :=
  match cs.dropWhile (· != c) with
  | [] => none
  | _ :: rest => some (cs.takeWhile (· != c), rest)

theorem cut?_append (h : c ∉ cs) (rest : List Char) :
    cut? c (cs ++ c :: rest) = some (cs, rest) := by
  have hall : ∀ a ∈ cs, (a != c) = true := fun a ha => by
    simp only [bne_iff_ne, ne_eq]
    rintro rfl
    exact h ha
  rw [cut?, List.takeWhile_append_of_pos hall, List.dropWhile_append_of_pos hall]
  simp

theorem cut?_eq_none (h : c ∉ cs) : cut? c cs = none := by
  have hall : cs.dropWhile (· != c) = [] := by
    simp only [List.dropWhile_eq_nil_iff, bne_iff_ne, ne_eq]
    rintro a ha rfl
    exact h ha
  rw [cut?, hall]

namespace Row

/-- The hexadecimal digits in the second of three columns, without the blanks that fill it up. -/
def hexColumn? (line : List Char) : Option (List Char) := do
  let (_, rest) ← cut? '\t' line
  let (hex, _) ← cut? '\t' rest
  pure (hex.rdropWhile (· == ' '))

/-- How a marker begins. -/
def markerStart : List Char := .replicate 6 ' ' ++ [';', ' ', 'l', 'i', 'n', 'e', ' ']

/-- A row, read from its line: a marker with a number or a dash, or else an instruction. -/
def read? (line : List Char) : Option Row :=
  match markerStart.isPrefixOf? line with
  | some shown =>
    if shown = ['-'] then some (.marker none)
    else (readNumber? shown).map fun line => .marker (some line)
  | none => do
    let (offset, rest) ← cut? '\t' line
    let (_, words) ← cut? '\t' rest
    let offset ← readNumber? offset
    let hex ← hexColumn? line
    let bytes ← readHex? hex
    pure (.code offset bytes (.ofList words))

/-- The line of a row. -/
def line : Row → List Char
  | .marker shown => markerStart ++ shown.elim ['-'] (Nat.toDigits 10)
  | .code offset bytes words =>
    (fourDigits offset).toList ++ '\t' :: ((padRight 14 (hexText bytes)).toList ++
      '\t' :: words.toList)

/-- A line feed ends the row. -/
theorem toList_text (row : Row) : row.text.toList = row.line ++ ['\n'] := by
  cases row with
  | marker shown =>
    cases shown with
    | none => decide
    | some n =>
      rw [text, String.toList_append, String.toList_append, toList_toString]
      simp [line, markerStart, toString, List.replicate]
  | code offset bytes words =>
    rw [text]
    simp [line, toString]

/-- Blanks at the end of a column are left out. -/
theorem rdropWhile_blanks (h : ' ' ∉ cs) (blanks : Nat) :
    (cs ++ List.replicate blanks ' ').rdropWhile (· == ' ') = cs := by
  induction blanks with
  | zero =>
    rw [List.replicate_zero, List.append_nil, List.rdropWhile_eq_self_iff]
    intro hne hblank
    rw [beq_iff_eq] at hblank
    exact h (hblank ▸ List.getLast_mem hne)
  | succ blanks ih =>
    rw [List.replicate_succ', ← List.append_assoc, List.rdropWhile_concat, if_pos (by rfl), ih]

theorem toList_padRight (width : Nat) (text : String) : (padRight width text).toList =
    text.toList ++ List.replicate (width - text.length) ' ' := by
  rw [padRight, String.toList_append, String.toList_ofList]

theorem tab_notMem_padRight (bytes : List UInt8) : '\t' ∉ (padRight 14 (hexText bytes)).toList := by
  rw [toList_padRight, List.mem_append, List.mem_replicate]
  rintro (h | ⟨-, h⟩)
  · exact notMem_hexText bytes (fun n => Nat.digitChar_ne '\t' rfl) h
  · exact absurd h (by decide)

theorem cut?_line_code (offset : Nat) (bytes : List UInt8) (words : String) :
    cut? '\t' (line (.code offset bytes words)) = some ((fourDigits offset).toList,
      (padRight 14 (hexText bytes)).toList ++ '\t' :: words.toList) :=
  cut?_append (notMem_fourDigits rfl offset) _

theorem hexColumn?_line_code (offset : Nat) (bytes : List UInt8) (words : String) :
    hexColumn? (line (.code offset bytes words)) = some (hexText bytes).toList := by
  have hblank : ' ' ∉ (hexText bytes).toList :=
    notMem_hexText bytes fun n => Nat.digitChar_ne ' ' rfl
  rw [hexColumn?, cut?_line_code]
  show (cut? '\t' _ >>= fun columns => pure (columns.1.rdropWhile (· == ' '))) = _
  rw [cut?_append (tab_notMem_padRight bytes), toList_padRight]
  exact congrArg some (rdropWhile_blanks hblank _)

theorem hexColumn?_line_marker (shown : Option Nat) : hexColumn? (line (.marker shown)) = none := by
  have htab : '\t' ∉ line (.marker shown) := by
    rw [line, List.mem_append]
    rintro (h | h)
    · exact absurd h (by decide)
    · cases shown with
      | none => exact absurd h (by decide)
      | some n => exact notMem_toDigits rfl n h
  rw [hexColumn?, cut?_eq_none htab]
  rfl

/-- No instruction begins like a marker. -/
theorem isPrefixOf?_line_code (offset : Nat) (bytes : List UInt8) (words : String) :
    markerStart.isPrefixOf? (line (.code offset bytes words)) = none := by
  rw [Option.eq_none_iff_forall_ne_some]
  intro rest hrest
  rw [List.isPrefixOf?_eq_some_iff_append_eq, line] at hrest
  cases hdigits : (fourDigits offset).toList with
  | nil => exact ne_nil_of_readNumber? (readNumber?_fourDigits offset) hdigits
  | cons c cs =>
    rw [hdigits] at hrest
    obtain rfl : ' ' = c := Option.some.inj (congrArg List.head? hrest)
    exact notMem_fourDigits rfl offset (hdigits ▸ List.mem_cons_self ..)

/-- What is read of the line of a row is the row. -/
theorem read?_line (row : Row) : read? row.line = some row := by
  cases row with
  | marker shown =>
    have hstart : markerStart.isPrefixOf? (line (.marker shown)) =
        some (shown.elim ['-'] (Nat.toDigits 10)) :=
      List.isPrefixOf?_eq_some_iff_append_eq.2 rfl
    cases shown with
    | none =>
      rw [read?, hstart]
      rfl
    | some n =>
      have hdash : Nat.toDigits 10 n ≠ ['-'] := fun h =>
        notMem_toDigits rfl n (h ▸ List.mem_singleton_self '-')
      rw [read?, hstart]
      show (if Nat.toDigits 10 n = ['-'] then _ else _) = _
      rw [if_neg hdash, Option.elim_some, readNumber?_toDigits, Option.map_some]
  | code offset bytes words =>
    simp [read?, isPrefixOf?_line_code, cut?_line_code, cut?_append (tab_notMem_padRight bytes),
      readNumber?_fourDigits, hexColumn?_line_code, readHex?_hexText]

end Row

/-! ### Words -/

section Words

variable {f : Function} {i : Instruction} {offset : Nat}

/-- What the words of an instruction tell of its operand. -/
def comment? (f : Function) (i : Instruction) (offset : Nat) : Option String :=
  match i.opcode.operandKind with
  | .none | .slot | .count => none
  | .const => some ((f.constants[i.operand.toNat]?.map Constant.text).getD "<missing const>")
  | .name => some (f.names[i.operand.toNat]?.getD "<missing name>")
  | .compare => comparisonName? i.operand.toNat
  | .jump => (i.target? offset).map fun target => "to " ++ toString target

theorem describe_of_operandKind_eq_none (h : i.opcode.operandKind = .none) :
    describe f i offset = i.opcode.mnemonic := by
  rw [describe]
  simp only [h]

theorem describe_of_operandKind_ne_none (h : i.opcode.operandKind ≠ .none) :
    describe f i offset = i.opcode.mnemonic ++ " " ++ toString i.operand.toNat ++
      (comment? f i offset).elim "" (" ; " ++ ·) := by
  rw [describe, comment?]
  cases hkind : i.opcode.operandKind with
  | none => exact absurd hkind h
  | const => simp [toString, String.append_assoc]
  | name => simp [toString, String.append_assoc]
  | slot => simp [toString]
  | count => simp [toString]
  | compare => cases comparisonName? i.operand.toNat <;> simp [toString, String.append_assoc]
  | jump =>
    have hto (target : String) : " ; to " ++ target = " ; " ++ ("to " ++ target) := by
      rw [← String.append_assoc]
      rfl
    cases i.target? offset <;> simp [toString, String.append_assoc, hto]

/-- The opcode and the operand of an instruction, from its words. -/
def readWords? (words : List Char) : Option (Opcode × Option Nat) :=
  match cut? ' ' words with
  | none => (Opcode.ofMnemonic? (.ofList words)).map fun op => (op, none)
  | some (mnemonic, rest) => do
    let op ← Opcode.ofMnemonic? (.ofList mnemonic)
    let operand ← readNumber? (rest.takeWhile (· != ' '))
    pure (op, some operand)

theorem blank_notMem_mnemonic (op : Opcode) : ' ' ∉ op.mnemonic.toList := by
  cases op <;> decide

/-- The words tell the opcode, and the operand if it takes one. -/
theorem readWords?_describe (f : Function) (i : Instruction) (offset : Nat) :
    readWords? (describe f i offset).toList = some (i.opcode,
      if i.opcode.operandKind = .none then none else some i.operand.toNat) := by
  by_cases hkind : i.opcode.operandKind = .none
  · rw [describe_of_operandKind_eq_none hkind, readWords?,
      cut?_eq_none (blank_notMem_mnemonic _), if_pos hkind]
    simp
  · have hwords : (describe f i offset).toList = i.opcode.mnemonic.toList ++ ' ' ::
        (Nat.toDigits 10 i.operand.toNat ++
          ((comment? f i offset).elim "" (" ; " ++ ·)).toList) := by
      rw [describe_of_operandKind_ne_none hkind]
      simp
    have hdigits : (Nat.toDigits 10 i.operand.toNat ++
        ((comment? f i offset).elim "" (" ; " ++ ·)).toList).takeWhile (· != ' ') =
          Nat.toDigits 10 i.operand.toNat := by
      rw [List.takeWhile_append_of_pos fun c hc => ?_]
      · cases comment? f i offset <;> simp
      · simp only [bne_iff_ne, ne_eq]
        rintro rfl
        exact notMem_toDigits rfl _ hc
    rw [hwords, readWords?, cut?_append (blank_notMem_mnemonic _), if_neg hkind]
    simp [hdigits, readNumber?_toDigits]

end Words

end Tripwire
