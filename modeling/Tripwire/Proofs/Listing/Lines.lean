import Mathlib.Tactic.Common
import Tripwire.Proofs.Listing.Reading
import Tripwire.Text.Blank

/-!
# The lines of listings

Constants are quoted and fit on one line, whatever they hold, but names are printed as they
are. A name with a line feed continues on a line of its own, which may look like any row.

* `Text.linesOf_append_newline`, `Text.linesOf_flatMap`: the lines of texts one after the other;
* `newline_notMem_text`: constants have no line feeds;
* `Instruction.name?`, `newline_mem_describe`: instructions have those of the name that they
  refer to;
* `Function.heading`, `newline_notMem_heading`: what stands above the rows.
-/

namespace Tripwire

/-! ### Lines -/

namespace Text

variable {cs rest line : List Char}

theorem linesOf_cons (c : Char) (cs : List Char) : linesOf (c :: cs) = lineStep c (linesOf cs) :=
  rfl

/-- There is always a line, if only an empty one. -/
theorem exists_linesOf_eq_cons (cs : List Char) : ∃ first more, linesOf cs = first :: more := by
  induction cs with
  | nil => exact ⟨[], [], rfl⟩
  | cons c cs ih =>
    obtain ⟨first, more, hlines⟩ := ih
    rw [linesOf_cons, hlines, lineStep]
    split
    · exact ⟨_, _, rfl⟩
    · exact ⟨_, _, rfl⟩

/-- A line feed begins a new line. -/
theorem linesOf_append_newline (cs rest : List Char) :
    linesOf (cs ++ '\n' :: rest) = linesOf cs ++ linesOf rest := by
  induction cs with
  | nil =>
    obtain ⟨first, more, hlines⟩ := exists_linesOf_eq_cons rest
    rw [List.nil_append, linesOf_cons, hlines]
    rfl
  | cons c cs ih =>
    obtain ⟨first, more, hlines⟩ := exists_linesOf_eq_cons cs
    rw [List.cons_append, linesOf_cons, ih, linesOf_cons, hlines, List.cons_append, lineStep,
      lineStep]
    split <;> rfl

/-- Lines have no line feeds. -/
theorem newline_notMem_of_mem_linesOf (h : line ∈ linesOf cs) : '\n' ∉ line := by
  induction cs generalizing line with
  | nil =>
    rw [List.mem_singleton.1 h]
    exact List.not_mem_nil
  | cons c cs ih =>
    obtain ⟨first, more, hlines⟩ := exists_linesOf_eq_cons cs
    rw [hlines] at ih
    rw [linesOf_cons, hlines, lineStep] at h
    split at h
    · rcases List.mem_cons.1 h with rfl | h
      · exact List.not_mem_nil
      · exact ih h
    · rename_i hc
      rcases List.mem_cons.1 h with rfl | h
      · rw [List.mem_cons, not_or]
        exact ⟨Ne.symm hc, ih (List.mem_cons_self ..)⟩
      · exact ih (List.mem_cons_of_mem _ h)

/-- The lines of texts each of which is ended by a line feed. -/
theorem linesOf_flatMap (texts : List (List Char)) :
    linesOf (texts.flatMap (· ++ ['\n'])) = texts.flatMap linesOf ++ [[]] := by
  induction texts with
  | nil => rfl
  | cons text texts ih =>
    rw [List.flatMap_cons, List.append_assoc, List.singleton_append, linesOf_append_newline, ih,
      List.flatMap_cons, List.append_assoc]

/-- Texts are the lines of what they make up exactly when none of them has a line feed. -/
theorem flatMap_linesOf_eq_self_iff {texts : List (List Char)} :
    texts.flatMap linesOf = texts ↔ ∀ text ∈ texts, '\n' ∉ text := by
  constructor
  · intro h text htext
    rw [← h] at htext
    obtain ⟨text', -, hline⟩ := List.mem_flatMap.1 htext
    exact newline_notMem_of_mem_linesOf hline
  · intro h
    induction texts with
    | nil => rfl
    | cons text texts ih =>
      obtain ⟨hhead, htail⟩ := List.forall_mem_cons.1 h
      rw [List.flatMap_cons, linesOf_eq_singleton hhead, ih htail, List.singleton_append]

end Text

/-! ### Constants -/

theorem newline_notMem_toDigits {base : Nat} (h : 1 < base) (n : Nat) :
    '\n' ∉ Nat.toDigits base n := by
  induction n using Nat.strong_induction_on with
  | h n ih =>
    have hdigit : ∀ d, '\n' ∉ [Nat.digitChar d] := fun d hd =>
      Nat.digitChar_ne '\n' rfl (List.mem_singleton.1 hd).symm
    rw [Nat.toDigits_eq_if h]
    split
    · exact hdigit n
    · rw [List.mem_append, not_or]
      exact ⟨ih (n / base) (Nat.div_lt_self (by omega) h), hdigit _⟩

theorem newline_notMem_toString (n : Nat) : '\n' ∉ (toString n).toList := by
  rw [toList_toString]
  exact newline_notMem_toDigits (by decide) n

theorem newline_notMem_toString_int (n : Int) : '\n' ∉ (toString n).toList := by
  cases n with
  | ofNat n => exact newline_notMem_toString n
  | negSucc n =>
    have hsign : toString (Int.negSucc n) = "-" ++ toString (n + 1) := rfl
    rw [hsign, String.toList_append, List.mem_append, not_or]
    exact ⟨by decide, newline_notMem_toString (n + 1)⟩

theorem newline_notMem_digitText (digits : List Nat) : '\n' ∉ Double.digitText digits := by
  intro h
  obtain ⟨d, -, hd⟩ := List.mem_map.1 h
  exact Nat.digitChar_ne '\n' rfl hd

theorem newline_notMem_positional (x : Double.Decimal) : '\n' ∉ x.positional := by
  have hdigits := newline_notMem_digitText x.digits
  unfold Double.Decimal.positional
  split
  · simp [hdigits]
  · simp only
    split
    · simp [hdigits]
    · have htake := fun h => hdigits (List.mem_of_mem_take (i := x.point.toNat) h)
      have hdrop := fun h => hdigits (List.mem_of_mem_drop (i := x.point.toNat) h)
      simp only [List.mem_append, List.mem_cons, not_or]
      exact ⟨htake, by decide, hdrop⟩

theorem newline_notMem_scientific (x : Double.Decimal) : '\n' ∉ x.scientific := by
  have hdigits := newline_notMem_digitText x.digits
  have hexponent := newline_notMem_toString_int (x.point - 1)
  unfold Double.Decimal.scientific
  simp only [List.mem_append, List.mem_cons, not_or]
  refine ⟨?_, by decide, hexponent⟩
  split
  · rename_i first second rest htext
    simp only [htext, List.mem_cons, not_or] at hdigits ⊢
    exact ⟨hdigits.1, by decide, hdigits.2⟩
  · exact hdigits

theorem newline_notMem_magnitudeText (d : Double) : '\n' ∉ d.magnitudeText := by
  unfold Double.magnitudeText
  split
  · decide
  · split
    · decide
    · simp only
      split
      · exact newline_notMem_positional _
      · exact newline_notMem_scientific _

theorem newline_notMem_double (d : Double) : '\n' ∉ d.text.toList := by
  rw [Double.text, String.toList_ofList]
  split
  · decide
  · split
    · rw [List.mem_cons, not_or]
      exact ⟨by decide, newline_notMem_magnitudeText d⟩
    · exact newline_notMem_magnitudeText d

theorem newline_notMem_quoteChar (c : Char) : '\n' ∉ Text.quoteChar c := by
  by_cases hc : c = '\n'
  · subst hc
    decide
  · have hself : '\n' ∉ [c] := fun h => hc (List.mem_singleton.1 h).symm
    have hpoint : '\n' ∉ Text.pointEscape c := by
      simp only [Text.pointEscape, List.mem_append, not_or]
      exact ⟨⟨by decide, newline_notMem_toDigits (by decide) c.toNat⟩, by decide⟩
    unfold Text.quoteChar
    split
    case h_7 =>
      split
      · exact hself
      · split
        · exact hpoint
        · exact hself
    all_goals decide

/-- Quoting escapes line feeds. -/
theorem newline_notMem_quote (s : String) : '\n' ∉ (Text.quote s).toList := by
  rw [Text.quote, String.toList_ofList]
  simp only [List.mem_append, List.mem_cons, List.mem_flatMap, not_or]
  refine ⟨⟨by decide, ?_⟩, by decide⟩
  rintro ⟨c, -, hc⟩
  exact newline_notMem_quoteChar c hc

/-- Constants are printed without line feeds. -/
theorem newline_notMem_text (c : Constant) : '\n' ∉ c.text.toList := by
  cases c with
  | none => decide
  | bool value => cases value <;> decide
  | int value => exact newline_notMem_toString_int value
  | float value => exact newline_notMem_double value
  | str value => exact newline_notMem_quote value

/-! ### Instructions -/

/-- The name that an instruction refers to. -/
def Instruction.name? (i : Instruction) (f : Function) : Option String :=
  if i.opcode.operandKind = .name then f.names[i.operand.toNat]? else none

section Rows

variable {f : Function} {i : Instruction} {offset : Nat}

theorem mem_names_of_name? {name : String} (h : i.name? f = some name) : name ∈ f.names := by
  unfold Instruction.name? at h
  split at h
  · exact List.mem_of_getElem? h
  · cases h

theorem newline_notMem_mnemonic (op : Opcode) : '\n' ∉ op.mnemonic.toList := by
  cases op <;> decide

theorem newline_notMem_comparisonName? {arg : Nat} {name : String}
    (h : comparisonName? arg = some name) : '\n' ∉ name.toList := by
  have hall : ∀ name ∈ comparisonNames, '\n' ∉ name.toList := by decide
  exact hall name (List.mem_of_getElem? h)

/-- Of what is told of an operand only a name may have line feeds. -/
theorem newline_mem_comment? {comment : String} (h : comment? f i offset = some comment) :
    '\n' ∈ comment.toList ↔ ∃ name, i.name? f = some name ∧ '\n' ∈ name.toList := by
  rw [comment?] at h
  cases hkind : i.opcode.operandKind with
  | none => simp [hkind] at h
  | slot => simp [hkind] at h
  | count => simp [hkind] at h
  | const =>
    have hnone : '\n' ∉ comment.toList := by
      simp only [hkind, Option.some.injEq] at h
      subst h
      cases f.constants[i.operand.toNat]? with
      | none => decide
      | some c => exact newline_notMem_text c
    simp [Instruction.name?, hkind, hnone]
  | name =>
    simp only [hkind, Option.some.injEq] at h
    subst h
    simp only [Instruction.name?, hkind, if_true]
    cases f.names[i.operand.toNat]? with
    | none => simp
    | some name => simp
  | compare =>
    simp only [hkind] at h
    simp [Instruction.name?, hkind, newline_notMem_comparisonName? h]
  | jump =>
    have hnone : '\n' ∉ comment.toList := by
      simp only [hkind, Option.map_eq_some_iff] at h
      obtain ⟨target, -, rfl⟩ := h
      rw [String.toList_append, List.mem_append, not_or]
      exact ⟨by decide, newline_notMem_toString target⟩
    simp [Instruction.name?, hkind, hnone]

/-- The words of an instruction have the line feeds of the name that it refers to. -/
theorem newline_mem_describe : '\n' ∈ (describe f i offset).toList ↔
    ∃ name, i.name? f = some name ∧ '\n' ∈ name.toList := by
  have hmnemonic := newline_notMem_mnemonic i.opcode
  by_cases hkind : i.opcode.operandKind = .none
  · rw [describe_of_operandKind_eq_none hkind]
    simp [Instruction.name?, hkind, hmnemonic]
  · have hoperand := newline_notMem_toDigits (by decide : 1 < 10) i.operand.toNat
    rw [describe_of_operandKind_ne_none hkind]
    cases hcomment : comment? f i offset with
    | none =>
      have hname : i.opcode.operandKind ≠ .name := by
        intro hname
        simp [comment?, hname] at hcomment
      simp [Instruction.name?, hname, hmnemonic, hoperand]
    | some comment =>
      rw [← newline_mem_comment? hcomment]
      simp [hmnemonic, hoperand]

theorem newline_notMem_line_marker (shown : Option Nat) :
    '\n' ∉ (Row.marker shown).line := by
  rw [Row.line, List.mem_append, not_or]
  refine ⟨by decide, ?_⟩
  cases shown with
  | none => decide
  | some n => exact newline_notMem_toDigits (by decide) n

theorem newline_mem_line_code {bytes : List UInt8} {words : String} :
    '\n' ∈ (Row.code offset bytes words).line ↔ '\n' ∈ words.toList := by
  have hoffset : '\n' ∉ (fourDigits offset).toList := notMem_fourDigits rfl offset
  have hbytes : '\n' ∉ (hexText bytes).toList :=
    notMem_hexText bytes fun n => Nat.digitChar_ne '\n' rfl
  simp [Row.line, Row.toList_padRight, hoffset, hbytes]

end Rows

/-! ### The heading -/

/-- The lines of a pool. -/
def poolLines {α : Type} (title : String) (text : α → String) (pool : List α) : List (List Char) :=
  s!"{title} ({pool.length}):".toList ::
    pool.zipIdx.map fun (entry, index) => s!"  [{fourDigits index}] {text entry}".toList

/-- What a listing says of a function above its rows. -/
def Function.heading (f : Function) : List (List Char) :=
  s!"function {f.name} (stack {f.stackDepth}):".toList ::
    (poolLines "constants" Constant.text f.constants ++
      poolLines "names" (fun name => name) f.names ++ [s!"code ({f.code.length} bytes):".toList])

theorem toList_poolListing {α : Type} (title : String) (text : α → String) (pool : List α) :
    (poolListing title text pool).toList = (poolLines title text pool).flatMap (· ++ ['\n']) := by
  simp [poolListing, poolLines, toString, List.flatMap_map]

/-- A pool is printed without line feeds when all of its entries are. -/
theorem newline_notMem_poolLines {α : Type} {title : String} {text : α → String} {pool : List α}
    (htitle : '\n' ∉ title.toList) :
    (∀ line ∈ poolLines title text pool, '\n' ∉ line) ↔
      ∀ entry ∈ pool, '\n' ∉ (text entry).toList := by
  have hline : ∀ entry index, '\n' ∈ s!"  [{fourDigits index}] {text entry}".toList ↔
      '\n' ∈ (text entry).toList := by
    intro entry index
    have hindex : '\n' ∉ (fourDigits index).toList := notMem_fourDigits rfl index
    simp [toString, hindex]
  have htop : '\n' ∉ s!"{title} ({pool.length}):".toList := by
    simp [toString, htitle, newline_notMem_toDigits]
  rw [poolLines, List.forall_mem_cons]
  simp only [htop, not_false_iff, true_and, List.forall_mem_map, hline]
  constructor
  · intro h entry hentry
    obtain ⟨index, hindex⟩ := List.mem_iff_getElem?.1 hentry
    exact h (entry, index) (List.mem_zipIdx_iff_getElem?.2 hindex)
  · intro h entry hentry
    exact h entry.1 (List.mem_of_getElem? (List.mem_zipIdx_iff_getElem?.1 hentry))

/-- The lines above the rows have the line feeds of the name of the function and of the names in
its pool. -/
theorem newline_notMem_heading {f : Function} : (∀ line ∈ f.heading, '\n' ∉ line) ↔
    ∀ name ∈ f.name :: f.names, '\n' ∉ name.toList := by
  have htop : '\n' ∈ s!"function {f.name} (stack {f.stackDepth}):".toList ↔
      '\n' ∈ f.name.toList := by
    simp [toString, newline_notMem_toDigits]
  have hlast : '\n' ∉ s!"code ({f.code.length} bytes):".toList := by
    simp [toString, newline_notMem_toDigits]
  have hconstants : ∀ line ∈ poolLines "constants" Constant.text f.constants, '\n' ∉ line :=
    (newline_notMem_poolLines (by decide)).2 fun c _ => newline_notMem_text c
  have hnames : (∀ line ∈ poolLines "names" (fun name => name) f.names, '\n' ∉ line) ↔
      ∀ name ∈ f.names, '\n' ∉ name.toList := newline_notMem_poolLines (by decide)
  rw [Function.heading, List.forall_mem_cons, htop, List.forall_mem_cons]
  refine and_congr_right fun _ => ?_
  rw [List.forall_mem_append, List.forall_mem_append, List.forall_mem_singleton, hnames]
  exact ⟨fun h => h.1.2, fun h => ⟨⟨hconstants, h⟩, hlast⟩⟩

end Tripwire
