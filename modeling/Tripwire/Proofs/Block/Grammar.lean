import Mathlib.Order.Bounds.Basic
import Tripwire.Proofs.Block.RoundTrip

/-!
# The grammar of code

Code is a sequence of phrases. A phrase is up to three words of `extendedArg`, which
carry the higher bytes of an operand, and one word of another opcode. The reader
accepts exactly the sequences of phrases. Of any other words it reads the phrases
that are whole, and the words behind them tell why it stops there.

* `Phrase`: the words of one instruction, and the instruction they say;
* `Splits`: bytes that are a sequence of phrases;
* `Stuck`: words with which no phrase begins, and the fault for which they are refused;
* `exists_phrases`: phrases as far as they go, with `isPrefix_of_phrases` for any others;
* `Block.decodeWords_phrases`, `Block.decodeWords_of_stuck`: what the reader makes of both;
* `Block.decode_spec`: which bytes are code, and the first fault of those that are not.
-/

namespace Tripwire

/-- Words of `extendedArg` that carry some bytes. -/
def carriers (run : List UInt8) : List Word := run.map fun byte => (Opcode.byte .extendedArg, byte)

/-- The number that is written in some bytes, the most significant one first. -/
def bigEndian (bytes : List UInt8) : Nat := bytes.foldl (fun n byte => n * 256 + byte.toNat) 0

/-- The words of one instruction: those that carry the higher bytes of its operand, and the one with
its opcode and the lowest byte. -/
@[ext]
structure Phrase where
  carried : List UInt8
  opcode : Opcode
  low : UInt8
  length_le : carried.length ≤ 3
  ne_extendedArg : opcode ≠ .extendedArg
  deriving DecidableEq, Repr

namespace Phrase

/-- The words of a phrase. -/
def words (p : Phrase) : List Word := carriers p.carried ++ [(p.opcode.byte, p.low)]

/-- The instruction that a phrase says. It is as wide as the phrase has words. -/
def instruction (p : Phrase) : Instruction :=
  ⟨p.opcode, UInt32.ofNat (bigEndian (p.carried ++ [p.low])), p.carried.length + 1⟩

end Phrase

/-- The bytes are those of the phrases, one after the other. -/
def Splits (bytes : List UInt8) (ps : List Phrase) : Prop :=
  bytesOf (ps.flatMap Phrase.words) = bytes

/-- No phrase begins with these words, the first of which stands at `p`, and they are refused with
this fault. -/
inductive Stuck (p : Nat) : List Word → DecodeFault → Prop
  /-- Five words carry more bytes than an operand has. -/
  | overlong {run : List UInt8} (rest : List Word) (h : 5 ≤ run.length) :
      Stuck p (carriers run ++ rest) (.operandOverflow (UInt32.ofNat p))
  /-- Four words leave no room for the byte next to the opcode. -/
  | overflow {run : List UInt8} (opcode : Opcode) (low : UInt8) (rest : List Word)
      (h : run.length = 4) (hopcode : opcode ≠ .extendedArg) :
      Stuck p (carriers run ++ (opcode.byte, low) :: rest) (.operandOverflow (UInt32.ofNat p))
  /-- A byte that is no opcode, and no fifth word in front of it. -/
  | invalid {run : List UInt8} (code low : UInt8) (rest : List Word) (h : run.length ≤ 4)
      (hcode : Opcode.ofByte? code = none) :
      Stuck p (carriers run ++ (code, low) :: rest)
        (.invalidOpcode (UInt32.ofNat (p + 2 * run.length)) code)
  /-- The end, and no fifth word in front of it. -/
  | dangling {run : List UInt8} (h : 1 ≤ run.length) (h' : run.length ≤ 4) :
      Stuck p (carriers run) (.danglingPrefix (UInt32.ofNat p))

/-! ### Words as phrases -/

theorem bytesOf_append (ws ws' : List Word) : bytesOf (ws ++ ws') = bytesOf ws ++ bytesOf ws' :=
  List.flatMap_append

@[simp] theorem carriers_nil : carriers [] = [] := rfl

@[simp] theorem carriers_cons (byte : UInt8) (run : List UInt8) :
    carriers (byte :: run) = (Opcode.byte .extendedArg, byte) :: carriers run := rfl

theorem carriers_append (run run' : List UInt8) :
    carriers (run ++ run') = carriers run ++ carriers run' :=
  List.map_append

/-- Words that begin with some carriers, and whose first word that is none is `w`, have these among
those in front of it. -/
theorem exists_of_carriers_append {run run' : List UInt8} {rest rest' : List Word} {w : Word}
    (h : carriers run ++ rest = carriers run' ++ w :: rest')
    (hw : w.1 ≠ Opcode.byte .extendedArg) :
    ∃ more, run' = run ++ more ∧ rest = carriers more ++ w :: rest' := by
  induction run generalizing run' with
  | nil => exact ⟨run', rfl, h⟩
  | cons byte run ih =>
    cases run' with
    | nil =>
      obtain ⟨rfl, -⟩ := List.cons.inj h
      exact absurd rfl hw
    | cons byte' run' =>
      obtain ⟨hhead, htail⟩ := List.cons.inj h
      cases hhead
      obtain ⟨more, rfl, hrest⟩ := ih htail
      exact ⟨more, rfl, hrest⟩

/-- Words begin with carriers, and then end or go on with another one. -/
theorem exists_run (ws : List Word) : ∃ run rest, ws = carriers run ++ rest ∧
    ∀ w ∈ rest.head?, w.1 ≠ Opcode.byte .extendedArg := by
  induction ws with
  | nil => exact ⟨[], [], rfl, by simp⟩
  | cons w ws ih =>
    by_cases hw : w.1 = Opcode.byte .extendedArg
    · obtain ⟨run, rest, rfl, hrest⟩ := ih
      exact ⟨w.2 :: run, rest, by rw [carriers_cons, ← hw, List.cons_append], hrest⟩
    · exact ⟨[], w :: ws, rfl, by simpa using hw⟩

namespace Phrase

variable {p q : Phrase} {ws ws' : List Word}

theorem words_append (p : Phrase) (ws : List Word) :
    p.words ++ ws = carriers p.carried ++ (p.opcode.byte, p.low) :: ws := by
  rw [words, List.append_assoc, List.singleton_append]

theorem byte_ne (p : Phrase) : p.opcode.byte ≠ Opcode.byte .extendedArg :=
  fun h => p.ne_extendedArg (Opcode.byte_injective h)

/-- Words begin with one phrase at most. -/
theorem append_inj (h : p.words ++ ws = q.words ++ ws') : p = q ∧ ws = ws' := by
  rw [words_append, words_append] at h
  obtain ⟨more, hcarried, hrest⟩ := exists_of_carriers_append h q.byte_ne
  cases more with
  | nil =>
    obtain ⟨hword, hws⟩ := List.cons.inj hrest
    obtain ⟨hbyte, hlow⟩ := Prod.mk.inj hword
    rw [List.append_nil] at hcarried
    exact ⟨Phrase.ext hcarried.symm (Opcode.byte_injective hbyte) hlow, hws⟩
  | cons byte more =>
    obtain ⟨hword, -⟩ := List.cons.inj hrest
    exact absurd (congrArg Prod.fst hword) p.byte_ne

/-- Words that begin with a phrase are not refused. -/
theorem not_stuck {n : Nat} {fault : DecodeFault} : ¬ Stuck n (p.words ++ ws) fault := by
  intro h
  generalize hws : p.words ++ ws = all at h
  rw [words_append] at hws
  have hlength := p.length_le
  cases h with
  | overlong rest h =>
    obtain ⟨more, hcarried, -⟩ := exists_of_carriers_append hws.symm p.byte_ne
    rw [hcarried, List.length_append] at hlength
    omega
  | overflow opcode low rest h hopcode =>
    obtain ⟨more, hcarried, -⟩ := exists_of_carriers_append hws.symm p.byte_ne
    rw [hcarried, List.length_append] at hlength
    omega
  | invalid code low rest h hcode =>
    obtain ⟨more, -, hrest⟩ := exists_of_carriers_append hws.symm p.byte_ne
    cases more with
    | nil =>
      obtain ⟨hword, -⟩ := List.cons.inj hrest
      rw [(Prod.mk.inj hword).1, Opcode.ofByte?_byte] at hcode
      cases hcode
    | cons byte more =>
      obtain ⟨hword, -⟩ := List.cons.inj hrest
      rw [(Prod.mk.inj hword).1, Opcode.ofByte?_byte] at hcode
      cases hcode
  | @dangling run h h' =>
    have hend : carriers run ++ [] = carriers p.carried ++ (p.opcode.byte, p.low) :: ws := by
      rw [List.append_nil, hws]
    obtain ⟨more, -, hrest⟩ := exists_of_carriers_append hend p.byte_ne
    simp at hrest

end Phrase

/-- Some words are refused, or begin with a phrase. -/
theorem stuck_or_phrase (n : Nat) {ws : List Word} (h : ws ≠ []) :
    (∃ fault, Stuck n ws fault) ∨ ∃ (p : Phrase) (rest : List Word), ws = p.words ++ rest := by
  obtain ⟨run, rest, rfl, hrest⟩ := exists_run ws
  by_cases hlong : 5 ≤ run.length
  · exact .inl ⟨_, .overlong rest hlong⟩
  cases rest with
  | nil =>
    rw [List.append_nil] at h ⊢
    have hrun : run ≠ [] := fun hrun => h (by rw [hrun, carriers_nil])
    exact .inl ⟨_, .dangling (List.length_pos_of_ne_nil hrun) (by omega)⟩
  | cons w rest =>
    obtain ⟨code, low⟩ := w
    have hcode : code ≠ Opcode.byte .extendedArg := by simpa using hrest
    cases hopcode : Opcode.ofByte? code with
    | none => exact .inl ⟨_, .invalid code low rest (by omega) hopcode⟩
    | some opcode =>
      obtain rfl := Opcode.ofByte?_eq_some_iff.1 hopcode
      have hne : opcode ≠ .extendedArg := fun h => hcode (congrArg Opcode.byte h)
      by_cases hfull : run.length = 4
      · exact .inl ⟨_, .overflow opcode low rest hfull hne⟩
      · let p : Phrase := ⟨run, opcode, low, by omega, hne⟩
        exact .inr ⟨p, rest, (p.words_append rest).symm⟩

theorem length_words (ps : List Phrase) :
    (ps.flatMap Phrase.words).length * wordSize = Block.size (ps.map Phrase.instruction) := by
  induction ps with
  | nil => rfl
  | cons p ps ih =>
    rw [List.flatMap_cons, List.length_append, Nat.add_mul, ih, List.map_cons, Block.size_cons]
    simp [Phrase.words, Phrase.instruction, Instruction.size, carriers]

/-- Words are phrases up to the end or up to some that are refused. -/
theorem exists_phrases (n : Nat) (ws : List Word) : ∃ (ps : List Phrase) (rest : List Word),
    ws = ps.flatMap Phrase.words ++ rest ∧ (rest ≠ [] →
      ∃ fault, Stuck (n + Block.size (ps.map Phrase.instruction)) rest fault) := by
  induction hlength : ws.length using Nat.strong_induction_on generalizing n ws with
  | _ length ih =>
    by_cases hws : ws = []
    · exact ⟨[], [], hws, fun h => absurd rfl h⟩
    · rcases stuck_or_phrase n hws with hstuck | ⟨p, more, rfl⟩
      · exact ⟨[], ws, rfl, fun _ => hstuck⟩
      · have hshorter : more.length < length := by
          rw [← hlength, List.length_append, Phrase.words, List.length_append, List.length_singleton]
          omega
        obtain ⟨ps, rest, rfl, hrest⟩ := ih _ hshorter (n + p.instruction.size) more rfl
        refine ⟨p :: ps, rest, by rw [List.flatMap_cons, List.append_assoc], fun h => ?_⟩
        rw [List.map_cons, Block.size_cons, ← Nat.add_assoc]
        exact hrest h

/-- No phrases go further than those that go as far as they can. -/
theorem isPrefix_of_phrases {n : Nat} {ps qs : List Phrase} {rest more : List Word}
    (h : qs.flatMap Phrase.words ++ more = ps.flatMap Phrase.words ++ rest)
    (hrest : rest ≠ [] → ∃ fault, Stuck n rest fault) : qs <+: ps := by
  induction qs generalizing ps with
  | nil => exact List.nil_prefix
  | cons q qs ih =>
    rw [List.flatMap_cons, List.append_assoc] at h
    cases ps with
    | nil =>
      have hne : rest ≠ [] := by
        rintro rfl
        simp [Phrase.words] at h
      obtain ⟨fault, hstuck⟩ := hrest hne
      rw [List.flatMap_nil, List.nil_append] at h
      exact absurd (h ▸ hstuck) q.not_stuck
    | cons p ps =>
      rw [List.flatMap_cons, List.append_assoc] at h
      obtain ⟨rfl, htail⟩ := Phrase.append_inj h
      exact List.cons_prefix_cons.2 ⟨rfl, ih htail⟩

theorem Splits.unique {bytes : List UInt8} {ps qs : List Phrase} (h : Splits bytes ps)
    (h' : Splits bytes qs) : qs = ps := by
  have hwords : qs.flatMap Phrase.words ++ [] = ps.flatMap Phrase.words ++ [] := by
    rw [← wordsOf_bytesOf (qs.flatMap _), ← wordsOf_bytesOf (ps.flatMap _), h, h']
  have hle : qs <+: ps := isPrefix_of_phrases (n := 0) hwords fun hne => absurd rfl hne
  have hge : ps <+: qs := isPrefix_of_phrases (n := 0) hwords.symm fun hne => absurd rfl hne
  exact hle.eq_of_length_le hge.length_le

/-! ### What the reader makes of them -/

/-- An operand with one more byte. -/
def pushByte (operand : UInt32) (byte : UInt8) : UInt32 := operand <<< 8 ||| byte.toUInt32

/-- Bytes that are pushed one by one are a number written in bytes. -/
theorem toNat_foldl_pushByte {width : Nat} {operand : UInt32} (bytes : List UInt8)
    (hoperand : operand.toNat < 256 ^ width) (h : width + bytes.length ≤ 4) :
    (bytes.foldl pushByte operand).toNat =
      bytes.foldl (fun n byte => n * 256 + byte.toNat) operand.toNat := by
  induction bytes generalizing width operand with
  | nil => rfl
  | cons byte bytes ih =>
    rw [List.length_cons] at h
    have hsmall : operand.toNat < 0x1000000 :=
      hoperand.trans_le (Nat.pow_le_pow_right (by decide) (by omega : width ≤ 3))
    have hpushed : (pushByte operand byte).toNat = operand.toNat * 256 + byte.toNat :=
      toNat_pushByte byte hsmall
    have hbyte := byte.toNat_lt
    have hnext : (pushByte operand byte).toNat < 256 ^ (width + 1) := by
      rw [hpushed, Nat.pow_succ]
      omega
    rw [List.foldl_cons, List.foldl_cons, ih hnext (by omega), hpushed]

theorem Phrase.operand_eq (p : Phrase) :
    (p.carried ++ [p.low]).foldl pushByte 0 = p.instruction.operand := by
  have hlength := p.length_le
  have hzero : (0 : UInt32).toNat < 256 ^ 0 := by decide
  have hnat := toNat_foldl_pushByte (p.carried ++ [p.low]) hzero
    (by rw [List.length_append, List.length_singleton]; omega)
  show _ = UInt32.ofNat (bigEndian _)
  rw [bigEndian, ← UInt32.toNat_zero, ← hnat, UInt32.ofNat_toNat]

namespace Block

variable {start width : Nat} {operand : UInt32}

theorem decodeWords_carriers {run : List UInt8} (rest : List Word)
    (h : width + run.length ≤ maximalWidth) :
    decodeWords start operand width (carriers run ++ rest) =
      decodeWords start (run.foldl pushByte operand) (width + run.length) rest := by
  induction run generalizing width operand with
  | nil => rfl
  | cons byte run ih =>
    rw [List.length_cons] at h
    have hroom : ¬ maximalWidth ≤ width := by omega
    rw [carriers_cons, List.cons_append, decodeWords]
    simp only [Opcode.ofByte?_byte, if_neg hroom, if_true]
    rw [← pushByte, ih (by omega), List.foldl_cons, List.length_cons,
      show width + 1 + run.length = width + (run.length + 1) by omega]

theorem decodeWords_phrase (start : Nat) (p : Phrase) (rest : List Word) :
    decodeWords start 0 0 (p.words ++ rest) =
      (decodeWords (start + p.instruction.size) 0 0 rest).map (p.instruction :: ·) := by
  have hlength := p.length_le
  have hroom : ¬ maximalWidth ≤ 0 + p.carried.length := by
    simp only [maximalWidth]
    omega
  have hoperand := p.operand_eq
  rw [List.foldl_append, List.foldl_cons, List.foldl_nil, pushByte] at hoperand
  have hread : (⟨p.opcode, p.instruction.operand, 0 + p.carried.length + 1⟩ : Instruction) =
      p.instruction := by
    rw [Nat.zero_add]
    rfl
  rw [p.words_append, decodeWords_carriers _ (by omega), decodeWords]
  simp only [Opcode.ofByte?_byte, if_neg hroom, p.ne_extendedArg, if_false, hoperand, hread]

/-- Phrases are read one after the other. -/
theorem decodeWords_phrases (start : Nat) (ps : List Phrase) (rest : List Word) :
    decodeWords start 0 0 (ps.flatMap Phrase.words ++ rest) =
      (decodeWords (start + size (ps.map Phrase.instruction)) 0 0 rest).map
        (ps.map Phrase.instruction ++ ·) := by
  induction ps generalizing start with
  | nil =>
    rw [List.flatMap_nil, List.nil_append, List.map_nil, size_nil, Nat.add_zero]
    cases decodeWords start 0 0 rest <;> rfl
  | cons p ps ih =>
    rw [List.flatMap_cons, List.append_assoc, decodeWords_phrase, ih, List.map_cons, size_cons,
      ← Nat.add_assoc]
    cases decodeWords (start + p.instruction.size + size (ps.map Phrase.instruction)) 0 0 rest <;> rfl

theorem decodeWords_of_full (opcode : Opcode) (low : UInt8) (rest : List Word) :
    decodeWords start operand maximalWidth ((opcode.byte, low) :: rest) =
      .error (.operandOverflow (UInt32.ofNat start)) := by
  simp [decodeWords]

/-- Where no phrase begins the reader tells the fault. -/
theorem decodeWords_of_stuck {ws : List Word} {fault : DecodeFault} (h : Stuck start ws fault) :
    decodeWords start 0 0 ws = .error fault := by
  cases h with
  | @overlong run rest h =>
    -- The fifth word is the one that is refused.
    have hsplit : carriers run = carriers (run.take 4) ++ carriers (run.drop 4) := by
      rw [← carriers_append, List.take_append_drop]
    obtain ⟨byte, more, hdrop⟩ : ∃ byte more, run.drop 4 = byte :: more :=
      List.exists_cons_of_length_pos (by rw [List.length_drop]; omega)
    have hfour : 0 + (run.take 4).length = maximalWidth := by
      rw [List.length_take, Nat.zero_add]
      exact Nat.min_eq_left (by omega)
    rw [hsplit, hdrop, List.append_assoc, decodeWords_carriers _ hfour.le, hfour, carriers_cons,
      List.cons_append, decodeWords_of_full]
  | @overflow run opcode low rest h hopcode =>
    have hfour : 0 + run.length = maximalWidth := by rw [h]; rfl
    rw [decodeWords_carriers _ hfour.le, hfour, decodeWords_of_full]
  | @invalid run code low rest h hcode =>
    rw [decodeWords_carriers _ (by simp only [maximalWidth]; omega), decodeWords]
    simp only [hcode, wordSize, Nat.zero_add, Nat.mul_comm]
  | @dangling run h h' =>
    rw [← List.append_nil (carriers run),
      decodeWords_carriers _ (by simp only [maximalWidth]; omega), decodeWords, if_neg (by omega)]

variable {bytes : List UInt8}

theorem decode_of_splits {ps : List Phrase} (h : Splits bytes ps) :
    decode bytes = .ok (ps.map Phrase.instruction) := by
  have heven : bytes.length % wordSize = 0 := by
    rw [← h, length_bytesOf]
    exact Nat.mul_mod_left _ _
  have hread := decodeWords_phrases 0 ps []
  rw [List.append_nil, decodeWords, if_pos rfl] at hread
  rw [decode, if_pos heven, ← h, wordsOf_bytesOf, hread]
  simp [Except.map]

/-- Bytes are phrases as far as they go, and then the reader is at the end or refuses what follows. -/
theorem exists_phrases_of_even (heven : bytes.length % wordSize = 0) :
    ∃ (ps : List Phrase) (rest : List Word), bytes = bytesOf (ps.flatMap Phrase.words) ++ bytesOf rest ∧
      (rest ≠ [] → ∃ fault, Stuck (bytesOf (ps.flatMap Phrase.words)).length rest fault) ∧
      ∀ fault, decode bytes = .error fault ↔
        Stuck (bytesOf (ps.flatMap Phrase.words)).length rest fault := by
  obtain ⟨ps, rest, hwords, hrest⟩ := exists_phrases 0 (wordsOf bytes)
  have hbytes := bytesOf_wordsOf bytes heven
  rw [hwords, bytesOf_append] at hbytes
  have hsize : 0 + size (ps.map Phrase.instruction) = (bytesOf (ps.flatMap Phrase.words)).length := by
    rw [length_bytesOf, length_words, Nat.zero_add]
  have hread : decode bytes = (decodeWords (0 + size (ps.map Phrase.instruction)) 0 0 rest).map
      (ps.map Phrase.instruction ++ ·) := by
    rw [decode, if_pos heven, hwords, decodeWords_phrases]
  rw [hsize] at hrest hread
  refine ⟨ps, rest, hbytes.symm, hrest, fun fault => ?_⟩
  constructor
  · intro hfault
    by_cases hend : rest = []
    · rw [hread, hend, decodeWords, if_pos rfl] at hfault
      cases hfault
    · obtain ⟨fault', hstuck⟩ := hrest hend
      rw [hread, decodeWords_of_stuck hstuck] at hfault
      cases hfault
      exact hstuck
  · intro hstuck
    rw [hread, decodeWords_of_stuck hstuck]
    rfl

/-- Exactly the sequences of phrases are code. -/
theorem decode_eq_ok_iff {b : Block} :
    decode bytes = .ok b ↔ ∃ ps, Splits bytes ps ∧ ps.map Phrase.instruction = b := by
  constructor
  · intro h
    obtain ⟨ps, rest, hbytes, hrest, hfault⟩ := exists_phrases_of_even (even_of_decode h)
    have hend : rest = [] := by
      by_contra hne
      obtain ⟨fault, hstuck⟩ := hrest hne
      rw [(hfault fault).2 hstuck] at h
      cases h
    rw [hend, bytesOf_nil, List.append_nil] at hbytes
    have hread := decode_of_splits hbytes.symm
    rw [h] at hread
    exact ⟨ps, hbytes.symm, (Except.ok.inj hread).symm⟩
  · rintro ⟨ps, hsplits, rfl⟩
    exact decode_of_splits hsplits

/-- The longest leading part that is code ends with the phrases. -/
theorem isGreatest_of_phrases {n : Nat} {ps : List Phrase} {rest : List Word}
    (heven : bytes.length % wordSize = 0)
    (hbytes : bytes = bytesOf (ps.flatMap Phrase.words) ++ bytesOf rest)
    (hrest : rest ≠ [] → ∃ fault, Stuck n rest fault) :
    IsGreatest {q | q ≤ bytes.length ∧ ∃ b, decode (bytes.take q) = .ok b}
      (bytesOf (ps.flatMap Phrase.words)).length := by
  refine ⟨⟨?_, ps.map Phrase.instruction, ?_⟩, ?_⟩
  · rw [hbytes, List.length_append]
    exact Nat.le_add_right _ _
  · refine decode_of_splits ?_
    rw [Splits, hbytes, List.take_left]
  · rintro q ⟨hq, b, hb⟩
    obtain ⟨qs, hqs, -⟩ := decode_eq_ok_iff.1 hb
    -- What follows the part that is read is of even length, since all of it and the part are.
    have hdrop : (bytes.drop q).length % wordSize = 0 := by
      have hpart := even_of_decode hb
      rw [List.length_take, Nat.min_eq_left hq] at hpart
      rw [List.length_drop]
      simp only [wordSize] at heven hpart ⊢
      omega
    have hwords : qs.flatMap Phrase.words ++ wordsOf (bytes.drop q) =
        ps.flatMap Phrase.words ++ rest := by
      rw [← wordsOf_bytesOf (qs.flatMap _ ++ _), ← wordsOf_bytesOf (ps.flatMap _ ++ _),
        bytesOf_append, bytesOf_append, ← hbytes, bytesOf_wordsOf _ hdrop, hqs,
        List.take_append_drop]
    have hlength : (bytesOf (qs.flatMap Phrase.words)).length = q := by
      rw [hqs, List.length_take, Nat.min_eq_left hq]
    obtain ⟨more, rfl⟩ := isPrefix_of_phrases hwords hrest
    rw [← hlength, List.flatMap_append, bytesOf_append, List.length_append]
    exact Nat.le_add_right _ _

/-- Bytes are code exactly when they are phrases, in the one way there is. Of other bytes the longest
leading part that is code ends where the reader stops, and what stands there tells the fault. -/
theorem decode_spec (bytes : List UInt8) :
    (∀ n, decode bytes = .error (.oddLength n) ↔ bytes.length % 2 = 1 ∧ n = bytes.length) ∧
    (∀ b, decode bytes = .ok b ↔ ∃ ps, Splits bytes ps ∧ (∀ qs, Splits bytes qs → qs = ps) ∧
      ps.map Phrase.instruction = b) ∧
    (bytes.length % 2 = 0 → ∃ p,
      IsGreatest {q | q ≤ bytes.length ∧ ∃ b, decode (bytes.take q) = .ok b} p ∧
        ∀ fault, decode bytes = .error fault ↔ Stuck p (wordsOf (bytes.drop p)) fault) := by
  refine ⟨fun n => ?_, fun b => ?_, fun heven => ?_⟩
  · rcases Nat.mod_two_eq_zero_or_one bytes.length with heven | hodd
    · obtain ⟨ps, rest, -, -, hfault⟩ := exists_phrases_of_even heven
      rw [hfault]
      constructor
      · rintro ⟨⟩
      · rintro ⟨hodd, -⟩
        omega
    · rw [decode, if_neg (by simp only [wordSize]; omega)]
      simp [hodd, eq_comm]
  · rw [decode_eq_ok_iff]
    refine exists_congr fun ps => and_congr_right fun hps => ?_
    exact ⟨fun h => ⟨fun qs hqs => hps.unique hqs, h⟩, And.right⟩
  · obtain ⟨ps, rest, hbytes, hrest, hfault⟩ := exists_phrases_of_even heven
    refine ⟨_, isGreatest_of_phrases heven hbytes hrest, fun fault => ?_⟩
    rw [hfault, hbytes, List.drop_left, wordsOf_bytesOf]

/-- Where the byte behind four carriers is no opcode, this is the fault and not their number. -/
theorem exists_stuck_invalid : ∃ p,
    IsGreatest {q | q ≤ 12 ∧
      ∃ b, decode ([0x00, 0, 0x7F, 1, 0x7F, 2, 0x7F, 3, 0x7F, 4, 0xEE, 5].take q) = .ok b} p ∧
    Stuck p (wordsOf ([0x00, 0, 0x7F, 1, 0x7F, 2, 0x7F, 3, 0x7F, 4, 0xEE, 5].drop p))
      (.invalidOpcode 10 0xEE) := by
  obtain ⟨p, hp, hfault⟩ :=
    (decode_spec [0x00, 0, 0x7F, 1, 0x7F, 2, 0x7F, 3, 0x7F, 4, 0xEE, 5]).2.2 rfl
  exact ⟨p, hp, (hfault _).1 (by decide)⟩

end Block

end Tripwire
