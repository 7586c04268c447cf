import Tripwire.Proofs.Assembly.Source

/-!
# Text constants in source text

Text is written between double quotes, with a backslash in front of what would end the
literal or its line. The line is read four times: for a comment, for the blanks around
the statement, for the opcode in front of the literal, and for the closing quote. All
of them find the literal whole, whatever the text.

* `literalChar`, `literalOf`: text as it is written, with `literalChar_cases`;
* `stripComment_literalOf`, `readQuoted_literal`: the two readers that know of quotes;
* `Text.trim_eq_self`, `Text.tokens_append`, `Text.afterTokens_one`: the two that know of blanks;
* `readStatement_load`: the statement of a line that loads a literal;
* `assemble_load_literalOf`: the function of such a line.
-/

namespace Tripwire

/-- A character between double quotes. -/
def literalChar : Char → List Char
  | '\n' => ['\\', 'n']
  | '\t' => ['\\', 't']
  | '\\' => ['\\', '\\']
  | '"' => ['\\', '"']
  | c => [c]

/-- The text between double quotes. -/
def literalOf (text : List Char) : List Char := '"' :: (text.flatMap literalChar ++ ['"'])

/-- A character is written as an escape that stands for it, or as itself when it neither ends the
literal or the line nor starts an escape. -/
theorem literalChar_cases (c : Char) :
    (∃ e, literalChar c = ['\\', e] ∧ unescape? e = some c ∧ e ≠ '\n') ∨
      literalChar c = [c] ∧ c ≠ '\\' ∧ c ≠ '"' ∧ c ≠ '\n' := by
  unfold literalChar
  split
  · exact .inl ⟨'n', rfl, rfl, by decide⟩
  · exact .inl ⟨'t', rfl, rfl, by decide⟩
  · exact .inl ⟨'\\', rfl, rfl, by decide⟩
  · exact .inl ⟨'"', rfl, rfl, by decide⟩
  · rename_i hnewline _ hbackslash hquote
    exact .inr ⟨rfl, hbackslash, hquote, hnewline⟩

/-! ### Readers that know of quotes -/

/-- Inside quotes nothing starts a comment, up to the quote that closes them. -/
theorem stripComment_literalOf (text rest : List Char) :
    stripComment .outside (literalOf text ++ rest) =
      literalOf text ++ stripComment .outside rest := by
  have hinside : ∀ text : List Char,
      stripComment .inside (text.flatMap literalChar ++ '"' :: rest) =
        text.flatMap literalChar ++ '"' :: stripComment .outside rest := by
    intro text
    induction text with
    | nil => simp [stripComment, Quoting.next]
    | cons c text ih =>
      rcases literalChar_cases c with ⟨e, hc, -, -⟩ | ⟨hc, hbackslash, hquote, -⟩
      · simp [hc, stripComment, Quoting.next, ih]
      · simp [hc, stripComment, Quoting.next, hbackslash, hquote, ih]
  simp [literalOf, stripComment, Quoting.next, hinside]

/-- The characters of a word in front of a literal start neither a comment nor a literal. -/
theorem stripComment_append (word : List Char) (h : ∀ c ∈ word, c ≠ '"' ∧ c ≠ ';' ∧ c ≠ '#')
    (rest : List Char) :
    stripComment .outside (word ++ rest) = word ++ stripComment .outside rest := by
  induction word with
  | nil => rfl
  | cons c word ih =>
    obtain ⟨hquote, hsemicolon, hhash⟩ := h c (List.mem_cons_self ..)
    have htail := ih fun d hd => h d (List.mem_cons_of_mem _ hd)
    simp [stripComment, Quoting.next, hquote, hsemicolon, hhash, htail]

/-- A literal ends at the quote that was written behind the text, and nowhere before. -/
theorem readQuoted_literal (text rest : List Char) :
    readQuoted (text.flatMap literalChar ++ '"' :: rest) = .ok (text, rest) := by
  induction text with
  | nil => simp [readQuoted]
  | cons c text ih =>
    rcases literalChar_cases c with ⟨e, hc, hescape, -⟩ | ⟨hc, hbackslash, hquote, -⟩
    · simp [hc, readQuoted, hescape, ih, Except.map]
    · simp [hc, readQuoted, hbackslash, ih, Except.map]

theorem newline_notMem_literalOf (text : List Char) : '\n' ∉ literalOf text := by
  have hinner : '\n' ∉ text.flatMap literalChar := by
    rw [List.mem_flatMap]
    rintro ⟨c, -, hmem⟩
    rcases literalChar_cases c with ⟨e, hc, -, he⟩ | ⟨hc, -, -, hnewline⟩
    · simp [hc, Ne.symm he] at hmem
    · simp [hc, Ne.symm hnewline] at hmem
  simp [literalOf, hinner]

/-! ### Readers that know of blanks -/

namespace Text

variable {c d : Char} {word : List Char}

/-- Text with blanks at neither end. -/
theorem trim_eq_self (hc : isBlank c = false) (middle : List Char) (hd : isBlank d = false) :
    trim (c :: (middle ++ [d])) = c :: (middle ++ [d]) := by
  have hback : (c :: (middle ++ [d])).reverse = d :: (middle.reverse ++ [c]) := by simp
  rw [trim, trimStart_cons_of_not_blank hc, trimEnd, hback, trimStart_cons_of_not_blank hd, ← hback,
    List.reverse_reverse]

theorem foldr_tokenStep_ne_nil (cs : List Char) : cs.foldr tokenStep [[]] ≠ [] := by
  induction cs with
  | nil => simp
  | cons c cs ih =>
    obtain ⟨token, others, h⟩ := List.exists_cons_of_ne_nil ih
    rw [List.foldr_cons, h, tokenStep]
    split <;> simp

/-- A word joins the token behind it. -/
theorem foldr_tokenStep_word (hword : ∀ c ∈ word, isBlank c = false) (token : List Char)
    (others : List (List Char)) :
    word.foldr tokenStep (token :: others) = (word ++ token) :: others := by
  induction word with
  | nil => rfl
  | cons c word ih =>
    have htail := ih fun d hd => hword d (List.mem_cons_of_mem _ hd)
    simp [htail, tokenStep, hword c (List.mem_cons_self ..)]

/-- A word with a blank behind it is the first token. -/
theorem tokens_append (hne : word ≠ []) (hword : ∀ c ∈ word, isBlank c = false)
    (hd : isBlank d = true) (rest : List Char) : tokens (word ++ d :: rest) = word :: tokens rest := by
  obtain ⟨token, others, h⟩ := List.exists_cons_of_ne_nil (foldr_tokenStep_ne_nil rest)
  have hstep : (d :: rest).foldr tokenStep [[]] = [] :: rest.foldr tokenStep [[]] := by
    rw [List.foldr_cons, h, tokenStep, if_pos hd]
  rw [tokens, List.foldr_append, hstep, foldr_tokenStep_word hword, List.append_nil, tokens]
  simp [hne]

/-- Behind a word and a blank stands the rest of the text, without the blanks in front of it. -/
theorem afterTokens_one (hne : word ≠ []) (hword : ∀ c ∈ word, isBlank c = false)
    (hd : isBlank d = true) (rest : List Char) :
    afterTokens 1 (word ++ d :: rest) = some (trimStart rest) := by
  obtain ⟨c, word, rfl⟩ := List.exists_cons_of_ne_nil hne
  have hstart : trimStart (c :: word ++ d :: rest) = c :: word ++ d :: rest :=
    trimStart_cons_of_not_blank (hword c (List.mem_cons_self ..)) _
  have hbehind : (c :: word ++ d :: rest).dropWhile (fun c => !isBlank c) = d :: rest := by
    rw [List.dropWhile_append_of_pos fun c hc => by simp [hword c hc]]
    simp [hd]
  rw [afterTokens, hstart, hbehind]
  show some (trimStart (d :: rest)) = some (trimStart rest)
  simp [trimStart, hd]

end Text

/-! ### Lines that load a literal -/

/-- The word in front of the literal. -/
def loadWord : List Char := "load_const".toList

theorem readLiteral_literalOf (text : List Char) :
    readLiteral (literalOf text) = .ok (.str (String.ofList text)) := by
  have htrim : Text.trim (literalOf text) = literalOf text :=
    Text.trim_eq_self (by decide) _ (by decide)
  rw [readLiteral, htrim, literalOf]
  simp only [readQuoted_literal text []]
  rfl

/-- The opcode is found in front of the literal, and the literal behind it as it is written. -/
theorem readInstruction_load (text : List Char) :
    readInstruction (loadWord ++ ' ' :: literalOf text)
        (Text.tokens (loadWord ++ ' ' :: literalOf text)) =
      .ok (.load .loadConst (literalOf text), false) := by
  -- Decided along the word, as all characters are too many.
  have hall : (loadWord.all fun c => Text.isBlank c = false) = true := by decide
  have hblank : ∀ c ∈ loadWord, Text.isBlank c = false :=
    fun c hc => of_decide_eq_true (List.all_eq_true.1 hall c hc)
  have hbehind : Text.afterTokens 1 (loadWord ++ ' ' :: literalOf text) = some (literalOf text) :=
    Text.afterTokens_one (by decide) hblank (by decide) _
  have hname : Opcode.ofMnemonic? (String.ofList (Text.lower loadWord)) = some .loadConst := by
    decide
  rw [Text.tokens_append (by decide) hblank (by decide), readInstruction, hbehind]
  simp only [List.headD_cons, hname]
  rfl

theorem readStatement_load (text : List Char) :
    readStatement (loadWord ++ ' ' :: literalOf text) =
      .ok (some (.load .loadConst (literalOf text), false)) := by
  have hread : readStatement (loadWord ++ ' ' :: literalOf text) =
      (readInstruction (loadWord ++ ' ' :: literalOf text)
        (Text.tokens (loadWord ++ ' ' :: literalOf text))).map some := rfl
  rw [hread, readInstruction_load]
  rfl

/-- What is left of the line without the comment has no outer blanks. -/
theorem trim_stripComment_load (text comment : List Char) {sign : Char}
    (hsign : sign = ';' ∨ sign = '#') :
    Text.trim (stripComment .outside (loadWord ++ ' ' :: (literalOf text ++ sign :: comment))) =
      loadWord ++ ' ' :: literalOf text := by
  have hall : ((loadWord ++ [' ']).all fun c => c ≠ '"' ∧ c ≠ ';' ∧ c ≠ '#') = true := by decide
  have hplain : ∀ c ∈ loadWord ++ [' '], c ≠ '"' ∧ c ≠ ';' ∧ c ≠ '#' :=
    fun c hc => of_decide_eq_true (List.all_eq_true.1 hall c hc)
  have hcomment : stripComment .outside (sign :: comment) = [] := if_pos ⟨rfl, hsign⟩
  have hstrip : stripComment .outside (loadWord ++ ' ' :: (literalOf text ++ sign :: comment)) =
      loadWord ++ ' ' :: literalOf text := by
    rw [List.append_cons, stripComment_append _ hplain, stripComment_literalOf, hcomment]
    simp
  rw [hstrip]
  exact Text.trim_eq_self (by decide) ("oad_const \"".toList ++ text.flatMap literalChar) (by decide)

theorem load_literalOf (text : List Char) :
    Assembler.start.load .loadConst (literalOf text) =
      .ok ⟨(Assembler.start.builder.emitConstant .loadConst (.str (String.ofList text))).1, []⟩ := by
  have hliteral : Assembler.literal (literalOf text) = .ok (.str (String.ofList text)) := by
    rw [Assembler.literal, readLiteral_literalOf]
    rfl
  have hload : Assembler.start.load .loadConst (literalOf text) =
      (do
        let value ← Assembler.literal (literalOf text)
        pure ⟨(Assembler.start.builder.emitConstant .loadConst value).1, []⟩) := rfl
  rw [hload, hliteral]
  rfl

theorem runLine_load (text comment : List Char) {sign : Char} (hsign : sign = ';' ∨ sign = '#') :
    Assembler.start.runLine (loadWord ++ ' ' :: (literalOf text ++ sign :: comment)) =
      .ok ⟨(Assembler.start.builder.emitConstant .loadConst (.str (String.ofList text))).1, []⟩ := by
  rw [Assembler.runLine, trim_stripComment_load text comment hsign, readStatement_load]
  show (Assembler.start.load .loadConst (literalOf text) >>= _) = _
  rw [load_literalOf]
  rfl

/-- The function of one instruction, which loads the only constant. -/
def Function.loading (value : Constant) : Function where
  name := Assembler.defaultName
  code := Block.encode [.bare .loadConst]
  constants := [value]
  names := []
  lines := .ofSpans 1 [(2, none)]
  stackDepth := 1

theorem finish_emitConstant (value : Constant) :
    (Assembler.start.builder.emitConstant .loadConst value).1.finish = .ok (.loading value) := rfl

/-- A text constant comes back from source text as it was, whatever characters it holds: a line that
loads it by its literal, with a comment behind that, is assembled to one instruction that loads this
text, the only constant. -/
theorem assemble_load_literalOf (s : String) {sign : Char} {comment : List Char}
    (hsign : sign = ';' ∨ sign = '#') (hcomment : '\n' ∉ comment) :
    ∃ f, assemble ("load_const ".toList ++ literalOf s.toList ++ sign :: comment) = .ok f ∧
      f.constants = [.str s] ∧ f.code = [Opcode.byte .loadConst, 0] ∧
      Block.decode f.code = .ok [.narrow .loadConst 0] := by
  have hshape : "load_const ".toList ++ literalOf s.toList ++ sign :: comment =
      loadWord ++ ' ' :: (literalOf s.toList ++ sign :: comment) := by
    rw [List.append_assoc]
    rfl
  have hline : '\n' ∉ loadWord ++ ' ' :: (literalOf s.toList ++ sign :: comment) := by
    have hword : '\n' ∉ loadWord := by decide
    have hnewline : '\n' ≠ sign := by rcases hsign with rfl | rfl <;> decide
    simp [hword, hnewline, newline_notMem_literalOf, hcomment]
  have hrun := runLine_load s.toList comment hsign
  rw [String.ofList_toList] at hrun
  refine ⟨.loading (.str s), ?_, rfl, rfl, Block.decode_encode (by decide)⟩
  refine assemble_eq_ok_iff.2 ⟨⟨_, []⟩, ?_, finish_emitConstant (.str s)⟩
  rw [hshape, Text.linesOf_eq_singleton hline, Assembler.runLines, hrun]
  rfl

/-- Text with quotes, comment signs, blanks and the end of a line in it and a backslash at its end,
in front of a comment that holds a quote. -/
theorem exists_load_hostile : ∃ f,
    (';' = ';' ∨ ';' = '#') ∧ '\n' ∉ " \" # \\".toList ∧
    assemble "load_const \" ;\\\"\\\\\\\" #\\n\\t  \\\\\"; \" # \\".toList = .ok f ∧
    f.constants = [.str " ;\"\\\" #\n\t  \\"] ∧ f.code = [Opcode.byte .loadConst, 0] := by
  have hsign : ';' = ';' ∨ ';' = '#' := .inl rfl
  have hcomment : '\n' ∉ " \" # \\".toList := by decide
  obtain ⟨f, hf, hconstants, hcode, -⟩ :=
    assemble_load_literalOf " ;\"\\\" #\n\t  \\" hsign hcomment
  exact ⟨f, hsign, hcomment, hf, hconstants, hcode⟩

end Tripwire
