import Tripwire.Assembly.Item
import Tripwire.Assembly.Literal

/-!
# Statements of source text

Each line of source text holds at most one statement: a directive, which starts
with a point, or an instruction. A semicolon or a hash outside of quotes starts a
comment.

* `Statement`: what a line says;
* `stripComment`: a line without its comment;
* `readStatement`: the statement of a line, and whether tokens are left over.
-/

namespace Tripwire

/-- What a line of source text says. Literals stay as text here, since a name given to a constant
goes before its reading as a literal. -/
inductive Statement
  | function (name : String)
  | firstLine (line : Nat)
  | stack (depth : Nat)
  | line (line : Nat)
  | noLine
  | label (name : String)
  | const (name : String) (literal : List Char)
  | plain (opcode : Opcode)
  | load (opcode : Opcode) (literal : List Char)
  | named (opcode : Opcode) (name : String)
  | counted (opcode : Opcode) (operand : Nat)
  | jump (opcode : Opcode) (label : String)
  deriving DecidableEq, Repr

/-- Why a line of source text is refused. -/
inductive SourceCause
  /-- A token is missing. -/
  | missing (what : String)
  | invalidNumber (text : String)
  | label (cause : AssemblyFault)
  | duplicateConstant (name : String)
  | unknownDirective (name : String)
  | unknownOpcode (name : String)
  /-- Words of `extended_arg` are not written by hand. -/
  | writtenPadding
  | numericTarget
  | literal (cause : LiteralFault)
  | extraTokens
  | assembly (cause : AssemblyFault)
  deriving DecidableEq, Repr

/-- The message for a reader. -/
def SourceCause.message : SourceCause → String
  | .missing what => s!"missing {what}"
  | .invalidNumber text => s!"invalid u32 '{text}'"
  | .label cause => s!"label error: {cause.message}"
  | .duplicateConstant name => s!"duplicate const '{name}'"
  | .unknownDirective name => s!"unknown directive '.{name}'"
  | .unknownOpcode name => s!"unknown opcode '{name}'"
  | .writtenPadding => "extended_arg is emitted by the assembler, not written by hand"
  | .numericTarget => "numeric jump targets are not supported"
  | .literal cause => cause.message
  | .extraTokens => "unexpected extra tokens"
  | .assembly cause => s!"assembler error: {cause.message}"

/-! ### Comments -/

/-- Where a position stands with respect to quotes. -/
inductive Quoting
  | outside
  | inside
  | escaped
  deriving DecidableEq, Repr

/-- The state behind a character. -/
def Quoting.next : Quoting → Char → Quoting
  | .outside, c => if c = '"' then .inside else .outside
  | .inside, c => if c = '\\' then .escaped else if c = '"' then .outside else .inside
  | .escaped, _ => .inside

/-- The text up to the first comment sign outside of quotes. -/
def stripComment (state : Quoting) : List Char → List Char
  | [] => []
  | c :: cs =>
    if state = .outside ∧ (c = ';' ∨ c = '#') then []
    else c :: stripComment (state.next c) cs

/-! ### Tokens -/

/-- The first token, which `what` describes, and the others. -/
def takeToken (what : String) : List (List Char) → Except SourceCause (List Char × List (List Char))
  | [] => .error (.missing what)
  | token :: rest => .ok (token, rest)

/-- The first token as a name. -/
def takeName (what : String) (tokens : List (List Char)) :
    Except SourceCause (String × List (List Char)) :=
  (takeToken what tokens).map fun (token, rest) => (String.ofList token, rest)

/-- A token as a number. -/
def readNumber (token : List Char) : Except SourceCause Nat :=
  match Text.nat32? token with
  | some n => .ok n
  | none => .error (.invalidNumber (String.ofList token))

/-- The first token as a number. -/
def takeNumber (what : String) (tokens : List (List Char)) :
    Except SourceCause (Nat × List (List Char)) := do
  let (token, rest) ← takeToken what tokens
  pure (← readNumber token, rest)

/-- The operand of a comparison: its sign or its number. -/
def readComparison (token : List Char) : Except SourceCause Nat :=
  match comparisonNames.idxOf? (String.ofList token) with
  | some index => .ok index
  | none => readNumber token

/-! ### Statements -/

/-- A statement, and whether tokens are left over. -/
abbrev ReadStatement := Statement × Bool

/-- A statement whose tokens are followed by `rest`. -/
def followedBy (statement : Statement) (rest : List (List Char)) : ReadStatement :=
  (statement, !rest.isEmpty)

/-- Reads a directive from the tokens behind its point. `line` is the whole line. -/
def readDirective (line : List Char) (tokens : List (List Char)) :
    Except SourceCause ReadStatement := do
  let directive := String.ofList (Text.lower (tokens.headD []))
  let tokens := tokens.tail
  match directive with
  | "function" =>
    let (name, rest) ← takeName "function name" tokens
    pure (followedBy (.function name) rest)
  | "firstline" =>
    let (n, rest) ← takeNumber "first line" tokens
    pure (followedBy (.firstLine n) rest)
  | "stack" =>
    let (n, rest) ← takeNumber "stack depth" tokens
    pure (followedBy (.stack n) rest)
  | "line" =>
    let (n, rest) ← takeNumber "line number" tokens
    pure (followedBy (.line n) rest)
  | "noline" => pure (followedBy .noLine tokens)
  | "label" =>
    let (name, rest) ← takeName "label name" tokens
    pure (followedBy (.label name) rest)
  | "const" =>
    let (name, _) ← takeName "const name" tokens
    pure (.const name ((Text.afterTokens 2 line).getD []), false)
  | _ => throw (.unknownDirective directive)

/-- Reads an instruction from its tokens. `line` is the whole line. -/
def readInstruction (line : List Char) (tokens : List (List Char)) :
    Except SourceCause ReadStatement := do
  let name := String.ofList (Text.lower (tokens.headD []))
  let tokens := tokens.tail
  match Opcode.ofMnemonic? name with
  | none => throw (.unknownOpcode name)
  | some .extendedArg => throw .writtenPadding
  | some opcode =>
    match opcode.operandKind with
    | .none => pure (followedBy (.plain opcode) tokens)
    | .const =>
      match (Text.afterTokens 1 line).getD [] with
      | [] => throw (.missing "constant")
      | literal => pure (.load opcode literal, false)
    | .name =>
      let (name, rest) ← takeName "name" tokens
      pure (followedBy (.named opcode name) rest)
    | .slot | .count =>
      let (n, rest) ← takeNumber "operand" tokens
      pure (followedBy (.counted opcode n) rest)
    | .compare =>
      let (token, rest) ← takeToken "comparison" tokens
      pure (followedBy (.counted opcode (← readComparison token)) rest)
    | .jump =>
      let (token, rest) ← takeToken "jump target" tokens
      if (Text.nat32? token).isSome then throw .numericTarget
      else pure (followedBy (.jump opcode (String.ofList token)) rest)

/-- Reads the statement of a line without comment and outer blanks, if it holds any. -/
def readStatement (line : List Char) : Except SourceCause (Option ReadStatement) :=
  match line with
  | [] => .ok none
  | '.' :: rest => (readDirective line (Text.tokens rest)).map some
  | _ => (readInstruction line (Text.tokens line)).map some

end Tripwire
