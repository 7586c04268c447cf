import Tripwire.Constant
import Tripwire.Decimal.Reader
import Tripwire.Text.Blank

/-!
# Literals

The constants of source text: `None`, `True` and `False`, whole numbers, decimals
and text in double quotes.

* `readQuoted`: the text up to the closing quote, and what follows it;
* `readLiteral`: the constant.
-/

namespace Tripwire

/-- Why text is no literal. -/
inductive LiteralFault
  | invalid (text : String)
  | invalidEscape (c : Char)
  | unterminated
  /-- Something follows the closing quote. -/
  | trailing
  deriving DecidableEq, Repr

/-- The message for a reader. -/
def LiteralFault.message : LiteralFault → String
  | .invalid text => s!"invalid literal '{text}'"
  | .invalidEscape c => "invalid escape '\\" ++ c.toString ++ "'"
  | .unterminated => "unterminated string literal"
  | .trailing => "unexpected trailing characters after string literal"

/-- The character that an escape stands for. -/
def unescape? : Char → Option Char
  | 'n' => some '\n'
  | 't' => some '\t'
  | '\\' => some '\\'
  | '"' => some '"'
  | _ => none

/-- Reads behind an opening quote: the text up to the closing one, and what follows that. -/
def readQuoted : List Char → Except LiteralFault (List Char × List Char)
  | [] => .error .unterminated
  | '"' :: rest => .ok ([], rest)
  | ['\\'] => .error .unterminated
  | '\\' :: c :: rest =>
    match unescape? c with
    | none => .error (.invalidEscape c)
    | some c => (readQuoted rest).map fun (text, rest) => (c :: text, rest)
  | c :: rest => (readQuoted rest).map fun (text, rest) => (c :: text, rest)

/-- The constants that words stand for. -/
def wordConstant? (text : String) : Option Constant :=
  match text with
  | "None" => some .none
  | "True" | "true" => some (.bool true)
  | "False" | "false" => some (.bool false)
  | _ => none

/-- The constant that unquoted text stands for. Whole numbers out of range are read as decimals. -/
def plainConstant? (text : List Char) : Option Constant :=
  (wordConstant? (String.ofList text)).or
    (((Text.int64? text).map Constant.int).or ((Double.read? text).map Constant.float))

/-- The constant that a literal stands for. -/
def readLiteral (text : List Char) : Except LiteralFault Constant :=
  match Text.trim text with
  | '"' :: rest => do
    let (value, rest) ← readQuoted rest
    if (Text.trim rest).isEmpty then pure (.str (String.ofList value)) else throw .trailing
  | text =>
    match plainConstant? text with
    | some value => .ok value
    | none => .error (.invalid (String.ofList text))

end Tripwire
