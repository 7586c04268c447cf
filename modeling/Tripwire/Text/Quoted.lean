import Tripwire.Text.Property

/-!
# Quoted text

Text between double quotes, as listings and diagnostics show it. Five control
characters have short escapes; characters that would not show, or would combine
with the one before, are written by their code points.

* `quoteChar`: one character;
* `quote`: a whole text with its quotes.
-/

namespace Tripwire.Text

/-- The digits of a number in base sixteen, lower case. -/
def hexDigits (n : Nat) : List Char := Nat.toDigits 16 n

/-- A character by its code point. -/
def pointEscape (c : Char) : List Char :=
  ['\\', 'u', '\x7b'] ++ hexDigits c.toNat ++ ['\x7d']

/-- Characters that combine with the one before, unless they are letters, and characters without an
image. -/
def needsPoint (c : Char) : Bool :=
  (isGraphemeExtend c && !isSoundMark c) || isFiller c || !isPrintable c

/-- One character of quoted text. -/
def quoteChar (c : Char) : List Char :=
  match c with
  | '\x00' => ['\\', '0']
  | '\t' => ['\\', 't']
  | '\n' => ['\\', 'n']
  | '\r' => ['\\', 'r']
  | '"' => ['\\', '"']
  | '\\' => ['\\', '\\']
  | c =>
    if 0x20 ≤ c.toNat ∧ c.toNat < 0x7F then [c]
    else if needsPoint c then pointEscape c
    else [c]

/-- The text in double quotes. -/
def quote (s : String) : String :=
  String.ofList ('"' :: s.toList.flatMap quoteChar ++ ['"'])

end Tripwire.Text
