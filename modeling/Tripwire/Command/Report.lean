import Tripwire.Injector

/-!
# Reports

The report on a function and its breakpoints as a JSON text with two spaces of
indentation.
-/

namespace Tripwire.Command

/-! ### JSON text -/

/-- A character inside a JSON string. -/
def jsonChar (c : Char) : List Char :=
  match c with
  | '"' => ['\\', '"']
  | '\\' => ['\\', '\\']
  | '\x08' => ['\\', 'b']
  | '\x0c' => ['\\', 'f']
  | '\n' => ['\\', 'n']
  | '\r' => ['\\', 'r']
  | '\t' => ['\\', 't']
  | c =>
    if c.toNat < 0x20 then ['\\', 'u', '0', '0'] ++ (hexByte (UInt8.ofNat c.toNat)).toList else [c]

/-- A JSON string. -/
def jsonString (s : String) : String :=
  String.ofList ('"' :: s.toList.flatMap jsonChar ++ ['"'])

/-- Spaces of indentation. -/
def indentation (depth : Nat) : String := String.ofList (List.replicate (2 * depth) ' ')

/-- Items between brackets, each on lines of its own. -/
def jsonBlock (opening closing : String) (depth : Nat) (items : List String) : String :=
  if items.isEmpty then opening ++ closing
  else
    let lines := items.map fun item => indentation (depth + 1) ++ item
    opening ++ "\n" ++ String.intercalate ",\n" lines ++ "\n" ++ indentation depth ++ closing

/-- A JSON list. -/
def jsonList (depth : Nat) (items : List String) : String := jsonBlock "[" "]" depth items

/-- A JSON object. -/
def jsonObject (depth : Nat) (fields : List (String × String)) : String :=
  jsonBlock "\x7b" "\x7d" depth (fields.map fun (key, value) => jsonString key ++ ": " ++ value)

/-- An optional number. -/
def jsonOption (value : Option Nat) : String := (value.map toString).getD "null"

/-! ### The report -/

/-- A line entry of the report. -/
def entryReport (e : LineEntry) : String :=
  jsonObject 2 [("start", toString e.start), ("end", toString e.stop), ("line", jsonOption e.line)]

/-- A breakpoint of the report. -/
def statusReport (s : Status) : String :=
  jsonObject 2
    [("id", toString s.id), ("state", jsonString (if s.active then "Active" else "Inactive")),
      ("line", jsonOption s.line), ("injected_size", toString s.injectedSize)]

/-- The report on a function. -/
def report (inj : Injector) (f : Function) : String :=
  jsonObject 0
    [("function", jsonString f.name), ("code_len", toString f.code.length),
      ("stack_depth", toString f.stackDepth), ("constants", toString f.constants.length),
      ("names", toString f.names.length), ("lines", jsonList 1 (f.lines.entries.map entryReport)),
      ("breakpoints", jsonList 1 (inj.registry.statuses.map statusReport))]

end Tripwire.Command
