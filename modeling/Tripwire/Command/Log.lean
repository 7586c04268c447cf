import Tripwire.Breakpoint
import Tripwire.Injector
import Tripwire.Text.Numeral

/-!
# Log lines

The program reports what it does as log lines of five levels. A filter selects
them by level and by the part of the program that writes them.

* `LogLine`: a level, the writing part and the message;
* `LogFilter.read`: the filter that a setting asks for;
* `LogLine.render`: the line as it is shown, with colours or without;
* `breakpointLabel`: a breakpoint's state in a log line.
-/

namespace Tripwire.Command

/-- The levels, from the gravest down. -/
inductive LogLevel
  | error
  | warn
  | info
  | debug
  | trace
  deriving DecidableEq, Repr

namespace LogLevel

/-- All levels, from the gravest down. -/
def all : List LogLevel := [.error, .warn, .info, .debug, .trace]

/-- The number of levels up to this one. -/
def rank : LogLevel → Nat
  | .error => 1
  | .warn => 2
  | .info => 3
  | .debug => 4
  | .trace => 5

/-- The level in a line. -/
def name : LogLevel → String
  | .error => "ERROR"
  | .warn => "WARN"
  | .info => "INFO"
  | .debug => "DEBUG"
  | .trace => "TRACE"

/-- The number of the level's colour. -/
def colour : LogLevel → Nat
  | .error => 31
  | .warn => 33
  | .info => 32
  | .debug => 34
  | .trace => 35

end LogLevel

/-- The parts of the program that write log lines. -/
inductive LogPart
  | library
  | program
  | reader
  deriving DecidableEq, Repr

/-- The name of a part in a filter. -/
def LogPart.name : LogPart → String
  | .library => "patch"
  | .program => "lh_run"
  | .reader => "reader"

/-- A log line. -/
structure LogLine where
  level : LogLevel
  part : LogPart
  message : String
  deriving DecidableEq, Repr

/-! ### Filters -/

/-- The highest rank shown for the parts whose names start as given. -/
structure LogRule where
  start : String
  rank : Nat
  deriving DecidableEq, Repr

/-- Rules, of which the one with the longest start decides. -/
abbrev LogFilter := List LogRule

namespace LogFilter

/-- The rank that a level stands for in a setting, by its name or as a number. -/
def rank? (text : String) : Option Nat :=
  let lowered := String.ofList (text.toList.map Char.toLower)
  match lowered with
  | "off" | "0" => some 0
  | "error" | "1" => some 1
  | "warn" | "2" => some 2
  | "info" | "3" => some 3
  | "debug" | "4" => some 4
  | "trace" | "5" => some 5
  | _ => none

/-- The rule that one part of a setting asks for: a level, a name, or a name and a level. -/
def readRule (text : String) : Option LogRule :=
  match text.splitOn "=" with
  | [word] =>
    match rank? word with
    | some rank => some ⟨"", rank⟩
    | none => some ⟨word, 5⟩
  | [name, level] => (rank? level).map fun rank => ⟨name, rank⟩
  | _ => none

/-- The filter without a setting. -/
def standard : LogFilter := [⟨"", 3⟩]

/-- The filter that a setting asks for; one that cannot be read counts as none. -/
def read (setting : Option String) : LogFilter :=
  match setting with
  | none => standard
  | some text =>
    let parts := (text.splitOn ",").filter fun part => !part.isEmpty
    if parts.isEmpty then [⟨"", 1⟩] else (parts.mapM readRule).getD standard

/-- The highest rank shown for a part. -/
def rankOf (filter : LogFilter) (part : LogPart) : Nat :=
  let fitting := filter.filter fun rule => rule.start.isPrefixOf part.name
  let longest := fitting.foldl (fun best rule => max best rule.start.length) 0
  ((fitting.filter fun rule => rule.start.length == longest).getLast?.map LogRule.rank).getD 0

/-- Whether a line is shown. -/
def shows (filter : LogFilter) (line : LogLine) : Bool :=
  decide (line.level.rank ≤ filter.rankOf line.part)

end LogFilter

/-! ### Rendering -/

/-- The escape character. -/
def escapeChar : Char := '\x1b'

/-- A sequence that sets the way of display. -/
def displayCode (codes : String) : String := String.ofList [escapeChar, '['] ++ codes ++ "m"

/-- A character of a message. Characters that control a terminal are spelled out. -/
def messageChar (c : Char) : List Char :=
  if c = '\x1b' ∨ c = '\x07' ∨ c = '\x08' ∨ c = '\x0c' ∨ c = '\x7f' then
    '\\' :: 'x' :: (hexByte (UInt8.ofNat c.toNat)).toList
  else if 0x80 ≤ c.toNat ∧ c.toNat ≤ 0x9F then
    ['\\', 'u', '\x7b'] ++ Nat.toDigits 16 c.toNat ++ ['\x7d']
  else [c]

/-- A message with the characters spelled out that control a terminal. -/
def messageText (message : String) : String :=
  String.ofList (message.toList.flatMap messageChar)

/-- The level in front of a message. In colours it is filled up to five characters. -/
def LogLevel.render (colours : Bool) (level : LogLevel) : String :=
  if colours then
    let padding := String.ofList (List.replicate (5 - level.name.length) ' ')
    displayCode (toString level.colour) ++ padding ++ level.name ++ displayCode "0"
  else level.name

/-- The line as it is shown. -/
def LogLine.render (colours : Bool) (line : LogLine) : String :=
  line.level.render colours ++ " " ++ messageText line.message

/-- A note as a log line. -/
def noteLine (note : Note) : LogLine :=
  let level := match note with
    | .resized .. | .reserved .. => LogLevel.trace
    | .inserted .. | .removed .. => LogLevel.debug
  ⟨level, .library, note.message⟩

/-- What is known of a breakpoint, for a log line. -/
def breakpointLabel (colours : Bool) (s : Status) : String :=
  let text := match s.active, s.line with
    | true, some line => s!"#{s.id} active at line {line} (+{s.injectedSize} bytes)"
    | true, none => s!"#{s.id} active"
    | false, _ => s!"#{s.id} inactive"
  if colours then
    if s.active then displayCode "1" ++ displayCode "92" ++ text ++ displayCode "39" ++ displayCode "0"
    else displayCode "2" ++ text ++ displayCode "0"
  else text

end Tripwire.Command
