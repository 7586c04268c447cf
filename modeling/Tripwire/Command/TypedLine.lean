import Tripwire.Text.Blank
import Tripwire.Text.Cluster

/-!
# Typed lines

The lines that are typed in the console. A backspace takes back the last cluster.

* `TypedLine`: what is typed so far of a line;
* `typedText`: the text of a line as typed;
* `inputLines`: the lines of an input.
-/

namespace Tripwire.Command

/-- What is typed so far of a line: its characters, and the sizes of its clusters in bytes, the last
first in both. A size is kept in one byte, so it is the size of the cluster modulo 256. -/
structure TypedLine where
  text : List Char
  sizes : List UInt8
  deriving DecidableEq, Repr

namespace TypedLine

/-- Nothing typed. -/
def empty : TypedLine := ⟨[], []⟩

/-- The size of a text in bytes. -/
def byteCount (cs : List Char) : Nat := cs.foldr (fun c size => c.utf8Size + size) 0

/-- A text without its first characters, as many as take up a number of bytes. -/
def dropBytes : Nat → List Char → List Char
  | _, [] => []
  | 0, cs => cs
  | count + 1, c :: cs => dropBytes (count + 1 - c.utf8Size) cs

/-- A cluster typed in addition. -/
def push (t : TypedLine) (cluster : List Char) : TypedLine :=
  ⟨cluster.reverse ++ t.text, UInt8.ofNat (byteCount cluster) :: t.sizes⟩

/-- The last cluster taken back, by as many bytes as its size says. -/
def erase (t : TypedLine) : TypedLine :=
  match t.sizes with
  | [] => t
  | size :: sizes => ⟨dropBytes size.toNat t.text, sizes⟩

/-- A cluster typed: a backspace takes back, all else adds. -/
def enter (t : TypedLine) (cluster : List Char) : TypedLine :=
  if cluster = ['\x08'] then t.erase else t.push cluster

@[simp] theorem erase_empty : empty.erase = empty := rfl

@[simp] theorem byteCount_nil : byteCount [] = 0 := rfl

@[simp] theorem byteCount_cons (c : Char) (cs : List Char) :
    byteCount (c :: cs) = c.utf8Size + byteCount cs := rfl

@[simp] theorem byteCount_append (a b : List Char) :
    byteCount (a ++ b) = byteCount a + byteCount b := by
  induction a with
  | nil => simp
  | cons c a ih => simp [ih, Nat.add_assoc]

@[simp] theorem byteCount_reverse (cs : List Char) : byteCount cs.reverse = byteCount cs := by
  induction cs with
  | nil => rfl
  | cons c cs ih => simp [ih, Nat.add_comm]

@[simp] theorem dropBytes_zero (cs : List Char) : dropBytes 0 cs = cs := by
  cases cs <;> rfl

theorem dropBytes_cons_of_le {c : Char} {count : Nat} (h : c.utf8Size ≤ count) (cs : List Char) :
    dropBytes count (c :: cs) = dropBytes (count - c.utf8Size) cs := by
  have hpos : 0 < c.utf8Size := c.utf8Size_pos
  cases count with
  | zero => omega
  | succ count => rfl

theorem dropBytes_append (a b : List Char) : dropBytes (byteCount a) (a ++ b) = b := by
  induction a with
  | nil => simp
  | cons c a ih =>
    have hle : c.utf8Size ≤ byteCount (c :: a) := by simp
    rw [List.cons_append, dropBytes_cons_of_le hle, byteCount_cons, Nat.add_sub_cancel_left, ih]

/-- A cluster whose size fits into a byte is taken back without a trace. -/
theorem erase_push (t : TypedLine) {cluster : List Char} (h : byteCount cluster < 256) :
    (t.push cluster).erase = t := by
  have hsize : (UInt8.ofNat (byteCount cluster)).toNat = byteCount cluster := by
    rw [UInt8.toNat_ofNat']
    exact Nat.mod_eq_of_lt h
  have hdrop := dropBytes_append cluster.reverse t.text
  rw [byteCount_reverse] at hdrop
  simp only [push, erase, hsize, hdrop]

end TypedLine

/-- The text of a line as typed. -/
def typedText (line : List Char) : List Char :=
  ((Text.clusters line).foldl TypedLine.enter .empty).text.reverse

/-- The lines that can be read from a text. What follows the last line feed is a line only if there
is something. -/
def inputLines (input : List Char) : List (List Char) :=
  let lines := Text.linesOf input
  if lines.getLast? = some [] then lines.dropLast else lines

end Tripwire.Command
