import Tripwire.Text.Cluster.Role

/-!
# Clusters

A cluster is what a reader takes for one character: a base with its marks, a
syllable, a flag, a picture made of several. Text is divided into clusters by the
rules of Unicode for extended grapheme clusters.

* `joined`: whether a character continues a cluster;
* `clusters`: the clusters of a text.

No character is lost (`flatten_clusters`) and no cluster is empty
(`nil_notMem_clusters`).
-/

namespace Tripwire.Text

/-! ### What continues a cluster -/

namespace Role

/-- Controls and line ends. -/
def isControl (r : Role) : Bool := r = .control || r = .carriageReturn || r = .lineFeed

/-- Marks without a width, except the joiner. -/
def isExtend (r : Role) : Bool := r = .extend || r = .nonJoiner || r = .linker

/-- Marks, which continue any cluster but a control. -/
def isMark (r : Role) : Bool := r.isExtend || r = .joiner || r = .spacing

/-- Marks that may stand between two joined consonants. -/
def isConjunctMark (r : Role) : Bool := r = .extend || r = .joiner || r = .linker

/-- Whether two neighbours belong to one Hangul syllable. -/
def inSyllable (before after : Role) : Bool :=
  match before with
  | .initialJamo =>
    after = .initialJamo || after = .medialJamo || after = .openSyllable || after = .closedSyllable
  | .medialJamo | .openSyllable => after = .medialJamo || after = .finalJamo
  | .finalJamo | .closedSyllable => after = .finalJamo
  | _ => false

end Role

/-- Whether a consonant is joined to one before it: marks stand between them, a linker among them.
The roles before it stand in reverse. -/
def joinsConsonant (before : List Role) : Bool :=
  (before.takeWhile Role.isConjunctMark).contains .linker &&
    (before.dropWhile Role.isConjunctMark).head? = some .consonant

/-- Whether a pictograph is joined to one before it: the joiner stands between them, after any
marks. The roles before it stand in reverse. -/
def joinsPictograph : List Role → Bool
  | .joiner :: before => (before.dropWhile Role.isExtend).head? = some .pictograph
  | _ => false

/-- Whether a regional letter is the second of a flag: an odd number of them stands before it. The
roles before it stand in reverse. -/
def completesFlag (before : List Role) : Bool :=
  (before.takeWhile fun r => r = .regional).length % 2 = 1

/-- Whether a role continues the cluster whose roles stand before it in reverse. -/
def joined (before : List Role) (next : Role) : Bool :=
  match before with
  | [] => false
  | last :: _ =>
    if last = .carriageReturn && next = .lineFeed then true
    else if last.isControl || next.isControl then false
    else next.isMark || last = .leader || last.inSyllable next ||
      (next = .consonant && joinsConsonant before) ||
      (next = .pictograph && joinsPictograph before) ||
      (next = .regional && completesFlag before)

/-! ### The clusters of a text -/

/-- The clusters of a text after the start of a cluster, whose characters and roles stand in
reverse. -/
def clustersFrom (start : List Char) (roles : List Role) : List Char → List (List Char)
  | [] => [start.reverse]
  | c :: rest =>
    let r := role c
    if joined roles r then clustersFrom (c :: start) (r :: roles) rest
    else start.reverse :: clustersFrom [c] [r] rest

/-- The clusters of a text. -/
def clusters : List Char → List (List Char)
  | [] => []
  | c :: rest => clustersFrom [c] [role c] rest

@[simp] theorem clusters_nil : clusters [] = [] := rfl

theorem flatten_clustersFrom (start : List Char) (roles : List Role) (cs : List Char) :
    (clustersFrom start roles cs).flatten = start.reverse ++ cs := by
  induction cs generalizing start roles with
  | nil => simp [clustersFrom]
  | cons c rest ih =>
    rw [clustersFrom]
    split <;> simp [ih]

/-- The clusters make up the text. -/
@[simp] theorem flatten_clusters (cs : List Char) : (clusters cs).flatten = cs := by
  cases cs with
  | nil => rfl
  | cons c rest => simp [clusters, flatten_clustersFrom]

theorem nil_notMem_clustersFrom {start : List Char} (h : start ≠ []) (roles : List Role)
    (cs : List Char) : [] ∉ clustersFrom start roles cs := by
  induction cs generalizing start roles with
  | nil => simpa [clustersFrom] using h.symm
  | cons c rest ih =>
    rw [clustersFrom]
    split
    · exact ih (by simp) _
    · simpa [h] using ih (List.cons_ne_nil c []) [role c]

/-- No cluster is empty. -/
theorem nil_notMem_clusters (cs : List Char) : [] ∉ clusters cs := by
  cases cs with
  | nil => simp
  | cons c rest => exact nil_notMem_clustersFrom (by simp) _ _

end Tripwire.Text
