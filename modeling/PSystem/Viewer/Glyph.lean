import PSystem.Viewer.Columns

/-!
# Glyphs

The viewer draws on a grid of cells.  A text is cut into glyphs, each of which is drawn as a unit
and takes up a number of columns.  A text is not cut between a character and its marks, inside a
Hangul syllable, a flag or a conjunct of consonants, or where a joiner makes one picture of two.

* `Cluster.split` cuts a text, and `Cluster.flatten_split` says that nothing is lost.
* `Glyph.ofText` measures the pieces.
* `Glyph.fit` keeps the glyphs that fit into a number of columns, and `Glyph.columns_fit` says that
  they do fit.
-/

namespace PSystem

/-! ## Cutting a text -/

/-- How far a sequence of pictures has come. -/
inductive PictureState where
  | absent
  /-- A picture, perhaps with extenders. -/
  | shown
  /-- A picture and a joiner. -/
  | joined
  deriving DecidableEq, Repr

/-- What matters of a cluster that has been read up to a character. -/
structure Cluster where
  /-- The class of the last character. -/
  last : BreakClass
  picture : PictureState
  /-- Whether there is a consonant, and if so, whether there is a linker after it. -/
  conjunct : Option Bool
  /-- Whether the last character is the first half of a flag. -/
  halfFlag : Bool
  deriving DecidableEq, Repr

namespace Cluster

/-- The cluster that begins with a character. -/
def start (c : Char) : Cluster :=
  let kind := BreakClass.ofChar c
  { last := kind
    picture := if kind = .pictograph then .shown else .absent
    conjunct := if kind = .consonant then some false else none
    halfFlag := kind = .regional }

/-- Whether a character belongs to the cluster before it. -/
def joins (k : Cluster) (c : Char) : Bool :=
  match k.last, BreakClass.ofChar c with
  | .carriageReturn, .lineFeed => true
  | .leading, .leading | .leading, .vowel => true
  | .leading, .openSyllable | .leading, .closedSyllable => true
  | .openSyllable, .vowel | .openSyllable, .trailing => true
  | .vowel, .vowel | .vowel, .trailing => true
  | .closedSyllable, .trailing | .trailing, .trailing => true
  | before, after =>
    if before.isControl || after.isControl then false
    else
      match before, after with
      | _, .extender | _, .joiner | _, .spacingMark => true
      | .prepender, _ => true
      | _, .consonant => k.conjunct == some true
      | _, .pictograph => k.picture == .joined
      | _, .regional => k.halfFlag
      | _, _ => false

/-- The pictures after another character. -/
def nextPicture (k : Cluster) : BreakClass → PictureState
  | .pictograph => .shown
  | .extender => if k.picture = .shown then .shown else .absent
  | .joiner => if k.picture = .shown then .joined else .absent
  | _ => .absent

/-- The conjunct after another character. -/
def nextConjunct (k : Cluster) (c : Char) : BreakClass → Option Bool
  | .consonant => some false
  | .extender =>
    if c = BreakClass.separatorChar then none
    else k.conjunct.map (· || CharacterSet.linkers.contains c)
  | .joiner => k.conjunct
  | _ => none

/-- The cluster with another character. -/
def push (k : Cluster) (c : Char) : Cluster :=
  let kind := BreakClass.ofChar c
  { last := kind
    picture := k.nextPicture kind
    conjunct := k.nextConjunct c kind
    halfFlag := kind = .regional && !k.halfFlag }

/-- Cuts the rest of a text, of which some characters have been read into a cluster, the last of
them first. -/
def splitFrom (k : Cluster) (read : List Char) : List Char → List (List Char)
  | [] => [read.reverse]
  | c :: cs =>
    if k.joins c then splitFrom (k.push c) (c :: read) cs
    else read.reverse :: splitFrom (start c) [c] cs

/-- Cuts a text into clusters. -/
def split : List Char → List (List Char)
  | [] => []
  | c :: cs => splitFrom (start c) [c] cs

/-- The clusters are what has been read and the rest. -/
theorem flatten_splitFrom (k : Cluster) (read cs : List Char) :
    (splitFrom k read cs).flatten = read.reverse ++ cs := by
  induction cs generalizing k read with
  | nil => simp [splitFrom]
  | cons c cs ih =>
    rw [splitFrom]
    split
    · rw [ih]
      simp
    · rw [List.flatten_cons, ih]
      simp

/-- The clusters of a text are the text. -/
theorem flatten_split (cs : List Char) : (split cs).flatten = cs := by
  cases cs with
  | nil => rfl
  | cons c cs => simp [split, flatten_splitFrom]

end Cluster

/-! ## Texts as glyphs -/

/-- A piece of text that is drawn as a unit, with the columns that it takes up. -/
structure Glyph where
  text : List Char
  width : Nat
  deriving DecidableEq, Repr

namespace Glyph

/-- The glyph of a cluster. -/
def ofCluster (cluster : List Char) : Glyph :=
  ⟨cluster, Columns.ofText cluster⟩

/-- The glyphs of a text; a line feed that stands alone is none. -/
def ofText (text : String) : List Glyph :=
  ((Cluster.split text.toList).filter (· != ['\n'])).map ofCluster

/-- The columns that glyphs take up. -/
def columns (gs : List Glyph) : Nat :=
  gs.foldr (·.width + ·) 0

/-- The glyphs up to the first that does not fit. -/
def fit : Nat → List Glyph → List Glyph
  | _, [] => []
  | room, g :: gs => if g.width ≤ room then g :: fit (room - g.width) gs else []

/-- Glyphs that fit take up no more than the room. -/
theorem columns_fit (room : Nat) (gs : List Glyph) : columns (fit room gs) ≤ room := by
  induction gs generalizing room with
  | nil => simp [fit, columns]
  | cons g gs ih =>
    rw [fit]
    split
    · next h =>
      have := ih (room - g.width)
      simp only [columns, List.foldr_cons] at this ⊢
      omega
    · simp [columns]

end Glyph
end PSystem
