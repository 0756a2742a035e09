import PSystem.Viewer.Glyph

/-!
# Screens

A screen is a list of rows of cells, from top to bottom.  Screens are put beside and above each
other, and a box with a title draws lines inside a border.  Whatever does not fit is cut off at the
right.

A line is drawn span by span.  A span starts where the columns of the spans before it end, so it
may cover a part of them if their glyphs take up more columns one by one than together.  What takes
up no column is put into the cell before it, and a span of nothing else is not drawn.
-/

namespace PSystem

/-- The cells of a row, each with the characters drawn in it. -/
abbrev Row := List (List Char)

namespace Row

/-- A row of blank cells. -/
def blank (width : Nat) : Row :=
  List.replicate width [' ']

/-- A row with one character in each cell. -/
def ofChars (cs : List Char) : Row :=
  cs.map fun c => [c]

/-- Makes cells blank. -/
def clear (row : Row) (start : Nat) : Nat → Row
  | 0 => row
  | n + 1 => clear (row.set start [' ']) (start + 1) n

/-! ## Spans -/

/-- Puts a glyph of a span that begins at `start` into the row at `x`: a glyph without columns goes
with the one before it, and the other glyphs start a cell. -/
def place (row : Row) (start x : Nat) (first : Bool) (g : Glyph) : Row :=
  let row :=
    if first then row.set x g.text
    else if x = start then row.modify x (· ++ g.text)
    else if g.width = 0 then row.modify (x - 1) (· ++ g.text)
    else row.set x g.text
  clear row (x + 1) (g.width - 1)

/-- Draws the glyphs of a span that begins at `start` from `x` on, up to the first that does not
fit. -/
def drawGlyphs (start : Nat) (row : Row) (x : Nat) (first : Bool) : List Glyph → Row
  | [] => row
  | g :: gs =>
    if row.length < x + g.width then row
    else drawGlyphs start (place row start x first g) (x + g.width) false gs

/-- Draws spans from `x` on. -/
def drawSpans (row : Row) (x : Nat) : List String → Row
  | [] => row
  | span :: spans =>
    let width := Columns.ofText span.toList
    if width = 0 then drawSpans row x spans
    else if row.length ≤ x then row
    else drawSpans (row.drawGlyphs x x true (Glyph.ofText span)) (x + width) spans

/-- A row with a line of spans at its left. -/
def ofSpans (width : Nat) (spans : List String) : Row :=
  (blank width).drawSpans 0 spans

/-! ## Glyphs at an end of a row -/

/-- The glyphs of a text that can be seen, and that a row of the given width can hold at all. -/
def visible (width : Nat) (text : String) : List Glyph :=
  (Glyph.ofText text).filter fun g => 0 < g.width && g.width ≤ width

/-- The cells of glyphs: the columns of a glyph after the first are blank. -/
def cells (glyphs : List Glyph) : Row :=
  glyphs.flatMap fun g => g.text :: blank (g.width - 1)

/-- The visible part of a text at the left of a row. -/
def left (width : Nat) (text : String) : Row :=
  let shown := Glyph.fit width (visible width text)
  cells shown ++ blank (width - Glyph.columns shown)

/-- The visible part of a text at the right of a row; if it does not all fit, its end is cut
off. -/
def right (width : Nat) (text : String) : Row :=
  let shown := Glyph.fit width (visible width text)
  blank (width - Glyph.columns shown) ++ cells shown

/-! ## The text of a row -/

/-- What a terminal shows of the cells after one that covers the next or not: a wide cell covers
the next. -/
def shownAfter (covers : Bool) : Row → Row
  | [] => []
  | cell :: rest =>
    (if covers then [' '] else cell) :: shownAfter (1 < Columns.ofText cell) rest

/-- A row as a text. -/
def text (row : Row) : String :=
  String.ofList (shownAfter false row).flatten

end Row

/-- The rows of a picture, from top to bottom. -/
abbrev Screen := List Row

namespace Screen

/-! ## Text in columns -/

/-- A text with blanks before it, up to a number of characters. -/
def justifyRight (width : Nat) (text : String) : String :=
  String.ofList (List.replicate (width - text.length) ' ') ++ text

/-- A text with blanks after it, up to a number of characters. -/
def justifyLeft (width : Nat) (text : String) : String :=
  text ++ String.ofList (List.replicate (width - text.length) ' ')

/-! ## Composition -/

/-- A blank screen. -/
def blank (width height : Nat) : Screen :=
  List.replicate height (Row.blank width)

/-- Two screens of one height, side by side. -/
def beside (a b : Screen) : Screen :=
  List.zipWith (· ++ ·) a b

/-- Two screens of one width, one above the other. -/
def above (a b : Screen) : Screen :=
  a ++ b

/-- A share of a length in per cent, to the nearest cell. -/
def share (percent length : Nat) : Nat :=
  (percent * length + 50) / 100

/-! ## Boxes -/

/-- A row with a left and a right end; the right end is left out if there is only one column. -/
def ends (left : Char) (middle : Row) (right : Char) : Nat → Row
  | 0 => []
  | 1 => [[left]]
  | _ => [left] :: middle ++ [[right]]

/-- The upper edge of a box, with the title from the second column on. -/
def upperEdge (width : Nat) (title : String) : Row :=
  let line := Row.ofChars (List.replicate (width - 2) '─')
  ends '┌' (line.drawSpans 0 [title]) '┐' width

/-- The lower edge of a box. -/
def lowerEdge (width : Nat) : Row :=
  ends '└' (Row.ofChars (List.replicate (width - 2) '─')) '┘' width

/-- A box with a title and rows inside it, from the top; there are blank rows below them. -/
def box (width height : Nat) (title : String) (rows : List Row) : Screen :=
  match height with
  | 0 => []
  | 1 => [upperEdge width title]
  | inner + 2 =>
    let shown := rows.take inner
    let filled := shown ++ blank (width - 2) (inner - shown.length)
    upperEdge width title
      :: filled.map (fun row => ends '│' row '│' width)
      ++ [lowerEdge width]

/-- A box with nothing but a remark in its first line. -/
def remark (width height : Nat) (title text : String) : Screen :=
  box width height title [Row.left (width - 2) text]

/-- A box with a list of lines, each after one blank. -/
def indented (width height : Nat) (title : String) (lines : List String) : Screen :=
  box width height title
    (lines.map fun line => Row.blank (min 1 (width - 2)) ++ Row.ofSpans (width - 3) [line])

/-- The rows of a screen as texts. -/
def rows (s : Screen) : List String :=
  s.map Row.text

end Screen
end PSystem
