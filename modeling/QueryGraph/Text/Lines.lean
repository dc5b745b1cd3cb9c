namespace QueryGraph.Text

/-!
# Lines and indentation

* `splitFeeds cs`: the pieces between line feeds, one more than there are feeds.
* `lines cs`: the lines of a text.  A line feed ends a line, together with one carriage return
  directly before it; a text that ends in a feed has no empty last line.
* `indent s`: every non-empty line of `s` moved right by four spaces.
-/

/-- Put one more character in front of a list of pieces; a line feed opens a new piece. -/
def consPiece (c : Char) (pieces : List (List Char)) : List (List Char) :=
  if c = '\n' then [] :: pieces
  else
    match pieces with
    | [] => [[c]]
    | p :: ps => (c :: p) :: ps

/-- The pieces of a text between its line feeds. -/
def splitFeeds (cs : List Char) : List (List Char) := cs.foldr consPiece [[]]

@[simp] theorem splitFeeds_nil : splitFeeds [] = [[]] := rfl

@[simp] theorem splitFeeds_cons (c : Char) (cs : List Char) :
    splitFeeds (c :: cs) = consPiece c (splitFeeds cs) := rfl

/-- Drop one carriage return at the end of a piece. -/
def dropReturn (p : List Char) : List Char :=
  if p.getLast? = some '\r' then p.dropLast else p

/-- Pieces as lines.  All but the last were ended by a feed and lose the carriage return in
    front of it; the last one is a line only if something stands in it. -/
def closeLines : List (List Char) → List (List Char)
  | [] => []
  | [p] => if p.isEmpty then [] else [p]
  | p :: q :: ps => dropReturn p :: closeLines (q :: ps)

/-- The lines of a text. -/
def lines (cs : List Char) : List (List Char) := closeLines (splitFeeds cs)

/-- Four spaces in front of a line, unless the line is empty. -/
def indentLine (l : List Char) : List Char :=
  if l.isEmpty then [] else ' ' :: ' ' :: ' ' :: ' ' :: l

/-- Indent every non-empty line of a list of characters. -/
def indentChars (cs : List Char) : List Char :=
  ['\n'].intercalate ((lines cs).map indentLine)

/-- Indent every non-empty line of a text by four spaces. -/
def indent (s : String) : String := String.ofList (indentChars s.toList)

@[simp] theorem toList_indent (s : String) : (indent s).toList = indentChars s.toList := by
  simp [indent]

end QueryGraph.Text
