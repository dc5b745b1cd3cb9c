namespace QueryGraph.Text

/-!
# Quoted literals

* `quote s`: the text between single quotes, each single quote in it doubled.
* `quoteChars cs`: the same on lists of characters.
-/

/-- Double every single quote. -/
def doubleQuotes (cs : List Char) : List Char :=
  cs.flatMap fun c => if c = '\'' then ['\'', '\''] else [c]

@[simp] theorem doubleQuotes_nil : doubleQuotes [] = [] := rfl

@[simp] theorem doubleQuotes_cons (c : Char) (cs : List Char) :
    doubleQuotes (c :: cs) = (if c = '\'' then ['\'', '\''] else [c]) ++ doubleQuotes cs := rfl

/-- The characters of a quoted literal. -/
def quoteChars (cs : List Char) : List Char := '\'' :: (doubleQuotes cs ++ ['\''])

/-- A text as a single-quoted query literal. -/
def quote (s : String) : String := String.ofList (quoteChars s.toList)

@[simp] theorem toList_quote (s : String) : (quote s).toList = quoteChars s.toList := by
  simp [quote]

end QueryGraph.Text
