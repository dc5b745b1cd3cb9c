import QueryGraph.Toml.Text

namespace QueryGraph.Toml

/-!
# Writing TOML

* `Form.fits`: whether a form can hold a text without an escape other than that of a tab.
* `formFor`: the form in which a text is written, the first one that fits.
* `stringChars`, `arrayText`, `entryText`: a string, an array of strings, and a line
  `key = value`.
-/

/-! ### The choice of a form -/

/-- Whether a quote stands three times in a row. -/
def hasTriple (quote : Char) : List Char → Bool
  | a :: b :: c :: cs => (a = quote && b = quote && c = quote) || hasTriple quote (b :: c :: cs)
  | _ => false

namespace Form

/-- Whether a form can hold a text as it is; tabs may have to be escaped. -/
def fits (f : Form) (cs : List Char) : Bool :=
  cs.all (fun c => isPlain c || c = '\n') && !(f.escapes && cs.contains '\\') &&
    if f.multiline then !hasTriple f.quote cs
    else !cs.contains f.quote && !cs.contains '\n'

end Form

/-- The form in which a text is written.  Texts that fit no form need escapes, and lie on
    several lines if they have a line feed. -/
def formFor (cs : List Char) : Form :=
  ([basic, literal, multilineBasic, multilineLiteral].find? fun f => f.fits cs).getD
    (if cs.contains '\n' then multilineBasic else basic)

/-! ### Strings -/

/-- A hexadecimal digit in upper case. -/
def upperHexDigit (n : Nat) : Char := Char.ofNat (if n < 10 then 48 + n else 55 + n)

/-- A character other than a quote between double quotes. -/
def escapedChar (multiline : Bool) (c : Char) : List Char :=
  if c = '\\' then ['\\', '\\']
  else if c = '\t' then ['\\', 't']
  else if c = '\r' then ['\\', 'r']
  else if c = '\n' then if multiline then ['\n'] else ['\\', 'n']
  else if c = Char.ofNat 8 then ['\\', 'b']
  else if c = Char.ofNat 12 then ['\\', 'f']
  else if isPlain c then [c]
  else ['\\', 'u', '0', '0', upperHexDigit (c.toNat / 16), upperHexDigit (c.toNat % 16)]

namespace Form

/-- The characters of a text between its quotes.  The number counts the double quotes directly
    in front that were written as they are; on several lines there may be two of them. -/
def body (f : Form) : Nat → List Char → List Char
  | _, [] => []
  | run, c :: cs =>
    if !f.escapes then c :: f.body 0 cs
    else if c = '"' then
      if f.multiline && run < 2 then '"' :: f.body (run + 1) cs
      else '\\' :: '"' :: f.body 0 cs
    else escapedChar f.multiline c ++ f.body 0 cs

@[simp] theorem body_nil (f : Form) (run : Nat) : f.body run [] = [] := rfl

/-- The quotes at both ends. -/
def delimiter (f : Form) : List Char := List.replicate (if f.multiline then 3 else 1) f.quote

/-- A text in a form.  On several lines the text proper begins on the line below the opening
    quotes. -/
def write (f : Form) (cs : List Char) : List Char :=
  f.delimiter ++ (if f.multiline && cs.contains '\n' then ['\n'] else []) ++ f.body 0 cs ++
    f.delimiter

end Form

/-- The characters of a string. -/
def stringChars (cs : List Char) : List Char := (formFor cs).write cs

/-- A string. -/
def stringText (s : String) : String := String.ofList (stringChars s.toList)

@[simp] theorem toList_stringText (s : String) : (stringText s).toList = stringChars s.toList := by
  simp [stringText]

/-! ### Arrays and entries -/

/-- An array of strings: two or more items take a line each, with a comma behind the last one
    too. -/
def arrayText : List String → String
  | [] => "[]"
  | [s] => "[" ++ stringText s ++ "]"
  | items => "[\n" ++ String.join (items.map fun s => "    " ++ stringText s ++ ",\n") ++ "]"

/-- A line `key = value`. -/
def entryText (key value : String) : String := key ++ " = " ++ value ++ "\n"

end QueryGraph.Toml
