namespace QueryGraph.Text

/-!
# Blank characters

* `isBlank c`: `c` has the Unicode property `White_Space`.
* `trim s`: `s` without the blank characters at its two ends.
* `content? s`: the trimmed text, if it is there and not empty.  Names that a user may leave
  open (event names, view names, aggregate fields) are read through it.
-/

/-- The 25 code points with the Unicode property `White_Space`. -/
def isBlank (c : Char) : Bool :=
  (9 ≤ c.toNat && c.toNat ≤ 13) || c.toNat == 0x20 || c.toNat == 0x85 || c.toNat == 0xA0 ||
    c.toNat == 0x1680 || (0x2000 ≤ c.toNat && c.toNat ≤ 0x200A) || c.toNat == 0x2028 ||
    c.toNat == 0x2029 || c.toNat == 0x202F || c.toNat == 0x205F || c.toNat == 0x3000

/-- Drop the blank characters at both ends of a list. -/
def trimChars (cs : List Char) : List Char :=
  ((cs.dropWhile isBlank).reverse.dropWhile isBlank).reverse

/-- Drop the blank characters at both ends of a text. -/
def trim (s : String) : String := String.ofList (trimChars s.toList)

@[simp] theorem toList_trim (s : String) : (trim s).toList = trimChars s.toList := by
  simp [trim]

/-- The trimmed text; absent and blank texts alike count as nothing. -/
def content? (s : Option String) : Option String :=
  match s with
  | none => none
  | some t => if (trim t).isEmpty then none else some (trim t)

@[simp] theorem content?_none : content? none = none := rfl

end QueryGraph.Text
