/-!
# Names Given as Text

How a name typed by a user is compared with the names the library knows:
blanks around it do not count, and neither does the case of ASCII letters.
Blanks are the characters with the Unicode property `White_Space`.

## Main definitions

* `Text.isBlank`: The `White_Space` property.
* `Text.trimBlanks`: Text without surrounding blanks.
* `Text.foldName`: Trimmed text in ASCII lower case.
* `Text.named?`: The item of a list that has a name.
-/

namespace TraceCommit

namespace Text

/-- Whether a character has the Unicode property `White_Space`. -/
def isBlank (c : Char) : Bool :=
  let n := c.toNat
  (0x09 ≤ n && n ≤ 0x0d) || n = 0x20 || n = 0x85 || n = 0xa0 || n = 0x1680 ||
    (0x2000 ≤ n && n ≤ 0x200a) || n = 0x2028 || n = 0x2029 || n = 0x202f ||
    n = 0x205f || n = 0x3000

/-- The text without the blanks at its two ends. -/
def trimBlanks (s : String) : String :=
  let front := s.toList.dropWhile isBlank
  String.ofList (front.reverse.dropWhile isBlank).reverse

/-- The trimmed text with its ASCII letters in lower case; other letters stay. -/
def foldName (s : String) : String :=
  String.ofList ((trimBlanks s).toList.map Char.toLower)

/-- The first item whose name is exactly the text. -/
def named? {α : Type} (items : List α) (name : α → String) (text : String) : Option α :=
  items.find? fun item => name item == text

end Text

end TraceCommit
