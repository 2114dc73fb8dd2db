import SymbolTree.Text.Extending

/-!
# Quoted text

A text between double quotes in which every character can be seen. Quotes, backslashes, tabs, line
ends and NUL have short escapes; other characters that do not print, or that would join onto the
one before them, are written by their code point.
-/
namespace SymbolTree.Text

/-- A code point in hexadecimal, lower case, with no leading zero. -/
def codePoint (c : Char) : String :=
  "\\u\x7b" ++ String.ofList (Nat.toDigits 16 c.toNat) ++ "\x7d"

def escape (c : Char) : String :=
  match c with
  | '"' => "\\\""
  | '\\' => "\\\\"
  | '\t' => "\\t"
  | '\n' => "\\n"
  | '\r' => "\\r"
  | '\x00' => "\\0"
  | c => if isExtending c || !isPrintable c then codePoint c else c.toString

def quote (text : String) : String :=
  "\"" ++ String.join (text.toList.map escape) ++ "\""

end SymbolTree.Text
