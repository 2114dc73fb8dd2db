/-!
# The order of texts

Texts are ordered by the code points of their characters, first difference first; a text comes
before every longer text that starts with it.
-/
namespace SymbolTree.Text

def charsAtMost : List Char → List Char → Bool
  | [], _ => true
  | _ :: _, [] => false
  | c :: left, d :: right => c.toNat < d.toNat || (c == d && charsAtMost left right)

/-- Whether `left` comes before `right` or equals it. -/
def atMost (left right : String) : Bool := charsAtMost left.toList right.toList

end SymbolTree.Text
