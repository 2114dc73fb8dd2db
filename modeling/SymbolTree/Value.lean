import SymbolTree.Text.Order
import SymbolTree.Text.Quoted

/-!
# Values

A tree holds values of any type. To write one for a developer, or to list values in an order of
their own, more has to be known about them; this is known of integers, texts and floating-point
numbers.
-/
namespace SymbolTree

/-- Values that can be written and put in order. -/
class Listed (V : Type) where
  inspect : V → String
  /-- Whether the first value comes before the second in a list, or may. -/
  atMost : V → V → Bool

instance : Listed Int := ⟨toString, fun a b => a ≤ b⟩

instance : Listed String := ⟨Text.quote, Text.atMost⟩

/-- A floating-point number together with its written form. -/
structure Double where
  text : String
  number : Float

namespace Double

/-- Numbers are compared as numbers: the zeros are equal and no NaN equals anything. -/
instance : BEq Double := ⟨fun a b => a.number == b.number⟩

instance : Inhabited Double := ⟨⟨"0.0", 0.0⟩⟩

/-- A number without its sign: digits, a point and digits, or a name. -/
def magnitude? (text : List Char) : Option Float :=
  if text = "inf".toList then some (1.0 / 0.0)
  else if text = "NaN".toList then some (0.0 / 0.0)
  else
    let whole := text.takeWhile Char.isDigit
    match text.dropWhile Char.isDigit with
    | '.' :: fraction =>
      if whole.isEmpty || fraction.isEmpty || !fraction.all Char.isDigit then none
      else
        let digits := (whole ++ fraction).foldl (fun n c => 10 * n + (c.toNat - '0'.toNat)) 0
        some (Float.ofScientific digits true fraction.length)
    | _ => none

def parse? (text : String) : Option Double :=
  match text.toList with
  | '-' :: rest => (magnitude? rest).map fun number => ⟨text, -number⟩
  | all => (magnitude? all).map fun number => ⟨text, number⟩

/-- The place in the order of all numbers: negative before positive, also for the zeros, and each
NaN beyond the infinity of its sign. -/
def rank (double : Double) : Int :=
  let bits := double.number.toBits.toNat
  if bits < 0x8000000000000000 then bits else 0x7FFFFFFFFFFFFFFF - (bits : Int)

instance : Listed Double := ⟨text, fun a b => a.rank ≤ b.rank⟩

end Double
end SymbolTree
