import SymbolTree.View.Cursor

/-!
# Copying entries out

The entries at and below a directory are copied into a list of places, from a given place on. Either
all of them find room, or the places stay as they are and the answer says what is wrong.
-/
namespace SymbolTree

/-- Why entries cannot be copied. -/
inductive Misfit where
  | startPastEnd (start places : Nat)
  | tooLittleRoom (room needed : Nat)
deriving DecidableEq

namespace Misfit

def reason : Misfit → String
  | startPastEnd start places =>
    "start offset " ++ toString start ++ " exceeds destination length " ++ toString places
  | tooLittleRoom room needed =>
    "destination has room for " ++ toString room ++ " entries, " ++ toString needed ++ " needed"

def failure (misfit : Misfit) : Failure := .invalidArgument misfit.reason

end Misfit

/-- The places after a copy, and what was wrong if nothing was copied. -/
structure Copied (V : Type) where
  places : List (String × V)
  misfit : Option Misfit

variable {V : Type}

/-- Writes items over places, first over first, until one of the lists ends. -/
def overwrite {α : Type} : (places items : List α) → List α
  | _ :: places, item :: items => item :: overwrite places items
  | places, [] => places
  | [], _ :: _ => []

def View.copyInto (view : View V) (places : List (String × V)) (start : Nat) : Copied V :=
  if places.length < start then ⟨places, some (.startPastEnd start places.length)⟩
  else
    let room := places.length - start
    if room < view.size then ⟨places, some (.tooLittleRoom room view.size)⟩
    else ⟨places.take start ++ overwrite (places.drop start) view.entries, none⟩

end SymbolTree
