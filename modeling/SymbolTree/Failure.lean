import SymbolTree.Text.Quoted

/-!
# Failures

Why an operation refused, and the words for it.
-/
namespace SymbolTree

inductive Failure where
  /-- `key` leads nowhere: at its level there is nothing under `segment`, neither the entry at the
  end nor a directory on the way. -/
  | keyNotFound (key segment : String)
  | invalidArgument (reason : String)
deriving DecidableEq

namespace Failure

def message : Failure → String
  | keyNotFound key segment =>
    "key not found: " ++ Text.quote key ++ " (no entry for segment " ++ Text.quote segment ++ ")"
  | invalidArgument reason => "invalid argument: " ++ reason

def isKeyNotFound : Failure → Bool
  | keyNotFound .. => true
  | invalidArgument _ => false

/-- The failure as it is written for a developer, with its cause by name. -/
def inspect : Failure → String
  | keyNotFound key segment =>
    "KeyNotFound \x7b key: " ++ Text.quote key ++ ", segment: " ++ Text.quote segment ++ " \x7d"
  | invalidArgument reason => "InvalidArgument(" ++ Text.quote reason ++ ")"

end Failure
end SymbolTree
