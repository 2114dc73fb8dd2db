import SymbolTree.Resolution
import SymbolTree.Value
import SymbolTree.View.Cursor

/-!
# Texts for a developer

How handles, views, hits and whole lists of entries are written for someone who looks into a tree.
-/
namespace SymbolTree

/-- A name and, in braces, fields with their texts. -/
def inspectFields (name : String) (fields : List (String × String)) : String :=
  let written := fields.map fun (field, text) => field ++ ": " ++ text
  name ++ " \x7b " ++ ", ".intercalate written ++ " \x7d"

def Handle.inspect (handle : Handle) : String :=
  inspectFields "NodeId"
    [("index", toString handle.index), ("generation", toString handle.generation)]

/-- The path of the directory, and how much it holds itself. -/
def View.inspect {V : Type} (view : View V) : String :=
  inspectFields "Dir"
    [("path", Text.quote view.path), ("leaves", toString view.leaves.size),
      ("children", toString view.slot.children.size)]

variable {V : Type} [Listed V]

def inspectEntry (entry : String × V) : String :=
  Text.quote entry.1 ++ ": " ++ Listed.inspect entry.2

/-- Entries on one line. -/
def inspectEntries (entries : List (String × V)) : String :=
  "\x7b" ++ ", ".intercalate (entries.map inspectEntry) ++ "\x7d"

/-- Entries with a line for each; without entries there is one line for all. -/
def inspectLines (entries : List (String × V)) : List String :=
  if entries.isEmpty then ["\x7b\x7d"]
  else "\x7b" :: entries.map (fun entry => "    " ++ inspectEntry entry ++ ",") ++ ["\x7d"]

def Resolved.inspect (hit : Resolved V) : String :=
  inspectFields "Resolved"
    [("key", Text.quote hit.key), ("step", hit.step.label), ("value", Listed.inspect hit.value)]

/-- A hit or its absence. -/
def inspectResolution : Option (Resolved V) → String
  | some hit => "Some(" ++ hit.inspect ++ ")"
  | none => "None"

end SymbolTree
