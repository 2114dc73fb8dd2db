import SymbolTree.Arrangement
import SymbolTree.Checked
import SymbolTree.Inspect
import SymbolTree.Journal
import SymbolTree.Key.Splitting
import SymbolTree.Listing
import SymbolTree.Model
import SymbolTree.Resolution.Candidates
import SymbolTree.Tree.WellFormed
import SymbolTree.View.Enumeration
import SymbolTree.View.Turns
import SymbolTree.Proofs.Descent
import SymbolTree.Proofs.Views
import SymbolTree.Proofs.Subtrees
import SymbolTree.Proofs.Links
import SymbolTree.Proofs.Growth
import SymbolTree.Proofs.Pruning
import SymbolTree.Proofs.Edits
import SymbolTree.Proofs.Enumeration
import SymbolTree.Proofs.Access
import SymbolTree.Proofs.Arena
import SymbolTree.Proofs.Contents
import SymbolTree.Proofs.Refinement
import SymbolTree.Proofs.Directories
import SymbolTree.Proofs.Prefixed
import SymbolTree.Proofs.Resolution
import SymbolTree.Proofs.Lifetimes
import SymbolTree.Proofs.Handles
import SymbolTree.Proofs.Reaching
import SymbolTree.Proofs.Replay
import SymbolTree.Proofs.Log
import SymbolTree.Proofs.Arrangements
import SymbolTree.Proofs.Paths
import SymbolTree.Proofs.Iteration
import SymbolTree.Proofs.Twins
import SymbolTree.Proofs.Clearings
import SymbolTree.Proofs.Lookup
import SymbolTree.Proofs.Counting
import SymbolTree.Proofs.Detachment
import SymbolTree.Proofs.Insertion
import SymbolTree.Proofs.Rounds
import SymbolTree.Proofs.Qualification
import SymbolTree.Proofs.Shadowing
import SymbolTree.Proofs.Redundancy
import SymbolTree.Proofs.Collecting
import SymbolTree.Proofs.Segments
import SymbolTree.Proofs.Copying
import SymbolTree.Proofs.Worklists
import SymbolTree.Proofs.Tours
import SymbolTree.Proofs.Traversals
