import Propositional.Main
import Propositional.Semantics
import Propositional.Proofs.Rewriting.Instance
import Propositional.Proofs.Session.Previous
import Propositional.Proofs.TruthTable.Columns
import Propositional.Proofs.Printing.Statements
import Propositional.Proofs.Rewriting.Links
import Propositional.Proofs.Session.Notices
import Propositional.Proofs.Lexing.Joined
import Propositional.Proofs.Grammar.Depth
import Propositional.Proofs.Grammar.Renumbering
import Propositional.Proofs.Rewriting.Depth
import Propositional.Proofs.Session.NamedRules
import Propositional.Proofs.Rewriting.Marks
import Propositional.Proofs.Session.Stepwise
import Propositional.Proofs.Session.Hygiene
import Propositional.Proofs.Rewriting.Policy
import Propositional.Proofs.Session.Policy
import Propositional.Proofs.Lexing.Chunks
import Propositional.Proofs.Grammar.Prefix
import Propositional.Proofs.Ordering
import Propositional.Proofs.Rewriting.Positions
import Propositional.Proofs.Rewriting.Fold
import Propositional.Proofs.Session.RuleNames
import Propositional.Proofs.TruthTable.Enumeration
import Propositional.Proofs.Grammar.Laziness
import Propositional.Proofs.Lexing.Halves
import Propositional.Proofs.Grammar.Names
import Propositional.Proofs.Rewriting.Strict
import Propositional.Proofs.TruthTable.Queries
import Propositional.Proofs.Grammar.Calls
import Propositional.Proofs.Grammar.Renaming
import Propositional.Proofs.TruthTable.Layout
import Propositional.Proofs.CommandLine
import Propositional.Proofs.TruthTable.Collection
