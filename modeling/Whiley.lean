import Whiley.Arena.History
import Whiley.Main
import Whiley.Scope.History
import Whiley.Session
import Whiley.Proofs.Token.Spelling
import Whiley.Proofs.Grammar.Ensures
import Whiley.Proofs.Grammar.FormedTypes
import Whiley.Proofs.Grammar.FormedExprs
import Whiley.Proofs.Grammar.FormedStmts
import Whiley.Proofs.Grammar.FormedDecls
import Whiley.Proofs.Tree.Scoping
import Whiley.Proofs.Tree.Static
import Whiley.Proofs.Tree.Lifetimes
import Whiley.Proofs.Layout.Readable
import Whiley.Proofs.Layout.ReadableExprs
import Whiley.Proofs.Layout.Faultless
import Whiley.Proofs.Grammar.Simulation
import Whiley.Proofs.Grammar.AlikeTypes
import Whiley.Proofs.Grammar.AlikeLiterals
import Whiley.Proofs.Grammar.AlikeExprs
import Whiley.Proofs.Grammar.AlikeStmts
import Whiley.Proofs.Grammar.AlikeDecls
import Whiley.Proofs.Token.Essence
import Whiley.Proofs.Grammar.SameEssence
import Whiley.Proofs.Grammar.Reread
import Whiley.Proofs.Grammar.Renamed
import Whiley.Proofs.Grammar.StoresDecls
import Whiley.Proofs.Grammar.Appended
import Whiley.Proofs.Token.Order
import Whiley.Proofs.Grammar.OffsideRule
import Whiley.Proofs.Grammar.Termination
import Whiley.Proofs.Text.Complaint
import Whiley.Proofs.Grammar.PrintedTypes
import Whiley.Proofs.Grammar.PrintedExprs
import Whiley.Proofs.Session
import Whiley.Proofs.Layout.Literals
import Whiley.Proofs.Token.Lossless
import Whiley.Proofs.Token.Longest
import Whiley.Proofs.Text.Carets
import Whiley.Proofs.Grammar.Beside
import Whiley.Proofs.Grammar.Casts
import Whiley.Proofs.Symbols
import Whiley.Proofs.View
import Whiley.Proofs.Scope
import Whiley.Proofs.Project.Check
import Whiley.Proofs.Arena
import Whiley.Proofs.Grammar.LineIndent
import Whiley.Proofs.Grammar.Endless
