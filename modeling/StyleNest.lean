import StyleNest.Json.Reader
import StyleNest.Json.Rules
import StyleNest.Main
import StyleNest.Proofs.CommandLine.Conversion
import StyleNest.Proofs.CommandLine.Listing
import StyleNest.Proofs.CommandLine.Outline
import StyleNest.Proofs.Convert.Again
import StyleNest.Proofs.Convert.Flattening
import StyleNest.Proofs.Diagnostic.Message
import StyleNest.Proofs.Scss.Subtree
import StyleNest.Proofs.Selector.Viability
import StyleNest.Proofs.Session.Growth
import StyleNest.Proofs.Sheet.Cuts
import StyleNest.Proofs.Sheet.LineEnds
import StyleNest.Proofs.Tree.FirstSeen
import StyleNest.Proofs.Tree.Shorthand
import StyleNest.Proofs.Tree.Slices
import StyleNest.Scss.Reader
import StyleNest.Session
import StyleNest.Tree
