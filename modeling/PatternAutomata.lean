import PatternAutomata.Main
import PatternAutomata.Proofs.Composition
import PatternAutomata.Proofs.Minimal.Congruence
import PatternAutomata.Proofs.Minimal.NormalForm
import PatternAutomata.Report
import PatternAutomata.Workbench
import PatternAutomata.Proofs.Automaton.InPlace
import PatternAutomata.Proofs.Automaton.Answers
import PatternAutomata.Proofs.Workbench.Building
import PatternAutomata.Proofs.Automaton.Trim
import PatternAutomata.Proofs.Automaton.Runs
import PatternAutomata.Proofs.Session.Causality
import PatternAutomata.Proofs.StateSets
import PatternAutomata.Proofs.Automaton.Verdicts
import PatternAutomata.Proofs.Pattern.Erasure
import PatternAutomata.Proofs.Pattern.Place
import PatternAutomata.Proofs.Pattern.EmptyGroupScan
import PatternAutomata.Proofs.Pattern.Insertion
import PatternAutomata.Proofs.Pattern.Parentheses
import PatternAutomata.Proofs.Pattern.BuildErrors
import PatternAutomata.Proofs.Pattern.Rejection
import PatternAutomata.Proofs.Pattern.Spelling
import PatternAutomata.Proofs.Pattern.Positions
import PatternAutomata.Proofs.Pattern.Prepared
import PatternAutomata.Proofs.Minimal.AnyClasses
import PatternAutomata.Proofs.Pattern.OpeningEmptyGroup
import PatternAutomata.Proofs.Text.AdjacencyTable
import PatternAutomata.Proofs.Text.TreeDrawing
import PatternAutomata.Proofs.Wiring
import PatternAutomata.Proofs.Minimal.Passes
import PatternAutomata.Proofs.Minimal.UnionHistory
import PatternAutomata.Proofs.Automaton.LeastClosed
import PatternAutomata.Proofs.Pattern.CheckedBuild
