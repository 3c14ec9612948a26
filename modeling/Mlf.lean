import Mlf.Check.Basic
import Mlf.Check.CommandLine
import Mlf.Check.Dump
import Mlf.Diagnostic.Basic
import Mlf.Diagnostic.Sink
import Mlf.Document.Basic
import Mlf.Document.ExprNode
import Mlf.Document.Field
import Mlf.Document.Mismatch
import Mlf.Document.Reader
import Mlf.Document.ShapeError
import Mlf.Document.TypeNode
import Mlf.Expr.Basic
import Mlf.Expr.Printer
import Mlf.Infer.Basic
import Mlf.Infer.Stamp
import Mlf.Log.Basic
import Mlf.Log.Event
import Mlf.Main
import Mlf.Name.Map
import Mlf.Name.Set
import Mlf.Name.Supply
import Mlf.Number.Basic
import Mlf.Number.Shortest
import Mlf.Number.Text
import Mlf.Polytype.Basic
import Mlf.Polytype.Equiv
import Mlf.Polytype.Free
import Mlf.Polytype.Normal
import Mlf.Polytype.Printer
import Mlf.Polytype.Subst
import Mlf.Prefix.Basic
import Mlf.Prefix.Failure
import Mlf.Prefix.Generalize
import Mlf.Prefix.Reach
import Mlf.Prefix.Resolve
import Mlf.Proofs.Annotations
import Mlf.Proofs.Divergence
import Mlf.Proofs.Equivalence
import Mlf.Proofs.FreshNames
import Mlf.Proofs.Generalization
import Mlf.Proofs.Ground
import Mlf.Proofs.InferInvariant
import Mlf.Proofs.InferRun
import Mlf.Proofs.Instances
import Mlf.Proofs.Marks
import Mlf.Proofs.Nameless
import Mlf.Proofs.Narrowing
import Mlf.Proofs.NormalForm
import Mlf.Proofs.PrefixRuns
import Mlf.Proofs.Principality
import Mlf.Proofs.Reachability
import Mlf.Proofs.Resolution
import Mlf.Proofs.RigidBounds
import Mlf.Proofs.Solutions
import Mlf.Proofs.SolvedVariables
import Mlf.Proofs.Termination
import Mlf.Proofs.UnifyCompleteness
import Mlf.Proofs.UnifyInvariant
import Mlf.Proofs.UnifyRun
import Mlf.Proofs.UnifySolutions
import Mlf.Proofs.UnifySteps
import Mlf.Proofs.WellFormed
import Mlf.Scope
import Mlf.Text.Printable
import Mlf.Text.Quoted
import Mlf.Trace
import Mlf.Unify.Basic
import Mlf.Unify.Display
import Mlf.Unify.Session
import Mlf.Yaml.Cursor
import Mlf.Yaml.Node
import Mlf.Yaml.Reader
import Mlf.Yaml.Scalar
import Mlf.Proofs.Messages
import Mlf.Proofs.PrefixCopies
import Mlf.Proofs.RunCopies
import Mlf.Proofs.Modularity
import Mlf.Proofs.Wildcards
import Mlf.Proofs.QuantifierOrder
import Mlf.Proofs.OpenedChains
import Mlf.Proofs.Twins
import Mlf.Proofs.CopyRuns
import Mlf.Proofs.SelfAnnotation
import Mlf.Proofs.Partition
import Mlf.Proofs.Histories
import Mlf.Proofs.RecordedRuns
import Mlf.Proofs.NodeTypes
import Mlf.Proofs.Layouts
import Mlf.Proofs.LayoutTies
import Mlf.Proofs.LayoutSearch
import Mlf.Proofs.Lockstep
import Mlf.Proofs.Orientation
import Mlf.Proofs.Agreement
import Mlf.Proofs.Frames
import Mlf.Proofs.FirstOrder
import Mlf.Proofs.NormalChains
import Mlf.Proofs.Reports
import Mlf.Proofs.Substitution
import Mlf.Proofs.Quantified
import Mlf.Proofs.RoundTrip
import Mlf.Proofs.LevelMoves
import Mlf.Proofs.PrintedTypes
import Mlf.Proofs.DisplayedNames
import Mlf.Proofs.Documents
import Mlf.Proofs.FreeOccurrences
import Mlf.Proofs.NameSearches
import Mlf.Proofs.PrintedExprs
import Mlf.Proofs.InPlace
import Mlf.Proofs.LetChains
import Mlf.Proofs.InPlaceRuns
import Mlf.Proofs.Silence
