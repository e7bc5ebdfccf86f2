import GuardedLisp.Main
import GuardedLisp.Proofs.Simulation
import GuardedLisp.Proofs.Run
import GuardedLisp.Proofs.Record
import GuardedLisp.Proofs.Depth
import GuardedLisp.Proofs.Activation
import GuardedLisp.Proofs.Templates
import GuardedLisp.Proofs.Innermost
import GuardedLisp.Proofs.Closures
import GuardedLisp.Proofs.Termination
import GuardedLisp.Proofs.Nesting
import GuardedLisp.Proofs.Class.Frozen
import GuardedLisp.Proofs.Class.Sealed
import GuardedLisp.Proofs.Class.Descent
import GuardedLisp.Proofs.Class.Capability
import GuardedLisp.Proofs.Class.Arguments
import GuardedLisp.Proofs.Class.Secret
import GuardedLisp.Proofs.Class.Secrecy
import GuardedLisp.Proofs.Renaming.Value
import GuardedLisp.Proofs.Renaming.Store
import GuardedLisp.Proofs.Renaming.Mirror
import GuardedLisp.Proofs.Renaming.Eval
import GuardedLisp.Proofs.Renaming.Turn
import GuardedLisp.Proofs.Renaming.Ahead
import GuardedLisp.Proofs.Renaming.Number
import GuardedLisp.Proofs.Printed
import GuardedLisp.Proofs.Drivers
import GuardedLisp.Proofs.Reader.Shift
import GuardedLisp.Proofs.Reader.Table
import GuardedLisp.Proofs.Reader.Grammar
import GuardedLisp.Proofs.Reader.Brackets
import GuardedLisp.Proofs.Reader.Stack
import GuardedLisp.Proofs.Reader.Rest
import GuardedLisp.Proofs.Reader.Tokens
import GuardedLisp.Proofs.Reader.Derivation
import GuardedLisp.Proofs.Reader.Extension
import GuardedLisp.Proofs.Reader.Written
import GuardedLisp.Proofs.Reader.Printing
import GuardedLisp.Proofs.Reader.Ends
import GuardedLisp.Proofs.Reader.Lines
import GuardedLisp.Proofs.Rejected
import GuardedLisp.Proofs.Texts
import GuardedLisp.Proofs.Loop
import GuardedLisp.Proofs.Slots
import GuardedLisp.Proofs.Vocabulary
import GuardedLisp.Proofs.Reachable
import GuardedLisp.Proofs.Class.Typing
import GuardedLisp.Proofs.Frames
import GuardedLisp.Proofs.Class.Lineage
import GuardedLisp.Proofs.Class.Ancestors
import GuardedLisp.Proofs.Reader.Front
import GuardedLisp.Proofs.Reader.Stop
import GuardedLisp.Proofs.Reader.Interning
import GuardedLisp.Proofs.Scopes
import GuardedLisp.Proofs.Class.Changes
import GuardedLisp.Proofs.Definitions
import GuardedLisp.Proofs.Reader.Gathering
import GuardedLisp.Proofs.Parameters
import GuardedLisp.Proofs.Outcomes
import GuardedLisp.Proofs.Reader.Beginning
import GuardedLisp.Proofs.Reader.InStep
import GuardedLisp.Proofs.Reader.Single
import GuardedLisp.Proofs.Reader.Comments
import GuardedLisp.Proofs.Reader.Report
import GuardedLisp.Proofs.Discipline
import GuardedLisp.Proofs.Bindings
import GuardedLisp.Proofs.Likeness
import GuardedLisp.Proofs.Primitives
import GuardedLisp.Proofs.OneLine
import GuardedLisp.Proofs.Tracing
import GuardedLisp.Proofs.Memory
import GuardedLisp.Proofs.Chain
import GuardedLisp.Proofs.Lists
