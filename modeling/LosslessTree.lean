import LosslessTree.Length
import LosslessTree.Trivia
import LosslessTree.Token.Kind
import LosslessTree.Token.Basic
import LosslessTree.NodeKind
import LosslessTree.Trace
import LosslessTree.Tree.Basic
import LosslessTree.Tree.Draft
import LosslessTree.Tree.Events
import LosslessTree.Node.Basic
import LosslessTree.Node.Identity
import LosslessTree.Node.Fold
import LosslessTree.Builder.Error
import LosslessTree.Builder.Basic
import LosslessTree.Walk
import LosslessTree.Transform
import LosslessTree.View.Basic
import LosslessTree.View.Element
import LosslessTree.View.Named
import LosslessTree.Visitor.Basic
import LosslessTree.Visitor.Recording
import LosslessTree.Proofs.ByteLength
import LosslessTree.Proofs.Overwriting
import LosslessTree.Proofs.TokenSlots
import LosslessTree.Proofs.Layout
import LosslessTree.Proofs.Replacements
import LosslessTree.Proofs.Within
import LosslessTree.Proofs.Provenance
import LosslessTree.Proofs.Stream
import LosslessTree.Proofs.Builder.Step
import LosslessTree.Proofs.Builder.Grammar
import LosslessTree.Proofs.Builder.Replay
import LosslessTree.Proofs.Builder.Identity
import LosslessTree.Proofs.Transform.Renewed
import LosslessTree.Proofs.Transform.Provenance
import LosslessTree.Proofs.Transform.Single
import LosslessTree.Proofs.Rename.Copy
import LosslessTree.Proofs.Forest
import LosslessTree.Proofs.TextRanges
import LosslessTree.Proofs.Dump
import LosslessTree.Proofs.Transform.Rebuild
import LosslessTree.Proofs.Rename.Result
import LosslessTree.Proofs.Transform.Asked
import LosslessTree.Proofs.Navigation
import LosslessTree.Proofs.Identity
import LosslessTree.Proofs.Walk.Pruned
import LosslessTree.Proofs.Walk.Tour
import LosslessTree.Proofs.Walk.Entered
import LosslessTree.Proofs.Walk.Confinement
import LosslessTree.Proofs.Congruence
import LosslessTree.Proofs.Listing
import LosslessTree.Proofs.Visitor.Untyped
import LosslessTree.Proofs.Visitor.Tokens
import LosslessTree.Proofs.Transform.Order
import LosslessTree.Proofs.Transform.Sharing
import LosslessTree.Proofs.Reading
import LosslessTree.Proofs.Overflow
import LosslessTree.Proofs.Walk.Progress
import LosslessTree.Proofs.Walk.Brackets
import LosslessTree.Proofs.Faces
import LosslessTree.Proofs.Transform.Edits
import LosslessTree.Proofs.Rename.Face
import LosslessTree.Proofs.Rename.Registers
import LosslessTree.Proofs.Exposed
import LosslessTree.Proofs.Visitor.Typed
import LosslessTree.Proofs.Moves
import LosslessTree.Proofs.Marks
import LosslessTree.Proofs.Builder.Position
import LosslessTree.Proofs.Builder.Trace
import LosslessTree.Proofs.Transform.Fitting
import LosslessTree.Proofs.Transform.Accessors
