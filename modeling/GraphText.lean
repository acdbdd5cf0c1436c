import GraphText.Reader.Run
import GraphText.Writer
import GraphText.Writer.Quota
import GraphText.FileTree
import GraphText.Pool
import GraphText.Loader
import GraphText.Tracked
import GraphText.Inspect
import GraphText.Options.Variables
import GraphText.Proofs.Heap.Graph
import GraphText.Proofs.Heap.Walk
import GraphText.Proofs.Heap.Copied
import GraphText.Proofs.Reader.Completed
import GraphText.Proofs.Reader.References
import GraphText.Proofs.Heap.Beside
import GraphText.Proofs.Reader.Beside
import GraphText.Proofs.Reader.Include
import GraphText.Proofs.Reader.Preorder
import GraphText.Proofs.Writer.Expansion
import GraphText.Proofs.Heap.Fields
import GraphText.Proofs.Heap.Typed
import GraphText.Proofs.Number.Written
import GraphText.Proofs.Reader.Plan
import GraphText.Proofs.Reader.Redrawn
import GraphText.Proofs.RoundTrip
import GraphText.Proofs.Reader.Frozen
import GraphText.Proofs.Heap.Contents
import GraphText.Proofs.Reader.Conforming
import GraphText.Proofs.Heap.Isomorphic
import GraphText.Proofs.Reader.Rescan
import GraphText.Proofs.Registry.Bases
import GraphText.Proofs.Reader.Termination
import GraphText.Proofs.Writer.Filtered
import GraphText.Proofs.Reader.Grammar
import GraphText.Proofs.Reader.Faults
import GraphText.Proofs.Reader.Located
import GraphText.Proofs.Reader.Session
import GraphText.Proofs.Writer.Wording
import GraphText.Proofs.Reader.Trail
import GraphText.Proofs.Writer.Grounding
import GraphText.Proofs.Cyclic
import GraphText.Proofs.Dependency.Meaning
import GraphText.Proofs.Writer.Mirrored
import GraphText.Proofs.Pool.Usage
import GraphText.Proofs.Pool.Discipline
import GraphText.Proofs.Pool.Prototypes
import GraphText.Proofs.Writer.Identity
import GraphText.Proofs.Pool.Numbering
import GraphText.Proofs.Reader.Singles
import GraphText.Proofs.Reader.Commented
import GraphText.Proofs.Scope.History
import GraphText.Proofs.Reader.Framed
import GraphText.Proofs.Token.Nesting
import GraphText.Proofs.Reader.Nesting
import GraphText.Proofs.Reader.Record
import GraphText.Proofs.Reader.Filling
import GraphText.Proofs.Reader.Making
import GraphText.Proofs.Reader.Effect
import GraphText.Proofs.Token.Strings
import GraphText.Proofs.Writer.Requests
import GraphText.Proofs.Reader.Commas
import GraphText.Proofs.Value.FlagTexts
import GraphText.Proofs.Reader.Integers
import GraphText.Proofs.Token.Slices
import GraphText.Proofs.Registry.Derived
import GraphText.Proofs.Token.Respaced
import GraphText.Proofs.Heap.Lenses
import GraphText.Proofs.Writer.NewNames
import GraphText.Proofs.Heap.Misfits
import GraphText.Proofs.Reader.Given
import GraphText.Proofs.Reader.Misfits
