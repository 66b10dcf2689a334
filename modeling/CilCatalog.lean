import CilCatalog.Base64
import CilCatalog.Bytes
import CilCatalog.CallingConvention
import CilCatalog.Catalog
import CilCatalog.Comparison
import CilCatalog.Constant
import CilCatalog.Description.Blueprint
import CilCatalog.Description.Entity
import CilCatalog.Description.Outline
import CilCatalog.Description.Tree
import CilCatalog.Diagnostic.Basic
import CilCatalog.Diagnostic.Desk
import CilCatalog.Document.Decode
import CilCatalog.Document.Encode
import CilCatalog.Document.Text
import CilCatalog.ElementType
import CilCatalog.Entity
import CilCatalog.Failure
import CilCatalog.FloatBits
import CilCatalog.Json.Access
import CilCatalog.Json.Emit
import CilCatalog.Json.Lexeme
import CilCatalog.Json.Parse
import CilCatalog.Json.Value
import CilCatalog.Keyed
import CilCatalog.Live.AssemblyName
import CilCatalog.Live.Code
import CilCatalog.Live.Definition
import CilCatalog.Live.OpCode
import CilCatalog.Live.Signature
import CilCatalog.Live.Store
import CilCatalog.Live.Walk
import CilCatalog.Partition
import CilCatalog.Proofs.Base64
import CilCatalog.Proofs.Comparison
import CilCatalog.Proofs.Decimal
import CilCatalog.Proofs.Document.Constant
import CilCatalog.Proofs.Document.Durable
import CilCatalog.Proofs.Document.Entity
import CilCatalog.Proofs.Document.Members
import CilCatalog.Proofs.Document.Parts
import CilCatalog.Proofs.Document.Text
import CilCatalog.Proofs.Document.Tree
import CilCatalog.Proofs.FloatBits
import CilCatalog.Proofs.Json.Lexeme
import CilCatalog.Proofs.Json.RoundTrip
import CilCatalog.Proofs.Outcome
import CilCatalog.Proofs.Partition
import CilCatalog.Proofs.SigTree.Format
import CilCatalog.Proofs.SigTree.Grammar
import CilCatalog.Proofs.SigTree.Lexeme
import CilCatalog.Proofs.SigTree.Parse
import CilCatalog.Proofs.SigTree.Shape
import CilCatalog.Reading.Basic
import CilCatalog.Reading.Body
import CilCatalog.Reading.Definition
import CilCatalog.Reading.Entity
import CilCatalog.Reading.Reference
import CilCatalog.Registry
import CilCatalog.SigTree.Basic
import CilCatalog.SigTree.Format
import CilCatalog.SigTree.Lexeme
import CilCatalog.SigTree.Parse
import CilCatalog.SigTree.Shape
import CilCatalog.Token
import CilCatalog.TokenMap
import CilCatalog.Trial
import CilCatalog.Trial.Catalogs
import CilCatalog.Trial.Documents
import CilCatalog.Trial.Modules
import CilCatalog.Trial.Trees
import CilCatalog.Warned
import CilCatalog.Writing.Argument
import CilCatalog.Writing.Basic
import CilCatalog.Writing.Body
import CilCatalog.Writing.Definition
import CilCatalog.Writing.Entity
import CilCatalog.Writing.Reference
import CilCatalog.Proofs.Copying.Follows
import CilCatalog.Proofs.Copying.Frame
import CilCatalog.Proofs.Copying.Furnish
import CilCatalog.Proofs.Copying.House
import CilCatalog.Proofs.Copying.Types
import CilCatalog.Proofs.Writing.Argument
import CilCatalog.Proofs.Writing.Signature
import CilCatalog.Proofs.Journal
import CilCatalog.Proofs.Document.Accepted
import CilCatalog.Proofs.Document.Depth
import CilCatalog.Proofs.Document.Stable
import CilCatalog.Proofs.Reading.Covered
import CilCatalog.Proofs.Reading.Closed
import CilCatalog.Proofs.Reading.Mirrored
import CilCatalog.Proofs.Copying.Identity
import CilCatalog.Proofs.Copying.Alter
import CilCatalog.Proofs.Copying.Body
import CilCatalog.Proofs.Copying.Define
import CilCatalog.Proofs.Copying.Whole
import CilCatalog.Proofs.Json.Limits
import CilCatalog.Proofs.Partition.Consistent
import CilCatalog.Proofs.Fresh
import CilCatalog.Proofs.Bodies
import CilCatalog.Proofs.Resume
import CilCatalog.Proofs.Writing.Unrepeated
import CilCatalog.Proofs.Writing.Listed
import CilCatalog.Proofs.Writing.Stored
import CilCatalog.Proofs.Copies
import CilCatalog.Proofs.Json.Reads
import CilCatalog.Proofs.ZeroOctets
import CilCatalog.Proofs.Partition.Clashes
import CilCatalog.Proofs.Document.Refused
import CilCatalog.Proofs.Trees
import CilCatalog.Proofs.Document.Structured
import CilCatalog.Proofs.Writing.Checked
import CilCatalog.Proofs.Document.Untrusted
import CilCatalog.Proofs.MembersApart
import CilCatalog.Proofs.MalformedCatalogs
import CilCatalog.Proofs.IncompleteModules
import CilCatalog.Proofs.Dictionary
import CilCatalog.Proofs.Diagnostic.Conserved
import CilCatalog.Proofs.Reading.Repeated
import CilCatalog.Proofs.Writing.Repeated
import CilCatalog.Proofs.FullComparison
import CilCatalog.Proofs.Document.Written
import CilCatalog.Proofs.Document.Mixed
import CilCatalog.Proofs.Reading.Lengths
import CilCatalog.Proofs.Reading.Presentable
import CilCatalog.Proofs.ReferenceComparison
import CilCatalog.Proofs.PrimitiveSlots
import CilCatalog.Proofs.Json.Escapes
import CilCatalog.Proofs.Diagnostic.Suppressed
import CilCatalog.Proofs.Live.Walk
import CilCatalog.Proofs.Served
