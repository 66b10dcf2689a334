import CilCatalog.Document.Decode
import CilCatalog.Document.Encode
import CilCatalog.Json.Emit
import CilCatalog.Json.Parse

/-!
# Catalogs as text

A catalog is written by way of its partition, the document of that, and the text of the document; it is read by the same way back.
-/

namespace CilCatalog

/-- Why a text describes no catalog. -/
inductive TextFault where
  | json (f : Json.ParseFault)
  | document (f : DocumentFault)
  | partition (f : PartitionFault)
deriving DecidableEq

namespace TextFault

def kind : TextFault → ErrorKind
  | json f      => Fault.kind f
  | document f  => Fault.kind f
  | partition f => Fault.kind f

def message : TextFault → Bytes
  | json f      => f.message
  | document f  => f.message
  | partition f => f.message

instance : Fault TextFault where
  kind := kind
  message := message

end TextFault

namespace Catalog

/-- The document of a catalog. -/
def toJson (s : DocumentStyle) (c : Catalog) : Warned (Failure SigTree.FormatFault) Json := do
  let p ← Warned.ofExcept (Partition.ofCatalog c)
  (p.toJson s).mapError .fault

/-- The text of a catalog. -/
def toText (s : DocumentStyle) (pretty : Bool) (c : Catalog) :
    Warned (Failure SigTree.FormatFault) Bytes := do
  return (← c.toJson s).text pretty

/-- The catalog that a text describes. -/
def ofText (t : Bytes) : Warned (Failure TextFault) Catalog := do
  let v ← Warned.ofExcept (Failure.widen .json (Json.parse t))
  let p ← (Partition.ofJson v).mapError (·.map .document)
  Warned.ofExcept (Failure.lift .partition p.toCatalog)

end Catalog

end CilCatalog
