import CilCatalog.Bytes

/-!
# Assembly names

The display name of an assembly: its simple name, and behind it version, culture and public key token as attributes between commas.  Reading one fills in what is missing and passes over what it does not know.
-/

namespace CilCatalog.Live

/-- The name of an assembly in its four parts. -/
structure AssemblyName where
  name : Bytes
  version : Bytes
  culture : Bytes
  publicKeyToken : Bytes
deriving DecidableEq, Repr, Inhabited

namespace AssemblyName

/-- The name of an assembly of which only the simple name is known. -/
def ofSimpleName (name : Bytes) : AssemblyName := ⟨name, "0.0.0.0", "neutral", "null"⟩

/-- The display name. -/
def text (a : AssemblyName) : Bytes :=
  a.name ++ ", Version=" ++ a.version ++ ", Culture=" ++ a.culture ++ ", PublicKeyToken=" ++
    a.publicKeyToken

/-- The pieces of a text between separators. -/
def pieces (sep : UInt8) : Bytes → List Bytes
  | []     => [[]]
  | b :: r =>
      match pieces sep r with
      | []      => [[b]]
      | p :: ps => if b = sep then [] :: p :: ps else (b :: p) :: ps

/-- The two sides of the first equals sign. -/
def attribute? (piece : Bytes) : Option (Bytes × Bytes) :=
  match piece.dropWhile (· != octet '=') with
  | []     => none
  | _ :: v => some (Bytes.trim (piece.takeWhile (· != octet '=')), Bytes.trim v)

/-- With an attribute filled in, if it is a known one. -/
def withAttribute (a : AssemblyName) (piece : Bytes) : AssemblyName :=
  match attribute? (Bytes.trim piece) with
  | none        => a
  | some (k, v) =>
      if k = utf8 "Version" then { a with version := v }
      else if k = utf8 "Culture" then { a with culture := v }
      else if k = utf8 "PublicKeyToken" then { a with publicKeyToken := v }
      else a

/-- The name that a display name spells. -/
def ofText (t : Bytes) : AssemblyName :=
  match pieces (octet ',') t with
  | []      => ofSimpleName []
  | p :: ps => ps.foldl withAttribute (ofSimpleName (Bytes.trim p))

end AssemblyName

end CilCatalog.Live
