import CilCatalog.Failure

/-!
# Tokens

A token identifies a type, field or method within one catalog.  It is either an index, counted in order of arrival, or a name.  All named tokens order before all indexed ones.
-/

namespace CilCatalog

/-- The octets that may not occur in the name of a token. -/
def reservedOctets : Bytes := "(),@'"

/-- Why a byte string is no token name. -/
inductive NameFault where
  | empty
  | reserved (name : Bytes) (b : UInt8)
deriving DecidableEq, Repr

namespace NameFault

def message : NameFault → Bytes
  | empty           => "Token name cannot be empty"
  | reserved name b => "Token name '" ++ name ++ "' contains invalid character '" ++ [b] ++ "'"

instance : Fault NameFault where
  kind _ := .invalidArgument
  message := message

end NameFault

/-- A name a token may have: not empty, and free of reserved octets. -/
structure TokenName where
  bytes : Bytes
  ne_nil : bytes ≠ []
  not_reserved : ∀ b ∈ bytes, b ∉ reservedOctets
deriving DecidableEq

namespace TokenName

/-- The name spelled by `bytes`, or the first thing wrong with it. -/
def ofBytes (bytes : Bytes) : Except NameFault TokenName :=
  if hn : bytes = [] then .error .empty
  else match hb : bytes.find? (· ∈ reservedOctets) with
    | some b => .error (.reserved bytes b)
    | none   => .ok ⟨bytes, hn, fun b h => by simpa using List.find?_eq_none.1 hb b h⟩

theorem ext_bytes {n m : TokenName} (h : n.bytes = m.bytes) : n = m := by
  cases n; cases m; cases h; rfl

theorem ofBytes_bytes (n : TokenName) : ofBytes n.bytes = .ok n := by
  unfold ofBytes
  rw [dif_neg n.ne_nil]
  split
  · next b hb =>
      exact absurd (by simpa using List.find?_some hb)
        (n.not_reserved b (List.mem_of_find?_eq_some hb))
  · rfl

theorem bytes_of_ofBytes {t : Bytes} {n : TokenName} (h : ofBytes t = .ok n) : n.bytes = t := by
  unfold ofBytes at h
  split at h
  · cases h
  · split at h
    · cases h
    · cases h; rfl

/-- A byte string is refused exactly if it is empty or holds a reserved octet. -/
theorem ofBytes_isOk_iff {t : Bytes} :
    (∃ n, ofBytes t = .ok n) ↔ t ≠ [] ∧ ∀ b ∈ t, b ∉ reservedOctets := by
  constructor
  · rintro ⟨n, h⟩
    rw [← bytes_of_ofBytes h]
    exact ⟨n.ne_nil, n.not_reserved⟩
  · rintro ⟨h₁, h₂⟩
    exact ⟨⟨t, h₁, h₂⟩, ofBytes_bytes ⟨t, h₁, h₂⟩⟩

end TokenName

/-- A token of a catalog. -/
inductive Token where
  | named (name : TokenName)
  | index (i : Int32)
deriving DecidableEq

namespace Token

instance : Inhabited Token := ⟨index 0⟩

/-- The token called `bytes`. -/
def ofName (bytes : Bytes) : Except NameFault Token := (TokenName.ofBytes bytes).map named

def isNamed : Token → Bool
  | named _ => true
  | index _ => false

/-- The index of an indexed token. -/
def requireIndex {φ : Type} : Token → Except (Failure φ) Int32
  | index i => .ok i
  | named _ => .error (.breach "Token is named")

/-- The name of a named token. -/
def requireName {φ : Type} : Token → Except (Failure φ) Bytes
  | named n => .ok n.bytes
  | index _ => .error (.breach "Token is not named")

/-- The name, or the index in decimal. -/
def text : Token → Bytes
  | named n => n.bytes
  | index i => Bytes.signedDecimal i.toInt

/-- Names before indices; names by their octets, indices by value. -/
def order : Token → Token → Ordering
  | named m, named n => compare m.bytes n.bytes
  | named _, index _ => .lt
  | index _, named _ => .gt
  | index i, index j => compare i.toInt j.toInt

end Token

end CilCatalog
