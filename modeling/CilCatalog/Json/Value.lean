import CilCatalog.Bytes

/-!
# JSON values

JSON with integers for its only numbers and byte strings for its strings.  An object keeps its members in order; that their names differ is a property of some values (`Json.DistinctKeys`), not of all.
-/

namespace CilCatalog

/-- A JSON value. -/
inductive Json where
  | null
  | bool (b : Bool)
  | int (i : Int64)
  | string (s : Bytes)
  | array (elements : List Json)
  | object (members : List (Bytes × Json))

namespace Json

instance : Inhabited Json := ⟨null⟩

/-- What messages call a value. -/
def typeName : Json → String
  | null     => "null"
  | bool _   => "boolean"
  | int _    => "integer"
  | string _ => "string"
  | array _  => "array"
  | object _ => "object"

/-- The value of the first member called `k`. -/
def find? (members : List (Bytes × Json)) (k : Bytes) : Option Json :=
  (members.find? (·.1 == k)).map (·.2)

/-- The value of the first member called `k`; a null counts as absent. -/
def present? (members : List (Bytes × Json)) (k : Bytes) : Option Json :=
  match find? members k with
  | some null => none
  | v         => v

/-- The value at the end of a path of member names. -/
def lookup? : List Bytes → Json → Option Json
  | [],      v         => some v
  | k :: ks, object ms => (find? ms k).bind (lookup? ks)
  | _ :: _,  _         => none

mutual

/-- How many arrays and objects lie inside each other. -/
def depth : Json → Nat
  | array es  => depthElements es + 1
  | object ms => depthMembers ms + 1
  | _         => 0

def depthElements : List Json → Nat
  | []      => 0
  | e :: es => max (depth e) (depthElements es)

def depthMembers : List (Bytes × Json) → Nat
  | []           => 0
  | (_, v) :: ms => max (depth v) (depthMembers ms)

end

mutual

/-- The member names of every object in the value differ. -/
def DistinctKeys : Json → Prop
  | array es  => DistinctKeysElements es
  | object ms => (ms.map (·.1)).Nodup ∧ DistinctKeysMembers ms
  | _         => True

def DistinctKeysElements : List Json → Prop
  | []      => True
  | e :: es => DistinctKeys e ∧ DistinctKeysElements es

def DistinctKeysMembers : List (Bytes × Json) → Prop
  | []           => True
  | (_, v) :: ms => DistinctKeys v ∧ DistinctKeysMembers ms

end

end Json

end CilCatalog
