import CilCatalog.Reading.Reference

/-!
# Reading the parts of definitions

Custom attributes, generic parameters, properties and the like.  An empty list of these is recorded as absent, except for the parameters of a method and the children of a type.
-/

namespace CilCatalog.Reading

section

variable (s : Live.Store)

/-- A list, absent if it is empty. -/
def nonempty {α : Type} : List α → Option (List α)
  | []      => none
  | a :: as => some (a :: as)

/-- The custom attributes, if the options ask for them. -/
def customAttributes (as : List Live.CustomAttribute) :
    Reading (Option (List CustomAttribute)) := do
  if (← options).customAttributes then
    let list ← as.mapM fun a => do
      return (⟨← methodToken s a.constructor, a.blob⟩ : CustomAttribute)
    return nonempty list
  else return none

/-- The trees for a list of types. -/
def typeTrees (rs : List Live.Row) : Reading (List SigTree) := rs.mapM (typeTree s)

def genericParameter (p : Live.GenericParam) : Reading GenericParameter := do
  return ⟨p.name, Int32.ofNat p.attributes.toNat, Int32.ofNat p.number.toNat,
    nonempty (← typeTrees s p.constraints)⟩

def genericParameters (ps : List Live.GenericParam) :
    Reading (Option (List GenericParameter)) := do
  return nonempty (← ps.mapM (genericParameter s))

def parameter (p : Live.ParamDef) : Reading Parameter := do
  return ⟨p.name, Int32.ofNat p.sequence.toNat, Int32.ofNat p.attributes.toNat, p.constant,
    ← customAttributes s p.customAttributes⟩

/-- The token of a method, if there is one. -/
def accessor : Option Live.MethodId → Reading (Option Token)
  | none   => return none
  | some m => do return some (← definedMethod s m)

def property (p : Live.PropertyDef) : Reading Property := do
  let signature ← callSigTree s p.signature
  let get ← accessor s p.getMethod
  let set ← accessor s p.setMethod
  return ⟨p.name, signature, Int32.ofNat p.attributes.toNat, get, set,
    ← customAttributes s p.customAttributes⟩

def event (e : Live.EventDef) : Reading Event := do
  let type ← typeTree s e.type
  let add ← accessor s e.addMethod
  let remove ← accessor s e.removeMethod
  let invoke ← accessor s e.invokeMethod
  return ⟨e.name, type, Int32.ofNat e.attributes.toNat, add, remove, invoke,
    ← customAttributes s e.customAttributes⟩

end

end CilCatalog.Reading
