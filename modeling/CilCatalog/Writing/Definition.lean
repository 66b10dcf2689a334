import CilCatalog.Writing.Reference

/-!
# Writing the parts of definitions

Custom attributes, generic parameters, properties and events.  A list that is absent is written as an empty one, and numbers are cut to the width that the module has for them.
-/

namespace CilCatalog.Writing

section

variable (c : Catalog)

/-- The low sixteen bits of a number. -/
def low16 (n : Int32) : UInt16 := n.toUInt32.toUInt16

def customAttribute (a : CustomAttribute) : Writing Live.CustomAttribute := do
  return ⟨← methodOfToken c a.constructor, a.rawData⟩

def customAttributes (as : Option (List CustomAttribute)) :
    Writing (List Live.CustomAttribute) :=
  (as.getD []).mapM (customAttribute c)

/-- The rows for a list of types. -/
def rowsOfTrees (ts : Option (List SigTree)) : Writing (List Live.Row) :=
  (ts.getD []).mapM (rowOfTree c)

def genericParam (p : GenericParameter) : Writing Live.GenericParam := do
  return ⟨p.name, low16 p.attributes, low16 p.number, ← rowsOfTrees c p.constraints⟩

def genericParams (ps : Option (List GenericParameter)) : Writing (List Live.GenericParam) :=
  (ps.getD []).mapM (genericParam c)

def param (p : Parameter) : Writing Live.ParamDef := do
  return ⟨p.name, low16 p.sequence, low16 p.attributes, p.constant,
    ← customAttributes c p.customAttributes⟩

/-- The method under a token, if there is one. -/
def accessor : Option Token → Writing (Option Live.MethodId)
  | none   => return none
  | some t => do return some (← definitionOfToken c t)

def property (p : Property) : Writing Live.PropertyDef := do
  let sig ← callSigOf c p.signature
  askable sig.isNull
  if !sig.isProperty then refuse (.signatureKind "property" p.name)
  let get ← accessor c p.getMethod
  let set ← accessor c p.setMethod
  return ⟨p.name, sig, low16 p.attributes, get, set, ← customAttributes c p.customAttributes⟩

def event (e : Event) : Writing Live.EventDef := do
  let type ← rowOfTree c e.type
  let add ← accessor c e.addMethod
  let remove ← accessor c e.removeMethod
  let invoke ← accessor c e.invokeMethod
  return ⟨e.name, type, low16 e.attributes, add, remove, invoke,
    ← customAttributes c e.customAttributes⟩

end

end CilCatalog.Writing
