import CilCatalog.Reading.Basic

/-!
# Reading references

How rows and signatures turn into tokens and signature trees.  Whatever is met on the way is recorded as a reference: a type under its name, a field or method under its declaring type and its signature.
-/

namespace CilCatalog.Reading

open Live

/-! ### Identities of types -/

/-- The names of the type references from a scope outwards. -/
def scopeNames : Row → List Bytes
  | .typeRef _ _ name scope => name :: scopeNames scope
  | _                       => []

/-- The namespace of the last type reference from a scope outwards; `ns` if there is none. -/
def scopeNamespace (ns : Bytes) : Row → Bytes
  | .typeRef _ ns' _ scope => scopeNamespace ns' scope
  | _                      => ns

/-- A list of names, absent if there are none. -/
def namesAround : List Bytes → Option (List Bytes)
  | []      => none
  | n :: ns => some (n :: ns)

/-- The identity of a type that a module defines. -/
def definitionIdentity (s : Store) (t : TypeId) : TypeIdentity where
  name := (s.typeDef t).name
  ns := (s.typeDef (s.outermost t)).ns
  assembly := none
  enclosing := namesAround ((s.enclosing t).map fun o => (s.typeDef o).name)

/-- The identity of a type that an assembly defines. -/
def referenceIdentity (o : Options) (assembly : AssemblyName) (ns name : Bytes) (scope : Row) :
    TypeIdentity where
  name := name
  ns := scopeNamespace ns scope
  assembly := some (if o.fullAssemblyNames then assembly.text else assembly.name)
  enclosing := namesAround (scopeNames scope)

/-! ### Types by name -/

/-- A type must be of the module at hand. -/
def checkType (s : Store) (t : TypeId) : Reading Unit := do
  let i := (← get).image
  if (s.typeDef t).image = i then return ()
  else refuse (.foreign "Type" (s.fullName t) (s.image i).name)

/-- The token of a type that the module defines. -/
def definedType (s : Store) (t : TypeId) : Reading Token := do
  checkType s t
  typeReference (definitionIdentity s t)

/-- The token of a type that an assembly defines. -/
def referredType (ns name : Bytes) (scope : Row) : Reading Token := do
  match (Row.typeRef 0 ns name scope).definitionAssembly with
  | .assemblyRef _ a =>
      typeReference (referenceIdentity (← options) a ns name scope)
  | _ => refuse (.noAssembly name)

/-- The token of a type that has a name. -/
def namedType (s : Store) : Row → Reading Token
  | .null                    => refuse (.absent "Type")
  | .typeDef t               => definedType s t
  | .typeRef _ ns name scope => referredType ns name scope
  | _                        => refuse .typeSpecification

/-! ### Signatures -/

/-- A length as part of a signature. -/
def lengthTree {α : Type} (as : List α) : SigTree := .int32 (Int32.ofNat as.length)

/-- The integer for the flags of a first octet. -/
def flagsTree (raw : UInt8) : SigTree :=
  .int32 (Int32.ofNat (raw.toNat - (raw &&& CallingConvention.mask).toNat))

/-- Whether a first octet announces a number of generic parameters. -/
def isGenericRaw (raw : UInt8) : Bool := raw &&& CallingConvention.genericFlag != 0

/-- The number of generic parameters, where the first octet announces it. -/
def genericTrees (raw : UInt8) (count : UInt32) : List SigTree :=
  if isGenericRaw raw then [.int32 count.toInt32] else []

/-- The parameters of both lists, with the marker between them if there are any in the second. -/
def parameterTrees (params after : List SigTree) : List SigTree :=
  if after.isEmpty then params else params ++ .ofElement .sentinel :: after

/-- The calling convention of a signature with parameters must be one that has parameters.  A property that passes for the type arguments of a method is taken for these. -/
def checkConvention (raw : UInt8) : Reading Unit :=
  if CallingConvention.isMethodLikeRaw raw = true then return ()
  else if CallingConvention.ofRaw? raw = some .genericInst then throw mistaken
  else refuse (.unknownConvention (raw &&& CallingConvention.mask))

section Signatures

variable (s : Store)

mutual

/-- The tree for a type, by its row. -/
def typeTree : Row → Reading SigTree
  | .typeSpec _ t => typeSigTree t
  | r             => do return .token (← namedType s r)

/-- The tree for the signature of a type. -/
def typeSigTree : TypeSig → Reading SigTree
  | .null               => refuse (.absent "Type signature")
  | .leaf e _           => return .ofElement e
  | .wrapper w t        => do return .ofElement w.elementType [← typeSigTree t]
  | .fnPtr c            => do return .ofElement .fnPtr [← callSigTree c]
  | .named byValue r    => do
      return .ofElement (if byValue then .valueType else .cls) [.token (← namedType s r)]
  | .generic ofMethod n =>
      return .ofElement (if ofMethod then .mvar else .var) [.int32 n.toInt32]
  | .array t rank sizes lowerBounds => do
      let next ← typeSigTree t
      return .ofElement .array (next :: .int32 rank.toInt32 ::
        (lengthTree sizes :: sizes.map fun n => .int32 n.toInt32) ++
        (lengthTree lowerBounds :: lowerBounds.map .int32))
  | .genericInst t as   => do
      let type ← typeSigTree t
      return .ofElement .genericInst (type :: lengthTree as :: (← typeSigTrees as))
  | .valueArray t size  => do
      return .ofElement .valueArray [← typeSigTree t, .int32 size.toInt32]
  | .modifier required r t => do
      let type ← typeTree r
      return .ofElement (if required then .cmodReqd else .cmodOpt) [type, ← typeSigTree t]
  | .module n t         => do
      return .ofElement .module [.int32 n.toInt32, ← typeSigTree t]

def typeSigTrees : List TypeSig → Reading (List SigTree)
  | []      => return []
  | t :: ts => do
      let tree ← typeSigTree t
      return tree :: (← typeSigTrees ts)

/-- The tree for a signature with a calling convention. -/
def callSigTree : CallSig → Reading SigTree
  | .null     => refuse (.absent "Signature")
  | .method raw _ count ret params after => do
      checkConvention raw
      let ret ← typeSigTree ret
      let ps ← typeSigTrees params
      let vs ← typeSigTrees after
      return .callSig (raw &&& CallingConvention.mask)
        (flagsTree raw :: genericTrees raw count ++
          lengthTree (ps ++ vs) :: ret :: parameterTrees ps vs)
  | .field t  => do return .ofConvention .field [.int32 0, ← typeSigTree t]
  | .locals ts => do
      return .ofConvention .localSig (.int32 0 :: lengthTree ts :: (← typeSigTrees ts))
  | .inst ts  => do
      return .ofConvention .genericInst (.int32 0 :: lengthTree ts :: (← typeSigTrees ts))

end

end Signatures

/-! ### Fields and methods -/

/-- The identity of a member of a type with the given signature. -/
def memberIdentity (s : Store) (name : Bytes) (type : Row) (signature : CallSig) :
    Reading MemberIdentity := do
  let type ← typeTree s type
  return ⟨name, type, ← callSigTree s signature⟩

/-- The type that declares a member, which must be of the module at hand. -/
def declaringType (s : Store) (what : String) (name : Bytes) (declaring : Option TypeId) :
    Reading TypeId := do
  let i := (← get).image
  let fault := ReadFault.foreign what name (s.image i).name
  match declaring with
  | none   => refuse fault
  | some t => if (s.typeDef t).image = i then return t else refuse fault

/-- The identity of a field that the module defines. -/
def fieldIdentity (s : Store) (f : FieldId) : Reading MemberIdentity := do
  let d := s.fieldDef f
  let t ← declaringType s "Field" d.name d.declaring
  memberIdentity s d.name (.typeDef t) d.signature

/-- The identity of a method that the module defines. -/
def methodIdentity (s : Store) (m : MethodId) : Reading MemberIdentity := do
  let d := s.methodDef m
  let t ← declaringType s "Method" d.name d.declaring
  memberIdentity s d.name (.typeDef t) d.signature

/-- The token of a field that the module defines. -/
def definedField (s : Store) (f : FieldId) : Reading Token := do
  let id ← fieldIdentity s f
  fieldReference id

/-- The token of a method that the module defines. -/
def definedMethod (s : Store) (m : MethodId) : Reading Token := do
  let id ← methodIdentity s m
  methodReference id

/-- The parent of a member reference, which must be a type. -/
def parentType (what : String) (name : Bytes) (parent : Row) : Reading Row :=
  match parent with
  | .null          => throw nothingToAsk
  | .moduleRef _ _ => refuse (.globalMember what name)
  | r              => if r.isType then pure r else refuse (.noDeclaringType what name)

/-- The token of the field that a member reference names. -/
def referredField (s : Store) (name : Bytes) (signature : CallSig) (parent : Row) :
    Reading Token := do
  unless ← MonadExcept.ofExcept signature.ofFieldMember do refuse (.notFieldReference name)
  let type ← parentType "Field" name parent
  let id ← memberIdentity s name type signature
  fieldReference id

/-- The token of the method that a member reference names. -/
def referredMethod (s : Store) (name : Bytes) (signature : CallSig) (parent : Row) :
    Reading Token := do
  unless ← MonadExcept.ofExcept signature.ofMethodMember do refuse (.notMethodReference name)
  if parent.kind? = some .methodDef then refuse (.callSite name)
  let type ← parentType "Method" name parent
  let id ← memberIdentity s name type signature
  methodReference id

/-- The token of a field, by its row. -/
def fieldToken (s : Store) : Row → Reading Token
  | .null                          => refuse (.absent "Field")
  | .fieldDef f                    => definedField s f
  | .memberRef _ name sig parent   => referredField s name sig parent
  | r                              => refuse (.notField r.kindName)

/-- The token of a method, by its row. -/
def methodToken (s : Store) : Row → Reading Token
  | .null                          => refuse (.absent "Method")
  | .methodDef m                   => definedMethod s m
  | .memberRef _ name sig parent   => referredMethod s name sig parent
  | r                              => refuse (.notMethod r.kindName)

end CilCatalog.Reading
