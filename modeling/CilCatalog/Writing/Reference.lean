import CilCatalog.Writing.Argument

/-!
# Writing references

How identities and signature trees turn into rows and signatures of a live module.  What the module does not have yet is made: a type by its name, a field or method with its signature in its declaring type.
-/

namespace CilCatalog.Writing

open Live (Row TypeSig CallSig TypeId FieldId MethodId Wrapper AssemblyName)

/-- The accessibility "only in this assembly", with which members are made. -/
def assemblyAccess : UInt16 := 3

/-! ### Assemblies and modules -/

/-- Whether an assembly reference is called `name`, in full or in short. -/
def isAssembly (name : Bytes) : Row → Bool
  | .assemblyRef _ a => a.text == name || a.name == name
  | _                => false

def isModule (name : Bytes) : Row → Bool
  | .moduleRef _ n => n == name
  | _              => false

/-- What the owner says about an assembly, if it wants to be asked. -/
def askForAssembly (name : Bytes) : Writing Row := do
  match (← writer).hooks.assembly with
  | none        => return .null
  | some answer =>
      modifyWriter fun w => { w with questions := w.questions ++ [.assembly name] }
      return answer name

/-- The row of an assembly: what the owner says, or the reference of that name, or a new one. -/
def assemblyRow (name : Bytes) : Writing Row := do
  if name.isEmpty then refuse .emptyAssemblyName
  match (← writer).assemblies.lookup name with
  | some r => return r
  | none   =>
      let answer ← askForAssembly name
      let refs := ((← store).image (← writer).image).assemblyRefs
      let found := if answer.isNull then refs.find? (isAssembly name) else some answer
      let r ← match found with
        | some r => pure r
        | none   => making fun i s => s.createAssemblyRef i (.ofText name)
      modifyWriter fun w => { w with assemblies := w.assemblies ++ [(name, r)] }
      return r

/-- The row of another module: the reference of that name, or a new one. -/
def moduleRow (name : Bytes) : Writing Row := do
  match ((← store).image (← writer).image).moduleRefs.find? (isModule name) with
  | some r => return r
  | none   => making fun i s => s.createModuleRef i name

/-! ### Types -/

/-- What the owner says about a type, if it wants to be asked. -/
def askForType (assembly : Row) (id : TypeIdentity) : Writing Row := do
  match (← writer).hooks.type with
  | none        => return .null
  | some answer =>
      modifyWriter fun w => { w with questions := w.questions ++ [.type assembly id] }
      return answer assembly id

/-- Whether an identity is that of the type for global fields and methods. -/
def isGlobalType (id : TypeIdentity) : Bool :=
  id.assembly.isNone && (id.enclosing.getD []).isEmpty && id.ns.isEmpty &&
    id.name == Live.globalTypeName

/-- Whether a row is a reference to a type with the given scope, namespace and name. -/
def isTypeReference (scope : Row) (ns name : Bytes) : Row → Bool
  | .typeRef _ ns' name' scope' => scope'.same scope && name' == name && ns' == ns
  | _                           => false

/-- The type reference with the given scope: the one there is, or a new one. -/
def referenceIn (scope : Row) (ns name : Bytes) : Writing Row := do
  match ((← store).image (← writer).image).typeRefs.find? (isTypeReference scope ns name) with
  | some r => return r
  | none   => tryMaking fun i s => s.createTypeRef i ns name scope

/-- The type nested in `outer`: the one there is, or a new one. -/
def nestedDefinition (outer : TypeId) (name : Bytes) : Writing Row := do
  let s ← store
  match (s.typeDef outer).nestedTypes.find? fun t => (s.typeDef t).name == name with
  | some t => return .typeDef t
  | none   => do
      let t ← making fun i s => s.addTypeDef i [] name
      changing (·.nest outer t)
      return .typeDef t

/-- A type of the module that is not nested: the one there is, or a new one. -/
def topDefinition (ns name : Bytes) : Writing Row := do
  match (← store).findType? (← writer).image ns name with
  | some t => return .typeDef t
  | none   => do return .typeDef (← making fun i s => s.createType i ns name)

/-- The row that is remembered of a type, or else the one that `resolve` gives, which is remembered from then on. -/
def rememberType (id : TypeIdentity) (resolve : Writing Row) : Writing Row := do
  match (← writer).types.find? id with
  | some w => return w.row
  | none   =>
      let r ← resolve
      modifyWriter fun w => { w with types := w.types ++ [(id, ⟨r, .reference⟩)] }
      return r

/-- The row of a type in the type whose row is `outer`. -/
def rowInside (outer : Row) (name : Bytes) : Writing Row := do
  askable outer.isNull
  match outer with
  | .typeDef t       => nestedDefinition t name
  | .typeRef _ _ _ _ => referenceIn outer [] name
  | _                => refuse (.enclosing name)

/-- The identity of the type around a type. -/
def outerIdentity (id : TypeIdentity) (outer : Bytes) (rest : List Bytes) : TypeIdentity :=
  ⟨outer, id.ns, id.assembly, if rest.isEmpty then none else some rest⟩

/-- The row of a type, given the names of the types around it. -/
def typeRowIn : List Bytes → TypeIdentity → Writing Row
  | names, id => rememberType id do
      if isGlobalType id then return .typeDef ((← store).globalType (← writer).image)
      let assembly ← match id.assembly with
        | none   => pure .null
        | some n => assemblyRow n
      let answer ← askForType assembly id
      if !answer.isNull then
        if assembly.isNull && answer.kind? != some .typeDef then
          refuse (.answeredBy id.name answer.kindName)
        return answer
      match names with
      | outer :: rest =>
          let declaring ← typeRowIn rest (outerIdentity id outer rest)
          rowInside declaring id.name
      | [] =>
          if assembly.isNull then topDefinition id.ns id.name
          else referenceIn assembly id.ns id.name

/-- The row of a type. -/
def typeRow (id : TypeIdentity) : Writing Row := typeRowIn (id.enclosing.getD []) id

section Trees

variable (c : Catalog)

/-- The row of the type under a token. -/
def typeOfToken (t : Token) : Writing Row := do typeRow (← lookUp c.types t).identity

/-! ### Signatures -/

/-- The flags of a signature, which leave its calling convention alone. -/
def flagsOf (n : Int32) : Option UInt8 :=
  if 0 ≤ n ∧ n ≤ 255 then
    let f := UInt8.ofNat n.toNatClampNeg
    if f &&& CallingConvention.mask = 0 then some f else none
  else none

mutual

/-- The row for a tree that stands for a type. -/
def rowOfTree : SigTree → Writing Row
  | .token t      => typeOfToken c t
  | .typeSig code as => do
      let sig ← typeSigOfCode code as
      making fun _ s => s.createTypeSpec sig
  | t             => refuse (.expectedType t.kind.name)

/-- The signature of a type. -/
def typeSigOf : SigTree → Writing TypeSig
  | .typeSig code as => typeSigOfCode code as
  | t                => refuse (.expectedTypeSignature t.kind.name)

/-- The signature of a type with the given code and arguments. -/
def typeSigOfCode (code : UInt8) (as : List SigTree) : Writing TypeSig :=
  match ElementType.ofCode? code with
  | none   => refuse (.unknownElementType code)
  | some e =>
    if e.isLeaf then do
      argument (checkCount e.name 0 as.length)
      MonadExcept.ofExcept (TypeSig.ofLeaf e)
    else if e.isWrapper then do
      argument (checkCount e.name 1 as.length)
      match as with
      | []     => throw (SigTree.outOfRange 0)
      | t :: _ => do MonadExcept.ofExcept (TypeSig.ofWrapper e (← typeSigOf t))
    else match e with
    | .fnPtr => do
        argument (checkCount e.name 1 as.length)
        match as with
        | []     => throw (SigTree.outOfRange 0)
        | t :: _ => do
            let sig ← callSigOf t
            askable sig.isNull
            if sig.isMethod then return .fnPtr sig else refuse .functionPointer
    | .cls | .valueType => do
        argument (checkCount e.name 1 as.length)
        match as with
        | []     => throw (SigTree.outOfRange 0)
        | t :: _ => do
            if t.kind ≠ .token then refuse (.typeToken e.name)
            MonadExcept.ofExcept (TypeSig.ofNamed e (← rowOfTree t))
    | .var | .mvar => do
        argument (checkCount e.name 1 as.length)
        let (number, _) ← argument (nextBy unsignedOf e.name 0 as)
        MonadExcept.ofExcept (TypeSig.ofGeneric e number)
    | .array => match as with
        | []        => refuse (.argument (.missing e.name 0))
        | t :: rest => do
            let next ← typeSigOf t
            let shape ← argument (ArrayShape.ofArguments rest)
            return .array next shape.rank shape.sizes shape.lowerBounds
    | .genericInst => match as with
        | []             => refuse (.argument (.missing e.name 0))
        | [t]            => do
            let _ ← typeSigOf t
            refuse (.argument (.missing e.name 1))
        | t :: n :: rest => do
            let type ← typeSigOf t
            let count ← argument (unsignedOf e.name 1 n)
            argument (checkCount e.name (2 + count.toNat) (2 + rest.length))
            return .genericInst type (← countedSigsOf 2 count.toNat rest)
    | .valueArray => do
        argument (checkCount e.name 2 as.length)
        match as with
        | []        => throw (SigTree.outOfRange 0)
        | t :: rest => do
            let next ← typeSigOf t
            let (size, _) ← argument (nextBy unsignedOf e.name 1 rest)
            return .valueArray next size
    | .cmodReqd | .cmodOpt => do
        argument (checkCount e.name 2 as.length)
        match as with
        | []          => throw (SigTree.outOfRange 0)
        | [m]         => do
            let _ ← rowOfTree m
            throw (SigTree.outOfRange 1)
        | m :: t :: _ => do
            let modifier ← rowOfTree m
            MonadExcept.ofExcept (TypeSig.ofModifier e modifier (← typeSigOf t))
    | .module => do
        argument (checkCount e.name 2 as.length)
        let (index, _) ← argument (nextBy unsignedOf e.name 0 as)
        match as with
        | _ :: t :: _ => do return .module index (← typeSigOf t)
        | _           => throw (SigTree.outOfRange 1)
    | e => refuse (.misplaced e.name)

/-- The signatures of types. -/
def typeSigsOf : List SigTree → Writing (List TypeSig)
  | []      => return []
  | t :: ts => do
      let sig ← typeSigOf t
      return sig :: (← typeSigsOf ts)

/-- The signatures of `n` types, which are the arguments from number `i` on. -/
def countedSigsOf (i : Nat) : Nat → List SigTree → Writing (List TypeSig)
  | 0,     _       => return []
  | _ + 1, []      => throw (SigTree.outOfRange i)
  | n + 1, t :: ts => do
      let sig ← typeSigOf t
      return sig :: (← countedSigsOf (i + 1) n ts)

/-- The parameters before and behind the marker, which has been seen already if `after` holds. -/
def parametersOf (after : Bool) : List SigTree → Writing (List TypeSig × List TypeSig)
  | []      => return ([], [])
  | t :: ts => do
      if t.isSentinel then
        if after then refuse .sentinelTwice
        parametersOf true ts
      else
        let sig ← typeSigOf t
        let (ps, vs) ← parametersOf after ts
        return if after then (ps, sig :: vs) else (sig :: ps, vs)

/-- The signature of a method or property.  The count of parameters is argument number `i`, and the arguments are those from there on. -/
def methodSigOf (k : CallingConvention) (flags : UInt8) (genericCount : UInt32) (i : Nat) :
    List SigTree → Writing CallSig
  | []           => refuse (.argument (.missing k.name i))
  | [n]          => do
      let _ ← argument (unsignedOf k.name i n)
      refuse (.argument (.missing k.name (i + 1)))
  | n :: r :: ts => do
      let count ← argument (unsignedOf k.name i n)
      let ret ← typeSigOf r
      let (ps, vs) ← parametersOf false ts
      if ps.length + vs.length ≠ count.toNat then
        refuse (.parameterCount count (ps.length + vs.length))
      if k = .property then return .ofProperty flags genericCount ret ps vs
      MonadExcept.ofExcept (CallSig.ofMethod (k.code ||| flags) genericCount ret ps vs)

/-- The types behind their number, which is the second argument. -/
def countedTypesOf (k : CallingConvention) : List SigTree → Writing (List TypeSig)
  | []      => refuse (.argument (.missing k.name 1))
  | n :: ts => do
      let count ← argument (unsignedOf k.name 1 n)
      argument (checkCount k.name (2 + count.toNat) (2 + ts.length))
      countedSigsOf 2 count.toNat ts

/-- The signature with a calling convention. -/
def callSigOf : SigTree → Writing CallSig
  | .callSig code as =>
      match CallingConvention.ofCode? code, as with
      | none,   _       => refuse (.unknownConvention code)
      | some k, []      => refuse (.argument (.missing k.name 0))
      | some k, n :: as => do
          let n ← argument (integerOf k.name 0 n)
          match flagsOf n with
          | none       => refuse (.invalidFlags n)
          | some flags =>
              if k.isMethodLike then
                if flags &&& CallingConvention.genericFlag = 0 then
                  methodSigOf k flags 0 1 as
                else match as with
                  | []      => refuse (.argument (.missing k.name 1))
                  | n :: as => do
                      let count ← argument (unsignedOf k.name 1 n)
                      methodSigOf k flags count 2 as
              else if flags ≠ 0 then refuse (.flagsNotAllowed k.name flags)
              else match k with
                | .field => do
                    argument (checkCount k.name 2 (1 + as.length))
                    match as with
                    | []     => throw (SigTree.outOfRange 1)
                    | t :: _ => do return .field (← typeSigOf t)
                | .localSig => do return .locals (← countedTypesOf k as)
                | _         => do return .inst (← countedTypesOf k as)
  | t => refuse (.expectedSignature t.kind.name)

end

/-! ### Fields and methods -/

/-- The row of a field: the field of that name and signature in its declaring type, or a new one; a member reference if the declaring type is no definition. -/
def resolveField (id : MemberIdentity) : Writing Row := do
  let parent ← rowOfTree c id.type
  let sig ← callSigOf c id.signature
  askable sig.isNull
  if !sig.isField then refuse (.signatureKind "field" id.name)
  askable parent.isNull
  match parent with
  | .typeDef t =>
      match (← store).findField? t id.name sig with
      | some f => return .fieldDef f
      | none   => do
          let d : Live.FieldDef := { name := id.name, signature := sig, attributes := assemblyAccess }
          let f ← making fun _ s => s.addFieldDef d
          changing (·.attachField t f)
          return .fieldDef f
  | _ => making fun i s => s.createMemberRef i id.name sig parent

/-- The row of a method, found or made as that of a field is. -/
def resolveMethod (id : MemberIdentity) : Writing Row := do
  let parent ← rowOfTree c id.type
  let sig ← callSigOf c id.signature
  askable sig.isNull
  if !sig.isMethod then refuse (.signatureKind "method" id.name)
  askable parent.isNull
  match parent with
  | .typeDef t =>
      match (← store).findMethod? t id.name sig with
      | some m => return .methodDef m
      | none   => do
          let d : Live.MethodDef := { name := id.name, signature := sig, attributes := assemblyAccess }
          let m ← making fun _ s => s.addMethodDef d
          changing (·.attachMethod t m)
          return .methodDef m
  | _ => making fun i s => s.createMemberRef i id.name sig parent

/-- The row of a field, remembered or resolved. -/
def fieldRow (id : MemberIdentity) : Writing Row := do
  match (← writer).fields.find? id with
  | some w => return w.row
  | none   =>
      let r ← resolveField c id
      modifyWriter fun w => { w with fields := w.fields ++ [(id, ⟨r, .reference⟩)] }
      return r

/-- The row of a method, remembered or resolved. -/
def methodRow (id : MemberIdentity) : Writing Row := do
  match (← writer).methods.find? id with
  | some w => return w.row
  | none   =>
      let r ← resolveMethod c id
      modifyWriter fun w => { w with methods := w.methods ++ [(id, ⟨r, .reference⟩)] }
      return r

/-- The row of the field under a token. -/
def fieldOfToken (t : Token) : Writing Row := do fieldRow c (← lookUp c.fields t).identity

/-- The row of the method under a token. -/
def methodOfToken (t : Token) : Writing Row := do methodRow c (← lookUp c.methods t).identity

/-- The method under a token, which must be of this module. -/
def definitionOfToken (t : Token) : Writing MethodId := do
  let row ← methodOfToken c t
  askable row.isNull
  match row with
  | .methodDef m => return m
  | _            => refuse (.undefinedMethod t)

end Trees

end CilCatalog.Writing
