import CilCatalog.Description.Tree
import CilCatalog.Live.Store

/-!
# Outlines of live modules

The JSON form in which rows, signatures and whole modules are shown.  Definitions are shown by their full names, other rows by their contents, and what is empty or absent is mostly left out.
-/

namespace CilCatalog.Description

open Json (entry tagged orNull optEntry listEntry)
open Live (Row TypeSig CallSig TypeId FieldId MethodId Store)

/-! ### Rows and signatures -/

section

variable (s : Store)

/-- The full name of a declaring type. -/
def ofOwner (t : Option TypeId) : Json := orNull (t.map fun t => .string (s.fullName t))

/-- The outline of a field or method: owner, name and signature. -/
def ofMember (kind : String) (owner : Option TypeId) (name : Bytes) (signature : Json) : Json :=
  tagged kind (.array [ofOwner s owner, .string name, signature])

mutual

/-- The outline of a row, given that of the signatures of fields and methods. -/
def ofRowBy (ofSignature : CallSig → Json) : Row → Json
  | .null                  => .null
  | .assemblyRef _ a       => tagged "AssemblyRef" (.string a.text)
  | .moduleRef _ n         => tagged "ModuleRef" (.string n)
  | .typeDef t             => tagged "TypeDef" (.string (s.fullName t))
  | .typeRef _ ns n scope  =>
      tagged "TypeRef" (.array [.string ns, .string n, ofRowBy ofSignature scope])
  | .typeSpec _ t          => tagged "TypeSpec" (ofTypeSigBy ofSignature t)
  | .fieldDef f            =>
      let d := s.fieldDef f
      ofMember s "FieldDef" d.declaring d.name (ofSignature d.signature)
  | .methodDef m           =>
      let d := s.methodDef m
      ofMember s "MethodDef" d.declaring d.name (ofSignature d.signature)
  | .memberRef _ n c p     =>
      tagged "MemberRef" (.array [.string n, ofCallSigBy ofSignature c, ofRowBy ofSignature p])
  | .methodSpec _ m i      =>
      tagged "MethodSpec" (.array [ofRowBy ofSignature m, ofCallSigBy ofSignature i])

/-- The outline of a type's signature. -/
def ofTypeSigBy (ofSignature : CallSig → Json) : TypeSig → Json
  | .null              => .null
  | .leaf e _          => .ofString e.name
  | .wrapper w t       => .array [.ofString w.elementType.name, ofTypeSigBy ofSignature t]
  | .fnPtr c           => .array [.ofString ElementType.fnPtr.name, ofCallSigBy ofSignature c]
  | .named byValue r   =>
      .array [.ofString (if byValue then ElementType.valueType else .cls).name,
        ofRowBy ofSignature r]
  | .generic ofMethod n =>
      .array [.ofString (if ofMethod then ElementType.mvar else .var).name, .ofNat n.toNat]
  | .array t r ns ls   =>
      .array [.ofString ElementType.array.name, ofTypeSigBy ofSignature t, .ofNat r.toNat,
        .array (ns.map fun n => .ofNat n.toNat), .array (ls.map fun l => .ofInt l.toInt)]
  | .genericInst t as  =>
      .array [.ofString ElementType.genericInst.name, ofTypeSigBy ofSignature t,
        .array (ofTypeSigsBy ofSignature as)]
  | .valueArray t n    =>
      .array [.ofString ElementType.valueArray.name, ofTypeSigBy ofSignature t, .ofNat n.toNat]
  | .modifier required r t =>
      .array [.ofString (if required then ElementType.cmodReqd else .cmodOpt).name,
        ofRowBy ofSignature r, ofTypeSigBy ofSignature t]
  | .module n t        =>
      .array [.ofString ElementType.module.name, .ofNat n.toNat, ofTypeSigBy ofSignature t]

def ofTypeSigsBy (ofSignature : CallSig → Json) : List TypeSig → List Json
  | []      => []
  | t :: ts => ofTypeSigBy ofSignature t :: ofTypeSigsBy ofSignature ts

/-- The outline of a signature with a calling convention. -/
def ofCallSigBy (ofSignature : CallSig → Json) : CallSig → Json
  | .null      => .null
  | .field t   => tagged "field" (ofTypeSigBy ofSignature t)
  | .locals ts => tagged "locals" (.array (ofTypeSigsBy ofSignature ts))
  | .inst ts   => tagged "inst" (.array (ofTypeSigsBy ofSignature ts))
  | .method raw _ count ret params after =>
      let head := if CallingConvention.ofRaw? raw = some .property
        then entry "property" (.ofNat (raw &&& ~~~CallingConvention.mask).toNat)
        else entry "method" (.ofNat raw.toNat)
      .object (head :: entry "ret" (ofTypeSigBy ofSignature ret) ::
        entry "params" (.array (ofTypeSigsBy ofSignature params)) ::
        listEntry "after" id (ofTypeSigsBy ofSignature after) ++
        optEntry "generic" (fun n : UInt32 => .ofNat n.toNat)
          (if count = 0 then none else some count))

end

/-- The outline of a signature with a calling convention.  No field or method is defined inside one. -/
def ofCallSig (c : CallSig) : Json := ofCallSigBy s (fun _ => .null) c

def ofTypeSig (t : TypeSig) : Json := ofTypeSigBy s (ofCallSig s) t

def ofRow (r : Row) : Json := ofRowBy s (ofCallSig s) r

/-! ### Parts of definitions -/

def ofCustomAttributes (as : List Live.CustomAttribute) : List (Bytes × Json) :=
  listEntry "custom_attributes" (fun a =>
    .object [entry "ctor" (ofRow s a.constructor), entry "blob" (.hexText a.blob)]) as

def ofGenericParams (ps : List Live.GenericParam) : List (Bytes × Json) :=
  listEntry "generic_params" (fun p =>
    .object ([entry "name" (.string p.name), entry "attributes" (.ofNat p.attributes.toNat),
      entry "number" (.ofNat p.number.toNat)] ++
      listEntry "constraints" (ofRow s) p.constraints)) ps

def ofParamDef (p : Live.ParamDef) : Json :=
  .object ([entry "name" (.string p.name), entry "sequence" (.ofNat p.sequence.toNat),
    entry "attributes" (.ofNat p.attributes.toNat)] ++
    optEntry "constant" ofConstant p.constant ++ ofCustomAttributes s p.customAttributes)

/-- The position of an instruction of the body. -/
def ofTarget : Live.Target → Json
  | .inside n => .ofNat n
  | _         => .null

/-- The operand of an instruction, if it has one. -/
def ofOperand : Live.Operand → List Json
  | .none        => []
  | .int32 n     => [tagged "i32" (.ofInt n.toInt)]
  | .int64 n     => [tagged "i64" (.decimal n.toInt)]
  | .single b    => [tagged "r4" (.hexBits 8 b.toNat)]
  | .double b    => [tagged "r8" (.hexBits 16 b.toNat)]
  | .string t    => [tagged "string" (.string t)]
  | .target t    => [tagged "target" (ofTarget t)]
  | .targets ts  => [tagged "targets" (.array (ts.map ofTarget))]
  | .variable n  => [tagged "local" (orNull (n.map fun n => .ofNat n.toNat))]
  | .argument n  => [tagged "arg" (.ofNat n.toNat)]
  | .row r       => [tagged "row" (ofRow s r)]
  | .signature c => [tagged "sig" (ofCallSig s c)]

def ofInstruction (i : Live.Instruction) : Json :=
  .array (.ofString i.opcode.name :: ofOperand s i.operand)

def ofHandler (h : Live.ExceptionHandler) : Json :=
  .object [entry "try_start" (ofTarget h.tryStart), entry "try_end" (ofTarget h.tryEnd),
    entry "filter_start" (ofTarget h.filterStart),
    entry "handler_start" (ofTarget h.handlerStart),
    entry "handler_end" (ofTarget h.handlerEnd), entry "catch" (ofRow s h.catchType),
    entry "type" (.ofNat h.handlerType.toNat)]

def ofBody (b : Live.MethodBody) : Json :=
  .object (entry "instructions" (.array (b.instructions.map (ofInstruction s))) ::
    listEntry "handlers" (ofHandler s) b.handlers ++
    listEntry "locals" (ofTypeSig s) b.locals ++
    [entry "max_stack" (.ofNat b.maxStack.toNat), entry "init_locals" (.bool b.initLocals)])

def ofImplMap (i : Live.ImplMap) : Json :=
  .object [entry "module" (ofRow s i.module), entry "name" (.string i.name),
    entry "attributes" (.ofNat i.attributes.toNat)]

/-- A method that a property or event uses. -/
def ofAccessor (m : Option MethodId) : Json := orNull (m.map fun m => ofRow s (.methodDef m))

def ofPropertyDef (p : Live.PropertyDef) : Json :=
  .object ([entry "name" (.string p.name), entry "sig" (ofCallSig s p.signature),
    entry "attributes" (.ofNat p.attributes.toNat), entry "get" (ofAccessor s p.getMethod),
    entry "set" (ofAccessor s p.setMethod)] ++ ofCustomAttributes s p.customAttributes)

def ofEventDef (e : Live.EventDef) : Json :=
  .object ([entry "name" (.string e.name), entry "event_type" (ofRow s e.type),
    entry "attributes" (.ofNat e.attributes.toNat), entry "add" (ofAccessor s e.addMethod),
    entry "remove" (ofAccessor s e.removeMethod), entry "invoke" (ofAccessor s e.invokeMethod)] ++
    ofCustomAttributes s e.customAttributes)

def ofClassLayout (l : Live.ClassLayout) : Json :=
  .array [.ofNat l.packingSize.toNat, .ofNat l.classSize.toNat]

/-! ### Definitions and modules -/

def ofFieldDef (d : Live.FieldDef) : Json :=
  .object ([entry "name" (.string d.name), entry "sig" (ofCallSig s d.signature),
    entry "attributes" (.ofNat d.attributes.toNat)] ++
    optEntry "initial_value" .hexText d.initialValue ++
    optEntry "constant" ofConstant d.constant ++ ofCustomAttributes s d.customAttributes)

def ofMethodDef (d : Live.MethodDef) : Json :=
  .object ([entry "name" (.string d.name), entry "sig" (ofCallSig s d.signature),
    entry "attributes" (.ofNat d.attributes.toNat),
    entry "impl_attributes" (.ofNat d.implAttributes.toNat)] ++
    listEntry "params" (ofParamDef s) d.params ++ optEntry "body" (ofBody s) d.body ++
    listEntry "overrides" (ofRow s) d.overrides ++ optEntry "impl_map" (ofImplMap s) d.implMap ++
    ofGenericParams s d.genericParams ++ ofCustomAttributes s d.customAttributes)

/-- The outline of a type with the types nested in it, `depth` levels deep. -/
def ofTypeDef : Nat → TypeId → Json
  | 0,         _ => .null
  | depth + 1, t =>
      let d := s.typeDef t
      .object ([entry "type" (.string (s.fullName t)),
        entry "attributes" (.ofNat d.attributes.toNat)] ++
        optEntry "base" (ofRow s) (if d.baseType.isNull then none else some d.baseType) ++
        listEntry "interfaces" (ofRow s) d.interfaces ++
        optEntry "layout" ofClassLayout d.layout ++ ofGenericParams s d.genericParams ++
        ofCustomAttributes s d.customAttributes ++
        listEntry "fields" (fun f => ofFieldDef s (s.fieldDef f)) d.fields ++
        listEntry "methods" (fun m => ofMethodDef s (s.methodDef m)) d.methods ++
        listEntry "properties" (ofPropertyDef s) d.properties ++
        listEntry "events" (ofEventDef s) d.events ++
        listEntry "nested" (ofTypeDef depth) d.nestedTypes)

/-- The outline of a module.  Types are not nested deeper than there are types. -/
def ofImage (i : Live.ImageId) : Json :=
  let m := s.image i
  let rows (k : String) (rs : List Row) := entry k (.array (rs.map (ofRow s)))
  .object [entry "name" (.string m.name),
    entry "types" (.array (m.types.map (ofTypeDef s (s.typeDefs.length + 1)))),
    rows "assembly_refs" m.assemblyRefs, rows "module_refs" m.moduleRefs,
    rows "type_refs" m.typeRefs, rows "member_refs" m.memberRefs]

end

end CilCatalog.Description
