import CilCatalog.Proofs.Live.Rows

/-!
# The signatures that occur in a module

A signature holds others: those of parameters and elements, and those of functions that it points at.  `inside` lists them all.  The signatures that the definitions of a module come upon are held by the definitions themselves or by the rows that occur in them (`Store.Signs`).
-/

namespace CilCatalog.Live

/-- A signature of either sort. -/
inductive Signature where
  | type (sig : TypeSig)
  | call (sig : CallSig)

mutual

/-- The signatures inside a type specification.  Other rows stand for a name, whatever they hold. -/
def Row.inside : Row → List Signature
  | .typeSpec _ t => t.inside
  | _             => []

/-- The signature and all signatures inside it, also behind function pointers and modifiers. -/
def TypeSig.inside : TypeSig → List Signature
  | .null                     => [.type .null]
  | .leaf e h                 => [.type (.leaf e h)]
  | .wrapper v t              => .type (.wrapper v t) :: t.inside
  | .fnPtr c                  => .type (.fnPtr c) :: c.inside
  | .named byValue r          => [.type (.named byValue r)]
  | .generic ofMethod n       => [.type (.generic ofMethod n)]
  | .array t rank sizes lower => .type (.array t rank sizes lower) :: t.inside
  | .genericInst t as         => .type (.genericInst t as) :: (t.inside ++ TypeSig.insideAll as)
  | .valueArray t n           => .type (.valueArray t n) :: t.inside
  | .modifier required r t    => .type (.modifier required r t) :: (r.inside ++ t.inside)
  | .module n t               => .type (.module n t) :: t.inside

def TypeSig.insideAll : List TypeSig → List Signature
  | []      => []
  | t :: ts => t.inside ++ TypeSig.insideAll ts

/-- The signature and all signatures inside it. -/
def CallSig.inside : CallSig → List Signature
  | .null                  => [.call .null]
  | .method raw h n t ps vs =>
      .call (.method raw h n t ps vs) ::
        (t.inside ++ (TypeSig.insideAll ps ++ TypeSig.insideAll vs))
  | .field t               => .call (.field t) :: t.inside
  | .locals ts             => .call (.locals ts) :: TypeSig.insideAll ts
  | .inst ts               => .call (.inst ts) :: TypeSig.insideAll ts

end

theorem CallSig.mem_inside (c : CallSig) : .call c ∈ c.inside := by
  cases c <;> simp [CallSig.inside]

/-! ### Signatures of rows and definitions -/

/-- The signatures of a row that is made with one. -/
def Row.signatures : Row → List Signature
  | .typeSpec _ t      => t.inside
  | .memberRef _ _ c _ => c.inside
  | .methodSpec _ _ c  => c.inside
  | _                  => []

def Operand.signatures : Operand → List Signature
  | .signature c => c.inside
  | _            => []

def MethodBody.signatures (b : MethodBody) : List Signature :=
  b.instructions.flatMap (·.operand.signatures) ++ TypeSig.insideAll b.locals

def TypeDef.signatures (d : TypeDef) : List Signature := d.properties.flatMap (·.signature.inside)

def FieldDef.signatures (d : FieldDef) : List Signature := d.signature.inside

def MethodDef.signatures (d : MethodDef) : List Signature :=
  d.signature.inside ++ d.body.toList.flatMap MethodBody.signatures

/-- A definition of module `i`, or a row that occurs in one, has the signature. -/
inductive Store.Signs (s : Store) (i : ImageId) (x : Signature) : Prop where
  | row (r : Row) (hr : s.Occurs i r) (hx : x ∈ r.signatures)
  | type (t : TypeId) (ht : (s.typeDef t).image = i) (hx : x ∈ (s.typeDef t).signatures)
  | field (t : TypeId) (f : FieldId) (ht : (s.typeDef t).image = i)
      (hf : (s.fieldDef f).declaring = some t) (hx : x ∈ (s.fieldDef f).signatures)
  | method (t : TypeId) (m : MethodId) (ht : (s.typeDef t).image = i)
      (hm : (s.methodDef m).declaring = some t) (hx : x ∈ (s.methodDef m).signatures)

/-- What is inside the row of a type is signed, if the row occurs. -/
theorem Store.Signs.inside {s : Store} {i : ImageId} {r : Row}
    (h : ∀ y ∈ r.rows, s.Occurs i y) : ∀ x ∈ r.inside, s.Signs i x := by
  cases r with
  | typeSpec n t => exact fun x hx => .row _ (h _ List.mem_cons_self) hx
  | _ => exact nofun

end CilCatalog.Live
