import CilCatalog.Reading.Reference

/-!
# Trees that depict live signatures

What a tree says about a live signature, apart from the names of types: `R` tells which tokens stand for which rows.  Writing a tree makes a signature that it depicts, and reading a signature makes a tree that depicts it.

The octets, numbers and markers in a tree are those of the signature.  Parameters stand before and behind the marker, which is there only if something is behind it.
-/

namespace CilCatalog

open Live
open Reading (lengthTree flagsTree genericTrees parameterTrees)

mutual

/-- The tree stands for the row of a type. -/
inductive DepictsRow (R : Token → Row → Prop) : SigTree → Row → Prop
  | named {k : Token} {r : Row} (h : R k r) : DepictsRow R (.token k) r
  | spec {t : SigTree} {n : Nat} {sig : TypeSig} (h : Depicts R t sig) :
      DepictsRow R t (.typeSpec n sig)

/-- The tree says what the signature of a type says. -/
inductive Depicts (R : Token → Row → Prop) : SigTree → TypeSig → Prop
  | leaf (e : ElementType) (he : e.isLeaf = true) : Depicts R (.ofElement e) (.leaf e he)
  | wrapper (v : Wrapper) {t : SigTree} {sig : TypeSig} (h : Depicts R t sig) :
      Depicts R (.ofElement v.elementType [t]) (.wrapper v sig)
  | fnPtr {t : SigTree} {sig : CallSig} (h : DepictsCall R t sig) :
      Depicts R (.ofElement .fnPtr [t]) (.fnPtr sig)
  | named (byValue : Bool) {k : Token} {r : Row} (h : R k r) :
      Depicts R (.ofElement (if byValue then .valueType else .cls) [.token k]) (.named byValue r)
  | generic (ofMethod : Bool) (n : UInt32) :
      Depicts R (.ofElement (if ofMethod then .mvar else .var) [.int32 n.toInt32])
        (.generic ofMethod n)
  | array {t : SigTree} {sig : TypeSig} (h : Depicts R t sig) (rank : UInt32)
      (sizes : List UInt32) (lowerBounds : List Int32) :
      Depicts R (.ofElement .array (t :: .int32 rank.toInt32 ::
        (lengthTree sizes :: sizes.map fun n => .int32 n.toInt32) ++
        (lengthTree lowerBounds :: lowerBounds.map .int32))) (.array sig rank sizes lowerBounds)
  | genericInst {t : SigTree} {sig : TypeSig} {ts : List SigTree} {sigs : List TypeSig}
      (h : Depicts R t sig) (hs : DepictsAll R ts sigs) :
      Depicts R (.ofElement .genericInst (t :: lengthTree sigs :: ts)) (.genericInst sig sigs)
  | valueArray {t : SigTree} {sig : TypeSig} (h : Depicts R t sig) (n : UInt32) :
      Depicts R (.ofElement .valueArray [t, .int32 n.toInt32]) (.valueArray sig n)
  | modifier (required : Bool) {m t : SigTree} {r : Row} {sig : TypeSig} (hm : DepictsRow R m r)
      (h : Depicts R t sig) :
      Depicts R (.ofElement (if required then .cmodReqd else .cmodOpt) [m, t])
        (.modifier required r sig)
  | module (n : UInt32) {t : SigTree} {sig : TypeSig} (h : Depicts R t sig) :
      Depicts R (.ofElement .module [.int32 n.toInt32, t]) (.module n sig)

/-- The trees say what the signatures say, one by one. -/
inductive DepictsAll (R : Token → Row → Prop) : List SigTree → List TypeSig → Prop
  | nil : DepictsAll R [] []
  | cons {t : SigTree} {sig : TypeSig} {ts : List SigTree} {sigs : List TypeSig}
      (h : Depicts R t sig) (hs : DepictsAll R ts sigs) : DepictsAll R (t :: ts) (sig :: sigs)

/-- The tree says what the signature with a calling convention says. -/
inductive DepictsCall (R : Token → Row → Prop) : SigTree → CallSig → Prop
  | method {raw : UInt8} (hlike : CallingConvention.isMethodLikeRaw raw = true) (count : UInt32)
      {t : SigTree} {ret : TypeSig} {ps vs : List SigTree} {params after : List TypeSig}
      (h : Depicts R t ret) (hps : DepictsAll R ps params) (hvs : DepictsAll R vs after) :
      DepictsCall R (.callSig (raw &&& CallingConvention.mask)
        (flagsTree raw :: genericTrees raw count ++
          lengthTree (ps ++ vs) :: t :: parameterTrees ps vs))
        (.method raw (CallingConvention.isMethodOrPropertyRaw_of_isMethodLikeRaw hlike) count ret
          params after)
  | field {t : SigTree} {sig : TypeSig} (h : Depicts R t sig) :
      DepictsCall R (.ofConvention .field [.int32 0, t]) (.field sig)
  | locals {ts : List SigTree} {sigs : List TypeSig} (hs : DepictsAll R ts sigs) :
      DepictsCall R (.ofConvention .localSig (.int32 0 :: lengthTree sigs :: ts)) (.locals sigs)
  | inst {ts : List SigTree} {sigs : List TypeSig} (hs : DepictsAll R ts sigs) :
      DepictsCall R (.ofConvention .genericInst (.int32 0 :: lengthTree sigs :: ts)) (.inst sigs)

end

/-! ### More names -/

section Mono

variable {R R' : Token → Row → Prop}

mutual

theorem DepictsRow.mono (hR : ∀ {k r}, R k r → R' k r) {t : SigTree} :
    ∀ {r : Row}, DepictsRow R t r → DepictsRow R' t r
  | _,             .named h => .named (hR h)
  | .typeSpec _ _, .spec h  => .spec (h.mono hR)

theorem Depicts.mono (hR : ∀ {k r}, R k r → R' k r) {t : SigTree} :
    ∀ {sig : TypeSig}, Depicts R t sig → Depicts R' t sig
  | .leaf _ _, .leaf _ _ => .leaf _ _
  | .wrapper v _, .wrapper _ h => .wrapper v (h.mono hR)
  | .fnPtr _, .fnPtr h => .fnPtr (h.mono hR)
  | .named _ _, .named byValue h => .named byValue (hR h)
  | .generic _ _, .generic ofMethod n => .generic ofMethod n
  | .array .., .array h rank sizes lowerBounds => .array (h.mono hR) rank sizes lowerBounds
  | .genericInst _ _, .genericInst h hs => .genericInst (h.mono hR) (hs.mono hR)
  | .valueArray _ _, .valueArray h n => .valueArray (h.mono hR) n
  | .modifier .., .modifier required hm h => .modifier required (hm.mono hR) (h.mono hR)
  | .module _ _, .module n h => .module n (h.mono hR)

theorem DepictsAll.mono (hR : ∀ {k r}, R k r → R' k r) {ts : List SigTree} :
    ∀ {sigs : List TypeSig}, DepictsAll R ts sigs → DepictsAll R' ts sigs
  | [],     .nil       => .nil
  | _ :: _, .cons h hs => .cons (h.mono hR) (hs.mono hR)

theorem DepictsCall.mono (hR : ∀ {k r}, R k r → R' k r) {t : SigTree} :
    ∀ {sig : CallSig}, DepictsCall R t sig → DepictsCall R' t sig
  | .method .., .method hlike count h hps hvs =>
      .method hlike count (h.mono hR) (hps.mono hR) (hvs.mono hR)
  | .field _, .field h => .field (h.mono hR)
  | .locals _, .locals hs => .locals (hs.mono hR)
  | .inst _, .inst hs => .inst (hs.mono hR)

end

end Mono

theorem DepictsAll.length_eq {R : Token → Row → Prop} {ts : List SigTree} {sigs : List TypeSig}
    (h : DepictsAll R ts sigs) : ts.length = sigs.length := by
  induction sigs generalizing ts with
  | nil =>
      cases h
      rfl
  | cons sig sigs ih =>
      cases h with
      | cons _ hs => rw [List.length_cons, ih hs, List.length_cons]

end CilCatalog
