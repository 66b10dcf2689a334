import CilCatalog.Proofs.SigTree.Lexeme
import CilCatalog.Proofs.SigTree.Shape
import CilCatalog.SigTree.Parse

/-!
# The grammar of the text form

`Spells u t` says that the octets `u` spell the tree `t`, one constructor for each rule of the grammar.  `Builds w as t` says which node a word and its arguments make, so that words and shapes are in one place; the reader makes exactly these nodes (`Parse.node_eq_ok`).
-/

namespace CilCatalog

namespace SigTree

/-- The word `w` in front of the arguments `as` makes the tree `t`. -/
inductive Builds : Bytes → List SigTree → SigTree → Prop where
  | element {e : ElementType} {as : List SigTree} (he : e.isLeaf = false) (h : e.shape.Fits as) :
      Builds e.name as (ofElement e as)
  | convention {k : CallingConvention} {flags : Int32} {as : List SigTree}
      (h : (k.shape flags).Fits as) :
      Builds k.name (int32 flags :: as) (ofConvention k (int32 flags :: as))
  | methodSpec (m i : SigTree) : Builds NodeKind.methodSpec.name [m, i] (methodSpec m i)
  | inline (k : OperandKind) (o : SigTree) : Builds k.name [o] (inline k o)

mutual

/-- The octets spell a tree. -/
inductive Spells : Bytes → SigTree → Prop where
  | index {u : Bytes} {i : Int32} (h : Bytes.Numeral u i.toInt) (hi : 0 ≤ i.toInt) :
      Spells u (token (.index i))
  | name (n : TokenName) : Spells (octet '\'' :: (n.bytes ++ [octet '\''])) (token (.named n))
  | leaf {e : ElementType} (he : e.isLeaf = true) : Spells e.name (ofElement e)
  | int32 {u : Bytes} {v : Int32} (h : Bytes.Numeral u v.toInt) :
      Spells (utf8 NodeKind.int32.name ++ octet '(' :: (u ++ [octet ')'])) (int32 v)
  | node {w u : Bytes} {as : List SigTree} {t : SigTree} (ht : Builds w as t) (ha : SpellsAll u as) :
      Spells (w ++ octet '(' :: (u ++ [octet ')'])) t

/-- The octets spell trees, one or more, with commas between them. -/
inductive SpellsAll : Bytes → List SigTree → Prop where
  | one {u : Bytes} {a : SigTree} (ha : Spells u a) : SpellsAll u [a]
  | cons {u v : Bytes} {a : SigTree} {as : List SigTree} (ha : Spells u a) (has : SpellsAll v as) :
      SpellsAll (u ++ octet ',' :: v) (a :: as)

end

/-! ### Words -/

/-- A letter and octets that continue a word. -/
def isWord : Bytes → Bool
  | []     => false
  | b :: w => Bytes.isLetter b && w.all isWordOctet

theorem spelling_of_isWord {w : Bytes} (h : isWord w = true) : LexemeKind.Spelling (.word w) w := by
  cases w with
  | nil => exact nomatch h
  | cons b w =>
      rw [isWord, Bool.and_eq_true] at h
      exact .word h.1 (List.all_eq_true.1 h.2)

theorem isWord_element (e : ElementType) : isWord e.name = true := by
  cases e <;> decide

theorem isWord_convention (k : CallingConvention) : isWord k.name = true := by
  cases k <;> decide

theorem isWord_nodeKind (k : NodeKind) : isWord k.name = true := by
  cases k <;> decide

theorem Builds.isWord {w : Bytes} {as : List SigTree} {t : SigTree} (h : Builds w as t) :
    isWord w = true := by
  cases h with
  | element => exact isWord_element _
  | convention => exact isWord_convention _
  | methodSpec => exact isWord_nodeKind _
  | inline k => exact isWord_nodeKind k.node

/-! ### Names are told apart -/

theorem elementName_convention (k : CallingConvention) : ElementType.ofName? k.name = none := by
  cases k <;> decide

theorem elementName_operand (k : OperandKind) : ElementType.ofName? k.name = none := by
  cases k <;> decide

theorem conventionName_operand (k : OperandKind) : CallingConvention.ofName? k.name = none := by
  cases k <;> decide

namespace Parse

theorem wordClass_element {e : ElementType} :
    wordClass e.name = if e.isLeaf then .leaf e else .node := by
  rw [wordClass, ElementType.ofName?_name]

theorem wordClass_literal : wordClass NodeKind.int32.name = .literal := by
  decide

theorem wordClass_eq_leaf {w : Bytes} {e : ElementType} (h : wordClass w = .leaf e) :
    w = e.name ∧ e.isLeaf = true := by
  rw [wordClass] at h
  split at h
  · next d hd =>
      split at h
      · next hl => cases h; exact ⟨(ElementType.name_of_ofName? hd).symm, hl⟩
      · exact nomatch h
  · split at h
    · exact nomatch h
    split at h
    · exact nomatch h
    split at h
    · exact nomatch h
    · exact nomatch h

theorem eq_of_wordClass_literal {w : Bytes} (h : wordClass w = .literal) :
    w = NodeKind.int32.name := by
  rw [wordClass] at h
  split at h
  · split at h
    · exact nomatch h
    · exact nomatch h
  · split at h
    · exact nomatch h
    split at h
    · next hw => exact hw
    split at h
    · exact nomatch h
    · exact nomatch h

theorem wordClass_of_builds {w : Bytes} {as : List SigTree} {t : SigTree} (h : Builds w as t) :
    wordClass w = .node := by
  cases h with
  | element he => rw [wordClass_element, he, if_neg Bool.false_ne_true]
  | @convention k => rw [wordClass, elementName_convention, CallingConvention.ofName?_name]; rfl
  | methodSpec => decide
  | inline k => cases k <;> decide

/-- The reader makes the nodes the grammar names. -/
theorem node_eq_ok {w : Bytes} {as : List SigTree} {t : SigTree} {offset : Nat}
    (hw : wordClass w = .node) : node w as offset = .ok t ↔ Builds w as t := by
  constructor
  · intro h
    unfold node at h
    split at h
    · next e he =>
        have e₁ := ElementType.name_of_ofName? he
        split at h
        · next hc =>
            cases h
            rw [← e₁] at hw ⊢
            rw [wordClass_element] at hw
            refine .element ?_ (ElementType.checkArgs_eq_ok.1 hc)
            split at hw
            · exact nomatch hw
            · next hl => simpa using hl
        · exact nomatch h
    next hn₁ =>
    split at h
    · next k hk =>
        split at h
        · next hc =>
            cases h
            obtain ⟨flags, rest, rfl, hf⟩ := CallingConvention.checkArgs_eq_ok.1 hc
            rw [← CallingConvention.name_of_ofName? hk]
            exact .convention hf
        · exact nomatch h
    next hn₂ =>
    split at h
    · next k hk =>
        rw [← OperandKind.name_of_ofName? hk]
        split at h
        · cases h; exact .inline k _
        · exact nomatch h
    next hn₃ =>
      -- the word is the one left that takes arguments
      have hw' : w = NodeKind.methodSpec.name := by
        by_cases hne : w = NodeKind.methodSpec.name
        · exact hne
        · simp only [wordClass, hn₁, hn₂, hn₃, Option.isSome_none, Bool.false_eq_true, if_false,
            Bool.or_false, decide_eq_true_eq, hne] at hw
          split at hw <;> exact nomatch hw
      rw [hw']
      split at h
      · cases h; exact .methodSpec _ _
      · exact nomatch h
  · intro h
    cases h with
    | element he hf =>
        unfold node
        rw [ElementType.ofName?_name]
        dsimp only
        rw [ElementType.checkArgs_eq_ok.2 hf]
    | convention hf =>
        unfold node
        rw [elementName_convention, CallingConvention.ofName?_name]
        dsimp only
        rw [CallingConvention.checkArgs_eq_ok.2 ⟨_, _, rfl, hf⟩]
    | methodSpec m i => rfl
    | inline k o =>
        unfold node
        rw [elementName_operand, conventionName_operand, OperandKind.ofName?_name]

end Parse

end SigTree

end CilCatalog
