import CilCatalog.Proofs.Reading.Closed
import CilCatalog.Proofs.SignatureIdentity
import CilCatalog.Proofs.Signatures
import Mathlib.Data.List.Find

/-!
# Members are told apart as their trees are

A writer may make one signature, serve requests while others change its module, and make another one.  If the types in the two trees have rows of their own, the signatures are equal just if the trees are, so that members are found by their trees (`signatures_told_apart`).
-/

namespace CilCatalog

open Live Writing

/-! ### Tokens of a tree -/

section

variable {R : Token → Row → Prop} {us : List Use}

/-- What stands for a row among some tokens. -/
def Among (R : Token → Row → Prop) (us : List Use) (k : Token) (r : Row) : Prop :=
  R k r ∧ ⟨.type, k⟩ ∈ us

mutual

theorem DepictsRow.among : ∀ {r : Row} {t : SigTree}, DepictsRow R t r → t.uses .type ⊆ us →
    DepictsRow (Among R us) t r
  | _, .token k, .named h, hu => .named ⟨h, by simpa [Token.uses] using hu⟩
  | .typeSpec _ sig, _, .spec h, hu => .spec (Depicts.among h hu)

theorem Depicts.among : ∀ {sig : TypeSig} {t : SigTree}, Depicts R t sig → t.uses .type ⊆ us →
    Depicts (Among R us) t sig
  | .leaf .., _, .leaf e he, _ => .leaf e he
  | .wrapper .., _, .wrapper v h, hu => .wrapper v (h.among (by simpa using hu))
  | .fnPtr _, _, .fnPtr h, hu => .fnPtr (h.among (by simpa using hu))
  | .named .., _, .named v h, hu => .named v ⟨h, by simpa [Token.uses] using hu⟩
  | .generic .., _, .generic v n, _ => .generic v n
  | .array .., _, .array h rank sizes lower, hu =>
      .array (h.among (by simpa using hu)) rank sizes lower
  | .genericInst .., _, .genericInst h hs, hu => by
      simp only [SigTree.uses_ofElement, SigTree.usesOfAll_eq_flatMap, List.flatMap_cons,
        uses_lengthTree, List.nil_append, List.append_subset] at hu
      exact .genericInst (h.among hu.1) (hs.among hu.2)
  | .valueArray .., _, .valueArray h n, hu => .valueArray (h.among (by simpa using hu)) n
  | .modifier .., _, .modifier v hm h, hu => by
      simp only [SigTree.uses_ofElement, SigTree.usesOfAll_eq_flatMap, List.flatMap_cons,
        List.flatMap_nil, List.append_nil, List.append_subset] at hu
      exact .modifier v (hm.among hu.1) (h.among hu.2)
  | .module .., _, .module n h, hu => .module n (h.among (by simpa using hu))

theorem DepictsAll.among : ∀ {sigs : List TypeSig} {ts : List SigTree}, DepictsAll R ts sigs →
    ts.flatMap (SigTree.uses .type) ⊆ us → DepictsAll (Among R us) ts sigs
  | [], _, .nil, _ => .nil
  | _ :: _, _, .cons h hs, hu => by
      rw [List.flatMap_cons, List.append_subset] at hu
      exact .cons (h.among hu.1) (hs.among hu.2)

theorem DepictsCall.among : ∀ {sig : CallSig} {t : SigTree}, DepictsCall R t sig →
    t.uses .type ⊆ us → DepictsCall (Among R us) t sig
  | .method .., _, .method hraw n h hps hvs, hu => by
      simp only [SigTree.uses, SigTree.usesOfAll_eq_flatMap, List.cons_append, List.flatMap_cons,
        List.flatMap_append, uses_flagsTree, flatMap_uses_genericTrees, uses_lengthTree,
        flatMap_uses_parameterTrees, List.nil_append, List.append_subset] at hu
      exact .method hraw n (h.among hu.1) (hps.among hu.2.1) (hvs.among hu.2.2)
  | .field _, _, .field h, hu => .field (h.among (by simpa using hu))
  | .locals _, _, .locals hs, hu => .locals (hs.among (by simpa using hu))
  | .inst _, _, .inst hs, hu => .inst (hs.among (by simpa using hu))

end

end

/-! ### Between two signatures -/

namespace WriteState

variable {i : ImageId} {c : Catalog} {w w' w'' : WriteState}

/-- A writer serves requests, and others change its module.  The numbers of their rows are given in order as well. -/
inductive Becomes (i : ImageId) (w : WriteState) : WriteState → Prop
  | refl : Becomes i w w
  | served {w' : WriteState} (h : Becomes i w w') (c : Catalog) (q : Writer.Request) :
      Becomes i w (Writer.serve c q w').2
  | acting {w' w'' : WriteState} (h : Becomes i w w') (hl : w'.Leads w'') : Becomes i w w''
  | changed {w' : WriteState} {s : Store} (h : Becomes i w w') (hi : i.index < s.images.length)
      (hn : w'.store.nextRow ≤ s.nextRow) : Becomes i w (w'.inStore s)

namespace Becomes

theorem emerges (h : w.Becomes i w') (hw : w.Emerges i) : w'.Emerges i := by
  induction h with
  | refl => exact hw
  | served _ c q ih => exact .served ih c q
  | acting _ hl ih => exact .acting ih hl
  | changed _ hi _ ih => exact .changed ih hi

/-- What is remembered keeps its row, and numbers of rows are not given twice. -/
theorem keeps (h : w.Becomes i w') : w.store.nextRow ≤ w'.store.nextRow ∧
    ∀ {kind k r}, w.Resolves c kind k r → w'.Resolves c kind k r := by
  induction h with
  | refl => exact ⟨Nat.le_refl _, id⟩
  | @served w' _ d q ih =>
      have kept := persists_serve d q w'
      exact ⟨Nat.le_trans ih.1 kept.nextRow, fun hr => kept.resolves (ih.2 hr)⟩
  | acting _ hl ih => exact ⟨Nat.le_trans ih.1 hl.nextRow_le, fun hr => (ih.2 hr).leads hl⟩
  | changed _ _ hn ih =>
      refine ⟨Nat.le_trans ih.1 hn, fun {kind _ _} hr => ?_⟩
      have hr := ih.2 hr
      cases kind <;> exact hr

end Becomes

/-- Different tokens that stand for types in two trees stand for different rows. -/
def TellsApart (w : WriteState) (c : Catalog) (t u : SigTree) : Prop :=
  ∀ {k k' r r'}, ⟨.type, k⟩ ∈ t.uses .type ++ u.uses .type →
    ⟨.type, k'⟩ ∈ t.uses .type ++ u.uses .type → k ≠ k' →
    w.Resolves c .type k r → w.Resolves c .type k' r' → r.same r' = false

/-- The computation has given something, and the writer has gone on since. -/
def Gave {α : Type} (i : ImageId) (x : Writing α) (w : WriteState) (a : α) : Prop :=
  ∃ w₀ w₁, w₀.Emerges i ∧ Gives x w₀ a w₁ ∧ w₁.Becomes i w

end WriteState

section

variable {i : ImageId} {c : Catalog} {w w₀ w₁ w₂ w₃ : WriteState} {t u : SigTree}

open WriteState

/-- Tokens in two trees stand for rows of their own, and the rows made for one tree are not those made for the other. -/
theorem apart_of_becomes (hw : w₁.Emerges i) (hb : w₁.Becomes i w₂) (hl : w₂.Leads w₃)
    (h : w₃.TellsApart c t u) :
    RowsApart (Among (w₃.Resolves c .type) (t.uses .type ++ u.uses .type)) (w₀.Fresh w₁)
      (w₂.Fresh w₃) where
  plain hr n sig hs := by
    have calm := hl.keeps (hb.emerges hw).calm.2
    subst hs
    exact nomatch calm.named hr.1.remembersType
  same_iff {k k' r r'} hr hr' := by
    constructor
    · intro hs
      by_contra hne
      exact Bool.false_ne_true ((h hr.2 hr'.2 hne hr.1 hr'.1).symm.trans hs)
    · rintro rfl
      obtain rfl := hr.1.unique hr'.1
      exact beq_self_eq_true _
  numbers n hn hn' := Nat.not_lt.2 (Nat.le_trans (hb.keeps (c := c)).1 hn'.1) hn.2

/-- One thing has been made before the other, and what holds of all runs holds of both. -/
theorem WriteState.Gave.both {α β : Type} {x : Writing α} {y : Writing β}
    {P : WriteState → WriteState → α → Prop} {P' : WriteState → WriteState → β → Prop}
    (hx : ∀ {w}, Runs Calm w x (P w)) (hy : ∀ {w}, Runs Calm w y (P' w)) {a : α} {b : β}
    (ha : Gave i x w₂ a) (hb : Gives y w₂ b w₃) :
    ∃ w₀ w₁, w₁.Emerges i ∧ w₁.Becomes i w₂ ∧ w₂.Leads w₃ ∧ P w₀ w₁ a ∧ P' w₂ w₃ b := by
  obtain ⟨w₀, w₁, hw, ha, between⟩ := ha
  obtain ⟨hl, ha⟩ := hx.leads hw.calm.2 ha
  have hw₁ := WriteState.Emerges.acting hw hl
  obtain ⟨hl', hb⟩ := hy.leads (between.emerges hw₁).calm.2 hb
  exact ⟨w₀, w₁, hw₁, between, hl', ha, hb⟩

theorem typeSig_told_apart {a b : TypeSig} (ht : t.Formattable) (hu : u.Formattable)
    (h : w₃.TellsApart c t u) (ha : Gave i (typeSigOf c t) w₂ a)
    (hb : Gives (typeSigOf c u) w₂ b w₃) : a.sigEq b = true ↔ t = u := by
  obtain ⟨_, _, hw, between, hl, ⟨⟨da, ra⟩, -, ma⟩, ⟨db, rb⟩, -, mb⟩ := ha.both
    (((depicted c ht).type.and (regular c t).type).and (Runs.typeSigOf c t))
    (((depicted c hu).type.and (regular c u).type).and (Runs.typeSigOf c u)) hb
  have da := da.mono fun hr => (between.keeps.2 hr).leads hl
  exact Depicts.sigEq_iff (apart_of_becomes hw between hl h) a b
    (da.among (List.subset_append_left _ _)) (db.among (List.subset_append_right _ _))
    ra.1 rb.1 ma mb

theorem callSig_told_apart {a b : CallSig} (ht : t.Formattable) (hu : u.Formattable)
    (h : w₃.TellsApart c t u) (ha : Gave i (callSigOf c t) w₂ a)
    (hb : Gives (callSigOf c u) w₂ b w₃) : a.sigEq b = true ↔ t = u := by
  obtain ⟨_, _, hw, between, hl, ⟨⟨da, ra⟩, -, ma⟩, ⟨db, rb⟩, -, mb⟩ := ha.both
    (((depicted c ht).call.and (regular c t).call).and (Runs.callSigOf c t))
    (((depicted c hu).call.and (regular c u).call).and (Runs.callSigOf c u)) hb
  have da := da.mono fun hr => (between.keeps.2 hr).leads hl
  exact DepictsCall.sigEq_iff (apart_of_becomes hw between hl h) a b
    (da.among (List.subset_append_left _ _)) (db.among (List.subset_append_right _ _))
    ra rb ma mb

/-- Where a signature has been made of every member's tree, members are found by their trees. -/
theorem find?_told_apart {ι : Type} {b : CallSig} {signature : ι → CallSig} {tree : ι → SigTree}
    {named : ι → Bool} {ms : List ι} (hu : u.Formattable) (hb : Gives (callSigOf c u) w₂ b w₃)
    (hm : ∀ m ∈ ms, (tree m).Formattable ∧ w₃.TellsApart c (tree m) u ∧
      Gave i (callSigOf c (tree m)) w₂ (signature m)) :
    (ms.find? fun m => named m && (signature m).sigEq b) =
      ms.find? fun m => named m && decide (tree m = u) := by
  refine List.find?_congr fun m hmem => ?_
  obtain ⟨ht, apart, gave⟩ := hm m hmem
  rw [Bool.eq_iff_iff.2 ((callSig_told_apart ht hu apart gave hb).trans decide_eq_true_iff.symm)]

/-- A writer has made a signature of one tree and makes one of another tree.  If different types in the trees have different rows, the signatures are equal just if the trees are.  So a field or method is found by name and tree, where the signatures of a type's members have been made of trees. -/
theorem signatures_told_apart (hu : u.Formattable) :
    (∀ {t a b w'}, t.Formattable → w'.TellsApart c t u → Gave i (typeSigOf c t) w a →
      Gives (typeSigOf c u) w b w' → (a.sigEq b = true ↔ t = u)) ∧
    (∀ {t a b w'}, t.Formattable → w'.TellsApart c t u → Gave i (callSigOf c t) w a →
      Gives (callSigOf c u) w b w' → (a.sigEq b = true ↔ t = u)) ∧
    (∀ {b w'} (name : Bytes) (o : TypeId) (tree : FieldId → SigTree),
      Gives (callSigOf c u) w b w' →
      (∀ f ∈ (w'.store.typeDef o).fields, (tree f).Formattable ∧ w'.TellsApart c (tree f) u ∧
        Gave i (callSigOf c (tree f)) w (w'.store.fieldDef f).signature) →
      w'.store.findField? o name b = (w'.store.typeDef o).fields.find? fun f =>
        (w'.store.fieldDef f).name == name && decide (tree f = u)) ∧
    (∀ {b w'} (name : Bytes) (o : TypeId) (tree : MethodId → SigTree),
      Gives (callSigOf c u) w b w' →
      (∀ f ∈ (w'.store.typeDef o).methods, (tree f).Formattable ∧ w'.TellsApart c (tree f) u ∧
        Gave i (callSigOf c (tree f)) w (w'.store.methodDef f).signature) →
      w'.store.findMethod? o name b = (w'.store.typeDef o).methods.find? fun f =>
        (w'.store.methodDef f).name == name && decide (tree f = u)) :=
  ⟨fun ht h ha hb => typeSig_told_apart ht hu h ha hb,
    fun ht h ha hb => callSig_told_apart ht hu h ha hb,
    fun _ _ _ hb hm => find?_told_apart hu hb hm, fun _ _ _ hb hm => find?_told_apart hu hb hm⟩

end

/-! ### A field of a family -/

/-- The tree of a field's signature. -/
def fieldTree (t : SigTree) : SigTree := .ofConvention .field [.int32 0, t]

/-- A field of the type under a token. -/
def fieldOf (n : Int32) : SigTree := fieldTree (.ofElement .cls [.token (.index n)])

/-- A writer that has met the first type. -/
def acquainted : WriteState :=
  ⟨Reader.family.store, { Writer.start ⟨0⟩ ⟨none, none⟩ with
    types := [(⟨"Outer", "N", none, none⟩, ⟨.typeDef ⟨0⟩, .reference⟩)] }⟩

theorem signatures_told_apart_family : ∃ a b w',
    (fieldTree (.ofElement .i8)).Formattable ∧ (fieldOf 0).Formattable ∧ (fieldOf 1).Formattable ∧
    w'.TellsApart acquaintances (fieldOf 0) (fieldOf 1) ∧
    acquainted.Gave ⟨0⟩ (callSigOf acquaintances (fieldOf 0)) a ∧
    Gives (callSigOf acquaintances (fieldOf 1)) acquainted b w' ∧
    a.sigEq b = false ∧ w'.store.findField? ⟨0⟩ "f" b = none := by
  have start : WriteState.Emerges ⟨0⟩ ⟨Reader.family.store, .start ⟨0⟩ ⟨none, none⟩⟩ :=
    .start (by decide)
  have plain : (fieldTree (.ofElement .i8)).Formattable := ⟨_, rfl⟩
  have outer : (fieldOf 0).Formattable := ⟨_, rfl⟩
  have object : (fieldOf 1).Formattable := ⟨_, rfl⟩
  have gave : acquainted.Gave ⟨0⟩ (callSigOf acquaintances (fieldOf 0))
    (.field (.named false (.typeDef ⟨0⟩))) := ⟨_, acquainted, start, rfl, .refl⟩
  have met : acquainted.Emerges ⟨0⟩ :=
    .acting start ((Runs.callSigOf (I := WriteState.Calm) acquaintances (fieldOf 0)).leads start.calm.2
      (show Gives _ _ (.field (.named false (.typeDef ⟨0⟩))) acquainted from rfl)).1
  obtain ⟨b, w', next, ⟨n, scope, h₀, h₁⟩, fields, f⟩ : ∃ b w',
      Gives (callSigOf acquaintances (fieldOf 1)) acquainted b w' ∧
      (∃ n scope, w'.Resolves acquaintances .type (.index 0) (.typeDef ⟨0⟩) ∧
        w'.Resolves acquaintances .type (.index 1) (.typeRef n "System" "Object" scope)) ∧
      (w'.store.typeDef ⟨0⟩).fields = [⟨0⟩] ∧
      (w'.store.fieldDef ⟨0⟩).signature = .field (.leaf .i8 rfl) :=
    ⟨_, _, rfl, ⟨_, _, ⟨_, rfl, rfl⟩, _, rfl, rfl⟩, rfl, rfl⟩
  have apart : w'.TellsApart acquaintances (fieldOf 0) (fieldOf 1) := by
    intro k k' r r' hk hk' hne hr hr'
    simp only [fieldOf, fieldTree, SigTree.uses_ofConvention, SigTree.uses_ofElement,
      SigTree.usesOfAll_eq_flatMap, SigTree.uses, Token.uses, List.flatMap_cons, List.flatMap_nil,
      List.nil_append, List.cons_append, List.mem_cons, List.not_mem_nil, or_false, Use.mk.injEq,
      true_and] at hk hk'
    rcases hk with rfl | rfl <;> rcases hk' with rfl | rfl
    · exact absurd rfl hne
    · rw [hr.unique h₀, hr'.unique h₁]
      rfl
    · rw [hr.unique h₁, hr'.unique h₀]
      rfl
    · exact absurd rfl hne
  have alone : w'.TellsApart acquaintances (fieldTree (.ofElement .i8)) (fieldOf 1) := by
    intro k k' r r' hk hk' hne hr hr'
    simp_all [fieldOf, fieldTree, Token.uses]
  obtain ⟨-, calls, found, -⟩ := signatures_told_apart (i := ⟨0⟩) (c := acquaintances)
    (w := acquainted) object
  refine ⟨_, _, _, plain, outer, object, apart, gave, next, ?_, ?_⟩
  · exact Bool.eq_false_iff.2 fun h => absurd ((calls outer apart gave next).1 h) (by decide)
  · rw [found "f" ⟨0⟩ (fun _ => fieldTree (.ofElement .i8)) next, fields]
    · simp only [List.find?_cons, List.find?_nil]
      rw [decide_eq_false (by decide), Bool.and_false]
    · rw [fields, List.forall_mem_singleton, f]
      exact ⟨plain, alone, acquainted, acquainted, met, rfl, .refl⟩

end CilCatalog
