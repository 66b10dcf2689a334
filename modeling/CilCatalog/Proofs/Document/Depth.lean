import CilCatalog.Document.Encode
import CilCatalog.Proofs.Document.Members
import CilCatalog.Proofs.Trees

/-!
# How deep documents nest

A document nests as deep as its trees make it, and what they lie inside adds eight levels at most, where a tree is the operand of an instruction (`document_within_of_trees`).  The bounds go from the leaves to the whole; the proof for a record opens its writer and gathers the bounds of its members.

* In the compact style trees are bare texts, and the targets of a `Switch` are the deepest, at nine levels (`document_within`).
* In the structured style a node takes two levels, an object and the array of its arguments (`structuredTree_within`).
-/

namespace CilCatalog

open SigTree (FormatFault)

/-! ### Values and members within a number of levels -/

namespace Json

variable {ms ns : List (Bytes × Json)} {v : Json} {n : Nat}

/-- At most `n` arrays and objects lie inside each other. -/
def Within (n : Nat) (v : Json) : Prop := v.depth ≤ n

/-- The same for the values of members. -/
def MembersWithin (n : Nat) (ms : List (Bytes × Json)) : Prop := depthMembers ms ≤ n

theorem Within.mono {m : Nat} (h : v.Within n) (hn : n ≤ m) : v.Within m := Nat.le_trans h hn

theorem MembersWithin.mono {m : Nat} (h : MembersWithin n ms) (hn : n ≤ m) : MembersWithin m ms :=
  Nat.le_trans h hn

theorem within_object : (object ms).Within (n + 1) ↔ MembersWithin n ms := by
  rw [Within, depth]
  exact Nat.add_le_add_iff_right

theorem within_array {es : List Json} : (array es).Within (n + 1) ↔ ∀ e ∈ es, e.Within n := by
  rw [Within, depth, Nat.add_le_add_iff_right]
  induction es with
  | nil => simp [depthElements]
  | cons e es ih => rw [depthElements, Nat.max_le, ih, List.forall_mem_cons, Within]

@[simp] theorem membersWithin_nil : MembersWithin n [] := Nat.zero_le n

@[simp] theorem membersWithin_cons {k : Bytes} :
    MembersWithin n ((k, v) :: ms) ↔ v.Within n ∧ MembersWithin n ms := by
  rw [MembersWithin, depthMembers, Nat.max_le, Within, MembersWithin]

@[simp] theorem membersWithin_append :
    MembersWithin n (ms ++ ns) ↔ MembersWithin n ms ∧ MembersWithin n ns := by
  induction ms with
  | nil => simp
  | cons m ms ih =>
      obtain ⟨k, v⟩ := m
      rw [List.cons_append, membersWithin_cons, membersWithin_cons, ih, and_assoc]

@[simp] theorem within_string {s : Bytes} : (string s).Within n := Nat.zero_le n

@[simp] theorem within_int {i : Int64} : (int i).Within n := Nat.zero_le n

@[simp] theorem within_bool {b : Bool} : (bool b).Within n := Nat.zero_le n

end Json

open Json (within_object within_array membersWithin_nil)

namespace Encode

variable {α : Type} {n : Nat}

theorem optional_within {k : Bytes} {f : α → Json} {o : Option α} (h : ∀ a ∈ o, (f a).Within n) :
    Json.MembersWithin n (optional k f o) := by
  cases o with
  | none => exact membersWithin_nil
  | some a => simpa [optional] using h a rfl

theorem optionalM_within {k : Bytes} {f : α → Except FormatFault Json} {o : Option α} {ms : Members}
    (hm : optionalM k f o = .ok ms) (h : ∀ a ∈ o, ∀ v, f a = .ok v → v.Within n) :
    Json.MembersWithin n ms := by
  cases o with
  | none =>
      cases hm
      exact membersWithin_nil
  | some a =>
      obtain ⟨v, hv, hm⟩ := bind_eq_ok.1 hm
      cases hm
      simpa using h a rfl v hv

theorem list_within {f : α → Json} {as : List α} (h : ∀ a, (f a).Within n) :
    (list f as).Within (n + 1) := by
  rw [list, within_array]
  intro e he
  obtain ⟨a, -, rfl⟩ := List.mem_map.1 he
  exact h a

theorem mapM_within {f : α → Except FormatFault Json} {as : List α} {vs : List Json}
    (hs : as.mapM f = .ok vs) (h : ∀ a ∈ as, ∀ v, f a = .ok v → v.Within n) :
    ∀ v ∈ vs, v.Within n := by
  induction as generalizing vs with
  | nil =>
      cases hs
      exact fun _ hv => absurd hv List.not_mem_nil
  | cons a as ih =>
      rw [List.mapM_cons] at hs
      obtain ⟨v, hv, hs⟩ := bind_eq_ok.1 hs
      obtain ⟨us, hus, hs⟩ := bind_eq_ok.1 hs
      cases hs
      obtain ⟨ha, has⟩ := List.forall_mem_cons.1 h
      exact List.forall_mem_cons.2 ⟨ha v hv, ih hus has⟩

theorem listM_within {f : α → Except FormatFault Json} {as : List α} {v : Json}
    (hv : listM f as = .ok v) (h : ∀ a ∈ as, ∀ v, f a = .ok v → v.Within n) : v.Within (n + 1) := by
  obtain ⟨vs, hvs, hv⟩ := bind_eq_ok.1 hv
  cases hv
  exact within_array.2 (mapM_within hvs h)

/-! ### Leaves -/

@[simp] theorem int32_within (i : Int32) : (int32 i).Within n := Nat.zero_le n

@[simp] theorem code_within (c : UInt8) : (code c).Within n := Nat.zero_le n

@[simp] theorem bytes_within (b : Bytes) : (bytes b).Within n := Nat.zero_le n

theorem token_within (s : DocumentStyle) (t : Token) : (token s t).Within 1 := by
  cases s <;> cases t
  · exact within_object.2 (by simp [member])
  · exact within_object.2 (by simp [member])
  · exact Nat.zero_le 1
  · exact Nat.zero_le 1

theorem arguments_within {vs : List Json} (h : ∀ v ∈ vs, v.Within n) :
    Json.MembersWithin (n + 1) (arguments vs) := by
  cases vs with
  | nil => exact membersWithin_nil
  | cons v vs => simpa [arguments, member] using within_array.2 h

mutual

/-- A node lies in an object, and its arguments in an array inside that. -/
theorem structuredTree_within : ∀ t : SigTree, (structuredTree t).Within (2 * t.height)
  | .token t => within_object.2 (by simp [kind, member, token_within])
  | .typeSig c as => by
      have arguments := arguments_within (structuredTrees_within as)
      rw [structuredTree, SigTree.height, Nat.mul_succ]
      exact within_object.2 (by simp [kind, member, arguments])
  | .callSig c as => by
      have arguments := arguments_within (structuredTrees_within as)
      rw [structuredTree, SigTree.height, Nat.mul_succ]
      exact within_object.2 (by simp [kind, member, arguments])
  | .int32 v => within_object.2 (by simp [kind, member, token_within])
  | .methodSpec m i => by
      have hm := (structuredTree_within m).mono
        (Nat.mul_le_mul_left 2 (Nat.le_max_left m.height i.height))
      have hi := (structuredTree_within i).mono
        (Nat.mul_le_mul_left 2 (Nat.le_max_right m.height i.height))
      have arguments := arguments_within
        (List.forall_mem_cons.2 ⟨hm, List.forall_mem_singleton.2 hi⟩)
      rw [structuredTree, SigTree.height, Nat.mul_succ]
      exact within_object.2 (by simp [kind, member, arguments])
  | .inline k o => by
      have arguments := arguments_within (List.forall_mem_singleton.2 (structuredTree_within o))
      rw [structuredTree, SigTree.height, Nat.mul_succ]
      exact within_object.2 (by simp [kind, member, arguments])

theorem structuredTrees_within : ∀ as : List SigTree,
    ∀ v ∈ structuredTrees as, v.Within (2 * SigTree.heightOfAll as)
  | [] => fun _ hv => absurd hv List.not_mem_nil
  | a :: as => by
      have ha := structuredTree_within a
      have has := structuredTrees_within as
      rw [SigTree.heightOfAll]
      exact List.forall_mem_cons.2 ⟨ha.mono (by omega), fun v hv => (has v hv).mono (by omega)⟩

end

/-- However they are written, the trees nest at most `k` levels deep. -/
def TreesWithin (s : DocumentStyle) (k : Nat) (ts : List SigTree) : Prop :=
  ∀ t ∈ ts, ∀ v, tree s t = .ok v → v.Within k

theorem treesWithin_compact {k : Nat} (ts : List SigTree) : TreesWithin .compact k ts := by
  intro t _ v h
  obtain ⟨s, -, h⟩ := bind_eq_ok.1 h
  cases h
  exact Nat.zero_le k

theorem treesWithin_structured {k : Nat} {ts : List SigTree} (h : ∀ t ∈ ts, t.height ≤ k) :
    TreesWithin .structured (2 * k) ts := by
  rintro t ht _ ⟨⟩
  exact (structuredTree_within t).mono (Nat.mul_le_mul_left 2 (h t ht))

section Trees

variable {s : DocumentStyle} {k : Nat} {t : SigTree} {ts us : List SigTree}

@[simp] theorem treesWithin_cons :
    TreesWithin s k (t :: ts) ↔ (∀ v, tree s t = .ok v → v.Within k) ∧ TreesWithin s k ts :=
  List.forall_mem_cons

@[simp] theorem treesWithin_append :
    TreesWithin s k (ts ++ us) ↔ TreesWithin s k ts ∧ TreesWithin s k us :=
  List.forall_mem_append

@[simp] theorem treesWithin_flatMap {f : α → List SigTree} {as : List α} :
    TreesWithin s k (as.flatMap f) ↔ ∀ a ∈ as, TreesWithin s k (f a) := by
  simp only [TreesWithin, List.mem_flatMap]
  exact ⟨fun h a ha t ht => h t ⟨a, ha, ht⟩, fun h t ⟨a, ha, ht⟩ => h a ha t ht⟩

end Trees

/-! ### Parts of definitions -/

theorem constant_within (c : Constant) : (constant c).Within 1 := by
  unfold constant
  dsimp only
  split
  · exact within_object.2 (by simp [member])
  · have slot := optional_within (n := 0) (k := utf8 "Value") (o := c.value.slot?) (f := Json.int)
      fun _ _ => Json.within_int
    exact within_object.2 (by simp [member, slot])

theorem layout_within (l : ClassLayout) : (layout l).Within 1 := within_object.2 (by simp [member])

theorem implMap_within (m : ImplMap) : (implMap m).Within 1 := within_object.2 (by simp [member])

theorem optionalConstant_within (k : Bytes) (o : Option Constant) :
    Json.MembersWithin 3 (optional k constant o) :=
  optional_within fun c _ => (constant_within c).mono (by decide)

variable {s : DocumentStyle} {k : Nat}

theorem customAttribute_within (a : CustomAttribute) : (customAttribute s a).Within 2 :=
  within_object.2 (by simp [member, token_within])

theorem customAttributes_within (as : Option (List CustomAttribute)) :
    Json.MembersWithin 3 (customAttributes s as) :=
  optional_within fun _ _ => list_within customAttribute_within

theorem optionalToken_within (hn : 1 ≤ n) (key : Bytes) (o : Option Token) :
    Json.MembersWithin n (optional key (token s) o) :=
  optional_within fun t _ => (token_within s t).mono hn

theorem optionalTokens_within (hn : 2 ≤ n) (key : Bytes) (o : Option (List Token)) :
    Json.MembersWithin n (optional key (list (token s)) o) :=
  optional_within fun _ _ => (list_within (token_within s)).mono hn

theorem parameter_within (p : Parameter) : (parameter s p).Within 4 :=
  within_object.2 (by simp [member, optionalConstant_within, customAttributes_within])

theorem genericParameter_within {p : GenericParameter} (hp : TreesWithin s k p.trees) (v : Json)
    (h : genericParameter (tree s) p = .ok v) : v.Within (k + 2) := by
  obtain ⟨constraints, hc, h⟩ := bind_eq_ok.1 h
  cases h
  have constraints := optionalM_within hc fun ts ht v hv => listM_within hv fun t htt => by
    rw [GenericParameter.trees, ht] at hp
    exact hp t htt
  exact within_object.2 (by simp [member, constraints])

theorem genericParameters_within {ps : Option (List GenericParameter)}
    (hp : ∀ p ∈ ps.getD [], TreesWithin s k p.trees) {ms : Members}
    (h : genericParameters (tree s) ps = .ok ms) : Json.MembersWithin (k + 3) ms :=
  optionalM_within h fun qs hq v hv => listM_within hv fun q hqq =>
    genericParameter_within (hp q (by rw [hq]; exact hqq))

theorem property_within (hk : 1 ≤ k) {p : Property} (hp : TreesWithin s k p.trees) (v : Json)
    (h : property (tree s) s p = .ok v) : v.Within (k + 3) := by
  obtain ⟨signature, hs, h⟩ := bind_eq_ok.1 h
  cases h
  have signature := (hp _ (List.mem_singleton_self _) _ hs).mono (show k ≤ k + 2 by omega)
  have token := optionalToken_within (s := s) (show 1 ≤ k + 2 by omega)
  have customs := (customAttributes_within (s := s) p.customAttributes).mono (show 3 ≤ k + 2 by omega)
  exact within_object.2 (by simp [member, signature, token, customs])

theorem event_within (hk : 1 ≤ k) {e : Event} (he : TreesWithin s k e.trees) (v : Json)
    (h : event (tree s) s e = .ok v) : v.Within (k + 3) := by
  obtain ⟨type, ht, h⟩ := bind_eq_ok.1 h
  cases h
  have type := (he _ (List.mem_singleton_self _) _ ht).mono (show k ≤ k + 2 by omega)
  have token := optionalToken_within (s := s) (show 1 ≤ k + 2 by omega)
  have customs := (customAttributes_within (s := s) e.customAttributes).mono (show 3 ≤ k + 2 by omega)
  exact within_object.2 (by simp [member, type, token, customs])

/-! ### Method bodies -/

theorem operand_within (hk : 1 ≤ k) {o : Operand} (ho : TreesWithin s k o.trees) (v : Json)
    (h : operand (tree s) o = .ok v) : v.Within (k + 1) := by
  cases o with
  | tree t =>
      obtain ⟨u, hu, h⟩ := bind_eq_ok.1 h
      cases h
      exact within_object.2 (by simp [member, ho _ (List.mem_singleton_self t) _ hu])
  | targets ns =>
      cases h
      have targets : (list int32 ns).Within 1 := list_within int32_within
      exact within_object.2 (by simp [member, targets.mono hk])
  | _ =>
      cases h
      exact within_object.2 (by simp [member, optional, ConstantValue.slot?])

theorem instruction_within (hk : 1 ≤ k) {i : Instruction} (hi : TreesWithin s k i.trees) (v : Json)
    (h : instruction (tree s) i = .ok v) : v.Within (k + 2) := by
  obtain ⟨operand, ho, h⟩ := bind_eq_ok.1 h
  cases h
  have operand := optionalM_within ho fun o hio => operand_within hk
    (treesWithin_flatMap.1 hi o (Option.mem_toList.2 hio))
  exact within_object.2 (by simp [member, operand])

theorem handler_within {e : ExceptionHandler} (he : TreesWithin s k e.catchType.toList) (v : Json)
    (h : handler (tree s) e = .ok v) : v.Within (k + 1) := by
  obtain ⟨catchType, hc, h⟩ := bind_eq_ok.1 h
  cases h
  have catchType := optionalM_within hc fun t ht => he t (Option.mem_toList.2 ht)
  exact within_object.2 (by simp [member, catchType])

theorem body_within (hk : 1 ≤ k) {b : MethodBody} (hb : TreesWithin s k b.trees) (v : Json)
    (h : body (tree s) b = .ok v) : v.Within (k + 4) := by
  obtain ⟨instructions, hi, h⟩ := bind_eq_ok.1 h
  obtain ⟨handlers, hh, h⟩ := bind_eq_ok.1 h
  obtain ⟨locals, hl, h⟩ := bind_eq_ok.1 h
  cases h
  simp only [MethodBody.trees, treesWithin_append, treesWithin_flatMap] at hb
  obtain ⟨⟨hbi, hbh⟩, hbl⟩ := hb
  have instructions := listM_within hi fun i hm => instruction_within hk (hbi i hm)
  have handlers := (listM_within hh fun e hm => handler_within (hbh e hm)).mono
    (show k + 1 + 1 ≤ k + 3 by omega)
  have locals := (listM_within hl hbl).mono (show k + 1 ≤ k + 3 by omega)
  exact within_object.2 (by simp [member, instructions, handlers, locals])

/-! ### Entities -/

theorem typeIdentity_within (t : TypeIdentity) : Json.MembersWithin (n + 1) (typeIdentity t) := by
  have assembly := optional_within (n := n + 1) (k := utf8 "Assembly") (o := t.assembly) (f := Json.string)
    fun _ _ => Json.within_string
  have enclosing := optional_within (n := n + 1) (k := utf8 "EnclosingNames") (o := t.enclosing)
    (f := list Json.string) fun _ _ => list_within fun _ => Json.within_string
  simp [typeIdentity, member, assembly, enclosing]

theorem memberIdentity_within {m : MemberIdentity} (hm : TreesWithin s k m.trees) {ms : Members}
    (h : memberIdentity (tree s) m = .ok ms) : Json.MembersWithin (k + 4) ms := by
  obtain ⟨type, ht, h⟩ := bind_eq_ok.1 h
  obtain ⟨signature, hs, h⟩ := bind_eq_ok.1 h
  cases h
  simp only [MemberIdentity.trees, treesWithin_cons] at hm
  have type := (hm.1 _ ht).mono (show k ≤ k + 4 by omega)
  have signature := (hm.2.1 _ hs).mono (show k ≤ k + 4 by omega)
  simp [member, type, signature]

theorem typeData_within (hk : 1 ≤ k) {d : TypeData} (hd : TreesWithin s k d.trees) {ms : Members}
    (h : typeData (tree s) s d = .ok ms) : Json.MembersWithin (k + 4) ms := by
  obtain ⟨baseType, hb, h⟩ := bind_eq_ok.1 h
  obtain ⟨interfaces, hi, h⟩ := bind_eq_ok.1 h
  obtain ⟨generics, hg, h⟩ := bind_eq_ok.1 h
  obtain ⟨properties, hp, h⟩ := bind_eq_ok.1 h
  obtain ⟨events, he, h⟩ := bind_eq_ok.1 h
  cases h
  simp only [TypeData.trees, treesWithin_append, treesWithin_flatMap] at hd
  obtain ⟨⟨⟨⟨hdb, hdi⟩, hdg⟩, hdp⟩, hde⟩ := hd
  have baseType := (optionalM_within hb fun t ht => hdb t (Option.mem_toList.2 ht)).mono
    (show k ≤ k + 4 by omega)
  have interfaces := (optionalM_within hi fun ts ht v hv => listM_within hv fun t htt =>
    hdi t (by rw [ht]; exact htt)).mono (show k + 1 ≤ k + 4 by omega)
  have layout := optional_within (k := utf8 "ClassLayout") (o := d.layout) fun l _ =>
    (layout_within l).mono (show 1 ≤ k + 4 by omega)
  have generics := (genericParameters_within hdg hg).mono (show k + 3 ≤ k + 4 by omega)
  have customs := (customAttributes_within (s := s) d.customAttributes).mono (show 3 ≤ k + 4 by omega)
  have tokens := optionalTokens_within (s := s) (show 2 ≤ k + 4 by omega)
  have properties := optionalM_within hp fun ps hps v hv => listM_within hv fun p hm =>
    property_within hk (hdp p (by rw [hps]; exact hm))
  have events := optionalM_within he fun es hes v hv => listM_within hv fun e hm =>
    event_within hk (hde e (by rw [hes]; exact hm))
  simp [member, baseType, interfaces, layout, generics, customs, tokens, properties, events]

theorem fieldData_within (hk : 1 ≤ k) (d : FieldData) : Json.MembersWithin (k + 4) (fieldData s d) := by
  have initialValue := optional_within (n := k + 4) (k := utf8 "InitialValue") (o := d.initialValue)
    fun b _ => bytes_within b
  have constant := (optionalConstant_within (utf8 "Constant") d.constant).mono
    (show 3 ≤ k + 4 by omega)
  have customs := (customAttributes_within (s := s) d.customAttributes).mono (show 3 ≤ k + 4 by omega)
  simp [fieldData, member, initialValue, constant, customs]

theorem methodData_within (hk : 1 ≤ k) {d : MethodData} (hd : TreesWithin s k d.trees) {ms : Members}
    (h : methodData (tree s) s d = .ok ms) : Json.MembersWithin (k + 4) ms := by
  obtain ⟨body, hb, h⟩ := bind_eq_ok.1 h
  obtain ⟨generics, hg, h⟩ := bind_eq_ok.1 h
  cases h
  simp only [MethodData.trees, treesWithin_append, treesWithin_flatMap] at hd
  obtain ⟨hdb, hdg⟩ := hd
  have parameters : (list (parameter s) d.parameters).Within (k + 4) :=
    (list_within parameter_within).mono (show 5 ≤ k + 4 by omega)
  have body := optionalM_within hb fun b hm => body_within hk (hdb b (Option.mem_toList.2 hm))
  have implMap := optional_within (k := utf8 "ImplMap") (o := d.implMap) fun m _ =>
    (implMap_within m).mono (show 1 ≤ k + 4 by omega)
  have generics := (genericParameters_within hdg hg).mono (show k + 3 ≤ k + 4 by omega)
  have customs := (customAttributes_within (s := s) d.customAttributes).mono (show 3 ≤ k + 4 by omega)
  have tokens := optionalTokens_within (s := s) (show 2 ≤ k + 4 by omega)
  simp [member, parameters, body, tokens, implMap, generics, customs]

theorem typeReference_within (t : TypeIdentity) (v : Json)
    (h : (typeReference t : Except FormatFault Json) = .ok v) : v.Within (k + 5) := by
  cases h
  exact within_object.2 (typeIdentity_within t)

theorem memberReference_within {m : MemberIdentity} (hm : TreesWithin s k m.trees) (v : Json)
    (h : memberReference (tree s) m = .ok v) : v.Within (k + 5) := by
  obtain ⟨ms, hms, h⟩ := bind_eq_ok.1 h
  cases h
  exact within_object.2 (memberIdentity_within hm hms)

theorem typeDefinition_within (hk : 1 ≤ k) {t : TypeIdentity × TypeData}
    (ht : TreesWithin s k t.2.trees) (v : Json) (h : typeDefinition (tree s) s t = .ok v) :
    v.Within (k + 5) := by
  obtain ⟨ms, hd, h⟩ := bind_eq_ok.1 h
  cases h
  exact within_object.2 (by simp [typeIdentity_within, typeData_within hk ht hd])

theorem fieldDefinition_within (hk : 1 ≤ k) {f : MemberIdentity × FieldData} (hf : TreesWithin s k f.1.trees)
    (v : Json) (h : fieldDefinition (tree s) s f = .ok v) : v.Within (k + 5) := by
  obtain ⟨ms, hm, h⟩ := bind_eq_ok.1 h
  cases h
  exact within_object.2 (by simp [memberIdentity_within hf hm, fieldData_within hk f.2])

theorem methodDefinition_within (hk : 1 ≤ k) {m : MemberIdentity × MethodData}
    (hm : TreesWithin s k m.1.trees) (hd : TreesWithin s k m.2.trees) (v : Json)
    (h : methodDefinition (tree s) s m = .ok v) : v.Within (k + 5) := by
  obtain ⟨ms, hms, h⟩ := bind_eq_ok.1 h
  obtain ⟨ns, hns, h⟩ := bind_eq_ok.1 h
  cases h
  exact within_object.2 (by simp [memberIdentity_within hm hms, methodData_within hk hd hns])

/-! ### Documents -/

theorem entries_within {f : α → Except FormatFault Json} {es : List (Bytes × α)} {ms : Members}
    (hs : (es.mapM fun e => do return (e.1, ← f e.2)) = .ok ms)
    (h : ∀ e ∈ es, ∀ v, f e.2 = .ok v → v.Within n) : Json.MembersWithin n ms := by
  induction es generalizing ms with
  | nil =>
      cases hs
      exact membersWithin_nil
  | cons e es ih =>
      rw [List.mapM_cons] at hs
      obtain ⟨m, hm, hs⟩ := bind_eq_ok.1 hs
      obtain ⟨ns, hns, hs⟩ := bind_eq_ok.1 hs
      obtain ⟨v, hv, hm⟩ := bind_eq_ok.1 hm
      cases hs
      cases hm
      obtain ⟨he, hes⟩ := List.forall_mem_cons.1 h
      exact Json.membersWithin_cons.2 ⟨he v hv, ih hns hes⟩

theorem keyed_within {f : α → Except FormatFault Json} {m : Keyed α} {v : Json} (hv : keyed f m = .ok v)
    (h : ∀ e ∈ m.entries, ∀ v, f e.2 = .ok v → v.Within n) : v.Within (n + 1) := by
  obtain ⟨ms, hms, hv⟩ := bind_eq_ok.1 hv
  cases hv
  exact within_object.2 (entries_within hms h)

theorem part_within {ι δ : Type} {reference : ι → Except FormatFault Json}
    {definition : ι × δ → Except FormatFault Json} {p : PartitionSection ι δ}
    (hr : ∀ e ∈ p.references.entries, ∀ v, reference e.2 = .ok v → v.Within n)
    (hd : ∀ e ∈ p.definitions.entries, ∀ v, definition e.2 = .ok v → v.Within n) {v : Json}
    (h : part reference definition p = .ok v) : v.Within (n + 2) := by
  obtain ⟨rs, hrs, h⟩ := bind_eq_ok.1 h
  obtain ⟨ds, hds, h⟩ := bind_eq_ok.1 h
  cases h
  have references := keyed_within hrs hr
  have definitions := keyed_within hds hd
  have turns : (list int32 p.turns).Within (n + 1) := list_within int32_within
  exact within_object.2 (by simp [member, references, definitions, turns])

/-- A document nests at most eight levels deeper than its trees, which count as one level deep at least: a token that stands by itself is an object in the structured style. -/
theorem document_within_of_trees (hk : 1 ≤ k) {p : Partition} (hp : TreesWithin s k p.trees) {v : Json}
    (h : document (tree s) s p = .ok v) : v.Within (k + 8) := by
  obtain ⟨types, ht, h⟩ := bind_eq_ok.1 h
  obtain ⟨fields, hf, h⟩ := bind_eq_ok.1 h
  obtain ⟨methods, hm, h⟩ := bind_eq_ok.1 h
  cases h
  simp only [Partition.trees, PartitionSection.trees, treesWithin_append, treesWithin_flatMap] at hp
  obtain ⟨⟨⟨-, htd⟩, hfr, hfd⟩, hmr, hmd⟩ := hp
  have types := part_within (fun e _ => typeReference_within e.2)
    (fun e he => typeDefinition_within hk (htd e he).2) ht
  have fields := part_within (fun e he => memberReference_within (hfr e he))
    (fun e he => fieldDefinition_within hk (hfd e he).1) hf
  have methods := part_within (fun e he => memberReference_within (hmr e he))
    (fun e he => methodDefinition_within hk (hmd e he).1 (hmd e he).2) hm
  exact within_object.2 (by simp [member, types, fields, methods])

/-- A compact document nests at most nine levels deep. -/
theorem document_within {p : Partition} {v : Json} (h : document (tree .compact) .compact p = .ok v) :
    v.Within 9 :=
  document_within_of_trees (Nat.le_refl 1) (treesWithin_compact _) h

end Encode

end CilCatalog
