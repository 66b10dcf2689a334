import CilCatalog.Document.Encode
import CilCatalog.Proofs.Outcome
import CilCatalog.Proofs.Trees

/-!
# Which documents can be written

A partition always has a structured document.  It has a compact one exactly if each of its trees has a text, and what the writing fails with otherwise is the fault of the first tree that has none, in the order of the document.  No document holds a null.

All of this is one law for each writer (`Writes`): it names the trees that the writer writes, in their order, and says that it fails with the first fault among them and with nothing else.  The law is about two ways of writing at once, the one that remembers its first fault, puts a null in the place of the tree and goes on, and the one that gives up there; so they end alike (`Partition.result_toJson`), and what is shown of the second holds of the first.  The laws of the combinators put the lists of trees together as the writers put the members together, so that the law of a document is about `Partition.trees`.
-/

namespace CilCatalog

open SigTree (FormatFault)

/-! ### Values without a null -/

namespace Json

variable {ms ns : List (Bytes × Json)}

/-- No null occurs anywhere in the value. -/
inductive NullFree : Json → Prop
  | bool (b : Bool) : NullFree (bool b)
  | int (i : Int64) : NullFree (int i)
  | string (s : Bytes) : NullFree (string s)
  | array {es : List Json} (elements : ∀ e ∈ es, NullFree e) : NullFree (array es)
  | object {ms : List (Bytes × Json)} (members : ∀ m ∈ ms, NullFree m.2) : NullFree (object ms)

/-- The same for the values of members. -/
def MembersNullFree (ms : List (Bytes × Json)) : Prop := ∀ m ∈ ms, m.2.NullFree

@[simp] theorem nullFree_bool {b : Bool} : (Json.bool b).NullFree := .bool b

@[simp] theorem nullFree_int {i : Int64} : (Json.int i).NullFree := .int i

@[simp] theorem nullFree_string {s : Bytes} : (Json.string s).NullFree := .string s

theorem nullFree_array {es : List Json} : (Json.array es).NullFree ↔ ∀ e ∈ es, e.NullFree :=
  ⟨fun | .array h => h, .array⟩

theorem nullFree_object : (Json.object ms).NullFree ↔ MembersNullFree ms :=
  ⟨fun | .object h => h, .object⟩

@[simp] theorem membersNullFree_nil : MembersNullFree [] := fun _ h => absurd h List.not_mem_nil

@[simp] theorem membersNullFree_cons {k : Bytes} {v : Json} :
    MembersNullFree ((k, v) :: ms) ↔ v.NullFree ∧ MembersNullFree ms :=
  List.forall_mem_cons

@[simp] theorem membersNullFree_append :
    MembersNullFree (ms ++ ns) ↔ MembersNullFree ms ∧ MembersNullFree ns :=
  List.forall_mem_append

end Json

open Json (NullFree MembersNullFree nullFree_array nullFree_object)

/-! ### Faults of trees -/

namespace SigTree

/-- Why a tree has no text, if it has none. -/
def fault? (t : SigTree) : Option FormatFault :=
  match t.format with
  | .ok _    => none
  | .error f => some f

theorem fault?_eq_none {t : SigTree} : t.fault? = none ↔ t.Formattable := by
  unfold fault? Formattable
  cases t.format <;> simp

theorem fault?_eq_some {t : SigTree} {f : FormatFault} : t.fault? = some f ↔ t.format = .error f := by
  unfold fault?
  cases t.format <;> simp

end SigTree

namespace Encode

variable {α β : Type} {s : DocumentStyle} {ts us : List SigTree}

/-- Why some trees cannot be written: the first of them that has no text.  The structured style needs none. -/
def refusal? : DocumentStyle → List SigTree → Option FormatFault
  | .structured, _  => none
  | .compact,    ts => ts.findSome? SigTree.fault?

theorem refusal?_nil : refusal? s [] = none := by
  cases s <;> rfl

theorem refusal?_append : refusal? s (ts ++ us) = (refusal? s ts).or (refusal? s us) := by
  cases s with
  | structured => rfl
  | compact => exact List.findSome?_append

theorem refusal?_compact_eq_none : refusal? .compact ts = none ↔ ∀ t ∈ ts, t.Formattable := by
  simp only [refusal?, List.findSome?_eq_none_iff, SigTree.fault?_eq_none]

/-- The trees before the first fault have texts. -/
theorem refusal?_compact_eq_some {f : FormatFault} : refusal? .compact ts = some f ↔
    ∃ us t vs, ts = us ++ t :: vs ∧ (∀ u ∈ us, u.Formattable) ∧ t.format = .error f := by
  simp only [refusal?, List.findSome?_eq_some_iff, SigTree.fault?_eq_none, SigTree.fault?_eq_some]
  exact exists_congr fun us => exists_congr fun t => exists_congr fun vs =>
    and_congr_right fun _ => And.comm

/-! ### Writers -/

/-- The writer `x`, which gives up at a fault, and the writer `y`, which remembers the first one and goes on, write the trees `ts` in this order, and nothing else in them can fail.  If no tree has a fault they have one result, for which `Q` holds; otherwise both end with the first fault.  A fault that `y` remembers from before stays. -/
structure Writes (s : DocumentStyle) (ts : List SigTree) (Q : α → Prop) (x : Except FormatFault α)
    (y : Latched α) : Prop where
  written : refusal? s ts = none → ∃ a, x = .ok a ∧ y.run none = (a, none) ∧ Q a
  refused : ∀ f, refusal? s ts = some f → x = .error f ∧ ∃ a, y.run none = (a, some f)
  kept : ∀ f, ∃ a, y.run (some f) = (a, some f)

section Combinators

variable {Q : α → Prop} {R : β → Prop} {x : Except FormatFault α} {y : Latched α}

/-- What the one writer ends with is what the other has to show at its end. -/
theorem Writes.result_eq (h : Writes s ts Q x y) : y.result = x := by
  unfold Latched.result
  cases hr : refusal? s ts with
  | none =>
      obtain ⟨a, rfl, hy, -⟩ := h.written hr
      rw [hy]
  | some f =>
      obtain ⟨rfl, a, hy⟩ := h.refused f hr
      rw [hy]

theorem Writes.exists_eq_ok (h : Writes s ts Q x y) :
    (∃ a, x = .ok a) ↔ refusal? s ts = none := by
  cases hr : refusal? s ts with
  | none =>
      obtain ⟨a, ha, -⟩ := h.written hr
      exact iff_of_true ⟨a, ha⟩ rfl
  | some f => simp [(h.refused f hr).1]

theorem Writes.eq_error (h : Writes s ts Q x y) {f : FormatFault} :
    x = .error f ↔ refusal? s ts = some f := by
  cases hr : refusal? s ts with
  | none =>
      obtain ⟨a, ha, -⟩ := h.written hr
      simp [ha]
  | some g => simp [(h.refused g hr).1]

theorem Writes.of_ok (h : Writes s ts Q x y) {a : α} (ha : x = .ok a) : Q a := by
  obtain ⟨b, hb, -, hQ⟩ := h.written (h.exists_eq_ok.1 ⟨a, ha⟩)
  cases ha.symm.trans hb
  exact hQ

theorem Writes.pure {a : α} (h : Q a) : Writes s [] Q (pure a) (pure a) where
  written _ := ⟨a, rfl, rfl, h⟩
  refused _ hr := by simp [refusal?_nil] at hr
  kept _ := ⟨a, rfl⟩

/-- One writer after the other writes the trees of the first and then those of the second.  The second has to keep a fault whatever it is given, as there may be a null in it. -/
theorem Writes.bind {f : α → Except FormatFault β} {g : α → Latched β} (hx : Writes s ts Q x y)
    (hf : ∀ a, Writes s us (fun b => Q a → R b) (f a) (g a)) :
    Writes s (ts ++ us) R (x >>= f) (y >>= g) where
  written hr := by
    obtain ⟨ht, hu⟩ := Option.or_eq_none_iff.1 (refusal?_append.symm.trans hr)
    obtain ⟨a, rfl, hy, ha⟩ := hx.written ht
    obtain ⟨b, hb, hg, hR⟩ := (hf a).written hu
    exact ⟨b, hb, by rw [StateT.run_bind, hy]; exact hg, hR ha⟩
  refused e hr := by
    rw [refusal?_append] at hr
    -- the first tree without a text is in the first part, or in the second one
    cases ht : refusal? s ts with
    | none =>
        obtain ⟨a, rfl, hy, -⟩ := hx.written ht
        obtain ⟨hb, b, hg⟩ := (hf a).refused e (by simpa [ht] using hr)
        exact ⟨hb, b, by rw [StateT.run_bind, hy]; exact hg⟩
    | some d =>
        obtain rfl : d = e := by simpa [ht] using hr
        obtain ⟨rfl, a, hy⟩ := hx.refused d ht
        obtain ⟨b, hg⟩ := (hf a).kept d
        exact ⟨rfl, b, by rw [StateT.run_bind, hy]; exact hg⟩
  kept e := by
    obtain ⟨a, hy⟩ := hx.kept e
    obtain ⟨b, hg⟩ := (hf a).kept e
    exact ⟨b, by rw [StateT.run_bind, hy]; exact hg⟩

theorem Writes.map {g : α → β} (hx : Writes s ts Q x y) (h : ∀ a, Q a → R (g a)) :
    Writes s ts R (do return g (← x)) (do return g (← y)) := by
  rw [← List.append_nil ts]
  exact hx.bind fun a => .pure (h a)

theorem writes_mapM {trees : β → List SigTree} {f : β → Except FormatFault α} {g : β → Latched α}
    (h : ∀ b, Writes s (trees b) Q (f b) (g b)) (bs : List β) :
    Writes s (bs.flatMap trees) (fun as => ∀ a ∈ as, Q a) (bs.mapM f) (bs.mapM g) := by
  induction bs with
  | nil => exact .pure fun _ ha => absurd ha List.not_mem_nil
  | cons b bs ih =>
      rw [List.mapM_cons, List.mapM_cons, List.flatMap_cons]
      refine (h b).bind fun a => ?_
      exact ih.map fun as has ha => List.forall_mem_cons.2 ⟨ha, has⟩

theorem writes_listM {trees : α → List SigTree} {f : α → Except FormatFault Json}
    {g : α → Latched Json} (h : ∀ a, Writes s (trees a) NullFree (f a) (g a)) (as : List α) :
    Writes s (as.flatMap trees) NullFree (listM f as) (listM g as) :=
  (writes_mapM h as).map fun _ => nullFree_array.2

theorem writes_optionalM {trees : α → List SigTree} {f : α → Except FormatFault Json}
    {g : α → Latched Json} (k : Bytes) (h : ∀ a, Writes s (trees a) NullFree (f a) (g a))
    (o : Option α) :
    Writes s (o.toList.flatMap trees) MembersNullFree (optionalM k f o) (optionalM k g o) := by
  cases o with
  | none => exact .pure Json.membersNullFree_nil
  | some a =>
      rw [Option.toList_some, List.flatMap_singleton]
      exact (h a).map fun v hv => Json.membersNullFree_cons.2 ⟨hv, Json.membersNullFree_nil⟩

/-- A list that may be absent writes the trees of its elements. -/
theorem writes_optionalListM {trees : α → List SigTree} {f : α → Except FormatFault Json}
    {g : α → Latched Json} (k : Bytes) (h : ∀ a, Writes s (trees a) NullFree (f a) (g a))
    (o : Option (List α)) :
    Writes s ((o.getD []).flatMap trees) MembersNullFree (optionalM k (listM f) o)
      (optionalM k (listM g) o) := by
  have written := writes_optionalM k (writes_listM h) o
  cases o with
  | none => exact written
  | some as =>
      rw [Option.toList_some, List.flatMap_singleton] at written
      exact written

end Combinators

theorem optional_nullFree {k : Bytes} {f : α → Json} (h : ∀ a, (f a).NullFree) (o : Option α) :
    MembersNullFree (optional k f o) := by
  cases o with
  | none => exact Json.membersNullFree_nil
  | some a => exact Json.membersNullFree_cons.2 ⟨h a, Json.membersNullFree_nil⟩

theorem list_nullFree {f : α → Json} (h : ∀ a, (f a).NullFree) (as : List α) :
    (list f as).NullFree := by
  refine nullFree_array.2 fun v hv => ?_
  obtain ⟨a, -, rfl⟩ := List.mem_map.1 hv
  exact h a

/-! ### Tokens and trees -/

@[simp] theorem int32_nullFree (i : Int32) : (int32 i).NullFree := .int _

@[simp] theorem code_nullFree (c : UInt8) : (code c).NullFree := .int _

@[simp] theorem bytes_nullFree (b : Bytes) : (bytes b).NullFree := .string _

@[simp] theorem token_nullFree (s : DocumentStyle) (t : Token) : (token s t).NullFree := by
  cases s <;> cases t <;> simp [token, member, nullFree_object]

@[simp] theorem arguments_nullFree {vs : List Json} (h : ∀ v ∈ vs, v.NullFree) :
    MembersNullFree (arguments vs) := by
  cases vs with
  | nil => exact Json.membersNullFree_nil
  | cons v vs => exact Json.membersNullFree_cons.2 ⟨nullFree_array.2 h, Json.membersNullFree_nil⟩

mutual

theorem structuredTree_nullFree : ∀ t : SigTree, (structuredTree t).NullFree
  | .token t => nullFree_object.2 (by simp [kind, member])
  | .typeSig c as =>
      nullFree_object.2 (by simp [kind, member, arguments_nullFree (structuredTrees_nullFree as)])
  | .callSig c as =>
      nullFree_object.2 (by simp [kind, member, arguments_nullFree (structuredTrees_nullFree as)])
  | .int32 v => nullFree_object.2 (by simp [kind, member])
  | .methodSpec m i =>
      nullFree_object.2
        (by simp [kind, member, structuredTree_nullFree m, structuredTree_nullFree i])
  | .inline k o => nullFree_object.2 (by simp [kind, member, structuredTree_nullFree o])

theorem structuredTrees_nullFree : ∀ as : List SigTree, ∀ v ∈ structuredTrees as, v.NullFree
  | [] => fun _ hv => absurd hv List.not_mem_nil
  | a :: as => List.forall_mem_cons.2 ⟨structuredTree_nullFree a, structuredTrees_nullFree as⟩

end

/-- A tree that has no text is refused, or a null is written for it and its fault remembered, unless there was a fault before. -/
theorem writes_tree (t : SigTree) : Writes s [t] NullFree (tree s t) (latchedTree s t) := by
  cases s with
  | structured =>
      exact
        { written := fun _ => ⟨structuredTree t, rfl, rfl, structuredTree_nullFree t⟩
          refused := fun f hf => absurd hf (Option.some_ne_none f).symm
          kept := fun f => ⟨structuredTree t, rfl⟩ }
  | compact =>
      cases hf : t.format with
      | ok text =>
          have fault : refusal? .compact [t] = none := by
            rw [refusal?, List.findSome?_singleton, SigTree.fault?_eq_none.2 ⟨text, hf⟩]
          simp only [tree, latchedTree, hf]
          exact
            { written := fun _ => ⟨.string text, rfl, rfl, .string text⟩
              refused := fun f h => by simp [fault] at h
              kept := fun f => ⟨.string text, rfl⟩ }
      | error e =>
          have fault : refusal? .compact [t] = some e := by
            rw [refusal?, List.findSome?_singleton, SigTree.fault?_eq_some.2 hf]
          simp only [tree, latchedTree, hf]
          exact
            { written := fun h => by simp [fault] at h
              refused := fun f h => by
                obtain rfl : e = f := by simpa [fault] using h
                exact ⟨rfl, .null, rfl⟩
              kept := fun f => ⟨.null, rfl⟩ }

theorem writes_trees (k : Bytes) (o : Option (List SigTree)) :
    Writes s (o.getD []) MembersNullFree (optionalM k (listM (tree s)) o)
      (optionalM k (listM (latchedTree s)) o) := by
  have written := writes_optionalListM (s := s) k writes_tree o
  rwa [List.flatMap_singleton'] at written

/-! ### Parts of definitions -/

@[simp] theorem constant_nullFree (c : Constant) : (constant c).NullFree := by
  have slot := optional_nullFree (k := utf8 "Value") Json.NullFree.int c.value.slot?
  unfold constant
  dsimp only
  split <;> simp [member, nullFree_object, slot]

@[simp] theorem layout_nullFree (l : ClassLayout) : (layout l).NullFree := by
  simp [layout, member, nullFree_object]

@[simp] theorem implMap_nullFree (m : ImplMap) : (implMap m).NullFree := by
  simp [implMap, member, nullFree_object]

@[simp] theorem customAttribute_nullFree (a : CustomAttribute) : (customAttribute s a).NullFree := by
  simp [customAttribute, member, nullFree_object]

@[simp] theorem customAttributes_nullFree (as : Option (List CustomAttribute)) :
    MembersNullFree (customAttributes s as) :=
  optional_nullFree (list_nullFree customAttribute_nullFree) as

theorem optionalToken_nullFree (k : Bytes) (o : Option Token) :
    MembersNullFree (optional k (token s) o) :=
  optional_nullFree (token_nullFree s) o

theorem optionalTokens_nullFree (k : Bytes) (o : Option (List Token)) :
    MembersNullFree (optional k (list (token s)) o) :=
  optional_nullFree (list_nullFree (token_nullFree s)) o

@[simp] theorem parameter_nullFree (p : Parameter) : (parameter s p).NullFree := by
  have constant := optional_nullFree (k := utf8 "Constant") constant_nullFree p.constant
  simp [parameter, member, nullFree_object, constant]

theorem writes_genericParameter (p : GenericParameter) :
    Writes s p.trees NullFree (genericParameter (tree s) p) (genericParameter (latchedTree s) p) :=
  (writes_trees _ p.constraints).map fun constraints h => nullFree_object.2 (by simp [member, h])

theorem writes_genericParameters (ps : Option (List GenericParameter)) :
    Writes s ((ps.getD []).flatMap GenericParameter.trees) MembersNullFree
      (genericParameters (tree s) ps) (genericParameters (latchedTree s) ps) :=
  writes_optionalListM _ writes_genericParameter ps

theorem writes_property (p : Property) :
    Writes s p.trees NullFree (property (tree s) s p) (property (latchedTree s) s p) :=
  (writes_tree p.signature).map fun signature h =>
    nullFree_object.2 (by simp [member, h, optionalToken_nullFree])

theorem writes_event (e : Event) :
    Writes s e.trees NullFree (event (tree s) s e) (event (latchedTree s) s e) :=
  (writes_tree e.type).map fun type h =>
    nullFree_object.2 (by simp [member, h, optionalToken_nullFree])

/-! ### Method bodies -/

/-- Only an operand that is a tree writes one; the others are written in every style. -/
theorem writes_operand (o : Operand) :
    Writes s o.trees NullFree (operand (tree s) o) (operand (latchedTree s) o) := by
  cases o with
  | tree t => exact (writes_tree t).map fun type h => nullFree_object.2 (by simp [member, h])
  | targets ns =>
      have targets := list_nullFree int32_nullFree ns
      exact .pure (nullFree_object.2 (by simp [member, targets]))
  | single b => exact .pure (nullFree_object.2 (optional_nullFree Json.NullFree.int _))
  | double b => exact .pure (nullFree_object.2 (optional_nullFree Json.NullFree.int _))
  | int32 n => exact .pure (nullFree_object.2 (by simp [member]))
  | int64 n => exact .pure (nullFree_object.2 (by simp [member]))
  | string t => exact .pure (nullFree_object.2 (by simp [member]))

theorem writes_instruction (i : Instruction) :
    Writes s i.trees NullFree (instruction (tree s) i) (instruction (latchedTree s) i) :=
  (writes_optionalM _ writes_operand i.operand).map fun operand h =>
    nullFree_object.2 (by simp [member, h])

theorem writes_handler (h : ExceptionHandler) :
    Writes s h.catchType.toList NullFree (handler (tree s) h) (handler (latchedTree s) h) := by
  have catchType := writes_optionalM (s := s) "CatchType" writes_tree h.catchType
  rw [List.flatMap_singleton'] at catchType
  exact catchType.map fun catchType h => nullFree_object.2 (by simp [member, h])

theorem writes_body (b : MethodBody) :
    Writes s b.trees NullFree (body (tree s) b) (body (latchedTree s) b) := by
  have locals := writes_listM (s := s) writes_tree b.locals
  rw [List.flatMap_singleton'] at locals
  rw [MethodBody.trees, List.append_assoc]
  refine (writes_listM writes_instruction b.instructions).bind fun instructions => ?_
  refine (writes_listM writes_handler b.handlers).bind fun handlers => ?_
  exact locals.map fun locals hl hh hi => nullFree_object.2 (by simp [member, hi, hh, hl])

/-! ### Entities -/

@[simp] theorem typeIdentity_nullFree (t : TypeIdentity) : MembersNullFree (typeIdentity t) := by
  have assembly := optional_nullFree (k := utf8 "Assembly") Json.NullFree.string t.assembly
  have enclosing := optional_nullFree (k := utf8 "EnclosingNames") (list_nullFree Json.NullFree.string)
    t.enclosing
  simp [typeIdentity, member, assembly, enclosing]

theorem writes_memberIdentity (m : MemberIdentity) :
    Writes s m.trees MembersNullFree (memberIdentity (tree s) m)
      (memberIdentity (latchedTree s) m) := by
  refine (writes_tree m.type).bind fun type => ?_
  exact (writes_tree m.signature).map fun signature hs ht => by simp [member, ht, hs]

theorem writes_typeData (d : TypeData) :
    Writes s d.trees MembersNullFree (typeData (tree s) s d) (typeData (latchedTree s) s d) := by
  have baseType := writes_optionalM (s := s) "BaseType" writes_tree d.baseType
  rw [List.flatMap_singleton'] at baseType
  have layout := optional_nullFree (k := utf8 "ClassLayout") layout_nullFree d.layout
  -- members that stand for no tree are written between the others, but cannot fail
  simp only [TypeData.trees, List.append_assoc]
  refine baseType.bind fun baseType => ?_
  refine (writes_trees _ d.interfaces).bind fun interfaces => ?_
  refine (writes_genericParameters d.genericParameters).bind fun generics => ?_
  refine (writes_optionalListM _ writes_property d.properties).bind fun properties => ?_
  refine (writes_optionalListM _ writes_event d.events).map fun events he hp hg hi hb => ?_
  simp [member, hb, hi, layout, hg, optionalTokens_nullFree, hp, he]

@[simp] theorem fieldData_nullFree (d : FieldData) : MembersNullFree (fieldData s d) := by
  have initialValue := optional_nullFree (k := utf8 "InitialValue") bytes_nullFree d.initialValue
  have constant := optional_nullFree (k := utf8 "Constant") constant_nullFree d.constant
  simp [fieldData, member, initialValue, constant]

theorem writes_methodData (d : MethodData) :
    Writes s d.trees MembersNullFree (methodData (tree s) s d) (methodData (latchedTree s) s d) := by
  have parameters := list_nullFree (parameter_nullFree (s := s)) d.parameters
  have implMap := optional_nullFree (k := utf8 "ImplMap") implMap_nullFree d.implMap
  refine (writes_optionalM _ writes_body d.body).bind fun body => ?_
  refine (writes_genericParameters d.genericParameters).map fun generics hg hb => ?_
  simp [member, parameters, hb, optionalTokens_nullFree, implMap, hg]

theorem writes_typeReference (t : TypeIdentity) :
    Writes s t.trees NullFree (typeReference t) (typeReference t) :=
  .pure (nullFree_object.2 (typeIdentity_nullFree t))

theorem writes_memberReference (m : MemberIdentity) :
    Writes s m.trees NullFree (memberReference (tree s) m) (memberReference (latchedTree s) m) :=
  (writes_memberIdentity m).map fun _ => nullFree_object.2

theorem writes_typeDefinition (t : TypeIdentity × TypeData) :
    Writes s (t.1.trees ++ t.2.trees) NullFree (typeDefinition (tree s) s t)
      (typeDefinition (latchedTree s) s t) :=
  (writes_typeData t.2).map fun data h => nullFree_object.2 (by simp [h])

theorem writes_fieldDefinition (f : MemberIdentity × FieldData) :
    Writes s (f.1.trees ++ f.2.trees) NullFree (fieldDefinition (tree s) s f)
      (fieldDefinition (latchedTree s) s f) := by
  rw [FieldData.trees, List.append_nil]
  exact (writes_memberIdentity f.1).map fun id h => nullFree_object.2 (by simp [h])

theorem writes_methodDefinition (m : MemberIdentity × MethodData) :
    Writes s (m.1.trees ++ m.2.trees) NullFree (methodDefinition (tree s) s m)
      (methodDefinition (latchedTree s) s m) := by
  refine (writes_memberIdentity m.1).bind fun id => ?_
  exact (writes_methodData m.2).map fun data hd hi => nullFree_object.2 (by simp [hi, hd])

/-! ### Documents -/

theorem writes_keyed {trees : α → List SigTree} {f : α → Except FormatFault Json}
    {g : α → Latched Json} (h : ∀ a, Writes s (trees a) NullFree (f a) (g a)) (m : Keyed α) :
    Writes s (m.entries.flatMap fun e => trees e.2) NullFree (keyed f m) (keyed g m) := by
  refine (writes_mapM ?entry m.entries).map fun _ => nullFree_object.2
  case entry =>
    intro e
    exact (h e.2).map fun v hv => hv

/-- The references of a section are written before its definitions. -/
theorem writes_part {ι δ : Type} {identity : ι → List SigTree} {data : δ → List SigTree}
    {reference : ι → Except FormatFault Json} {definition : ι × δ → Except FormatFault Json}
    {reference' : ι → Latched Json} {definition' : ι × δ → Latched Json}
    (hr : ∀ i, Writes s (identity i) NullFree (reference i) (reference' i))
    (hd : ∀ e, Writes s (identity e.1 ++ data e.2) NullFree (definition e) (definition' e))
    (p : PartitionSection ι δ) :
    Writes s (p.trees identity data) NullFree (part reference definition p)
      (part reference' definition' p) := by
  have turns := list_nullFree int32_nullFree p.turns
  refine (writes_keyed hr p.references).bind fun references => ?_
  refine (writes_keyed hd p.definitions).map fun definitions hd hr => ?_
  exact nullFree_object.2 (by simp [member, hr, hd, turns])

/-- A document is written with the trees of its partition. -/
theorem writes_document (p : Partition) :
    Writes s p.trees NullFree (document (tree s) s p) (document (latchedTree s) s p) := by
  rw [Partition.trees, List.append_assoc]
  refine (writes_part writes_typeReference writes_typeDefinition p.types).bind fun types => ?_
  refine (writes_part writes_memberReference writes_fieldDefinition p.fields).bind fun fields => ?_
  refine (writes_part writes_memberReference writes_methodDefinition p.methods).map
    fun methods hm hf ht => ?_
  exact nullFree_object.2 (by simp [member, ht, hf, hm])

end Encode

namespace Partition

open Encode (writes_document refusal?_compact_eq_none refusal?_compact_eq_some)

/-- A partition whose writing goes on after a fault ends as it would if the fault gave it up. -/
theorem result_toJson (s : DocumentStyle) (p : Partition) :
    (p.toJson s).result = Encode.document (Encode.tree s) s p :=
  (writes_document p).result_eq

/-- Every partition has a structured document.  It has a compact one if and only if each of its trees has a text; what the writing fails with otherwise is the fault of the first tree without one, in the order of the document.  A document that is written holds no null, in place of a tree or anywhere else. -/
theorem document_or_first_fault (p : Partition) :
    (∃ v, (p.toJson .structured).result = .ok v) ∧
      ((∃ v, (p.toJson .compact).result = .ok v) ↔ ∀ t ∈ p.trees, t.Formattable) ∧
      (∀ f, (p.toJson .compact).result = .error f ↔
        ∃ ts t us, p.trees = ts ++ t :: us ∧ (∀ u ∈ ts, u.Formattable) ∧ t.format = .error f) ∧
      ∀ s v, (p.toJson s).result = .ok v → v.NullFree := by
  refine ⟨?structured, ?compact, ?fault, ?nullFree⟩
  all_goals simp only [result_toJson]
  case structured => exact (writes_document p).exists_eq_ok.2 rfl
  case compact => exact (writes_document p).exists_eq_ok.trans refusal?_compact_eq_none
  case fault =>
    intro f
    exact (writes_document p).eq_error.trans refusal?_compact_eq_some
  case nullFree =>
    intro s v h
    exact (writes_document p).of_ok h

/-- A type whose base type has a text; what it implements is a token without one and then a node without one. -/
def inexpressible : Partition :=
  let data : TypeData :=
    { baseType := some (.token (.index 0))
      interfaces := some [.token (.index (-1)), .typeSig 0x99 []] }
  ⟨⟨0⟩, ⟨.empty, ⟨[("0", (⟨"Box", "Sample", none, none⟩, data))], by decide⟩, []⟩, .empty, .empty⟩

theorem document_or_first_fault_inexpressible :
    (inexpressible.toJson .compact).result = .error (.negativeIndex (-1)) ∧
      ∃ v, (inexpressible.toJson .structured).result = .ok v ∧ v.NullFree := by
  obtain ⟨⟨v, hv⟩, -, fault, nullFree⟩ := document_or_first_fault inexpressible
  refine ⟨(fault _).2 ⟨[.token (.index 0)], .token (.index (-1)), [.typeSig 0x99 []], rfl, ?_, rfl⟩,
    v, hv, nullFree _ v hv⟩
  intro u hu
  obtain rfl := List.mem_singleton.1 hu
  exact ⟨_, rfl⟩

end Partition

end CilCatalog
