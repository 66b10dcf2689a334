import CilCatalog.Document.Text
import CilCatalog.Proofs.Document.Accepted
import CilCatalog.Proofs.Json.Reads
import CilCatalog.Proofs.Partition.Clashes

/-!
# How documents are refused

Reading a document stops for bad data and for nothing else (`document_refuses`): no check inside the reader is ever the one to fail, and what a text inside the document is refused for counts as bad data too.  What is left are the tokens of a partition that clash, which the maps of a catalog refuse as an argument (`Catalog.ofText_error`).

There is one law (`Refuses`) for each reader, and as each reads its members one after the other, the laws of the combinators compose them.
-/

namespace CilCatalog

@[simp] theorem Warned.result_map {ε α β : Type} (f : α → β) (x : Warned ε α) :
    (f <$> x).result = f <$> x.result := by
  obtain ⟨ws, r⟩ := x
  cases r <;> rfl

namespace Decode

section Combinators

variable {α β : Type} {x : Read α} {ms : Members} {k : Bytes}

theorem refuses_fail {f : DocumentFault} (h : Fault.kind f = .invalidData) :
    Refuses (fail f : Read α) :=
  ⟨f, rfl, h⟩

@[simp] theorem refuses_mismatch (what : Bytes) (expected : String) (v : Json) :
    Refuses (mismatch what expected v : Read α) :=
  refuses_fail rfl

@[simp] theorem refuses_optional {read : Json → Read α} (h : ∀ v, Refuses (read v)) :
    Refuses (optional ms k read) := by
  unfold optional
  split
  · next v _ => simp [h v]
  · simp

@[simp] theorem refuses_elements (what : Bytes) (v : Json) : Refuses (elements what v) := by
  cases v <;> simp [elements]

@[simp] theorem refuses_list {read : Json → Read α} (what : Bytes) (h : ∀ v, Refuses (read v))
    (v : Json) : Refuses (list what read v) :=
  (refuses_bind (refuses_elements what v)).2 fun vs _ => refuses_mapM h vs

@[simp] theorem refuses_optionalList {read : Json → Read α} (h : ∀ v, Refuses (read v)) :
    Refuses (optionalList ms k read) :=
  refuses_optional (refuses_list k h)

@[simp] theorem refuses_required : Refuses (required ms k) := by
  unfold required
  split
  · simp
  · exact refuses_fail rfl

@[simp] theorem refuses_requiredList {read : Json → Read α} (h : ∀ v, Refuses (read v)) :
    Refuses (requiredList ms k read) :=
  (refuses_bind refuses_required).2 fun v _ => refuses_list k h v

end Combinators

/-! ### Values of a type -/

section Values

variable (what : Bytes) (v : Json) {ms : Members} {k : Bytes}

@[simp] theorem refuses_object : Refuses (object what v) := by
  cases v <;> simp [object]

@[simp] theorem refuses_string : Refuses (string what v) := by
  cases v <;> simp [string]

@[simp] theorem refuses_bool : Refuses (bool what v) := by
  cases v <;> simp [bool]

@[simp] theorem refuses_int64 : Refuses (int64 what v) := by
  cases v <;> simp [int64]

@[simp] theorem refuses_integer (low high : Int) : Refuses (integer what low high v) := by
  refine (refuses_bind (refuses_int64 what v)).2 fun i _ => ?_
  split
  · exact refuses_fail rfl
  · simp

@[simp] theorem refuses_int32 : Refuses (int32 what v) := by
  simp [int32]

@[simp] theorem refuses_bytes : Refuses (bytes what v) := by
  refine (refuses_bind (refuses_string what v)).2 fun s _ => ?_
  split
  · simp
  · exact refuses_fail rfl

@[simp] theorem refuses_requiredString : Refuses (requiredString ms k) := by
  simp [requiredString]

@[simp] theorem refuses_requiredInt32 : Refuses (requiredInt32 ms k) := by
  simp [requiredInt32]

end Values

/-! ### Tokens and trees -/

@[simp] theorem refuses_tokenName (n : Bytes) : Refuses (tokenName n) := by
  unfold tokenName
  split
  · simp
  · exact refuses_fail rfl

@[simp] theorem refuses_tokenIndex (negative : Bool) (v : Json) : Refuses (tokenIndex negative v) := by
  simp [tokenIndex]

@[simp] theorem refuses_anyToken (negative : Bool) (v : Json) : Refuses (anyToken negative v) := by
  unfold anyToken
  split
  · simp
  · simp
  · split <;> simp
  · simp

@[simp] theorem refuses_token (v : Json) : Refuses (token v) := refuses_anyToken false v

@[simp] theorem refuses_checked (t : SigTree) : Refuses (checked t) := by
  unfold checked
  split
  · simp
  · exact refuses_fail rfl

@[simp] theorem refuses_code (ms : Members) : Refuses (code ms) := by
  simp [code]

/-- The index of a token that was read is none that a tree refuses. -/
theorem refuses_ofToken {t : Token} (h : t.Durable) : Refuses (SigTree.ofToken t : Read SigTree) := by
  cases t with
  | named n => exact refuses_ok _
  | index i =>
      have hi : ¬ i < 0 := by
        rw [Int32.lt_iff_toInt_lt, Int32.toInt_zero]
        exact Int.not_lt.2 h
      rw [SigTree.ofToken, if_neg hi]
      exact refuses_ok _

@[simp] theorem refuses_inline (k : OperandKind) (as : List SigTree) : Refuses (node.inline k as) := by
  unfold node.inline
  split
  · simp
  · exact refuses_fail rfl

@[simp] theorem refuses_node (ms : Members) (as : List SigTree) (k : NodeKind) :
    Refuses (node ms as k) := by
  cases k with
  | token =>
      rw [node, refuses_bind refuses_required]
      intro v _
      rw [refuses_bind (refuses_token v)]
      exact fun t ht => refuses_ofToken (token_yields v t ht)
  | int32 =>
      rw [node, refuses_bind refuses_required]
      intro v _
      rw [refuses_bind (refuses_anyToken true v)]
      intro t _
      cases t with
      | index i => exact refuses_ok _
      | named n => exact refuses_fail rfl
  | typeSig => simp [node]
  | callSig => simp [node]
  | methodSpec =>
      rw [node.eq_def]
      dsimp only
      split
      · simp
      · exact refuses_fail rfl
  | inlineType => exact refuses_inline .type as
  | inlineField => exact refuses_inline .field as
  | inlineMethod => exact refuses_inline .method as

/-- Every number that the kind of a node may have is one. -/
theorem isSome_ofCode? : ∀ n ≤ 7, (NodeKind.ofCode? n).isSome := by
  decide

@[simp] theorem refuses_kind (ms : Members) : Refuses (kind ms) := by
  rw [kind, refuses_bind refuses_required]
  intro v _
  rw [refuses_bind (refuses_integer ..)]
  intro i hi
  obtain ⟨lo, hi⟩ := bounds_of_integer hi
  obtain ⟨k, hk⟩ := Option.isSome_iff_exists.1 (isSome_ofCode? i.toInt.toNat (by omega))
  rw [hk]
  exact refuses_ok k

mutual

/-- A tree is refused as bad data, whether it is a text or an object. -/
theorem refuses_tree : ∀ v : Json, Refuses (tree v)
  | .string s => by
      rw [tree]
      split
      · exact refuses_fail rfl
      next hs =>
        cases hp : SigTree.parse s with
        | ok t => exact refuses_ok t
        | error d =>
            -- only the empty text is refused for another reason, and it does not come here
            obtain ⟨f, rfl, hf⟩ := SigTree.parse_invalid (mt List.isEmpty_iff.2 hs) hp
            exact ⟨.text f, rfl, hf⟩
  | .object ms => by
      rw [tree, refuses_bind (refuses_kind ms)]
      intro k _
      rw [refuses_bind (refuses_arguments ms)]
      exact fun as _ => refuses_node ms as k
  | .null => refuses_mismatch ..
  | .bool _ => refuses_mismatch ..
  | .int _ => refuses_mismatch ..
  | .array _ => refuses_mismatch ..

theorem refuses_arguments : ∀ ms : Members, Refuses (arguments ms)
  | [] => refuses_ok []
  | (k, v) :: ms => by
      rw [arguments]
      split
      · exact refuses_argumentList v
      · exact refuses_arguments ms

theorem refuses_argumentList : ∀ v : Json, Refuses (argumentList v)
  | .array es => refuses_trees es
  | .null => refuses_ok []
  | .string _ => refuses_mismatch ..
  | .object _ => refuses_mismatch ..
  | .bool _ => refuses_mismatch ..
  | .int _ => refuses_mismatch ..

theorem refuses_trees : ∀ es : List Json, Refuses (trees es)
  | [] => refuses_ok []
  | e :: es => by
      rw [trees, refuses_bind (refuses_tree e)]
      intro t _
      rw [refuses_bind (refuses_trees es)]
      exact fun ts _ => refuses_ok (t :: ts)

end

attribute [simp] refuses_tree

@[simp] theorem refuses_requiredTree (ms : Members) (k : Bytes) : Refuses (requiredTree ms k) := by
  simp [requiredTree]

/-! ### Constants and literals -/

/-- A slot is refused only for the type it is declared with. -/
@[simp] theorem refuses_slot (slot : Int64) (type : UInt8) :
    Refuses ((ConstantValue.ofSlot slot type).result.mapError fun f =>
      (.fault (.slot f) : Failure DocumentFault)) := by
  cases (ConstantValue.ofSlot slot type).result with
  | ok value => exact refuses_ok value
  | error f => exact ⟨.slot f, rfl, rfl⟩

@[simp] theorem refuses_constant (v : Json) : Refuses (constant v).result := by
  simp only [constant, Warned.result_bind, Warned.result_liftM]
  rw [refuses_bind (refuses_object ..)]
  intro ms _
  rw [refuses_bind refuses_requiredInt32]
  intro type _
  split
  · exact refuses_fail rfl
  · split <;> simp

/-- A number that a slot is read as with the type of a literal is one. -/
theorem refuses_literal {e : ElementType} (he : e = .r4 ∨ e = .r8) (tag : Bytes) (v : Json) :
    Refuses (literal tag v e).result := by
  simp only [literal, Warned.result_bind, Warned.result_liftM, Warned.result_mapError]
  rw [refuses_bind (refuses_int64 tag v)]
  intro slot _
  obtain rfl | rfl := he
  · exact refuses_ok _
  · exact refuses_ok _

@[simp] theorem refuses_taggedOperand (tag : Bytes) (v : Json) :
    Refuses (taggedOperand tag v).result := by
  unfold taggedOperand
  split
  · simp
  split
  · simp
  split
  · exact refuses_literal (.inl rfl) tag v
  split
  · exact refuses_literal (.inr rfl) tag v
  split
  · simp
  split
  · simp
  split
  · simp
  · exact refuses_fail (f := .operandTag tag) rfl

@[simp] theorem refuses_operand (v : Json) : Refuses (operand v).result := by
  simp only [operand, Warned.result_bind, Warned.result_liftM]
  rw [refuses_bind (refuses_object _ v)]
  intro ms _
  split
  · simp
  · exact refuses_fail (f := .operandMembers) rfl

/-! ### Parts of definitions -/

section Parts

variable (v : Json) (ms : Members)

@[simp] theorem refuses_customAttribute : Refuses (customAttribute v) := by
  simp [customAttribute]

@[simp] theorem refuses_customAttributes : Refuses (customAttributes ms) := by
  simp [customAttributes]

@[simp] theorem refuses_genericParameter : Refuses (genericParameter v) := by
  simp [genericParameter]

@[simp] theorem refuses_genericParameters : Refuses (genericParameters ms) := by
  simp [genericParameters]

@[simp] theorem refuses_layout : Refuses (layout v) := by
  simp [layout]

@[simp] theorem refuses_property : Refuses (property v) := by
  simp [property]

@[simp] theorem refuses_event : Refuses (event v) := by
  simp [event]

@[simp] theorem refuses_parameter : Refuses (parameter v).result := by
  simp [parameter]

@[simp] theorem refuses_instruction : Refuses (instruction v).result := by
  simp [instruction]

@[simp] theorem refuses_handler : Refuses (handler v) := by
  simp [handler]

@[simp] theorem refuses_body : Refuses (body v).result := by
  simp [body]

@[simp] theorem refuses_implMap : Refuses (implMap v) := by
  simp [implMap]

/-! ### Entities -/

@[simp] theorem refuses_typeIdentity : Refuses (typeIdentity ms) := by
  simp [typeIdentity]

@[simp] theorem refuses_memberIdentity : Refuses (memberIdentity ms) := by
  simp [memberIdentity]

@[simp] theorem refuses_typeData : Refuses (typeData ms) := by
  simp [typeData]

@[simp] theorem refuses_fieldData : Refuses (fieldData ms).result := by
  simp [fieldData]

@[simp] theorem refuses_methodData : Refuses (methodData ms).result := by
  simp [methodData]

@[simp] theorem refuses_typeReference : Refuses (typeReference v).result := by
  simp [typeReference]

@[simp] theorem refuses_memberReference (what : Bytes) : Refuses (memberReference what v).result := by
  simp [memberReference]

@[simp] theorem refuses_typeDefinition : Refuses (typeDefinition v).result := by
  simp [typeDefinition]

@[simp] theorem refuses_fieldDefinition : Refuses (fieldDefinition v).result := by
  simp [fieldDefinition]

@[simp] theorem refuses_methodDefinition : Refuses (methodDefinition v).result := by
  simp [methodDefinition]

end Parts

/-! ### Documents -/

section Documents

variable {α : Type} {read : Json → Noted α} {repeated : Bytes → DocumentFault}

theorem refuses_addMembers (hf : ∀ v, Refuses (read v).result)
    (hr : ∀ k, Fault.kind (repeated k) = .invalidData) (ms : Members) (m : Keyed α) :
    Refuses (addMembers repeated read ms m).result := by
  induction ms generalizing m with
  | nil => exact refuses_ok m
  | cons n ms ih =>
      rw [addMembers, Warned.result_bind, refuses_bind (hf n.2)]
      intro a _
      split
      · exact ih _
      · exact refuses_fail (hr n.1)

theorem refuses_keyed (hf : ∀ v, Refuses (read v).result)
    (hr : ∀ k, Fault.kind (repeated k) = .invalidData) (ms : Members) (k : Bytes) :
    Refuses (keyed ms k repeated read).result := by
  unfold keyed
  split
  · exact refuses_ok _
  next v _ =>
    rw [Warned.result_bind, Warned.result_liftM, refuses_bind (refuses_object k v)]
    exact fun ns _ => refuses_addMembers hf hr ns _

theorem refuses_part {ι δ : Type} {reference : Json → Noted ι} {definition : Json → Noted (ι × δ)}
    (hr : ∀ v, Refuses (reference v).result) (hd : ∀ v, Refuses (definition v).result)
    (root : Members) (name : Bytes) : Refuses (part root name reference definition).result := by
  have references : ∀ ms k, Refuses (keyed ms k (.duplicateReference name) reference).result :=
    refuses_keyed hr fun _ => rfl
  have definitions : ∀ ms k, Refuses (keyed ms k (.duplicateDefinition name) definition).result :=
    refuses_keyed hd fun _ => rfl
  simp [part, references, definitions]

/-- Whatever is wrong with a document, it is refused as bad data. -/
theorem document_refuses (v : Json) : Refuses (document v).result := by
  have types := refuses_part refuses_typeReference refuses_typeDefinition
  have fields := refuses_part (fun v => refuses_memberReference v "Field") refuses_fieldDefinition
  have methods := refuses_part (fun v => refuses_memberReference v "Method") refuses_methodDefinition
  simp [document, types, fields, methods]

end Documents

end Decode

/-! ### Texts -/

namespace Catalog

/-- A text is refused as malformed, or for a token of the partition it describes that clashes with another: that alone counts as an argument out of place. -/
theorem ofText_error {s : Bytes} {e : Failure TextFault} (h : (ofText s).result = .error e) :
    ∃ f, e = .fault f ∧ (Fault.kind f = .invalidData ∨ Fault.kind f = .invalidArgument ∧
      ∃ v p g, Json.parse s = .ok v ∧ (Partition.ofJson v).result = .ok p ∧
        f = .partition (.store g) ∧ p.Clashes g) := by
  unfold ofText at h
  simp only [Warned.result_bind, Warned.result_ofExcept, Warned.result_mapError] at h
  cases hv : Json.parse s with
  | error d =>
      obtain ⟨f, rfl, hf⟩ := (Json.parse_reads s).fault hv
      rw [hv] at h
      cases h
      exact ⟨_, rfl, .inl hf⟩
  | ok v =>
  rw [hv, Failure.widen, ok_bind] at h
  cases hp : (Partition.ofJson v).result with
  | error d =>
      obtain ⟨f, rfl, hf⟩ := (Decode.document_refuses v).fault hp
      rw [hp] at h
      cases h
      exact ⟨_, rfl, .inl hf⟩
  | ok p =>
  rw [hp, mapError_ok, ok_bind] at h
  cases hc : p.toCatalog with
  | ok c => rw [hc] at h; cases h
  | error d =>
      rw [hc] at h
      cases h
      obtain hf | ⟨g, rfl, hg⟩ := Partition.toCatalog_error hc
      · exact ⟨_, rfl, .inl hf⟩
      · exact ⟨_, rfl, .inr ⟨rfl, v, p, g, rfl, hp, rfl, hg⟩⟩

/-- A document whose types have the name `A` on both sides. -/
def sharedName : Bytes :=
  "\x7b\"Options\":1,\"Types\":\x7b\"References\":\x7b\"A\":\x7b\"Name\":\"A\",\"Namespace\":\"\"\x7d\x7d,\"Definitions\":\x7b\"A\":\x7b\"Name\":\"A\",\"Namespace\":\"\",\"Attributes\":0\x7d\x7d,\"Orders\":[1]\x7d,\"Fields\":\x7b\x7d,\"Methods\":\x7b\x7d\x7d"

set_option maxRecDepth 4000 in
theorem sharedName_taken :
    ∃ n, (ofText sharedName).result = .error (.fault (.partition (.store (.taken (.named n))))) :=
  ⟨⟨"A", by decide, by decide⟩, rfl⟩

/-- The empty text is malformed; the name on both sides is what the other text is refused for. -/
theorem ofText_error_sharedName :
    (∃ f, (ofText []).result = .error (.fault f) ∧ Fault.kind f = .invalidData) ∧
      ∃ v p g, Json.parse sharedName = .ok v ∧ (Partition.ofJson v).result = .ok p ∧ p.Clashes g := by
  constructor
  · obtain ⟨f, hf, hk | ⟨-, v, -, -, hv, -⟩⟩ := ofText_error (s := []) rfl
    · exact ⟨f, congrArg Except.error hf, hk⟩
    · exact nomatch hv
  · obtain ⟨n, hn⟩ := sharedName_taken
    obtain ⟨f, hf, hk | ⟨-, v, p, g, hv, hp, -, hg⟩⟩ := ofText_error hn
    · cases hf
      exact nomatch hk
    · exact ⟨v, p, g, hv, hp, hg⟩

/-- Not every text that is refused counts as bad data. -/
theorem not_ofText_error_malformed : ¬ ∀ s e, (ofText s).result = .error e →
    ∃ f, e = .fault f ∧ Fault.kind f = .invalidData := by
  intro h
  obtain ⟨n, hn⟩ := sharedName_taken
  obtain ⟨f, hf, hk⟩ := h sharedName _ hn
  cases hf
  exact nomatch hk

end Catalog

end CilCatalog
