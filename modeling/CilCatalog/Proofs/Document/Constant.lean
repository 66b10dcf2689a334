import CilCatalog.Proofs.Document.Mixed

/-!
# Constants and literals in documents

A primitive value comes back from its slot, read as the element type it has (`ofSlot_slot?`); the one exception is the signalling NaN.  So constants of exactly their declared type come back from a document, and so do the literals of instructions.
-/

namespace CilCatalog

/-! ### Slots -/

/-- A value that is no signalling NaN comes back from its slot. -/
theorem ofSlot_slot? {v : ConstantValue} {e : ElementType} {slot : Int64}
    (he : v.elementType? = some e) (hs : v.slot? = some slot)
    (hq : ∀ b, v = .r4 b → ¬ FloatBits.IsSignalling b) :
    (ConstantValue.ofSlot slot e.code).result = .ok v := by
  rw [ConstantValue.ofSlot, ElementType.ofCode?_code]
  cases v with
  | null => cases he
  | string s => cases hs
  | bool b => cases he; cases hs; cases b <;> rfl
  | r4 b =>
      cases he
      cases hs
      change Except.ok (ConstantValue.r4 (FloatBits.narrow (FloatBits.widen b).toInt64.toUInt64)) = _
      rw [UInt64.toUInt64_toInt64, FloatBits.narrow_widen (hq b rfl)]
  | _ =>
      cases he
      cases hs
      simp

/-! ### Constants -/

/-- The type of a constant is read as a number and taken for a code. -/
theorem constant_read {ms : List (Bytes × Json)} {type : UInt8}
    (h : Json.find? ms "Type" = some (Encode.code type)) :
    (Decode.constant (.object ms)).result =
      match Json.present? ms "String", Json.present? ms "Value" with
      | some s, _         => do return ⟨type, .string (← Decode.string "String" s)⟩
      | none,   some slot => do
          let bits ← Decode.int64 "Value" slot
          let value ← ((ConstantValue.ofSlot bits type).mapError fun f =>
            (.fault (.slot f) : Failure DocumentFault)).result
          return ⟨type, value⟩
      | none,   none      => return ⟨type, .null⟩ := by
  have ht := type.toNat_lt
  have hi := toInt_code type
  have number : Decode.requiredInt32 ms "Type" = .ok (Int64.ofNat type.toNat).toInt32 := by
    rw [Decode.requiredInt32, required_of_find? h (code_solid type).1]
    change Decode.int32 "Type" (Encode.code type) = _
    rw [Decode.int32, Encode.code, integer_of_bounds (by omega) (by omega)]
    rfl
  have toInt : (Int64.ofNat type.toNat).toInt32.toInt = type.toNat := by
    rw [Int64.toInt_toInt32, hi]
    exact Int.bmod_eq_of_le (by omega) (by omega)
  have bounds : ¬ ((Int64.ofNat type.toNat).toInt32 < 0 ∨ 255 < (Int64.ofNat type.toNat).toInt32) := by
    rw [Int32.lt_iff_toInt_lt, Int32.lt_iff_toInt_lt, toInt]
    change ¬ ((type.toNat : Int) < 0 ∨ (255 : Int) < type.toNat)
    omega
  have code : (Int64.ofNat type.toNat).toInt32.toUInt32.toUInt8 = type := by simp
  unfold Decode.constant
  simp only [Warned.result_bind, Warned.result_liftM, Decode.object, ok_bind, number, bounds, if_false,
    code]
  cases Json.present? ms "String" with
  | some s => simp only [Warned.result_bind, Warned.result_liftM]; rfl
  | none =>
      cases Json.present? ms "Value" with
      | none => rfl
      | some slot => simp only [Warned.result_bind, Warned.result_liftM]; rfl

theorem constant_null (type : UInt8) : RoundTrips (.ok (Encode.constant ⟨type, .null⟩))
    (fun v => (Decode.constant v).result) ⟨type, .null⟩ := by
  refine .pure ((Json.Arranged.int .nil).solid (by decide)) ?_
  change (Decode.constant (.object [Encode.member "Type" (Encode.code type)])).result = _
  rw [@constant_read _ type (by simp [Encode.member])]
  simp [Json.present?, Encode.member, utf8_inj]
  rfl

theorem constant_string (type : UInt8) (b : Bytes) :
    RoundTrips (.ok (Encode.constant ⟨type, .string b⟩)) (fun v => (Decode.constant v).result)
      ⟨type, .string b⟩ := by
  refine .pure ((Json.Arranged.int (.string .nil)).solid (by decide)) ?_
  change (Decode.constant (.object [Encode.member "Type" (Encode.code type),
    Encode.member "String" (.string b)])).result = _
  rw [@constant_read _ type (by simp [Encode.member])]
  have present : Json.present? [Encode.member "Type" (Encode.code type), Encode.member "String" (.string b)]
      "String" = some (.string b) := by simp [Json.present?, Encode.member, utf8_inj]
  rw [present]
  rfl

theorem constant_slot {type : UInt8} {v : ConstantValue} {slot : Int64} (hs : v.slot? = some slot)
    (hv : (ConstantValue.ofSlot slot type).result = .ok v) :
    RoundTrips (.ok (Encode.constant ⟨type, v⟩)) (fun v => (Decode.constant v).result) ⟨type, v⟩ := by
  have form : Encode.constant ⟨type, v⟩ =
      .object [Encode.member "Type" (Encode.code type), Encode.member "Value" (.int slot)] := by
    cases v with
    | null => exact nomatch hs
    | string s => exact nomatch hs
    | _ => cases hs; rfl
  rw [form]
  refine .pure ((Json.Arranged.int (.int .nil)).solid (by decide)) ?_
  change (Decode.constant (.object [Encode.member "Type" (Encode.code type),
    Encode.member "Value" (.int slot)])).result = _
  rw [@constant_read _ type (by simp [Encode.member])]
  have absent : Json.present? [Encode.member "Type" (Encode.code type), Encode.member "Value" (.int slot)]
      "String" = none := by simp [Json.present?, Encode.member, utf8_inj]
  have present : Json.present? [Encode.member "Type" (Encode.code type), Encode.member "Value" (.int slot)]
      "Value" = some (.int slot) := by simp [Json.present?, Encode.member, utf8_inj]
  rw [absent, present]
  simp only [Decode.int64, ok_bind, Warned.result_mapError, hv, mapError_ok]
  rfl

/-- A durable constant is read back. -/
theorem constant_roundTrips {c : Constant} (h : c.Durable) :
    RoundTrips (.ok (Encode.constant c)) (fun v => (Decode.constant v).result) c := by
  obtain ⟨type, value⟩ := c
  rcases h.type with hv | ⟨s, hv⟩ | ⟨e, he, hc⟩
  · cases hv
    exact constant_null type
  · cases hv
    exact constant_string type s
  · cases hs : value.slot? with
    | none =>
        -- a string has an element type and no slot
        cases value with
        | string s => exact constant_string type s
        | null => exact nomatch he
        | _ => exact nomatch hs
    | some slot =>
        have hc : type = e.code := hc
        rw [hc]
        exact constant_slot hs (ofSlot_slot? he hs h.quiet)

/-! ### Operands -/

theorem literal_read {tag : Bytes} {v : ConstantValue} {e : ElementType} {slot : Int64}
    {o : Operand} (he : v.elementType? = some e) (hs : v.slot? = some slot)
    (hq : ∀ b, v = .r4 b → ¬ FloatBits.IsSignalling b)
    (ho : (∃ b, v = .r4 b ∧ o = .single b) ∨ ∃ b, v = .r8 b ∧ o = .double b) :
    (Decode.literal tag (.int slot) e).result = .ok o := by
  unfold Decode.literal
  simp only [Warned.result_bind, Warned.result_liftM, Decode.int64, ok_bind, Warned.result_mapError,
    ofSlot_slot? he hs hq]
  rcases ho with ⟨b, rfl, rfl⟩ | ⟨b, rfl, rfl⟩
  · rfl
  · rfl

/-- An operand is read back from the only member of its object. -/
theorem operand_roundTrips (s : DocumentStyle) {o : Operand} (h : o.Durable) :
    RoundTrips (Encode.operand (Encode.tree s) o) (fun v => (Decode.operand v).result) o := by
  have single : ∀ {k : String} {v : Json}, v.Solid → Encode.operand (Encode.tree s) o = .ok (.object [Encode.member k v]) →
      (Decode.taggedOperand k v).result = .ok o →
      RoundTrips (Encode.operand (Encode.tree s) o) (fun v => (Decode.operand v).result) o := by
    intro k v hv hw hr
    refine ⟨_, hw, (Json.Arranged.cons hv.2 .nil).solid (List.pairwise_singleton _ _), ?_⟩
    unfold Decode.operand
    simp only [Warned.result_bind, Warned.result_liftM, Decode.object, ok_bind, Encode.member]
    exact hr
  cases o with
  | int32 n =>
      refine single (k := "Int32") (int32_solid n) rfl ?_
      rw [Decode.taggedOperand, if_pos rfl, Warned.result_bind, Warned.result_liftM, int32_read]
      rfl
  | int64 n =>
      refine single (k := "Int64") (v := .int n) (int_solid _) rfl ?_
      rw [Decode.taggedOperand, if_neg (by decide), if_pos rfl]
      rfl
  | single b =>
      refine single (k := "Single") (v := .int (FloatBits.widen b).toInt64) (int_solid _) rfl ?_
      rw [Decode.taggedOperand, if_neg (by decide), if_neg (by decide), if_pos rfl]
      refine literal_read (v := .r4 b) rfl rfl ?_ (.inl ⟨b, rfl, rfl⟩)
      rintro _ ⟨⟩
      exact h
  | double b =>
      refine single (k := "Double") (v := .int b.toInt64) (int_solid _) rfl ?_
      rw [Decode.taggedOperand, if_neg (by decide), if_neg (by decide), if_neg (by decide), if_pos rfl]
      refine literal_read (v := .r8 b) rfl rfl ?_ (.inr ⟨b, rfl, rfl⟩)
      rintro _ ⟨⟩
  | string t =>
      refine single (k := "String") (v := .string t) (string_solid t) rfl ?_
      rw [Decode.taggedOperand, if_neg (by decide), if_neg (by decide), if_neg (by decide),
        if_neg (by decide), if_pos rfl]
      rfl
  | targets ns =>
      obtain ⟨v, hv, hs, hr⟩ : RoundTrips (.ok (Encode.list Encode.int32 ns))
          (Decode.list "Switch" (Decode.int32 "Switch")) ns :=
        .list fun n _ => .pure (int32_solid n) (int32_read _ n)
      cases hv
      refine single (k := "Switch") hs rfl ?_
      rw [Decode.taggedOperand, if_neg (by decide), if_neg (by decide), if_neg (by decide),
        if_neg (by decide), if_neg (by decide), if_pos rfl, Warned.result_bind, Warned.result_liftM, hr]
      rfl
  | tree t =>
      obtain ⟨v, hv, hs, hr⟩ := tree_roundTrips s h
      refine single (k := "Type") hs (by rw [Encode.operand, hv]; rfl) ?_
      rw [Decode.taggedOperand, if_neg (by decide), if_neg (by decide), if_neg (by decide),
        if_neg (by decide), if_neg (by decide), if_neg (by decide), if_pos rfl, Warned.result_bind,
        Warned.result_liftM, hr]
      rfl

end CilCatalog
