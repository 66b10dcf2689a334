import CilCatalog.Proofs.Document.Parts

/-!
# Entities in documents

The members of a definition are those of its identity and those of its data.  Both sides are read by name, so each of them is read back among any other members that do not use its names (`MembersRoundTrip`).
-/

namespace CilCatalog

open SigTree (FormatFault)

namespace Json

variable {ks : List Bytes} {ms : List (Bytes × Json)} {k : Bytes}

/-- A name that is not among those of the members is not found. -/
theorem Arranged.find?_eq_none (h : Arranged ks ms) (hk : k ∉ ks) : find? ms k = none := by
  simp only [find?, Option.map_eq_none_iff, List.find?_eq_none]
  intro m hm he
  have : m.1 ∈ ks := h.keys.subset (List.mem_map_of_mem hm)
  exact hk (beq_iff_eq.1 he ▸ this)

end Json

variable {α β : Type}

/-- The value `a` is written as members with names among `ks`, and read back from any members that agree with these on `ks`. -/
def MembersRoundTrip (ks : List Bytes) (written : Except FormatFault Encode.Members)
    (read : Decode.Members → Decode.Read α) (a : α) : Prop :=
  ∃ ns, written = .ok ns ∧ Json.Arranged ks ns ∧
    ∀ ms, (∀ k ∈ ks, Json.find? ms k = Json.find? ns k) → read ms = .ok a

/-- Members that stand alone. -/
theorem MembersRoundTrip.object {ks : List Bytes} {written : Except FormatFault Encode.Members}
    {read : Decode.Members → Decode.Read α} {a : α} (what : Bytes)
    (h : MembersRoundTrip ks written read a) (hks : ks.Nodup) :
    RoundTrips (written.map .object) (fun v => Decode.object what v >>= read) a := by
  obtain ⟨ns, hw, arranged, hr⟩ := h
  refine ⟨.object ns, by rw [hw]; rfl, arranged.solid hks, ?_⟩
  exact hr ns fun _ _ => rfl

/-- The members of an identity in front of those of data. -/
theorem MembersRoundTrip.pair {ks ls : List Bytes} {written : Except FormatFault Encode.Members}
    {written' : Except FormatFault Encode.Members} {read : Decode.Members → Decode.Read α}
    {read' : Decode.Members → Decode.Read β} {a : α} {b : β} (h : MembersRoundTrip ks written read a)
    (h' : MembersRoundTrip ls written' read' b) (disjoint : ∀ k ∈ ks, k ∉ ls) :
    MembersRoundTrip (ks ++ ls) (do return (← written) ++ (← written'))
      (fun ms => do return (← read ms, ← read' ms)) (a, b) := by
  obtain ⟨ns, hw, arranged, hr⟩ := h
  obtain ⟨ns', hw', arranged', hr'⟩ := h'
  refine ⟨ns ++ ns', by rw [hw, hw']; rfl, arranged.append arranged', fun ms agree => ?_⟩
  have left : read ms = .ok a := by
    refine hr ms fun k hk => ?_
    rw [agree k (List.mem_append_left ls hk), Json.find?_append,
      arranged'.find?_eq_none (disjoint k hk), Option.or_none]
  have right : read' ms = .ok b := by
    refine hr' ms fun k hk => ?_
    rw [agree k (List.mem_append_right ks hk), Json.find?_append,
      arranged.find?_eq_none fun hk' => disjoint k hk' hk, Option.none_or]
  dsimp only
  rw [left, right]
  rfl

variable (s : DocumentStyle)

/-! ### Identities -/

def typeIdentityKeys : List Bytes := ["Name", "Namespace", "Assembly", "EnclosingNames"]

def memberIdentityKeys : List Bytes := ["Name", "Type", "Signature"]

/-- The identity of a type is read back. -/
theorem typeIdentity_roundTrip (t : TypeIdentity) :
    MembersRoundTrip typeIdentityKeys (.ok (Encode.typeIdentity t)) Decode.typeIdentity t := by
  have assemblies : ReadsAs (Decode.string "Assembly") (t.assembly.map .string) t.assembly :=
    .optional fun b _ => string_roundTrips _ b
  have names : ReadsAs (Decode.list "EnclosingNames" (Decode.string "EnclosingNames"))
      (t.enclosing.map (Encode.list .string)) t.enclosing :=
    .optional fun bs _ => .list fun b _ => string_roundTrips _ b
  refine ⟨_, rfl, ?_, fun ms agree => ?_⟩
  · exact ((Json.Arranged.string (.string .nil)).append assemblies.arranged).append names.arranged
  · simp only [typeIdentityKeys, Encode.typeIdentity] at agree
    have name : Decode.requiredString ms "Name" = .ok t.name :=
      requiredString_of_find? (by simp [agree, Encode.member])
    have ns : Decode.requiredString ms "Namespace" = .ok t.ns :=
      requiredString_of_find? (by simp [agree, Encode.member, utf8_inj])
    have assembly : Decode.optional ms "Assembly" (Decode.string "Assembly") = .ok t.assembly :=
      optional_of_find? (by simp [agree, Encode.member, utf8_inj]) assemblies
    have enclosing : Decode.optionalList ms "EnclosingNames" (Decode.string "EnclosingNames") =
        .ok t.enclosing :=
      optional_of_find? (by simp [agree, Encode.member, utf8_inj]) names
    rw [Decode.typeIdentity]
    simp only [ok_bind, name, ns, assembly, enclosing]
    rfl

/-- The identity of a field or method is read back. -/
theorem memberIdentity_roundTrip {m : MemberIdentity} (h : m.Durable) :
    MembersRoundTrip memberIdentityKeys (Encode.memberIdentity (Encode.tree s) m) Decode.memberIdentity m := by
  obtain ⟨t, typeWritten, typeSolid, typeRead⟩ := tree_roundTrips s h.type
  obtain ⟨g, signatureWritten, signatureSolid, signatureRead⟩ := tree_roundTrips s h.signature
  refine ⟨_, by rw [Encode.memberIdentity, typeWritten, signatureWritten]; rfl, ?_, fun ms agree => ?_⟩
  · exact .string (.cons typeSolid.2 (.cons signatureSolid.2 .nil))
  · simp only [memberIdentityKeys] at agree
    have name : Decode.requiredString ms "Name" = .ok m.name :=
      requiredString_of_find? (by simp [agree, Encode.member])
    have type : Decode.required ms "Type" = .ok t :=
      required_of_find? (by simp [agree, Encode.member, utf8_inj]) typeSolid.1
    have signature : Decode.required ms "Signature" = .ok g :=
      required_of_find? (by simp [agree, Encode.member, utf8_inj]) signatureSolid.1
    rw [Decode.memberIdentity]
    simp only [Decode.requiredTree, ok_bind, name, type, typeRead, signature, signatureRead]
    rfl

/-! ### Data of definitions -/

def typeDataKeys : List Bytes :=
  ["Attributes", "BaseType", "Interfaces", "ClassLayout", "GenericParameters", "CustomAttributes",
    "NestedTypes", "Fields", "Methods", "Properties", "Events"]

def fieldDataKeys : List Bytes := ["Attributes", "InitialValue", "Constant", "CustomAttributes"]

def methodDataKeys : List Bytes :=
  ["Attributes", "ImplAttributes", "Parameters", "Body", "Overrides", "ImplMap", "GenericParameters",
    "CustomAttributes"]

theorem genericParameters_read {o : Option (List GenericParameter)}
    (h : ∀ ps ∈ o, ∀ p ∈ ps, p.Durable) :
    ∃ ov : Option Json, Encode.genericParameters (Encode.tree s) o = .ok (Encode.optional "GenericParameters" id ov) ∧
      ReadsAs (Decode.list "GenericParameters" Decode.genericParameter) (ov.map id) o :=
  ReadsAs.optionalM fun ps hps => .listM fun p hp => genericParameter_roundTrips s (h ps hps p hp)

/-- The data of a type is read back. -/
theorem typeData_roundTrip {d : TypeData} (h : d.Durable) :
    MembersRoundTrip typeDataKeys (Encode.typeData (Encode.tree s) s d) Decode.typeData d := by
  obtain ⟨bv, baseWritten, baseRead⟩ := @ReadsAs.optionalM _ _ "BaseType" _ d.baseType fun t ht =>
    tree_roundTrips s (h.baseType t ht)
  obtain ⟨iv, interfacesWritten, interfacesRead⟩ := @ReadsAs.optionalM _ _ "Interfaces" _ d.interfaces
    fun ts hts => trees_read s "Interfaces" (h.interfaces ts hts)
  obtain ⟨gv, genericsWritten, genericsRead⟩ := genericParameters_read s h.genericParameters
  obtain ⟨pv, propertiesWritten, propertiesRead⟩ := @ReadsAs.optionalM _ _ "Properties" _ d.properties
    fun ps hps => @RoundTrips.listM _ _ _ ps "Properties" fun p hp =>
      property_roundTrips s (h.properties ps hps p hp)
  obtain ⟨ev, eventsWritten, eventsRead⟩ := @ReadsAs.optionalM _ _ "Events" _ d.events
    fun es hes => @RoundTrips.listM _ _ _ es "Events" fun e he =>
      event_roundTrips s (h.events es hes e he)
  have layouts : ReadsAs Decode.layout (d.layout.map Encode.layout) d.layout :=
    .optional fun l _ => layout_roundTrips l
  have customs := customAttributes_read s h.customAttributes
  have nested := optionalTokens_read s "NestedTypes" h.nestedTypes
  have fieldTokens := optionalTokens_read s "Fields" h.fields
  have methodTokens := optionalTokens_read s "Methods" h.methods
  refine ⟨_, by
    rw [Encode.typeData, baseWritten, interfacesWritten, genericsWritten, propertiesWritten,
      eventsWritten]; rfl, ?_, fun ms agree => ?_⟩
  · exact (((((((((Json.Arranged.int baseRead.arranged).append interfacesRead.arranged).append
      layouts.arranged).append genericsRead.arranged).append customs.arranged).append
      nested.arranged).append fieldTokens.arranged).append methodTokens.arranged).append
      propertiesRead.arranged).append eventsRead.arranged
  -- every member is found under its key, since the keys are distinct
  · simp only [typeDataKeys] at agree
    have attributes : Decode.requiredInt32 ms "Attributes" = .ok d.attributes :=
      requiredInt32_of_find? (by simp [agree, Encode.member])
    have baseType : Decode.optional ms "BaseType" Decode.tree = .ok d.baseType :=
      optional_of_find? (by simp [agree, Encode.member, Encode.customAttributes, utf8_inj]) baseRead
    have interfaces : Decode.optionalList ms "Interfaces" Decode.tree = .ok d.interfaces :=
      optional_of_find? (by simp [agree, Encode.member, Encode.customAttributes, utf8_inj])
        interfacesRead
    have genericParameters : Decode.genericParameters ms = .ok d.genericParameters :=
      optional_of_find? (by simp [agree, Encode.member, Encode.customAttributes, utf8_inj]) genericsRead
    have customAttributes : Decode.customAttributes ms = .ok d.customAttributes :=
      optional_of_find? (by simp [agree, Encode.member, Encode.customAttributes, utf8_inj]) customs
    have nestedTypes : Decode.optionalList ms "NestedTypes" Decode.token = .ok d.nestedTypes :=
      optional_of_find? (by simp [agree, Encode.member, Encode.customAttributes, utf8_inj]) nested
    have fields : Decode.optionalList ms "Fields" Decode.token = .ok d.fields :=
      optional_of_find? (by simp [agree, Encode.member, Encode.customAttributes, utf8_inj]) fieldTokens
    have methods : Decode.optionalList ms "Methods" Decode.token = .ok d.methods :=
      optional_of_find? (by simp [agree, Encode.member, Encode.customAttributes, utf8_inj]) methodTokens
    have properties : Decode.optionalList ms "Properties" Decode.property = .ok d.properties :=
      optional_of_find? (by simp [agree, Encode.member, Encode.customAttributes, utf8_inj])
        propertiesRead
    have events : Decode.optionalList ms "Events" Decode.event = .ok d.events :=
      optional_of_find? (by simp [agree, Encode.member, Encode.customAttributes, utf8_inj]) eventsRead
    have layout : Decode.optional ms "ClassLayout" Decode.layout = .ok d.layout :=
      optional_of_find? (by simp [agree, Encode.member, Encode.customAttributes, utf8_inj]) layouts
    rw [Decode.typeData]
    simp only [ok_bind, attributes, baseType, interfaces, genericParameters, customAttributes,
      nestedTypes, fields, methods, properties, events, layout]
    rfl

/-- The data of a field is read back. -/
theorem fieldData_roundTrip {d : FieldData} (h : d.Durable) :
    MembersRoundTrip fieldDataKeys (.ok (Encode.fieldData s d)) (fun ms => (Decode.fieldData ms).result)
      d := by
  have values : ReadsAs (Decode.bytes "InitialValue") (d.initialValue.map Encode.bytes)
      d.initialValue := .optional fun b _ => bytes_roundTrips _ b
  have const := optionalConstant_read h.constant
  have customs := customAttributes_read s h.customAttributes
  refine ⟨_, rfl, ?_, fun ms agree => ?_⟩
  · exact (((Json.Arranged.int values.arranged).append const.arranged).append customs.arranged)
  · simp only [fieldDataKeys, Encode.fieldData] at agree
    have attributes : Decode.requiredInt32 ms "Attributes" = .ok d.attributes :=
      requiredInt32_of_find? (by simp [agree, Encode.member])
    have customAttributes : Decode.customAttributes ms = .ok d.customAttributes :=
      optional_of_find? (by simp [agree, Encode.member, Encode.customAttributes, utf8_inj]) customs
    have initialValue : Decode.optional ms "InitialValue" (Decode.bytes "InitialValue") =
        .ok d.initialValue :=
      optional_of_find? (by simp [agree, Encode.member, Encode.customAttributes, utf8_inj]) values
    have constant : Decode.optional ms "Constant" (fun v => (Decode.constant v).result) =
        .ok d.constant :=
      optional_of_find? (by simp [agree, Encode.member, Encode.customAttributes, utf8_inj]) const
    unfold Decode.fieldData
    simp only [Warned.result_bind, Warned.result_liftM, Decode.result_optional, ok_bind, attributes,
      customAttributes, initialValue, constant]
    rfl

/-- The data of a method is read back. -/
theorem methodData_roundTrip {d : MethodData} (h : d.Durable) :
    MembersRoundTrip methodDataKeys (Encode.methodData (Encode.tree s) s d) (fun ms => (Decode.methodData ms).result)
      d := by
  obtain ⟨bv, bodyWritten, bodyRead⟩ := @ReadsAs.optionalM _ _ "Body" _ d.body fun b hb =>
    body_roundTrips s (h.body b hb)
  obtain ⟨gv, genericsWritten, genericsRead⟩ := genericParameters_read s h.genericParameters
  obtain ⟨_, ⟨⟩, parametersSolid, parametersRead⟩ := @RoundTrips.list _ _ _ d.parameters "Parameters"
    fun p hp => parameter_roundTrips s (h.parameters p hp)
  have imports : ReadsAs Decode.implMap (d.implMap.map Encode.implMap) d.implMap :=
    .optional fun m _ => implMap_roundTrips m
  have customs := customAttributes_read s h.customAttributes
  have overridden := optionalTokens_read s "Overrides" h.overrides
  refine ⟨_, by rw [Encode.methodData, bodyWritten, genericsWritten]; rfl, ?_, fun ms agree => ?_⟩
  · exact (((((Json.Arranged.int (.int (.cons parametersSolid.2 .nil))).append
      bodyRead.arranged).append overridden.arranged).append imports.arranged).append
      genericsRead.arranged).append customs.arranged
  · simp only [methodDataKeys] at agree
    have attributes : Decode.requiredInt32 ms "Attributes" = .ok d.attributes :=
      requiredInt32_of_find? (by simp [agree, Encode.member])
    have implAttributes : Decode.requiredInt32 ms "ImplAttributes" = .ok d.implAttributes :=
      requiredInt32_of_find? (by simp [agree, Encode.member, utf8_inj])
    have parameters : Decode.requiredList ms "Parameters" (fun v => (Decode.parameter v).result) =
        .ok d.parameters :=
      requiredList_of_find? (by simp [agree, Encode.member, utf8_inj]) parametersSolid parametersRead
    have overrides : Decode.optionalList ms "Overrides" Decode.token = .ok d.overrides :=
      optional_of_find? (by simp [agree, Encode.member, Encode.customAttributes, utf8_inj]) overridden
    have genericParameters : Decode.genericParameters ms = .ok d.genericParameters :=
      optional_of_find? (by simp [agree, Encode.member, Encode.customAttributes, utf8_inj]) genericsRead
    have customAttributes : Decode.customAttributes ms = .ok d.customAttributes :=
      optional_of_find? (by simp [agree, Encode.member, Encode.customAttributes, utf8_inj]) customs
    have body : Decode.optional ms "Body" (fun v => (Decode.body v).result) = .ok d.body :=
      optional_of_find? (by simp [agree, Encode.member, Encode.customAttributes, utf8_inj]) bodyRead
    have implMap : Decode.optional ms "ImplMap" Decode.implMap = .ok d.implMap :=
      optional_of_find? (by simp [agree, Encode.member, Encode.customAttributes, utf8_inj]) imports
    unfold Decode.methodData
    simp only [Warned.result_bind, Warned.result_liftM, Decode.result_optional,
      Decode.result_requiredList, ok_bind, attributes, implAttributes, parameters, overrides,
      genericParameters, customAttributes, body, implMap]
    rfl

/-! ### Entities -/

theorem typeReference_roundTrips (t : TypeIdentity) :
    RoundTrips (Encode.typeReference t) (fun v => (Decode.typeReference v).result) t := by
  refine ((typeIdentity_roundTrip t).object "Type" (by decide)).congr rfl fun v => ?_
  unfold Decode.typeReference
  simp only [Warned.result_bind, Warned.result_liftM]

theorem memberReference_roundTrips (what : Bytes) {m : MemberIdentity} (h : m.Durable) :
    RoundTrips (Encode.memberReference (Encode.tree s) m) (fun v => (Decode.memberReference what v).result) m := by
  refine ((memberIdentity_roundTrip s h).object what (by decide)).congr ?_ fun v => ?_
  · unfold Encode.memberReference
    cases Encode.memberIdentity (Encode.tree s) m <;> rfl
  · unfold Decode.memberReference
    simp only [Warned.result_bind, Warned.result_liftM]

theorem typeDefinition_roundTrips {t : TypeIdentity × TypeData} (h : t.2.Durable) :
    RoundTrips (Encode.typeDefinition (Encode.tree s) s t) (fun v => (Decode.typeDefinition v).result) t := by
  refine (((typeIdentity_roundTrip t.1).pair (typeData_roundTrip s h) (by decide)).object "Type"
    (by decide)).congr ?_ fun v => ?_
  · unfold Encode.typeDefinition
    cases Encode.typeData (Encode.tree s) s t.2 <;> rfl
  · unfold Decode.typeDefinition
    simp only [Warned.result_bind, Warned.result_liftM, Warned.result_pure]
    rfl

theorem fieldDefinition_roundTrips {f : MemberIdentity × FieldData} (hi : f.1.Durable)
    (hd : f.2.Durable) :
    RoundTrips (Encode.fieldDefinition (Encode.tree s) s f) (fun v => (Decode.fieldDefinition v).result) f := by
  refine (((memberIdentity_roundTrip s hi).pair (fieldData_roundTrip s hd) (by decide)).object "Field"
    (by decide)).congr ?_ fun v => ?_
  · unfold Encode.fieldDefinition
    cases Encode.memberIdentity (Encode.tree s) f.1 <;> rfl
  · unfold Decode.fieldDefinition
    simp only [Warned.result_bind, Warned.result_liftM, Warned.result_pure]
    rfl

theorem methodDefinition_roundTrips {m : MemberIdentity × MethodData} (hi : m.1.Durable)
    (hd : m.2.Durable) :
    RoundTrips (Encode.methodDefinition (Encode.tree s) s m) (fun v => (Decode.methodDefinition v).result) m := by
  refine (((memberIdentity_roundTrip s hi).pair (methodData_roundTrip s hd) (by decide)).object "Method"
    (by decide)).congr ?_ fun v => ?_
  · unfold Encode.methodDefinition
    cases Encode.memberIdentity (Encode.tree s) m.1 <;> cases Encode.methodData (Encode.tree s) s m.2 <;> rfl
  · unfold Decode.methodDefinition
    simp only [Warned.result_bind, Warned.result_liftM, Warned.result_pure]
    rfl

end CilCatalog
