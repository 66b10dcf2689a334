import CilCatalog.Proofs.Document.Constant

/-!
# Parts of definitions in documents

Custom attributes, generic parameters, properties, events, parameters and method bodies are read back.  Each of them is an object with a fixed order of members, so each proof says what is found under the names, and reads the members one by one.
-/

namespace CilCatalog

open SigTree (FormatFault)

variable (s : DocumentStyle)

/-! ### Members of every kind -/

theorem trees_read {ts : List SigTree} (what : Bytes) (h : ∀ t ∈ ts, t.Formattable) :
    RoundTrips (Encode.listM (Encode.tree s) ts) (Decode.list what Decode.tree) ts :=
  .listM fun t ht => tree_roundTrips s (h t ht)

theorem tokens_read {ts : List Token} (what : Bytes) (h : ∀ t ∈ ts, t.Durable) :
    RoundTrips (.ok (Encode.list (Encode.token s) ts)) (Decode.list what Decode.token) ts :=
  .list fun t ht => token_roundTrips s (h t ht)

theorem optionalToken_read {o : Option Token} (h : ∀ t ∈ o, t.Durable) :
    ReadsAs Decode.token (o.map (Encode.token s)) o :=
  .optional fun t ht => token_roundTrips s (h t ht)

theorem optionalTokens_read {o : Option (List Token)} (what : Bytes)
    (h : ∀ ts ∈ o, ∀ t ∈ ts, t.Durable) :
    ReadsAs (Decode.list what Decode.token) (o.map (Encode.list (Encode.token s))) o :=
  .optional fun ts hts => tokens_read s what (h ts hts)

/-! ### Custom attributes -/

/-- A custom attribute is read back. -/
theorem customAttribute_roundTrips {a : CustomAttribute} (h : a.Durable) :
    RoundTrips (.ok (Encode.customAttribute s a)) Decode.customAttribute a := by
  obtain ⟨ms, hms⟩ : ∃ ms, ms = [Encode.member "Constructor" (Encode.token s a.constructor),
      Encode.member "RawData" (Encode.bytes a.rawData)] := ⟨_, rfl⟩
  obtain ⟨_, ⟨⟩, tokenSolid, token⟩ := token_roundTrips s h
  obtain ⟨_, ⟨⟩, bytesSolid, bytes⟩ := bytes_roundTrips "RawData" a.rawData
  have constructor : Decode.required ms "Constructor" = .ok (Encode.token s a.constructor) :=
    required_of_find? (by simp [hms, Encode.member]) tokenSolid.1
  have rawData : Decode.required ms "RawData" = .ok (Encode.bytes a.rawData) :=
    required_of_find? (by simp [hms, Encode.member, utf8_inj]) bytesSolid.1
  rw [Encode.customAttribute, ← hms]
  refine .pure ?_ ?_
  · rw [hms]
    exact (Json.Arranged.cons tokenSolid.2 (.cons bytesSolid.2 .nil)).solid (by decide)
  · rw [Decode.customAttribute]
    simp only [Decode.object, ok_bind, constructor, rawData, token, bytes]
    rfl

/-- What `Encode.customAttributes` writes is read back. -/
theorem customAttributes_read {o : Option (List CustomAttribute)} (h : ∀ as ∈ o, ∀ a ∈ as, a.Durable) :
    ReadsAs (Decode.list "CustomAttributes" Decode.customAttribute)
      (o.map (Encode.list (Encode.customAttribute s))) o :=
  .optional fun as has => .list fun a ha => customAttribute_roundTrips s (h as has a ha)

/-! ### Generic parameters -/

/-- A generic parameter is read back. -/
theorem genericParameter_roundTrips {p : GenericParameter} (h : p.Durable) :
    RoundTrips (Encode.genericParameter (Encode.tree s) p) Decode.genericParameter p := by
  obtain ⟨ov, written, read⟩ := @ReadsAs.optionalM _ _ "Constraints" _ p.constraints fun ts hts =>
    trees_read s "Constraints" (h.constraints ts hts)
  obtain ⟨ms, hms⟩ : ∃ ms, ms = [Encode.member "Name" (.string p.name),
      Encode.member "Attributes" (Encode.int32 p.attributes),
      Encode.member "Number" (Encode.int32 p.number)] ++ Encode.optional "Constraints" id ov := ⟨_, rfl⟩
  have name : Decode.requiredString ms "Name" = .ok p.name :=
    requiredString_of_find? (by simp [hms, Encode.member])
  have attributes : Decode.requiredInt32 ms "Attributes" = .ok p.attributes :=
    requiredInt32_of_find? (by simp [hms, Encode.member, utf8_inj])
  have number : Decode.requiredInt32 ms "Number" = .ok p.number :=
    requiredInt32_of_find? (by simp [hms, Encode.member, utf8_inj])
  have constraints : Decode.optionalList ms "Constraints" Decode.tree = .ok p.constraints :=
    optional_of_find? (by simp [hms, Encode.member, utf8_inj]) read
  refine ⟨.object ms, by rw [Encode.genericParameter, written, hms]; rfl, ?_, ?_⟩
  · rw [hms]
    exact (Json.Arranged.append (.string (.int (.int .nil))) read.arranged).solid (by decide)
  · rw [Decode.genericParameter]
    simp only [Decode.object, ok_bind, name, attributes, number, constraints]
    rfl

/-! ### Properties and events -/

/-- A property is read back. -/
theorem property_roundTrips {p : Property} (h : p.Durable) :
    RoundTrips (Encode.property (Encode.tree s) s p) Decode.property p := by
  obtain ⟨v, written, solid, read⟩ := tree_roundTrips s h.signature
  have get := optionalToken_read s h.getMethod
  have set := optionalToken_read s h.setMethod
  have customs := customAttributes_read s h.customAttributes
  obtain ⟨ms, hms⟩ : ∃ ms, ms = [Encode.member "Name" (.string p.name), Encode.member "Signature" v,
      Encode.member "Attributes" (Encode.int32 p.attributes)] ++
      Encode.optional "GetMethod" (Encode.token s) p.getMethod ++
      Encode.optional "SetMethod" (Encode.token s) p.setMethod ++
      Encode.customAttributes s p.customAttributes := ⟨_, rfl⟩
  have name : Decode.requiredString ms "Name" = .ok p.name :=
    requiredString_of_find? (by simp [hms, Encode.member])
  have signature : Decode.required ms "Signature" = .ok v :=
    required_of_find? (by simp [hms, Encode.member, utf8_inj]) solid.1
  have attributes : Decode.requiredInt32 ms "Attributes" = .ok p.attributes :=
    requiredInt32_of_find? (by simp [hms, Encode.member, utf8_inj])
  have getMethod : Decode.optional ms "GetMethod" Decode.token = .ok p.getMethod :=
    optional_of_find? (by simp [hms, Encode.member, Encode.customAttributes, utf8_inj]) get
  have setMethod : Decode.optional ms "SetMethod" Decode.token = .ok p.setMethod :=
    optional_of_find? (by simp [hms, Encode.member, Encode.customAttributes, utf8_inj]) set
  have customAttributes : Decode.customAttributes ms = .ok p.customAttributes :=
    optional_of_find? (by simp [hms, Encode.member, Encode.customAttributes, utf8_inj]) customs
  refine ⟨.object ms, by rw [Encode.property, written, hms]; rfl, ?_, ?_⟩
  · rw [hms]
    exact ((((Json.Arranged.string (.cons solid.2 (.int .nil))).append get.arranged).append
      set.arranged).append customs.arranged).solid (by decide)
  · rw [Decode.property]
    simp only [Decode.object, Decode.requiredTree, ok_bind, name, signature, read, attributes,
      getMethod, setMethod, customAttributes]
    rfl

/-- An event is read back. -/
theorem event_roundTrips {e : Event} (h : e.Durable) :
    RoundTrips (Encode.event (Encode.tree s) s e) Decode.event e := by
  obtain ⟨v, written, solid, read⟩ := tree_roundTrips s h.type
  have add := optionalToken_read s h.addMethod
  have remove := optionalToken_read s h.removeMethod
  have invoke := optionalToken_read s h.invokeMethod
  have customs := customAttributes_read s h.customAttributes
  obtain ⟨ms, hms⟩ : ∃ ms, ms = [Encode.member "Name" (.string e.name), Encode.member "Type" v,
      Encode.member "Attributes" (Encode.int32 e.attributes)] ++
      Encode.optional "AddMethod" (Encode.token s) e.addMethod ++
      Encode.optional "RemoveMethod" (Encode.token s) e.removeMethod ++
      Encode.optional "InvokeMethod" (Encode.token s) e.invokeMethod ++
      Encode.customAttributes s e.customAttributes := ⟨_, rfl⟩
  have name : Decode.requiredString ms "Name" = .ok e.name :=
    requiredString_of_find? (by simp [hms, Encode.member])
  have type : Decode.required ms "Type" = .ok v :=
    required_of_find? (by simp [hms, Encode.member, utf8_inj]) solid.1
  have attributes : Decode.requiredInt32 ms "Attributes" = .ok e.attributes :=
    requiredInt32_of_find? (by simp [hms, Encode.member, utf8_inj])
  have addMethod : Decode.optional ms "AddMethod" Decode.token = .ok e.addMethod :=
    optional_of_find? (by simp [hms, Encode.member, Encode.customAttributes, utf8_inj]) add
  have removeMethod : Decode.optional ms "RemoveMethod" Decode.token = .ok e.removeMethod :=
    optional_of_find? (by simp [hms, Encode.member, Encode.customAttributes, utf8_inj]) remove
  have invokeMethod : Decode.optional ms "InvokeMethod" Decode.token = .ok e.invokeMethod :=
    optional_of_find? (by simp [hms, Encode.member, Encode.customAttributes, utf8_inj]) invoke
  have customAttributes : Decode.customAttributes ms = .ok e.customAttributes :=
    optional_of_find? (by simp [hms, Encode.member, Encode.customAttributes, utf8_inj]) customs
  refine ⟨.object ms, by rw [Encode.event, written, hms]; rfl, ?_, ?_⟩
  · rw [hms]
    exact (((((Json.Arranged.string (.cons solid.2 (.int .nil))).append add.arranged).append
      remove.arranged).append invoke.arranged).append customs.arranged).solid (by decide)
  · rw [Decode.event]
    simp only [Decode.object, Decode.requiredTree, ok_bind, name, type, read, attributes, addMethod,
      removeMethod, invokeMethod, customAttributes]
    rfl

/-! ### Parameters and layouts -/

theorem optionalConstant_read {o : Option Constant} (h : ∀ c ∈ o, c.Durable) :
    ReadsAs (fun v => (Decode.constant v).result) (o.map Encode.constant) o :=
  .optional fun c hc => constant_roundTrips (h c hc)

/-- A parameter is read back. -/
theorem parameter_roundTrips {p : Parameter} (h : p.Durable) :
    RoundTrips (.ok (Encode.parameter s p)) (fun v => (Decode.parameter v).result) p := by
  have const := optionalConstant_read h.constant
  have customs := customAttributes_read s h.customAttributes
  obtain ⟨ms, hms⟩ : ∃ ms, ms = [Encode.member "Name" (.string p.name),
      Encode.member "Sequence" (Encode.int32 p.sequence),
      Encode.member "Attributes" (Encode.int32 p.attributes)] ++
      Encode.optional "Constant" Encode.constant p.constant ++
      Encode.customAttributes s p.customAttributes := ⟨_, rfl⟩
  have name : Decode.requiredString ms "Name" = .ok p.name :=
    requiredString_of_find? (by simp [hms, Encode.member])
  have sequence : Decode.requiredInt32 ms "Sequence" = .ok p.sequence :=
    requiredInt32_of_find? (by simp [hms, Encode.member, utf8_inj])
  have attributes : Decode.requiredInt32 ms "Attributes" = .ok p.attributes :=
    requiredInt32_of_find? (by simp [hms, Encode.member, utf8_inj])
  have constant : Decode.optional ms "Constant" (fun v => (Decode.constant v).result) =
      .ok p.constant :=
    optional_of_find? (by simp [hms, Encode.member, Encode.customAttributes, utf8_inj]) const
  have customAttributes : Decode.customAttributes ms = .ok p.customAttributes :=
    optional_of_find? (by simp [hms, Encode.member, Encode.customAttributes, utf8_inj]) customs
  refine .pure ?_ ?_
  · exact (((Json.Arranged.string (.int (.int .nil))).append const.arranged).append
      customs.arranged).solid (by decide)
  · rw [Encode.parameter, ← hms, Decode.parameter]
    simp only [Warned.result_bind, Warned.result_liftM, Decode.result_optional, Decode.object, ok_bind,
      name, sequence, attributes, constant, customAttributes]
    rfl

/-- A layout is read back. -/
theorem layout_roundTrips (l : ClassLayout) : RoundTrips (.ok (Encode.layout l)) Decode.layout l := by
  obtain ⟨ms, hms⟩ : ∃ ms, ms = [Encode.member "PackingSize" (Encode.int32 l.packingSize),
      Encode.member "ClassSize" (Encode.int32 l.classSize)] := ⟨_, rfl⟩
  have packingSize : Decode.requiredInt32 ms "PackingSize" = .ok l.packingSize :=
    requiredInt32_of_find? (by simp [hms, Encode.member])
  have classSize : Decode.requiredInt32 ms "ClassSize" = .ok l.classSize :=
    requiredInt32_of_find? (by simp [hms, Encode.member, utf8_inj])
  refine .pure ((Json.Arranged.int (.int .nil)).solid (by decide)) ?_
  rw [Encode.layout, ← hms, Decode.layout]
  simp only [Decode.object, ok_bind, packingSize, classSize]
  rfl

/-- The import of a method is read back. -/
theorem implMap_roundTrips (m : ImplMap) : RoundTrips (.ok (Encode.implMap m)) Decode.implMap m := by
  obtain ⟨ms, hms⟩ : ∃ ms, ms = [Encode.member "Name" (.string m.name),
      Encode.member "Module" (.string m.module), Encode.member "Attributes" (Encode.int32 m.attributes)] :=
    ⟨_, rfl⟩
  have name : Decode.requiredString ms "Name" = .ok m.name :=
    requiredString_of_find? (by simp [hms, Encode.member])
  have module : Decode.requiredString ms "Module" = .ok m.module :=
    requiredString_of_find? (by simp [hms, Encode.member, utf8_inj])
  have attributes : Decode.requiredInt32 ms "Attributes" = .ok m.attributes :=
    requiredInt32_of_find? (by simp [hms, Encode.member, utf8_inj])
  refine .pure ((Json.Arranged.string (.string (.int .nil))).solid (by decide)) ?_
  rw [Encode.implMap, ← hms, Decode.implMap]
  simp only [Decode.object, ok_bind, name, module, attributes]
  rfl

/-! ### Method bodies -/

/-- An instruction is read back. -/
theorem instruction_roundTrips {i : Instruction} (h : i.Durable) :
    RoundTrips (Encode.instruction (Encode.tree s) i) (fun v => (Decode.instruction v).result) i := by
  obtain ⟨ov, written, read⟩ := @ReadsAs.optionalM _ _ "Operand" _ i.operand fun o ho =>
    operand_roundTrips s (h o ho)
  obtain ⟨ms, hms⟩ : ∃ ms, ms = Encode.member "OpCode" (.string i.opcode) ::
      Encode.optional "Operand" id ov := ⟨_, rfl⟩
  have opcode : Decode.requiredString ms "OpCode" = .ok i.opcode :=
    requiredString_of_find? (by simp [hms, Encode.member])
  have operand : Decode.optional ms "Operand" (fun v => (Decode.operand v).result) = .ok i.operand :=
    optional_of_find? (by simp [hms, Encode.member, utf8_inj]) read
  refine ⟨.object ms, by rw [Encode.instruction, written, hms]; rfl, ?_, ?_⟩
  · rw [hms]
    exact (Json.Arranged.string read.arranged).solid (by decide)
  · unfold Decode.instruction
    simp only [Warned.result_bind, Warned.result_liftM, Decode.result_optional, Decode.object, ok_bind,
      opcode, operand]
    rfl

/-- An exception handler is read back. -/
theorem handler_roundTrips {e : ExceptionHandler} (h : e.Durable) :
    RoundTrips (Encode.handler (Encode.tree s) e) Decode.handler e := by
  obtain ⟨ov, written, read⟩ := @ReadsAs.optionalM _ _ "CatchType" _ e.catchType fun t ht =>
    tree_roundTrips s (h t ht)
  obtain ⟨ms, hms⟩ : ∃ ms, ms = [Encode.member "TryStart" (Encode.int32 e.tryStart),
      Encode.member "TryEnd" (Encode.int32 e.tryEnd),
      Encode.member "FilterStart" (Encode.int32 e.filterStart),
      Encode.member "HandlerStart" (Encode.int32 e.handlerStart),
      Encode.member "HandlerEnd" (Encode.int32 e.handlerEnd)] ++ Encode.optional "CatchType" id ov ++
      [Encode.member "HandlerType" (Encode.int32 e.handlerType)] := ⟨_, rfl⟩
  have tryStart : Decode.requiredInt32 ms "TryStart" = .ok e.tryStart :=
    requiredInt32_of_find? (by simp [hms, Encode.member])
  have tryEnd : Decode.requiredInt32 ms "TryEnd" = .ok e.tryEnd :=
    requiredInt32_of_find? (by simp [hms, Encode.member, utf8_inj])
  have filterStart : Decode.requiredInt32 ms "FilterStart" = .ok e.filterStart :=
    requiredInt32_of_find? (by simp [hms, Encode.member, utf8_inj])
  have handlerStart : Decode.requiredInt32 ms "HandlerStart" = .ok e.handlerStart :=
    requiredInt32_of_find? (by simp [hms, Encode.member, utf8_inj])
  have handlerEnd : Decode.requiredInt32 ms "HandlerEnd" = .ok e.handlerEnd :=
    requiredInt32_of_find? (by simp [hms, Encode.member, utf8_inj])
  have catchType : Decode.optional ms "CatchType" Decode.tree = .ok e.catchType :=
    optional_of_find? (by simp [hms, Encode.member, utf8_inj]) read
  have handlerType : Decode.requiredInt32 ms "HandlerType" = .ok e.handlerType :=
    requiredInt32_of_find? (by simp [hms, Encode.member, utf8_inj])
  refine ⟨.object ms, by rw [Encode.handler, written, hms]; rfl, ?_, ?_⟩
  · rw [hms]
    exact (((Json.Arranged.int (.int (.int (.int (.int .nil))))).append read.arranged).append
      (.int .nil)).solid (by decide)
  · rw [Decode.handler]
    simp only [Decode.object, ok_bind, tryStart, tryEnd, filterStart, handlerStart, handlerEnd,
      catchType, handlerType]
    rfl

/-- A method body is read back. -/
theorem body_roundTrips {b : MethodBody} (h : b.Durable) :
    RoundTrips (Encode.body (Encode.tree s) b) (fun v => (Decode.body v).result) b := by
  obtain ⟨is, instructionsWritten, instructionsSolid, instructionsRead⟩ :=
    @RoundTrips.listM _ _ _ b.instructions "Instructions" fun i hi =>
      instruction_roundTrips s (h.instructions i hi)
  obtain ⟨hs, handlersWritten, handlersSolid, handlersRead⟩ :=
    @RoundTrips.listM _ _ _ b.handlers "ExceptionHandlers" fun e he =>
      handler_roundTrips s (h.handlers e he)
  obtain ⟨ls, localsWritten, localsSolid, localsRead⟩ := trees_read s "Variables" h.locals
  obtain ⟨ms, hms⟩ : ∃ ms, ms = [Encode.member "Instructions" is, Encode.member "ExceptionHandlers" hs,
      Encode.member "Variables" ls, Encode.member "MaxStack" (Encode.int32 b.maxStack),
      Encode.member "InitLocals" (.bool b.initLocals)] := ⟨_, rfl⟩
  have instructions : Decode.requiredList ms "Instructions" (fun v => (Decode.instruction v).result) =
      .ok b.instructions :=
    requiredList_of_find? (by simp [hms, Encode.member]) instructionsSolid instructionsRead
  have handlers : Decode.requiredList ms "ExceptionHandlers" Decode.handler = .ok b.handlers :=
    requiredList_of_find? (by simp [hms, Encode.member, utf8_inj]) handlersSolid handlersRead
  have locals : Decode.requiredList ms "Variables" Decode.tree = .ok b.locals :=
    requiredList_of_find? (by simp [hms, Encode.member, utf8_inj]) localsSolid localsRead
  have maxStack : Decode.requiredInt32 ms "MaxStack" = .ok b.maxStack :=
    requiredInt32_of_find? (by simp [hms, Encode.member, utf8_inj])
  have initLocals : Decode.required ms "InitLocals" = .ok (.bool b.initLocals) :=
    required_of_find? (by simp [hms, Encode.member, utf8_inj]) (by simp)
  refine ⟨.object ms, ?_, ?_, ?_⟩
  · rw [Encode.body, instructionsWritten, handlersWritten, localsWritten, hms]
    rfl
  · rw [hms]
    exact (Json.Arranged.cons instructionsSolid.2 (.cons handlersSolid.2 (.cons localsSolid.2
      (.int (.cons (v := .bool b.initLocals) trivial .nil))))).solid (by decide)
  · unfold Decode.body
    simp only [Warned.result_bind, Warned.result_liftM, Decode.result_requiredList, Decode.object,
      ok_bind, instructions, handlers, locals, maxStack, initLocals, Decode.bool]
    rfl

end CilCatalog
