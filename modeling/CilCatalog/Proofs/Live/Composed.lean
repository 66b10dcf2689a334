import CilCatalog.Proofs.Live.Built

/-!
# What definitions of built modules hold

Whatever a definition refers to has been made before it is referred to.  So the definitions of a module that is built hold no row in two versions, and refer to no type that is not there: what is asked of a module to be regular is not more than that it is tidy.

* `Built.composed`: what definitions refer to has been made.
* `Built.eq_of_same`: rows that definitions hold are told apart by their keys.
* `Source.Tidy.regular`: a tidy module that is built is regular.
-/

namespace CilCatalog

namespace Live.Store

variable {s s' : Store} {rs rs' : List Row} {i : ImageId} {t : TypeId}

/-- What the definitions refer to has been made, and members have signatures of their kind. -/
structure Composed (rs : List Row) (s : Store) : Prop where
  types : ∀ t, s.Made rs (s.typeDef t).rows
  fields : ∀ f, (s.fieldDef f).Composed rs s
  methods : ∀ f, (s.methodDef f).Composed rs s

namespace Composed

/-- What gets into definitions has been made. -/
theorem step (h : Composed rs s) (hrs : rs ⊆ rs') (hn : s.NoLess s')
    (types : ∀ t, s'.typeDef t = s.typeDef t ∨ s'.Made rs' (s'.typeDef t).rows)
    (fields : ∀ f, s'.fieldDef f = s.fieldDef f ∨ (s'.fieldDef f).Composed rs' s')
    (methods : ∀ f, s'.methodDef f = s.methodDef f ∨ (s'.methodDef f).Composed rs' s') :
    Composed rs' s' where
  types t := (types t).elim (fun heq => heq ▸ (h.types t).more hrs hn) id
  fields f := (fields f).elim (fun heq => heq ▸ (h.fields f).more hrs hn) id
  methods f := (methods f).elim (fun heq => heq ▸ (h.methods f).more hrs hn) id

/-- The definitions stay as they are. -/
theorem congr (h : Composed rs s) (hrs : rs ⊆ rs') (ht : s'.typeDefs = s.typeDefs)
    (hf : s'.fieldDefs = s.fieldDefs) (hm : s'.methodDefs = s.methodDefs) : Composed rs' s' :=
  h.step hrs ⟨ht ▸ Nat.le_refl _, hf ▸ Nat.le_refl _, hm ▸ Nat.le_refl _⟩
    (fun t => .inl (by rw [typeDef, ht, typeDef])) (fun f => .inl (by rw [fieldDef, hf, fieldDef]))
    fun f => .inl (by rw [methodDef, hm, methodDef])

theorem addType (h : Composed rs s) {d : TypeDef} (hd : d.rows = [])
    (ht : s'.typeDefs = s.typeDefs ++ [d]) (hf : s'.fieldDefs = s.fieldDefs)
    (hm : s'.methodDefs = s.methodDefs) : Composed rs s' := by
  refine h.step (List.Subset.refl _) ⟨?_, hf ▸ Nat.le_refl _, hm ▸ Nat.le_refl _⟩ (fun t => ?_)
    (fun f => .inl (by rw [fieldDef, hf, fieldDef])) fun f => .inl (by rw [methodDef, hm, methodDef])
  · rw [ht, List.length_append]
    exact Nat.le_succ _
  · refine (typeDef_append_or ht t).imp_right fun heq => ?_
    rw [heq, hd]
    exact .nil

theorem modifyType (h : Composed rs s) {f : TypeDef → TypeDef}
    (hf : s.Made rs (f (s.typeDef t)).rows) : Composed rs (s.modifyType t f) := by
  have hn : s.NoLess (s.modifyType t f) :=
    ⟨Nat.le_of_eq (length_modifyType t f).symm, Nat.le_refl _, Nat.le_refl _⟩
  refine h.step (List.Subset.refl _) hn (fun u => ?_) (fun _ => .inl rfl) fun _ => .inl rfl
  refine (s.typeDef_modifyType_or t f u).imp_right ?_
  rintro ⟨rfl, heq⟩
  exact heq ▸ hf.more (List.Subset.refl _) hn

theorem addField (h : Composed rs s) {d : FieldDef} (hd : d.Composed rs s) :
    Composed rs (s.addFieldDef d).2 := by
  have hn : s.NoLess (s.addFieldDef d).2 := by
    refine ⟨Nat.le_refl _, ?_, Nat.le_refl _⟩
    change _ ≤ (s.fieldDefs ++ [d]).length
    exact List.length_append ▸ Nat.le_succ _
  refine h.step (List.Subset.refl _) hn (fun _ => .inl rfl) (fun f => ?_) fun _ => .inl rfl
  refine (fieldDef_append_or rfl f).imp_right fun heq => ?_
  rw [heq]
  exact hd.more (List.Subset.refl _) hn

theorem modifyField (h : Composed rs s) {k : FieldId} {f : FieldDef → FieldDef}
    (hf : (f (s.fieldDef k)).Composed rs s) : Composed rs (s.modifyField k f) := by
  have hn : s.NoLess (s.modifyField k f) :=
    ⟨Nat.le_refl _, Nat.le_of_eq (length_modifyField k f).symm, Nat.le_refl _⟩
  refine h.step (List.Subset.refl _) hn (fun _ => .inl rfl) (fun i => ?_) fun _ => .inl rfl
  refine (s.fieldDef_modifyField_or k f i).imp_right ?_
  rintro ⟨rfl, heq⟩
  exact heq ▸ hf.more (List.Subset.refl _) hn

theorem addMethod (h : Composed rs s) {d : MethodDef} (hd : d.Composed rs s) :
    Composed rs (s.addMethodDef d).2 := by
  have hn : s.NoLess (s.addMethodDef d).2 := by
    refine ⟨Nat.le_refl _, Nat.le_refl _, ?_⟩
    change _ ≤ (s.methodDefs ++ [d]).length
    exact List.length_append ▸ Nat.le_succ _
  refine h.step (List.Subset.refl _) hn (fun _ => .inl rfl) (fun _ => .inl rfl) fun f => ?_
  refine (methodDef_append_or rfl f).imp_right fun heq => ?_
  rw [heq]
  exact hd.more (List.Subset.refl _) hn

theorem modifyMethod (h : Composed rs s) {k : MethodId} {f : MethodDef → MethodDef}
    (hf : (f (s.methodDef k)).Composed rs s) : Composed rs (s.modifyMethod k f) := by
  have hn : s.NoLess (s.modifyMethod k f) :=
    ⟨Nat.le_refl _, Nat.le_refl _, Nat.le_of_eq (length_modifyMethod k f).symm⟩
  refine h.step (List.Subset.refl _) hn (fun _ => .inl rfl) (fun _ => .inl rfl) fun i => ?_
  refine (s.methodDef_modifyMethod_or k f i).imp_right ?_
  rintro ⟨rfl, heq⟩
  exact heq ▸ hf.more (List.Subset.refl _) hn

end Composed

/-- What the definitions of modules that are built refer to has been made before. -/
theorem Built.composed (h : Built rs s) : Composed rs s := by
  induction h with
  | empty =>
      exact ⟨fun _ => .nil, fun _ => ⟨.nil, rfl, nofun⟩, fun _ => ⟨.nil, rfl, nofun⟩⟩
  | image _ name ih =>
      rw [createImage_eq]
      exact ih.addType rfl rfl rfl rfl
  | type _ i ns name ih => exact ih.addType rfl rfl rfl rfl
  | @innerType rs s _ i ns name outer ih =>
      have hnew : Composed rs { s with typeDefs := s.typeDefs ++
          [{ image := i, ns, name, declaring := some outer : TypeDef }] } := ih.addType rfl rfl rfl rfl
      exact hnew.modifyType (hnew.types outer)
  | looseType _ i ns name ih => exact ih.addType rfl rfl rfl rfl
  | @nested rs s _ _ outer t _ _ hs ih =>
      obtain rfl := of_nest hs
      have hinner : Composed rs (s.modifyType t fun d => { d with declaring := some outer }) :=
        ih.modifyType (ih.types t)
      exact hinner.modifyType (hinner.types outer)
  | field _ t d hd ih =>
      have hnew := ih.addField hd
      exact hnew.modifyType (hnew.types t)
  | looseField _ d hd ih => exact ih.addField hd
  | @attachedField rs s _ _ t f _ ht _ hs ih =>
      obtain ⟨-, rfl⟩ := of_attachField hs
      have hfield : Composed rs (s.modifyField f fun d => { d with declaring := some t }) :=
        ih.modifyField ⟨(ih.fields f).rows, (ih.fields f).kind, by rintro _ ⟨⟩; exact ht⟩
      exact hfield.modifyType (hfield.types t)
  | method _ t d hd ih =>
      have hnew := ih.addMethod hd
      exact hnew.modifyType (hnew.types t)
  | looseMethod _ d hd ih => exact ih.addMethod hd
  | @attachedMethod rs s _ _ t f _ ht _ hs ih =>
      obtain ⟨-, rfl⟩ := of_attachMethod hs
      have hmethod : Composed rs (s.modifyMethod f fun d => { d with declaring := some t }) :=
        ih.modifyMethod ⟨(ih.methods f).rows, (ih.methods f).kind, by rintro _ ⟨⟩; exact ht⟩
      exact hmethod.modifyType (hmethod.types t)
  | changedType _ t _ _ _ _ hr ih => exact ih.modifyType hr
  | @changedField _ s _ k _ hf hr ih =>
      have hsig := congrArg (·.2.1) (hf (s.fieldDef k))
      have hdecl := congrArg (·.2.2) (hf (s.fieldDef k))
      refine ih.modifyField ⟨hr, ?_, fun ht => (ih.fields k).declaring (hdecl.symm.trans ht)⟩
      exact (congrArg CallSig.isMethod hsig).trans (ih.fields k).kind
  | @changedMethod _ s _ k _ hf hr ih =>
      have hsig := congrArg (·.2.1) (hf (s.methodDef k))
      have hdecl := congrArg (·.2.2) (hf (s.methodDef k))
      refine ih.modifyMethod ⟨hr, ?_, fun ht => (ih.methods k).declaring (hdecl.symm.trans ht)⟩
      exact (congrArg CallSig.isField hsig).trans (ih.methods k).kind
  | assemblyRef _ i n ih => exact ih.congr (List.subset_cons_self _ _) rfl rfl rfl
  | moduleRef _ i name ih => exact ih.congr (List.subset_cons_self _ _) rfl rfl rfl
  | typeRef _ i ns name scope _ ih => exact ih.congr (List.subset_cons_self _ _) rfl rfl rfl
  | memberRef _ i name sig parent _ _ ih => exact ih.congr (List.subset_cons_self _ _) rfl rfl rfl
  | typeSpec _ sig _ ih => exact ih.congr (List.subset_cons_self _ _) rfl rfl rfl
  | methodSpec _ method sig _ _ ih => exact ih.congr (List.subset_cons_self _ _) rfl rfl rfl

/-- What is held by the definitions of a module has been made. -/
theorem Composed.occurs (h : Composed rs s) {r : Row} (hr : s.Occurs i r) :
    ∃ xs, r ∈ xs ∧ s.Made rs xs := by
  cases hr with
  | type t _ hr => exact ⟨_, hr, h.types t⟩
  | field t f _ _ hr => exact ⟨_, hr, (h.fields f).rows⟩
  | method t f _ _ hr => exact ⟨_, hr, (h.methods f).rows⟩

/-- In modules that are built, the rows that definitions hold are told apart by their keys. -/
theorem Built.eq_of_same (h : Built rs s) {r r' : Row} (hr : s.Occurs i r) (hr' : s.Occurs i r')
    (hs : r.same r' = true) : r = r' := by
  obtain ⟨xs, hx, hxs⟩ := h.composed.occurs hr
  obtain ⟨ys, hy, hys⟩ := h.composed.occurs hr'
  refine Row.eq_of_same hs fun hv hv' => ?_
  exact h.registered.apart (hxs.known r hx (hv ▸ nofun)) (hys.known r' hy (hv' ▸ nofun)) hv hv'

end Live.Store

/-! ### Regular modules -/

namespace Source

open Live

variable {m : Source} {rs : List Row}

/-- The types that a module that is built refers to are there. -/
theorem closed_of_built (h : Store.Built rs m.store) : m.Closed where
  listed ht := (h.arranged.tops ht).1
  referred ht := by
    obtain ⟨xs, hx, hxs⟩ := h.composed.occurs ht
    exact hxs.there _ hx
  ofField ht := (h.composed.fields _).declaring ht
  ofMethod ht := (h.composed.methods _).declaring ht

/-- A tidy module that is built is regular. -/
theorem Tidy.regular (hm : m.Tidy) (h : Store.Built rs m.store) : m.Regular where
  toTidy := hm
  toClosed := closed_of_built h
  rows hr hr' hs := h.eq_of_same hr hr' hs
  fieldKinds f := (h.composed.fields f).kind
  methodKinds f := (h.composed.methods f).kind

end Source

end CilCatalog
