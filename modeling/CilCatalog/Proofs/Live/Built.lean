import CilCatalog.Proofs.Live.Changes
import CilCatalog.Proofs.Live.Rows

/-!
# Modules that are built

Live modules begin with nothing and are built by making things in them and by changing what has been made.  What a module needs for everything in it to have a name, comes from that alone, except that its types must not have types of other modules nested in them.

* `Store.Built`: the stores that are built, with the rows that have been made.
* `Built.arranged`: the lists of modules and types hold what they should.
* `Built.registered`: rows are told apart by their numbers.
* `Built.housed`, `Built.tabled`: every module in a store that is built is as it should be.
-/

namespace CilCatalog.Live

namespace Row

/-- The number of a row that is a value. -/
def serial? : Row → Option Nat
  | .assemblyRef n _ | .moduleRef n _ | .typeRef n _ _ _ | .typeSpec n _ | .memberRef n _ _ _
  | .methodSpec n _ _ => some n
  | .null | .typeDef _ | .fieldDef _ | .methodDef _ => none

variable {r : Row}

/-- A reference has a number. -/
theorem number_of_isReference (h : r.isReference = true) : ∃ n, r.number? = some n := by
  cases r with
  | assemblyRef n _ => exact ⟨n, rfl⟩
  | typeRef n _ _ _ => exact ⟨n, rfl⟩
  | _ => cases h

theorem serial?_of_number? {n : Nat} (h : r.number? = some n) : r.serial? = some n := by
  cases r with
  | assemblyRef | typeRef | typeSpec => exact h
  | _ => cases h

/-- Rows with the same key are one, as long as no two values have the same number. -/
theorem eq_of_same {r' : Row} (h : r.same r' = true)
    (values : ∀ {n}, r.serial? = some n → r'.serial? = some n → r = r') : r = r' := by
  have hkey : r.key? = r'.key? := beq_iff_eq.1 h
  cases r with
  | null => cases r' <;> first | rfl | cases hkey
  | typeDef t =>
      obtain ⟨n⟩ := t
      cases r' <;> cases hkey
      rfl
  | fieldDef f =>
      obtain ⟨n⟩ := f
      cases r' <;> cases hkey
      rfl
  | methodDef f =>
      obtain ⟨n⟩ := f
      cases r' <;> cases hkey
      rfl
  | _ =>
      cases r' <;> cases hkey
      exact values rfl rfl

end Row

/-! ### What has been made -/

namespace Store

variable {s s' : Store} {rs rs' xs ys : List Row}

/-- The values among the rows have been made. -/
def Known (rs xs : List Row) : Prop := ∀ x ∈ xs, x.serial? ≠ none → x ∈ rs

/-- The rows have been made: those that are values are known, and those that are definitions are there. -/
structure Made (rs : List Row) (s : Store) (xs : List Row) : Prop where
  known : Known rs xs
  there : ∀ x ∈ xs, s.There x

theorem Made.subset (h : Made rs s xs) (hs : ys ⊆ xs) : Made rs s ys :=
  ⟨fun x hx => h.known x (hs hx), fun x hx => h.there x (hs hx)⟩

theorem Made.more (h : Made rs s xs) (hrs : rs ⊆ rs') (hn : s.NoLess s') : Made rs' s' xs :=
  ⟨fun x hx hv => hrs (h.known x hx hv), fun x hx => (h.there x hx).more hn⟩

theorem Made.nil : Made rs s [] := ⟨nofun, nofun⟩

/-- A row that is a value and has been made, with what is inside of it. -/
theorem Made.value {x : Row} (h : x ∈ rs) (ht : s.There x) (hxs : Made rs s xs) :
    Made rs s (x :: xs) where
  known y hy hv := (List.mem_cons.1 hy).elim (fun heq => heq ▸ h) fun hy => hxs.known y hy hv
  there y hy := (List.mem_cons.1 hy).elim (fun heq => heq ▸ ht) fun hy => hxs.there y hy

/-- A row that is a definition. -/
theorem Made.definition {x : Row} (h : x.serial? = none) (ht : s.There x) (hxs : Made rs s xs) :
    Made rs s (x :: xs) where
  known y hy hv := by
    rcases List.mem_cons.1 hy with rfl | hy
    · exact absurd h hv
    · exact hxs.known y hy hv
  there y hy := (List.mem_cons.1 hy).elim (fun heq => heq ▸ ht) fun hy => hxs.there y hy

end Store

section Composed

variable {rs rs' : List Row} {s s' : Store}

/-- What a field refers to has been made, and its signature is not that of a method. -/
structure FieldDef.Composed (rs : List Row) (s : Store) (d : FieldDef) : Prop where
  rows : s.Made rs d.rows
  kind : d.signature.isMethod = false
  declaring : ∀ {t}, d.declaring = some t → t.index < s.typeDefs.length

/-- What a method refers to has been made, and its signature is not that of a field. -/
structure MethodDef.Composed (rs : List Row) (s : Store) (d : MethodDef) : Prop where
  rows : s.Made rs d.rows
  kind : d.signature.isField = false
  declaring : ∀ {t}, d.declaring = some t → t.index < s.typeDefs.length

theorem FieldDef.Composed.more {d : FieldDef} (h : d.Composed rs s) (hrs : rs ⊆ rs')
    (hn : s.NoLess s') : d.Composed rs' s' :=
  ⟨h.rows.more hrs hn, h.kind, fun ht => Nat.lt_of_lt_of_le (h.declaring ht) hn.types⟩

theorem MethodDef.Composed.more {d : MethodDef} (h : d.Composed rs s) (hrs : rs ⊆ rs')
    (hn : s.NoLess s') : d.Composed rs' s' :=
  ⟨h.rows.more hrs hn, h.kind, fun ht => Nat.lt_of_lt_of_le (h.declaring ht) hn.types⟩

end Composed

namespace Store

/-- What is made by the operations on live modules, with the rows made so far that are values.  What is given to an operation has been made before. -/
inductive Built : List Row → Store → Prop
  | empty : Built [] empty
  | image {rs s} (h : Built rs s) (name : Bytes) : Built rs (s.createImage name).2
  | type {rs s} (h : Built rs s) (i : ImageId) (ns name : Bytes) :
      Built rs (s.createType i ns name).2
  | innerType {rs s} (h : Built rs s) (i : ImageId) (ns name : Bytes) (outer : TypeId) :
      Built rs (s.createNestedType i ns name outer).2
  | looseType {rs s} (h : Built rs s) (i : ImageId) (ns name : Bytes) :
      Built rs (s.addTypeDef i ns name).2
  | nested {rs s s'} {φ : Type} {outer t : TypeId} (h : Built rs s)
      (ht : t.index < s.typeDefs.length)
      (hs : (s.nest outer t : Except (Failure φ) Store) = .ok s') : Built rs s'
  | field {rs s} (h : Built rs s) (t : TypeId) (d : FieldDef)
      (hd : FieldDef.Composed rs s { d with declaring := some t }) :
      Built rs (s.createField t d).2
  | looseField {rs s} (h : Built rs s) (d : FieldDef) (hd : d.Composed rs s) :
      Built rs (s.addFieldDef d).2
  | attachedField {rs s s'} {φ : Type} {t : TypeId} {f : FieldId} (h : Built rs s)
      (ht : t.index < s.typeDefs.length) (hf : f.index < s.fieldDefs.length)
      (hs : (s.attachField t f : Except (Failure φ) Store) = .ok s') : Built rs s'
  | method {rs s} (h : Built rs s) (t : TypeId) (d : MethodDef)
      (hd : MethodDef.Composed rs s { d with declaring := some t }) :
      Built rs (s.createMethod t d).2
  | looseMethod {rs s} (h : Built rs s) (d : MethodDef) (hd : d.Composed rs s) :
      Built rs (s.addMethodDef d).2
  | attachedMethod {rs s s'} {φ : Type} {t : TypeId} {f : MethodId} (h : Built rs s)
      (ht : t.index < s.typeDefs.length) (hf : f.index < s.methodDefs.length)
      (hs : (s.attachMethod t f : Except (Failure φ) Store) = .ok s') : Built rs s'
  | changedType {rs s} (h : Built rs s) (t : TypeId) {f : TypeDef → TypeDef}
      (hf : ∀ d, (f d).head = d.head) (nested : ∀ d, (f d).nestedTypes = d.nestedTypes)
      (fields : ∀ d, (f d).fields = d.fields) (methods : ∀ d, (f d).methods = d.methods)
      (hr : Made rs s (f (s.typeDef t)).rows) : Built rs (s.modifyType t f)
  | changedField {rs s} (h : Built rs s) (k : FieldId) {f : FieldDef → FieldDef}
      (hf : ∀ d, (f d).head = d.head) (hr : Made rs s (f (s.fieldDef k)).rows) :
      Built rs (s.modifyField k f)
  | changedMethod {rs s} (h : Built rs s) (k : MethodId) {f : MethodDef → MethodDef}
      (hf : ∀ d, (f d).head = d.head) (hr : Made rs s (f (s.methodDef k)).rows) :
      Built rs (s.modifyMethod k f)
  | assemblyRef {rs s} (h : Built rs s) (i : ImageId) (n : AssemblyName) :
      Built ((s.createAssemblyRef i n).1 :: rs) (s.createAssemblyRef i n).2
  | moduleRef {rs s} (h : Built rs s) (i : ImageId) (name : Bytes) :
      Built ((s.createModuleRef i name).1 :: rs) (s.createModuleRef i name).2
  | typeRef {rs s} (h : Built rs s) (i : ImageId) (ns name : Bytes) (scope : Row)
      (hs : Made rs s scope.rows) :
      Built ((s.addTypeRef i ns name scope).1 :: rs) (s.addTypeRef i ns name scope).2
  | memberRef {rs s} (h : Built rs s) (i : ImageId) (name : Bytes) (sig : CallSig) (parent : Row)
      (hs : Made rs s sig.rows) (hp : Made rs s parent.rows) :
      Built ((s.createMemberRef i name sig parent).1 :: rs) (s.createMemberRef i name sig parent).2
  | typeSpec {rs s} (h : Built rs s) (sig : TypeSig) (hs : Made rs s sig.rows) :
      Built ((s.createTypeSpec sig).1 :: rs) (s.createTypeSpec sig).2
  | methodSpec {rs s} (h : Built rs s) (method : Row) (sig : CallSig) (hm : Made rs s method.rows)
      (hs : Made rs s sig.rows) :
      Built ((s.createMethodSpec method sig).1 :: rs) (s.createMethodSpec method sig).2

variable {s s' : Store} {rs xs : List Row} {i j : ImageId} {t u : TypeId}

/-! ### Members and nested types -/

section Attach

variable {φ : Type}

theorem of_nest {outer : TypeId} (hs : (s.nest outer t : Except (Failure φ) Store) = .ok s') :
    s' = (s.modifyType t fun d => { d with declaring := some outer }).modifyType outer
      fun d => { d with nestedTypes := d.nestedTypes ++ [t] } := by
  unfold nest at hs
  split at hs
  · cases hs
  · cases hs
    rfl

/-- A field that gets a declaring type had none. -/
theorem of_attachField {f : FieldId}
    (hs : (s.attachField t f : Except (Failure φ) Store) = .ok s') :
    (s.fieldDef f).declaring = none ∧
      s' = (s.modifyField f fun d => { d with declaring := some t }).modifyType t
        fun d => { d with fields := d.fields ++ [f] } := by
  cases hd : (s.fieldDef f).declaring with
  | none =>
      simp only [attachField, hd] at hs
      cases hs
      exact ⟨rfl, rfl⟩
  | some u =>
      simp only [attachField, hd] at hs
      cases hs

theorem of_attachMethod {f : MethodId}
    (hs : (s.attachMethod t f : Except (Failure φ) Store) = .ok s') :
    (s.methodDef f).declaring = none ∧
      s' = (s.modifyMethod f fun d => { d with declaring := some t }).modifyType t
        fun d => { d with methods := d.methods ++ [f] } := by
  cases hd : (s.methodDef f).declaring with
  | none =>
      simp only [attachMethod, hd] at hs
      cases hs
      exact ⟨rfl, rfl⟩
  | some u =>
      simp only [attachMethod, hd] at hs
      cases hs

end Attach

/-! ### What stays -/

/-- A definition that is changed is the one that is meant, or nothing happens. -/
theorem image_modifyImage_or (s : Store) (j : ImageId) (f : Image → Image) (i : ImageId) :
    (s.modifyImage j f).image i = s.image i ∨
      i = j ∧ (s.modifyImage j f).image i = f (s.image i) := by
  by_cases hij : i = j
  · subst hij
    rcases Nat.lt_or_ge i.index s.images.length with hlt | hge
    · exact .inr ⟨rfl, image_modifyImage hlt⟩
    · exact .inl (by simp [image, modifyImage, hge])
  · have : j.index ≠ i.index := fun e => hij (by cases i; cases j; cases e; rfl)
    exact .inl (by simp [image, modifyImage, this])

theorem typeDef_modifyType_or (s : Store) (t : TypeId) (f : TypeDef → TypeDef) (u : TypeId) :
    (s.modifyType t f).typeDef u = s.typeDef u ∨
      u = t ∧ (s.modifyType t f).typeDef u = f (s.typeDef u) := by
  by_cases hut : u = t
  · subst hut
    rcases Nat.lt_or_ge u.index s.typeDefs.length with hlt | hge
    · exact .inr ⟨rfl, typeDef_modifyType hlt⟩
    · exact .inl (typeDef_modifyType_of_le hge)
  · exact .inl (typeDef_modifyType_of_ne hut)

/-- A module that is looked up is what it was, or the new one. -/
theorem image_or_new {m : Image} (h : s'.images = s.images ++ [m]) (i : ImageId) :
    i.index ≠ s.images.length ∧ s'.image i = s.image i ∨
      i = ⟨s.images.length⟩ ∧ s'.image i = m := by
  rcases Nat.lt_trichotomy i.index s.images.length with hlt | heq | hgt
  · exact .inl ⟨Nat.ne_of_lt hlt, by rw [image, image, h, List.getElem?_append_left hlt]⟩
  · obtain ⟨k⟩ := i
    obtain rfl : k = s.images.length := heq
    exact .inr ⟨rfl, by simp [image, h]⟩
  · refine .inl ⟨Nat.ne_of_gt hgt, ?_⟩
    rw [image, image, List.getElem?_eq_none (Nat.le_of_lt hgt), List.getElem?_eq_none]
    rw [h, List.length_append]
    exact hgt

/-- A new module has its global type. -/
theorem createImage_eq (s : Store) (name : Bytes) : (s.createImage name).2 = { s with
    images := s.images ++ [⟨name, [⟨s.typeDefs.length⟩], [], [], [], []⟩]
    typeDefs := s.typeDefs ++
      [{ image := ⟨s.images.length⟩, ns := [], name := globalTypeName }] } := by
  have modify_new (f : Image → Image) (m : Image) :
      (s.images ++ [m]).modify s.images.length f = s.images ++ [f m] := by
    rw [List.modify_eq_set_getElem?]
    simp
  simp only [createImage, createType, addTypeDef, modifyImage, modify_new, List.nil_append]

theorem fieldDef_modifyField_or (s : Store) (k : FieldId) (f : FieldDef → FieldDef) (i : FieldId) :
    (s.modifyField k f).fieldDef i = s.fieldDef i ∨
      i = k ∧ (s.modifyField k f).fieldDef i = f (s.fieldDef i) := by
  by_cases hik : i = k
  · subst hik
    rcases Nat.lt_or_ge i.index s.fieldDefs.length with hlt | hge
    · exact .inr ⟨rfl, fieldDef_modifyField hlt⟩
    · exact .inl (fieldDef_modifyField_of_le hge)
  · exact .inl (fieldDef_modifyField_of_ne hik)

theorem methodDef_modifyMethod_or (s : Store) (k : MethodId) (f : MethodDef → MethodDef)
    (i : MethodId) : (s.modifyMethod k f).methodDef i = s.methodDef i ∨
      i = k ∧ (s.modifyMethod k f).methodDef i = f (s.methodDef i) := by
  by_cases hik : i = k
  · subst hik
    rcases Nat.lt_or_ge i.index s.methodDefs.length with hlt | hge
    · exact .inr ⟨rfl, methodDef_modifyMethod hlt⟩
    · exact .inl (methodDef_modifyMethod_of_le hge)
  · exact .inl (methodDef_modifyMethod_of_ne hik)

/-- Looking up in a list with one more item finds what was there, or the new one. -/
theorem getD_append_singleton {α : Type} [Inhabited α] (as : List α) (a : α) (n : Nat) :
    ((as ++ [a])[n]?).getD default = (as[n]?).getD default ∨
      ((as ++ [a])[n]?).getD default = a := by
  rcases Nat.lt_trichotomy n as.length with hlt | rfl | hgt
  · exact .inl (by rw [List.getElem?_append_left hlt])
  · exact .inr (by simp)
  · refine .inl ?_
    rw [List.getElem?_eq_none (Nat.le_of_lt hgt), List.getElem?_eq_none]
    rw [List.length_append]
    exact hgt

/-- A type that is looked up is one there has been, or the new one. -/
theorem typeDef_append_or {d : TypeDef} (h : s'.typeDefs = s.typeDefs ++ [d]) (u : TypeId) :
    s'.typeDef u = s.typeDef u ∨ s'.typeDef u = d := by
  rw [typeDef, typeDef, h]
  exact getD_append_singleton _ _ _

theorem fieldDef_append_or {d : FieldDef} (h : s'.fieldDefs = s.fieldDefs ++ [d]) (f : FieldId) :
    s'.fieldDef f = s.fieldDef f ∨ s'.fieldDef f = d := by
  rw [fieldDef, fieldDef, h]
  exact getD_append_singleton _ _ _

theorem methodDef_append_or {d : MethodDef} (h : s'.methodDefs = s.methodDefs ++ [d])
    (f : MethodId) : s'.methodDef f = s.methodDef f ∨ s'.methodDef f = d := by
  rw [methodDef, methodDef, h]
  exact getD_append_singleton _ _ _

/-- Types stay in their modules, and members with their declaring types. -/
structure Retains (s s' : Store) : Prop where
  types : s.typeDefs.length ≤ s'.typeDefs.length
  image : ∀ t : TypeId, t.index < s.typeDefs.length → (s'.typeDef t).image = (s.typeDef t).image
  field : ∀ {f t}, (s.fieldDef f).declaring = some t → (s'.fieldDef f).declaring = some t
  method : ∀ {f t}, (s.methodDef f).declaring = some t → (s'.methodDef f).declaring = some t

theorem Extends.retains (he : s.Extends s') : s.Retains s' :=
  ⟨he.typesLe, fun _ ht => image_extends ht he, he.field_declaring, he.method_declaring⟩

theorem Owns.retains (h : s.Owns i t) (hr : s.Retains s') : s'.Owns i t :=
  ⟨Nat.lt_of_lt_of_le h.1 hr.types, (hr.image t h.1).trans h.2⟩

/-! ### Lists of modules and types -/

/-- Modules have a first type, and only types of their own.  The types that are nested in types are there, and the members of types say so themselves. -/
structure Arranged (s : Store) : Prop where
  global : ∀ {i}, i.index < s.images.length → (s.image i).types ≠ []
  tops : ∀ {i t}, t ∈ (s.image i).types → s.Owns i t
  nested : ∀ {t n}, n ∈ (s.typeDef t).nestedTypes → n.index < s.typeDefs.length
  fields : ∀ {t f}, f ∈ (s.typeDef t).fields → (s.fieldDef f).declaring = some t
  methods : ∀ {t f}, f ∈ (s.typeDef t).methods → (s.methodDef f).declaring = some t

namespace Arranged

/-- What gets into a list belongs there. -/
theorem step (h : s.Arranged) (hr : s.Retains s')
    (global : ∀ {i}, i.index < s'.images.length → (s'.image i).types ≠ [])
    (tops : ∀ {i t}, t ∈ (s'.image i).types → t ∈ (s.image i).types ∨ s'.Owns i t)
    (nested : ∀ {t n}, n ∈ (s'.typeDef t).nestedTypes →
      n ∈ (s.typeDef t).nestedTypes ∨ n.index < s'.typeDefs.length)
    (fields : ∀ {t f}, f ∈ (s'.typeDef t).fields →
      f ∈ (s.typeDef t).fields ∨ (s'.fieldDef f).declaring = some t)
    (methods : ∀ {t f}, f ∈ (s'.typeDef t).methods →
      f ∈ (s.typeDef t).methods ∨ (s'.methodDef f).declaring = some t) : s'.Arranged where
  global := global
  tops ht := (tops ht).elim (fun ht => (h.tops ht).retains hr) id
  nested hn := (nested hn).elim (fun hn => Nat.lt_of_lt_of_le (h.nested hn) hr.types) id
  fields hf := (fields hf).elim (fun hf => hr.field (h.fields hf)) id
  methods hf := (methods hf).elim (fun hf => hr.method (h.methods hf)) id

/-- The lists stay as they are. -/
theorem congr (h : s.Arranged) (hr : s.Retains s') (hi : s'.images = s.images)
    (ht : s'.typeDefs = s.typeDefs) : s'.Arranged := by
  have himage : ∀ i, s'.image i = s.image i := fun i => by rw [image, hi, image]
  have htype : ∀ t, s'.typeDef t = s.typeDef t := fun t => by rw [typeDef, ht, typeDef]
  exact h.step hr (fun hlt => himage _ ▸ h.global (hi ▸ hlt)) (fun hm => .inl (himage _ ▸ hm))
    (fun hm => .inl (htype _ ▸ hm)) (fun hm => .inl (htype _ ▸ hm)) fun hm => .inl (htype _ ▸ hm)

/-- A module may get types of its own. -/
theorem modifyImage (h : s.Arranged) {f : Image → Image} (ht : ∀ m, m.types ⊆ (f m).types)
    (hf : ∀ m, ∀ t ∈ (f m).types, t ∈ m.types ∨ s.Owns j t) : (s.modifyImage j f).Arranged := by
  have he : s.Extends (s.modifyImage j f) := .of_eq rfl rfl rfl
  refine h.step he.retains (fun {i} hlt hnil => ?_) (fun {i t} hm => ?_) .inl .inl .inl
  · rw [length_modifyImage] at hlt
    obtain ⟨t, hm⟩ := List.exists_mem_of_ne_nil _ (h.global hlt)
    rcases s.image_modifyImage_or j f i with heq | ⟨-, heq⟩
    · exact List.ne_nil_of_mem (heq.symm ▸ hm) hnil
    · exact List.ne_nil_of_mem (heq.symm ▸ ht _ hm) hnil
  · rcases s.image_modifyImage_or j f i with heq | ⟨rfl, heq⟩
    · exact .inl (heq ▸ hm)
    · exact hf _ t (heq ▸ hm)

/-- A type may get children that belong to it. -/
theorem modifyType (h : s.Arranged) {f : TypeDef → TypeDef} (hf : ∀ d, (f d).image = d.image)
    (nested : ∀ d, ∀ n ∈ (f d).nestedTypes, n ∈ d.nestedTypes ∨ n.index < s.typeDefs.length)
    (fields : ∀ d, ∀ k ∈ (f d).fields, k ∈ d.fields ∨ (s.fieldDef k).declaring = some t)
    (methods : ∀ d, ∀ k ∈ (f d).methods, k ∈ d.methods ∨ (s.methodDef k).declaring = some t) :
    (s.modifyType t f).Arranged := by
  have hr : s.Retains (s.modifyType t f) := by
    refine ⟨Nat.le_of_eq (length_modifyType t f).symm, fun u _ => ?_, id, id⟩
    rcases s.typeDef_modifyType_or t f u with heq | ⟨-, heq⟩
    · rw [heq]
    · rw [heq, hf]
  refine h.step hr h.global (fun hm => .inl hm) (fun {u n} hm => ?_) (fun {u k} hm => ?_)
    fun {u k} hm => ?_
  · rw [length_modifyType]
    rcases s.typeDef_modifyType_or t f u with heq | ⟨-, heq⟩
    · exact .inl (heq ▸ hm)
    · exact nested _ n (heq ▸ hm)
  · rcases s.typeDef_modifyType_or t f u with heq | ⟨rfl, heq⟩
    · exact .inl (heq ▸ hm)
    · exact fields _ k (heq ▸ hm)
  · rcases s.typeDef_modifyType_or t f u with heq | ⟨rfl, heq⟩
    · exact .inl (heq ▸ hm)
    · exact methods _ k (heq ▸ hm)

/-- One more type, which has no children. -/
theorem addType (h : s.Arranged) {d : TypeDef} (hn : d.nestedTypes = []) (hf : d.fields = [])
    (hm : d.methods = []) : Arranged { s with typeDefs := s.typeDefs ++ [d] } := by
  have hr := (Grows.addType (s := s) (i := default) d).retains
  have types : ∀ u, typeDef { s with typeDefs := s.typeDefs ++ [d] } u = s.typeDef u ∨
      typeDef { s with typeDefs := s.typeDefs ++ [d] } u = d := typeDef_append_or rfl
  refine h.step hr h.global (fun hm => .inl hm) (fun {u n} hmem => ?_) (fun {u k} hmem => ?_)
    fun {u k} hmem => ?_
  · rcases types u with heq | heq
    · exact .inl (heq ▸ hmem)
    · exact absurd (hn ▸ heq ▸ hmem) List.not_mem_nil
  · rcases types u with heq | heq
    · exact .inl (heq ▸ hmem)
    · exact absurd (hf ▸ heq ▸ hmem) List.not_mem_nil
  · rcases types u with heq | heq
    · exact .inl (heq ▸ hmem)
    · exact absurd (hm ▸ heq ▸ hmem) List.not_mem_nil

/-- A new type may be in the list of its module. -/
theorem createType (h : s.Arranged) (i : ImageId) (ns name : Bytes) :
    (s.createType i ns name).2.Arranged := by
  have hnew : (s.addTypeDef i ns name).2.Arranged := h.addType rfl rfl rfl
  refine hnew.modifyImage (fun m => List.subset_append_left m.types _) fun m t ht => ?_
  refine (List.mem_append.1 ht).imp_right fun ht => ?_
  rw [List.mem_singleton.1 ht]
  exact owns_new rfl

/-- A new module has a first type, and only types of its own. -/
theorem addImage (h : s.Arranged) {m : Image} (hi : s'.images = s.images ++ [m])
    (he : s.Extends s') (ht : s'.typeDefs = s.typeDefs) (hne : m.types ≠ [])
    (hm : ∀ t ∈ m.types, s.Owns ⟨s.images.length⟩ t) : s'.Arranged := by
  have same : ∀ u, s'.typeDef u = s.typeDef u := fun u => by rw [typeDef, ht, typeDef]
  refine h.step he.retains (fun {i} hlt => ?_) (fun {i t} hmem => ?_) (fun hn => .inl (same _ ▸ hn))
    (fun hf => .inl (same _ ▸ hf)) fun hf => .inl (same _ ▸ hf)
  · rw [hi, List.length_append] at hlt
    rcases image_or_new hi i with ⟨hne, heq⟩ | ⟨-, heq⟩
    · exact heq ▸ h.global (Nat.lt_of_le_of_ne (Nat.le_of_lt_succ hlt) hne)
    · exact heq ▸ hne
  · rcases image_or_new hi i with ⟨-, heq⟩ | ⟨rfl, heq⟩
    · exact .inl (heq ▸ hmem)
    · exact .inr ((hm t (heq ▸ hmem)).retains he.retains)

/-- A new module has its global type. -/
theorem createImage (h : s.Arranged) (name : Bytes) : (s.createImage name).2.Arranged := by
  rw [createImage_eq]
  refine (h.addType (d := { image := ⟨s.images.length⟩, ns := [], name := globalTypeName })
    rfl rfl rfl).addImage rfl (.of_eq rfl rfl rfl) rfl (List.cons_ne_nil _ _) fun t ht => ?_
  rw [List.mem_singleton.1 ht]
  exact owns_new rfl

theorem createNestedType (h : s.Arranged) (i : ImageId) (ns name : Bytes) (outer : TypeId) :
    (s.createNestedType i ns name outer).2.Arranged := by
  have hnew : Arranged { s with typeDefs := s.typeDefs ++
      [{ image := i, ns, name, declaring := some outer : TypeDef }] } := h.addType rfl rfl rfl
  refine hnew.modifyType (fun _ => rfl) (fun d n hn => ?_) (fun _ _ => .inl) fun _ _ => .inl
  refine (List.mem_append.1 hn).imp_right fun hn => ?_
  rw [List.mem_singleton.1 hn]
  exact (owns_new (i := i) rfl).1

theorem nest {φ : Type} (h : s.Arranged) {outer : TypeId} (ht : t.index < s.typeDefs.length)
    (hs : (s.nest outer t : Except (Failure φ) Store) = .ok s') : s'.Arranged := by
  obtain rfl := of_nest hs
  have hinner : (s.modifyType t fun d => { d with declaring := some outer }).Arranged :=
    h.modifyType (fun _ => rfl) (fun _ _ => .inl) (fun _ _ => .inl) fun _ _ => .inl
  refine hinner.modifyType (fun _ => rfl) (fun d n hn => ?_) (fun _ _ => .inl) fun _ _ => .inl
  refine (List.mem_append.1 hn).imp_right fun hn => ?_
  rw [List.mem_singleton.1 hn, length_modifyType]
  exact ht

/-- A type gets a field that says so itself. -/
theorem listField (h : s.Arranged) {f : FieldId} (hf : (s.fieldDef f).declaring = some t) :
    (s.modifyType t fun d => { d with fields := d.fields ++ [f] }).Arranged := by
  refine h.modifyType (fun _ => rfl) (fun _ _ => .inl) (fun d k hk => ?_) fun _ _ => .inl
  refine (List.mem_append.1 hk).imp_right fun hk => ?_
  rw [List.mem_singleton.1 hk, hf]

theorem listMethod (h : s.Arranged) {f : MethodId} (hf : (s.methodDef f).declaring = some t) :
    (s.modifyType t fun d => { d with methods := d.methods ++ [f] }).Arranged := by
  refine h.modifyType (fun _ => rfl) (fun _ _ => .inl) (fun _ _ => .inl) fun d k hk => ?_
  refine (List.mem_append.1 hk).imp_right fun hk => ?_
  rw [List.mem_singleton.1 hk, hf]

theorem createField (h : s.Arranged) (t : TypeId) (d : FieldDef) :
    (s.createField t d).2.Arranged := by
  have hnew : (s.addFieldDef { d with declaring := some t }).2.Arranged :=
    h.congr (Grows.addFieldDef (i := default) _).retains rfl rfl
  have hdef : (s.createField t d).2.fieldDef ⟨s.fieldDefs.length⟩ = { d with declaring := some t } :=
    fieldDef_new (s := s) rfl
  exact hnew.listField (congrArg FieldDef.declaring hdef)

theorem createMethod (h : s.Arranged) (t : TypeId) (d : MethodDef) :
    (s.createMethod t d).2.Arranged := by
  have hnew : (s.addMethodDef { d with declaring := some t }).2.Arranged :=
    h.congr (Grows.addMethodDef (i := default) _).retains rfl rfl
  have hdef : (s.createMethod t d).2.methodDef ⟨s.methodDefs.length⟩ =
      { d with declaring := some t } := methodDef_new (s := s) rfl
  exact hnew.listMethod (congrArg MethodDef.declaring hdef)

theorem attachField {φ : Type} (h : s.Arranged) {f : FieldId} (hf : f.index < s.fieldDefs.length)
    (hs : (s.attachField t f : Except (Failure φ) Store) = .ok s') : s'.Arranged := by
  obtain ⟨hnone, rfl⟩ := of_attachField hs
  have hr : s.Retains (s.modifyField f fun d => { d with declaring := some t }) := by
    refine ⟨Nat.le_refl _, fun _ _ => rfl, fun {g u} hg => ?_, id⟩
    by_cases hgf : g = f
    · subst hgf
      cases hnone.symm.trans hg
    · rwa [fieldDef_modifyField_of_ne hgf]
  exact (h.congr hr rfl rfl).listField (congrArg FieldDef.declaring (fieldDef_modifyField hf))

theorem attachMethod {φ : Type} (h : s.Arranged) {f : MethodId}
    (hf : f.index < s.methodDefs.length)
    (hs : (s.attachMethod t f : Except (Failure φ) Store) = .ok s') : s'.Arranged := by
  obtain ⟨hnone, rfl⟩ := of_attachMethod hs
  have hr : s.Retains (s.modifyMethod f fun d => { d with declaring := some t }) := by
    refine ⟨Nat.le_refl _, fun _ _ => rfl, id, fun {g u} hg => ?_⟩
    by_cases hgf : g = f
    · subst hgf
      cases hnone.symm.trans hg
    · rwa [methodDef_modifyMethod_of_ne hgf]
  exact (h.congr hr rfl rfl).listMethod (congrArg MethodDef.declaring (methodDef_modifyMethod hf))

/-- A row that is a value changes no lists. -/
theorem addRow (h : s.Arranged) (make : Nat → Row) : (s.addRow make).2.Arranged :=
  h.congr (Grows.addRow (i := default) make).retains rfl rfl

/-- A row may be put into a table. -/
theorem addRowTo (h : s.Arranged) (make : Nat → Row) {f : Image → Image}
    (hf : ∀ m, (f m).types = m.types) : ((s.addRow make).2.modifyImage j f).Arranged :=
  (h.addRow make).modifyImage (fun m => hf m ▸ List.Subset.refl _) fun m _ ht => .inl (hf m ▸ ht)

end Arranged

/-- The lists of modules and types that are built hold what they should. -/
theorem Built.arranged (h : Built rs s) : s.Arranged := by
  induction h with
  | empty => exact ⟨nofun, nofun, nofun, nofun, nofun⟩
  | image _ name ih => exact ih.createImage name
  | type _ i ns name ih => exact ih.createType i ns name
  | innerType _ i ns name outer ih => exact ih.createNestedType i ns name outer
  | looseType _ i ns name ih => exact ih.addType rfl rfl rfl
  | nested _ ht hs ih => exact ih.nest ht hs
  | field _ t d _ ih => exact ih.createField t d
  | looseField _ d _ ih => exact ih.congr (Grows.addFieldDef (i := default) d).retains rfl rfl
  | attachedField _ _ hf hs ih => exact ih.attachField hf hs
  | method _ t d _ ih => exact ih.createMethod t d
  | looseMethod _ d _ ih => exact ih.congr (Grows.addMethodDef (i := default) d).retains rfl rfl
  | attachedMethod _ _ hf hs ih => exact ih.attachMethod hf hs
  | changedType _ t hf nested fields methods _ ih =>
      exact ih.modifyType (fun d => congrArg (·.1) (hf d)) (fun d n hn => .inl (nested d ▸ hn))
        (fun d k hk => .inl (fields d ▸ hk)) fun d k hk => .inl (methods d ▸ hk)
  | changedField _ k hf _ ih => exact ih.congr (Extends.modifyField hf).retains rfl rfl
  | changedMethod _ k hf _ ih => exact ih.congr (Extends.modifyMethod hf).retains rfl rfl
  | assemblyRef _ i n ih => exact ih.addRowTo (.assemblyRef · n) fun _ => rfl
  | moduleRef _ i name ih => exact ih.addRowTo (.moduleRef · name) fun _ => rfl
  | typeRef _ i ns name scope _ ih => exact ih.addRowTo (.typeRef · ns name scope) fun _ => rfl
  | memberRef _ i name sig parent _ _ ih =>
      exact ih.addRowTo (.memberRef · name sig parent) fun _ => rfl
  | typeSpec _ sig _ ih => exact ih.addRow (.typeSpec · sig)
  | methodSpec _ method sig _ _ ih => exact ih.addRow (.methodSpec · method sig)

/-- A module that is built is as it should be if the types nested in its types are its own. -/
theorem Built.housed (h : Built rs s) (hi : i.index < s.images.length)
    (own : ∀ {t}, s.Owns i t → ∀ n ∈ (s.typeDef t).nestedTypes, (s.typeDef n).image = i) :
    s.Housed i where
  image := hi
  global := h.arranged.global hi
  tops _ ht := h.arranged.tops ht
  nested ht n hn := ⟨h.arranged.nested hn, own ht n hn⟩
  fields _ _ hf := h.arranged.fields hf
  methods _ _ hf := h.arranged.methods hf

/-! ### Rows -/

/-- The values that have been made have different numbers, and there are no others in tables and signatures. -/
structure Registered (rs : List Row) (s : Store) : Prop where
  given : ∀ {x n}, x ∈ rs → x.serial? = some n → n < s.nextRow
  apart : ∀ {x y n}, x ∈ rs → y ∈ rs → x.serial? = some n → y.serial? = some n → x = y
  assemblies : ∀ {i r}, r ∈ (s.image i).assemblyRefs → ∃ n a, r = .assemblyRef n a
  types : ∀ {i r}, r ∈ (s.image i).typeRefs → ∃ n ns name scope, r = .typeRef n ns name scope
  references : ∀ i, Known rs (s.references i)
  members : Known rs s.memberRows

namespace Registered

/-- What gets into tables and signatures has been made. -/
theorem step (h : Registered rs s) (hn : s.nextRow ≤ s'.nextRow)
    (ha : ∀ {i r}, r ∈ (s'.image i).assemblyRefs → r ∈ (s.image i).assemblyRefs ∨
      (∃ n a, r = .assemblyRef n a) ∧ Known rs r.rows)
    (ht : ∀ {i r}, r ∈ (s'.image i).typeRefs → r ∈ (s.image i).typeRefs ∨
      (∃ n ns name scope, r = .typeRef n ns name scope) ∧ Known rs r.rows)
    (hm : ∀ x ∈ s'.memberRows, x ∈ s.memberRows ∨ (x.serial? ≠ none → x ∈ rs)) :
    Registered rs s' where
  given hx hnum := Nat.lt_of_lt_of_le (h.given hx hnum) hn
  apart := h.apart
  assemblies hr := (ha hr).elim h.assemblies (·.1)
  types hr := (ht hr).elim h.types (·.1)
  references i x hx := by
    obtain ⟨r, hr | hr, hx⟩ := mem_references.1 hx
    · exact (ha hr).elim (fun hr => h.references i x (mem_references.2 ⟨r, .inl hr, hx⟩)) (·.2 x hx)
    · exact (ht hr).elim (fun hr => h.references i x (mem_references.2 ⟨r, .inr hr, hx⟩)) (·.2 x hx)
  members x hx := (hm x hx).elim (h.members x) id

/-- The modules stay as they are. -/
theorem congr (h : Registered rs s) (hi : s'.images = s.images) (hn : s'.nextRow = s.nextRow)
    (hm : ∀ x ∈ s'.memberRows, x ∈ s.memberRows ∨ (x.serial? ≠ none → x ∈ rs)) :
    Registered rs s' := by
  have himage : ∀ i, s'.image i = s.image i := fun i => by rw [image, hi, image]
  exact h.step (Nat.le_of_eq hn.symm) (fun hr => .inl (himage _ ▸ hr))
    (fun hr => .inl (himage _ ▸ hr)) hm

/-- Members keep their signatures. -/
theorem modifyField (h : Registered rs s) {k : FieldId} {f : FieldDef → FieldDef}
    (hf : ∀ d, (f d).signature = d.signature) : Registered rs (s.modifyField k f) :=
  h.congr rfl rfl fun _ hx => .inl (memberRows_modifyField hf ▸ hx)

theorem modifyMethod (h : Registered rs s) {k : MethodId} {f : MethodDef → MethodDef}
    (hf : ∀ d, (f d).signature = d.signature) : Registered rs (s.modifyMethod k f) :=
  h.congr rfl rfl fun _ hx => .inl (memberRows_modifyMethod hf ▸ hx)

theorem attachField {φ : Type} (h : Registered rs s) {f : FieldId}
    (hs : (s.attachField t f : Except (Failure φ) Store) = .ok s') : Registered rs s' := by
  obtain ⟨-, rfl⟩ := of_attachField hs
  have hmod : Registered rs (s.modifyField f fun d => { d with declaring := some t }) :=
    h.modifyField fun _ => rfl
  exact hmod.congr rfl rfl fun _ => .inl

theorem attachMethod {φ : Type} (h : Registered rs s) {f : MethodId}
    (hs : (s.attachMethod t f : Except (Failure φ) Store) = .ok s') : Registered rs s' := by
  obtain ⟨-, rfl⟩ := of_attachMethod hs
  have hmod : Registered rs (s.modifyMethod f fun d => { d with declaring := some t }) :=
    h.modifyMethod fun _ => rfl
  exact hmod.congr rfl rfl fun _ => .inl

/-- A row that is made has the next number. -/
theorem addRow (h : Registered rs s) (make : Nat → Row)
    (hmake : (make s.nextRow).serial? = some s.nextRow) :
    Registered (make s.nextRow :: rs) (s.addRow make).2 where
  given hx hnum := by
    rcases List.mem_cons.1 hx with rfl | hx
    · cases hmake.symm.trans hnum
      exact Nat.lt_succ_self _
    · exact Nat.lt_succ_of_lt (h.given hx hnum)
  apart hx hy hnx hny := by
    rcases List.mem_cons.1 hx with rfl | hx <;> rcases List.mem_cons.1 hy with rfl | hy
    · rfl
    · cases hmake.symm.trans hnx
      exact absurd (h.given hy hny) (Nat.lt_irrefl _)
    · cases hmake.symm.trans hny
      exact absurd (h.given hx hnx) (Nat.lt_irrefl _)
    · exact h.apart hx hy hnx hny
  assemblies := h.assemblies
  types := h.types
  references i x hx hnum := List.mem_cons_of_mem _ (h.references i x hx hnum)
  members x hx hnum := List.mem_cons_of_mem _ (h.members x hx hnum)

theorem modifyImage (h : Registered rs s) {f : Image → Image}
    (ha : ∀ m, ∀ r ∈ (f m).assemblyRefs, r ∈ m.assemblyRefs ∨
      (∃ n a, r = .assemblyRef n a) ∧ Known rs r.rows)
    (ht : ∀ m, ∀ r ∈ (f m).typeRefs, r ∈ m.typeRefs ∨
      (∃ n ns name scope, r = .typeRef n ns name scope) ∧ Known rs r.rows) :
    Registered rs (s.modifyImage j f) := by
  refine h.step (Nat.le_refl _) (fun {i r} hr => ?_) (fun {i r} hr => ?_) fun _ => .inl
  · rcases s.image_modifyImage_or j f i with heq | ⟨-, heq⟩
    · exact .inl (heq ▸ hr)
    · exact ha _ r (heq ▸ hr)
  · rcases s.image_modifyImage_or j f i with heq | ⟨-, heq⟩
    · exact .inl (heq ▸ hr)
    · exact ht _ r (heq ▸ hr)

/-- A new module has empty tables. -/
theorem createImage (h : Registered rs s) (name : Bytes) :
    Registered rs (s.createImage name).2 := by
  have images := congrArg Store.images (createImage_eq s name)
  refine h.step (Nat.le_refl _) (fun {i r} hr => ?_) (fun {i r} hr => ?_) fun _ => .inl
  · rcases image_or_new images i with ⟨-, heq⟩ | ⟨-, heq⟩
    · exact .inl (heq ▸ hr)
    · exact absurd (heq ▸ hr) List.not_mem_nil
  · rcases image_or_new images i with ⟨-, heq⟩ | ⟨-, heq⟩
    · exact .inl (heq ▸ hr)
    · exact absurd (heq ▸ hr) List.not_mem_nil

end Registered

/-- Rows that are in modules that are built have been made, with different numbers. -/
theorem Built.registered (h : Built rs s) : Registered rs s := by
  induction h with
  | empty => exact ⟨nofun, nofun, nofun, nofun, nofun, nofun⟩
  | image _ name ih => exact ih.createImage name
  | type _ i ns name ih =>
      have hnew : Registered _ (addTypeDef _ i ns name).2 := ih.congr rfl rfl fun _ => .inl
      exact hnew.modifyImage (fun _ _ => .inl) fun _ _ => .inl
  | innerType _ i ns name outer ih => exact ih.congr rfl rfl fun _ => .inl
  | looseType _ i ns name ih => exact ih.congr rfl rfl fun _ => .inl
  | changedType _ t _ _ _ _ _ ih => exact ih.congr rfl rfl fun _ => .inl
  | nested _ _ hs ih =>
      obtain rfl := of_nest hs
      exact ih.congr rfl rfl fun _ => .inl
  | field _ t d hd ih =>
      exact ih.congr rfl rfl fun x hx =>
        (mem_memberRows_addFieldDef (d := { d with declaring := some t }) hx).imp_right
          fun hx => hd.rows.known x (d.signature_rows hx)
  | looseField _ d hd ih =>
      exact ih.congr rfl rfl fun x hx =>
        (mem_memberRows_addFieldDef hx).imp_right fun hx => hd.rows.known x (d.signature_rows hx)
  | attachedField _ _ _ hs ih => exact ih.attachField hs
  | method _ t d hd ih =>
      exact ih.congr rfl rfl fun x hx =>
        (mem_memberRows_addMethodDef (d := { d with declaring := some t }) hx).imp_right
          fun hx => hd.rows.known x (d.signature_rows hx)
  | looseMethod _ d hd ih =>
      exact ih.congr rfl rfl fun x hx =>
        (mem_memberRows_addMethodDef hx).imp_right fun hx => hd.rows.known x (d.signature_rows hx)
  | attachedMethod _ _ _ hs ih => exact ih.attachMethod hs
  | changedField _ k hf _ ih => exact ih.modifyField fun d => congrArg (·.2.1) (hf d)
  | changedMethod _ k hf _ ih => exact ih.modifyMethod fun d => congrArg (·.2.1) (hf d)
  | assemblyRef _ i n ih =>
      refine (ih.addRow (.assemblyRef · n) rfl).modifyImage (fun m r hr => ?_) fun _ _ => .inl
      refine (List.mem_append.1 hr).imp_right fun hr => ?_
      rw [List.mem_singleton.1 hr]
      exact ⟨⟨_, _, rfl⟩, fun x hx _ => List.mem_singleton.1 hx ▸ List.mem_cons_self⟩
  | moduleRef _ i name ih =>
      exact (ih.addRow (.moduleRef · name) rfl).modifyImage (fun _ _ => .inl) fun _ _ => .inl
  | typeRef _ i ns name scope hs ih =>
      refine (ih.addRow (.typeRef · ns name scope) rfl).modifyImage (fun _ _ => .inl)
        fun m r hr => ?_
      refine (List.mem_append.1 hr).imp_right fun hr => ?_
      rw [List.mem_singleton.1 hr]
      refine ⟨⟨_, _, _, _, rfl⟩, fun x hx hnum => ?_⟩
      rcases List.mem_cons.1 hx with rfl | hx
      · exact List.mem_cons_self
      · exact List.mem_cons_of_mem _ (hs.known x hx hnum)
  | memberRef _ i name sig parent _ _ ih =>
      exact (ih.addRow (.memberRef · name sig parent) rfl).modifyImage (fun _ _ => .inl)
        fun _ _ => .inl
  | typeSpec _ sig _ ih => exact ih.addRow (.typeSpec · sig) rfl
  | methodSpec _ method sig _ _ ih => exact ih.addRow (.methodSpec · method sig) rfl

/-- In every module that is built, rows are told apart by their numbers. -/
theorem Built.tabled (h : Built rs s) (i : ImageId) : s.Tabled i := by
  have reg := h.registered
  have placed : ∀ {xs}, Known rs xs → ∀ x ∈ xs, s.Placed i x := by
    intro xs hxs x hx
    refine ⟨fun {n} hn => ?_, fun href y hy hs => ?_⟩
    · have hv := Row.serial?_of_number? hn
      exact reg.given (hxs x hx (hv ▸ nofun)) hv
    · obtain ⟨n, hn⟩ : ∃ n, x.number? = some n := Row.number_of_isReference href
      have hv := Row.serial?_of_number? hn
      have hv' := Row.serial?_of_number? ((Row.number?_of_same hs).symm.trans hn)
      exact reg.apart (hxs x hx (hv ▸ nofun)) (reg.references i y hy (hv' ▸ nofun)) hv hv'
  exact ⟨fun _ => reg.assemblies, fun _ => reg.types, placed (reg.references i), placed reg.members⟩

end Store

end CilCatalog.Live
