import CilCatalog.Proofs.Copying.Retraced
import CilCatalog.Proofs.Live.Composed
import CilCatalog.Proofs.Writing.Writers

/-!
# Copies of modules

What has been read of a module can be written to a new module, a copy, which is then read alike: with the same tokens, and into an equal catalog.

* `Copy.start_faithful`: a writer that has just been made for a new module may begin a copy.
* `copy_reads_alike`: the copy of a tidy module is read as the module.
* `workshop`: a module that is tidy, and is copied.
-/

namespace CilCatalog

open Live

namespace Copy

variable {C : Copy}

/-! ### New modules -/

section New

variable {σ : Store} (name : Bytes)

/-- The only type from the global type of a new module on is that one. -/
theorem typeDef_of_typeIn {t : TypeId} (hb : C.base = σ.typeDefs.length)
    (ht : (σ.createImage name).2.TypeIn C.base t) : (σ.createImage name).2.typeDef t =
      { image := σ.nextImage, ns := [], name := globalTypeName } := by
  obtain ⟨hle, hlt⟩ := ht
  rw [Store.typeDefs_createImage, List.length_append] at hlt
  obtain rfl : t = σ.nextType := by
    obtain ⟨k⟩ := t
    exact congrArg TypeId.mk (Nat.le_antisymm (Nat.le_of_lt_succ hlt) (hb ▸ hle))
  exact Store.typeDef_createImage name

/-- The tables of a new module are empty. -/
theorem tables_createImage (hi : C.image = σ.nextImage) : C.Tables (σ.createImage name).2 := by
  have himage := Store.image_createImage (s := σ) name
  rw [← hi] at himage
  have hrefs : C.refs (σ.createImage name).2 = [] := by
    rw [refs, himage]
    rfl
  constructor
  · rw [himage]
    intro _ hr
    cases hr
  · rw [himage]
    intro _ hr
    cases hr
  · rw [hrefs]
    intro _ hx
    cases hx
  · rw [hrefs]
    intro _ hx
    cases hx

/-- A new module is in order, as it has nothing but its global type. -/
theorem ground_createImage (hi : C.image = σ.nextImage) (hb : C.base = σ.typeDefs.length) :
    C.Ground (σ.createImage name).2 := by
  have htype := Store.typeDef_createImage (s := σ) name
  have himage := Store.image_createImage (s := σ) name
  have hlength : (σ.createImage name).2.typeDefs.length = σ.typeDefs.length + 1 := by
    rw [Store.typeDefs_createImage, List.length_append]
    rfl
  exact {
    image := by
      rw [hi, Store.createImage_eq]
      simp [Store.nextImage]
    layered := fun t ht => by
      rw [typeDef_of_typeIn name hb ht, hi]
      refine ⟨rfl, fun _ ho => ?_⟩
      cases ho
    base := by
      rw [hb, hlength]
      exact Nat.lt_succ_self _
    global := ⟨[], by rw [hi, himage, hb]; rfl⟩
    globalName := by
      rw [hb, show (⟨σ.typeDefs.length⟩ : TypeId) = σ.nextType from rfl, htype]
      exact ⟨rfl, rfl, rfl⟩
    tops := fun t ht => by
      rw [hi, himage] at ht
      rw [List.mem_singleton.1 ht, htype, hb]
      exact ⟨⟨Nat.le_refl _, hlength ▸ Nat.lt_succ_self _⟩, rfl⟩
    nested := fun ht hn => by
      rw [typeDef_of_typeIn name hb ht] at hn
      cases hn
    fields := fun ht hf => by
      rw [typeDef_of_typeIn name hb ht] at hf
      cases hf
    methods := fun ht hf => by
      rw [typeDef_of_typeIn name hb ht] at hf
      cases hf
    tables := tables_createImage name hi }

/-- A writer that has written nothing may begin a copy in a new module. -/
theorem start_faithful (hi : C.image = σ.nextImage) (hb : C.base = σ.typeDefs.length) :
    C.Faithful .null ⟨(σ.createImage name).2, .start C.image ⟨none, none⟩⟩ where
  image := rfl
  hooks := rfl
  ground := ground_createImage name hi hb
  listed := by
    refine ⟨fun ht hn => ?_, fun ht hf => ?_, fun ht hf => ?_⟩
    · rw [typeDef_of_typeIn name hb ht] at hn
      cases hn
    · rw [typeDef_of_typeIn name hb ht] at hf
      cases hf
    · rw [typeDef_of_typeIn name hb ht] at hf
      cases hf
  remembered := ⟨nofun, nofun, nofun, nofun, nofun⟩
  copied := by
    refine ⟨fun _ h => ?_, fun _ h => ?_, nofun, nofun, nofun⟩
    all_goals
      obtain ⟨r, hr, -⟩ := h
      cases hr

end New

/-- The rows that stand for types of the module are types of the copy. -/
theorem rows_eq_map {w : WriteState} {ts : List TypeId} {rows : List Row}
    (h : List.Forall₂ (fun t row => ∃ n, row = .typeDef n ∧ C.TypeWritten w .withChildren t n)
      ts rows) :
    ∃ ns : List TypeId, rows = ns.map .typeDef ∧
      List.Forall₂ (C.TypeWritten w .withChildren) ts ns := by
  induction h with
  | nil => exact ⟨[], rfl, .nil⟩
  | cons hn _ ih =>
      obtain ⟨n, rfl, hn⟩ := hn
      obtain ⟨ns, rfl, hns⟩ := ih
      exact ⟨n :: ns, rfl, .cons hn hns⟩

end Copy

/-- Let a module be built and tidy, and let its types have been read with their children by a reader that had recorded nothing.  If a writer without hooks can write them with their children to a new module, then it has made types of that module, and a reader of these with the same options gives them the same tokens, in the same order, and ends up with an equal catalog. -/
theorem copy_reads_alike {m : Source} {made : List Row} (hb : Store.Built made m.store)
    (ht : m.Tidy) {σ : Store} {name : Bytes}
    {ts : List Token} {ρ : Reader} {rows : List Row} {w : WriteState}
    (hread : Gives (Reading.types m.store ((m.store.image m.image).types.map some) .withChildren)
      (.start m.image m.options) ts ρ)
    (hwrite : Gives (Writing.types ρ.catalog ts .withChildren)
      ⟨(σ.createImage name).2, .start (σ.createImage name).1 ⟨none, none⟩⟩ rows w) :
    ∃ (ns : List TypeId) (ρ' : Reader), rows = ns.map .typeDef ∧
      Gives (Reading.types w.store (ns.map some) .withChildren)
        (.start (σ.createImage name).1 m.options) ts ρ' ∧
      ρ'.catalog = ρ.catalog := by
  have hm := ht.regular hb
  have hs := start_sound m
  have hr := start_recorded m
  have there : ∀ t ∈ (m.store.image m.image).types, t.index < m.store.typeDefs.length :=
    fun _ => hm.listed
  obtain ⟨hs', hr', -, hdone⟩ := types_records hm there hs hr hread
  let C : Copy := ⟨m, hm, ρ, hs', hr', (σ.createImage name).1, σ.typeDefs.length⟩
  obtain ⟨hw, -, -, hrows⟩ := C.types_written (m := 0) (Copy.typeWithin_written _) hdone
    (fun _ _ => Nat.zero_le _) (Copy.start_faithful name rfl rfl) hwrite
  obtain ⟨ns, rfl, hns⟩ := Copy.rows_eq_map hrows
  exact ⟨ns, ρ.onto C.image, rfl, Copy.types_retraces hw there hns hs hr hread (.refl ρ), rfl⟩

/-! ### A module that is copied -/

namespace Workshop

/-- An assembly, and a class that it defines. -/
def library : Row := .assemblyRef 0 ⟨"lib", "1.0.0.0", "neutral", "null"⟩

def object : Row := .typeRef 1 "System" "Object" library

theorem isLeaf_i4 : ElementType.i4.isLeaf = true := rfl

theorem isLeaf_void : ElementType.void.isLeaf = true := rfl

theorem isMethodOrProperty_instance :
    CallingConvention.isMethodOrPropertyRaw CallingConvention.hasThisFlag = true := by decide

theorem isMethodOrProperty_property : CallingConvention.isMethodOrPropertyRaw
    (CallingConvention.property.code ||| CallingConvention.hasThisFlag) = true := by decide

def integer : TypeSig := .leaf .i4 isLeaf_i4

/-- The signature of a method that is called on an instance and takes no arguments. -/
def onInstance (ret : TypeSig) : CallSig :=
  .method CallingConvention.hasThisFlag isMethodOrProperty_instance 0 ret [] []

/-- A constructor of the class, for custom attributes. -/
def constructor : Row := .memberRef 2 ".ctor" (onInstance (.leaf .void isLeaf_void)) object

/-- The property that the method gets. -/
def property : PropertyDef where
  name := "Size"
  signature := .method (CallingConvention.property.code ||| CallingConvention.hasThisFlag)
    isMethodOrProperty_property 0 integer [] []
  getMethod := some ⟨0⟩

/-- A reference to a field that the module defines itself. -/
def size : Row := .memberRef 3 "size" (.field integer) (.typeDef ⟨1⟩)

/-- The method, which reads the field and has a local of the inner class. -/
def getSize : MethodDef where
  name := "get_Size"
  signature := onInstance integer
  attributes := 0x0806
  body := some {
    instructions := [⟨⟨"ldarg.0", 0x02, .inlineNone⟩, .none⟩,
      ⟨⟨"ldfld", 0x7B, .inlineField⟩, .row size⟩, ⟨⟨"ret", 0x2A, .inlineNone⟩, .none⟩]
    locals := [.named false (.typeDef ⟨2⟩)] }

end Workshop

open Workshop in
/-- A class with another inside, a field, and a property whose method refers to the field by name and has a local of the inner class. -/
def workshop : Source where
  store := {
    images := [⟨"m", [⟨0⟩, ⟨1⟩], [library], [], [object], [constructor, size]⟩]
    typeDefs := [
      { image := ⟨0⟩, ns := [], name := globalTypeName },
      { image := ⟨0⟩, ns := "N", name := "Shop", baseType := object,
        customAttributes := [⟨constructor, [0x01, 0x00]⟩], nestedTypes := [⟨2⟩], fields := [⟨0⟩],
        methods := [⟨0⟩], properties := [property] },
      { image := ⟨0⟩, ns := [], name := "Bench", declaring := some ⟨1⟩, baseType := object }]
    fieldDefs := [{ name := "size", signature := .field integer, declaring := some ⟨1⟩ }]
    methodDefs := [{ getSize with declaring := some ⟨1⟩ }]
    nextRow := 4 }
  image := ⟨0⟩
  options := .default

namespace Workshop

/-- The rows in the definitions of the module. -/
def rows : List Row := [library, object, constructor, size, .typeDef ⟨1⟩, .typeDef ⟨2⟩]

theorem mem_rows {r : Row} (h : workshop.store.Occurs workshop.image r) : r ∈ rows := by
  cases h with
  | type t _ hr =>
      obtain ⟨_ | _ | _ | n⟩ := t
      · cases hr
      · have held : [object, library, constructor, object, library] ⊆ rows := by simp [rows]
        exact held hr
      · have held : [object, library] ⊆ rows := by simp [rows]
        exact held hr
      · cases hr
  | field t f _ _ hr =>
      obtain ⟨_ | n⟩ := f
      · cases hr
      · cases hr
  | method t f _ _ hr =>
      obtain ⟨_ | n⟩ := f
      · have held : [size, .typeDef ⟨1⟩, .typeDef ⟨2⟩] ⊆ rows := by simp [rows]
        exact held hr
      · cases hr

theorem lt_of_near {t : TypeId} (h : workshop.Near t) : t.index < 3 := by
  induction h with
  | own h => exact h.1
  | @around t o _ ho _ =>
      obtain ⟨_ | _ | _ | n⟩ := t
      · cases ho
      · cases ho
      · cases ho
        decide
      · cases ho

/-- The types of the module. -/
def types : List TypeId := [⟨0⟩, ⟨1⟩, ⟨2⟩]

theorem mem_types {t : TypeId} (h : t.index < 3) : t ∈ types := by
  obtain ⟨_ | _ | _ | n⟩ := t
  · simp [types]
  · simp [types]
  · simp [types]
  · exact absurd h (by simp)

theorem tidy : workshop.Tidy where
  rooted {t} ht := by
    have all : ∀ t ∈ types, (workshop.store.typeDef (workshop.store.outermost t)).declaring = none := by
      decide
    exact all t (mem_types ht.1)
  nested {t} ht n := by
    have all : ∀ t ∈ types, ∀ n ∈ types, n ∈ (workshop.store.typeDef t).nestedTypes ↔
        (workshop.store.typeDef n).declaring = some t := by decide
    have inside : ∀ t ∈ types, ∀ n ∈ (workshop.store.typeDef t).nestedTypes, n.index < 3 := by decide
    rcases Nat.lt_or_ge n.index 3 with hlt | hge
    · exact all t (mem_types ht.1) n (mem_types hlt)
    · refine iff_of_false (fun hn => Nat.not_lt.2 hge (inside t (mem_types ht.1) n hn)) ?_
      rw [Store.typeDef_of_le (s := workshop.store) hge]
      exact nofun
  fields {t} ht f := by
    have all : ∀ t ∈ types, ⟨0⟩ ∈ (workshop.store.typeDef t).fields ↔
        (workshop.store.fieldDef ⟨0⟩).declaring = some t := by decide
    have only : ∀ t ∈ types, ∀ f ∈ (workshop.store.typeDef t).fields, f = ⟨0⟩ := by decide
    obtain ⟨_ | n⟩ := f
    · exact all t (mem_types ht.1)
    · exact iff_of_false (fun hf => nomatch only t (mem_types ht.1) _ hf) nofun
  methods {t} ht f := by
    have all : ∀ t ∈ types, ⟨0⟩ ∈ (workshop.store.typeDef t).methods ↔
        (workshop.store.methodDef ⟨0⟩).declaring = some t := by decide
    have only : ∀ t ∈ types, ∀ f ∈ (workshop.store.typeDef t).methods, f = ⟨0⟩ := by decide
    obtain ⟨_ | n⟩ := f
    · exact all t (mem_types ht.1)
    · exact iff_of_false (fun hf => nomatch only t (mem_types ht.1) _ hf) nofun
  distinct {t u} ht hu h := List.inj_on_of_nodup_map
    (show (types.map (Reading.definitionIdentity workshop.store)).Nodup by decide)
    (mem_types (lt_of_near ht)) (mem_types (lt_of_near hu)) h
  members {n name c t} h _ := by
    obtain heq : Row.memberRef n name c (.typeDef t) = size := by
      simpa [rows, library, object, constructor, size] using mem_rows h
    cases heq
    exact .inl ⟨⟨0⟩, by decide, rfl, by decide +kernel⟩
  assemblies {n a} h := by
    obtain heq : Row.assemblyRef n a = library := by
      simpa [rows, library, object, constructor, size] using mem_rows h
    cases heq
    exact ⟨⟨by decide, by decide⟩, ⟨by decide, by decide⟩, ⟨by decide, by decide⟩,
      ⟨by decide, by decide⟩⟩

/-- The rows that are values, the last first. -/
def made : List Row := [size, constructor, object, library]

theorem made_object {s : Store} {xs : List Row} (h : s.Made made xs) :
    s.Made made (object :: library :: xs) :=
  .value (.tail _ (.tail _ (.head _))) trivial
    (.value (.tail _ (.tail _ (.tail _ (.head _)))) trivial h)

theorem built : Store.Built made workshop.store := by
  have types : Store.Built [] _ :=
    ((Store.Built.empty.image "m").type ⟨0⟩ "N" "Shop").innerType ⟨0⟩ [] "Bench" ⟨1⟩
  have scope : Store.Built [object, library] _ :=
    (types.assemblyRef ⟨0⟩ ⟨"lib", "1.0.0.0", "neutral", "null"⟩).typeRef ⟨0⟩ "System" "Object"
      library (.value (.head _) trivial .nil)
  have references : Store.Built made _ :=
    (scope.memberRef ⟨0⟩ ".ctor" (onInstance (.leaf .void isLeaf_void)) object .nil
      (.value (.head _) trivial (.value (.tail _ (.head _)) trivial .nil))).memberRef ⟨0⟩ "size"
        (.field integer) (.typeDef ⟨1⟩) .nil (.definition rfl (show 1 < 3 by decide) .nil)
  have members : Store.Built made _ :=
    (references.field ⟨1⟩ { name := "size", signature := .field integer }
      ⟨.nil, rfl, by rintro _ ⟨⟩; exact (show 1 < 3 by decide)⟩).method ⟨1⟩ getSize
      ⟨.value (.head _) trivial (.definition rfl (show 1 < 3 by decide)
        (.definition rfl (show 2 < 3 by decide) .nil)), rfl,
        by rintro _ ⟨⟩; exact (show 1 < 3 by decide)⟩
  have shop : Store.Built made _ :=
    members.changedType ⟨1⟩ (f := fun d => { d with
        baseType := object, customAttributes := [⟨constructor, [0x01, 0x00]⟩]
        properties := [property] })
      (fun _ => rfl) (fun _ => rfl) (fun _ => rfl) (fun _ => rfl)
      (made_object (.value (.tail _ (.head _)) trivial (made_object .nil)))
  exact shop.changedType ⟨2⟩ (f := fun d => { d with baseType := object })
    (fun _ => rfl) (fun _ => rfl) (fun _ => rfl) (fun _ => rfl) (made_object .nil)

end Workshop

/-- The module and its copy are in one store. -/
theorem copy_reads_alike_workshop : ∃ (ts : List Token) (ρ ρ' : Reader) (ns : List TypeId)
      (w : WriteState),
    Store.Built Workshop.made workshop.store ∧ workshop.Tidy ∧
    Gives (Reading.types workshop.store
      ((workshop.store.image workshop.image).types.map some) .withChildren)
      (.start workshop.image workshop.options) ts ρ ∧
    Gives (Writing.types ρ.catalog ts .withChildren)
      ⟨(workshop.store.createImage "copy").2,
        .start (workshop.store.createImage "copy").1 ⟨none, none⟩⟩ (ns.map .typeDef) w ∧
    Gives (Reading.types w.store (ns.map some) .withChildren)
      (.start (workshop.store.createImage "copy").1 workshop.options) ts ρ' ∧
    ρ'.catalog = ρ.catalog ∧ ρ.catalog.types.size = 4 := by
  have run : (match Reading.types workshop.store
      ((workshop.store.image workshop.image).types.map some) .withChildren
      (.start workshop.image workshop.options) with
    | (.ok ts, ρ) => (Writing.types ρ.catalog ts .withChildren
        ⟨(workshop.store.createImage "copy").2,
          .start (workshop.store.createImage "copy").1 ⟨none, none⟩⟩).1.isOk &&
        ρ.catalog.types.size == 4
    | _ => false) = true := by decide +kernel
  cases hread : Reading.types workshop.store
      ((workshop.store.image workshop.image).types.map some) .withChildren
      (.start workshop.image workshop.options) with
  | mk r ρ =>
      rw [hread] at run
      cases r with
      | error e => cases run
      | ok ts =>
          obtain ⟨hok, hsize⟩ := (Bool.and_eq_true _ _).mp run
          cases hwrite : Writing.types ρ.catalog ts .withChildren
              ⟨(workshop.store.createImage "copy").2,
                .start (workshop.store.createImage "copy").1 ⟨none, none⟩⟩ with
          | mk r w =>
              rw [hwrite] at hok
              cases r with
              | error e => cases hok
              | ok rows =>
                  obtain ⟨ns, ρ', rfl, hcopy, hcatalog⟩ :=
                    copy_reads_alike Workshop.built Workshop.tidy hread hwrite
                  exact ⟨ts, ρ, ρ', ns, w, Workshop.built, Workshop.tidy, hread, hwrite, hcopy,
                    hcatalog, beq_iff_eq.1 hsize⟩

end CilCatalog
