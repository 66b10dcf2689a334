import CilCatalog.Proofs.Ledger
import CilCatalog.Proofs.Live.Rows
import CilCatalog.Proofs.Live.Store
import CilCatalog.Reading.Reference

/-!
# Modules that are read

A module is read with options, which together are a `Source`.

* `definitionIdentity_nested`: the identity of a nested type comes from that of the type around it.
* `Source.Tidy`: the lists of the module's types are what their members say, its types differ by name, its member references find what they name, and its assembly references have plain names.
* `Source.Closed`: the types that are referred to are there.
* `Source.Regular`: a tidy and closed module, with rows and signatures as they come from building it.
-/

namespace CilCatalog

open Live

/-- A module that is read, with the options to read it with. -/
structure Source where
  store : Store
  image : ImageId
  options : Options

namespace Source

variable (m : Source)

/-- The rows are held by definitions of the module. -/
def Has (rs : List Row) : Prop := ∀ r ∈ rs, m.store.Occurs m.image r

variable {m} {rs rs' : List Row}

theorem has_append : m.Has (rs ++ rs') ↔ m.Has rs ∧ m.Has rs' := by
  simp only [Has, List.mem_append]
  constructor
  · exact fun h => ⟨fun r hr => h r (.inl hr), fun r hr => h r (.inr hr)⟩
  · rintro ⟨h, h'⟩ r (hr | hr)
    · exact h r hr
    · exact h' r hr

theorem has_cons {r : Row} : m.Has (r :: rs) ↔ m.store.Occurs m.image r ∧ m.Has rs := by
  simp [Has]

theorem has_flatMap {α : Type} {as : List α} {f : α → List Row} :
    m.Has (as.flatMap f) ↔ ∀ a ∈ as, m.Has (f a) := by
  simp only [Has, List.mem_flatMap]
  constructor
  · exact fun h a ha r hr => h r ⟨a, ha, hr⟩
  · rintro h r ⟨a, ha, hr⟩
    exact h a ha r hr

theorem has_type {t : TypeId} (ht : (m.store.typeDef t).image = m.image) :
    m.Has (m.store.typeDef t).rows :=
  fun _ hr => .type t ht hr

theorem has_field {t : TypeId} {f : FieldId} (ht : (m.store.typeDef t).image = m.image)
    (hf : (m.store.fieldDef f).declaring = some t) : m.Has (m.store.fieldDef f).rows :=
  fun _ hr => .field t f ht hf hr

theorem has_method {t : TypeId} {f : MethodId} (ht : (m.store.typeDef t).image = m.image)
    (hf : (m.store.methodDef f).declaring = some t) : m.Has (m.store.methodDef f).rows :=
  fun _ hr => .method t f ht hf hr

end Source

/-! ### Types around a type -/

namespace Live.Store

variable {s : Store} {t o : TypeId}

/-- The outermost type around a type is not nested. -/
def Rooted (s : Store) (t : TypeId) : Prop := (s.typeDef (s.outermost t)).declaring = none

theorem enclosing_of_top (h : (s.typeDef t).declaring = none) : s.enclosing t = [] := by
  unfold enclosing
  cases s.typeDefs.length with
  | zero => rfl
  | succ n =>
      rw [enclosingWithin, h]

theorem rooted_of_top (h : (s.typeDef t).declaring = none) : s.Rooted t := by
  rw [Rooted, outermost, enclosing_of_top h]
  exact h

/-- Looking further out than to the outermost type finds nothing more. -/
theorem enclosingWithin_succ {n : Nat}
    (h : (s.typeDef ((s.enclosingWithin n t).getLastD t)).declaring = none) :
    s.enclosingWithin (n + 1) t = s.enclosingWithin n t := by
  induction n generalizing t with
  | zero =>
      have ht : (s.typeDef t).declaring = none := h
      simp only [enclosingWithin, ht]
  | succ n ih =>
      cases ho : (s.typeDef t).declaring with
      | none => rw [enclosingWithin, enclosingWithin, ho]
      | some o =>
          rw [enclosingWithin, ho] at h
          have hlast : (o :: s.enclosingWithin n o).getLastD t = (s.enclosingWithin n o).getLastD o := by
            cases s.enclosingWithin n o <;> rfl
          rw [enclosingWithin, ho]
          dsimp only
          rw [ih (by rw [← hlast]; exact h)]
          rw [enclosingWithin, ho]

/-- Of a type that is rooted, the one around it comes first, and then those around that. -/
theorem enclosing_nested (hr : s.Rooted t) (ho : (s.typeDef t).declaring = some o) :
    s.enclosing t = o :: s.enclosing o ∧ s.Rooted o := by
  have hlen : ∃ n, s.typeDefs.length = n + 1 := by
    cases hl : s.typeDefs.length with
    | zero =>
        have : s.typeDefs = [] := List.length_eq_zero_iff.1 hl
        rw [typeDef, this] at ho
        cases ho
    | succ n => exact ⟨n, rfl⟩
  obtain ⟨n, hn⟩ := hlen
  have hhead : s.enclosing t = o :: s.enclosingWithin n o := by
    rw [enclosing, hn, enclosingWithin, ho]
  have hlast : (o :: s.enclosingWithin n o).getLastD t = (s.enclosingWithin n o).getLastD o := by
    cases s.enclosingWithin n o <;> rfl
  rw [Rooted, outermost, hhead, hlast] at hr
  have hsame : s.enclosing o = s.enclosingWithin n o := by
    rw [enclosing, hn]
    exact enclosingWithin_succ hr
  refine ⟨by rw [hhead, hsame], ?_⟩
  rw [Rooted, outermost, hsame]
  exact hr

theorem outermost_nested (hr : s.Rooted t) (ho : (s.typeDef t).declaring = some o) :
    s.outermost t = s.outermost o := by
  rw [outermost, outermost, (enclosing_nested hr ho).1]
  cases s.enclosing o <;> rfl

end Live.Store

section Identity

variable {s : Store} {t o : TypeId}

theorem namesAround_ne (ns : List Bytes) : Reading.namesAround ns ≠ some [] := by
  cases ns with
  | nil => exact nofun
  | cons n ns => exact nofun

theorem namesAround_getD (ns : List Bytes) : (Reading.namesAround ns).getD [] = ns := by
  cases ns <;> rfl

theorem definitionIdentity_normal (s : Store) (t : TypeId) :
    Normal (Reading.definitionIdentity s t) := namesAround_ne _

theorem referenceIdentity_normal (o : Options) (a : AssemblyName) (ns name : Bytes) (scope : Row) :
    Normal (Reading.referenceIdentity o a ns name scope) := namesAround_ne _

/-- The identity of a type that is not nested. -/
theorem definitionIdentity_top (h : (s.typeDef t).declaring = none) :
    Reading.definitionIdentity s t = ⟨(s.typeDef t).name, (s.typeDef t).ns, none, none⟩ := by
  rw [Reading.definitionIdentity, Store.outermost, Store.enclosing_of_top h]
  rfl

/-- The identity of a nested type, by that of the type around it. -/
theorem definitionIdentity_nested (hr : s.Rooted t) (ho : (s.typeDef t).declaring = some o) :
    Reading.definitionIdentity s t = ⟨(s.typeDef t).name, (Reading.definitionIdentity s o).ns, none,
      some ((s.typeDef o).name :: (Reading.definitionIdentity s o).enclosing.getD [])⟩ := by
  rw [Reading.definitionIdentity, Store.outermost_nested hr ho, (Store.enclosing_nested hr ho).1]
  simp only [Reading.definitionIdentity, namesAround_getD]
  rfl

end Identity

/-! ### Regular modules -/

/-- No comma, and no space at either end. -/
def Live.AssemblyName.IsPlainPart (b : Bytes) : Prop := octet ',' ∉ b ∧ Bytes.trim b = b

/-- The parts are such that the display name tells them apart. -/
structure Live.AssemblyName.IsPlain (a : AssemblyName) : Prop where
  name : IsPlainPart a.name
  version : IsPlainPart a.version
  culture : IsPlainPart a.culture
  publicKeyToken : IsPlainPart a.publicKeyToken

namespace Source

/-- A type of the module, or one around such a type. -/
inductive Near (m : Source) : TypeId → Prop where
  | own {t : TypeId} (h : m.store.Owns m.image t) : Near m t
  | around {t o : TypeId} (h : Near m t) (ho : (m.store.typeDef t).declaring = some o) : Near m o

/-- The lists of the module's types are what their members say, its types differ by name, its member references find what they name, and its assembly references have plain names. -/
structure Tidy (m : Source) : Prop where
  /-- Going out from a type ends at one that is not nested. -/
  rooted : ∀ {t}, m.store.Owns m.image t → m.store.Rooted t
  nested : ∀ {t}, m.store.Owns m.image t →
    ∀ n, n ∈ (m.store.typeDef t).nestedTypes ↔ (m.store.typeDef n).declaring = some t
  fields : ∀ {t}, m.store.Owns m.image t →
    ∀ f, f ∈ (m.store.typeDef t).fields ↔ (m.store.fieldDef f).declaring = some t
  methods : ∀ {t}, m.store.Owns m.image t →
    ∀ f, f ∈ (m.store.typeDef t).methods ↔ (m.store.methodDef f).declaring = some t
  /-- Types with the same identity are one. -/
  distinct : ∀ {t u}, m.Near t → m.Near u →
    Reading.definitionIdentity m.store t = Reading.definitionIdentity m.store u → t = u
  /-- A reference to a member of one of the module's types finds it. -/
  members : ∀ {n name c t}, m.store.Occurs m.image (.memberRef n name c (.typeDef t)) →
    m.store.Owns m.image t →
    (∃ f ∈ (m.store.typeDef t).fields,
      (m.store.fieldDef f).name = name ∧ (m.store.fieldDef f).signature.sigEq c = true) ∨
    ∃ f ∈ (m.store.typeDef t).methods,
      (m.store.methodDef f).name = name ∧ (m.store.methodDef f).signature.sigEq c = true
  assemblies : ∀ {n a}, m.store.Occurs m.image (.assemblyRef n a) → a.IsPlain

/-- The types that the module or one of its definitions refers to are there. -/
structure Closed (m : Source) : Prop where
  listed : ∀ {t}, t ∈ (m.store.image m.image).types → t.index < m.store.typeDefs.length
  referred : ∀ {t}, m.store.Occurs m.image (.typeDef t) → t.index < m.store.typeDefs.length
  ofField : ∀ {f t}, (m.store.fieldDef f).declaring = some t → t.index < m.store.typeDefs.length
  ofMethod : ∀ {f t}, (m.store.methodDef f).declaring = some t → t.index < m.store.typeDefs.length

/-- A tidy and closed module, in which rows are told apart by their keys and members have signatures of their kind. -/
structure Regular (m : Source) : Prop extends m.Tidy, m.Closed where
  rows : ∀ {r r'}, m.store.Occurs m.image r → m.store.Occurs m.image r' → r.same r' = true → r = r'
  fieldKinds : ∀ f, (m.store.fieldDef f).signature.isMethod = false
  methodKinds : ∀ f, (m.store.methodDef f).signature.isField = false

theorem Regular.rooted_near {m : Source} (h : m.Regular) {t : TypeId} (ht : m.Near t) :
    m.store.Rooted t := by
  induction ht with
  | own hi => exact h.rooted hi
  | around _ ho ih => exact (Store.enclosing_nested ih ho).2

/-- The types that are nested in a type of the module are there. -/
theorem Tidy.nested_there {m : Source} (h : m.Tidy) {t n : TypeId} (ht : m.store.Owns m.image t)
    (hn : n ∈ (m.store.typeDef t).nestedTypes) : n.index < m.store.typeDefs.length := by
  refine Nat.lt_of_not_le fun hle => ?_
  have hd := (h.nested ht n).1 hn
  rw [Store.typeDef_of_le hle] at hd
  cases hd

end Source

end CilCatalog
