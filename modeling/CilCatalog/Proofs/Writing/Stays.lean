import CilCatalog.Proofs.Copying.Whole
import CilCatalog.Proofs.Writing.Present
import Mathlib.Logic.Relation

/-!
# What stays of definitions

Writing one definition leaves the others as they are, but for the members that types get.

* `Store.TypeStays`, `Store.MethodStays`: something that a type says stays so, and all that a method says.
* `defining_typeStays`, `making_methodStays`: what leaves them so.
* `typeWithin_stays`: writing a type with its children leaves what is said of types that are not in it.
-/

namespace CilCatalog

open Live

/-- Something that types say which has nothing to do with their members. -/
def MemberFree {β : Type} (said : TypeDef → β) : Prop :=
  ∀ d ns fs ms, said { d with nestedTypes := ns, fields := fs, methods := ms } = said d

namespace Live.Store

variable {s s' s'' : Store} {β : Type} {said : TypeDef → β} {t u : TypeId} {k : MethodId}

/-! ### Types -/

/-- Something that a type says stays so. -/
def TypeStays (said : TypeDef → β) (t : TypeId) (s s' : Store) : Prop :=
  t.index < s.typeDefs.length → t.index < s'.typeDefs.length ∧ said (s'.typeDef t) = said (s.typeDef t)

namespace TypeStays

theorem trans (h : s.TypeStays said t s') (h' : s'.TypeStays said t s'') :
    s.TypeStays said t s'' := by
  intro ht
  obtain ⟨ht', heq⟩ := h ht
  obtain ⟨ht'', heq'⟩ := h' ht'
  exact ⟨ht'', heq'.trans heq⟩

theorem of_append {ds : List TypeDef} (h : s'.typeDefs = s.typeDefs ++ ds) :
    s.TypeStays said t s' := by
  intro ht
  rw [typeDef_append h ht, h, List.length_append]
  exact ⟨Nat.lt_add_right _ ht, rfl⟩

theorem of_eq (h : s'.typeDefs = s.typeDefs) : s.TypeStays said t s' :=
  of_append (h.trans (List.append_nil _).symm)

theorem modifyType {f : TypeDef → TypeDef} (hf : ∀ d, said (f d) = said d) :
    s.TypeStays said t (s.modifyType u f) := by
  intro ht
  refine ⟨(length_modifyType u f).symm ▸ ht, ?_⟩
  rcases s.typeDef_modifyType_or u f t with heq | ⟨-, heq⟩ <;> rw [heq]
  exact hf _

theorem modifyType_of_ne {f : TypeDef → TypeDef} (h : t ≠ u) :
    s.TypeStays said t (s.modifyType u f) := by
  intro ht
  rw [typeDef_modifyType_of_ne h, length_modifyType]
  exact ⟨ht, rfl⟩

end TypeStays

/-! ### Methods -/

/-- All that a method says stays so. -/
def MethodStays (k : MethodId) (s s' : Store) : Prop :=
  k.index < s.methodDefs.length → k.index < s'.methodDefs.length ∧ s'.methodDef k = s.methodDef k

theorem MethodStays.of_append {ds : List MethodDef} (h : s'.methodDefs = s.methodDefs ++ ds) :
    s.MethodStays k s' := by
  intro hk
  rw [methodDef_append h hk, h, List.length_append]
  exact ⟨Nat.lt_add_right _ hk, rfl⟩

theorem MethodStays.of_eq (h : s'.methodDefs = s.methodDefs) : s.MethodStays k s' :=
  MethodStays.of_append (h.trans (List.append_nil _).symm)

end Live.Store

open Live.Store

variable {β : Type} {said : TypeDef → β}

/-! ### Computations -/

/-- Whatever is made, and whatever is changed of fields and methods, types say the same but for their members. -/
theorem defining_typeStays (h : MemberFree said) (t : TypeId) :
    Defining fun w w' => w.store.TypeStays said t w'.store where
  trans h h' := h.trans h'
  rows hs := .of_eq hs.typeDefs
  addType _ _ _ _ := .of_append rfl
  addNestedType w i ns name o := by
    let s : Store := { w.store with typeDefs := w.store.typeDefs ++
      [{ image := i, ns, name, declaring := some o }] }
    have made : w.store.TypeStays said t s := .of_append rfl
    exact made.trans (.modifyType fun d => h d _ d.fields d.methods)
  addField _ _ _ := .modifyType fun d => h d d.nestedTypes _ d.methods
  addMethod _ _ _ := .modifyType fun d => h d d.nestedTypes d.fields _
  note _ _ _ := .of_eq rfl
  noteType _ _ _ := .of_eq rfl
  noteField _ _ _ := .of_eq rfl
  noteMethod _ _ _ := .of_eq rfl
  changeField _ _ _ := .of_eq rfl
  changeMethod _ _ _ := .of_eq rfl
  raiseType _ _ _ := .of_eq rfl
  raiseField _ _ _ := .of_eq rfl
  raiseMethod _ _ _ := .of_eq rfl

theorem memberFree_head : MemberFree TypeDef.head := fun _ _ _ _ => rfl

/-- Types are called what they were called, and are where they were. -/
theorem shaping_head (t : TypeId) :
    Shaping fun w w' => w.store.TypeStays TypeDef.head t w'.store where
  toDefining := defining_typeStays memberFree_head t
  changeType _ _ _ hf := .modifyType hf

/-- Methods say the same, whatever is made. -/
theorem making_methodStays (k : MethodId) : Making fun w w' => w.store.MethodStays k w'.store where
  trans h h' hk := by
    obtain ⟨hk', heq⟩ := h hk
    obtain ⟨hk'', heq'⟩ := h' hk'
    exact ⟨hk'', heq'.trans heq⟩
  rows hs := .of_eq hs.methodDefs
  addType _ _ _ _ := .of_eq rfl
  addNestedType _ _ _ _ _ := .of_eq rfl
  addField _ _ _ := .of_eq rfl
  addMethod _ _ _ := .of_append rfl
  note _ _ _ := .of_eq rfl
  noteType _ _ _ := .of_eq rfl
  noteField _ _ _ := .of_eq rfl
  noteMethod _ _ _ := .of_eq rfl

/-- Entities have been written as far as they had been. -/
theorem making_likewise : Making fun w w' => w.writer.Likewise w'.writer where
  trans h h' := ⟨h'.image.trans h.image, h'.hooks.trans h.hooks,
    fun id => (h'.types id).trans (h.types id), fun id => (h'.fields id).trans (h.fields id),
    fun id => (h'.methods id).trans (h.methods id)⟩
  rows _ := .note _ _ _
  addType _ _ _ _ := .note _ _ _
  addNestedType _ _ _ _ _ := .note _ _ _
  addField _ _ _ := .note _ _ _
  addMethod _ _ _ := .note _ _ _
  note _ _ _ := .note _ _ _
  noteType _ _ _ := .type _ _ _
  noteField _ _ _ := .field _ _ _
  noteMethod _ _ _ := .method _ _ _

/-! ### Types in types -/

namespace Live.Store

variable {s s' : Store} {t u n : TypeId}

/-- A type is another one or is nested in it, at any depth. -/
def Inside (s : Store) : TypeId → TypeId → Prop :=
  Relation.ReflTransGen fun t o => (s.typeDef t).declaring = some o

/-- All types are called what they were called, and are where they were. -/
def HeadsStay (s s' : Store) : Prop := ∀ t, s.TypeStays TypeDef.head t s'

theorem HeadsStay.trans {s'' : Store} (h : s.HeadsStay s') (h' : s'.HeadsStay s'') :
    s.HeadsStay s'' := fun t => (h t).trans (h' t)

theorem HeadsStay.declaring (h : s.HeadsStay s') {o : TypeId} (ht : (s.typeDef t).declaring = some o) :
    (s'.typeDef t).declaring = some o := by
  have := congrArg (·.2.2.2) (h t (type_lt ht)).2
  exact Eq.trans this ht

theorem Inside.stays (h : s.Inside t u) (hs : s.HeadsStay s') : s'.Inside t u :=
  Relation.ReflTransGen.mono (fun _ _ ht => hs.declaring ht) _ _ h

/-- A type is not nested in one that it is around. -/
theorem Tiered.not_inside (h : s.Tiered) (hs : s.HeadsStay s') (hn : n.index < s.typeDefs.length)
    (hu : (s'.typeDef u).declaring = some n) : ¬ s'.Inside n u := by
  obtain ⟨depth, hdepth⟩ := h
  have back : ∀ {t o : TypeId}, t.index < s.typeDefs.length → (s'.typeDef t).declaring = some o →
      (s.typeDef t).declaring = some o := by
    intro t o ht ho
    have := congrArg (·.2.2.2) (hs t ht).2
    exact Eq.trans this.symm ho
  intro hin
  -- all around a type that has been there has been there, and is less deep
  have outward : ∀ {x}, s'.Inside n x → x.index < s.typeDefs.length ∧ depth x ≤ depth n := by
    intro x hx
    induction hx with
    | refl => exact ⟨hn, Nat.le_refl _⟩
    | tail _ ho ih =>
        obtain ⟨hlt, hless⟩ := hdepth (back ih.1 ho)
        exact ⟨hlt, Nat.le_trans (Nat.le_of_lt hless) ih.2⟩
  obtain ⟨hlt, hle⟩ := outward hin
  exact absurd (hdepth (back hlt hu)).2 (Nat.not_lt.2 hle)

end Live.Store

/-! ### Writing types -/

section Types

variable {c : Catalog} {w w' : WriteState} {t n : TypeId} {depth : Nat}

theorem headsStay_of_makes {α : Type} {x : Writing α} {a : α}
    (hx : ∀ t, Makes (fun w w' => w.store.TypeStays TypeDef.head t w'.store) x) (h : Gives x w a w') :
    w.store.HeadsStay w'.store := fun t => (hx t).gives h

theorem headsStay_of_nestTypes {ks : Option (List Token)} {u : Unit}
    (h : Gives (Writing.forPresent ks (Writing.nestTypes c depth n)) w u w') :
    w.store.HeadsStay w'.store := by
  refine headsStay_of_makes (fun t => ?_) h
  have m := shaping_head t
  exact m.forPresent fun ts => m.bind (m.mapM (fun k => m.bind (m.lookUp _ k) fun e =>
    m.typeWithin c depth e _) ts) fun rows => m.bind m.store fun s =>
      m.bind (m.mapM (m.nestedIn s n) rows) fun ns => Locating.modifyStore fun _ => .modifyType fun _ => rfl

variable (c depth) in
/-- What is written with its children leaves what is said of types that are not in it. -/
def Spares (said : TypeDef → β) (t : TypeId) : Prop :=
  ∀ {e w row w'}, Gives (Writing.typeWithin c depth e .withChildren) w row w' →
    (∀ u, row = .typeDef u → ¬ w'.store.Inside t u) → w.store.TypeStays said t w'.store

/-- Types are written one after the other, and none of them is around the one whose numbers stay. -/
theorem Spares.mapM (hs : Spares c depth said t) {ks : List Token} {rows : List Row}
    (h : Gives (ks.mapM fun k => do Writing.typeWithin c depth (← Writing.lookUp c.types k) .withChildren)
      w rows w')
    (hout : ∀ u, .typeDef u ∈ rows → ¬ w'.store.Inside t u) : w.store.TypeStays said t w'.store := by
  induction ks generalizing w rows with
  | nil =>
      obtain ⟨-, rfl⟩ := gives_mapM_nil.1 h
      exact .of_eq rfl
  | cons k ks ih =>
      obtain ⟨row, w₁, rows', hfirst, hrest, rfl⟩ := gives_mapM_cons.1 h
      obtain ⟨e, -, hrow⟩ := gives_bind_lookUp.1 hfirst
      have stay : w₁.store.HeadsStay w'.store := headsStay_of_makes (fun t =>
        have m := shaping_head t
        m.mapM (fun k => m.bind (m.lookUp _ k) fun e => m.typeWithin c depth e _) ks) hrest
      refine (hs hrow fun u hu hin => ?_).trans (ih hrest fun u hu => ?_)
      · exact hout u (hu ▸ List.mem_cons_self) (hin.stays stay)
      · exact hout u (List.mem_cons_of_mem _ hu)

/-- The types nested in a type are put in place, and none of them is around the one whose numbers stay. -/
theorem Spares.nestTypes (hs : Spares c depth said t) (hsaid : MemberFree said) {ks : List Token}
    {x : Unit} (h : Gives (Writing.nestTypes c depth n ks) w x w')
    (hout : ∀ {u}, (w'.store.typeDef u).declaring = some n → ¬ w'.store.Inside t u) :
    w.store.TypeStays said t w'.store := by
  obtain ⟨rows, w₁, hrows, h⟩ := gives_bind.1 h
  rw [gives_bind_store] at h
  obtain ⟨ns, w₂, hns, hlast⟩ := gives_bind.1 h
  obtain ⟨rfl, hin⟩ := gives_mapM_still gives_nestedIn hns
  obtain rfl := gives_modifyStore.1 hlast
  have stay : w₂.store.HeadsStay (w₂.store.modifyType n fun l =>
      { l with nestedTypes := Writing.reordered ns l.nestedTypes }) :=
    fun t => .modifyType fun _ => rfl
  refine (hs.mapM hrows fun u hu hinside => ?_).trans
    (.modifyType fun d => hsaid d _ d.fields d.methods)
  obtain ⟨_, -, heq, hd⟩ := forall₂_mem_left hin hu
  obtain rfl := Row.typeDef.inj heq
  exact hout (stay.declaring hd) (hinside.stays stay)

theorem Spares.forPresent (hs : Spares c depth said t) (hsaid : MemberFree said)
    {ks : Option (List Token)} {x : Unit}
    (h : Gives (Writing.forPresent ks (Writing.nestTypes c depth n)) w x w')
    (hout : ∀ {u}, (w'.store.typeDef u).declaring = some n → ¬ w'.store.Inside t u) :
    w.store.TypeStays said t w'.store := by
  cases ks with
  | none =>
      obtain ⟨-, rfl⟩ := gives_pure.1 h
      exact .of_eq rfl
  | some ks => exact hs.nestTypes hsaid h hout

/-- Writing a type with its children leaves what is said of types that are not in it. -/
theorem typeWithin_spares (hsaid : MemberFree said) (depth : Nat) (t : TypeId) :
    Spares c depth said t := by
  induction depth with
  | zero => exact fun h => absurd h gives_throw
  | succ depth ih =>
      intro e w row w' h hout
      have defining := defining_typeStays hsaid t
      obtain ⟨w₁, hrow, hrest⟩ := Writing.gives_typeWithin h
      refine ((defining.typeRow _).gives hrow).trans ?_
      obtain ⟨-, rfl⟩ | ⟨-, d, n, w₂, -, rfl, honce, hrest⟩ := hrest
      · exact .of_eq rfl
      obtain ⟨hne, -⟩ | ⟨-, w₃, w₄, hnested, hmembers, rfl⟩ := hrest
      · exact absurd rfl hne
      have hne : t ≠ n := by
        rintro rfl
        exact hout t rfl .refl
      have first : w₁.store.TypeStays said t w₂.store := by
        obtain ⟨-, v, hv, rfl⟩ | ⟨-, rfl⟩ := honce
        · have := (defining.defineType c (fun _ _ _ => .modifyType_of_ne hne) d).gives hv
          exact this
        · exact .of_eq rfl
      have last : w₃.store.TypeStays said t w₄.store :=
        (defining.defineMembers c (fun _ _ _ => .modifyType_of_ne hne) d).gives hmembers
      have stay : w₃.store.HeadsStay w₄.store := headsStay_of_makes (fun t =>
        (shaping_head t).defineMembers c (fun _ _ hf => .modifyType hf) d) hmembers
      refine first.trans ((ih.forPresent hsaid hnested fun {u} hu hin => ?_).trans last)
      exact hout n rfl ((hin.stays stay).tail (stay.declaring hu))

end Types

end CilCatalog
