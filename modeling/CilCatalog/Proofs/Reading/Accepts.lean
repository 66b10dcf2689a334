import CilCatalog.Proofs.Live.Nameable
import CilCatalog.Proofs.Reading.Arises

/-!
# What is read without fail

A reader of indices refuses what has names throughout in no case but one: there are no more indices.

* `Accepts`: a computation of a sound reader fails only if a map of entities is full.
* `Accepts.typeSigTree`: signatures that are readable are read.
* `Accepts.fieldToken`, `Accepts.methodToken`: members with names are read.
-/

namespace CilCatalog

open Live

/-! ### Members of types -/

theorem Live.Row.Readable.isType {s : Store} {i : ImageId} {r : Row} (h : r.Readable s i) :
    r.isType = true := by
  cases r with
  | typeDef | typeRef | typeSpec => rfl
  | _ => cases (h : s.Nameable i _)

theorem Live.CallSig.Readable.legible {s : Store} {i : ImageId} {c : CallSig} (h : c.Readable s i) :
    c.Legible s i := ⟨c, h, fun _ => rfl⟩

section Referred

variable (s : Store) {name : Bytes} {sig : CallSig} {parent : Row}

/-- A field that a type is said to have, is read by its identity. -/
theorem referredField_eq (hs : sig.isField = true) (hp : parent.isType = true) :
    Reading.referredField s name sig parent =
      (Reading.memberIdentity s name parent sig >>= Reading.fieldReference) := by
  cases sig with
  | field =>
      cases parent with
      | typeDef | typeRef | typeSpec => rfl
      | _ => cases hp
  | _ => cases hs

/-- A method that a type is said to have, is read by its identity. -/
theorem referredMethod_eq (hs : sig.isMethod = true) (hp : parent.isType = true) :
    Reading.referredMethod s name sig parent =
      (Reading.memberIdentity s name parent sig >>= Reading.methodReference) := by
  have hmember : sig.ofMethodMember = (.ok true : Except (Failure ReadFault) Bool) := by
    cases sig with
    | method => simp [CallSig.ofMethodMember, CallSig.isNull, hs]
    | _ => cases hs
  rw [Reading.referredMethod, hmember]
  cases parent with
  | typeDef | typeRef | typeSpec => rfl
  | _ => cases hp

end Referred

/-! ### Registrations that fail -/

section Register

variable {named : Bool} {ι δ : Type} [Identity ι] {l : Ledger ι} {m : TokenMap named (Entity ι δ)}
  {fresh : (Token → Bool) → ι → Except RegistryFault Token}

/-- There is an index for one more entity, unless the map is full. -/
theorem TokenMap.exists_add {α : Type} (m : TokenMap false α) (a : α) (h : m.size ≠ 0x80000000) :
    ∃ m', m.add (.index (Int32.ofNat m.size)) a = .ok m' := by
  have room : m.size ≤ 0x80000000 := by
    have := m.wellKeyed.1
    rwa [List.length_map] at this
  have hlt : m.size < 0x80000000 := Nat.lt_of_le_of_ne room h
  have keyed : WellKeyed false (m.keys ++ [.index (Int32.ofNat m.size)]) := by
    refine wellKeyed_append_index m.wellKeyed ?_
    rw [Int32.toInt_ofNat_of_lt hlt, TokenMap.keys, List.length_map]
    rfl
  obtain ⟨m', ha, -⟩ := add_of_wellKeyed a keyed
  exact ⟨m', ha⟩

/-- A reference is registered under an index, as long as there is one. -/
theorem full_of_registerIn_error (indexed : named = false) {id : ι} {f : RegistryFault}
    (hl : ∀ r, l.find? id = some r → .reference ≤ r.level)
    (h : Registry.registerIn fresh l m (.reference id) .reference = .error f) :
    m.size = 0x80000000 := by
  subst indexed
  by_contra hfull
  cases hr : l.find? id with
  | some r => cases (registerIn_known hr (hl r hr)).symm.trans h
  | none =>
      obtain ⟨m', ha⟩ := m.exists_add (.reference id) hfull
      have hr : l.find? (@Entity.identity ι δ (.reference id)) = none := hr
      unfold Registry.registerIn at h
      rw [if_neg (fun h => h.1 rfl), hr] at h
      simp only [Registry.newToken, Bool.false_eq_true, if_false, ha] at h
      cases h

end Register

/-! ### Computations that fail only for want of room -/

/-- All indices for entities of the kind are given. -/
def Reader.Full (ρ : Reader) (k : EntityKind) : Prop := (ρ.catalog.keys k).length = 0x80000000

/-- The computation leaves a sound reader, in which one of the maps is full if it has failed and tokens are indices. -/
structure Accepts (m : Source) (ks : List EntityKind) {α : Type} (x : Reading α) : Prop where
  soundly : Soundly m x
  full : m.options.namedTokens = false → ∀ {ρ ρ' e}, Sound m ρ → x ρ = (.error e, ρ') →
    ∃ k ∈ ks, ρ'.Full k

namespace Accepts

variable {m : Source} {ks : List EntityKind} {α β : Type} {x : Reading α}

theorem gives (hx : Accepts m ks x) (indexed : m.options.namedTokens = false) {ρ : Reader}
    (hs : Sound m ρ) : (∃ a ρ', Gives x ρ a ρ') ∨ ∃ k ∈ ks, (x ρ).2.Full k := by
  cases h : x ρ with
  | mk r ρ' =>
      cases r with
      | ok a => exact .inl ⟨a, ρ', h⟩
      | error e => exact .inr (hx.full indexed hs h)

theorem pure {a : α} : Accepts m ks (pure a : Reading α) := by
  refine ⟨.pure, fun _ _ _ _ _ h => ?_⟩
  cases h

/-- What comes next may depend on what has been given. -/
theorem bind_of_gives {f : α → Reading β} (hx : Accepts m ks x) (hs : ∀ a, Soundly m (f a))
    (hf : ∀ {ρ a ρ'}, Sound m ρ → Gives x ρ a ρ' → Accepts m ks (f a)) :
    Accepts m ks (x >>= f) := by
  refine ⟨hx.soundly.bind hs, fun indexed ρ ρ' e hρ h => ?_⟩
  have hρ₁ := hx.soundly ρ hρ
  cases hr : x ρ with
  | mk r ρ₁ =>
      rw [hr] at hρ₁
      cases r with
      | error e' =>
          rw [run_bind_error hr] at h
          cases h
          exact hx.full indexed hρ hr
      | ok a =>
          rw [run_bind_ok hr] at h
          exact (hf hρ hr).full indexed hρ₁ h

theorem bind {f : α → Reading β} (hx : Accepts m ks x) (hf : ∀ a, Accepts m ks (f a)) :
    Accepts m ks (x >>= f) :=
  hx.bind_of_gives (fun a => (hf a).soundly) fun {_ a _} _ _ => hf a

/-- A check that is passed. -/
theorem of_gives (hx : Soundly m x) (h : ∀ {ρ}, Sound m ρ → ∃ a ρ', Gives x ρ a ρ') :
    Accepts m ks x := by
  refine ⟨hx, fun _ ρ ρ' e hs he => ?_⟩
  obtain ⟨a, ρ'', hg⟩ := h hs
  cases (show x ρ = (.ok a, ρ'') from hg).symm.trans he

/-! ### References -/

theorem registering
    {f : Registry → Catalog → Except RegistryFault (Registered × Registry × Catalog)}
    (hx : Soundly m (Reading.registering f))
    (h : m.options.namedTokens = false → ∀ {ρ : Reader} {e}, Sound m ρ →
      f ρ.registry ρ.catalog = .error e → ∃ k ∈ ks, ρ.Full k) :
    Accepts m ks (Reading.registering f) := by
  refine ⟨hx, fun indexed ρ ρ' e hs he => ?_⟩
  rw [Reading.registering, run_bind_ok (x := MonadState.get) (v := ρ) rfl] at he
  cases hf : f ρ.registry ρ.catalog with
  | error e' =>
      rw [hf] at he
      cases he
      exact h indexed hs hf
  | ok p =>
      rw [hf] at he
      cases he

theorem typeReference (hk : .type ∈ ks) {id : TypeIdentity} (hid : Normal id) :
    Accepts m ks (Reading.typeReference id) := by
  refine (registering (Soundly.typeReference hid) fun indexed ρ e hs he => ?_).bind fun _ => pure
  refine ⟨.type, hk, ?_⟩
  rcases bind_eq_error.1 he with he | ⟨_, -, he⟩
  · exact (List.length_map _).trans (full_of_registerIn_error (hs.options ▸ indexed)
      (fun r hr => hs.types.levels id r hid hr) he)
  · cases he

theorem fieldReference (hk : .field ∈ ks) {id : MemberIdentity} :
    Accepts m ks (Reading.fieldReference id) := by
  refine (registering Soundly.fieldReference fun indexed ρ e hs he => ?_).bind fun _ => pure
  refine ⟨.field, hk, ?_⟩
  unfold Registry.registerField at he
  rw [if_neg (by decide)] at he
  rcases bind_eq_error.1 he with he | ⟨_, -, he⟩
  · exact (List.length_map _).trans (full_of_registerIn_error (hs.options ▸ indexed)
      (fun r hr => hs.fields.levels id r trivial hr) he)
  · cases he

theorem methodReference (hk : .method ∈ ks) {id : MemberIdentity} :
    Accepts m ks (Reading.methodReference id) := by
  refine (registering Soundly.methodReference fun indexed ρ e hs he => ?_).bind fun _ => pure
  refine ⟨.method, hk, ?_⟩
  unfold Registry.registerMethod at he
  rw [if_neg (by decide)] at he
  rcases bind_eq_error.1 he with he | ⟨_, -, he⟩
  · exact (List.length_map _).trans (full_of_registerIn_error (hs.options ▸ indexed)
      (fun r hr => hs.methods.levels id r trivial hr) he)
  · cases he

/-! ### Signatures -/

variable {s : Store}

theorem namedType (hk : .type ∈ ks) {r : Row} (hr : s.Nameable m.image r) : Accepts m ks (Reading.namedType s r) := by
  cases hr with
  | defined ht =>
      refine Accepts.bind (of_gives (.of_steady (Steady.checkType s _)) fun hs => ?_) fun _ =>
        typeReference hk (definitionIdentity_normal s _)
      exact ⟨⟨⟩, _, gives_checkType.2 ⟨ht.2.trans hs.image.symm, rfl⟩⟩
  | @referred n ns name scope k a _ ha =>
      have ha : (Row.typeRef 0 ns name scope).definitionAssembly = .assemblyRef k a := by
        rw [← ha]
        cases scope <;> rfl
      rw [Reading.namedType, Reading.referredType, ha]
      refine Accepts.bind (of_gives (.of_steady Steady.options) fun _ => ⟨_, _, gives_options.2 ⟨rfl, rfl⟩⟩)
        fun o => typeReference hk (referenceIdentity_normal o a ns name scope)

theorem checkConvention {raw : UInt8} (h : CallingConvention.isMethodLikeRaw raw = true) :
    Accepts m ks (Reading.checkConvention raw) := by
  rw [Reading.checkConvention, if_pos h]
  exact pure

mutual

/-- What is readable is read. -/
theorem typeTree (hk : .type ∈ ks) :
    ∀ r : Row, r.Readable s m.image → Accepts m ks (Reading.typeTree s r)
  | .typeSpec _ t, h => typeSigTree hk t h.2
  | .null, h | .typeDef _, h | .typeRef _ _ _ _, h | .assemblyRef _ _, h | .moduleRef _ _, h
  | .fieldDef _, h | .methodDef _, h | .memberRef _ _ _ _, h | .methodSpec _ _ _, h =>
      (namedType hk h).bind fun _ => pure

/-- What is readable is read. -/
theorem typeSigTree (hk : .type ∈ ks) :
    ∀ t : TypeSig, t.Readable s m.image → Accepts m ks (Reading.typeSigTree s t)
  | .null, h             => h.elim
  | .leaf _ _, _         => pure
  | .wrapper _ t, h      => (typeSigTree hk t h).bind fun _ => pure
  | .fnPtr c, h          => (callSigTree hk c h).bind fun _ => pure
  | .named _ _, h        => (namedType hk h).bind fun _ => pure
  | .generic _ _, _      => pure
  | .array t _ _ _, h    => (typeSigTree hk t h).bind fun _ => pure
  | .genericInst t as, h =>
      (typeSigTree hk t h.1).bind fun _ => (typeSigTrees hk as h.2).bind fun _ => pure
  | .valueArray t _, h   => (typeSigTree hk t h).bind fun _ => pure
  | .modifier _ r t, h   => (typeTree hk r h.1).bind fun _ => (typeSigTree hk t h.2).bind fun _ => pure
  | .module _ t, h       => (typeSigTree hk t h).bind fun _ => pure

theorem typeSigTrees (hk : .type ∈ ks) :
    ∀ ts : List TypeSig, TypeSig.AllReadable s m.image ts → Accepts m ks (Reading.typeSigTrees s ts)
  | [], _      => pure
  | t :: ts, h => (typeSigTree hk t h.1).bind fun _ => (typeSigTrees hk ts h.2).bind fun _ => pure

theorem callSigTree (hk : .type ∈ ks) :
    ∀ c : CallSig, c.Readable s m.image → Accepts m ks (Reading.callSigTree s c)
  | .null, h                 => h.elim
  | .method _ _ _ t ps vs, h => (checkConvention h.1).bind fun _ =>
      (typeSigTree hk t h.2.1).bind fun _ => (typeSigTrees hk ps h.2.2.1).bind fun _ =>
        (typeSigTrees hk vs h.2.2.2).bind fun _ => pure
  | .field t, h              => (typeSigTree hk t h).bind fun _ => pure
  | .locals ts, h            => (typeSigTrees hk ts h).bind fun _ => pure
  | .inst ts, h              => (typeSigTrees hk ts h).bind fun _ => pure

end

/-! ### Fields and methods -/

/-- The identity of a member is read, if its type and its signature are. -/
theorem memberIdentity (hk : .type ∈ ks) {name : Bytes} {type : Row} {sig : CallSig}
    (ht : type.Readable s m.image) (hs : sig.Legible s m.image) :
    Accepts m ks (Reading.memberIdentity s name type sig) := by
  obtain ⟨sig', hsig, heq⟩ := hs
  rw [Reading.memberIdentity, heq s]
  exact (typeTree hk type ht).bind fun _ => (callSigTree hk sig' hsig).bind fun _ => pure

theorem declaringType {what : String} {name : Bytes} {t : TypeId} (ht : s.Owns m.image t) :
    Accepts m ks (Reading.declaringType s what name (some t)) := by
  refine of_gives (.of_steady (Steady.declaringType s what name _)) fun {ρ} hρ => ⟨t, ρ, ?_⟩
  exact gives_declaringType.2 ⟨rfl, ht.2.trans hρ.image.symm, rfl⟩

/-- The token of a field with a name is read. -/
theorem fieldToken (ht : .type ∈ ks) (hf : .field ∈ ks) {r : Row}
    (hr : s.NameableField m.image r) : Accepts m ks (Reading.fieldToken s r) := by
  cases hr with
  | @defined f t hd howns hs =>
      refine Accepts.bind ?_ fun _ => fieldReference hf
      rw [Reading.fieldIdentity, hd]
      refine (declaringType howns).bind_of_gives
        (fun _ => .of_steady (Steady.memberIdentity s _ _ _)) fun _ hg => ?_
      obtain ⟨heq, -⟩ := gives_declaringType.1 hg
      cases heq
      exact memberIdentity ht (.defined howns) hs
  | referred hk hp hs =>
      rw [Reading.fieldToken, referredField_eq s hk hp.isType]
      exact (memberIdentity ht hp hs.legible).bind fun _ => fieldReference hf

/-- The token of a method with a name is read. -/
theorem methodToken (ht : .type ∈ ks) (hm : .method ∈ ks) {r : Row}
    (hr : s.NameableMethod m.image r) : Accepts m ks (Reading.methodToken s r) := by
  cases hr with
  | @defined f t hd howns hs =>
      refine Accepts.bind ?_ fun _ => methodReference hm
      rw [Reading.methodIdentity, hd]
      refine (declaringType howns).bind_of_gives
        (fun _ => .of_steady (Steady.memberIdentity s _ _ _)) fun _ hg => ?_
      obtain ⟨heq, -⟩ := gives_declaringType.1 hg
      cases heq
      exact memberIdentity ht (.defined howns) hs
  | referred hk hp hs =>
      rw [Reading.methodToken, referredMethod_eq s hk hp.isType]
      exact (memberIdentity ht hp hs.legible).bind fun _ => methodReference hm

end Accepts

end CilCatalog
