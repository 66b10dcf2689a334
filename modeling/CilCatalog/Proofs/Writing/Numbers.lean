import CilCatalog.Proofs.Copying.Whole

/-!
# Numbers in definitions

Attributes, sequence numbers and the like are integers of 32 bits in a catalog.  A live module has 16 or 32 bits for them.  Those with 32 are written as they are, and so is the size of a stack, which has 16 but is checked; all others are cut without a check.

* `Numbers.cut_eq_iff`: cutting leaves the numbers that are neither negative nor above 65535, and no others.
* `FieldData.numbers` and the like: the numbers of a definition, in a catalog and in a live module.
* `numbers_of_fieldData` and the like: a reader reads the numbers that are there.
* `numbers_of_genericParams` and the like: a writer cuts the numbers of the parts of definitions.
-/

namespace CilCatalog

open Live

/-! ### Cutting -/

/-- What a number of the module is in a catalog. -/
def wide (n : UInt16) : Int32 := Int32.ofNat n.toNat

/-- What becomes of a number that is written with 16 bits and read again. -/
def cut16 (n : Int32) : Int32 := wide (Writing.low16 n)

theorem toInt_wide (n : UInt16) : (wide n).toInt = n.toNat := by
  have := n.toNat_lt
  exact Int32.toInt_ofNat_of_lt (by omega)

theorem cut16_eq_iff {n : Int32} : cut16 n = n ↔ 0 ≤ n ∧ n ≤ 0xFFFF := by
  constructor
  · intro h
    rw [← h, cut16, Int32.le_iff_toInt_le, Int32.le_iff_toInt_le, toInt_wide]
    have := (Writing.low16 n).toNat_lt
    exact ⟨Int.natCast_nonneg _, by change _ ≤ (65535 : Int); omega⟩
  · rintro ⟨h₀, h₁⟩
    exact ofNat_low16 (not_or.2 ⟨Int32.not_lt.2 h₀, Int32.not_lt.2 h₁⟩)

/-- Numbers with 16 bits in a live module, by where they stand, and those with 32. -/
structure Numbers where
  short : List (List Int32)
  long : List Int32
deriving DecidableEq

namespace Numbers

variable {n : Numbers}

/-- What becomes of numbers that are written and read again. -/
def cut (n : Numbers) : Numbers := { n with short := n.short.map (·.map cut16) }

/-- The numbers are those that the module has room for. -/
def Fit (n : Numbers) : Prop := ∀ g ∈ n.short, ∀ k ∈ g, 0 ≤ k ∧ k ≤ 0xFFFF

theorem map_eq_self_iff {α : Type} {f : α → α} {as : List α} : as.map f = as ↔ ∀ a ∈ as, f a = a := by
  induction as with
  | nil => exact iff_of_true rfl nofun
  | cons a as ih => rw [List.map_cons, List.cons.injEq, List.forall_mem_cons, ih]

/-- Numbers are cut to themselves where there is room for them, and not otherwise. -/
theorem cut_eq_iff : n.cut = n ↔ n.Fit := by
  have : n.cut = n ↔ n.short.map (·.map cut16) = n.short := by
    cases n
    exact ⟨congrArg short, congrArg (mk · _)⟩
  rw [this, map_eq_self_iff]
  refine forall_congr' fun g => forall_congr' fun _ => map_eq_self_iff.trans ?_
  exact forall_congr' fun k => forall_congr' fun _ => cut16_eq_iff

/-- What the numbers of a definition become: they are cut, which leaves them if there is room for them, and else does not. -/
def Become (n live : Numbers) : Prop := live = n.cut ∧ (live = n ↔ n.Fit)

theorem Become.of_eq {live : Numbers} (h : live = n.cut) : n.Become live :=
  ⟨h, h ▸ cut_eq_iff⟩

end Numbers

/-! ### Definitions of a catalog -/

def GenericParameter.numbers (p : GenericParameter) : List Int32 := [p.attributes, p.number]

def Parameter.numbers (p : Parameter) : List Int32 := [p.sequence, p.attributes]

def FieldData.numbers (d : FieldData) : Numbers := ⟨[[d.attributes]], []⟩

/-- The numbers of a method, without the size of its stack. -/
def MethodData.numbers (d : MethodData) : Numbers :=
  ⟨[[d.attributes, d.implAttributes], d.parameters.flatMap Parameter.numbers,
    (d.genericParameters.getD []).flatMap GenericParameter.numbers,
    d.implMap.toList.map ImplMap.attributes], []⟩

/-- The numbers of a type, without its children. -/
def TypeData.numbers (d : TypeData) : Numbers :=
  ⟨[d.layout.toList.map ClassLayout.packingSize,
    (d.genericParameters.getD []).flatMap GenericParameter.numbers],
    d.attributes :: d.layout.toList.map ClassLayout.classSize⟩

def Numbers.ofProperties (ps : List Property) : Numbers := ⟨[ps.map Property.attributes], []⟩

def Numbers.ofEvents (es : List Event) : Numbers := ⟨[es.map Event.attributes], []⟩

/-! ### Live definitions -/

namespace Live

def GenericParam.numbers (p : GenericParam) : List Int32 := [wide p.attributes, wide p.number]

def ParamDef.numbers (p : ParamDef) : List Int32 := [wide p.sequence, wide p.attributes]

def FieldDef.numbers (d : FieldDef) : Numbers := ⟨[[wide d.attributes]], []⟩

def MethodDef.numbers (d : MethodDef) : Numbers :=
  ⟨[[wide d.attributes, wide d.implAttributes], d.params.flatMap ParamDef.numbers,
    d.genericParams.flatMap GenericParam.numbers, d.implMap.toList.map (wide ·.attributes)], []⟩

def TypeDef.numbers (d : TypeDef) : Numbers :=
  ⟨[d.layout.toList.map (wide ·.packingSize), d.genericParams.flatMap GenericParam.numbers],
    d.attributes.toInt32 :: d.layout.toList.map (·.classSize.toInt32)⟩

/-- The numbers of the properties of a type. -/
def TypeDef.propertyNumbers (d : TypeDef) : Numbers := ⟨[d.properties.map (wide ·.attributes)], []⟩

/-- The numbers of the events of a type. -/
def TypeDef.eventNumbers (d : TypeDef) : Numbers := ⟨[d.events.map (wide ·.attributes)], []⟩

end Live

/-! ### One after the other -/

section Each

variable {ε σ α β γ : Type} {f : α → ExceptT ε (StateM σ) β} {as : List α} {bs : List β} {s s' : σ}

/-- What is so of each element is so of the list. -/
theorem map_of_gives {g : α → γ} {h : β → γ}
    (hf : ∀ {a b s s'}, Gives (f a) s b s' → h b = g a) (hg : Gives (as.mapM f) s bs s') :
    bs.map h = as.map g := by
  induction as generalizing bs s with
  | nil =>
      obtain ⟨rfl, -⟩ := gives_mapM_nil.1 hg
      rfl
  | cons a as ih =>
      obtain ⟨b, s₁, bs', hb, hbs, rfl⟩ := gives_mapM_cons.1 hg
      rw [List.map_cons, List.map_cons, hf hb, ih hbs]

theorem flatMap_of_gives {g : α → List γ} {h : β → List γ}
    (hf : ∀ {a b s s'}, Gives (f a) s b s' → h b = g a) (hg : Gives (as.mapM f) s bs s') :
    bs.flatMap h = as.flatMap g := by
  rw [List.flatMap_def, List.flatMap_def, map_of_gives hf hg]

theorem toList_of_gives {g : α → γ} {h : β → γ} {a : Option α} {b : Option β}
    (hf : ∀ {a b s s'}, Gives (f a) s b s' → h b = g a) (hg : Gives (a.mapM f) s b s') :
    b.toList.map h = a.toList.map g := by
  cases a with
  | none =>
      obtain ⟨rfl, -⟩ := gives_pure.1 hg
      rfl
  | some a =>
      rw [Option.mapM_some] at hg
      obtain ⟨b, hb, rfl⟩ := gives_map.1 hg
      exact congrArg (fun x => [x]) (hf hb)

end Each

/-! ### Reading -/

section Reading

variable {s : Store} {ρ ρ' : Reader}

theorem getD_nonempty {α : Type} (as : List α) : (Reading.nonempty as).getD [] = as := by
  cases as <;> rfl

theorem numbers_of_genericParameters {ps : List GenericParam} {qs : Option (List GenericParameter)}
    (h : Gives (Reading.genericParameters s ps) ρ qs ρ') :
    (qs.getD []).flatMap GenericParameter.numbers = ps.flatMap GenericParam.numbers := by
  obtain ⟨qs, hqs, rfl⟩ := gives_bind_pure.1 h
  rw [getD_nonempty]
  refine flatMap_of_gives (fun {p q ρ ρ'} hq => ?_) hqs
  obtain ⟨_, -, rfl⟩ := gives_bind_pure.1 hq
  rfl

theorem numbers_of_parameter {p : ParamDef} {q : Parameter}
    (h : Gives (Reading.parameter s p) ρ q ρ') : q.numbers = p.numbers := by
  obtain ⟨_, -, rfl⟩ := gives_bind_pure.1 h
  rfl

theorem numbers_of_implMap {method : Bytes} {m : Live.ImplMap} {q : ImplMap}
    (h : Gives (Reading.implMap method m) ρ q ρ') : q.attributes = wide m.attributes := by
  unfold Reading.implMap at h
  split at h
  · obtain ⟨rfl, -⟩ := gives_pure.1 h
    rfl
  · exact absurd h gives_throw

/-- The numbers of a field are read as they are. -/
theorem numbers_of_fieldData {d : FieldDef} {x : FieldData}
    (h : Gives (Reading.fieldData s d) ρ x ρ') : x.numbers = d.numbers := by
  obtain ⟨_, -, rfl⟩ := gives_bind_pure.1 h
  rfl

theorem maxStack_of_body {b : Live.MethodBody} {y : MethodBody}
    (h : Gives (Reading.body s b) ρ y ρ') : y.maxStack = wide b.maxStack := by
  obtain ⟨_, _, -, h⟩ := gives_bind.1 h
  obtain ⟨_, _, -, h⟩ := gives_bind.1 h
  obtain ⟨_, -, rfl⟩ := gives_bind_pure.1 h
  rfl

/-- The numbers of a method are read as they are, and so is the size of its stack. -/
theorem numbers_of_methodData {d : MethodDef} {x : MethodData}
    (h : Gives (Reading.methodData s d) ρ x ρ') : x.numbers = d.numbers ∧
      ∀ b y, d.body = some b → x.body = some y → y.maxStack = wide b.maxStack := by
  rw [methodData_eq] at h
  obtain ⟨ps, _, hps, h⟩ := gives_bind.1 h
  obtain ⟨_, _, -, h⟩ := gives_bind.1 h
  obtain ⟨gs, _, hgs, h⟩ := gives_bind.1 h
  obtain ⟨_, _, -, h⟩ := gives_bind.1 h
  obtain ⟨body, _, hbody, h⟩ := gives_bind.1 h
  obtain ⟨m, hm, rfl⟩ := gives_bind_pure.1 h
  constructor
  · rw [MethodData.numbers, MethodDef.numbers, flatMap_of_gives numbers_of_parameter hps,
      numbers_of_genericParameters hgs, toList_of_gives numbers_of_implMap hm]
    rfl
  · rintro b y hb rfl
    obtain ⟨o, _, -, hbody⟩ := gives_bind.1 hbody
    split at hbody
    · rw [hb, Option.mapM_some] at hbody
      obtain ⟨_, hy, ⟨⟩⟩ := gives_map.1 hbody
      exact maxStack_of_body hy
    · obtain ⟨⟨⟩, -⟩ := gives_pure.1 hbody

/-- The numbers of a type are read as they are. -/
theorem numbers_of_typeData {d : TypeDef} {x : TypeData}
    (h : Gives (Reading.typeData s d) ρ x ρ') : x.numbers = d.numbers := by
  rw [typeData_eq] at h
  obtain ⟨_, _, -, h⟩ := gives_bind.1 h
  obtain ⟨_, _, -, h⟩ := gives_bind.1 h
  obtain ⟨gs, _, hgs, h⟩ := gives_bind.1 h
  obtain ⟨_, -, rfl⟩ := gives_bind_pure.1 h
  rw [TypeData.numbers, TypeDef.numbers, numbers_of_genericParameters hgs]
  cases d.layout <;> rfl

theorem numbers_of_properties {d : TypeDef} {qs : List Property}
    (h : Gives (d.properties.mapM (Reading.property s)) ρ qs ρ') :
    .ofProperties qs = d.propertyNumbers := by
  have := map_of_gives (g := fun p : PropertyDef => wide p.attributes) (h := Property.attributes)
    (fun {p q ρ ρ'} hq => by
      obtain ⟨_, _, -, hq⟩ := gives_bind.1 hq
      obtain ⟨_, _, -, hq⟩ := gives_bind.1 hq
      obtain ⟨_, _, -, hq⟩ := gives_bind.1 hq
      obtain ⟨_, -, rfl⟩ := gives_bind_pure.1 hq
      rfl) h
  rw [Numbers.ofProperties, this, TypeDef.propertyNumbers]

theorem numbers_of_events {d : TypeDef} {qs : List Event}
    (h : Gives (d.events.mapM (Reading.event s)) ρ qs ρ') : .ofEvents qs = d.eventNumbers := by
  have := map_of_gives (g := fun p : EventDef => wide p.attributes) (h := Event.attributes)
    (fun {p q ρ ρ'} hq => by
      obtain ⟨_, _, -, hq⟩ := gives_bind.1 hq
      obtain ⟨_, _, -, hq⟩ := gives_bind.1 hq
      obtain ⟨_, _, -, hq⟩ := gives_bind.1 hq
      obtain ⟨_, _, -, hq⟩ := gives_bind.1 hq
      obtain ⟨_, -, rfl⟩ := gives_bind_pure.1 hq
      rfl) h
  rw [Numbers.ofEvents, this, TypeDef.eventNumbers]

end Reading

/-! ### Writing -/

section Writing

variable {c : Catalog} {w w' : WriteState}

theorem numbers_of_genericParams {ps : Option (List GenericParameter)} {qs : List GenericParam}
    (h : Gives (Writing.genericParams c ps) w qs w') : qs.flatMap GenericParam.numbers =
      ((ps.getD []).flatMap GenericParameter.numbers).map cut16 := by
  rw [List.map_flatMap]
  refine flatMap_of_gives (fun {p q w w'} hq => ?_) h
  obtain ⟨_, -, rfl⟩ := gives_bind_pure.1 hq
  rfl

theorem numbers_of_params {ps : List Parameter} {qs : List ParamDef}
    (h : Gives (ps.mapM (Writing.param c)) w qs w') :
    qs.flatMap ParamDef.numbers = (ps.flatMap Parameter.numbers).map cut16 := by
  rw [List.map_flatMap]
  refine flatMap_of_gives (fun {p q w w'} hq => ?_) h
  obtain ⟨_, -, rfl⟩ := gives_bind_pure.1 hq
  rfl

theorem numbers_of_properties_written {ps : List Property} {qs : List PropertyDef}
    (h : Gives (ps.mapM (Writing.property c)) w qs w') :
    qs.map (wide ·.attributes) = (ps.map Property.attributes).map cut16 := by
  rw [List.map_map]
  refine map_of_gives (fun {p q w w'} hq => ?_) h
  obtain ⟨_, _, -, hq⟩ := gives_bind.1 hq
  obtain ⟨-, hq⟩ := gives_bind_askable.1 hq
  obtain ⟨-, hq⟩ := gives_guard.1 hq
  obtain ⟨_, _, -, hq⟩ := gives_bind.1 hq
  obtain ⟨_, _, -, hq⟩ := gives_bind.1 hq
  obtain ⟨_, -, rfl⟩ := gives_bind_pure.1 hq
  rfl

theorem numbers_of_events_written {es : List Event} {qs : List EventDef}
    (h : Gives (es.mapM (Writing.event c)) w qs w') :
    qs.map (wide ·.attributes) = (es.map Event.attributes).map cut16 := by
  rw [List.map_map]
  refine map_of_gives (fun {p q w w'} hq => ?_) h
  obtain ⟨_, _, -, hq⟩ := gives_bind.1 hq
  obtain ⟨_, _, -, hq⟩ := gives_bind.1 hq
  obtain ⟨_, _, -, hq⟩ := gives_bind.1 hq
  obtain ⟨_, _, -, hq⟩ := gives_bind.1 hq
  obtain ⟨_, -, rfl⟩ := gives_bind_pure.1 hq
  rfl

/-- The size of a stack is written as it is. -/
theorem maxStack_of_body_written {b : MethodBody} {l : Live.MethodBody}
    (h : Gives (Writing.body c b) w l w') : wide l.maxStack = b.maxStack := by
  rw [Writing.body] at h
  obtain ⟨hmax, h⟩ := gives_guard.1 h
  obtain ⟨_, _, -, h⟩ := gives_bind.1 h
  obtain ⟨_, _, -, h⟩ := gives_bind.1 h
  obtain ⟨_, _, -, h⟩ := gives_bind.1 h
  obtain ⟨_, -, rfl⟩ := gives_bind_pure.1 h
  exact ofNat_low16 hmax

end Writing

end CilCatalog
