import CilCatalog.Proofs.Copying.Member

/-!
# Writing the parts of definitions

Fields and methods by their tokens, custom attributes, generic parameters, properties and events.  What is written for each is read as the original (`Copy.Writes`); nothing is defined by that.
-/

namespace CilCatalog

open Live

/-- The reading of one custom attribute. -/
def Reading.customAttribute (s : Store) (a : Live.CustomAttribute) : Reading CustomAttribute := do
  return ⟨← Reading.methodToken s a.constructor, a.blob⟩

theorem Steady.customAttribute {m : Source} (s : Store) (a : Live.CustomAttribute) :
    Steady m (Reading.customAttribute s a) :=
  (Steady.methodToken s a.constructor).bind fun _ => .pure _

namespace Copy

variable {C : Copy} {w w' w'' : WriteState} {σ σ' : Store} {α β γ δ : Type}

variable (C) in
/-- On the way from one state to another nothing has been defined, and reading what has been written follows reading the original. -/
structure Writes (w w' : WriteState) (x : Reading α) (y : Store → Reading α) : Prop where
  faithful : C.Faithful .null w'
  step : w.Refers w'
  echo : C.Echo w'.store x y

/-! ### Readings that are put together -/

namespace Echo

theorem pure (a : α) : C.Echo σ (pure a) fun _ => pure a := fun _ _ => .pure a

theorem bind {x : Reading α} {y : Store → Reading α} {f : α → Reading β} {g : α → Store → Reading β}
    (hx : C.Echo σ x y) (hf : ∀ a, C.Echo σ (f a) (g a)) :
    C.Echo σ (x >>= f) fun σ => y σ >>= (g · σ) :=
  fun σ' he => (hx σ' he).bind fun a => hf a σ' he

theorem map {x : Reading α} {y : Store → Reading α} (hx : C.Echo σ x y) (f : α → β) :
    C.Echo σ (f <$> x) fun σ => f <$> y σ :=
  fun σ' he => (hx σ' he).map f

theorem mapM {f : α → Reading γ} {g : β → Store → Reading γ} {as : List α} {bs : List β}
    (h : List.Forall₂ (fun a b => C.Echo σ (f a) (g b)) as bs) :
    C.Echo σ (as.mapM f) fun σ => bs.mapM (g · σ) :=
  fun σ' he => .mapM (h.imp fun _ _ h => h σ' he)

end Echo

theorem Puts.writes {rs : List Row} {x : Reading α} {y : Store → Reading α} (h : C.Puts w w' rs x y) :
    C.Writes w w' x y :=
  ⟨h.faithful, h.step.toRefers, h.echo⟩

namespace Writes

variable {x : Reading α} {y : Store → Reading α}

theorem refl (hw : C.Faithful .null w) (a : α) : C.Writes w w (pure a) fun _ => pure a :=
  ⟨hw, .refl w, .pure a⟩

theorem bind {x' : α → Reading β} {y' : α → Store → Reading β} (h : C.Writes w w' x y) (a : α)
    (h' : ∀ a, C.Writes w' w'' (x' a) (y' a)) :
    C.Writes w w'' (x >>= x') fun σ => y σ >>= (y' · σ) :=
  ⟨(h' a).faithful, h.step.trans (h' a).step,
    (h.echo.extends (h' a).step.store).bind fun a => (h' a).echo⟩

theorem map_congr {f g : α → β} (h : C.Writes w w' x y) (hfg : ∀ a, f a = g a) :
    C.Writes w w' (x >>= fun a => pure (f a)) fun σ => y σ >>= fun a => pure (g a) := by
  obtain rfl : f = g := funext hfg
  exact ⟨h.faithful, h.step, h.echo.bind fun a => .pure (f a)⟩

theorem map (h : C.Writes w w' x y) (f : α → β) :
    C.Writes w w' (x >>= fun a => pure (f a)) fun σ => y σ >>= fun a => pure (f a) :=
  h.map_congr fun _ => rfl

/-- What has been written may be read in a way that depends on the options. -/
theorem options {f : Options → Reading β} {g : Store → Options → Reading β}
    (h : C.Writes w w' (f C.source.options) (g · C.source.options)) :
    C.Writes w w' (Reading.options >>= f) fun σ => Reading.options >>= g σ :=
  ⟨h.faithful, h.step, fun σ he => .options_bind (h.echo σ he)⟩

/-- What has been written for one thing after the other. -/
theorem mapM {f : α → Reading β} {g : β → Writing γ} {h : γ → Store → Reading β} {as : List α}
    {bs : List β} {cs : List γ}
    (hab : List.Forall₂ (fun a b => Read C.source C.reader (f a) b) as bs)
    (hf : ∀ {a b c w w'}, a ∈ as → Read C.source C.reader (f a) b → C.Faithful .null w →
      Gives (g b) w c w' → C.Writes w w' (f a) (h c))
    (hw : C.Faithful .null w) (hg : Gives (bs.mapM g) w cs w') :
    C.Faithful .null w' ∧ w.Refers w' ∧
      List.Forall₂ (fun a c => C.Echo w'.store (f a) (h c)) as cs := by
  induction hab generalizing w cs with
  | nil =>
      obtain ⟨rfl, rfl⟩ := gives_mapM_nil.1 hg
      exact ⟨hw, .refl _, .nil⟩
  | cons hab _ ih =>
      obtain ⟨c, w₁, cs', hc, hcs, rfl⟩ := gives_mapM_cons.1 hg
      have first := hf List.mem_cons_self hab hw hc
      obtain ⟨hw', hst, hall⟩ := ih (fun ha => hf (List.mem_cons_of_mem _ ha)) first.faithful hcs
      exact ⟨hw', first.step.trans hst, .cons (first.echo.extends hst.store) hall⟩

/-- A list that is absent if it is empty is an empty list where it is absent. -/
theorem nonempty_getD (bs : List β) : (Reading.nonempty bs).getD [] = bs := by
  cases bs <;> rfl

/-- What is written for a list that is absent if it is empty. -/
theorem nonempty {f : α → Reading β} {g : β → Writing γ} {h : γ → Store → Reading β} {as : List α}
    {bs : List β} {cs : List γ}
    (hab : List.Forall₂ (fun a b => Read C.source C.reader (f a) b) as bs)
    (hf : ∀ {a b c w w'}, a ∈ as → Read C.source C.reader (f a) b → C.Faithful .null w →
      Gives (g b) w c w' → C.Writes w w' (f a) (h c))
    (hw : C.Faithful .null w) (hg : Gives (((Reading.nonempty bs).getD []).mapM g) w cs w') :
    C.Writes w w' (as.mapM f >>= fun bs => Pure.pure (Reading.nonempty bs))
      fun σ => cs.mapM (h · σ) >>= fun bs => Pure.pure (Reading.nonempty bs) := by
  rw [nonempty_getD] at hg
  obtain ⟨hw', hst, hall⟩ := mapM hab hf hw hg
  exact ⟨hw', hst, (Echo.mapM hall).bind fun bs => .pure _⟩

end Writes

/-! ### Fields by their tokens -/

/-- What has been read of a reference to a field. -/
theorem read_fieldReference {id : MemberIdentity} {k : Token}
    (h : Read C.source C.reader (Reading.fieldReference id) k) :
    ∃ e, C.catalog.fields.get? k = some e ∧ e.identity = id := by
  obtain ⟨reg, hr, rfl⟩ := h.of_fieldReference
  obtain ⟨e, he, hid, -⟩ := C.sound.fields.found id reg trivial hr
  exact ⟨e, he, hid⟩

/-- A reference to a field of a type is read as its identity. -/
theorem referredField_eq (s : Store) (name : Bytes) {sig : CallSig} {parent : Row}
    (hs : sig.isField = true) (hp : parent.isType = true) :
    Reading.referredField s name sig parent =
      Reading.memberIdentity s name parent sig >>= Reading.fieldReference := by
  have hkind : (sig.ofFieldMember : Except (Failure ReadFault) Bool) = .ok true := by
    cases sig with
    | field _ => rfl
    | _ => exact nomatch hs
  have hparent : Reading.parentType "Field" name parent = pure parent := by
    cases parent with
    | typeDef _ | typeRef _ _ _ _ | typeSpec _ _ => rfl
    | _ => exact nomatch hp
  unfold Reading.referredField
  rw [hkind, hparent]
  rfl

/-- The parent of a member reference is the row itself, if it is that of a type. -/
theorem isType_of_parentType {what : String} {name : Bytes} {r r' : Row} {ρ ρ' : Reader}
    (h : Gives (Reading.parentType what name r) ρ r' ρ') : r.isType = true := by
  unfold Reading.parentType at h
  split at h
  · exact absurd h gives_throw
  · exact absurd h gives_throw
  · split at h
    · assumption
    · exact absurd h gives_throw

/-- A member reference that is read as a field says that it is one. -/
theorem kind_of_referredField {s : Store} {name : Bytes} {sig : CallSig} {parent : Row} {k : Token}
    {ρ ρ' : Reader} (h : Gives (Reading.referredField s name sig parent) ρ k ρ') :
    sig.isField = true ∧ parent.isType = true := by
  obtain ⟨b, _, hb, hrest⟩ := gives_bind.1 h
  obtain ⟨hok, rfl⟩ := gives_ofExcept.1 hb
  have hkind : b = true → sig.isField = true := by
    rintro rfl
    unfold CallSig.ofFieldMember at hok
    split at hok
    · exact nomatch hok
    · exact Except.ok.inj hok
  split at hrest
  · next htrue =>
      obtain ⟨r, _, hr, -⟩ := gives_bind.1 hrest
      exact ⟨hkind htrue, isType_of_parentType hr⟩
  · obtain ⟨_, _, h, -⟩ := gives_bind.1 hrest
    exact absurd h gives_throw

/-- Where the token of a field is read from. -/
theorem fieldToken_source {r : Row} {k : Token} (hr : C.source.Has r.rows)
    (h : Read C.source C.reader (Reading.fieldToken C.source.store r) k) :
    ∃ c, C.FieldSource c ∧
      Reading.fieldToken C.source.store r = c >>= Reading.fieldReference := by
  cases r with
  | fieldDef f => exact ⟨_, .defined f, rfl⟩
  | memberRef n name sig parent =>
      obtain ⟨_, _, -, hg, -⟩ := h
      obtain ⟨hs, hp⟩ := kind_of_referredField hg
      exact ⟨_, .referred n name sig parent hr, referredField_eq _ _ hs hp⟩
  | _ => exact absurd h Read.not_refuse

/-- How the token of a field is read of the copy. -/
theorem FieldStands.token {id : MemberIdentity} {r : Row} (h : C.FieldStands σ id r) :
    ∃ y, C.Renders σ id y ∧
      (Reading.fieldToken · r) = fun σ => y σ >>= Reading.fieldReference := by
  cases h with
  | defined f _ _ _ _ _ h => exact ⟨_, h, rfl⟩
  | referred n sig parent hs hp h => exact ⟨_, h, funext fun σ => referredField_eq σ _ hs hp⟩

/-- The row that is written for a token stands for the field, and is read as what the token has been read from. -/
theorem fieldOfToken_stands {c : Reading MemberIdentity} {r : Row} {k : Token} (hc : C.FieldSource c)
    (hk : Read C.source C.reader (c >>= Reading.fieldReference) k)
    (hw : C.Faithful .null w) (h : Gives (Writing.fieldOfToken C.catalog k) w r w') :
    C.Writes w w' (c >>= Reading.fieldReference) (Reading.fieldToken · r) ∧
      ∃ id, C.FieldStands w'.store id r := by
  obtain ⟨id, hid, hk⟩ := hk.of_bind hc.steady fun _ => .fieldReference
  obtain ⟨e, he, rfl⟩ := read_fieldReference hk
  obtain ⟨e', he', h⟩ := gives_bind_lookUp.1 h
  cases he.symm.trans he'
  obtain ⟨hw', hst, hheld⟩ := fieldRow_stands ⟨c, hc, hid⟩ hw h
  obtain ⟨y, hy, htoken⟩ := hheld.stands.token
  rw [htoken]
  exact ⟨⟨hw', hst, (hy.follows (hc.readFrom hid)).bind fun id _ _ => .fieldReference id⟩, _, hheld.stands⟩

/-- The row that is written for the token of a field is read as the original. -/
theorem fieldOfToken_writes {r₀ r : Row} {k : Token} (hr : C.source.Has r₀.rows)
    (hk : Read C.source C.reader (Reading.fieldToken C.source.store r₀) k)
    (hw : C.Faithful .null w) (h : Gives (Writing.fieldOfToken C.catalog k) w r w') :
    C.Writes w w' (Reading.fieldToken C.source.store r₀) (Reading.fieldToken · r) ∧
      ∃ id, C.FieldStands w'.store id r := by
  obtain ⟨c, hc, heq⟩ := fieldToken_source hr hk
  rw [heq] at hk ⊢
  exact fieldOfToken_stands hc hk hw h

/-! ### Methods by their tokens -/

/-- What has been read of a reference to a method. -/
theorem read_methodReference {id : MemberIdentity} {k : Token}
    (h : Read C.source C.reader (Reading.methodReference id) k) :
    ∃ e, C.catalog.methods.get? k = some e ∧ e.identity = id := by
  obtain ⟨reg, hr, rfl⟩ := h.of_methodReference
  obtain ⟨e, he, hid, -⟩ := C.sound.methods.found id reg trivial hr
  exact ⟨e, he, hid⟩

/-- Types are no methods. -/
theorem kind_ne_methodDef {r : Row} (h : r.isType = true) : r.kind? ≠ some .methodDef := by
  cases r with
  | typeDef _ | typeRef _ _ _ _ | typeSpec _ _ => exact nofun
  | _ => exact nomatch h

/-- A reference to a method of a type is read as its identity. -/
theorem referredMethod_eq (s : Store) (name : Bytes) {sig : CallSig} {parent : Row}
    (hs : sig.isMethod = true ∨ sig.isProperty = true) (hp : parent.isType = true) :
    Reading.referredMethod s name sig parent =
      Reading.memberIdentity s name parent sig >>= Reading.methodReference := by
  have hkind : (sig.ofMethodMember : Except (Failure ReadFault) Bool) = .ok true := by
    cases sig with
    | method _ _ _ _ _ _ =>
        rw [← Bool.or_eq_true] at hs
        exact congrArg Except.ok hs
    | _ => exact (hs.elim nofun nofun : False).elim
  have hparent : Reading.parentType "Method" name parent = pure parent := by
    cases parent with
    | typeDef _ | typeRef _ _ _ _ | typeSpec _ _ => rfl
    | _ => exact nomatch hp
  unfold Reading.referredMethod
  rw [hkind, hparent, if_neg (kind_ne_methodDef hp)]
  rfl

/-- A member reference that is read as a method says that it is one, or a property. -/
theorem kind_of_referredMethod {s : Store} {name : Bytes} {sig : CallSig} {parent : Row} {k : Token}
    {ρ ρ' : Reader} (h : Gives (Reading.referredMethod s name sig parent) ρ k ρ') :
    (sig.isMethod = true ∨ sig.isProperty = true) ∧ parent.isType = true := by
  obtain ⟨b, _, hb, hrest⟩ := gives_bind.1 h
  obtain ⟨hok, rfl⟩ := gives_ofExcept.1 hb
  have hkind : b = true → sig.isMethod = true ∨ sig.isProperty = true := by
    rintro rfl
    unfold CallSig.ofMethodMember at hok
    split at hok
    · exact nomatch hok
    · exact Bool.or_eq_true _ _ ▸ Except.ok.inj hok
  cases b with
  | false =>
      rw [if_neg Bool.false_ne_true] at hrest
      obtain ⟨_, _, h, -⟩ := gives_bind.1 hrest
      exact absurd h gives_throw
  | true =>
      rw [if_pos rfl] at hrest
      split at hrest
      · obtain ⟨_, _, h, -⟩ := gives_bind.1 hrest
        exact absurd h gives_throw
      · obtain ⟨r, _, hr, -⟩ := gives_bind.1 hrest
        exact ⟨hkind rfl, isType_of_parentType hr⟩

/-- Where the token of a method is read from. -/
theorem methodToken_source {r : Row} {k : Token} (hr : C.source.Has r.rows)
    (h : Read C.source C.reader (Reading.methodToken C.source.store r) k) :
    ∃ c, C.MethodSource c ∧
      Reading.methodToken C.source.store r = c >>= Reading.methodReference := by
  cases r with
  | methodDef f => exact ⟨_, .defined f, rfl⟩
  | memberRef n name sig parent =>
      obtain ⟨_, _, -, hg, -⟩ := h
      obtain ⟨hs, hp⟩ := kind_of_referredMethod hg
      exact ⟨_, .referred n name sig parent hr, referredMethod_eq _ _ hs hp⟩
  | _ => exact absurd h Read.not_refuse

/-- How the token of a method is read of the copy. -/
theorem MethodStands.token {id : MemberIdentity} {r : Row} (h : C.MethodStands σ id r) :
    ∃ y, C.Renders σ id y ∧
      (Reading.methodToken · r) = fun σ => y σ >>= Reading.methodReference := by
  cases h with
  | defined f _ _ _ _ _ h => exact ⟨_, h, rfl⟩
  | referred n sig parent hs hp h =>
      exact ⟨_, h, funext fun σ => referredMethod_eq σ _ (.inl hs) hp⟩

/-- The row that is written for a token stands for the method, and is read as what the token has been read from. -/
theorem methodOfToken_stands {c : Reading MemberIdentity} {r : Row} {k : Token} (hc : C.MethodSource c)
    (hk : Read C.source C.reader (c >>= Reading.methodReference) k)
    (hw : C.Faithful .null w) (h : Gives (Writing.methodOfToken C.catalog k) w r w') :
    C.Writes w w' (c >>= Reading.methodReference) (Reading.methodToken · r) ∧
      ∃ id, C.MethodStands w'.store id r := by
  obtain ⟨id, hid, hk⟩ := hk.of_bind hc.steady fun _ => .methodReference
  obtain ⟨e, he, rfl⟩ := read_methodReference hk
  obtain ⟨e', he', h⟩ := gives_bind_lookUp.1 h
  cases he.symm.trans he'
  obtain ⟨hw', hst, hheld⟩ := methodRow_stands ⟨c, hc, hid⟩ hw h
  obtain ⟨y, hy, htoken⟩ := hheld.stands.token
  rw [htoken]
  exact ⟨⟨hw', hst, (hy.follows (hc.readFrom hid)).bind fun id _ _ => .methodReference id⟩, _, hheld.stands⟩

/-- The row that is written for the token of a method is read as the original. -/
theorem methodOfToken_writes {r₀ r : Row} {k : Token} (hr : C.source.Has r₀.rows)
    (hk : Read C.source C.reader (Reading.methodToken C.source.store r₀) k)
    (hw : C.Faithful .null w) (h : Gives (Writing.methodOfToken C.catalog k) w r w') :
    C.Writes w w' (Reading.methodToken C.source.store r₀) (Reading.methodToken · r) ∧
      ∃ id, C.MethodStands w'.store id r := by
  obtain ⟨c, hc, heq⟩ := methodToken_source hr hk
  rw [heq] at hk ⊢
  exact methodOfToken_stands hc hk hw h

/-- The method that is written for an accessor is read as the original. -/
theorem accessor_writes {o₀ o : Option MethodId} {k : Option Token}
    (hk : Read C.source C.reader (Reading.accessor C.source.store o₀) k)
    (hw : C.Faithful .null w) (h : Gives (Writing.accessor C.catalog k) w o w') :
    C.Writes w w' (Reading.accessor C.source.store o₀) (Reading.accessor · o) := by
  cases o₀ with
  | none =>
      obtain rfl := hk.of_pure
      obtain ⟨rfl, rfl⟩ := gives_pure.1 h
      exact .refl hw none
  | some m =>
      obtain ⟨t, ht, rfl⟩ := hk.of_bind_pure (.definedMethod _ m)
      obtain ⟨m', hm, rfl⟩ := gives_bind_pure.1 h
      obtain ⟨r, w₁, hr, h⟩ := gives_bind.1 hm
      have token := (methodOfToken_stands (.defined m) ht hw hr).1
      obtain ⟨-, h⟩ := gives_bind_askable.1 h
      split at h
      · obtain ⟨rfl, rfl⟩ := gives_pure.1 h
        exact token.map some
      · exact absurd h gives_refuseWrite

/-! ### Parts of definitions -/

@[simp] theorem low16_ofNat (n : UInt16) : Writing.low16 (Int32.ofNat n.toNat) = n := by
  simp [Writing.low16]

/-- What reading custom attributes comes to. -/
theorem customAttributes_eq (s : Store) (as : List Live.CustomAttribute) :
    Reading.customAttributes s as = Reading.options >>= fun o =>
      if o.customAttributes then as.mapM (Reading.customAttribute s) >>= fun bs => pure (Reading.nonempty bs)
      else pure none := rfl

theorem customAttributes_writes {as as' : List Live.CustomAttribute}
    {bs : Option (List CustomAttribute)} (hr : C.source.Has (as.flatMap Live.CustomAttribute.rows))
    (hb : Read C.source C.reader (Reading.customAttributes C.source.store as) bs)
    (hw : C.Faithful .null w) (h : Gives (Writing.customAttributes C.catalog bs) w as' w') :
    C.Writes w w' (Reading.customAttributes C.source.store as) (Reading.customAttributes · as') := by
  simp only [customAttributes_eq] at hb ⊢
  obtain ⟨o, ho, hb⟩ := hb.of_bind .options fun _ =>
    .ite ((Steady.mapM as (Steady.customAttribute _)).bind fun _ => .pure _) (.pure _)
  obtain rfl := ho.of_options
  split at hb
  · next hon =>
      obtain ⟨list, hlist, rfl⟩ := hb.of_bind_pure (Steady.mapM as (Steady.customAttribute _))
      have hab := hlist.of_mapM (Steady.customAttribute _)
      refine Writes.options ?_
      simp only [if_pos hon]
      refine Writes.nonempty hab (h := fun a σ => Reading.customAttribute σ a) ?_ hw h
      intro a b c w w' ha hb hw h
      obtain ⟨k, hk, rfl⟩ := hb.of_bind_pure (.methodToken _ a.constructor)
      obtain ⟨r, hr', rfl⟩ := gives_bind_pure.1 h
      exact (methodOfToken_writes (Source.has_flatMap.1 hr a ha) hk hw hr').1.map _
  · next hoff =>
      obtain rfl := hb.of_pure
      obtain ⟨rfl, rfl⟩ := gives_mapM_nil.1 h
      refine Writes.options ?_
      simp only [if_neg hoff]
      exact .refl hw none

theorem rowsOfTrees_writes {rs rs' : List Row} {ts : List SigTree}
    (hr : C.source.Has (rs.flatMap Row.rows))
    (ht : Read C.source C.reader (Reading.typeTrees C.source.store rs) ts)
    (hw : C.Faithful .null w)
    (h : Gives (Writing.rowsOfTrees C.catalog (Reading.nonempty ts)) w rs' w') :
    C.Writes w w' (Reading.typeTrees C.source.store rs >>= fun ts => pure (Reading.nonempty ts))
      fun σ => Reading.typeTrees σ rs' >>= fun ts => pure (Reading.nonempty ts) := by
  refine Writes.nonempty (h := fun r σ => Reading.typeTree σ r) (ht.of_mapM (Steady.typeTree _)) ?_ hw h
  intro r t r' w w' hmem htree hw h
  exact (rowOfTree_puts r (plain_of_has (Source.has_flatMap.1 hr r hmem)) htree hw h).1.writes

theorem genericParam_writes {p p' : GenericParam} {q : GenericParameter} (hr : C.source.Has p.rows)
    (hq : Read C.source C.reader (Reading.genericParameter C.source.store p) q)
    (hw : C.Faithful .null w) (h : Gives (Writing.genericParam C.catalog q) w p' w') :
    C.Writes w w' (Reading.genericParameter C.source.store p) (Reading.genericParameter · p') := by
  obtain ⟨ts, hts, rfl⟩ := hq.of_bind_pure (.typeTrees _ p.constraints)
  obtain ⟨rs, hrs, rfl⟩ := gives_bind_pure.1 h
  have rows := rowsOfTrees_writes hr hts hw hrs
  refine ⟨rows.faithful, rows.step, ?_⟩
  have := rows.map fun ts : Option (List SigTree) =>
    (⟨p.name, Int32.ofNat p.attributes.toNat, Int32.ofNat p.number.toNat, ts⟩ : GenericParameter)
  simpa [Reading.genericParameter] using this.echo

theorem genericParams_writes {ps ps' : List GenericParam} {qs : Option (List GenericParameter)}
    (hr : C.source.Has (ps.flatMap GenericParam.rows))
    (hq : Read C.source C.reader (Reading.genericParameters C.source.store ps) qs)
    (hw : C.Faithful .null w) (h : Gives (Writing.genericParams C.catalog qs) w ps' w') :
    C.Writes w w' (Reading.genericParameters C.source.store ps) (Reading.genericParameters · ps') := by
  obtain ⟨list, hlist, rfl⟩ := hq.of_bind_pure (Steady.mapM ps (Steady.genericParameter _))
  exact Writes.nonempty (hlist.of_mapM (Steady.genericParameter _)) (fun hmem hb hw h =>
    genericParam_writes (Source.has_flatMap.1 hr _ hmem) hb hw h) hw h

theorem param_writes {p p' : ParamDef} {q : Parameter} (hr : C.source.Has p.rows)
    (hq : Read C.source C.reader (Reading.parameter C.source.store p) q)
    (hw : C.Faithful .null w) (h : Gives (Writing.param C.catalog q) w p' w') :
    C.Writes w w' (Reading.parameter C.source.store p) (Reading.parameter · p') := by
  obtain ⟨as, has, rfl⟩ := hq.of_bind_pure (.customAttributes _ p.customAttributes)
  obtain ⟨as', has', rfl⟩ := gives_bind_pure.1 h
  exact (customAttributes_writes hr has hw has').map_congr fun _ => by simp

/-! ### Properties and events -/

theorem property_writes {p p' : PropertyDef} {q : Property} (hr : C.source.Has p.rows)
    (hq : Read C.source C.reader (Reading.property C.source.store p) q)
    (hw : C.Faithful .null w) (h : Gives (Writing.property C.catalog q) w p' w') :
    C.Writes w w' (Reading.property C.source.store p) (Reading.property · p') := by
  obtain ⟨hsig, hattributes⟩ := Source.has_append.1 hr
  obtain ⟨sig, hs, hq⟩ := hq.of_bind (.callSigTree _ _) fun _ => (Steady.accessor _ _).bind fun _ =>
    (Steady.accessor _ _).bind fun _ => (Steady.customAttributes _ _).bind fun _ => .pure _
  obtain ⟨get, hget, hq⟩ := hq.of_bind (.accessor _ _) fun _ =>
    (Steady.accessor _ _).bind fun _ => (Steady.customAttributes _ _).bind fun _ => .pure _
  obtain ⟨set, hset, hq⟩ := hq.of_bind (.accessor _ _) fun _ =>
    (Steady.customAttributes _ _).bind fun _ => .pure _
  obtain ⟨as, has, rfl⟩ := hq.of_bind_pure (.customAttributes _ _)
  rw [Writing.property_eq] at h
  obtain ⟨sig', w₁, hs', h⟩ := gives_bind.1 h
  obtain ⟨-, h⟩ := gives_guard.1 h
  obtain ⟨get', w₂, hget', h⟩ := gives_bind.1 h
  obtain ⟨set', w₃, hset', h⟩ := gives_bind.1 h
  obtain ⟨as', has', rfl⟩ := gives_bind_pure.1 h
  have first := (callSigOf_puts _ (plain_of_has hsig) hs hw hs').1.writes
  have second := accessor_writes hget first.faithful hget'
  have third := accessor_writes hset second.faithful hset'
  have fourth := customAttributes_writes hattributes has third.faithful has'
  exact first.bind sig fun _ => second.bind get fun _ => third.bind set fun _ =>
    fourth.map_congr fun _ => by simp

theorem event_writes {e e' : EventDef} {q : Event} (hr : C.source.Has e.rows)
    (hq : Read C.source C.reader (Reading.event C.source.store e) q)
    (hw : C.Faithful .null w) (h : Gives (Writing.event C.catalog q) w e' w') :
    C.Writes w w' (Reading.event C.source.store e) (Reading.event · e') := by
  obtain ⟨htype, hattributes⟩ := Source.has_append.1 hr
  obtain ⟨type, ht, hq⟩ := hq.of_bind (.typeTree _ _) fun _ => (Steady.accessor _ _).bind fun _ =>
    (Steady.accessor _ _).bind fun _ => (Steady.accessor _ _).bind fun _ =>
      (Steady.customAttributes _ _).bind fun _ => .pure _
  obtain ⟨add, hadd, hq⟩ := hq.of_bind (.accessor _ _) fun _ => (Steady.accessor _ _).bind fun _ =>
    (Steady.accessor _ _).bind fun _ => (Steady.customAttributes _ _).bind fun _ => .pure _
  obtain ⟨remove, hremove, hq⟩ := hq.of_bind (.accessor _ _) fun _ =>
    (Steady.accessor _ _).bind fun _ => (Steady.customAttributes _ _).bind fun _ => .pure _
  obtain ⟨invoke, hinvoke, hq⟩ := hq.of_bind (.accessor _ _) fun _ =>
    (Steady.customAttributes _ _).bind fun _ => .pure _
  obtain ⟨as, has, rfl⟩ := hq.of_bind_pure (.customAttributes _ _)
  obtain ⟨type', w₁, ht', h⟩ := gives_bind.1 h
  obtain ⟨add', w₂, hadd', h⟩ := gives_bind.1 h
  obtain ⟨remove', w₃, hremove', h⟩ := gives_bind.1 h
  obtain ⟨invoke', w₄, hinvoke', h⟩ := gives_bind.1 h
  obtain ⟨as', has', rfl⟩ := gives_bind_pure.1 h
  have first := (rowOfTree_puts _ (plain_of_has htype) ht hw ht').1.writes
  have second := accessor_writes hadd first.faithful hadd'
  have third := accessor_writes hremove second.faithful hremove'
  have fourth := accessor_writes hinvoke third.faithful hinvoke'
  have fifth := customAttributes_writes hattributes has fourth.faithful has'
  exact first.bind type fun _ => second.bind add fun _ => third.bind remove fun _ =>
    fourth.bind invoke fun _ => fifth.map_congr fun _ => by simp

end Copy

end CilCatalog
