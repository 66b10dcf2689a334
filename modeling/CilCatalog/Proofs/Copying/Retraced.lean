import CilCatalog.Proofs.Copying.Complete

/-!
# Reading a copy

A copy is read as the module has been read, step by step: a reader of the copy goes through the same states as that of the module, until everything is on record.

* `Copy.Retraces`: what a reading of the module does on its way to what is on record in the end, a reading of the copy does as well.
* `Copy.types_retraces`: reading the types of the copy retraces reading those of the module.
-/

namespace CilCatalog

open Live

namespace Copy

variable {C : Copy} {w : WriteState} {α β γ : Type}

/-! ### Readings that retrace others -/

/-- On the way to what is on record in the end, whatever the first reading does, the second does for the copy. -/
def Retraces (C : Copy) (x y : Reading α) : Prop :=
  ∀ ⦃ρ a ρ'⦄, Sound C.source ρ → Recorded C.source ρ → Gives x ρ a ρ' → ρ'.Grows C.reader →
    Gives y (ρ.onto C.image) a (ρ'.onto C.image)

/-- What follows does what the first reading does, in any state. -/
theorem Follows.gives {x y : Reading α} {ρ ρ' : Reader} {a : α} (h : C.Follows x y)
    (hs : Sound C.source ρ) (hx : Gives x ρ a ρ') :
    Gives y (ρ.onto C.image) a (ρ'.onto C.image) :=
  (h _ _ _ hs.image hs.options hx).2.2

theorem Follows.retraces {x y : Reading α} (h : C.Follows x y) : C.Retraces x y :=
  fun _ _ _ hs _ hx _ => h.gives hs hx

theorem Echo.follows {σ : Store} {x : Reading α} {y : Store → Reading α} (h : C.Echo σ x y) :
    C.Follows x (y σ) := h σ (.refl σ)

theorem Retraces.mapM {f : α → Reading γ} {g : β → Reading γ} {Q : α → Reader → γ → Prop}
    {as : List α} {bs : List β} (h : List.Forall₂ (fun a b => C.Retraces (f a) (g b)) as bs)
    (hf : ∀ a ∈ as, Records C.source (f a) (Q a))
    (hQ : ∀ {a ρ ρ' c}, Q a ρ c → ρ.Grows ρ' → Q a ρ' c) :
    C.Retraces (as.mapM f) (bs.mapM g) := by
  induction h with
  | nil => exact (Follows.pure []).retraces
  | @cons a b as bs hab _ ih =>
      intro ρ cs ρ' hs hr hx hg
      obtain ⟨c, ρ₁, cs', hc, hcs, rfl⟩ := gives_mapM_cons.1 hx
      have hfs : ∀ a' ∈ as, Records C.source (f a') (Q a') :=
        fun a' ha' => hf a' (List.mem_cons_of_mem a ha')
      obtain ⟨hs₁, hr₁, -, -⟩ := hf a List.mem_cons_self hs hr hc
      obtain ⟨-, -, hg₁, -⟩ := Records.mapM hfs hQ hs₁ hr₁ hcs
      exact gives_mapM_cons.2 ⟨c, ρ₁.onto C.image, cs', hab hs hr hc (hg₁.trans hg),
        ih hfs hs₁ hr₁ hcs hg, rfl⟩

/-! ### Members -/

/-- The identity of a field that has been written is read as that of the field of the module. -/
theorem FieldWritten.identity {f g : FieldId} (hw : C.Faithful .null w) (h : C.FieldWritten w f g) :
    C.Echo w.store (Reading.fieldIdentity C.source.store f) (Reading.fieldIdentity · g) := by
  obtain ⟨id, r, hid, hr, hrow, -⟩ := h
  obtain ⟨-, hs⟩ := hw.remembered.fields hr
  rw [hrow] at hs
  cases hs with
  | defined _ _ _ _ _ _ hren => exact hren.follows ((FieldSource.defined f).readFrom hid)

/-- The identity of a method that has been written is read as that of the method of the module. -/
theorem MethodWritten.identity {f g : MethodId} (hw : C.Faithful .null w)
    (h : C.MethodWritten w f g) :
    C.Echo w.store (Reading.methodIdentity C.source.store f) (Reading.methodIdentity · g) := by
  obtain ⟨id, r, hid, hr, hrow, -⟩ := h
  obtain ⟨-, hs⟩ := hw.remembered.methods hr
  rw [hrow] at hs
  cases hs with
  | defined _ _ _ _ _ _ hren => exact hren.follows ((MethodSource.defined f).readFrom hid)

/-- A member is read as that of the module if its identity is, and its data as far as they are on record in the end. -/
theorem member_retraces {δ : Type} {K L : ReadingKind MemberIdentity δ} (law : K.Recording C.source)
    (identity : C.Follows K.identity L.identity)
    (register : ∀ e level, C.Follows (K.part.register e level) (L.part.register e level))
    (data : ∀ {k id d}, (K.part.entities C.reader).get? k = some (.definition id d) →
      K.Gave C.source C.reader id d → C.Follows K.data L.data) :
    C.Retraces (K.member .definition) (L.member .definition) := by
  intro ρ k ρ' hs hr h hg
  rw [ReadingKind.member_definition] at h ⊢
  obtain ⟨id, ρ₁, hid, h⟩ := gives_bind.1 h
  obtain ⟨hs₁, hr₁, -, hread⟩ := Records.of_steady law.identity hs hr hid
  obtain ⟨u, ρ₂, hu, h⟩ := gives_bind.1 h
  obtain ⟨hs₂, hr₂, hg₂, -⟩ := records_reference K.part hs₁ hr₁ trivial hu
  refine gives_bind.2 ⟨id, _, identity.gives hs hid, gives_bind.2
    ⟨u, _, (register _ _).gives hs₁ hu, ?_⟩⟩
  split at h
  · next hle =>
      obtain ⟨rfl, rfl⟩ := gives_pure.1 h
      rw [if_pos hle]
      exact gives_pure.2 ⟨rfl, rfl⟩
  · next hle =>
      rw [if_neg hle]
      obtain ⟨d, ρ₃, hd, h⟩ := gives_bind.1 h
      obtain ⟨hs₃, hr₃, hg₃, hdata⟩ := Records.of_steady law.data hs₂ hr₂ hd
      obtain ⟨v, hv, rfl⟩ := gives_bind_pure.1 h
      have stored := law.kept hg (law.stored_definition hs₁ hu hle hd hv)
      have gave : K.Gave C.source ρ₃ id d := ⟨hread.grow (hg₂.trans hg₃), hdata⟩
      have hg₄ := (law.records_definition hs₃ hr₃ gave hv).2.2.1
      have follows := data stored (gave.grow (hg₄.trans hg))
      exact gives_bind.2 ⟨d, _, follows.gives hs₂ hd,
        gives_bind_pure.2 ⟨v, (register _ _).gives hs₃ hv, rfl⟩⟩

/-- A field that has been written is read as that of the module. -/
theorem field_retraces {f g : FieldId} (hw : C.Faithful .null w) (hc : C.FieldWritten w f g) :
    C.Retraces (Reading.field C.source.store (some f) .definition)
      (Reading.field w.store (some g) .definition) := by
  refine member_retraces (K := fieldKind C.source.store f) (L := fieldKind w.store g)
    (fieldKind_recording f) (hc.identity hw).follows Follows.registerField fun stored gave => ?_
  -- the data on record is that of the field which has been written
  obtain ⟨id', r, hread', hfound, hrow, hlevel⟩ := hc
  obtain rfl := gave.1.unique hread' (.fieldIdentity _ f) C.sound
  exact (hw.copied.fields hfound hrow hlevel stored f (has_of_fieldIdentity gave.1) gave.2).follows

/-- A method that has been written is read as that of the module. -/
theorem method_retraces {f g : MethodId} (hw : C.Faithful .null w) (hc : C.MethodWritten w f g) :
    C.Retraces (Reading.method C.source.store (some f) .definition)
      (Reading.method w.store (some g) .definition) := by
  refine member_retraces (K := methodKind C.source.store f) (L := methodKind w.store g)
    (methodKind_recording f) (hc.identity hw).follows Follows.registerMethod fun stored gave => ?_
  -- the data on record is that of the method which has been written
  obtain ⟨id', r, hread', hfound, hrow, hlevel⟩ := hc
  obtain rfl := gave.1.unique hread' (.methodIdentity _ f) C.sound
  exact (hw.copied.methods hfound hrow hlevel stored f (has_of_methodIdentity gave.1) gave.2).follows

/-! ### Types -/

section Types

variable {t n : TypeId} {k : Token} {ks : List Token}

theorem TypeWritten.mono {level level' : Level} (h : C.TypeWritten w level t n) (hl : level' ≤ level) :
    C.TypeWritten w level' t n := by
  obtain ⟨r, hr, hrow, hle⟩ := h
  exact ⟨r, hr, hrow, Level.le_trans hl hle⟩

/-- A type that is nested in one of the copy has been made after it. -/
theorem Ground.nested_lt {σ : Store} (hg : C.Ground σ) (ht : σ.TypeIn C.base t)
    (hn : n ∈ (σ.typeDef t).nestedTypes) : t.index < n.index := by
  obtain ⟨hin, hd⟩ := hg.nested ht hn
  exact ((hg.layered n hin).2 t hd).2

/-- Whatever is registered under the identity of a type, nothing is lost. -/
theorem grows_registerType {e : TypeEntity} {level : Level} {v : Registered} {ρ ρ' : Reader}
    (hs : Sound C.source ρ) (hid : Normal e.identity)
    (h : Gives (Reading.registerType e level) ρ v ρ') : ρ.Grows ρ' := by
  obtain ⟨l, t, step, rfl⟩ := step_of_registerType hs hid h
  exact ⟨step.grows hs.types hid, .refl _, .refl _, id, id⟩

/-- Putting the children of a type of the copy on record does what it does for the type of the module. -/
theorem children_retraces (hw : C.Faithful .null w)
    (ht : C.source.store.Owns C.source.image t)
    (hn : C.TypeWritten w .withChildren t n) :
    C.Retraces (Reading.children C.source.store t k ks) (Reading.children w.store n k ks) := by
  intro ρ u ρ' hs hr h hg
  obtain ⟨fs, ρ₁, ms, ρ₂, ps, ρ₃, es, ρ₄, id, d, v, hfs, hms, hps, hes, hget, hv⟩ :=
    gives_children.1 h
  obtain ⟨hs₁, hr₁, -, -⟩ := fields_records _ hs hr hfs
  obtain ⟨hs₂, hr₂, hg₂, -⟩ := methods_records _ hs₁ hr₁ hms
  obtain ⟨hs₃, hr₃, hg₃, -⟩ := Records.of_steady (.mapM _ (Steady.property _)) hs₂ hr₂ hps
  obtain ⟨hs₄, hr₄, hg₄, -⟩ := Records.of_steady (.mapM _ (Steady.event _)) hs₃ hr₃ hes
  obtain ⟨t', -, rfl, -⟩ := hr₄.types hget
  have hg₅ := (grows_registerType (e := .definition _ _) hs₄
    (definitionIdentity_normal C.source.store t') hv).trans hg
  have copied := hw.copied.children ht hn
  have fields : C.Retraces (Reading.fields C.source.store ((C.source.store.typeDef t).fields.map some)
      .definition) (Reading.fields w.store ((w.store.typeDef n).fields.map some) .definition) := by
    unfold Reading.fields
    rw [List.mapM_map, List.mapM_map]
    exact Retraces.mapM ((copied.fields.exact hw ht hn).imp fun _ _ hf => field_retraces hw hf)
      (fun f _ => field_records f) fun h hg => h.grow hg
  have methods : C.Retraces
      (Reading.methods C.source.store ((C.source.store.typeDef t).methods.map some) .definition)
      (Reading.methods w.store ((w.store.typeDef n).methods.map some) .definition) := by
    unfold Reading.methods
    rw [List.mapM_map, List.mapM_map]
    exact Retraces.mapM ((copied.methods.exact hw ht hn).imp fun _ _ hf => method_retraces hw hf)
      (fun f _ => method_records f) fun h hg => h.grow hg
  have properties := Follows.mapM (copied.properties.imp fun _ _ h => h.follows)
  have events := Follows.mapM (copied.events.imp fun _ _ h => h.follows)
  exact gives_children.2 ⟨fs, _, ms, _, ps, _, es, _, _, d, v,
    fields hs hr hfs (hg₂.trans (hg₃.trans (hg₄.trans hg₅))),
    methods hs₁ hr₁ hms (hg₃.trans (hg₄.trans hg₅)), properties.gives hs₂ hps,
    events.gives hs₃ hes, hget, (Follows.registerType _ _).gives hs₄ hv⟩

/-- The definition of a type of the copy is put on record as that of the type of the module. -/
theorem definesType_retraced {old : Level} {ρ ρ' : Reader} (hw : C.Faithful .null w)
    (ht : C.source.store.Owns C.source.image t)
    (hn : C.TypeWritten w .definition t n) (hs : Sound C.source ρ)
    (h : DefinesType C.source.store t old ρ ρ') :
    DefinesType w.store n old (ρ.onto C.image) (ρ'.onto C.image) := by
  obtain ⟨hlt, d, ρ₁, v, hd, hv⟩ | ⟨hlt, rfl⟩ := h
  · have hs₁ := (Steady.typeData _ _).sound hs hd
    refine .inl ⟨hlt, d, _, v, (hw.copied.types ht hn).follows.gives hs hd, ?_⟩
    rw [hw.remembered.identity_eq hn]
    exact (Follows.registerType _ _).gives hs₁ hv
  · exact .inr ⟨hlt, rfl⟩

/-- A type that has been written with its children is read as that of the module. -/
theorem typeWithin_retraces (hw : C.Faithful .null w) (depth : Nat) :
    ∀ {t n : TypeId} {depth' : Nat}, t.index < C.source.store.typeDefs.length →
      C.TypeWritten w .withChildren t n → w.store.typeDefs.length < depth' + n.index →
      C.Retraces (Reading.typeWithin C.source.store depth (some t) .withChildren)
        (Reading.typeWithin w.store depth' (some n) .withChildren) := by
  induction depth with
  | zero => exact fun _ _ _ _ _ _ _ _ h => absurd h gives_throw
  | succ depth ih =>
      intro t n depth' hthere hn hdeep ρ k ρ' hs hr h hg
      have hin := hw.remembered.typeIn hn
      obtain ⟨depth', rfl⟩ : ∃ i, depth' = i + 1 :=
        Nat.exists_eq_succ_of_ne_zero fun h0 => by have := hin.2; omega
      obtain ⟨hi, u, ρ₁, hu, rfl, hrest⟩ := gives_typeWithin.1 h
      have ht : C.source.store.Owns C.source.image t := ⟨hthere, hi.trans hs.image⟩
      have hnormal := definitionIdentity_normal C.source.store t
      obtain ⟨hs₁, hr₁, hg₁, r, hf, htok, -⟩ := records_reference .types hs hr hnormal hu
      have hu' : Gives (Reading.registerType (.reference (Reading.definitionIdentity w.store n))
          .reference) (ρ.onto C.image) u (ρ₁.onto C.image) := by
        rw [hw.remembered.identity_eq hn]
        exact (Follows.registerType _ _).gives hs hu
      refine gives_typeWithin.2 ⟨(hw.ground.layered n hin).1, u, _, hu', rfl, ?_⟩
      obtain ⟨hle, rfl⟩ | ⟨hle, ρ₂, ks, ρ₃, v, hdef, hks, hv⟩ := hrest
      · exact .inl ⟨hle, rfl⟩
      · obtain ⟨hs₂, hr₂, hg₂⟩ := definesType_records ht hs₁ hr₁ hdef
        have there := fun i => C.regular.nested_there (n := i) ht
        obtain ⟨hs₃, hr₃, hg₃, hdone⟩ := Records.mapM
          (fun i hi => typeWithin_records C.regular depth (there i hi)) (fun h hg => h.grow hg) hs₂ hr₂ hks
        obtain ⟨r', hf', htok', -⟩ := (hg₂.trans hg₃).types _ r hnormal hf
        have hg₄ := (children_records C.regular ht hs₃ hr₃ ⟨r', hf', htok'.trans htok⟩ hdone hv).2.2.1
        have hnested := (hw.copied.children ht hn).nested.exact hw ht hn
        have inside : ∀ i ∈ (w.store.typeDef n).nestedTypes, n.index < i.index :=
          fun _ => hw.ground.nested_lt hin
        have all := (List.forall₂_and_left _ _).2
          ⟨there, ((List.forall₂_and_left _ _).2 ⟨inside, hnested.flip⟩).flip⟩
        have nested : C.Retraces
            ((C.source.store.typeDef t).nestedTypes.mapM fun i =>
              Reading.typeWithin C.source.store depth (some i) .withChildren)
            ((w.store.typeDef n).nestedTypes.mapM fun i =>
              Reading.typeWithin w.store depth' (some i) .withChildren) := by
          refine Retraces.mapM (all.imp fun _ i hi => ih hi.1 hi.2.2 ?_)
            (fun i hi => typeWithin_records C.regular depth (there i hi)) fun h hg => h.grow hg
          have := hi.2.1
          omega
        exact .inr ⟨hle, _, ks, _, v,
          definesType_retraced hw ht (hn.mono (show Level.definition ≤ .withChildren by decide)) hs₁ hdef,
          nested hs₂ hr₂ hks (hg₄.trans hg), children_retraces hw ht hn hs₃ hr₃ hv hg⟩

/-- Reading types of the copy retraces reading those that they have been written for. -/
theorem types_retraces {ts ns : List TypeId} (hw : C.Faithful .null w)
    (ht : ∀ t ∈ ts, t.index < C.source.store.typeDefs.length)
    (h : List.Forall₂ (C.TypeWritten w .withChildren) ts ns) :
    C.Retraces (Reading.types C.source.store (ts.map some) .withChildren)
      (Reading.types w.store (ns.map some) .withChildren) := by
  have all := (List.forall₂_and_left _ _).2 ⟨ht, h⟩
  unfold Reading.types
  rw [List.mapM_map, List.mapM_map]
  refine Retraces.mapM (all.imp fun _ n hn => typeWithin_retraces hw _ hn.1 hn.2 ?_)
    (fun t hmem => typeWithin_records C.regular _ (ht t hmem)) fun h hg => h.grow hg
  omega

end Types

end Copy

end CilCatalog
