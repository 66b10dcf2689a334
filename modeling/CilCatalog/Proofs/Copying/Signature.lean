import CilCatalog.Proofs.Copying.Types
import CilCatalog.Proofs.Writing.Signature

/-!
# Writing signatures

A signature that is written for a tree is read as the one that the tree has been read from (`callSigOf_puts`).
-/

namespace CilCatalog

open Live

/-! ### Rows that are plain -/

namespace Source.Plain

variable {m : Source} {rs rs' : List Row}

theorem mono (h : m.Plain rs) (hs : rs' ⊆ rs) : m.Plain rs' :=
  ⟨fun t hm => h.types t (hs hm), fun n a hm => h.assemblies n a (hs hm)⟩

theorem left (h : m.Plain (rs ++ rs')) : m.Plain rs := h.mono (List.subset_append_left rs rs')

theorem right (h : m.Plain (rs ++ rs')) : m.Plain rs' := h.mono (List.subset_append_right rs rs')

theorem tail {r : Row} (h : m.Plain (r :: rs)) : m.Plain rs := h.mono (List.subset_cons_self r rs)

/-- A type that is there goes with rows that are plain. -/
theorem cons (h : m.Plain rs) {t : TypeId} (ht : t.index < m.store.typeDefs.length) :
    m.Plain (.typeDef t :: rs) where
  types u hm := by
    rcases List.mem_cons.1 hm with heq | hm
    · cases heq
      exact ht
    · exact h.types u hm
  assemblies n a hm := by
    rcases List.mem_cons.1 hm with heq | hm
    · cases heq
    · exact h.assemblies n a hm

end Source.Plain

namespace Copy

variable {C : Copy} {w w' w'' : WriteState} {α β : Type}

variable (C) in
/-- What has been written on the way from one state to another holds the rows, and reading it follows reading the original. -/
structure Puts (w w' : WriteState) (rs : List Row) (x : Reading α) (y : Store → Reading α) : Prop where
  faithful : C.Faithful .null w'
  step : w.TypeStep w'
  made : C.Made w'.store w.store.nextRow rs
  echo : C.Echo w'.store x y

theorem Made.step {lo : Nat} {rs : List Row} (h : C.Made w.store lo rs) (hw : C.Faithful .null w)
    (hst : w.Refers w') : C.Made w'.store lo rs := by
  refine h.grow (Nat.le_refl _) ?_ ?_ hst.nextRow
  · rw [← hw.image]
    exact hst.assemblyRefs
  · rw [← hw.image]
    exact hst.typeRefs

namespace Puts

variable {rs : List Row} {x : Reading α} {y : Store → Reading α}

/-- Nothing has been written. -/
theorem refl (hw : C.Faithful .null w) (a : α) : C.Puts w w [] (pure a) fun _ => pure a :=
  ⟨hw, .refl w, nofun, fun _ _ => .pure a⟩

/-- What is written first is there in the end. -/
theorem first (h : C.Puts w w' rs x y) (hst : w'.TypeStep w'') :
    C.Made w''.store w.store.nextRow rs ∧ C.Echo w''.store x y :=
  ⟨h.made.step h.faithful hst.toRefers, h.echo.extends hst.store⟩

/-- What is written second. -/
theorem second (h : C.Puts w' w'' rs x y) (hst : w.TypeStep w') :
    C.Made w''.store w.store.nextRow rs := by
  intro r hr
  rcases h.made r hr with ht | hm | ⟨n, t, rfl, hl, hu⟩
  · exact .inl ht
  · exact .inr (.inl hm)
  · exact .inr (.inr ⟨n, t, rfl, Nat.le_trans hst.nextRow hl, hu⟩)

/-- What has been written is used to make something of it. -/
theorem map_congr {f g : α → β} (h : C.Puts w w' rs x y) (hfg : ∀ a, f a = g a) :
    C.Puts w w' rs (x >>= fun a => pure (f a)) fun σ => y σ >>= fun a => pure (g a) := by
  obtain rfl : f = g := funext hfg
  exact ⟨h.faithful, h.step, h.made, fun σ he => (h.echo σ he).bind fun _ => .pure _⟩

theorem map {f : α → β} (h : C.Puts w w' rs x y) :
    C.Puts w w' rs (x >>= fun a => pure (f a)) fun σ => y σ >>= fun a => pure (f a) :=
  h.map_congr fun _ => rfl

theorem rows {rs' : List Row} (h : C.Puts w w' rs x y) (hrs : rs' ⊆ rs) : C.Puts w w' rs' x y :=
  ⟨h.faithful, h.step, fun r hr => h.made r (hrs hr), h.echo⟩

/-- Two things are written one after the other. -/
theorem bind {rs' : List Row} {x' : α → Reading β} {y' : α → Store → Reading β}
    (h : C.Puts w w' rs x y) (h' : C.Faithful .null w' → ∀ a, C.Puts w' w'' rs' (x' a) (y' a)) (a : α) :
    C.Puts w w'' (rs ++ rs') (x >>= x') fun σ => y σ >>= (y' · σ) := by
  have h₂ := h' h.faithful
  obtain ⟨hmade, hecho⟩ := h.first (h₂ a).step
  exact ⟨(h₂ a).faithful, h.step.trans (h₂ a).step, hmade.append ((h₂ a).second h.step),
    fun σ he => (hecho σ he).bind fun a => (h₂ a).echo σ he⟩

end Puts

/-! ### Types by their tokens -/

/-- The rows of a row that stands for a type are those of the copy. -/
theorem TypeStands.made {σ : Store} {id : TypeIdentity} {r : Row} (h : C.TypeStands σ id r)
    (hg : C.Ground σ) (lo : Nat) : C.Made σ lo r.rows := by
  intro x hx
  have hn := h.stands.names
  cases hn with
  | native t ht =>
      cases List.mem_singleton.1 hx
      exact .inl ⟨t, rfl⟩
  | foreign n ns name scope k a ha =>
      exact .inr (.inl (hg.tables.closed _ (List.mem_append_right _ (h.listed rfl)) x hx))

/-- The row that is written for the token of a type stands for the type. -/
theorem typeOfToken_held {r₀ r : Row} {k : Token} (hp : C.source.Plain r₀.rows)
    (hk : Read C.source C.reader (Reading.namedType C.source.store r₀) k)
    (hw : C.Faithful .null w) (h : Gives (Writing.typeOfToken C.catalog k) w r w') :
    C.Faithful .null w' ∧ w.TypeStep w' ∧ ∃ id, Names C.source r₀ id ∧ C.TypeHeld w' id r := by
  obtain ⟨id, e, hn, he, rfl⟩ := read_namedType hk
  obtain ⟨e', he', h⟩ := gives_bind_lookUp.1 h
  cases he.symm.trans he'
  obtain ⟨hw', hst, hs⟩ := typeRow_stands (known_of_names hp hn) hw h
  exact ⟨hw', hst, _, hn, hs⟩

theorem typeOfToken_puts {r₀ r : Row} {k : Token} (hp : C.source.Plain r₀.rows)
    (hk : Read C.source C.reader (Reading.namedType C.source.store r₀) k)
    (hw : C.Faithful .null w) (h : Gives (Writing.typeOfToken C.catalog k) w r w') :
    C.Puts w w' r.rows (Reading.namedType C.source.store r₀) (Reading.namedType · r) := by
  obtain ⟨hw', hst, id, hn, hs⟩ := typeOfToken_held hp hk hw h
  exact ⟨hw', hst, hs.stands.made hw'.ground _, echo_namedType hn hs.stands.stands⟩

/-! ### Signatures -/

variable (C) in
/-- The row of the copy is that of a type, and of one of its own if it is a definition. -/
structure IsParent (σ : Store) (r : Row) : Prop where
  isType : r.isType = true
  inside : ∀ {t}, r = .typeDef t → σ.TypeIn C.base t

/-- Every tree for the signature of a type is marked as one. -/
theorem typeSig_of_read {m : Source} {ρ : Reader} {t : TypeSig} {a : SigTree}
    (h : Read m ρ (Reading.typeSigTree m.store t) a) : ∃ code as, a = .typeSig code as := by
  cases t with
  | null => exact absurd h Read.not_refuse
  | leaf e he =>
      rw [h.of_pure]
      exact ⟨_, _, rfl⟩
  | generic v n =>
      rw [h.of_pure]
      exact ⟨_, _, rfl⟩
  | wrapper v t =>
      obtain ⟨_, -, rfl⟩ := h.of_bind_pure (Steady.typeSigTree _ t)
      exact ⟨_, _, rfl⟩
  | fnPtr c =>
      obtain ⟨_, -, rfl⟩ := h.of_bind_pure (Steady.callSigTree _ c)
      exact ⟨_, _, rfl⟩
  | named v r =>
      obtain ⟨_, -, rfl⟩ := h.of_bind_pure (Steady.namedType _ r)
      exact ⟨_, _, rfl⟩
  | array t rank sizes lower =>
      obtain ⟨_, -, rfl⟩ := h.of_bind_pure (Steady.typeSigTree _ t)
      exact ⟨_, _, rfl⟩
  | genericInst t ts =>
      obtain ⟨_, -, h⟩ := h.of_bind (Steady.typeSigTree _ t) fun _ =>
        (Steady.typeSigTrees _ ts).bind fun _ => .pure _
      obtain ⟨_, -, rfl⟩ := h.of_bind_pure (Steady.typeSigTrees _ ts)
      exact ⟨_, _, rfl⟩
  | valueArray t n =>
      obtain ⟨_, -, rfl⟩ := h.of_bind_pure (Steady.typeSigTree _ t)
      exact ⟨_, _, rfl⟩
  | modifier v r t =>
      obtain ⟨_, -, h⟩ := h.of_bind (Steady.typeTree _ r) fun _ =>
        (Steady.typeSigTree _ t).bind fun _ => .pure _
      obtain ⟨_, -, rfl⟩ := h.of_bind_pure (Steady.typeSigTree _ t)
      exact ⟨_, _, rfl⟩
  | module n t =>
      obtain ⟨_, -, rfl⟩ := h.of_bind_pure (Steady.typeSigTree _ t)
      exact ⟨_, _, rfl⟩

/-- A type specification is made for a tree that is marked as the signature of a type. -/
theorem rowOfTree_typeSpec {t : TypeSig} {a : SigTree} {r : Row} {n : Nat}
    (ha : Read C.source C.reader (Reading.typeSigTree C.source.store t) a)
    (h : Gives (Writing.rowOfTree C.catalog a) w r w')
    (hsig : ∀ {u w₁}, Gives (Writing.typeSigOf C.catalog a) w u w₁ →
      C.Puts w w₁ u.rows (Reading.typeSigTree C.source.store t) (Reading.typeSigTree · u)) :
    C.Puts w w' r.rows (Reading.typeTree C.source.store (.typeSpec n t)) (Reading.typeTree · r) ∧
      C.IsParent w'.store r := by
  obtain ⟨code, as, rfl⟩ := typeSig_of_read ha
  change Gives (Writing.typeSigOf C.catalog (.typeSig code as) >>= fun u =>
    Writing.making fun _ s => s.createTypeSpec u) w r w' at h
  obtain ⟨u, w₁, hu, h⟩ := gives_bind.1 h
  have hputs := hsig hu
  obtain ⟨rfl, rfl⟩ := gives_making.1 h
  obtain ⟨hw', hst⟩ := hputs.faithful.furnish
    (furnishes_addRow hputs.faithful.ground (.typeSpec · u))
  obtain ⟨hmade, hecho⟩ := hputs.first hst
  refine ⟨⟨hw', hputs.step.trans hst, fun r hr => ?_, hecho⟩, rfl, nofun⟩
  rcases List.mem_cons.1 hr with rfl | hr
  · exact .inr (.inr ⟨_, u, rfl, hputs.step.nextRow, Nat.lt_succ_self _⟩)
  · exact hmade r hr

theorem typeTree_of_names {m : Source} {r : Row} {id : TypeIdentity} (h : Names m r id) (s : Store) :
    Reading.typeTree s r = do return .token (← Reading.namedType s r) := by
  cases h <;> rfl

/-- A row that stands for a type is written for a token. -/
theorem rowOfTree_token {r₀ r : Row} {a : SigTree}
    (heq : Reading.typeTree C.source.store r₀ =
      do return .token (← Reading.namedType C.source.store r₀))
    (hp : C.source.Plain r₀.rows)
    (ha : Read C.source C.reader (Reading.typeTree C.source.store r₀) a)
    (hw : C.Faithful .null w) (h : Gives (Writing.rowOfTree C.catalog a) w r w') :
    C.Puts w w' r.rows (Reading.typeTree C.source.store r₀) (Reading.typeTree · r) ∧
      C.IsParent w'.store r := by
  rw [heq] at ha ⊢
  obtain ⟨k, hk, rfl⟩ := ha.of_bind_pure (Steady.namedType _ _)
  obtain ⟨-, -, id, -, hs⟩ := typeOfToken_held hp hk hw h
  have hnames := hs.stands.stands.names
  simp only [typeTree_of_names hnames]
  exact ⟨(typeOfToken_puts hp hk hw h).map, hnames.isType, hs.stands.inside⟩

theorem lengthTree_congr {as : List α} {bs : List β} (h : as.length = bs.length) :
    Reading.lengthTree as = Reading.lengthTree bs := by
  rw [Reading.lengthTree, Reading.lengthTree, h]

mutual

theorem rowOfTree_puts : ∀ (r₀ : Row) {a : SigTree} {r : Row} {w w' : WriteState},
    C.source.Plain r₀.rows → Read C.source C.reader (Reading.typeTree C.source.store r₀) a →
    C.Faithful .null w → Gives (Writing.rowOfTree C.catalog a) w r w' →
    C.Puts w w' r.rows (Reading.typeTree C.source.store r₀) (Reading.typeTree · r) ∧
      C.IsParent w'.store r
  | .typeSpec n t, a, r, w, w', hp, ha, hw, h =>
      rowOfTree_typeSpec ha h fun hu => typeSigOf_puts t hp.tail ha hw hu
  | .null, a, r, w, w', hp, ha, hw, h | .typeDef _, a, r, w, w', hp, ha, hw, h
  | .typeRef _ _ _ _, a, r, w, w', hp, ha, hw, h | .assemblyRef _ _, a, r, w, w', hp, ha, hw, h
  | .moduleRef _ _, a, r, w, w', hp, ha, hw, h | .fieldDef _, a, r, w, w', hp, ha, hw, h
  | .methodDef _, a, r, w, w', hp, ha, hw, h | .memberRef _ _ _ _, a, r, w, w', hp, ha, hw, h
  | .methodSpec _ _ _, a, r, w, w', hp, ha, hw, h => rowOfTree_token rfl hp ha hw h

theorem typeSigOf_puts : ∀ (t : TypeSig) {a : SigTree} {u : TypeSig} {w w' : WriteState},
    C.source.Plain t.rows → Read C.source C.reader (Reading.typeSigTree C.source.store t) a →
    C.Faithful .null w → Gives (Writing.typeSigOf C.catalog a) w u w' →
    C.Puts w w' u.rows (Reading.typeSigTree C.source.store t) (Reading.typeSigTree · u)
  -- along the signature that was read: what is written for each of its parts reads as that part did
  | .null, a, u, w, w', _, ha, _, _ => absurd ha Read.not_refuse
  | .leaf e he, a, u, w, w', _, ha, hw, h => by
      obtain rfl := ha.of_pure
      rw [typeSigOf_leaf _ e he] at h
      obtain ⟨rfl, rfl⟩ := gives_pure.1 h
      exact .refl hw _
  | .wrapper v t, a, u, w, w', hp, ha, hw, h => by
      obtain ⟨b, hb, rfl⟩ := ha.of_bind_pure (Steady.typeSigTree _ t)
      rw [typeSigOf_wrapper] at h
      obtain ⟨u', hu, rfl⟩ := gives_bind_pure.1 h
      exact (typeSigOf_puts t hp hb hw hu).map
  | .fnPtr c, a, u, w, w', hp, ha, hw, h => by
      obtain ⟨b, hb, rfl⟩ := ha.of_bind_pure (Steady.callSigTree _ c)
      rw [typeSigOf_fnPtr] at h
      obtain ⟨sig, w₁, hsig, hlast⟩ := gives_bind.1 h
      split at hlast
      · obtain ⟨rfl, rfl⟩ := gives_pure.1 hlast
        exact (callSigOf_puts c hp hb hw hsig).1.map
      · exact absurd hlast gives_refuseWrite
  | .named v r, a, u, w, w', hp, ha, hw, h => by
      obtain ⟨k, hk, rfl⟩ := ha.of_bind_pure (Steady.namedType _ r)
      rw [typeSigOf_named] at h
      obtain ⟨r', hr, rfl⟩ := gives_bind_pure.1 h
      exact (typeOfToken_puts hp hk hw hr).map
  | .generic v n, a, u, w, w', _, ha, hw, h => by
      obtain rfl := ha.of_pure
      rw [typeSigOf_generic] at h
      obtain ⟨n', hn, hlast⟩ := gives_bind_argument.1 h
      obtain ⟨rfl, rfl⟩ := gives_pure.1 hlast
      obtain rfl := eq_of_unsignedOf hn
      exact .refl hw _
  | .array t rank sizes lower, a, u, w, w', hp, ha, hw, h => by
      obtain ⟨b, hb, rfl⟩ := ha.of_bind_pure (Steady.typeSigTree _ t)
      rw [List.cons_append, typeSigOf_array] at h
      obtain ⟨u', w₁, hu, hrest⟩ := gives_bind.1 h
      obtain ⟨shape, hshape, hlast⟩ := gives_bind_argument.1 hrest
      obtain ⟨rfl, rfl⟩ := gives_pure.1 hlast
      obtain rfl := eq_of_ofArguments hshape
      exact (typeSigOf_puts t hp hb hw hu).map
  | .genericInst t ts, a, u, w, w', hp, ha, hw, h => by
      obtain ⟨b, hb, hrest⟩ := ha.of_bind (Steady.typeSigTree _ t) fun _ =>
        (Steady.typeSigTrees _ ts).bind fun _ => .pure _
      obtain ⟨bs, hbs, rfl⟩ := hrest.of_bind_pure (Steady.typeSigTrees _ ts)
      rw [typeSigOf_genericInst] at h
      obtain ⟨u', w₁, hu, h⟩ := gives_bind.1 h
      obtain ⟨count, -, h⟩ := gives_bind_argument.1 h
      obtain ⟨-, -, h⟩ := gives_bind_argument.1 h
      obtain ⟨us, hus, rfl⟩ := gives_bind_pure.1 h
      have first := typeSigOf_puts t hp.left hb hw hu
      obtain ⟨others, hlen⟩ := typeSigsOf_puts ts hp.right hbs first.faithful hus
      exact first.bind (fun _ _ => others.map_congr fun _ => by rw [lengthTree_congr hlen]) b
  | .valueArray t n, a, u, w, w', hp, ha, hw, h => by
      obtain ⟨b, hb, rfl⟩ := ha.of_bind_pure (Steady.typeSigTree _ t)
      rw [typeSigOf_valueArray] at h
      obtain ⟨u', w₁, hu, hrest⟩ := gives_bind.1 h
      obtain ⟨n', hn, hlast⟩ := gives_bind_argument.1 hrest
      obtain ⟨rfl, rfl⟩ := gives_pure.1 hlast
      obtain rfl := eq_of_unsignedOf hn
      exact (typeSigOf_puts t hp hb hw hu).map
  | .modifier v r t, a, u, w, w', hp, ha, hw, h => by
      obtain ⟨b, hb, hrest⟩ := ha.of_bind (Steady.typeTree _ r) fun _ =>
        (Steady.typeSigTree _ t).bind fun _ => .pure _
      obtain ⟨b', hb', rfl⟩ := hrest.of_bind_pure (Steady.typeSigTree _ t)
      rw [typeSigOf_modifier] at h
      obtain ⟨r', w₁, hr, h⟩ := gives_bind.1 h
      obtain ⟨u', hu, rfl⟩ := gives_bind_pure.1 h
      exact (rowOfTree_puts r hp.left hb hw hr).1.bind (fun hw₁ _ =>
        (typeSigOf_puts t hp.right hb' hw₁ hu).map) b
  | .module n t, a, u, w, w', hp, ha, hw, h => by
      obtain ⟨b, hb, rfl⟩ := ha.of_bind_pure (Steady.typeSigTree _ t)
      rw [typeSigOf_module] at h
      obtain ⟨n', hn, hrest⟩ := gives_bind_argument.1 h
      obtain ⟨u', hu, rfl⟩ := gives_bind_pure.1 hrest
      obtain rfl := eq_of_unsignedOf hn
      exact (typeSigOf_puts t hp hb hw hu).map

theorem typeSigsOf_puts : ∀ (ts : List TypeSig) {as : List SigTree} {us : List TypeSig}
    {w w' : WriteState}, C.source.Plain (TypeSig.rowsOf ts) →
    Read C.source C.reader (Reading.typeSigTrees C.source.store ts) as →
    C.Faithful .null w → Gives (Writing.typeSigsOf C.catalog as) w us w' →
    C.Puts w w' (TypeSig.rowsOf us) (Reading.typeSigTrees C.source.store ts)
      (Reading.typeSigTrees · us) ∧ us.length = ts.length
  | [], as, us, w, w', _, ha, hw, h => by
      obtain rfl := ha.of_pure
      obtain ⟨rfl, rfl⟩ := gives_typeSigsOf_nil.1 h
      exact ⟨.refl hw _, rfl⟩
  | t :: ts, as, us, w, w', hp, ha, hw, h => by
      obtain ⟨b, hb, hrest⟩ := ha.of_bind (Steady.typeSigTree _ t) fun _ =>
        (Steady.typeSigTrees _ ts).bind fun _ => .pure _
      obtain ⟨bs, hbs, rfl⟩ := hrest.of_bind_pure (Steady.typeSigTrees _ ts)
      obtain ⟨u, w₁, us', hu, hus, rfl⟩ := gives_typeSigsOf_cons.1 h
      have first := typeSigOf_puts t hp.left hb hw hu
      obtain ⟨others, hlen⟩ := typeSigsOf_puts ts hp.right hbs first.faithful hus
      exact ⟨first.bind (fun _ _ => others.map) b, congrArg (· + 1) hlen⟩

theorem callSigOf_puts : ∀ (c : CallSig) {a : SigTree} {u : CallSig} {w w' : WriteState},
    C.source.Plain c.rows → Read C.source C.reader (Reading.callSigTree C.source.store c) a →
    C.Faithful .null w → Gives (Writing.callSigOf C.catalog a) w u w' →
    C.Puts w w' u.rows (Reading.callSigTree C.source.store c) (Reading.callSigTree · u) ∧
      u.raw = c.raw
  | .null, a, u, w, w', _, ha, _, _ => absurd ha Read.not_refuse
  | .method raw _ count t ps vs, a, u, w, w', hp, ha, hw, h => by
      obtain ⟨hraw, ha⟩ := ha.of_checkConvention <| (Steady.typeSigTree _ t).bind fun _ =>
        (Steady.typeSigTrees _ ps).bind fun _ => (Steady.typeSigTrees _ vs).bind fun _ => .pure _
      obtain ⟨b, hb, hrest⟩ := ha.of_bind (Steady.typeSigTree _ t) fun _ =>
        (Steady.typeSigTrees _ ps).bind fun _ => (Steady.typeSigTrees _ vs).bind fun _ => .pure _
      obtain ⟨bps, hbps, hrest⟩ := hrest.of_bind (Steady.typeSigTrees _ ps) fun _ =>
        (Steady.typeSigTrees _ vs).bind fun _ => .pure _
      obtain ⟨bvs, hbvs, rfl⟩ := hrest.of_bind_pure (Steady.typeSigTrees _ vs)
      obtain ⟨k, f, g, i, hk, hf, hcode, hgeneric, hsig⟩ := gives_callSigOf_method hraw h
      obtain ⟨t', w₁, ps', w₂, vs', ht, hps, hvs, rfl⟩ := gives_methodSigOf hk hf hsig
      have first := typeSigOf_puts t hp.left.left hb hw ht
      obtain ⟨second, hlen⟩ := typeSigsOf_puts ps hp.left.right hbps first.faithful hps
      obtain ⟨third, hlen'⟩ := typeSigsOf_puts vs hp.right hbvs second.faithful hvs
      subst hcode
      simp only [callSigTree_method hraw]
      refine ⟨Puts.rows (first.bind (fun _ _ => second.bind (fun _ _ =>
        third.map_congr fun _ => ?_) bps) b) ?_, rfl⟩
      · rw [hgeneric]
      · rw [← List.append_assoc]
        exact List.Subset.refl _
  | .field t, a, u, w, w', hp, ha, hw, h => by
      obtain ⟨b, hb, rfl⟩ := ha.of_bind_pure (Steady.typeSigTree _ t)
      rw [callSigOf_field] at h
      obtain ⟨u', hu, rfl⟩ := gives_bind_pure.1 h
      exact ⟨(typeSigOf_puts t hp hb hw hu).map, rfl⟩
  | .locals ts, a, u, w, w', hp, ha, hw, h => by
      obtain ⟨bs, hbs, rfl⟩ := ha.of_bind_pure (Steady.typeSigTrees _ ts)
      rw [callSigOf_locals] at h
      obtain ⟨us, hus, rfl⟩ := gives_bind_pure.1 h
      obtain ⟨hputs, hlen⟩ := typeSigsOf_puts ts hp hbs hw (gives_countedTypesOf hus)
      exact ⟨hputs.map_congr fun _ => by rw [lengthTree_congr hlen], rfl⟩
  | .inst ts, a, u, w, w', hp, ha, hw, h => by
      obtain ⟨bs, hbs, rfl⟩ := ha.of_bind_pure (Steady.typeSigTrees _ ts)
      rw [callSigOf_inst] at h
      obtain ⟨us, hus, rfl⟩ := gives_bind_pure.1 h
      obtain ⟨hputs, hlen⟩ := typeSigsOf_puts ts hp hbs hw (gives_countedTypesOf hus)
      exact ⟨hputs.map_congr fun _ => by rw [lengthTree_congr hlen], rfl⟩

end

end Copy

end CilCatalog
