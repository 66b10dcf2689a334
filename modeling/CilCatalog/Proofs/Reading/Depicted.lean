import CilCatalog.Proofs.Depicts
import CilCatalog.Proofs.Live.Nameable
import CilCatalog.Proofs.Reading.Mirrored
import CilCatalog.Proofs.Reading.Read

/-!
# What depicted signatures are read as

The signature that a tree depicts is read as the same tree with other tokens: each token becomes the one that the reader gives to the row that it stands for.  For what is read of a signature depicts it too, and two trees that depict one signature differ in their tokens only.

* `Depicts.of_read`: what has been read of a signature depicts it.
* `TurnsTokens`: tokens are turned into what has been read of the rows that they stand for.
* `Depicts.turned`: what has been read of a signature is the tree that depicts it, with its tokens turned.
-/

namespace CilCatalog

open Live

/-- The token of the row of an entity. -/
def Reading.entityToken (s : Store) : EntityKind → Row → Reading Token
  | .type   => namedType s
  | .field  => fieldToken s
  | .method => methodToken s

theorem Steady.entityToken {m : Source} (s : Store) (kind : EntityKind) (r : Row) :
    Steady m (Reading.entityToken s kind r) := by
  cases kind with
  | type => exact .namedType s r
  | field => exact .fieldToken s r
  | method => exact .methodToken s r

/-! ### Reading makes trees that depict -/

section Read

variable {m : Source} {σ : Reader}

/-- The token has been read of the row of a type that has a name. -/
def NameRead (m : Source) (σ : Reader) (k : Token) (r : Row) : Prop :=
  Read m σ (Reading.namedType m.store r) k

mutual

theorem DepictsRow.of_read {t : SigTree} : ∀ {r : Row}, Read m σ (Reading.typeTree m.store r) t →
    DepictsRow (NameRead m σ) t r
  | .typeSpec _ sig, h => by
      have depicts : Depicts (NameRead m σ) t sig := Depicts.of_read h
      exact .spec depicts
  | .null, h | .typeDef _, h | .typeRef _ _ _ _, h | .assemblyRef _ _, h | .moduleRef _ _, h
  | .fieldDef _, h | .methodDef _, h | .memberRef _ _ _ _, h | .methodSpec _ _ _, h => by
      obtain ⟨k, hk, rfl⟩ := h.of_bind_pure (Steady.namedType _ _)
      exact .named hk

/-- The tree that is read of the signature of a type depicts it. -/
theorem Depicts.of_read {t : SigTree} : ∀ {sig : TypeSig},
    Read m σ (Reading.typeSigTree m.store sig) t → Depicts (NameRead m σ) t sig
  | .null, h => absurd h Read.not_refuse
  | .leaf e he, h => by
      obtain rfl := h.of_pure
      exact .leaf e he
  | .wrapper v sig, h => by
      obtain ⟨u, hu, rfl⟩ := h.of_bind_pure (Steady.typeSigTree _ sig)
      exact .wrapper v (Depicts.of_read hu)
  | .fnPtr c, h => by
      obtain ⟨u, hu, rfl⟩ := h.of_bind_pure (Steady.callSigTree _ c)
      exact .fnPtr (DepictsCall.of_read hu)
  | .named byValue r, h => by
      obtain ⟨k, hk, rfl⟩ := h.of_bind_pure (Steady.namedType _ r)
      exact .named byValue hk
  | .generic ofMethod n, h => by
      obtain rfl := h.of_pure
      exact .generic ofMethod n
  | .array sig rank sizes lower, h => by
      obtain ⟨u, hu, rfl⟩ := h.of_bind_pure (Steady.typeSigTree _ sig)
      exact .array (Depicts.of_read hu) rank sizes lower
  | .genericInst sig sigs, h => by
      obtain ⟨u, hu, h⟩ := h.of_bind (Steady.typeSigTree _ sig)
        fun _ => (Steady.typeSigTrees _ sigs).bind fun _ => .pure _
      obtain ⟨us, hus, rfl⟩ := h.of_bind_pure (Steady.typeSigTrees _ sigs)
      exact .genericInst (Depicts.of_read hu) (DepictsAll.of_read hus)
  | .valueArray sig n, h => by
      obtain ⟨u, hu, rfl⟩ := h.of_bind_pure (Steady.typeSigTree _ sig)
      exact .valueArray (Depicts.of_read hu) n
  | .modifier required r sig, h => by
      obtain ⟨v, hv, h⟩ := h.of_bind (Steady.typeTree _ r)
        fun _ => (Steady.typeSigTree _ sig).bind fun _ => .pure _
      obtain ⟨u, hu, rfl⟩ := h.of_bind_pure (Steady.typeSigTree _ sig)
      exact .modifier required (DepictsRow.of_read hv) (Depicts.of_read hu)
  | .module n sig, h => by
      obtain ⟨u, hu, rfl⟩ := h.of_bind_pure (Steady.typeSigTree _ sig)
      exact .module n (Depicts.of_read hu)

theorem DepictsAll.of_read {ts : List SigTree} : ∀ {sigs : List TypeSig},
    Read m σ (Reading.typeSigTrees m.store sigs) ts → DepictsAll (NameRead m σ) ts sigs
  | [], h => by
      obtain rfl := h.of_pure
      exact .nil
  | sig :: sigs, h => by
      obtain ⟨u, hu, h⟩ := h.of_bind (Steady.typeSigTree _ sig)
        fun _ => (Steady.typeSigTrees _ sigs).bind fun _ => .pure _
      obtain ⟨us, hus, rfl⟩ := h.of_bind_pure (Steady.typeSigTrees _ sigs)
      exact .cons (Depicts.of_read hu) (DepictsAll.of_read hus)

/-- The tree that is read of a signature with a calling convention depicts it. -/
theorem DepictsCall.of_read {t : SigTree} : ∀ {sig : CallSig},
    Read m σ (Reading.callSigTree m.store sig) t → DepictsCall (NameRead m σ) t sig
  | .null, h => absurd h Read.not_refuse
  | .method raw _ n ret params after, h => by
      obtain ⟨hlike, h⟩ := h.of_checkConvention <| (Steady.typeSigTree _ ret).bind
        fun _ => (Steady.typeSigTrees _ params).bind fun _ =>
          (Steady.typeSigTrees _ after).bind fun _ => .pure _
      obtain ⟨u, hu, h⟩ := h.of_bind (Steady.typeSigTree _ ret)
        fun _ => (Steady.typeSigTrees _ params).bind fun _ =>
          (Steady.typeSigTrees _ after).bind fun _ => .pure _
      obtain ⟨ps, hps, h⟩ := h.of_bind (Steady.typeSigTrees _ params)
        fun _ => (Steady.typeSigTrees _ after).bind fun _ => .pure _
      obtain ⟨vs, hvs, rfl⟩ := h.of_bind_pure (Steady.typeSigTrees _ after)
      exact .method hlike n (Depicts.of_read hu) (DepictsAll.of_read hps) (DepictsAll.of_read hvs)
  | .field sig, h => by
      obtain ⟨u, hu, rfl⟩ := h.of_bind_pure (Steady.typeSigTree _ sig)
      exact .field (Depicts.of_read hu)
  | .locals sigs, h => by
      obtain ⟨us, hus, rfl⟩ := h.of_bind_pure (Steady.typeSigTrees _ sigs)
      exact .locals (DepictsAll.of_read hus)
  | .inst sigs, h => by
      obtain ⟨us, hus, rfl⟩ := h.of_bind_pure (Steady.typeSigTrees _ sigs)
      exact .inst (DepictsAll.of_read hus)

end

end Read

/-! ### Tokens for rows -/

section Turned

variable (m : Source) (σ : Reader) (R : EntityKind → Token → Row → Prop) (f : Renaming)

/-- Tokens are turned into what has been read of the rows that they stand for. -/
def TurnsTokens : Prop :=
  ∀ ⦃kind : EntityKind⦄ ⦃k : Token⦄ ⦃r : Row⦄ ⦃k' : Token⦄, R kind k r →
    Read m σ (Reading.entityToken m.store kind r) k' → f kind k = k'

/-- Each token stands for a row of which the token that it is turned into has been read. -/
def StandFor (us : List Use) : Prop :=
  ∀ u ∈ us, ∃ r, R u.kind u.token r ∧
    Read m σ (Reading.entityToken m.store u.kind r) (f u.kind u.token)

/-- The second tree is the first with its tokens turned, and they stand for what has been read. -/
structure Turned (t t' : SigTree) : Prop where
  tree : t' = t.rename f .type
  uses : StandFor m σ R f (t.uses .type)

/-- The second trees are the first ones with their tokens turned. -/
structure AllTurned (ts ts' : List SigTree) : Prop where
  trees : ts' = ts.map (SigTree.rename f .type)
  uses : StandFor m σ R f (ts.flatMap (SigTree.uses .type))

end Turned

section Depicted

variable {m : Source} {σ : Reader} {R : EntityKind → Token → Row → Prop} {f : Renaming}

theorem StandFor.append {us vs : List Use} (h : StandFor m σ R f us) (h' : StandFor m σ R f vs) :
    StandFor m σ R f (us ++ vs) := List.forall_mem_append.2 ⟨h, h'⟩

theorem StandFor.nil : StandFor m σ R f [] := List.forall_mem_nil _

/-- If each token stands for one row only, tokens can be turned. -/
theorem TurnsTokens.exists (hR : ∀ {kind k r r'}, R kind k r → R kind k r' → r = r')
    (hσ : Sound m σ) : ∃ f, TurnsTokens m σ R f := by
  classical
  let turn (kind : EntityKind) (k k' : Token) : Prop :=
    ∃ r, R kind k r ∧ Read m σ (Reading.entityToken m.store kind r) k'
  refine ⟨fun kind k => if h : ∃ k', turn kind k k' then h.choose else k, fun kind k r k' hr hk => ?_⟩
  have h : ∃ k', turn kind k k' := ⟨k', r, hr, hk⟩
  obtain ⟨r', hr', hk'⟩ := h.choose_spec
  obtain rfl := hR hr hr'
  dsimp only
  rw [dif_pos h]
  exact hk'.unique hk (Steady.entityToken _ kind _) hσ

/-- A token is turned into the one that has been read of the row that it stands for. -/
theorem TurnsTokens.stands (hf : TurnsTokens m σ R f) {kind : EntityKind} {k k' : Token} {r : Row}
    (hr : R kind k r) (h : Read m σ (Reading.entityToken m.store kind r) k') :
    k' = f kind k ∧ StandFor m σ R f [⟨kind, k⟩] := by
  obtain rfl := hf hr h
  refine ⟨rfl, fun u hu => ?_⟩
  obtain rfl := List.mem_singleton.1 hu
  exact ⟨r, hr, h⟩

theorem TurnsTokens.turned (hf : TurnsTokens m σ R f) {k k' : Token} {r : Row} (hr : R .type k r)
    (h : Read m σ (Reading.namedType m.store r) k') : Turned m σ R f (.token k) (.token k') := by
  obtain ⟨rfl, uses⟩ := hf.stands hr h
  exact ⟨by simp, uses⟩

/-- A tree that is made of turned parts is turned. -/
theorem AllTurned.turned {ts ts' : List SigTree} (h : AllTurned m σ R f ts ts') (e : ElementType) :
    Turned m σ R f (.ofElement e ts) (.ofElement e ts') :=
  ⟨by rw [h.trees, SigTree.rename_ofElement], by simpa using h.uses⟩

theorem AllTurned.nil : AllTurned m σ R f [] [] := ⟨rfl, .nil⟩

theorem AllTurned.cons {t t' : SigTree} {ts ts' : List SigTree} (h : Turned m σ R f t t')
    (hs : AllTurned m σ R f ts ts') : AllTurned m σ R f (t :: ts) (t' :: ts') :=
  ⟨by rw [h.tree, hs.trees, List.map_cons], h.uses.append hs.uses⟩

theorem AllTurned.append {ts ts' us us' : List SigTree} (h : AllTurned m σ R f ts ts')
    (h' : AllTurned m σ R f us us') : AllTurned m σ R f (ts ++ us) (ts' ++ us') :=
  ⟨by rw [h.trees, h'.trees, List.map_append], by
    rw [List.flatMap_append]
    exact h.uses.append h'.uses⟩

/-- Trees without tokens stay. -/
theorem AllTurned.still {ts : List SigTree} (h : ∀ t ∈ ts, ∃ n, t = .int32 n) :
    AllTurned m σ R f ts ts := by
  induction ts with
  | nil => exact .nil
  | cons t ts ih =>
      rw [List.forall_mem_cons] at h
      obtain ⟨⟨n, rfl⟩, h⟩ := h
      exact .cons ⟨by simp, .nil⟩ (ih h)

/-! ### Two depictions of a signature -/

mutual

/-- What has been read of a row is the tree that depicts it, with its tokens turned. -/
theorem DepictsRow.turned (hR : ∀ {k r}, R .type k r → m.store.Nameable m.image r)
    (hf : TurnsTokens m σ R f) {t t' : SigTree} :
    ∀ {r : Row}, DepictsRow (R .type) t r → DepictsRow (NameRead m σ) t' r → Turned m σ R f t t'
  | _,             .named h, .named h' => hf.turned h h'
  | .typeSpec _ _, .spec h,  .spec h'  => h.turned hR hf h'
  | .typeSpec _ _, .named h, .spec _   => nomatch hR h
  | .typeSpec _ _, .spec _,  .named h' => absurd h' Read.not_refuse

/-- What has been read of the signature of a type is the tree that depicts it, with its tokens turned. -/
theorem Depicts.turned (hR : ∀ {k r}, R .type k r → m.store.Nameable m.image r)
    (hf : TurnsTokens m σ R f) {t t' : SigTree} :
    ∀ {sig : TypeSig}, Depicts (R .type) t sig → Depicts (NameRead m σ) t' sig → Turned m σ R f t t'
  | .leaf e _, .leaf _ _, .leaf _ _ => AllTurned.nil.turned e
  | .wrapper _ _, .wrapper _ h, .wrapper _ h' => (AllTurned.nil.cons (h.turned hR hf h')).turned _
  | .fnPtr _, .fnPtr h, .fnPtr h' => (AllTurned.nil.cons (h.turned hR hf h')).turned _
  | .named _ _, .named _ h, .named _ h' => (AllTurned.nil.cons (hf.turned h h')).turned _
  | .generic _ _, .generic _ _, .generic _ _ => (AllTurned.still (by simp)).turned _
  | .array _ _ _ _, .array h _ _ _, .array h' _ _ _ =>
      ((AllTurned.still (by simp [Reading.lengthTree])).cons (h.turned hR hf h')).append
        (.still (by simp [Reading.lengthTree])) |>.turned _
  | .genericInst _ _, .genericInst h hs, .genericInst h' hs' =>
      (AllTurned.cons (h.turned hR hf h') (AllTurned.cons ⟨by simp [Reading.lengthTree], .nil⟩
        (hs.turned hR hf hs'))).turned _
  | .valueArray _ _, .valueArray h _, .valueArray h' _ =>
      ((AllTurned.still (by simp)).cons (h.turned hR hf h')).turned _
  | .modifier _ _ _, .modifier _ hm h, .modifier _ hm' h' =>
      ((AllTurned.nil.cons (h.turned hR hf h')).cons (hm.turned hR hf hm')).turned _
  | .module _ _, .module _ h, .module _ h' =>
      ((AllTurned.nil.cons (h.turned hR hf h')).cons ⟨by simp, .nil⟩).turned _

theorem DepictsAll.turned (hR : ∀ {k r}, R .type k r → m.store.Nameable m.image r)
    (hf : TurnsTokens m σ R f) {ts ts' : List SigTree} :
    ∀ {sigs : List TypeSig}, DepictsAll (R .type) ts sigs → DepictsAll (NameRead m σ) ts' sigs →
      AllTurned m σ R f ts ts'
  | [],     .nil,       .nil         => .nil
  | _ :: _, .cons h hs, .cons h' hs' => .cons (h.turned hR hf h') (hs.turned hR hf hs')

/-- What has been read of a signature with a calling convention is the tree that depicts it, with its tokens turned. -/
theorem DepictsCall.turned (hR : ∀ {k r}, R .type k r → m.store.Nameable m.image r)
    (hf : TurnsTokens m σ R f) {t t' : SigTree} :
    ∀ {sig : CallSig}, DepictsCall (R .type) t sig → DepictsCall (NameRead m σ) t' sig →
      Turned m σ R f t t'
  | .method .., .method _ _ h hps hvs, .method _ _ h' hps' hvs' => by
      have ret := h.turned hR hf h'
      have params := hps.turned hR hf hps'
      have after := hvs.turned hR hf hvs'
      exact ⟨by simp [ret.tree, params.trees, after.trees],
        by simpa using ret.uses.append (params.uses.append after.uses)⟩
  | .field _, .field h, .field h' => by
      have turned := h.turned hR hf h'
      exact ⟨by simp [turned.tree], by simpa using turned.uses⟩
  | .locals _, .locals hs, .locals hs' => by
      have turned := hs.turned hR hf hs'
      exact ⟨by simp [turned.trees], by simpa using turned.uses⟩
  | .inst _, .inst hs, .inst hs' => by
      have turned := hs.turned hR hf hs'
      exact ⟨by simp [turned.trees], by simpa using turned.uses⟩

end

end Depicted

end CilCatalog
