import CilCatalog.Proofs.Reading.Accepts
import CilCatalog.Proofs.Reading.Depicted

/-!
# What is read with turned tokens

A computation recovers something with tokens in it, if it fails only for want of room, and what it reads is that thing with its tokens turned.

* `Recovers.bind`: computations that are put together recover what is put together.
* `Recovers.callSigTree`: a signature is recovered as the tree that depicts it.
* `Recovers.fieldToken`, `Recovers.methodToken`: members are recovered by their tokens.
-/

namespace CilCatalog

open Live

/-- The rows that tokens stand for have names. -/
structure StandsForNames (m : Source) (R : EntityKind → Token → Row → Prop) : Prop where
  type : ∀ {k r}, R .type k r → m.store.Nameable m.image r
  field : ∀ {k r}, R .field k r → m.store.NameableField m.image r
  method : ∀ {k r}, R .method k r → m.store.NameableMethod m.image r

/-- The computation fails only if a map of one of the kinds is full, and what it reads is `p` with its tokens turned.  The tokens are those of `us`. -/
structure Recovers (m : Source) (ks : List EntityKind) (R : EntityKind → Token → Row → Prop)
    {α : Type} (x : Reading α) (p : Renaming → α) (us : List Use) : Prop where
  steady : Steady m x
  accepts : Accepts m ks x
  turned : ∀ {σ f a}, TurnsTokens m σ R f → Read m σ x a → a = p f ∧ StandFor m σ R f us

namespace Recovers

variable {m : Source} {ks : List EntityKind} {R : EntityKind → Token → Row → Prop} {α β : Type}
  {x : Reading α} {p : Renaming → α} {us vs : List Use}

/-! ### Putting computations together -/

theorem pure (a : α) : Recovers m ks R (pure a) (fun _ => a) [] :=
  ⟨.pure a, .pure, fun _ h => ⟨h.of_pure, .nil⟩⟩

theorem bind {f : α → Reading β} {q : α → Renaming → β} (hx : Recovers m ks R x p us)
    (hf : ∀ a, Recovers m ks R (f a) (q a) vs) :
    Recovers m ks R (x >>= f) (fun g => q (p g) g) (us ++ vs) := by
  refine ⟨hx.steady.bind fun a => (hf a).steady, hx.accepts.bind fun a => (hf a).accepts,
    fun hg h => ?_⟩
  obtain ⟨a, ha, hb⟩ := h.of_bind hx.steady fun a => (hf a).steady
  obtain ⟨rfl, hus⟩ := hx.turned hg ha
  obtain ⟨rfl, hvs⟩ := (hf _).turned hg hb
  exact ⟨rfl, hus.append hvs⟩

theorem bind_pure {f : α → β} (hx : Recovers m ks R x p us) :
    Recovers m ks R (x >>= fun a => Pure.pure (f a)) (fun g => f (p g)) us := by
  have h := hx.bind (f := fun a => Pure.pure (f a)) (q := fun a _ => f a) fun a => pure (f a)
  rwa [List.append_nil] at h

theorem map (f : α → β) (hx : Recovers m ks R x p us) :
    Recovers m ks R (f <$> x) (fun g => f (p g)) us := by
  rw [map_eq_pure_bind]
  exact hx.bind_pure

/-! ### Signatures -/

variable {s : Store}

/-- The row of a type is recovered as the tree that depicts it. -/
theorem typeTree (hR : StandsForNames m R) (hk : .type ∈ ks) {t : SigTree} {r : Row}
    (h : DepictsRow (R .type) t r) (hr : r.Readable m.store m.image) :
    Recovers m ks R (Reading.typeTree m.store r) (t.rename · .type) (t.uses .type) := by
  refine ⟨.typeTree _ r, .typeTree hk r hr, fun hf hread => ?_⟩
  have ht := h.turned hR.type hf (.of_read hread)
  exact ⟨ht.tree, ht.uses⟩

theorem typeSigTree (hR : StandsForNames m R) (hk : .type ∈ ks) {t : SigTree} {sig : TypeSig}
    (h : Depicts (R .type) t sig) (hs : sig.Readable m.store m.image) :
    Recovers m ks R (Reading.typeSigTree m.store sig) (t.rename · .type) (t.uses .type) := by
  refine ⟨.typeSigTree _ sig, .typeSigTree hk sig hs, fun hf hread => ?_⟩
  have ht := h.turned hR.type hf (.of_read hread)
  exact ⟨ht.tree, ht.uses⟩

theorem typeSigTrees (hR : StandsForNames m R) (hk : .type ∈ ks) {ts : List SigTree}
    {sigs : List TypeSig} (h : DepictsAll (R .type) ts sigs)
    (hs : TypeSig.AllReadable m.store m.image sigs) :
    Recovers m ks R (Reading.typeSigTrees m.store sigs)
      (fun f => ts.map (SigTree.rename f .type)) (ts.flatMap (SigTree.uses .type)) := by
  refine ⟨.typeSigTrees _ sigs, .typeSigTrees hk sigs hs, fun hf hread => ?_⟩
  have ht := h.turned hR.type hf (.of_read hread)
  exact ⟨ht.trees, ht.uses⟩

theorem callSigTree (hR : StandsForNames m R) (hk : .type ∈ ks) {t : SigTree} {sig : CallSig}
    (h : DepictsCall (R .type) t sig) (hs : sig.Readable m.store m.image) :
    Recovers m ks R (Reading.callSigTree m.store sig) (t.rename · .type) (t.uses .type) := by
  refine ⟨.callSigTree _ sig, .callSigTree hk sig hs, fun hf hread => ?_⟩
  have ht := h.turned hR.type hf (.of_read hread)
  exact ⟨ht.tree, ht.uses⟩

/-! ### Fields and methods -/

theorem fieldToken (hR : StandsForNames m R) (ht : .type ∈ ks) (hk : .field ∈ ks) {k : Token}
    {r : Row} (h : R .field k r) :
    Recovers m ks R (Reading.fieldToken m.store r) (· .field k) [⟨.field, k⟩] :=
  ⟨.fieldToken _ r, .fieldToken ht hk (hR.field h), fun hf hread => hf.stands h hread⟩

theorem methodToken (hR : StandsForNames m R) (ht : .type ∈ ks) (hk : .method ∈ ks) {k : Token}
    {r : Row} (h : R .method k r) :
    Recovers m ks R (Reading.methodToken m.store r) (· .method k) [⟨.method, k⟩] :=
  ⟨.methodToken _ r, .methodToken ht hk (hR.method h), fun hf hread => hf.stands h hread⟩

end Recovers

end CilCatalog
