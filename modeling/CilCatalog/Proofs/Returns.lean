import CilCatalog.Proofs.Reading.Orderly
import CilCatalog.Proofs.Reading.Recovers
import CilCatalog.Proofs.Writing.Arises
import CilCatalog.Proofs.Writing.Depicted

/-!
# What returns from live modules

What has been written to a live module is read again as the same, in which each token has become the one that the reader gives to the row that the token stands for.

* `Recoverable`: the module holds what is needed for that, from now on.
* `Returns`: what a reader of the module makes of it.
* `Recoverable.returns`: what is recoverable returns.
-/

namespace CilCatalog

open Live

variable {c : Catalog} {ks : List EntityKind} {α β γ : Type}

/-- From now on, a reader of the module recovers `p` by `x`.  The tokens in `p` are those of `us`. -/
def Recoverable (c : Catalog) (ks : List EntityKind) (w : WriteState) (x : Store → Reading α)
    (p : Renaming → α) (us : List Use) : Prop :=
  ∀ (w' : WriteState) (o : Options), w.Leads w' → w'.Ready →
    Recovers ⟨w'.store, w'.writer.image, o⟩ ks (w'.Resolves c) (x w'.store) p us

/-- What is remembered has a name. -/
theorem WriteState.Ready.standsForNames {w : WriteState} (h : w.Ready) (c : Catalog) (o : Options) :
    StandsForNames ⟨w.store, w.writer.image, o⟩ (w.Resolves c) :=
  ⟨fun hr => h.types hr.remembersType, fun hr => h.fields hr.remembersField,
    fun hr => h.methods hr.remembersMethod⟩

namespace Recoverable

variable {w w' : WriteState} {x : Store → Reading α} {p : Renaming → α} {us vs : List Use}

theorem leads (h : Recoverable c ks w x p us) (hl : w.Leads w') : Recoverable c ks w' x p us :=
  fun w'' o hl' hw => h w'' o (hl.trans hl') hw

/-! ### Parts put together -/

theorem pure (a : α) : Recoverable c ks w (fun _ => pure a) (fun _ => a) [] :=
  fun _ _ _ _ => .pure a

theorem bind {f : α → Store → Reading β} {q : α → Renaming → β} (hx : Recoverable c ks w x p us)
    (hf : ∀ a, Recoverable c ks w (f a) (q a) vs) :
    Recoverable c ks w (fun s => x s >>= fun a => f a s) (fun g => q (p g) g) (us ++ vs) :=
  fun w' o hl hw => (hx w' o hl hw).bind fun a => hf a w' o hl hw

theorem bind_pure (f : α → β) (hx : Recoverable c ks w x p us) :
    Recoverable c ks w (fun s => x s >>= fun a => Pure.pure (f a)) (fun g => f (p g)) us :=
  fun w' o hl hw => (hx w' o hl hw).bind_pure

theorem map (f : α → β) (hx : Recoverable c ks w x p us) :
    Recoverable c ks w (fun s => f <$> x s) (fun g => f (p g)) us :=
  fun w' o hl hw => (hx w' o hl hw).map f

/-- The parts of a list are written and recovered one by one. -/
theorem mapM {write : β → Writing γ} {read : Store → γ → Reading β} {rename : Renaming → β → β}
    {uses : β → List Use} {bs : List β}
    (h : ∀ b ∈ bs, ∀ {w}, Runs WriteState.Ready w (write b) fun w' a =>
      Recoverable c ks w' (read · a) (rename · b) (uses b)) :
    Runs WriteState.Ready w (bs.mapM write) fun w' as => as.length = bs.length ∧
      Recoverable c ks w' (fun s => as.mapM (read s)) (fun g => bs.map (rename g))
        (bs.flatMap uses) := by
  induction bs generalizing w with
  | nil => exact .pure ⟨rfl, pure []⟩
  | cons b bs ih =>
      rw [List.forall_mem_cons] at h
      rw [List.mapM_cons]
      refine h.1.bind fun {a _} _ hb => (ih h.2).bind fun {as _} hl hbs => .pure ⟨?_, ?_⟩
      · rw [List.length_cons, hbs.1, List.length_cons]
      · simp only [List.mapM_cons]
        exact (hb.leads hl).bind fun b => hbs.2.bind_pure (b :: ·)

/-! ### Trees -/

variable {t : SigTree}

/-- A tree that has a text is recovered from what it has been written as. -/
theorem rowOfTree (hk : .type ∈ ks) (ht : t.Formattable) :
    Runs WriteState.Ready w (Writing.rowOfTree c t) fun w' r => r.isType = true ∧
      Recoverable c ks w' (Reading.typeTree · r) (t.rename · .type) (t.uses .type) := by
  refine ((depicted c ht).row.and (Runs.rowOfTree c t)).kept.imp fun {w' r} h => ?_
  obtain ⟨⟨hdepicts, -, hmade⟩, hw'⟩ := h
  have readable {w''} (hl : w'.Leads w'') (hw : w''.Ready) :
      r.Readable w''.store w''.writer.image :=
    r.madeOf_mono (fun hr => hw.types (hl.remembersType hr)) (fun _ => trivial) hmade
  exact ⟨(readable (.refl w') hw').isType, fun w'' o hl hw => .typeTree (hw.standsForNames c o) hk
    (hdepicts.leads hl) (readable hl hw)⟩

theorem typeSigOf (hk : .type ∈ ks) (ht : t.Formattable) :
    Runs WriteState.Ready w (Writing.typeSigOf c t) fun w' sig =>
      Recoverable c ks w' (Reading.typeSigTree · sig) (t.rename · .type) (t.uses .type) := by
  refine ((depicted c ht).type.and (Runs.typeSigOf c t)).imp fun {w' sig} h w'' o hl hw => ?_
  exact .typeSigTree (hw.standsForNames c o) hk (h.1.leads hl) (sig.madeOf_mono
    (fun hr => hw.types (hl.remembersType hr)) (fun _ => trivial) h.2.2)

theorem callSigOf (hk : .type ∈ ks) (ht : t.Formattable) :
    Runs WriteState.Ready w (Writing.callSigOf c t) fun w' sig =>
      Recoverable c ks w' (Reading.callSigTree · sig) (t.rename · .type) (t.uses .type) := by
  refine ((depicted c ht).call.and (Runs.callSigOf c t)).imp fun {w' sig} h w'' o hl hw => ?_
  exact .callSigTree (hw.standsForNames c o) hk (h.1.mono fun hr => hr.leads hl) (sig.madeOf_mono
    (fun hr => hw.types (hl.remembersType hr)) (fun _ => trivial) h.2.2)

theorem typeSigsOf (hk : .type ∈ ks) {ts : List SigTree} (hts : ∀ t ∈ ts, t.Formattable) :
    Runs WriteState.Ready w (Writing.typeSigsOf c ts) fun w' sigs =>
      Recoverable c ks w' (Reading.typeSigTrees · sigs)
        (fun f => ts.map (SigTree.rename f .type)) (ts.flatMap (SigTree.uses .type)) := by
  refine ((Depicted.typeSigsOf fun t ht => depicted c (hts t ht)).and (Runs.typeSigsOf c
    (fun t _ => treeRuns c w t) (.refl w))).imp fun {w' sigs} h w'' o hl hw => ?_
  exact .typeSigTrees (hw.standsForNames c o) hk (h.1.leads hl) (TypeSig.allMadeOf_mono
    (fun hr => hw.types (hl.remembersType hr)) (fun _ => trivial) sigs h.2.2)

end Recoverable

/-! ### What returns -/

/-- What is read, if anything is, is `p` with each token turned into the one that is given to the row that the token stands for; and nothing is read only if all indices for one of the kinds are given.  The tokens in `p` are those of `us`. -/
structure Returns (c : Catalog) (ks : List EntityKind) (w : WriteState) (ρ : Reader) (x : Reading α)
    (p : Renaming → α) (us : List Use) : Prop where
  renamed : ∀ a ρ', Gives x ρ a ρ' → ∃ f, a = p f ∧
    ∀ u ∈ us, ∃ r, Gives (Writing.rowOfToken c u.kind u.token) w r w ∧
      Gives (Reading.entityToken w.store u.kind r) ρ' (f u.kind u.token) ρ'
  full : (∀ a ρ', ¬ Gives x ρ a ρ') → ∃ k ∈ ks, (x ρ).2.Full k

/-- What is recoverable returns to every reader of indices, whatever it has read before. -/
theorem Recoverable.returns {i : ImageId} {o : Options} {w w' w'' : WriteState} {ρ : Reader}
    {x : Store → Reading α} {p : Renaming → α} {us : List Use} (hw : w.Arises i)
    (hρ : ρ.Arises i o) (indexed : o.namedTokens = false) (h : Recoverable c ks w' x p us)
    (hl : w.Leads w') (hl' : w'.Leads w'') : Returns c ks w'' ρ (x w''.store) p us := by
  obtain ⟨rfl, ready⟩ := ((hw.acting hl).acting hl').ready
  have sound : Sound ⟨w''.store, w''.writer.image, o⟩ ρ := hρ.sound w''.store
  have hx := h w'' o hl' ready
  refine ⟨fun a ρ' hg => ?renamed, fun none => ?full⟩
  case renamed =>
    have sound' := hx.steady.sound sound hg
    obtain ⟨f, hf⟩ := TurnsTokens.exists (R := w''.Resolves c) WriteState.Resolves.unique sound'
    obtain ⟨rfl, stand⟩ := hx.turned hf (.of_gives sound hg)
    refine ⟨f, rfl, fun u hu => ?_⟩
    obtain ⟨r, hr, hread⟩ := stand u hu
    exact ⟨r, hr.gives, hread.gives (Steady.entityToken _ u.kind r) sound'⟩
  case full =>
    exact (hx.accepts.gives indexed sound).resolve_left fun ⟨a, ρ', hg⟩ => none a ρ' hg

end CilCatalog
