import CilCatalog.Proofs.Returns

/-!
# Signatures return from live modules

A tree that has been written as a live signature is read again as the same tree with its tokens turned.

* `signature_returns`: trees return, whether they are written as types or as signatures with a calling convention.
* `not_returns_adopted`: they need not return from a module whose types have types of other modules nested in them.
-/

namespace CilCatalog

open Live Writing
open Reader (family)

/-- A tree that has a text and is written as a live signature is read again from it.  The writer asks nothing, all types nested in its module's types are the module's own, and it may have done more since. -/
theorem signature_returns {i : ImageId} {o : Options} {c : Catalog} {w w' w'' : WriteState}
    {ρ : Reader} {t : SigTree} (hw : w.Arises i) (hρ : ρ.Arises i o)
    (indexed : o.namedTokens = false) (ht : t.Formattable) (hl : w'.Leads w'') :
    (∀ sig, Gives (typeSigOf c t) w sig w' → Returns c [.type] w'' ρ
      (Reading.typeSigTree w''.store sig) (t.rename · .type) (t.uses .type)) ∧
    (∀ sig, Gives (callSigOf c t) w sig w' → Returns c [.type] w'' ρ
      (Reading.callSigTree w''.store sig) (t.rename · .type) (t.uses .type)) := by
  obtain ⟨-, ready⟩ := hw.ready
  constructor
  · intro sig hg
    obtain ⟨hw', h⟩ := (Recoverable.typeSigOf List.mem_cons_self ht).leads ready hg
    exact h.returns hw hρ indexed hw' hl
  · intro sig hg
    obtain ⟨hw', h⟩ := (Recoverable.callSigOf List.mem_cons_self ht).leads ready hg
    exact h.returns hw hρ indexed hw' hl

/-! ### A signature that returns -/

theorem family_housed : family.store.Housed ⟨0⟩ where
  image := by decide
  global := by decide
  tops := by
    rintro t (_ | ⟨_, ⟨⟩⟩)
    exact ⟨by decide, rfl⟩
  nested {t} ht := by
    obtain ⟨_ | _ | n⟩ := t
    · rintro n (_ | ⟨_, ⟨⟩⟩)
      exact ⟨by decide, rfl⟩
    · rintro n ⟨⟩
    · exact absurd ht.1 (by simp [family])
  fields {t} ht := by
    obtain ⟨_ | _ | n⟩ := t
    · rintro f (_ | ⟨_, ⟨⟩⟩)
      rfl
    · rintro f ⟨⟩
    · exact absurd ht.1 (by simp [family])
  methods {t} ht := by
    obtain ⟨_ | _ | n⟩ := t
    · rintro f (_ | ⟨_, ⟨⟩⟩)
      rfl
    · rintro f ⟨⟩
    · exact absurd ht.1 (by simp [family])

/-- There are no rows in tables and signatures. -/
theorem family_tabled : family.store.Tabled ⟨0⟩ :=
  ⟨List.forall_mem_nil _, List.forall_mem_nil _, List.forall_mem_nil _, List.forall_mem_nil _⟩

/-- A type and one of another assembly. -/
def acquaintances : Catalog where
  options := .default
  types := ⟨[(.index 0, .reference ⟨"Outer", "N", none, none⟩),
    (.index 1, .reference ⟨"Object", "System", some "lib", none⟩)], by decide, rfl⟩
  fields := .empty
  methods := .empty

/-- The second parameter stands behind the marker. -/
def gathering : SigTree :=
  .ofConvention .varArg [.int32 0, .int32 2, .ofElement .void, .ofElement .cls [.token (.index 1)],
    .ofElement .sentinel, .ofElement .cmodOpt [.token (.index 0), .ofElement .szArray
      [.ofElement .cls [.token (.index 1)]]]]

theorem signature_returns_gathering : ∃ sig w',
    WriteState.Arises ⟨0⟩ ⟨family.store, .start ⟨0⟩ ⟨none, none⟩⟩ ∧
    Reader.Arises ⟨0⟩ .default (.start ⟨0⟩ .default) ∧ Options.default.namedTokens = false ∧
    gathering.Formattable ∧ w'.Leads w' ∧
    Gives (callSigOf acquaintances gathering) ⟨family.store, .start ⟨0⟩ ⟨none, none⟩⟩ sig w' ∧
    Returns acquaintances [.type] w' (.start ⟨0⟩ .default) (Reading.callSigTree w'.store sig)
      (gathering.rename · .type) (gathering.uses .type) ∧
    (Reading.callSigTree w'.store sig (.start ⟨0⟩ .default)).1 = .ok (gathering.rename
      (fun _ k => if k = .index 0 then .index 1 else .index 0) .type) := by
  have arises : WriteState.Arises ⟨0⟩ ⟨family.store, .start ⟨0⟩ ⟨none, none⟩⟩ :=
    .start family_housed family_tabled
  have text : gathering.Formattable := ⟨_, rfl⟩
  exact ⟨_, _, arises, .start, rfl, text, .refl _, rfl,
    (signature_returns arises .start rfl text (.refl _)).2 _ rfl, rfl⟩

/-! ### A signature that does not return -/

/-- A module in a type of which a type of another module is nested. -/
def adoption : Store :=
  let (home, s) := Store.empty.createImage "A"
  let (away, s) := s.createImage "B"
  let (outer, s) := s.createType home [] "Outer"
  (s.createNestedType away [] "Inner" outer).2

/-- The two types by their names. -/
def adopted : Catalog where
  options := .default
  types := ⟨[(.index 0, .reference ⟨"Outer", [], none, none⟩),
    (.index 1, .reference ⟨"Inner", [], none, some ["Outer"]⟩)], by decide, rfl⟩
  fields := .empty
  methods := .empty

/-- The type of the other module is found by its name, and refused by the reader. -/
theorem not_returns_adopted : ∃ sig w', (SigTree.ofElement .cls [.token (.index 1)]).Formattable ∧
    Gives (typeSigOf adopted (.ofElement .cls [.token (.index 1)]))
      ⟨adoption, .start ⟨0⟩ ⟨none, none⟩⟩ sig w' ∧
    (Reading.typeSigTree w'.store sig (.start ⟨0⟩ .default)).1 =
      .error (.fault (.foreign "Type" "Outer/Inner" "A")) ∧
    ∀ t ρ, ¬ Gives (Reading.typeSigTree w'.store sig) (.start ⟨0⟩ .default) t ρ := by
  refine ⟨_, _, ⟨_, rfl⟩, rfl, rfl, fun t ρ h => ?_⟩
  cases congrArg Prod.fst h

end CilCatalog
