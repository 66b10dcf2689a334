import CilCatalog.Proofs.Live.Built

/-!
# Nested types of built modules

A type that is listed as nested in another one says so itself.  So, unless types lie within themselves, going from types to the types nested in them leads one level deeper with every step, and there are not more levels than types.

* `Built.nestingAgrees`: nested types name the type around them.
* `Rooted.length_enclosing`: a nested type is one level deeper than the type around it.
-/

namespace CilCatalog.Live.Store

variable {s s' : Store} {rs : List Row} {t n o : TypeId}

/-- A type that is put into another one was not in any. -/
theorem top_of_nest {φ : Type} (hs : (s.nest o t : Except (Failure φ) Store) = .ok s') :
    (s.typeDef t).declaring = none := by
  cases hd : (s.typeDef t).declaring with
  | none => rfl
  | some u => simp [nest, hd] at hs

/-- Behind the others, a type in which there are none does not change what is nested in what. -/
theorem nestedTypes_append {d : TypeDef} (ht : s'.typeDefs = s.typeDefs ++ [d])
    (hd : d.nestedTypes = []) (u : TypeId) :
    (s'.typeDef u).nestedTypes = (s.typeDef u).nestedTypes := by
  rcases Nat.lt_or_ge u.index s.typeDefs.length with lt | ge
  · rw [typeDef_append ht lt]
  · rcases typeDef_append_or ht u with heq | heq <;> rw [heq]
    rw [hd, typeDef_of_le ge]
    rfl

/-- Types that are listed as nested say so themselves. -/
def NestingAgrees (s : Store) : Prop :=
  ∀ t, ∀ n ∈ (s.typeDef t).nestedTypes, (s.typeDef n).declaring = some t

namespace NestingAgrees

/-- Types stay in the types around them, and what gets into a list belongs there. -/
theorem step (h : s.NestingAgrees)
    (keeps : ∀ {n t}, (s.typeDef n).declaring = some t → (s'.typeDef n).declaring = some t)
    (nested : ∀ {t n}, n ∈ (s'.typeDef t).nestedTypes →
      n ∈ (s.typeDef t).nestedTypes ∨ (s'.typeDef n).declaring = some t) : s'.NestingAgrees :=
  fun t n hn => (nested hn).elim (fun hn => keeps (h t n hn)) id

theorem congr (h : s.NestingAgrees) (ht : s'.typeDefs = s.typeDefs) : s'.NestingAgrees := by
  have same : ∀ u, s'.typeDef u = s.typeDef u := fun u => by rw [typeDef, ht, typeDef]
  exact h.step (fun hd => same _ ▸ hd) fun hn => .inl (same _ ▸ hn)

/-- A new type has nothing nested in it. -/
theorem addType (h : s.NestingAgrees) {d : TypeDef} (hd : d.nestedTypes = [])
    (ht : s'.typeDefs = s.typeDefs ++ [d]) : s'.NestingAgrees := by
  refine h.step (fun hdecl => ?_) fun {u n} hn => ?_
  · rw [typeDef_append ht (type_lt hdecl)]
    exact hdecl
  · exact .inl (nestedTypes_append ht hd u ▸ hn)

theorem modifyType (h : s.NestingAgrees) {f : TypeDef → TypeDef}
    (keeps : ∀ {o}, (s.typeDef t).declaring = some o → (f (s.typeDef t)).declaring = some o)
    (nested : ∀ {n}, n ∈ (f (s.typeDef t)).nestedTypes →
      n ∈ (s.typeDef t).nestedTypes ∨ ((s.modifyType t f).typeDef n).declaring = some t) :
    (s.modifyType t f).NestingAgrees := by
  refine h.step (fun {n o} hd => ?_) fun {u n} hn => ?_
  · rcases s.typeDef_modifyType_or t f n with heq | ⟨rfl, heq⟩
    · rw [heq]
      exact hd
    · rw [heq]
      exact keeps hd
  · rcases s.typeDef_modifyType_or t f u with heq | ⟨rfl, heq⟩
    · exact .inl (heq ▸ hn)
    · exact nested (heq ▸ hn)

/-- A type that says that it is nested in `t` may be listed by `t`. -/
theorem listType (h : s.NestingAgrees) (hn : (s.typeDef n).declaring = some t) :
    (s.modifyType t fun d => { d with nestedTypes := d.nestedTypes ++ [n] }).NestingAgrees := by
  refine h.modifyType id fun {u} hu => ?_
  refine (List.mem_append.1 hu).imp_right fun hu => ?_
  rw [List.mem_singleton.1 hu]
  rcases s.typeDef_modifyType_or t
    (fun d => { d with nestedTypes := d.nestedTypes ++ [n] }) n with heq | ⟨-, heq⟩
  · rw [heq]
    exact hn
  · rw [heq]
    exact hn

theorem createNestedType (h : s.NestingAgrees) (i : ImageId) (ns name : Bytes) (o : TypeId) :
    (s.createNestedType i ns name o).2.NestingAgrees := by
  have hnew : NestingAgrees { s with typeDefs := s.typeDefs ++
      [{ image := i, ns, name, declaring := some o : TypeDef }] } := h.addType rfl rfl
  refine hnew.listType (t := o) (n := ⟨s.typeDefs.length⟩) ?_
  rw [typeDef_new (s := s) rfl]

theorem nest {φ : Type} (h : s.NestingAgrees) (ht : t.index < s.typeDefs.length)
    (hs : (s.nest o t : Except (Failure φ) Store) = .ok s') : s'.NestingAgrees := by
  have top := top_of_nest hs
  obtain rfl := of_nest hs
  have hinner : (s.modifyType t fun d => { d with declaring := some o }).NestingAgrees :=
    h.modifyType (fun hd => nomatch top.symm.trans hd) .inl
  refine hinner.listType (t := o) (n := t) ?_
  rw [typeDef_modifyType ht]

end NestingAgrees

/-- In a store that is built, nested types name the type around them. -/
theorem Built.nestingAgrees (h : Built rs s) : s.NestingAgrees := by
  induction h with
  | empty => exact fun _ _ => nofun
  | image _ name ih => exact ih.addType rfl (congrArg typeDefs (createImage_eq _ name))
  | type _ i ns name ih => exact ih.addType rfl rfl
  | innerType _ i ns name outer ih => exact ih.createNestedType i ns name outer
  | looseType _ i ns name ih => exact ih.addType rfl rfl
  | nested _ ht hs ih => exact ih.nest ht hs
  | field _ t d _ ih =>
      have hnew : (Store.addFieldDef _ { d with declaring := some t }).2.NestingAgrees :=
        ih.congr rfl
      exact hnew.modifyType id .inl
  | looseField _ d _ ih => exact ih.congr rfl
  | attachedField _ _ _ hs ih =>
      obtain ⟨-, rfl⟩ := of_attachField hs
      exact (ih.congr rfl : (Store.modifyField _ _ _).NestingAgrees).modifyType id .inl
  | method _ t d _ ih =>
      have hnew : (Store.addMethodDef _ { d with declaring := some t }).2.NestingAgrees :=
        ih.congr rfl
      exact hnew.modifyType id .inl
  | looseMethod _ d _ ih => exact ih.congr rfl
  | attachedMethod _ _ _ hs ih =>
      obtain ⟨-, rfl⟩ := of_attachMethod hs
      exact (ih.congr rfl : (Store.modifyMethod _ _ _).NestingAgrees).modifyType id .inl
  | changedType _ t hf nested _ _ _ ih =>
      exact ih.modifyType (fun hd => (congrArg (·.2.2.2) (hf _)).trans hd)
        fun hn => .inl (nested _ ▸ hn)
  | changedField _ k _ _ ih => exact ih.congr rfl
  | changedMethod _ k _ _ ih => exact ih.congr rfl
  | assemblyRef _ i n ih => exact ih.congr rfl
  | moduleRef _ i name ih => exact ih.congr rfl
  | typeRef _ i ns name scope _ ih => exact ih.congr rfl
  | memberRef _ i name sig parent _ _ ih => exact ih.congr rfl
  | typeSpec _ sig _ ih => exact ih.congr rfl
  | methodSpec _ method sig _ _ ih => exact ih.congr rfl

/-! ### Levels of nesting -/

theorem length_enclosingWithin_le (s : Store) : ∀ (k : Nat) (t : TypeId),
    (s.enclosingWithin k t).length ≤ k
  | 0,     _ => Nat.le_refl 0
  | k + 1, t => by
      rw [enclosingWithin]
      cases (s.typeDef t).declaring with
      | none => exact Nat.zero_le _
      | some o => exact Nat.succ_le_succ (s.length_enclosingWithin_le k o)

/-- There are not more types around a type than there are types. -/
theorem length_enclosing_le (s : Store) (t : TypeId) :
    (s.enclosing t).length ≤ s.typeDefs.length := s.length_enclosingWithin_le _ t

/-- A nested type is one level deeper than the type around it. -/
theorem Rooted.length_enclosing (hr : s.Rooted n) (hn : (s.typeDef n).declaring = some t) :
    (s.enclosing n).length = (s.enclosing t).length + 1 := by
  rw [(enclosing_nested hr hn).1, List.length_cons]

end CilCatalog.Live.Store
