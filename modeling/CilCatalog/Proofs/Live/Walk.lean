import CilCatalog.Live.Walk
import CilCatalog.Proofs.Live.Nesting
import Mathlib.Data.List.Nodup
import Mathlib.Data.List.Perm.Subperm

/-!
# The order of the walk

The walk over the types of a module keeps a stack, onto which types are put in reverse.  What it visits is what the walk by recursion visits: each type, then the types nested in it, then those that come after it.

* `Store.Traverses`: the walk by recursion, which is defined wherever it comes to an end.
* `Walk.ends_iff`: the stack becomes empty after some number of turns just if the walk by recursion comes to an end, and then both have visited the same.
* `Store.Forest`: each type has one place below the given ones.
* `Path.length_le`: types that are around each other are different ones, so in a forest there are not more levels than types.
* `walk_is_preorder`: in a module whose types form a forest, the walk ends and visits each type once, in this order.
-/

namespace CilCatalog.Live

variable {s : Store} {ts us vs ws : List TypeId} {t u n : TypeId}

/-! ### The walk by recursion -/

namespace Store

/-- The walk by recursion over `ts` visits `vs`: the first type, those nested in it, and then the rest. -/
inductive Traverses (s : Store) : List TypeId → List TypeId → Prop
  | nil : Traverses s [] []
  | cons {t : TypeId} {ts inner rest : List TypeId} (hi : Traverses s (s.typeDef t).nestedTypes inner)
      (hr : Traverses s ts rest) : Traverses s (t :: ts) (t :: (inner ++ rest))

namespace Traverses

/-- There is one order of the walk. -/
theorem unique (h : s.Traverses ts vs) (h' : s.Traverses ts ws) : vs = ws := by
  induction h generalizing ws with
  | nil =>
      cases h'
      rfl
  | cons _ _ inner rest =>
      cases h' with
      | cons hi hr => rw [inner hi, rest hr]

theorem append (h : s.Traverses ts vs) (h' : s.Traverses us ws) :
    s.Traverses (ts ++ us) (vs ++ ws) := by
  induction h with
  | nil => exact h'
  | cons hi _ _ rest =>
      rw [List.cons_append, List.cons_append, List.append_assoc]
      exact .cons hi rest

theorem of_append (h : s.Traverses (ts ++ us) ws) :
    ∃ v w, s.Traverses ts v ∧ s.Traverses us w ∧ ws = v ++ w := by
  induction ts generalizing ws with
  | nil => exact ⟨[], ws, .nil, h, rfl⟩
  | cons t ts ih =>
      cases h with
      | cons hi hr =>
          obtain ⟨v, w, hv, hw, rfl⟩ := ih hr
          exact ⟨_, w, .cons hi hv, hw, by rw [List.cons_append, List.append_assoc]⟩

theorem sublist (h : s.Traverses ts vs) : ts.Sublist vs := by
  induction h with
  | nil => exact List.Sublist.refl _
  | cons _ _ _ rest => exact (rest.trans (List.sublist_append_right _ _)).cons_cons _

/-- Behind a type, the types nested in it are visited in the order of their list. -/
theorem nested_sublist (h : s.Traverses ts vs) (ht : t ∈ vs) :
    (t :: (s.typeDef t).nestedTypes).Sublist vs := by
  induction h with
  | nil => exact absurd ht List.not_mem_nil
  | cons hi _ inner rest =>
      rcases List.mem_cons.1 ht with rfl | ht
      · exact (hi.sublist.trans (List.sublist_append_left _ _)).cons_cons _
      · refine List.Sublist.cons _ ?_
        rcases List.mem_append.1 ht with ht | ht
        · exact (inner ht).trans (List.sublist_append_left _ _)
        · exact (rest ht).trans (List.sublist_append_right _ _)

end Traverses

end Store

/-! ### The walk with a stack -/

namespace Walk

open Store

theorem turn_top (s : Store) (below seen : List TypeId) (t : TypeId) :
    turn s ⟨below ++ [t], seen⟩ = ⟨below ++ (s.typeDef t).nestedTypes.reverse, seen ++ [t]⟩ := by
  simp [turn]

theorem turn_done (s : Store) (seen : List TypeId) : turn s ⟨[], seen⟩ = ⟨[], seen⟩ := rfl

theorem turns_add (s : Store) (m k : Nat) (w : Walk) : turns s (m + k) w = turns s k (turns s m w) := by
  induction m generalizing w with
  | zero => rw [Nat.zero_add, turns]
  | succ m ih => rw [Nat.succ_add, turns, turns, ih]

theorem turns_done (s : Store) (k : Nat) (seen : List TypeId) :
    turns s k ⟨[], seen⟩ = ⟨[], seen⟩ := by
  induction k with
  | zero => rfl
  | succ k ih => rw [turns, turn_done, ih]

/-- What the walk by recursion visits is visited while the stack is above where it was. -/
theorem turns_of_traverses (h : s.Traverses ts vs) (below seen : List TypeId) :
    turns s vs.length ⟨below ++ ts.reverse, seen⟩ = ⟨below, seen ++ vs⟩ := by
  induction h generalizing below seen with
  | nil => simp [turns]
  | @cons t ts inner rest _ _ ihInner ihRest =>
      have split : (t :: (inner ++ rest)).length = 1 + (inner.length + rest.length) := by
        rw [List.length_cons, List.length_append, Nat.add_comm]
      have first : turns s 1 ⟨below ++ (t :: ts).reverse, seen⟩ =
          ⟨(below ++ ts.reverse) ++ (s.typeDef t).nestedTypes.reverse, seen ++ [t]⟩ := by
        rw [List.reverse_cons, ← List.append_assoc]
        exact turn_top s (below ++ ts.reverse) seen t
      -- the types nested in `t` are on top of the rest, and both are visited in turn
      rw [split, turns_add, first, turns_add, ihInner, ihRest]
      simp

/-- When the stack is empty, the walk by recursion has come to an end. -/
theorem traverses_of_turns {k : Nat} {seen : List TypeId}
    (h : (turns s k ⟨ts.reverse, seen⟩).stack = []) :
    ∃ vs, s.Traverses ts vs ∧ turns s k ⟨ts.reverse, seen⟩ = ⟨[], seen ++ vs⟩ := by
  induction k generalizing ts seen with
  | zero =>
      obtain rfl : ts = [] := List.reverse_eq_nil_iff.1 h
      exact ⟨[], .nil, by simp [turns]⟩
  | succ k ih =>
      cases ts with
      | nil => exact ⟨[], .nil, by rw [List.reverse_nil, turns_done, List.append_nil]⟩
      | cons t ts =>
          -- the types nested in the first one now stand before the rest
          have first : turns s (k + 1) ⟨(t :: ts).reverse, seen⟩ =
              turns s k ⟨((s.typeDef t).nestedTypes ++ ts).reverse, seen ++ [t]⟩ := by
            rw [turns, List.reverse_cons, turn_top, List.reverse_append]
          rw [first] at h
          obtain ⟨vs, hvs, ends⟩ := ih h
          obtain ⟨inner, rest, hi, hr, rfl⟩ := hvs.of_append
          exact ⟨_, .cons hi hr, by rw [first, ends, List.append_assoc, List.singleton_append]⟩

/-- The walk with a stack ends where the walk by recursion does, and has then visited the same. -/
theorem ends_iff : (∃ k, turns s k (start ts) = ⟨[], vs⟩) ↔ s.Traverses ts vs := by
  constructor
  · rintro ⟨k, hk⟩
    obtain ⟨ws, hws, ends⟩ := traverses_of_turns (k := k) (congrArg Walk.stack hk)
    obtain rfl : ws = vs := congrArg Walk.visited (ends.symm.trans hk)
    exact hws
  · intro h
    exact ⟨vs.length, turns_of_traverses h [] []⟩

end Walk

/-! ### Forests -/

namespace Store

/-- The types that can be reached from the given ones by going to nested types. -/
inductive Beneath (s : Store) (ts : List TypeId) : TypeId → Prop
  | top {t : TypeId} (h : t ∈ ts) : Beneath s ts t
  | nested {t n : TypeId} (h : Beneath s ts t) (hn : n ∈ (s.typeDef t).nestedTypes) :
      Beneath s ts n

/-- The types that can be reached have one place each: among the given ones, or among those nested in one type. -/
structure Forest (s : Store) (ts : List TypeId) : Prop where
  tops : ts.Nodup
  siblings : ∀ {t : TypeId}, s.Beneath ts t → (s.typeDef t).nestedTypes.Nodup
  outside : ∀ {t n : TypeId}, s.Beneath ts t → n ∈ (s.typeDef t).nestedTypes → n ∉ ts
  apart : ∀ {t u n : TypeId}, s.Beneath ts t → s.Beneath ts u → n ∈ (s.typeDef t).nestedTypes →
    n ∈ (s.typeDef u).nestedTypes → t = u

/-- The types that are passed on the way to a type, from the inside out. -/
inductive Path (s : Store) (ts : List TypeId) : TypeId → List TypeId → Prop
  | top {t : TypeId} (h : t ∈ ts) : Path s ts t []
  | nested {t n : TypeId} {as : List TypeId} (h : Path s ts t as) (hn : n ∈ (s.typeDef t).nestedTypes) :
      Path s ts n (t :: as)

variable {as bs : List TypeId}

namespace Path

theorem beneath (h : s.Path ts t as) : s.Beneath ts t := by
  induction h with
  | top h => exact .top h
  | nested _ hn ih => exact ih.nested hn

/-- There is one way to a type of a forest. -/
theorem unique (forest : s.Forest ts) (h : s.Path ts t as) (h' : s.Path ts t bs) : as = bs := by
  induction h generalizing bs with
  | top ht =>
      cases h' with
      | top _ => rfl
      | nested hu hn => exact absurd ht (forest.outside hu.beneath hn)
  | nested hu hn ih =>
      cases h' with
      | top ht => exact absurd ht (forest.outside hu.beneath hn)
      | nested hu' hn' =>
          obtain rfl := forest.apart hu.beneath hu'.beneath hn hn'
          rw [ih hu']

/-- The way to a type that is passed is shorter. -/
theorem shorter (h : s.Path ts t as) (hu : u ∈ as) : ∃ bs, s.Path ts u bs ∧ bs.length < as.length := by
  induction h with
  | top _ => exact absurd hu List.not_mem_nil
  | @nested t n as h hn ih =>
      rcases List.mem_cons.1 hu with rfl | hu
      · exact ⟨as, h, Nat.lt_succ_self _⟩
      · obtain ⟨bs, hbs, hlt⟩ := ih hu
        exact ⟨bs, hbs, Nat.lt_succ_of_lt hlt⟩

/-- No type of a forest is within itself. -/
theorem not_mem (forest : s.Forest ts) (h : s.Path ts t as) : t ∉ as := by
  intro ht
  obtain ⟨bs, hbs, hlt⟩ := h.shorter ht
  rw [hbs.unique forest h] at hlt
  exact Nat.lt_irrefl _ hlt

theorem nodup (forest : s.Forest ts) (h : s.Path ts t as) : as.Nodup := by
  induction h with
  | top _ => exact List.nodup_nil
  | nested h _ ih => exact List.nodup_cons.2 ⟨h.not_mem forest, ih⟩

/-- A type in which another is nested is there. -/
theorem index_lt (h : s.Path ts t as) (hu : u ∈ as) : u.index < s.typeDefs.length := by
  have there : ∀ {u n}, n ∈ (s.typeDef u).nestedTypes → u.index < s.typeDefs.length := by
    intro u n hn
    by_contra hge
    rw [typeDef_of_le (Nat.le_of_not_lt hge)] at hn
    exact List.not_mem_nil hn
  induction h with
  | top _ => exact absurd hu List.not_mem_nil
  | nested _ hn ih =>
      rcases List.mem_cons.1 hu with rfl | hu
      · exact there hn
      · exact ih hu

/-- There are not more levels than types. -/
theorem length_le (forest : s.Forest ts) (h : s.Path ts t as) : as.length ≤ s.typeDefs.length := by
  -- the types that are passed have different numbers, all below that of the types there are
  have numbers : (as.map TypeId.index).Nodup :=
    List.Nodup.map (fun _ _ e => congrArg TypeId.mk e) (h.nodup forest)
  have below : as.map TypeId.index ⊆ List.range s.typeDefs.length := by
    intro k hk
    obtain ⟨u, hu, rfl⟩ := List.mem_map.1 hk
    exact List.mem_range.2 (h.index_lt hu)
  have := (List.subperm_of_subset numbers below).length_le
  rwa [List.length_map, List.length_range] at this

end Path

/-! ### The walk over a forest -/

theorem treeSizes_cons (s : Store) (depth : Nat) (t : TypeId) (ts : List TypeId) :
    s.treeSizes depth (t :: ts) = s.treeSizes depth [t] + s.treeSizes depth ts := by
  cases depth with
  | zero => rfl
  | succ depth => simp [treeSizes]

/-- The walk over some types ends if it ends for each of them. -/
theorem traverses_of_each {depth : Nat}
    (each : ∀ t ∈ ts, ∃ vs, s.Traverses [t] vs ∧ vs.length = s.treeSizes depth [t]) :
    ∃ vs, s.Traverses ts vs ∧ vs.length = s.treeSizes depth ts := by
  induction ts with
  | nil => exact ⟨[], .nil, by cases depth <;> rfl⟩
  | cons t ts ih =>
      obtain ⟨⟨vs, hvs, hlen⟩, each⟩ := List.forall_mem_cons.1 each
      obtain ⟨ws, hws, hrest⟩ := ih each
      refine ⟨vs ++ ws, hvs.append hws, ?_⟩
      rw [List.length_append, hlen, hrest, ← treeSizes_cons]

/-- The walk below a type ends within the levels that are left. -/
theorem Path.traverses (forest : s.Forest ts) {depth : Nat} (h : s.Path ts t as)
    (deep : s.typeDefs.length < as.length + depth) :
    ∃ vs, s.Traverses [t] vs ∧ vs.length = s.treeSizes depth [t] := by
  induction depth generalizing t as with
  | zero => exact absurd (h.length_le forest) (Nat.not_le.2 deep)
  | succ depth ih =>
      have each : ∀ n ∈ (s.typeDef t).nestedTypes,
          ∃ vs, s.Traverses [n] vs ∧ vs.length = s.treeSizes depth [n] := fun n hn =>
        ih (h.nested hn) (by rw [List.length_cons]; omega)
      obtain ⟨vs, hvs, hlen⟩ := traverses_of_each each
      refine ⟨_, .cons hvs .nil, ?_⟩
      rw [List.append_nil, List.length_cons, hlen]
      simp [treeSizes, Nat.add_comm]

/-- The walk over a forest ends, and its length is known beforehand. -/
theorem Forest.traverses (forest : s.Forest ts) :
    ∃ vs, s.Traverses ts vs ∧ vs.length = s.treeSizes (s.typeDefs.length + 1) ts :=
  traverses_of_each fun _ ht => (Path.top ht).traverses forest (by rw [List.length_nil]; omega)

/-- The way to a type goes through one type at each depth. -/
theorem Path.through_unique (forest : s.Forest ts) {cs : List TypeId} (h : s.Path ts t as)
    (h' : s.Path ts t bs) (hu : (u :: cs) <:+ (t :: as)) (hn : (n :: cs) <:+ (t :: bs)) : u = n := by
  rw [h'.unique forest h] at hn
  have same := List.IsSuffix.eq_of_length (List.suffix_of_suffix_length_le hu hn (Nat.le_refl _)) rfl
  exact (List.cons.inj same).1

/-- Each type that is visited from types with the same way to them is on a way through one of these. -/
theorem Traverses.way (h : s.Traverses us vs) (around : ∀ u ∈ us, s.Path ts u as) :
    ∀ x ∈ vs, ∃ u ∈ us, ∃ bs, s.Path ts x bs ∧ (u :: as) <:+ (x :: bs) := by
  induction h generalizing as with
  | nil => exact fun _ hx => absurd hx List.not_mem_nil
  | @cons u us inner rest _ _ ihInner ihRest =>
      obtain ⟨here, around⟩ := List.forall_mem_cons.1 around
      intro x hx
      rcases List.mem_cons.1 hx with rfl | hx
      · exact ⟨x, List.mem_cons_self, as, here, List.suffix_refl _⟩
      rcases List.mem_append.1 hx with hx | hx
      · obtain ⟨n, -, bs, hbs, way⟩ := ihInner (fun n hn => here.nested hn) x hx
        exact ⟨u, List.mem_cons_self, bs, hbs, (List.suffix_cons n _).trans way⟩
      · obtain ⟨v, hv, found⟩ := ihRest around x hx
        exact ⟨v, List.mem_cons_of_mem _ hv, found⟩

/-- What is visited from different types with the same way to them is visited once. -/
theorem Traverses.nodup (forest : s.Forest ts) (h : s.Traverses us vs)
    (around : ∀ u ∈ us, s.Path ts u as) (once : us.Nodup) : vs.Nodup := by
  induction h generalizing as with
  | nil => exact List.nodup_nil
  | @cons u us inner rest hi hr ihInner ihRest =>
      obtain ⟨here, around⟩ := List.forall_mem_cons.1 around
      obtain ⟨hu, once⟩ := List.nodup_cons.1 once
      have within : ∀ n ∈ (s.typeDef u).nestedTypes, s.Path ts n (u :: as) := fun n hn => here.nested hn
      -- what is visited inside of `u` has `u` on its way, and what is visited later has not
      have inside : ∀ x ∈ inner, ∃ bs, s.Path ts x bs ∧ (u :: as) <:+ bs := by
        intro x hx
        obtain ⟨n, -, bs, hbs, way⟩ := hi.way within x hx
        refine ⟨bs, hbs, ?_⟩
        rcases List.suffix_cons_iff.1 way with same | way
        · exact (List.cons.inj same).2 ▸ List.suffix_refl _
        · exact (List.suffix_cons n _).trans way
      have outside : ∀ {x bs}, x ∈ rest → s.Path ts x bs → ¬ (u :: as) <:+ (x :: bs) := by
        intro x bs hx hbs way
        obtain ⟨v, hv, cs, hcs, way'⟩ := hr.way around x hx
        exact hu (hbs.through_unique forest hcs way way' ▸ hv)
      have notInner : u ∉ inner := by
        intro hmem
        obtain ⟨bs, hbs, way⟩ := inside u hmem
        exact hbs.not_mem forest (way.subset List.mem_cons_self)
      have notRest : u ∉ rest := fun hmem => outside hmem here (List.suffix_refl _)
      have apart : ∀ x ∈ inner, ∀ y ∈ rest, x ≠ y := by
        rintro x hx y hy rfl
        obtain ⟨bs, hbs, way⟩ := inside x hx
        exact outside hy hbs (way.trans (List.suffix_cons x bs))
      have innerOnce := ihInner within (forest.siblings here.beneath)
      have restOnce := ihRest around once
      refine List.nodup_cons.2 ⟨?_, List.nodup_append.2 ⟨innerOnce, restOnce, apart⟩⟩
      rw [List.mem_append, not_or]
      exact ⟨notInner, notRest⟩

/-- What is visited is what can be reached. -/
theorem Traverses.mem_iff (h : s.Traverses ts vs) : t ∈ vs ↔ s.Beneath ts t := by
  constructor
  · -- the induction is on the walk over any types that can be reached, not only over `ts`
    have reached : ∀ {us ws}, s.Traverses us ws → (∀ u ∈ us, s.Beneath ts u) →
        ∀ w ∈ ws, s.Beneath ts w := by
      intro us ws hw
      induction hw with
      | nil => exact fun _ w hw => absurd hw List.not_mem_nil
      | cons _ _ inner rest =>
          intro hus w hw
          obtain ⟨here, hus⟩ := List.forall_mem_cons.1 hus
          rcases List.mem_cons.1 hw with rfl | hw
          · exact here
          rcases List.mem_append.1 hw with hw | hw
          · exact inner (fun n hn => here.nested hn) w hw
          · exact rest hus w hw
    exact reached h (fun u hu => .top hu) t
  · intro ht
    induction ht with
    | top ht => exact h.sublist.subset ht
    | nested _ hn ih => exact (h.nested_sublist ih).subset (List.mem_cons_of_mem _ hn)

/-! ### Modules that are built -/

/-- No type is twice in the list of a module or of a type. -/
structure TypesOnce (s : Store) : Prop where
  tops : ∀ i, (s.image i).types.Nodup
  nested : ∀ t, (s.typeDef t).nestedTypes.Nodup

section TypesOnce

variable {s' : Store} {rs : List Row} {i : ImageId}

namespace TypesOnce

theorem congr (h : s.TypesOnce) (hi : s'.images = s.images) (ht : s'.typeDefs = s.typeDefs) :
    s'.TypesOnce where
  tops i := by
    rw [image, hi]
    exact h.tops i
  nested t := by
    rw [typeDef, ht]
    exact h.nested t

theorem modifyImage (h : s.TypesOnce) {f : Image → Image} (once : (f (s.image i)).types.Nodup) :
    (s.modifyImage i f).TypesOnce where
  tops j := by
    rcases s.image_modifyImage_or i f j with heq | ⟨rfl, heq⟩ <;> rw [heq]
    · exact h.tops j
    · exact once
  nested := h.nested

theorem modifyType (h : s.TypesOnce) {f : TypeDef → TypeDef}
    (once : (f (s.typeDef t)).nestedTypes.Nodup) : (s.modifyType t f).TypesOnce where
  tops := h.tops
  nested u := by
    rcases s.typeDef_modifyType_or t f u with heq | ⟨rfl, heq⟩ <;> rw [heq]
    · exact h.nested u
    · exact once

theorem modifyMembers (h : s.TypesOnce) {f : TypeDef → TypeDef}
    (hf : ∀ d, (f d).nestedTypes = d.nestedTypes) : (s.modifyType t f).TypesOnce :=
  h.modifyType ((hf _).symm ▸ h.nested t)

/-- A row that is a value may be put into a table. -/
theorem addRowTo (h : s.TypesOnce) (make : Nat → Row) {f : Image → Image}
    (hf : ∀ m, (f m).types = m.types) : ((s.addRow make).2.modifyImage i f).TypesOnce := by
  have hrow : (s.addRow make).2.TypesOnce := h.congr rfl rfl
  exact hrow.modifyImage ((hf _).symm ▸ hrow.tops i)

/-- A new type has nothing nested in it. -/
theorem addType (h : s.TypesOnce) {d : TypeDef} (hd : d.nestedTypes = []) :
    TypesOnce { s with typeDefs := s.typeDefs ++ [d] } where
  tops := h.tops
  nested t := by
    rw [nestedTypes_append (s := s) rfl hd]
    exact h.nested t

/-- A type that is not in a list may come at its end. -/
theorem nodup_concat (h : us.Nodup) (hn : n ∉ us) : (us ++ [n]).Nodup :=
  List.concat_eq_append ▸ List.Nodup.concat hn h

theorem createType (h : s.TypesOnce) (ha : s.Arranged) (i : ImageId) (ns name : Bytes) :
    (s.createType i ns name).2.TypesOnce := by
  have hnew : (s.addTypeDef i ns name).2.TypesOnce := h.addType rfl
  refine hnew.modifyImage (nodup_concat (h.tops i) fun hmem => ?_)
  exact Nat.lt_irrefl _ (ha.tops hmem).1

theorem addImage (h : s.TypesOnce) {m : Image} (hi : s'.images = s.images ++ [m])
    (ht : s'.typeDefs = s.typeDefs) (once : m.types.Nodup) : s'.TypesOnce where
  tops i := by
    rcases image_or_new hi i with ⟨-, heq⟩ | ⟨-, heq⟩ <;> rw [heq]
    · exact h.tops i
    · exact once
  nested t := by
    rw [typeDef, ht]
    exact h.nested t

theorem createImage (h : s.TypesOnce) (name : Bytes) : (s.createImage name).2.TypesOnce := by
  rw [createImage_eq]
  exact (h.addType (d := { image := ⟨s.images.length⟩, ns := [], name := globalTypeName }) rfl).addImage
    rfl rfl (List.nodup_singleton _)

theorem createNestedType (h : s.TypesOnce) (ha : s.Arranged) (i : ImageId) (ns name : Bytes)
    (o : TypeId) : (s.createNestedType i ns name o).2.TypesOnce := by
  have hnew : TypesOnce { s with typeDefs := s.typeDefs ++
      [{ image := i, ns, name, declaring := some o : TypeDef }] } := h.addType rfl
  refine hnew.modifyType (nodup_concat (hnew.nested o) fun hmem => ?_)
  rw [nestedTypes_append (s := s) rfl rfl] at hmem
  exact Nat.lt_irrefl _ (ha.nested hmem)

theorem nest {φ : Type} (h : s.TypesOnce) (hn : s.NestingAgrees) {o : TypeId}
    (hs : (s.nest o t : Except (Failure φ) Store) = .ok s') : s'.TypesOnce := by
  have top := top_of_nest hs
  obtain rfl := of_nest hs
  have hinner : (s.modifyType t fun d => { d with declaring := some o }).TypesOnce :=
    h.modifyType (h.nested t)
  refine hinner.modifyType (nodup_concat (hinner.nested o) fun hmem => ?_)
  have hmem : t ∈ (s.typeDef o).nestedTypes := by
    rcases s.typeDef_modifyType_or t (fun d => { d with declaring := some o }) o with heq | ⟨-, heq⟩
    · exact heq ▸ hmem
    · rw [heq] at hmem
      exact hmem
  exact Option.some_ne_none _ ((hn o t hmem).symm.trans top)

end TypesOnce

/-- In a store that is built, no type is listed twice. -/
theorem Built.typesOnce (h : Built rs s) : s.TypesOnce := by
  induction h with
  | empty => exact ⟨fun _ => List.nodup_nil, fun _ => List.nodup_nil⟩
  | image _ name ih => exact ih.createImage name
  | type h i ns name ih => exact ih.createType h.arranged i ns name
  | innerType h i ns name outer ih => exact ih.createNestedType h.arranged i ns name outer
  | looseType _ i ns name ih => exact ih.addType rfl
  | nested h _ hs ih => exact ih.nest h.nestingAgrees hs
  | field _ t d _ ih =>
      have hnew : (Store.addFieldDef _ { d with declaring := some t }).2.TypesOnce := ih.congr rfl rfl
      exact hnew.modifyMembers fun _ => rfl
  | looseField _ d _ ih => exact ih.congr rfl rfl
  | attachedField _ _ _ hs ih =>
      obtain ⟨-, rfl⟩ := of_attachField hs
      exact (ih.congr rfl rfl : (Store.modifyField _ _ _).TypesOnce).modifyMembers fun _ => rfl
  | method _ t d _ ih =>
      have hnew : (Store.addMethodDef _ { d with declaring := some t }).2.TypesOnce := ih.congr rfl rfl
      exact hnew.modifyMembers fun _ => rfl
  | looseMethod _ d _ ih => exact ih.congr rfl rfl
  | attachedMethod _ _ _ hs ih =>
      obtain ⟨-, rfl⟩ := of_attachMethod hs
      exact (ih.congr rfl rfl : (Store.modifyMethod _ _ _).TypesOnce).modifyMembers fun _ => rfl
  | changedType _ t _ nested _ _ _ ih => exact ih.modifyMembers nested
  | changedField _ k _ _ ih => exact ih.congr rfl rfl
  | changedMethod _ k _ _ ih => exact ih.congr rfl rfl
  | assemblyRef _ i n ih => exact ih.addRowTo (.assemblyRef · n) fun _ => rfl
  | moduleRef _ i name ih => exact ih.addRowTo (.moduleRef · name) fun _ => rfl
  | typeRef _ i ns name scope _ ih => exact ih.addRowTo (.typeRef · ns name scope) fun _ => rfl
  | memberRef _ i name sig parent _ _ ih =>
      exact ih.addRowTo (.memberRef · name sig parent) fun _ => rfl
  | typeSpec _ sig _ ih => exact ih.congr rfl rfl
  | methodSpec _ method sig _ _ ih => exact ih.congr rfl rfl

/-- The types of a module that is built form a forest, unless one of its list has been put into another type. -/
theorem Built.forest (h : Built rs s)
    (tops : ∀ t ∈ (s.image i).types, (s.typeDef t).declaring = none) :
    s.Forest (s.image i).types where
  tops := h.typesOnce.tops i
  siblings _ := h.typesOnce.nested _
  outside _ hn ht := Option.some_ne_none _ ((h.nestingAgrees _ _ hn).symm.trans (tops _ ht))
  apart _ _ hn hn' := Option.some.inj ((h.nestingAgrees _ _ hn).symm.trans (h.nestingAgrees _ _ hn'))

end TypesOnce

/-! ### The walk over a module -/

/-- In a module whose types form a forest, the walk ends after as many turns as it visits types.  It visits those that can be reached from the types of the module, each once, in the order of the walk by recursion: the types of the module come in the order of their list, and behind a type come those nested in it, in the order of theirs. -/
theorem walk_is_preorder (s : Store) (i : ImageId) (forest : s.Forest (s.image i).types) :
    Walk.turns s (s.walk i).length (.start (s.image i).types) = ⟨[], s.walk i⟩ ∧
    s.Traverses (s.image i).types (s.walk i) ∧
    (s.walk i).Nodup ∧
    (∀ t, t ∈ s.walk i ↔ s.Beneath (s.image i).types t) ∧
    (s.image i).types.Sublist (s.walk i) ∧
    ∀ t ∈ s.walk i, (t :: (s.typeDef t).nestedTypes).Sublist (s.walk i) := by
  obtain ⟨vs, hvs, hlen⟩ := forest.traverses
  have ends : Walk.turns s vs.length (.start (s.image i).types) = ⟨[], vs⟩ :=
    Walk.turns_of_traverses hvs [] []
  have visits : s.walk i = vs := by
    unfold walk
    dsimp only
    rw [← hlen, ends]
  rw [visits]
  exact ⟨ends, hvs, hvs.nodup forest (fun t ht => .top ht) forest.tops, fun _ => hvs.mem_iff,
    hvs.sublist, fun _ => hvs.nested_sublist⟩

/-- A module with two types of its own beside its global type, the first of which has two types nested in it, and the first of these another. -/
def branching : Store :=
  let s := (Store.empty.createImage "M").2
  let s := (s.createType ⟨0⟩ [] "A").2
  let s := (s.createType ⟨0⟩ [] "B").2
  let s := (s.createNestedType ⟨0⟩ [] "C" ⟨1⟩).2
  let s := (s.createNestedType ⟨0⟩ [] "D" ⟨1⟩).2
  (s.createNestedType ⟨0⟩ [] "E" ⟨3⟩).2

theorem walk_is_preorder_branching :
    branching.Forest (branching.image ⟨0⟩).types ∧
    branching.walk ⟨0⟩ = [⟨0⟩, ⟨1⟩, ⟨3⟩, ⟨5⟩, ⟨4⟩, ⟨2⟩] ∧
    Walk.turns branching 6 (.start [⟨0⟩, ⟨1⟩, ⟨2⟩]) = ⟨[], [⟨0⟩, ⟨1⟩, ⟨3⟩, ⟨5⟩, ⟨4⟩, ⟨2⟩]⟩ := by
  have built : Built [] branching :=
    .innerType (.innerType (.innerType (.type (.type (.image .empty _) _ _ _) _ _ _) _ _ _ _) _ _ _ _) _ _ _ _
  have forest : branching.Forest (branching.image ⟨0⟩).types := built.forest (by decide)
  have order : branching.walk ⟨0⟩ = [⟨0⟩, ⟨1⟩, ⟨3⟩, ⟨5⟩, ⟨4⟩, ⟨2⟩] := by decide
  refine ⟨forest, order, ?_⟩
  have ends := (walk_is_preorder branching ⟨0⟩ forest).1
  rw [order] at ends
  exact ends

end Store

end CilCatalog.Live
