import CilCatalog.Proofs.Reading.Record
import CilCatalog.Proofs.Writing.Filed
import CilCatalog.Proofs.Writing.Makes

/-!
# Each member is listed once

The lists of a type get its members as they are made, each once.  They are put in order by the child lists of a catalog, which may name a member twice; it is then listed twice (`Writers.not_listed_duet`).  Where they do not, each type of a module has each of its members in its lists exactly once, and putting the members in order is but a permutation.

* `Store.Distinct`: lists have no member twice.
* `WriteState.Orderly`: no child list has two tokens that stand for one row.
* `Tidies`: lists stay distinct, if the child lists turn out to be orderly.
* `Writers.listed`: each member is listed once after any requests whose child lists are orderly.
-/

namespace CilCatalog

open Live

/-! ### Order -/

namespace Writing

variable {α : Type} [DecidableEq α] {first current : List α}

theorem reordered_nodup (hf : first.Nodup) (hc : current.Nodup) : (reordered first current).Nodup := by
  refine List.nodup_append.2 ⟨hf, hc.filter _, fun a ha b hb => ?_⟩
  rintro rfl
  exact of_decide_eq_true (List.mem_filter.1 hb).2 ha

/-- Putting first what is listed, and nothing twice, is a permutation. -/
theorem reordered_perm (hf : first.Nodup) (hc : current.Nodup) (h : ∀ a ∈ first, a ∈ current) :
    (reordered first current).Perm current :=
  (List.perm_ext_iff_of_nodup (reordered_nodup hf hc) hc).2 fun _ => mem_reordered h

end Writing

namespace Live.Store

variable {s s' : Store} {t : TypeId}

/-! ### Distinct members -/

/-- A list without repetition of things with numbers below `n`. -/
def OnceBelow {α : Type} (index : α → Nat) (n : Nat) (as : List α) : Prop :=
  as.Nodup ∧ ∀ a ∈ as, index a < n

/-- No type from number `b` on has a member twice in its lists, and all these members are there. -/
structure Distinct (b : Nat) (s : Store) : Prop where
  nested : ∀ t, b ≤ t.index →
    OnceBelow TypeId.index s.typeDefs.length (s.typeDef t).nestedTypes
  fields : ∀ t, b ≤ t.index → OnceBelow FieldId.index s.fieldDefs.length (s.typeDef t).fields
  methods : ∀ t, b ≤ t.index → OnceBelow MethodId.index s.methodDefs.length (s.typeDef t).methods

section OnceBelow

variable {α : Type} {index : α → Nat} {m n : Nat} {as : List α}

theorem OnceBelow.mono (h : OnceBelow index n as) (hm : n ≤ m) : OnceBelow index m as :=
  ⟨h.1, fun a ha => Nat.lt_of_lt_of_le (h.2 a ha) hm⟩

/-- What comes next is not in the list. -/
theorem OnceBelow.append (h : OnceBelow index n as) {a : α} (ha : index a = n) :
    OnceBelow index (n + 1) (as ++ [a]) := by
  have hne : ∀ b ∈ as, b ≠ a := by
    rintro b hb rfl
    exact absurd (h.2 b hb) (ha ▸ Nat.lt_irrefl _)
  constructor
  · refine List.nodup_append.2 ⟨h.1, List.nodup_singleton a, fun b hb c hc => ?_⟩
    rw [List.mem_singleton.1 hc]
    exact hne b hb
  · intro b hb
    rcases List.mem_append.1 hb with hb | hb
    · exact Nat.lt_succ_of_lt (h.2 b hb)
    · rw [List.mem_singleton.1 hb, ha]
      exact Nat.lt_succ_self n

theorem OnceBelow.reordered [DecidableEq α] (h : OnceBelow index n as) {first : List α}
    (hf : OnceBelow index n first) : OnceBelow index n (Writing.reordered first as) := by
  refine ⟨Writing.reordered_nodup hf.1 h.1, fun a ha => ?_⟩
  rcases List.mem_append.1 ha with ha | ha
  · exact hf.2 a ha
  · exact h.2 a (List.mem_filter.1 ha).1

end OnceBelow

variable {b : Nat}

namespace Distinct

/-- The lists of types stay as they are. -/
theorem congr (h : s.Distinct b) (ht : s.typeDefs.length ≤ s'.typeDefs.length)
    (hf : s.fieldDefs.length ≤ s'.fieldDefs.length)
    (hm : s.methodDefs.length ≤ s'.methodDefs.length)
    (lists : ∀ t, (s'.typeDef t).nestedTypes = (s.typeDef t).nestedTypes ∧
      (s'.typeDef t).fields = (s.typeDef t).fields ∧
      (s'.typeDef t).methods = (s.typeDef t).methods) : s'.Distinct b where
  nested t hb := (lists t).1 ▸ (h.nested t hb).mono ht
  fields t hb := (lists t).2.1 ▸ (h.fields t hb).mono hf
  methods t hb := (lists t).2.2 ▸ (h.methods t hb).mono hm

/-- What a type says may be changed, as long as its lists are distinct. -/
theorem modifyType (h : s.Distinct b) {f : TypeDef → TypeDef}
    (nested : b ≤ t.index →
      OnceBelow TypeId.index s.typeDefs.length (f (s.typeDef t)).nestedTypes)
    (fields : b ≤ t.index → OnceBelow FieldId.index s.fieldDefs.length (f (s.typeDef t)).fields)
    (methods : b ≤ t.index →
      OnceBelow MethodId.index s.methodDefs.length (f (s.typeDef t)).methods) :
    (s.modifyType t f).Distinct b := by
  refine ⟨fun u hb => ?_, fun u hb => ?_, fun u hb => ?_⟩
  · rw [length_modifyType]
    rcases s.typeDef_modifyType_or t f u with heq | ⟨rfl, heq⟩ <;> rw [heq]
    · exact h.nested u hb
    · exact nested hb
  · rcases s.typeDef_modifyType_or t f u with heq | ⟨rfl, heq⟩ <;> rw [heq]
    · exact h.fields u hb
    · exact fields hb
  · rcases s.typeDef_modifyType_or t f u with heq | ⟨rfl, heq⟩ <;> rw [heq]
    · exact h.methods u hb
    · exact methods hb

theorem keepsMembers (h : s.Distinct b) {f : TypeDef → TypeDef} (hf : WriteState.KeepsMembers f) :
    (s.modifyType t f).Distinct b :=
  h.modifyType (fun hb => (hf.nestedTypes _).symm ▸ h.nested t hb)
    (fun hb => (hf.fields _).symm ▸ h.fields t hb) fun hb => (hf.methods _).symm ▸ h.methods t hb

/-- A new type has nothing in its lists. -/
theorem addType (h : s.Distinct b) {d : TypeDef} (hd : s'.typeDefs = s.typeDefs ++ [d])
    (hf : s'.fieldDefs = s.fieldDefs) (hm : s'.methodDefs = s.methodDefs)
    (nested : d.nestedTypes = []) (fields : d.fields = []) (methods : d.methods = []) :
    s'.Distinct b := by
  refine h.congr ?_ (hf ▸ Nat.le_refl _) (hm ▸ Nat.le_refl _) (lists_append hd nested fields methods)
  rw [hd, List.length_append]
  exact Nat.le_add_right _ _

theorem createNestedType (h : s.Distinct b) (i : ImageId) (ns name : Bytes) (o : TypeId) :
    (s.createNestedType i ns name o).2.Distinct b := by
  let s₁ : Store := { s with
    typeDefs := s.typeDefs ++ [{ image := i, ns, name, declaring := some o }] }
  have h₁ : s₁.Distinct b := h.addType rfl rfl rfl rfl rfl rfl
  have lists := @lists_append s s₁ _ rfl rfl rfl rfl o
  refine modifyType h₁ (f := fun d => { d with nestedTypes := d.nestedTypes ++ [⟨s.typeDefs.length⟩] })
    (fun hb => ?_) (h₁.fields o) (h₁.methods o)
  have length : s₁.typeDefs.length = s.typeDefs.length + 1 := List.length_append
  rw [length]
  exact lists.1 ▸ (h.nested o hb).append rfl

theorem createField (h : s.Distinct b) (t : TypeId) (d : FieldDef) :
    (s.createField t d).2.Distinct b := by
  let s₁ : Store := { s with fieldDefs := s.fieldDefs ++ [{ d with declaring := some t }] }
  have length : s₁.fieldDefs.length = s.fieldDefs.length + 1 := List.length_append
  have h₁ : s₁.Distinct b := h.congr (Nat.le_refl _) (length ▸ Nat.le_succ _) (Nat.le_refl _)
    fun _ => ⟨rfl, rfl, rfl⟩
  refine modifyType h₁ (f := fun d => { d with fields := d.fields ++ [⟨s.fieldDefs.length⟩] })
    (h₁.nested t) (fun hb => ?_) (h₁.methods t)
  rw [length]
  exact (h.fields t hb).append rfl

theorem createMethod (h : s.Distinct b) (t : TypeId) (d : MethodDef) :
    (s.createMethod t d).2.Distinct b := by
  let s₁ : Store := { s with methodDefs := s.methodDefs ++ [{ d with declaring := some t }] }
  have length : s₁.methodDefs.length = s.methodDefs.length + 1 := List.length_append
  have h₁ : s₁.Distinct b := h.congr (Nat.le_refl _) (Nat.le_refl _) (length ▸ Nat.le_succ _)
    fun _ => ⟨rfl, rfl, rfl⟩
  refine modifyType h₁ (f := fun d => { d with methods := d.methods ++ [⟨s.methodDefs.length⟩] })
    (h₁.nested t) (h₁.fields t) fun hb => ?_
  rw [length]
  exact (h.methods t hb).append rfl

end Distinct

/-- Members stay distinct, whatever is made and however members are changed. -/
theorem defining_distinct (b : Nat) :
    Defining fun w w' : WriteState => w.store.Distinct b → w'.store.Distinct b where
  trans h h' hs := h' (h hs)
  rows {w s} hs h := by
    refine h.congr (hs.typeDefs ▸ Nat.le_refl _) (hs.fieldDefs ▸ Nat.le_refl _)
      (hs.methodDefs ▸ Nat.le_refl _) fun t => ?_
    change (s.typeDef t).nestedTypes = _ ∧ (s.typeDef t).fields = _ ∧ (s.typeDef t).methods = _
    rw [show s.typeDef t = w.store.typeDef t by rw [typeDef, hs.typeDefs, typeDef]]
    exact ⟨rfl, rfl, rfl⟩
  addType _ _ _ _ h := h.addType rfl rfl rfl rfl rfl rfl
  addNestedType _ i ns name o h := h.createNestedType i ns name o
  addField _ t d h := h.createField t d
  addMethod _ t d h := h.createMethod t d
  note _ _ _ h := h
  noteType _ _ _ h := h
  noteField _ _ _ h := h
  noteMethod _ _ _ h := h
  raiseType _ _ _ h := h
  raiseField _ _ _ h := h
  raiseMethod _ _ _ h := h
  changeField _ i f h := h.congr (Nat.le_refl _) (length_modifyField i f ▸ Nat.le_refl _)
    (Nat.le_refl _) fun _ => ⟨rfl, rfl, rfl⟩
  changeMethod _ i f h := h.congr (Nat.le_refl _) (Nat.le_refl _)
    (length_modifyMethod i f ▸ Nat.le_refl _) fun _ => ⟨rfl, rfl, rfl⟩

end Live.Store

/-! ### Child lists -/

/-- A list whose elements come from those of another comes from it. -/
theorem eq_map_of_forall₂ {α β : Type} {f : β → α} {P : β → Prop} {as : List α} {bs : List β}
    (h : List.Forall₂ (fun a b => a = f b ∧ P b) as bs) : as = bs.map f ∧ ∀ b ∈ bs, P b := by
  induction h with
  | nil => exact ⟨rfl, nofun⟩
  | cons hab _ ih =>
      obtain ⟨rfl, hb⟩ := hab
      exact ⟨congrArg _ ih.1, List.forall_mem_cons.2 ⟨hb, ih.2⟩⟩

namespace WriteState

variable {w w' : WriteState} {c : Catalog} {ds : List TypeData}

/-- No two tokens of a list stand for one row. -/
def NamesApart (w : WriteState) (c : Catalog) (kind : EntityKind) (ts : Option (List Token)) : Prop :=
  (ts.getD []).Pairwise fun t u => ∀ r, w.Resolves c kind t r → ¬ w.Resolves c kind u r

/-- No child list names a member twice, as far as the members have been written. -/
def Orderly (w : WriteState) (c : Catalog) (ds : List TypeData) : Prop :=
  ∀ d ∈ ds, w.NamesApart c .type d.nestedTypes ∧ w.NamesApart c .field d.fields ∧
    w.NamesApart c .method d.methods

/-- What stands for two rows has never stood for one. -/
theorem NamesApart.of_leads {kind : EntityKind} {ts : Option (List Token)}
    (h : w'.NamesApart c kind ts) (hl : w.Leads w') : w.NamesApart c kind ts :=
  h.imp fun hr r ht hu => hr r (ht.leads hl) (hu.leads hl)

theorem Orderly.of_leads (h : w'.Orderly c ds) (hl : w.Leads w') : w.Orderly c ds := fun d hd =>
  ⟨(h d hd).1.of_leads hl, (h d hd).2.1.of_leads hl, (h d hd).2.2.of_leads hl⟩

/-- The rows of a list of tokens are distinct. -/
theorem NamesApart.nodup {kind : EntityKind} {ts : List Token} {rs : List Row}
    (h : w.NamesApart c kind (some ts)) (hr : List.Forall₂ (w.Resolves c kind) ts rs) : rs.Nodup := by
  change ts.Pairwise _ at h
  induction hr with
  | nil => exact List.nodup_nil
  | @cons t r ts rs ht hts ih =>
      rw [List.pairwise_cons] at h
      refine List.nodup_cons.2 ⟨fun hmem => ?_, ih h.2⟩
      obtain ⟨u, hu, hur⟩ := forall₂_mem_right hts hmem
      exact h.1 u hu r ht hur

end WriteState

/-! ### Computations -/

/-- A computation does nothing but acts, and the members of types stay distinct, if the child lists turn out to be orderly. -/
def Tidies {α : Type} (b : Nat) (c : Catalog) (ds : List TypeData) (w : WriteState) (x : Writing α)
    (Q : WriteState → α → Prop) : Prop :=
  Runs WriteState.Ready w x Q ∧ (w.Ready → w.store.Distinct b → (x w).2.Orderly c ds → (x w).2.store.Distinct b)

namespace Tidies

variable {b : Nat} {c : Catalog} {ds : List TypeData} {w w' : WriteState} {α β : Type} {x : Writing α}
  {P Q : WriteState → α → Prop}

theorem of_makes (h : Runs WriteState.Ready w x Q)
    (hx : Makes (fun w w' => w.store.Distinct b → w'.store.Distinct b) x) : Tidies b c ds w x Q :=
  ⟨h, fun _ hs _ => hx w hs⟩

theorem pure {a : α} (h : Q w a) : Tidies b c ds w (pure a : Writing α) Q :=
  .of_makes (.pure h) ((Store.defining_distinct b).pure a)

theorem throw {f : Failure WriteFault} : Tidies b c ds w (throw f : Writing α) Q :=
  ⟨.throw, fun _ hs _ => hs⟩

theorem refuse {f : WriteFault} : Tidies b c ds w (Writing.refuse f : Writing α) Q := throw

theorem imp (hx : Tidies b c ds w x P) (h : ∀ {w' a}, P w' a → Q w' a) : Tidies b c ds w x Q :=
  ⟨hx.1.imp h, hx.2⟩

theorem bind {f : α → Writing β} {S : WriteState → β → Prop} (hx : Tidies b c ds w x P)
    (hf : ∀ {a w'}, w.Leads w' → P w' a → Tidies b c ds w' (f a) S) : Tidies b c ds w (x >>= f) S := by
  refine ⟨hx.1.bind fun hl hP => (hf hl hP).1, fun hw hs ho => ?_⟩
  obtain ⟨hl, hP⟩ := hx.1 hw
  have hd := hx.2 hw hs
  cases h : x w with
  | mk r w₁ =>
      rw [h] at hl hP hd
      cases r with
      | error e =>
          rw [run_bind_error h] at ho ⊢
          exact hd ho
      | ok a =>
          rw [run_bind_ok h] at ho ⊢
          -- what is orderly in the end has been so in between
          obtain ⟨hrest, hkeep⟩ := hf hl (hP a rfl)
          have hready := hl.ready hw
          exact hkeep hready (hd (ho.of_leads (hrest hready).1)) ho

theorem ite {p : Prop} [Decidable p] {y : Writing α} (hx : p → Tidies b c ds w x Q)
    (hy : ¬ p → Tidies b c ds w y Q) : Tidies b c ds w (if p then x else y) Q := by
  split
  · next h => exact hx h
  · next h => exact hy h

theorem bind_askable {isNull : Bool} {f : Unit → Writing α} (h : Tidies b c ds w (f ()) Q) :
    Tidies b c ds w (Writing.askable isNull >>= f) Q := by
  cases isNull with
  | true => exact throw
  | false => exact h

theorem bind_store {f : Store → Writing α} (h : Tidies b c ds w (f w.store) Q) :
    Tidies b c ds w (Writing.store >>= f) Q := by
  refine ⟨.bind_store h.1, ?_⟩
  rw [run_bind_ok (gives_store.2 ⟨rfl, rfl⟩)]
  exact h.2

theorem bind_writer {f : Writer → Writing α} (h : Tidies b c ds w (f w.writer) Q) :
    Tidies b c ds w (Writing.writer >>= f) Q := by
  refine ⟨.bind_writer h.1, ?_⟩
  rw [run_bind_ok (gives_writer.2 ⟨rfl, rfl⟩)]
  exact h.2

theorem bind_lookUp {named : Bool} {m : TokenMap named β} {t : Token} {f : β → Writing α}
    (h : ∀ {a}, m.get? t = some a → Tidies b c ds w (f a) Q) :
    Tidies b c ds w (Writing.lookUp m t >>= f) Q := by
  have found : Tidies b c ds w (Writing.lookUp m t) fun w' a => w' = w ∧ m.get? t = some a := by
    unfold Writing.lookUp
    cases hm : m.get t with
    | ok a => exact pure ⟨rfl, TokenMap.get?_of_get hm⟩
    | error e => exact refuse
  refine found.bind ?_
  rintro a _ - ⟨rfl, ha⟩
  exact h ha

theorem bind_checkLevel {highest asked : Level} {f : Unit → Writing α} (h : Tidies b c ds w (f ()) Q) :
    Tidies b c ds w (Writing.checkLevel highest asked >>= f) Q := by
  refine bind (P := fun w' _ => w' = w) (ite (fun _ => refuse) fun _ => pure rfl) ?_
  rintro _ _ - rfl
  exact h

/-- Something is done for each entity under a token. -/
theorem mapM {kind : EntityKind} {f : Token → Writing Row} {ts : List Token}
    (hf : ∀ t ∈ ts, ∀ {w}, Tidies b c ds w (f t) fun w' r => w'.Resolves c kind t r) :
    Tidies b c ds w (ts.mapM f) fun w' rs => List.Forall₂ (w'.Resolves c kind) ts rs := by
  induction ts generalizing w with
  | nil => exact pure .nil
  | cons t ts ih =>
      rw [List.forall_mem_cons] at hf
      rw [List.mapM_cons]
      exact hf.1.bind fun _ hr => (ih hf.2).bind fun hl hrs => pure (.cons (hr.leads hl) hrs)

/-- Members that a child list names are put first.  That they have no member twice depends on the child list only. -/
theorem order {kind : EntityKind} {t : TypeId} {ts : List Token} {rows : List Row} {f : α → Row}
    {pick : Row → Writing α} {P : α → Prop} {change : List α → TypeDef → TypeDef}
    (hr : List.Forall₂ (w.Resolves c kind) ts rows)
    (apart : ∀ {w : WriteState}, w.Orderly c ds → w.NamesApart c kind (some ts))
    (runs : ∀ r ∈ rows, Runs WriteState.Ready w (pick r) fun w' a => w' = w ∧ P a)
    (makes : ∀ r, Makes (fun w w' => w.store.Distinct b → w'.store.Distinct b) (pick r))
    (gives : ∀ {r a w w'}, Gives (pick r) w a w' → w' = w ∧ r = f a ∧ P a)
    (act : ∀ as, (∀ a ∈ as, (∃ k, w.Resolves c kind k (f a)) ∧ P a) →
      w.Act (w.inStore (w.store.modifyType t (change as))))
    (distinct : ∀ as, as.Nodup → (∀ a ∈ as, P a) → w.store.Distinct b →
      (w.store.modifyType t (change as)).Distinct b) :
    Tidies b c ds w (do
      let as ← rows.mapM pick
      Writing.modifyStore (·.modifyType t (change as))) fun _ _ => True := by
  have picked : Tidies b c ds w (rows.mapM pick) fun w' as =>
      w' = w ∧ rows = as.map f ∧ ∀ a ∈ as, P a := by
    refine .of_makes ((Runs.mapM_still runs).of_gives fun _ hg => ?_)
      ((Store.defining_distinct b).mapM makes rows)
    obtain ⟨hw, has⟩ := gives_mapM_still gives hg
    exact ⟨hw, eq_map_of_forall₂ has⟩
  refine picked.bind ?_
  rintro as w' - ⟨rfl, rfl, hP⟩
  have hact := act as fun a ha => by
    obtain ⟨k, -, hk⟩ := forall₂_mem_right hr (List.mem_map_of_mem ha)
    exact ⟨⟨k, hk⟩, hP a ha⟩
  refine ⟨(Runs.modifyStore hact).imp fun _ => trivial, fun _ hs ho => distinct as ?_ hP hs⟩
  exact ((apart (ho.of_leads hact.leads)).nodup hr).of_map f

/-! ### Members of a type -/

section Members

variable {t : TypeId} {ts : List Token} {rows : List Row}

theorem orderTypes (ht : w.RemembersType (.typeDef t))
    (hr : List.Forall₂ (w.Resolves c .type) ts rows)
    (apart : ∀ {w : WriteState}, w.Orderly c ds → w.NamesApart c .type (some ts)) :
    Tidies b c ds w (do
      let ns ← rows.mapM (Writing.nestedIn w.store t)
      Writing.modifyStore (·.modifyType t fun l =>
        { l with nestedTypes := Writing.reordered ns l.nestedTypes })) fun _ _ => True := by
  refine order (f := .typeDef) (P := fun n => (w.store.typeDef n).declaring = some t) hr apart
    (fun r hm => ?_) ((Store.defining_distinct b).nestedIn w.store t) gives_nestedIn
    (fun ns hns => ?_) fun ns hnodup hns h => ?_
  · obtain ⟨k, -, hk⟩ := forall₂_mem_right hr hm
    exact (Runs.nestedIn hk.remembersType).imp fun h => ⟨h.1, h.2.2⟩
  · exact .orderTypes ht fun n hn => ⟨(hns n hn).1.elim fun _ h => h.remembersType, (hns n hn).2⟩
  · exact h.modifyType (fun hb => (h.nested t hb).reordered ⟨hnodup, fun n hn => Store.type_lt (hns n hn)⟩)
      (h.fields t) (h.methods t)

theorem orderFields (ht : w.RemembersType (.typeDef t))
    (hr : List.Forall₂ (w.Resolves c .field) ts rows)
    (apart : ∀ {w : WriteState}, w.Orderly c ds → w.NamesApart c .field (some ts)) :
    Tidies b c ds w (do
      let fs ← rows.mapM (Writing.fieldIn w.store t)
      Writing.modifyStore (·.modifyType t fun l =>
        { l with fields := Writing.reordered fs l.fields })) fun _ _ => True := by
  refine order (f := .fieldDef) (P := fun f => (w.store.fieldDef f).declaring = some t) hr apart
    (fun r hm => ?_) ((Store.defining_distinct b).fieldIn w.store t) gives_fieldIn
    (fun fs hfs => ?_) fun fs hnodup hfs h => ?_
  · obtain ⟨k, -, hk⟩ := forall₂_mem_right hr hm
    exact (Runs.fieldIn hk.remembersField).imp fun h => ⟨h.1, h.2.2⟩
  · exact .orderFields ht fun f hf => ⟨(hfs f hf).1.elim fun _ h => h.remembersField, (hfs f hf).2⟩
  · exact h.modifyType (h.nested t)
      (fun hb => (h.fields t hb).reordered ⟨hnodup, fun f hf => Store.field_lt (hfs f hf)⟩)
      (h.methods t)

theorem orderMethods (ht : w.RemembersType (.typeDef t))
    (hr : List.Forall₂ (w.Resolves c .method) ts rows)
    (apart : ∀ {w : WriteState}, w.Orderly c ds → w.NamesApart c .method (some ts)) :
    Tidies b c ds w (do
      let fs ← rows.mapM (Writing.methodIn w.store t)
      Writing.modifyStore (·.modifyType t fun l =>
        { l with methods := Writing.reordered fs l.methods })) fun _ _ => True := by
  refine order (f := .methodDef) (P := fun f => (w.store.methodDef f).declaring = some t) hr apart
    (fun r hm => ?_) ((Store.defining_distinct b).methodIn w.store t) gives_methodIn
    (fun fs hfs => ?_) fun fs hnodup hfs h => ?_
  · obtain ⟨k, -, hk⟩ := forall₂_mem_right hr hm
    exact (Runs.methodIn hk.remembersMethod).imp fun h => ⟨h.1, h.2.2⟩
  · exact .orderMethods ht fun f hf =>
      ⟨(hfs f hf).1.elim fun _ h => h.remembersMethod, (hfs f hf).2⟩
  · exact h.modifyType (h.nested t) (h.fields t)
      fun hb => (h.methods t hb).reordered ⟨hnodup, fun f hf => Store.method_lt (hfs f hf)⟩

theorem forPresent {β : Type} {list : Option (List β)} {f : List β → Writing Unit}
    (hf : ∀ as, list = some as → Tidies b c ds w (f as) fun _ _ => True) :
    Tidies b c ds w (Writing.forPresent list f) fun _ _ => True := by
  cases list with
  | none => exact pure trivial
  | some as => exact hf as rfl

theorem changeType {f : TypeDef → TypeDef} (ht : w.RemembersType (.typeDef t))
    (hf : WriteState.KeepsMembers f) :
    Tidies b c ds w (Writing.modifyStore (·.modifyType t f)) fun _ _ => True :=
  .of_makes (.changeType ht hf) (Locating.modifyStore fun _ h => h.keepsMembers hf)

theorem fields : Tidies b c ds w (Writing.fields c ts .definition) fun w' rs =>
    List.Forall₂ (w'.Resolves c .field) ts rs :=
  mapM fun t _ {_} => .of_makes (.bind_lookUp fun he => (Runs.field c).imp fun hr => ⟨_, he, hr⟩) <|
    (Store.defining_distinct b).bind ((Store.defining_distinct b).lookUp _ t) fun _ =>
      (Store.defining_distinct b).field c _ _

theorem methods : Tidies b c ds w (Writing.methods c ts .definition) fun w' rs =>
    List.Forall₂ (w'.Resolves c .method) ts rs :=
  mapM fun t _ {_} => .of_makes (.bind_lookUp fun he => (Runs.method c).imp fun hr => ⟨_, he, hr⟩) <|
    (Store.defining_distinct b).bind ((Store.defining_distinct b).lookUp _ t) fun _ =>
      (Store.defining_distinct b).method c _ _

theorem properties {ps : List Property} :
    Tidies b c ds w (ps.mapM (Writing.property c)) fun _ _ => True :=
  .of_makes (Runs.each fun _ _ _ => Runs.property c _)
    ((Store.defining_distinct b).mapM ((Store.defining_distinct b).property c) ps)

theorem events {es : List Event} :
    Tidies b c ds w (es.mapM (Writing.event c)) fun _ _ => True :=
  .of_makes (Runs.each fun _ _ _ => Runs.event c _)
    ((Store.defining_distinct b).mapM ((Store.defining_distinct b).event c) es)

theorem defineMembers {d : TypeData} (hd : d ∈ ds) (ht : w.RemembersType (.typeDef t)) :
    Tidies b c ds w (Writing.defineMembers c t d) fun _ _ => True := by
  refine (forPresent fun ts hts => ?_).bind fun h₁ _ => (forPresent fun ts hts => ?_).bind
    fun h₂ _ => (forPresent fun ps _ => ?_).bind fun h₃ _ => forPresent fun es _ => ?_
  · exact fields.bind fun hl hr => bind_store <|
      orderFields (hl.remembersType ht) hr fun ho => hts ▸ (ho d hd).2.1
  · exact methods.bind fun hl hr => bind_store <|
      orderMethods ((h₁.trans hl).remembersType ht) hr fun ho => hts ▸ (ho d hd).2.2
  · exact properties.bind fun hl _ => changeType (((h₁.trans h₂).trans hl).remembersType ht)
      ⟨fun _ => rfl, fun _ => rfl, fun _ => rfl, fun _ => rfl⟩
  · exact events.bind fun hl _ => changeType ((((h₁.trans h₂).trans h₃).trans hl).remembersType ht)
      ⟨fun _ => rfl, fun _ => rfl, fun _ => rfl, fun _ => rfl⟩

end Members

/-! ### Types -/

section Types

variable {e : TypeEntity} {level : Level}

/-- The children of a type are put in place, those nested in it being written by `nested`. -/
theorem children {t : TypeId} {id : TypeIdentity} {d : TypeData}
    {nested : TypeEntity → Writing Row}
    (h : ∀ {k e}, c.types.get? k = some e → ∀ {w}, Tidies b c ds w (nested e) fun w' r =>
      w'.writer.types.row? e.identity = some r)
    (hd : d ∈ ds) (ht : w.writer.types.row? id = some (.typeDef t)) :
    Tidies b c ds w (do
      if level = .withChildren then
        Writing.forPresent d.nestedTypes fun ts => do
          let rows ← ts.mapM fun n => do nested (← Writing.lookUp c.types n)
          let ns ← rows.mapM (Writing.nestedIn (← Writing.store) t)
          Writing.modifyStore (·.modifyType t fun l =>
            { l with nestedTypes := Writing.reordered ns l.nestedTypes })
        Writing.defineMembers c t d
        Writing.modifyWriter fun w => { w with types := w.types.atLevel id .withChildren }
      return .typeDef t) fun w' r => w'.writer.types.row? id = some r := by
  have remembers : w.RemembersType (.typeDef t) := Memory.mem_of_row? ht
  refine ite (fun _ => ?_) fun _ => pure ht
  refine (forPresent fun ts hts => ?_).bind fun h₁ _ =>
    (defineMembers hd (h₁.remembersType remembers)).bind fun h₂ _ =>
      bind (.of_makes (.modifyWriter (.raiseType _ _)) (fun _ h => h))
        fun h₃ _ => pure (((h₁.trans h₂).trans h₃).type_row ht)
  have written : Tidies b c ds w (ts.mapM fun n => do nested (← Writing.lookUp c.types n))
      fun w' rs => List.Forall₂ (w'.Resolves c .type) ts rs :=
    mapM fun n _ {_} => bind_lookUp fun he => (h he).imp fun hr => ⟨_, he, hr⟩
  exact written.bind fun hl hr => bind_store <|
    orderTypes (hl.remembersType remembers) hr fun ho => hts ▸ (ho d hd).1

theorem typeWithin (hc : ∀ {k e}, c.types.get? k = some e → ∀ {d}, e.data? = some d → d ∈ ds)
    {depth : Nat} (he : ∀ {d}, e.data? = some d → d ∈ ds) :
    Tidies b c ds w (Writing.typeWithin c depth e level) fun w' r =>
      w'.writer.types.row? e.identity = some r := by
  induction depth generalizing w e with
  | zero => exact throw
  | succ depth ih =>
      rw [Writing.typeWithin_eq]
      have start : Tidies b c ds w (Writing.typeRow e.identity) fun w' r =>
          w'.writer.types.row? e.identity = some r :=
        .of_makes (Runs.typeRow.imp fun h => h.1) ((Store.defining_distinct b).typeRow _)
      refine bind_checkLevel (start.bind fun {row w} _ hrow => bind_writer ?_)
      have hr : w.RemembersType row := Memory.mem_of_row? hrow
      have nested : ∀ {k e}, c.types.get? k = some e → ∀ {w}, Tidies b c ds w
          (Writing.typeWithin c depth e level) fun w' r => w'.writer.types.row? e.identity = some r := by
        intro k e hk w
        exact ih (hc hk)
      refine ite (fun _ => pure hrow) fun _ => ?_
      cases hdata : e.data? with
      | none => exact refuse
      | some data =>
          have hd := he hdata
          refine bind_askable ?_
          cases row with
          | typeDef t =>
              refine ite (fun _ => ?_) fun _ => children nested hd hrow
              have define : Tidies b c ds w (Writing.defineType c t data) fun _ _ => True :=
                .of_makes (Runs.defineType c _ hr) ((Store.defining_distinct b).defineType c
                  (fun _ _ hf h => h.keepsMembers hf) data)
              exact define.bind fun h₁ _ =>
                bind (.of_makes (.modifyWriter (.raiseType _ _)) (fun _ h => h))
                  fun h₂ _ => children nested hd ((h₁.trans h₂).type_row hrow)
          | _ => exact bind_store (bind_writer refuse)

end Types

end Tidies

/-! ### Requests -/

/-- The type that a request is for, if it is not one of the catalog. -/
def Writer.Request.typeEntities : Writer.Request → List TypeEntity
  | .type e _ => [e]
  | _         => []

namespace Writers

/-- What a catalog and a request say of types. -/
def Call.data (q : Call) : List TypeData :=
  (q.catalog.types.values ++ q.request.typeEntities).filterMap Entity.data?

/-- The child lists of each request name no member twice. -/
def Orderly : List Call → Writers → Prop
  | [],      _ => True
  | q :: qs, v => (v.served q).Orderly q.catalog q.data ∧ Orderly qs (v.after q)

theorem Call.mem_data {q : Call} {k : Token} {e : TypeEntity} (h : q.catalog.types.get? k = some e)
    {d : TypeData} (hd : e.data? = some d) : d ∈ q.data :=
  List.mem_filterMap.2 ⟨e, List.mem_append_left _ (TokenMap.mem_values_of_get? h), hd⟩

theorem Call.mem_data_of_request {q : Call} {e : TypeEntity} (h : e ∈ q.request.typeEntities)
    {d : TypeData} (hd : e.data? = some d) : d ∈ q.data :=
  List.mem_filterMap.2 ⟨e, List.mem_append_right _ h, hd⟩

end Writers

theorem Tidies.serve {b : Nat} {w : WriteState} (q : Writers.Call) :
    Tidies b q.catalog q.data w (Writer.serve q.catalog q.request) fun _ _ => True := by
  have defining := Store.defining_distinct b
  rcases hq : q.request with ⟨e, level⟩ | ⟨e, level⟩ | ⟨e, level⟩ | ⟨ts, level⟩ | ⟨ts, level⟩ |
    ⟨ts, level⟩
  · have he : e ∈ q.request.typeEntities := hq ▸ List.mem_singleton_self e
    exact (typeWithin Writers.Call.mem_data (Writers.Call.mem_data_of_request he)).bind fun _ _ =>
      pure trivial
  · exact .of_makes ((Runs.field q.catalog).bind fun _ _ => .pure trivial)
      (defining.bind (defining.field q.catalog e level) fun _ => defining.pure _)
  · exact .of_makes ((Runs.method q.catalog).bind fun _ _ => .pure trivial)
      (defining.bind (defining.method q.catalog e level) fun _ => defining.pure _)
  · have written : ∀ t ∈ ts, ∀ {w}, Tidies b q.catalog q.data w
        (do Writing.type q.catalog (← Writing.lookUp q.catalog.types t) level)
        fun w' r => w'.Resolves q.catalog .type t r := by
      intro t _ w
      exact bind_lookUp fun hk => (typeWithin Writers.Call.mem_data
        (Writers.Call.mem_data hk)).imp fun hr => ⟨_, hk, hr⟩
    exact (mapM written).imp fun _ => trivial
  · exact .of_makes ((Runs.fields q.catalog).imp fun _ => trivial) (defining.fields q.catalog ts level)
  · exact .of_makes ((Runs.methods q.catalog).imp fun _ => trivial)
      (defining.methods q.catalog ts level)

namespace Writers

variable {v : Writers} {i : ImageId} {b : Nat} {s : Store} {name : Bytes}

/-- Members of types are distinct after any requests whose child lists are orderly. -/
theorem Ready.distinct (h : v.Ready i) {qs : List Call} (ho : Orderly qs v)
    (hs : v.store.Distinct b) : (v.afterAll qs).store.Distinct b := by
  induction qs generalizing v with
  | nil => exact hs
  | cons q qs ih =>
      exact ih (h.after q) ho.2 ((Tidies.serve q).2 (h q.number).2 hs ho.1)

end Writers

/-! ### Lists of a module -/

namespace Live.Store

/-- Each member of a type of the module is in its list once, and nothing else is. -/
structure Listed (i : ImageId) (s : Store) : Prop where
  nested : ∀ {t}, s.Owns i t → ∀ n, (s.typeDef t).nestedTypes.count n =
    if (s.typeDef n).declaring = some t then 1 else 0
  fields : ∀ {t}, s.Owns i t → ∀ f, (s.typeDef t).fields.count f =
    if (s.fieldDef f).declaring = some t then 1 else 0
  methods : ∀ {t}, s.Owns i t → ∀ f, (s.typeDef t).methods.count f =
    if (s.methodDef f).declaring = some t then 1 else 0

/-- A list that has what belongs there, and nothing twice, has everything that belongs there once. -/
theorem count_eq_ite {α : Type} [DecidableEq α] {as : List α} {a : α} {p : Prop} [Decidable p]
    (hnodup : as.Nodup) (h : a ∈ as ↔ p) : as.count a = if p then 1 else 0 := by
  by_cases ha : a ∈ as
  · rw [if_pos (h.1 ha), List.count_eq_one_of_mem hnodup ha]
  · rw [if_neg fun hp => ha (h.2 hp), List.count_eq_zero_of_not_mem ha]

variable {s : Store} {i : ImageId} {b : Nat}

theorem Filed.lists_once (h : s.Filed i) (hd : s.Distinct b) (new : ∀ {t}, s.Owns i t → b ≤ t.index) :
    s.Listed i where
  nested ht _ := count_eq_ite (hd.nested _ (new ht)).1 (h.nested ht)
  fields ht _ := count_eq_ite (hd.fields _ (new ht)).1 (h.fields ht)
  methods ht _ := count_eq_ite (hd.methods _ (new ht)).1 (h.methods ht)

end Live.Store

/-! ### Permutations -/

/-- Putting first the members of a type that a child list names, each once, is a permutation of its members. -/
structure WriteState.Permutes (w : WriteState) : Prop where
  nested : ∀ {c t ts ns}, w.store.Owns w.writer.image t → w.NamesApart c .type (some ts) →
    List.Forall₂ (w.Resolves c .type) ts (ns.map .typeDef) →
    (∀ n ∈ ns, (w.store.typeDef n).declaring = some t) →
    (Writing.reordered ns (w.store.typeDef t).nestedTypes).Perm (w.store.typeDef t).nestedTypes
  fields : ∀ {c t ts fs}, w.store.Owns w.writer.image t → w.NamesApart c .field (some ts) →
    List.Forall₂ (w.Resolves c .field) ts (fs.map .fieldDef) →
    (∀ f ∈ fs, (w.store.fieldDef f).declaring = some t) →
    (Writing.reordered fs (w.store.typeDef t).fields).Perm (w.store.typeDef t).fields
  methods : ∀ {c t ts fs}, w.store.Owns w.writer.image t → w.NamesApart c .method (some ts) →
    List.Forall₂ (w.Resolves c .method) ts (fs.map .methodDef) →
    (∀ f ∈ fs, (w.store.methodDef f).declaring = some t) →
    (Writing.reordered fs (w.store.typeDef t).methods).Perm (w.store.typeDef t).methods

theorem Live.Store.Filed.permutes {w : WriteState} {b : Nat} (h : w.store.Filed w.writer.image)
    (hd : w.store.Distinct b) (new : ∀ {t}, w.store.Owns w.writer.image t → b ≤ t.index) :
    w.Permutes where
  nested ht apart hr hn := Writing.reordered_perm ((apart.nodup hr).of_map _)
    (hd.nested _ (new ht)).1 fun n hm => (h.nested ht).2 (hn n hm)
  fields ht apart hr hf := Writing.reordered_perm ((apart.nodup hr).of_map _)
    (hd.fields _ (new ht)).1 fun f hm => (h.fields ht).2 (hf f hm)
  methods ht apart hr hf := Writing.reordered_perm ((apart.nodup hr).of_map _)
    (hd.methods _ (new ht)).1 fun f hm => (h.methods ht).2 (hf f hm)

namespace Writers

variable {s : Store} (name : Bytes)

/-- The types of a new module are those that have been made since. -/
theorem type_new (h : s.Sealed) (qs : List Call) {t : TypeId}
    (ht : ((start s name).afterAll qs).store.Owns s.nextImage t) : s.typeDefs.length ≤ t.index := by
  have he : (s.createImage name).2.Extends ((start s name).afterAll qs).store :=
    invariant (P := (s.createImage name).2.Extends)
      (fun _ hready he a => he.trans (a.grows hready.image).toExtends) h (.refl _) qs
  by_contra hlt
  have hlt := Nat.not_le.1 hlt
  have hd := Store.typeDefs_createImage (s := s) name
  have himage : (((start s name).afterAll qs).store.typeDef t).image = (s.typeDef t).image := by
    rw [Store.image_extends ?_ he, Store.typeDef_append hd hlt]
    rw [hd, List.length_append]
    exact Nat.lt_succ_of_lt hlt
  have := h.images t hlt
  rw [← himage, ht.2] at this
  exact Nat.lt_irrefl _ this

/-- The global type of a new module has no members. -/
theorem distinct_createImage : (s.createImage name).2.Distinct s.typeDefs.length := by
  have hd := Store.typeDefs_createImage (s := s) name
  have empty : ∀ t : TypeId, s.typeDefs.length ≤ t.index →
      ((s.createImage name).2.typeDef t).nestedTypes = [] ∧
      ((s.createImage name).2.typeDef t).fields = [] ∧
      ((s.createImage name).2.typeDef t).methods = [] := by
    intro t ht
    have before : s.typeDef t = default := Store.typeDef_of_le ht
    have lists := Store.lists_append hd rfl rfl rfl t
    rw [before] at lists
    exact lists
  exact ⟨fun t ht => (empty t ht).1 ▸ ⟨List.nodup_nil, nofun⟩,
    fun t ht => (empty t ht).2.1 ▸ ⟨List.nodup_nil, nofun⟩,
    fun t ht => (empty t ht).2.2 ▸ ⟨List.nodup_nil, nofun⟩⟩

/-- Members of types are listed, and nothing else is, after any requests; and each is listed once, and putting members in order is a permutation, if no child list names a member twice. -/
theorem listed {s : Store} (h : s.Sealed) (name : Bytes) (qs : List Call) :
    ((start s name).afterAll qs).store.Filed s.nextImage ∧
      (Orderly qs (start s name) → ((start s name).afterAll qs).store.Listed s.nextImage ∧
        ∀ k, (((start s name).afterAll qs).state k).Permutes) := by
  have hf := filed h name qs
  refine ⟨hf, fun ho => ?_⟩
  have hd := (ready_start h name).distinct ho (distinct_createImage name)
  refine ⟨hf.lists_once hd fun ht => type_new name h qs ht, fun k => ?_⟩
  have hi : (((start s name).afterAll qs).writer k).image = s.nextImage :=
    (((ready_start h name).afterAll qs) k).1
  exact Store.Filed.permutes (hi ▸ hf) hd fun ht => type_new name h qs (hi ▸ ht)

/-! ### Two fields -/

/-- A type with two fields, in the order of a list of tokens. -/
def duo (order : List Token) : Catalog where
  options := .default
  types := ⟨[(.index 0, .definition ⟨"Duo", [], none, none⟩ { fields := some order })], by
    simp, rfl⟩
  fields := ⟨[(.index 0, .definition ⟨"x", .token (.index 0),
      .ofConvention .field [.int32 0, .ofElement .i4]⟩ {}),
    (.index 1, .definition ⟨"y", .token (.index 0),
      .ofConvention .field [.int32 0, .ofElement .i4]⟩ {})], by decide, rfl⟩
  methods := .empty

/-- The first field is made before the type gets its children. -/
def duet (order : List Token) : List Call :=
  [⟨0, duo order, .fields [.index 0] .reference⟩, ⟨0, duo order, .types [.index 0] .withChildren⟩]

/-- The fields are put in the other order. -/
theorem listed_duet : Store.empty.Sealed ∧ Orderly (duet [.index 1, .index 0]) (start .empty "M") ∧
    ((start .empty "M").afterAll (duet [.index 1, .index 0])).store.Listed Store.empty.nextImage ∧
    (((start .empty "M").afterAll (duet [.index 1, .index 0])).store.typeDef ⟨1⟩).fields =
      [⟨1⟩, ⟨0⟩] := by
  have orderly : Orderly (duet [.index 1, .index 0]) (start .empty "M") := by
    refine ⟨fun d hd => ?_, fun d hd => ?_, trivial⟩
    all_goals
      obtain rfl : d = { fields := some [.index 1, .index 0] } := List.mem_singleton.1 hd
      refine ⟨List.Pairwise.nil, List.pairwise_pair.2 ?_, List.Pairwise.nil⟩
    · -- the second field has not been written yet
      rintro r ⟨e, he, hr⟩ -
      cases he
      cases hr
    · rintro r ⟨e, he, hr⟩ ⟨e', he', hr'⟩
      cases he
      cases he'
      cases hr
      cases hr'
  exact ⟨Store.sealed_empty, orderly, ((listed Store.sealed_empty "M" _).2 orderly).1,
    by decide +kernel⟩

/-- A field that is named twice is listed twice. -/
theorem not_listed_duet : Store.empty.Sealed ∧
    (((start .empty "M").afterAll (duet [.index 0, .index 0])).store.typeDef ⟨1⟩).fields =
      [⟨0⟩, ⟨0⟩] ∧
    ¬ ((start .empty "M").afterAll (duet [.index 0, .index 0])).store.Listed
      Store.empty.nextImage := by
  have fields : (((start .empty "M").afterAll (duet [.index 0, .index 0])).store.typeDef ⟨1⟩).fields =
      [⟨0⟩, ⟨0⟩] := by decide +kernel
  refine ⟨Store.sealed_empty, fields, fun h => ?_⟩
  have once := h.fields (t := ⟨1⟩) ⟨by decide +kernel, by decide +kernel⟩ ⟨0⟩
  rw [fields] at once
  revert once
  split <;> decide

end Writers

end CilCatalog
