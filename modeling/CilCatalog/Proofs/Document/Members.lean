import CilCatalog.Document.Decode
import CilCatalog.Document.Encode
import CilCatalog.Proofs.Outcome

/-!
# Members of objects, written and read

The laws that the combinators of documents come in pairs under.  `RoundTrips written read a` says that the value `a` is written at all, as a JSON value that is not null and whose objects name their members differently, and that this value is read as `a` again.  `ReadsAs` is the same for a member that may be left out.  Members are found by their names whatever stands around them (`Json.find?_append`, `Json.find?_optional`), so a record is read back as soon as each of its members is.
-/

namespace CilCatalog

open SigTree (FormatFault)

/-! ### Names of members -/

theorem utf8_inj {a b : String} : utf8 a = utf8 b ↔ a = b := by
  constructor
  · intro h
    exact String.toByteArray_inj.1 (ByteArray.ext (Array.toList_inj.1 h))
  · rintro rfl
    rfl

namespace Json

variable {α : Type} {ms ns : List (Bytes × Json)} {k k' : Bytes} {v : Json}

/-- A value that is not null and whose objects name their members differently. -/
def Solid (v : Json) : Prop := v ≠ null ∧ v.DistinctKeys

/-! ### Looking up members -/

@[simp] theorem find?_nil : find? [] k = none := rfl

@[simp] theorem find?_cons : find? ((k, v) :: ms) k' = if k = k' then some v else find? ms k' := by
  by_cases h : k = k'
  · simp [find?, h]
  · simp [find?, h]

@[simp] theorem find?_append : find? (ms ++ ns) k = (find? ms k).or (find? ns k) := by
  simp only [find?, List.find?_append]
  cases ms.find? (·.1 == k) <;> rfl

@[simp] theorem find?_optional {f : α → Json} {o : Option α} :
    find? (Encode.optional k f o) k' = if k = k' then o.map f else none := by
  cases o with
  | none => simp [Encode.optional]
  | some a => simp [Encode.optional]

theorem present?_of_find? {o : Option Json} (h : find? ms k = o) (hn : ∀ v ∈ o, v ≠ null) :
    present? ms k = o := by
  unfold present?
  rw [h]
  split
  · exact absurd rfl (hn null rfl)
  · rfl

/-! ### Members with different names -/

/-- The names are among `ks`, in that order, and the values name their members differently. -/
structure Arranged (ks : List Bytes) (ms : List (Bytes × Json)) : Prop where
  keys : (ms.map (·.1)).Sublist ks
  values : DistinctKeysMembers ms

theorem Arranged.nil : Arranged [] [] := ⟨.slnil, trivial⟩

theorem Arranged.cons {ks : List Bytes} (hv : v.DistinctKeys) (h : Arranged ks ms) :
    Arranged (k :: ks) ((k, v) :: ms) :=
  ⟨h.keys.cons_cons k, hv, h.values⟩

theorem Arranged.int {ks : List Bytes} {i : Int64} (h : Arranged ks ms) :
    Arranged (k :: ks) ((k, .int i) :: ms) :=
  .cons trivial h

theorem Arranged.string {ks : List Bytes} {b : Bytes} (h : Arranged ks ms) :
    Arranged (k :: ks) ((k, .string b) :: ms) :=
  .cons trivial h

theorem distinctKeysMembers_append :
    DistinctKeysMembers (ms ++ ns) ↔ DistinctKeysMembers ms ∧ DistinctKeysMembers ns := by
  induction ms with
  | nil => simp [DistinctKeysMembers]
  | cons m ms ih => simp [DistinctKeysMembers, ih, and_assoc]

theorem Arranged.append {ks ls : List Bytes} (h : Arranged ks ms) (h' : Arranged ls ns) :
    Arranged (ks ++ ls) (ms ++ ns) :=
  ⟨by rw [List.map_append]; exact h.keys.append h'.keys,
    distinctKeysMembers_append.2 ⟨h.values, h'.values⟩⟩

theorem Arranged.optional {f : α → Json} {o : Option α} (h : ∀ a ∈ o, (f a).DistinctKeys) :
    Arranged [k] (Encode.optional k f o) := by
  cases o with
  | none => exact ⟨List.nil_sublist _, trivial⟩
  | some a => exact ⟨List.Sublist.refl _, h a rfl, trivial⟩

theorem Arranged.solid {ks : List Bytes} (h : Arranged ks ms) (hks : ks.Nodup) :
    (object ms).Solid :=
  ⟨nofun, hks.sublist h.keys, h.values⟩

end Json

/-! ### Results of reading with warnings -/

namespace Warned

variable {ε α β : Type}

@[simp] theorem result_pure (a : α) : (pure a : Warned ε α).result = .ok a := rfl

@[simp] theorem result_bind (x : Warned ε α) (f : α → Warned ε β) :
    (x >>= f).result = x.result >>= fun a => (f a).result := by
  obtain ⟨ws, r⟩ := x
  cases r <;> rfl

@[simp] theorem result_ofExcept (r : Except ε α) : (ofExcept r).result = r := rfl

@[simp] theorem result_liftM (r : Except ε α) : (liftM r : Warned ε α).result = r := rfl

@[simp] theorem result_mapError {δ : Type} (f : ε → δ) (x : Warned ε α) :
    (x.mapError f).result = x.result.mapError f := rfl

@[simp] theorem result_mapM (f : α → Warned ε β) (as : List α) :
    (as.mapM f).result = as.mapM fun a => (f a).result := by
  induction as with
  | nil => rfl
  | cons a as ih => simp only [List.mapM_cons, result_bind, result_pure, ih]; rfl

end Warned

namespace Decode

variable {α : Type} {ms : Members} {k : Bytes}

@[simp] theorem result_optional (f : Json → Noted α) :
    (optional ms k f : Noted (Option α)).result =
      (optional ms k fun v => (f v).result : Read (Option α)) := by
  unfold optional
  split
  · exact Warned.result_bind _ _
  · rfl

@[simp] theorem result_list (f : Json → Noted α) (v : Json) :
    (list k f v : Noted (List α)).result = (list k fun v => (f v).result : Json → Read _) v := by
  simp only [list, Warned.result_bind, Warned.result_liftM, Warned.result_mapM]
  rfl

@[simp] theorem result_optionalList (f : Json → Noted α) :
    (optionalList ms k f : Noted (Option (List α))).result =
      (optionalList ms k fun v => (f v).result : Read (Option (List α))) := by
  simp only [optionalList, result_optional, result_list]

@[simp] theorem result_requiredList (f : Json → Noted α) :
    (requiredList ms k f : Noted (List α)).result =
      (requiredList ms k fun v => (f v).result : Read (List α)) := by
  simp only [requiredList, Warned.result_bind, Warned.result_liftM, result_list]
  rfl

end Decode

/-! ### Written and read -/

variable {α : Type}

/-- The value `a` is written, as a solid value that is read as `a`. -/
def RoundTrips (written : Except FormatFault Json) (read : Json → Decode.Read α) (a : α) : Prop :=
  ∃ v, written = .ok v ∧ v.Solid ∧ read v = .ok a

/-- A member, left out or not, is read as a value that is absent or not. -/
inductive ReadsAs (read : Json → Decode.Read α) : Option Json → Option α → Prop where
  | none : ReadsAs read none none
  | some {v : Json} {a : α} (hv : v.Solid) (h : read v = .ok a) : ReadsAs read (some v) (some a)

theorem RoundTrips.pure {v : Json} {read : Json → Decode.Read α} {a : α} (hv : v.Solid)
    (h : read v = .ok a) : RoundTrips (.ok v) read a :=
  ⟨v, rfl, hv, h⟩

theorem RoundTrips.congr {written written' : Except FormatFault Json} {read read' : Json → Decode.Read α}
    {a : α} (h : RoundTrips written read a) (hw : written' = written) (hr : ∀ v, read' v = read v) :
    RoundTrips written' read' a := by
  obtain ⟨v, hv, hs, ha⟩ := h
  exact ⟨v, hw.trans hv, hs, (hr v).trans ha⟩

section Combinators

variable {read : Json → Decode.Read α} {k : Bytes} {ms : List (Bytes × Json)}

theorem ReadsAs.solid {o : Option Json} {a : Option α} (h : ReadsAs read o a) :
    ∀ v ∈ o, v.Solid := by
  cases h with
  | none => exact nofun
  | some hv => rintro _ ⟨⟩; exact hv

theorem ReadsAs.arranged {β : Type} {f : β → Json} {o : Option β} {a : Option α}
    (h : ReadsAs read (o.map f) a) : Json.Arranged [k] (Encode.optional k f o) :=
  .optional fun b hb => (h.solid (f b) (Option.mem_map_of_mem f hb)).2

/-- A member that may be left out. -/
theorem ReadsAs.optional {f : α → Json} {o : Option α} (h : ∀ a ∈ o, RoundTrips (.ok (f a)) read a) :
    ReadsAs read (o.map f) o := by
  cases o with
  | none => exact .none
  | some a =>
      obtain ⟨v, hv, hs, hr⟩ := h a rfl
      cases hv
      exact .some hs hr

/-- The same if its value need not have a written form. -/
theorem ReadsAs.optionalM {f : α → Except FormatFault Json} {o : Option α}
    (h : ∀ a ∈ o, RoundTrips (f a) read a) :
    ∃ ov : Option Json, Encode.optionalM k f o = .ok (Encode.optional k id ov) ∧
      ReadsAs read (ov.map id) o := by
  cases o with
  | none => exact ⟨Option.none, rfl, .none⟩
  | some a =>
      obtain ⟨v, hv, hs, hr⟩ := h a rfl
      refine ⟨Option.some v, ?_, .some hs hr⟩
      rw [Encode.optionalM, hv]
      rfl

/-- A list is read back if its elements are. -/
theorem RoundTrips.listM {f : α → Except FormatFault Json} {as : List α} {what : Bytes}
    (h : ∀ a ∈ as, RoundTrips (f a) read a) :
    RoundTrips (Encode.listM f as) (Decode.list what read) as := by
  have elements : ∃ vs, as.mapM f = .ok vs ∧ Json.DistinctKeysElements vs ∧
      vs.mapM read = .ok as := by
    induction as with
    | nil => exact ⟨[], rfl, trivial, rfl⟩
    | cons a as ih =>
        obtain ⟨v, hv, hs, hr⟩ := h a List.mem_cons_self
        obtain ⟨vs, hvs, hss, hrs⟩ := ih fun b hb => h b (List.mem_cons_of_mem a hb)
        refine ⟨v :: vs, ?_, ⟨hs.2, hss⟩, ?_⟩
        · rw [List.mapM_cons, hv, hvs]; rfl
        · rw [List.mapM_cons, hr, hrs]; rfl
  obtain ⟨vs, hvs, hss, hrs⟩ := elements
  refine ⟨.array vs, ?_, ⟨nofun, hss⟩, hrs⟩
  rw [Encode.listM, hvs]
  rfl

theorem RoundTrips.list {f : α → Json} {as : List α} {what : Bytes}
    (h : ∀ a ∈ as, RoundTrips (.ok (f a)) read a) :
    RoundTrips (.ok (Encode.list f as)) (Decode.list what read) as := by
  have e : as.mapM (fun a => (.ok (f a) : Except FormatFault Json)) = .ok (as.map f) := by
    clear h
    induction as with
    | nil => rfl
    | cons a as ih => rw [List.mapM_cons, ih]; rfl
  have := @RoundTrips.listM α read _ as what h
  rwa [Encode.listM, e] at this

/-! ### Reading members -/

theorem required_of_find? {v : Json} (h : Json.find? ms k = some v) (hv : v ≠ .null) :
    Decode.required ms k = .ok v := by
  rw [Decode.required, Json.present?_of_find? h (by rintro _ ⟨⟩; exact hv)]

theorem requiredString_of_find? {b : Bytes} (h : Json.find? ms k = some (.string b)) :
    Decode.requiredString ms k = .ok b := by
  rw [Decode.requiredString, required_of_find? h nofun]
  rfl

theorem optional_of_find? {o : Option Json} {a : Option α} (h : Json.find? ms k = o)
    (ha : ReadsAs read o a) : Decode.optional ms k read = .ok a := by
  unfold Decode.optional
  rw [Json.present?_of_find? h fun v hv => (ha.solid v hv).1]
  cases ha with
  | none => rfl
  | some hv hr => dsimp only; rw [hr]; rfl

theorem requiredList_of_find? {v : Json} {as : List α} (h : Json.find? ms k = some v)
    (hv : v.Solid) (ha : Decode.list k read v = .ok as) : Decode.requiredList ms k read = .ok as := by
  rw [Decode.requiredList, required_of_find? h hv.1]
  exact ha

end Combinators

end CilCatalog
