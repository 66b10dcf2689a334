import CilCatalog.Proofs.Live.Source
import Mathlib.Data.List.DropRight

/-!
# Display names of assemblies

The display name of an assembly with plain parts spells that assembly and no other (`ofText_text`), and is not the simple name of any (`text_ne_name`).  Whatever a text is, what it spells has plain parts (`isPlain_ofText`), and so these are the assemblies that come back from their display names (`display_names_round_trip`).
-/

namespace CilCatalog.Live.AssemblyName

/-! ### Blanks -/

section Trim

variable {t : Bytes}

/-- What has no blank at either end is trimmed. -/
theorem trim_of_ends (hh : ∀ b, t.head? = some b → b ≠ octet ' ')
    (hl : ∀ b, t.getLast? = some b → b ≠ octet ' ') : Bytes.trim t = t := by
  have stays : ∀ u : Bytes, (∀ b, u.head? = some b → b ≠ octet ' ') →
      u.dropWhile (· == octet ' ') = u := by
    intro u hu
    cases u with
    | nil => rfl
    | cons b u => rw [List.dropWhile_cons, if_neg (by simpa using hu b rfl)]
  rw [Bytes.trim, stays t hh, stays t.reverse (by simpa using hl), List.reverse_reverse]

theorem ne_blank_of_head (h : Bytes.trim t = t) {b : UInt8} (hb : t.head? = some b) :
    b ≠ octet ' ' := by
  rintro rfl
  obtain ⟨u, rfl⟩ : ∃ u, t = octet ' ' :: u := List.head?_eq_some_iff.1 hb
  -- without the blank there is less of it
  have hlen := congrArg List.length h
  have h₁ := (List.dropWhile_sublist (l := u) (· == octet ' ')).length_le
  have h₂ := (List.dropWhile_sublist
    (l := ((octet ' ' :: u).dropWhile (· == octet ' ')).reverse) (· == octet ' ')).length_le
  rw [List.dropWhile_cons, if_pos (by simp)] at h₂
  rw [Bytes.trim, List.dropWhile_cons, if_pos (by simp)] at hlen
  simp only [List.length_reverse, List.length_cons] at hlen h₂
  omega

theorem ne_blank_of_last (h : Bytes.trim t = t) {b : UInt8} (hb : t.getLast? = some b) :
    b ≠ octet ' ' := by
  have hhead := List.head?_dropWhile_not (· == octet ' ')
    (t.dropWhile (· == octet ' ')).reverse
  rw [← h, Bytes.trim, List.getLast?_reverse] at hb
  rw [hb] at hhead
  simpa using hhead

theorem trim_eq_rdropWhile (t : Bytes) :
    Bytes.trim t = (t.dropWhile (· == octet ' ')).rdropWhile (· == octet ' ') := rfl

theorem mem_of_mem_trim {b : UInt8} (h : b ∈ Bytes.trim t) : b ∈ t := by
  rw [trim_eq_rdropWhile] at h
  exact (List.dropWhile_sublist _).subset ((List.rdropWhile_prefix _ _).subset h)

/-- What is left after trimming is trimmed. -/
theorem trim_trim (t : Bytes) : Bytes.trim (Bytes.trim t) = Bytes.trim t := by
  have nonblank : ∀ {u : Bytes} {b : UInt8}, (u.dropWhile (· == octet ' ')).head? = some b →
      b ≠ octet ' ' := by
    intro u b hb
    have hhead := List.head?_dropWhile_not (· == octet ' ') u
    rw [hb] at hhead
    simpa using hhead
  refine trim_of_ends (fun b hb => ?_) fun b hb => ?_
  · -- only the end is different from what is left after the blanks in front
    obtain ⟨rest, hrest⟩ := List.rdropWhile_prefix (· == octet ' ') (t.dropWhile (· == octet ' '))
    refine nonblank (u := t) ?_
    rw [← hrest, ← trim_eq_rdropWhile, List.head?_append, hb]
    rfl
  · rw [Bytes.trim, List.getLast?_reverse] at hb
    exact nonblank hb

/-- A part is plain if it has no comma and neither begins nor ends with a blank. -/
theorem isPlainPart_iff : IsPlainPart t ↔
    octet ',' ∉ t ∧ t.head? ≠ some (octet ' ') ∧ t.getLast? ≠ some (octet ' ') := by
  refine and_congr_right fun _ => ⟨fun h => ⟨fun hb => ?_, fun hb => ?_⟩, fun ⟨hh, hl⟩ => ?_⟩
  · exact ne_blank_of_head h hb rfl
  · exact ne_blank_of_last h hb rfl
  · exact trim_of_ends (fun b hb => fun e => hh (e ▸ hb)) fun b hb => fun e => hl (e ▸ hb)

theorem isPlainPart_trim (h : octet ',' ∉ t) : IsPlainPart (Bytes.trim t) :=
  ⟨fun hc => h (mem_of_mem_trim hc), trim_trim t⟩

end Trim

/-! ### Pieces -/

section Pieces

variable {sep : UInt8} {t : Bytes}

theorem pieces_ne_nil (t : Bytes) : pieces sep t ≠ [] := by
  cases t with
  | nil => exact nofun
  | cons b t =>
      rw [pieces]
      split
      · exact nofun
      · split <;> exact nofun

theorem pieces_of_not_mem (h : sep ∉ t) : pieces sep t = [t] := by
  induction t with
  | nil => rfl
  | cons b t ih =>
      rw [List.mem_cons, not_or] at h
      rw [pieces, ih h.2]
      exact if_neg (Ne.symm h.1)

theorem pieces_append (h : sep ∉ t) (u : Bytes) :
    pieces sep (t ++ sep :: u) = t :: pieces sep u := by
  induction t with
  | nil =>
      rw [List.nil_append, pieces]
      cases hu : pieces sep u with
      | nil => exact absurd hu (pieces_ne_nil u)
      | cons p ps => exact if_pos rfl
  | cons b t ih =>
      rw [List.mem_cons, not_or] at h
      rw [List.cons_append, pieces, ih h.2]
      exact if_neg (Ne.symm h.1)

/-- No separator gets into a piece. -/
theorem not_mem_of_mem_pieces {p : Bytes} (h : p ∈ pieces sep t) : sep ∉ p := by
  induction t generalizing p with
  | nil =>
      rw [pieces, List.mem_singleton] at h
      exact h ▸ List.not_mem_nil
  | cons b t ih =>
      cases hps : pieces sep t with
      | nil => exact absurd hps (pieces_ne_nil t)
      | cons q ps =>
          rw [hps] at ih
          rw [pieces, hps] at h
          dsimp only at h
          split at h
          · rcases List.mem_cons.1 h with rfl | h
            · exact List.not_mem_nil
            · exact ih h
          · next hb =>
              rcases List.mem_cons.1 h with rfl | h
              · rw [List.mem_cons, not_or]
                exact ⟨Ne.symm hb, ih List.mem_cons_self⟩
              · exact ih (List.mem_cons_of_mem _ h)

end Pieces

/-! ### Attributes -/

/-- An attribute behind a comma and a blank. -/
def piece (key value : Bytes) : Bytes := octet ' ' :: (key ++ octet '=' :: value)

/-- Such an attribute is read as it has been written. -/
theorem attribute?_piece {key value : Bytes} (hne : key ≠ []) (hk : octet '=' ∉ key)
    (ht : Bytes.trim key = key) (hv : Bytes.trim value = value) :
    attribute? (Bytes.trim (piece key value)) = some (key, value) := by
  obtain ⟨b, key, rfl⟩ := List.exists_cons_of_ne_nil hne
  have hblank : Bytes.trim (piece (b :: key) value) =
      Bytes.trim ((b :: key) ++ octet '=' :: value) := by
    rw [piece, Bytes.trim, List.dropWhile_cons, if_pos (by simp)]
    rfl
  have hends : Bytes.trim ((b :: key) ++ octet '=' :: value) =
      (b :: key) ++ octet '=' :: value := by
    refine trim_of_ends (fun c hc => ne_blank_of_head ht hc) fun c hc => ?_
    rw [List.getLast?_append, List.getLast?_cons] at hc
    cases hl : value.getLast? with
    | none =>
        rw [hl] at hc
        cases hc
        decide
    | some c' =>
        rw [hl] at hc
        cases hc
        exact ne_blank_of_last hv hl
  have stop : ∀ c ∈ b :: key, (c != octet '=') = true := by
    rintro c hc
    rw [bne_iff_ne]
    rintro rfl
    exact hk hc
  rw [hblank, hends, attribute?, List.dropWhile_append_of_pos stop, List.takeWhile_append_of_pos stop,
    List.dropWhile_cons, if_neg (by simp), List.takeWhile_cons, if_neg (by simp)]
  dsimp only
  rw [List.append_nil, ht, hv]

/-- The display name, by its pieces. -/
theorem text_eq (a : AssemblyName) : a.text = a.name ++ octet ',' ::
    (piece "Version" a.version ++ octet ',' ::
      (piece "Culture" a.culture ++ octet ',' :: piece "PublicKeyToken" a.publicKeyToken)) := by
  have hv : utf8 ", Version=" = octet ',' :: octet ' ' :: (utf8 "Version" ++ [octet '=']) := by decide
  have hc : utf8 ", Culture=" = octet ',' :: octet ' ' :: (utf8 "Culture" ++ [octet '=']) := by decide
  have hp : utf8 ", PublicKeyToken=" =
      octet ',' :: octet ' ' :: (utf8 "PublicKeyToken" ++ [octet '=']) := by decide
  rw [text, hv, hc, hp]
  simp only [piece, List.append_assoc, List.cons_append, List.nil_append]

variable {a b : AssemblyName}

/-- The display name has a comma. -/
theorem text_ne_name (hb : b.IsPlain) : a.text ≠ b.name := by
  intro h
  refine hb.name.1 (h ▸ ?_)
  rw [text_eq]
  simp

theorem ofText_name (ha : a.IsPlain) : ofText a.name = ofSimpleName a.name := by
  rw [ofText, pieces_of_not_mem ha.name.1]
  exact congrArg ofSimpleName ha.name.2

theorem ofText_text (ha : a.IsPlain) : ofText a.text = a := by
  have comma : ∀ {key value : Bytes}, octet ',' ∉ key → octet ',' ∉ value →
      octet ',' ∉ piece key value := by
    intro key value hk hv h
    rw [piece, List.mem_cons, List.mem_append, List.mem_cons] at h
    rcases h with h | h | h | h
    · exact absurd h (by decide)
    · exact hk h
    · exact absurd h (by decide)
    · exact hv h
  rw [ofText, text_eq, pieces_append ha.name.1,
    pieces_append (comma (by decide) ha.version.1),
    pieces_append (comma (by decide) ha.culture.1),
    pieces_of_not_mem (comma (by decide) ha.publicKeyToken.1)]
  dsimp only [List.foldl_cons, List.foldl_nil]
  rw [ha.name.2]
  have hv : attribute? (Bytes.trim (piece "Version" a.version)) = some (utf8 "Version", a.version) :=
    attribute?_piece (by decide) (by decide) (by decide) ha.version.2
  have hc : attribute? (Bytes.trim (piece "Culture" a.culture)) = some (utf8 "Culture", a.culture) :=
    attribute?_piece (by decide) (by decide) (by decide) ha.culture.2
  have hp : attribute? (Bytes.trim (piece "PublicKeyToken" a.publicKeyToken)) =
      some (utf8 "PublicKeyToken", a.publicKeyToken) :=
    attribute?_piece (by decide) (by decide) (by decide) ha.publicKeyToken.2
  simp only [withAttribute, hv, hc, hp]
  rfl

/-! ### What a text spells -/

theorem isPlain_ofSimpleName {name : Bytes} (h : IsPlainPart name) : (ofSimpleName name).IsPlain := by
  refine ⟨h, ⟨?_, ?_⟩, ⟨?_, ?_⟩, ⟨?_, ?_⟩⟩
  all_goals
    dsimp only [ofSimpleName]
    decide

/-- The value of an attribute is plain. -/
theorem isPlainPart_of_attribute? {p k v : Bytes} (hp : octet ',' ∉ p)
    (h : attribute? p = some (k, v)) : IsPlainPart v := by
  unfold attribute? at h
  split at h
  · cases h
  · next u hu =>
      cases h
      refine isPlainPart_trim fun hc => hp ?_
      exact (List.dropWhile_sublist _).subset (hu ▸ List.mem_cons_of_mem _ hc)

theorem isPlain_withAttribute {p : Bytes} (ha : a.IsPlain) (hp : octet ',' ∉ p) :
    (a.withAttribute p).IsPlain := by
  unfold withAttribute
  split
  · exact ha
  · next k v h =>
      have hv : IsPlainPart v := isPlainPart_of_attribute? (fun hc => hp (mem_of_mem_trim hc)) h
      split_ifs
      · exact { ha with version := hv }
      · exact { ha with culture := hv }
      · exact { ha with publicKeyToken := hv }
      · exact ha

/-- Whatever a text is, it spells an assembly with plain parts. -/
theorem isPlain_ofText (t : Bytes) : (ofText t).IsPlain := by
  have attributes : ∀ (ps : List Bytes) (a : AssemblyName), (∀ p ∈ ps, octet ',' ∉ p) → a.IsPlain →
      (ps.foldl withAttribute a).IsPlain := by
    intro ps
    induction ps with
    | nil => exact fun _ _ ha => ha
    | cons p ps ih =>
        intro a hps ha
        obtain ⟨hp, hps⟩ := List.forall_mem_cons.1 hps
        exact ih _ hps (isPlain_withAttribute ha hp)
  have commas : ∀ p ∈ pieces (octet ',') t, octet ',' ∉ p := fun _ => not_mem_of_mem_pieces
  rw [ofText]
  split
  · exact isPlain_ofSimpleName ⟨List.not_mem_nil, rfl⟩
  · next p ps hps =>
      rw [hps] at commas
      obtain ⟨hp, hps⟩ := List.forall_mem_cons.1 commas
      exact attributes ps _ hps (isPlain_ofSimpleName (isPlainPart_trim hp))

/-- The assemblies that come back from their display names are those with plain parts. -/
theorem ofText_text_iff : ofText a.text = a ↔ a.IsPlain :=
  ⟨fun h => h ▸ isPlain_ofText a.text, ofText_text⟩

/-- The reference that is made from the display name of an assembly has the same four parts as that assembly, and so the same display name, if in none of them is a comma, nor a blank at the beginning or the end; and otherwise it has not. -/
theorem display_names_round_trip (s : Store) (i : ImageId) (a : AssemblyName) :
    (s.createAssemblyRef i (ofText a.text)).1 = .assemblyRef s.nextRow a ↔
      ∀ part ∈ [a.name, a.version, a.culture, a.publicKeyToken],
        octet ',' ∉ part ∧ part.head? ≠ some (octet ' ') ∧ part.getLast? ≠ some (octet ' ') := by
  have row : (s.createAssemblyRef i (ofText a.text)).1 = .assemblyRef s.nextRow (ofText a.text) := rfl
  have parts : a.IsPlain ↔ ∀ part ∈ [a.name, a.version, a.culture, a.publicKeyToken],
      IsPlainPart part := by
    simp only [List.forall_mem_cons, List.not_mem_nil, IsEmpty.forall_iff, implies_true, and_true]
    exact ⟨fun h => ⟨h.name, h.version, h.culture, h.publicKeyToken⟩, fun ⟨n, v, c, p⟩ => ⟨n, v, c, p⟩⟩
  rw [row, Row.assemblyRef.injEq, eq_self, true_and, ofText_text_iff, parts]
  exact forall₂_congr fun _ _ => isPlainPart_iff

end CilCatalog.Live.AssemblyName
