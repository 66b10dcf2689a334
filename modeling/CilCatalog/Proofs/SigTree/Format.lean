import CilCatalog.Proofs.SigTree.Parse

/-!
# The writer and the grammar

The text of a tree spells it (`Spells.of_format`), and every tree that is spelled has a text (`Spells.formattable`).  With what the reader accepts this makes reading and writing inverse to each other (`format_parse_round_trip`).
-/

namespace CilCatalog

namespace SigTree

variable {c : UInt8} {as : List SigTree}

/-! ### Checks -/

theorem checkTypeSig_eq_ok {e : ElementType} : checkTypeSig c as = .ok e ↔
    ElementType.ofCode? c = some e ∧
      (e.isLeaf = true ∧ as = [] ∨ e.isLeaf = false ∧ e.shape.Fits as) := by
  rw [checkTypeSig]
  cases hc : ElementType.ofCode? c with
  | none => exact ⟨nofun, nofun⟩
  | some d =>
      dsimp only
      constructor
      · intro h
        split at h
        · next hl =>
            split at h
            · next ha => cases h; exact ⟨rfl, .inl ⟨hl, List.isEmpty_iff.1 ha⟩⟩
            · exact nomatch h
        · next hl =>
            split at h
            · next hf =>
                cases h
                exact ⟨rfl, .inr ⟨by simpa using hl, ElementType.checkArgs_eq_ok.1 hf⟩⟩
            · exact nomatch h
      · rintro ⟨⟨⟩, ⟨hl, rfl⟩ | ⟨hl, hf⟩⟩
        · rw [if_pos hl]; rfl
        · rw [hl, if_neg Bool.false_ne_true, ElementType.checkArgs_eq_ok.2 hf]

theorem checkCallSig_eq_ok {k : CallingConvention} : checkCallSig c as = .ok k ↔
    CallingConvention.ofCode? c = some k ∧
      ∃ flags rest, as = int32 flags :: rest ∧ (k.shape flags).Fits rest := by
  rw [checkCallSig, ← CallingConvention.checkArgs_eq_ok]
  cases hc : CallingConvention.ofCode? c with
  | none => exact ⟨nofun, nofun⟩
  | some d =>
      dsimp only
      constructor
      · intro h
        split at h
        · next hf => cases h; exact ⟨rfl, hf⟩
        · exact nomatch h
      · rintro ⟨⟨⟩, hf⟩
        rw [hf]

/-! ### Writing spells -/

theorem parenthesize_eq {ts : List Bytes} (h : ts ≠ []) :
    parenthesize ts = octet '(' :: (joinArgs ts ++ [octet ')']) := by
  cases ts with
  | nil => exact absurd rfl h
  | cons t ts => rfl

theorem formatAll_cons_eq_ok {a : SigTree} {ts : List Bytes} : formatAll (a :: as) = .ok ts ↔
    ∃ s r, a.format = .ok s ∧ formatAll as = .ok r ∧ ts = s :: r := by
  rw [formatAll, bind_eq_ok]
  constructor
  · rintro ⟨s, hs, h⟩
    obtain ⟨r, hr, h⟩ := bind_eq_ok.1 h
    cases h
    exact ⟨s, r, hs, hr, rfl⟩
  · rintro ⟨s, r, hs, hr, rfl⟩
    exact ⟨s, hs, bind_eq_ok.2 ⟨r, hr, rfl⟩⟩

mutual

/-- The text of a tree spells it. -/
theorem Spells.of_format : ∀ {t : SigTree} {s : Bytes}, t.format = .ok s → Spells s t
  | token (.named n), s, h => by
      rw [format] at h
      cases h
      rw [List.cons_append]
      exact .name n
  | token (.index i), s, h => by
      rw [format] at h
      split at h
      · exact nomatch h
      · next hi =>
          cases h
          rw [Int32.lt_iff_toInt_lt, Int32.toInt_zero] at hi
          exact .index (Bytes.numeral_signedDecimal _) (by omega)
  | typeSig c as, s, h => by
      rw [format] at h
      obtain ⟨e, hc, h⟩ := bind_eq_ok.1 h
      obtain ⟨ts, hts, h⟩ := bind_eq_ok.1 h
      cases h
      obtain ⟨he, ⟨hl, rfl⟩ | ⟨hl, hf⟩⟩ := checkTypeSig_eq_ok.1 hc
      · cases hts
        rw [← ElementType.code_of_ofCode? he, parenthesize, List.append_nil]
        exact .leaf hl
      · have hne := ElementType.ne_nil_of_fits hl hf
        obtain ⟨hs, hne'⟩ := SpellsAll.of_formatAll hne hts
        rw [← ElementType.code_of_ofCode? he, parenthesize_eq hne']
        exact .node (.element hl hf) hs
  | callSig c as, s, h => by
      rw [format] at h
      obtain ⟨k, hc, h⟩ := bind_eq_ok.1 h
      obtain ⟨ts, hts, h⟩ := bind_eq_ok.1 h
      cases h
      obtain ⟨hk, flags, rest, rfl, hf⟩ := checkCallSig_eq_ok.1 hc
      obtain ⟨hs, hne⟩ := SpellsAll.of_formatAll (List.cons_ne_nil _ _) hts
      rw [← CallingConvention.code_of_ofCode? hk, parenthesize_eq hne]
      exact .node (.convention hf) hs
  | int32 v, s, h => by
      rw [format] at h
      cases h
      have e : utf8 "Int32(" = utf8 NodeKind.int32.name ++ [octet '('] := by decide
      have e' : utf8 ")" = [octet ')'] := by decide
      rw [e, e', List.append_assoc, List.append_assoc]
      exact .int32 (Bytes.numeral_signedDecimal _)
  | methodSpec m i, s, h => by
      rw [format] at h
      obtain ⟨sm, hm, h⟩ := bind_eq_ok.1 h
      obtain ⟨si, hi, h⟩ := bind_eq_ok.1 h
      cases h
      rw [parenthesize_eq (List.cons_ne_nil _ _)]
      exact .node (.methodSpec m i) (.cons (Spells.of_format hm) (.one (Spells.of_format hi)))
  | inline k o, s, h => by
      rw [format] at h
      obtain ⟨so, ho, h⟩ := bind_eq_ok.1 h
      cases h
      rw [parenthesize_eq (List.cons_ne_nil _ _)]
      exact .node (.inline k o) (.one (Spells.of_format ho))

theorem SpellsAll.of_formatAll : ∀ {as : List SigTree} {ts : List Bytes}, as ≠ [] →
    formatAll as = .ok ts → SpellsAll (joinArgs ts) as ∧ ts ≠ []
  | [], _, hne, _ => absurd rfl hne
  | [a], ts, _, h => by
      obtain ⟨s, r, hs, hr, rfl⟩ := formatAll_cons_eq_ok.1 h
      cases hr
      exact ⟨.one (Spells.of_format hs), List.cons_ne_nil _ _⟩
  | a :: b :: as, ts, _, h => by
      obtain ⟨s, us, hs, hus, rfl⟩ := formatAll_cons_eq_ok.1 h
      obtain ⟨hr, hne⟩ := SpellsAll.of_formatAll (List.cons_ne_nil b as) hus
      obtain ⟨u, us, rfl⟩ := List.exists_cons_of_ne_nil hne
      exact ⟨.cons (Spells.of_format hs) hr, List.cons_ne_nil _ _⟩

end

/-! ### Parts of formattable trees -/

theorem formattable_of_formatAll {ts : List Bytes} (h : formatAll as = .ok ts) :
    ∀ a ∈ as, a.Formattable := by
  induction as generalizing ts with
  | nil => exact fun _ h => nomatch h
  | cons b as ih =>
      obtain ⟨s, r, hs, hr, -⟩ := formatAll_cons_eq_ok.1 h
      intro a ha
      rcases List.mem_cons.1 ha with rfl | ha
      · exact ⟨s, hs⟩
      · exact ih hr a ha

/-- What is below a formattable tree is formattable. -/
theorem Formattable.args {t : SigTree} (h : t.Formattable) : ∀ a ∈ t.args, a.Formattable := by
  obtain ⟨s, h⟩ := h
  intro a ha
  cases t with
  | token t => exact nomatch ha
  | int32 v => exact nomatch ha
  | typeSig c as =>
      rw [format] at h
      obtain ⟨_, -, h⟩ := bind_eq_ok.1 h
      obtain ⟨_, hts, -⟩ := bind_eq_ok.1 h
      exact formattable_of_formatAll hts a ha
  | callSig c as =>
      rw [format] at h
      obtain ⟨_, -, h⟩ := bind_eq_ok.1 h
      obtain ⟨_, hts, -⟩ := bind_eq_ok.1 h
      exact formattable_of_formatAll hts a ha
  | methodSpec m i =>
      rw [format] at h
      obtain ⟨sm, hm, h⟩ := bind_eq_ok.1 h
      obtain ⟨si, hi, -⟩ := bind_eq_ok.1 h
      rcases List.mem_cons.1 ha with rfl | ha
      · exact ⟨sm, hm⟩
      · rw [List.mem_singleton.1 ha]
        exact ⟨si, hi⟩
  | inline k o =>
      rw [format] at h
      obtain ⟨so, ho, -⟩ := bind_eq_ok.1 h
      rw [List.mem_singleton.1 ha]
      exact ⟨so, ho⟩

theorem formatAll_of_formattable (h : ∀ a ∈ as, a.Formattable) :
    ∃ ts, formatAll as = .ok ts := by
  induction as with
  | nil => exact ⟨[], rfl⟩
  | cons a as ih =>
      rw [List.forall_mem_cons] at h
      obtain ⟨s, hs⟩ := h.1
      obtain ⟨r, hr⟩ := ih h.2
      exact ⟨s :: r, formatAll_cons_eq_ok.2 ⟨s, r, hs, hr, rfl⟩⟩

theorem formattable_int32 (v : Int32) : (int32 v).Formattable := ⟨_, rfl⟩

/-- An element type with arguments that fit it. -/
theorem formattable_ofElement {e : ElementType}
    (h : e.isLeaf = true ∧ as = [] ∨ e.isLeaf = false ∧ e.shape.Fits as)
    (has : ∀ a ∈ as, a.Formattable) : (ofElement e as).Formattable := by
  obtain ⟨ts, hts⟩ := formatAll_of_formattable has
  have hc : checkTypeSig e.code as = .ok e := checkTypeSig_eq_ok.2 ⟨ElementType.ofCode?_code e, h⟩
  exact ⟨_, bind_eq_ok.2 ⟨e, hc, bind_eq_ok.2 ⟨ts, hts, rfl⟩⟩⟩

/-- A calling convention with arguments that fit it. -/
theorem formattable_ofConvention {k : CallingConvention} {flags : Int32}
    (h : (k.shape flags).Fits as) (has : ∀ a ∈ as, a.Formattable) :
    (ofConvention k (int32 flags :: as)).Formattable := by
  obtain ⟨ts, hts⟩ := formatAll_of_formattable (List.forall_mem_cons.2 ⟨formattable_int32 flags, has⟩)
  have hc : checkCallSig k.code (int32 flags :: as) = .ok k :=
    checkCallSig_eq_ok.2 ⟨CallingConvention.ofCode?_code k, flags, as, rfl, h⟩
  exact ⟨_, bind_eq_ok.2 ⟨k, hc, bind_eq_ok.2 ⟨ts, hts, rfl⟩⟩⟩

section Arguments

variable {e : ElementType} {s t : SigTree}

theorem formattable_one (he : e.isLeaf = false) (hf : e.shape.Fits [t]) (ht : t.Formattable) :
    (ofElement e [t]).Formattable :=
  formattable_ofElement (.inr ⟨he, hf⟩) (List.forall_mem_singleton.2 ht)

theorem formattable_pair (he : e.isLeaf = false) (hf : e.shape.Fits [s, t]) (hs : s.Formattable)
    (ht : t.Formattable) : (ofElement e [s, t]).Formattable :=
  formattable_ofElement (.inr ⟨he, hf⟩) (List.forall_mem_cons.2 ⟨hs, List.forall_mem_singleton.2 ht⟩)

end Arguments

/-! ### What is spelled can be written -/

mutual

/-- Every tree that is spelled has a text, though it need not be the text that spells it. -/
theorem Spells.formattable : ∀ {u : Bytes} {t : SigTree}, Spells u t → t.Formattable
  | _, _, @Spells.index _ i h hi => by
      have hn : ¬ i < 0 := by
        rw [Int32.lt_iff_toInt_lt, Int32.toInt_zero]
        omega
      exact ⟨_, if_neg hn⟩
  | _, _, .name n => ⟨_, rfl⟩
  | _, _, @Spells.leaf e he => by
      refine ⟨_, bind_eq_ok.2 ⟨e, ?_, rfl⟩⟩
      exact checkTypeSig_eq_ok.2 ⟨ElementType.ofCode?_code e, .inl ⟨he, rfl⟩⟩
  | _, _, .int32 h => ⟨_, rfl⟩
  | _, _, @Spells.node _ _ as _ ht ha => by
      obtain ⟨ts, hts⟩ := SpellsAll.formattable ha
      cases ht with
      | element he hf => exact formattable_ofElement (.inr ⟨he, hf⟩) (formattable_of_formatAll hts)
      | convention hf =>
          exact formattable_ofConvention hf (List.forall_mem_cons.1 (formattable_of_formatAll hts)).2
      | methodSpec m i =>
          obtain ⟨s, r, hm, hr, -⟩ := formatAll_cons_eq_ok.1 hts
          obtain ⟨s', -, hi, -, -⟩ := formatAll_cons_eq_ok.1 hr
          exact ⟨_, bind_eq_ok.2 ⟨s, hm, bind_eq_ok.2 ⟨s', hi, rfl⟩⟩⟩
      | inline k o =>
          obtain ⟨s, -, ho, -, -⟩ := formatAll_cons_eq_ok.1 hts
          exact ⟨_, bind_eq_ok.2 ⟨s, ho, rfl⟩⟩

theorem SpellsAll.formattable : ∀ {u : Bytes} {as : List SigTree}, SpellsAll u as →
    ∃ ts, formatAll as = .ok ts
  | _, _, .one ha => by
      obtain ⟨s, hs⟩ := Spells.formattable ha
      exact ⟨[s], formatAll_cons_eq_ok.2 ⟨s, [], hs, rfl, rfl⟩⟩
  | _, _, .cons ha has => by
      obtain ⟨s, hs⟩ := Spells.formattable ha
      obtain ⟨ts, hts⟩ := SpellsAll.formattable has
      exact ⟨s :: ts, formatAll_cons_eq_ok.2 ⟨s, ts, hs, hts, rfl⟩⟩

end

theorem parse_of_format {t : SigTree} {s : Bytes} (h : t.format = .ok s) : parse s = .ok t :=
  parse_eq_ok_iff_spells.2 (.inl (.of_format h))

/-- The trees that are read from a text are those that have one. -/
theorem exists_parse_iff {t : SigTree} : (∃ s, parse s = .ok t) ↔ t.Formattable := by
  refine ⟨fun ⟨s, h⟩ => ?_, fun ⟨s, h⟩ => ⟨s, parse_of_format h⟩⟩
  obtain h | ⟨u, -, h⟩ := parse_eq_ok_iff_spells.1 h
  · exact h.formattable
  · exact h.formattable

/-- A text that is written is read back, and the trees that can be read are those that can be written. -/
theorem format_parse_round_trip (t : SigTree) :
    (∀ s, t.format = .ok s → parse s = .ok t) ∧ ((∃ s, parse s = .ok t) ↔ t.Formattable) :=
  ⟨fun _ => parse_of_format, exists_parse_iff⟩

theorem format_parse_round_trip_genericInst :
    let t := ofElement .genericInst
      [ofElement .cls [token (.index 7)], int32 2, ofElement .i4, ofElement .szArray [ofElement .string]]
    t.format = .ok "GenericInst(Class(7),Int32(2),I4,SZArray(String))" ∧
      parse "GenericInst(Class(7),Int32(2),I4,SZArray(String))" = .ok t :=
  ⟨by rfl, (format_parse_round_trip _).1 _ (by rfl)⟩

end SigTree

end CilCatalog
