import CilCatalog.Proofs.Json.Reads
import CilCatalog.Proofs.SigTree.Parse

/-!
# Zero octets at the end

Both readers take a zero octet in last place for the end of the input, so one such octet is passed over and no other is.

* `Core` says it of one text that is read: up to a zero octet at the end there is none, and with that octet or without it the text is read alike.
* `SigTree.parse_core` proves it from the grammar; a zero octet may stand inside a quoted name.
* `Json.parse_core` proves it from the lexemes: none of them takes a zero octet, and each is the same if what stops it becomes one (`Json.Lexeme.next_cut`).
* `zero_ends_input`: a text that is read and ends in no zero octet is read alike with one behind it, and refused with two.
-/

namespace CilCatalog

open Relation (TransGen ReflTransGen)

section

variable {φ α : Type} {outside : Bytes → Bytes} {read : Bytes → Except (Failure φ) α}

/-- The text `s`, in which `outside` finds the octets that belong to no name, is read as `a` on account of what it holds in front of a zero octet at its end. -/
structure Core (outside : Bytes → Bytes) (read : Bytes → Except (Failure φ) α) (s : Bytes) (a : α)
    (u : Bytes) : Prop where
  tail : s = u ∨ s = u ++ [0]
  zero_free : 0 ∉ outside u
  closed : ∀ r, outside (u ++ r) = outside u ++ outside r
  alike : read u = .ok a ∧ read (u ++ [0]) = .ok a

variable [Fault φ]

/-- The text `s`, read as `a`, holds no zero octet and is read alike with one behind it, or it holds one at the end and is refused as malformed with another. -/
def ZeroEndsInput (outside : Bytes → Bytes) (read : Bytes → Except (Failure φ) α) (s : Bytes)
    (a : α) : Prop :=
  (0 ∉ outside s ∧ read (s ++ [0]) = .ok a) ∨
  ∃ u, s = u ++ [0] ∧ 0 ∉ outside u ∧ read u = .ok a ∧
    ∃ f, read (s ++ [0]) = .error (.fault f) ∧ Fault.kind f = .invalidData

/-- A text that is read holds no zero octet, and is refused as malformed with one behind it. -/
def ZeroRefused (outside : Bytes → Bytes) (read : Bytes → Except (Failure φ) α) : Prop :=
  ∀ s a, read s = .ok a → 0 ∉ outside s ∧
    ∃ f, read (s ++ [0]) = .error (.fault f) ∧ Fault.kind f = .invalidData

theorem zeroEndsInput_of_core (hcore : ∀ s a, read s = .ok a → ∃ u, Core outside read s a u)
    (hzero : ∀ r, 0 ∈ outside (0 :: r))
    (hinvalid : ∀ s e, s ≠ [] → read s = .error e →
      ∃ f, e = .fault f ∧ Fault.kind f = .invalidData) {s : Bytes} {a : α} (h : read s = .ok a) :
    ZeroEndsInput outside read s a := by
  obtain ⟨u, hu⟩ := hcore s a h
  obtain rfl | rfl := hu.tail
  · exact .inl ⟨hu.zero_free, hu.alike.2⟩
  refine .inr ⟨u, rfl, hu.zero_free, hu.alike.1, ?_⟩
  rw [List.append_assoc]
  cases hr : read (u ++ ([0] ++ [0])) with
  | error e =>
      obtain ⟨f, rfl, hf⟩ := hinvalid _ e (by simp) hr
      exact ⟨f, rfl, hf⟩
  | ok b =>
      -- of two zero octets at the end, the first is none that ends the input
      obtain ⟨v, hv⟩ := hcore _ b hr
      have inside : ∀ r, v ≠ u ++ 0 :: r := by
        rintro r rfl
        refine hv.zero_free ?_
        rw [hu.closed]
        exact List.mem_append_right _ (hzero r)
      obtain hv | hv := hv.tail
      · exact absurd hv.symm (inside [0])
      · rw [← List.append_assoc] at hv
        exact absurd (List.append_inj_left' hv rfl).symm (inside [])

end

/-! ### Trees -/

namespace SigTree

/-- The octets that stand in no quoted name, of a text that begins inside of one or outside. -/
def unquotedFrom : Bool → Bytes → Bytes
  | _,      []     => []
  | inside, b :: s =>
      if b = octet '\'' then unquotedFrom (!inside) s
      else if inside then unquotedFrom inside s
      else b :: unquotedFrom inside s

/-- The octets of a text that stand in no quoted name. -/
def unquoted (s : Bytes) : Bytes := unquotedFrom false s

/-- No zero octet stands outside the names in `u`, and each of them is closed. -/
def Sober (u : Bytes) : Prop :=
  0 ∉ unquoted u ∧ ∀ r, unquoted (u ++ r) = unquoted u ++ unquoted r

theorem Sober.append {u v : Bytes} (hu : Sober u) (hv : Sober v) : Sober (u ++ v) := by
  refine ⟨?_, fun r => ?_⟩
  · rw [hu.2, List.mem_append, not_or]
    exact ⟨hu.1, hv.1⟩
  · rw [List.append_assoc, hu.2, hv.2, hu.2, List.append_assoc]

/-- An octet that neither quotes nor is zero. -/
theorem sober_octet {b : UInt8} (hb : b ≠ 0 ∧ b ≠ octet '\'') : Sober [b] := by
  have cut : ∀ r, unquoted (b :: r) = b :: unquoted r := fun r => by
    rw [unquoted, unquotedFrom, if_neg hb.2, if_neg Bool.false_ne_true, unquoted]
  refine ⟨?_, fun r => ?_⟩
  · rw [cut]
    exact fun h => hb.1 (List.mem_singleton.1 h).symm
  · rw [List.singleton_append, cut, cut]
    rfl

theorem sober_of_forall {u : Bytes} (h : ∀ b ∈ u, b ≠ 0 ∧ b ≠ octet '\'') : Sober u := by
  induction u with
  | nil => exact ⟨List.not_mem_nil, fun r => rfl⟩
  | cons b u ih =>
      rw [List.forall_mem_cons] at h
      exact (sober_octet h.1).append (ih h.2)

theorem sober_of_class {p : UInt8 → Bool} {u : Bytes} (h : ∀ b ∈ u, p b = true) (h0 : p 0 = false)
    (hq : p (octet '\'') = false) : Sober u := by
  refine sober_of_forall fun b hb => ⟨?_, ?_⟩ <;> rintro rfl
  · rw [h 0 hb] at h0; exact nomatch h0
  · rw [h _ hb] at hq; exact nomatch hq

theorem sober_quoted {n : Bytes} (h : octet '\'' ∉ n) :
    Sober (octet '\'' :: (n ++ [octet '\''])) := by
  have inner : ∀ r, unquotedFrom true (n ++ octet '\'' :: r) = unquoted r := by
    induction n with
    | nil => exact fun r => rfl
    | cons b n ih =>
        rw [List.mem_cons, not_or] at h
        intro r
        rw [List.cons_append, unquotedFrom, if_neg (Ne.symm h.1), if_pos rfl, ih h.2]
  have cut : ∀ r, unquoted (octet '\'' :: (n ++ [octet '\'']) ++ r) = unquoted r := fun r => by
    rw [List.cons_append, List.append_assoc, unquoted, unquotedFrom, if_pos rfl]
    exact inner r
  have empty : unquoted (octet '\'' :: (n ++ [octet '\''])) = [] := by
    rw [← List.append_nil (_ :: _), cut]
    rfl
  exact ⟨by rw [empty]; exact List.not_mem_nil, fun r => by rw [cut, empty, List.nil_append]⟩

theorem sober_numeral {u : Bytes} {i : Int} (h : Bytes.Numeral u i) : Sober u := by
  cases h with
  | plain h => exact sober_of_class h.2 (by decide) (by decide)
  | minus h =>
      exact (sober_octet (b := octet '-') (by decide)).append
        (sober_of_class h.2 (by decide) (by decide))

theorem sober_word {w : Bytes} (h : isWord w = true) : Sober w := by
  cases spelling_of_isWord h with
  | word hb hw =>
      refine sober_of_class (p := isWordOctet) ?_ (by decide) (by decide)
      intro c hc
      obtain rfl | hc := List.mem_cons.1 hc
      · rw [isWordOctet, hb, Bool.true_or]
      · exact hw c hc

theorem sober_parenthesized {w u : Bytes} (hw : Sober w) (hu : Sober u) :
    Sober (w ++ octet '(' :: (u ++ [octet ')'])) :=
  hw.append ((sober_octet (b := octet '(') (by decide)).append
    (hu.append (sober_octet (by decide))))

mutual

theorem Spells.sober : ∀ {u : Bytes} {t : SigTree}, Spells u t → Sober u
  | _, _, .index h _ => sober_numeral h
  | _, _, .name n => sober_quoted fun h => n.not_reserved _ h (by decide)
  | _, _, .leaf _ => sober_word (isWord_element _)
  | _, _, .int32 h => sober_parenthesized (sober_word (isWord_nodeKind .int32)) (sober_numeral h)
  | _, _, .node ht ha => sober_parenthesized (sober_word ht.isWord) ha.sober

theorem SpellsAll.sober : ∀ {u : Bytes} {as : List SigTree}, SpellsAll u as → Sober u
  | _, _, .one ha => ha.sober
  | _, _, .cons ha has =>
      ha.sober.append ((sober_octet (b := octet ',') (by decide)).append has.sober)

end

theorem parse_core (s : Bytes) (t : SigTree) (h : parse s = .ok t) :
    ∃ u, Core unquoted parse s t u := by
  have core : ∀ {u : Bytes}, Spells u t → s = u ∨ s = u ++ [0] → Core unquoted parse s t u :=
    fun hu hs => ⟨hs, hu.sober.1, hu.sober.2, by simpa using hu.parse (.inl rfl), hu.parse (.inr rfl)⟩
  obtain hs | ⟨u, hs, hu⟩ := parse_eq_ok_iff_spells.1 h
  · exact ⟨s, core hs (.inl rfl)⟩
  · exact ⟨u, core hu (.inr hs)⟩

end SigTree

/-! ### JSON -/

namespace Json

/-- The first lexeme takes no zero octet, and is the same in front of whatever stops it. -/
theorem Parse.Takes.cut {start : Nat} {s : Bytes} {rest : List Lexeme}
    (h : Parse.Takes (lexemesFrom start s) rest) : ∃ u r l stop, s = u ++ r ∧ 0 ∉ u ∧
      rest = lexemesFrom stop r ∧
      ∀ r', StopsLike r r' → lexemesFrom start (u ++ r') = l :: lexemesFrom stop r' := by
  obtain ⟨l, hl, hk⟩ := h
  cases hn : Lexeme.next (s.dropWhile Bytes.isSpace) with
  | mk k r =>
  have hkind : Lexeme.isLast k = false := by
    rw [lexemesFrom, Lexeme.scanFrom, hn] at hl
    dsimp only at hl
    split at hl
    · cases hl
      exact hk
    · next hf => simpa using hf
  have hw : ∀ b ∈ s.takeWhile Bytes.isSpace, Bytes.isSpace b = true :=
    List.all_eq_true.1 List.all_takeWhile
  obtain ⟨v, hs, hv, h0, hr⟩ := Lexeme.next_cut hn hkind
  obtain ⟨b, v, rfl⟩ := List.exists_cons_of_ne_nil hv
  have hb : Bytes.isSpace b = false := by
    refine Bytes.head?_dropWhile_not (s := s) b ?_
    rw [hs]
    rfl
  have cut : ∀ r', StopsLike r r' → lexemesFrom start (s.takeWhile Bytes.isSpace ++ (b :: v) ++ r') =
      _ :: lexemesFrom _ r' := fun r' hr' => by
    rw [List.append_assoc, lexemesFrom_blanks hw, lexemesFrom_of_next _ hb (hr r' hr') hkind]
  have hs' : s = s.takeWhile Bytes.isSpace ++ (b :: v) ++ r := by
    rw [List.append_assoc, ← hs, List.takeWhile_append_dropWhile]
  refine ⟨_, r, _, _, hs', ?_, ?_, cut⟩
  · rw [List.mem_append, not_or]
    exact ⟨fun hm => absurd (hw 0 hm) (by decide), h0⟩
  · rw [hs', cut r (.refl r)] at hl
    exact (List.cons.inj hl).2.symm

/-- A text whose lexemes run to the end of the input holds no zero octet but at its end, and has the same lexemes with that octet and without it. -/
theorem lexemes_core {ls rest : List Lexeme} (h : ReflTransGen Parse.Takes ls rest)
    (he : (Parse.look rest).kind = .endOfInput) : ∀ {start : Nat} {s : Bytes},
    lexemesFrom start s = ls → ∃ u z, s = u ++ z ∧ Lexeme.atEnd z = true ∧ 0 ∉ u ∧
      ∀ z', Lexeme.atEnd z' = true → lexemesFrom start (u ++ z') = ls := by
  induction h using ReflTransGen.head_induction_on with
  | refl =>
      rintro start s rfl
      have hw : ∀ b ∈ s.takeWhile Bytes.isSpace, Bytes.isSpace b = true :=
        List.all_eq_true.1 List.all_takeWhile
      have hz : Lexeme.atEnd (s.dropWhile Bytes.isSpace) = true := by
        cases hn : Lexeme.next (s.dropWhile Bytes.isSpace) with
        | mk k r =>
        rw [lexemesFrom, Lexeme.scanFrom, hn] at he
        dsimp only at he
        have hk : k = .endOfInput := by
          split at he <;> exact he
        exact Lexeme.atEnd_of_next (hk ▸ hn)
      refine ⟨_, _, List.takeWhile_append_dropWhile.symm, hz,
        fun hm => absurd (hw 0 hm) (by decide), fun z' hz' => ?_⟩
      calc lexemesFrom start (s.takeWhile Bytes.isSpace ++ z')
        _ = lexemesFrom start (s.takeWhile Bytes.isSpace ++ s.dropWhile Bytes.isSpace) := by
          rw [lexemesFrom_blanks hw, lexemesFrom_blanks hw, lexemesFrom_atEnd _ hz',
            lexemesFrom_atEnd _ hz]
        _ = lexemesFrom start s := by rw [List.takeWhile_append_dropWhile]
  | @head ls ms hstep _ ih =>
      rintro start s rfl
      obtain ⟨u, r, l, stop, rfl, hu, rfl, hcut⟩ := hstep.cut
      obtain ⟨v, z, rfl, hz, hv, halike⟩ := ih rfl
      refine ⟨u ++ v, z, (List.append_assoc ..).symm, hz, ?_, fun z' hz' => ?_⟩
      · rw [List.mem_append, not_or]
        exact ⟨hu, hv⟩
      · -- what stops the lexeme is the same octet, or the end of the input in either form
        have hstop : StopsLike (v ++ z) (v ++ z') := by
          cases v with
          | cons c v => exact fun b hb => .inl hb
          | nil =>
              intro b hb
              obtain rfl | rfl := Lexeme.atEnd_iff.1 hz'
              · cases hb
              · exact .inr (by simpa using hb.symm)
        rw [List.append_assoc, hcut _ hstop, halike z' hz', hcut _ (.refl _)]

theorem parse_congr {s s' : Bytes} (h : lexemesFrom 0 s' = lexemesFrom 0 s) : parse s' = parse s := by
  have h : Lexeme.scan s' = Lexeme.scan s := h
  rw [parse, parse, h]

theorem parse_core (s : Bytes) (v : Json) (h : parse s = .ok v) : ∃ u, Core id parse s v u := by
  obtain ⟨rest, hls, he⟩ := (parse_reads s).result h
  obtain ⟨u, z, rfl, hz, hu, halike⟩ := lexemes_core hls.to_reflTransGen he rfl
  have hz := Lexeme.atEnd_iff.1 hz
  have read : ∀ z', Lexeme.atEnd z' = true → parse (u ++ z') = .ok v := fun z' hz' =>
    (parse_congr (halike z' hz')).trans h
  refine ⟨u, hz.imp (fun e => ?_) (fun e => ?_), hu, fun r => rfl, ?_, read [0] rfl⟩
  · rw [e, List.append_nil]
  · rw [e]
  · simpa using read [] rfl

end Json

/-! ### Both readers -/

/-- Each reader passes over one zero octet at the end of a text, and refuses every other. -/
theorem zero_ends_input (s : Bytes) :
    (∀ t, SigTree.parse s = .ok t → ZeroEndsInput SigTree.unquoted SigTree.parse s t) ∧
      ∀ v, Json.parse s = .ok v → ZeroEndsInput id Json.parse s v :=
  ⟨fun _ => zeroEndsInput_of_core SigTree.parse_core (fun _ => List.mem_cons_self)
      fun _ _ => SigTree.parse_invalid,
    fun _ => zeroEndsInput_of_core Json.parse_core (fun _ => List.mem_cons_self)
      fun s _ _ => (Json.parse_reads s).fault⟩

/-- A zero octet inside a name is kept, one behind a tree or a number is passed over, and a second one is refused. -/
theorem zero_ends_input_i4 :
    (∃ t, SigTree.parse "'a\x00b'" = .ok t ∧ SigTree.parse (utf8 "'a\x00b'" ++ [0]) = .ok t) ∧
    (∃ f, SigTree.parse (utf8 "I4\x00" ++ [0]) = .error (.fault f) ∧ Fault.kind f = .invalidData) ∧
    ∃ f, Json.parse (utf8 "1\x00" ++ [0]) = .error (.fault f) ∧ Fault.kind f = .invalidData := by
  refine ⟨⟨_, rfl, ?_⟩, ?_, ?_⟩
  · obtain ⟨-, h⟩ | ⟨u, hu, -⟩ := (zero_ends_input "'a\x00b'").1 _ rfl
    · exact h
    · exact absurd (congrArg List.getLast? hu) (by rw [List.getLast?_concat]; decide)
  · obtain ⟨h, -⟩ | ⟨-, -, -, -, h⟩ := (zero_ends_input "I4\x00").1 _ rfl
    · exact absurd h (by decide)
    · exact h
  · obtain ⟨h, -⟩ | ⟨-, -, -, -, h⟩ := (zero_ends_input "1\x00").2 _ rfl
    · exact absurd h (by decide)
    · exact h

/-- Neither reader refuses the text of a tree or of a number with a zero octet behind it. -/
theorem not_zero_refused :
    ¬ ZeroRefused SigTree.unquoted SigTree.parse ∧ ¬ ZeroRefused id Json.parse := by
  constructor
  · intro h
    obtain ⟨-, f, hf, -⟩ := h "I4" (SigTree.ofElement .i4) rfl
    exact nomatch hf
  · intro h
    obtain ⟨-, f, hf, -⟩ := h "1" (.int 1) rfl
    exact nomatch hf

end CilCatalog
