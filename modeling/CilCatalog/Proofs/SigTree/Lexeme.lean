import CilCatalog.Proofs.Decimal
import CilCatalog.SigTree.Lexeme

/-!
# How lexemes are spelled

`LexemeKind.Spelling k u` says that the octets `u` spell a lexeme of kind `k`, and `k.Ends r` that such a lexeme ends in front of `r`: a word or an integer takes all the octets it can.

* Cutting finds a lexeme exactly where one is spelled (`Lexeme.next_append`, `Lexeme.next_inv`).
* So the lexemes of a text that begins with a spelled lexeme are that lexeme and the lexemes of what is behind it (`lexemesFrom_append`), and otherwise there is only the one that ends the list (`lexemesFrom_last`).
-/

namespace CilCatalog

namespace SigTree

/-- An octet that continues a word. -/
def isWordOctet (b : UInt8) : Bool := Bytes.isLetter b || Bytes.isDigit b

/-- The octets spell a lexeme. -/
inductive LexemeKind.Spelling : LexemeKind → Bytes → Prop where
  | open : Spelling .open [octet '(']
  | close : Spelling .close [octet ')']
  | comma : Spelling .comma [octet ',']
  | word {b : UInt8} {w : Bytes} (hb : Bytes.isLetter b = true) (hw : ∀ c ∈ w, isWordOctet c = true) :
      Spelling (.word (b :: w)) (b :: w)
  | name {n : Bytes} (h : octet '\'' ∉ n) : Spelling (.name n) (octet '\'' :: (n ++ [octet '\'']))
  | integer {u : Bytes} {v : Int32} (h : Bytes.Numeral u v.toInt) : Spelling (.integer v) u

/-- A lexeme of this kind ends in front of what follows. -/
def LexemeKind.Ends : LexemeKind → Bytes → Prop
  | .word _,    r => ∀ b ∈ r.head?, isWordOctet b = false
  | .integer _, r => ∀ b ∈ r.head?, Bytes.isDigit b = false
  | _,          _ => True

/-! ### Classes of octets -/

theorem isDigit_of_isLetter {b : UInt8} (h : Bytes.isLetter b = true) : Bytes.isDigit b = false := by
  simp only [Bytes.isLetter, Bool.or_eq_true, Bool.and_eq_true, decide_eq_true_eq,
    UInt8.le_iff_toNat_le] at h
  simp only [Bytes.isDigit, Bool.and_eq_false_iff, decide_eq_false_iff_not, UInt8.le_iff_toNat_le]
  simp only [UInt8.toNat_ofNat] at *
  omega

/-- An octet is told from one that is not of its class. -/
theorem ne_of_class {p : UInt8 → Bool} {b c : UInt8} (hb : p b = true) (hc : p c = false) :
    (b == c) = false := by
  simp only [beq_eq_false_iff_ne, ne_eq]
  rintro rfl
  rw [hb] at hc
  exact nomatch hc

namespace Lexeme

theorem atEnd_cons {b : UInt8} {r : Bytes} (h : (b == 0) = false) : atEnd (b :: r) = false := by
  cases r with
  | nil => exact h
  | cons => rfl

/-- Only the end of the input and a zero octet in front of it count as the end. -/
theorem atEnd_iff {s : Bytes} : atEnd s = true ↔ s = [] ∨ s = [0] := by
  match s with
  | []         => simp [atEnd]
  | [b]        => simp [atEnd]
  | b :: c :: r => simp [atEnd]

/-! ### Names -/

theorem takeName_append {acc n r : Bytes} (h : octet '\'' ∉ n) :
    takeName acc (n ++ octet '\'' :: r) = .ok (acc.reverse ++ n, r) := by
  induction n generalizing acc with
  | nil => simp [takeName]
  | cons b n ih =>
      rw [List.mem_cons, not_or] at h
      obtain ⟨hb, hn⟩ := h
      have hq : (b == octet '\'') = false := by simpa using Ne.symm hb
      have hr : (n ++ octet '\'' :: r).isEmpty = false := by simp
      rw [List.cons_append, takeName, hq, hr, Bool.and_false, if_neg Bool.false_ne_true,
        if_neg Bool.false_ne_true, ih hn, List.reverse_cons, List.append_assoc]
      rfl

theorem takeName_eq_ok {acc s m r : Bytes} (h : takeName acc s = .ok (m, r)) :
    ∃ n, s = n ++ octet '\'' :: r ∧ m = acc.reverse ++ n ∧ octet '\'' ∉ n := by
  induction s generalizing acc with
  | nil => exact nomatch h
  | cons b s ih =>
      rw [takeName] at h
      split at h
      · next hb =>
          cases h
          exact ⟨[], by simpa using hb, by simp, by simp⟩
      · next hb =>
          split at h
          · exact nomatch h
          · obtain ⟨n, rfl, rfl, hn⟩ := ih h
            refine ⟨b :: n, rfl, by simp, ?_⟩
            rw [List.mem_cons, not_or]
            exact ⟨fun e => hb (by simp [e]), hn⟩

/-! ### Integers -/

theorem integerValue?_eq_some {negative : Bool} {ds : Bytes} {v : Int32} :
    integerValue? negative ds = some v ↔ ds ≠ [] ∧
      v.toInt = if negative then -(Bytes.digitsValue ds : Int) else Bytes.digitsValue ds := by
  have lo := v.le_toInt
  have hi := v.toInt_lt
  have back : ∀ {i : Int}, v.toInt = i → Int32.ofInt i = v := fun h => by rw [← h, Int32.ofInt_toInt]
  have forth : ∀ {i : Int}, -2 ^ 31 ≤ i → i < 2 ^ 31 → Int32.ofInt i = v → v.toInt = i :=
    fun h₁ h₂ h => by rw [← h, Int32.toInt_ofInt_of_le h₁ h₂]
  rw [integerValue?]
  cases ds with
  | nil => simp
  | cons d ds =>
      generalize Bytes.digitsValue (d :: ds) = n
      cases negative with
      | false =>
          simp only [List.isEmpty_cons, Bool.false_eq_true, if_false, ne_eq, reduceCtorEq,
            not_false_eq_true, true_and]
          split
          · next h => exact ⟨fun e => forth (by omega) (by omega) (by simpa using e), fun e => by simp [back e]⟩
          · next h => exact ⟨nofun, fun e => by omega⟩
      | true =>
          simp only [List.isEmpty_cons, Bool.false_eq_true, if_false, if_true, ne_eq, reduceCtorEq,
            not_false_eq_true, true_and]
          split
          · next h => exact ⟨fun e => forth (by omega) (by omega) (by simpa using e), fun e => by simp [back e]⟩
          · next h => exact ⟨nofun, fun e => by omega⟩

theorem takeInteger_minus (s : Bytes) : takeInteger (octet '-' :: s) =
    match integerValue? true (s.takeWhile Bytes.isDigit) with
    | some v => (.integer v, s.dropWhile Bytes.isDigit)
    | none   => (.fault (.badInteger (octet '-' :: s.takeWhile Bytes.isDigit)),
        s.dropWhile Bytes.isDigit) := rfl

theorem takeInteger_plain {s : Bytes} (h : ∀ b ∈ s.head?, b ≠ octet '-') : takeInteger s =
    match integerValue? false (s.takeWhile Bytes.isDigit) with
    | some v => (.integer v, s.dropWhile Bytes.isDigit)
    | none   => (.fault (.badInteger (s.takeWhile Bytes.isDigit)), s.dropWhile Bytes.isDigit) := by
  have hneg : (s.head? == some (octet '-')) = false := by
    cases s with
    | nil => rfl
    | cons b s => simpa using h b rfl
  rw [takeInteger, hneg]
  rfl

theorem takeInteger_append {u r : Bytes} {v : Int32} (h : Bytes.Numeral u v.toInt)
    (hr : ∀ b ∈ r.head?, Bytes.isDigit b = false) : takeInteger (u ++ r) = (.integer v, r) := by
  generalize hi : v.toInt = i at h
  cases h with
  | plain hd =>
      have hne : ∀ b ∈ (u ++ r).head?, b ≠ octet '-' := by
        obtain ⟨b, ds, rfl⟩ := List.exists_cons_of_ne_nil hd.1
        rintro _ ⟨⟩ rfl
        exact absurd (hd.2 _ List.mem_cons_self) (by decide)
      rw [takeInteger_plain hne, Bytes.takeWhile_append_of_head hd.2 hr,
        Bytes.dropWhile_append_of_head hd.2 hr, integerValue?_eq_some.2 ⟨hd.1, hi⟩]
  | minus hd =>
      rw [List.cons_append, takeInteger_minus, Bytes.takeWhile_append_of_head hd.2 hr,
        Bytes.dropWhile_append_of_head hd.2 hr, integerValue?_eq_some.2 ⟨hd.1, hi⟩]

/-- What is taken for an integer spells one, and ends where the digits do. -/
theorem takeInteger_eq_integer {s r : Bytes} {v : Int32} (h : takeInteger s = (.integer v, r)) :
    ∃ u, s = u ++ r ∧ Bytes.Numeral u v.toInt ∧ ∀ b ∈ r.head?, Bytes.isDigit b = false := by
  have digits : ∀ t : Bytes, t.takeWhile Bytes.isDigit ≠ [] →
      Bytes.IsDigits (t.takeWhile Bytes.isDigit) := fun t ht => ⟨ht, List.all_eq_true.1 List.all_takeWhile⟩
  by_cases hm : ∃ t, s = octet '-' :: t
  · obtain ⟨t, rfl⟩ := hm
    rw [takeInteger_minus] at h
    split at h
    · next w hw =>
        cases h
        obtain ⟨hne, hv⟩ := integerValue?_eq_some.1 hw
        refine ⟨octet '-' :: t.takeWhile Bytes.isDigit, ?_, ?_, Bytes.head?_dropWhile_not⟩
        · rw [List.cons_append, List.takeWhile_append_dropWhile]
        · rw [hv]
          exact .minus (digits t hne)
    · exact nomatch h
  · have hne : ∀ b ∈ s.head?, b ≠ octet '-' := by
      rintro b hb rfl
      exact hm (List.head?_eq_some_iff.1 hb)
    rw [takeInteger_plain hne] at h
    split at h
    · next w hw =>
        cases h
        obtain ⟨hne, hv⟩ := integerValue?_eq_some.1 hw
        refine ⟨s.takeWhile Bytes.isDigit, List.takeWhile_append_dropWhile.symm, ?_,
          Bytes.head?_dropWhile_not⟩
        rw [hv]
        exact .plain (digits s hne)
    · exact nomatch h

/-- What is taken for an integer is one or a fault. -/
theorem takeInteger_kind (s : Bytes) :
    (∃ v, (takeInteger s).1 = .integer v) ∨ ∃ f, (takeInteger s).1 = .fault f := by
  unfold takeInteger
  extract_lets negative body ds rest
  split
  · exact .inl ⟨_, rfl⟩
  · exact .inr ⟨_, rfl⟩

/-! ### One lexeme -/

/-- A spelled lexeme is cut off where it ends. -/
theorem next_append {k : LexemeKind} {u r : Bytes} (h : k.Spelling u) (hr : k.Ends r) :
    next (u ++ r) = (k, r) := by
  cases h with
  | «open» => cases r <;> rfl
  | close => cases r <;> rfl
  | comma => cases r <;> rfl
  | @word b w hb hw =>
      have hw' : ∀ c ∈ b :: w, isWordOctet c = true := fun c hc => by
        cases hc with
        | head => rw [isWordOctet, hb, Bool.true_or]
        | tail _ hc => exact hw c hc
      have h0 : ∀ c, Bytes.isLetter c = false → (b == c) = false := fun _ => ne_of_class hb
      rw [List.cons_append, next, atEnd_cons (h0 0 rfl)]
      simp only [h0 0 rfl, h0 (octet '(') rfl, h0 (octet ')') rfl, h0 (octet ',') rfl,
        h0 (octet '\'') rfl, h0 (octet '-') rfl, isDigit_of_isLetter hb, hb, Bool.false_eq_true,
        if_false, if_true, Bool.or_self]
      exact Prod.ext (congrArg LexemeKind.word (Bytes.takeWhile_append_of_head hw' hr))
        (Bytes.dropWhile_append_of_head hw' hr)
  | @name n hn =>
      have e : octet '\'' :: (n ++ [octet '\'']) ++ r = octet '\'' :: (n ++ octet '\'' :: r) := by simp
      rw [e, next, atEnd_cons rfl, takeName_append hn]
      rfl
  | integer hn =>
      obtain ⟨b, t, rfl, hb⟩ := hn.head
      have h0 : ∀ c, c ≠ octet '-' → Bytes.isDigit c = false → (b == c) = false := fun c hc hd => by
        obtain rfl | hb := hb
        · simpa using Ne.symm hc
        · exact ne_of_class hb hd
      have hb' : (b == octet '-' || Bytes.isDigit b) = true := by simpa using hb
      rw [List.cons_append, next, atEnd_cons (h0 0 (by decide) rfl)]
      simp only [h0 0 (by decide) rfl, h0 (octet '(') (by decide) rfl, h0 (octet ')') (by decide) rfl,
        h0 (octet ',') (by decide) rfl, h0 (octet '\'') (by decide) rfl, hb', Bool.false_eq_true,
        if_false, if_true]
      exact takeInteger_append hn hr

/-- Where no lexeme is spelled there is the end of the input or a fault. -/
theorem next_cases {s r : Bytes} {k : LexemeKind} (h : next s = (k, r)) :
    (k = .endOfInput ∧ atEnd s = true) ∨ (∃ f, k = .fault f) ∨
      ∃ u, s = u ++ r ∧ k.Spelling u ∧ k.Ends r := by
  cases s with
  | nil => cases h; exact .inl ⟨rfl, rfl⟩
  | cons b t =>
      rw [next] at h
      split at h
      · next he => cases h; exact .inl ⟨rfl, he⟩
      refine .inr ?_
      split at h
      · cases h; exact .inl ⟨_, rfl⟩
      split at h
      · next hb => cases h; exact .inr ⟨[b], rfl, by rw [beq_iff_eq.1 hb]; exact .open, trivial⟩
      split at h
      · next hb => cases h; exact .inr ⟨[b], rfl, by rw [beq_iff_eq.1 hb]; exact .close, trivial⟩
      split at h
      · next hb => cases h; exact .inr ⟨[b], rfl, by rw [beq_iff_eq.1 hb]; exact .comma, trivial⟩
      split at h
      · next hb =>
          split at h
          · next n rest hn =>
              cases h
              obtain ⟨m, rfl, rfl, hm⟩ := takeName_eq_ok hn
              rw [beq_iff_eq.1 hb]
              exact .inr ⟨_, by simp, .name hm, trivial⟩
          · cases h; exact .inl ⟨_, rfl⟩
      split at h
      · obtain ⟨v, hv⟩ | ⟨f, hf⟩ := takeInteger_kind (b :: t)
        · rw [h] at hv
          cases hv
          obtain ⟨u, hu, hn, hr⟩ := takeInteger_eq_integer h
          exact .inr ⟨u, hu, .integer hn, hr⟩
        · rw [h] at hf
          exact .inl ⟨f, hf⟩
      split at h
      · next hb =>
          cases h
          have hw : isWordOctet b = true := by rw [isWordOctet, hb, Bool.true_or]
          have e : (b :: t).takeWhile isWordOctet = b :: t.takeWhile isWordOctet :=
            List.takeWhile_cons_of_pos hw
          refine .inr ⟨(b :: t).takeWhile isWordOctet, List.takeWhile_append_dropWhile.symm, ?_,
            Bytes.head?_dropWhile_not⟩
          change LexemeKind.Spelling (.word ((b :: t).takeWhile isWordOctet)) _
          rw [e]
          exact .word hb (List.all_eq_true.1 List.all_takeWhile)
      · cases h; exact .inl ⟨_, rfl⟩

theorem next_of_atEnd {s : Bytes} (h : atEnd s = true) : next s = (.endOfInput, s) := by
  unfold next
  rw [if_pos h]

end Lexeme

/-! ### All lexemes -/

theorem LexemeKind.Spelling.ne_nil {k : LexemeKind} {u : Bytes} (h : k.Spelling u) : u ≠ [] := by
  cases h with
  | integer hn =>
      obtain ⟨b, t, rfl, -⟩ := hn.head
      exact List.cons_ne_nil b t
  | _ => exact List.cons_ne_nil _ _

theorem LexemeKind.Spelling.isLast {k : LexemeKind} {u : Bytes} (h : k.Spelling u) :
    Lexeme.isLast k = false := by
  cases h <;> rfl

/-- The lexemes of a text that begins at an offset. -/
def lexemesFrom (start : Nat) (s : Bytes) : List Lexeme := Lexeme.scanFrom (s.length + 1) start s

/-- More fuel than octets gives no more lexemes. -/
theorem scanFrom_eq {fuel start : Nat} {s : Bytes} (h : s.length < fuel) :
    Lexeme.scanFrom fuel start s = lexemesFrom start s := by
  have key : ∀ (m n start : Nat) (s : Bytes), s.length < m → s.length < n →
      Lexeme.scanFrom m start s = Lexeme.scanFrom n start s := by
    intro m
    induction m with
    | zero => exact fun n start s h => absurd h (Nat.not_lt_zero _)
    | succ m ih =>
        intro n start s hm hn
        obtain ⟨n, rfl⟩ := Nat.exists_eq_succ_of_ne_zero (Nat.ne_zero_of_lt hn)
        rw [Lexeme.scanFrom, Lexeme.scanFrom]
        cases hs : Lexeme.next s with
        | mk k r =>
            obtain ⟨rfl, -⟩ | ⟨f, rfl⟩ | ⟨u, rfl, hu, -⟩ := Lexeme.next_cases hs
            · rfl
            · rfl
            · have hlen := List.length_pos_iff.2 hu.ne_nil
              rw [List.length_append] at hm hn
              dsimp only
              rw [ih n _ r (by omega) (by omega)]
  exact key _ _ _ _ h (Nat.lt_succ_self _)

/-- The lexemes of a text with a spelled lexeme in front. -/
theorem lexemesFrom_append {k : LexemeKind} {u r : Bytes} (start : Nat) (h : k.Spelling u)
    (hr : k.Ends r) :
    lexemesFrom start (u ++ r) = ⟨k, start, start + u.length⟩ :: lexemesFrom (start + u.length) r := by
  have hlen := List.length_pos_iff.2 h.ne_nil
  rw [lexemesFrom, Lexeme.scanFrom, Lexeme.next_append h hr]
  dsimp only
  rw [h.isLast, if_neg Bool.false_ne_true, List.length_append, Nat.add_sub_cancel,
    scanFrom_eq (by omega)]

/-- The lexemes of any text: one that is spelled and those behind it, or only the one that ends the list. -/
theorem lexemesFrom_cases (start : Nat) (s : Bytes) :
    (∃ k u r, s = u ++ r ∧ k.Spelling u ∧ k.Ends r ∧
      lexemesFrom start s = ⟨k, start, start + u.length⟩ :: lexemesFrom (start + u.length) r) ∨
    ∃ k stop, lexemesFrom start s = [⟨k, start, stop⟩] ∧
      (k = .endOfInput ∧ Lexeme.atEnd s = true ∨ ∃ f, k = .fault f) := by
  cases hs : Lexeme.next s with
  | mk k r =>
      have last : Lexeme.isLast k = true →
          lexemesFrom start s = [⟨k, start, start + (s.length - r.length)⟩] := fun hk => by
        rw [lexemesFrom, Lexeme.scanFrom, hs]
        dsimp only
        rw [hk, if_pos rfl]
      obtain ⟨rfl, he⟩ | ⟨f, rfl⟩ | ⟨u, rfl, hu, hr⟩ := Lexeme.next_cases hs
      · exact .inr ⟨_, _, last rfl, .inl ⟨rfl, he⟩⟩
      · exact .inr ⟨_, _, last rfl, .inr ⟨f, rfl⟩⟩
      · exact .inl ⟨k, u, r, rfl, hu, hr, lexemesFrom_append start hu hr⟩

/-- At the end of the input there is only its end. -/
theorem lexemesFrom_atEnd {s : Bytes} (start : Nat) (h : Lexeme.atEnd s = true) :
    lexemesFrom start s = [⟨.endOfInput, start, start⟩] := by
  rw [lexemesFrom, Lexeme.scanFrom, Lexeme.next_of_atEnd h]
  simp [Lexeme.isLast]

end SigTree

end CilCatalog
