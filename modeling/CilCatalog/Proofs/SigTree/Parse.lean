import CilCatalog.Proofs.SigTree.Grammar

/-!
# The reader and the grammar

What `SigTree.parse` accepts, stated against the grammar.

* The reader's three functions are first inverted, one call at a time (`Parse.tree_eq_ok`, `Parse.arguments_eq_ok`, `Parse.items_eq_ok`); everything else is proved from these.
* Soundness: what the reader takes off the front spells the tree it gives (`Parse.tree_sound`).
* Completeness: where a tree is spelled the reader finds it, given as much fuel as `parse` gives (`Parse.tree_complete`).
* With that fuel the reader fails only for faults of the text (`Parse.tree_invalid`).
-/

namespace CilCatalog

namespace SigTree

namespace Parse

/-! ### One call -/

/-- What a call that reads a tree does, by the kind of the lexeme in front. -/
inductive TreeCall (fuel : Nat) (ls : List Lexeme) : SigTree → List Lexeme → Prop where
  | index {i : Int32} (hk : (look ls).kind = .integer i) (hi : 0 ≤ i.toInt) :
      TreeCall fuel ls (token (.index i)) ls.tail
  | name {n : TokenName} (hk : (look ls).kind = .name n.bytes) :
      TreeCall fuel ls (token (.named n)) ls.tail
  | leaf {e : ElementType} (hk : (look ls).kind = .word e.name) (he : e.isLeaf = true) :
      TreeCall fuel ls (ofElement e) ls.tail
  | int32 {v : Int32} (hk : (look ls).kind = .word NodeKind.int32.name)
      (ho : (look ls.tail).kind = .open) (hv : (look ls.tail.tail).kind = .integer v)
      (hc : (look ls.tail.tail.tail).kind = .close) :
      TreeCall fuel ls (int32 v) ls.tail.tail.tail.tail
  | node {w : Bytes} {as : List SigTree} {t : SigTree} {rest : List Lexeme}
      (hk : (look ls).kind = .word w) (ha : arguments fuel ls.tail = .ok (as, rest))
      (ht : Builds w as t) : TreeCall fuel ls t rest

theorem expect_eq_ok {k : LexemeKind} {what : Expectation} {ls rest : List Lexeme} :
    expect k what ls = .ok rest ↔ (look ls).kind = k ∧ rest = ls.tail := by
  rw [expect]
  split
  · next h => exact ⟨fun e => by cases e; exact ⟨h, rfl⟩, fun e => by rw [e.2]⟩
  · next h =>
      refine ⟨fun e => ?_, fun e => absurd e.1 h⟩
      rw [unexpected] at e
      split at e <;> exact nomatch e

theorem unexpected_ne_ok {α : Type} {what : Expectation} {ls : List Lexeme} {a : α} :
    unexpected what ls ≠ .ok a := by
  rw [unexpected]
  split <;> exact nofun

theorem ofName_eq_ok {b : Bytes} {t : Token} :
    Token.ofName b = .ok t ↔ ∃ n : TokenName, n.bytes = b ∧ t = .named n := by
  rw [Token.ofName]
  constructor
  · intro h
    cases hn : TokenName.ofBytes b with
    | error f => rw [hn] at h; exact nomatch h
    | ok n =>
        rw [hn] at h
        cases h
        exact ⟨n, TokenName.bytes_of_ofBytes hn, rfl⟩
  · rintro ⟨n, rfl, rfl⟩
    rw [TokenName.ofBytes_bytes]
    rfl

theorem literal_eq_ok {ls rest : List Lexeme} {t : SigTree} : literal ls = .ok (t, rest) ↔
    ∃ v, (look ls).kind = .open ∧ (look ls.tail).kind = .integer v ∧
      (look ls.tail.tail).kind = .close ∧ t = int32 v ∧ rest = ls.tail.tail.tail := by
  rw [literal, bind_eq_ok]
  constructor
  · rintro ⟨ms, h₁, h⟩
    obtain ⟨ho, rfl⟩ := expect_eq_ok.1 h₁
    split at h
    · next v hv =>
        obtain ⟨ns, h₂, h⟩ := bind_eq_ok.1 h
        obtain ⟨hc, rfl⟩ := expect_eq_ok.1 h₂
        cases h
        exact ⟨v, ho, hv, hc, rfl, rfl⟩
    · exact absurd h unexpected_ne_ok
  · rintro ⟨v, ho, hv, hc, rfl, rfl⟩
    refine ⟨ls.tail, expect_eq_ok.2 ⟨ho, rfl⟩, ?_⟩
    rw [hv]
    exact bind_eq_ok.2 ⟨_, expect_eq_ok.2 ⟨hc, rfl⟩, rfl⟩

theorem tree_eq_ok {fuel : Nat} {ls rest : List Lexeme} {t : SigTree} :
    tree (fuel + 1) ls = .ok (t, rest) ↔ TreeCall fuel ls t rest := by
  have nonneg : ∀ {i : Int32}, i < 0 ↔ ¬ 0 ≤ i.toInt := fun {i} => by
    rw [Int32.lt_iff_toInt_lt, Int32.toInt_zero]
    omega
  -- from a parse to its first lexeme, and back from each kind of first lexeme
  constructor
  · intro h
    rw [tree] at h
    split at h
    · next i hi =>
        split at h
        · exact absurd h unexpected_ne_ok
        · next hn =>
            rw [ofToken, if_neg hn] at h
            cases h
            exact .index hi (Decidable.not_not.1 (mt nonneg.2 hn))
    · next n hn =>
        split at h
        · next t ht =>
            obtain ⟨m, rfl, rfl⟩ := ofName_eq_ok.1 ht
            cases h
            exact .name hn
        · exact nomatch h
    · next w hw =>
        split at h
        · next e he =>
            obtain ⟨rfl, hl⟩ := wordClass_eq_leaf he
            cases h
            exact .leaf hw hl
        · next hl =>
            obtain ⟨v, ho, hv, hc, rfl, rfl⟩ := literal_eq_ok.1 h
            exact .int32 (eq_of_wordClass_literal hl ▸ hw) ho hv hc
        · next hn =>
            obtain ⟨⟨as, ms⟩, ha, h⟩ := bind_eq_ok.1 h
            obtain ⟨t', ht, h⟩ := bind_eq_ok.1 h
            cases h
            exact .node hw ha ((node_eq_ok hn).1 ht)
        · exact nomatch h
    · exact absurd h unexpected_ne_ok
  · intro h
    rw [tree]
    cases h with
    | index h hi =>
        rw [h]
        dsimp only
        rw [if_neg (mt nonneg.1 (not_not_intro hi)), ofToken, if_neg (mt nonneg.1 (not_not_intro hi))]
        rfl
    | name h =>
        rw [h]
        dsimp only
        rw [ofName_eq_ok.2 ⟨_, rfl, rfl⟩]
        rfl
    | leaf h he =>
        rw [h]
        dsimp only
        rw [wordClass_element, if_pos he]
    | int32 h ho hv hc =>
        rw [h]
        dsimp only
        rw [wordClass_literal]
        exact literal_eq_ok.2 ⟨_, ho, hv, hc, rfl, rfl⟩
    | node h ha ht =>
        rw [h]
        dsimp only
        rw [wordClass_of_builds ht]
        refine bind_eq_ok.2 ⟨_, ha, bind_eq_ok.2 ⟨_, ?_, rfl⟩⟩
        exact (node_eq_ok (wordClass_of_builds ht)).2 ht

theorem arguments_eq_ok {fuel : Nat} {ls rest : List Lexeme} {as : List SigTree} :
    arguments (fuel + 1) ls = .ok (as, rest) ↔ (look ls).kind = .open ∧
      ∃ ms, items fuel ls.tail = .ok (as, ms) ∧ (look ms).kind = .close ∧ rest = ms.tail := by
  rw [arguments, bind_eq_ok]
  constructor
  · rintro ⟨ms, h₁, h⟩
    obtain ⟨ho, rfl⟩ := expect_eq_ok.1 h₁
    obtain ⟨⟨bs, ns⟩, hi, h⟩ := bind_eq_ok.1 h
    obtain ⟨os, hc, h⟩ := bind_eq_ok.1 h
    cases h
    exact ⟨ho, ns, hi, expect_eq_ok.1 hc⟩
  · rintro ⟨ho, ms, hi, hc⟩
    exact ⟨_, expect_eq_ok.2 ⟨ho, rfl⟩,
      bind_eq_ok.2 ⟨_, hi, bind_eq_ok.2 ⟨_, expect_eq_ok.2 hc, rfl⟩⟩⟩

theorem items_eq_ok {fuel : Nat} {ls rest : List Lexeme} {as : List SigTree} :
    items (fuel + 1) ls = .ok (as, rest) ↔ ∃ a ms, tree fuel ls = .ok (a, ms) ∧
      ((look ms).kind ≠ .comma ∧ as = [a] ∧ rest = ms ∨
        (look ms).kind = .comma ∧ ∃ bs, items fuel ms.tail = .ok (bs, rest) ∧ as = a :: bs) := by
  rw [items, bind_eq_ok]
  constructor
  · rintro ⟨⟨a, ms⟩, ha, h⟩
    dsimp only at h
    split at h
    · next hc =>
        obtain ⟨⟨bs, ns⟩, hi, h⟩ := bind_eq_ok.1 h
        cases h
        exact ⟨a, ms, ha, .inr ⟨hc, bs, hi, rfl⟩⟩
    · next hc => cases h; exact ⟨a, _, ha, .inl ⟨hc, rfl, rfl⟩⟩
  · rintro ⟨a, ms, ha, ⟨hc, rfl, rfl⟩ | ⟨hc, bs, hi, rfl⟩⟩
    · exact ⟨_, ha, if_neg hc⟩
    · exact ⟨_, ha, (if_pos hc).trans (bind_eq_ok.2 ⟨_, hi, rfl⟩)⟩

/-! ### What is taken off the front -/

theorem length_tail_lt {ls : List Lexeme} {k : LexemeKind} (h : (look ls).kind = k)
    (hk : k ≠ .endOfInput) : ls.tail.length < ls.length := by
  cases ls with
  | nil => exact absurd h.symm hk
  | cons l ls => exact Nat.lt_succ_self _

mutual

/-- Every tree takes a lexeme. -/
theorem tree_length : ∀ {fuel : Nat} {ls rest : List Lexeme} {t : SigTree},
    tree fuel ls = .ok (t, rest) → rest.length < ls.length
  | 0,        _,  _, _, h => nomatch h
  | fuel + 1, ls, _, _, h => by
      cases tree_eq_ok.1 h with
      | index hk => exact length_tail_lt hk nofun
      | name hk => exact length_tail_lt hk nofun
      | leaf hk => exact length_tail_lt hk nofun
      | int32 hk =>
          have := length_tail_lt hk nofun
          simp only [List.length_tail] at *
          omega
      | node hk ha => exact Nat.lt_trans (arguments_length ha) (length_tail_lt hk nofun)

theorem arguments_length : ∀ {fuel : Nat} {ls rest : List Lexeme} {as : List SigTree},
    arguments fuel ls = .ok (as, rest) → rest.length < ls.length
  | 0,        _,  _, _, h => nomatch h
  | fuel + 1, ls, _, _, h => by
      obtain ⟨ho, ms, hi, hc, rfl⟩ := arguments_eq_ok.1 h
      have h₁ := length_tail_lt ho nofun
      have h₂ := items_length hi
      have h₃ := length_tail_lt hc nofun
      omega

theorem items_length : ∀ {fuel : Nat} {ls rest : List Lexeme} {as : List SigTree},
    items fuel ls = .ok (as, rest) → rest.length < ls.length
  | 0,        _,  _, _, h => nomatch h
  | fuel + 1, ls, _, _, h => by
      obtain ⟨a, ms, ha, ⟨-, -, rfl⟩ | ⟨hc, bs, hi, -⟩⟩ := items_eq_ok.1 h
      · exact tree_length ha
      · have h₁ := tree_length ha
        have h₂ := length_tail_lt hc nofun
        have h₃ := items_length hi
        omega

end

/-! ### Soundness -/

theorem eq_of_spelling_word {w u : Bytes} (h : LexemeKind.Spelling (.word w) u) : u = w := by
  cases h; rfl

/-- A lexeme in front that does not end the list is spelled there. -/
theorem spelling_of_look {start : Nat} {s : Bytes} {k : LexemeKind}
    (h : (look (lexemesFrom start s)).kind = k) (hk : Lexeme.isLast k = false) :
    ∃ u r, s = u ++ r ∧ k.Spelling u ∧
      (lexemesFrom start s).tail = lexemesFrom (start + u.length) r := by
  obtain ⟨l, u, r, rfl, hu, -, e⟩ | ⟨l, stop, e, hl⟩ := lexemesFrom_cases start s
  · rw [e] at h ⊢
    cases h
    exact ⟨u, r, rfl, hu, rfl⟩
  · rw [e] at h
    cases h
    obtain ⟨rfl, -⟩ | ⟨f, rfl⟩ := hl
    · exact nomatch hk
    · exact nomatch hk

theorem atEnd_of_look {start : Nat} {s : Bytes}
    (h : (look (lexemesFrom start s)).kind = .endOfInput) : Lexeme.atEnd s = true := by
  obtain ⟨l, u, r, rfl, hu, -, e⟩ | ⟨l, stop, e, hl⟩ := lexemesFrom_cases start s
  · rw [e] at h
    cases h
    exact nomatch hu
  · rw [e] at h
    cases h
    obtain ⟨-, hs⟩ | ⟨f, hf⟩ := hl
    · exact hs
    · exact nomatch hf

mutual

/-- What is taken off the front spells the tree that is read. -/
theorem tree_sound : ∀ {fuel start : Nat} {s : Bytes} {rest : List Lexeme} {t : SigTree},
    tree fuel (lexemesFrom start s) = .ok (t, rest) →
      ∃ u r, s = u ++ r ∧ Spells u t ∧ rest = lexemesFrom (start + u.length) r
  | 0,        _,     _, _, _, h => nomatch h
  | fuel + 1, start, s, _, _, h => by
      cases tree_eq_ok.1 h with
      | index hk hi =>
          obtain ⟨u, r, rfl, hu, e⟩ := spelling_of_look hk rfl
          cases hu with
          | integer hn => exact ⟨u, r, rfl, .index hn hi, e⟩
      | @name n hk =>
          obtain ⟨_, r, rfl, ⟨⟩, e⟩ := spelling_of_look hk rfl
          exact ⟨_, r, rfl, .name n, e⟩
      | leaf hk he =>
          obtain ⟨_, r, rfl, hu, e⟩ := spelling_of_look hk rfl
          cases eq_of_spelling_word hu
          exact ⟨_, r, rfl, .leaf he, e⟩
      | @int32 v hk ho hv hc =>
          obtain ⟨_, r₁, rfl, hu, e₁⟩ := spelling_of_look hk rfl
          cases eq_of_spelling_word hu
          rw [e₁] at ho hv hc ⊢
          obtain ⟨_, r₂, rfl, ⟨⟩, e₂⟩ := spelling_of_look ho rfl
          rw [e₂] at hv hc ⊢
          obtain ⟨u, r₃, rfl, hu, e₃⟩ := spelling_of_look hv rfl
          rw [e₃] at hc ⊢
          obtain ⟨_, r₄, rfl, ⟨⟩, e₄⟩ := spelling_of_look hc rfl
          cases hu with
          | integer hn =>
              refine ⟨_, r₄, ?_, .int32 hn, e₄.trans ?_⟩
              · simp
              · congr 1
                simp only [List.length_append, List.length_cons, List.length_nil]
                omega
      | @node w as t rest hk ha ht =>
          obtain ⟨_, r₁, rfl, hu, e₁⟩ := spelling_of_look hk rfl
          cases eq_of_spelling_word hu
          rw [e₁] at ha
          obtain ⟨u, r, rfl, hs, e⟩ := arguments_sound ha
          refine ⟨_, r, ?_, .node ht hs, e.trans ?_⟩
          · simp
          · simp [Nat.add_assoc]

theorem arguments_sound : ∀ {fuel start : Nat} {s : Bytes} {rest : List Lexeme} {as : List SigTree},
    arguments fuel (lexemesFrom start s) = .ok (as, rest) →
      ∃ u r, s = octet '(' :: (u ++ octet ')' :: r) ∧ SpellsAll u as ∧
        rest = lexemesFrom (start + (u.length + 2)) r
  | 0,        _,     _, _, _, h => nomatch h
  | fuel + 1, start, s, _, _, h => by
      obtain ⟨ho, ms, hi, hc, rfl⟩ := arguments_eq_ok.1 h
      obtain ⟨_, r₁, rfl, ⟨⟩, e₁⟩ := spelling_of_look ho rfl
      rw [e₁] at hi
      obtain ⟨u, r₂, rfl, hs, rfl⟩ := items_sound hi
      obtain ⟨_, r, rfl, ⟨⟩, e⟩ := spelling_of_look hc rfl
      refine ⟨u, r, rfl, hs, e.trans ?_⟩
      congr 1
      simp only [List.length_singleton]
      omega

theorem items_sound : ∀ {fuel start : Nat} {s : Bytes} {rest : List Lexeme} {as : List SigTree},
    items fuel (lexemesFrom start s) = .ok (as, rest) →
      ∃ u r, s = u ++ r ∧ SpellsAll u as ∧ rest = lexemesFrom (start + u.length) r
  | 0,        _,     _, _, _, h => nomatch h
  | fuel + 1, start, s, _, _, h => by
      obtain ⟨a, ms, ha, ⟨-, rfl, rfl⟩ | ⟨hc, bs, hi, rfl⟩⟩ := items_eq_ok.1 h
      · obtain ⟨u, r, rfl, hs, rfl⟩ := tree_sound ha
        exact ⟨u, r, rfl, .one hs, rfl⟩
      · obtain ⟨u, r₁, rfl, hs, rfl⟩ := tree_sound ha
        obtain ⟨_, r₂, rfl, ⟨⟩, e₂⟩ := spelling_of_look hc rfl
        rw [e₂] at hi
        obtain ⟨v, r, rfl, hv, rfl⟩ := items_sound hi
        refine ⟨u ++ octet ',' :: v, r, by simp, .cons hs hv, ?_⟩
        congr 1
        simp only [List.length_append, List.length_cons, List.length_nil]
        omega

end

/-! ### Completeness -/

theorem ends_of_head {k : LexemeKind} {r : Bytes} (hr : ∀ b ∈ r.head?, isWordOctet b = false) :
    k.Ends r := by
  cases k with
  | word w => exact hr
  | integer v => exact fun b hb => (Bool.or_eq_false_iff.1 (hr b hb)).2
  | _ => trivial

theorem lexemesFrom_open (start : Nat) (r : Bytes) : lexemesFrom start (octet '(' :: r) =
    ⟨.open, start, start + 1⟩ :: lexemesFrom (start + 1) r :=
  lexemesFrom_append start .open trivial

theorem lexemesFrom_close (start : Nat) (r : Bytes) : lexemesFrom start (octet ')' :: r) =
    ⟨.close, start, start + 1⟩ :: lexemesFrom (start + 1) r :=
  lexemesFrom_append start .close trivial

theorem lexemesFrom_comma (start : Nat) (r : Bytes) : lexemesFrom start (octet ',' :: r) =
    ⟨.comma, start, start + 1⟩ :: lexemesFrom (start + 1) r :=
  lexemesFrom_append start .comma trivial

/-- A word is followed by an opening parenthesis where it takes arguments. -/
theorem lexemesFrom_word (start : Nat) {w : Bytes} (hw : isWord w = true) (r : Bytes) :
    lexemesFrom start (w ++ octet '(' :: r) = ⟨.word w, start, start + w.length⟩ ::
      ⟨.open, start + w.length, start + w.length + 1⟩ :: lexemesFrom (start + w.length + 1) r := by
  have hr : ∀ b ∈ (octet '(' :: r).head?, isWordOctet b = false := by rintro _ ⟨⟩; rfl
  rw [lexemesFrom_append start (spelling_of_isWord hw) (ends_of_head hr), lexemesFrom_open]

theorem parenthesized_append (w u r : Bytes) : w ++ octet '(' :: (u ++ [octet ')']) ++ r =
    w ++ octet '(' :: (u ++ octet ')' :: r) := by
  simp

theorem add_length_parenthesized (start : Nat) (w u : Bytes) :
    start + (w ++ octet '(' :: (u ++ [octet ')'])).length =
      start + w.length + 1 + u.length + 1 := by
  simp only [List.length_append, List.length_cons, List.length_nil]
  omega

mutual

/-- A tree is found where it is spelled, if no word or number runs on behind it. -/
theorem tree_complete : ∀ {u : Bytes} {t : SigTree}, Spells u t → ∀ {fuel start : Nat} {r : Bytes},
    (∀ b ∈ r.head?, isWordOctet b = false) →
    2 * (lexemesFrom start (u ++ r)).length + 1 ≤ fuel →
      tree fuel (lexemesFrom start (u ++ r)) = .ok (t, lexemesFrom (start + u.length) r)
  | _, _, .index h hi, fuel + 1, start, r, hr, _ => by
      rw [lexemesFrom_append start (.integer h) (ends_of_head hr)]
      exact tree_eq_ok.2 (.index rfl hi)
  | _, _, .name n, fuel + 1, start, r, hr, _ => by
      have hn : octet '\'' ∉ n.bytes := fun h => n.not_reserved _ h (by decide)
      rw [lexemesFrom_append start (.name hn) trivial]
      exact tree_eq_ok.2 (.name rfl)
  | _, _, .leaf he, fuel + 1, start, r, hr, _ => by
      rw [lexemesFrom_append start (spelling_of_isWord (isWord_element _)) (ends_of_head hr)]
      exact tree_eq_ok.2 (.leaf rfl he)
  | _, _, @Spells.int32 u v h, fuel + 1, start, r, hr, _ => by
      have hc : ∀ b ∈ (octet ')' :: r).head?, isWordOctet b = false := by rintro _ ⟨⟩; rfl
      rw [parenthesized_append, add_length_parenthesized,
        lexemesFrom_word start (isWord_nodeKind .int32),
        lexemesFrom_append _ (.integer h) (ends_of_head hc), lexemesFrom_close]
      exact tree_eq_ok.2 (.int32 rfl rfl rfl rfl)
  | _, _, @Spells.node w u as t ht ha, fuel + 1, start, r, hr, hf => by
      rw [parenthesized_append] at hf ⊢
      rw [lexemesFrom_word start ht.isWord] at hf ⊢
      simp only [List.length_cons] at hf
      rw [add_length_parenthesized]
      obtain ⟨fuel, rfl⟩ : ∃ n, fuel = n + 1 := ⟨fuel - 1, by omega⟩
      refine tree_eq_ok.2 (.node rfl (arguments_eq_ok.2 ⟨rfl, _, items_complete ha ?_, ?_, ?_⟩) ht)
      · omega
      · rw [lexemesFrom_close]; rfl
      · rw [lexemesFrom_close, List.tail_cons]

/-- Trees are found where they are spelled, up to the closing parenthesis. -/
theorem items_complete : ∀ {u : Bytes} {as : List SigTree}, SpellsAll u as →
    ∀ {fuel start : Nat} {r : Bytes},
    2 * (lexemesFrom start (u ++ octet ')' :: r)).length + 2 ≤ fuel →
      items fuel (lexemesFrom start (u ++ octet ')' :: r)) =
        .ok (as, lexemesFrom (start + u.length) (octet ')' :: r))
  | _, _, .one ha, fuel + 1, start, r, hf => by
      have hc : ∀ b ∈ (octet ')' :: r).head?, isWordOctet b = false := by rintro _ ⟨⟩; rfl
      refine items_eq_ok.2 ⟨_, _, tree_complete ha hc (by omega), .inl ⟨?_, rfl, rfl⟩⟩
      rw [lexemesFrom_close]
      exact nofun
  | _, _, @SpellsAll.cons u v a as ha has, fuel + 1, start, r, hf => by
      have hc : ∀ b ∈ (octet ',' :: (v ++ octet ')' :: r)).head?, isWordOctet b = false := by
        rintro _ ⟨⟩; rfl
      have e : u ++ octet ',' :: v ++ octet ')' :: r = u ++ octet ',' :: (v ++ octet ')' :: r) := by simp
      rw [e] at hf ⊢
      have ht := @tree_complete u a ha fuel start _ hc (by omega)
      -- the comma and the tree in front of it leave fuel for the trees behind
      have hl := tree_length ht
      rw [lexemesFrom_comma, List.length_cons] at hl
      have hi := @items_complete v as has fuel (start + u.length + 1) r (by omega)
      refine items_eq_ok.2 ⟨_, _, ht, .inr ⟨?_, as, ?_, rfl⟩⟩
      · rw [lexemesFrom_comma]; rfl
      · rw [lexemesFrom_comma, List.tail_cons, hi]
        congr 3
        simp only [List.length_append, List.length_cons]
        omega

end

/-! ### Failure -/

/-- A fault of the text itself. -/
def IsInvalid (e : Failure ParseFault) : Prop := ∃ f, e = .fault f ∧ Fault.kind f = .invalidData

theorem unexpected_invalid {α : Type} {what : Expectation} {ls : List Lexeme}
    {e : Failure ParseFault} (h : (unexpected what ls : ParseM α) = .error e) : IsInvalid e := by
  rw [unexpected] at h
  split at h
  · cases h; exact ⟨_, rfl, rfl⟩
  · cases h; exact ⟨_, rfl, rfl⟩

theorem expect_invalid {k : LexemeKind} {what : Expectation} {ls : List Lexeme}
    {e : Failure ParseFault} (h : expect k what ls = .error e) : IsInvalid e := by
  rw [expect] at h
  split at h
  · exact nomatch h
  · exact unexpected_invalid h

theorem literal_invalid {ls : List Lexeme} {e : Failure ParseFault} (h : literal ls = .error e) :
    IsInvalid e := by
  rw [literal] at h
  obtain h | ⟨ms, -, h⟩ := bind_eq_error.1 h
  · exact expect_invalid h
  split at h
  · obtain h | ⟨ns, -, h⟩ := bind_eq_error.1 h
    · exact expect_invalid h
    · exact nomatch h
  · exact unexpected_invalid h

theorem node_invalid {w : Bytes} {as : List SigTree} {offset : Nat} {e : Failure ParseFault}
    (h : node w as offset = .error e) : IsInvalid e := by
  unfold node at h
  split at h
  · split at h <;> cases h
    exact ⟨_, rfl, rfl⟩
  split at h
  · split at h <;> cases h
    exact ⟨_, rfl, rfl⟩
  split at h
  · split at h <;> cases h
    exact ⟨_, rfl, rfl⟩
  · split at h <;> cases h
    exact ⟨_, rfl, rfl⟩

mutual

/-- With a call's worth of fuel for each lexeme, reading a tree fails only for a fault of the text. -/
theorem tree_invalid : ∀ {fuel : Nat} {ls : List Lexeme} {e : Failure ParseFault},
    2 * ls.length + 1 ≤ fuel → tree fuel ls = .error e → IsInvalid e
  | fuel + 1, ls, e, hf, h => by
      rw [tree] at h
      split at h
      · next hk =>
          split at h
          · exact unexpected_invalid h
          · next hn =>
              rw [ofToken, if_neg hn] at h
              exact nomatch h
      · split at h
        · next ht =>
            obtain ⟨n, -, rfl⟩ := ofName_eq_ok.1 ht
            exact nomatch h
        · cases h; exact ⟨_, rfl, rfl⟩
      · next w hk =>
          split at h
          · exact nomatch h
          · exact literal_invalid h
          · have hl := length_tail_lt hk nofun
            obtain h | ⟨_, -, h⟩ := bind_eq_error.1 h
            · exact arguments_invalid (by omega) h
            · obtain h | ⟨_, -, h⟩ := bind_eq_error.1 h
              · exact node_invalid h
              · exact nomatch h
          · cases h; exact ⟨_, rfl, rfl⟩
      · exact unexpected_invalid h

theorem arguments_invalid : ∀ {fuel : Nat} {ls : List Lexeme} {e : Failure ParseFault},
    2 * ls.length + 2 ≤ fuel → arguments fuel ls = .error e → IsInvalid e
  | fuel + 1, ls, e, hf, h => by
      rw [arguments] at h
      obtain h | ⟨ms, h₁, h⟩ := bind_eq_error.1 h
      · exact expect_invalid h
      obtain ⟨ho, rfl⟩ := expect_eq_ok.1 h₁
      have hl := length_tail_lt ho nofun
      obtain h | ⟨_, -, h⟩ := bind_eq_error.1 h
      · exact items_invalid (by omega) h
      obtain h | ⟨_, -, h⟩ := bind_eq_error.1 h
      · exact expect_invalid h
      · exact nomatch h

theorem items_invalid : ∀ {fuel : Nat} {ls : List Lexeme} {e : Failure ParseFault},
    2 * ls.length + 2 ≤ fuel → items fuel ls = .error e → IsInvalid e
  | fuel + 1, ls, e, hf, h => by
      rw [items] at h
      obtain h | ⟨⟨a, ms⟩, ha, h⟩ := bind_eq_error.1 h
      · exact tree_invalid (by omega) h
      have h₁ := tree_length ha
      dsimp only at h
      split at h
      · next hc =>
          have h₂ := length_tail_lt hc nofun
          obtain h | ⟨_, -, h⟩ := bind_eq_error.1 h
          · exact items_invalid (by omega) h
          · exact nomatch h
      · exact nomatch h

end

end Parse

/-! ### Texts -/

theorem parse_eq_ok {s : Bytes} {t : SigTree} : parse s = .ok t ↔ s ≠ [] ∧
    ∃ rest, Parse.tree (2 * (lexemesFrom 0 s).length + 1) (lexemesFrom 0 s) = .ok (t, rest) ∧
      (Parse.look rest).kind = .endOfInput := by
  rw [parse]
  split
  · next h =>
      exact ⟨nofun, fun ⟨hs, _⟩ => absurd (List.isEmpty_iff.1 h) hs⟩
  · next h =>
      have hs : s ≠ [] := mt List.isEmpty_iff.2 h
      rw [bind_eq_ok]
      constructor
      · rintro ⟨⟨t', rest⟩, ht, h⟩
        dsimp only at h
        split at h
        · next he => cases h; exact ⟨hs, rest, ht, he⟩
        · exact absurd h Parse.unexpected_ne_ok
      · rintro ⟨-, rest, ht, he⟩
        exact ⟨_, ht, if_pos he⟩

theorem Spells.ne_nil {u : Bytes} {t : SigTree} (h : Spells u t) : u ≠ [] := by
  cases h with
  | index hn =>
      obtain ⟨b, r, rfl, -⟩ := hn.head
      exact List.cons_ne_nil b r
  | name n => exact List.cons_ne_nil _ _
  | @leaf e => exact (spelling_of_isWord (isWord_element e)).ne_nil
  | int32 => simp
  | node => simp

/-- A spelled tree is read back, behind it nothing or a zero octet. -/
theorem Spells.parse {u r : Bytes} {t : SigTree} (h : Spells u t) (hr : r = [] ∨ r = [0]) :
    parse (u ++ r) = .ok t := by
  have hend : Lexeme.atEnd r = true := Lexeme.atEnd_iff.2 hr
  have hhead : ∀ b ∈ r.head?, isWordOctet b = false := by
    obtain rfl | rfl := hr
    · exact nofun
    · rintro _ ⟨⟩; rfl
  refine parse_eq_ok.2 ⟨?_, _, Parse.tree_complete h hhead (Nat.le_refl _), ?_⟩
  · intro he
    exact h.ne_nil (List.append_eq_nil_iff.1 he).1
  · rw [lexemesFrom_atEnd _ hend]
    rfl

/-- A text is read as a tree exactly if it spells the tree, perhaps with a zero octet behind it. -/
theorem parse_eq_ok_iff_spells {s : Bytes} {t : SigTree} :
    parse s = .ok t ↔ Spells s t ∨ ∃ u, s = u ++ [0] ∧ Spells u t := by
  constructor
  · intro h
    obtain ⟨-, rest, ht, he⟩ := parse_eq_ok.1 h
    obtain ⟨u, r, rfl, hu, rfl⟩ := Parse.tree_sound ht
    obtain rfl | rfl := Lexeme.atEnd_iff.1 (Parse.atEnd_of_look he)
    · rw [List.append_nil]; exact .inl hu
    · exact .inr ⟨u, rfl, hu⟩
  · rintro (h | ⟨u, rfl, h⟩)
    · simpa using h.parse (.inl rfl)
    · exact h.parse (.inr rfl)

/-- A text that is not empty is refused only as malformed. -/
theorem parse_invalid {s : Bytes} {e : Failure ParseFault} (hs : s ≠ []) (h : parse s = .error e) :
    Parse.IsInvalid e := by
  rw [parse, if_neg (mt List.isEmpty_iff.1 hs)] at h
  obtain h | ⟨⟨t, rest⟩, -, h⟩ := bind_eq_error.1 h
  · exact Parse.tree_invalid (Nat.le_refl _) h
  dsimp only at h
  split at h
  · exact nomatch h
  · exact Parse.unexpected_invalid h

/-- Every text that is not empty is read as the tree it spells, or refused as malformed if it spells none. -/
theorem parse_accepts_grammar (s : Bytes) (hs : s ≠ []) :
    (∀ t, parse s = .ok t ↔ Spells s t ∨ ∃ u, s = u ++ [0] ∧ Spells u t) ∧
      ((∀ t, ¬ (Spells s t ∨ ∃ u, s = u ++ [0] ∧ Spells u t)) →
        ∃ f, parse s = .error (.fault f) ∧ Fault.kind f = .invalidData) := by
  refine ⟨fun t => parse_eq_ok_iff_spells, fun hno => ?_⟩
  cases h : parse s with
  | ok t => exact absurd (parse_eq_ok_iff_spells.1 h) (hno t)
  | error e =>
      obtain ⟨f, rfl, hf⟩ := parse_invalid hs h
      exact ⟨f, rfl, hf⟩

theorem parse_accepts_grammar_ptr : utf8 "Ptr(I4)" ≠ [] ∧
    parse "Ptr(I4)" = .ok (ofElement .ptr [ofElement .i4]) := by
  refine ⟨by decide, ((parse_accepts_grammar "Ptr(I4)" (by decide)).1 _).2 (.inl ?_)⟩
  have i4 : Spells (utf8 "I4") (ofElement .i4) := Spells.leaf (e := .i4) rfl
  have ptr : Builds (utf8 "Ptr") [ofElement .i4] (ofElement .ptr [ofElement .i4]) :=
    Builds.element (e := .ptr) rfl (.cons (.node _) .nil)
  exact .node ptr (.one i4)

end SigTree

end CilCatalog
