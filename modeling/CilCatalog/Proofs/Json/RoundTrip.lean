import CilCatalog.Json.Parse
import CilCatalog.Proofs.Json.Lexeme
import CilCatalog.Proofs.Outcome

/-!
# Reading written JSON

A value whose objects name their members differently and that nests no deeper than the reader allows is read back from its text, with line breaks or without (`parse_text`).  The induction is on the value.  What stands behind it in the text is arbitrary but for its first octet, which must not run on behind a number or a word, and for elements and members also but for its first lexeme, which must not be a comma.
-/

namespace CilCatalog

namespace Json

/-! ### Blanks -/

theorem isSpace_newline (indent : Option Nat) : ∀ b ∈ newline indent, Bytes.isSpace b = true := by
  intro b hb
  cases indent with
  | none => exact nomatch hb
  | some n =>
      rcases List.mem_cons.1 hb with rfl | hb
      · rfl
      · rw [(List.mem_replicate.1 hb).2]; rfl

/-- The blanks behind the colon of a member. -/
def gap (indent : Option Nat) : Bytes := if indent.isSome then [0x20] else []

theorem colon_append (indent : Option Nat) (r : Bytes) :
    colon indent ++ r = [octet ':'] ++ (gap indent ++ r) := by
  cases indent <;> rfl

theorem isSpace_gap (indent : Option Nat) : ∀ b ∈ gap indent, Bytes.isSpace b = true := by
  intro b hb
  cases indent with
  | none => exact nomatch hb
  | some n => rw [List.mem_singleton.1 hb]; rfl

theorem runsOn_newline {indent : Option Nat} {b : UInt8} {r : Bytes} (h : runsOn b = false) :
    ∀ c ∈ (newline indent ++ b :: r).head?, runsOn c = false := by
  cases indent with
  | none => rintro _ ⟨⟩; exact h
  | some n => rintro _ ⟨⟩; rfl

/-- What follows a line break is what is looked at. -/
theorem look_newline {indent : Option Nat} {k : LexemeKind} {u r : Bytes} (start : Nat)
    (h : k.Written u) (hr : EndsBefore k r) :
    (Parse.look (lexemesFrom start (newline indent ++ (u ++ r)))).kind = k := by
  rw [lexemesFrom_blanks (isSpace_newline indent), lexemesFrom_append _ h hr]
  rfl

/-! ### Parts of a text -/

theorem emit_array (indent : Option Nat) (e : Json) (es : List Json) (r : Bytes) :
    emit indent (array (e :: es)) ++ r = octet '[' :: (newline (deeper indent) ++
      (emit (deeper indent) e ++ (emitElements (deeper indent) es ++
        (newline indent ++ ([octet ']'] ++ r))))) := by
  simp [emit]

theorem emit_object (indent : Option Nat) (k : Bytes) (v : Json) (ms : List (Bytes × Json))
    (r : Bytes) :
    emit indent (object ((k, v) :: ms)) ++ r = octet '\x7b' :: (newline (deeper indent) ++
      (quote k ++ (colon (deeper indent) ++ (emit (deeper indent) v ++
        (emitMembers (deeper indent) ms ++ (newline indent ++ ([octet '\x7d'] ++ r))))))) := by
  simp [emit]

theorem emitElements_cons (indent : Option Nat) (e : Json) (es : List Json) (r : Bytes) :
    emitElements indent (e :: es) ++ r =
      [octet ','] ++ (newline indent ++ (emit indent e ++ (emitElements indent es ++ r))) := by
  simp [emitElements]

theorem emitMembers_cons (indent : Option Nat) (k : Bytes) (v : Json) (ms : List (Bytes × Json))
    (r : Bytes) :
    emitMembers indent ((k, v) :: ms) ++ r = [octet ','] ++ (newline indent ++
      (quote k ++ (colon indent ++ (emit indent v ++ (emitMembers indent ms ++ r))))) := by
  simp [emitMembers]

/-! ### One call -/

namespace Parse

theorem expect_of_look {k : LexemeKind} {what : Expectation} {ls : List Lexeme}
    (h : (look ls).kind = k) : expect k what ls = .ok ls.tail := by
  rw [expect, if_pos h]

theorem unexpected_ne_ok {α : Type} {what : Expectation} {ls : List Lexeme} {a : α} :
    unexpected what ls ≠ .ok a := by
  rw [unexpected]
  split <;> exact nofun

/-- What a unit of fuel pays for. -/
theorem value_succ (fuel depth : Nat) (ls : List Lexeme) : value (fuel + 1) depth ls =
    match (look ls).kind with
    | .true        => .ok (bool true, ls.tail)
    | .false       => .ok (bool false, ls.tail)
    | .null        => .ok (null, ls.tail)
    | .integer i   => .ok (int i, ls.tail)
    | .string s    => .ok (string s, ls.tail)
    | .openBracket =>
        if maxDepth < depth + 1 then fail (.tooDeep (look ls).stop)
        else if (look ls.tail).kind = .closeBracket then .ok (array [], ls.tail.tail)
        else do
          let (es, ls) ← elements fuel (depth + 1) ls.tail
          let ls ← expect .closeBracket .commaOrBracket ls
          return (array es, ls)
    | .openBrace   =>
        if maxDepth < depth + 1 then fail (.tooDeep (look ls).stop)
        else if (look ls.tail).kind = .closeBrace then .ok (object [], ls.tail.tail)
        else do
          let (ms, ls) ← members fuel (depth + 1) [] ls.tail
          let ls ← expect .closeBrace .commaOrBrace ls
          return (object ms, ls)
    | _ => unexpected .value ls := rfl

/-- No value begins with a bracket that closes. -/
theorem elements_look {fuel depth : Nat} {ls rest : List Lexeme} {es : List Json}
    (h : elements fuel depth ls = .ok (es, rest)) : (look ls).kind ≠ .closeBracket := by
  intro hk
  rcases fuel with _ | _ | fuel
  · exact nomatch h
  · exact nomatch h
  · rw [elements] at h
    obtain ⟨_, hv, -⟩ := bind_eq_ok.1 h
    rw [value_succ, hk] at hv
    exact unexpected_ne_ok hv

theorem members_look {fuel depth : Nat} {seen : List Bytes} {ls rest : List Lexeme}
    {ms : List (Bytes × Json)} (h : members fuel depth seen ls = .ok (ms, rest)) :
    (look ls).kind ≠ .closeBrace := by
  intro hk
  cases fuel with
  | zero => exact nomatch h
  | succ fuel =>
      rw [members, hk] at h
      exact unexpected_ne_ok h

/-- A list in brackets: its elements are read, and then the bracket. -/
theorem value_array {fuel depth : Nat} {l l' : Lexeme} {ls rest : List Lexeme} {es : List Json}
    (ho : l.kind = .openBracket) (hd : depth + 1 ≤ maxDepth)
    (he : elements fuel (depth + 1) ls = .ok (es, l' :: rest)) (hc : l'.kind = .closeBracket) :
    value (fuel + 1) depth (l :: ls) = .ok (array es, rest) := by
  have ho : (look (l :: ls)).kind = .openBracket := ho
  rw [value_succ, ho]
  dsimp only
  rw [if_neg (Nat.not_lt.2 hd), List.tail_cons, if_neg (elements_look he)]
  exact bind_eq_ok.2 ⟨_, he, bind_eq_ok.2 ⟨_, expect_of_look hc, rfl⟩⟩

theorem value_array_nil {fuel depth : Nat} {ls : List Lexeme}
    (ho : (look ls).kind = .openBracket) (hd : depth + 1 ≤ maxDepth)
    (hc : (look ls.tail).kind = .closeBracket) :
    value (fuel + 1) depth ls = .ok (array [], ls.tail.tail) := by
  rw [value_succ, ho]
  dsimp only
  rw [if_neg (Nat.not_lt.2 hd), if_pos hc]

/-- An object in braces: its members are read, and then the brace. -/
theorem value_object {fuel depth : Nat} {l l' : Lexeme} {ls rest : List Lexeme}
    {ms : List (Bytes × Json)} (ho : l.kind = .openBrace) (hd : depth + 1 ≤ maxDepth)
    (hm : members fuel (depth + 1) [] ls = .ok (ms, l' :: rest)) (hc : l'.kind = .closeBrace) :
    value (fuel + 1) depth (l :: ls) = .ok (object ms, rest) := by
  have ho : (look (l :: ls)).kind = .openBrace := ho
  rw [value_succ, ho]
  dsimp only
  rw [if_neg (Nat.not_lt.2 hd), List.tail_cons, if_neg (members_look hm)]
  exact bind_eq_ok.2 ⟨_, hm, bind_eq_ok.2 ⟨_, expect_of_look hc, rfl⟩⟩

theorem value_object_nil {fuel depth : Nat} {ls : List Lexeme}
    (ho : (look ls).kind = .openBrace) (hd : depth + 1 ≤ maxDepth)
    (hc : (look ls.tail).kind = .closeBrace) :
    value (fuel + 1) depth ls = .ok (object [], ls.tail.tail) := by
  rw [value_succ, ho]
  dsimp only
  rw [if_neg (Nat.not_lt.2 hd), if_pos hc]

theorem elements_last {fuel depth : Nat} {ls rest : List Lexeme} {e : Json}
    (he : value fuel depth ls = .ok (e, rest)) (hc : (look rest).kind ≠ .comma) :
    elements (fuel + 1) depth ls = .ok ([e], rest) := by
  rw [elements]
  exact bind_eq_ok.2 ⟨_, he, if_neg hc⟩

theorem elements_cons {fuel depth : Nat} {ls ms rest : List Lexeme} {e : Json} {es : List Json}
    (he : value fuel depth ls = .ok (e, ms)) (hc : (look ms).kind = .comma)
    (hes : elements fuel depth ms.tail = .ok (es, rest)) :
    elements (fuel + 1) depth ls = .ok (e :: es, rest) := by
  rw [elements]
  exact bind_eq_ok.2 ⟨_, he, (if_pos hc).trans (bind_eq_ok.2 ⟨_, hes, rfl⟩)⟩

theorem members_last {fuel depth : Nat} {seen : List Bytes} {ls rest : List Lexeme} {k : Bytes}
    {v : Json} (hk : (look ls).kind = .string k) (hs : k ∉ seen)
    (hcolon : (look ls.tail).kind = .colon)
    (hv : value fuel depth ls.tail.tail = .ok (v, rest)) (hc : (look rest).kind ≠ .comma) :
    members (fuel + 1) depth seen ls = .ok ([(k, v)], rest) := by
  rw [members, hk]
  dsimp only
  rw [if_neg hs]
  exact bind_eq_ok.2 ⟨_, expect_of_look hcolon, bind_eq_ok.2 ⟨_, hv, if_neg hc⟩⟩

theorem members_cons {fuel depth : Nat} {seen : List Bytes} {ls ns rest : List Lexeme} {k : Bytes}
    {v : Json} {ms : List (Bytes × Json)} (hk : (look ls).kind = .string k) (hs : k ∉ seen)
    (hcolon : (look ls.tail).kind = .colon)
    (hv : value fuel depth ls.tail.tail = .ok (v, ns)) (hc : (look ns).kind = .comma)
    (hms : members fuel depth (k :: seen) ns.tail = .ok (ms, rest)) :
    members (fuel + 1) depth seen ls = .ok ((k, v) :: ms, rest) := by
  rw [members, hk]
  dsimp only
  rw [if_neg hs]
  exact bind_eq_ok.2 ⟨_, expect_of_look hcolon,
    bind_eq_ok.2 ⟨_, hv, (if_pos hc).trans (bind_eq_ok.2 ⟨_, hms, rfl⟩)⟩⟩

end Parse

/-! ### Values -/

/-- What may follow the last of some elements or members. -/
structure Closes (r : Bytes) : Prop where
  head : ∀ b ∈ r.head?, runsOn b = false
  look : ∀ start, (Parse.look (lexemesFrom start r)).kind ≠ .comma

theorem closes_newline {indent : Option Nat} {k : LexemeKind} {b : UInt8} {r : Bytes}
    (h : k.Written [b]) (hr : EndsBefore k r) (hb : runsOn b = false) (hk : k ≠ .comma) :
    Closes (newline indent ++ ([b] ++ r)) :=
  ⟨runsOn_newline hb, fun start => by rw [look_newline start h hr]; exact hk⟩

theorem head_comma {r : Bytes} : ∀ b ∈ ([octet ','] ++ r).head?, runsOn b = false := by
  rintro _ ⟨⟩; rfl

mutual

theorem value_emit : ∀ (fuel : Nat) (v : Json) {depth start : Nat} {indent : Option Nat} {r : Bytes},
    v.DistinctKeys → depth + v.depth ≤ maxDepth → (∀ b ∈ r.head?, runsOn b = false) →
    2 * (lexemesFrom start (emit indent v ++ r)).length + 1 ≤ fuel →
    ∃ stop, Parse.value fuel depth (lexemesFrom start (emit indent v ++ r)) =
        .ok (v, lexemesFrom stop r) ∧
      (lexemesFrom stop r).length < (lexemesFrom start (emit indent v ++ r)).length
  | fuel + 1, null, depth, start, indent, r, _, _, hr, _ => by
      rw [emit, lexemesFrom_append start .null hr]
      exact ⟨_, rfl, Nat.lt_succ_self _⟩
  | fuel + 1, bool true, depth, start, indent, r, _, _, hr, _ => by
      rw [emit, lexemesFrom_append start .true hr]
      exact ⟨_, rfl, Nat.lt_succ_self _⟩
  | fuel + 1, bool false, depth, start, indent, r, _, _, hr, _ => by
      rw [emit, lexemesFrom_append start .false hr]
      exact ⟨_, rfl, Nat.lt_succ_self _⟩
  | fuel + 1, int i, depth, start, indent, r, _, _, hr, _ => by
      rw [emit, lexemesFrom_append start (.integer i) hr]
      exact ⟨_, rfl, Nat.lt_succ_self _⟩
  | fuel + 1, string s, depth, start, indent, r, _, _, hr, _ => by
      rw [emit, lexemesFrom_append start (.string s) trivial]
      exact ⟨_, rfl, Nat.lt_succ_self _⟩
  | fuel + 1, array [], depth, start, indent, r, _, hd, hr, _ => by
      have e : emit indent (array []) ++ r = [octet '['] ++ ([octet ']'] ++ r) := rfl
      rw [e, lexemesFrom_append start .openBracket trivial,
        lexemesFrom_append _ .closeBracket trivial]
      exact ⟨_, Parse.value_array_nil rfl hd rfl, Nat.lt_succ_of_lt (Nat.lt_succ_self _)⟩
  | fuel + 1, array (e :: es), depth, start, indent, r, hk, hd, hr, hf => by
      rw [emit_array, ← List.singleton_append, lexemesFrom_append start .openBracket trivial,
        lexemesFrom_blanks (isSpace_newline _)] at hf ⊢
      rw [List.length_cons, Nat.mul_succ] at hf
      rw [Json.depth] at hd
      obtain ⟨stop, he, hlen⟩ := @elements_emit fuel e es (depth + 1) _ _ _ hk (by omega)
        (closes_newline .closeBracket trivial rfl nofun) (Nat.le_of_succ_le_succ hf)
      rw [lexemesFrom_blanks (isSpace_newline _), lexemesFrom_append _ .closeBracket trivial] at he hlen
      exact ⟨_, Parse.value_array rfl (by omega) he rfl, Nat.lt_succ_of_lt (Nat.lt_of_succ_lt hlen)⟩
  | fuel + 1, object [], depth, start, indent, r, _, hd, hr, _ => by
      have e : emit indent (object []) ++ r = [octet '\x7b'] ++ ([octet '\x7d'] ++ r) := rfl
      rw [e, lexemesFrom_append start .openBrace trivial,
        lexemesFrom_append _ .closeBrace trivial]
      exact ⟨_, Parse.value_object_nil rfl hd rfl, Nat.lt_succ_of_lt (Nat.lt_succ_self _)⟩
  | fuel + 1, object ((k, v) :: ms), depth, start, indent, r, hk, hd, hr, hf => by
      rw [emit_object, ← List.singleton_append, lexemesFrom_append start .openBrace trivial,
        lexemesFrom_blanks (isSpace_newline _)] at hf ⊢
      rw [List.length_cons, Nat.mul_succ] at hf
      rw [Json.depth] at hd
      obtain ⟨stop, he, hlen⟩ := @members_emit fuel k v ms (depth + 1) _ [] _ _ hk.2 hk.1 nofun
        (by omega) (closes_newline .closeBrace trivial rfl nofun) (Nat.le_of_succ_le_succ hf)
      rw [lexemesFrom_blanks (isSpace_newline _), lexemesFrom_append _ .closeBrace trivial] at he hlen
      exact ⟨_, Parse.value_object rfl (by omega) he rfl, Nat.lt_succ_of_lt (Nat.lt_of_succ_lt hlen)⟩
termination_by structural fuel => fuel

theorem elements_emit : ∀ (fuel : Nat) (e : Json) (es : List Json) {depth start : Nat}
    {indent : Option Nat} {r : Bytes}, DistinctKeysElements (e :: es) →
    depth + depthElements (e :: es) ≤ maxDepth → Closes r →
    2 * (lexemesFrom start (emit indent e ++ (emitElements indent es ++ r))).length + 2 ≤ fuel →
    ∃ stop, Parse.elements fuel depth
        (lexemesFrom start (emit indent e ++ (emitElements indent es ++ r))) =
          .ok (e :: es, lexemesFrom stop r) ∧ (lexemesFrom stop r).length <
            (lexemesFrom start (emit indent e ++ (emitElements indent es ++ r))).length
  | fuel + 1, e, [], depth, start, indent, r, hk, hd, hr, hf => by
      rw [depthElements] at hd
      rw [emitElements, List.nil_append] at hf ⊢
      obtain ⟨stop, he, hlen⟩ := @value_emit fuel e depth start indent r hk.1 (by omega) hr.head
        (by omega)
      exact ⟨stop, Parse.elements_last he (hr.look stop), hlen⟩
  | fuel + 1, e, e' :: es, depth, start, indent, r, hk, hd, hr, hf => by
      rw [depthElements] at hd
      rw [emitElements_cons] at hf ⊢
      obtain ⟨stop, he, hlen⟩ := @value_emit fuel e depth start indent _ hk.1 (by omega)
        head_comma (Nat.le_of_succ_le_succ hf)
      rw [lexemesFrom_append stop .comma trivial, lexemesFrom_blanks (isSpace_newline _)] at he hlen
      rw [List.length_cons] at hlen
      obtain ⟨stop', hes, hlen'⟩ := @elements_emit fuel e' es depth
        (stop + [octet ','].length + (newline indent).length) indent r hk.2 (by omega) hr (by omega)
      exact ⟨stop', Parse.elements_cons he rfl hes, by omega⟩
termination_by structural fuel => fuel

theorem members_emit : ∀ (fuel : Nat) (k : Bytes) (v : Json) (ms : List (Bytes × Json)) {depth start : Nat}
    {seen : List Bytes} {indent : Option Nat} {r : Bytes}, DistinctKeysMembers ((k, v) :: ms) →
    (k :: ms.map (·.1)).Nodup → (∀ x ∈ seen, x ∉ k :: ms.map (·.1)) →
    depth + depthMembers ((k, v) :: ms) ≤ maxDepth → Closes r →
    2 * (lexemesFrom start
      (quote k ++ (colon indent ++ (emit indent v ++ (emitMembers indent ms ++ r))))).length + 2 ≤
        fuel →
    ∃ stop, Parse.members fuel depth seen (lexemesFrom start
        (quote k ++ (colon indent ++ (emit indent v ++ (emitMembers indent ms ++ r))))) =
          .ok ((k, v) :: ms, lexemesFrom stop r) ∧ (lexemesFrom stop r).length <
            (lexemesFrom start
              (quote k ++ (colon indent ++ (emit indent v ++ (emitMembers indent ms ++ r))))).length
  | fuel + 1, k, v, [], depth, start, seen, indent, r, hk, hn, hs, hd, hr, hf => by
      rw [depthMembers] at hd
      rw [emitMembers, List.nil_append] at hf ⊢
      simp only [colon_append] at hf ⊢
      rw [lexemesFrom_append start (.string k) trivial, lexemesFrom_append _ .colon trivial,
        lexemesFrom_blanks (isSpace_gap _)] at hf ⊢
      rw [List.length_cons, List.length_cons] at hf
      obtain ⟨stop, hv, hlen⟩ := @value_emit fuel v depth
        (start + (quote k).length + [octet ':'].length + (gap indent).length) indent r hk.1
        (by omega) hr.head (by omega)
      have hseen : k ∉ seen := fun h => hs k h List.mem_cons_self
      refine ⟨stop, Parse.members_last rfl hseen rfl hv (hr.look stop), ?_⟩
      rw [List.length_cons, List.length_cons]
      omega
  | fuel + 1, k, v, (k', v') :: ms, depth, start, seen, indent, r, hk, hn, hs, hd, hr, hf => by
      rw [depthMembers] at hd
      rw [emitMembers_cons] at hf ⊢
      simp only [colon_append] at hf ⊢
      rw [lexemesFrom_append start (.string k) trivial, lexemesFrom_append _ .colon trivial,
        lexemesFrom_blanks (isSpace_gap _)] at hf ⊢
      rw [List.length_cons, List.length_cons] at hf
      obtain ⟨stop, hv, hlen⟩ := @value_emit fuel v depth
        (start + (quote k).length + [octet ':'].length + (gap indent).length) indent
        ([octet ','] ++ (newline indent ++ (quote k' ++ ([octet ':'] ++ (gap indent ++
          (emit indent v' ++ (emitMembers indent ms ++ r))))))) hk.1 (by omega) head_comma (by omega)
      rw [lexemesFrom_append stop .comma trivial, lexemesFrom_blanks (isSpace_newline _)] at hv hlen
      rw [List.length_cons] at hlen
      have hseen : k ∉ seen := fun h => hs k h List.mem_cons_self
      rw [List.map_cons, List.nodup_cons] at hn
      -- the name just read is one more that may not come again
      have hs' : ∀ x ∈ k :: seen, x ∉ k' :: ms.map (·.1) := by
        intro x hx hm
        rcases List.mem_cons.1 hx with rfl | hx
        · exact hn.1 hm
        · exact hs x hx (List.mem_cons_of_mem k hm)
      obtain ⟨stop', hms, hlen'⟩ := @members_emit fuel k' v' ms depth
        (stop + [octet ','].length + (newline indent).length) (k :: seen) indent r hk.2 hn.2 hs'
        (by omega) hr (by rw [colon_append]; omega)
      rw [colon_append] at hms hlen'
      refine ⟨stop', Parse.members_cons rfl hseen rfl hv rfl hms, ?_⟩
      rw [List.length_cons, List.length_cons]
      omega
termination_by structural fuel => fuel

end

/-- The text of a value is read back, pretty or not. -/
theorem parse_text {v : Json} (pretty : Bool) (hk : v.DistinctKeys) (hd : v.depth ≤ maxDepth) :
    parse (v.text pretty) = .ok v := by
  have hr : ∀ b ∈ ([] : Bytes).head?, runsOn b = false := nofun
  obtain ⟨stop, hv, -⟩ := @value_emit _ v 0 0 (if pretty then some 0 else none) [] hk
    (by rwa [Nat.zero_add]) hr (Nat.le_refl _)
  rw [List.append_nil] at hv
  rw [parse, bind_eq_ok]
  exact ⟨_, hv, if_pos rfl⟩

end Json

end CilCatalog
