import CilCatalog.Proofs.Json.RoundTrip

/-!
# Which JSON is read

The reader keeps to two limits: the members of an object have different names, and arrays and objects nest at most `maxDepth` deep.

* `parse_within`: every value that is read keeps to the limits, whatever its text.
* `value_refused`: the text of a value beyond the limits is refused, also where it stands inside a longer text.
* `parse_text_iff`: a value is read back from its text exactly if it keeps to the limits, and else its text is refused.
-/

namespace CilCatalog

namespace Json

/-! ### Values that are read -/

namespace Parse

theorem elements_eq_ok {fuel depth : Nat} {ls rest : List Lexeme} {es : List Json}
    (h : elements (fuel + 1) depth ls = .ok (es, rest)) :
    ∃ e ms es', value fuel depth ls = .ok (e, ms) ∧ es = e :: es' ∧
      (es' = [] ∨ elements fuel depth ms.tail = .ok (es', rest)) := by
  rw [elements] at h
  obtain ⟨⟨e, ms⟩, he, h⟩ := bind_eq_ok.1 h
  dsimp only at h
  split at h
  · obtain ⟨⟨es', ns⟩, hes, h⟩ := bind_eq_ok.1 h
    cases h
    exact ⟨e, ms, es', he, rfl, .inr hes⟩
  · cases h
    exact ⟨e, _, [], he, rfl, .inl rfl⟩

theorem members_eq_ok {fuel depth : Nat} {seen : List Bytes} {ls rest : List Lexeme}
    {ms : List (Bytes × Json)} (h : members (fuel + 1) depth seen ls = .ok (ms, rest)) :
    ∃ k v ks ns ms', k ∉ seen ∧ value fuel depth ks = .ok (v, ns) ∧ ms = (k, v) :: ms' ∧
      (ms' = [] ∨ members fuel depth (k :: seen) ns.tail = .ok (ms', rest)) := by
  rw [members] at h
  split at h
  · next k _ =>
      split at h
      · cases h
      next hs =>
        obtain ⟨ks, -, h⟩ := bind_eq_ok.1 h
        obtain ⟨⟨v, ns⟩, hv, h⟩ := bind_eq_ok.1 h
        dsimp only at h
        split at h
        · obtain ⟨⟨ms', os⟩, hms, h⟩ := bind_eq_ok.1 h
          cases h
          exact ⟨k, v, ks, ns, ms', hs, hv, rfl, .inr hms⟩
        · cases h
          exact ⟨k, v, ks, _, [], hs, hv, rfl, .inl rfl⟩
  · exact absurd h unexpected_ne_ok

/-- A value is an atom, or a list or an object whose parts are read one level deeper. -/
theorem value_eq_ok {fuel depth : Nat} {ls rest : List Lexeme} {v : Json}
    (h : value (fuel + 1) depth ls = .ok (v, rest)) :
    (v.DistinctKeys ∧ v.depth = 0) ∨
    (∃ es ms ns, v = array es ∧ depth + 1 ≤ maxDepth ∧
      (es = [] ∨ elements fuel (depth + 1) ms = .ok (es, ns))) ∨
    (∃ ks ms ns, v = object ks ∧ depth + 1 ≤ maxDepth ∧
      (ks = [] ∨ members fuel (depth + 1) [] ms = .ok (ks, ns))) := by
  rw [value_succ] at h
  generalize (look ls).kind = k at h
  cases k with
  | true | false | null | integer | string =>
      cases h
      exact .inl ⟨trivial, rfl⟩
  | openBracket =>
      dsimp only at h
      split at h
      · exact nomatch h
      next hd =>
        split at h
        · cases h
          exact .inr (.inl ⟨[], [], [], rfl, Nat.not_lt.1 hd, .inl rfl⟩)
        · obtain ⟨⟨es, ns⟩, hes, h⟩ := bind_eq_ok.1 h
          obtain ⟨_, -, h⟩ := bind_eq_ok.1 h
          cases h
          exact .inr (.inl ⟨es, _, ns, rfl, Nat.not_lt.1 hd, .inr hes⟩)
  | openBrace =>
      dsimp only at h
      split at h
      · exact nomatch h
      next hd =>
        split at h
        · cases h
          exact .inr (.inr ⟨[], [], [], rfl, Nat.not_lt.1 hd, .inl rfl⟩)
        · obtain ⟨⟨ks, ns⟩, hks, h⟩ := bind_eq_ok.1 h
          obtain ⟨_, -, h⟩ := bind_eq_ok.1 h
          cases h
          exact .inr (.inr ⟨ks, _, ns, rfl, Nat.not_lt.1 hd, .inr hks⟩)
  | _ => exact absurd h unexpected_ne_ok

end Parse

mutual

theorem value_within : ∀ (fuel : Nat) {depth : Nat} {ls rest : List Lexeme} {v : Json},
    depth ≤ maxDepth → Parse.value fuel depth ls = .ok (v, rest) →
    v.DistinctKeys ∧ depth + v.depth ≤ maxDepth
  | fuel + 1, depth, ls, rest, v, hd, h => by
      obtain ⟨hk, h0⟩ | ⟨es, ms, ns, rfl, hd', h⟩ | ⟨ks, ms, ns, rfl, hd', h⟩ :=
        Parse.value_eq_ok h
      · exact ⟨hk, h0 ▸ hd⟩
      · rw [Json.depth]
        rcases h with rfl | h
        · exact ⟨trivial, hd'⟩
        · obtain ⟨hk, hes⟩ := elements_within fuel hd' h
          exact ⟨hk, by omega⟩
      · rw [Json.depth]
        rcases h with rfl | h
        · exact ⟨⟨List.nodup_nil, trivial⟩, hd'⟩
        · obtain ⟨hn, -, hk, hms⟩ := members_within fuel hd' h
          exact ⟨⟨hn, hk⟩, by omega⟩
termination_by structural fuel => fuel

theorem elements_within : ∀ (fuel : Nat) {depth : Nat} {ls rest : List Lexeme} {es : List Json},
    depth ≤ maxDepth → Parse.elements fuel depth ls = .ok (es, rest) →
    DistinctKeysElements es ∧ depth + depthElements es ≤ maxDepth
  | fuel + 1, depth, ls, rest, es, hd, h => by
      obtain ⟨e, ms, es', he, rfl, hes⟩ := Parse.elements_eq_ok h
      obtain ⟨hk, hde⟩ := value_within fuel hd he
      rw [depthElements, DistinctKeysElements]
      rcases hes with rfl | hes
      · exact ⟨⟨hk, trivial⟩, by rwa [depthElements, Nat.max_zero]⟩
      · obtain ⟨hks, hdes⟩ := elements_within fuel hd hes
        exact ⟨⟨hk, hks⟩, by omega⟩
termination_by structural fuel => fuel

theorem members_within : ∀ (fuel : Nat) {depth : Nat} {seen : List Bytes} {ls rest : List Lexeme}
    {ms : List (Bytes × Json)},
    depth ≤ maxDepth → Parse.members fuel depth seen ls = .ok (ms, rest) →
    (ms.map (·.1)).Nodup ∧ (∀ k ∈ ms.map (·.1), k ∉ seen) ∧
      DistinctKeysMembers ms ∧ depth + depthMembers ms ≤ maxDepth
  | fuel + 1, depth, seen, ls, rest, ms, hd, h => by
      obtain ⟨k, v, ks, ns, ms', hs, hv, rfl, hms⟩ := Parse.members_eq_ok h
      obtain ⟨hk, hdv⟩ := value_within fuel hd hv
      rw [depthMembers, DistinctKeysMembers, List.map_cons, List.nodup_cons]
      rcases hms with rfl | hms
      · refine ⟨⟨List.not_mem_nil, List.nodup_nil⟩, ?_, ⟨hk, trivial⟩, ?_⟩
        · intro x hx
          rwa [List.mem_singleton.1 hx]
        · rwa [depthMembers, Nat.max_zero]
      · obtain ⟨hn, hnot, hks, hdms⟩ := members_within fuel hd hms
        -- the names that follow are not the one just read, which counts as seen there
        refine ⟨⟨fun hm => hnot k hm List.mem_cons_self, hn⟩, ?_, ⟨hk, hks⟩, by omega⟩
        intro x hx
        rcases List.mem_cons.1 hx with rfl | hx
        · exact hs
        · exact fun h => hnot x hx (List.mem_cons_of_mem k h)
termination_by structural fuel => fuel

end

theorem parse_within {s : Bytes} {v : Json} (h : parse s = .ok v) :
    v.DistinctKeys ∧ v.depth ≤ maxDepth := by
  rw [parse] at h
  obtain ⟨⟨w, ls⟩, hv, h⟩ := bind_eq_ok.1 h
  dsimp only at h
  split at h
  · cases h
    rw [← Nat.zero_add v.depth]
    exact value_within _ (Nat.zero_le _) hv
  · exact absurd h Parse.unexpected_ne_ok

/-! ### Values that are refused -/

namespace Parse

/-- The text is at fault, not the reader. -/
def Faulty {α : Type} (x : ParseM α) : Prop := ∃ f, x = .error (.fault f)

theorem Faulty.bind {α β : Type} {x : ParseM α} {g : α → ParseM β} (h : Faulty x) :
    Faulty (x >>= g) := by
  obtain ⟨f, rfl⟩ := h
  exact ⟨f, rfl⟩

theorem Faulty.bind_ok {α β : Type} {x : ParseM α} {g : α → ParseM β} {a : α} (hx : x = .ok a)
    (h : Faulty (g a)) : Faulty (x >>= g) := by
  rw [hx]
  exact h

/-- A list is refused if it would nest too deep, and if its elements are refused. -/
theorem faulty_array {fuel depth : Nat} {l : Lexeme} {ls : List Lexeme}
    (ho : l.kind = .openBracket) (hc : (look ls).kind ≠ .closeBracket)
    (h : depth + 1 ≤ maxDepth → Faulty (elements fuel (depth + 1) ls)) :
    Faulty (value (fuel + 1) depth (l :: ls)) := by
  have ho : (look (l :: ls)).kind = .openBracket := ho
  rw [value_succ, ho]
  dsimp only
  split
  · exact ⟨_, rfl⟩
  · next hd =>
      rw [List.tail_cons, if_neg hc]
      exact (h (Nat.not_lt.1 hd)).bind

theorem faulty_object {fuel depth : Nat} {l : Lexeme} {ls : List Lexeme}
    (ho : l.kind = .openBrace) (hc : (look ls).kind ≠ .closeBrace)
    (h : depth + 1 ≤ maxDepth → Faulty (members fuel (depth + 1) [] ls)) :
    Faulty (value (fuel + 1) depth (l :: ls)) := by
  have ho : (look (l :: ls)).kind = .openBrace := ho
  rw [value_succ, ho]
  dsimp only
  split
  · exact ⟨_, rfl⟩
  · next hd =>
      rw [List.tail_cons, if_neg hc]
      exact (h (Nat.not_lt.1 hd)).bind

theorem faulty_array_nil {fuel depth : Nat} {ls : List Lexeme}
    (ho : (look ls).kind = .openBracket) (hd : maxDepth < depth + 1) :
    Faulty (value (fuel + 1) depth ls) := by
  rw [value_succ, ho]
  exact ⟨_, if_pos hd⟩

theorem faulty_object_nil {fuel depth : Nat} {ls : List Lexeme}
    (ho : (look ls).kind = .openBrace) (hd : maxDepth < depth + 1) :
    Faulty (value (fuel + 1) depth ls) := by
  rw [value_succ, ho]
  exact ⟨_, if_pos hd⟩

theorem faulty_elements {fuel depth : Nat} {ls : List Lexeme}
    (h : Faulty (value fuel depth ls)) : Faulty (elements (fuel + 1) depth ls) := by
  rw [elements]
  exact h.bind

theorem faulty_elements_cons {fuel depth : Nat} {ls ms : List Lexeme} {e : Json}
    (he : value fuel depth ls = .ok (e, ms)) (hc : (look ms).kind = .comma)
    (h : Faulty (elements fuel depth ms.tail)) : Faulty (elements (fuel + 1) depth ls) := by
  rw [elements]
  refine .bind_ok he ?_
  dsimp only
  rw [if_pos hc]
  exact h.bind

/-- A member is refused if its name has been seen, and if its value is refused. -/
theorem faulty_members {fuel depth : Nat} {seen : List Bytes} {ls : List Lexeme} {k : Bytes}
    (hk : (look ls).kind = .string k) (hcolon : (look ls.tail).kind = .colon)
    (h : k ∉ seen → Faulty (value fuel depth ls.tail.tail)) :
    Faulty (members (fuel + 1) depth seen ls) := by
  rw [members, hk]
  dsimp only
  split
  · exact ⟨_, rfl⟩
  · next hs => exact .bind_ok (expect_of_look hcolon) (h hs).bind

theorem faulty_members_cons {fuel depth : Nat} {seen : List Bytes} {ls ns : List Lexeme}
    {k : Bytes} {v : Json} (hk : (look ls).kind = .string k)
    (hcolon : (look ls.tail).kind = .colon)
    (hv : value fuel depth ls.tail.tail = .ok (v, ns)) (hc : (look ns).kind = .comma)
    (h : Faulty (members fuel depth (k :: seen) ns.tail)) :
    Faulty (members (fuel + 1) depth seen ls) := by
  rw [members, hk]
  dsimp only
  split
  · exact ⟨_, rfl⟩
  · refine .bind_ok (expect_of_look hcolon) (.bind_ok hv ?_)
    dsimp only
    rw [if_pos hc]
    exact h.bind

end Parse

/-- The text of a value does not begin with a bracket that closes. -/
theorem look_emit {v : Json} {indent : Option Nat} {start : Nat} {r : Bytes}
    (hr : ∀ b ∈ r.head?, runsOn b = false) :
    (Parse.look (lexemesFrom start (emit indent v ++ r))).kind ≠ .closeBracket := by
  cases v with
  | null => rw [emit, lexemesFrom_append start .null hr]; exact nofun
  | bool b =>
      cases b with
      | true => rw [emit, lexemesFrom_append start .true hr]; exact nofun
      | false => rw [emit, lexemesFrom_append start .false hr]; exact nofun
  | int i => rw [emit, lexemesFrom_append start (.integer i) hr]; exact nofun
  | string s => rw [emit, lexemesFrom_append start (.string s) trivial]; exact nofun
  | array es =>
      cases es with
      | nil =>
          have e : emit indent (array []) ++ r = [octet '['] ++ ([octet ']'] ++ r) := rfl
          rw [e, lexemesFrom_append start .openBracket trivial]
          exact nofun
      | cons e es =>
          rw [emit_array, ← List.singleton_append, lexemesFrom_append start .openBracket trivial]
          exact nofun
  | object ms =>
      cases ms with
      | nil =>
          have e : emit indent (object []) ++ r = [octet '\x7b'] ++ ([octet '\x7d'] ++ r) := rfl
          rw [e, lexemesFrom_append start .openBrace trivial]
          exact nofun
      | cons m ms =>
          rw [emit_object, ← List.singleton_append, lexemesFrom_append start .openBrace trivial]
          exact nofun

theorem head_emitElements {indent : Option Nat} {es : List Json} {r : Bytes}
    (hr : ∀ b ∈ r.head?, runsOn b = false) :
    ∀ b ∈ (emitElements indent es ++ r).head?, runsOn b = false := by
  cases es with
  | nil => exact hr
  | cons e es => rw [emitElements_cons]; exact head_comma

mutual

theorem value_refused : ∀ (fuel : Nat) (v : Json) {depth start : Nat} {indent : Option Nat}
    {r : Bytes}, depth ≤ maxDepth → ¬(v.DistinctKeys ∧ depth + v.depth ≤ maxDepth) →
    (∀ b ∈ r.head?, runsOn b = false) →
    2 * (lexemesFrom start (emit indent v ++ r)).length + 1 ≤ fuel →
    Parse.Faulty (Parse.value fuel depth (lexemesFrom start (emit indent v ++ r)))
  | _ + 1, null, _, _, _, _, hd, h, _, _ => absurd ⟨trivial, hd⟩ h
  | _ + 1, bool _, _, _, _, _, hd, h, _, _ => absurd ⟨trivial, hd⟩ h
  | _ + 1, int _, _, _, _, _, hd, h, _, _ => absurd ⟨trivial, hd⟩ h
  | _ + 1, string _, _, _, _, _, hd, h, _, _ => absurd ⟨trivial, hd⟩ h
  | fuel + 1, array [], depth, start, indent, r, _, h, _, _ => by
      have e : emit indent (array []) ++ r = [octet '['] ++ ([octet ']'] ++ r) := rfl
      rw [e, lexemesFrom_append start .openBracket trivial]
      exact Parse.faulty_array_nil rfl (Nat.not_le.1 fun hd => h ⟨trivial, hd⟩)
  | fuel + 1, array (e :: es), depth, start, indent, r, _, h, _, hf => by
      rw [emit_array, ← List.singleton_append, lexemesFrom_append start .openBracket trivial,
        lexemesFrom_blanks (isSpace_newline _)] at hf ⊢
      rw [List.length_cons, Nat.mul_succ] at hf
      rw [Json.depth] at h
      have hr' : Closes (newline indent ++ ([octet ']'] ++ r)) :=
        closes_newline .closeBracket trivial rfl nofun
      refine Parse.faulty_array rfl (look_emit (head_emitElements hr'.head)) fun hd => ?_
      refine elements_refused fuel e es hd (fun hes => h ⟨hes.1, ?_⟩) hr'
        (Nat.le_of_succ_le_succ hf)
      have := hes.2
      omega
  | fuel + 1, object [], depth, start, indent, r, _, h, _, _ => by
      have e : emit indent (object []) ++ r = [octet '\x7b'] ++ ([octet '\x7d'] ++ r) := rfl
      rw [e, lexemesFrom_append start .openBrace trivial]
      exact Parse.faulty_object_nil rfl
        (Nat.not_le.1 fun hd => h ⟨⟨List.nodup_nil, trivial⟩, hd⟩)
  | fuel + 1, object ((k, v) :: ms), depth, start, indent, r, _, h, _, hf => by
      rw [emit_object, ← List.singleton_append, lexemesFrom_append start .openBrace trivial,
        lexemesFrom_blanks (isSpace_newline _)] at hf ⊢
      rw [List.length_cons, Nat.mul_succ] at hf
      rw [Json.depth] at h
      refine Parse.faulty_object rfl ?_ fun hd => ?_
      · rw [lexemesFrom_append _ (.string k) trivial]
        exact nofun
      · refine members_refused fuel k v ms hd (fun ⟨hk, hn, _, hd⟩ => h ⟨⟨hn, hk⟩, by omega⟩)
          (closes_newline .closeBrace trivial rfl nofun) (Nat.le_of_succ_le_succ hf)
termination_by structural fuel => fuel

theorem elements_refused : ∀ (fuel : Nat) (e : Json) (es : List Json) {depth start : Nat}
    {indent : Option Nat} {r : Bytes}, depth ≤ maxDepth →
    ¬(DistinctKeysElements (e :: es) ∧ depth + depthElements (e :: es) ≤ maxDepth) → Closes r →
    2 * (lexemesFrom start (emit indent e ++ (emitElements indent es ++ r))).length + 2 ≤ fuel →
    Parse.Faulty (Parse.elements fuel depth
      (lexemesFrom start (emit indent e ++ (emitElements indent es ++ r))))
  | fuel + 1, e, es, depth, start, indent, r, hd, h, hr, hf => by
      rw [depthElements] at h
      by_cases he : e.DistinctKeys ∧ depth + e.depth ≤ maxDepth
      · -- the first element is read, so what is refused stands behind it
        cases es with
        | nil => exact absurd ⟨⟨he.1, trivial⟩, by rw [depthElements, Nat.max_zero]; exact he.2⟩ h
        | cons e' es =>
            rw [emitElements_cons] at hf ⊢
            obtain ⟨stop, hv, hlen⟩ := value_emit fuel e he.1 he.2 head_comma
              (Nat.le_of_succ_le_succ hf)
            rw [lexemesFrom_append stop .comma trivial, lexemesFrom_blanks (isSpace_newline _)]
              at hv hlen
            rw [List.length_cons] at hlen
            refine Parse.faulty_elements_cons hv rfl
              (elements_refused fuel e' es hd (fun hes => h ⟨⟨he.1, hes.1⟩, ?_⟩) hr (by omega))
            have := hes.2
            omega
      · exact Parse.faulty_elements
          (value_refused fuel e hd he (head_emitElements hr.head) (Nat.le_of_succ_le_succ hf))
termination_by structural fuel => fuel

theorem members_refused : ∀ (fuel : Nat) (k : Bytes) (v : Json) (ms : List (Bytes × Json))
    {depth start : Nat} {seen : List Bytes} {indent : Option Nat} {r : Bytes}, depth ≤ maxDepth →
    ¬(DistinctKeysMembers ((k, v) :: ms) ∧ (k :: ms.map (·.1)).Nodup ∧
      (∀ x ∈ seen, x ∉ k :: ms.map (·.1)) ∧ depth + depthMembers ((k, v) :: ms) ≤ maxDepth) →
    Closes r →
    2 * (lexemesFrom start
      (quote k ++ (colon indent ++ (emit indent v ++ (emitMembers indent ms ++ r))))).length + 2 ≤
        fuel →
    Parse.Faulty (Parse.members fuel depth seen (lexemesFrom start
      (quote k ++ (colon indent ++ (emit indent v ++ (emitMembers indent ms ++ r))))))
  | fuel + 1, k, v, ms, depth, start, seen, indent, r, hd, h, hr, hf => by
      rw [depthMembers] at h
      simp only [colon_append] at hf ⊢
      rw [lexemesFrom_append start (.string k) trivial, lexemesFrom_append _ .colon trivial,
        lexemesFrom_blanks (isSpace_gap _)] at hf ⊢
      rw [List.length_cons, List.length_cons] at hf
      have hr' : ∀ b ∈ (emitMembers indent ms ++ r).head?, runsOn b = false := by
        cases ms with
        | nil => exact hr.head
        | cons m ms => rw [emitMembers_cons]; exact head_comma
      by_cases hv : v.DistinctKeys ∧ depth + v.depth ≤ maxDepth
      · by_cases hs : k ∈ seen
        · exact Parse.faulty_members rfl rfl fun h => absurd hs h
        cases ms with
        | nil =>
            refine absurd ⟨⟨hv.1, trivial⟩, List.nodup_cons.2 ⟨List.not_mem_nil, List.nodup_nil⟩, ?_, ?_⟩ h
            · intro x hx hm
              rw [List.map_nil, List.mem_singleton] at hm
              exact hs (hm ▸ hx)
            · rw [depthMembers, Nat.max_zero]
              exact hv.2
        | cons m ms =>
            obtain ⟨k', v'⟩ := m
            rw [emitMembers_cons, colon_append] at hf ⊢
            obtain ⟨stop, he, hlen⟩ := @value_emit fuel v depth
              (start + (quote k).length + [octet ':'].length + (gap indent).length) indent
              ([octet ','] ++ (newline indent ++ (quote k' ++ ([octet ':'] ++ (gap indent ++
                (emit indent v' ++ (emitMembers indent ms ++ r))))))) hv.1 hv.2 head_comma
              (by omega)
            rw [lexemesFrom_append stop .comma trivial, lexemesFrom_blanks (isSpace_newline _)]
              at he hlen
            rw [List.length_cons] at hlen
            have rest := @members_refused fuel k' v' ms depth
              (stop + [octet ','].length + (newline indent).length) (k :: seen) indent r hd ?_ hr
              (by rw [colon_append]; omega)
            · rw [colon_append] at rest
              exact Parse.faulty_members_cons rfl rfl he rfl rest
            -- were the members behind within the limits, then so were all of them
            · rintro ⟨hk, hn, hnot, hdm⟩
              refine h ⟨⟨hv.1, hk⟩, List.nodup_cons.2 ⟨hnot k List.mem_cons_self, hn⟩, ?_, ?_⟩
              · intro x hx hm
                rcases List.mem_cons.1 hm with rfl | hm
                · exact hs hx
                · exact hnot x (List.mem_cons_of_mem k hx) hm
              · have := hv.2
                omega
      · exact Parse.faulty_members rfl rfl fun _ => value_refused fuel v hd hv hr' (by omega)
termination_by structural fuel => fuel

end

theorem parse_text_refused {v : Json} (pretty : Bool)
    (h : ¬(v.DistinctKeys ∧ v.depth ≤ maxDepth)) : Parse.Faulty (parse (v.text pretty)) := by
  rw [← Nat.zero_add v.depth] at h
  have hr : ∀ b ∈ ([] : Bytes).head?, runsOn b = false := nofun
  have hv := @value_refused _ v 0 0 (if pretty then some 0 else none) [] (Nat.zero_le _) h hr
    (Nat.le_refl _)
  rw [List.append_nil] at hv
  rw [parse]
  exact hv.bind

/-- Written text is read back exactly if the value keeps to the limits, and faulty otherwise; and whatever text is read, the value keeps to them. -/
theorem parse_text_iff :
    (∀ (v : Json) (pretty : Bool),
      (parse (v.text pretty) = .ok v ↔ v.DistinctKeys ∧ v.depth ≤ 512) ∧
        (Parse.Faulty (parse (v.text pretty)) ↔ ¬(v.DistinctKeys ∧ v.depth ≤ 512))) ∧
      ∀ (s : Bytes) (v : Json), parse s = .ok v → v.DistinctKeys ∧ v.depth ≤ 512 := by
  refine ⟨fun v pretty => ⟨⟨parse_within, fun h => parse_text pretty h.1 h.2⟩, ?_, ?_⟩,
    fun _ _ => parse_within⟩
  · rintro ⟨f, hf⟩ h
    rw [parse_text pretty h.1 h.2] at hf
    exact nomatch hf
  · exact parse_text_refused pretty

/-- A pretty text with a line break in a string and two objects, one inside the other, whose members share a name only with each other's. -/
theorem parse_text_iff_nested :
    parse (text true (object [("a", object [("a", string [0, 0x0A, 0xFF])]), ("b", int (-9))])) =
        .ok (object [("a", object [("a", string [0, 0x0A, 0xFF])]), ("b", int (-9))]) ∧
      Parse.Faulty (parse (text false (object [("a", null), ("a", null)]))) ∧
      DistinctKeys (object [("a", null)]) := by
  refine ⟨((parse_text_iff.1 _ true).1.2 ⟨?_, ?_⟩), (parse_text_iff.1 _ false).2.2 ?_,
    (parse_text_iff.2 "\x7b\"a\":null\x7d" _ ?_).1⟩
  · simp [DistinctKeys, DistinctKeysMembers]
    decide
  · decide
  · rintro ⟨⟨h, -⟩, -⟩
    exact absurd h (by decide)
  · rfl

end Json

end CilCatalog
