import CilCatalog.Proofs.Reading.Growth

/-!
# Token maps as dictionaries

Two calls write to a token map, `add` and `set`.  The calls that succeed, in order, are its history, and everything a map answers can be told from its history: which tokens there are and in which order, and what is under each.

In memory the two flavours look different.  The entries stand in a row in both.  Behind indices that is all there is, and a token is its own position; behind names there is a hash table besides, from names to positions, which must stay in step with the row.

* `TokenMap.Recounts`: a map holds what a history says.  `Recounts.edit` is the step, `Recounts.afterAll` the run.
* `Slots`: the memory of a map of either flavour, and the calls as they work on it.
* `Slots.InStep`: a memory holds a map.  There is one law of finding for both flavours (`InStep.find`), from which every call follows (`InStep.edit`).
* `token_maps_are_dictionaries`: after any calls, memory, map and history agree about every next call and about every token.
-/

namespace CilCatalog

/-! ### Calls that write -/

/-- A call that writes to a token map. -/
inductive Edit (α : Type) where
  | add (t : Token) (a : α)
  | set (t : Token) (a : α)

namespace Edit

variable {α : Type}

/-- What a call is about to write. -/
def entry : Edit α → Token × α
  | add t a | set t a => (t, a)

/-- What a call makes of a map. -/
def on {named : Bool} (m : TokenMap named α) : Edit α → Except TokenMapFault (TokenMap named α)
  | add t a => m.add t a
  | set t a => m.set t a

end Edit

/-- The tokens that a map of a flavour takes as its next: any name, or the number of its entries. -/
def Token.Fits (size : Nat) : Bool → Token → Prop
  | true,  named _ => True
  | false, index i => i.toInt = size
  | _,     _       => False

namespace TokenMap

variable {named : Bool} {α : Type} {m m' : TokenMap named α} {t : Token} {a : α}

/-- The map after a call.  One that fails leaves it alone. -/
def after (m : TokenMap named α) (e : Edit α) : TokenMap named α :=
  match e.on m with
  | .ok m'   => m'
  | .error _ => m

/-- The map after calls one after the other. -/
def afterAll (m : TokenMap named α) (es : List (Edit α)) : TokenMap named α := es.foldl after m

/-- What the calls that succeed write, in order. -/
def history (m : TokenMap named α) : List (Edit α) → List (Token × α)
  | []      => []
  | e :: es =>
      match e.on m with
      | .ok m'   => e.entry :: m'.history es
      | .error _ => m.history es

/-! ### What succeeds -/

theorem add_iff : (∃ m', m.add t a = .ok m') ↔ t ∉ m.keys ∧ t.Fits m.size named := by
  have length : m.keys.length = m.size := by simp [keys, size]
  by_cases taken : t ∈ m.keys
  · simp [add, taken]
  · cases named with
    | true => cases t <;> simp [add, taken, Token.Fits]
    | false =>
        cases t with
        | named n => simp [add, taken, Token.Fits]
        | index i => by_cases next : i.toInt = m.size <;> simp [add, taken, Token.Fits, length, next]

theorem contains_iff : m.contains t = true ↔ t ∈ m.keys := by simp [contains]

theorem set_iff : (∃ m', m.set t a = .ok m') ↔ t ∈ m.keys ∨ ∃ m', m.add t a = .ok m' := by
  by_cases there : t ∈ m.keys
  · simp [set, contains_iff.2 there, there]
  · simp [set, contains, there]

/-! ### What is held -/

theorem keys_add (h : m.add t a = .ok m') : m'.keys = m.keys ++ [t] := by
  simp [keys, entries_add h]

/-- A map holds what a history says: the tokens in the order in which they first occur, and under each what was written last. -/
structure Recounts (m : TokenMap named α) (ws : List (Token × α)) : Prop where
  keys : m.keys = (ws.map Prod.fst).eraseDups
  value : ∀ t, m.get? t = ws.reverse.lookup t

namespace Recounts

variable {ws : List (Token × α)}

theorem empty : (empty : TokenMap named α).Recounts [] := ⟨rfl, fun _ => rfl⟩

theorem mem_iff (h : m.Recounts ws) : t ∈ m.keys ↔ t ∈ ws.map Prod.fst := by
  rw [h.keys, List.mem_eraseDups]

/-- What was written last is found first from behind. -/
theorem lookup_concat (ws : List (Token × α)) (t t' : Token) (a : α) :
    (ws ++ [(t, a)]).reverse.lookup t' = if t' = t then some a else ws.reverse.lookup t' := by
  by_cases same : t' = t
  · simp [same]
  · have : (t' == t) = false := by simpa using same
    simp [List.lookup_cons, same, this]

theorem add (h : m.Recounts ws) (ha : m.add t a = .ok m') : m'.Recounts (ws ++ [(t, a)]) where
  keys := by
    have new : t ∉ ws.map Prod.fst := h.mem_iff.not.1 (not_mem_keys_of_add ha)
    have kept : [t].removeAll (ws.map Prod.fst) = [t] := by simpa [List.removeAll] using new
    rw [keys_add ha, h.keys, List.map_append, List.eraseDups_append]
    simp [kept, List.eraseDups_cons]
  value t' := by rw [get?_add ha, lookup_concat, h.value]

theorem replace (h : m.Recounts ws) (there : t ∈ m.keys) (a : α) :
    (m.replace t a).Recounts (ws ++ [(t, a)]) where
  keys := by
    have old : t ∈ ws.map Prod.fst := h.mem_iff.1 there
    have dropped : [t].removeAll (ws.map Prod.fst) = [] := by simpa [List.removeAll] using old
    rw [keys_replace, h.keys, List.map_append, List.eraseDups_append]
    simp [dropped]
  value t' := by
    rw [lookup_concat]
    by_cases same : t' = t
    · rw [if_pos same, same, get?_replace_self there]
    · rw [if_neg same, get?_replace_of_ne same, h.value]

/-- A call that succeeds is written into the history. -/
theorem edit (h : m.Recounts ws) {e : Edit α} (he : e.on m = .ok m') :
    m'.Recounts (ws ++ [e.entry]) := by
  cases e with
  | add t a => exact h.add he
  | set t a =>
      rw [Edit.on, set] at he
      split at he
      · next there =>
          cases he
          exact h.replace (contains_iff.1 there) a
      · exact h.add he

/-- So is a whole run of calls, of which those that fail leave no trace. -/
theorem afterAll (h : m.Recounts ws) (es : List (Edit α)) :
    (m.afterAll es).Recounts (ws ++ m.history es) := by
  induction es generalizing m ws with
  | nil => simpa [TokenMap.afterAll, history] using h
  | cons e es ih =>
      rw [TokenMap.afterAll, List.foldl_cons, after, history]
      cases he : e.on m with
      | ok m' => simpa [TokenMap.afterAll] using ih (h.edit he)
      | error f => exact ih h

end Recounts

end TokenMap

/-! ### Maps in memory -/

/-- The entries of a map in a row, and a table of where each name is.  A map under indices leaves the table empty. -/
structure Slots (named : Bool) (α : Type) where
  entries : List (Token × α)
  table : Std.HashMap Bytes Nat

/-- An index as an unsigned number of 64 bits, where those below zero come out very large. -/
def Token.unsigned (i : Int32) : Nat := i.toInt64.toUInt64.toNat

namespace Slots

variable {named : Bool} {α : Type}

def empty : Slots named α := ⟨[], ∅⟩

/-- Where the entry of a token is. -/
def find (s : Slots named α) (t : Token) : Option Nat :=
  match named, t with
  | true,  .named n => s.table[n.bytes]?
  | false, .index i =>
      if i < 0 ∨ s.entries.length ≤ Token.unsigned i then none else some (Token.unsigned i)
  | _,     _        => none

def contains (s : Slots named α) (t : Token) : Bool := (s.find t).isSome

/-- What is where the token is found. -/
def get? (s : Slots named α) (t : Token) : Option α :=
  (s.find t).bind fun p => s.entries[p]?.map Prod.snd

/-- Whether a token that is not there may be added. -/
def checkNew (s : Slots named α) (t : Token) : Except TokenMapFault Unit :=
  match named, t with
  | true,  .named _ => .ok ()
  | true,  .index _ => .error (.notNamed t)
  | false, .named _ => .error (.notIndex t)
  | false, .index i =>
      if Token.unsigned i ≠ s.entries.length ∨ i < 0 then .error (.outOfOrder i s.entries.length)
      else .ok ()

/-- One more entry, and the place of its name. -/
def append (s : Slots named α) (t : Token) (a : α) : Slots named α where
  entries := s.entries ++ [(t, a)]
  table :=
    match named, t with
    | true, .named n => s.table.insertIfNew n.bytes s.entries.length
    | _,    _        => s.table

/-- The answer to a call, and the memory behind it. -/
def add (s : Slots named α) (t : Token) (a : α) : Except TokenMapFault Unit × Slots named α :=
  if s.contains t then (.error (.taken t), s)
  else match s.checkNew t with
    | .error f => (.error f, s)
    | .ok ()   => (.ok (), s.append t a)

def set (s : Slots named α) (t : Token) (a : α) : Except TokenMapFault Unit × Slots named α :=
  match s.find t with
  | some p => (.ok (), { s with entries := s.entries.modify p fun e => (e.1, a) })
  | none   => s.add t a

def edit (s : Slots named α) : Edit α → Except TokenMapFault Unit × Slots named α
  | .add t a => s.add t a
  | .set t a => s.set t a

/-- The memory after calls one after the other. -/
def afterAll (s : Slots named α) (es : List (Edit α)) : Slots named α :=
  es.foldl (fun s e => (s.edit e).2) s

/-- A memory holds a map: the entries are in a row, and the table knows the first place of every name. -/
structure InStep (s : Slots named α) (m : TokenMap named α) : Prop where
  entries : s.entries = m.entries
  table : named = true → ∀ n, s.table[TokenName.bytes n]? = m.keys.idxOf? (.named n)

theorem unsigned_of_nonneg {i : Int32} (h : 0 ≤ i) : (Token.unsigned i : Int) = i.toInt := by
  have nonneg : 0 ≤ i.toInt := by simpa using Int32.le_iff_toInt_le.1 h
  have wide : (0 : Int64) ≤ i.toInt64 := Int64.le_iff_toInt_le.2 (by simpa using nonneg)
  rw [Token.unsigned, Int64.toNat_toUInt64_of_le wide, Int64.toNatClampNeg, Int32.toInt_toInt64]
  exact Int.toNat_of_nonneg nonneg

/-- Keys do not repeat, so that the first place of a key is its only one. -/
theorem idxOf?_keys_iff (m : TokenMap named α) {t : Token} {p : Nat} :
    m.keys.idxOf? t = some p ↔ m.keys[p]? = some t := by
  have distinct := m.nodup_keys
  rw [List.idxOf?_eq_some_iff, List.getElem?_eq_some_iff]
  refine exists_congr fun bound => ⟨And.left, fun here => ⟨here, fun q before there => ?_⟩⟩
  have := (distinct.getElem_inj_iff).1 (there.trans here.symm)
  omega

/-- Under indices, the key at each place is the place itself. -/
theorem keys_getElem?_iff (m : TokenMap false α) {i : Int32} {p : Nat} :
    m.keys[p]? = some (.index i) ↔ p < m.size ∧ i.toInt = p := by
  obtain ⟨bound, keys⟩ := m.wellKeyed
  rw [TokenMap.keys, keys, List.length_map]
  rw [List.length_map] at bound
  by_cases inside : p < m.entries.length
  · have small : (Int32.ofNat p).toInt = p := Int32.toInt_ofNat_of_lt (by omega)
    simp [TokenMap.size, inside, ← Int32.toInt_inj, small, eq_comm]
  · simp [TokenMap.size, inside]

/-- The same answer from memory as from the map.  After a failure the memory is what it was. -/
def Matches (s : Slots named α) (out : Except TokenMapFault Unit × Slots named α) :
    Except TokenMapFault (TokenMap named α) → Prop
  | .ok m'   => out.1 = .ok () ∧ out.2.InStep m'
  | .error f => out = (.error f, s)

namespace InStep

variable {s : Slots named α} {m m' : TokenMap named α} {t : Token}

/-- Whatever the flavour, a token is found at its place among the keys. -/
theorem find (h : s.InStep m) (t : Token) : s.find t = m.keys.idxOf? t := by
  cases named with
  | true =>
      cases t with
      | named n => exact h.table rfl n
      | index i =>
          refine (List.idxOf?_eq_none_iff.2 fun there => ?_).symm
          exact nomatch m.wellKeyed.1 _ there
  | false =>
      cases t with
      | named n =>
          refine (List.idxOf?_eq_none_iff.2 fun there => ?_).symm
          rw [TokenMap.keys, m.wellKeyed.2] at there
          simp at there
      | index i =>
          ext p
          rw [idxOf?_keys_iff, keys_getElem?_iff, Slots.find, h.entries]
          by_cases below : i < 0
          · have := Int32.lt_iff_toInt_lt.1 below
            simp [below] at this ⊢
            omega
          · have := unsigned_of_nonneg (Int32.not_lt.1 below)
            simp [below, TokenMap.size]
            omega

theorem contains (h : s.InStep m) (t : Token) : s.contains t = m.contains t := by
  rw [Slots.contains, h.find, Bool.eq_iff_iff, TokenMap.contains_iff, ← not_iff_not, Bool.not_eq_true,
    Option.isSome_eq_false_iff, Option.isNone_iff_eq_none, List.idxOf?_eq_none_iff]

theorem get? (h : s.InStep m) (t : Token) : s.get? t = m.get? t := by
  rw [Slots.get?, h.find, h.entries]
  cases found : m.keys.idxOf? t with
  | none =>
      rw [TokenMap.get?_eq_none (List.idxOf?_eq_none_iff.1 found)]
      rfl
  | some p =>
      have here : (m.entries.map Prod.fst)[p]? = some t := (idxOf?_keys_iff m).1 found
      rw [List.getElem?_map, Option.map_eq_some_iff] at here
      obtain ⟨⟨t, a⟩, here, rfl⟩ := here
      rw [TokenMap.get?_iff.2 ⟨p, here⟩]
      simp [here]

theorem empty : (Slots.empty : Slots named α).InStep TokenMap.empty where
  entries := rfl
  table _ n := by simp [Slots.empty, TokenMap.keys, TokenMap.empty]

/-- A new entry comes last, and so does the place of its name. -/
theorem append (h : s.InStep m) {a : α} (ha : m.add t a = .ok m') : (s.append t a).InStep m' where
  entries := by
    rw [TokenMap.entries_add ha, ← h.entries]
    rfl
  table := by
    rintro rfl n
    have new := TokenMap.not_mem_keys_of_add ha
    have fits := (TokenMap.add_iff.1 ⟨m', ha⟩).2
    cases t with
    | index i => exact fits.elim
    | named k =>
        have untabled : k.bytes ∉ s.table := by
          rw [Std.HashMap.mem_iff_isSome_getElem?, h.table rfl, List.idxOf?_eq_none_iff.2 new]
          exact Bool.false_ne_true
        have length : s.entries.length = m.keys.length := by rw [h.entries, TokenMap.keys, List.length_map]
        rw [TokenMap.keys_add ha, List.idxOf?, List.findIdx?_append, ← List.idxOf?, ← h.table rfl]
        change (s.table.insertIfNew k.bytes s.entries.length)[n.bytes]? = _
        rw [Std.HashMap.getElem?_insertIfNew]
        by_cases same : k = n
        · subst same
          simp [untabled, length]
        · have : k.bytes ≠ n.bytes := fun e => same (TokenName.ext_bytes e)
          simp [this, same]

/-- A token that is not there is accepted or refused on the same grounds. -/
theorem checkNew (h : s.InStep m) (new : t ∉ m.keys) (a : α) :
    s.checkNew t = (m.add t a).map fun _ => () := by
  have length : m.keys.length = s.entries.length := by rw [h.entries, TokenMap.keys, List.length_map]
  have size : m.size = s.entries.length := by rw [h.entries]; rfl
  cases named with
  | true => cases t <;> simp [TokenMap.add, new, Slots.checkNew, Except.map]
  | false =>
      cases t with
      | named n => simp [TokenMap.add, new, Slots.checkNew, Except.map]
      | index i =>
          by_cases next : i.toInt = s.entries.length
          · have nonneg : 0 ≤ i := Int32.le_iff_toInt_le.2 (by simp; omega)
            have := unsigned_of_nonneg nonneg
            have : Token.unsigned i = s.entries.length := by omega
            simp [TokenMap.add, new, Slots.checkNew, Except.map, length, next, this, nonneg]
          · have : Token.unsigned i ≠ s.entries.length ∨ i < 0 := by
              by_cases below : i < 0
              · exact .inr below
              · have := unsigned_of_nonneg (Int32.not_lt.1 below)
                omega
            simp [TokenMap.add, new, Slots.checkNew, Except.map, length, size, next, this]

/-- Adding to memory is adding to the map, whatever the answer. -/
theorem add (h : s.InStep m) (t : Token) (a : α) : s.Matches (s.add t a) (m.add t a) := by
  rw [Slots.add, h.contains]
  by_cases taken : t ∈ m.keys
  · simp [TokenMap.contains, TokenMap.add, taken, Matches]
  · have check := h.checkNew taken a
    cases added : m.add t a with
    | ok m' =>
        rw [added] at check
        simp [TokenMap.contains, taken, check, Except.map, Matches, h.append added]
    | error f =>
        rw [added] at check
        simp [TokenMap.contains, taken, check, Except.map, Matches]

/-- Writing to the place of a token replaces its value and no other. -/
theorem replace (h : s.InStep m) {p : Nat} (found : s.find t = some p) (a : α) :
    ({ s with entries := s.entries.modify p fun e => (e.1, a) } : Slots named α).InStep (m.replace t a) where
  entries := by
    rw [h.find, idxOf?_keys_iff] at found
    refine List.ext_getElem? fun q => ?_
    rw [h.entries, List.getElem?_modify, TokenMap.replace, List.getElem?_map]
    cases here : m.entries[q]? with
    | none => rfl
    | some e =>
        -- no other place has the token, since keys do not repeat
        have key : m.keys[q]? = some e.1 := by rw [TokenMap.keys, List.getElem?_map, here]; rfl
        have place : e.1 = t ↔ p = q := by
          constructor
          · rintro rfl
            exact Option.some_inj.1 (((idxOf?_keys_iff m).2 found).symm.trans ((idxOf?_keys_iff m).2 key))
          · rintro rfl
            exact Option.some_inj.1 (key.symm.trans found)
        by_cases same : p = q
        · simp [same, place.2 same]
        · simp [same, place]
  table := by
    rw [TokenMap.keys_replace]
    exact h.table

theorem set (h : s.InStep m) (t : Token) (a : α) : s.Matches (s.set t a) (m.set t a) := by
  have contains := h.contains t
  rw [Slots.set, TokenMap.set, ← contains, Slots.contains]
  cases found : s.find t with
  | none => simpa using h.add t a
  | some p => simp [Matches, h.replace found]

/-- Every call is answered from memory as from the map, and keeps the two in step. -/
theorem edit (h : s.InStep m) (e : Edit α) : s.Matches (s.edit e) (e.on m) := by
  cases e with
  | add t a => exact h.add t a
  | set t a => exact h.set t a

theorem after (h : s.InStep m) (e : Edit α) : (s.edit e).2.InStep (m.after e) := by
  have matched := h.edit e
  rw [TokenMap.after]
  cases he : e.on m with
  | ok m' =>
      rw [he] at matched
      exact matched.2
  | error f =>
      rw [he] at matched
      rw [matched]
      exact h

theorem afterAll (h : s.InStep m) (es : List (Edit α)) : (s.afterAll es).InStep (m.afterAll es) := by
  induction es generalizing s m with
  | nil => exact h
  | cons e es ih => exact ih (h.after e)

end InStep

end Slots

/-! ### Dictionaries -/

/-- A token map is a dictionary that remembers the order of its tokens, in either flavour and after any calls: with the history of the calls that succeeded,

* a token may be added if it is not there and fits, and may be set if it is there or may be added;
* the tokens are those of the history in the order in which they came first, and under each is what was written last;
* the map in memory has the same entries and answers every further call alike, and a call that fails does not touch it. -/
theorem token_maps_are_dictionaries {named : Bool} {α : Type} (es : List (Edit α)) :
    let m : TokenMap named α := TokenMap.empty.afterAll es
    let ws := (TokenMap.empty : TokenMap named α).history es
    let s : Slots named α := Slots.empty.afterAll es
    (∀ t a, (∃ m', m.add t a = .ok m') ↔ m.contains t = false ∧ t.Fits m.size named) ∧
    (∀ t a, (∃ m', m.set t a = .ok m') ↔ m.contains t = true ∨ ∃ m', m.add t a = .ok m') ∧
    m.keys = (ws.map Prod.fst).eraseDups ∧ m.keys.Nodup ∧ WellKeyed named m.keys ∧
    (∀ t, m.contains t = true ↔ t ∈ ws.map Prod.fst) ∧
    (∀ t, m.get t = match ws.reverse.lookup t with
      | some a => .ok a
      | none   => .error (.missing t)) ∧
    s.entries = m.entries ∧
    (∀ t, s.contains t = m.contains t ∧ s.get? t = m.get? t) ∧
    ∀ e, s.Matches (s.edit e) (e.on m) := by
  intro m ws s
  have recounts : m.Recounts ws := by simpa using TokenMap.Recounts.empty.afterAll es
  have inStep : s.InStep m := Slots.InStep.empty.afterAll es
  refine ⟨fun t a => ?_, fun t a => ?_, recounts.keys, m.nodup_keys, m.wellKeyed, fun t => ?_,
    fun t => ?_, inStep.entries, fun t => ⟨inStep.contains t, inStep.get? t⟩, inStep.edit⟩
  · rw [TokenMap.add_iff, ← TokenMap.contains_iff, Bool.not_eq_true]
  · rw [TokenMap.set_iff, ← TokenMap.contains_iff]
  · rw [TokenMap.contains_iff, recounts.mem_iff]
  · rw [← recounts.value]
    rfl

/-- An index below zero is refused, and what is there already is replaced. -/
example :
    let m : TokenMap false Nat :=
      TokenMap.empty.afterAll [.add (.index 0) 7, .add (.index (-1)) 8, .set (.index 0) 9]
    m.entries = [(.index 0, 9)] := by
  decide

end CilCatalog
