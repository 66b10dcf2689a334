import CilCatalog.Token

/-!
# Token maps

A token map keeps values under tokens, in the order they came.  Entries can be replaced and are never removed.  There are two flavours: in one the tokens are names, in the other they are the indices from zero on, each entry being stored under its own position.  Either way a token that is present is found by comparing it with the keys; the flavours only differ in which new tokens they take.
-/

namespace CilCatalog

/-- What the keys of a map look like: names without repetition, or the indices in order. -/
def WellKeyed : Bool → List Token → Prop
  | true,  ks => (∀ k ∈ ks, k.isNamed) ∧ ks.Nodup
  | false, ks =>
      ks.length ≤ 0x80000000 ∧ ks = (List.range ks.length).map fun n => .index (Int32.ofNat n)

/-- Values under tokens: under names if `named` holds, and otherwise under indices. -/
structure TokenMap (named : Bool) (α : Type) where
  entries : List (Token × α)
  wellKeyed : WellKeyed named (entries.map Prod.fst)

/-- Why a token finds nothing, or cannot be added. -/
inductive TokenMapFault where
  | missing (t : Token)
  | taken (t : Token)
  | notIndex (t : Token)
  | outOfOrder (i : Int32) (next : Nat)
  | notNamed (t : Token)
deriving DecidableEq

namespace TokenMapFault

def message : TokenMapFault → Bytes
  | missing t      => "No entity for token '" ++ t.text ++ "'"
  | taken t        => "Token '" ++ t.text ++ "' already exists"
  | notIndex t     => "Token '" ++ t.text ++ "' is named, expected an index"
  | outOfOrder i n =>
      "Token " ++ Bytes.signedDecimal i.toInt ++ " is out of range; the next index is " ++
        Bytes.decimal n
  | notNamed t     => "Token '" ++ t.text ++ "' is an index, expected a name"

instance : Fault TokenMapFault where
  kind _ := .invalidArgument
  message := message

end TokenMapFault

/-! ### Keys -/

theorem wellKeyed_nil (named : Bool) : WellKeyed named [] := by
  cases named <;> simp [WellKeyed]

/-- A new name keeps the keys of a named map in shape. -/
theorem wellKeyed_append_named {ks : List Token} {n : TokenName} (h : WellKeyed true ks)
    (hn : Token.named n ∉ ks) : WellKeyed true (ks ++ [.named n]) := by
  refine ⟨fun k hk => ?_, ?_⟩
  · rcases List.mem_append.1 hk with hk | hk
    · exact h.1 k hk
    · cases List.mem_singleton.1 hk; rfl
  · exact List.nodup_append.2
      ⟨h.2, by simp, fun a ha b hb e => hn (by cases List.mem_singleton.1 hb; exact e ▸ ha)⟩

/-- The next index keeps the keys of an indexed map in shape. -/
theorem wellKeyed_append_index {ks : List Token} {i : Int32} (h : WellKeyed false ks)
    (hi : i.toInt = ks.length) : WellKeyed false (ks ++ [.index i]) := by
  have hlt : i.toInt < 0x80000000 := i.toInt_lt
  have hof : Int32.ofNat ks.length = i := by
    rw [← Int32.toInt_inj, Int32.toInt_ofNat_of_lt (by omega), hi]
  refine ⟨by simp; omega, ?_⟩
  rw [List.length_append, List.length_singleton, List.range_succ, List.map_append, ← h.2]
  simp [hof]

namespace TokenMap

variable {named : Bool} {α : Type}

/-- No entries. -/
def empty : TokenMap named α := ⟨[], wellKeyed_nil named⟩

instance : Inhabited (TokenMap named α) := ⟨empty⟩

/-- The tokens in the order they came. -/
def keys (m : TokenMap named α) : List Token := m.entries.map Prod.fst

/-- The values in the order their tokens came. -/
def values (m : TokenMap named α) : List α := m.entries.map Prod.snd

def size (m : TokenMap named α) : Nat := m.entries.length

/-- The value under a token. -/
def get? (m : TokenMap named α) (t : Token) : Option α := m.entries.lookup t

/-- Whether there is an entry for a token. -/
def contains (m : TokenMap named α) (t : Token) : Bool := t ∈ m.keys

/-- The value under a token that must be present. -/
def get (m : TokenMap named α) (t : Token) : Except TokenMapFault α :=
  match m.get? t with
  | some a => .ok a
  | none   => .error (.missing t)

/-- With one more entry, whose token keeps the keys in shape. -/
def push (m : TokenMap named α) (t : Token) (a : α) (h : WellKeyed named (m.keys ++ [t])) :
    TokenMap named α :=
  ⟨m.entries ++ [(t, a)], by simpa [keys] using h⟩

/-- With one more entry, whose token must be new and of the map's flavour. -/
def add (m : TokenMap named α) (t : Token) (a : α) : Except TokenMapFault (TokenMap named α) :=
  if h : t ∈ m.keys then .error (.taken t)
  else match named, t, m, h with
    | true,  .named n, m, h => .ok (m.push (.named n) a (wellKeyed_append_named m.wellKeyed h))
    | true,  .index _, _, _ => .error (.notNamed t)
    | false, .named _, _, _ => .error (.notIndex t)
    | false, .index i, m, _ =>
        if hi : i.toInt = m.keys.length then
          .ok (m.push (.index i) a (wellKeyed_append_index m.wellKeyed hi))
        else .error (.outOfOrder i m.size)

/-- With the value under a token replaced. -/
def replace (m : TokenMap named α) (t : Token) (a : α) : TokenMap named α :=
  ⟨m.entries.map fun e => if e.1 = t then (e.1, a) else e, by
    rw [List.map_map]
    rw [show (Prod.fst ∘ fun e : Token × α => if e.1 = t then (e.1, a) else e) = Prod.fst by
      funext e; simp only [Function.comp]; split <;> rfl]
    exact m.wellKeyed⟩

/-- With `a` under `t`, in place of the value there or as a new entry. -/
def set (m : TokenMap named α) (t : Token) (a : α) : Except TokenMapFault (TokenMap named α) :=
  if m.contains t then .ok (m.replace t a) else m.add t a

/-! ### What the operations do to the entries -/

theorem keys_replace (m : TokenMap named α) (t : Token) (a : α) :
    (m.replace t a).keys = m.keys := by
  simp only [keys, replace, List.map_map]
  congr 1
  funext e
  simp only [Function.comp]
  split <;> rfl

theorem entries_add {m m' : TokenMap named α} {t : Token} {a : α} (h : m.add t a = .ok m') :
    m'.entries = m.entries ++ [(t, a)] := by
  unfold add at h
  split at h
  · cases h
  · cases named <;> cases t <;> simp only at h
    · cases h
    · split at h
      · cases h; rfl
      · cases h
    · cases h; rfl
    · cases h

end TokenMap

end CilCatalog
