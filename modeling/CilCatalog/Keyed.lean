import CilCatalog.Bytes

/-!
# Keyed lists

Values under byte strings, in the order they were added.  No key occurs twice.
-/

namespace CilCatalog

/-- Values under distinct keys. -/
structure Keyed (α : Type) where
  entries : List (Bytes × α)
  distinct : (entries.map Prod.fst).Nodup

namespace Keyed

variable {α : Type}

def empty : Keyed α := ⟨[], by simp⟩

instance : Inhabited (Keyed α) := ⟨empty⟩

def keys (m : Keyed α) : List Bytes := m.entries.map Prod.fst

def size (m : Keyed α) : Nat := m.entries.length

/-- The value under a key. -/
def get? (m : Keyed α) (k : Bytes) : Option α := m.entries.lookup k

/-- A new key at the end keeps keys distinct. -/
theorem distinct_append {es : List (Bytes × α)} {k : Bytes} (a : α)
    (distinct : (es.map Prod.fst).Nodup) (h : k ∉ es.map Prod.fst) :
    ((es ++ [(k, a)]).map Prod.fst).Nodup := by
  rw [List.map_append]
  refine List.nodup_append.2 ⟨distinct, by simp, fun x hx y hy e => h ?_⟩
  obtain rfl : x = k := e.trans (List.mem_singleton.1 hy)
  exact hx

/-- With one more entry, whose key must be new. -/
def add? (m : Keyed α) (k : Bytes) (a : α) : Option (Keyed α) :=
  if h : k ∈ m.keys then none else some ⟨m.entries ++ [(k, a)], distinct_append a m.distinct h⟩

theorem ext_entries {m n : Keyed α} (h : m.entries = n.entries) : m = n := by
  cases m; cases n; cases h; rfl

theorem entries_add? {m m' : Keyed α} {k : Bytes} {a : α} (h : m.add? k a = some m') :
    m'.entries = m.entries ++ [(k, a)] := by
  unfold add? at h
  split at h
  · cases h
  · cases h; rfl

theorem add?_eq_none_iff {m : Keyed α} {k : Bytes} {a : α} :
    m.add? k a = none ↔ k ∈ m.keys := by
  unfold add?
  split
  · simpa
  · simpa

end Keyed

end CilCatalog
