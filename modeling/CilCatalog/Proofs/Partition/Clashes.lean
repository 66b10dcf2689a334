import CilCatalog.Proofs.Partition

/-!
# Which partitions are refused

A partition that is none of a catalog is refused as bad data, but for tokens that the maps of a catalog refuse themselves: a name that is a key on both sides of a section, and the indices beyond those there are (`Partition.toCatalog_error`).
-/

namespace CilCatalog

namespace PartitionSection

variable {ι δ : Type}

/-- A map refuses a token of the section for `f`: under names one that is a key on both sides, and under indices one beyond those there are. -/
def Clashes (named : Bool) (s : PartitionSection ι δ) (f : TokenMapFault) : Prop :=
  if named then
    ∃ n : TokenName, f = .taken (.named n) ∧ n.bytes ∈ s.references.keys ∧
      n.bytes ∈ s.definitions.keys
  else 0x80000000 < s.size

/-- A name that is refused as one is bad data, and any other is in the map. -/
theorem addNamed_error {part : String} {k : Bytes} {e : Entity ι δ} {m : TokenMap true (Entity ι δ)}
    {f : PartitionFault} (h : addNamed part k e m = .error f) :
    Fault.kind f = .invalidData ∨
      ∃ n : TokenName, f = .store (.taken (.named n)) ∧ n.bytes = k ∧ Token.named n ∈ m.keys := by
  rw [addNamed] at h
  cases hn : TokenName.ofBytes k with
  | error d =>
      rw [Token.ofName, hn] at h
      cases h
      exact .inl rfl
  | ok n =>
      rw [Token.ofName, hn] at h
      dsimp only [Except.map] at h
      by_cases hm : Token.named n ∈ m.keys
      · rw [TokenMap.add, dif_pos hm] at h
        cases h
        exact .inr ⟨n, rfl, TokenName.bytes_of_ofBytes hn, hm⟩
      · rw [TokenMap.add, dif_neg hm] at h
        cases h

/-- The names in a map are those of the references and definitions in front.  One that is refused as taken is met on one side and, as no side has a key twice, stands in front on the other. -/
theorem joinNamed_error {part : String} (todo : Nat) {n : Nat} {defs : Bool} {turns : List Int32}
    {rs : List (Bytes × ι)} {ds : List (Bytes × (ι × δ))} {m : TokenMap true (Entity ι δ)}
    {f : PartitionFault} {ks ls : List Bytes} (hr : (ks ++ rs.map Prod.fst).Nodup)
    (hd : (ls ++ ds.map Prod.fst).Nodup) (hm : ∀ t ∈ m.keys, t.text ∈ ks ∨ t.text ∈ ls)
    (h : joinNamed part todo n defs turns rs ds m = .error f) :
    Fault.kind f = .invalidData ∨
      ∃ n : TokenName, f = .store (.taken (.named n)) ∧ n.bytes ∈ ks ++ rs.map Prod.fst ∧
        n.bytes ∈ ls ++ ds.map Prod.fst := by
  induction todo generalizing n defs turns rs ds m ks ls with
  | zero =>
      rw [joinNamed] at h
      split at h <;> cases h
      exact .inl rfl
  | succ todo ih =>
      -- a key that is not yet in front on its own side
      have fresh : ∀ {k : Bytes} {as bs : List Bytes}, (as ++ k :: bs).Nodup → k ∉ as :=
        fun hn hk => (List.nodup_append.1 hn).2.2 _ hk _ List.mem_cons_self rfl
      have keys : ∀ {k : Bytes} {e : Entity ι δ} {m' : TokenMap true (Entity ι δ)},
          addNamed part k e m = .ok m' → ∀ t ∈ m'.keys, t ∈ m.keys ∨ t.text = k := by
        intro k e m' added t ht
        obtain ⟨u, rfl, entries⟩ := entries_addNamed added
        rw [TokenMap.keys, entries, List.map_append] at ht
        rcases List.mem_append.1 ht with ht | ht
        · exact .inl ht
        · exact .inr (by rw [List.mem_singleton.1 ht])
      rw [joinNamed.eq_def] at h
      dsimp only at h
      split at h
      · next k id d ds' taken =>
          rw [List.map_cons] at hd ⊢
          obtain h | ⟨m', added, h⟩ := bind_eq_error.1 h
          · obtain hf | ⟨n, rfl, rfl, hn⟩ := addNamed_error h
            · exact .inl hf
            · refine .inr ⟨n, rfl, ?_, List.mem_append_right ls List.mem_cons_self⟩
              exact List.mem_append_left _ ((hm _ hn).resolve_right (fresh hd))
          · rw [List.append_cons] at hd ⊢
            refine ih hr hd (fun t ht => ?_) h
            rcases keys added t ht with ht | rfl
            · exact (hm t ht).imp_right (List.mem_append_left _)
            · exact .inr (List.mem_append_right ls (List.mem_singleton_self _))
      · next k id rs' taken =>
          rw [List.map_cons] at hr ⊢
          obtain h | ⟨m', added, h⟩ := bind_eq_error.1 h
          · obtain hf | ⟨n, rfl, rfl, hn⟩ := addNamed_error h
            · exact .inl hf
            · refine .inr ⟨n, rfl, List.mem_append_right ks List.mem_cons_self, ?_⟩
              exact List.mem_append_left _ ((hm _ hn).resolve_left (fresh hr))
          · rw [List.append_cons] at hr ⊢
            refine ih hr hd (fun t ht => ?_) h
            rcases keys added t ht with ht | rfl
            · exact (hm t ht).imp_left (List.mem_append_left _)
            · exact .inl (List.mem_append_right ks (List.mem_singleton_self _))
      · cases h
        exact .inl rfl
      · cases h
        exact .inl rfl

/-- An index is refused only where there are no more. -/
theorem joinIndexed_error {part : String} {s : PartitionSection ι δ} (todo : Nat)
    {m : TokenMap false (Entity ι δ)} {f : PartitionFault}
    (h : joinIndexed part s todo m.size m = .error f) :
    Fault.kind f = .invalidData ∨ ∃ g, f = .store g ∧ 0x80000000 < m.size + todo := by
  induction todo generalizing m with
  | zero => cases h
  | succ todo ih =>
      rw [joinIndexed] at h
      split at h
      · cases h
        exact .inl rfl
      next e _ =>
      cases added : m.add (.index (Int32.ofNat m.size)) e with
      | ok m' =>
          have grown : m'.size = m.size + 1 := by
            rw [TokenMap.size, TokenMap.entries_add added, List.length_append]
            rfl
          rw [added] at h
          dsimp only at h
          rw [← grown] at h
          rw [← Nat.succ_add_eq_add_succ, Nat.succ_eq_add_one, ← grown]
          exact ih h
      | error g =>
          rw [added] at h
          cases h
          refine .inr ⟨g, rfl, Nat.lt_of_not_le fun few => ?_⟩
          have place : (Int32.ofNat m.size).toInt = m.keys.length := by
            rw [Int32.toInt_ofNat_of_lt (by omega), TokenMap.keys, List.length_map, TokenMap.size]
          obtain ⟨m', hm, -⟩ := add_of_wellKeyed e (wellKeyed_append_index m.wellKeyed place)
          cases added.symm.trans hm

theorem toMap_error {part : String} {named : Bool} {s : PartitionSection ι δ} {f : PartitionFault}
    (h : (s.toMap part : Except PartitionFault (TokenMap named (Entity ι δ))) = .error f) :
    Fault.kind f = .invalidData ∨ ∃ g, f = .store g ∧ s.Clashes named g := by
  cases named with
  | true =>
      have none : ∀ t ∈ (TokenMap.empty : TokenMap true (Entity ι δ)).keys,
          t.text ∈ ([] : List Bytes) ∨ t.text ∈ ([] : List Bytes) :=
        fun _ ht => absurd ht List.not_mem_nil
      obtain hf | ⟨n, rfl, hr, hd⟩ :=
        joinNamed_error _ s.references.distinct s.definitions.distinct none h
      · exact .inl hf
      · exact .inr ⟨_, rfl, n, rfl, hr, hd⟩
  | false =>
      have h : joinIndexed part s s.size (TokenMap.empty : TokenMap false (Entity ι δ)).size .empty =
        .error f := h
      obtain hf | ⟨g, rfl, hg⟩ := joinIndexed_error s.size h
      · exact .inl hf
      · rw [TokenMap.size, TokenMap.empty, List.length_nil, Nat.zero_add] at hg
        exact .inr ⟨g, rfl, hg⟩

end PartitionSection

namespace Partition

/-- A map of a catalog refuses a token of the partition for `f`. -/
def Clashes (p : Partition) (f : TokenMapFault) : Prop :=
  p.types.Clashes p.options.namedTokens f ∨ p.fields.Clashes p.options.namedTokens f ∨
    p.methods.Clashes p.options.namedTokens f

/-- A partition that is refused otherwise than as bad data has a token that clashes with another. -/
theorem toCatalog_error {p : Partition} {f : PartitionFault} (h : p.toCatalog = .error f) :
    Fault.kind f = .invalidData ∨ ∃ g, f = .store g ∧ p.Clashes g := by
  rw [toCatalog] at h
  obtain h | ⟨ts, -, h⟩ := bind_eq_error.1 h
  · obtain hf | ⟨g, rfl, hg⟩ := PartitionSection.toMap_error h
    · exact .inl hf
    · exact .inr ⟨g, rfl, .inl hg⟩
  obtain h | ⟨fs, -, h⟩ := bind_eq_error.1 h
  · obtain hf | ⟨g, rfl, hg⟩ := PartitionSection.toMap_error h
    · exact .inl hf
    · exact .inr ⟨g, rfl, .inr (.inl hg)⟩
  obtain h | ⟨ms, -, h⟩ := bind_eq_error.1 h
  · obtain hf | ⟨g, rfl, hg⟩ := PartitionSection.toMap_error h
    · exact .inl hf
    · exact .inr ⟨g, rfl, .inr (.inr hg)⟩
  · cases h

end Partition

end CilCatalog
