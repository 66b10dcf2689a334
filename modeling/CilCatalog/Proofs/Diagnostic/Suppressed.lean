import CilCatalog.Proofs.Diagnostic.Conserved

/-!
# Suppressed diagnostics

Suppressing a diagnostic takes its own severity away and leaves those of the diagnostics attached to it.  So it is the suppressed one alone that is not printed any more; the others come out when it is overwritten, given up or printed with what it has been attached to, wherever it has been moved before.

* `Desk.inner_le_act`, `Desk.inner_le_run`: what is attached to something stays attached until it is issued, and at the end of a run it has been issued.
* `Desk.suppress_pending`: suppressing waives one report and no other.
* `suppression_spares_attached`: the two put together.
-/

namespace CilCatalog

/-! ### The end of the program -/

namespace Report

/-- What is printed of what there is to issue: nothing comes behind a report that ends the program. -/
def untilEnd : List Report → List Report
  | []      => []
  | r :: rs => if r.severity.endsProgram then [r] else r :: untilEnd rs

variable {rs : List Report} {r : Report}

theorem mem_of_mem_untilEnd (h : r ∈ untilEnd rs) : r ∈ rs := by
  induction rs with
  | nil => exact h
  | cons r' rs ih =>
      rw [untilEnd] at h
      split at h
      · exact List.mem_cons.2 (.inl (List.mem_singleton.1 h))
      · exact List.mem_cons.2 ((List.mem_cons.1 h).imp_right ih)

/-- Everything is printed unless the program ends. -/
theorem untilEnd_eq_or (rs : List Report) :
    untilEnd rs = rs ∨ ∃ r ∈ untilEnd rs, r.severity.endsProgram = true := by
  induction rs with
  | nil => exact .inl rfl
  | cons r rs ih =>
      rw [untilEnd]
      split
      · next ends => exact .inr ⟨r, List.mem_singleton.2 rfl, ends⟩
      · rcases ih with all | ⟨r', hr', ends⟩
        · exact .inl (congrArg (r :: ·) all)
        · exact .inr ⟨r', List.mem_cons_of_mem _ hr', ends⟩

end Report

/-! ### What is attached -/

namespace Diagnostic

/-- What is attached to a diagnostic, at any depth, has still to issue. -/
def inner (d : Diagnostic) : List Report := (unprintedAll d.attached).map report

theorem pending_eq_own_append (d : Diagnostic) : d.pending = d.own ++ d.inner := d.pending_eq

theorem inner_empty : empty.inner = [] := rfl

theorem inner_moved (d : Diagnostic) : d.moved.inner = [] := rfl

theorem inner_attach (d other : Diagnostic) (before : Bool) :
    (d.attach other before).inner = d.inner ++ other.pending := by
  rw [inner, attach, attached, unprintedAll_append, List.map_append]
  simp [inner, unprintedAll, pending]

theorem inner_le_givingUp (d : Diagnostic) (r : Report) : d.inner.count r ≤ d.givingUp.count r := by
  have all : d.givingUp.Perm d.pending := givingUp_perm d
  rw [all.count_eq r, pending_eq_own_append, List.count_append]
  exact Nat.le_add_left _ _

/-- Printing issues what is attached, or else there is no severity and it stays attached. -/
theorem inner_le_print (d : Diagnostic) (r : Report) :
    d.inner.count r ≤ d.print.issued.count r + d.print.left.inner.count r := by
  by_cases hd : d.severity = .none
  · rw [print_of_none hd]
    exact Nat.le_add_left _ _
  · rw [print_of_ne hd]
    exact Nat.le_add_right_of_le (d.inner_le_givingUp r)

theorem inner_le_printAttached (d : Diagnostic) (r : Report) :
    d.inner.count r ≤ d.printAttached.issued.count r := by
  have all : d.printAttached.issued.Perm d.inner := attached_perm d.attached
  exact Nat.le_of_eq (all.count_eq r).symm

theorem inner_le_suppress (d : Diagnostic) (issueAttached : Bool) (r : Report) :
    d.inner.count r ≤
      (d.suppress issueAttached).issued.count r + (d.suppress issueAttached).left.inner.count r := by
  cases issueAttached with
  | true => exact Nat.le_add_right_of_le (d.inner_le_printAttached r)
  | false => exact Nat.le_add_left _ _

theorem mem_unprinted {d x : Diagnostic} (hx : x ∈ d.unprinted) :
    x = d ∨ x ∈ unprintedAll d.attached := by
  obtain ⟨s, e, t, as⟩ := d
  by_cases hs : s = .none
  · subst hs
    rw [unprinted] at hx
    exact .inr hx
  · rw [unprinted_mk hs] at hx
    exact List.mem_cons.1 hx

theorem unprinted_of_attached {d x : Diagnostic} (hx : x ∈ unprintedAll d.attached) :
    x ∈ d.unprinted := by
  obtain ⟨s, e, t, as⟩ := d
  by_cases hs : s = .none
  · subst hs
    rw [unprinted]
    exact hx
  · rw [unprinted_mk hs]
    exact List.mem_cons_of_mem _ hx

end Diagnostic

namespace Desk

variable {k : Desk} {n : Bytes} {d : Diagnostic} {a : Action}

/-- What is attached to the diagnostics of a desk, at any depth, has still to issue. -/
def inner (k : Desk) : List Report := k.flatMap fun e => e.2.inner

theorem put_inner (hk : k.Sorted) (n : Bytes) (d : Diagnostic) :
    ((k.put n d).inner ++ (k.at? n).inner).Perm (k.inner ++ d.inner) :=
  put_flatMap Diagnostic.inner_empty hk n d

theorem remove_inner (hk : k.Sorted) (n : Bytes) :
    (inner (k.filter (·.1 != n)) ++ (k.at? n).inner).Perm k.inner :=
  remove_flatMap Diagnostic.inner_empty hk n

theorem inner_at?_le (hk : k.Sorted) (n : Bytes) (r : Report) :
    (k.at? n).inner.count r ≤ k.inner.count r := by
  have := (remove_inner hk n).count_eq r
  rw [List.count_append] at this
  omega

/-- A diagnostic may take the place of another, if what was attached to that one is issued or attached to the new one. -/
theorem inner_le_put (hk : k.Sorted) {issued : List Report} {r : Report}
    (h : (k.at? n).inner.count r ≤ issued.count r + d.inner.count r) :
    k.inner.count r ≤ issued.count r + (k.put n d).inner.count r := by
  have put := (put_inner hk n d).count_eq r
  rw [List.count_append, List.count_append] at put
  omega

/-- What is attached to something is issued by an action or still attached to something. -/
theorem inner_le_act (hk : k.Sorted) (ha : a.Apart) (r : Report) :
    k.inner.count r ≤ (k.act a).1.count r + (k.act a).2.inner.count r := by
  cases a with
  | put n d => exact inner_le_put hk (Nat.le_add_right_of_le ((k.at? n).inner_le_givingUp r))
  | attach n other before =>
      -- what was attached to the other one leaves its place and comes in again with it
      have ne : n ≠ other := ha
      have away := (put_inner hk other (k.at? other).moved).count_eq r
      have put := (put_inner (sorted_put hk other (k.at? other).moved) n
        ((k.at? n).attach (k.at? other) before)).count_eq r
      rw [at?_put_of_ne ne, Diagnostic.inner_attach, Diagnostic.pending_eq_own_append] at put
      rw [Diagnostic.inner_moved] at away
      simp [act] at put away ⊢
      omega
  | print n => exact inner_le_put hk ((k.at? n).inner_le_print r)
  | printAttached n =>
      exact inner_le_put hk (Nat.le_add_right_of_le ((k.at? n).inner_le_printAttached r))
  | suppress n issueAttached => exact inner_le_put hk ((k.at? n).inner_le_suppress issueAttached r)
  | move n other =>
      by_cases same : n = other
      · simp [act, same]
      · have away := (put_inner hk other (k.at? other).moved).count_eq r
        have put := (put_inner (sorted_put hk other (k.at? other).moved) n (k.at? other)).count_eq r
        have old := (Diagnostic.givingUpAll_perm (k.at? n).attached).count_eq r
        rw [at?_put_of_ne same] at put
        rw [Diagnostic.inner_moved] at away
        simp [act, settle, same, Diagnostic.overwrite, Diagnostic.inner] at put away old ⊢
        omega
  | giveUp n =>
      have left := (remove_inner hk n).count_eq r
      have old := (k.at? n).inner_le_givingUp r
      simp [act] at left ⊢
      omega

theorem inner_le_pending (k : Desk) (r : Report) : k.inner.count r ≤ k.pending.count r := by
  induction k with
  | nil => exact Nat.le_refl _
  | cons e k ih =>
      have cons : inner (e :: k) = e.2.inner ++ inner k := rfl
      rw [cons, pending_cons, Diagnostic.pending_eq_own_append]
      simp only [List.count_append]
      omega

/-- Whatever is attached to something is issued in the end, however the run goes on. -/
theorem inner_le_run {as : List Action} (hk : k.Sorted) (has : ∀ a ∈ as, a.Apart) (r : Report) :
    k.inner.count r ≤ (k.issuedBy as).count r := by
  induction as generalizing k with
  | nil =>
      have clear := k.clearing_perm.count_eq r
      rw [issuedBy_nil, clear]
      exact k.inner_le_pending r
  | cons a as ih =>
      obtain ⟨ha, has⟩ := List.forall_mem_cons.1 has
      have step := inner_le_act hk ha r
      have rest := ih (sorted_act hk a) has
      rw [issuedBy_cons, List.count_append]
      omega

theorem sorted_afterAll (hk : k.Sorted) (as : List Action) : (k.afterAll as).Sorted := by
  induction as generalizing k with
  | nil => exact hk
  | cons a as ih => exact ih (sorted_act hk a)

/-! ### Suppressing -/

/-- Suppressing a diagnostic leaves to be issued what is attached to it, and the other diagnostics. -/
theorem suppress_pending (hk : k.Sorted) (n : Bytes) :
    (k.act (.suppress n false)).2.pending.Perm
      ((k.at? n).inner ++ pending (k.filter (·.1 != n))) := by
  have put := put_balance hk n ((k.at? n).suppress false).left
  have others := remove_balance hk n
  rw [List.perm_iff_count] at put others ⊢
  intro r
  have put := put r
  have others := others r
  change ((k.put n _).pending ++ (k.at? n).pending).count r =
    (k.pending ++ (k.at? n).inner).count r at put
  simp [act, settle] at put others ⊢
  omega

theorem inner_suppress_ge (hk : k.Sorted) (n : Bytes) (r : Report) :
    (k.at? n).inner.count r ≤ (k.act (.suppress n false)).2.inner.count r := by
  have stays := inner_le_act hk (a := .suppress n false) trivial r
  have here := inner_at?_le hk n r
  have nothing : (k.act (.suppress n false)).1.count r = 0 := rfl
  omega

/-- In a run after a diagnostic has been suppressed, all that is attached to it is issued; what comes besides has nothing to do with it. -/
theorem issued_after_suppress {as : List Action} (hk : k.Sorted) (has : ∀ a ∈ as, a.Apart) (n : Bytes) :
    ∃ others, ((k.act (.suppress n false)).2.issuedBy as).Perm ((k.at? n).inner ++ others) ∧
      (others ++ (k.act (.suppress n false)).2.waivedBy as).Perm
        (pending (k.filter (·.1 != n)) ++ as.flatMap Action.made) := by
  have hk' := sorted_act hk (.suppress n false)
  have covered : ∀ r ∈ (k.at? n).inner,
      (k.at? n).inner.count r ≤ ((k.act (.suppress n false)).2.issuedBy as).count r := fun r _ =>
    Nat.le_trans (inner_suppress_ge hk n r) (inner_le_run hk' has r)
  -- the others are what is issued over and above what was attached
  have split := List.subperm_append_diff_self_of_count_le covered
  refine ⟨_, split.symm, ?_⟩
  have balance := run_balance_of_apart hk' has
  have left := suppress_pending hk n
  rw [List.perm_iff_count] at split balance left ⊢
  intro r
  have split := split r
  have balance := balance r
  have left := left r
  simp only [List.count_append] at split balance left ⊢
  omega

/-- Nothing is printed any more of a diagnostic and of what is attached to it, when it is suppressed and a run goes on. -/
def Silences (k : Desk) (n : Bytes) (as : List Action) : Prop :=
  ∀ d ∈ (k.at? n).unprinted, d.report ∉ Report.untilEnd ((k.act (.suppress n false)).2.issuedBy as)

end Desk

/-- Suppressing spares what is attached.  In every run that suppresses a diagnostic and ends with clearing the desk, whatever is done to the diagnostic later:

* suppressing issues nothing;
* what is attached to the diagnostic at any depth is issued later, each once; whatever else is issued or waived comes of the other diagnostics and of those made later;
* the diagnostic itself is not printed any more, and what is attached is printed unless the program ends before;
* so all of it stays unprinted just if nothing that is attached has a severity. -/
theorem suppression_spares_attached (before later : List Desk.Action) (n : Bytes)
    (apart : ∀ a ∈ before ++ later, a.Apart) :
    let k := Desk.afterAll [] before
    let d := k.at? n
    let issued := (k.act (.suppress n false)).2.issuedBy later
    let waived := (k.act (.suppress n false)).2.waivedBy later
    let elsewhere := Desk.pending (k.filter (·.1 != n)) ++ later.flatMap Desk.Action.made
    (k.act (.suppress n false)).1 = [] ∧
    (∃ others, issued.Perm (d.inner ++ others) ∧ (others ++ waived).Perm elsewhere) ∧
    (d.report ∉ d.inner ++ elsewhere → d.report ∉ Report.untilEnd issued) ∧
    ((∀ r ∈ d.inner, r ∈ Report.untilEnd issued) ∨
      ∃ r ∈ Report.untilEnd issued, r.severity.endsProgram = true) ∧
    (d.report ∉ d.inner ++ elsewhere → (∀ r ∈ issued, r.severity.endsProgram = false) →
      (k.Silences n later ↔ d.inner = [])) := by
  intro k d issued waived elsewhere
  have hk : k.Sorted := Desk.sorted_afterAll List.Pairwise.nil before
  obtain ⟨others, split, rest⟩ := Desk.issued_after_suppress hk
    (fun a ha => apart a (List.mem_append_right _ ha)) n
  have own : d.report ∉ d.inner ++ elsewhere → d.report ∉ Report.untilEnd issued := by
    intro unlike shown
    rcases List.mem_append.1 (split.mem_iff.1 (Report.mem_of_mem_untilEnd shown)) with hr | hr
    · exact unlike (List.mem_append_left _ hr)
    · exact unlike (List.mem_append_right _ (rest.mem_iff.1 (List.mem_append_left _ hr)))
  have attached : (∀ r ∈ d.inner, r ∈ Report.untilEnd issued) ∨
      ∃ r ∈ Report.untilEnd issued, r.severity.endsProgram = true := by
    refine (Report.untilEnd_eq_or issued).imp_left fun all r hr => ?_
    rw [all]
    exact split.mem_iff.2 (List.mem_append_left _ hr)
  refine ⟨rfl, ⟨others, split, rest⟩, own, attached, fun unlike goesOn => ⟨fun silent => ?_, fun none => ?_⟩⟩
  · have shown := attached.resolve_right fun ⟨r, hr, ends⟩ =>
      nomatch (goesOn r (Report.mem_of_mem_untilEnd hr)).symm.trans ends
    refine List.eq_nil_iff_forall_not_mem.2 fun r hr => ?_
    obtain ⟨x, hx, rfl⟩ := List.mem_map.1 hr
    exact silent x (Diagnostic.unprinted_of_attached hx) (shown _ hr)
  · intro x hx
    rcases Diagnostic.mem_unprinted hx with rfl | hx
    · exact own unlike
    · exact absurd (List.mem_map_of_mem hx) (none ▸ List.not_mem_nil)

/-- An error to which a note is attached, to which a warning is attached. -/
def nestedNotes : List Desk.Action :=
  [.put [1] (.mk .error 0 [1] []), .put [2] (.mk .note 0 [2] []), .put [3] (.mk .warning 0 [3] []),
    .attach [2] [3] false, .attach [1] [2] true]

/-- The error is suppressed, printed to no effect, moved and overwritten, and then its note and the warning come out. -/
theorem suppression_spares_attached_nestedNotes :
    (∀ a ∈ nestedNotes ++ [.print [1], .move [4] [1], .put [5] (.mk .error 0 [5] []), .move [4] [5]],
      a.Apart) ∧
    Report.untilEnd (((Desk.afterAll [] nestedNotes).act (.suppress [1] false)).2.issuedBy
      [.print [1], .move [4] [1], .put [5] (.mk .error 0 [5] []), .move [4] [5]]) =
      [⟨.note, 0, [2]⟩, ⟨.warning, 0, [3]⟩, ⟨.error, 0, [5]⟩] ∧
    ¬ (Desk.afterAll [] nestedNotes).Silences [1]
      [.print [1], .move [4] [1], .put [5] (.mk .error 0 [5] []), .move [4] [5]] := by
  have apart : ∀ a ∈ nestedNotes ++
      [.print [1], .move [4] [1], .put [5] (.mk .error 0 [5] []), .move [4] [5]], a.Apart := by
    simp [nestedNotes, Desk.Action.Apart]
  refine ⟨apart, by rfl, fun silent => ?_⟩
  obtain ⟨-, -, -, -, just⟩ := suppression_spares_attached _ _ [1] apart
  exact List.cons_ne_nil _ _ ((just (by decide) (by decide)).1 silent)

/-- A note is attached to an error, which is suppressed and given up: the note is printed. -/
theorem not_silences_note :
    ¬ (Desk.afterAll [] [.put [1] (.mk .error 2 [1] []), .put [2] (.mk .note 0 [2] []),
      .attach [1] [2] false]).Silences [1] [.giveUp [1]] := by
  intro silent
  have tree : (Desk.at? (Desk.afterAll [] [.put [1] (.mk .error 2 [1] []), .put [2] (.mk .note 0 [2] []),
      .attach [1] [2] false]) [1]).unprinted =
      [.mk .error 2 [1] [(.mk .note 0 [2] [], false)], .mk .note 0 [2] []] := by rfl
  exact silent (.mk .note 0 [2] []) (by simp [tree]) (by decide)

end CilCatalog
