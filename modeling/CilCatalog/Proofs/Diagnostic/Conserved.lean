import CilCatalog.Diagnostic.Desk
import CilCatalog.Proofs.Diagnostic.Printing

/-!
# Diagnostics are conserved

A run works on the diagnostics of a desk and ends with clearing it.  Every report that is made on the way is issued, or waived because its diagnostic is suppressed or overwritten first, and none is issued twice.

* `Desk.put_balance`, `Desk.remove_balance`: changing one diagnostic of a desk leaves the others to be issued.
* `Desk.act_balance`: no action loses a report or issues one that is not there.  `Desk.run_balance` says so of runs.
* `Desk.printedBy`: the diagnostics that are printed in a run, as they are when they are printed.  Each issues one piece of what the run issues (`Desk.infix_run`).
* `diagnostics_are_conserved`: the two put together.
-/

namespace CilCatalog

namespace Desk

/-! ### Changing a desk -/

variable {k : Desk} {n m : Bytes} {d : Diagnostic} {a : Action}

/-- Every name comes before those behind it. -/
def Sorted (k : Desk) : Prop := k.Pairwise fun x y => compare x.1 y.1 = .lt

/-- The reports that are still to be issued. -/
def pending (k : Desk) : List Report := k.flatMap fun e => e.2.pending

@[simp] theorem pending_nil : pending [] = [] := rfl

@[simp] theorem pending_cons (e : Bytes × Diagnostic) (k : Desk) :
    pending (e :: k) = e.2.pending ++ k.pending := rfl

theorem at?_cons_self (n : Bytes) (d : Diagnostic) (k : Desk) : at? ((n, d) :: k) n = d := by
  simp [at?]

theorem at?_cons_of_ne (h : m ≠ n) (d : Diagnostic) (k : Desk) : at? ((n, d) :: k) m = k.at? m := by
  have : (m == n) = false := by simpa using h
  simp [at?, List.lookup_cons, this]

/-- There is nothing under a name that comes before all others. -/
theorem at?_of_before (h : ∀ e ∈ k, compare n e.1 = .lt) : k.at? n = .empty := by
  have : k.lookup n = none := by
    rw [List.lookup_eq_none_iff]
    intro e he
    have before := h e he
    by_contra same
    simp at same
    simp [same] at before
  simp [at?, this]

theorem at?_put_of_ne (h : m ≠ n) (d : Diagnostic) (k : Desk) : (k.put n d).at? m = k.at? m := by
  induction k with
  | nil => simp [put, at?_cons_of_ne h]
  | cons e k ih =>
      obtain ⟨n', d'⟩ := e
      rw [put]
      split
      · exact at?_cons_of_ne h d _
      · next same =>
          have same := Std.compare_eq_iff_eq.1 same
          subst same
          rw [at?_cons_of_ne h, at?_cons_of_ne h]
      · by_cases here : m = n'
        · subst here
          rw [at?_cons_self, at?_cons_self]
        · rw [at?_cons_of_ne here, at?_cons_of_ne here, ih]

theorem mem_put {e : Bytes × Diagnostic} (h : e ∈ k.put n d) : e.1 = n ∨ e ∈ k := by
  induction k with
  | nil => simp [put] at h; simp [h]
  | cons f k ih =>
      obtain ⟨n', d'⟩ := f
      rw [put] at h
      split at h
      · rcases List.mem_cons.1 h with rfl | h
        · exact .inl rfl
        · exact .inr h
      · rcases List.mem_cons.1 h with rfl | h
        · exact .inl rfl
        · exact .inr (List.mem_cons_of_mem _ h)
      · rcases List.mem_cons.1 h with rfl | h
        · exact .inr List.mem_cons_self
        · exact (ih h).imp id (List.mem_cons_of_mem _)

theorem sorted_put (hk : k.Sorted) (n : Bytes) (d : Diagnostic) : (k.put n d).Sorted := by
  induction k with
  | nil => simp [put, Sorted]
  | cons e k ih =>
      obtain ⟨n', d'⟩ := e
      obtain ⟨head, tail⟩ := List.pairwise_cons.1 hk
      rw [put]
      split
      · next before =>
          refine List.pairwise_cons.2 ⟨fun e he => ?_, hk⟩
          rcases List.mem_cons.1 he with rfl | he
          · exact before
          · exact Std.TransCmp.lt_trans before (head e he)
      · next same =>
          have same := Std.compare_eq_iff_eq.1 same
          subst same
          exact List.pairwise_cons.2 ⟨head, tail⟩
      · next after =>
          refine List.pairwise_cons.2 ⟨fun e he => ?_, ih tail⟩
          rcases mem_put he with rfl | he
          · exact Std.OrientedCmp.gt_iff_lt.1 after
          · exact head e he

section Balance

variable {f : Diagnostic → List Report} (hf : f .empty = [])

include hf

/-- What a diagnostic that is put on a desk contributes joins what the others do, and takes the place of what was there. -/
theorem put_flatMap (hk : k.Sorted) (n : Bytes) (d : Diagnostic) :
    (((k.put n d).flatMap fun e => f e.2) ++ f (k.at? n)).Perm ((k.flatMap fun e => f e.2) ++ f d) := by
  induction k with
  | nil => simp [put, at?, hf]
  | cons e k ih =>
      obtain ⟨n', d'⟩ := e
      obtain ⟨head, tail⟩ := List.pairwise_cons.1 hk
      rw [put, List.perm_iff_count]
      intro r
      split
      · next before =>
          have absent : at? ((n', d') :: k) n = .empty := by
            refine at?_of_before fun e he => ?_
            rcases List.mem_cons.1 he with rfl | he
            · exact before
            · exact Std.TransCmp.lt_trans before (head e he)
          simp [absent, hf]
          omega
      · next same =>
          have same := Std.compare_eq_iff_eq.1 same
          subst same
          simp [at?_cons_self]
          omega
      · next after =>
          have other : n ≠ n' := by
            rintro rfl
            simp at after
          have rest := (ih tail).count_eq r
          simp [at?_cons_of_ne other] at rest ⊢
          omega

/-- What is taken off a desk does not contribute any more. -/
theorem remove_flatMap (hk : k.Sorted) (n : Bytes) :
    (((k.filter (·.1 != n)).flatMap fun e => f e.2) ++ f (k.at? n)).Perm (k.flatMap fun e => f e.2) := by
  induction k with
  | nil => simp [at?, hf]
  | cons e k ih =>
      obtain ⟨n', d'⟩ := e
      obtain ⟨head, tail⟩ := List.pairwise_cons.1 hk
      by_cases here : n = n'
      · subst here
        -- all other names are different, and so nothing else is taken off
        have others : k.filter (·.1 != n) = k := by
          refine List.filter_eq_self.2 fun e he => ?_
          have before := head e he
          by_contra same
          simp at same
          simp [same] at before
        simpa [at?_cons_self, others] using List.perm_append_comm
      · have : (n' != n) = true := by simpa using Ne.symm here
        simpa [at?_cons_of_ne here, this] using (ih tail).append_left (f d')

end Balance

/-- What is put on a desk joins what is still to be issued, and takes the place of what was there. -/
theorem put_balance (hk : k.Sorted) (n : Bytes) (d : Diagnostic) :
    ((k.put n d).pending ++ (k.at? n).pending).Perm (k.pending ++ d.pending) :=
  put_flatMap Diagnostic.pending_empty hk n d

/-- What is taken off a desk is not on it any more. -/
theorem remove_balance (hk : k.Sorted) (n : Bytes) :
    (pending (k.filter (·.1 != n)) ++ (k.at? n).pending).Perm k.pending :=
  remove_flatMap Diagnostic.pending_empty hk n

theorem sorted_remove (hk : k.Sorted) (n : Bytes) : Sorted (k.filter (·.1 != n)) :=
  List.Pairwise.filter _ hk

/-! ### Actions -/

/-- What an action is there to issue: all that a new diagnostic has. -/
def Action.made : Action → List Report
  | .put _ d => d.pending
  | _        => []

/-- What will not be issued any more after an action: the report of a diagnostic that is suppressed or overwritten before it has been printed. -/
def waived (k : Desk) : Action → List Report
  | .suppress n _ => (k.at? n).own
  | .move n other => if n = other then [] else (k.at? n).own
  | _             => []

/-- The diagnostics that are printed by an action, among them those that are attached to another. -/
def printed (k : Desk) : Action → List Diagnostic
  | .put n _ | .giveUp n => (k.at? n).unprinted
  | .attach _ _ _        => []
  | .print n             => if (k.at? n).severity = .none then [] else (k.at? n).unprinted
  | .printAttached n     => Diagnostic.unprintedAll (k.at? n).attached
  | .suppress n attached => if attached then Diagnostic.unprintedAll (k.at? n).attached else []
  | .move n other        => if n = other then [] else Diagnostic.unprintedAll (k.at? n).attached

/-- New diagnostics do not end the program, and none is attached to itself. -/
def Action.Proper : Action → Prop
  | .put _ d          => ∀ x ∈ d.unprinted, x.severity.endsProgram = false
  | .attach n other _ => n ≠ other
  | _                 => True

/-- No diagnostic is attached to itself. -/
def Action.Apart : Action → Prop
  | .attach n other _ => n ≠ other
  | _                 => True

theorem Action.Proper.apart (ha : a.Proper) : a.Apart := by
  cases a with
  | attach n other before => exact ha
  | _ => trivial

theorem sorted_act (hk : k.Sorted) (a : Action) : (k.act a).2.Sorted := by
  cases a with
  | put n d => exact sorted_put hk n d
  | attach n other before => exact sorted_put (sorted_put hk _ _) _ _
  | print n => exact sorted_put hk _ _
  | printAttached n => exact sorted_put hk _ _
  | suppress n attached => exact sorted_put hk _ _
  | move n other =>
      rw [act]
      split
      · exact hk
      · exact sorted_put (sorted_put hk _ _) _ _
  | giveUp n => exact sorted_remove hk n

/-- Nothing gets lost in an action, and nothing comes twice: what is issued, what is waived and what is still to be issued are together what was to be issued before, and what has been made. -/
theorem act_balance (hk : k.Sorted) (ha : a.Apart) :
    ((k.act a).1 ++ k.waived a ++ (k.act a).2.pending).Perm (k.pending ++ a.made) := by
  rw [List.perm_iff_count]
  intro r
  cases a with
  | put n d =>
      have put := (put_balance hk n d).count_eq r
      have old := (Diagnostic.givingUp_perm (k.at? n)).count_eq r
      simp [act, waived, Action.made, Diagnostic.pending] at put old ⊢
      omega
  | attach n other before =>
      have ne : n ≠ other := ha
      have away := (put_balance hk other (k.at? other).moved).count_eq r
      have put := (put_balance (sorted_put hk other (k.at? other).moved) n
        ((k.at? n).attach (k.at? other) before)).count_eq r
      rw [at?_put_of_ne ne, Diagnostic.pending_attach] at put
      simp [act, waived, Action.made, Diagnostic.pending_moved] at put away ⊢
      omega
  | print n =>
      have put := (put_balance hk n (k.at? n).print.left).count_eq r
      have old := (k.at? n).print_balance.count_eq r
      simp [act, settle, waived, Action.made] at put old ⊢
      omega
  | printAttached n =>
      have put := (put_balance hk n (k.at? n).printAttached.left).count_eq r
      have old := (k.at? n).printAttached_balance.count_eq r
      simp [act, settle, waived, Action.made] at put old ⊢
      omega
  | suppress n attached =>
      have put := (put_balance hk n ((k.at? n).suppress attached).left).count_eq r
      have old := ((k.at? n).suppress_balance attached).count_eq r
      simp [act, settle, waived, Action.made] at put old ⊢
      omega
  | move n other =>
      by_cases same : n = other
      · simp [act, waived, Action.made, same]
      · have away := (put_balance hk other (k.at? other).moved).count_eq r
        have put := (put_balance (sorted_put hk other (k.at? other).moved) n (k.at? other)).count_eq r
        have old := ((k.at? n).overwrite_balance (k.at? other)).count_eq r
        have left : ((k.at? n).overwrite (k.at? other)).left = k.at? other := rfl
        rw [at?_put_of_ne same] at put
        simp [act, settle, waived, Action.made, same, left, Diagnostic.pending_moved] at put away old ⊢
        omega
  | giveUp n =>
      have left := (remove_balance hk n).count_eq r
      have old := (Diagnostic.givingUp_perm (k.at? n)).count_eq r
      simp [act, waived, Action.made, Diagnostic.pending] at left old ⊢
      omega

/-- An action issues the reports of the diagnostics that it prints. -/
theorem act_printed (k : Desk) (a : Action) : (k.act a).1.Perm ((k.printed a).map Diagnostic.report) := by
  cases a with
  | put n d => exact Diagnostic.givingUp_perm (k.at? n)
  | attach n other before => exact List.Perm.nil
  | print n =>
      by_cases silent : (k.at? n).severity = .none
      · simp [act, settle, printed, silent, Diagnostic.print_of_none]
      · simpa [act, settle, printed, silent, Diagnostic.print_of_ne] using Diagnostic.givingUp_perm (k.at? n)
  | printAttached n => exact Diagnostic.attached_perm (k.at? n).attached
  | suppress n attached =>
      cases attached with
      | true => exact Diagnostic.attached_perm (k.at? n).attached
      | false => exact List.Perm.nil
  | move n other =>
      by_cases same : n = other
      · simp [act, printed, same]
      · simpa [act, settle, printed, same, Diagnostic.overwrite] using
          Diagnostic.givingUpAll_perm (k.at? n).attached
  | giveUp n => exact Diagnostic.givingUp_perm (k.at? n)

/-- What is issued with a diagnostic that is printed comes in one piece. -/
theorem infix_act {x : Diagnostic} (hx : x ∈ k.printed a) : x.printing <:+: (k.act a).1 := by
  cases a with
  | put n d => exact Diagnostic.infix_givingUp _ hx
  | attach n other before => exact nomatch hx
  | print n =>
      by_cases silent : (k.at? n).severity = .none
      · simp [printed, silent] at hx
      · rw [printed, if_neg silent] at hx
        simpa [act, settle, silent, Diagnostic.print_of_ne] using Diagnostic.infix_givingUp _ hx
  | printAttached n =>
      have := Diagnostic.infix_row [] (Diagnostic.infix_attached _ hx)
      simpa [act, settle, Diagnostic.printAttached] using this
  | suppress n attached =>
      cases attached with
      | true =>
          have := Diagnostic.infix_row [] (Diagnostic.infix_attached _ hx)
          simpa [act, settle, Diagnostic.suppress, Diagnostic.printAttached] using this
      | false => exact nomatch hx
  | move n other =>
      by_cases same : n = other
      · simp [printed, same] at hx
      · rw [printed, if_neg same] at hx
        simpa [act, settle, same, Diagnostic.overwrite] using Diagnostic.infix_givingUpAll _ hx
  | giveUp n => exact Diagnostic.infix_givingUp _ hx

theorem severity_of_printed {x : Diagnostic} (hx : x ∈ k.printed a) : x.severity ≠ .none := by
  cases a with
  | put n d => exact Diagnostic.severity_of_unprinted _ hx
  | attach n other before => exact nomatch hx
  | print n =>
      rw [printed] at hx
      split at hx
      · exact nomatch hx
      · exact Diagnostic.severity_of_unprinted _ hx
  | printAttached n => exact Diagnostic.severity_of_unprintedAll _ hx
  | suppress n attached =>
      cases attached with
      | true => exact Diagnostic.severity_of_unprintedAll _ hx
      | false => exact nomatch hx
  | move n other =>
      rw [printed] at hx
      split at hx
      · exact nomatch hx
      · exact Diagnostic.severity_of_unprintedAll _ hx
  | giveUp n => exact Diagnostic.severity_of_unprinted _ hx

/-! ### Runs -/

/-- The actions of a run, each with the desk on which it works. -/
def steps (k : Desk) : List Action → List (Desk × Action)
  | []      => []
  | a :: as => (k, a) :: (k.act a).2.steps as

/-- The desk at the end of a run. -/
def afterAll (k : Desk) (as : List Action) : Desk := as.foldl (fun k a => (k.act a).2) k

/-- What is issued in a run, and then by clearing the desk. -/
def issuedBy (k : Desk) (as : List Action) : List Report :=
  ((k.steps as).flatMap fun p => (p.1.act p.2).1) ++ (k.afterAll as).clearing

/-- The diagnostics that are printed in a run, and then by clearing the desk. -/
def printedBy (k : Desk) (as : List Action) : List Diagnostic :=
  ((k.steps as).flatMap fun p => p.1.printed p.2) ++ (k.afterAll as).flatMap fun e => e.2.unprinted

/-- What is waived in a run. -/
def waivedBy (k : Desk) (as : List Action) : List Report :=
  (k.steps as).flatMap fun p => p.1.waived p.2

theorem issuedBy_cons (k : Desk) (a : Action) (as : List Action) :
    k.issuedBy (a :: as) = (k.act a).1 ++ (k.act a).2.issuedBy as := by
  simp [issuedBy, steps, afterAll]

theorem printedBy_cons (k : Desk) (a : Action) (as : List Action) :
    k.printedBy (a :: as) = k.printed a ++ (k.act a).2.printedBy as := by
  simp [printedBy, steps, afterAll]

theorem waivedBy_cons (k : Desk) (a : Action) (as : List Action) :
    k.waivedBy (a :: as) = k.waived a ++ (k.act a).2.waivedBy as := by
  simp [waivedBy, steps]

/-- Clearing issues all that is still to be issued. -/
theorem clearing_perm (k : Desk) : k.clearing.Perm k.pending := by
  induction k with
  | nil => exact List.Perm.nil
  | cons e k ih => exact (Diagnostic.givingUp_perm e.2).append ih

/-- Over a whole run, what is issued and what is waived are together what there was to be issued and what has been made. -/
theorem run_balance_of_apart {as : List Action} (hk : k.Sorted) (has : ∀ a ∈ as, a.Apart) :
    (k.issuedBy as ++ k.waivedBy as).Perm (k.pending ++ as.flatMap Action.made) := by
  induction as generalizing k with
  | nil => simpa [issuedBy, waivedBy, steps, afterAll] using k.clearing_perm
  | cons a as ih =>
      obtain ⟨ha, has⟩ := List.forall_mem_cons.1 has
      rw [List.perm_iff_count]
      intro r
      have step := (act_balance hk ha).count_eq r
      have rest := (ih (sorted_act hk a) has).count_eq r
      simp [issuedBy_cons, waivedBy_cons] at step rest ⊢
      omega

theorem run_balance {as : List Action} (hk : k.Sorted) (has : ∀ a ∈ as, a.Proper) :
    (k.issuedBy as ++ k.waivedBy as).Perm (k.pending ++ as.flatMap Action.made) :=
  run_balance_of_apart hk fun a ha => (has a ha).apart

theorem issuedBy_nil (k : Desk) : k.issuedBy [] = k.clearing := rfl

theorem printedBy_nil (k : Desk) : k.printedBy [] = k.flatMap fun e => e.2.unprinted := rfl

/-- What is issued in a run are the reports of what is printed. -/
theorem run_printed (k : Desk) (as : List Action) :
    (k.issuedBy as).Perm ((k.printedBy as).map Diagnostic.report) := by
  induction as generalizing k with
  | nil =>
      rw [issuedBy_nil, printedBy_nil, List.map_flatMap]
      exact k.clearing_perm
  | cons a as ih =>
      rw [issuedBy_cons, printedBy_cons, List.map_append]
      exact (act_printed k a).append (ih _)

theorem severity_of_run {x : Diagnostic} {as : List Action} (hx : x ∈ k.printedBy as) :
    x.severity ≠ .none := by
  induction as generalizing k with
  | nil =>
      obtain ⟨e, -, hx⟩ := List.mem_flatMap.1 hx
      exact Diagnostic.severity_of_unprinted _ hx
  | cons a as ih =>
      rw [printedBy_cons] at hx
      rcases List.mem_append.1 hx with hx | hx
      · exact severity_of_printed hx
      · exact ih hx

/-- What is issued with a diagnostic that is printed in a run comes in one piece. -/
theorem infix_run {x : Diagnostic} {as : List Action} (hx : x ∈ k.printedBy as) :
    x.printing <:+: k.issuedBy as := by
  induction as generalizing k with
  | nil =>
      obtain ⟨e, he, inside⟩ := List.mem_flatMap.1 hx
      obtain ⟨before, after, rfl⟩ := List.append_of_mem he
      have whole : issuedBy (before ++ e :: after) [] =
          clearing before ++ e.2.givingUp ++ clearing after := by
        simp [issuedBy_nil, clearing]
      rw [whole]
      exact (Diagnostic.infix_givingUp _ inside).trans (List.infix_append _ _ _)
  | cons a as ih =>
      rw [printedBy_cons] at hx
      rw [issuedBy_cons]
      rcases List.mem_append.1 hx with hx | hx
      · exact (infix_act hx).trans (List.prefix_append _ _).isInfix
      · exact (ih hx).trans (List.suffix_append _ _).isInfix

end Desk

/-! ### Conservation -/

/-- Diagnostics are conserved by every run from an empty desk that is cleared in the end:

* what is issued and what is waived are together what has been made, each as often;
* so if the reports that are made differ, each is issued at most once, and exactly once unless it is waived;
* all that is issued comes of diagnostics that are printed, and each of these, where it is issued, comes behind those that were attached to go ahead of it and ahead of those that were attached to follow, both in the order in which they were attached. -/
theorem diagnostics_are_conserved (as : List Desk.Action) (proper : ∀ a ∈ as, a.Proper) :
    let made := as.flatMap Desk.Action.made
    let issued := Desk.issuedBy [] as
    let waived := Desk.waivedBy [] as
    (issued ++ waived).Perm made ∧
    (made.Nodup → issued.Nodup ∧ ∀ r, r ∈ issued ↔ r ∈ made ∧ r ∉ waived) ∧
    issued.Perm ((Desk.printedBy [] as).map Diagnostic.report) ∧
    ∀ d ∈ Desk.printedBy [] as, d.severity ≠ .none ∧ ∃ front behind before after,
      issued = before ++ front ++ d.report :: behind ++ after ∧
      front = d.front.flatMap Diagnostic.printing ∧
      behind = d.back.flatMap Diagnostic.printing ∧
      ((d.front.filter (·.severity ≠ .none)).map Diagnostic.report).Sublist front ∧
      ((d.back.filter (·.severity ≠ .none)).map Diagnostic.report).Sublist behind := by
  intro made issued waived
  have balance : (issued ++ waived).Perm made := Desk.run_balance List.Pairwise.nil proper
  refine ⟨balance, fun distinct => ?_, Desk.run_printed [] as, fun d hd => ?_⟩
  · obtain ⟨once, -, apart⟩ := List.nodup_append.1 (balance.nodup_iff.2 distinct)
    refine ⟨once, fun r => ?_⟩
    rw [← balance.mem_iff, List.mem_append]
    constructor
    · intro hr
      exact ⟨.inl hr, fun hw => apart r hr r hw rfl⟩
    · rintro ⟨hr | hw, hn⟩
      · exact hr
      · exact absurd hw hn
  · have hs := Desk.severity_of_run hd
    obtain ⟨before, after, whole⟩ := Desk.infix_run hd
    rw [Diagnostic.printing_eq hs] at whole
    refine ⟨hs, _, _, before, Diagnostic.leftovers d.attached ++ after, ?_, rfl, rfl,
      Diagnostic.reports_sublist _, Diagnostic.reports_sublist _⟩
    change Desk.issuedBy [] as = _
    rw [← whole]
    simp

/-- An error to which a note is attached to go ahead and another to follow, and a note that is suppressed. -/
def annotated : List Desk.Action :=
  [.put [1] (.mk .error 0 [1] []), .put [2] (.mk .note 0 [2] []), .put [3] (.mk .note 0 [3] []),
    .put [4] (.mk .note 0 [4] []), .attach [1] [3] false, .attach [1] [2] true, .suppress [4] false]

theorem diagnostics_are_conserved_annotated :
    (∀ a ∈ annotated, a.Proper) ∧
    Desk.issuedBy [] annotated = [⟨.note, 0, [2]⟩, ⟨.error, 0, [1]⟩, ⟨.note, 0, [3]⟩] ∧
    Desk.waivedBy [] annotated = [⟨.note, 0, [4]⟩] ∧
    (Desk.issuedBy [] annotated ++ Desk.waivedBy [] annotated).Perm
      (annotated.flatMap Desk.Action.made) := by
  have proper : ∀ a ∈ annotated, a.Proper := by
    simp [annotated, Desk.Action.Proper, Diagnostic.unprinted, Diagnostic.unprintedAll,
      Diagnostic.severity, Severity.endsProgram]
  exact ⟨proper, by rfl, by rfl, (diagnostics_are_conserved annotated proper).1⟩

end CilCatalog
