import CilCatalog.Diagnostic.Basic
import Mathlib.Data.List.Perm.Basic

/-!
# What is printed of a diagnostic

Issuing a diagnostic goes through everything that is attached to it, at any depth, and the ways to do so differ: it is printed, it is given up, or it is done with after it has been printed.  All of them come to the same, namely to print each part that has a severity, once.

* `Diagnostic.unprinted`: the parts with a severity, which are what there is to print.
* `givingUp_perm`, `attached_perm`, `givingUpAll_perm`: what is issued are the reports of these parts, each once.
* `infix_givingUp`, `infix_attached`, `infix_givingUpAll`: what a part issues when it is printed comes in one piece.
* `printing_eq`: the order of such a piece.
* `print_balance` and the like: what an operation on a diagnostic issues, what it waives and what it leaves are together what there was.
-/

namespace CilCatalog

namespace Diagnostic

/-! ### What is still to be issued -/

mutual

/-- The diagnostics with a severity: the diagnostic itself, those attached to it, and so on. -/
def unprinted : Diagnostic → List Diagnostic
  | mk .none _ _ as => unprintedAll as
  | mk s e t as     => mk s e t as :: unprintedAll as

def unprintedAll : List (Diagnostic × Bool) → List Diagnostic
  | []           => []
  | (d, _) :: as => unprinted d ++ unprintedAll as

end

variable {s : Severity} {e : Nat} {t : Bytes} {as bs : List (Diagnostic × Bool)} {d x : Diagnostic}

theorem unprinted_mk (hs : s ≠ .none) : unprinted (mk s e t as) = mk s e t as :: unprintedAll as := by
  rw [unprinted]
  exact hs

theorem printing_mk (hs : s ≠ .none) :
    printing (mk s e t as) = ahead as ++ ⟨s, e, t⟩ :: behind as ++ leftovers as := by
  rw [printing]
  exact hs

theorem givingUp_mk (hs : s ≠ .none) : givingUp (mk s e t as) = printing (mk s e t as) := by
  rw [givingUp, printing_mk hs]
  exact hs

theorem leftovers_cons (hs : s ≠ .none) (before : Bool) :
    leftovers ((mk s e t bs, before) :: as) = leftovers as := by
  rw [leftovers]
  exact hs

mutual

/-- Giving up a diagnostic issues everything that is still to be issued, each once. -/
theorem givingUp_perm : ∀ d, (givingUp d).Perm ((unprinted d).map report)
  | mk s e t as => by
      by_cases hs : s = .none
      · subst hs
        rw [givingUp, unprinted]
        exact givingUpAll_perm as
      · have attached := attached_perm as
        rw [givingUp_mk hs, printing_mk hs, unprinted_mk hs]
        rw [List.perm_iff_count] at attached ⊢
        intro r
        have := attached r
        simp [List.count_cons, report, severity, error, text] at this ⊢
        omega

/-- So do the attached ones: those ahead, those behind, and what is left of those that were printed before. -/
theorem attached_perm : ∀ as, (ahead as ++ behind as ++ leftovers as).Perm ((unprintedAll as).map report)
  | [] => by simp [ahead, behind, leftovers, unprintedAll]
  | (mk s e t bs, before) :: as => by
      have rest := attached_perm as
      rw [List.perm_iff_count] at rest ⊢
      intro r
      have rest := rest r
      by_cases hs : s = .none
      · subst hs
        have inner := (givingUpAll_perm bs).count_eq r
        rw [ahead, behind, leftovers, unprintedAll, unprinted, printing]
        simp at rest inner ⊢
        omega
      · have inner := (attached_perm bs).count_eq r
        rw [ahead, behind, leftovers_cons hs, unprintedAll, unprinted_mk hs, printing_mk hs]
        cases before <;> simp [List.count_cons, report, severity, error, text] at rest inner ⊢ <;> omega

theorem givingUpAll_perm : ∀ as, (givingUpAll as).Perm ((unprintedAll as).map report)
  | [] => by simp [givingUpAll, unprintedAll]
  | (d, _) :: as => by
      rw [givingUpAll, unprintedAll, List.map_append]
      exact (givingUp_perm d).append (givingUpAll_perm as)

end

mutual

theorem severity_of_unprinted : ∀ d, x ∈ unprinted d → x.severity ≠ .none
  | mk s e t as => by
      intro hx
      by_cases hs : s = .none
      · subst hs
        exact severity_of_unprintedAll as (by simpa [unprinted] using hx)
      · rw [unprinted_mk hs] at hx
        rcases List.mem_cons.1 hx with rfl | hx
        · exact hs
        · exact severity_of_unprintedAll as hx

theorem severity_of_unprintedAll : ∀ as, x ∈ unprintedAll as → x.severity ≠ .none
  | [] => by simp [unprintedAll]
  | (d, _) :: as => by
      intro hx
      rw [unprintedAll] at hx
      rcases List.mem_append.1 hx with hx | hx
      · exact severity_of_unprinted d hx
      · exact severity_of_unprintedAll as hx

end

/-- What lies within one of three lists in a row lies within the row, also with something after the first. -/
theorem infix_row {α : Type} {l as bs cs : List α} (between : List α)
    (h : l <:+: as ∨ l <:+: bs ∨ l <:+: cs) : l <:+: as ++ between ++ bs ++ cs := by
  rcases h with h | h | h
  · exact h.trans (List.infix_append [] as (between ++ bs ++ cs) |>.trans (by simp))
  · exact h.trans (List.infix_append (as ++ between) bs cs)
  · exact h.trans (List.suffix_append (as ++ between ++ bs) cs).isInfix

mutual

/-- Whatever is printed of a diagnostic, at any depth, is printed in one piece. -/
theorem infix_givingUp : ∀ d, x ∈ unprinted d → printing x <:+: givingUp d
  | mk s e t as => by
      intro hx
      by_cases hs : s = .none
      · subst hs
        rw [unprinted] at hx
        rw [givingUp]
        exact infix_givingUpAll as hx
      · rw [unprinted_mk hs] at hx
        rw [givingUp_mk hs]
        rcases List.mem_cons.1 hx with rfl | hx
        · exact List.infix_rfl
        · rw [printing_mk hs]
          have := infix_row [⟨s, e, t⟩] (infix_attached as hx)
          simpa using this

/-- One that is attached, at any depth, is printed ahead, behind, or when it is done with. -/
theorem infix_attached : ∀ as, x ∈ unprintedAll as →
    printing x <:+: ahead as ∨ printing x <:+: behind as ∨ printing x <:+: leftovers as
  | [] => by simp [unprintedAll]
  | (mk s e t bs, before) :: as => by
      intro hx
      rw [unprintedAll] at hx
      rcases List.mem_append.1 hx with hx | hx
      · by_cases hs : s = .none
        · subst hs
          rw [unprinted] at hx
          rw [leftovers]
          exact .inr (.inr ((infix_givingUpAll bs hx).trans (List.prefix_append _ _).isInfix))
        · have inside : printing x <:+: printing (mk s e t bs) := by
            rw [← givingUp_mk hs]
            exact infix_givingUp (mk s e t bs) hx
          cases before with
          | true => exact .inl (inside.trans (by simpa [ahead] using (List.prefix_append _ _).isInfix))
          | false => exact .inr (.inl (inside.trans (by simpa [behind] using (List.prefix_append _ _).isInfix)))
      · rcases infix_attached as hx with h | h | h
        · exact .inl (h.trans (by rw [ahead]; exact (List.suffix_append _ _).isInfix))
        · exact .inr (.inl (h.trans (by rw [behind]; exact (List.suffix_append _ _).isInfix)))
        · refine .inr (.inr (h.trans ?_))
          by_cases hs : s = .none
          · subst hs
            rw [leftovers]
            exact (List.suffix_append _ _).isInfix
          · exact (leftovers_cons hs _).symm ▸ List.infix_rfl

theorem infix_givingUpAll : ∀ as, x ∈ unprintedAll as → printing x <:+: givingUpAll as
  | [] => by simp [unprintedAll]
  | (d, _) :: as => by
      intro hx
      rw [unprintedAll] at hx
      rw [givingUpAll]
      rcases List.mem_append.1 hx with hx | hx
      · exact (infix_givingUp d hx).trans (List.prefix_append _ _).isInfix
      · exact (infix_givingUpAll as hx).trans (List.suffix_append _ _).isInfix

end

/-! ### The order of a print -/

/-- Those attached to go ahead, in the order in which they were attached. -/
def front (d : Diagnostic) : List Diagnostic := (d.attached.filter (·.2)).map (·.1)

/-- Those attached to follow, in the order in which they were attached. -/
def back (d : Diagnostic) : List Diagnostic := (d.attached.filter (!·.2)).map (·.1)

theorem ahead_eq (as : List (Diagnostic × Bool)) :
    ahead as = ((as.filter (·.2)).map (·.1)).flatMap printing := by
  induction as with
  | nil => rfl
  | cons p as ih =>
      obtain ⟨d, before⟩ := p
      cases before <;> simp [ahead, ih]

theorem behind_eq (as : List (Diagnostic × Bool)) :
    behind as = ((as.filter (!·.2)).map (·.1)).flatMap printing := by
  induction as with
  | nil => rfl
  | cons p as ih =>
      obtain ⟨d, before⟩ := p
      cases before <;> simp [behind, ih]

/-- Diagnostics that are printed one after the other come out in this order. -/
theorem reports_sublist (ds : List Diagnostic) :
    ((ds.filter (·.severity ≠ .none)).map report).Sublist (ds.flatMap printing) := by
  induction ds with
  | nil => simp
  | cons d ds ih =>
      obtain ⟨s, e, t, as⟩ := d
      rw [List.flatMap_cons]
      by_cases hs : s = .none
      · subst hs
        simpa [severity, printing] using ih
      · have here : [report (mk s e t as)].Sublist (printing (mk s e t as)) := by
          rw [printing_mk hs, List.singleton_sublist]
          simp [report, severity, error, text]
        simpa [severity, hs] using here.append ih

/-- A diagnostic is printed behind those that go ahead of it and ahead of those that follow. -/
theorem printing_eq (hd : d.severity ≠ .none) :
    d.printing = d.front.flatMap printing ++ d.report :: d.back.flatMap printing ++
      leftovers d.attached := by
  obtain ⟨s, e, t, as⟩ := d
  have hs : s ≠ .none := hd
  rw [printing_mk hs, ahead_eq, behind_eq]
  rfl

/-! ### Operations -/

/-- The reports that are still to be issued. -/
def pending (d : Diagnostic) : List Report := d.unprinted.map report

/-- What a diagnostic has still to issue for itself. -/
def own (d : Diagnostic) : List Report := if d.severity = .none then [] else [d.report]

theorem pending_eq (d : Diagnostic) : d.pending = d.own ++ (unprintedAll d.attached).map report := by
  obtain ⟨s, e, t, as⟩ := d
  by_cases hs : s = .none
  · subst hs
    simp [pending, own, unprinted, severity, attached]
  · rw [pending, unprinted_mk hs, own, if_neg (show (mk s e t as).severity ≠ .none from hs)]
    rfl

theorem pending_empty : empty.pending = [] := rfl

theorem pending_moved (d : Diagnostic) : d.moved.pending = [] := rfl

theorem unprintedAll_append (as bs : List (Diagnostic × Bool)) :
    unprintedAll (as ++ bs) = unprintedAll as ++ unprintedAll bs := by
  induction as with
  | nil => simp [unprintedAll]
  | cons p as ih => simp [unprintedAll, ih]

theorem pending_attach (d other : Diagnostic) (before : Bool) :
    (d.attach other before).pending = d.pending ++ other.pending := by
  have own_attach : (d.attach other before).own = d.own := rfl
  rw [pending_eq, own_attach, pending_eq d, pending, attach, attached, unprintedAll_append]
  simp [unprintedAll]

theorem print_of_none (hd : d.severity = .none) : d.print = ⟨[], d⟩ := by
  obtain ⟨s, e, t, as⟩ := d
  obtain rfl : s = .none := hd
  rfl

theorem print_of_ne (hd : d.severity ≠ .none) : d.print = ⟨d.givingUp, mk .none d.error d.text []⟩ := by
  obtain ⟨s, e, t, as⟩ := d
  have hs : s ≠ .none := hd
  rw [print, givingUp_mk hs]
  · rfl
  · exact hs

/-- Printing issues everything and leaves nothing. -/
theorem print_balance (d : Diagnostic) : (d.print.issued ++ d.print.left.pending).Perm d.pending := by
  by_cases hd : d.severity = .none
  · rw [print_of_none hd]
    exact List.Perm.refl _
  · have left : (mk .none d.error d.text []).pending = [] := rfl
    rw [print_of_ne hd, left, List.append_nil]
    exact givingUp_perm d

/-- Of a diagnostic whose attached ones are issued, only its own report is left. -/
theorem printAttached_balance (d : Diagnostic) :
    (d.printAttached.issued ++ d.printAttached.left.pending).Perm d.pending := by
  have left : d.printAttached.left.pending = d.own := by
    rw [pending_eq]
    exact List.append_nil d.own
  rw [left, pending_eq]
  exact List.perm_append_comm.trans ((attached_perm d.attached).append_left d.own)

/-- What is suppressed is not issued any more, but all that is attached to it is. -/
theorem suppress_balance (d : Diagnostic) (issueAttached : Bool) :
    ((d.suppress issueAttached).issued ++ d.own ++ (d.suppress issueAttached).left.pending).Perm
      d.pending := by
  cases issueAttached with
  | true =>
      have left : (d.suppress true).left.pending = [] := rfl
      rw [left, List.append_nil, pending_eq]
      exact List.perm_append_comm.trans ((attached_perm d.attached).append_left d.own)
  | false =>
      have left : (d.suppress false).left.pending = (unprintedAll d.attached).map report := by
        rw [pending_eq]
        rfl
      rw [left, pending_eq]
      exact List.Perm.refl _

/-- What is overwritten is not issued any more, but all that is attached to it is. -/
theorem overwrite_balance (d other : Diagnostic) :
    ((d.overwrite other).issued ++ d.own).Perm d.pending := by
  rw [pending_eq]
  exact List.perm_append_comm.trans ((givingUpAll_perm d.attached).append_left d.own)

end Diagnostic

end CilCatalog
