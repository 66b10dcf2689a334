import CilCatalog.Proofs.Json.RoundTrip
import CilCatalog.Proofs.Outcome
import Mathlib.Logic.Relation

/-!
# What the reader takes

The reader only ever takes lexemes off the front of its list, none of them a fault or the end of the input, and with the fuel that `parse` gives it stops for a fault of the text and for nothing else.

* `Parse.value_reads`, `Parse.elements_reads` and `Parse.members_reads` prove it of the three functions, each of which takes a lexeme at least.
* `parse_reads`: a text is read up to the end of the input, or refused as malformed.
-/

namespace CilCatalog

namespace Json

open Relation (TransGen)

namespace Parse

/-- `rest` is what is behind the first lexeme of `ls`, which is neither a fault nor the end of the input. -/
def Takes (ls rest : List Lexeme) : Prop := ∃ l, ls = l :: rest ∧ Lexeme.isLast l.kind = false

theorem takes_tail {ls : List Lexeme} {k : LexemeKind} (h : (look ls).kind = k)
    (hk : Lexeme.isLast k = false) : Takes ls ls.tail := by
  cases ls with
  | nil => subst h; exact nomatch hk
  | cons l ls => exact ⟨l, rfl, h ▸ hk⟩

theorem length_of_takes {ls rest : List Lexeme} (h : TransGen Takes ls rest) :
    rest.length < ls.length := by
  induction h with
  | single h => obtain ⟨l, rfl, -⟩ := h; exact Nat.lt_succ_self _
  | tail _ h ih => obtain ⟨l, rfl, -⟩ := h; exact Nat.lt_of_succ_lt ih

theorem reads_unexpected {α : Type} {P : α → Prop} (what : Expectation) (ls : List Lexeme) :
    Reads P (unexpected what ls) := by
  rw [unexpected]
  split <;> exact ⟨_, rfl, rfl⟩

theorem reads_expect {k : LexemeKind} (what : Expectation) (ls : List Lexeme)
    (hk : Lexeme.isLast k = false) : Reads (Takes ls) (expect k what ls) := by
  rw [expect]
  split
  · next h => exact takes_tail h hk
  · exact reads_unexpected what ls

mutual

theorem value_reads : ∀ (fuel : Nat) {depth : Nat} {ls : List Lexeme}, 2 * ls.length + 1 ≤ fuel →
    Reads (fun r => TransGen Takes ls r.2) (value fuel depth ls)
  | fuel + 1, depth, ls, hf => by
      rw [value_succ]
      cases hk : (look ls).kind with
      | true | false | null | integer | string => exact .single (takes_tail hk rfl)
      | openBracket =>
          have ho := takes_tail hk rfl
          have hl := length_of_takes (.single ho)
          dsimp only
          split
          · exact ⟨_, rfl, rfl⟩
          split
          · next hc => exact .head ho (.single (takes_tail hc rfl))
          · refine (elements_reads fuel (by omega)).bind fun ⟨es, ms⟩ hes => ?_
            refine (reads_expect .commaOrBracket ms rfl).bind fun ns hc => ?_
            exact .tail (.head ho hes) hc
      | openBrace =>
          have ho := takes_tail hk rfl
          have hl := length_of_takes (.single ho)
          dsimp only
          split
          · exact ⟨_, rfl, rfl⟩
          split
          · next hc => exact .head ho (.single (takes_tail hc rfl))
          · refine (members_reads fuel (by omega)).bind fun ⟨es, ms⟩ hes => ?_
            refine (reads_expect .commaOrBrace ms rfl).bind fun ns hc => ?_
            exact .tail (.head ho hes) hc
      | _ => exact reads_unexpected .value ls
termination_by structural fuel => fuel

theorem elements_reads : ∀ (fuel : Nat) {depth : Nat} {ls : List Lexeme},
    2 * ls.length + 2 ≤ fuel → Reads (fun r => TransGen Takes ls r.2) (elements fuel depth ls)
  | fuel + 1, depth, ls, hf => by
      rw [elements]
      refine (value_reads fuel (by omega)).bind fun ⟨e, ms⟩ he => ?_
      have hl : ms.length < ls.length := length_of_takes he
      dsimp only
      split
      · next hc =>
          have hc := takes_tail hc rfl
          have hm := length_of_takes (.single hc)
          refine (elements_reads fuel (by omega)).bind fun ⟨es, ns⟩ hes => ?_
          exact .trans he (.head hc hes)
      · exact he
termination_by structural fuel => fuel

theorem members_reads : ∀ (fuel : Nat) {depth : Nat} {seen : List Bytes} {ls : List Lexeme},
    2 * ls.length + 2 ≤ fuel → Reads (fun r => TransGen Takes ls r.2) (members fuel depth seen ls)
  | fuel + 1, depth, seen, ls, hf => by
      rw [members]
      split
      · next k hk =>
          have hn := takes_tail hk rfl
          have h₁ := length_of_takes (.single hn)
          split
          · exact ⟨_, rfl, rfl⟩
          refine (reads_expect .colon ls.tail rfl).bind fun ms hc => ?_
          have h₂ := length_of_takes (.single hc)
          refine (value_reads fuel (by omega)).bind fun ⟨v, ns⟩ hv => ?_
          have h₃ : ns.length < ms.length := length_of_takes hv
          have hm : TransGen Takes ls ns := .head hn (.head hc hv)
          dsimp only
          split
          · next hc =>
              have hc := takes_tail hc rfl
              have h₄ := length_of_takes (.single hc)
              refine (members_reads fuel (by omega)).bind fun ⟨es, os⟩ hes => ?_
              exact .trans hm (.head hc hes)
          · exact hm
      · exact reads_unexpected .memberName ls
termination_by structural fuel => fuel

end

end Parse

/-- Behind the lexemes of a text that is accepted stands the end of the input, and a text that is refused is malformed. -/
theorem parse_reads (s : Bytes) : Reads (fun _ => ∃ rest,
    TransGen Parse.Takes (lexemesFrom 0 s) rest ∧ (Parse.look rest).kind = .endOfInput)
    (parse s) := by
  rw [parse]
  refine (Parse.value_reads _ (Nat.le_refl _)).bind fun r hv => ?_
  obtain ⟨v, rest⟩ := r
  dsimp only
  split
  · next he => exact ⟨rest, hv, he⟩
  · exact Parse.reads_unexpected .endOfInput rest

end Json

end CilCatalog
