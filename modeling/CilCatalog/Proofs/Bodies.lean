import CilCatalog.Proofs.Signatures
import CilCatalog.Proofs.Trees
import CilCatalog.Proofs.Writing.Code

/-!
# Method bodies return from live modules

A body that has been written to a live module is read again as the same body with its tokens turned.  Opcodes, literals, and the numbers of instructions and variables stay.

* `body_returns`: a body whose trees have texts returns, once it has been written.
* `not_returns_adoptive`: it need not return from a module whose types have types of other modules nested in them.
-/

namespace CilCatalog

open Live
open Reader (family)

/-! ### Rows and signatures as operands -/

section Operands

variable {s : Store} {i : ImageId} {r : Row}

/-- The row of a field is read as one. -/
theorem Live.Store.NameableField.rowOperand (h : s.NameableField i r) (s' : Store) :
    Reading.rowOperand s' r =
      Reading.fieldToken s' r >>= fun k => pure (.inline .field (.token k)) := by
  cases h with
  | defined => rfl
  | @referred n name sig parent hk =>
      cases sig with
      | field => rfl
      | _ => cases hk

/-- The row of a method is read as one. -/
theorem Live.Store.NameableMethod.rowOperand (h : s.NameableMethod i r) (s' : Store) :
    Reading.rowOperand s' r =
      Reading.methodToken s' r >>= fun k => pure (.inline .method (.token k)) := by
  cases h with
  | defined => rfl
  | @referred n name sig parent hk =>
      cases sig with
      | method => rfl
      | _ => cases hk

theorem signatureOperand_eq {sig : CallSig} (h : (sig.isMethod || sig.isLocals) = true) (s : Store) :
    Reading.tokenOperand s (.signature sig) = Reading.callSigTree s sig := by
  cases sig with
  | method | locals => simp only [Reading.tokenOperand, CallSig.isNull, h, if_true, if_false, Bool.false_eq_true]
  | _ => cases h

end Operands

/-- What is read without a reader is given. -/
theorem eq_pure_of_gives {α : Type} {x : Reading α} {a : α} (h : ∀ ρ, Gives x ρ a ρ) : x = pure a :=
  funext h

namespace Recoverable

variable {c : Catalog} {ks : List EntityKind} {w w' : WriteState} {size count : Nat}
  (hk : ∀ k : EntityKind, k ∈ ks)

open Runs (ite refuse bind_argument guard)

include hk

theorem fieldOperand (k : Token) : Runs WriteState.Ready w (Writing.fieldOfToken c k) fun w' r =>
    Recoverable c ks w' (Reading.rowOperand · r) (fun f => .inline .field (.token (f .field k)))
      [⟨.field, k⟩] := by
  refine (Runs.fieldOfToken c k).imp fun {w' r} h w'' o hl hw => ?_
  have hr := h.leads hl
  dsimp only
  rw [(hw.fields hr.remembersField).rowOperand]
  exact (Recovers.fieldToken (hw.standsForNames c o) (hk _) (hk _) hr).bind_pure

theorem methodToken (k : Token) : Runs WriteState.Ready w (Writing.methodOfToken c k) fun w' r =>
    Recoverable c ks w' (Reading.methodToken · r) (· .method k) [⟨.method, k⟩] :=
  (Runs.methodOfToken c k).imp fun h _ o hl hw =>
    .methodToken (hw.standsForNames c o) (hk _) (hk _) (h.leads hl)

theorem methodOperand (k : Token) : Runs WriteState.Ready w (Writing.methodOfToken c k) fun w' r =>
    Recoverable c ks w' (Reading.rowOperand · r) (fun f => .inline .method (.token (f .method k)))
      [⟨.method, k⟩] := by
  refine ((Runs.methodOfToken c k).and (methodToken hk k)).imp fun {w' r} h w'' o hl hw => ?_
  dsimp only
  rw [(hw.methods (h.1.leads hl).remembersMethod).rowOperand]
  exact (h.2 w'' o hl hw).bind_pure

/-- The tree of an operand is recovered from the row or the signature that it is written as. -/
theorem tokenOperand {a : SigTree} (ha : a.Formattable) :
    Runs WriteState.Ready w (Writing.tokenOperand c a) fun w' o =>
      Recoverable c ks w' (Reading.tokenOperand · o) (a.rename · .type) (a.uses .type) := by
  rw [Writing.tokenOperand_eq]
  split
  · refine (callSigOf (hk _) ha).bind fun {sig _} _ h => ite (fun hs => .pure ?_) fun _ => refuse
    simp only [signatureOperand_eq hs]
    exact h
  · next t =>
      have ht : t.Formattable := ha.args t List.mem_cons_self
      refine (rowOfTree (hk _) ht).bind fun {r _} _ h => .pure ?_
      simp only [Reading.tokenOperand, rowOperand_type _ h.1]
      exact h.2.bind_pure _
  · exact (fieldOperand hk _).bind fun _ h => .pure h
  · exact refuse
  · exact (methodOperand hk _).bind fun _ h => .pure h
  · next k i =>
      have hi : i.Formattable := (ha.args _ List.mem_cons_self).args i (by simp [SigTree.args])
      refine ((Runs.methodOfToken c k).and (methodToken hk k)).bind fun {method _} _ hm =>
        (callSigOf (hk _) hi).bind fun {sig w₂} hl h => ite (fun _ => ?_) fun _ => refuse
      have hmethod := (hm.1.leads hl).remembersMethod
      refine (Runs.making (Q := fun w' r => Recoverable c ks w' (Reading.rowOperand · r) _ _)
        (.methodSpec sig hmethod) fun _ => ?_).bind fun _ h => .pure h
      have both := (hm.2.leads hl).bind
        (q := fun k g => SigTree.inline .method (.methodSpec (.token k) (i.rename g .type)))
        fun k => h.bind_pure fun i => SigTree.inline .method (.methodSpec (.token k) i)
      exact both.leads (WriteState.Act.methodSpec sig hmethod).leads
  · exact refuse
  · exact refuse

/-- An operand is recovered, its tree or else as it is. -/
theorem operand {op : OpCode} {v : Option Operand}
    (hv : ∀ t ∈ v.toList.flatMap Operand.trees, t.Formattable) :
    Runs WriteState.Ready w (Writing.operand c size count op v) fun w' o =>
      Recoverable c ks w' (Reading.operand · size op o) (fun f => v.map (Operand.rename f))
        (usesOf Operand.uses v) := by
  refine (Runs.operand c size count op v).of_gives fun {o w'} hw hg => ?_
  by_cases htree : ∃ a, v = some (.tree a)
  · obtain ⟨a, rfl⟩ := htree
    obtain ⟨htoken, heq⟩ := gives_treeOperand hg
    have h := ((tokenOperand hk (hv a List.mem_cons_self)).leads hw htoken).2
    rw [usesOf_some]
    simp only [heq]
    exact h.bind_pure _
  · obtain ⟨rfl, hgives⟩ := gives_operand (fun a ha => htree ⟨a, ha⟩) hg
    have heq : ∀ s, Reading.operand s size op o = Pure.pure v := fun s => eq_pure_of_gives (hgives s)
    have still : (∀ f, v.map (Operand.rename f) = v) ∧ usesOf Operand.uses v = [] := by
      cases v with
      | none => exact ⟨fun _ => rfl, rfl⟩
      | some v =>
          cases v with
          | tree a => exact absurd ⟨a, rfl⟩ htree
          | _ => exact ⟨fun _ => rfl, rfl⟩
    simp only [heq, still.1, still.2]
    exact pure v

theorem instruction {i : Instruction} (hi : ∀ t ∈ i.trees, t.Formattable) :
    Runs WriteState.Ready w (Writing.opCode i >>= fun p => do
      return (⟨p.1, ← Writing.operand c size count p.1 p.2⟩ : Live.Instruction)) fun w' j =>
        Recoverable c ks w' (Reading.instruction · size j) (i.rename ·) i.uses := by
  refine ((Runs.opCode i).of_gives (Q := fun w' p => OpCode.ofName? i.opcode = some p.1 ∧
    p.2 = i.operand) fun _ hg => ⟨(gives_opCode.1 hg).1, (gives_opCode.1 hg).2.1⟩).bind
      fun {p _} _ hp => ?_
  obtain ⟨op, v⟩ := p
  obtain ⟨hname, rfl⟩ := hp
  refine (operand hk hi).bind fun {o _} _ h => .pure ?_
  have hname : (op.name : Bytes) = i.opcode := name_of_ofName? hname
  unfold Reading.instruction
  dsimp only
  rw [hname]
  exact h.bind_pure _

/-! ### Protected regions -/

omit hk in
theorem target (n : Int32) : Runs WriteState.Ready w (Writing.target size n) fun _ t =>
    Reading.targetIndex size t = Pure.pure n :=
  (Runs.target size n).of_gives fun _ hg => eq_pure_of_gives (gives_target hg).2.2

omit hk in
theorem boundary (n : Int32) : Runs WriteState.Ready w (Writing.boundary size n) fun _ t =>
    Reading.boundaryIndex size t = Pure.pure n :=
  (Runs.boundary size n).of_gives fun _ hg => eq_pure_of_gives (gives_boundary hg).2

theorem handler {h : ExceptionHandler} (hh : ∀ t ∈ h.catchType.toList, t.Formattable) :
    Runs WriteState.Ready w (Writing.handler c size h) fun w' e =>
      Recoverable c ks w' (Reading.handler · size e) (h.rename ·) h.uses := by
  refine (target _).bind fun {tryStart _} _ h₁ => (boundary _).bind fun {tryEnd _} _ h₂ =>
    (boundary _).bind fun {filterStart _} _ h₃ => (target _).bind fun {handlerStart _} _ h₄ =>
      (boundary _).bind fun {handlerEnd _} _ h₅ => ((Runs.handlerType _).of_gives
        fun _ hg => (gives_handlerType hg).2).bind fun {entry w} _ h₆ => ?_
  have last : ∀ {w r}, Recoverable c ks w (Reading.optionalType · r)
      (fun f => h.catchType.map (SigTree.rename f .type)) h.uses →
        Recoverable c ks w (Reading.handler · size
          ⟨tryStart, tryEnd, filterStart, handlerStart, handlerEnd, r, entry⟩) (h.rename ·) h.uses := by
    intro w r htype
    simp only [handler_eq, h₁, h₂, h₃, h₄, h₅, h₆, pure_bind]
    exact htype.bind_pure _
  unfold ExceptionHandler.uses at last ⊢
  cases hcatch : h.catchType with
  | none =>
      rw [hcatch] at last
      exact .pure (last (pure none))
  | some t =>
      rw [hcatch] at last hh
      refine (rowOfTree (hk _) (hh t List.mem_cons_self)).bind fun {r _} _ ht => .pure (last ?_)
      have hnull : ¬ r.isNull = true := by
        cases r with
        | null => cases ht.1
        | _ => exact Bool.false_ne_true
      rw [usesOf_some]
      simp only [Reading.optionalType, if_neg hnull]
      exact ht.2.map some

/-! ### Bodies -/

omit hk in
/-- All opcodes are found before any operand is written. -/
theorem opCodes {is : List Instruction} : Runs WriteState.Ready w (is.mapM Writing.opCode) fun _ ops =>
    ops.length = is.length ∧ ∀ {g : OpCode × Option Operand → Writing Live.Instruction} {js w w'},
      Gives (ops.mapM g) w js w' → Gives (is.mapM fun i => Writing.opCode i >>= g) w js w' :=
  (Runs.each fun i _ _ => Runs.opCode i).of_gives fun _ hg => (gives_mapM_opCode hg).2

/-- A body whose trees have texts is recovered from what it has been written as. -/
theorem body {b : MethodBody} (hb : ∀ t ∈ b.trees, t.Formattable) :
    Runs WriteState.Ready w (Writing.body c b) fun w' l =>
      Recoverable c ks w' (Reading.body · l) (b.rename ·) b.uses := by
  rw [MethodBody.trees, List.forall_mem_append, List.forall_mem_append, List.forall_mem_flatMap,
    List.forall_mem_flatMap] at hb
  obtain ⟨⟨hinstructions, hhandlers⟩, hlocals⟩ := hb
  unfold Writing.body
  refine guard fun hstack => (typeSigsOf (hk _) hlocals).bind fun {locals _} _ hls => ?_
  refine opCodes.bind fun {ops _} h₁ hops => ?_
  obtain ⟨hlength, both⟩ := hops
  refine ((Runs.each fun p _ w => (Runs.operand c _ _ p.1 p.2).bind fun _ _ => .pure trivial).of_gives
    fun hw hg => ((mapM fun i hi => instruction hk (hinstructions i hi)).leads hw (both hg)).2).bind
      fun {is _} h₂ his => (mapM fun h hh => handler hk (hhandlers h hh)).bind fun {es _} h₃ hes =>
        .pure ?_
  have hsize : is.length = ops.length := his.1.trans hlength.symm
  unfold Reading.body
  dsimp only
  rw [hsize, ofNat_low16 hstack, MethodBody.uses, List.append_assoc]
  exact (his.2.leads h₃).bind fun is => hes.2.bind fun es =>
    (hls.leads ((h₁.trans h₂).trans h₃)).bind_pure _

end Recoverable

/-- A body whose trees have texts, once it has been written, is read again.  The writer asks nothing, its module is as it should be, and it may have done more since. -/
theorem body_returns {i : ImageId} {o : Options} {c : Catalog} {w w' w'' : WriteState} {ρ : Reader}
    {b : MethodBody} {l : Live.MethodBody} (hw : w.Arises i) (hρ : ρ.Arises i o)
    (indexed : o.namedTokens = false) (hb : ∀ t ∈ b.trees, t.Formattable)
    (hg : Gives (Writing.body c b) w l w') (hl : w'.Leads w'') :
    Returns c [.type, .field, .method] w'' ρ (Reading.body w''.store l) (b.rename ·) b.uses := by
  have every : ∀ k : EntityKind, k ∈ [EntityKind.type, .field, .method] := by
    rintro (_ | _ | _) <;> decide
  obtain ⟨hw', h⟩ := (Recoverable.body every hb).leads hw.ready.2 hg
  exact h.returns hw hρ indexed hw' hl

/-! ### A body that returns -/

/-- Two types, a field and a method. -/
def household : Catalog where
  options := .default
  types := ⟨[(.index 0, .reference ⟨"Object", "System", some "lib", none⟩),
    (.index 1, .reference ⟨"Outer", "N", none, none⟩)], by decide, rfl⟩
  fields := ⟨[(.index 0, .reference ⟨"x", .token (.index 1),
    .ofConvention .field [.int32 0, .ofElement .i8]⟩)], by decide, rfl⟩
  methods := ⟨[(.index 0, .reference ⟨"h", .token (.index 0),
    .ofConvention .standard [.int32 16, .int32 1, .int32 0, .ofElement .void]⟩)], by decide, rfl⟩

/-- A protected region without end around branches forward and back, a literal and operands of all kinds of entity. -/
def errand : MethodBody where
  instructions := [⟨"ldsfld", some (.tree (.inline .field (.token (.index 0))))⟩,
    ⟨"brtrue.s", some (.int32 3)⟩,
    ⟨"ldc.i8", some (.int64 (-1))⟩,
    ⟨"call", some (.tree (.inline .method (.methodSpec (.token (.index 0))
      (.ofConvention .genericInst [.int32 0, .int32 1, .ofElement .cls [.token (.index 1)]]))))⟩,
    ⟨"ldloca.s", some (.int32 0)⟩,
    ⟨"switch", some (.targets [0, 5])⟩]
  handlers := [⟨0, 2, -1, 4, -1, some (.token (.index 0)), 0⟩]
  locals := [.ofElement .cls [.token (.index 1)]]
  maxStack := 8
  initLocals := true

/-- The two types are read in the other order. -/
theorem body_returns_errand : ∃ l w',
    WriteState.Arises ⟨0⟩ ⟨family.store, .start ⟨0⟩ ⟨none, none⟩⟩ ∧
    Reader.Arises ⟨0⟩ .default (.start ⟨0⟩ .default) ∧ Options.default.namedTokens = false ∧
    (∀ t ∈ errand.trees, t.Formattable) ∧ w'.Leads w' ∧
    Gives (Writing.body household errand) ⟨family.store, .start ⟨0⟩ ⟨none, none⟩⟩ l w' ∧
    Returns household [.type, .field, .method] w' (.start ⟨0⟩ .default)
      (Reading.body w'.store l) (errand.rename ·) errand.uses ∧
    (Reading.body w'.store l (.start ⟨0⟩ .default)).1.toOption = some (errand.rename fun kind k =>
      if kind = .type then (if k = .index 0 then .index 1 else .index 0) else k) := by
  have arises : WriteState.Arises ⟨0⟩ ⟨family.store, .start ⟨0⟩ ⟨none, none⟩⟩ :=
    .start family_housed family_tabled
  have texts : ∀ t ∈ errand.trees, t.Formattable := by
    have all : ∀ t ∈ errand.trees, t.format.isOk = true := by decide
    intro t ht
    cases h : t.format with
    | ok s => exact ⟨s, h⟩
    | error e =>
        have := all t ht
        rw [h] at this
        cases this
  have run : (match Writing.body household errand ⟨family.store, .start ⟨0⟩ ⟨none, none⟩⟩ with
      | (.ok l, w')  => (Reading.body w'.store l (.start ⟨0⟩ .default)).1.toOption
      | (.error _, _) => none) = some (errand.rename fun kind k =>
        if kind = .type then (if k = .index 0 then .index 1 else .index 0) else k) := by
    decide +kernel
  cases h : Writing.body household errand ⟨family.store, .start ⟨0⟩ ⟨none, none⟩⟩ with
  | mk r w' =>
      rw [h] at run
      cases r with
      | error e => cases run
      | ok l => exact ⟨l, w', arises, .start, rfl, texts, .refl _, h,
          body_returns arises .start rfl texts h (.refl _), run⟩

/-! ### A body that does not return -/

/-- A body that names the type of another module. -/
def adoptive : MethodBody where
  instructions := [⟨"ldtoken", some (.tree (.inline .type (.token (.index 1))))⟩, ⟨"pop", none⟩, ⟨"ret", none⟩]
  handlers := []
  locals := []
  maxStack := 8
  initLocals := true

/-- The type of the other module is found by its name, and refused by the reader. -/
theorem not_returns_adoptive : ∃ l w', (∀ t ∈ adoptive.trees, t.Formattable) ∧
    Gives (Writing.body adopted adoptive) ⟨adoption, .start ⟨0⟩ ⟨none, none⟩⟩ l w' ∧
    (Reading.body w'.store l (.start ⟨0⟩ .default)).1 =
      .error (.fault (.foreign "Type" "Outer/Inner" "A")) ∧
    ∀ b ρ, ¬ Gives (Reading.body w'.store l) (.start ⟨0⟩ .default) b ρ := by
  refine ⟨_, _, ?_, rfl, rfl, fun b ρ h => ?_⟩
  · rintro t (_ | ⟨_, ⟨⟩⟩)
    exact ⟨_, rfl⟩
  · cases congrArg Prod.fst h

end CilCatalog
