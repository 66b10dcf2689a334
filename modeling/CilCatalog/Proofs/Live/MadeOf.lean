import CilCatalog.Proofs.Live.Rows

/-!
# What signatures are made of

A signature names types by their rows.  In between there can be type specifications, which are rows with a number and a signature of their own.

* `CallSig.MadeOf`: nothing is missing, and the rows and the numbers of type specifications satisfy a predicate each.
* `CallSig.mem_rows`: no other rows occur than those specifications and what is inside of those rows.
-/

namespace CilCatalog.Live

section MadeOf

variable (P : Row → Prop) (Q : Nat → Prop)

mutual

/-- The row satisfies `P`, or it is a type specification with a number that satisfies `Q`. -/
def Row.MadeOf : Row → Prop
  | .typeSpec n t => Q n ∧ t.MadeOf
  | r             => P r

/-- Nothing is missing in the signature, and its calling conventions are what they should be.  Its rows satisfy `P`, and the numbers of its type specifications `Q`. -/
def TypeSig.MadeOf : TypeSig → Prop
  | .null             => False
  | .leaf _ _         => True
  | .wrapper _ t      => t.MadeOf
  | .fnPtr c          => c.MadeOf
  | .named _ r        => P r
  | .generic _ _      => True
  | .array t _ _ _    => t.MadeOf
  | .genericInst t as => t.MadeOf ∧ TypeSig.AllMadeOf as
  | .valueArray t _   => t.MadeOf
  | .modifier _ r t   => r.MadeOf ∧ t.MadeOf
  | .module _ t       => t.MadeOf

def TypeSig.AllMadeOf : List TypeSig → Prop
  | []      => True
  | t :: ts => t.MadeOf ∧ TypeSig.AllMadeOf ts

def CallSig.MadeOf : CallSig → Prop
  | .null                 => False
  | .method raw _ _ t ps vs => CallingConvention.isMethodLikeRaw raw = true ∧
      t.MadeOf ∧ TypeSig.AllMadeOf ps ∧ TypeSig.AllMadeOf vs
  | .field t              => t.MadeOf
  | .locals ts            => TypeSig.AllMadeOf ts
  | .inst ts              => TypeSig.AllMadeOf ts

end

end MadeOf

variable {P P' : Row → Prop} {Q Q' : Nat → Prop}

/-! ### Weaker predicates -/

mutual

theorem Row.madeOf_mono (hP : ∀ {r}, P r → P' r) (hQ : ∀ {n}, Q n → Q' n) :
    ∀ r : Row, r.MadeOf P Q → r.MadeOf P' Q'
  | .typeSpec _ t, h => ⟨hQ h.1, t.madeOf_mono hP hQ h.2⟩
  | .null, h | .typeDef _, h | .typeRef _ _ _ _, h | .assemblyRef _ _, h | .moduleRef _ _, h
  | .fieldDef _, h | .methodDef _, h | .memberRef _ _ _ _, h | .methodSpec _ _ _, h => hP h

theorem TypeSig.madeOf_mono (hP : ∀ {r}, P r → P' r) (hQ : ∀ {n}, Q n → Q' n) :
    ∀ t : TypeSig, t.MadeOf P Q → t.MadeOf P' Q'
  | .null, h             => h
  | .leaf _ _, _         => trivial
  | .wrapper _ t, h      => t.madeOf_mono hP hQ h
  | .fnPtr c, h          => c.madeOf_mono hP hQ h
  | .named _ _, h        => hP h
  | .generic _ _, _      => trivial
  | .array t _ _ _, h    => t.madeOf_mono hP hQ h
  | .genericInst t as, h => ⟨t.madeOf_mono hP hQ h.1, TypeSig.allMadeOf_mono hP hQ as h.2⟩
  | .valueArray t _, h   => t.madeOf_mono hP hQ h
  | .modifier _ r t, h   => ⟨r.madeOf_mono hP hQ h.1, t.madeOf_mono hP hQ h.2⟩
  | .module _ t, h       => t.madeOf_mono hP hQ h

theorem TypeSig.allMadeOf_mono (hP : ∀ {r}, P r → P' r) (hQ : ∀ {n}, Q n → Q' n) :
    ∀ ts : List TypeSig, TypeSig.AllMadeOf P Q ts → TypeSig.AllMadeOf P' Q' ts
  | [], _      => trivial
  | t :: ts, h => ⟨t.madeOf_mono hP hQ h.1, TypeSig.allMadeOf_mono hP hQ ts h.2⟩

theorem CallSig.madeOf_mono (hP : ∀ {r}, P r → P' r) (hQ : ∀ {n}, Q n → Q' n) :
    ∀ c : CallSig, c.MadeOf P Q → c.MadeOf P' Q'
  | .null, h                  => h
  | .method _ _ _ t ps vs, h  => ⟨h.1, t.madeOf_mono hP hQ h.2.1,
      TypeSig.allMadeOf_mono hP hQ ps h.2.2.1, TypeSig.allMadeOf_mono hP hQ vs h.2.2.2⟩
  | .field t, h               => t.madeOf_mono hP hQ h
  | .locals ts, h             => TypeSig.allMadeOf_mono hP hQ ts h
  | .inst ts, h               => TypeSig.allMadeOf_mono hP hQ ts h

end

/-! ### Rows that occur -/

/-- The row is a type specification with one of the numbers, or occurs in one of the rows. -/
def IsPart (P : Row → Prop) (Q : Nat → Prop) (x : Row) : Prop :=
  (∃ n t, x = .typeSpec n t ∧ Q n) ∨ ∃ r, P r ∧ x ∈ r.rows

mutual

theorem Row.mem_rows_of_madeOf {x : Row} : ∀ r : Row, r.MadeOf P Q → x ∈ r.rows → IsPart P Q x
  | .typeSpec n t, h, hx => (List.mem_cons.1 hx).elim
      (fun hx => .inl ⟨n, t, hx, h.1⟩) (t.mem_rows_of_madeOf h.2)
  | .null, h, hx | .typeDef _, h, hx | .typeRef _ _ _ _, h, hx | .assemblyRef _ _, h, hx
  | .moduleRef _ _, h, hx | .fieldDef _, h, hx | .methodDef _, h, hx | .memberRef _ _ _ _, h, hx
  | .methodSpec _ _ _, h, hx => .inr ⟨_, h, hx⟩

theorem TypeSig.mem_rows_of_madeOf {x : Row} :
    ∀ t : TypeSig, t.MadeOf P Q → x ∈ t.rows → IsPart P Q x
  | .null, h, _              => h.elim
  | .leaf _ _, _, hx         => absurd hx List.not_mem_nil
  | .wrapper _ t, h, hx      => t.mem_rows_of_madeOf h hx
  | .fnPtr c, h, hx          => c.mem_rows_of_madeOf h hx
  | .named _ r, h, hx        => .inr ⟨r, h, hx⟩
  | .generic _ _, _, hx      => absurd hx List.not_mem_nil
  | .array t _ _ _, h, hx    => t.mem_rows_of_madeOf h hx
  | .genericInst t as, h, hx => (List.mem_append.1 hx).elim (t.mem_rows_of_madeOf h.1)
      (TypeSig.mem_rowsOf_of_madeOf as h.2)
  | .valueArray t _, h, hx   => t.mem_rows_of_madeOf h hx
  | .modifier _ r t, h, hx   => (List.mem_append.1 hx).elim (Row.mem_rows_of_madeOf r h.1)
      (t.mem_rows_of_madeOf h.2)
  | .module _ t, h, hx       => t.mem_rows_of_madeOf h hx

theorem TypeSig.mem_rowsOf_of_madeOf {x : Row} :
    ∀ ts : List TypeSig, TypeSig.AllMadeOf P Q ts → x ∈ TypeSig.rowsOf ts → IsPart P Q x
  | [], _, hx      => absurd hx List.not_mem_nil
  | t :: ts, h, hx => (List.mem_append.1 hx).elim (t.mem_rows_of_madeOf h.1)
      (TypeSig.mem_rowsOf_of_madeOf ts h.2)

/-- What occurs in a signature is part of what it is made of. -/
theorem CallSig.mem_rows_of_madeOf {x : Row} :
    ∀ c : CallSig, c.MadeOf P Q → x ∈ c.rows → IsPart P Q x
  | .null, h, _                  => h.elim
  | .method _ _ _ t ps vs, h, hx => (List.mem_append.1 hx).elim
      (fun hx => (List.mem_append.1 hx).elim (t.mem_rows_of_madeOf h.2.1)
        (TypeSig.mem_rowsOf_of_madeOf ps h.2.2.1)) (TypeSig.mem_rowsOf_of_madeOf vs h.2.2.2)
  | .field t, h, hx              => t.mem_rows_of_madeOf h hx
  | .locals ts, h, hx            => TypeSig.mem_rowsOf_of_madeOf ts h hx
  | .inst ts, h, hx              => TypeSig.mem_rowsOf_of_madeOf ts h hx

end

end CilCatalog.Live
