import CilCatalog.Proofs.Gives
import CilCatalog.Proofs.Ledger

/-!
# Work that is done by stages

An entity is put on record at a level, and from then on the work for that level and those below it is done.  Readers and writers do the work in the same order: they begin, which finds the entity on record at some level, they define it if it is not defined yet, and they complete it with its children if that is asked for.

* `Stages.run`: the work for a level.
* `Stages.Lawful`: what a stage does to the record, and what may happen in between.
* `Lawful.run_again`: work that has been done is not done again.
* `Lawful.run_split`: work for a lower level first, and then the rest, is the same as all of it at once.
* `Performs.staged_iff`: so are calls for any number of levels on the way.
-/

namespace CilCatalog

namespace Level

/-- There is no level between a definition and one with its children. -/
theorem withChildren_le {l : Level} (h : ¬ l ≤ .definition) : .withChildren ≤ l := by
  have h : ¬ l.code ≤ 1 := h
  have : (2 : Int32) ≤ l.code := by
    rw [Int32.le_iff_toInt_le] at h ⊢
    exact Int.not_le.1 h
  exact this

theorem lt_of_not_le {a b : Level} (h : ¬ a ≤ b) : b < a := Int32.not_le.1 h

theorem le_antisymm {a b : Level} (h : a ≤ b) (h' : b ≤ a) : a = b :=
  congrArg Level.mk (Int32.le_antisymm h h')

theorem lt_of_lt_of_le {a b c : Level} (h : a < b) (h' : b ≤ c) : a < c := Int32.lt_of_lt_of_le h h'

end Level

/-- The parts of the work for one entity, which is on record as `ι` with what is handed out for it. -/
structure Stages (ε σ ι ρ : Type) where
  /-- Finds the entity, what is handed out for it, and the level on record. -/
  begins : ExceptT ε (StateM σ) (ι × ρ × Level)
  defines : ι → ρ → ExceptT ε (StateM σ) Unit
  completes : ι → ρ → ExceptT ε (StateM σ) Unit

namespace Stages

variable {ε σ ι ρ : Type}

/-- What is left to do for a level, after a lower one is on record. -/
def finish (S : Stages ε σ ι ρ) (level : Level) (i : ι) (r : ρ) (old : Level) :
    ExceptT ε (StateM σ) Unit :=
  if level ≤ old then pure () else do
    if old < .definition then S.defines i r else pure ()
    if level ≤ .definition then pure () else S.completes i r

/-- The work for a level. -/
def run (S : Stages ε σ ι ρ) (level : Level) : ExceptT ε (StateM σ) ρ := do
  let (i, r, old) ← S.begins
  S.finish level i r old
  return r

/-- What the stages do to the record: `On a i r l` says that in the state `a` the entity `i` is on record with `r` at the level `l`.  States that are in order stay so, and nothing that is on record is lost. -/
structure Lawful (S : Stages ε σ ι ρ) (Good : σ → Prop) (Grows : σ → σ → Prop)
    (On : σ → ι → ρ → Level → Prop) : Prop where
  refl : ∀ a, Grows a a
  trans : ∀ {a b c}, Grows a b → Grows b c → Grows a c
  unique : ∀ {a i r l l'}, On a i r l → On a i r l' → l = l'
  stays : ∀ {a b i r l}, Good a → On a i r l → Grows a b → ∃ l', On b i r l' ∧ l ≤ l'
  begins : ∀ {a b i r l}, Good a → Gives S.begins a (i, r, l) b → Good b ∧ Grows a b ∧ On b i r l
  again : ∀ {a b c i r l l'}, Good a → Gives S.begins a (i, r, l) b → Grows b c → Good c →
    On c i r l' → Gives S.begins c (i, r, l') c
  defines : ∀ {a b i r l}, Good a → On a i r l → l < .definition → Gives (S.defines i r) a () b →
    Good b ∧ Grows a b ∧ On b i r .definition
  completes : ∀ {a b i r l}, Good a → On a i r l → l < .withChildren →
    Gives (S.completes i r) a () b → Good b ∧ Grows a b ∧ ∃ l', On b i r l' ∧ .withChildren ≤ l'

variable {S : Stages ε σ ι ρ} {a b c : σ} {i : ι} {r r' : ρ} {l l' old : Level}

theorem gives_run : Gives (S.run l) a r c ↔
    ∃ i old b, Gives S.begins a (i, r, old) b ∧ Gives (S.finish l i r old) b () c := by
  rw [run, gives_bind]
  constructor
  · rintro ⟨⟨i, r', old⟩, b, hb, h⟩
    obtain ⟨⟨⟩, hf, rfl⟩ := gives_bind_pure.1 h
    exact ⟨i, old, b, hb, hf⟩
  · rintro ⟨i, old, b, hb, hf⟩
    exact ⟨(i, r, old), b, hb, gives_bind_pure.2 ⟨(), hf, rfl⟩⟩

/-- There is nothing to do for a level that is on record. -/
theorem finish_done (hl : l ≤ old) : S.finish l i r old = pure () := if_pos hl

/-- What is not defined is defined first, and then completed if that is asked for. -/
theorem finish_undefined (hl : ¬ l ≤ old) (ho : old < .definition) :
    S.finish l i r old =
      S.defines i r >>= fun _ => if l ≤ .definition then pure () else S.completes i r := by
  rw [finish, if_neg hl, if_pos ho]

/-- What is defined is only completed. -/
theorem finish_defined (hl : ¬ l ≤ old) (ho : ¬ old < .definition) :
    S.finish l i r old = S.completes i r := by
  have above : ¬ l ≤ .definition := fun h => hl (Level.le_trans h (Level.le_of_not_lt ho))
  rw [finish, if_neg hl, if_neg ho, if_neg above]

theorem gives_finish_done (hl : l ≤ old) : Gives (S.finish l i r old) a () c ↔ c = a := by
  rw [finish_done hl, gives_pure]
  simp

theorem gives_finish_undefined (hl : ¬ l ≤ old) (ho : old < .definition) :
    Gives (S.finish l i r old) a () c ↔
      ∃ b, Gives (S.defines i r) a () b ∧
        if l ≤ .definition then c = b else Gives (S.completes i r) b () c := by
  rw [finish_undefined hl ho, gives_bind]
  constructor
  · rintro ⟨⟨⟩, b, hd, h⟩
    refine ⟨b, hd, ?_⟩
    split at h
    · next hle => rw [if_pos hle, (gives_pure.1 h).2]
    · next hle => rwa [if_neg hle]
  · rintro ⟨b, hd, h⟩
    refine ⟨(), b, hd, ?_⟩
    split at h
    · next hle => rw [if_pos hle, gives_pure, h]; exact ⟨rfl, rfl⟩
    · next hle => rwa [if_neg hle]

theorem gives_finish_defined (hl : ¬ l ≤ old) (ho : ¬ old < .definition) :
    Gives (S.finish l i r old) a () c ↔ Gives (S.completes i r) a () c := by
  rw [finish_defined hl ho]

/-- What has just been defined is completed if that is asked for. -/
theorem gives_finish_definition : Gives (S.finish l i r .definition) a () c ↔
    if l ≤ .definition then c = a else Gives (S.completes i r) a () c := by
  split
  · next hl => exact gives_finish_done hl
  · next hl => exact gives_finish_defined hl (by decide)

/-- Stages that give the same one by one give the same when they are run. -/
theorem gives_run_congr {S' : Stages ε σ ι ρ} (hb : S.begins = S'.begins)
    (hd : ∀ {i r a b}, Gives (S.defines i r) a () b ↔ Gives (S'.defines i r) a () b)
    (hc : ∀ {i r a b}, Gives (S.completes i r) a () b ↔ Gives (S'.completes i r) a () b) :
    Gives (S.run l) a r b ↔ Gives (S'.run l) a r b := by
  have finish : ∀ {i old b c}, Gives (S.finish l i r old) b () c ↔ Gives (S'.finish l i r old) b () c := by
    intro i old b c
    by_cases done : l ≤ old
    · rw [gives_finish_done done, gives_finish_done done]
    · by_cases undefined : old < .definition
      · simp only [gives_finish_undefined done undefined, hd, hc]
      · simp only [gives_finish_defined done undefined, hc]
  simp only [gives_run, hb, finish]

/-! ### What is on record afterwards -/

namespace Lawful

variable {Good : σ → Prop} {Grows : σ → σ → Prop} {On : σ → ι → ρ → Level → Prop}

/-- What has been done for a level is on record at that level or a higher one. -/
theorem finish_on (law : S.Lawful Good Grows On) (ha : Good a) (hon : On a i r old)
    (hl : l ≤ .withChildren) (h : Gives (S.finish l i r old) a () c) :
    Good c ∧ Grows a c ∧ ∃ l', On c i r l' ∧ l ≤ l' := by
  by_cases done : l ≤ old
  · obtain rfl := (gives_finish_done done).1 h
    exact ⟨ha, law.refl c, old, hon, done⟩
  · by_cases undefined : old < .definition
    · obtain ⟨b, hd, h⟩ := (gives_finish_undefined done undefined).1 h
      obtain ⟨hb, hab, hon⟩ := law.defines ha hon undefined hd
      split at h
      · next hle =>
          subst h
          exact ⟨hb, hab, _, hon, hle⟩
      · obtain ⟨hc, hbc, l', hon, hl'⟩ := law.completes hb hon (by decide) h
        exact ⟨hc, law.trans hab hbc, l', hon, Level.le_trans hl hl'⟩
    · have h := (gives_finish_defined done undefined).1 h
      have below : old < .withChildren := Level.lt_of_lt_of_le (Level.lt_of_not_le done) hl
      obtain ⟨hc, hac, l', hon, hl'⟩ := law.completes ha hon below h
      exact ⟨hc, hac, l', hon, Level.le_trans hl hl'⟩

theorem run_on (law : S.Lawful Good Grows On) (ha : Good a) (hl : l ≤ .withChildren)
    (h : Gives (S.run l) a r c) : Good c ∧ Grows a c ∧ ∃ i l', On c i r l' ∧ l ≤ l' := by
  obtain ⟨i, old, b, hb, hf⟩ := gives_run.1 h
  obtain ⟨good, hab, hon⟩ := law.begins ha hb
  obtain ⟨hc, hbc, l', hon, hl'⟩ := law.finish_on good hon hl hf
  exact ⟨hc, law.trans hab hbc, i, l', hon, hl'⟩

/-! ### Doing it again -/

/-- Work that has been done is not done again, however much has been done in between. -/
theorem run_again (law : S.Lawful Good Grows On) (ha : Good a) (hl : l ≤ .withChildren)
    (h : Gives (S.run l) a r b) (hl' : l' ≤ l) (hbc : Grows b c) (hc : Good c) :
    Gives (S.run l') c r c := by
  obtain ⟨i, old, a', hb, hf⟩ := gives_run.1 h
  obtain ⟨good, -, hon⟩ := law.begins ha hb
  obtain ⟨hb', hab, m, hon, hm⟩ := law.finish_on good hon hl hf
  obtain ⟨n, hon, hn⟩ := law.stays hb' hon hbc
  have begun := law.again ha hb (law.trans hab hbc) hc hon
  have done : l' ≤ n := Level.le_trans hl' (Level.le_trans hm hn)
  exact gives_run.2 ⟨i, n, c, begun, (gives_finish_done done).2 rfl⟩

/-! ### Doing it by stages -/

/-- After the work for a lower level, what is left of that for a higher one is what is left of it by then. -/
theorem finish_split (law : S.Lawful Good Grows On) (ha : Good a) (hon : On a i r old)
    (hl' : l' ≤ l) (hl : l ≤ .withChildren) :
    Gives (S.finish l i r old) a () c ↔
      ∃ b new, Gives (S.finish l' i r old) a () b ∧ On b i r new ∧ Gives (S.finish l i r new) b () c := by
  by_cases done : l' ≤ old
  · -- nothing is done for the lower level
    simp only [gives_finish_done done]
    constructor
    · exact fun h => ⟨a, old, rfl, hon, h⟩
    · rintro ⟨b, new, rfl, hon', h⟩
      rwa [law.unique hon hon']
  · have undone : ¬ l ≤ old := fun h => done (Level.le_trans hl' h)
    by_cases defined : l' ≤ .definition
    · -- the lower level is that of a definition
      have undefined : old < .definition := Level.lt_of_lt_of_le (Level.lt_of_not_le done) defined
      simp only [gives_finish_undefined undone undefined, gives_finish_undefined done undefined,
        if_pos defined]
      constructor
      · rintro ⟨b, hd, h⟩
        exact ⟨b, _, ⟨b, hd, rfl⟩, (law.defines ha hon undefined hd).2.2, gives_finish_definition.2 h⟩
      · rintro ⟨_, new, ⟨b, hd, rfl⟩, hon', h⟩
        obtain rfl := law.unique (law.defines ha hon undefined hd).2.2 hon'
        exact ⟨_, hd, gives_finish_definition.1 h⟩
    · -- both levels are that with the children
      have above : ¬ l ≤ .definition := fun h => defined (Level.le_trans hl' h)
      have all : l ≤ l' := Level.le_trans hl (Level.withChildren_le defined)
      have same : S.finish l' i r old = S.finish l i r old := by
        simp only [finish, if_neg done, if_neg undone, if_neg defined, if_neg above]
      rw [same]
      constructor
      · intro h
        obtain ⟨-, -, new, hon', hnew⟩ := law.finish_on ha hon hl h
        exact ⟨c, new, h, hon', (gives_finish_done hnew).2 rfl⟩
      · rintro ⟨b, new, h, hon', h'⟩
        obtain ⟨-, -, new', hon'', hnew⟩ := law.finish_on ha hon hl h
        obtain rfl := law.unique hon'' hon'
        obtain rfl := (gives_finish_done hnew).1 h'
        exact h

/-- The work for a level is that for a lower one, and then what is left of it. -/
theorem run_split (law : S.Lawful Good Grows On) (ha : Good a) (hl' : l' ≤ l)
    (hl : l ≤ .withChildren) :
    Gives (S.run l) a r c ↔ ∃ b, Gives (S.run l') a r b ∧ Gives (S.run l) b r c := by
  have low : l' ≤ .withChildren := Level.le_trans hl' hl
  constructor
  · intro h
    obtain ⟨i, old, a', begun, hf⟩ := gives_run.1 h
    obtain ⟨good, -, hon⟩ := law.begins ha begun
    obtain ⟨b, new, first, hon', rest⟩ := (law.finish_split good hon hl' hl).1 hf
    obtain ⟨hb, hab, -⟩ := law.finish_on good hon low first
    exact ⟨b, gives_run.2 ⟨i, old, a', begun, first⟩,
      gives_run.2 ⟨i, new, b, law.again ha begun hab hb hon', rest⟩⟩
  · rintro ⟨b, first, rest⟩
    obtain ⟨i, old, a', begun, first⟩ := gives_run.1 first
    obtain ⟨good, -, hon⟩ := law.begins ha begun
    obtain ⟨hb, hab, new, hon', -⟩ := law.finish_on good hon low first
    obtain ⟨j, new', b', begun', left⟩ := gives_run.1 rest
    -- to begin again finds what is on record, and changes nothing
    obtain ⟨⟨⟩, rfl⟩ := begun'.unique (law.again ha begun hab hb hon')
    exact gives_run.2 ⟨i, old, a', begun, (law.finish_split good hon hl' hl).2 ⟨_, new, first, hon', left⟩⟩

end Lawful

/-! ### Calls that do the work -/

/-- A level is checked to be one, and to be none above the highest. -/
theorem gives_checked {α : Type} {e : ε} {highest asked : Level}
    {k : Unit → ExceptT ε (StateM σ) α} {v : α} :
    Gives ((if asked < .reference ∨ highest < asked then throw e else pure ()) >>= k) a v b ↔
      (.reference ≤ asked ∧ asked ≤ highest) ∧ Gives (k ()) a v b := by
  split
  · next outside =>
      refine iff_of_false (fun h => ?_) fun h => ?_
      · obtain ⟨_, _, h, -⟩ := gives_bind.1 h
        exact gives_throw h
      · rcases outside with low | high
        · exact Level.not_lt_of_le h.1.1 low
        · exact Level.not_lt_of_le h.1.2 high
  · next inside =>
      rw [not_or] at inside
      rw [pure_bind]
      exact ⟨fun h => ⟨⟨Level.le_of_not_lt inside.1, Level.le_of_not_lt inside.2⟩, h⟩, fun h => h.2⟩

/-- From a state in order, a call for a level does the work for it, if the level is none above the highest, and otherwise fails. -/
def Performs (S : Stages ε σ ι ρ) (Good : σ → Prop) (highest : Level)
    (x : Level → ExceptT ε (StateM σ) ρ) : Prop :=
  ∀ {l a r b}, Good a →
    (Gives (x l) a r b ↔ (.reference ≤ l ∧ l ≤ highest) ∧ Gives (S.run l) a r b)

namespace Performs

variable {Good : σ → Prop} {Grows : σ → σ → Prop} {On : σ → ι → ρ → Level → Prop} {highest : Level}
  {x : Level → ExceptT ε (StateM σ) ρ}

/-- A call at a level that has been asked for gives the same again, and changes nothing. -/
theorem again (h : S.Performs Good highest x) (law : S.Lawful Good Grows On)
    (top : highest ≤ .withChildren) (ha : Good a) (hx : Gives (x l) a r b) (low : .reference ≤ l')
    (hl : l' ≤ l) (hbc : Grows b c) (hc : Good c) : Gives (x l') c r c := by
  obtain ⟨⟨-, high⟩, hx⟩ := (h ha).1 hx
  exact (h hc).2 ⟨⟨low, Level.le_trans hl high⟩,
    law.run_again ha (Level.le_trans high top) hx hl hbc hc⟩

theorem good (h : S.Performs Good highest x) (law : S.Lawful Good Grows On)
    (top : highest ≤ .withChildren) (ha : Good a) (hx : Gives (x l) a r b) : Good b := by
  obtain ⟨⟨-, high⟩, hx⟩ := (h ha).1 hx
  exact (law.run_on ha (Level.le_trans high top) hx).1

/-- A call is the same as one for a lower level before it. -/
theorem split (h : S.Performs Good highest x) (law : S.Lawful Good Grows On)
    (top : highest ≤ .withChildren) (ha : Good a) (low : .reference ≤ l') (hl : l' ≤ l) :
    Gives (x l) a r c ↔ ∃ b, Gives (x l') a r b ∧ Gives (x l) b r c := by
  constructor
  · intro hx
    obtain ⟨⟨high', high⟩, hx⟩ := (h ha).1 hx
    obtain ⟨b, first, rest⟩ := (law.run_split ha hl (Level.le_trans high top)).1 hx
    obtain ⟨hb, -, -⟩ := law.run_on ha (Level.le_trans hl (Level.le_trans high top)) first
    exact ⟨b, (h ha).2 ⟨⟨low, Level.le_trans hl high⟩, first⟩, (h hb).2 ⟨⟨high', high⟩, rest⟩⟩
  · rintro ⟨b, first, rest⟩
    obtain ⟨-, first'⟩ := (h ha).1 first
    obtain ⟨between, rest⟩ := (h (h.good law top ha first)).1 rest
    exact (h ha).2 ⟨between, (law.run_split ha hl (Level.le_trans between.2 top)).2 ⟨b, first', rest⟩⟩

/-- Calls for any levels on the way come to the same as one for the last level, and all give the same. -/
theorem staged_iff (h : S.Performs Good highest x) (law : S.Lawful Good Grows On)
    (top : highest ≤ .withChildren) {ls : List Level} (ha : Good a)
    (hls : ∀ l' ∈ ls, .reference ≤ l' ∧ l' ≤ l) {rs : List ρ} :
    Gives ((ls ++ [l]).mapM x) a rs c ↔
      ∃ r, Gives (x l) a r c ∧ rs = List.replicate (ls.length + 1) r := by
  induction ls generalizing a rs with
  | nil => simp
  | cons l' ls ih =>
      obtain ⟨⟨low, hl⟩, hls⟩ := List.forall_mem_cons.1 hls
      rw [List.cons_append, gives_mapM_cons]
      constructor
      · rintro ⟨r', b, rs', first, rest, rfl⟩
        have hb := h.good law top ha first
        obtain ⟨r, last, rfl⟩ := (ih hb hls).1 rest
        -- the lower level gives what it has given before
        obtain ⟨b', again, -⟩ := (h.split law top hb low hl).1 last
        obtain ⟨rfl, -⟩ := again.unique
          (h.again law top ha first low (Level.le_refl _) (law.refl b) hb)
        exact ⟨_, (h.split law top ha low hl).2 ⟨b, first, last⟩, rfl⟩
      · rintro ⟨r, hx, rfl⟩
        obtain ⟨b, first, last⟩ := (h.split law top ha low hl).1 hx
        exact ⟨r, b, _, first, (ih (h.good law top ha first) hls).2 ⟨r, last, rfl⟩, rfl⟩

end Performs

end Stages

end CilCatalog
