import CilCatalog.Live.Store

/-!
# Walking over the types of a module

Every type is visited before the types nested in it, and neighbours are visited in the order of their list.  The walk keeps a stack of types to visit; how long it takes is the number of types in the trees below the first ones.
-/

namespace CilCatalog.Live

/-- A walk under way: the types that wait on the stack, the top of which is its end, and those that have been visited. -/
structure Walk where
  stack : List TypeId
  visited : List TypeId
deriving DecidableEq, Repr

namespace Walk

/-- A walk that begins, with the first of the types on top of the stack. -/
def start (ts : List TypeId) : Walk := ⟨ts.reverse, []⟩

/-- One turn: the type on top of the stack is visited, and in its place come the types nested in it, with the first of them on top. -/
def turn (s : Store) (w : Walk) : Walk :=
  match w.stack.getLast? with
  | none   => w
  | some t => ⟨w.stack.dropLast ++ (s.typeDef t).nestedTypes.reverse, w.visited ++ [t]⟩

/-- A number of turns, which do nothing any more once the stack is empty. -/
def turns (s : Store) : Nat → Walk → Walk
  | 0,     w => w
  | n + 1, w => turns s n (w.turn s)

end Walk

namespace Store

/-- How many types there are in the trees of `ts`, looking `depth` levels down. -/
def treeSizes (s : Store) : Nat → List TypeId → Nat
  | 0,         _  => 0
  | depth + 1, ts => ts.foldr (fun t rest => 1 + treeSizes s depth (s.typeDef t).nestedTypes + rest) 0

/-- The types of a module in the order of the walk.  No type lies deeper than there are types. -/
def walk (s : Store) (i : ImageId) : List TypeId :=
  let ts := (s.image i).types
  (Walk.turns s (s.treeSizes (s.typeDefs.length + 1) ts) (.start ts)).visited

end Store

end CilCatalog.Live
