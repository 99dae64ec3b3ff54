import JarRepair.Deflate.Huffman

/-! # Code lengths from counts

The lengths of an optimal prefix code: the two symbols or groups that occur least are joined until
one group is left. A symbol that ends up deeper than a limit is pulled up, and others go down for
it. -/

namespace JarRepair.Deflate

/-! ## A queue of groups -/

/-- Symbols under a common node, with the number of their occurrences. -/
structure Group where
  count : Nat
  depth : Nat := 0
  tree : Tree
deriving DecidableEq, Repr

namespace Group

def ofSymbol (symbol count : Nat) : Group := { count, tree := .leaf symbol }

/-- Of groups that occur equally often the flatter one comes first. -/
def before (g h : Group) : Bool := g.count < h.count || (g.count == h.count && g.depth ≤ h.depth)

def join (g h : Group) : Group where
  count := g.count + h.count
  depth := max g.depth h.depth + 1
  tree := .node g.tree h.tree

end Group

/-- A binary heap: no group comes before the one at half its index. -/
abbrev GroupHeap := Array Group

namespace GroupHeap

/-- Puts a group at a position or, as long as one of the two below comes before it, farther down. -/
def sift (g : Group) : (levels : Nat) → (k : Nat) → GroupHeap → GroupHeap
  | 0, k, heap => heap.setIfInBounds k g
  | levels + 1, k, heap =>
    match heap[2 * k + 1]? with
    | none => heap.setIfInBounds k g
    | some left =>
      let (j, child) :=
        match heap[2 * k + 2]? with
        | some right => if right.before left then (2 * k + 2, right) else (2 * k + 1, left)
        | none => (2 * k + 1, left)
      if g.before child then heap.setIfInBounds k g
      else sift g levels j (heap.setIfInBounds k child)

def replace (k : Nat) (g : Group) (heap : GroupHeap) : GroupHeap := sift g heap.size k heap

def ofList (groups : List Group) : GroupHeap :=
  let heap := groups.toArray
  (List.range (heap.size / 2)).foldr
    (fun k heap =>
      match heap[k]? with
      | some g => replace k g heap
      | none => heap)
    heap

/-- Takes out the first group. -/
def pop? (heap : GroupHeap) : Option (Group × GroupHeap) :=
  match heap[0]?, heap.back? with
  | some first, some last => some (first, replace 0 last heap.pop)
  | _, _ => none

/-- Joins the groups until one is left; `order` gets the symbols in the order in which they are
joined, the last one first. -/
def joinAll : (fuel : Nat) → GroupHeap → (order : List Nat) → Option Group × List Nat
  | 0, heap, order => (heap[0]?, order)
  | fuel + 1, heap, order =>
    match pop? heap with
    | none => (none, order)
    | some (g, heap) =>
      match heap[0]? with
      | none => (some g, order)
      | some h => joinAll fuel (replace 0 (g.join h) heap) (note h (note g order))
where
  note (g : Group) (order : List Nat) : List Nat :=
    match g.tree with
    | .leaf symbol => symbol :: order
    | _ => order

end GroupHeap

/-! ## Depths -/

namespace Tree

/-- The symbols with their depths. -/
def depths : (depth : Nat) → Tree → List (Nat × Nat)
  | depth, .leaf symbol => [(symbol, depth)]
  | depth, .node zero one => depths (depth + 1) zero ++ depths (depth + 1) one
  | _, .gap => []

/-- How many nodes, symbols among them, are deeper than a limit. -/
def deeper (limit : Nat) : (depth : Nat) → Tree → Nat
  | depth, .leaf _ => if limit < depth then 1 else 0
  | depth, .node zero one =>
    (if limit < depth then 1 else 0) + deeper limit (depth + 1) zero + deeper limit (depth + 1) one
  | _, .gap => 0

end Tree

/-- Moves a symbol one level down from the deepest level above `limit` that has one, with another
from the limit beside it. `numbers` says how many symbols are on each level. -/
def lower (limit : Nat) (numbers : Array Nat) : Array Nat :=
  match (List.range limit).reverse.find? fun l => numbers.getD l 0 != 0 with
  | none => numbers
  | some l => ((numbers.modify l (· - 1)).modify (l + 1) (· + 2)).modify limit (· - 1)

/-- Gives out levels to symbols, the deepest first. -/
def assign (limit : Nat) (numbers : Array Nat) (order : List Nat) : List (Nat × Nat) :=
  order.zip ((List.range (limit + 1)).reverse.flatMap fun l => List.replicate (numbers.getD l 0) l)

/-- The symbols with depths up to a limit; `order` has those first that occur least. -/
def limitedDepths (limit : Nat) (t : Tree) (order : List Nat) : List (Nat × Nat) :=
  let depths := t.depths 0
  let excess := t.deeper limit 0
  if excess = 0 then depths
  else
    let numbers := depths.foldl (fun numbers (_, d) => numbers.modify (min d limit) (· + 1))
      (Array.replicate (limit + 1) 0)
    assign limit (Nat.repeat (lower limit) ((excess + 1) / 2) numbers) order

/-! ## Lengths -/

/-- A code has two words at least; a second one goes to the next symbol or to the first. -/
def atLeastTwo : List (Nat × Nat) → List (Nat × Nat)
  | [] => [(0, 1), (1, 1)]
  | [(symbol, count)] => [(symbol, count), (if symbol < 2 then symbol + 1 else 0, 1)]
  | symbols => symbols

/-- The code length of each symbol up to the last that has one. -/
def lengthsFor (limit : Nat) (counts : Array Nat) : List Nat :=
  let used :=
    (counts.toList.zipIdx.filter fun (count, _) => count != 0).map fun (count, s) => (s, count)
  let groups := (atLeastTwo used).map fun (symbol, count) => Group.ofSymbol symbol count
  match GroupHeap.joinAll groups.length (.ofList groups) [] with
  | (none, _) => []
  | (some g, order) =>
    let depths := limitedDepths limit g.tree order.reverse
    let size := depths.foldl (fun n (symbol, _) => max n (symbol + 1)) 0
    (depths.foldl (fun lengths (symbol, d) => lengths.setIfInBounds symbol d)
      (Array.replicate size 0)).toList

end JarRepair.Deflate
