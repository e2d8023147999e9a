import Aware.Lib.BitStrings
import Aware.Lib.Descending
import Mathlib.Logic.Function.Basic

/-!
# The radix tree

Bits are counted from the first bit of the address, so the top node tests bit `0`. A contiguous
mask is its length; the mask of length `0` is the only one without `RNF_NORMAL`. Parent pointers
and the place where a node is stored are implied by the shape of the tree.
-/
namespace Aware.Radix
open Function Aware.BitStrings

variable {w : ℕ} {δ : Type}

structure Leaf (w : ℕ) (δ : Type) where
  key : BitVec w
  len : ℕ
  data : δ
deriving DecidableEq, Repr

/-- `radix_mask`: `leaf` is `rm_leaf`, and only its length is meant when that is `0`. -/
structure RadixMask (w : ℕ) (δ : Type) where
  leaf : Leaf w δ
  refs : ℕ

def RadixMask.len (m : RadixMask w δ) : ℕ :=
  m.leaf.len

/-- One leaf of a duped-key chain; `annotated` says that its `rn_mklist` is set. -/
structure Duped (δ : Type) where
  len : ℕ
  data : δ
  annotated : Bool

/-- A duped-key chain without the root leaf, which comes before it when `root` is set. -/
structure Group (w : ℕ) (δ : Type) where
  key : BitVec w
  root : Bool
  chain : List (Duped δ)

inductive Tree (w : ℕ) (δ : Type) where
  | leaf (group : Group w δ)
  | node (bit : ℕ) (mklist : List (RadixMask w δ)) (child : Bool → Tree w δ)

def Group.leaf (g : Group w δ) (d : Duped δ) : Leaf w δ :=
  ⟨g.key, d.len, d.data⟩

def rnInithead : Tree w δ :=
  .node 0 [] fun side => .leaf ⟨if side then BitVec.allOnes w else 0, true, []⟩

def rnSearch (v : BitVec w) : Tree w δ → Group w δ
  | .leaf g => g
  | .node bit _ child => rnSearch v (child (v.getMsbD bit))

def rnSearchM (v : BitVec w) (mask : ℕ) : Tree w δ → Group w δ
  | .leaf g => g
  | .node bit _ child => rnSearchM v mask (child (decide (bit < mask) && v.getMsbD bit))

def normal (len : ℕ) : Bool :=
  len != 0

def rnSatisfiesLeaf (trial : BitVec w) (leaf : Leaf w δ) (skip : ℕ) : Bool :=
  (List.range leaf.len).all fun i => decide (i < skip) || trial.getMsbD i == leaf.key.getMsbD i

/-- How many bits `rn_match` compares: the bytes of the mask of the first leaf, which is the
whole key for a root leaf. -/
def Group.compared (g : Group w δ) : ℕ :=
  match g.root, g.chain with
  | false, d :: _ => 8 * ((d.len + 7) / 8)
  | _, _ => w

def Group.accepts (g : Group w δ) (v : BitVec w) (d : ℕ) (x : Duped δ) : Bool :=
  if normal x.len then decide (x.len ≤ d) else rnSatisfiesLeaf v (g.leaf x) (d / 8 * 8)

def RadixMask.hit (bit : ℕ) (t : Tree w δ) (v : BitVec w) (d : ℕ) (m : RadixMask w δ) :
    Option (Leaf w δ) :=
  if normal m.len then
    if m.len ≤ d then some m.leaf else none
  else
    let g := rnSearchM v m.len t
    match g.chain.find? fun x => x.len == m.len with
    | some x =>
      if rnSatisfiesLeaf v (g.leaf x) (min (bit / 8) (d / 8) * 8) then some (g.leaf x) else none
    | none => none

/-- The chain first, then the annotations of the nodes above it, up to the top. -/
def climb (v : BitVec w) (d : ℕ) : Tree w δ → Option (Leaf w δ)
  | .leaf g => (g.chain.find? (g.accepts v d)).map g.leaf
  | .node bit mklist child =>
    match climb v d (child (v.getMsbD bit)) with
    | some l => some l
    | none => mklist.findSome? (RadixMask.hit bit (.node bit mklist child) v d)

def rnMatch (v : BitVec w) (t : Tree w δ) : Option (Leaf w δ) :=
  let g := rnSearch v t
  match firstDiff g.compared v g.key with
  | none => g.chain.head?.map g.leaf
  | some d => climb v d t

def dupedFrom (t : Tree w δ) (l : Leaf w δ) : List (Duped δ) :=
  (rnSearch l.key t).chain.dropWhile fun x => x.len != l.len

def rnLookup (v : BitVec w) (mask : ℕ) (t : Tree w δ) : Option (Leaf w δ) :=
  match rnMatch v t with
  | none => none
  | some l =>
    ((dupedFrom t l).find? fun x => x.len == mask).map fun x => ⟨l.key, x.len, x.data⟩

def mapChain (v : BitVec w) (f : List (Duped δ) → List (Duped δ)) : Tree w δ → Tree w δ
  | .leaf g => .leaf { g with chain := f g.chain }
  | .node bit mklist child =>
    .node bit mklist
      (update child (v.getMsbD bit) (mapChain v f (child (v.getMsbD bit))))

def addDuped (n : Duped δ) (ds : List (Duped δ)) : Option (List (Duped δ)) :=
  place Duped.len n (fun _ => none) ds

def Duped.promoted (bit : ℕ) (d : Duped δ) : Bool :=
  decide (d.len ≤ bit) && !d.annotated

/-- What a new node at `bit` takes from the tree it is put over, and what is left of that. -/
def promote (bit : ℕ) : Tree w δ → List (RadixMask w δ) × Tree w δ
  | .leaf g =>
    ((g.chain.filter (Duped.promoted bit)).map fun d => ⟨g.leaf d, 0⟩,
      .leaf { g with chain := g.chain.map fun d =>
        { d with annotated := d.annotated || d.promoted bit } })
  | .node bit' mklist child =>
    (mklist.dropWhile fun m => decide (bit < m.len),
      .node bit' (mklist.takeWhile fun m => decide (bit < m.len)) child)

def rnNewpair (v : BitVec w) (b : ℕ) (n : Duped δ) (x : Tree w δ) : Tree w δ :=
  .node b (promote b x).1 fun side =>
    if side = v.getMsbD b then .leaf ⟨v, false, [n]⟩ else (promote b x).2

def Tree.testsBefore (b : ℕ) : Tree w δ → Bool
  | .leaf _ => false
  | .node bit _ _ => decide (bit < b)

/-- Links a new pair that tests `b` over the first tree on the path of `v` that does not test a
bit before it. -/
def rnInsert (v : BitVec w) (b : ℕ) (n : Duped δ) : Tree w δ → Tree w δ
  | .leaf g => .leaf g
  | .node bit mklist child =>
    let side := v.getMsbD bit
    .node bit mklist (update child side
      (if (child side).testsBefore b then rnInsert v b n (child side)
        else rnNewpair v b n (child side)))

def insertMask (m : RadixMask w δ) (ms : List (RadixMask w δ)) :
    Option (List (RadixMask w δ)) :=
  place RadixMask.len m
    (fun x => if normal m.len then none else some { x with refs := x.refs + 1 }) ms

/-- Adds an annotation to the highest node on the path of `v` whose bit is not before the mask's
length. -/
def lift (v : BitVec w) (m : RadixMask w δ) : Tree w δ → Option (Tree w δ)
  | .leaf _ => none
  | .node bit mklist child =>
    if m.len ≤ bit then
      (insertMask m mklist).map fun ms => .node bit ms child
    else
      (lift v m (child (v.getMsbD bit))).map fun t =>
        .node bit mklist (update child (v.getMsbD bit) t)

def annotate (len : ℕ) (ds : List (Duped δ)) : List (Duped δ) :=
  ds.map fun d => if d.len = len then { d with annotated := true } else d

def annotateLeaf (l : Leaf w δ) (t : Tree w δ) : Tree w δ :=
  match lift l.key ⟨l, 0⟩ t with
  | none => t
  | some t' => mapChain l.key (annotate l.len) t'

def rnAddroute (v : BitVec w) (len : ℕ) (data : δ) (t : Tree w δ) : Option (Tree w δ) :=
  let g := rnSearch v t
  let n : Duped δ := ⟨len, data, false⟩
  let linked :=
    match firstDiff w v g.key with
    | none => (addDuped n g.chain).map fun ds => mapChain v (fun _ => ds) t
    | some b => some (rnInsert v b n t)
  linked.map (annotateLeaf ⟨v, len, data⟩)

def RadixMask.isOf (key : BitVec w) (len : ℕ) (m : RadixMask w δ) : Bool :=
  m.len == len && (!normal len || m.leaf.key == key)

def removeMask (key : BitVec w) (len : ℕ) :
    List (RadixMask w δ) → Option (List (RadixMask w δ))
  | [] => none
  | m :: ms =>
    if m.isOf key len then
      if !normal len && decide (0 < m.refs) then some ({ m with refs := m.refs - 1 } :: ms)
      else some ms
    else (removeMask key len ms).map (m :: ·)

def unlift (v : BitVec w) (len : ℕ) : Tree w δ → Option (Tree w δ)
  | .leaf g => some (.leaf g)
  | .node bit mklist child =>
    if len ≤ bit then
      match removeMask v len mklist with
      | some ms => some (.node bit ms child)
      | none => if normal len then none else some (.node bit mklist child)
    else
      (unlift v len (child (v.getMsbD bit))).map fun t =>
        .node bit mklist (update child (v.getMsbD bit) t)

def unmark (key : BitVec w) : List (RadixMask w δ) → List (Duped δ) → List (Duped δ)
  | [], ds => ds
  | _, [] => []
  | m :: ms, d :: ds =>
    if d.annotated && m.isOf key d.len then { d with annotated := false } :: unmark key ms ds
    else d :: unmark key (m :: ms) ds

/-- Hands the mask list of a node that goes away to the tree that takes its place. -/
def demote (ms : List (RadixMask w δ)) : Tree w δ → Tree w δ
  | .leaf g => .leaf { g with chain := unmark g.key ms g.chain }
  | .node bit mklist child => .node bit (mklist ++ ms) child

def dropLeaf (v : BitVec w) : Tree w δ → Tree w δ
  | .leaf g => .leaf g
  | .node bit mklist child =>
    let side := v.getMsbD bit
    match child side with
    | .leaf _ => demote mklist (child !side)
    | .node .. => .node bit mklist (update child side (dropLeaf v (child side)))

def rnDelete (v : BitVec w) (len : ℕ) (t : Tree w δ) : Option (Leaf w δ × Tree w δ) :=
  let g := rnSearch v t
  if g.key = v then
    match g.chain.find? fun d => d.len == len with
    | none => none
    | some d =>
      (if d.annotated then unlift v len t else some t).map fun t' =>
        (g.leaf d,
          if g.root || decide (1 < g.chain.length) then
            mapChain v (fun ds => ds.eraseP fun d => d.len == len) t'
          else dropLeaf v t')
  else none

end Aware.Radix
