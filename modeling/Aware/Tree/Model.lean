import Aware.Lib.RedBlack

/-!
# The tree of groups in memory

`al_tree.c` as it works on nodes and pointers. The branches that the source has twice, once for
each side, are written once; the mirror image is the other side.
-/
namespace Aware.Tree
open RedBlack (Side)

abbrev Ptr := ℕ

def null : Ptr := 0

/-- The nodes, field by field. `root` and `sentinel` are those of `al_rbtree_t`. -/
structure Mem where
  live : Ptr → Bool
  key : Ptr → UInt64
  child : Side → Ptr → Ptr
  parent : Ptr → Ptr
  red : Ptr → Bool
  root : Ptr
  sentinel : Ptr

namespace Mem
variable (m : Mem)

def read {β : Type} (field : Ptr → β) (p : Ptr) : Option β :=
  if m.live p then some (field p) else none

def childOf (d : Side) (p : Ptr) : Option Ptr :=
  m.read (m.child d) p

def parentOf (p : Ptr) : Option Ptr :=
  m.read m.parent p

def isRed (p : Ptr) : Option Bool :=
  m.read m.red p

def keyOf (p : Ptr) : Option UInt64 :=
  m.read m.key p

def putChild (d : Side) (p q : Ptr) : Mem :=
  { m with child := fun e a => if e = d ∧ a = p then q else m.child e a }

def putParent (p q : Ptr) : Mem :=
  { m with parent := fun a => if a = p then q else m.parent a }

def putRed (p : Ptr) (b : Bool) : Mem :=
  { m with red := fun a => if a = p then b else m.red a }

def putKey (p : Ptr) (k : UInt64) : Mem :=
  { m with key := fun a => if a = p then k else m.key a }

def write (p : Ptr) (m' : Mem) : Option Mem :=
  if m.live p then some m' else none

def setChild (d : Side) (p q : Ptr) : Option Mem :=
  m.write p (m.putChild d p q)

def setParent (p q : Ptr) : Option Mem :=
  m.write p (m.putParent p q)

def setRed (p : Ptr) (b : Bool) : Option Mem :=
  m.write p (m.putRed p b)

def setKey (p : Ptr) (k : UInt64) : Option Mem :=
  m.write p (m.putKey p k)

end Mem

def adopt (p up : Ptr) (m : Mem) : Option Mem :=
  if p = m.sentinel then some m else m.setParent p up

/-- Puts `q` in the place of `p` below `up`, with the test for the side `d`. -/
def relink (d : Side) (p up q : Ptr) (m : Mem) : Option Mem := do
  let near ← m.childOf d up
  if p = near then m.setChild d up q else m.setChild d.other up q

def replace (d : Side) (p up q : Ptr) (m : Mem) : Option Mem :=
  if p = m.root then some { m with root := q } else relink d p up q m

def rotate (d : Side) (node : Ptr) (m : Mem) : Option Mem := do
  let temp ← m.childOf d.other node
  let inner ← m.childOf d temp
  let m ← m.setChild d.other node inner
  let m ← adopt inner node m
  let up ← m.parentOf node
  let m ← m.setParent temp up
  let m ← replace d node up temp m
  let m ← m.setChild d temp node
  m.setParent node temp

def alRbtreeLeftRotate : Ptr → Mem → Option Mem :=
  rotate .left

def alRbtreeRightRotate : Ptr → Mem → Option Mem :=
  rotate .right

def attach (d : Side) (temp node : Ptr) (m : Mem) : Option Mem := do
  let m ← m.setChild d temp node
  let m ← m.setParent node temp
  let m ← m.setChild .left node m.sentinel
  let m ← m.setChild .right node m.sentinel
  m.setRed node true

/-- `al_rbtree_insert_value`. The loops are given as many turns as `fuel`. -/
def alRbtreeInsertValue : ℕ → Ptr → Ptr → Mem → Option Mem
  | 0, _, _, _ => none
  | fuel + 1, temp, node, m => do
    let k ← m.keyOf node
    let k' ← m.keyOf temp
    let d : Side := if k < k' then .left else .right
    let p ← m.childOf d temp
    if p = m.sentinel then attach d temp node m else alRbtreeInsertValue fuel p node m

def alignInner (d : Side) (node parent : Ptr) (m : Mem) : Option (Ptr × Mem) := do
  let inner ← m.childOf d.other parent
  if node = inner then (rotate d parent m).map fun m => (parent, m) else pure (node, m)

def turnGrand (d : Side) (node : Ptr) (m : Mem) : Option (Ptr × Mem) := do
  let parent ← m.parentOf node
  let m ← m.setRed parent false
  let grand ← m.parentOf parent
  let m ← m.setRed grand true
  let m ← rotate d.other grand m
  pure (node, m)

/-- A turn of the loop of `al_rbtree_insert`, when the parent of `node` is red and a child on the
side `d`; with the node of the next turn. -/
def insertTurn (d : Side) (node : Ptr) (m : Mem) : Option (Ptr × Mem) := do
  let parent ← m.parentOf node
  let grand ← m.parentOf parent
  let temp ← m.childOf d.other grand
  if ← m.isRed temp then
    let m ← m.setRed parent false
    let m ← m.setRed temp false
    let m ← m.setRed grand true
    pure (grand, m)
  else
    let (node, m) ← alignInner d node parent m
    turnGrand d node m

def sideOf (m : Mem) (p up : Ptr) : Option Side := do
  let l ← m.childOf .left up
  pure (if p = l then .left else .right)

def insertLoop : ℕ → Ptr → Mem → Option Mem
  | 0, _, _ => none
  | fuel + 1, node, m =>
    if node = m.root then m.setRed m.root false
    else do
      let parent ← m.parentOf node
      if ← m.isRed parent then
        let grand ← m.parentOf parent
        let d ← sideOf m parent grand
        let (node, m) ← insertTurn d node m
        insertLoop fuel node m
      else m.setRed m.root false

def plant (node : Ptr) (m : Mem) : Option Mem := do
  let m ← m.setParent node null
  let m ← m.setChild .left node m.sentinel
  let m ← m.setChild .right node m.sentinel
  let m ← m.setRed node false
  pure { m with root := node }

def alRbtreeInsert (fuel : ℕ) (node : Ptr) (m : Mem) : Option Mem :=
  if m.root = m.sentinel then plant node m
  else do
    let m ← alRbtreeInsertValue fuel m.root node m
    insertLoop fuel node m

def alRbtreeMin : ℕ → Ptr → Mem → Option Ptr
  | 0, _, _ => none
  | fuel + 1, node, m => do
    let l ← m.childOf .left node
    if l = m.sentinel then pure node else alRbtreeMin fuel l m

def blackSibling (d : Side) (temp up w : Ptr) (m : Mem) : Option (Ptr × Mem) := do
  if ← m.isRed w then
    let m ← m.setRed w false
    let m ← m.setRed up true
    let m ← rotate d up m
    let up ← m.parentOf temp
    let w ← m.childOf d.other up
    pure (w, m)
  else pure (w, m)

def farRed (d : Side) (temp w near far : Ptr) (m : Mem) : Option (Ptr × Mem) := do
  if ← m.isRed far then pure (w, m)
  else
    let m ← m.setRed near false
    let m ← m.setRed w true
    let m ← rotate d.other w m
    let up ← m.parentOf temp
    let w ← m.childOf d.other up
    pure (w, m)

def turnParent (d : Side) (temp w : Ptr) (m : Mem) : Option (Ptr × Mem) := do
  let up ← m.parentOf temp
  let c ← m.isRed up
  let m ← m.setRed w c
  let m ← m.setRed up false
  let far ← m.childOf d.other w
  let m ← m.setRed far false
  let m ← rotate d up m
  pure (m.root, m)

def settleSibling (d : Side) (temp w : Ptr) (m : Mem) : Option (Ptr × Mem) := do
  let near ← m.childOf d w
  let far ← m.childOf d.other w
  let nearIsRed ← m.isRed near
  let farIsRed ← m.isRed far
  if !nearIsRed && !farIsRed then
    let m ← m.setRed w true
    let up ← m.parentOf temp
    pure (up, m)
  else
    let (w, m) ← farRed d temp w near far m
    turnParent d temp w m

/-- A turn of the loop of `al_rbtree_delete`, when `temp` is a black child on the side `d`. -/
def deleteTurn (d : Side) (temp : Ptr) (m : Mem) : Option (Ptr × Mem) := do
  let up ← m.parentOf temp
  let w ← m.childOf d.other up
  let (w, m) ← blackSibling d temp up w m
  settleSibling d temp w m

def deleteLoop : ℕ → Ptr → Mem → Option Mem
  | 0, _, _ => none
  | fuel + 1, temp, m =>
    if temp = m.root then m.setRed temp false
    else do
      if ← m.isRed temp then m.setRed temp false
      else
        let up ← m.parentOf temp
        let d ← sideOf m temp up
        let (temp, m) ← deleteTurn d temp m
        deleteLoop fuel temp m

def scrub (node : Ptr) (m : Mem) : Option Mem := do
  let m ← m.setChild .left node null
  let m ← m.setChild .right node null
  let m ← m.setParent node null
  m.setKey node 0

def substitute (subst node : Ptr) (m : Mem) : Option Mem := do
  let l ← m.childOf .left node
  let m ← m.setChild .left subst l
  let r ← m.childOf .right node
  let m ← m.setChild .right subst r
  let up ← m.parentOf node
  let m ← m.setParent subst up
  let c ← m.isRed node
  let m ← m.setRed subst c
  let m ← replace .left node up subst m
  let l ← m.childOf .left subst
  let m ← adopt l subst m
  let r ← m.childOf .right subst
  adopt r subst m

/-- The node that leaves its place, and the child that moves up there. -/
def outgoing (fuel : ℕ) (node : Ptr) (m : Mem) : Option (Ptr × Ptr) := do
  let l ← m.childOf .left node
  let r ← m.childOf .right node
  if l = m.sentinel then pure (node, r)
  else if r = m.sentinel then pure (node, l)
  else do
    let subst ← alRbtreeMin fuel r m
    let sl ← m.childOf .left subst
    if sl = m.sentinel then do
      let sr ← m.childOf .right subst
      pure (subst, sr)
    else pure (subst, sl)

def takePlace (subst node up temp : Ptr) (m : Mem) : Option Mem :=
  if subst = node then m.setParent temp up
  else do
    let m ← m.setParent temp (if up = node then subst else up)
    substitute subst node m

def alRbtreeDelete (fuel : ℕ) (node : Ptr) (m : Mem) : Option Mem := do
  let (subst, temp) ← outgoing fuel node m
  if subst = m.root then
    let m ← Mem.setRed { m with root := temp } temp false
    scrub node m
  else
    let red ← m.isRed subst
    let up ← m.parentOf subst
    let m ← relink .left subst up temp m
    let m ← takePlace subst node up temp m
    let m ← scrub node m
    if red then pure m else deleteLoop fuel temp m

def lookupFrom : ℕ → Ptr → UInt64 → Mem → Option (Option Ptr)
  | 0, _, _, _ => none
  | fuel + 1, p, key, m =>
    if p = m.sentinel then some none
    else do
      let k ← m.keyOf p
      if key < k then
        let l ← m.childOf .left p
        lookupFrom fuel l key m
      else if k < key then
        let r ← m.childOf .right p
        lookupFrom fuel r key m
      else some (some p)

def alRbtreeLookup (fuel : ℕ) (key : UInt64) (m : Mem) : Option (Option Ptr) :=
  lookupFrom fuel m.root key m

end Aware.Tree
