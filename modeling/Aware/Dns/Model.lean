import Aware.Lib.Slots
import Aware.Lib.Memory

/-!
# The store of domain names

The adaptive radix tree of `al_radix_tree.c` and `al_dns.c` over it. A pointer to a node is the node
itself, and what is written through `ref` is the result. `none` as a result is a pointer that is
followed though it is `NULL`, or an index that leaves its array; `al_calloc` succeeds.
-/
namespace Aware.Dns
open Slots

inductive NodeType where
  | node4
  | node16
  | node48
  | node256
  deriving DecidableEq, Repr

def maxPrefixLen : ℕ := 10

/-- `art_node` with the keys of the structures around it: one for each child, in a `node48` one
for each byte. -/
structure ArtNode where
  type : NodeType
  numChildren : UInt8
  partialLen : ℕ
  partialKey : ℕ → UInt8
  keys : ℕ → UInt8

structure ArtLeaf (β : Type) where
  value : β
  key : List UInt8

variable {β : Type}

/-- The leaf is allocated larger than its key and zeroed. -/
def ArtLeaf.byte (l : ArtLeaf β) (i : ℕ) : UInt8 :=
  l.key.getD i 0

/-- What a pointer to `art_node` points to; the lowest bit of the pointer tells the leaves. -/
inductive Art (β : Type) where
  | null
  | leaf (l : ArtLeaf β)
  | node (n : ArtNode) (children : ℕ → Art β)

def Art.isNull : Art β → Bool
  | .null => true
  | _ => false

def allocNode (type : NodeType) : ArtNode :=
  ⟨type, 0, 0, fun _ => 0, fun _ => 0⟩

def noChildren : ℕ → Art β :=
  fun _ => .null

def findChild (n : ArtNode) (children : ℕ → Art β) (c : UInt8) : Option ℕ :=
  match n.type with
  | .node4 => slotOf n.keys n.numChildren.toNat c
  | .node16 => slotOf n.keys n.numChildren.toNat c
  | .node48 => if n.keys c.toNat = 0 then none else some ((n.keys c.toNat).toNat - 1)
  | .node256 => if (children c.toNat).isNull then none else some c.toNat

def checkPrefix (n : ArtNode) (key : ℕ → UInt8) (keyLen depth : ℕ) : ℕ :=
  firstDiff n.partialKey (fun i => key (depth + i)) 0
    (min (min n.partialLen maxPrefixLen) (keyLen - depth))

def leafMatches (l : ArtLeaf β) (key : ℕ → UInt8) (keyLen : ℕ) : Bool :=
  l.key == Memory.slice key 0 keyLen

def searchFrom (key : ℕ → UInt8) (keyLen : ℕ) : Art β → ℕ → Option β
  | .null, _ => none
  | .leaf l, _ => if leafMatches l key keyLen then some l.value else none
  | .node n children, depth =>
    if n.partialLen ≠ 0 ∧ checkPrefix n key keyLen depth ≠ min maxPrefixLen n.partialLen then none
    else
      match findChild n children (key (depth + n.partialLen)) with
      | none => none
      | some i => searchFrom key keyLen (children i) (depth + n.partialLen + 1)

def firstSlot (n : ArtNode) (children : ℕ → Art β) : Option ℕ :=
  match n.type with
  | .node4 => some 0
  | .node16 => some 0
  | .node48 => ((List.range 256).find? fun i => n.keys i != 0).map fun i => (n.keys i).toNat - 1
  | .node256 => (List.range 256).find? fun i => !(children i).isNull

def minimum : Art β → Option (ArtLeaf β)
  | .null => none
  | .leaf l => some l
  | .node n children =>
    match firstSlot n children with
    | none => none
    | some i => minimum (children i)

def makeLeaf (key : ℕ → UInt8) (keyLen : ℕ) (value : β) : ArtLeaf β :=
  ⟨value, Memory.slice key 0 keyLen⟩

def longestCommonPrefix (l₁ l₂ : ArtLeaf β) (depth : ℕ) : ℕ :=
  firstDiff (fun i => l₁.byte (depth + i)) (fun i => l₂.byte (depth + i)) 0
    (min l₁.key.length l₂.key.length - depth)

def copyHeader (dest src : ArtNode) : ArtNode :=
  { dest with
    numChildren := src.numChildren
    partialLen := src.partialLen
    partialKey := copy dest.partialKey 0 src.partialKey 0 (min maxPrefixLen src.partialLen) }

def resize (type : NodeType) (n : ArtNode) (keys : ℕ → UInt8) : ArtNode :=
  { copyHeader (allocNode type) n with keys }

def addChild256 (n : ArtNode) (children : ℕ → Art β) (c : UInt8) (child : Art β) : Art β :=
  .node { n with numChildren := n.numChildren + 1 } (put children c.toNat child)

def children256 (n : ArtNode) (children : ℕ → Art β) : ℕ → Art β :=
  fun i => if i < 256 ∧ n.keys i ≠ 0 then children ((n.keys i).toNat - 1) else .null

def indexKey (n : ArtNode) (c : UInt8) (pos : ℕ) : ArtNode :=
  { n with
    keys := put n.keys c.toNat (UInt8.ofNat (pos + 1))
    numChildren := n.numChildren + 1 }

def addChild48 (n : ArtNode) (children : ℕ → Art β) (c : UInt8) (child : Art β) : Option (Art β) :=
  if n.numChildren < 48 then
    ((List.range 48).find? fun pos => (children pos).isNull).map fun pos =>
      .node (indexKey n c pos) (put children pos child)
  else some (addChild256 (copyHeader (allocNode .node256) n) (children256 n children) c child)

def keys48 (n : ArtNode) : ℕ → UInt8 :=
  (List.range n.numChildren.toNat).foldl
    (fun keys i => put keys (n.keys i).toNat (UInt8.ofNat (i + 1))) fun _ => 0

def grow48 (n : ArtNode) : ArtNode :=
  resize .node48 n (keys48 n)

def grow16 (n : ArtNode) : ArtNode :=
  resize .node16 n (copy (fun _ => 0) 0 n.keys 0 n.numChildren.toNat)

def addKey (n : ArtNode) (idx : ℕ) (c : UInt8) : ArtNode :=
  { n with
    keys := openAt n.keys n.numChildren.toNat idx c
    numChildren := n.numChildren + 1 }

def addAt (n : ArtNode) (children : ℕ → Art β) (idx : ℕ) (c : UInt8) (child : Art β) : Art β :=
  .node (addKey n idx c) (openAt children n.numChildren.toNat idx child)

/-- The bytes are compared as signed ones here. -/
def addChild16 (n : ArtNode) (children : ℕ → Art β) (c : UInt8) (child : Art β) : Option (Art β) :=
  if n.numChildren < 16 then
    let idx := ((List.range n.numChildren.toNat).find? fun i => c.toInt8 < (n.keys i).toInt8).getD
      n.numChildren.toNat
    some (addAt n children idx c child)
  else
    addChild48 (grow48 n) (copy noChildren 0 children 0 n.numChildren.toNat) c child

def addChild4 (n : ArtNode) (children : ℕ → Art β) (c : UInt8) (child : Art β) : Option (Art β) :=
  if n.numChildren < 4 then
    let idx := ((List.range n.numChildren.toNat).find? fun i => c < n.keys i).getD n.numChildren.toNat
    some (addAt n children idx c child)
  else
    addChild16 (grow16 n) (copy noChildren 0 children 0 n.numChildren.toNat) c child

def addChild (n : ArtNode) (children : ℕ → Art β) (c : UInt8) (child : Art β) : Option (Art β) :=
  match n.type with
  | .node4 => addChild4 n children c child
  | .node16 => addChild16 n children c child
  | .node48 => addChild48 n children c child
  | .node256 => some (addChild256 n children c child)

def prefixMismatch (n : ArtNode) (children : ℕ → Art β) (key : ℕ → UInt8) (keyLen depth : ℕ) : Option ℕ :=
  let maxCmp := min (min maxPrefixLen n.partialLen) (keyLen - depth)
  let idx := firstDiff n.partialKey (fun i => key (depth + i)) 0 maxCmp
  if idx < maxCmp then some idx
  else if maxPrefixLen < n.partialLen then
    (minimum (.node n children)).map fun l =>
      firstDiff (fun i => l.byte (i + depth)) (fun i => key (depth + i)) idx
        (min l.key.length keyLen - depth - idx)
  else some idx

def prefixNode (len : ℕ) (bytes : ℕ → UInt8) : ArtNode :=
  { allocNode .node4 with partialLen := len, partialKey := bytes }

def addTo (t : Art β) (c : UInt8) (child : Art β) : Option (Art β) :=
  match t with
  | .node n children => addChild4 n children c child
  | _ => none

def splitLeaf (l l₂ : ArtLeaf β) (key : ℕ → UInt8) (depth : ℕ) : Option (Art β) :=
  let longest := longestCommonPrefix l l₂ depth
  let n := prefixNode longest (copy (fun _ => 0) 0 key depth (min maxPrefixLen longest))
  (addChild4 n noChildren (l.byte (depth + longest)) (.leaf l)).bind fun t =>
    addTo t (l₂.byte (depth + longest)) (.leaf l₂)

def shorten (n : ArtNode) (children : ℕ → Art β) (depth diff : ℕ) : Option (UInt8 × ArtNode) :=
  let len := n.partialLen - (diff + 1)
  if n.partialLen ≤ maxPrefixLen then
    some (n.partialKey diff,
      { n with partialLen := len, partialKey := move n.partialKey 0 (diff + 1) (min maxPrefixLen len) })
  else
    (minimum (.node n children)).map fun l =>
      (l.byte (depth + diff),
        { n with
          partialLen := len
          partialKey := copy n.partialKey 0 l.byte (depth + diff + 1) (min maxPrefixLen len) })

/-- A node whose prefix differs from the key at `diff` is put below a new `node4`. -/
def splitNode (n : ArtNode) (children : ℕ → Art β) (key : ℕ → UInt8) (leaf : ArtLeaf β)
    (depth diff : ℕ) : Option (Art β) :=
  let new := prefixNode diff (copy (fun _ => 0) 0 n.partialKey 0 (min maxPrefixLen diff))
  (shorten n children depth diff).bind fun old =>
    (addChild4 new noChildren old.1 (.node old.2 children)).bind fun t =>
      addTo t (key (depth + diff)) (.leaf leaf)

def recursiveInsert (key : ℕ → UInt8) (keyLen : ℕ) (value : β) : Art β → ℕ → Option (Art β × Option β)
  | .null, _ => some (.leaf (makeLeaf key keyLen value), none)
  | .leaf l, depth =>
    if leafMatches l key keyLen then some (.leaf { l with value }, some l.value)
    else (splitLeaf l (makeLeaf key keyLen value) key depth).map fun t => (t, none)
  | .node n children, depth =>
    (if n.partialLen = 0 then some 0 else prefixMismatch n children key keyLen depth).bind fun diff =>
      if n.partialLen ≤ diff then
        match findChild n children (key (depth + n.partialLen)) with
        | some i =>
          (recursiveInsert key keyLen value (children i) (depth + n.partialLen + 1)).map fun r =>
            (.node n (put children i r.1), r.2)
        | none =>
          (addChild n children (key (depth + n.partialLen)) (.leaf (makeLeaf key keyLen value))).map
            fun t => (t, none)
      else (splitNode n children key (makeLeaf key keyLen value) depth diff).map fun t => (t, none)

def bytesWith (test : ℕ → Bool) : List ℕ :=
  (List.range 256).filter test

def shrink48 (n : ArtNode) (children : ℕ → Art β) : Art β :=
  let bytes := bytesWith fun i => !(children i).isNull
  .node (resize .node48 n fun i => if i ∈ bytes then UInt8.ofNat (bytes.idxOf i + 1) else 0)
    (ofList (bytes.map children) .null)

def removeChild256 (n : ArtNode) (children : ℕ → Art β) (c : UInt8) : Art β :=
  let children := put children c.toNat .null
  let n := { n with numChildren := n.numChildren - 1 }
  if n.numChildren = 37 then shrink48 n children else .node n children

def shrink16 (n : ArtNode) (children : ℕ → Art β) : Art β :=
  let bytes := bytesWith fun i => n.keys i != 0
  .node (resize .node16 n (ofList (bytes.map UInt8.ofNat) 0))
    (ofList (bytes.map fun i => children ((n.keys i).toNat - 1)) .null)

def removeChild48 (n : ArtNode) (children : ℕ → Art β) (c : UInt8) : Art β :=
  let children := put children ((n.keys c.toNat).toNat - 1) .null
  let n := { n with keys := put n.keys c.toNat 0, numChildren := n.numChildren - 1 }
  if n.numChildren = 12 then shrink16 n children else .node n children

def dropKey (n : ArtNode) (pos : ℕ) : ArtNode :=
  { n with
    keys := closeAt n.keys n.numChildren.toNat pos
    numChildren := n.numChildren - 1 }

def shrink4 (n : ArtNode) (children : ℕ → Art β) : Art β :=
  .node (resize .node4 n (copy (fun _ => 0) 0 n.keys 0 4))
    (copy noChildren 0 children 0 4)

def removeChild16 (n : ArtNode) (children : ℕ → Art β) (pos : ℕ) : Art β :=
  let children := closeAt children n.numChildren.toNat pos
  let n := dropKey n pos
  if n.numChildren = 3 then shrink4 n children else .node n children

def concatPrefix (n m : ArtNode) : (ℕ → UInt8) × ℕ :=
  let (bytes, len) :=
    if n.partialLen < maxPrefixLen then (put n.partialKey n.partialLen (n.keys 0), n.partialLen + 1)
    else (n.partialKey, n.partialLen)
  if len < maxPrefixLen then
    let sub := min m.partialLen (maxPrefixLen - len)
    (copy bytes len m.partialKey 0 sub, len + sub)
  else (bytes, len)

def joinHeader (n m : ArtNode) : ArtNode :=
  { m with
    partialKey := copy m.partialKey 0 (concatPrefix n m).1 0 (min (concatPrefix n m).2 maxPrefixLen)
    partialLen := m.partialLen + (n.partialLen + 1) }

def removeChild4 (n : ArtNode) (children : ℕ → Art β) (pos : ℕ) : Option (Art β) :=
  let children := closeAt children n.numChildren.toNat pos
  let n := dropKey n pos
  if n.numChildren = 1 then
    match children 0 with
    | .null => none
    | .leaf l => some (.leaf l)
    | .node m grandchildren => some (.node (joinHeader n m) grandchildren)
  else some (.node n children)

def removeChild (n : ArtNode) (children : ℕ → Art β) (c : UInt8) (pos : ℕ) : Option (Art β) :=
  match n.type with
  | .node4 => removeChild4 n children pos
  | .node16 => some (removeChild16 n children pos)
  | .node48 => some (removeChild48 n children c)
  | .node256 => some (removeChild256 n children c)

def recursiveDelete (key : ℕ → UInt8) (keyLen : ℕ) : Art β → ℕ → Option (Art β × Option (ArtLeaf β))
  | .null, _ => some (.null, none)
  | .leaf l, _ => some (if leafMatches l key keyLen then (.null, some l) else (.leaf l, none))
  | .node n children, depth =>
    if n.partialLen ≠ 0 ∧ checkPrefix n key keyLen depth ≠ min maxPrefixLen n.partialLen then
      some (.node n children, none)
    else
      match findChild n children (key (depth + n.partialLen)) with
      | none => some (.node n children, none)
      | some i =>
        match children i with
        | .leaf l =>
          if leafMatches l key keyLen then
            (removeChild n children (key (depth + n.partialLen)) i).map fun t => (t, some l)
          else some (.node n children, none)
        | _ =>
          (recursiveDelete key keyLen (children i) (depth + n.partialLen + 1)).map fun r =>
            (.node n (put children i r.1), r.2)

structure ArtTree (β : Type) where
  root : Art β
  size : UInt64

def artTreeInit : ArtTree β :=
  ⟨.null, 0⟩

def artSearch (t : ArtTree β) (key : ℕ → UInt8) (keyLen : ℕ) : Option β :=
  searchFrom key keyLen t.root 0

def artInsert (t : ArtTree β) (key : ℕ → UInt8) (keyLen : ℕ) (value : β) : Option (ArtTree β × Option β) :=
  (recursiveInsert key keyLen value t.root 0).map fun r =>
    (⟨r.1, if r.2.isSome then t.size else t.size + 1⟩, r.2)

def artDelete (t : ArtTree β) (key : ℕ → UInt8) (keyLen : ℕ) : Option (ArtTree β × Option β) :=
  (recursiveDelete key keyLen t.root 0).map fun r =>
    (⟨r.1, if r.2.isSome then t.size - 1 else t.size⟩, r.2.map ArtLeaf.value)

end Aware.Dns
