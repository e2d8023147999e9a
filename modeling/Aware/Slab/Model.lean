import Mathlib.Data.BitVec
import Mathlib.Data.Nat.Log
import Mathlib.Logic.Function.Basic
import Mathlib.Tactic.Common

/-!
# The slab pool

`al_slab.c` with `min_shift` 6, which is also `al_slab_exact_shift`: no chunk is smaller than that, and
the bitmaps of the small chunks, which would lie in the page area, do not occur. A descriptor is known
by the place it has in the pool; the word `prev` of the source is a descriptor and the type in its two
low bits.
-/
namespace Aware.Slab
open Function

def pageSize : ℕ := 4096

/-- A pointer to a descriptor: `pool->free`, one of the slots, one of the pages. -/
inductive Ref where
  | null
  | free
  | slot (i : ℕ)
  | page (i : ℕ)
  deriving DecidableEq

inductive PageType where
  | page
  | big
  | exact
  | small
  deriving DecidableEq

def PageType.code : PageType → ℕ
  | .page => 0
  | .big => 1
  | .exact => 2
  | .small => 3

structure Area where
  base : ℕ
  start : ℕ
  limit : ℕ
  count : ℕ

/-- `pool->free`, six slots behind the pool, six statistics, and then the pages. -/
def Ref.addr (base : ℕ) : Ref → ℕ
  | .null => 0
  | .free => base + 40
  | .slot i => base + 128 + 24 * i
  | .page i => base + 464 + 24 * i

def Area.mapped (a : Area) : Ref → Bool
  | .null => false
  | .free => true
  | .slot i => decide (i < 6)
  | .page i => decide (i < a.count)

structure Pool where
  area : Area
  pfree : ℕ
  slab : Ref → BitVec 64
  next : Ref → Ref
  prev : Ref → Ref
  type : Ref → PageType

namespace Pool
variable (p : Pool)

/-- A descriptor that there is not can be neither read nor written. -/
def read {β : Type} (field : Pool → Ref → β) (r : Ref) : Option β :=
  if p.area.mapped r then some (field p r) else none

def write (r : Ref) (p' : Pool) : Option Pool :=
  if p.area.mapped r then some p' else none

def setSlab (r : Ref) (w : BitVec 64) : Option Pool :=
  p.write r { p with slab := update p.slab r w }

def setNext (r q : Ref) : Option Pool :=
  p.write r { p with next := update p.next r q }

def setPrev (r q : Ref) (t : PageType) : Option Pool :=
  p.write r { p with prev := update p.prev r q, type := update p.type r t }

def alSlabPageAddr (i : ℕ) : ℕ :=
  p.area.start + pageSize * i

end Pool

section Words

def pageStart : BitVec 64 := 0x8000000000000000

def busy : BitVec 64 := 0xffffffffffffffff

def shiftMask : BitVec 64 := 0x000000000000000f

def mapMask : BitVec 64 := 0xffffffff00000000

end Words

section Links

def unlink (r : Ref) (p : Pool) : Option Pool := do
  let q ← p.read Pool.prev r
  let s ← p.read Pool.next r
  let p ← p.setNext q s
  let s ← p.read Pool.next r
  let q ← p.read Pool.prev r
  let t ← p.read Pool.type r
  p.setPrev s q t

def push (head : Ref) (t : PageType) (r : Ref) (p : Pool) : Option Pool := do
  let s ← p.read Pool.next head
  let p ← p.setNext r s
  let p ← p.setNext head r
  let p ← p.setPrev r head t
  let s ← p.read Pool.next r
  p.setPrev s r t

end Links

section Pages

def setPage (w : BitVec 64) (i : ℕ) (p : Pool) : Option Pool := do
  let p ← p.setSlab (.page i) w
  let p ← p.setNext (.page i) .null
  p.setPrev (.page i) .null .page

def setPages (w : BitVec 64) : ℕ → ℕ → Pool → Option Pool
  | _, 0, p => some p
  | i, n + 1, p => do
    let p ← setPage w i p
    setPages w (i + 1) n p

/-- The loop of `al_slab_alloc_pages`: the first run in the list that is long enough. -/
def firstFit (pages : ℕ) (p : Pool) : ℕ → Ref → Option (Option ℕ)
  | 0, _ => none
  | _ + 1, .free => some none
  | fuel + 1, .page i => do
    let w ← p.read Pool.slab (.page i)
    if pages ≤ w.toNat then some (some i)
    else
      let s ← p.read Pool.next (.page i)
      firstFit pages p fuel s
  | _ + 1, _ => none

/-- What is behind the first `pages` pages of a run takes its place in the list. -/
def splitRun (i pages : ℕ) (p : Pool) : Option Pool := do
  let w ← p.read Pool.slab (.page i)
  let p ← p.setPrev (.page (i + w.toNat - 1)) (.page (i + pages)) .page
  let p ← p.setSlab (.page (i + pages)) (w - BitVec.ofNat 64 pages)
  let s ← p.read Pool.next (.page i)
  let p ← p.setNext (.page (i + pages)) s
  let q ← p.read Pool.prev (.page i)
  let t ← p.read Pool.type (.page i)
  let p ← p.setPrev (.page (i + pages)) q t
  let p ← p.setNext q (.page (i + pages))
  let s ← p.read Pool.next (.page i)
  p.setPrev s (.page (i + pages)) .page

def detachRun (i pages : ℕ) (p : Pool) : Option Pool := do
  let w ← p.read Pool.slab (.page i)
  if pages < w.toNat then splitRun i pages p else unlink (.page i) p

def takePages (i pages : ℕ) (p : Pool) : Option Pool := do
  let p ← detachRun i pages p
  let p ← setPage (BitVec.ofNat 64 pages ||| pageStart) i p
  setPages busy (i + 1) (pages - 1) { p with pfree := p.pfree - pages }

def alSlabAllocPages (pages : ℕ) (p : Pool) : Option (Option ℕ × Pool) := do
  let r ← p.read Pool.next .free
  let fit ← firstFit pages p (p.area.count + 1) r
  match fit with
  | none => some (none, p)
  | some i => do
    let p ← takePages i pages p
    some (some i, p)

/-- Two neighbours become one run: the first page has the word for both. -/
def absorb (first listed second : ℕ) (w : BitVec 64) (p : Pool) : Option Pool := do
  let p ← p.setSlab (.page first) w
  let p ← unlink (.page listed) p
  setPage 0 second p

/-- The run behind the pages is joined to them. With the number of pages behind the first. -/
def joinRight (i pages : ℕ) (p : Pool) : Option (ℕ × Pool) := do
  let w ← p.read Pool.slab (.page i)
  let join := i + w.toNat
  if join < p.area.count then do
    let t ← p.read Pool.type (.page join)
    let s ← p.read Pool.next (.page join)
    if t = .page ∧ s ≠ .null then do
      let m ← p.read Pool.slab (.page join)
      let p ← absorb i join join (w + m) p
      some (pages + m.toNat, p)
    else some (pages, p)
  else some (pages, p)

def leftOf (i : ℕ) (p : Pool) : Option Ref := do
  let w ← p.read Pool.slab (.page (i - 1))
  if w = 0 then p.read Pool.prev (.page (i - 1)) else some (.page (i - 1))

def joinLeft (i pages : ℕ) (p : Pool) : Option (ℕ × ℕ × Pool) :=
  if 0 < i then do
    let t ← p.read Pool.type (.page (i - 1))
    if t = .page then do
      let join ← leftOf i p
      let s ← p.read Pool.next join
      match join with
      | .page j =>
        if s ≠ .null then do
          let m ← p.read Pool.slab (.page j)
          let w ← p.read Pool.slab (.page i)
          let p ← absorb j j i (m + w) p
          some (j, pages + m.toNat, p)
        else some (i, pages, p)
      | _ => none
    else some (i, pages, p)
  else some (i, pages, p)

def closeRun (i pages : ℕ) (p : Pool) : Option Pool :=
  if pages ≠ 0 then p.setPrev (.page (i + pages)) (.page i) .page else some p

def clearPages (i pages : ℕ) (p : Pool) : Option Pool := do
  let p ← { p with pfree := p.pfree + pages }.setSlab (.page i) (BitVec.ofNat 64 pages)
  let p ← setPages 0 (i + 1) (pages - 1) p
  let s ← p.read Pool.next (.page i)
  if s ≠ .null then unlink (.page i) p else some p

def alSlabFreePages (i pages : ℕ) (p : Pool) : Option Pool := do
  let p ← clearPages i pages p
  let (pages, p) ← joinRight i (pages - 1) p
  let (i, pages, p) ← joinLeft i pages p
  let p ← closeRun i pages p
  push .free .page (.page i) p

end Pages

section Chunks

/-- How the word of a page keeps its chunks. -/
structure Kind where
  type : PageType
  off : ℕ
  limit : ℕ
  mask : BitVec 64
  full : BitVec 64
  first : BitVec 64

def exactKind : Kind :=
  ⟨.exact, 0, 64, busy, busy, 1⟩

def bigKind (shift : ℕ) : Kind :=
  ⟨.big, 32, pageSize >>> shift, mapMask, ((1#64 <<< (pageSize >>> shift)) - 1) <<< 32,
    (1#64 <<< 32) ||| BitVec.ofNat 64 shift⟩

def kind (shift : ℕ) : Kind :=
  if shift = 6 then exactKind else bigKind shift

def firstFree (k : Kind) (w : BitVec 64) : Option ℕ :=
  (List.range k.limit).find? fun j => !w.getLsbD (k.off + j)

/-- The page leaves its list when the last of its chunks is taken. -/
def takeChunk (k : Kind) (i j : ℕ) (p : Pool) : Option Pool := do
  let w ← p.read Pool.slab (.page i)
  let w := w ||| 1#64 <<< (k.off + j)
  let p ← p.setSlab (.page i) w
  if w &&& k.mask = k.full then do
    let p ← unlink (.page i) p
    let p ← p.setNext (.page i) .null
    p.setPrev (.page i) .null k.type
  else some p

def install (k : Kind) (slot i : ℕ) (p : Pool) : Option Pool := do
  let p ← p.setSlab (.page i) k.first
  let p ← p.setNext (.page i) (.slot slot)
  let p ← p.setPrev (.page i) (.slot slot) k.type
  p.setNext (.slot slot) (.page i)

def newChunk (k : Kind) (slot : ℕ) (p : Pool) : Option (Option ℕ × Pool) := do
  let (page, p) ← alSlabAllocPages 1 p
  match page with
  | none => some (none, p)
  | some i => do
    let p ← install k slot i p
    some (some (p.alSlabPageAddr i), p)

def maxSize : ℕ := pageSize / 2

/-- The loop counts the halvings of `size - 1`. -/
def shiftOf (size : ℕ) : ℕ :=
  if 64 < size then Nat.log2 (size - 1) + 1 else 6

def allocChunk (shift : ℕ) (p : Pool) : Option (Option ℕ × Pool) := do
  let slot := shift - 6
  let r ← p.read Pool.next (.slot slot)
  let s ← p.read Pool.next r
  if s = r then newChunk (kind shift) slot p
  else
    match r with
    | .page i => do
      let w ← p.read Pool.slab (.page i)
      match firstFree (kind shift) w with
      | some j => do
        let p ← takeChunk (kind shift) i j p
        some (some (p.alSlabPageAddr i + j <<< shift), p)
      | none => newChunk (kind shift) slot p
    | _ => none

def pagesOf (size : ℕ) : ℕ :=
  size / pageSize + if size % pageSize = 0 then 0 else 1

def alSlabAllocLocked (size : ℕ) (p : Pool) : Option (Option ℕ × Pool) :=
  if maxSize < size then do
    let (page, p) ← alSlabAllocPages (pagesOf size) p
    some (page.map p.alSlabPageAddr, p)
  else allocChunk (shiftOf size) p

def relist (k : Kind) (slot : ℕ) (full : Bool) (i : ℕ) (p : Pool) : Option Pool :=
  if full then push (.slot slot) k.type (.page i) p else some p

def clearChunk (k : Kind) (slot : ℕ) (full : Bool) (i : ℕ) (w : BitVec 64) (p : Pool) : Option Pool := do
  let p ← relist k slot full i p
  p.setSlab (.page i) w

def freeChunk (k : Kind) (shift : ℕ) (full : Bool) (i addr : ℕ) (w : BitVec 64) (p : Pool) :
    Option Pool :=
  let j := k.off + (addr % pageSize) >>> shift
  let w' := w &&& ~~~(1#64 <<< j)
  if w.getLsbD j then do
    let p ← clearChunk k (shift - 6) full i w' p
    if w' &&& k.mask ≠ 0 then some p else alSlabFreePages i 1 p
  else some p

def alSlabFreeLocked (addr : ℕ) (p : Pool) : Option Pool :=
  if addr < p.area.start ∨ p.area.limit < addr then some p
  else do
    let i := (addr - p.area.start) / pageSize
    let w ← p.read Pool.slab (.page i)
    let t ← p.read Pool.type (.page i)
    match t with
    | .small => none
    | .exact =>
      if addr % 64 ≠ 0 then some p else freeChunk exactKind 6 (decide (w = busy)) i addr w p
    | .big => do
      let shift := (w &&& shiftMask).toNat
      let s ← p.read Pool.next (.page i)
      if addr % 2 ^ shift ≠ 0 then some p
      else freeChunk (bigKind shift) shift (decide (s = .null)) i addr w p
    | .page =>
      if addr % pageSize ≠ 0 ∨ w &&& pageStart = 0 ∨ w = busy then some p
      else alSlabFreePages i (w &&& ~~~pageStart).toNat p

end Chunks

section Init

/-- The area that `al_slab_init` finds: as many pages as there is room for with their
descriptors. -/
def areaOf (base len : ℕ) : Area :=
  let pages := (len - 464) / (pageSize + 24)
  let start := (base + 464 + pages * 24 + (pageSize - 1)) / pageSize * pageSize
  ⟨base, start, base + len, min pages ((base + len - start) / pageSize)⟩

def alSlabInit (base len : ℕ) : Pool where
  area := areaOf base len
  pfree := (areaOf base len).count
  slab r := if r = .page 0 then BitVec.ofNat 64 (areaOf base len).count else 0
  next
    | .free => .page 0
    | .slot i => .slot i
    | .page 0 => .free
    | _ => .null
  prev r := if r = .page 0 then .free else .null
  type _ := .page

end Init

section Runs

structure Block where
  addr : ℕ
  size : ℕ
  deriving DecidableEq

structure Heap where
  pool : Pool
  bytes : ℕ → UInt8
  live : List Block

inductive Op where
  | alloc (size : ℕ)
  | calloc (size : ℕ)
  | free (addr : ℕ)

def zeroed (bytes : ℕ → UInt8) (b : Block) : ℕ → UInt8 :=
  fun a => if b.addr ≤ a ∧ a < b.addr + b.size then 0 else bytes a

def alSlabAlloc (size : ℕ) (h : Heap) : Option Heap := do
  let (r, p) ← alSlabAllocLocked size h.pool
  match r with
  | none => some { h with pool := p }
  | some a => some { h with pool := p, live := ⟨a, size⟩ :: h.live }

def alSlabCalloc (size : ℕ) (h : Heap) : Option Heap := do
  let (r, p) ← alSlabAllocLocked size h.pool
  match r with
  | none => some { h with pool := p }
  | some a =>
    some ⟨p, zeroed h.bytes ⟨a, size⟩, ⟨a, size⟩ :: h.live⟩

def alSlabFree (addr : ℕ) (h : Heap) : Option Heap := do
  let p ← alSlabFreeLocked addr h.pool
  some { h with pool := p, live := h.live.eraseP fun b => b.addr = addr }

def step (h : Heap) : Op → Option Heap
  | .alloc size => alSlabAlloc size h
  | .calloc size => alSlabCalloc size h
  | .free addr => alSlabFree addr h

end Runs

end Aware.Slab
