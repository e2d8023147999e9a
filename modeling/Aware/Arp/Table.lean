import Aware.Frame.Mbuf
import Aware.Lib.Buckets

/-!
# The neighbour tables

Two hash tables, one for each family, of the hardware address and the port of a neighbour. ARP
packets and the control plane enter neighbours; nothing removes them.
-/
namespace Aware.Arp
open Aware.Frames Aware.Service Aware.Sessions

structure Entry (w : ℕ) where
  haddr : BitVec 48
  ipaddr : BitVec w
  portid : UInt16
  iptype : UInt8
  deriving DecidableEq, Repr

def Entry.revise {w : ℕ} (portid : UInt16) (haddr : BitVec 48) (pos : Entry w) : Entry w :=
  { pos with portid, haddr }

/-- The family of a new entry is AF_INET in both tables. -/
def newEntry {w : ℕ} (ipaddr : BitVec w) (haddr : BitVec 48) (portid : UInt16) : Entry w :=
  ⟨haddr, ipaddr, portid, afInet⟩

def tableSize : ℕ := 2048

abbrev Table (w : ℕ) := Fin tableSize → List (Entry w)

structure Neighbours where
  arp : Table 32
  ndp : Table 128

def arpInit : Neighbours :=
  ⟨fun _ => [], fun _ => []⟩

def arpKeyData (ipaddr : BitVec 32) : BitVec 32 :=
  (ipaddr &&& 0xffff) ^^^ ((ipaddr >>> 16) &&& 0xffff)

/-- `arp_mask` is one less than the size of the tables. -/
def masked (x : BitVec 32) : Fin tableSize :=
  ⟨(x &&& 2047).toNat, by
    rw [BitVec.toNat_and]
    exact Nat.lt_of_le_of_lt Nat.and_le_right (Nat.lt_succ_self 2047)⟩

def arpKey (ipaddr : BitVec 32) : Fin tableSize :=
  masked (arpKeyData ipaddr)

/-- The upper half of the address is left out. -/
def ndpKey (ipaddr : BitVec 128) : Fin tableSize :=
  masked (arpKeyData (ipaddr.setWidth 32) ^^^ arpKeyData ((ipaddr >>> 32).setWidth 32))

section Entries
variable {w : ℕ} (hash : BitVec w → Fin tableSize)

/-- An entry that exists keeps all but the port and the hardware address. -/
def addEntry (t : Table w) (alloc : Bool) (ipaddr : BitVec w) (haddr : BitVec 48) (portid : UInt16) :
    Int × Table w :=
  match Buckets.updateFirst (fun pos => pos.ipaddr == ipaddr) (Entry.revise portid haddr)
      (t (hash ipaddr)) with
  | some l => (1, Function.update t (hash ipaddr) l)
  | none =>
    if alloc then
      (1, Function.update t (hash ipaddr) (newEntry ipaddr haddr portid :: t (hash ipaddr)))
    else (0, t)

/-- The port and the hardware address; `none` is the return value -1. -/
def searchEntry (t : Table w) (addr : BitVec w) : Option (UInt16 × BitVec 48) :=
  ((t (hash addr)).find? fun pos => pos.ipaddr == addr).map fun pos => (pos.portid, pos.haddr)

def entries (t : Table w) : List (Entry w) :=
  (List.finRange tableSize).flatMap t

end Entries

def arpAddEntry : Table 32 → Bool → BitVec 32 → BitVec 48 → UInt16 → Int × Table 32 :=
  addEntry arpKey

def ndpAddEntry : Table 128 → Bool → BitVec 128 → BitVec 48 → UInt16 → Int × Table 128 :=
  addEntry ndpKey

section Laws
variable {w : ℕ} {hash : BitVec w → Fin tableSize} {t : Table w} {ipaddr : BitVec w}
  {haddr : BitVec 48} {portid : UInt16}

theorem revise_ipaddr (pos : Entry w) : (pos.revise portid haddr).ipaddr = pos.ipaddr := rfl

theorem newEntry_ipaddr : (newEntry ipaddr haddr portid).ipaddr = ipaddr := rfl

theorem addEntry_eq :
    (addEntry hash t true ipaddr haddr portid).2 =
      Buckets.put Entry.ipaddr hash t ipaddr (Entry.revise portid haddr)
        (newEntry ipaddr haddr portid) := by
  simp only [addEntry, Buckets.put, Buckets.enter]
  cases Buckets.updateFirst (fun pos : Entry w => pos.ipaddr == ipaddr)
    (Entry.revise portid haddr) (t (hash ipaddr)) <;> rfl

theorem sound_addEntry (h : Buckets.Sound Entry.ipaddr hash t) :
    Buckets.Sound Entry.ipaddr hash (addEntry hash t true ipaddr haddr portid).2 := by
  rw [addEntry_eq]
  exact h.put revise_ipaddr newEntry_ipaddr

theorem searchEntry_addEntry (addr : BitVec w) :
    searchEntry hash (addEntry hash t true ipaddr haddr portid).2 addr =
      if addr = ipaddr then some (portid, haddr) else searchEntry hash t addr := by
  have hfind : ∀ t, searchEntry hash t addr =
      (Buckets.find Entry.ipaddr hash t addr).map fun pos => (pos.portid, pos.haddr) := fun _ => rfl
  rw [hfind, hfind, addEntry_eq]
  split
  · rename_i heq
    subst heq
    rw [Buckets.find_put_self revise_ipaddr newEntry_ipaddr, Option.map_some]
    cases Buckets.find Entry.ipaddr hash t addr <;> rfl
  · rename_i hne
    rw [Buckets.find_put_of_ne revise_ipaddr newEntry_ipaddr hne]

theorem mem_addEntry {e : Entry w} (hne : e.ipaddr ≠ ipaddr) :
    e ∈ entries (addEntry hash t true ipaddr haddr portid).2 ↔ e ∈ entries t := by
  simp only [entries, addEntry_eq, List.mem_flatMap,
    Buckets.mem_put_of_ne revise_ipaddr newEntry_ipaddr hne]

theorem nodup_entries (h : Buckets.Sound Entry.ipaddr hash t) :
    ((entries t).map Entry.ipaddr).Nodup :=
  h.nodup_flatMap (List.nodup_finRange tableSize)

end Laws

def vportHasIp (v : Vport) (ip : Ipcs) (f : Family) : Bool :=
  match f with
  | .inet => v.ipv4.any fun s => s.ip.ipv4 == ip.ipv4
  | .inet6 => v.ipv6.any fun s => s.ip.ipv6 == ip.ipv6

end Aware.Arp
