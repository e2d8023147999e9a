import Aware.Lib.BitStrings
import Mathlib.Data.BitVec

/-!
Addresses as the control plane hands them over: a length byte, a family byte and the
address itself, for both families laid over the same memory.
-/
namespace Aware

def afInet : UInt8 := 2

def afInet6 : UInt8 := 10

inductive Family where
  | inet
  | inet6
deriving DecidableEq, Repr

def Family.width : Family → ℕ
  | .inet => 32
  | .inet6 => 128

/-- A contiguous mask of an address of `w` bits. -/
structure Mask (w : ℕ) where
  len : ℕ
  le : len ≤ w
deriving DecidableEq, Repr

def Mask.bits {w : ℕ} (m : Mask w) : BitVec w :=
  BitStrings.leadingOnes m.len

def Mask.any {w : ℕ} : Mask w :=
  ⟨0, w.zero_le⟩

/-- `htons` on a little-endian host. -/
def htons (x : UInt16) : UInt16 := (x <<< 8) ||| (x >>> 8)

theorem htons_toNat (x : UInt16) : (htons x).toNat = x.toNat / 256 + 256 * (x.toNat % 256) := by
  have hlt := x.toNat_lt
  have hright : (x >>> 8).toNat = x.toNat / 256 := by
    rw [UInt16.toNat_shiftRight]
    exact Nat.shiftRight_eq_div_pow x.toNat 8
  have hleft : (x <<< 8).toNat = (x.toNat % 256) <<< 8 := by
    rw [UInt16.toNat_shiftLeft, Nat.shiftLeft_eq, Nat.shiftLeft_eq]
    change x.toNat * 256 % 65536 = x.toNat % 256 * 256
    omega
  rw [htons, UInt16.toNat_or, hleft, hright, ← Nat.shiftLeft_add_eq_or_of_lt (by omega), Nat.shiftLeft_eq]
  omega

theorem htons_htons (x : UInt16) : htons (htons x) = x := by
  have hlt := x.toNat_lt
  rw [← UInt16.toNat_inj, htons_toNat, htons_toNat]
  omega

/-- The union of `al_addr_t`, `al_addr4_t` and `al_addr6_t`. The IPv4 address lies in the padding
of the IPv6 view, so both addresses are kept. -/
structure AlAddr where
  len : UInt8
  family : UInt8
  naddr4 : BitVec 32
  naddr6 : BitVec 128
  deriving DecidableEq, Repr

def AlAddr.assign4 (dst src : AlAddr) : AlAddr :=
  { dst with len := src.len, family := src.family, naddr4 := src.naddr4 }

def AlAddr.assign6 (_ src : AlAddr) : AlAddr := src

def AlAddr.SameAddress (a b : AlAddr) : Prop :=
  a.family = b.family ∧ if a.family = afInet then a.naddr4 = b.naddr4 else a.naddr6 = b.naddr6

instance (a b : AlAddr) : Decidable (a.SameAddress b) :=
  inferInstanceAs (Decidable (_ ∧ _))

theorem AlAddr.SameAddress.trans {a b d : AlAddr} (h : a.SameAddress b) (h' : b.SameAddress d) :
    a.SameAddress d := by
  refine ⟨h.1.trans h'.1, ?_⟩
  obtain ⟨hfam, haddr⟩ := h
  have haddr' := h'.2
  rw [← hfam] at haddr'
  split
  · rename_i hv4
    rw [if_pos hv4] at haddr haddr'
    exact haddr.trans haddr'
  · rename_i hv4
    rw [if_neg hv4] at haddr haddr'
    exact haddr.trans haddr'

end Aware
