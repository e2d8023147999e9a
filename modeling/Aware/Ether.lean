import Aware.Lib.Strtoul

/-!
# Hardware addresses as texts

`ether_atoe` configures the kernel's device and `al_ether_aton` the port, from the same stored
text. The first takes what it can get, the second checks every group.
-/
namespace Aware.Ether
open Strtoul

def etherAddrLen : ℕ := 6

/-- The loop of `ether_atoe` with `k` places left: the bytes it stores. -/
def atoeLoop : ℕ → List UInt8 → List UInt8
  | 0, _ => []
  | k + 1, c =>
    let r := strtoul c
    r.value.toUInt8 :: if peek r.rest = 0 then [] else atoeLoop k (r.rest.drop 1)

/-- The return value and the six bytes, those not reached being zero. -/
def etherAtoe (a : List UInt8) : Bool × List UInt8 :=
  let bytes := atoeLoop etherAddrLen a
  (bytes.length == etherAddrLen, bytes ++ List.replicate (etherAddrLen - bytes.length) 0)

def etoaFrom : ℕ → List UInt8 → List UInt8
  | _, [] => []
  | i, b :: e => (if i ≠ 0 then [58] else []) ++ hexByte b ++ etoaFrom (i + 1) e

def etherEtoa (e : List UInt8) : List UInt8 :=
  etoaFrom 0 e

/-- The loop of `al_ether_aton` with `k` places left: its numbers and where it stops. -/
def atonLoop : ℕ → List UInt8 → Option (List UInt64 × List UInt8)
  | 0, _ => none
  | k + 1, a =>
    let r := strtoul a
    if r.range ∨ r.rest = a ∨ (peek r.rest ≠ 58 ∧ peek r.rest ≠ 0) then none
    else if k ≠ 0 ∧ peek r.rest ≠ 0 then
      (atonLoop k (r.rest.drop 1)).map fun o => (r.value :: o.1, o.2)
    else some ([r.value], r.rest)

def atonBytes (o : List UInt64) : Option (List UInt8) :=
  if o.length = etherAddrLen then
    if o.all (· ≤ 255) then some (o.map UInt64.toUInt8) else none
  else if o.length = etherAddrLen / 2 then
    if o.all (· ≤ 65535) then some (o.flatMap fun v : UInt64 => [(v >>> 8).toUInt8, (v &&& 255).toUInt8])
    else none
  else none

def alEtherAton (a : List UInt8) : Option (List UInt8) :=
  (atonLoop etherAddrLen a).bind fun o => if peek o.2 ≠ 0 then none else atonBytes o.1

def groups (a : List UInt8) : Option ℕ :=
  (atonLoop etherAddrLen a).map fun o => o.1.length

theorem hexVal_etoaFrom (i : ℕ) (e : List UInt8) : hexVal (peek (etoaFrom (i + 1) e)) = none := by
  cases e <;> rfl

theorem atoeLoop_etoaFrom (e : List UInt8) (i : ℕ) :
    atoeLoop e.length ((etoaFrom i e).drop (if i = 0 then 0 else 1)) = e := by
  induction e generalizing i with
  | nil => rfl
  | cons b e ih =>
    have hdrop : (etoaFrom i (b :: e)).drop (if i = 0 then 0 else 1) =
        hexByte b ++ etoaFrom (i + 1) e := by
      cases i <;> rfl
    have hrest := ih (i + 1)
    rw [if_neg (Nat.succ_ne_zero i)] at hrest
    have hbyte : b.toUInt64.toUInt8 = b := UInt8.toUInt8_toUInt64 b
    rw [hdrop, List.length_cons, atoeLoop, strtoul_hexByte b (hexVal_etoaFrom i e)]
    simp only [hbyte]
    cases e with
    | nil => rfl
    | cons b' e => exact congrArg (b :: ·) hrest

theorem atonLoop_etoaFrom (e : List UInt8) (i : ℕ) (he : e ≠ []) :
    atonLoop e.length ((etoaFrom i e).drop (if i = 0 then 0 else 1)) =
      some (e.map UInt8.toUInt64, []) := by
  induction e generalizing i with
  | nil => exact absurd rfl he
  | cons b e ih =>
    have hdrop : (etoaFrom i (b :: e)).drop (if i = 0 then 0 else 1) =
        hexByte b ++ etoaFrom (i + 1) e := by
      cases i <;> rfl
    have hmoved : etoaFrom (i + 1) e ≠ hexByte b ++ etoaFrom (i + 1) e := by
      intro heq
      have hlen := congrArg List.length heq
      rw [List.length_append, hexByte, List.length_cons] at hlen
      omega
    rw [hdrop, List.length_cons, atonLoop, strtoul_hexByte b (hexVal_etoaFrom i e)]
    cases e with
    | nil => simp [hexByte, etoaFrom, peek]
    | cons b' e =>
      have hrest := ih (i + 1) (List.cons_ne_nil b' e)
      rw [if_neg (Nat.succ_ne_zero i)] at hrest
      have hpeek : peek (etoaFrom (i + 1) (b' :: e)) = 58 := rfl
      simp only [hmoved, hpeek, hrest]
      rfl

theorem toUInt8_map_toUInt64 (e : List UInt8) :
    (e.map UInt8.toUInt64).map UInt64.toUInt8 = e := by
  induction e with
  | nil => rfl
  | cons b e ih => rw [List.map_cons, List.map_cons, ih, UInt8.toUInt8_toUInt64]

theorem etherAtoe_etherEtoa {e : List UInt8} (he : e.length = etherAddrLen) :
    etherAtoe (etherEtoa e) = (true, e) := by
  have hloop : atoeLoop etherAddrLen (etherEtoa e) = e := by
    rw [← he]
    exact atoeLoop_etoaFrom e 0
  simp [etherAtoe, hloop, he]

theorem alEtherAton_etherEtoa {e : List UInt8} (he : e.length = etherAddrLen) :
    alEtherAton (etherEtoa e) = some e := by
  have hne : e ≠ [] := by
    rintro rfl
    cases he
  have hloop : atonLoop etherAddrLen (etherEtoa e) = some (e.map UInt8.toUInt64, []) := by
    rw [← he]
    exact atonLoop_etoaFrom e 0 hne
  have hsmall : (e.map UInt8.toUInt64).all (· ≤ 255) = true := by
    rw [List.all_eq_true]
    intro v hv
    obtain ⟨b, _, rfl⟩ := List.mem_map.mp hv
    have hb := b.toNat_lt
    rw [decide_eq_true_iff, UInt64.le_iff_toNat_le, UInt8.toNat_toUInt64]
    exact Nat.le_of_lt_succ hb
  rw [alEtherAton, hloop]
  simp only [Option.bind_some, peek, atonBytes, List.length_map, he, hsmall, if_true,
    toUInt8_map_toUInt64]
  rfl

theorem atoeLoop_of_atonLoop {k : ℕ} {a rest : List UInt8} {o : List UInt64}
    (h : atonLoop k a = some (o, rest)) (hlen : o.length = k) :
    atoeLoop k a = o.map UInt64.toUInt8 := by
  induction k generalizing a o with
  | zero => cases h
  | succ k ih =>
    simp only [atonLoop] at h
    split at h
    · cases h
    · split at h
      · rename_i hmore
        obtain ⟨o', ho', heq⟩ := Option.map_eq_some_iff.mp h
        cases heq
        have hrest := ih ho' (Nat.succ.inj hlen)
        simp only [atoeLoop, if_neg hmore.2, hrest, List.map_cons]
      · cases h
        have hk : k = 0 := (Nat.succ.inj hlen).symm
        subst hk
        simp [atoeLoop]

theorem etherAtoe_of_alEtherAton {a e : List UInt8} (hsix : groups a = some etherAddrLen)
    (h : alEtherAton a = some e) : etherAtoe a = (true, e) := by
  obtain ⟨⟨o, rest⟩, ho, hlen⟩ := Option.map_eq_some_iff.mp hsix
  simp only at hlen
  rw [alEtherAton, ho, Option.bind_some] at h
  simp only [atonBytes, hlen, if_true] at h
  have he : o.map UInt64.toUInt8 = e := by
    split at h
    · cases h
    · split at h
      · exact Option.some.inj h
      · cases h
  have hloop := atoeLoop_of_atonLoop ho hlen
  rw [he] at hloop
  have hcount : e.length = etherAddrLen := by rw [← he, List.length_map, hlen]
  simp [etherAtoe, hloop, hcount]

/-- Both read back what is written, and the lax one follows the strict one on six groups. -/
theorem ether_texts_agree :
    (∀ e : List UInt8, e.length = etherAddrLen →
      etherAtoe (etherEtoa e) = (true, e) ∧ alEtherAton (etherEtoa e) = some e) ∧
    ∀ a e : List UInt8, groups a = some etherAddrLen → alEtherAton a = some e →
      etherAtoe a = (true, e) :=
  ⟨fun _ he => ⟨etherAtoe_etherEtoa he, alEtherAton_etherEtoa he⟩,
    fun _ _ => etherAtoe_of_alEtherAton⟩

def looseText : List UInt8 :=
  [32, 48, 120, 49, 58, 43, 50, 58, 48, 48, 51, 58, 97, 58, 66, 58, 102, 70]

theorem loose_text_agrees :
    alEtherAton (etherEtoa [0, 9, 10, 127, 128, 255]) = some [0, 9, 10, 127, 128, 255] ∧
      alEtherAton looseText = some [1, 2, 3, 10, 11, 255] ∧
      etherAtoe looseText = (true, [1, 2, 3, 10, 11, 255]) :=
  ⟨(ether_texts_agree.1 [0, 9, 10, 127, 128, 255] rfl).2, by decide,
    ether_texts_agree.2 looseText _ (by decide) (by decide)⟩

end Aware.Ether
