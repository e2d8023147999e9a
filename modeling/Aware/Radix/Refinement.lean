import Aware.Address
import Aware.Radix.Delete
import Aware.Radix.Insert
import Aware.Radix.Match

/-!
# The radix tree is a prefix map

Insertion, deletion and matching are those of the map, for every address but all ones.
-/
namespace Aware.Radix
open Aware.BitStrings

variable {w : ℕ} {δ : Type} {t : Tree w δ} {m : PrefixMap w δ} {v : BitVec w} {len : ℕ}

structure Represents (t : Tree w δ) (m : PrefixMap w δ) : Prop where
  valid : Valid t
  entry : ∀ k n, t.entry k n = m k n

theorem fresh_mask (subnet : BitVec w) (mask : Mask w) : Fresh (subnet &&& mask.bits) mask.len :=
  ⟨mask.le, clean_and_leadingOnes mask.le subnet⟩

theorem represents_rnInithead (hw : 0 < w) :
    Represents (rnInithead : Tree w δ) PrefixMap.empty :=
  ⟨valid_rnInithead hw, entry_rnInithead⟩

theorem Represents.has (h : Represents t m) (l : Leaf w δ) : t.Has l ↔ m l.key l.len = some l.data := by
  rw [h.valid.kept.shaped.has_iff_entry, h.entry]

theorem Represents.covers_iff (h : Represents t m) {k : BitVec w} {n : ℕ} {d : δ}
    (hk : t.entry k n = some d) : PrefixMap.Covers k n v ↔ Agree n v k :=
  and_leadingOnes_eq_iff (h.valid.fresh k n d hk).bound (h.valid.fresh k n d hk).clean

theorem Represents.rnAddroute (h : Represents t m) (hf : Fresh v len) (data : δ) :
    match rnAddroute v len data t with
    | none => m v len ≠ none
    | some t' => m v len = none ∧ Represents t' (m.set v len (some data)) := by
  have hfree : m v len = none ↔ ¬ t.Taken v len := by
    rw [← h.entry, h.valid.kept.shaped.entry_eq_none_iff]
  cases hadd : Radix.rnAddroute v len data t with
  | none => exact fun hnone => hfree.mp hnone (h.valid.kept.rnAddroute_eq_none_iff.mp hadd)
  | some t' =>
    obtain ⟨-, hnew, -, hentry⟩ := h.valid.kept.rnAddroute hadd
    refine ⟨hfree.mpr hnew, h.valid.rnAddroute hf hadd, fun k n => ?_⟩
    rw [hentry, h.entry, PrefixMap.set]

theorem Represents.rnDelete (h : Represents t m) (v : BitVec w) (len : ℕ) :
    match rnDelete v len t with
    | none => m v len = none
    | some (l, t') => m v len = some l.data ∧ Represents t' (m.set v len none) := by
  cases hdel : Radix.rnDelete v len t with
  | none =>
    refine Option.eq_none_iff_forall_ne_some.mpr fun d hd => ?_
    have hsome := h.valid.rnDelete_isSome ((h.entry v len).trans hd)
    rw [hdel] at hsome
    cases hsome
  | some r =>
    obtain ⟨-, hv, hentry⟩ := h.valid.kept.rnDelete hdel
    refine ⟨(h.entry v len).symm.trans hv, h.valid.rnDelete hdel, fun k n => ?_⟩
    rw [hentry, h.entry, PrefixMap.set]

theorem Represents.rnMatch (h : Represents t m) (hv : v ≠ BitVec.allOnes w) :
    match rnMatch v t with
    | none => m.Uncovered v
    | some l => m.Best v l.data := by
  have hspec := h.valid.rnMatch_longest hv
  cases hmatch : Radix.rnMatch v t with
  | none =>
    rw [hmatch] at hspec
    intro k n d hm hcov
    have hk := (h.entry k n).trans hm
    exact hspec k n d hk ((h.covers_iff hk).mp hcov)
  | some l =>
    rw [hmatch] at hspec
    obtain ⟨hl, hagree, hlong⟩ := hspec
    refine ⟨l.key, l.len, (h.entry _ _).symm.trans hl, (h.covers_iff hl).mpr hagree, ?_⟩
    intro k n d hm hcov
    have hk := (h.entry k n).trans hm
    exact hlong k n d hk ((h.covers_iff hk).mp hcov)

theorem Represents.rnLookup (h : Represents t m) (hf : Fresh v len) :
    rnLookup v len t = (m v len).map fun d => ⟨v, len, d⟩ := by
  cases hm : m v len with
  | some d => exact rnLookup_of_entry ((h.entry v len).trans hm)
  | none =>
    cases hmatch : Radix.rnMatch v t with
    | none => simp only [Radix.rnLookup, hmatch, Option.map_none]
    | some l =>
      have hshaped := h.valid.kept.shaped
      obtain ⟨hl, hagree, -⟩ := h.valid.rnMatch_some hmatch
      obtain ⟨hkey, y, hy, hylen, -⟩ := hshaped.entry_eq_some_iff.mp hl
      simp only [Radix.rnLookup, hmatch, Option.map_none, Option.map_eq_none_iff,
        List.find?_eq_none, beq_iff_eq]
      intro x hx hlen
      have hle : x.len ≤ l.len := (hshaped.search l.key).sorted.le_of_mem_dropWhile_ne hy hylen hx
      have hthere := hshaped.entry_of_mem hkey ((List.dropWhile_sublist _).subset hx)
      rw [hlen] at hthere hle
      obtain rfl : v = l.key :=
        (hagree.mono hle).eq_of_clean hf.clean (h.valid.fresh _ _ _ hthere).clean
      rw [h.entry, hm] at hthere
      cases hthere

end Aware.Radix
