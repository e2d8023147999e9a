import Aware.Dns.Layout
import Mathlib.Data.List.Nodup
import Mathlib.Data.List.Perm.Subperm

/-!
# Adding a child

`add_child` and the nodes it makes of a full one.
-/
namespace Aware.Dns
open Function Slots

variable {β : Type}

section Add
variable {n : ArtNode} {children : ℕ → Art β} {c : UInt8} {t : Art β}

theorem toNat_succ {a : UInt8} (h : a.toNat < 255) : (a + 1).toNat = a.toNat + 1 := by
  rw [UInt8.toNat_add]
  change (a.toNat + 1) % 256 = _
  omega

theorem toNat_pred {a : UInt8} (h : 0 < a.toNat) : (a - 1).toNat = a.toNat - 1 := by
  rw [UInt8.toNat_sub]
  change (256 - 1 + a.toNat) % 256 = _
  have := a.toNat_lt
  omega

theorem firstIndex_le {test : ℕ → Bool} {k : ℕ} : ((List.range k).find? test).getD k ≤ k := by
  cases h : (List.range k).find? test with
  | none => exact Nat.le_refl k
  | some i => exact Nat.le_of_lt (List.mem_range.mp (List.mem_of_find?_eq_some h))

theorem addAt_listed {capacity idx : ℕ} (ht : n.type = .node4 ∨ n.type = .node16)
    (h : Listed n children capacity) (hcap : n.numChildren.toNat < capacity) (hmax : capacity ≤ 16)
    (hidx : idx ≤ n.numChildren.toNat) (hc : child n children c = none) (hne : t ≠ .null) :
    ∃ n' children', addAt n children idx c t = .node n' children' ∧ n'.type = n.type ∧
      Listed n' children' capacity ∧ n'.numChildren.toNat = n.numChildren.toNat + 1 ∧
      SamePrefix n n' ∧ child n' children' = update (child n children) c (some t) := by
  have hnum : (n.numChildren + 1).toNat = n.numChildren.toNat + 1 := toNat_succ (by omega)
  have hnew : ∀ i < n.numChildren.toNat, n.keys i ≠ c := by
    intro i hi heq
    have hold : child n children c = some (children i) :=
      (child_listed ht h.distinct).mpr ⟨i, hi, heq, rfl⟩
    rw [hc] at hold
    cases hold
  have hdistinct : Distinct (openAt n.keys n.numChildren.toNat idx c) (n.numChildren + 1).toNat := by
    rw [hnum]
    exact distinct_openAt h.distinct hidx hnew
  have hbeside : ∀ c' y, Beside (openAt n.keys n.numChildren.toNat idx c)
      (openAt children n.numChildren.toNat idx t) (n.numChildren + 1).toNat c' y ↔
        (c' = c ∧ y = t) ∨ child n children c' = some y := by
    intro c' y
    rw [hnum, beside_openAt hidx, child_listed ht h.distinct]
  refine ⟨_, _, rfl, rfl, ⟨?_, hdistinct, fun i hi => ?_⟩, hnum, ⟨rfl, fun _ _ => rfl⟩, ?_⟩
  · change (n.numChildren + 1).toNat ≤ capacity
    omega
  · rcases (hbeside _ _).mp ⟨i, hi, rfl, rfl⟩ with ⟨-, heq⟩ | hold
    · rw [heq]
      exact hne
    · obtain ⟨j, hj, -, heq⟩ := (child_listed ht h.distinct).mp hold
      rw [← heq]
      exact h.present j hj
  · funext c'
    refine Option.ext fun y => ?_
    refine (child_listed (n := addKey n idx c) ht hdistinct).trans ?_
    refine (hbeside c' y).trans ?_
    by_cases hcc : c' = c
    · rw [hcc, update_self, hc]
      simp [eq_comm]
    · rw [update_of_ne hcc]
      simp [hcc]

theorem Indexed.free (h : Indexed n children) (hnum : n.numChildren.toNat < 48) :
    ∃ pos, (List.range 48).find? (fun pos => (children pos).isNull) = some pos ∧ pos < 48 ∧
      children pos = .null := by
  cases hfind : (List.range 48).find? fun pos => (children pos).isNull with
  | some pos =>
    refine ⟨pos, rfl, List.mem_range.mp (List.mem_of_find?_eq_some hfind), ?_⟩
    simpa using List.find?_some hfind
  | none =>
    -- otherwise every place belongs to a byte
    have hfull : ∀ pos ∈ List.range 48, pos ∈ (bytes48 n).map fun b => (n.keys b).toNat - 1 := by
      intro pos hpos
      have hne : children pos ≠ .null := by
        simpa using List.find?_eq_none.mp hfind pos hpos
      obtain ⟨b, hb, hkey⟩ := h.owned pos (List.mem_range.mp hpos) hne
      refine List.mem_map.mpr ⟨b, mem_bytes48.mpr ⟨hb, ?_⟩, by omega⟩
      intro hz
      rw [hz] at hkey
      cases hkey
    have hle := (List.subperm_of_subset List.nodup_range hfull).length_le
    rw [List.length_range, List.length_map, ← h.count] at hle
    omega

theorem keys_eq_zero (h : n.type = .node48) (hc : child n children c = none) : n.keys c.toNat = 0 := by
  rw [child48 h] at hc
  by_contra hz
  rw [if_neg hz] at hc
  cases hc

theorem toNat_place {pos : ℕ} (h : pos < 48) : (UInt8.ofNat (pos + 1)).toNat = pos + 1 := by
  refine UInt8.toNat_ofNat_of_lt' ?_
  change pos + 1 < 256
  omega

theorem place_ne_zero {pos : ℕ} (h : pos < 48) : UInt8.ofNat (pos + 1) ≠ 0 := by
  intro hz
  have := toNat_place h
  rw [hz] at this
  cases this

theorem indexed_of_places (ht : n.type = .node48) (byte : ℕ → ℕ)
    (children : ℕ → Art β) (hnum : n.numChildren.toNat ≤ 48)
    (hat : ∀ pos < n.numChildren.toNat, byte pos < 256 ∧ n.keys (byte pos) = UInt8.ofNat (pos + 1))
    (hof : ∀ b, n.keys b ≠ 0 → ∃ pos < n.numChildren.toNat, byte pos = b)
    (hkid : ∀ pos < 48, children pos ≠ .null ↔ pos < n.numChildren.toNat) :
    Indexed n children ∧ ∀ c t, child n children c = some t ↔
      ∃ pos < n.numChildren.toNat, byte pos = c.toNat ∧ children pos = t := by
  have hplace : ∀ pos < n.numChildren.toNat, (n.keys (byte pos)).toNat = pos + 1 := by
    intro pos hpos
    rw [(hat pos hpos).2]
    exact toNat_place (by omega)
  have hne : ∀ pos < n.numChildren.toNat, n.keys (byte pos) ≠ 0 := by
    intro pos hpos
    rw [(hat pos hpos).2]
    exact place_ne_zero (by omega)
  refine ⟨⟨fun b _ => ?_, fun b _ hb => ?_, fun b b' _ _ hb heq => ?_, fun pos hpos hne' => ?_, ?_⟩,
    fun c t => ?_⟩
  · by_cases hb : n.keys b = 0
    · rw [hb]
      exact Nat.zero_le _
    · obtain ⟨pos, hpos, rfl⟩ := hof b hb
      rw [hplace pos hpos]
      omega
  · obtain ⟨pos, hpos, rfl⟩ := hof b hb
    rw [hplace pos hpos, Nat.add_sub_cancel]
    exact (hkid pos (by omega)).mpr hpos
  · obtain ⟨pos, hpos, rfl⟩ := hof b hb
    obtain ⟨pos', hpos', rfl⟩ := hof b' (heq ▸ hb)
    have hsame := congrArg UInt8.toNat heq
    rw [hplace pos hpos, hplace pos' hpos'] at hsame
    rw [Nat.succ.inj hsame]
  · have hlt := (hkid pos hpos).mp hne'
    exact ⟨byte pos, (hat pos hlt).1, hplace pos hlt⟩
  · have hperm : (bytes48 n).Perm ((List.range n.numChildren.toNat).map byte) := by
      refine (List.perm_ext_iff_of_nodup (nodup_bytesWith _) ?_).mpr fun b => ?_
      · refine (List.nodup_map_iff_inj_on List.nodup_range).mpr fun i hi j hj heq => ?_
        have hi' := hplace i (List.mem_range.mp hi)
        rw [heq, hplace j (List.mem_range.mp hj)] at hi'
        omega
      · refine mem_bytes48.trans ?_
        rw [List.mem_map]
        constructor
        · rintro ⟨-, hb⟩
          obtain ⟨pos, hpos, hbyte⟩ := hof b hb
          exact ⟨pos, List.mem_range.mpr hpos, hbyte⟩
        · rintro ⟨pos, hpos, rfl⟩
          exact ⟨(hat pos (List.mem_range.mp hpos)).1, hne pos (List.mem_range.mp hpos)⟩
    rw [hperm.length_eq, List.length_map, List.length_range]
  · rw [child48 ht]
    constructor
    · intro hc
      split at hc
      · cases hc
      · next hz =>
          obtain ⟨pos, hpos, hbyte⟩ := hof _ hz
          rw [← hbyte, hplace pos hpos] at hc
          exact ⟨pos, hpos, hbyte, Option.some.inj hc⟩
    · rintro ⟨pos, hpos, hbyte, rfl⟩
      rw [← hbyte, if_neg (hne pos hpos), hplace pos hpos, Nat.add_sub_cancel]

theorem addChild48_indexed (ht : n.type = .node48) (h : Indexed n children)
    (hlow : 12 ≤ n.numChildren.toNat) (hnum : n.numChildren.toNat < 48)
    (hc : child n children c = none) (hne : t ≠ .null) :
    ∃ t', addChild48 n children c t = some t' ∧
      Renewed n (update (child n children) c (some t)) t' := by
  obtain ⟨pos, hfind, hpos, hnull⟩ := h.free hnum
  have hkey := keys_eq_zero ht hc
  have hplace := toNat_place hpos
  have hzero := place_ne_zero hpos
  have hother : ∀ b < 256, n.keys b ≠ 0 → (n.keys b).toNat - 1 ≠ pos := by
    intro b hb hz heq
    exact h.present b hb hz (heq ▸ hnull)
  have hnum' : (n.numChildren + 1).toNat = n.numChildren.toNat + 1 := toNat_succ (by omega)
  have hlt : n.numChildren < 48 := UInt8.lt_iff_toNat_lt.mpr hnum
  refine ⟨.node (indexKey n c pos) (put children pos t), by rw [addChild48, if_pos hlt, hfind]; rfl, _, _,
    rfl, ?_, ⟨rfl, fun _ _ => rfl⟩, ?_⟩
  · refine (layout48 (n := indexKey n c pos) ht).mpr ⟨⟨?_, ?_, ?_, ?_, ?_⟩, ?_⟩ <;>
      simp only [indexKey]
    · intro b hb
      by_cases hbc : b = c.toNat
      · rw [hbc, put_self]
        omega
      · rw [put_of_ne _ _ hbc]
        exact h.bound b hb
    · intro b hb hz
      by_cases hbc : b = c.toNat
      · rw [hbc, put_self, hplace, Nat.add_sub_cancel, put_self]
        exact hne
      · rw [put_of_ne _ _ hbc] at hz ⊢
        rw [put_of_ne _ _ (hother b hb hz)]
        exact h.present b hb hz
    · intro b b' hb hb' hz heq
      by_cases hbc : b = c.toNat <;> by_cases hbc' : b' = c.toNat
      · rw [hbc, hbc']
      · rw [hbc, put_self, put_of_ne _ _ hbc'] at heq
        refine absurd ?_ (hother b' hb' (heq ▸ hzero))
        rw [← heq, hplace, Nat.add_sub_cancel]
      · rw [hbc', put_self, put_of_ne _ _ hbc] at heq
        refine absurd ?_ (hother b hb (heq.symm ▸ hzero))
        rw [heq, hplace, Nat.add_sub_cancel]
      · rw [put_of_ne _ _ hbc, put_of_ne _ _ hbc'] at heq
        rw [put_of_ne _ _ hbc] at hz
        exact h.distinct b b' hb hb' hz heq
    · intro q hq hne'
      by_cases hqp : q = pos
      · exact ⟨c.toNat, c.toNat_lt, by rw [put_self, hplace, hqp]⟩
      · rw [put_of_ne _ _ hqp] at hne'
        obtain ⟨b, hb, hbq⟩ := h.owned q hq hne'
        refine ⟨b, hb, ?_⟩
        rw [put_of_ne _ _ ?_]
        · exact hbq
        · rintro rfl
          rw [hkey] at hbq
          cases hbq
    · rw [hnum', h.count]
      refine (length_bytesWith_succ (c := c) ?_ fun b => ?_).symm
      · simp [hkey]
      · by_cases hbc : b = c.toNat
        · subst hbc
          simpa using hzero
        · simp [put_of_ne _ _ hbc, hbc]
    · omega
  · funext c'
    rw [child48 (n := indexKey n c pos) ht]
    by_cases hcc : c' = c
    · rw [hcc, update_self]
      simp only [indexKey, put_self]
      rw [if_neg hzero, hplace, Nat.add_sub_cancel, put_self]
    · have hbc : c'.toNat ≠ c.toNat := mt UInt8.toNat_inj.mp hcc
      rw [update_of_ne hcc, child48 ht]
      simp only [indexKey, put_of_ne _ _ hbc]
      split
      · rfl
      · next hz => rw [put_of_ne _ _ (hother _ c'.toNat_lt hz)]

theorem listed_copy {capacity : ℕ} (n' : ArtNode) (children' : ℕ → Art β) (capacity' : ℕ)
    (ht : n.type = .node4 ∨ n.type = .node16) (ht' : n'.type = .node4 ∨ n'.type = .node16)
    (h : Listed n children capacity) (hnum : n'.numChildren = n.numChildren)
    (hcap : n.numChildren.toNat ≤ capacity')
    (hkeys : ∀ i < n.numChildren.toNat, n'.keys i = n.keys i)
    (hchildren : ∀ i < n.numChildren.toNat, children' i = children i) :
    Listed n' children' capacity' ∧ child n' children' = child n children := by
  refine ⟨⟨by rwa [hnum], ?_, ?_⟩, ?_⟩
  · rw [hnum]
    exact h.distinct.congr hkeys
  · intro i hi
    rw [hnum] at hi
    rw [hchildren i hi]
    exact h.present i hi
  · funext c
    rw [child, child, findChild_listed ht, findChild_listed ht', hnum, slotOf_congr hkeys]
    cases hs : slotOf n.keys n.numChildren.toNat c with
    | none => rfl
    | some i => rw [Option.map_some, Option.map_some, hchildren i (slotOf_some hs).1]

theorem copy_of_lt {α : Type} {a b : ℕ → α} {k i : ℕ} (hi : i < k) : copy a 0 b 0 k i = b i := by
  rw [copy, if_pos (by omega)]
  simp

theorem keys48_eq {k : ℕ} (hd : Distinct n.keys k) (b : ℕ) :
    (List.range k).foldl (fun keys i => put keys (n.keys i).toNat (UInt8.ofNat (i + 1))) (fun _ => 0) b =
      (((List.range k).find? fun i => (n.keys i).toNat == b).map fun i => UInt8.ofNat (i + 1)).getD 0 := by
  induction k with
  | zero => rfl
  | succ k ih =>
    have hd' : Distinct n.keys k := fun i j hi hj => hd i j (by omega) (by omega)
    rw [List.range_succ, List.foldl_append, List.find?_append]
    simp only [List.foldl_cons, List.foldl_nil]
    by_cases hb : b = (n.keys k).toNat
    · have hnone : (List.range k).find? (fun i => (n.keys i).toNat == b) = none := by
        refine List.find?_eq_none.mpr fun i hi => ?_
        rw [List.mem_range] at hi
        simp only [beq_iff_eq]
        intro heq
        exact absurd (hd i k (by omega) (by omega) (UInt8.toNat_inj.mp (heq.trans hb))) (by omega)
      rw [hnone, hb, put_self]
      simp
    · rw [put_of_ne _ _ hb, ih hd']
      have hlast : [k].find? (fun i => (n.keys i).toNat == b) = none := by
        simp [Ne.symm hb]
      rw [hlast, Option.or_none]

theorem keys48_at (hd : Distinct n.keys n.numChildren.toNat) {i : ℕ} (hi : i < n.numChildren.toNat) :
    keys48 n (n.keys i).toNat = UInt8.ofNat (i + 1) := by
  have hfind : (List.range n.numChildren.toNat).find? (fun j => (n.keys j).toNat == (n.keys i).toNat) =
      some i := by
    have hslot := slotOf_eq hd hi rfl
    rw [slotOf] at hslot
    rw [← hslot]
    refine List.find?_congr fun j _ => ?_
    rw [Bool.eq_iff_iff, beq_iff_eq, beq_iff_eq, UInt8.toNat_inj]
  rw [keys48, keys48_eq hd, hfind]
  rfl

theorem keys48_cases (hd : Distinct n.keys n.numChildren.toNat) {b : ℕ} (hb : keys48 n b ≠ 0) :
    ∃ i, i < n.numChildren.toNat ∧ (n.keys i).toNat = b := by
  have hkeys := keys48_eq hd b
  rw [← keys48] at hkeys
  cases hfind : (List.range n.numChildren.toNat).find? fun i => (n.keys i).toNat == b with
  | none =>
    rw [hfind] at hkeys
    exact absurd hkeys hb
  | some i =>
    rw [hfind] at hkeys
    exact ⟨i, List.mem_range.mp (List.mem_of_find?_eq_some hfind), by simpa using List.find?_some hfind⟩

theorem grow48_indexed (ht : n.type = .node16) (h : Listed n children 16) :
    Indexed (grow48 n) (copy noChildren 0 children 0 n.numChildren.toNat) ∧
      child (grow48 n) (copy noChildren 0 children 0 n.numChildren.toNat) = child n children := by
  have hkid : ∀ pos < 48, copy noChildren 0 children 0 n.numChildren.toNat pos ≠ .null ↔
      pos < n.numChildren.toNat := by
    intro pos _
    by_cases hpos : pos < n.numChildren.toNat
    · rw [copy_of_lt hpos]
      exact iff_of_true (h.present pos hpos) hpos
    · rw [copy, if_neg (by omega)]
      exact iff_of_false (fun hne => hne rfl) hpos
  obtain ⟨hix, hchild⟩ := indexed_of_places (n := grow48 n) rfl (fun i => (n.keys i).toNat) _
    (h.bound.trans (by decide)) (fun i hi => ⟨UInt8.toNat_lt _, keys48_at h.distinct hi⟩)
    (fun b hb => keys48_cases h.distinct hb) hkid
  refine ⟨hix, ?_⟩
  funext c
  refine Option.ext fun y => ?_
  rw [hchild, child_listed (.inr ht) h.distinct]
  constructor
  · rintro ⟨i, hi, hic, rfl⟩
    exact ⟨i, hi, UInt8.toNat_inj.mp hic, (copy_of_lt hi).symm⟩
  · rintro ⟨i, hi, rfl, rfl⟩
    exact ⟨i, hi, rfl, copy_of_lt hi⟩

theorem bytes256_grow (h : Indexed n children) : bytes256 (children256 n children) = bytes48 n := by
  refine bytesWith_congr fun b hb => ?_
  by_cases hz : n.keys b = 0
  · simp [children256, hz, Art.isNull]
  · have hne := isNull_eq_false.mpr (h.present b hb hz)
    simp [children256, hz, hb, hne]

theorem child_grow256 (n' : ArtNode) (ht : n.type = .node48) (ht' : n'.type = .node256)
    (h : Indexed n children) : child n' (children256 n children) = child n children := by
  funext c'
  rw [child48 ht, child256 ht', children256]
  by_cases hz : n.keys c'.toNat = 0
  · simp [hz, Art.isNull]
  · have hne := isNull_eq_false.mpr (h.present _ c'.toNat_lt hz)
    have hlt : c'.toNat < 256 := c'.toNat_lt
    simp [hz, hlt, hne]

/-- A `node256` counts its children modulo 256. -/
theorem addChild256_renewed (ht : n.type = .node256)
    (hcount : n.numChildren.toNat = (bytes256 children).length % 256)
    (hlow : 37 ≤ (bytes256 children).length) (hc : child n children c = none) (hne : t ≠ .null) :
    Renewed n (update (child n children) c (some t)) (addChild256 n children c t) := by
  have hnull : children c.toNat = .null := by
    rw [child256 ht] at hc
    by_contra hnull
    rw [isNull_eq_false.mpr hnull] at hc
    cases hc
  have hlen : (bytes256 (put children c.toNat t)).length = (bytes256 children).length + 1 := by
    refine length_bytesWith_succ (c := c) ?_ fun b => ?_
    · rw [hnull]
      rfl
    · by_cases hb : b = c.toNat
      · simp [hb, isNull_eq_false.mpr hne]
      · simp [hb, put_of_ne _ _ hb]
  refine ⟨_, _, rfl, (layout256 (n := { n with numChildren := n.numChildren + 1 }) ht).mpr ⟨?_, ?_⟩,
    ⟨rfl, fun _ _ => rfl⟩, ?_⟩
  · rw [hlen, UInt8.toNat_add, hcount]
    change (_ % 256 + 1) % 256 = _
    omega
  · omega
  · funext c'
    rw [child256 (n := { n with numChildren := n.numChildren + 1 }) ht]
    by_cases hcc : c' = c
    · rw [hcc, put_self, update_self, isNull_eq_false.mpr hne]
      rfl
    · rw [update_of_ne hcc, put_of_ne _ _ (mt UInt8.toNat_inj.mp hcc), child256 ht]

theorem addChild48_renewed (ht : n.type = .node48) (h : Indexed n children)
    (hlow : 12 ≤ n.numChildren.toNat) (hc : child n children c = none) (hne : t ≠ .null) :
    ∃ t', addChild48 n children c t = some t' ∧
      Renewed n (update (child n children) c (some t)) t' := by
  by_cases hnum : n.numChildren.toNat < 48
  · exact addChild48_indexed ht h hlow hnum hc hne
  · have hkids := child_grow256 (copyHeader (allocNode .node256) n) ht rfl h
    have hbytes := congrArg List.length (bytes256_grow h)
    rw [← h.count] at hbytes
    have hmod : n.numChildren.toNat = (bytes256 (children256 n children)).length % 256 := by
      have := n.numChildren.toNat_lt
      rw [hbytes, Nat.mod_eq_of_lt this]
    refine ⟨_, if_neg (mt UInt8.lt_iff_toNat_lt.mp hnum), ?_⟩
    refine Renewed.of_samePrefix (samePrefix_copyHeader (allocNode .node256) n) ?_
    rw [← hkids] at hc ⊢
    exact addChild256_renewed rfl hmod (by omega) hc hne

theorem addChild16_renewed (ht : n.type = .node16) (h : Listed n children 16)
    (hlow : 3 ≤ n.numChildren.toNat) (hc : child n children c = none) (hne : t ≠ .null) :
    ∃ t', addChild16 n children c t = some t' ∧
      Renewed n (update (child n children) c (some t)) t' := by
  by_cases hnum : n.numChildren.toNat < 16
  · obtain ⟨n', children', hadd, ht', hl, hn, hsame, hkids⟩ :=
      addAt_listed (.inr ht) h hnum (Nat.le_refl 16) firstIndex_le hc hne
    refine ⟨_, (if_pos (UInt8.lt_iff_toNat_lt.mpr hnum)).trans (congrArg some hadd), n', children', rfl,
      (layout16 (ht'.trans ht)).mpr ⟨hl, by omega⟩, hsame, hkids⟩
  · obtain ⟨hix, hkids⟩ := grow48_indexed ht h
    have hsame : SamePrefix n (grow48 n) := samePrefix_copyHeader (allocNode .node48) n
    rw [← hkids] at hc
    obtain ⟨t', ht', hr⟩ := addChild48_renewed (n := grow48 n) rfl hix
      (show 12 ≤ n.numChildren.toNat by omega) hc hne
    rw [hkids] at hr
    exact ⟨t', (if_neg (mt UInt8.lt_iff_toNat_lt.mp hnum)).trans ht', .of_samePrefix hsame hr⟩

theorem addChild4_listed (ht : n.type = .node4) (h : Listed n children 4)
    (hnum : n.numChildren.toNat < 4) (hc : child n children c = none) (hne : t ≠ .null) :
    ∃ n' children', addChild4 n children c t = some (.node n' children') ∧ n'.type = .node4 ∧
      Listed n' children' 4 ∧ n'.numChildren.toNat = n.numChildren.toNat + 1 ∧ SamePrefix n n' ∧
      child n' children' = update (child n children) c (some t) := by
  obtain ⟨n', children', hadd, ht', hrest⟩ :=
    addAt_listed (.inl ht) h hnum (by omega) firstIndex_le hc hne
  exact ⟨n', children', (if_pos (UInt8.lt_iff_toNat_lt.mpr hnum)).trans (congrArg some hadd),
    ht'.trans ht, hrest⟩

theorem addChild_renewed (h : Layout n children) (hc : child n children c = none) (hne : t ≠ .null) :
    ∃ t', addChild n children c t = some t' ∧
      Renewed n (update (child n children) c (some t)) t' := by
  cases ht : n.type with
  | node4 =>
    obtain ⟨hl, hlow⟩ := (layout4 ht).mp h
    simp only [addChild, ht]
    by_cases hnum : n.numChildren.toNat < 4
    · obtain ⟨n', children', hadd, ht', hl', hn, hsame, hkids⟩ := addChild4_listed ht hl hnum hc hne
      exact ⟨_, hadd, n', children', rfl, (layout4 ht').mpr ⟨hl', by omega⟩, hsame, hkids⟩
    · have hsame : SamePrefix n (grow16 n) := samePrefix_copyHeader (allocNode .node16) n
      have hkeys : ∀ i < n.numChildren.toNat, (grow16 n).keys i = n.keys i :=
        fun i hi => copy_of_lt (a := fun _ => 0) hi
      obtain ⟨hl', hkids⟩ := listed_copy (grow16 n) (copy noChildren 0 children 0 n.numChildren.toNat) 16
        (.inl ht) (.inr rfl) hl rfl (hl.bound.trans (by omega)) hkeys fun i hi => copy_of_lt hi
      rw [← hkids] at hc
      obtain ⟨t', ht', hr⟩ := addChild16_renewed (n := grow16 n) rfl hl'
        (show 3 ≤ n.numChildren.toNat by omega) hc hne
      rw [hkids] at hr
      exact ⟨t', (if_neg (mt UInt8.lt_iff_toNat_lt.mp hnum)).trans ht', .of_samePrefix hsame hr⟩
  | node16 =>
    obtain ⟨hl, hlow⟩ := (layout16 ht).mp h
    simp only [addChild, ht]
    exact addChild16_renewed ht hl (by omega) hc hne
  | node48 =>
    obtain ⟨hix, hlow⟩ := (layout48 ht).mp h
    simp only [addChild, ht]
    exact addChild48_renewed ht hix (by omega) hc hne
  | node256 =>
    obtain ⟨hcount, hlow⟩ := (layout256 ht).mp h
    simp only [addChild, ht]
    exact ⟨_, rfl, addChild256_renewed ht hcount (by omega) hc hne⟩

end Add

end Aware.Dns
