import Aware.Dns.Grow

/-!
# Removing a child

`remove_child` and the nodes it makes of one with few children.
-/
namespace Aware.Dns
open Function Slots

variable {β : Type}

section Remove
variable {n : ArtNode} {children : ℕ → Art β} {c : UInt8} {pos : ℕ} {t : Art β}

theorem dropKey_listed {capacity : ℕ} (ht : n.type = .node4 ∨ n.type = .node16)
    (h : Listed n children capacity) (hpos : pos < n.numChildren.toNat) (hc : n.keys pos = c) :
    (dropKey n pos).numChildren.toNat = n.numChildren.toNat - 1 ∧
      Listed (dropKey n pos) (closeAt children n.numChildren.toNat pos) capacity ∧
      child (dropKey n pos) (closeAt children n.numChildren.toNat pos) =
        update (child n children) c none := by
  have hnum : (n.numChildren - 1).toNat = n.numChildren.toNat - 1 := toNat_pred (by omega)
  have hdistinct : Distinct (closeAt n.keys n.numChildren.toNat pos) (n.numChildren - 1).toNat := by
    rw [hnum]
    exact distinct_closeAt h.distinct
  have hbeside : ∀ c' y, Beside (closeAt n.keys n.numChildren.toNat pos)
      (closeAt children n.numChildren.toNat pos) (n.numChildren - 1).toNat c' y ↔
        c' ≠ c ∧ child n children c' = some y := by
    intro c' y
    rw [hnum, beside_closeAt h.distinct hpos, child_listed ht h.distinct, hc]
  refine ⟨hnum, ⟨?_, hdistinct, fun i hi => ?_⟩, ?_⟩
  · have := h.bound
    change (n.numChildren - 1).toNat ≤ capacity
    omega
  · obtain ⟨-, hold⟩ := (hbeside _ _).mp ⟨i, hi, rfl, rfl⟩
    obtain ⟨j, hj, -, heq⟩ := (child_listed ht h.distinct).mp hold
    rw [← heq]
    exact h.present j hj
  · funext c'
    refine Option.ext fun y => ?_
    refine (child_listed (n := dropKey n pos) ht hdistinct).trans ((hbeside c' y).trans ?_)
    by_cases hcc : c' = c
    · rw [hcc, update_self]
      simp
    · rw [update_of_ne hcc]
      simp [hcc]

theorem shrink4_renewed (ht : n.type = .node16) (h : Listed n children 16)
    (hnum : n.numChildren.toNat = 3) : Renewed n (child n children) (shrink4 n children) := by
  have hkeys : ∀ i < n.numChildren.toNat,
      (resize .node4 n (copy (fun _ => 0) 0 n.keys 0 4)).keys i = n.keys i :=
    fun i hi => copy_of_lt (a := fun _ => 0) (by omega)
  obtain ⟨hl, hkids⟩ := listed_copy (resize .node4 n (copy (fun _ => 0) 0 n.keys 0 4))
    (copy noChildren 0 children 0 4) 4 (.inr ht) (.inl rfl) h rfl (by omega) hkeys
    fun i hi => copy_of_lt (by omega)
  exact ⟨_, _, rfl, (layout4 rfl).mpr ⟨hl, show 2 ≤ n.numChildren.toNat by omega⟩,
    samePrefix_copyHeader (allocNode .node4) n, hkids⟩

theorem removeChild16_renewed (ht : n.type = .node16) (h : Layout n children)
    (hc : findChild n children c = some pos) :
    Renewed n (update (child n children) c none) (removeChild16 n children pos) := by
  obtain ⟨hl, hlow⟩ := (layout16 ht).mp h
  rw [findChild_listed (.inr ht)] at hc
  obtain ⟨hpos, hkey⟩ := slotOf_some hc
  obtain ⟨hnum, hl', hkids⟩ := dropKey_listed (.inr ht) hl hpos hkey
  have hsame : SamePrefix n (dropKey n pos) := ⟨rfl, fun _ _ => rfl⟩
  refine .of_samePrefix hsame ?_
  rw [← hkids]
  simp only [removeChild16]
  split
  · next hthree => exact shrink4_renewed ht hl' (congrArg UInt8.toNat hthree)
  · next hthree =>
      have hthree' : (dropKey n pos).numChildren.toNat ≠ 3 := fun heq => hthree (UInt8.toNat_inj.mp heq)
      exact ⟨_, _, rfl, (layout16 (n := dropKey n pos) ht).mpr ⟨hl', by omega⟩, .refl _, rfl⟩

theorem shrink16_renewed (ht : n.type = .node48) (h : Indexed n children)
    (hnum : n.numChildren.toNat = 12) : Renewed n (child n children) (shrink16 n children) := by
  have hlen : (bytes48 n).length = n.numChildren.toNat := h.count.symm
  have hdistinct : Distinct (ofList ((bytes48 n).map UInt8.ofNat) 0) n.numChildren.toNat := by
    rw [← hlen, ← List.length_map UInt8.ofNat]
    refine distinct_ofList ((List.nodup_map_iff_inj_on (nodup_bytesWith _)).mpr ?_) 0
    intro b hb b' hb' heq
    rw [← toNat_byte (mem_bytes48.mp hb).1, ← toNat_byte (mem_bytes48.mp hb').1, heq]
  have hbeside : ∀ c y, Beside (ofList ((bytes48 n).map UInt8.ofNat) 0)
      (ofList ((bytes48 n).map fun i => children ((n.keys i).toNat - 1)) .null) n.numChildren.toNat c y ↔
        child n children c = some y := by
    intro c y
    rw [← hlen, beside_ofList, child48 ht]
    constructor
    · rintro ⟨b, hb, rfl, rfl⟩
      obtain ⟨hlt, hz⟩ := mem_bytes48.mp hb
      rw [toNat_byte hlt, if_neg hz]
    · intro hy
      split at hy
      · cases hy
      · next hz =>
          cases hy
          exact ⟨c.toNat, mem_bytes48.mpr ⟨c.toNat_lt, hz⟩, UInt8.ofNat_toNat, rfl⟩
  refine ⟨_, _, rfl, (layout16 (n := resize .node16 n _) rfl).mpr ⟨⟨?_, hdistinct, fun i hi => ?_⟩, ?_⟩,
    samePrefix_copyHeader (allocNode .node16) n, ?_⟩
  · change n.numChildren.toNat ≤ 16
    omega
  · have hold := (hbeside _ _).mp ⟨i, hi, rfl, rfl⟩
    rw [child48 ht] at hold
    split at hold
    · cases hold
    · next hz =>
        refine fun hnull => h.present _ (UInt8.toNat_lt _) hz (Option.some.inj (hold.trans ?_))
        exact congrArg some hnull
  · change 4 ≤ n.numChildren.toNat
    omega
  · funext c
    refine Option.ext fun y => ?_
    exact (child_listed (n := resize .node16 n _) (.inr rfl) hdistinct).trans (hbeside c y)

def unindex (n : ArtNode) (c : UInt8) : ArtNode :=
  { n with keys := put n.keys c.toNat 0, numChildren := n.numChildren - 1 }

theorem unindex_indexed (ht : n.type = .node48) (h : Indexed n children)
    (hc : n.keys c.toNat ≠ 0) :
    (unindex n c).numChildren.toNat = n.numChildren.toNat - 1 ∧
      Indexed (unindex n c) (put children ((n.keys c.toNat).toNat - 1) .null) ∧
      child (unindex n c) (put children ((n.keys c.toNat).toNat - 1) .null) =
        update (child n children) c none := by
  have hcount : n.numChildren.toNat = (bytes48 (unindex n c)).length + 1 := by
    rw [h.count]
    refine length_bytesWith_succ (c := c) ?_ fun b => ?_
    · simp [unindex]
    · by_cases hb : b = c.toNat
      · simpa [hb] using hc
      · simp [unindex, hb, put_of_ne _ _ hb]
  have hnum : (n.numChildren - 1).toNat = n.numChildren.toNat - 1 := toNat_pred (by omega)
  have hpos : (n.keys c.toNat).toNat ≠ 0 := fun heq => hc (UInt8.toNat_inj.mp heq)
  have hother : ∀ b < 256, b ≠ c.toNat → n.keys b ≠ 0 →
      (n.keys b).toNat - 1 ≠ (n.keys c.toNat).toNat - 1 := by
    intro b hb hbc hz heq
    have hpos' : (n.keys b).toNat ≠ 0 := fun heq => hz (UInt8.toNat_inj.mp heq)
    exact hbc (h.distinct b _ hb c.toNat_lt hz (UInt8.toNat_inj.mp (by omega)))
  refine ⟨hnum, ⟨fun b hb => ?_, fun b hb hz => ?_, fun b b' hb hb' hz heq => ?_, fun q hq hne => ?_, ?_⟩, ?_⟩
  · change (put n.keys c.toNat 0 b).toNat ≤ 48
    by_cases hbc : b = c.toNat
    · rw [hbc, put_self]
      exact Nat.zero_le _
    · rw [put_of_ne _ _ hbc]
      exact h.bound b hb
  · change put n.keys c.toNat 0 b ≠ 0 at hz
    change put children _ .null ((put n.keys c.toNat 0 b).toNat - 1) ≠ _
    by_cases hbc : b = c.toNat
    · rw [hbc, put_self] at hz
      exact absurd rfl hz
    · rw [put_of_ne _ _ hbc] at hz ⊢
      rw [put_of_ne _ _ (hother b hb hbc hz)]
      exact h.present b hb hz
  · change put n.keys c.toNat 0 b ≠ 0 at hz
    change put n.keys c.toNat 0 b = put n.keys c.toNat 0 b' at heq
    have hbc : b ≠ c.toNat := fun hbc => hz (by rw [hbc, put_self])
    have hbc' : b' ≠ c.toNat := fun hbc => hz (by rw [heq, hbc, put_self])
    rw [put_of_ne _ _ hbc] at hz heq
    rw [put_of_ne _ _ hbc'] at heq
    exact h.distinct b b' hb hb' hz heq
  · have hqp : q ≠ (n.keys c.toNat).toNat - 1 := by
      rintro rfl
      exact hne (put_self ..)
    rw [put_of_ne _ _ hqp] at hne
    obtain ⟨b, hb, hbq⟩ := h.owned q hq hne
    refine ⟨b, hb, ?_⟩
    change (put n.keys c.toNat 0 b).toNat = _
    rw [put_of_ne _ _ fun hbc => hqp (by rw [← hbc]; omega)]
    exact hbq
  · change (n.numChildren - 1).toNat = _
    omega
  · funext c'
    rw [child48 (n := unindex n c) ht]
    change (if put n.keys c.toNat 0 c'.toNat = 0 then none
      else some (put children _ .null ((put n.keys c.toNat 0 c'.toNat).toNat - 1))) = _
    by_cases hcc : c' = c
    · rw [hcc, put_self, update_self]
      exact if_pos rfl
    · have hbc : c'.toNat ≠ c.toNat := mt UInt8.toNat_inj.mp hcc
      rw [update_of_ne hcc, put_of_ne _ _ hbc, child48 ht]
      split
      · rfl
      · next hz => rw [put_of_ne _ _ (hother _ c'.toNat_lt hbc hz)]

theorem removeChild48_renewed (ht : n.type = .node48) (h : Layout n children)
    (hc : findChild n children c = some pos) :
    Renewed n (update (child n children) c none) (removeChild48 n children c) := by
  obtain ⟨hix, hlow⟩ := (layout48 ht).mp h
  have hz : n.keys c.toNat ≠ 0 := by
    rw [findChild48 ht] at hc
    intro hz
    rw [if_pos hz] at hc
    cases hc
  obtain ⟨hnum, hix', hkids⟩ := unindex_indexed ht hix hz
  have hsame : SamePrefix n (unindex n c) := ⟨rfl, fun _ _ => rfl⟩
  refine .of_samePrefix hsame ?_
  rw [← hkids]
  change Renewed (unindex n c) _ (if (unindex n c).numChildren = 12 then
    shrink16 (unindex n c) _ else .node (unindex n c) _)
  split
  · next htwelve => exact shrink16_renewed ht hix' (congrArg UInt8.toNat htwelve)
  · next htwelve =>
      have htwelve' : (unindex n c).numChildren.toNat ≠ 12 :=
        fun heq => htwelve (UInt8.toNat_inj.mp heq)
      exact ⟨_, _, rfl, (layout48 (n := unindex n c) ht).mpr ⟨hix', by omega⟩, .refl _, rfl⟩

theorem shrink48_renewed (ht : n.type = .node256) (hlen : (bytes256 children).length = 37)
    (hnum : n.numChildren.toNat = 37) : Renewed n (child n children) (shrink48 n children) := by
  obtain ⟨bytes, hbytes⟩ : ∃ bytes, bytes = bytes256 children := ⟨_, rfl⟩
  have hmem : ∀ b, b ∈ bytes ↔ b < 256 ∧ children b ≠ .null := fun b => hbytes ▸ mem_bytes256
  have hlen' : bytes.length = 37 := hbytes ▸ hlen
  obtain ⟨m, hm⟩ : ∃ m, m = resize .node48 n fun i =>
    if i ∈ bytes then UInt8.ofNat (bytes.idxOf i + 1) else 0 := ⟨_, rfl⟩
  have hcount : m.numChildren.toNat = bytes.length := by
    rw [hlen', hm]
    exact hnum
  have hkey : ∀ b, m.keys b = if b ∈ bytes then UInt8.ofNat (bytes.idxOf b + 1) else 0 := by
    rw [hm]
    exact fun _ => rfl
  have hat : ∀ pos < m.numChildren.toNat, bytes.getD pos 0 ∈ bytes ∧
      bytes.idxOf (bytes.getD pos 0) = pos ∧
      ofList (bytes.map children) .null pos = children (bytes.getD pos 0) := by
    intro pos hpos
    rw [hcount] at hpos
    rw [List.getD_eq_getElem _ _ hpos, ofList_of_lt (by rwa [List.length_map]), List.getElem_map]
    exact ⟨List.getElem_mem hpos, (hbytes ▸ nodup_bytesWith _ : bytes.Nodup).idxOf_getElem pos hpos, rfl⟩
  have hof : ∀ b ∈ bytes, ∃ pos < m.numChildren.toNat, bytes.getD pos 0 = b := by
    intro b hb
    have hlt := List.idxOf_lt_length_of_mem hb
    exact ⟨bytes.idxOf b, hcount ▸ hlt, by rw [List.getD_eq_getElem _ _ hlt, List.getElem_idxOf]⟩
  have htype : m.type = .node48 := by
    rw [hm]
    rfl
  obtain ⟨hix, hchild⟩ := indexed_of_places htype (fun pos => bytes.getD pos 0)
    (ofList (bytes.map children) .null) (by omega)
    (fun pos hpos => ⟨((hmem _).mp (hat pos hpos).1).1, by
      rw [hkey, if_pos (hat pos hpos).1, (hat pos hpos).2.1]⟩)
    (fun b hb => hof b (by
      by_contra hnot
      exact hb ((hkey b).trans (if_neg hnot))))
    (fun pos _ => by
      by_cases hpos : pos < m.numChildren.toNat
      · rw [(hat pos hpos).2.2]
        exact iff_of_true ((hmem _).mp (hat pos hpos).1).2 hpos
      · rw [ofList_of_le (by rw [List.length_map]; omega)]
        exact iff_of_false (fun hne => hne rfl) hpos)
  refine ⟨m, ofList (bytes.map children) .null, by rw [hm, hbytes]; rfl,
    (layout48 htype).mpr ⟨hix, by omega⟩, hm ▸ samePrefix_copyHeader (allocNode .node48) n, ?_⟩
  funext c
  refine Option.ext fun t => ?_
  rw [hchild, child256 ht]
  constructor
  · rintro ⟨pos, hpos, hc, rfl⟩
    obtain ⟨hb, -, hkid⟩ := hat pos hpos
    rw [hkid, hc, isNull_eq_false.mpr (hc ▸ ((hmem _).mp hb).2)]
    rfl
  · intro hc
    split at hc
    · cases hc
    · next hnull =>
        obtain ⟨pos, hpos, hbyte⟩ :=
          hof c.toNat ((hmem _).mpr ⟨c.toNat_lt, isNull_eq_false.mp (Bool.eq_false_of_not_eq_true hnull)⟩)
        exact ⟨pos, hpos, hbyte, by rw [(hat pos hpos).2.2, hbyte]; exact Option.some.inj hc⟩

theorem removeChild256_renewed (ht : n.type = .node256) (h : Layout n children)
    (hc : findChild n children c = some pos) :
    Renewed n (update (child n children) c none) (removeChild256 n children c) := by
  obtain ⟨hcount, hlow⟩ := (layout256 ht).mp h
  have hne : children c.toNat ≠ .null := by
    rw [findChild256 ht] at hc
    intro hnull
    rw [hnull] at hc
    cases hc
  have hlen : (bytes256 children).length = (bytes256 (put children c.toNat .null)).length + 1 := by
    refine length_bytesWith_succ (c := c) ?_ fun b => ?_
    · rw [put_self]
      rfl
    · by_cases hb : b = c.toNat
      · simp [hb, isNull_eq_false.mpr hne]
      · simp [hb, put_of_ne _ _ hb]
  have hmax : (bytes256 children).length ≤ 256 := by
    have := List.length_filter_le (fun i => !(children i).isNull) (List.range 256)
    rwa [List.length_range] at this
  have hnum : (n.numChildren - 1).toNat = (bytes256 (put children c.toNat .null)).length := by
    rw [UInt8.toNat_sub]
    change (256 - 1 + n.numChildren.toNat) % 256 = _
    omega
  have hkids : child { n with numChildren := n.numChildren - 1 } (put children c.toNat .null) =
      update (child n children) c none := by
    funext c'
    rw [child256 (n := { n with numChildren := n.numChildren - 1 }) ht]
    by_cases hcc : c' = c
    · rw [hcc, put_self, update_self]
      rfl
    · rw [update_of_ne hcc, put_of_ne _ _ (mt UInt8.toNat_inj.mp hcc), child256 ht]
  have hsame : SamePrefix n { n with numChildren := n.numChildren - 1 } := ⟨rfl, fun _ _ => rfl⟩
  refine .of_samePrefix hsame ?_
  rw [← hkids]
  simp only [removeChild256]
  split
  · next heq =>
      have hfew := congrArg UInt8.toNat heq
      exact shrink48_renewed ht (hnum.symm.trans hfew) hfew
  · next hneq =>
      have hmany : (n.numChildren - 1).toNat ≠ 37 := fun heq => hneq (UInt8.toNat_inj.mp heq)
      refine ⟨_, _, rfl, (layout256 (n := { n with numChildren := n.numChildren - 1 }) ht).mpr
        ⟨?_, by omega⟩, .refl _, rfl⟩
      change (n.numChildren - 1).toNat = _
      omega

inductive Lifted (n : ArtNode) (c : UInt8) : Art β → Art β → Prop where
  | leaf (l : ArtLeaf β) : Lifted n c (.leaf l) (.leaf l)
  | node (n' m : ArtNode) (children : ℕ → Art β) (hsame : SamePrefix n n') (hkey : n'.keys 0 = c) :
      Lifted n c (.node m children) (.node (joinHeader n' m) children)

theorem concatPrefix_stored {m : ArtNode} {word : ℕ → UInt8} (hn : Stored n word)
    (hkey : n.keys 0 = word n.partialLen) (hm : Stored m fun i => word (n.partialLen + 1 + i)) :
    min (concatPrefix n m).2 maxPrefixLen = min maxPrefixLen (m.partialLen + (n.partialLen + 1)) ∧
      ∀ i < min maxPrefixLen (m.partialLen + (n.partialLen + 1)), (concatPrefix n m).1 i = word i := by
  by_cases hlong : maxPrefixLen ≤ n.partialLen
  · have hconcat : concatPrefix n m = (n.partialKey, n.partialLen) := by
      rw [concatPrefix, if_neg (by omega)]
      exact if_neg (by omega)
    rw [hconcat]
    exact ⟨by omega, fun i hi => hn i (by omega)⟩
  · -- the byte of the child is stored behind the prefix
    have hput : ∀ i, i < n.partialLen + 1 → put n.partialKey n.partialLen (n.keys 0) i = word i := by
      intro i hi
      by_cases heq : i = n.partialLen
      · rw [heq, put_self, hkey]
      · rw [put_of_ne _ _ heq]
        exact hn i (by omega)
    by_cases hfull : n.partialLen + 1 < maxPrefixLen
    · have hconcat : concatPrefix n m =
          (copy (put n.partialKey n.partialLen (n.keys 0)) (n.partialLen + 1) m.partialKey 0
            (min m.partialLen (maxPrefixLen - (n.partialLen + 1))),
          n.partialLen + 1 + min m.partialLen (maxPrefixLen - (n.partialLen + 1))) := by
        rw [concatPrefix, if_pos (by omega)]
        exact if_pos hfull
      rw [hconcat]
      refine ⟨by omega, fun i hi => ?_⟩
      by_cases hle : n.partialLen + 1 ≤ i
      · change copy _ _ _ _ _ i = _
        rw [copy, if_pos (by omega), Nat.zero_add, hm _ (by omega)]
        exact congrArg word (by omega)
      · change copy _ _ _ _ _ i = _
        rw [copy, if_neg (by omega)]
        exact hput i (by omega)
    · have hconcat : concatPrefix n m =
          (put n.partialKey n.partialLen (n.keys 0), n.partialLen + 1) := by
        rw [concatPrefix, if_pos (by omega)]
        exact if_neg hfull
      rw [hconcat]
      exact ⟨by omega, fun i hi => hput i (by omega)⟩

theorem joinHeader_stored {m : ArtNode} {word : ℕ → UInt8} (hn : Stored n word)
    (hkey : n.keys 0 = word n.partialLen) (hm : Stored m fun i => word (n.partialLen + 1 + i)) :
    Stored (joinHeader n m) word := by
  obtain ⟨hlen, hbytes⟩ := concatPrefix_stored hn hkey hm
  intro i hi
  change i < min maxPrefixLen (m.partialLen + (n.partialLen + 1)) at hi
  change copy m.partialKey 0 (concatPrefix n m).1 0 (min (concatPrefix n m).2 maxPrefixLen) i = word i
  rw [copy_of_lt (by omega), hbytes i hi]

theorem child_single (ht : n.type = .node4) (h : Listed n children 4) (hnum : n.numChildren.toNat = 1) :
    child n children = update (fun _ => none) (n.keys 0) (some (children 0)) := by
  funext c'
  refine Option.ext fun y => (child_listed (.inl ht) h.distinct).trans ?_
  rw [hnum]
  constructor
  · rintro ⟨i, hi, hkey, hy⟩
    obtain rfl : i = 0 := by omega
    rw [hkey, update_self, hy]
  · intro hy
    by_cases hkey : c' = n.keys 0
    · rw [hkey, update_self, Option.some.injEq] at hy
      exact ⟨0, Nat.one_pos, hkey.symm, hy⟩
    · rw [update_of_ne hkey] at hy
      cases hy

/-- A node without one of its children: a node again, or the only child that is left. -/
def Reduced (n : ArtNode) (kids : UInt8 → Option (Art β)) (t : Art β) : Prop :=
  Renewed n kids t ∨
    ∃ c t₁, kids = update (fun _ => none) c (some t₁) ∧ Lifted n c t₁ t

theorem removeChild4_reduced (ht : n.type = .node4) (h : Layout n children)
    (hc : findChild n children c = some pos) :
    ∃ t, removeChild4 n children pos = some t ∧
      Reduced n (update (child n children) c none) t := by
  obtain ⟨hl, hlow⟩ := (layout4 ht).mp h
  rw [findChild_listed (.inl ht)] at hc
  obtain ⟨hpos, hkey⟩ := slotOf_some hc
  obtain ⟨hnum, hl', hkids⟩ := dropKey_listed (.inl ht) hl hpos hkey
  have hsame : SamePrefix n (dropKey n pos) := ⟨rfl, fun _ _ => rfl⟩
  rw [← hkids]
  simp only [removeChild4]
  split
  · next hone =>
      have hone' : (dropKey n pos).numChildren.toNat = 1 := congrArg UInt8.toNat hone
      have hsingle := child_single (n := dropKey n pos) ht hl' hone'
      have hpresent := hl'.present 0 (by omega)
      cases hchild : closeAt children n.numChildren.toNat pos 0 with
      | null => exact absurd hchild hpresent
      | leaf l =>
        rw [hchild] at hsingle
        exact ⟨_, rfl, .inr ⟨_, _, hsingle, .leaf l⟩⟩
      | node m grandchildren =>
        rw [hchild] at hsingle
        exact ⟨_, rfl, .inr ⟨_, _, hsingle, .node _ m grandchildren hsame rfl⟩⟩
  · next hone =>
      have hone' : (dropKey n pos).numChildren.toNat ≠ 1 := fun heq => hone (UInt8.toNat_inj.mp heq)
      exact ⟨_, rfl, .inl ⟨_, _, rfl, (layout4 (n := dropKey n pos) ht).mpr ⟨hl', by omega⟩, hsame, rfl⟩⟩

theorem removeChild_reduced (h : Layout n children) (hc : findChild n children c = some pos) :
    ∃ t, removeChild n children c pos = some t ∧
      Reduced n (update (child n children) c none) t := by
  cases ht : n.type with
  | node4 =>
    simp only [removeChild, ht]
    exact removeChild4_reduced ht h hc
  | node16 =>
    simp only [removeChild, ht]
    exact ⟨_, rfl, .inl (removeChild16_renewed ht h hc)⟩
  | node48 =>
    simp only [removeChild, ht]
    exact ⟨_, rfl, .inl (removeChild48_renewed ht h hc)⟩
  | node256 =>
    simp only [removeChild, ht]
    exact ⟨_, rfl, .inl (removeChild256_renewed ht h hc)⟩

end Remove

end Aware.Dns
