import Aware.Dns.Model
import Mathlib.Logic.Function.Basic

/-!
# The four kinds of nodes

Each kind keeps a map from bytes to children in its own way. Adding and removing a child changes the
map at one byte, also when the node becomes one of another kind.
-/
namespace Aware.Dns
open Function Slots

variable {β : Type}

section Kinds
variable (n : ArtNode) (children : ℕ → Art β)

def child (c : UInt8) : Option (Art β) :=
  (findChild n children c).map children

/-- Keys and children side by side, as in a `node4` and a `node16`. -/
structure Listed (capacity : ℕ) : Prop where
  bound : n.numChildren.toNat ≤ capacity
  distinct : Distinct n.keys n.numChildren.toNat
  present : ∀ i < n.numChildren.toNat, children i ≠ .null

def bytes48 : List ℕ :=
  bytesWith fun i => n.keys i != 0

def bytes256 : List ℕ :=
  bytesWith fun i => !(children i).isNull

/-- Places of the children by their bytes, as in a `node48`. -/
structure Indexed : Prop where
  bound : ∀ b < 256, (n.keys b).toNat ≤ 48
  present : ∀ b < 256, n.keys b ≠ 0 → children ((n.keys b).toNat - 1) ≠ .null
  distinct : ∀ b b', b < 256 → b' < 256 → n.keys b ≠ 0 → n.keys b = n.keys b' → b = b'
  owned : ∀ pos < 48, children pos ≠ .null → ∃ b < 256, (n.keys b).toNat = pos + 1
  count : n.numChildren.toNat = (bytes48 n).length

/-- The bounds are those at which a node becomes one of another kind. A `node256` with a child
for every byte has 0 as their number. -/
def Layout : Prop :=
  match n.type with
  | .node4 => Listed n children 4 ∧ 2 ≤ n.numChildren.toNat
  | .node16 => Listed n children 16 ∧ 4 ≤ n.numChildren.toNat
  | .node48 => Indexed n children ∧ 13 ≤ n.numChildren.toNat
  | .node256 => n.numChildren.toNat = (bytes256 children).length % 256 ∧ 38 ≤ (bytes256 children).length

end Kinds

def SamePrefix (n n' : ArtNode) : Prop :=
  n'.partialLen = n.partialLen ∧ ∀ i < min maxPrefixLen n.partialLen, n'.partialKey i = n.partialKey i

def Stored (n : ArtNode) (word : ℕ → UInt8) : Prop :=
  ∀ i < min maxPrefixLen n.partialLen, n.partialKey i = word i

def Renewed (n : ArtNode) (kids : UInt8 → Option (Art β)) (t : Art β) : Prop :=
  ∃ n' children', t = .node n' children' ∧ Layout n' children' ∧ SamePrefix n n' ∧
    child n' children' = kids

theorem SamePrefix.refl (n : ArtNode) : SamePrefix n n :=
  ⟨rfl, fun _ _ => rfl⟩

variable {n' n : ArtNode} {t : Art β}

theorem SamePrefix.trans {n'' : ArtNode} (h : SamePrefix n n') (h' : SamePrefix n' n'') :
    SamePrefix n n'' := by
  refine ⟨h'.1.trans h.1, fun i hi => ?_⟩
  rw [h'.2 i (h.1.symm ▸ hi), h.2 i hi]

theorem SamePrefix.stored {word : ℕ → UInt8} (h : SamePrefix n n')
    (hstored : Stored n word) : Stored n' word := by
  intro i hi
  rw [h.1] at hi
  rw [h.2 i hi, hstored i hi]

theorem Renewed.of_samePrefix {kids : UInt8 → Option (Art β)}
    (h : SamePrefix n n') (ht : Renewed n' kids t) : Renewed n kids t := by
  obtain ⟨m, children, rfl, hlayout, hsame, hkids⟩ := ht
  exact ⟨m, children, rfl, hlayout, h.trans hsame, hkids⟩

theorem samePrefix_copyHeader (dest src : ArtNode) : SamePrefix src (copyHeader dest src) := by
  refine ⟨rfl, fun i hi => ?_⟩
  change copy dest.partialKey 0 src.partialKey 0 _ i = _
  rw [copy, if_pos (by omega)]
  simp

@[simp] theorem isNull_eq_true : t.isNull = true ↔ t = .null := by
  cases t <;> simp [Art.isNull]

@[simp] theorem isNull_eq_false : t.isNull = false ↔ t ≠ .null := by
  cases t <;> simp [Art.isNull]

section Find
variable {n : ArtNode} {children : ℕ → Art β} {c c' : UInt8} {i : ℕ} {t : Art β}
variable {b : ℕ}

theorem mem_bytesWith {test : ℕ → Bool} : b ∈ bytesWith test ↔ b < 256 ∧ test b = true := by
  rw [bytesWith, List.mem_filter, List.mem_range]

theorem mem_bytes48 : b ∈ bytes48 n ↔ b < 256 ∧ n.keys b ≠ 0 := by
  simp [bytes48, mem_bytesWith]

theorem mem_bytes256 : b ∈ bytes256 children ↔ b < 256 ∧ children b ≠ .null := by
  simp [bytes256, mem_bytesWith]

theorem bytesWith_congr {test test' : ℕ → Bool} (h : ∀ b < 256, test b = test' b) :
    bytesWith test = bytesWith test' :=
  List.filter_congr fun b hb => h b (List.mem_range.mp hb)

theorem nodup_bytesWith (test : ℕ → Bool) : (bytesWith test).Nodup :=
  List.nodup_range.filter _

theorem length_bytesWith_succ {test test' : ℕ → Bool} (hold : test c.toNat = false)
    (h : ∀ b, test' b = (decide (b = c.toNat) || test b)) :
    (bytesWith test').length = (bytesWith test).length + 1 :=
  length_filter_range_succ c.toNat_lt hold fun b _ => h b

theorem findChild_listed (h : n.type = .node4 ∨ n.type = .node16) :
    findChild n children c = slotOf n.keys n.numChildren.toNat c := by
  rcases h with h | h <;> simp [findChild, h]

theorem findChild48 (h : n.type = .node48) : findChild n children c =
    if n.keys c.toNat = 0 then none else some ((n.keys c.toNat).toNat - 1) := by
  simp [findChild, h]

theorem findChild256 (h : n.type = .node256) : findChild n children c =
    if (children c.toNat).isNull then none else some c.toNat := by
  simp [findChild, h]

theorem child_listed (h : n.type = .node4 ∨ n.type = .node16)
    (hd : Distinct n.keys n.numChildren.toNat) :
    child n children c = some t ↔ Beside n.keys children n.numChildren.toNat c t := by
  rw [child, findChild_listed h]
  exact slotOf_map hd

theorem child48 (h : n.type = .node48) : child n children c =
    if n.keys c.toNat = 0 then none else some (children ((n.keys c.toNat).toNat - 1)) := by
  rw [child, findChild48 h]
  split <;> rfl

theorem child256 (h : n.type = .node256) : child n children c =
    if (children c.toNat).isNull then none else some (children c.toNat) := by
  rw [child, findChild256 h]
  split <;> rfl

theorem layout4 (ht : n.type = .node4) :
    Layout n children ↔ Listed n children 4 ∧ 2 ≤ n.numChildren.toNat := by
  simp only [Layout, ht]

theorem layout16 (ht : n.type = .node16) :
    Layout n children ↔ Listed n children 16 ∧ 4 ≤ n.numChildren.toNat := by
  simp only [Layout, ht]

theorem layout48 (ht : n.type = .node48) :
    Layout n children ↔ Indexed n children ∧ 13 ≤ n.numChildren.toNat := by
  simp only [Layout, ht]

theorem layout256 (ht : n.type = .node256) : Layout n children ↔
    n.numChildren.toNat = (bytes256 children).length % 256 ∧ 38 ≤ (bytes256 children).length := by
  simp only [Layout, ht]

theorem Layout.listed (h : Layout n children) (ht : n.type = .node4 ∨ n.type = .node16) :
    Listed n children 16 := by
  rcases ht with ht | ht
  · have hl := ((layout4 ht).mp h).1
    exact ⟨hl.bound.trans (by omega), hl.distinct, hl.present⟩
  · exact ((layout16 ht).mp h).1

theorem Layout.indexed (h : Layout n children) (ht : n.type = .node48) : Indexed n children :=
  ((layout48 ht).mp h).1

theorem Layout.header (h : Layout n children) (n' : ArtNode) (ht : n'.type = n.type)
    (hnum : n'.numChildren = n.numChildren) (hkeys : n'.keys = n.keys) :
    Layout n' children ∧ child n' children = child n children := by
  have hfind : findChild n' children = findChild n children := by
    funext c
    simp only [findChild, ht, hnum, hkeys]
  have hchild : child n' children = child n children := by
    funext c
    rw [child, child, hfind]
  refine ⟨?_, hchild⟩
  cases htype : n.type with
  | node4 =>
    obtain ⟨⟨hbound, hdistinct, hpresent⟩, hlow⟩ := (layout4 htype).mp h
    rw [← hnum] at hbound hdistinct hpresent hlow
    exact (layout4 (ht.trans htype)).mpr ⟨⟨hbound, hkeys ▸ hdistinct, hpresent⟩, hlow⟩
  | node16 =>
    obtain ⟨⟨hbound, hdistinct, hpresent⟩, hlow⟩ := (layout16 htype).mp h
    rw [← hnum] at hbound hdistinct hpresent hlow
    exact (layout16 (ht.trans htype)).mpr ⟨⟨hbound, hkeys ▸ hdistinct, hpresent⟩, hlow⟩
  | node48 =>
    obtain ⟨⟨hbound, hpresent, hdistinct, howned, hcount⟩, hlow⟩ := (layout48 htype).mp h
    rw [bytes48, ← hkeys, ← hnum] at hcount
    rw [← hkeys] at hbound hpresent hdistinct howned
    exact (layout48 (ht.trans htype)).mpr ⟨⟨hbound, hpresent, hdistinct, howned, hcount⟩, hnum ▸ hlow⟩
  | node256 =>
    rw [layout256 (ht.trans htype), hnum]
    exact (layout256 htype).mp h

theorem findChild_inj (h : Layout n children) (hc : findChild n children c = some i)
    (hc' : findChild n children c' = some i) : c = c' := by
  cases ht : n.type with
  | node4 =>
    rw [findChild_listed (.inl ht)] at hc hc'
    rw [← (slotOf_some hc).2, (slotOf_some hc').2]
  | node16 =>
    rw [findChild_listed (.inr ht)] at hc hc'
    rw [← (slotOf_some hc).2, (slotOf_some hc').2]
  | node48 =>
    rw [findChild48 ht] at hc hc'
    split at hc
    · cases hc
    split at hc'
    · cases hc'
    next hz hz' =>
      have hpos := UInt8.toNat_inj.not.mpr hz
      have hpos' := UInt8.toNat_inj.not.mpr hz'
      change _ ≠ 0 at hpos hpos'
      have heq : (n.keys c.toNat).toNat = (n.keys c'.toNat).toNat := by
        have := Option.some.inj (hc.trans hc'.symm)
        omega
      exact UInt8.toNat_inj.mp ((h.indexed ht).distinct _ _ c.toNat_lt c'.toNat_lt hz
        (UInt8.toNat_inj.mp heq))
  | node256 =>
    rw [findChild256 ht] at hc hc'
    split at hc
    · cases hc
    split at hc'
    · cases hc'
    exact UInt8.toNat_inj.mp (Option.some.inj (hc.trans hc'.symm))

theorem findChild_present (h : Layout n children) (hc : findChild n children c = some i) :
    children i ≠ .null := by
  cases ht : n.type with
  | node4 =>
    rw [findChild_listed (.inl ht)] at hc
    exact (h.listed (.inl ht)).present i (slotOf_some hc).1
  | node16 =>
    rw [findChild_listed (.inr ht)] at hc
    exact (h.listed (.inr ht)).present i (slotOf_some hc).1
  | node48 =>
    rw [findChild48 ht] at hc
    split at hc
    · cases hc
    next hz =>
      cases hc
      exact (h.indexed ht).present _ c.toNat_lt hz
  | node256 =>
    rw [findChild256 ht] at hc
    split at hc
    · cases hc
    next hz =>
      cases hc
      simpa using hz

end Find

section Replace
variable {n : ArtNode} {children : ℕ → Art β} {c : UInt8} {i : ℕ} {t : Art β}

theorem isNull_put (hi : children i ≠ .null) (ht : t ≠ .null) (j : ℕ) :
    (put children i t j).isNull = (children j).isNull := by
  by_cases hj : j = i
  · rw [hj, put_self, isNull_eq_false.mpr ht, isNull_eq_false.mpr hi]
  · rw [put_of_ne _ _ hj]

theorem findChild_put (hi : children i ≠ .null) (ht : t ≠ .null) :
    findChild n (put children i t) = findChild n children := by
  funext c'
  simp only [findChild, isNull_put hi ht]

theorem Listed.put {capacity : ℕ} (h : Listed n children capacity) (ht : t ≠ .null) :
    Listed n (put children i t) capacity := by
  refine ⟨h.bound, h.distinct, fun j hj => ?_⟩
  by_cases hji : j = i
  · rw [hji, put_self]
    exact ht
  · rw [put_of_ne _ _ hji]
    exact h.present j hj

theorem layout_put (h : Layout n children) (hi : children i ≠ .null) (ht : t ≠ .null) :
    Layout n (put children i t) := by
  have hbytes : bytes256 (put children i t) = bytes256 children := by
    rw [bytes256, bytes256]
    simp only [isNull_put hi ht]
  have hnull : ∀ j, put children i t j ≠ .null ↔ children j ≠ .null := by
    intro j
    rw [← isNull_eq_false, isNull_put hi ht, isNull_eq_false]
  cases htype : n.type with
  | node4 =>
    have hl := (layout4 htype).mp h
    exact (layout4 htype).mpr ⟨hl.1.put ht, hl.2⟩
  | node16 =>
    have hl := (layout16 htype).mp h
    exact (layout16 htype).mpr ⟨hl.1.put ht, hl.2⟩
  | node48 =>
    obtain ⟨hix, hnum⟩ := (layout48 htype).mp h
    exact (layout48 htype).mpr ⟨⟨hix.bound, fun b hb hz => (hnull _).mpr (hix.present b hb hz),
      hix.distinct, fun pos hpos hne => hix.owned pos hpos ((hnull pos).mp hne), hix.count⟩, hnum⟩
  | node256 =>
    rw [layout256 htype, hbytes]
    exact (layout256 htype).mp h

theorem child_put (h : Layout n children) (hc : findChild n children c = some i) (ht : t ≠ .null) :
    child n (put children i t) = update (child n children) c (some t) := by
  funext c'
  rw [child, findChild_put (findChild_present h hc) ht]
  by_cases hcc : c' = c
  · rw [hcc, update_self, hc, Option.map_some, put_self]
  · rw [update_of_ne hcc, child]
    cases hc' : findChild n children c' with
    | none => rfl
    | some j =>
      have hji : j ≠ i := by
        rintro rfl
        exact hcc (findChild_inj h hc' hc)
      rw [Option.map_some, Option.map_some, put_of_ne _ _ hji]

theorem renewed_put (h : Layout n children) (hc : findChild n children c = some i) (ht : t ≠ .null) :
    Renewed n (update (child n children) c (some t)) (.node n (put children i t)) :=
  ⟨n, _, rfl, layout_put h (findChild_present h hc) ht, .refl n, child_put h hc ht⟩

end Replace

section Present
variable {n : ArtNode} {children : ℕ → Art β} {b : ℕ}

theorem toNat_byte (h : b < 256) : (UInt8.ofNat b).toNat = b :=
  UInt8.toNat_ofNat_of_lt' h

theorem findChild_bytes48 (ht : n.type = .node48) (hb : b ∈ bytes48 n) :
    findChild n children (UInt8.ofNat b) = some ((n.keys b).toNat - 1) := by
  obtain ⟨hlt, hz⟩ := mem_bytes48.mp hb
  rw [findChild48 ht, toNat_byte hlt, if_neg hz]

theorem findChild_bytes256 (ht : n.type = .node256) (hb : b ∈ bytes256 children) :
    findChild n children (UInt8.ofNat b) = some b := by
  obtain ⟨hlt, hne⟩ := mem_bytes256.mp hb
  rw [findChild256 ht, toNat_byte hlt, isNull_eq_false.mpr hne]
  rfl

theorem findChild_key (h : Layout n children) (ht : n.type = .node4 ∨ n.type = .node16) {i : ℕ}
    (hi : i < n.numChildren.toNat) : findChild n children (n.keys i) = some i := by
  rw [findChild_listed ht]
  exact slotOf_eq (h.listed ht).distinct hi rfl

theorem Layout.two_le (h : Layout n children) (ht : n.type = .node4 ∨ n.type = .node16) :
    2 ≤ n.numChildren.toNat := by
  rcases ht with ht | ht
  · exact ((layout4 ht).mp h).2
  · have := ((layout16 ht).mp h).2
    omega

theorem firstSlot_found (h : Layout n children) :
    ∃ c i, firstSlot n children = some i ∧ findChild n children c = some i := by
  have hfind : ∀ {test : ℕ → Bool} {k : ℕ}, k ≤ (bytesWith test).length → 0 < k →
      ∃ b, (List.range 256).find? test = some b ∧ b ∈ bytesWith test := by
    intro test k hk hpos
    cases hf : (List.range 256).find? test with
    | none =>
      have hnil : bytesWith test = [] :=
        List.filter_eq_nil_iff.mpr (List.find?_eq_none.mp hf)
      rw [hnil, List.length_nil] at hk
      omega
    | some b =>
      exact ⟨b, rfl, List.mem_filter.mpr ⟨List.mem_of_find?_eq_some hf, List.find?_some hf⟩⟩
  cases ht : n.type with
  | node4 =>
    have htwo := h.two_le (.inl ht)
    exact ⟨_, 0, by simp only [firstSlot, ht], findChild_key h (.inl ht) (by omega)⟩
  | node16 =>
    have htwo := h.two_le (.inr ht)
    exact ⟨_, 0, by simp only [firstSlot, ht], findChild_key h (.inr ht) (by omega)⟩
  | node48 =>
    obtain ⟨hix, hlow⟩ := (layout48 ht).mp h
    obtain ⟨b, hf, hb⟩ := hfind (hix.count ▸ hlow) (by omega)
    refine ⟨_, _, ?_, findChild_bytes48 ht hb⟩
    simp only [firstSlot, ht, hf, Option.map_some]
  | node256 =>
    obtain ⟨b, hf, hb⟩ := hfind ((layout256 ht).mp h).2 (by omega)
    refine ⟨_, _, ?_, findChild_bytes256 ht hb⟩
    simp only [firstSlot, ht, hf]

theorem two_children (h : Layout n children) :
    ∃ c c' t t', c ≠ c' ∧ child n children c = some t ∧ child n children c' = some t' := by
  have htwo : ∀ {test : ℕ → Bool}, 2 ≤ (bytesWith test).length →
      ∃ b ∈ bytesWith test, ∃ b' ∈ bytesWith test, UInt8.ofNat b ≠ UInt8.ofNat b' := by
    intro test hlen
    refine ⟨_, List.getElem_mem (show 0 < _ by omega), _, List.getElem_mem (show 1 < _ by omega), ?_⟩
    intro heq
    have hnat := congrArg UInt8.toNat heq
    rw [toNat_byte (mem_bytesWith.mp (List.getElem_mem _)).1,
      toNat_byte (mem_bytesWith.mp (List.getElem_mem _)).1] at hnat
    have := (nodup_bytesWith test).getElem_inj_iff.mp hnat
    omega
  have hsome : ∀ {c i}, findChild n children c = some i → child n children c = some (children i) := by
    intro c i hc
    rw [child, hc, Option.map_some]
  have hlisted : n.type = .node4 ∨ n.type = .node16 →
      ∃ c c' t t', c ≠ c' ∧ child n children c = some t ∧ child n children c' = some t' := by
    intro ht
    have hnum := h.two_le ht
    refine ⟨n.keys 0, n.keys 1, _, _, ?_, hsome (findChild_key h ht (by omega)),
      hsome (findChild_key h ht (by omega))⟩
    intro heq
    have := (h.listed ht).distinct 0 1 (by omega) (by omega) heq
    omega
  cases ht : n.type with
  | node4 => exact hlisted (.inl ht)
  | node16 => exact hlisted (.inr ht)
  | node48 =>
    obtain ⟨hix, hlow⟩ := (layout48 ht).mp h
    obtain ⟨b, hb, b', hb', hne⟩ := htwo (show 2 ≤ (bytes48 n).length by have := hix.count; omega)
    exact ⟨_, _, _, _, hne, hsome (findChild_bytes48 ht hb), hsome (findChild_bytes48 ht hb')⟩
  | node256 =>
    have hlow := ((layout256 ht).mp h).2
    obtain ⟨b, hb, b', hb', hne⟩ := htwo (show 2 ≤ (bytes256 children).length by omega)
    exact ⟨_, _, _, _, hne, hsome (findChild_bytes256 ht hb), hsome (findChild_bytes256 ht hb')⟩

end Present

end Aware.Dns
