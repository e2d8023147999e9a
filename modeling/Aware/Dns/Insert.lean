import Aware.Dns.Search
import Mathlib.Data.Nat.Find

/-!
# Inserting a name

`recursive_insert`: a leaf is split where two names part, a node where its prefix and the name part,
and otherwise the name goes below a child. No step follows a missing pointer.
-/
namespace Aware.Dns
open Function Slots

variable {β : Type}

/-- The tree with the leaf in it, in the place of a leaf with the same name. -/
def Inserted (t : Art β) (new : ArtLeaf β) (t' : Art β) : Prop :=
  ∀ l, Holds t' l ↔ l = new ∨ Holds t l ∧ l.key ≠ new.key

section Parting
variable {depth : ℕ} {word : ℕ → UInt8} {l new : ArtLeaf β}

theorem first_parting (h : Below depth word l) (h' : Below depth word new) (hne : l.key ≠ new.key) :
    ∃ r, depth + r ≤ l.key.length ∧ depth + r ≤ new.key.length ∧
      (∀ i < depth + r, l.byte i = new.byte i) ∧ l.byte (depth + r) ≠ new.byte (depth + r) := by
  have hsome : ∃ m, m ≤ l.key.length ∧ l.byte m ≠ new.byte m := by
    by_contra hnone
    refine hne (name_eq h.named h'.named fun i hi => ?_)
    by_contra hdiff
    exact hnone ⟨i, hi, fun heq => hdiff heq.symm⟩
  have hsame : ∀ i < Nat.find hsome, l.byte i = new.byte i := by
    intro i hi
    by_contra hdiff
    have hle := (Nat.find_spec hsome).1
    exact Nat.find_min hsome hi ⟨by omega, hdiff⟩
  obtain ⟨hle, hdiff⟩ := Nat.find_spec hsome
  have hdepth : depth ≤ Nat.find hsome := by
    by_contra hlt
    exact hdiff ((h.bytes _ (by omega)).trans (h'.bytes _ (by omega)).symm)
  have hle' : Nat.find hsome ≤ new.key.length := by
    by_contra hlt
    have hzero := hsame new.key.length (by omega)
    have hlong := (getD_eq_zero_iff (i := new.key.length) h.named).mp
      (hzero.trans (List.getD_eq_default _ _ (Nat.le_refl _)))
    omega
  refine ⟨Nat.find hsome - depth, ?_⟩
  rw [Nat.add_sub_cancel' hdepth]
  exact ⟨hle, hle', hsame, hdiff⟩

theorem longestCommonPrefix_eq {r : ℕ} (hl : depth + r ≤ l.key.length) (hnew : depth + r ≤ new.key.length)
    (hsame : ∀ i < depth + r, l.byte i = new.byte i)
    (hdiff : l.byte (depth + r) ≠ new.byte (depth + r)) : longestCommonPrefix l new depth = r := by
  apply firstDiff_eq
  · omega
  · omega
  · intro i _ hi
    exact hsame _ (by omega)
  · intro _
    exact hdiff

end Parting

section Pairs
variable {depth : ℕ} {word path : ℕ → UInt8} {n : ArtNode} {t t₁ t₂ : Art β} {c₁ c₂ : UInt8}
  {l : ArtLeaf β}

theorem pair_renewed (len : ℕ) (bytes : ℕ → UInt8) (hne : c₁ ≠ c₂) (h₁ : t₁ ≠ .null) (h₂ : t₂ ≠ .null) :
    ∃ t, ((addChild4 (prefixNode len bytes) noChildren c₁ t₁).bind fun t => addTo t c₂ t₂) = some t ∧
      Renewed (prefixNode len bytes)
        (update (update (fun _ => none) c₁ (some t₁)) c₂ (some t₂)) t := by
  have hempty : Listed (prefixNode len bytes) (noChildren (β := β)) 4 :=
    ⟨Nat.zero_le 4, fun i _ hi => absurd hi i.not_lt_zero, fun i hi => absurd hi i.not_lt_zero⟩
  have hnone : child (prefixNode len bytes) (noChildren (β := β)) = fun _ => none := rfl
  obtain ⟨n₁, children₁, hadd₁, ht₁, hl₁, hnum₁, hsame₁, hkids₁⟩ :=
    addChild4_listed rfl hempty (by change 0 < 4; omega) (congrFun hnone c₁) h₁
  change n₁.numChildren.toNat = 0 + 1 at hnum₁
  have hfree : child n₁ children₁ c₂ = none := by
    rw [hkids₁, update_of_ne hne.symm, hnone]
  obtain ⟨n₂, children₂, hadd₂, ht₂, hl₂, hnum₂, hsame₂, hkids₂⟩ :=
    addChild4_listed ht₁ hl₁ (by omega) hfree h₂
  refine ⟨.node n₂ children₂, ?_, n₂, children₂, rfl, (layout4 ht₂).mpr ⟨hl₂, by omega⟩,
    hsame₁.trans hsame₂, ?_⟩
  · rw [hadd₁, Option.bind_some, addTo, hadd₂]
  · rw [hkids₂, hkids₁, hnone]

theorem pair_valid (hne : c₁ ≠ c₂)
    (h : Renewed n (update (update (fun _ => none) c₁ (some t₁)) c₂ (some t₂)) t)
    (hpath : ∀ i < depth, path i = word i) (hstored : Stored n fun i => path (depth + i))
    (hnz : ∀ i < depth + n.partialLen, path i ≠ 0)
    (h₁ : Valid (depth + n.partialLen + 1) (put path (depth + n.partialLen) c₁) t₁)
    (h₂ : Valid (depth + n.partialLen + 1) (put path (depth + n.partialLen) c₂) t₂) :
    Valid depth word t ∧ ∀ l, Holds t l ↔ Holds t₂ l ∨ Holds t₁ l := by
  have hkids : ∀ c t', update (update (fun _ => none) c₁ (some t₁)) c₂ (some t₂) c =
      some t' ↔ c = c₂ ∧ t' = t₂ ∨ c = c₁ ∧ t' = t₁ := by
    intro c t'
    by_cases hc₂ : c = c₂
    · rw [hc₂, update_self]
      simp [hne.symm, eq_comm]
    · rw [update_of_ne hc₂]
      by_cases hc₁ : c = c₁
      · rw [hc₁, update_self]
        simp [hne, eq_comm]
      · rw [update_of_ne hc₁]
        simp [hc₁, hc₂]
  refine ⟨h.valid hpath hstored hnz fun c t' hc => ?_, fun l => h.holds.trans ?_⟩
  · rcases (hkids c t').mp hc with ⟨rfl, rfl⟩ | ⟨rfl, rfl⟩
    · exact h₂
    · exact h₁
  · simp only [hkids]
    constructor
    · rintro ⟨c, t', ⟨rfl, rfl⟩ | ⟨rfl, rfl⟩, hl⟩
      · exact .inl hl
      · exact .inr hl
    · rintro (hl | hl)
      · exact ⟨c₂, t₂, .inl ⟨rfl, rfl⟩, hl⟩
      · exact ⟨c₁, t₁, .inr ⟨rfl, rfl⟩, hl⟩

end Pairs

section Splits
variable {depth : ℕ} {word path : ℕ → UInt8} {key : ℕ → UInt8} {l new : ArtLeaf β} {n : ArtNode}
  {children : ℕ → Art β} {r : ℕ}

theorem splitLeaf_valid (h : Below depth word l) (h' : Below depth word new) (hne : l.key ≠ new.key)
    (hs : Spells key new.key) :
    ∃ t, splitLeaf l new key depth = some t ∧ Valid depth word t ∧ Inserted (.leaf l) new t := by
  obtain ⟨r, hle, hle', hsame, hdiff⟩ := first_parting h h' hne
  have hlongest := longestCommonPrefix_eq hle hle' hsame hdiff
  have hstored : Stored (prefixNode r (copy (fun _ => 0) 0 key depth (min maxPrefixLen r)))
      fun i => new.byte (depth + i) := by
    intro i hi
    change i < min maxPrefixLen r at hi
    change copy (fun _ => 0) 0 key depth (min maxPrefixLen r) i = _
    rw [copy, if_pos (by omega), Nat.sub_zero]
    exact hs _ (by omega)
  have hbelow : ∀ l' : ArtLeaf β, 0 ∉ l'.key → depth + r ≤ l'.key.length →
      (∀ i < depth + r, l'.byte i = new.byte i) →
        Valid (depth + r + 1) (put new.byte (depth + r) (l'.byte (depth + r))) (.leaf l') := by
    intro l' hnamed hlong hbytes
    refine .leaf ⟨hnamed, by omega, fun i hi => ?_⟩
    by_cases heq : i = depth + r
    · rw [heq, put_self]
    · rw [put_of_ne _ _ heq, hbytes i (by omega)]
  have hnz : ∀ i < depth + r, new.byte i ≠ 0 := fun i hi =>
    mt (getD_eq_zero_iff h'.named).mp (by omega)
  have hl := hbelow l h.named hle hsame
  have hnew := hbelow new h'.named hle' fun _ _ => rfl
  obtain ⟨t, hpair, hren⟩ := pair_renewed r (copy (fun _ => 0) 0 key depth (min maxPrefixLen r)) hdiff
    hl.ne_null hnew.ne_null
  obtain ⟨hvalid, hholds⟩ := pair_valid hdiff hren h'.bytes hstored hnz hl hnew
  refine ⟨t, ?_, hvalid, fun l' => (hholds l').trans ?_⟩
  · rw [splitLeaf, hlongest]
    exact hpair
  · constructor
    · rintro (hl' | hl')
      · cases hl'
        exact .inl rfl
      · cases hl'
        exact .inr ⟨.leaf l, hne⟩
    · rintro (rfl | ⟨hl', -⟩)
      · exact .inl (.leaf _)
      · exact .inr hl'

section Prefix
variable (hlayout : Layout n children) (hpath : ∀ i < depth, path i = word i)
  (hstored : Stored n fun i => path (depth + i)) (hnz : ∀ i < depth + n.partialLen, path i ≠ 0)
  (hkids : ∀ c t, child n children c = some t →
    Valid (depth + n.partialLen + 1) (put path (depth + n.partialLen) c) t)

include hstored in
theorem firstDiff_stored {len m : ℕ} (hr : r ≤ n.partialLen)
    (hsame : ∀ i < r, path (depth + i) = key (depth + i))
    (hdiff : r < n.partialLen → r < len → path (depth + r) ≠ key (depth + r))
    (hm : m = min (min maxPrefixLen n.partialLen) len) :
    firstDiff n.partialKey (fun i => key (depth + i)) 0 m = min r m := by
  apply firstDiff_eq (Nat.zero_le _) (by omega)
  · intro i _ hi
    exact (hstored i (by omega)).trans (hsame i (by omega))
  · intro hlt
    rw [Nat.min_eq_left (by omega), hstored r (by omega)]
    exact hdiff (by omega) (by omega)

include hlayout hkids

theorem minimum_path : ∃ l, minimum (.node n children) = some l ∧ depth + n.partialLen ≤ l.key.length ∧
      ∀ i < depth + n.partialLen, l.byte i = path i := by
  obtain ⟨c, i, hslot, hfind⟩ := firstSlot_found hlayout
  have hc := child_of_findChild hfind
  obtain ⟨l, hmin, hl⟩ := (hkids _ _ hc).minimum
  obtain ⟨hlen, -, hbytes⟩ := ((hkids _ _ hc).leaf_below hl).byte_child
  refine ⟨l, ?_, hlen, hbytes⟩
  rw [minimum, hslot]
  exact hmin

include hstored

theorem prefixMismatch_parts {len : ℕ} (hr : r < n.partialLen) (hlen : depth + r ≤ len)
    (hsame : ∀ i < r, path (depth + i) = key (depth + i))
    (hdiff : path (depth + r) ≠ key (depth + r)) :
    prefixMismatch n children key len depth = some r := by
  obtain ⟨l, hmin, hlong, hbytes⟩ := minimum_path hlayout hkids
  have hidx := firstDiff_stored hstored hr.le hsame (fun _ (_ : r < len - depth) => hdiff) rfl
  simp only [prefixMismatch, hidx]
  by_cases hcmp : r < min (min maxPrefixLen n.partialLen) (len - depth)
  · rw [Nat.min_eq_left hcmp.le, if_pos hcmp]
  · rw [Nat.min_eq_right (Nat.le_of_not_lt hcmp), if_neg (Nat.lt_irrefl _)]
    by_cases hmax : maxPrefixLen < n.partialLen
    · -- the rest of the prefix is read from the smallest leaf
      rw [if_pos hmax, hmin, Option.map_some]
      refine congrArg some (firstDiff_eq (by omega) (by omega) (fun i _ hi => ?_) fun _ => ?_)
      · rw [Nat.add_comm i, hbytes _ (by omega), hsame i hi]
      · rw [Nat.add_comm r, hbytes _ (by omega)]
        exact hdiff
    · rw [if_neg hmax]
      exact congrArg some (by omega)

theorem prefixMismatch_agrees {len : ℕ} (hlen : depth + n.partialLen ≤ len)
    (hsame : ∀ i < n.partialLen, path (depth + i) = key (depth + i)) :
    ∃ diff, prefixMismatch n children key len depth = some diff ∧ n.partialLen ≤ diff := by
  obtain ⟨l, hmin, hlong, hbytes⟩ := minimum_path hlayout hkids
  have hidx := firstDiff_stored hstored le_rfl hsame
    (fun hlt (_ : n.partialLen < len - depth) => absurd hlt (Nat.lt_irrefl _)) rfl
  have hshort : min (min maxPrefixLen n.partialLen) (len - depth) ≤ n.partialLen := by omega
  rw [Nat.min_eq_right hshort] at hidx
  simp only [prefixMismatch, hidx]
  rw [if_neg (Nat.lt_irrefl _)]
  by_cases hmax : maxPrefixLen < n.partialLen
  · rw [if_pos hmax, hmin, Option.map_some]
    refine ⟨_, rfl, le_firstDiff (by omega) fun i _ hi => ?_⟩
    rw [Nat.add_comm i, hbytes _ (by omega), hsame i hi]
  · rw [if_neg hmax]
    exact ⟨_, rfl, by omega⟩

include hnz

theorem shorten_valid (hr : r < n.partialLen) :
    ∃ n', shorten n children depth r = some (path (depth + r), n') ∧
      child n' children = child n children ∧
      Valid (depth + r + 1) (put path (depth + r) (path (depth + r))) (.node n' children) := by
  have hput : ∀ i, path i = put path (depth + r) (path (depth + r)) i := by
    intro i
    by_cases heq : i = depth + r
    · rw [heq, put_self]
    · rw [put_of_ne _ _ heq]
  have hvalid : ∀ bytes : ℕ → UInt8,
      (∀ i < min maxPrefixLen (n.partialLen - (r + 1)), bytes i = path (depth + r + 1 + i)) →
      Valid (depth + r + 1) (put path (depth + r) (path (depth + r)))
        (.node { n with partialLen := n.partialLen - (r + 1), partialKey := bytes } children) := by
    intro bytes hbytes
    have hlen : depth + r + 1 + (n.partialLen - (r + 1)) = depth + n.partialLen := by omega
    obtain ⟨hlayout', hchild⟩ := hlayout.header
      { n with partialLen := n.partialLen - (r + 1), partialKey := bytes } rfl rfl rfl
    refine .node path hlayout' (fun i _ => hput i) hbytes ?_ ?_
    · change ∀ i < depth + r + 1 + (n.partialLen - (r + 1)), _
      rw [hlen]
      exact hnz
    · rw [hchild]
      change ∀ c t, _ → Valid (depth + r + 1 + (n.partialLen - (r + 1)) + 1)
        (put path (depth + r + 1 + (n.partialLen - (r + 1))) c) t
      rw [hlen]
      exact hkids
  rw [shorten]
  by_cases hmax : n.partialLen ≤ maxPrefixLen
  · rw [if_pos hmax, hstored r (by omega)]
    refine ⟨_, rfl, rfl, hvalid _ fun i hi => ?_⟩
    rw [move, if_pos (by omega), Nat.sub_zero, hstored _ (by omega)]
    exact congrArg path (by omega)
  · obtain ⟨l, hmin, hlong, hbytes⟩ := minimum_path hlayout hkids
    rw [if_neg hmax, hmin, Option.map_some, hbytes _ (by omega)]
    refine ⟨_, rfl, rfl, hvalid _ fun i hi => ?_⟩
    rw [copy, if_pos (by omega), Nat.sub_zero, hbytes _ (by omega)]

include hpath

theorem splitNode_valid (hr : r < n.partialLen) (hnew : Below depth word new) (hlen : depth + r ≤ new.key.length)
    (hkey : ∀ i ≤ new.key.length, key i = new.byte i)
    (hsame : ∀ i < r, path (depth + i) = key (depth + i))
    (hdiff : path (depth + r) ≠ key (depth + r)) :
    ∃ t, splitNode n children key new depth r = some t ∧ Valid depth word t ∧
      Inserted (.node n children) new t := by
  obtain ⟨n', hshort, hchild, hold⟩ := shorten_valid hlayout hstored hnz hkids hr
  have hstored' : Stored (prefixNode r (copy (fun _ => 0) 0 n.partialKey 0 (min maxPrefixLen r)))
      fun i => path (depth + i) := by
    intro i hi
    change i < min maxPrefixLen r at hi
    change copy (fun _ => 0) 0 n.partialKey 0 (min maxPrefixLen r) i = _
    rw [copy_of_lt hi, hstored i (by omega)]
  have hleaf : Valid (depth + r + 1) (put path (depth + r) (key (depth + r))) (.leaf new) := by
    refine .leaf ⟨hnew.named, by omega, fun i hi => ?_⟩
    by_cases heq : i = depth + r
    · rw [heq, put_self, hkey _ hlen]
    · rw [put_of_ne _ _ heq]
      by_cases hlow : i < depth
      · rw [hnew.bytes i hlow, hpath i hlow]
      · obtain ⟨j, rfl⟩ : ∃ j, i = depth + j := ⟨i - depth, by omega⟩
        rw [hsame j (by omega), hkey _ (by omega)]
  have hnz' : ∀ i < depth + r, path i ≠ 0 := fun i hi => hnz i (by omega)
  obtain ⟨t, hpair, hren⟩ := pair_renewed r (copy (fun _ => 0) 0 n.partialKey 0 (min maxPrefixLen r))
    hdiff hold.ne_null hleaf.ne_null
  obtain ⟨hvalid, hholds⟩ := pair_valid hdiff hren hpath hstored' hnz' hold hleaf
  refine ⟨t, ?_, hvalid, fun l => (hholds l).trans ?_⟩
  · rw [splitNode, hshort, Option.bind_some]
    exact hpair
  · -- the names below the old node part from the new one
    have hother : ∀ l, Holds (.node n' children) l → l.key ≠ new.key := by
      intro l hl heq
      have hbyte := (hold.leaf_below hl).byte_child.2.1
      rw [ArtLeaf.byte, heq, ← ArtLeaf.byte, ← hkey _ hlen] at hbyte
      exact hdiff hbyte.symm
    have hsameHolds : Holds (.node n' children) l ↔ Holds (.node n children) l := by
      rw [holds_node, holds_node, hchild]
    constructor
    · rintro (hl | hl)
      · cases hl
        exact .inl rfl
      · exact .inr ⟨hsameHolds.mp hl, hother l hl⟩
    · rintro (rfl | ⟨hl, -⟩)
      · exact .inl (.leaf _)
      · exact .inr (hsameHolds.mpr hl)

omit hlayout in
theorem insert_below {t t₁ : Art β} {c : UInt8}
    (hren : Renewed n (update (child n children) c (some t₁)) t)
    (ht₁ : Valid (depth + n.partialLen + 1) (put path (depth + n.partialLen) c) t₁)
    (hbyte : new.byte (depth + n.partialLen) = c)
    (hholds : ∀ l, Holds t₁ l ↔
      l = new ∨ (∃ t₀, child n children c = some t₀ ∧ Holds t₀ l) ∧ l.key ≠ new.key) :
    Valid depth word t ∧ Inserted (.node n children) new t := by
  refine ⟨hren.valid hpath hstored hnz fun c' t' hc' => ?_, fun l => hren.holds.trans ?_⟩
  · by_cases heq : c' = c
    · rw [heq, update_self, Option.some.injEq] at hc'
      rw [heq, ← hc']
      exact ht₁
    · rw [update_of_ne heq] at hc'
      exact hkids c' t' hc'
  · rw [holds_node]
    constructor
    · rintro ⟨c', t', hc', hl⟩
      by_cases heq : c' = c
      · rw [heq, update_self, Option.some.injEq] at hc'
        rw [← hc'] at hl
        exact ((hholds l).mp hl).imp_right fun hold =>
          ⟨⟨c, hold.1.choose, hold.1.choose_spec⟩, hold.2⟩
      · rw [update_of_ne heq] at hc'
        refine .inr ⟨⟨c', t', hc', hl⟩, fun hname => heq ?_⟩
        have hl' := ((hkids c' t' hc').leaf_below hl).byte_child.2.1
        rw [ArtLeaf.byte, hname, ← ArtLeaf.byte, hbyte] at hl'
        exact hl'.symm
    · rintro (rfl | ⟨⟨c', t', hc', hl⟩, hname⟩)
      · exact ⟨c, t₁, update_self .., (hholds _).mpr (.inl rfl)⟩
      · by_cases heq : c' = c
        · rw [heq] at hc'
          exact ⟨c, t₁, update_self .., (hholds _).mpr (.inr ⟨⟨t', hc', hl⟩, hname⟩)⟩
        · exact ⟨c', t', (update_of_ne heq ..).trans hc', hl⟩

end Prefix

end Splits

section Insert
variable {depth : ℕ} {word path : ℕ → UInt8} {key : ℕ → UInt8} {name : List UInt8} {value : β}
  {new : ArtLeaf β} {t : Art β}

theorem recursiveInsert_valid (h : Valid depth word t) (hs : Spells key name)
    (hend : key name.length = 0) (hnew : Below depth word (⟨value, name⟩ : ArtLeaf β)) :
    ∃ t' old, recursiveInsert key name.length value t depth = some (t', old) ∧
      Valid depth word t' ∧ Inserted t ⟨value, name⟩ t' := by
  induction h with
  | @leaf depth word l hbelow =>
    rw [recursiveInsert]
    by_cases heq : l.key = name
    · rw [if_pos (hs.leafMatches.mpr heq)]
      subst heq
      refine ⟨_, _, rfl, .leaf hnew, fun l' => ?_⟩
      constructor
      · intro hl'
        cases hl'
        exact .inl rfl
      · rintro (rfl | ⟨hl', hne⟩)
        · exact .leaf _
        · cases hl'
          exact absurd rfl hne
    · rw [if_neg (mt hs.leafMatches.mp heq), hs.makeLeaf]
      obtain ⟨t', hsplit, hvalid, hins⟩ := splitLeaf_valid hbelow hnew heq hs
      rw [hsplit]
      exact ⟨t', none, rfl, hvalid, hins⟩
  | @node depth word n children path hlayout hpath hstored hnz hkids ih =>
    have hkey : ∀ i ≤ name.length, key i = name.getD i 0 := fun i => hs.byte hend
    have hdepth : depth ≤ name.length := by
      by_contra hlt
      have hbyte := hnew.bytes name.length (by omega)
      rw [← hpath _ (by omega)] at hbyte
      exact hnz name.length (by omega)
        (hbyte.symm.trans (List.getD_eq_default _ _ (Nat.le_refl _)))
    -- as long as the key goes along the path, the name has not ended
    have hlong : ∀ r ≤ n.partialLen, (∀ i < r, path (depth + i) = key (depth + i)) →
        depth + r ≤ name.length := by
      intro r hr hsame
      by_contra hlt
      have hzero := hsame (name.length - depth) (by omega)
      rw [Nat.add_sub_cancel' hdepth, hend] at hzero
      exact hnz name.length (by omega) hzero
    rw [recursiveInsert, hs.makeLeaf]
    by_cases hall : ∀ i < n.partialLen, path (depth + i) = key (depth + i)
    · have hlen := hlong n.partialLen (Nat.le_refl _) hall
      obtain ⟨diff, hmis, hle⟩ : ∃ diff, (if n.partialLen = 0 then some 0
          else prefixMismatch n children key name.length depth) = some diff ∧ n.partialLen ≤ diff := by
        by_cases hz : n.partialLen = 0
        · exact ⟨0, if_pos hz, by omega⟩
        · rw [if_neg hz]
          exact prefixMismatch_agrees hlayout hstored hkids hlen hall
      rw [hmis, Option.bind_some, if_pos hle]
      have hbyte : (⟨value, name⟩ : ArtLeaf β).byte (depth + n.partialLen) =
        key (depth + n.partialLen) := (hkey _ hlen).symm
      have hbelow : Below (depth + n.partialLen + 1)
          (put path (depth + n.partialLen) (key (depth + n.partialLen)))
            (⟨value, name⟩ : ArtLeaf β) := by
        refine ⟨hnew.named, Nat.succ_le_succ hlen, fun i hi => ?_⟩
        by_cases heq : i = depth + n.partialLen
        · rw [heq, put_self, hbyte]
        · rw [put_of_ne _ _ heq]
          by_cases hlow : i < depth
          · rw [hnew.bytes i hlow, hpath i hlow]
          · obtain ⟨j, rfl⟩ : ∃ j, i = depth + j := ⟨i - depth, by omega⟩
            rw [hall j (by omega), hkey _ (by omega)]
            rfl
      cases hfind : findChild n children (key (depth + n.partialLen)) with
      | some i =>
        have hc := child_of_findChild hfind
        obtain ⟨t₁, old, hins, hvalid, hholds⟩ := ih _ _ hc hbelow
        have hren := renewed_put hlayout hfind hvalid.ne_null
        obtain ⟨hv, hi⟩ := insert_below hpath hstored hnz hkids hren hvalid hbyte
          fun l => (hholds l).trans (by simp [hc])
        refine ⟨_, old, ?_, hv, hi⟩
        simp only [hins, Option.map_some]
      | none =>
        have hc : child n children (key (depth + n.partialLen)) = none := by
          rw [child, hfind, Option.map_none]
        obtain ⟨t', hadd, hren⟩ := addChild_renewed hlayout hc (Valid.leaf hbelow).ne_null
        obtain ⟨hv, hi⟩ := insert_below hpath hstored hnz hkids hren (.leaf hbelow) hbyte
          fun l => ⟨fun hl => by cases hl; exact .inl rfl, by
            rintro (rfl | ⟨⟨t₀, ht₀, -⟩, -⟩)
            · exact .leaf _
            · rw [hc] at ht₀
              cases ht₀⟩
        refine ⟨t', none, ?_, hv, hi⟩
        simp only [hadd, Option.map_some]
    · have hex : ∃ r, r < n.partialLen ∧ path (depth + r) ≠ key (depth + r) := by
        by_contra hnone
        refine hall fun i hi => ?_
        by_contra hdiff
        exact hnone ⟨i, hi, hdiff⟩
      have hsame : ∀ i < Nat.find hex, path (depth + i) = key (depth + i) := by
        intro i hi
        by_contra hdiff
        exact Nat.find_min hex hi ⟨hi.trans (Nat.find_spec hex).1, hdiff⟩
      obtain ⟨hr, hdiff⟩ := Nat.find_spec hex
      have hlen := hlong _ (Nat.le_of_lt hr) hsame
      have hmis := prefixMismatch_parts hlayout hstored hkids hr hlen hsame hdiff
      obtain ⟨t', hsplit, hv, hi⟩ := splitNode_valid hlayout hpath hstored hnz hkids hr hnew hlen hkey
        hsame hdiff
      rw [if_neg (by omega), hmis, Option.bind_some, if_neg (by omega), hsplit]
      exact ⟨t', none, rfl, hv, hi⟩

end Insert

end Aware.Dns
