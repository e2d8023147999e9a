import Aware.Lib.Bytes
import Aware.Lib.Strtoul

/-!
# Texts of JSON objects

The grammar of objects whose values are strings. Texts are bytes in UTF-8, and what a string
stands for is again its bytes. Every relation is between a text, what its first part stands for
and what is left of it.
-/
namespace Aware.JsonText

abbrev quote : UInt8 := 0x22
abbrev backslash : UInt8 := 0x5c
abbrev colon : UInt8 := 0x3a
abbrev comma : UInt8 := 0x2c
abbrev openBrace : UInt8 := 0x7b
abbrev closeBrace : UInt8 := 0x7d

def isWs (b : UInt8) : Bool :=
  b == 0x20 || b == 0x09 || b == 0x0a || b == 0x0d

def within (lo hi b : UInt8) : Bool :=
  lo ≤ b && b ≤ hi

def isCharacter : Bytes → Bool
  | [a] => within 0x00 0x7f a
  | [a, b] => within 0xc2 0xdf a && within 0x80 0xbf b
  | [a, b, c] =>
    (a == 0xe0 && within 0xa0 0xbf b || a == 0xed && within 0x80 0x9f b ||
      (within 0xe1 0xec a || within 0xee 0xef a) && within 0x80 0xbf b) && within 0x80 0xbf c
  | [a, b, c, d] =>
    (a == 0xf0 && within 0x90 0xbf b || a == 0xf4 && within 0x80 0x8f b ||
      within 0xf1 0xf3 a && within 0x80 0xbf b) && within 0x80 0xbf c && within 0x80 0xbf d
  | _ => false

def isUnescaped (u : Bytes) : Bool :=
  isCharacter u && u.all fun b => 0x20 ≤ b && b != quote && b != backslash

def simpleEscape (c : UInt8) : Option UInt8 :=
  [(quote, quote), (backslash, backslash), (0x2f, 0x2f), (0x62, 0x08), (0x66, 0x0c), (0x6e, 0x0a),
    (0x72, 0x0d), (0x74, 0x09)].lookup c

def hexFour : Bytes → Option ℕ
  | [a, b, c, d] => do
    let a ← Strtoul.hexVal a
    let b ← Strtoul.hexVal b
    let c ← Strtoul.hexVal c
    let d ← Strtoul.hexVal d
    return ((a * 16 + b) * 16 + c) * 16 + d
  | _ => none

def encode (n : ℕ) : Bytes :=
  let tail (k : ℕ) : UInt8 := UInt8.ofNat (0x80 + n / 64 ^ k % 64)
  if n < 0x80 then [UInt8.ofNat n]
  else if n < 0x800 then [UInt8.ofNat (0xc0 + n / 64), tail 0]
  else if n < 0x10000 then [UInt8.ofNat (0xe0 + n / 64 ^ 2), tail 1, tail 0]
  else [UInt8.ofNat (0xf0 + n / 64 ^ 3), tail 2, tail 1, tail 0]

inductive Escape : Bytes → Bytes → Prop
  | simple {c b : UInt8} (h : simpleEscape c = some b) : Escape [backslash, c] [b]
  | unit {ds : Bytes} {n : ℕ} (h : hexFour ds = some n) (hn : n < 0xd800 ∨ 0xe000 ≤ n) :
      Escape (backslash :: 0x75 :: ds) (encode n)
  | surrogates {ds es : Bytes} {hi lo : ℕ} (hhi : hexFour ds = some hi) (hlo : hexFour es = some lo)
      (hi_ge : 0xd800 ≤ hi) (hi_lt : hi < 0xdc00) (lo_ge : 0xdc00 ≤ lo) (lo_lt : lo < 0xe000) :
      Escape (backslash :: 0x75 :: (ds ++ backslash :: 0x75 :: es))
        (encode (0x10000 + (hi - 0xd800) * 0x400 + (lo - 0xdc00)))

/-- What stands between the quotes of a string, and the string. -/
inductive Chars : Bytes → Bytes → Prop
  | nil : Chars [] []
  | char {u raw val : Bytes} (hu : isUnescaped u = true) (h : Chars raw val) :
      Chars (u ++ raw) (u ++ val)
  | escape {e v raw val : Bytes} (he : Escape e v) (h : Chars raw val) : Chars (e ++ raw) (v ++ val)

inductive Plain : Bytes → Prop
  | nil : Plain []
  | char {u s : Bytes} (hu : isUnescaped u = true) (h : Plain s) : Plain (u ++ s)

def Ws (s t : Bytes) : Prop :=
  ∃ w, s = w ++ t ∧ ∀ b ∈ w, isWs b = true

def Sep (c : UInt8) (s t : Bytes) : Prop :=
  ∃ u, Ws s (c :: u) ∧ Ws u t

def Str (s val t : Bytes) : Prop :=
  ∃ raw, s = quote :: (raw ++ quote :: t) ∧ Chars raw val

inductive Members : Bytes → List (Bytes × Bytes) → Bytes → Prop
  | one {s s₁ s₂ k v t : Bytes} (hk : Str s k s₁) (hc : Sep colon s₁ s₂) (hv : Str s₂ v t) :
      Members s [(k, v)] t
  | more {s s₁ s₂ s₃ s₄ k v t : Bytes} {ms : List (Bytes × Bytes)} (hk : Str s k s₁)
      (hc : Sep colon s₁ s₂) (hv : Str s₂ v s₃) (hs : Sep comma s₃ s₄) (h : Members s₄ ms t) :
      Members s ((k, v) :: ms) t

/-- A text that is an object, with its members in the order of the text. -/
inductive Object : Bytes → List (Bytes × Bytes) → Prop
  | empty {s t : Bytes} (ho : Sep openBrace s t) (hc : Sep closeBrace t []) : Object s []
  | members {s t u : Bytes} {ms : List (Bytes × Bytes)} (ho : Sep openBrace s t)
      (h : Members t ms u) (hc : Sep closeBrace u []) : Object s ms

/-! ### Strings -/

theorem bounds_of_unescaped {u : Bytes} (hu : isUnescaped u = true) :
    u ≠ [] ∧ quote ∉ u ∧ backslash ∉ u := by
  rw [isUnescaped, Bool.and_eq_true, List.all_eq_true] at hu
  obtain ⟨hchar, hall⟩ := hu
  refine ⟨?_, ?_, ?_⟩
  · rintro rfl
    cases hchar
  · intro h
    exact absurd (hall _ h) (by decide)
  · intro h
    exact absurd (hall _ h) (by decide)

theorem hexFour_spec {ds : Bytes} {n : ℕ} (h : hexFour ds = some n) :
    ds.length = 4 ∧ ∀ b ∈ ds, (Strtoul.hexVal b).isSome := by
  unfold hexFour at h
  split at h
  · rename_i a b c d
    simp only [Option.bind_eq_bind, Option.bind_eq_some_iff] at h
    obtain ⟨_, ha, _, hb, _, hc, _, hd, _⟩ := h
    simp [ha, hb, hc, hd]
  · cases h

theorem quote_notMem_of_hexFour {ds : Bytes} {n : ℕ} (h : hexFour ds = some n) : quote ∉ ds :=
  fun hq => absurd ((hexFour_spec h).2 _ hq) (by decide)

theorem length_encode (n : ℕ) : (encode n).length ≤ 4 := by
  unfold encode
  split
  · simp
  · split
    · simp
    · split <;> simp

variable {v e val s t r : Bytes} {c : UInt8} {ms : List (Bytes × Bytes)}

theorem Escape.length_lt (h : Escape e v) : v.length < e.length := by
  cases h with
  | simple h => simp
  | unit h hn =>
    rename_i ds n
    have := length_encode n
    simp only [List.length_cons, (hexFour_spec h).1]
    omega
  | surrogates hhi hlo =>
    rename_i ds es hi lo _ _ _ _
    have := length_encode (0x10000 + (hi - 0xd800) * 0x400 + (lo - 0xdc00))
    simp only [List.length_cons, List.length_append, (hexFour_spec hhi).1]
    omega

theorem Escape.backslash_mem (h : Escape e v) : backslash ∈ e := by
  cases h <;> exact List.mem_cons_self

theorem Escape.eq_of_quote_mem (h : Escape e v) (hq : quote ∈ e) :
    e = [backslash, quote] ∧ v = [quote] := by
  cases h with
  | @simple c b h =>
    obtain hc | hc : quote = backslash ∨ quote = c := by simpa using hq
    · exact absurd hc (by decide)
    · subst hc
      exact ⟨rfl, by simpa [simpleEscape, eq_comm] using h⟩
  | unit h hn =>
    simp only [List.mem_cons, quote_notMem_of_hexFour h] at hq
    exact absurd hq (by decide)
  | surrogates hhi hlo =>
    simp only [List.mem_cons, List.mem_append, quote_notMem_of_hexFour hhi,
      quote_notMem_of_hexFour hlo] at hq
    exact absurd hq (by decide)

theorem Chars.length_le {raw : Bytes} (h : Chars raw val) : val.length ≤ raw.length := by
  induction h with
  | nil => exact Nat.le_refl _
  | char hu h ih =>
    simp only [List.length_append]
    omega
  | escape he h ih =>
    have := he.length_lt
    simp only [List.length_append]
    omega

theorem Chars.eq_of_length_le {raw : Bytes} (h : Chars raw val)
    (hlen : raw.length ≤ val.length) : val = raw ∧ Plain raw := by
  induction h with
  | nil => exact ⟨rfl, .nil⟩
  | char hu h ih =>
    simp only [List.length_append] at hlen
    obtain ⟨rfl, hplain⟩ := ih (by omega)
    exact ⟨rfl, .char hu hplain⟩
  | escape he h ih =>
    have := he.length_lt
    have := h.length_le
    simp only [List.length_append] at hlen
    omega

theorem Chars.eq_of_backslash_notMem {raw : Bytes} (h : Chars raw val)
    (hb : backslash ∉ raw) : val = raw := by
  induction h with
  | nil => rfl
  | char hu h ih => rw [ih (fun hmem => hb (List.mem_append_right _ hmem))]
  | escape he h ih => exact absurd (List.mem_append_left _ he.backslash_mem) hb

theorem Plain.chars (h : Plain s) : Chars s s := by
  induction h with
  | nil => exact .nil
  | char hu h ih => exact .char hu ih

theorem Plain.notMem (h : Plain s) : quote ∉ s ∧ backslash ∉ s := by
  induction h with
  | nil => simp
  | char hu h ih =>
    obtain ⟨_, hq, hb⟩ := bounds_of_unescaped hu
    simp [hq, hb, ih]

theorem plain_of_ascii
    (h : ∀ b ∈ s, 0x20 ≤ b ∧ b ≤ 0x7f ∧ b ≠ quote ∧ b ≠ backslash) : Plain s := by
  induction s with
  | nil => exact .nil
  | cons b s ih =>
    obtain ⟨⟨hlo, hhi, hq, hb⟩, hs⟩ := List.forall_mem_cons.mp h
    have hu : isUnescaped [b] = true := by
      simp [isUnescaped, isCharacter, within, hlo, hhi, hq, hb]
    exact .char hu (ih hs)

theorem Chars.of_quote {raw : Bytes} (h : Chars raw val) {a b : Bytes}
    (hraw : raw = a ++ quote :: b) :
    ∃ p vp vb, a = p ++ [backslash] ∧ Chars p vp ∧ Chars b vb ∧ val = vp ++ quote :: vb := by
  induction h generalizing a with
  | nil => simp at hraw
  | @char u raw val hu h ih =>
    rcases append_eq_append_cons hraw with ⟨a', rfl, ha'⟩ | ⟨c, rfl, -⟩
    · obtain ⟨p, vp, vb, rfl, hp, hb, rfl⟩ := ih ha'
      exact ⟨u ++ p, u ++ vp, vb, by simp, .char hu hp, hb, by simp⟩
    · exact absurd (by simp) (bounds_of_unescaped hu).2.1
  | @escape e v raw val he h ih =>
    rcases append_eq_append_cons hraw with ⟨a', rfl, ha'⟩ | ⟨c, rfl, rfl⟩
    · obtain ⟨p, vp, vb, rfl, hp, hb, rfl⟩ := ih ha'
      exact ⟨e ++ p, v ++ vp, vb, by simp, .escape he hp, hb, by simp⟩
    · obtain ⟨hesc, rfl⟩ := he.eq_of_quote_mem (by simp)
      -- the escape has two bytes, so the quote is its second one
      obtain ⟨rfl, rfl⟩ : a = [backslash] ∧ c = [] := by
        rcases List.append_eq_cons_iff.mp hesc with ⟨-, hq⟩ | ⟨a', rfl, ha'⟩
        · exact absurd (List.cons.inj hq).1 (by decide)
        · rcases List.append_eq_cons_iff.mp ha'.symm with ⟨rfl, hq⟩ | ⟨_, _, hnil⟩
          · exact ⟨rfl, (List.cons.inj hq).2⟩
          · simp at hnil
      exact ⟨[], [], val, rfl, .nil, h, rfl⟩

theorem Str.cases (h : Str (quote :: (v ++ quote :: r)) val t) :
    (Chars v val ∧ t = r) ∨ (∃ raw a, v = raw ++ quote :: a ∧ Chars raw val) ∨
      ∃ b, Chars (v ++ quote :: b) val ∧ r = b ++ quote :: t := by
  obtain ⟨raw, hs, hraw⟩ := h
  rcases append_cons_eq_append_cons (List.cons.inj hs).2.symm with ⟨rfl, rfl⟩ | ⟨a, rfl⟩ | ⟨b, rfl, hr⟩
  · exact .inl ⟨hraw, rfl⟩
  · exact .inr (.inl ⟨raw, a, rfl, hraw⟩)
  · exact .inr (.inr ⟨b, hraw, hr⟩)

theorem Str.of_plain (hv : Plain v) : Str (quote :: (v ++ quote :: r)) val t ↔ val = v ∧ t = r := by
  obtain ⟨hq, hb⟩ := hv.notMem
  constructor
  · intro h
    rcases h.cases with ⟨hval, ht⟩ | ⟨raw, a, rfl, -⟩ | ⟨b, hval, -⟩
    · exact ⟨hval.eq_of_backslash_notMem hb, ht⟩
    · simp at hq
    · obtain ⟨p, _, _, rfl, _⟩ := hval.of_quote rfl
      simp at hb
  · rintro ⟨rfl, rfl⟩
    exact ⟨val, rfl, hv.chars⟩

def Quiet (r : Bytes) : Prop :=
  ∃ c r', r = c ++ r' ∧ backslash ∉ c ∧ quote ∉ c ∧ (r' = [] ∨ ∃ r'', r' = quote :: r'')

theorem Quiet.notMem_of_chars {b vb : Bytes} (hr : Quiet r) (h : r = b ++ quote :: t)
    (hb : Chars b vb) : backslash ∉ b := by
  obtain ⟨c, r', rfl, hback, hq, hend⟩ := hr
  rcases append_eq_append_cons h with ⟨b', rfl, hb'⟩ | ⟨c', rfl, -⟩
  · rcases hend with rfl | ⟨r'', rfl⟩
    · simp at hb'
    · rcases List.append_eq_cons_iff.mp hb'.symm with ⟨rfl, -⟩ | ⟨b'', rfl, -⟩
      · rwa [List.append_nil]
      · -- the quote after `c` would have to be escaped
        obtain ⟨p, _, _, rfl, _⟩ := hb.of_quote rfl
        simp at hback
  · simp at hq

/-- Bytes that stand between two quotes and are read as themselves have no need of escapes, and
the string ends where they end. -/
theorem Str.self (hr : Quiet r) (h : Str (quote :: (v ++ quote :: r)) v t) : Plain v ∧ t = r := by
  rcases h.cases with ⟨hval, ht⟩ | ⟨raw, a, hv, hval⟩ | ⟨b, hval, hrt⟩
  · exact ⟨(hval.eq_of_length_le (Nat.le_refl _)).2, ht⟩
  · have hle := hval.length_le
    rw [hv, List.length_append, List.length_cons] at hle
    omega
  · obtain ⟨p, vp, vb, rfl, hp, hb, heq⟩ := hval.of_quote rfl
    have hback := hr.notMem_of_chars hrt hb
    rw [hb.eq_of_backslash_notMem hback] at heq
    -- the backslash at the end of the bytes would be a quote or one of `b`
    rcases append_eq_append_cons heq with ⟨a, -, ha⟩ | ⟨c, -, rfl⟩
    · rcases List.append_eq_cons_iff.mp ha.symm with ⟨rfl, hq⟩ | ⟨a', rfl, hnil⟩
      · exact absurd (List.cons.inj hq).1 (by decide)
      · simp at hnil
    · simp at hback

/-! ### White space -/

theorem Ws.refl (s : Bytes) : Ws s s :=
  ⟨[], rfl, by simp⟩

theorem Ws.eq_of_head (hc : isWs c = false) (h : Ws (c :: s) t) : t = c :: s := by
  obtain ⟨w, hs, hw⟩ := h
  rcases List.append_eq_cons_iff.mp hs.symm with ⟨-, ht⟩ | ⟨w', rfl, -⟩
  · exact ht
  · exact absurd (hw c List.mem_cons_self) (by simp [hc])

theorem Sep.intro (s : Bytes) : Sep c (c :: s) s :=
  ⟨s, .refl _, .refl s⟩

theorem Sep.eq_of_head {d : UInt8} (hd : isWs d = false) (h : Sep c (d :: s) t) :
    c = d ∧ Ws s t := by
  obtain ⟨u, hs, hu⟩ := h
  obtain ⟨rfl, rfl⟩ := List.cons.inj (hs.eq_of_head hd)
  exact ⟨rfl, hu⟩

/-! ### Members -/

theorem Members.uncons (h : Members s ms t) :
    ∃ k v ms' s₁ s₂ s₃, ms = (k, v) :: ms' ∧ Str s k s₁ ∧ Sep colon s₁ s₂ ∧ Str s₂ v s₃ ∧
      (s₃ = t ∨ ∃ s₄, Sep comma s₃ s₄ ∧ Members s₄ ms' t) := by
  cases h with
  | one hk hc hv => exact ⟨_, _, _, _, _, _, rfl, hk, hc, hv, .inl rfl⟩
  | more hk hc hv hs h => exact ⟨_, _, _, _, _, _, rfl, hk, hc, hv, .inr ⟨_, hs, h⟩⟩

theorem Members.head (h : Members s ms t) : s.head? = some quote := by
  obtain ⟨_, _, _, _, _, _, -, ⟨_, rfl, -⟩, -⟩ := h.uncons
  rfl

end Aware.JsonText
