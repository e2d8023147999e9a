import Aware.Lib.Bytes

/-!
# String literals in the texts of statements

A reader of SQL texts is known here only by what it does with string literals: they are between single
quotes, two quotes stand for one of the string, and the text ends with its first zero byte.
-/
namespace Aware.SqlText

abbrev quote : UInt8 := 0x27

/-- What stands between the quotes of a string, and the string. -/
inductive Raw : Bytes → Bytes → Prop
  | nil : Raw [] []
  | byte {c : UInt8} {raw val : Bytes} (hq : c ≠ quote) (h0 : c ≠ 0) (h : Raw raw val) :
      Raw (c :: raw) (c :: val)
  | pair {raw val : Bytes} (h : Raw raw val) : Raw (quote :: quote :: raw) (quote :: val)

def Clean (v : Bytes) : Prop :=
  quote ∉ v ∧ 0 ∉ v

instance (v : Bytes) : Decidable (Clean v) :=
  inferInstanceAs (Decidable (_ ∧ _))

theorem clean_nil : Clean [] :=
  ⟨List.not_mem_nil, List.not_mem_nil⟩

variable {v val r p : Bytes} {xs : List (Bytes × Bytes)}

theorem clean_cons {c : UInt8} : Clean (c :: v) ↔ (c ≠ quote ∧ c ≠ 0) ∧ Clean v := by
  simp only [Clean, List.mem_cons, not_or]
  tauto

theorem Raw.length_le {raw : Bytes} (h : Raw raw val) : val.length ≤ raw.length := by
  induction h with
  | nil => exact Nat.le_refl _
  | byte hq h0 h ih => exact Nat.succ_le_succ ih
  | pair h ih =>
    simp only [List.length_cons]
    omega

theorem Raw.clean_of_length_le {raw : Bytes} (h : Raw raw val)
    (hlen : raw.length ≤ val.length) : Clean raw := by
  induction h with
  | nil => exact ⟨by simp, by simp⟩
  | byte hq h0 h ih => exact clean_cons.mpr ⟨⟨hq, h0⟩, ih (Nat.le_of_succ_le_succ hlen)⟩
  | pair h ih =>
    have := h.length_le
    simp only [List.length_cons] at hlen
    omega

theorem Raw.eq_of_notMem {raw : Bytes} (h : Raw raw val) (hq : quote ∉ raw) : val = raw := by
  induction h with
  | nil => rfl
  | byte _ _ _ ih => rw [ih fun hmem => hq (List.mem_cons_of_mem _ hmem)]
  | pair => simp at hq

theorem Raw.of_quote {raw : Bytes} (h : Raw raw val) {a b : Bytes} (hraw : raw = a ++ quote :: b) :
    (∃ p vp vb, a = p ++ [quote] ∧ Raw p vp ∧ Raw b vb ∧ val = vp ++ quote :: vb) ∨
      b.head? = some quote := by
  induction h generalizing a with
  | nil => simp at hraw
  | @byte c raw val hq h0 h ih =>
    cases a with
    | nil => exact absurd (List.cons.inj hraw).1 hq
    | cons d a =>
      obtain ⟨rfl, htail⟩ := List.cons.inj hraw
      rcases ih htail with ⟨p, vp, vb, rfl, hp, hb, rfl⟩ | hb
      · exact .inl ⟨c :: p, c :: vp, vb, rfl, .byte hq h0 hp, hb, rfl⟩
      · exact .inr hb
  | @pair raw val h ih =>
    rcases a with _ | ⟨d, _ | ⟨e, a⟩⟩
    · obtain ⟨-, rfl⟩ := List.cons.inj hraw
      exact .inr rfl
    · simp only [List.cons_append, List.nil_append, List.cons.injEq] at hraw
      obtain ⟨rfl, -, rfl⟩ := hraw
      exact .inl ⟨[], [], val, rfl, .nil, h, rfl⟩
    · simp only [List.cons_append, List.cons.injEq] at hraw
      obtain ⟨rfl, rfl, htail⟩ := hraw
      rcases ih htail with ⟨p, vp, vb, rfl, hp, hb, rfl⟩ | hb
      · exact .inl ⟨quote :: quote :: p, quote :: vp, vb, rfl, .pair hp, hb, rfl⟩
      · exact .inr hb

def Quiet (r : Bytes) : Prop :=
  ∃ c x, r = c ++ x ∧ quote ∉ c ∧
    (x = [] ∨ c ≠ [] ∧ ∃ y, x = quote :: y ∧ y.head? ≠ some quote)

theorem Quiet.head (hr : Quiet r) : r.head? ≠ some quote := by
  obtain ⟨c, x, rfl, hc, hx⟩ := hr
  rcases hx with rfl | ⟨hne, -⟩
  · rw [List.append_nil]
    exact fun h => hc (List.mem_of_head? h)
  · rw [List.head?_append_of_ne_nil _ hne]
    exact fun h => hc (List.mem_of_head? h)

theorem Quiet.of_raw {b t vb : Bytes} (hr : Quiet r) (h : r = b ++ quote :: t) (hb : Raw b vb) :
    b ≠ [] ∧ quote ∉ b := by
  obtain ⟨c, x, rfl, hc, hx⟩ := hr
  rcases append_eq_append_cons h with ⟨b', rfl, hb'⟩ | ⟨c', rfl, -⟩
  · rcases hx with rfl | ⟨hne, y, rfl, hy⟩
    · simp at hb'
    · rcases List.append_eq_cons_iff.mp hb'.symm with ⟨rfl, -⟩ | ⟨b'', rfl, hy'⟩
      · rw [List.append_nil]
        exact ⟨hne, hc⟩
      · rcases hb.of_quote rfl with ⟨p, _, _, rfl, _⟩ | hhead
        · simp at hc
        · rw [hy', List.head?_append, hhead] at hy
          exact absurd rfl hy
  · simp at hc

/-- Bytes between quotes that are read as themselves are clean, and the string ends where they
end. -/
theorem Raw.self {raw t : Bytes} (h : Raw raw v) (hr : Quiet r)
    (heq : raw ++ quote :: t = v ++ quote :: r) : Clean v ∧ t = r := by
  rcases append_cons_eq_append_cons heq with ⟨rfl, rfl⟩ | ⟨a, ha⟩ | ⟨b, hraw, hrt⟩
  · exact ⟨h.clean_of_length_le (Nat.le_refl _), rfl⟩
  · have hle := h.length_le
    rw [ha, List.length_append, List.length_cons] at hle
    omega
  · rcases h.of_quote hraw with ⟨p, vp, vb, rfl, hp, hb, hv⟩ | hhead
    · obtain ⟨hne, hq⟩ := hr.of_raw hrt hb
      rw [hb.eq_of_notMem hq] at hv
      -- the quote at the end of the bytes would be one of `b`
      rcases append_eq_append_cons hv with ⟨a, -, ha⟩ | ⟨c, -, rfl⟩
      · rcases List.append_eq_cons_iff.mp ha.symm with ⟨rfl, hb'⟩ | ⟨a', rfl, hnil⟩
        · exact absurd (List.cons.inj hb').2 hne
        · simp at hnil
      · simp at hq
    · refine absurd ?_ hr.head
      rw [hrt, List.head?_append, hhead, Option.some_or]

/-! ### Texts with literals -/

def isWordByte (c : UInt8) : Bool :=
  0x61 ≤ c && c ≤ 0x7a || 0x41 ≤ c && c ≤ 0x5a || 0x30 ≤ c && c ≤ 0x39 || c == 0x5f

def isPlain (c : UInt8) : Bool :=
  isWordByte c || c ∈ [0x20, 0x28, 0x29, 0x2c, 0x3d, 0x2a]

/-- What stands before a literal. It does not end with a word, which could belong to the literal. -/
def Gap (p : Bytes) : Prop :=
  (∀ c ∈ p, isPlain c = true) ∧ p.getLast?.any (fun c => !isWordByte c) = true

instance (p : Bytes) : Decidable (Gap p) :=
  inferInstanceAs (Decidable (_ ∧ _))

/-- A text of literals with the gaps before them, and of what comes after the last one. -/
def woven (tail : Bytes) : List (Bytes × Bytes) → Bytes
  | [] => tail
  | x :: xs => x.1 ++ quote :: (x.2 ++ quote :: woven tail xs)

/-- A reader of texts: the statement, in whatever form, and its literals. -/
structure Reader (σ : Type) where
  read : Bytes → Option (σ × List Bytes)
  /-- A literal ends at a quote, and what is before that is read as the literal. -/
  literal {xs : List (Bytes × Bytes)} {gap body : Bytes} {s : σ} {vals : List Bytes}
    (hxs : ∀ x ∈ xs, Gap x.1 ∧ Clean x.2) (hgap : Gap gap)
    (h : read (woven (gap ++ quote :: body) xs) = some (s, vals)) :
    ∃ raw v rest more, body = raw ++ quote :: rest ∧ Raw raw v ∧ vals = xs.map Prod.snd ++ v :: more
  /-- The statement does not depend on what is in the literals. -/
  uniform {tail : Bytes} {xs ys : List (Bytes × Bytes)} {s : σ} {vals : List Bytes}
    (htail : ∀ c ∈ tail, isPlain c = true) (hxs : ∀ x ∈ xs, Gap x.1 ∧ Clean x.2)
    (hys : ∀ y ∈ ys, Clean y.2) (hgaps : xs.map Prod.fst = ys.map Prod.fst)
    (h : read (woven tail xs) = some (s, vals)) : read (woven tail ys) = some (s, ys.map Prod.snd)

def Reader.shape {σ : Type} (R : Reader σ) (tail : Bytes) (gaps : List Bytes) : Option σ :=
  (R.read (woven tail (gaps.map fun g => (g, [])))).map Prod.fst

/-- After a literal that may be anything comes one that is known. -/
def Spaced : List (Bytes × Bytes) → Prop
  | [] => True
  | x :: xs => (Clean x.2 ∨ ∀ y ∈ xs.head?, Clean y.2 ∧ y.2 ≠ []) ∧ Spaced xs

theorem quote_notMem (h : ∀ c ∈ p, isPlain c = true) : quote ∉ p :=
  fun hq => absurd (h _ hq) (by decide)

theorem Gap.ne_nil (h : Gap p) : p ≠ [] := by
  rintro rfl
  exact absurd h.2 (by decide)

theorem woven_append (tail : Bytes) (xs ys : List (Bytes × Bytes)) :
    woven tail (xs ++ ys) = woven (woven tail ys) xs := by
  induction xs with
  | nil => rfl
  | cons x xs ih => rw [List.cons_append, woven, woven, ih]

theorem quiet_woven {tail : Bytes} (htail : ∀ c ∈ tail, isPlain c = true)
    (hxs : ∀ x ∈ xs, Gap x.1) (hhead : ∀ y ∈ xs.head?, Clean y.2 ∧ y.2 ≠ []) : Quiet (woven tail xs) := by
  cases xs with
  | nil => exact ⟨tail, [], (List.append_nil _).symm, quote_notMem htail, .inl rfl⟩
  | cons x xs =>
    obtain ⟨hclean, hne⟩ := hhead x rfl
    have hgap := hxs x List.mem_cons_self
    refine ⟨x.1, _, rfl, quote_notMem hgap.1, .inr ⟨hgap.ne_nil, _, rfl, ?_⟩⟩
    rw [List.head?_append_of_ne_nil _ hne]
    exact fun h => hclean.1 (List.mem_of_head? h)

section Reads
variable {σ : Type} (R : Reader σ) {tail : Bytes} {s : σ}
variable {xs : List (Bytes × Bytes)}

theorem Reader.clean_of_read (htail : ∀ c ∈ tail, isPlain c = true) {done : List (Bytes × Bytes)}
    (hdone : ∀ x ∈ done, Gap x.1 ∧ Clean x.2) (hxs : ∀ x ∈ xs, Gap x.1) (hspaced : Spaced xs)
    (h : R.read (woven tail (done ++ xs)) = some (s, (done ++ xs).map Prod.snd)) :
    ∀ x ∈ xs, Clean x.2 := by
  induction xs generalizing done with
  | nil => exact fun x hx => absurd hx List.not_mem_nil
  | cons x xs ih =>
    obtain ⟨hgap, hrest⟩ := List.forall_mem_cons.mp hxs
    obtain ⟨hfirst, hspaced⟩ := hspaced
    have hclean : Clean x.2 := by
      rcases hfirst with hclean | hnext
      · exact hclean
      · have hread := h
        rw [woven_append, woven] at hread
        obtain ⟨raw, v, rest, more, hbody, hraw, hvals⟩ := R.literal hdone hgap hread
        rw [List.map_append, List.map_cons, List.append_cancel_left_eq] at hvals
        obtain ⟨rfl, -⟩ := List.cons.inj hvals
        exact (hraw.self (quiet_woven htail hrest hnext) hbody.symm).1
    have hdone' : ∀ y ∈ done ++ [x], Gap y.1 ∧ Clean y.2 :=
      List.forall_mem_append.mpr ⟨hdone, List.forall_mem_singleton.mpr ⟨hgap, hclean⟩⟩
    refine List.forall_mem_cons.mpr ⟨hclean, ih hdone' hrest hspaced ?_⟩
    rw [List.append_assoc]
    exact h

/-- A text is read as the statement with its literals exactly when these are clean. -/
theorem Reader.read_iff (htail : ∀ c ∈ tail, isPlain c = true)
    (hxs : ∀ x ∈ xs, Gap x.1) (hspaced : Spaced xs) (hshape : R.shape tail (xs.map Prod.fst) = some s) :
    R.read (woven tail xs) = some (s, xs.map Prod.snd) ↔ ∀ x ∈ xs, Clean x.2 := by
  constructor
  · have hnone : ∀ x ∈ ([] : List (Bytes × Bytes)), Gap x.1 ∧ Clean x.2 := List.forall_mem_nil _
    exact fun h => R.clean_of_read htail hnone hxs hspaced h
  · intro hclean
    obtain ⟨⟨s', vals⟩, hread, rfl⟩ := Option.map_eq_some_iff.mp hshape
    refine R.uniform htail (fun y hy => ?_) hclean ?_ hread
    · simp only [List.mem_map] at hy
      obtain ⟨_, ⟨x, hx, rfl⟩, rfl⟩ := hy
      exact ⟨hxs x hx, clean_nil⟩
    · simp [Function.comp_def]

end Reads

/-! ### A reader -/

inductive Mode where
  | out
  | lit (v : Bytes)
  | closed (v : Bytes)

def quotesFrom : Mode → Bytes → Option (List (Option UInt8) × List Bytes)
  | .out, [] => some ([], [])
  | .out, c :: text =>
    if c = quote then quotesFrom (.lit []) text
    else (quotesFrom .out text).map fun p => (some c :: p.1, p.2)
  | .lit _, [] => none
  | .lit v, c :: text =>
    if c = quote then quotesFrom (.closed v) text
    else if c = 0 then none
    else quotesFrom (.lit (v ++ [c])) text
  | .closed v, [] => some ([none], [v])
  | .closed v, c :: text =>
    if c = quote then quotesFrom (.lit (v ++ [c])) text
    else (quotesFrom .out text).map fun p => (none :: some c :: p.1, v :: p.2)

theorem quotesFrom_plain (hp : quote ∉ p) (text : Bytes) :
    quotesFrom .out (p ++ text) = (quotesFrom .out text).map fun r => (p.map some ++ r.1, r.2) := by
  induction p with
  | nil => exact Option.map_id'.symm
  | cons c p ih =>
    obtain ⟨hc, hp⟩ := not_or.mp (mt List.mem_cons.mpr hp)
    rw [List.cons_append, quotesFrom, if_neg (Ne.symm hc), ih hp, Option.map_map]
    rfl

theorem quotesFrom_closed (v : Bytes) {text : Bytes} (h : text.head? ≠ some quote) :
    quotesFrom (.closed v) text = (quotesFrom .out text).map fun r => (none :: r.1, v :: r.2) := by
  cases text with
  | nil => rfl
  | cons c text =>
    have hc : c ≠ quote := fun hc => h (congrArg some hc)
    rw [quotesFrom, quotesFrom, if_neg hc, if_neg hc, Option.map_map]
    rfl

theorem quotesFrom_clean (hv : Clean v) (acc text : Bytes) :
    quotesFrom (.lit acc) (v ++ quote :: text) = quotesFrom (.closed (acc ++ v)) text := by
  induction v generalizing acc with
  | nil => rw [List.append_nil, List.nil_append, quotesFrom, if_pos rfl]
  | cons c v ih =>
    obtain ⟨⟨hq, h0⟩, hv⟩ := clean_cons.mp hv
    rw [List.cons_append, quotesFrom, if_neg hq, if_neg h0, ih hv, List.append_assoc, List.singleton_append]

theorem quotesFrom_lit {text acc : Bytes} {r : List (Option UInt8) × List Bytes}
    (h : quotesFrom (.lit acc) text = some r) :
    ∃ raw val rest more, text = raw ++ quote :: rest ∧ Raw raw val ∧ r.2 = (acc ++ val) :: more := by
  -- two quotes are read at once, so the induction is on the length
  induction hn : text.length using Nat.strong_induction_on generalizing text acc with
  | _ n ih =>
    cases text with
    | nil => cases h
    | cons c text =>
      rw [quotesFrom] at h
      split_ifs at h with hc h0
      · by_cases hhead : text.head? = some quote
        · obtain ⟨text, rfl⟩ := List.head?_eq_some_iff.mp hhead
          rw [quotesFrom, if_pos rfl] at h
          obtain ⟨raw, val, rest, more, rfl, hraw, hr⟩ := ih text.length
            (by simp only [List.length_cons] at hn; omega) h rfl
          exact ⟨quote :: quote :: raw, quote :: val, rest, more, by rw [hc]; rfl, .pair hraw, by simpa using hr⟩
        · rw [quotesFrom_closed acc hhead] at h
          obtain ⟨r', -, rfl⟩ := Option.map_eq_some_iff.mp h
          exact ⟨[], [], text, r'.2, by rw [hc]; rfl, .nil, by rw [List.append_nil]⟩
      · obtain ⟨raw, val, rest, more, rfl, hraw, hr⟩ := ih text.length
          (by simp only [List.length_cons] at hn; omega) h rfl
        exact ⟨c :: raw, c :: val, rest, more, rfl, .byte hc h0 hraw, by simpa using hr⟩

def frame (gaps : List Bytes) : List (Option UInt8) :=
  gaps.flatMap fun g => g.map some ++ [none]

theorem head_woven {tail : Bytes} (htail : tail.head? ≠ some quote)
    (hxs : ∀ x ∈ xs, Gap x.1) : (woven tail xs).head? ≠ some quote := by
  cases xs with
  | nil => exact htail
  | cons x xs =>
    have hgap := hxs x List.mem_cons_self
    rw [woven, List.head?_append_of_ne_nil _ hgap.ne_nil]
    exact fun h => quote_notMem hgap.1 (List.mem_of_head? h)

theorem quotesFrom_woven {tail : Bytes} (htail : tail.head? ≠ some quote)
    (hxs : ∀ x ∈ xs, Gap x.1 ∧ Clean x.2) :
    quotesFrom .out (woven tail xs) = (quotesFrom .out tail).map fun r =>
      (frame (xs.map Prod.fst) ++ r.1, xs.map Prod.snd ++ r.2) := by
  induction xs with
  | nil => exact Option.map_id'.symm
  | cons x xs ih =>
    obtain ⟨⟨hgap, hclean⟩, hxs⟩ := List.forall_mem_cons.mp hxs
    rw [woven, quotesFrom_plain (quote_notMem hgap.1), quotesFrom, if_pos rfl, quotesFrom_clean hclean,
      quotesFrom_closed _ (head_woven htail fun y hy => (hxs y hy).1), ih hxs, Option.map_map, Option.map_map]
    congr 1
    funext r
    simp [frame]

def quotesOnly : Reader (List (Option UInt8)) where
  read := quotesFrom .out
  literal {xs gap body s vals} hxs hgap h := by
    have hhead : (gap ++ quote :: body).head? ≠ some quote := by
      rw [List.head?_append_of_ne_nil _ hgap.ne_nil]
      exact fun h => quote_notMem hgap.1 (List.mem_of_head? h)
    rw [quotesFrom_woven hhead hxs, quotesFrom_plain (quote_notMem hgap.1), quotesFrom, if_pos rfl] at h
    obtain ⟨r, hr, heq⟩ := Option.map_eq_some_iff.mp h
    obtain ⟨r', hr', rfl⟩ := Option.map_eq_some_iff.mp hr
    obtain ⟨raw, v, rest, more, rfl, hraw, hmore⟩ := quotesFrom_lit hr'
    refine ⟨raw, v, rest, more, rfl, hraw, ?_⟩
    rw [← (Prod.mk.inj heq).2, hmore, List.nil_append]
  uniform {tail xs ys s vals} htail hxs hys hgaps h := by
    have hhead : tail.head? ≠ some quote := fun h => quote_notMem htail (List.mem_of_head? h)
    have hys' : ∀ y ∈ ys, Gap y.1 ∧ Clean y.2 := by
      intro y hy
      have hmem : y.1 ∈ xs.map Prod.fst := hgaps ▸ List.mem_map_of_mem hy
      obtain ⟨x, hx, hxy⟩ := List.mem_map.mp hmem
      exact ⟨hxy ▸ (hxs x hx).1, hys y hy⟩
    have hend := quotesFrom_plain (quote_notMem htail) []
    rw [List.append_nil] at hend
    rw [quotesFrom_woven hhead hxs, hend] at h
    rw [quotesFrom_woven hhead hys', hend, ← hgaps]
    cases h
    simp [quotesFrom]

theorem shape_quotesOnly {tail : Bytes} {gaps : List Bytes} (htail : ∀ c ∈ tail, isPlain c = true)
    (hgaps : ∀ g ∈ gaps, Gap g) : (quotesOnly.shape tail gaps).isSome := by
  have hhead : tail.head? ≠ some quote := fun h => quote_notMem htail (List.mem_of_head? h)
  have hend := quotesFrom_plain (quote_notMem htail) []
  rw [List.append_nil] at hend
  have hread : quotesOnly.read (woven tail (gaps.map fun g => (g, []))) = _ :=
    quotesFrom_woven hhead (List.forall_mem_map.mpr fun g hg => ⟨hgaps g hg, clean_nil⟩)
  rw [Reader.shape, hread, hend]
  rfl

end Aware.SqlText
