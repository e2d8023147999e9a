import Aware.Lib.JsonText
import Mathlib.Data.List.TakeWhile

/-!
# The parameters of a path

What `get_parament` makes of the parameters of a path, for the handlers to parse. Names and values
are byte strings.
-/
namespace Aware.Rest

open JsonText

def isWord (b : UInt8) : Bool :=
  within 0x30 0x39 b || within 0x41 0x5a b || within 0x61 0x7a b || b == 0x5f

/-- The names between a brace and a colon in a path, the matches of `[{](\w+)[:]`. -/
def parsePrs : Bytes → List Bytes
  | [] => []
  | c :: s =>
    let name := s.takeWhile isWord
    if c = openBrace ∧ name ≠ [] ∧ (s.dropWhile isWord).head? = some colon then
      name :: parsePrs s
    else parsePrs s

section GetParament
variable (value : Bytes → Bytes)

def quoted (name str : Bytes) : Bytes :=
  quote :: (name ++ quote :: colon :: quote :: (str ++ [quote]))

def paramentStep (rcs name : Bytes) : Bytes :=
  let rcs := if rcs.length ≠ 1 then rcs ++ [comma] else rcs
  if (value name).length ≠ 0 then rcs ++ quoted name (value name) else rcs

def getParament (names : List Bytes) : Bytes :=
  names.foldl (paramentStep value) [openBrace] ++ [closeBrace]

/-- The text is an object that maps the names with a value to their values, and no others. -/
def Denotes (text : Bytes) (names : List Bytes) : Prop :=
  ∃ ms, Object text ms ∧ (∀ k, k ∈ ms.map Prod.fst ↔ k ∈ names ∧ value k ≠ []) ∧
    ∀ m ∈ ms, m.2 = value m.1

def fromFirst (names : List Bytes) : List Bytes :=
  names.dropWhile fun n => (value n).length == 0

def following : List Bytes → Bytes
  | [] => [closeBrace]
  | n :: ns =>
    comma :: ((if (value n).length ≠ 0 then quoted n (value n) else []) ++ following ns)

def inside : List Bytes → Bytes
  | [] => [closeBrace]
  | n :: ns => quoted n (value n) ++ following value ns

variable {value}

theorem foldl_paramentStep (names : List Bytes) {rcs : Bytes} (h : 1 < rcs.length) :
    names.foldl (paramentStep value) rcs ++ [closeBrace] = rcs ++ following value names := by
  induction names generalizing rcs with
  | nil => rfl
  | cons n names ih =>
    have hstep : paramentStep value rcs n =
        rcs ++ comma :: (if (value n).length ≠ 0 then quoted n (value n) else []) := by
      simp only [paramentStep, if_pos (Nat.ne_of_gt h)]
      split
      · rw [List.append_assoc]
        rfl
      · rfl
    have hlen : 1 < (paramentStep value rcs n).length := by
      rw [hstep, List.length_append]
      omega
    rw [List.foldl_cons, ih hlen, hstep, following, List.append_assoc, List.cons_append]

theorem getParament_eq (names : List Bytes) :
    getParament value names = openBrace :: inside value (fromFirst value names) := by
  rw [getParament, fromFirst]
  induction names with
  | nil => rfl
  | cons n names ih =>
    rw [List.foldl_cons, List.dropWhile_cons]
    by_cases hn : (value n).length = 0
    · have hstep : paramentStep value [openBrace] n = [openBrace] := by
        simp [paramentStep, hn]
      rw [hstep, ih, if_pos (by simp [hn])]
    · have hstep : paramentStep value [openBrace] n = openBrace :: quoted n (value n) := by
        simp [paramentStep, hn]
      rw [hstep, foldl_paramentStep names (by simp [quoted]), if_neg (by simp [hn]), inside]
      rfl

theorem quoted_append (n v r : Bytes) :
    quoted n v ++ r = quote :: (n ++ quote :: colon :: quote :: (v ++ quote :: r)) := by
  simp [quoted]

theorem quiet_following (ns : List Bytes) : Quiet (following value ns) := by
  induction ns with
  | nil => exact ⟨[closeBrace], [], rfl, by decide, by decide, .inl rfl⟩
  | cons n ns ih =>
    rw [following]
    split
    · rw [quoted_append]
      exact ⟨[comma], _, rfl, by decide, by decide, .inr ⟨_, rfl⟩⟩
    · obtain ⟨c, r, hc, hback, hquote, hr⟩ := ih
      refine ⟨comma :: c, r, by rw [List.nil_append, hc, List.cons_append], ?_, ?_, hr⟩
      · rw [List.mem_cons, not_or]
        exact ⟨by decide, hback⟩
      · rw [List.mem_cons, not_or]
        exact ⟨by decide, hquote⟩

theorem head_following (value : Bytes → Bytes) (ns : List Bytes) :
    ∃ c s, following value ns = c :: s ∧ isWs c = false ∧ c ≠ quote := by
  cases ns with
  | nil => exact ⟨closeBrace, [], rfl, by decide, by decide⟩
  | cons n ns => exact ⟨comma, _, rfl, by decide, by decide⟩

variable {n k : Bytes} {ns : List Bytes}

theorem first_member {r v s₁ s₂ t : Bytes} (hn : Plain n) (hr : Quiet r)
    (hk : Str (quoted n (value n) ++ r) k s₁) (hc : Sep colon s₁ s₂) (hv : Str s₂ v t)
    (hval : v = value k) : Plain (value n) ∧ t = r := by
  rw [quoted_append] at hk
  obtain ⟨rfl, rfl⟩ := (Str.of_plain hn).mp hk
  have hs₂ := (hc.eq_of_head (by decide)).2.eq_of_head (by decide)
  rw [hs₂, hval] at hv
  exact hv.self hr

theorem of_members {ms : List (Bytes × Bytes)} {t : Bytes} (hnames : ∀ k ∈ n :: ns, Plain k)
    (h : Members (quoted n (value n) ++ following value ns) ms t) (hend : Sep closeBrace t [])
    (hms : ∀ m ∈ ms, m.2 = value m.1) :
    Plain (value n) ∧ ∀ k ∈ ns, value k ≠ [] ∧ Plain (value k) := by
  induction ns generalizing n ms with
  | nil =>
    obtain ⟨k, v, ms, s₁, s₂, s₃, rfl, hk, hc, hv, -⟩ := h.uncons
    have hfirst := first_member (hnames n List.mem_cons_self) (quiet_following []) hk hc hv
      (hms _ List.mem_cons_self)
    exact ⟨hfirst.1, by simp⟩
  | cons m ns ih =>
    obtain ⟨k, v, ms, s₁, s₂, s₃, rfl, hk, hc, hv, hnext⟩ := h.uncons
    obtain ⟨hplain, rfl⟩ := first_member (hnames n List.mem_cons_self) (quiet_following _) hk hc hv
      (hms _ List.mem_cons_self)
    refine ⟨hplain, ?_⟩
    rcases hnext with rfl | ⟨s₄, hs, hmore⟩
    · -- the text goes on with a comma, not with the brace
      exact absurd (hend.eq_of_head (by decide)).1 (by decide)
    · have hws := (hs.eq_of_head (by decide)).2
      by_cases hm : (value m).length = 0
      · -- a comma without a member
        obtain ⟨c, s, hc, hcws, hcq⟩ := head_following value ns
        rw [if_neg (not_not_intro hm), List.nil_append, hc] at hws
        have hhead := hmore.head
        rw [hws.eq_of_head hcws] at hhead
        exact absurd (Option.some.inj hhead) hcq
      · rw [if_pos hm, quoted_append] at hws
        rw [hws.eq_of_head (by decide), ← quoted_append] at hmore
        obtain ⟨hm', hns⟩ := ih (fun k hk => hnames k (List.mem_cons_of_mem _ hk)) hmore
          (fun p hp => hms p (List.mem_cons_of_mem _ hp))
        refine List.forall_mem_cons.mpr ⟨⟨?_, hm'⟩, hns⟩
        exact List.ne_nil_of_length_pos (Nat.pos_of_ne_zero hm)

theorem members_of (h : ∀ k ∈ n :: ns, Plain k ∧ value k ≠ [] ∧ Plain (value k)) :
    Members (quoted n (value n) ++ following value ns) ((n :: ns).map fun k => (k, value k))
      [closeBrace] := by
  induction ns generalizing n with
  | nil =>
    obtain ⟨hn, -, hv⟩ := h n List.mem_cons_self
    rw [quoted_append]
    exact .one ((Str.of_plain hn).mpr ⟨rfl, rfl⟩) (.intro _) ((Str.of_plain hv).mpr ⟨rfl, rfl⟩)
  | cons m ns ih =>
    obtain ⟨⟨hn, -, hv⟩, hrest⟩ := List.forall_mem_cons.mp h
    have hm : (value m).length ≠ 0 := by
      simpa using (hrest m List.mem_cons_self).2.1
    rw [quoted_append, following, if_pos hm]
    exact .more ((Str.of_plain hn).mpr ⟨rfl, rfl⟩) (.intro _) ((Str.of_plain hv).mpr ⟨rfl, rfl⟩)
      (.intro _) (ih hrest)

theorem mem_fromFirst {names : List Bytes} (hk : k ∈ fromFirst value names) : k ∈ names :=
  (List.dropWhile_sublist _).subset hk

theorem mem_fromFirst_of_ne {names : List Bytes} (hk : k ∈ names)
    (hv : value k ≠ []) : k ∈ fromFirst value names := by
  rw [← List.takeWhile_append_dropWhile (p := fun n => (value n).length == 0) (l := names),
    List.mem_append] at hk
  rcases hk with hk | hk
  · exact absurd (List.mem_takeWhile_imp hk) (by simpa using hv)
  · exact hk

theorem head_fromFirst {names : List Bytes}
    (h : fromFirst value names = n :: ns) : value n ≠ [] := by
  have hhead := List.head?_dropWhile_not (fun n => (value n).length == 0) names
  rw [fromFirst] at h
  rw [h] at hhead
  simpa using hhead

theorem of_denotes {names : List Bytes} (hnames : ∀ n ∈ names, Plain n)
    (h : Denotes value (getParament value names) names) :
    ∀ n ∈ fromFirst value names, value n ≠ [] ∧ Plain (value n) := by
  obtain ⟨ms, hobj, -, hms⟩ := h
  have hfirst : ∀ n ∈ fromFirst value names, Plain n := fun n hn => hnames n (mem_fromFirst hn)
  rw [getParament_eq] at hobj
  cases hl : fromFirst value names with
  | nil => simp
  | cons n ns =>
    rw [hl] at hfirst
    rw [hl, inside, quoted_append] at hobj
    cases hobj with
    | empty ho hc =>
      rw [(ho.eq_of_head (by decide)).2.eq_of_head (by decide)] at hc
      exact absurd (hc.eq_of_head (by decide)).1 (by decide)
    | members ho h hc =>
      rw [(ho.eq_of_head (by decide)).2.eq_of_head (by decide), ← quoted_append] at h
      obtain ⟨hn, hns⟩ := of_members hfirst h hc hms
      exact List.forall_mem_cons.mpr ⟨⟨head_fromFirst hl, hn⟩, hns⟩

theorem denotes_of {names : List Bytes} (hnames : ∀ n ∈ names, Plain n)
    (h : ∀ n ∈ fromFirst value names, value n ≠ [] ∧ Plain (value n)) :
    Denotes value (getParament value names) names := by
  refine ⟨(fromFirst value names).map fun k => (k, value k), ?_, ?_, ?_⟩
  · rw [getParament_eq]
    cases hl : fromFirst value names with
    | nil => exact .empty (.intro _) (.intro _)
    | cons n ns =>
      rw [hl] at h
      refine .members (.intro _) (members_of fun k hk => ⟨?_, h k hk⟩) (.intro _)
      exact hnames k (mem_fromFirst (hl ▸ hk))
  · intro k
    rw [List.map_map]
    constructor
    · intro hk
      have hmem : k ∈ fromFirst value names := by simpa using hk
      exact ⟨mem_fromFirst hmem, (h k hmem).1⟩
    · rintro ⟨hk, hv⟩
      simpa using mem_fromFirst_of_ne hk hv
  · intro m hm
    obtain ⟨k, -, rfl⟩ := List.mem_map.mp hm
    rfl

end GetParament

theorem ascii_of_isWord {b : UInt8} (h : isWord b = true) :
    0x20 ≤ b ∧ b ≤ 0x7f ∧ b ≠ quote ∧ b ≠ backslash := by
  refine ⟨?_, ?_, ?_, ?_⟩
  · grind [isWord, within]
  · grind [isWord, within]
  · rintro rfl
    exact absurd h (by decide)
  · rintro rfl
    exact absurd h (by decide)

theorem plain_parsePrs {url n : Bytes} (hn : n ∈ parsePrs url) : Plain n := by
  induction url with
  | nil => cases hn
  | cons c s ih =>
    rw [parsePrs] at hn
    split at hn
    · rcases List.mem_cons.mp hn with rfl | hn
      · exact plain_of_ascii fun b hb => ascii_of_isWord (List.mem_takeWhile_imp hb)
      · exact ih hn
    · exact ih hn

/-- The text stands for the parameters exactly when none after the first one with a value is
empty, and all values are UTF-8 that needs no escapes. -/
theorem parament_denotes_iff (names : List Bytes) (value : Bytes → Bytes)
    (hnames : ∀ n ∈ names, Plain n) :
    Denotes value (getParament value names) names ↔
      ∀ n ∈ fromFirst value names, value n ≠ [] ∧ Plain (value n) :=
  ⟨of_denotes hnames, denotes_of hnames⟩

def memberUrl : Bytes :=
  utf8 "/v1/member/group_id/\x7bgroup_id:.*\x7d/member_id/\x7bmember_id:.*\x7d"

theorem both_ids_denoted :
    let value := fun n => if n = utf8 "member_id" then utf8 "12" else utf8 "5"
    (∀ n ∈ parsePrs memberUrl, Plain n) ∧
      Denotes value (getParament value (parsePrs memberUrl)) (parsePrs memberUrl) := by
  intro value
  have hnames : ∀ n ∈ parsePrs memberUrl, Plain n := fun n hn => plain_parsePrs hn
  refine ⟨hnames, (parament_denotes_iff _ value hnames).mpr fun n _ => ?_⟩
  have hvalue : value n = utf8 "12" ∨ value n = utf8 "5" := by
    by_cases h : n = utf8 "member_id" <;> simp [value, h]
  rcases hvalue with h | h <;> rw [h]
  · exact ⟨by decide, plain_of_ascii (by decide +kernel)⟩
  · exact ⟨by decide, plain_of_ascii (by decide +kernel)⟩

theorem empty_last_not_denoted :
    let value := fun n => if n = utf8 "member_id" then [] else utf8 "5"
    getParament value (parsePrs memberUrl) = utf8 "\x7b\"group_id\":\"5\",\x7d" ∧
      ¬ Denotes value (getParament value (parsePrs memberUrl)) (parsePrs memberUrl) := by
  intro value
  refine ⟨by decide, fun h => ?_⟩
  have hlast := of_denotes (fun n hn => plain_parsePrs hn) h (utf8 "member_id") (by decide)
  exact hlast.1 rfl

end Aware.Rest
