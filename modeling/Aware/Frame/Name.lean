import Aware.Frame.Input

/-!
# Names on the wire

`dns_parse_name` with the buffer that it fills. It clears the length bytes of the packet, it asks for
the room of a label what the buffer has already got, and it puts dots where the label should be.
-/
namespace Aware.Names
open Aware.Memory

structure AlBuf where
  mem : ℕ → UInt8
  start : ℕ
  pos : ℕ
  last : ℕ
  stop : ℕ

def AlBuf.len (b : AlBuf) : ℕ := b.last - b.pos

def AlBuf.put (b : AlBuf) (x : UInt8) : AlBuf :=
  { b with mem := write b.mem b.last [x], last := b.last + 1 }

def dot : UInt8 := 46

def AlBuf.putDots : ℕ → AlBuf → AlBuf
  | 0, b => b
  | n + 1, b => putDots n (b.put dot)

def AlBuf.putLabel (b : AlBuf) (n : UInt8) : AlBuf :=
  (if b.len = 0 then b else b.put dot).putDots n.toNat

structure Result where
  pkt : ℕ → UInt8
  buf : AlBuf
  ptr : Option ℕ

def dnsParseName : ℕ → (ℕ → UInt8) → ℕ → AlBuf → UInt8 → Option Result
  | 0, _, _, _, _ => none
  | fuel + 1, pkt, query, b, c =>
    let n := pkt query
    let pkt := write pkt query [c]
    if n &&& 0xc0 = 0xc0 then some ⟨pkt, b, none⟩
    else if b.len < n.toNat then some ⟨pkt, b, none⟩
    else
      let b := b.putLabel n
      let query := query + 1 + n.toNat
      if pkt query = 0 then some ⟨pkt, b, some (query + 1)⟩
      else dnsParseName fuel pkt query b n

section Spec

def wire : List (List UInt8) → List UInt8
  | [] => [0]
  | l :: ls => UInt8.ofNat l.length :: l ++ wire ls

def dotted (labels : List (List UInt8)) : List UInt8 :=
  List.intercalate [dot] labels

def AlBuf.append (b : AlBuf) (bs : List UInt8) : AlBuf :=
  { b with mem := write b.mem b.last bs, last := b.last + bs.length }

/-- The packet has the encoding of these labels at `query`, and there is room for their dotted
form. -/
structure Fits (pkt : ℕ → UInt8) (query : ℕ) (b : AlBuf) (labels : List (List UInt8)) : Prop where
  valid : ∀ l ∈ labels, 1 ≤ l.length ∧ l.length ≤ 63
  encoded : slice pkt query (wire labels).length = wire labels
  room : b.last + (dotted labels).length ≤ b.stop

/-- What a parser owes its caller. -/
structure Parsed (pkt : ℕ → UInt8) (query : ℕ) (b : AlBuf) (r : Result) : Prop where
  name : ∀ labels, Fits pkt query b labels →
    r.ptr = some (query + (wire labels).length) ∧ r.pkt = pkt ∧ r.buf = b.append (dotted labels)
  refused : (¬ ∃ labels, Fits pkt query b labels) → r.ptr = none
  inside : ∀ i, i < b.start ∨ b.stop ≤ i → r.buf.mem i = b.mem i

def ParsesName (pkt : ℕ → UInt8) (query : ℕ) (b : AlBuf) : Prop :=
  ∃ fuel r, dnsParseName fuel pkt query b 0 = some r ∧ Parsed pkt query b r

end Spec

section Parse
variable {pkt : ℕ → UInt8} {query fuel : ℕ} {b : AlBuf} {c : UInt8} {r : Result}

theorem dnsParseName_cases (h : dnsParseName (fuel + 1) pkt query b c = some r) :
    pkt query ≠ 0 ∧ r = ⟨write pkt query [c], b, none⟩ ∨
      r = ⟨write pkt query [c], b.putLabel (pkt query), some (query + 1 + (pkt query).toNat + 1)⟩ ∨
      write pkt query [c] (query + 1 + (pkt query).toNat) ≠ 0 ∧
        dnsParseName fuel (write pkt query [c]) (query + 1 + (pkt query).toNat)
          (b.putLabel (pkt query)) (pkt query) = some r := by
  rw [dnsParseName] at h
  split at h
  · rename_i hpointer
    refine .inl ⟨fun hzero => ?_, (Option.some.inj h).symm⟩
    rw [hzero] at hpointer
    exact absurd hpointer (by decide)
  · split at h
    · rename_i hroom
      refine .inl ⟨fun hzero => ?_, (Option.some.inj h).symm⟩
      rw [hzero] at hroom
      exact absurd hroom (Nat.not_lt_zero _)
    · dsimp only at h
      split at h
      · exact .inr (.inl (Option.some.inj h).symm)
      · exact .inr (.inr ⟨by assumption, h⟩)

theorem dnsParseName_pkt (h : dnsParseName fuel pkt query b c = some r) :
    r.pkt query = c ∧ ∀ i < query, r.pkt i = pkt i := by
  induction fuel generalizing pkt query b c with
  | zero => cases h
  | succ fuel ih =>
    have hself : write pkt query [c] query = c := by simp [write]
    have hbefore : ∀ i < query, write pkt query [c] i = pkt i := fun i hi => write_outside (.inl hi)
    rcases dnsParseName_cases h with ⟨-, rfl⟩ | rfl | ⟨-, hrest⟩
    · exact ⟨hself, hbefore⟩
    · exact ⟨hself, hbefore⟩
    · obtain ⟨-, hkept⟩ := ih hrest
      refine ⟨(hkept query (by omega)).trans hself, fun i hi => ?_⟩
      exact (hkept i (by omega)).trans (hbefore i hi)

theorem ptr_of_pkt_eq (h : dnsParseName fuel pkt query b 0 = some r) (hpkt : r.pkt = pkt) :
    pkt query = 0 ∧ r.ptr = some (query + 2) := by
  have hzero : pkt query = 0 := by
    rw [← hpkt]
    exact (dnsParseName_pkt h).1
  refine ⟨hzero, ?_⟩
  cases fuel with
  | zero => cases h
  | succ fuel =>
    rcases dnsParseName_cases h with ⟨hne, -⟩ | rfl | ⟨hne, hrest⟩
    · exact absurd hzero hne
    · rw [hzero]
      rfl
    · -- another turn clears the byte that made it
      have hcleared := (dnsParseName_pkt hrest).1
      rw [hpkt, hzero] at hcleared
      have hkept : write pkt query [0] (query + 1 + UInt8.toNat 0) = pkt (query + 1 + UInt8.toNat 0) :=
        write_outside (.inr (Nat.le_refl _))
      rw [hzero, hkept] at hne
      exact absurd hcleared hne

theorem Fits.eq_nil {labels : List (List UInt8)} (h : Fits pkt query b labels) (hzero : pkt query = 0) :
    labels = [] := by
  cases labels with
  | nil => rfl
  | cons l ls =>
    obtain ⟨hpos, hle⟩ := h.valid l List.mem_cons_self
    have hencoded := h.encoded
    have hhead : pkt query = UInt8.ofNat l.length := (List.cons.inj hencoded).1
    have hlen : (UInt8.ofNat l.length).toNat = l.length := by
      rw [UInt8.toNat_ofNat']
      exact Nat.mod_eq_of_lt (by omega)
    rw [← hhead, hzero, UInt8.toNat_zero] at hlen
    omega

theorem Fits.not_parsesName {labels : List (List UInt8)} (hfits : Fits pkt query b labels) :
    ¬ ParsesName pkt query b := by
  rintro ⟨fuel, r, hr, h⟩
  obtain ⟨hname, hpkt, -⟩ := h.name labels hfits
  obtain ⟨hzero, hptr⟩ := ptr_of_pkt_eq hr hpkt
  rw [hfits.eq_nil hzero, hptr] at hname
  exact absurd (Option.some.inj hname) (by change query + 2 ≠ query + 1; omega)

end Parse

section Refused

def head (pkt : ℕ → UInt8) : ℕ → ℕ → ℕ
  | query, 0 => query
  | query, k + 1 => head pkt (query + 1 + (pkt query).toNat) k

/-- Label `k` is a compression pointer, or it is longer than what the buffer has by then, and no
label before it is. -/
structure Refusal (pkt : ℕ → UInt8) (query len k : ℕ) : Prop where
  refused : pkt (head pkt query k) &&& 0xc0 = 0xc0 ∨
    len + (head pkt query k - query) < (pkt (head pkt query k)).toNat
  accepted : ∀ j < k, ¬ pkt (head pkt query j) &&& 0xc0 = 0xc0 ∧
    (pkt (head pkt query j)).toNat ≤ len + (head pkt query j - query) ∧ (0 < j → pkt (head pkt query j) ≠ 0)

def RefusedInside (pkt : ℕ → UInt8) (query : ℕ) (b : AlBuf) : Prop :=
  ∃ k, Refusal pkt query b.len k ∧
    ∀ i, b.stop ≤ i → i < b.last + (head pkt query k - query) → b.mem i = dot

structure AlBuf.Ok (b : AlBuf) : Prop where
  start_le : b.start ≤ b.pos
  pos_le : b.pos ≤ b.last
  last_le : b.last ≤ b.stop

variable {pkt pkt' : ℕ → UInt8} {query len fuel k : ℕ} {b : AlBuf} {c : UInt8} {r : Result}

theorem le_head (pkt : ℕ → UInt8) (query k : ℕ) : query ≤ head pkt query k := by
  induction k generalizing query with
  | zero => exact Nat.le_refl _
  | succ k ih =>
    have hle := ih (query + 1 + (pkt query).toNat)
    rw [head]
    omega

theorem head_congr (h : ∀ i, query ≤ i → pkt i = pkt' i) (k : ℕ) :
    head pkt query k = head pkt' query k := by
  induction k generalizing query with
  | zero => rfl
  | succ k ih =>
    rw [head, head, ← h query (Nat.le_refl _)]
    exact ih fun i hi => h i (by omega)

theorem Refusal.congr (h : ∀ i, query ≤ i → pkt i = pkt' i) (hr : Refusal pkt query len k) :
    Refusal pkt' query len k := by
  have hhead (j : ℕ) : head pkt query j = head pkt' query j := head_congr h j
  have hbyte (j : ℕ) : pkt (head pkt' query j) = pkt' (head pkt' query j) := h _ (le_head pkt' query j)
  obtain ⟨hrefused, haccepted⟩ := hr
  simp only [hhead, hbyte] at hrefused haccepted
  exact ⟨hrefused, haccepted⟩

theorem Refusal.ne_zero (h : Refusal pkt query len k) : pkt (head pkt query k) ≠ 0 := by
  intro hzero
  have hrefused := h.refused
  rw [hzero] at hrefused
  exact hrefused.elim (by decide) (Nat.not_lt_zero _)

theorem refusal_succ : Refusal pkt query len (k + 1) ↔
    ¬ pkt query &&& 0xc0 = 0xc0 ∧ (pkt query).toNat ≤ len ∧ pkt (query + 1 + (pkt query).toNat) ≠ 0 ∧
      Refusal pkt (query + 1 + (pkt query).toNat) (len + 1 + (pkt query).toNat) k := by
  have hfilled (j : ℕ) : len + (head pkt query (j + 1) - query) = len + 1 + (pkt query).toNat +
      (head pkt (query + 1 + (pkt query).toNat) j - (query + 1 + (pkt query).toNat)) := by
    have hle := le_head pkt (query + 1 + (pkt query).toNat) j
    rw [head]
    omega
  constructor
  · intro h
    obtain ⟨hpointer, hroom, -⟩ := h.accepted 0 (Nat.succ_pos k)
    have hrest : Refusal pkt (query + 1 + (pkt query).toNat) (len + 1 + (pkt query).toNat) k := by
      refine ⟨?_, fun j hj => ?_⟩
      · rw [← hfilled]
        exact h.refused
      · obtain ⟨hp, hr, hz⟩ := h.accepted (j + 1) (Nat.succ_lt_succ hj)
        rw [hfilled] at hr
        exact ⟨hp, hr, fun _ => hz (Nat.succ_pos j)⟩
    refine ⟨hpointer, hroom.trans (by rw [head]; omega), ?_, hrest⟩
    cases k with
    | zero => exact hrest.ne_zero
    | succ k => exact (h.accepted 1 (by omega)).2.2 Nat.one_pos
  · rintro ⟨hpointer, hroom, hnext, hrest⟩
    refine ⟨?_, fun j hj => ?_⟩
    · rw [hfilled]
      exact hrest.refused
    · cases j with
      | zero => exact ⟨hpointer, hroom.trans (Nat.le_add_right _ _), fun hlt => absurd hlt (Nat.lt_irrefl 0)⟩
      | succ j =>
        obtain ⟨hp, hr, hz⟩ := hrest.accepted j (Nat.lt_of_succ_lt_succ hj)
        rw [hfilled]
        refine ⟨hp, hr, fun _ => ?_⟩
        cases j with
        | zero => exact hnext
        | succ j => exact hz (Nat.succ_pos j)

theorem AlBuf.putDots_add (m n : ℕ) (b : AlBuf) : (b.putDots m).putDots n = b.putDots (m + n) := by
  induction m generalizing b with
  | zero => rw [Nat.zero_add]; rfl
  | succ m ih => rw [Nat.succ_add]; exact ih (b.put dot)

theorem AlBuf.putDots_pos (n : ℕ) (b : AlBuf) :
    (b.putDots n).pos = b.pos ∧ (b.putDots n).last = b.last + n := by
  induction n generalizing b with
  | zero => exact ⟨rfl, rfl⟩
  | succ n ih =>
    obtain ⟨hpos, hlast⟩ := ih (b.put dot)
    exact ⟨hpos, hlast.trans (by change b.last + 1 + n = _; omega)⟩

theorem AlBuf.putDots_mem (n : ℕ) (b : AlBuf) (i : ℕ) :
    (b.putDots n).mem i = if b.last ≤ i ∧ i < b.last + n then dot else b.mem i := by
  induction n generalizing b with
  | zero => exact (if_neg (by omega)).symm
  | succ n ih =>
    change ((b.put dot).putDots n).mem i = _
    rw [ih]
    change (if b.last + 1 ≤ i ∧ i < b.last + 1 + n then dot else write b.mem b.last [dot] i) = _
    by_cases hself : i = b.last
    · subst hself
      rw [if_neg (by omega), if_pos (by omega)]
      simp [write]
    · rw [write_outside (by rw [List.length_singleton]; omega)]
      split_ifs <;> first | rfl | omega

theorem AlBuf.putLabel_eq (h : 0 < b.len) (n : UInt8) : b.putLabel n = b.putDots (1 + n.toNat) := by
  rw [AlBuf.putLabel, if_neg (by omega), ← AlBuf.putDots_add]
  rfl

theorem AlBuf.len_putDots (hb : b.pos ≤ b.last) (n : ℕ) : (b.putDots n).len = b.len + n := by
  obtain ⟨hpos, hlast⟩ := b.putDots_pos n
  rw [AlBuf.len, AlBuf.len, hpos, hlast]
  omega

theorem len_pos_of_accepted {n : UInt8} (hfirst : 0 < len ∨ n ≠ 0) (hroom : n.toNat ≤ len) : 0 < len := by
  rcases hfirst with hlen | hne
  · exact hlen
  · have hpos : n.toNat ≠ 0 := fun hz => hne (UInt8.toNat_inj.mp hz)
    omega

theorem refusal_of_run (hb : b.pos ≤ b.last) (hfirst : 0 < b.len ∨ pkt query ≠ 0)
    (h : dnsParseName fuel pkt query b c = some r) (hr : r.ptr = none) :
    ∃ k, Refusal pkt query b.len k ∧ r.buf = b.putDots (head pkt query k - query) := by
  induction fuel generalizing pkt query b c with
  | zero => cases h
  | succ fuel ih =>
    have hnow (hno : pkt query &&& 0xc0 = 0xc0 ∨ b.len < (pkt query).toNat) :
        Refusal pkt query b.len 0 := ⟨by simpa [head] using hno, fun j hj => absurd hj (Nat.not_lt_zero j)⟩
    have hzero : b = b.putDots (head pkt query 0 - query) := by simp [head, AlBuf.putDots]
    rw [dnsParseName] at h
    split at h
    · rename_i hpointer
      cases h
      exact ⟨0, hnow (.inl hpointer), hzero⟩
    · rename_i hpointer
      split at h
      · rename_i hroom
        cases h
        exact ⟨0, hnow (.inr hroom), hzero⟩
      · rename_i hroom
        dsimp only at h
        split at h
        · cases h
          cases hr
        · rename_i hnext
          have hlen := len_pos_of_accepted hfirst (Nat.not_lt.mp hroom)
          have hkept : ∀ i, query + 1 + (pkt query).toNat ≤ i → write pkt query [c] i = pkt i :=
            fun i hi => write_outside (.inr (by rw [List.length_singleton]; omega))
          rw [AlBuf.putLabel_eq hlen] at h
          have hlabel := AlBuf.len_putDots hb (1 + (pkt query).toNat)
          obtain ⟨k, hrest, hbuf⟩ := ih (by rw [(b.putDots_pos _).1, (b.putDots_pos _).2]; omega)
            (.inl (by omega)) h
          rw [hlabel, ← Nat.add_assoc] at hrest
          have hhead := le_head pkt (query + 1 + (pkt query).toNat) k
          refine ⟨k + 1, refusal_succ.mpr ⟨hpointer, by omega, ?_, hrest.congr hkept⟩, ?_⟩
          · rw [← hkept _ (Nat.le_refl _)]
            exact hnext
          · rw [hbuf, AlBuf.putDots_add, head_congr hkept, head]
            congr 1
            omega

theorem run_of_refusal (hb : b.pos ≤ b.last) (hfirst : 0 < b.len ∨ pkt query ≠ 0)
    (h : Refusal pkt query b.len k) (c : UInt8) :
    ∃ r, dnsParseName (k + 1) pkt query b c = some r ∧ r.ptr = none ∧
      r.buf = b.putDots (head pkt query k - query) := by
  induction k generalizing pkt query b c with
  | zero =>
    have hrefused : pkt query &&& 0xc0 = 0xc0 ∨ b.len < (pkt query).toNat := by simpa [head] using h.refused
    have hnone : dnsParseName 1 pkt query b c = some ⟨write pkt query [c], b, none⟩ := by
      rw [dnsParseName]
      split_ifs with hpointer hroom
      · rfl
      · rfl
      · exact (hrefused.elim hpointer hroom).elim
    exact ⟨_, hnone, rfl, by simp [head, AlBuf.putDots]⟩
  | succ k ih =>
    obtain ⟨hpointer, hroom, hnext, hrest⟩ := refusal_succ.mp h
    have hlen := len_pos_of_accepted hfirst hroom
    have hkept : ∀ i, query + 1 + (pkt query).toNat ≤ i → pkt i = write pkt query [c] i :=
      fun i hi => (write_outside (.inr (by rw [List.length_singleton]; omega))).symm
    have hlabel := AlBuf.len_putDots hb (1 + (pkt query).toNat)
    rw [Nat.add_assoc b.len, ← hlabel] at hrest
    obtain ⟨r, hr, hptr, hbuf⟩ := ih (by rw [(b.putDots_pos _).1, (b.putDots_pos _).2]; omega)
      (.inl (by omega)) (hrest.congr hkept) (pkt query)
    have hhead := le_head pkt (query + 1 + (pkt query).toNat) k
    refine ⟨r, ?_, hptr, ?_⟩
    · rw [dnsParseName, if_neg hpointer, if_neg (Nat.not_lt.mpr hroom)]
      dsimp only
      rw [AlBuf.putLabel_eq hlen, ← hkept _ (Nat.le_refl _), if_neg hnext]
      exact hr
    · rw [hbuf, AlBuf.putDots_add, ← head_congr hkept, head]
      congr 1
      omega

theorem ne_zero_of_not_fits (hb : b.last ≤ b.stop) (h : ¬ ∃ labels, Fits pkt query b labels) :
    pkt query ≠ 0 :=
  fun hzero => h ⟨[], fun l hl => absurd hl List.not_mem_nil, by simp [wire, slice, hzero], hb⟩

theorem RefusedInside.parsesName (hb : b.Ok) (hnone : ¬ ∃ labels, Fits pkt query b labels)
    (h : RefusedInside pkt query b) : ParsesName pkt query b := by
  obtain ⟨k, hk, hdots⟩ := h
  obtain ⟨r, hr, hptr, hbuf⟩ :=
    run_of_refusal hb.pos_le (.inr (ne_zero_of_not_fits hb.last_le hnone)) hk 0
  refine ⟨k + 1, r, hr, ⟨fun labels hfits => (hnone ⟨labels, hfits⟩).elim, fun _ => hptr, fun i hi => ?_⟩⟩
  rw [hbuf, AlBuf.putDots_mem]
  split
  · rename_i hwritten
    have hstart := hb.start_le
    have hpos := hb.pos_le
    exact (hdots i (by omega) hwritten.2).symm
  · rfl

theorem parsesName_empty_iff (hb : b.Ok) (hempty : b.pos = b.last) :
    ParsesName pkt query b ↔ ¬ ∃ labels, Fits pkt query b labels := by
  constructor
  · rintro h ⟨labels, hfits⟩
    exact hfits.not_parsesName h
  · intro hnone
    have hpos : 0 < (pkt query).toNat :=
      Nat.pos_of_ne_zero fun hz => ne_zero_of_not_fits hb.last_le hnone (UInt8.toNat_inj.mp hz)
    have hlen : b.len = 0 := by rw [AlBuf.len, hempty, Nat.sub_self]
    have hself : head pkt query 0 = query := rfl
    have hlast := hb.last_le
    refine RefusedInside.parsesName hb hnone
      ⟨0, ⟨.inr (by rw [hself]; omega), fun j hj => absurd hj (Nat.not_lt_zero j)⟩, fun i hstop hi => ?_⟩
    rw [hself] at hi
    omega

end Refused

section Frames
variable {pkt : ℕ → UInt8} {query fuel : ℕ} {b : AlBuf} {c : UInt8} {r : Result}

structure AlBuf.Dotted (b : AlBuf) : Prop where
  order : b.pos ≤ b.last
  dots : ∀ i, b.pos ≤ i → i < b.last → b.mem i = dot

theorem AlBuf.Dotted.putDots (h : b.Dotted) (n : ℕ) : (b.putDots n).Dotted := by
  obtain ⟨hpos, hlast⟩ := b.putDots_pos n
  have horder := h.order
  refine ⟨by omega, fun i hi hlt => ?_⟩
  rw [AlBuf.putDots_mem]
  split
  · rfl
  · exact h.dots i (by omega) (by omega)

theorem AlBuf.Dotted.putLabel (h : b.Dotted) (n : UInt8) :
    (b.putLabel n).Dotted ∧ (b.putLabel n).len = (if b.len = 0 then 0 else b.len + 1) + n.toNat := by
  by_cases hempty : b.len = 0
  · rw [AlBuf.putLabel, if_pos hempty, if_pos hempty]
    exact ⟨h.putDots _, by rw [AlBuf.len_putDots h.order, hempty]⟩
  · rw [AlBuf.putLabel_eq (by omega), if_neg hempty]
    exact ⟨h.putDots _, by rw [AlBuf.len_putDots h.order, Nat.add_assoc]⟩

theorem dnsParseName_frames (hb : b.Dotted) (h : dnsParseName fuel pkt query b c = some r) :
    Frames.dnsParseName fuel pkt query b.len c = (r.pkt, r.ptr.map fun p => (p, r.buf.len)) ∧
      r.buf.Dotted := by
  induction fuel generalizing pkt query b c with
  | zero => cases h
  | succ fuel ih =>
    obtain ⟨hlabel, hlen⟩ := hb.putLabel (pkt query)
    rw [dnsParseName] at h
    rw [Frames.dnsParseName]
    split at h
    · rename_i hpointer
      cases h
      exact ⟨by rw [if_pos hpointer]; rfl, hb⟩
    · rename_i hpointer
      split at h
      · rename_i hroom
        cases h
        exact ⟨by rw [if_neg hpointer, if_pos hroom]; rfl, hb⟩
      · rename_i hroom
        dsimp only at h ⊢
        rw [if_neg hpointer, if_neg hroom, ← hlen]
        split at h
        · rename_i hend
          cases h
          exact ⟨by rw [if_pos hend]; rfl, hlabel⟩
        · rename_i hend
          rw [if_neg hend]
          exact ih hlabel h

end Frames

def emptyBuf : AlBuf := ⟨fun _ => 0, 0, 0, 0, 64⟩

def shortName (i : ℕ) : UInt8 := [1, 97, 0, 0, 1, 0, 1].getD i 0

def pointerName (i : ℕ) : UInt8 := [0xc0, 12, 0, 1, 0, 1].getD i 0

theorem not_fits_pointerName : ¬ ∃ labels, Fits pointerName 0 emptyBuf labels := by
  rintro ⟨labels, hfits⟩
  cases labels with
  | nil => exact absurd hfits.encoded (by decide)
  | cons l ls =>
    obtain ⟨-, hle⟩ := hfits.valid l List.mem_cons_self
    have hencoded := hfits.encoded
    have hhead : (0xc0 : UInt8) = UInt8.ofNat l.length := (List.cons.inj hencoded).1
    have hlen := congrArg UInt8.toNat hhead
    rw [UInt8.toNat_ofNat', Nat.mod_eq_of_lt (by omega)] at hlen
    exact absurd hlen.symm (by change l.length ≠ 192; omega)

end Aware.Names
