import Aware.Lib.Linked
import Aware.Lib.Tiling
import Aware.Slab.Model

/-!
# The pages in pieces

The pages of a pool lie in a row of pieces: free runs, runs in use and pages of chunks. What the
descriptors show of a piece, which list it is in, and how a part of the row is exchanged.
-/
namespace Aware.Slab
open Function Linked Tiling

def Head : Ref → Prop
  | .free => True
  | .slot k => k < 6
  | _ => False

def headType : Ref → PageType
  | .slot k => (kind (k + 6)).type
  | _ => .page

/-- A part of the row of pages. A gap is a run that is about to be listed. -/
inductive Piece where
  | free (n : ℕ)
  | busy (n : ℕ)
  | chunks (shift : ℕ) (used : ℕ → Bool)
  | gap (n : ℕ)

def Piece.len : Piece → ℕ
  | .free n => n
  | .busy n => n
  | .chunks _ _ => 1
  | .gap n => n

variable {n : ℕ}

@[simp] theorem len_free : (Piece.free n).len = n := rfl

@[simp] theorem len_busy : (Piece.busy n).len = n := rfl

@[simp] theorem len_chunks {s : ℕ} {u : ℕ → Bool} : (Piece.chunks s u).len = 1 := rfl

@[simp] theorem len_gap : (Piece.gap n).len = n := rfl

def Full (shift : ℕ) (used : ℕ → Bool) : Prop :=
  ∀ j < (kind shift).limit, used j = true

def Listed : Piece → Ref → Prop
  | .free _, .free => True
  | .chunks s u, .slot k => s = k + 6 ∧ ¬ Full s u
  | _, _ => False

def wordBit (shift : ℕ) (used : ℕ → Bool) (b : ℕ) : Bool :=
  if b < (kind shift).off then (BitVec.ofNat 64 shift).getLsbD b
  else decide (b < (kind shift).off + (kind shift).limit) && used (b - (kind shift).off)

def Bits (shift : ℕ) (used : ℕ → Bool) (w : BitVec 64) : Prop :=
  ∀ b < 64, w.getLsbD b = wordBit shift used b

/-- The last page of a run of more than one page is free and has no count. -/
def Closed (p : Pool) (o n : ℕ) : Prop :=
  1 < n → p.slab (.page (o + n - 1)) = 0 ∧ p.type (.page (o + n - 1)) = .page

/-- What the descriptors from `o` on show of a piece. -/
def Shows (p : Pool) (o : ℕ) : Piece → Prop
  | .free n => 0 < n ∧ p.slab (.page o) = BitVec.ofNat 64 n ∧ p.type (.page o) = .page ∧ Closed p o n ∧
      (1 < n → o + n < p.area.count → p.prev (.page (o + n - 1)) = .page o)
  | .busy n => 0 < n ∧ p.slab (.page o) = BitVec.ofNat 64 n ||| pageStart ∧
      (∀ i, o < i → i < o + n → p.slab (.page i) = busy) ∧
      ∀ i, o ≤ i → i < o + n → p.next (.page i) = .null ∧ p.type (.page i) = .page
  | .chunks s u => 6 ≤ s ∧ s < 12 ∧ p.type (.page o) = (kind s).type ∧
      Bits s u (p.slab (.page o)) ∧ (Full s u → p.next (.page o) = .null)
  | .gap n => 0 < n ∧ p.slab (.page o) = BitVec.ofNat 64 n ∧ Closed p o n

def Seg (o n : ℕ) (r : Ref) : Prop :=
  ∃ i, r = .page i ∧ o ≤ i ∧ i < o + n

def Cell (xs : Ref → List Ref) (r : Ref) : Prop :=
  ∃ e, Head e ∧ r ∈ e :: xs e

/-- Only descriptors in `S` differ. -/
structure Away (S : Ref → Prop) (p p' : Pool) : Prop where
  area : p'.area = p.area
  slab : ∀ r, ¬ S r → p'.slab r = p.slab r
  type : ∀ r, ¬ S r → p'.type r = p.type r
  next : ∀ r, ¬ S r → p'.next r = p.next r
  prev : ∀ r, ¬ S r → p'.prev r = p.prev r

/-- Only descriptors in `S` and the links of the lists differ. -/
structure Rest (S : Ref → Prop) (xs : Ref → List Ref) (p p' : Pool) : Prop where
  area : p'.area = p.area
  slab : ∀ r, ¬ S r → p'.slab r = p.slab r
  type : ∀ r, ¬ S r → ¬ Head r → p'.type r = p.type r
  next : ∀ r, ¬ S r → ¬ Cell xs r → p'.next r = p.next r
  prev : ∀ r, ¬ S r → ¬ Cell xs r → p'.prev r = p.prev r

def Only (p p' : Pool) : Prop :=
  Away (fun r => p.area.mapped r) p p'

structure Lists (p : Pool) (xs : Ref → List Ref) : Prop where
  rings : Rings Head p.next p.prev xs
  page : ∀ e, Head e → ∀ a ∈ xs e, ∃ i < p.area.count, a = .page i ∧ p.type a = headType e

def Lead (o : ℕ) (ps : List Piece) (e a : Ref) : Prop :=
  ∃ o' x, (o', x) ∈ placed Piece.len o ps ∧ Listed x e ∧ a = .page o'

/-- The pages are a row of pieces, and the lists are those of the pieces. -/
structure Inv (p : Pool) (ps : List Piece) (xs : Ref → List Ref) : Prop where
  small : p.area.count < 2 ^ 62
  tiled : total Piece.len ps = p.area.count
  rings : Rings Head p.next p.prev xs
  mem_iff : ∀ e, Head e → ∀ a, a ∈ xs e ↔ Lead 0 ps e a
  shows : ∀ o x, (o, x) ∈ placed Piece.len 0 ps → Shows p o x

section Relations
variable {S T : Ref → Prop} {xs xs' : Ref → List Ref} {p p' p'' : Pool} {r : Ref}

theorem Head.cell (h : Head r) : Cell xs r :=
  ⟨r, h, List.mem_cons_self⟩

theorem cell_of_mem {e : Ref} (he : Head e) (h : r ∈ xs e) : Cell xs r :=
  ⟨e, he, List.mem_cons_of_mem _ h⟩

theorem head_free : Head .free :=
  trivial

variable {i : ℕ}

theorem not_head_page : ¬ Head (.page i) :=
  id

theorem page_injective : Injective Ref.page := by
  intro i j h
  injection h

theorem page_ne {j : ℕ} (h : i ≠ j) : Ref.page i ≠ .page j :=
  fun heq => h (page_injective heq)

theorem seg_of_page {o n : ℕ} (hi : o ≤ i) (hi' : i < o + n) : ∀ r, r = .page i → Seg o n r :=
  fun _ hr => ⟨i, hr, hi, hi'⟩

theorem Seg.mono {o n k : ℕ} (hi : o ≤ i) (hk : i + k ≤ o + n) : ∀ r, Seg i k r → Seg o n r := by
  rintro r ⟨j, rfl, hj, hj'⟩
  exact ⟨j, rfl, by omega, by omega⟩

theorem away_slab {w : BitVec 64} :
    Away (· = .page i) p { p with slab := update p.slab (.page i) w } :=
  ⟨rfl, fun _ hr => update_of_ne hr .., fun _ _ => rfl, fun _ _ => rfl, fun _ _ => rfl⟩

theorem Away.refl : Away S p p :=
  ⟨rfl, fun _ _ => rfl, fun _ _ => rfl, fun _ _ => rfl, fun _ _ => rfl⟩

theorem Away.trans (h : Away S p p') (h' : Away S p' p'') : Away S p p'' :=
  ⟨h'.area.trans h.area, fun r hr => (h'.slab r hr).trans (h.slab r hr),
    fun r hr => (h'.type r hr).trans (h.type r hr), fun r hr => (h'.next r hr).trans (h.next r hr),
    fun r hr => (h'.prev r hr).trans (h.prev r hr)⟩

theorem Away.mono (h : Away S p p') (hST : ∀ r, S r → T r) : Away T p p' :=
  ⟨h.area, fun r hr => h.slab r fun hS => hr (hST r hS), fun r hr => h.type r fun hS => hr (hST r hS),
    fun r hr => h.next r fun hS => hr (hST r hS), fun r hr => h.prev r fun hS => hr (hST r hS)⟩

theorem Away.of_pfree {m : ℕ} (h : Away S { p with pfree := m } p') : Away S p p' :=
  ⟨h.area, h.slab, h.type, h.next, h.prev⟩

theorem Away.rest (h : Away S p p') : Rest S xs p p' :=
  ⟨h.area, h.slab, fun r hr _ => h.type r hr, fun r hr _ => h.next r hr, fun r hr _ => h.prev r hr⟩

theorem Rest.trans (h : Rest S xs p p') (h' : Rest S xs p' p'') : Rest S xs p p'' :=
  ⟨h'.area.trans h.area, fun r hr => (h'.slab r hr).trans (h.slab r hr),
    fun r hr hh => (h'.type r hr hh).trans (h.type r hr hh),
    fun r hr hc => (h'.next r hr hc).trans (h.next r hr hc),
    fun r hr hc => (h'.prev r hr hc).trans (h.prev r hr hc)⟩

theorem Rest.mono (h : Rest S xs p p') (hST : ∀ r, S r → T r) : Rest T xs p p' :=
  ⟨h.area, fun r hr => h.slab r fun hS => hr (hST r hS), fun r hr => h.type r fun hS => hr (hST r hS),
    fun r hr => h.next r fun hS => hr (hST r hS), fun r hr => h.prev r fun hS => hr (hST r hS)⟩

theorem Only.refl : Only p p :=
  Away.refl

theorem Only.trans (h : Only p p') (h' : Only p' p'') : Only p p'' := by
  refine Away.trans h (Away.mono h' fun r hr => ?_)
  rwa [h.area] at hr

theorem Lists.away (h : Lists p xs) (haway : Away S p p') (hS : ∀ r, S r → ¬ Cell xs r) :
    Lists p' xs := by
  refine ⟨h.rings.congr (fun e he z hz => ?_) fun e he z hz => ?_, fun e he a ha => ?_⟩
  · exact haway.next z fun hz' => hS z hz' ⟨e, he, hz⟩
  · exact haway.prev z fun hz' => hS z hz' (cell_of_mem he hz)
  · rw [haway.area, haway.type a fun ha' => hS a ha' (cell_of_mem he ha)]
    exact h.page e he a ha

theorem Lists.congr (h : Lists p xs) (harea : p'.area = p.area) (hnext : p'.next = p.next)
    (hprev : p'.prev = p.prev) (htype : p'.type = p.type) : Lists p' xs := by
  refine ⟨?_, ?_⟩
  · rw [hnext, hprev]
    exact h.rings
  · rw [harea, htype]
    exact h.page

theorem Lists.renew {e : Ref} {ys : List Ref} (h : Lists p xs) (harea : p'.area = p.area)
    (hrings : Rings Head p'.next p'.prev (update xs e ys))
    (htype : ∀ e', Head e' → ∀ a ∈ xs e', p'.type a = p.type a)
    (hys : ∀ a ∈ ys, a ∈ xs e ∨ ∃ i < p.area.count, a = .page i ∧ p'.type a = headType e) :
    Lists p' (update xs e ys) := by
  have hold : ∀ e', Head e' → ∀ a ∈ xs e', ∃ i < p'.area.count, a = .page i ∧ p'.type a = headType e' := by
    intro e' he' a ha
    rw [harea, htype e' he' a ha]
    exact h.page e' he' a ha
  refine ⟨hrings, fun e' he' a ha => ?_⟩
  by_cases hee : e' = e
  · rw [hee, update_self] at ha
    rw [hee] at he' ⊢
    rcases hys a ha with hmem | hnew
    · exact hold e he' a hmem
    · rw [harea]
      exact hnew
  · rw [update_of_ne hee] at ha
    exact hold e' he' a ha

end Relations

section Primitives
variable {p : Pool} {r q : Ref} {w : BitVec 64} {t : PageType} {β : Type} {f : Pool → Ref → β}

theorem read_run (h : p.area.mapped r) : p.read f r = some (f p r) :=
  if_pos h

theorem setPrev_run (h : p.area.mapped r) : p.setPrev r q t =
    some { p with prev := update p.prev r q, type := update p.type r t } :=
  if_pos h

variable {a : Area}

theorem mapped_page {i : ℕ} (h : i < a.count) : a.mapped (.page i) :=
  decide_eq_true h

theorem Seg.mapped {o n : ℕ} (h : Seg o n r) (hend : o + n ≤ a.count) : a.mapped r := by
  obtain ⟨i, rfl, -, hi⟩ := h
  exact mapped_page (by omega)

theorem Head.mapped (h : Head r) : a.mapped r := by
  cases r with
  | null => exact h.elim
  | free => rfl
  | slot k => exact decide_eq_true h
  | page i => exact h.elim

end Primitives

section ListRuns
variable {p : Pool} {xs : Ref → List Ref} {e x : Ref}

theorem Lists.mapped (h : Lists p xs) (he : Head e) (hx : x ∈ e :: xs e) : p.area.mapped x := by
  rcases List.mem_cons.mp hx with rfl | hx
  · exact he.mapped
  · obtain ⟨i, hi, rfl, -⟩ := h.page e he x hx
    exact mapped_page hi

theorem Lists.only {S : Ref → Prop} {p' : Pool} (h : Lists p xs) (hrest : Rest S xs p p')
    (hS : ∀ r, S r → p.area.mapped r) : Only p p' := by
  have hcell : ∀ r, ¬ p.area.mapped r → ¬ Cell xs r := by
    rintro r hr ⟨e, he, hmem⟩
    exact hr (h.mapped he hmem)
  exact ⟨hrest.area, fun r hr => hrest.slab r fun hs => hr (hS r hs),
    fun r hr => hrest.type r (fun hs => hr (hS r hs)) fun hh => hcell r hr hh.cell,
    fun r hr => hrest.next r (fun hs => hr (hS r hs)) (hcell r hr),
    fun r hr => hrest.prev r (fun hs => hr (hS r hs)) (hcell r hr)⟩

theorem Lists.type_eq (h : Lists p xs) (he : Head e) (hx : x ∈ xs e) : p.type x = headType e := by
  obtain ⟨i, hi, -, htype⟩ := h.page e he x hx
  exact htype

theorem Lists.next_ne_null (h : Lists p xs) (he : Head e) (hx : x ∈ xs e) : p.next x ≠ .null := by
  intro hnull
  have hmapped := h.mapped he (h.rings.next_mem he hx).1
  rw [hnull] at hmapped
  cases hmapped

theorem unlink_eq (hx : p.area.mapped x) (hprev : p.area.mapped (p.prev x))
    (hnext : p.area.mapped (p.next x)) (hne : p.prev x ≠ x) :
    unlink x p = some { p with
      next := update p.next (p.prev x) (p.next x)
      prev := update p.prev (p.next x) (p.prev x)
      type := update p.type (p.next x) (p.type x) } := by
  have hsame : update p.next (p.prev x) (p.next x) x = p.next x :=
    update_of_ne hne.symm ..
  simp only [unlink, Pool.read, Pool.setNext, Pool.setPrev, Pool.write, hx, hprev, hnext, hsame, if_true,
    Option.bind_eq_bind, Option.bind_some]

theorem Lists.unlink_run (h : Lists p xs) (he : Head e) (hx : x ∈ xs e) :
    ∃ p' ys, unlink x p = some p' ∧ p'.pfree = p.pfree ∧ p'.slab = p.slab ∧
      Rest (fun _ => False) xs p p' ∧ Lists p' (update xs e ys) ∧
      ∀ a, a ∈ ys ↔ a ∈ xs e ∧ a ≠ x := by
  have hprev := h.rings.prev_mem he hx
  have hnext := h.rings.next_mem he hx
  obtain ⟨ys, hrings, hys⟩ := h.rings.unlink he hx
  have htype : ∀ r, ¬ Head r → update p.type (p.next x) (p.type x) r = p.type r := by
    intro r hr
    by_cases hrx : r = p.next x
    · rw [hrx] at hr ⊢
      have hmem := (List.mem_cons.mp hnext.1).resolve_left fun heq => hr (heq ▸ he)
      rw [update_self, h.type_eq he hmem, h.type_eq he hx]
    · exact update_of_ne hrx ..
  refine ⟨_, ys, unlink_eq (h.mapped he (List.mem_cons_of_mem _ hx)) (h.mapped he hprev.1)
    (h.mapped he hnext.1) hprev.2, rfl, rfl, ⟨rfl, fun _ _ => rfl, fun r _ hr => htype r hr,
      fun r _ hr => ?_, fun r _ hr => ?_⟩, h.renew rfl hrings ?_ ?_, hys⟩
  · refine update_of_ne ?_ ..
    rintro rfl
    exact hr ⟨e, he, hprev.1⟩
  · refine update_of_ne ?_ ..
    rintro rfl
    exact hr ⟨e, he, hnext.1⟩
  · intro e' he' a ha
    exact htype a (h.rings.inner e' a he' ha)
  · intro a ha
    exact .inl ((hys a).mp ha).1

theorem push_eq {t : PageType} (he : p.area.mapped e) (hx : p.area.mapped x)
    (hnext : p.area.mapped (p.next e)) (hne : x ≠ e) :
    push e t x p = some { p with
      next := update (update p.next x (p.next e)) e x
      prev := update (update p.prev x e) (p.next e) x
      type := update (update p.type x t) (p.next e) t } := by
  have hsame : update (update p.next x (p.next e)) e x x = p.next e := by
    rw [update_of_ne hne, update_self]
  simp only [push, Pool.read, Pool.setNext, Pool.setPrev, Pool.write, he, hx, hnext, hsame, if_true,
    Option.bind_eq_bind, Option.bind_some]

theorem Lists.push_run {i : ℕ} (h : Lists p xs) (he : Head e) (hi : i < p.area.count)
    (hnew : ∀ e', Head e' → Ref.page i ∉ xs e') :
    ∃ p', push e (headType e) (.page i) p = some p' ∧ p'.pfree = p.pfree ∧ p'.slab = p.slab ∧
      Rest (· = .page i) xs p p' ∧ p'.type (.page i) = headType e ∧
      Lists p' (update xs e (.page i :: xs e)) := by
  have hne : Ref.page i ≠ e := by
    rintro rfl
    exact he
  have hfirst : p.next e ∈ e :: xs e := by
    rw [h.rings.next_head he]
    cases xs e with
    | nil => exact List.mem_cons_self
    | cons z zs => exact List.mem_cons_of_mem _ List.mem_cons_self
  have htype : ∀ r, ¬ Head r → r ≠ .page i → update (update p.type (.page i) (headType e))
      (p.next e) (headType e) r = p.type r := by
    intro r hr hri
    by_cases hre : r = p.next e
    · have hmem := (List.mem_cons.mp hfirst).resolve_left fun heq => hr (hre.trans heq ▸ he)
      rw [hre, update_self, h.type_eq he hmem]
    · rw [update_of_ne hre, update_of_ne hri]
  have hself : update (update p.type (.page i) (headType e)) (p.next e) (headType e)
      (.page i) = headType e := by
    by_cases hie : Ref.page i = p.next e
    · rw [← hie, update_self]
    · rw [update_of_ne hie, update_self]
  refine ⟨_, push_eq he.mapped (mapped_page hi) (h.mapped he hfirst) hne, rfl, rfl,
    ⟨rfl, fun _ _ => rfl, fun r hri hr => htype r hr hri, fun r hri hr => ?_, fun r hri hr => ?_⟩, hself,
    h.renew rfl (h.rings.push he not_head_page hnew) ?_ ?_⟩
  · have hre : r ≠ e := by
      rintro rfl
      exact hr he.cell
    exact (update_of_ne hre ..).trans (update_of_ne hri ..)
  · have hre : r ≠ p.next e := by
      rintro rfl
      exact hr ⟨e, he, hfirst⟩
    exact (update_of_ne hre ..).trans (update_of_ne hri ..)
  · intro e' he' a ha
    refine htype a (h.rings.inner e' a he' ha) ?_
    rintro rfl
    exact hnew e' he' ha
  · intro a ha
    rcases List.mem_cons.mp ha with rfl | ha
    · exact .inr ⟨i, hi, rfl, hself⟩
    · exact .inl ha

end ListRuns

section Blank
variable {p : Pool} {w : BitVec 64}

structure Blank (p : Pool) (w : BitVec 64) (i : ℕ) : Prop where
  slab : p.slab (.page i) = w
  next : p.next (.page i) = .null
  type : p.type (.page i) = .page

variable {i : ℕ}

theorem Blank.congr {S : Ref → Prop} {p' : Pool} (h : Blank p w i) (haway : Away S p p')
    (hi : ¬ S (.page i)) : Blank p' w i :=
  ⟨(haway.slab _ hi).trans h.slab, (haway.next _ hi).trans h.next, (haway.type _ hi).trans h.type⟩

theorem setPage_run (hi : i < p.area.count) :
    ∃ p', setPage w i p = some p' ∧ p'.pfree = p.pfree ∧ Away (· = .page i) p p' ∧ Blank p' w i := by
  have hmapped := mapped_page hi
  have hrun : setPage w i p = some { p with
      slab := update p.slab (.page i) w
      next := update p.next (.page i) .null
      prev := update p.prev (.page i) .null
      type := update p.type (.page i) .page } := by
    simp only [setPage, Pool.setSlab, Pool.setNext, Pool.setPrev, Pool.write, hmapped, if_true,
      Option.bind_eq_bind, Option.bind_some]
  refine ⟨_, hrun, rfl, ⟨rfl, fun r hr => ?_, fun r hr => ?_, fun r hr => ?_, fun r hr => ?_⟩, ?_, ?_, ?_⟩
  all_goals first
    | exact update_of_ne hr ..
    | exact update_self ..

theorem setPages_run {n : ℕ} (h : i + n ≤ p.area.count) :
    ∃ p', setPages w i n p = some p' ∧ p'.pfree = p.pfree ∧ Away (Seg i n) p p' ∧
      ∀ j, i ≤ j → j < i + n → Blank p' w j := by
  induction n generalizing p i with
  | zero => exact ⟨p, rfl, rfl, .refl, fun j hj hj' => absurd hj' (by omega)⟩
  | succ n ih =>
    obtain ⟨p₁, hrun₁, hfree₁, haway₁, hblank₁⟩ := setPage_run (p := p) (w := w) (show i < _ by omega)
    obtain ⟨p₂, hrun₂, hfree₂, haway₂, hblank₂⟩ := ih (p := p₁) (i := i + 1)
      (by rw [haway₁.area]; omega)
    refine ⟨p₂, ?_, hfree₂.trans hfree₁, (haway₁.mono (seg_of_page le_rfl (by omega))).trans
      (haway₂.mono (Seg.mono (by omega) (by omega))), fun j hj hj' => ?_⟩
    · rw [setPages, hrun₁, Option.bind_eq_bind, Option.bind_some, hrun₂]
    · by_cases hji : j = i
      · rw [hji]
        refine hblank₁.congr haway₂ ?_
        rintro ⟨k, hk, hk', -⟩
        cases hk
        omega
      · exact hblank₂ j (by omega) (by omega)

end Blank

section Invariant
variable {p p' : Pool} {ps l r ys ys' : List Piece} {xs xs' : Ref → List Ref} {o o' i : ℕ} {x y : Piece}
  {e : Ref}
variable {a : Ref} {n : ℕ}

@[simp] theorem lead_nil : Lead o [] e a ↔ False := by
  simp [Lead, placed]

@[simp] theorem lead_cons :
    Lead o (x :: ys) e a ↔ Listed x e ∧ a = .page o ∨ Lead (o + x.len) ys e a := by
  constructor
  · rintro ⟨o', y, hy, hl, rfl⟩
    rcases List.mem_cons.mp hy with heq | hy
    · cases heq
      exact .inl ⟨hl, rfl⟩
    · exact .inr ⟨o', y, hy, hl, rfl⟩
  · rintro (⟨hl, rfl⟩ | ⟨o', y, hy, hl, rfl⟩)
    · exact ⟨o, x, List.mem_cons_self, hl, rfl⟩
    · exact ⟨o', y, List.mem_cons_of_mem _ hy, hl, rfl⟩

theorem lead_append :
    Lead o (ys ++ ys') e a ↔ Lead o ys e a ∨ Lead (o + total Piece.len ys) ys' e a := by
  simp only [Lead, placed_append, List.mem_append, or_and_right, exists_or]

theorem Shows.pos (h : Shows p o x) : 0 < x.len := by
  cases x with
  | free n => exact h.1
  | busy n => exact h.1
  | chunks s u => exact Nat.one_pos
  | gap n => exact h.1

@[simp] theorem listed_free : Listed (.free n) e ↔ e = .free := by
  cases e <;> simp [Listed]

@[simp] theorem listed_busy : Listed (.busy n) e ↔ False :=
  Iff.rfl

@[simp] theorem listed_gap : Listed (.gap n) e ↔ False :=
  Iff.rfl

@[simp] theorem listed_chunks {s : ℕ} {u : ℕ → Bool} :
    Listed (.chunks s u) e ↔ (6 ≤ s ∧ e = .slot (s - 6)) ∧ ¬ Full s u := by
  cases e with
  | slot k =>
    simp only [Listed, Ref.slot.injEq, and_congr_left_iff]
    omega
  | _ => simp [Listed]

theorem Shows.congr (h : Shows p o x) (harea : p'.area = p.area)
    (hslab : ∀ i, o ≤ i → i < o + x.len → p'.slab (.page i) = p.slab (.page i))
    (htype : ∀ i, o ≤ i → i < o + x.len → p'.type (.page i) = p.type (.page i))
    (hnext : (∀ e, Head e → ¬ Listed x e) → ∀ i, o ≤ i → i < o + x.len →
      p'.next (.page i) = p.next (.page i))
    (hprev : ∀ i, o < i → i < o + x.len → p'.prev (.page i) = p.prev (.page i)) : Shows p' o x := by
  have hclosed : ∀ n, x.len = n → Closed p o n → Closed p' o n := by
    intro n hn hc hlt
    rw [hslab _ (by omega) (by omega), htype _ (by omega) (by omega)]
    exact hc hlt
  cases x with
  | free n =>
    obtain ⟨hpos, hs, ht, hc, hback⟩ := h
    change ∀ i, o < i → i < o + n → _ at hprev
    change ∀ i, o ≤ i → i < o + n → _ at hslab htype
    refine ⟨hpos, ?_, ?_, hclosed n rfl hc, fun hlt hend => ?_⟩
    · rw [hslab o le_rfl (by omega), hs]
    · rw [htype o le_rfl (by omega), ht]
    · rw [harea] at hend
      rw [hprev _ (by omega) (by omega)]
      exact hback hlt hend
  | busy n =>
    obtain ⟨hpos, hs, hrest, hall⟩ := h
    change ∀ i, o ≤ i → i < o + n → _ at hslab htype
    have hnext' := hnext fun e _ hl => hl.elim
    change ∀ i, o ≤ i → i < o + n → _ at hnext'
    refine ⟨hpos, ?_, fun i hi hi' => ?_, fun i hi hi' => ?_⟩
    · rw [hslab o le_rfl (by omega), hs]
    · rw [hslab i (by omega) hi', hrest i hi hi']
    · rw [hnext' i hi hi', htype i hi hi']
      exact hall i hi hi'
  | chunks s u =>
    obtain ⟨hlo, hhi, ht, hbits, hfull⟩ := h
    change ∀ i, o ≤ i → i < o + 1 → _ at hslab htype
    refine ⟨hlo, hhi, ?_, ?_, fun hf => ?_⟩
    · rw [htype o le_rfl (by omega), ht]
    · rw [hslab o le_rfl (by omega)]
      exact hbits
    · exact (hnext (fun e _ hl => (listed_chunks.mp hl).2 hf) o le_rfl (Nat.lt_succ_self o)).trans
        (hfull hf)
  | gap n =>
    obtain ⟨hpos, hs, hc⟩ := h
    change ∀ i, o ≤ i → i < o + n → _ at hslab
    exact ⟨hpos, (hslab o le_rfl (by omega)).trans hs, hclosed n rfl hc⟩

theorem Shows.away {S : Ref → Prop} (h : Shows p o x) (haway : Away S p p')
    (hS : ∀ i, o ≤ i → i < o + x.len → ¬ S (.page i)) : Shows p' o x :=
  h.congr haway.area (fun i hi hi' => haway.slab _ (hS i hi hi')) (fun i hi hi' => haway.type _ (hS i hi hi'))
    (fun _ i hi hi' => haway.next _ (hS i hi hi')) fun i hi hi' => haway.prev _ (hS i hi.le hi')

theorem Shows.type_eq (h : Shows p o x) (hl : Listed x e) : p.type (.page o) = headType e := by
  cases x with
  | free n =>
    rw [listed_free.mp hl]
    exact h.2.2.1
  | busy n => exact hl.elim
  | gap n => exact hl.elim
  | chunks s u =>
    obtain ⟨⟨hs, rfl⟩, -⟩ := listed_chunks.mp hl
    rw [h.2.2.1, headType, Nat.sub_add_cancel hs]

theorem Inv.bounds (h : Inv p ps xs) (hx : (o, x) ∈ placed Piece.len 0 ps) :
    o + x.len ≤ p.area.count ∧ 0 < x.len := by
  have hb := placed_bounds hx
  rw [h.tiled] at hb
  exact ⟨by omega, (h.shows o x hx).pos⟩

theorem Inv.lists (h : Inv p ps xs) : Lists p xs := by
  refine ⟨h.rings, fun e he a ha => ?_⟩
  obtain ⟨o, x, hx, hl, rfl⟩ := (h.mem_iff e he a).mp ha
  have hb := h.bounds hx
  exact ⟨o, by omega, rfl, (h.shows o x hx).type_eq hl⟩

theorem Inv.listed_of_mem (h : Inv p ps xs) (hx : (o, x) ∈ placed Piece.len 0 ps) (he : Head e)
    (hi : o ≤ i ∧ i < o + x.len) (hmem : Ref.page i ∈ xs e) : i = o ∧ Listed x e := by
  obtain ⟨o', y, hy, hl, heq⟩ := (h.mem_iff e he _).mp hmem
  cases heq
  obtain ⟨rfl, rfl⟩ := placed_common hx hy hi ⟨le_rfl, Nat.lt_add_of_pos_right (h.bounds hy).2⟩
  exact ⟨rfl, hl⟩

theorem Inv.not_cell (h : Inv p ps xs) (hx : (o, x) ∈ placed Piece.len 0 ps)
    (hi : o ≤ i ∧ i < o + x.len) (hout : o < i ∨ ∀ e, Head e → ¬ Listed x e) :
    ¬ Cell xs (.page i) := by
  rintro ⟨e, he, hmem⟩
  have hmem' := (List.mem_cons.mp hmem).resolve_left fun heq => not_head_page (heq ▸ he)
  obtain ⟨heq, hl⟩ := h.listed_of_mem hx he hi hmem'
  rcases hout with hlt | hnone
  · omega
  · exact hnone e he hl

theorem Inv.rebuild (h : Inv p (l ++ ys ++ r) xs)
    (hrest : Rest (Seg (total Piece.len l) (total Piece.len ys)) xs p p')
    (hlen : total Piece.len ys' = total Piece.len ys) (hlists : Lists p' xs')
    (hmem : ∀ e, Head e → ∀ a, a ∈ xs' e ↔
      (a ∈ xs e ∧ ¬ Lead (total Piece.len l) ys e a) ∨ Lead (total Piece.len l) ys' e a)
    (hshows : ∀ o x, (o, x) ∈ placed Piece.len (total Piece.len l) ys' → Shows p' o x) :
    Inv p' (l ++ ys' ++ r) xs' := by
  -- a piece outside
  have hout : ∀ o x, (o, x) ∈ placed Piece.len 0 l ∨
      (o, x) ∈ placed Piece.len (total Piece.len l + total Piece.len ys) r →
      (o, x) ∈ placed Piece.len 0 (l ++ ys ++ r) ∧
        ∀ i, o ≤ i → i < o + x.len → ¬ Seg (total Piece.len l) (total Piece.len ys) (.page i) := by
    intro o x hx
    refine ⟨?_, ?_⟩
    · rw [mem_placed_append, Nat.zero_add]
      exact hx.elim .inl fun hx => .inr (.inr hx)
    · rintro i hi hi' ⟨j, hj, hj'⟩
      cases hj
      rcases hx with hx | hx <;> have hb := placed_bounds hx <;> omega
  -- and it is not led by a page inside
  have hapart : ∀ e a, Lead 0 l e a ∨ Lead (total Piece.len l + total Piece.len ys) r e a →
      ¬ Lead (total Piece.len l) ys e a := by
    intro e a hlead
    have hplaced : ∃ o x, ((o, x) ∈ placed Piece.len 0 l ∨
        (o, x) ∈ placed Piece.len (total Piece.len l + total Piece.len ys) r) ∧ a = .page o := by
      rcases hlead with ⟨o, x, hx, -, ha⟩ | ⟨o, x, hx, -, ha⟩
      · exact ⟨o, x, .inl hx, ha⟩
      · exact ⟨o, x, .inr hx, ha⟩
    obtain ⟨o, x, hx, rfl⟩ := hplaced
    rintro ⟨o', y, hy, -, heq⟩
    cases heq
    obtain ⟨hold, hseg⟩ := hout o x hx
    have hb := placed_bounds hy
    have hin : (o, y) ∈ placed Piece.len 0 (l ++ ys ++ r) := by
      rw [mem_placed_append, Nat.zero_add]
      exact .inr (.inl hy)
    have hpos := (h.bounds hin).2
    exact hseg o le_rfl (Nat.lt_add_of_pos_right (h.bounds hold).2) ⟨o, rfl, hb.1, by omega⟩
  refine ⟨by rw [hrest.area]; exact h.small, ?_, hlists.rings, fun e he a => ?_, fun o x hx => ?_⟩
  · rw [hrest.area, ← h.tiled]
    simp only [total_append, hlen]
  · have hold := h.mem_iff e he a
    have hnot := hapart e a
    simp only [lead_append, total_append, Nat.zero_add] at hold ⊢
    rw [hmem e he a, hold, hlen]
    tauto
  · rw [mem_placed_append, Nat.zero_add, hlen] at hx
    have hkeep : (o, x) ∈ placed Piece.len 0 l ∨
        (o, x) ∈ placed Piece.len (total Piece.len l + total Piece.len ys) r → Shows p' o x := by
      intro hx
      obtain ⟨hold, hseg⟩ := hout o x hx
      refine (h.shows o x hold).congr hrest.area (fun i hi hi' => hrest.slab _ (hseg i hi hi'))
        (fun i hi hi' => hrest.type _ (hseg i hi hi') not_head_page) (fun hnone i hi hi' => ?_)
        fun i hi hi' => ?_
      · exact hrest.next _ (hseg i hi hi') (h.not_cell hold ⟨hi, hi'⟩ (.inr hnone))
      · exact hrest.prev _ (hseg i hi.le hi') (h.not_cell hold ⟨hi.le, hi'⟩ (.inl hi))
    rcases hx with hx | hx | hx
    · exact hkeep (.inl hx)
    · exact hshows o x hx
    · exact hkeep (.inr hx)

end Invariant

end Aware.Slab
