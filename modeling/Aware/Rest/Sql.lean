import Aware.Lib.SqlText
import Aware.Rest.Handlers

/-!
# The texts of the statements

The handlers put the strings of a request between quotes into the text of a statement. What is passed
to the database depends on the checks before it and on what the queries before it return.
-/
namespace Aware.Rest

open SqlText
open Member (AlMemberConf)

structure Cells where
  key1 : Bytes
  key2 : Bytes
  key3 : Bytes
  value : Bytes
  deriving DecidableEq, Repr

def Row.cells (r : Row) : Cells :=
  ⟨utf8 r.key1, utf8 r.key2, utf8 r.key3, utf8 r.value⟩

def rowText (c : Cells) : Bytes :=
  utf8 "( '" ++ c.key1 ++ utf8 "', '" ++ c.key2 ++ utf8 "', '" ++ c.key3 ++ utf8 "', '" ++ c.value ++
    utf8 "')"

def rowsText : List Cells → Bytes
  | [] => []
  | c :: cs => rowText c ++ if cs = [] then [] else utf8 "," ++ rowsText cs

def insertHead : String :=
  "insert into aware(key1, key2, key3, value) values "

def insertText (cs : List Cells) : Bytes :=
  utf8 insertHead ++ rowsText cs

def closingText (head : String) (v : Bytes) : Bytes :=
  utf8 head ++ (v ++ utf8 "'")

/-- A text that is passed to the database, the statement it is meant as, and the strings in it
that come from outside. -/
structure Sent where
  text : Bytes
  cells : List (Bytes × Bytes)
  tail : Bytes
  strings : List Bytes

def closingSent (head : String) (known : List (String × String)) (gap : String) (v : Bytes) : Sent where
  text := closingText head v
  cells := known.map (fun x => (utf8 x.1, utf8 x.2)) ++ [(utf8 gap, v)]
  tail := []
  strings := [v]

def searchFilterText : Bytes → Sent :=
  closingSent "SELECT key2 FROM aware where is_live=1 and key1 = 'filter' and key3='name' and value='"
    [("SELECT key2 FROM aware where is_live=1 and key1 = ", "filter"), (" and key3=", "name")] " and value="

def countGroupsText : Bytes → Sent :=
  closingSent "SELECT count(*) FROM aware where is_live='1' and key1 = 'group' and key3='name' and value='"
    [("SELECT count(*) FROM aware where is_live=", "1"), (" and key1 = ", "group"), (" and key3=", "name")]
    " and value="

def retireText : Bytes → Sent :=
  closingSent "update aware set is_live = 0 where key2='" [] "update aware set is_live = 0 where key2="

def fetchFilterText : Bytes → Sent :=
  closingSent "SELECT key3, value FROM aware  where key1 = 'filter' and key2 = '"
    [("SELECT key3, value FROM aware  where key1 = ", "filter")] " and key2 = "

def rowCells (gap : Bytes) (c : Cells) : List (Bytes × Bytes) :=
  [(gap, c.key1), (utf8 ", ", c.key2), (utf8 ", ", c.key3), (utf8 ", ", c.value)]

def insertCells (gap : Bytes) : List Cells → List (Bytes × Bytes)
  | [] => []
  | c :: cs => rowCells gap c ++ insertCells (utf8 "),( ") cs

def insertSent (rows : List Row) : Sent where
  text := insertText (rows.map Row.cells)
  cells := insertCells (utf8 insertHead ++ utf8 "( ") (rows.map Row.cells)
  tail := utf8 ")"
  strings := rows.map fun r => utf8 r.value

/-! ### Requests -/

structure Answers where
  groups : Option ℕ
  filter : String
  begun : Bool

inductive SqlRequest where
  | groupAdd (msg : Option Json)
  | filterAdd (msg : Option Json) (f : ApiFilter)
  | memberAdd (msg : Option Json) (conf : AlMemberConf)
  | filterDelete (args : Option Json)

section Requests
variable {T : Type} (inet : Inet) (p : Points) (w : World T) (a : Answers)

def inserted (rows : ℕ → Option (List Row)) : List Sent :=
  if a.begun then (p.newid.bind rows).toList.map insertSent else []

def groupAddSent (j : Json) : List Sent :=
  (j.get "name").toList.flatMap fun name =>
    countGroupsText (utf8 name) ::
      if a.groups = some 0 then inserted p a fun gid => some (insertGroup gid name) else []

def filterAddSent (j : Json) (f : ApiFilter) : List Sent :=
  match filterChecks inet j f with
  | .error _ => []
  | .ok (_, name) =>
    searchFilterText (utf8 name) ::
      if a.filter = "" ∧ (j.get "group").isSome ∧ p.fetch then
        inserted p a fun vid => (filterRows j vid).toOption
      else []

def memberAddSent (j : Json) (conf : AlMemberConf) : List Sent :=
  match memberGroup p w j, memberChecks inet j conf with
  | .ok gid, .ok _ => if gid ≠ "" ∧ p.fetch then inserted p a fun mid => (memberRows j mid).toOption else []
  | _, _ => []

def deletionSent (kid : String) : List Sent :=
  if a.begun then retireText (utf8 kid) :: (if p.update then [fetchFilterText (utf8 kid)] else []) else []

def filterDeleteSent (j : Json) : List Sent :=
  if j.has "id" then (j.get "id").toList.flatMap (deletionSent p a)
  else (j.get "name").toList.flatMap fun name =>
    searchFilterText (utf8 name) :: if a.filter = "" then [] else deletionSent p a a.filter

/-- The texts with strings of the request that are passed to the database, in their order. -/
def sent : SqlRequest → List Sent
  | .groupAdd msg => msg.toList.flatMap (groupAddSent p a)
  | .filterAdd msg f => msg.toList.flatMap fun j => filterAddSent inet p a j f
  | .memberAdd msg conf => msg.toList.flatMap fun j => memberAddSent inet p w a j conf
  | .filterDelete args => args.toList.flatMap (filterDeleteSent p a)

end Requests

/-! ### Single texts -/

section Intended
variable {σ : Type} (R : Reader σ) {s : Sent}

def Sent.Known (s : Sent) : Prop :=
  (R.shape s.tail (s.cells.map Prod.fst)).isSome = true

def Sent.Intended (s : Sent) : Prop :=
  ∃ st, R.shape s.tail (s.cells.map Prod.fst) = some st ∧ R.read s.text = some (st, s.cells.map Prod.snd)

structure Sent.Sound (s : Sent) : Prop where
  text : s.text = woven s.tail s.cells
  gaps : ∀ x ∈ s.cells, Gap x.1
  tail : ∀ c ∈ s.tail, isPlain c = true
  spaced : Spaced s.cells
  strings : (∀ x ∈ s.cells, Clean x.2) ↔ ∀ v ∈ s.strings, Clean v

theorem Sent.Sound.clean_of_intended (hs : s.Sound) (h : s.Intended R) : ∀ v ∈ s.strings, Clean v := by
  obtain ⟨st, hshape, hread⟩ := h
  rw [hs.text] at hread
  exact hs.strings.mp ((R.read_iff hs.tail hs.gaps hs.spaced hshape).mp hread)

theorem Sent.Sound.intended_iff (hs : s.Sound) (hR : s.Known R) :
    s.Intended R ↔ ∀ v ∈ s.strings, Clean v := by
  refine ⟨hs.clean_of_intended R, fun hclean => ?_⟩
  obtain ⟨st, hshape⟩ := Option.isSome_iff_exists.mp hR
  refine ⟨st, hshape, ?_⟩
  rw [hs.text]
  exact (R.read_iff hs.tail hs.gaps hs.spaced hshape).mpr (hs.strings.mpr hclean)

theorem Sent.Sound.known (hs : s.Sound) : s.Known quotesOnly :=
  shape_quotesOnly hs.tail (List.forall_mem_map.mpr hs.gaps)

end Intended

/-! ### Texts that end with a string -/

theorem spaced_known {known : List (String × String)} (h : ∀ x ∈ known, Gap (utf8 x.1) ∧ Clean (utf8 x.2))
    (x : Bytes × Bytes) : Spaced (known.map (fun x => (utf8 x.1, utf8 x.2)) ++ [x]) := by
  induction known with
  | nil => exact ⟨.inr fun y hy => (by cases hy), trivial⟩
  | cons k known ih =>
    obtain ⟨hk, hknown⟩ := List.forall_mem_cons.mp h
    exact ⟨.inl hk.2, ih hknown⟩

theorem closingSent_sound {head gap : String} {known : List (String × String)}
    (htext : ∀ v, closingText head v = woven [] (known.map (fun x => (utf8 x.1, utf8 x.2)) ++ [(utf8 gap, v)]))
    (hknown : ∀ x ∈ known, Gap (utf8 x.1) ∧ Clean (utf8 x.2)) (hgap : Gap (utf8 gap)) (v : Bytes) :
    (closingSent head known gap v).Sound where
  text := htext v
  gaps := List.forall_mem_append.mpr
    ⟨List.forall_mem_map.mpr fun x hx => (hknown x hx).1, List.forall_mem_singleton.mpr hgap⟩
  tail _ hc := absurd hc List.not_mem_nil
  spaced := spaced_known hknown _
  strings := by
    change (∀ x ∈ known.map (fun x => (utf8 x.1, utf8 x.2)) ++ [(utf8 gap, v)], Clean x.2) ↔ ∀ u ∈ [v], Clean u
    rw [List.forall_mem_append, List.forall_mem_map, List.forall_mem_singleton, List.forall_mem_singleton]
    exact and_iff_right fun x hx => (hknown x hx).2

theorem searchFilterText_sound (name : Bytes) : (searchFilterText name).Sound :=
  closingSent_sound (fun _ => by rfl) (by decide +kernel) (by decide +kernel) name

theorem countGroupsText_sound (name : Bytes) : (countGroupsText name).Sound :=
  closingSent_sound (fun _ => by rfl) (by decide +kernel) (by decide +kernel) name

theorem retireText_sound (kid : Bytes) : (retireText kid).Sound :=
  closingSent_sound (fun _ => by rfl) (by decide +kernel) (by decide +kernel) kid

theorem fetchFilterText_sound (kid : Bytes) : (fetchFilterText kid).Sound :=
  closingSent_sound (fun _ => by rfl) (by decide +kernel) (by decide +kernel) kid

/-! ### Insertions -/

structure Cells.Keyed (c : Cells) : Prop where
  key1 : Clean c.key1
  nonempty : c.key1 ≠ []
  key2 : Clean c.key2
  key3 : Clean c.key3

theorem rowsText_eq (gap : Bytes) (c : Cells) (cs : List Cells) :
    gap ++ rowsText (c :: cs) = woven (utf8 ")") (insertCells (gap ++ utf8 "( ") (c :: cs)) := by
  have hopen : utf8 "( '" = utf8 "( " ++ [quote] := by rfl
  have hsep : utf8 "', '" = quote :: (utf8 ", " ++ [quote]) := by rfl
  have hclose : utf8 "')" = quote :: utf8 ")" := by rfl
  induction cs generalizing gap c with
  | nil => simp [rowsText, rowText, insertCells, rowCells, woven, hopen, hsep, hclose]
  | cons c' cs ih =>
    have hnext : utf8 ")" ++ (utf8 "," ++ rowsText (c' :: cs)) =
        woven (utf8 ")") (insertCells (utf8 "),( ") (c' :: cs)) := ih (utf8 ")" ++ utf8 ",") c'
    rw [insertCells, rowsText, if_neg (List.cons_ne_nil _ _)]
    simp only [rowCells, List.cons_append, List.nil_append, woven, ← hnext]
    simp [rowText, hopen, hsep, hclose]

theorem insertCells_spec {gap : Bytes} (hgap : Gap gap) {cs : List Cells} (hcs : ∀ c ∈ cs, c.Keyed) :
    (∀ x ∈ insertCells gap cs, Gap x.1) ∧ Spaced (insertCells gap cs) ∧
      (∀ y ∈ (insertCells gap cs).head?, Clean y.2 ∧ y.2 ≠ []) ∧
      ((∀ x ∈ insertCells gap cs, Clean x.2) ↔ ∀ c ∈ cs, Clean c.value) := by
  induction cs generalizing gap with
  | nil => exact ⟨by simp [insertCells], trivial, by simp [insertCells], by simp [insertCells]⟩
  | cons c cs ih =>
    have hsep : Gap (utf8 ", ") := by decide +kernel
    obtain ⟨hc, hcs⟩ := List.forall_mem_cons.mp hcs
    have hnext : Gap (utf8 "),( ") := by decide +kernel
    obtain ⟨hgaps, hspaced, hhead, hclean⟩ := ih hnext hcs
    have hcells : insertCells gap (c :: cs) = (gap, c.key1) :: (utf8 ", ", c.key2) :: (utf8 ", ", c.key3) ::
        (utf8 ", ", c.value) :: insertCells (utf8 "),( ") cs := rfl
    simp only [hcells, List.forall_mem_cons]
    refine ⟨⟨hgap, hsep, hsep, hsep, hgaps⟩,
      ⟨.inl hc.key1, .inl hc.key2, .inl hc.key3, .inr hhead, hspaced⟩, ?_, ?_⟩
    · rintro y ⟨⟩
      exact ⟨hc.key1, hc.nonempty⟩
    · rw [hclean]
      exact ⟨fun h => h.2.2.2, fun h => ⟨hc.key1, hc.key2, hc.key3, h⟩⟩

theorem clean_nts (n : ℕ) : Clean (utf8 (nts n)) := by
  have hdigit : ∀ c ∈ (nts n).toList, 48 ≤ c.toNat ∧ c.toNat ≤ 57 := by
    intro c hc
    have hd := Numerals.isDigit_of_mem_repr hc
    simp only [Char.isDigit, Bool.and_eq_true, decide_eq_true_eq, ge_iff_le, UInt32.le_iff_toNat_le] at hd
    exact hd
  have hbyte : ∀ b ∈ utf8 (nts n), 48 ≤ b := by
    intro b hb
    obtain ⟨c, hc, rfl⟩ := mem_utf8_of_ascii (fun c hc => (hdigit c hc).2.trans (by decide)) hb
    have := hdigit c hc
    rw [UInt8.le_iff_toNat_le, UInt8.toNat_ofNat']
    change 48 ≤ _
    omega
  exact ⟨fun h => absurd (hbyte _ h) (by decide), fun h => absurd (hbyte _ h) (by decide)⟩

def keyNames : List String :=
  ["group", "filter", "member", "name", "hcheck", "algorithm", "iptype", "port", "address",
    "filter_type", "proto", "next_filter", "address_mask", "weight"]

theorem clean_keyNames : ∀ k ∈ keyNames, Clean (utf8 k) ∧ utf8 k ≠ [] := by
  decide

theorem keyed_rowsOf {key1 : String} (hkey1 : key1 ∈ keyNames) {id : ℕ} {text : String → Option String}
    {keys : List String} (hkeys : ∀ k ∈ keys, k ∈ keyNames) {rows : List Row}
    (h : rowsOf key1 (nts id) text keys = some rows) : ∀ c ∈ rows.map Row.cells, c.Keyed := by
  induction keys generalizing rows with
  | nil =>
    cases h
    exact fun c hc => absurd hc List.not_mem_nil
  | cons k keys ih =>
    obtain ⟨s, rows', -, hrows', rfl⟩ := rowsOf_cons.mp h
    obtain ⟨hk, hkeys⟩ := List.forall_mem_cons.mp hkeys
    obtain ⟨hclean, hne⟩ := clean_keyNames key1 hkey1
    exact List.forall_mem_cons.mpr ⟨⟨hclean, hne, clean_nts id, (clean_keyNames k hk).1⟩, ih hkeys hrows'⟩

theorem insertSent_sound {key1 k : String} (hkey1 : key1 ∈ keyNames) {id : ℕ} {text : String → Option String}
    {keys : List String} (hkeys : ∀ k' ∈ k :: keys, k' ∈ keyNames) {rows : List Row}
    (h : rowsOf key1 (nts id) text (k :: keys) = some rows) : (insertSent rows).Sound := by
  have hopen : Gap (utf8 insertHead ++ utf8 "( ") := by decide +kernel
  obtain ⟨hgaps, hspaced, -, hclean⟩ := insertCells_spec hopen (keyed_rowsOf hkey1 hkeys h)
  have htail : ∀ c ∈ utf8 ")", isPlain c = true := by decide +kernel
  refine ⟨?_, hgaps, htail, hspaced, ?_⟩
  · obtain ⟨s, rows', -, -, rfl⟩ := rowsOf_cons.mp h
    exact rowsText_eq _ _ _
  · refine hclean.trans ?_
    rw [List.forall_mem_map]
    exact List.forall_mem_map.symm

/-! ### The texts of a request -/

section Sent
variable {T : Type} {inet : Inet} {p : Points} {w : World T} {a : Answers}

theorem inserted_sound {rows : ℕ → Option (List Row)}
    (h : ∀ id rs, rows id = some rs → (insertSent rs).Sound) : ∀ s ∈ inserted p a rows, s.Sound := by
  intro s hs
  unfold inserted at hs
  split at hs
  · obtain ⟨rs, hrs, rfl⟩ := List.mem_map.mp hs
    obtain ⟨id, -, hid⟩ := Option.bind_eq_some_iff.mp (Option.mem_toList.mp hrs)
    exact h id rs hid
  · cases hs

theorem groupAddSent_sound (j : Json) : ∀ s ∈ groupAddSent p a j, s.Sound := by
  intro s hs
  obtain ⟨name, -, hs⟩ := List.mem_flatMap.mp hs
  rcases List.mem_cons.mp hs with rfl | hs
  · exact countGroupsText_sound _
  · split at hs
    · refine inserted_sound (fun gid rs hrs => ?_) s hs
      cases hrs
      have hrows : rowsOf "group" (nts gid) (fun k => some (if k = "name" then name else "0"))
          ["name", "hcheck", "algorithm"] = some (insertGroup gid name) := rfl
      exact insertSent_sound (by decide) (by decide) hrows
    · cases hs

theorem filterKeys_mem (j : Json) : ∀ k ∈ filterKeys j, k ∈ keyNames := by
  unfold filterKeys
  split_ifs <;> decide

theorem filterAddSent_sound (j : Json) (f : ApiFilter) : ∀ s ∈ filterAddSent inet p a j f, s.Sound := by
  intro s hs
  unfold filterAddSent at hs
  split at hs
  · cases hs
  · rcases List.mem_cons.mp hs with rfl | hs
    · exact searchFilterText_sound _
    · split at hs
      · refine inserted_sound (fun vid rs hrs => ?_) s hs
        rw [filterRows, toOption_orStop] at hrs
        exact insertSent_sound (by decide) (filterKeys_mem j) hrs
      · cases hs

theorem memberKeys_mem (j : Json) : ∀ k ∈ memberKeys j, k ∈ keyNames := by
  unfold memberKeys
  split_ifs <;> decide

theorem memberAddSent_sound (j : Json) (conf : AlMemberConf) :
    ∀ s ∈ memberAddSent inet p w a j conf, s.Sound := by
  intro s hs
  unfold memberAddSent at hs
  split at hs
  · split at hs
    · refine inserted_sound (fun mid rs hrs => ?_) s hs
      rw [memberRows, toOption_orStop] at hrs
      exact insertSent_sound (by decide) (memberKeys_mem j) hrs
    · cases hs
  · cases hs

theorem deletionSent_sound (kid : String) : ∀ s ∈ deletionSent p a kid, s.Sound := by
  have hretire := retireText_sound (utf8 kid)
  have hfetch := fetchFilterText_sound (utf8 kid)
  unfold deletionSent
  split_ifs <;> simp [hretire, hfetch]

theorem filterDeleteSent_sound (j : Json) : ∀ s ∈ filterDeleteSent p a j, s.Sound := by
  intro s hs
  unfold filterDeleteSent at hs
  split at hs
  · obtain ⟨kid, -, hs⟩ := List.mem_flatMap.mp hs
    exact deletionSent_sound kid s hs
  · obtain ⟨name, -, hs⟩ := List.mem_flatMap.mp hs
    rcases List.mem_cons.mp hs with rfl | hs
    · exact searchFilterText_sound _
    · split at hs
      · cases hs
      · exact deletionSent_sound _ s hs

theorem sent_sound (r : SqlRequest) : ∀ s ∈ sent inet p w a r, s.Sound := by
  intro s hs
  cases r with
  | groupAdd msg =>
    obtain ⟨j, -, hs⟩ := List.mem_flatMap.mp hs
    exact groupAddSent_sound j s hs
  | filterAdd msg f =>
    obtain ⟨j, -, hs⟩ := List.mem_flatMap.mp hs
    exact filterAddSent_sound j f s hs
  | memberAdd msg conf =>
    obtain ⟨j, -, hs⟩ := List.mem_flatMap.mp hs
    exact memberAddSent_sound j conf s hs
  | filterDelete args =>
    obtain ⟨j, -, hs⟩ := List.mem_flatMap.mp hs
    exact filterDeleteSent_sound j s hs

/-- The texts passed to the database are read as they are meant exactly when no string from
outside has a quote or a zero byte. -/
theorem statements_intended_iff {σ : Type} (R : Reader σ) (r : SqlRequest)
    (hR : ∀ s ∈ sent inet p w a r, s.Known R) :
    (∀ s ∈ sent inet p w a r, s.Intended R) ↔ ∀ s ∈ sent inet p w a r, ∀ v ∈ s.strings, Clean v :=
  forall₂_congr fun s hs => (sent_sound r s hs).intended_iff R (hR s hs)

end Sent

/-! ### The handlers -/

section Handlers
variable {T : Type} {inet : Inet} {p : Points} {w : World T} {j : Json}
  {add : Addition} {rows : List Row}

theorem filterAdd_sent {f : ApiFilter} (h : filterAdd inet p w (some j) f = .ok add)
    (hrows : add.rows = some rows) :
    ∃ f' name, filterChecks inet j f = .ok (f', name) ∧
      sent inet p w ⟨none, searchFilterByName p w.rows name, true⟩ (.filterAdd (some j) f) =
        [searchFilterText (utf8 name), insertSent rows] := by
  simp only [filterAdd, bind_eq_ok, orStop_eq_ok] at h
  obtain ⟨_, ⟨⟩, ⟨f', name⟩, hchecks, h⟩ := h
  dsimp only at h
  split at h
  · cases h
  · next hname =>
      simp only [bind_eq_ok, orStop_eq_ok, Json.text] at h
      obtain ⟨vid, hvid, group, hgroup, h⟩ := h
      split at h
      · next hfetch =>
          cases h
          change (filterRows j vid).toOption = some rows at hrows
          refine ⟨f', name, hchecks, ?_⟩
          simp [sent, filterAddSent, hchecks, not_not.mp hname, hgroup, hfetch, inserted, hvid, hrows]
      · cases h

theorem memberAdd_sent {conf : AlMemberConf} (h : memberAdd inet p w (some j) conf = .ok add)
    (hrows : add.rows = some rows) :
    sent inet p w ⟨none, "", true⟩ (.memberAdd (some j) conf) = [insertSent rows] := by
  simp only [memberAdd, bind_eq_ok, orStop_eq_ok] at h
  obtain ⟨_, ⟨⟩, h⟩ := h
  split at h
  · obtain ⟨gid, hgid, h⟩ := bind_eq_ok.mp h
    split at h
    · cases h
    · next hempty =>
        simp only [bind_eq_ok, orStop_eq_ok] at h
        obtain ⟨conf', hconf, mid, hmid, h⟩ := h
        split at h
        · next hfetch =>
            cases h
            change (memberRows j mid).toOption = some rows at hrows
            simp [sent, memberAddSent, hgid, hconf, hempty, hfetch, inserted, hmid, hrows]
        · cases h
  · cases h

theorem groupAdd_sent {db : List Row} (h : groupAdd p w.rows (some j) = .ok db) :
    ∃ name rows, j.get "name" = some name ∧ db = w.rows ++ rows ∧
      sent inet p w ⟨some (groupsNamed w.rows name).length, "", true⟩ (.groupAdd (some j)) =
        [countGroupsText (utf8 name), insertSent rows] := by
  simp only [groupAdd, bind_eq_ok, orStop_eq_ok] at h
  obtain ⟨_, ⟨⟩, h⟩ := h
  split at h
  · simp only [bind_eq_ok, orStop_eq_ok, Json.raw] at h
    obtain ⟨name, hname, h⟩ := h
    split at h
    · split at h
      · cases h
      · next hnone =>
          obtain ⟨gid, hgid, h⟩ := bind_eq_ok.mp h
          rw [orStop_eq_ok] at hgid
          split at h
          · cases h
            refine ⟨name, _, hname, rfl, ?_⟩
            simp [sent, groupAddSent, hname, Nat.eq_zero_of_not_pos hnone, inserted, hgid]
          · cases h
    · cases h
  · cases h

end Handlers

def allGood : Points :=
  ⟨some 5, true, true, true, true, true, true, fun _ => none⟩

theorem web_intended :
    let w : World Unit := ⟨[], ()⟩
    let sents := sent someInet allGood w ⟨some 0, "", true⟩ (.groupAdd (some (jsonOf [("name", "web")])))
    sents.length = 2 ∧ (∀ s ∈ sents, s.Known quotesOnly) ∧ ∀ s ∈ sents, s.Intended quotesOnly := by
  intro w sents
  have hknown : ∀ s ∈ sents, s.Known quotesOnly := fun s hs => (sent_sound _ s hs).known
  have hclean : ∀ s ∈ sents, ∀ v ∈ s.strings, Clean v := by decide +kernel
  exact ⟨by decide, hknown, (statements_intended_iff quotesOnly _ hknown).mpr hclean⟩

theorem condition_in_id :
    let w : World Unit := ⟨[], ()⟩
    let sents := sent someInet allGood w ⟨none, "", true⟩
      (.filterDelete (some (jsonOf [("id", "5' or key1='group")])))
    (sents.head?.map Sent.text) = some (utf8 "update aware set is_live = 0 where key2='5' or key1='group'") ∧
      ∀ (σ : Type) (R : Reader σ), ¬ ∀ s ∈ sents, s.Intended R := by
  intro w sents
  refine ⟨by decide +kernel, fun σ R h => ?_⟩
  have hmem : retireText (utf8 "5' or key1='group") ∈ sents := List.mem_cons_self
  have hclean := (retireText_sound _).clean_of_intended R (h _ hmem) _ List.mem_cons_self
  exact absurd hclean (by decide +kernel)

end Aware.Rest
