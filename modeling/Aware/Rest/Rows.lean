import Aware.Lib.Numerals
import Mathlib.Data.BitVec

/-!
# Requests and rows

The messages the REST handlers parse, the rows of the table `aware` they keep objects in, and the
conversions between texts and numbers on the way.
-/
namespace Aware.Rest

/-- The columns that are used. Only routes have a `key4`. -/
structure Row where
  key1 : String
  key2 : String
  key3 : String
  key4 : Option String
  value : String
  isLive : Bool
  deriving DecidableEq, Repr

def liveRows (db : List Row) : List Row :=
  db.filter Row.isLive

def retire (p : Row → Bool) (db : List Row) : List Row :=
  db.map fun r => if p r then { r with isLive := false } else r

/-- A `std::map` filled from rows, in their order; a later row replaces an earlier one. -/
abbrev Fields :=
  List (String × String)

def Fields.find (d : Fields) (k : String) : Option String :=
  (d.reverse.find? fun e => e.1 == k).map Prod.snd

/-- `operator[]`, which makes an empty text of a missing key. -/
def Fields.get (d : Fields) (k : String) : String :=
  (d.find k).getD ""

def Row.belongs (key1 key2 : String) (r : Row) : Bool :=
  r.key1 == key1 && r.key2 == key2

def object (db : List Row) (key1 key2 : String) : Fields :=
  (db.filter (Row.belongs key1 key2)).map fun r => (r.key3, r.value)

def insertKey (k : String) : List String → List String
  | [] => [k]
  | a :: l => if k = a then a :: l else if k < a then k :: a :: l else a :: insertKey k l

def ids (db : List Row) (key1 : String) : List String :=
  (db.filter fun r => r.key1 == key1).foldl (fun l r => insertKey r.key2 l) []

def fieldRow (key1 key2 key3 value : String) : Row :=
  ⟨key1, key2, key3, none, value, true⟩

/-- The rows of an insertion, one for each key; `none` when the text of a value cannot be had. -/
def rowsOf (key1 key2 : String) (text : String → Option String) (keys : List String) :
    Option (List Row) :=
  keys.mapM fun k => (text k).map (fieldRow key1 key2 k)

inductive Value where
  | str (s : String)
  | num (n : ℤ)
  | other
  deriving DecidableEq, Repr

/-- A parsed message. One that is not an object has no keys. -/
abbrev Json :=
  String → Option Value

def Json.has (j : Json) (k : String) : Bool :=
  (j k).isSome

def Json.get (j : Json) (k : String) : Option String :=
  match j k with
  | some (.str s) => some s
  | _ => none

def nts (n : ℕ) : String :=
  n.repr

def stn16 (s : String) : UInt16 :=
  UInt16.ofNat (Numerals.scan 16 s)

def stn32 (s : String) : UInt32 :=
  UInt32.ofNat (Numerals.scan 32 s)

/-- `inet_pton`. An address is the number that its bytes in memory are on the little-endian host. -/
structure Inet where
  pton4 : String → Option (BitVec 32)
  pton6 : String → Option (BitVec 128)

/-- `*ip::al_ipu<AF_INET6>().to(..)` without a cast reads one 32-bit word of the address. -/
def firstWord (a : BitVec 128) : BitVec 128 :=
  (a.setWidth 32).setWidth 128

inductive Errno where
  | filterParamentsError
  | invalidIp
  | invalidIpType
  | invalidPort
  | filterTypeInvalid
  | protoTypeUnknown
  | protoUnknow
  | objectExist
  | objectEexist
  | intervalError
  | memberParamentsError
  | groupEexist
  | groupInfoNeed
  | groupDelFailed
  | routerParamentsMiss
  | dbSelectFailed
  | dbInsertFailed
  | deleteObjFailed
  | groupNameNeeded
  | resourceBusy
  deriving DecidableEq, Repr

/-- How a handler ends while it checks the request: with -1, with 0 although nothing was done, or
with an exception. -/
inductive Stop where
  | failed (errno : Option Errno)
  | idle (errno : Option Errno)
  | thrown
  deriving DecidableEq, Repr

def fail (e : Errno) : Stop :=
  .failed (some e)

def orStop {α : Type} (e : Stop) : Option α → Except Stop α
  | none => .error e
  | some a => .ok a

@[simp] theorem orStop_eq_ok {α : Type} {e : Stop} {x : Option α} {a : α} :
    orStop e x = .ok a ↔ x = some a := by
  cases x <;> simp [orStop]

theorem bind_eq_ok {ε α β : Type} {x : Except ε α} {f : α → Except ε β} {b : β} :
    (x >>= f) = .ok b ↔ ∃ a, x = .ok a ∧ f a = .ok b := by
  cases x with
  | error e => simp [bind, Except.bind]
  | ok a => simp [bind, Except.bind]

theorem Json.has_of_get {j : Json} {k s : String} (h : j.get k = some s) : j.has k = true := by
  unfold Json.get at h
  split at h
  · rename_i hk
    rw [Json.has, hk]
    rfl
  · cases h

theorem Fields.get_of_find {d : Fields} {k s : String} (h : d.find k = some s) : d.get k = s := by
  rw [Fields.get, h]
  rfl

theorem object_retire (p : Row → Bool) (db : List Row) (key1 key2 : String) :
    object (retire p db) key1 key2 = object db key1 key2 := by
  induction db with
  | nil => rfl
  | cons r db ih =>
    have hbelongs : (if p r then { r with isLive := false } else r).belongs key1 key2 =
        r.belongs key1 key2 := by
      split <;> rfl
    have hfields : ∀ r' : Row, r' = (if p r then { r with isLive := false } else r) →
        (r'.key3, r'.value) = (r.key3, r.value) := by
      rintro r' rfl
      split <;> rfl
    unfold object retire at ih ⊢
    rw [List.map_cons, List.filter_cons, List.filter_cons, hbelongs]
    split
    · rw [List.map_cons, List.map_cons, hfields _ rfl, ih]
    · exact ih

theorem mem_liveRows {db : List Row} {r : Row} : r ∈ liveRows db ↔ r ∈ db ∧ r.isLive = true :=
  List.mem_filter

theorem belongs_iff {r : Row} {key1 key2 : String} :
    r.belongs key1 key2 = true ↔ r.key1 = key1 ∧ r.key2 = key2 := by
  simp [Row.belongs]

theorem mem_insertKey {k k' : String} {l : List String} : k' ∈ insertKey k l ↔ k' = k ∨ k' ∈ l := by
  induction l with
  | nil => simp [insertKey]
  | cons a l ih =>
    rw [insertKey]
    split
    · next heq => simp [heq]
    · split
      · simp
      · rw [List.mem_cons, ih, List.mem_cons, or_left_comm]

theorem mem_ids {db : List Row} {key1 id : String} :
    id ∈ ids db key1 ↔ ∃ r ∈ db, r.belongs key1 id = true := by
  have hfold : ∀ (rows : List Row) (l : List String),
      id ∈ rows.foldl (fun l r => insertKey r.key2 l) l ↔ (∃ r ∈ rows, r.key2 = id) ∨ id ∈ l := by
    intro rows
    induction rows with
    | nil => simp
    | cons r rows ih =>
      intro l
      rw [List.foldl_cons, ih, mem_insertKey, List.exists_mem_cons_iff, eq_comm (a := id),
        or_left_comm, or_assoc]
  rw [ids, hfold]
  simp [belongs_iff, and_assoc]

theorem Fields.find_cons (k s : String) (d : Fields) (k' : String) :
    Fields.find ((k, s) :: d) k' = (d.find k').or (if k = k' then some s else none) := by
  unfold Fields.find
  rw [List.reverse_cons, List.find?_append, Option.map_or]
  by_cases hk : k = k' <;> simp [hk]

section RowsOf
variable {key1 key2 : String} {text : String → Option String} {keys : List String}
  {rows : List Row}

theorem rowsOf_cons {k : String} :
    rowsOf key1 key2 text (k :: keys) = some rows ↔
      ∃ s rows', text k = some s ∧ rowsOf key1 key2 text keys = some rows' ∧
        rows = fieldRow key1 key2 k s :: rows' := by
  simp only [rowsOf, List.mapM_cons, Option.bind_eq_bind, Option.bind_eq_some_iff,
    Option.map_eq_some_iff, Option.pure_def, Option.some.injEq]
  constructor
  · rintro ⟨_, ⟨s, hs, rfl⟩, rows', hrows', rfl⟩
    exact ⟨s, rows', hs, hrows', rfl⟩
  · rintro ⟨s, rows', hs, hrows', rfl⟩
    exact ⟨_, ⟨s, hs, rfl⟩, rows', hrows', rfl⟩

theorem isSome_of_rowsOf (h : rowsOf key1 key2 text keys = some rows) {k : String} (hk : k ∈ keys) :
    (text k).isSome := by
  induction keys generalizing rows with
  | nil => cases hk
  | cons a keys ih =>
    obtain ⟨s, rows', hs, hrows', rfl⟩ := rowsOf_cons.mp h
    rcases List.mem_cons.mp hk with rfl | hk
    · rw [hs]
      rfl
    · exact ih hrows' hk

theorem find_rowsOf (h : rowsOf key1 key2 text keys = some rows) (k : String) :
    Fields.find (rows.map fun r => (r.key3, r.value)) k = if k ∈ keys then text k else none := by
  induction keys generalizing rows with
  | nil =>
    cases h
    rfl
  | cons a keys ih =>
    obtain ⟨s, rows', hs, hrows', rfl⟩ := rowsOf_cons.mp h
    rw [List.map_cons, fieldRow, Fields.find_cons, ih hrows']
    by_cases hk : k ∈ keys
    · obtain ⟨v, hv⟩ := Option.isSome_iff_exists.mp (isSome_of_rowsOf hrows' hk)
      simp [hk, hv]
    · by_cases ha : a = k
      · subst ha
        simp [hk, hs]
      · simp [hk, ha, Ne.symm ha]

theorem mem_rowsOf (h : rowsOf key1 key2 text keys = some rows) {r : Row} (hr : r ∈ rows) :
    r.isLive = true ∧ r.key1 = key1 ∧ r.key2 = key2 := by
  induction keys generalizing rows with
  | nil =>
    cases h
    cases hr
  | cons a keys ih =>
    obtain ⟨s, rows', hs, hrows', rfl⟩ := rowsOf_cons.mp h
    rcases List.mem_cons.mp hr with rfl | hr
    · exact ⟨rfl, rfl, rfl⟩
    · exact ih hrows' hr

theorem object_rowsOf (h : rowsOf key1 key2 text keys = some rows) {db : List Row}
    (hdb : db.filter (Row.belongs key1 key2) = rows) (k : String) :
    (object db key1 key2).find k = if k ∈ keys then text k else none := by
  rw [object, hdb]
  exact find_rowsOf h k

theorem live_of_rowsOf (h : rowsOf key1 key2 text keys = some rows) {db : List Row}
    (hdb : db.filter (Row.belongs key1 key2) = rows) :
    (liveRows db).filter (Row.belongs key1 key2) = rows := by
  rw [liveRows, List.filter_comm, hdb]
  exact List.filter_eq_self.mpr fun r hr => (mem_rowsOf h hr).1

theorem filter_rowsOf (h : rowsOf key1 key2 text keys = some rows) :
    rows.filter (Row.belongs key1 key2) = rows := by
  refine List.filter_eq_self.mpr fun r hr => ?_
  obtain ⟨_, h1, h2⟩ := mem_rowsOf h hr
  simp [Row.belongs, h1, h2]

end RowsOf

theorem stn32_nts (n : ℕ) : stn32 (nts n) = if n < 2 ^ 32 then UInt32.ofNat n else 0 := by
  rw [stn32, nts, Numerals.scan_repr]
  split <;> rfl

theorem firstWord_eq_iff (a : BitVec 128) : firstWord a = a ↔ a.toNat < 2 ^ 32 := by
  rw [← BitVec.toNat_inj, firstWord, BitVec.toNat_setWidth, BitVec.toNat_setWidth]
  have := a.isLt
  omega

def jsonOf (l : List (String × String)) : Json :=
  fun k => (l.lookup k).map .str

def someInet : Inet :=
  ⟨fun s => List.lookup s [("10.0.0.1", 0x0100000a), ("255.255.255.0", 0x00ffffff)], fun _ => none⟩

end Aware.Rest
