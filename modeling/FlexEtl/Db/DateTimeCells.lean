/-
FlexEtl.Db.DateTimeCells — the time that a text stands for.

`getDateTime` gives `strptime` a local `struct tm` that nothing has been
assigned to. `strptime` stores the fields of the directives that the text
matches, and `mktime` then reads the record, so the time depends on the text
alone as far as `mktime` reads fields that were stored. No directive of the
format stores the daylight-saving flag, which `mktime` reads: no text stands
for one time (`not_oneInstant`). A C library without daylight saving leaves
the texts that match the whole format (`oneInstant_iff_matches`).

`getDate` clears its record first.
-/
import FlexEtl.Db.ColumnTheorems
import FlexEtl.Lib.FieldScan
import Mathlib.Data.List.Perm.Subperm

namespace FlexEtl

open FieldScan

/-! ## The fields of `struct tm` -/

inductive TmField where
  | sec | min | hour | mday | mon | year | wday | yday | isdst
  deriving DecidableEq, Repr

def Tm.get (tm : Tm) : TmField → Int
  | .sec => tm.sec
  | .min => tm.min
  | .hour => tm.hour
  | .mday => tm.mday
  | .mon => tm.mon
  | .year => tm.year
  | .wday => tm.wday
  | .yday => tm.yday
  | .isdst => tm.isdst

def Tm.set (tm : Tm) : TmField → Int → Tm
  | .sec, n => { tm with sec := n }
  | .min, n => { tm with min := n }
  | .hour, n => { tm with hour := n }
  | .mday, n => { tm with mday := n }
  | .mon, n => { tm with mon := n }
  | .year, n => { tm with year := n }
  | .wday, n => { tm with wday := n }
  | .yday, n => { tm with yday := n }
  | .isdst, n => { tm with isdst := n }

theorem Tm.get_set (tm : Tm) (f : TmField) (n : Int) :
    (tm.set f n).get = Function.update tm.get f n := by
  funext g
  by_cases hg : g = f
  · rw [hg, Function.update_self]
    cases f <;> rfl
  · rw [Function.update_of_ne hg]
    cases f <;> cases g <;> first | rfl | exact absurd rfl hg

theorem Tm.ext_get {tm tm' : Tm} (h : tm.get = tm'.get) : tm = tm' := by
  have hfield : ∀ f, tm.get f = tm'.get f := congrFun h
  cases tm
  cases tm'
  simp only [Tm.mk.injEq]
  exact ⟨hfield .sec, hfield .min, hfield .hour, hfield .mday, hfield .mon, hfield .year,
    hfield .wday, hfield .yday, hfield .isdst⟩

/-- `struct tm` as a record. -/
def tmFields : Fields TmField Int Tm where
  get := Tm.get
  set := Tm.set
  get_set := Tm.get_set
  ext _ _ := Tm.ext_get

/-- What a directive can store in a field: years from 1900, months from 0. No directive of
the two formats stores the other fields. -/
def TmField.range : TmField → Option (Int × Int)
  | .sec => some (0, 61)
  | .min => some (0, 59)
  | .hour => some (0, 23)
  | .mday => some (1, 31)
  | .mon => some (0, 11)
  | .year => some (-1900, 8099)
  | _ => none

/-- A directive can store `n` in the field. -/
def TmField.Has (f : TmField) (n : Int) : Prop :=
  ∃ low high, f.range = some (low, high) ∧ low ≤ n ∧ n ≤ high

/-- A record whose fields are in their ranges. -/
def Tm.InCalendar (tm : Tm) : Prop := ∀ f : TmField, f.range ≠ none → f.Has (tm.get f)

theorem inCalendar_first : Tm.InCalendar { mday := 1 } := by
  intro f hf
  cases f <;> first
    | exact absurd rfl hf
    | exact ⟨_, _, rfl, by decide, by decide⟩

/-- Values in range, stored into a record in range. -/
theorem inCalendar_store {l : List (TmField × Int)} (hl : ∀ p ∈ l, p.1.Has p.2) {tm : Tm}
    (htm : tm.InCalendar) : (tmFields.store l tm).InCalendar := by
  intro f hf
  by_cases hmem : f ∈ l.map Prod.fst
  · exact hl _ (tmFields.get_store_mem hmem tm)
  · have hget : (tmFields.store l tm).get f = tm.get f := tmFields.get_store_of_not_mem hmem tm
    rw [hget]
    exact htm f hf

/-! ## What the C library does -/

/-- With the format of `getDateTime`, `strptime` stores numbers in range, which the text
determines, and does nothing else to the record. -/
structure StoresDirectives (libc : Libc) : Prop where
  strptime : ∀ s, ∃ l : List (TmField × Int), (∀ p ∈ l, p.1.Has p.2) ∧
    ∀ tm, libc.strptime s "%Y-%m-%d %H:%M:%S" tm = tmFields.store l tm

/-- The time of every record in range depends on the field. -/
def DependsOn (mktime : Tm → Int) (f : TmField) : Prop :=
  ∀ tm : Tm, tm.InCalendar → ∃ n n', mktime (tm.set f n) ≠ mktime (tm.set f n')

/-! ## Instants -/

/-- The time of the text does not depend on what the local record holds. -/
def OneInstant (getter : Libc → Value → Int) (libc : Libc) (s : Bytes) : Prop :=
  ∀ tm tm', getter { libc with indeterminateTm := tm } (.str s) =
    getter { libc with indeterminateTm := tm' } (.str s)

/-- The other getter assigns its record before. -/
theorem oneInstant_getDate (libc : Libc) (s : Bytes) : OneInstant Value.getDate libc s :=
  fun _ _ => rfl

/-- The text stands for one time when what it stores determines what `mktime` reads. -/
theorem oneInstant_iff_determined {libc : Libc} {s : Bytes} {l : List (TmField × Int)}
    (hl : ∀ tm, libc.strptime (cstring s) "%Y-%m-%d %H:%M:%S" tm = tmFields.store l tm) :
    OneInstant Value.getDateTime libc s ↔ tmFields.Determined l libc.mktime := by
  have htime : ∀ tm, Value.getDateTime { libc with indeterminateTm := tm } (.str s) =
      libc.mktime (tmFields.store l tm) - libc.timezone := by
    intro tm
    rw [← hl]
    rfl
  unfold OneInstant Fields.Determined
  simp only [htime, Int.sub_left_inj]

/-- A field that the text does not store, and `mktime` reads. -/
theorem not_determined_of_dependsOn {mktime : Tm → Int} {l : List (TmField × Int)}
    (hl : ∀ p ∈ l, p.1.Has p.2) {f : TmField} (hf : f ∉ l.map Prod.fst)
    (hdepends : DependsOn mktime f) : ¬ tmFields.Determined l mktime := by
  obtain ⟨n, n', hne⟩ := hdepends _ (inCalendar_store hl inCalendar_first)
  exact tmFields.not_determined hf hne

/-- **DateTime strings.** Where `strptime` stores only what the directives of the format name
and `mktime` depends on the daylight-saving flag, no text at all stands for one time. -/
theorem not_oneInstant {libc : Libc} (hparse : StoresDirectives libc)
    (hmktime : DependsOn libc.mktime .isdst) (s : Bytes) :
    ¬ OneInstant Value.getDateTime libc s := by
  obtain ⟨l, hl, hstrptime⟩ := hparse.strptime (cstring s)
  have hflag : TmField.isdst ∉ l.map Prod.fst := by
    intro hmem
    obtain ⟨p, hp, hfield⟩ := List.mem_map.mp hmem
    obtain ⟨low, high, hrange, -⟩ := hl p hp
    rw [hfield] at hrange
    cases hrange
  rw [oneInstant_iff_determined hstrptime]
  exact not_determined_of_dependsOn hl hflag hmktime

/-! ## A C library -/

/-- The items of a format, for the directives that the two formats use. -/
def formatItems : List Char → List (Item TmField)
  | '%' :: 'Y' :: fmt => .number .year 1900 4 0 9999 :: formatItems fmt
  | '%' :: 'm' :: fmt => .number .mon 1 2 1 12 :: formatItems fmt
  | '%' :: 'd' :: fmt => .number .mday 0 2 1 31 :: formatItems fmt
  | '%' :: 'H' :: fmt => .number .hour 0 2 0 23 :: formatItems fmt
  | '%' :: 'M' :: fmt => .number .min 0 2 0 59 :: formatItems fmt
  | '%' :: 'S' :: fmt => .number .sec 0 2 0 61 :: formatItems fmt
  | ' ' :: fmt => .space :: formatItems fmt
  | c :: fmt => .literal (UInt8.ofNat c.toNat) :: formatItems fmt
  | [] => []

/-- `strptime`: a scan that stores as it goes. -/
def strptime (s : Bytes) (fmt : String) (tm : Tm) : Tm :=
  tmFields.store (stored (formatItems fmt.toList) s) tm

/-- The days from 1970-01-01 to a date, the years counted from 1900 and the months from 0. -/
def daysFromCivil (year mon mday : Int) : Int :=
  -- a year begins in March
  let y := if mon < 2 then year + 1899 else year + 1900
  let m := (mon + 10) % 12
  365 * y + y / 4 - y / 100 + y / 400 + (153 * m + 2) / 5 + mday - 719469

/-- `timegm`: the seconds from 1970 to the time of a record, all of whose days have 24 hours. -/
def timegm (tm : Tm) : Int :=
  daysFromCivil tm.year tm.mon tm.mday * 86400 + tm.hour * 3600 + tm.min * 60 + tm.sec

/-- `mktime` an hour east of Greenwich, where the daylight-saving flag takes an hour off. -/
def mktime (tm : Tm) : Int := timegm tm - 3600 - if 0 < tm.isdst then 3600 else 0

/-- The C library there, as far as `getDateTime` and `getDate` use it. -/
def calendarLibc : Libc := { idleLibc with strptime, mktime, timezone := -3600 }

/-- The C library where there is no daylight saving. -/
def greenwichLibc : Libc := { idleLibc with strptime, mktime := timegm }

/-- The format of `getDateTime`. -/
def dateTimeItems : List (Item TmField) :=
  [.number .year 1900 4 0 9999, .literal 45, .number .mon 1 2 1 12, .literal 45,
    .number .mday 0 2 1 31, .space, .number .hour 0 2 0 23, .literal 58,
    .number .min 0 2 0 59, .literal 58, .number .sec 0 2 0 61]

theorem formatItems_dateTime : formatItems "%Y-%m-%d %H:%M:%S".toList = dateTimeItems := by decide

theorem has_of_mem_stored {s : Bytes} : ∀ p ∈ stored dateTimeItems s, p.1.Has p.2 := by
  refine stored_forall (P := TmField.Has) ?_ s
  intro f base width low high hmem n hlow hhigh
  simp only [dateTimeItems, List.mem_cons, List.not_mem_nil, Item.number.injEq, reduceCtorEq,
    or_false, false_or] at hmem
  rcases hmem with ⟨rfl, rfl, -, rfl, rfl⟩ | ⟨rfl, rfl, -, rfl, rfl⟩ | ⟨rfl, rfl, -, rfl, rfl⟩ |
    ⟨rfl, rfl, -, rfl, rfl⟩ | ⟨rfl, rfl, -, rfl, rfl⟩ | ⟨rfl, rfl, -, rfl, rfl⟩
  all_goals exact ⟨_, _, rfl, by omega, by omega⟩

/-- A library that scans. -/
theorem storesDirectives_of_strptime {libc : Libc} (h : libc.strptime = strptime) :
    StoresDirectives libc := by
  refine ⟨fun s => ⟨stored dateTimeItems s, has_of_mem_stored, fun tm => ?_⟩⟩
  rw [h, strptime, formatItems_dateTime]

/-- The fields that the format stores. -/
def dateTimeFields : List TmField := [.year, .mon, .mday, .hour, .min, .sec]

/-- The text matches the whole format. -/
def MatchesFormat (s : Bytes) : Prop := (stored dateTimeItems s).map Prod.fst = dateTimeFields

/-- Without daylight saving, the texts that stand for one time are those that match the
whole format; one that matches only a part of it leaves the other fields as they were. -/
theorem oneInstant_iff_matches {libc : Libc} (hparse : libc.strptime = strptime)
    (hreads : ∀ tm tm' : Tm, (∀ f ∈ dateTimeFields, tm.get f = tm'.get f) →
      libc.mktime tm = libc.mktime tm')
    (hdepends : ∀ f ∈ dateTimeFields, DependsOn libc.mktime f) (s : Bytes) :
    OneInstant Value.getDateTime libc s ↔ MatchesFormat (cstring s) := by
  have hl : ∀ tm, libc.strptime (cstring s) "%Y-%m-%d %H:%M:%S" tm =
      tmFields.store (stored dateTimeItems (cstring s)) tm := by
    intro tm
    rw [hparse, strptime, formatItems_dateTime]
  rw [oneInstant_iff_determined hl]
  constructor
  · intro hdetermined
    have hprefix : (stored dateTimeItems (cstring s)).map Prod.fst <+: dateTimeFields :=
      stored_prefix dateTimeItems (cstring s)
    have hall : ∀ f ∈ dateTimeFields, f ∈ (stored dateTimeItems (cstring s)).map Prod.fst := by
      intro f hf
      by_contra hmissing
      exact not_determined_of_dependsOn has_of_mem_stored hmissing (hdepends f hf) hdetermined
    have hnodup : dateTimeFields.Nodup := by decide
    exact hprefix.eq_of_length_le (hnodup.subperm hall).length_le
  · intro hmatches
    refine tmFields.determined_of_stored fun tm tm' hsame => hreads tm tm' ?_
    rw [hmatches] at hsame
    exact hsame

/-- In Greenwich just the texts of the whole format stand for one time. -/
theorem oneInstant_greenwich (s : Bytes) :
    OneInstant Value.getDateTime greenwichLibc s ↔ MatchesFormat (cstring s) := by
  refine oneInstant_iff_matches rfl ?_ ?_ s
  · intro tm tm' hsame
    simp only [dateTimeFields, List.forall_mem_cons, List.not_mem_nil, Tm.get] at hsame
    obtain ⟨hyear, hmon, hmday, hhour, hmin, hsec, -⟩ := hsame
    simp only [greenwichLibc, timegm, hyear, hmon, hmday, hhour, hmin, hsec]
  · intro f hf tm _
    refine ⟨0, 1, ?_⟩
    simp only [dateTimeFields, List.mem_cons, List.not_mem_nil, or_false] at hf
    rcases hf with rfl | rfl | rfl | rfl | rfl | rfl
    all_goals
      simp only [greenwichLibc, timegm, daysFromCivil, Tm.set]
      split_ifs
      all_goals omega

theorem dependsOn_isdst : DependsOn mktime .isdst := by
  intro tm _
  refine ⟨0, 1, ?_⟩
  simp only [mktime, timegm, Tm.set]
  omega

/-- A text that has only the day. -/
theorem not_oneInstant_day :
    ¬ OneInstant Value.getDateTime calendarLibc (ascii "2020-01-01") :=
  not_oneInstant (storesDirectives_of_strptime rfl) dependsOn_isdst (ascii "2020-01-01")

/-- The first second of 2020: with the flag clear it is 1577836800, and an hour less with the
flag set. -/
theorem oneInstant_fails :
    ¬ OneInstant Value.getDateTime calendarLibc (ascii "2020-01-01 00:00:00") := by
  have htimes : ∀ isdst ∈ [(0, 1577836800), (1, 1577833200)],
      Value.getDateTime { calendarLibc with indeterminateTm := { isdst := isdst.1 } }
        (.str (ascii "2020-01-01 00:00:00")) = isdst.2 := by decide +kernel
  intro h
  have hequal := h { isdst := 0 } { isdst := 1 }
  rw [htimes (0, 1577836800) (by simp), htimes (1, 1577833200) (by simp)] at hequal
  exact absurd hequal (by decide)

end FlexEtl
