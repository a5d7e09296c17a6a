/-
FlexEtl.Json.MemberOrder — when the order of a line's members matters.

The members of a line are independent but for one thing: a nested object leaves
its key waiting, and the next key is then refused. So one member of that kind is
committed at the end of the line and refuses it anywhere else, and two of them
refuse it in any order (`refused_of_taken`). Every other line is committed or
refused in all its orders alike, with the same row (`orderFree_iff`).
-/
import FlexEtl.Json.LineTheorems

namespace FlexEtl

open ClickTable

/-! ## Members that leave their key waiting -/

namespace Json

/-- A member after which its key still waits for a value. -/
def waits (m : Bytes × Json) : Bool := m.2.isObject && !m.1.isEmpty

theorem waits_eq_false {m : Bytes × Json} :
    waits m = false ↔ (m.2.isObject = true → m.1 = []) := by
  cases hobj : m.2.isObject <;> simp [waits, hobj]

/-- A line of members that can be taken is refused for a member that leaves its key
waiting for the next one. -/
theorem refused_of_taken {ms : List (Bytes × Json)} (htaken : ∀ m ∈ ms, Taken m) :
    (object ms).refused = false ↔ ms.dropLast.countP waits = 0 := by
  rw [refused_object, and_iff_right htaken, List.countP_eq_zero]
  exact forall₂_congr fun m _ => by rw [← waits_eq_false, Bool.not_eq_true]

theorem countP_dropLast_le {p : Bytes × Json → Bool} (ms : List (Bytes × Json)) :
    ms.countP p ≤ ms.dropLast.countP p + 1 := by
  rcases List.eq_nil_or_concat ms with rfl | ⟨init, last, rfl⟩
  · simp
  · rw [List.concat_eq_append, List.dropLast_concat, List.countP_append]
    have hlast := List.countP_le_length (p := p) (l := [last])
    simpa using hlast

/-- Where the number of such members is not one, it decides alone. -/
theorem refused_of_countP {ms : List (Bytes × Json)} (htaken : ∀ m ∈ ms, Taken m)
    (hcount : ms.countP waits ≠ 1) :
    (object ms).refused = false ↔ ms.countP waits = 0 := by
  have hle : ms.dropLast.countP waits ≤ ms.countP waits :=
    (List.dropLast_sublist ms).countP_le
  have hge := countP_dropLast_le (p := waits) ms
  rw [refused_of_taken htaken]
  omega

theorem refused_of_not_taken {ms : List (Bytes × Json)} (h : ∃ m ∈ ms, ¬ Taken m) :
    (object ms).refused = true := by
  obtain ⟨m, hm, hnot⟩ := h
  by_contra hacc
  exact hnot ((refused_object.mp (Bool.not_eq_true _ ▸ hacc)).1 m hm)

/-- The keys a line appends under are keys of the line, each as often as there. -/
theorem appends_keys (ms : List (Bytes × Json)) :
    ((appends ms).map (·.1)).Sublist (ms.map (·.1)) := by
  induction ms with
  | nil => exact .slnil
  | cons m ms ih =>
      cases hcell : m.2.cell? with
      | none => simpa [appends, hcell] using ih.cons m.1
      | some v => simpa [appends, hcell] using ih.cons_cons m.1

end Json

/-! ## Orders of a line -/

namespace Json2Click

open Json

/-- Two lines are both committed, as the same row, or both rejected. -/
def SameLine (st : Json2Click) (ms ms' : List (Bytes × Json)) : Prop :=
  (st.parseLine (object ms).stream).2 = (st.parseLine (object ms').stream).2 ∧
    ((st.parseLine (object ms).stream).2 = true →
      (st.parseLine (object ms).stream).1.m_table = (st.parseLine (object ms').stream).1.m_table)

/-- A line means the same in every order of its members. -/
def OrderFree (st : Json2Click) (ms : List (Bytes × Json)) : Prop :=
  ∀ ms', ms'.Perm ms → SameLine st ms ms'

/-- Only the commit depends on the order: the row never does. -/
theorem sameLine_perm (st : Json2Click) {ms ms' : List (Bytes × Json)}
    (hkeys : (ms.map (·.1)).Nodup) (hperm : ms'.Perm ms) :
    SameLine st ms ms' ↔ (object ms).refused = (object ms').refused := by
  unfold SameLine
  rw [parseLine_stream, parseLine_stream]
  constructor
  · intro h
    exact Bool.not_inj h.1
  · intro hsame
    refine ⟨by rw [hsame], fun hcommit => ?_⟩
    have hacc : (object ms).refused = false := by simpa using hcommit
    have hacc' : (object ms').refused = false := hsame ▸ hacc
    have happ : (appends ms).Perm (appends ms') := (hperm.filterMap _).symm
    rw [parseLine_object hacc, parseLine_object hacc']
    exact row_perm _ ((appends_keys ms).nodup hkeys) happ true

/-- Wherever a member that leaves its key waiting stands, the line is refused unless it
is the last. -/
theorem refused_of_move {m : Bytes × Json} {rest : List (Bytes × Json)}
    (htaken : ∀ n ∈ m :: rest, Taken n) (hm : waits m = true) (hrest : rest.countP waits = 0)
    (hne : rest ≠ []) :
    (object (m :: rest)).refused = true ∧ (object (rest ++ [m])).refused = false := by
  constructor
  · rw [← Bool.not_eq_false, refused_of_taken htaken, List.dropLast_cons_of_ne_nil hne]
    simp [hm]
  · have htaken' : ∀ n ∈ rest ++ [m], Taken n := fun n hn => htaken n (by
      simpa [or_comm] using hn)
    rw [refused_of_taken htaken', List.dropLast_concat]
    exact hrest

/-- **Order of the members.** A line with distinct keys means the same in every order of
its members exactly when one of them cannot be taken, or the number of members with a
non-empty key whose value is an object is not one, or the line has a single member. -/
theorem orderFree_iff (st : Json2Click) {ms : List (Bytes × Json)}
    (hkeys : (ms.map (·.1)).Nodup) :
    OrderFree st ms ↔
      (∃ m ∈ ms, ¬ Taken m) ∨ ms.countP waits ≠ 1 ∨ ms.length = 1 := by
  constructor
  · intro hfree
    by_contra hnot
    push Not at hnot
    obtain ⟨htaken, hcount, hlen⟩ := hnot
    obtain ⟨m, hm, hwaits⟩ := List.countP_pos_iff.mp (by omega : 0 < ms.countP waits)
    obtain ⟨l, r, rfl⟩ := List.append_of_mem hm
    have hfront : (m :: (l ++ r)).Perm (l ++ m :: r) := List.perm_middle.symm
    have hback : (l ++ r ++ [m]).Perm (l ++ m :: r) := by
      simpa using (List.perm_append_singleton m (l ++ r)).trans hfront
    have hrest : (l ++ r).countP waits = 0 := by
      have := hfront.countP_eq waits
      rw [hcount, List.countP_cons_of_pos hwaits] at this
      omega
    have hne : l ++ r ≠ [] := by
      intro hnil
      have := hfront.length_eq
      rw [hnil] at this
      exact hlen this.symm
    have htaken' : ∀ n ∈ m :: (l ++ r), Taken n := fun n hn => htaken n (hfront.mem_iff.mp hn)
    obtain ⟨href, hacc⟩ := refused_of_move htaken' hwaits hrest hne
    have h1 := (sameLine_perm st hkeys hfront).mp (hfree _ hfront)
    have h2 := (sameLine_perm st hkeys hback).mp (hfree _ hback)
    rw [href] at h1
    rw [hacc, h1] at h2
    cases h2
  · intro hcond ms' hperm
    rw [sameLine_perm st hkeys hperm]
    by_cases hnot : ∃ m ∈ ms, ¬ Taken m
    · have hnot' : ∃ m ∈ ms', ¬ Taken m := by
        obtain ⟨m, hm, h⟩ := hnot
        exact ⟨m, hperm.mem_iff.mpr hm, h⟩
      rw [refused_of_not_taken hnot, refused_of_not_taken hnot']
    · have htaken : ∀ m ∈ ms, Taken m := by
        intro m hm
        by_contra h
        exact hnot ⟨m, hm, h⟩
      have htaken' : ∀ m ∈ ms', Taken m := fun m hm => htaken m (hperm.mem_iff.mp hm)
      rcases hcond with habs | hcount | hlen
      · exact absurd habs hnot
      · have heq : ms'.countP waits = ms.countP waits := hperm.countP_eq waits
        have hiff := refused_of_countP htaken hcount
        have hiff' := refused_of_countP htaken' (heq ▸ hcount)
        rw [heq, ← hiff] at hiff'
        exact (Bool.eq_iff_iff.mpr (by simpa using not_congr hiff')).symm
      · obtain ⟨m, rfl⟩ := List.length_eq_one_iff.mp hlen
        rw [hperm.eq_singleton]

/-- A line with an object in it, but under the empty key. -/
theorem orderFree_emptyKey :
    OrderFree {} [([97], .scalar (.int 1)), ([], .object [])] :=
  (orderFree_iff {} (by decide)).mpr (.inr (.inl (by decide)))

/-- The lines `{"a":{},"b":1}` and `{"b":1,"a":{}}`: the first is rejected, the second
committed as a row with nothing under `a`. -/
theorem memberOrder_matters :
    (({} : Json2Click).parseLine (Json.object
        [([97], .object []), ([98], .scalar (.uint 1))]).stream).2 = false ∧
      (({} : Json2Click).parseLine (Json.object
        [([98], .scalar (.uint 1)), ([97], .object [])]).stream).2 = true ∧
      ¬ OrderFree {} [([97], .object []), ([98], .scalar (.uint 1))] := by
  have hfirst : (({} : Json2Click).parseLine (Json.object
      [([97], .object []), ([98], .scalar (.uint 1))]).stream).2 = false := by decide +kernel
  have hsecond : (({} : Json2Click).parseLine (Json.object
      [([98], .scalar (.uint 1)), ([97], .object [])]).stream).2 = true := by decide +kernel
  refine ⟨hfirst, hsecond, fun hfree => ?_⟩
  have hsame := (hfree _ (.swap _ _ _)).1
  rw [hfirst, hsecond] at hsame
  cases hsame

end Json2Click

end FlexEtl
