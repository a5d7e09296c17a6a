/-
FlexEtl.Node.ConfigTheorems — expansion is substitution.

A `Template` is what a string in the configuration means: literals with the
names of macros between them. `expandString` cuts the text of one at the percent signs
and gets its pieces back, but for an empty literal at the end
(`Lines.fields_joined`), which adds nothing on either pass. So one pass
collects the names and the other substitutes (`collect_string`,
`expand_string`), and along a tree of templates both do so for all of it.
-/
import FlexEtl.Node.Config

namespace FlexEtl

/-! ## Templates -/

/-- A text between macros. -/
structure Literal where
  chars : Bytes
  noPercent : 37 ∉ chars
  plain : 0 ∉ chars

/-- The name of a macro. -/
structure MacroName extends Literal where
  nonempty : chars ≠ []

/-- A literal, and pairs of a name and the literal after it. -/
structure Template where
  head : Literal
  holes : List (MacroName × Literal)

namespace Template

/-- The literals and the names. -/
def parts (t : Template) : List Bytes :=
  t.head.chars :: t.holes.flatMap fun hole => [hole.1.chars, hole.2.chars]

/-- The characters in the configuration. -/
def text (t : Template) : Bytes :=
  t.head.chars ++ t.holes.flatMap fun hole => 37 :: hole.1.chars ++ 37 :: hole.2.chars

/-- The names of the macros. -/
def names (t : Template) : List Bytes := t.holes.map (·.1.chars)

/-- The text with values for the names. -/
def substitute (assign : Bytes → Bytes) (t : Template) : Bytes :=
  t.head.chars ++ t.holes.flatMap fun hole => assign hole.1.chars ++ hole.2.chars

theorem zero_not_mem_text (t : Template) : 0 ∉ t.text := by
  intro h
  rcases List.mem_append.mp h with hhead | hholes
  · exact t.head.plain hhead
  · obtain ⟨hole, -, hmem⟩ := List.mem_flatMap.mp hholes
    rcases List.mem_append.mp hmem with hname | hliteral
    · rcases List.mem_cons.mp hname with hpercent | hname
      · exact absurd hpercent (by decide)
      · exact hole.1.plain hname
    · rcases List.mem_cons.mp hliteral with hpercent | hliteral
      · exact absurd hpercent (by decide)
      · exact hole.2.plain hliteral

/-- The string in the configuration. -/
def string (t : Template) : CString := ⟨t.text, t.zero_not_mem_text⟩

/-- The string of it, with values for the names. -/
def expanded (assign : Bytes → Bytes) (t : Template) : CString :=
  CString.ofBytes (t.substitute assign)

theorem expanded_of_holes {t : Template} (assign : Bytes → Bytes) (h : t.holes = []) :
    t.expanded assign = t.string := by
  have hsame : t.substitute assign = t.string.chars := by simp [substitute, string, text, h]
  rw [expanded, hsame, CString.ofBytes_chars]

/-- A value without a zero byte is kept whole. -/
theorem expanded_chars {assign : Bytes → Bytes} {t : Template}
    (h : ∀ name ∈ t.names, 0 ∉ assign name) :
    (t.expanded assign).chars = t.substitute assign := by
  refine cstring_of_plain ?_
  intro hmem
  rcases List.mem_append.mp hmem with hhead | hholes
  · exact t.head.plain hhead
  · obtain ⟨hole, hhole, hmem⟩ := List.mem_flatMap.mp hholes
    rcases List.mem_append.mp hmem with hvalue | hliteral
    · exact h _ (List.mem_map_of_mem hhole) hvalue
    · exact hole.2.plain hliteral

theorem percent_not_mem_parts (t : Template) : ∀ part ∈ t.parts, 37 ∉ part := by
  intro part hpart
  rcases List.mem_cons.mp hpart with rfl | hpart
  · exact t.head.noPercent
  · obtain ⟨hole, -, hmem⟩ := List.mem_flatMap.mp hpart
    rcases List.mem_pair.mp hmem with rfl | rfl
    · exact hole.1.noPercent
    · exact hole.2.noPercent

theorem text_eq_joined (t : Template) :
    t.text = Lines.joined 37 t.head.chars
      (t.holes.flatMap fun hole => [hole.1.chars, hole.2.chars]) := by
  obtain ⟨head, holes⟩ := t
  unfold text
  induction holes generalizing head with
  | nil => simp [Lines.joined]
  | cons hole holes ih =>
      have hrest := ih hole.2
      simp only [List.flatMap_cons] at hrest ⊢
      simp only [List.cons_append, List.nil_append, Lines.joined, ← hrest, List.append_assoc]

/-- The pieces of the text are the parts, but for an empty literal at the end. -/
theorem fields_text (t : Template) :
    Lines.fields 37 t.text = t.parts ∨ Lines.fields 37 t.text ++ [[]] = t.parts := by
  rw [text_eq_joined]
  exact Lines.fields_joined t.percent_not_mem_parts

theorem length_parts (t : Template) : t.parts.length = 2 * t.holes.length + 1 := by
  simp [parts, List.length_flatMap, Nat.mul_comm]

/-- There is a single piece only when there is no macro. -/
theorem holes_eq_nil {t : Template} (h : (Lines.fields 37 t.text).length = 1) : t.holes = [] := by
  have hlen := t.length_parts
  rcases t.fields_text with hparts | hparts
  · rw [← hparts, h] at hlen
    exact List.length_eq_zero_iff.mp (by omega)
  · rw [← hparts, List.length_append, h, List.length_singleton] at hlen
    omega

end Template

/-! ## Collecting -/

/-- The map with some names more. -/
def collectNames (expandValues : ExpandValues) (names : List Bytes) : ExpandValues :=
  names.foldl (fun values name => values.insertIfNew name []) expandValues

theorem mem_collectNames {expandValues : ExpandValues} {names : List Bytes} {name : Bytes} :
    name ∈ collectNames expandValues names ↔ name ∈ expandValues ∨ name ∈ names := by
  induction names generalizing expandValues with
  | nil => simp [collectNames]
  | cons first names ih =>
      have hstep := @ih (expandValues.insertIfNew first [])
      rw [collectNames, List.foldl_cons]
      rw [collectNames] at hstep
      rw [hstep, Std.ExtTreeMap.mem_insertIfNew, Std.LawfulEqCmp.compare_eq_iff_eq, List.mem_cons]
      constructor
      · rintro ((rfl | hold) | hnames)
        · exact .inr (.inl rfl)
        · exact .inl hold
        · exact .inr (.inr hnames)
      · rintro (hold | rfl | hnames)
        · exact .inl (.inr hold)
        · exact .inl (.inl rfl)
        · exact .inr hnames

/-- The pieces after the first are names and literals in turn. -/
theorem zipIdx_holes (hole : MacroName × Literal) (holes : List (MacroName × Literal)) (k : Nat) :
    ((hole :: holes).flatMap fun hole => [hole.1.chars, hole.2.chars]).zipIdx k =
      (hole.1.chars, k) :: (hole.2.chars, k + 1) ::
        (holes.flatMap fun hole => [hole.1.chars, hole.2.chars]).zipIdx (k + 2) := rfl

theorem collect_holes (holes : List (MacroName × Literal)) {k : Nat} (hk : k % 2 = 1)
    (expandValues : ExpandValues) :
    ((holes.flatMap fun hole => [hole.1.chars, hole.2.chars]).zipIdx k).foldl collectPiece
      expandValues = collectNames expandValues (holes.map (·.1.chars)) := by
  induction holes generalizing k expandValues with
  | nil => rfl
  | cons hole holes ih =>
      have hodd : (k + 2) % 2 = 1 := by omega
      have hname : collectPiece expandValues (hole.1.chars, k) =
          expandValues.insertIfNew hole.1.chars [] := if_pos hk
      have hliteral : ∀ values, collectPiece values (hole.2.chars, k + 1) = values :=
        fun values => if_neg (by dsimp only; omega)
      rw [zipIdx_holes, List.foldl_cons, List.foldl_cons, hname, hliteral, ih hodd]
      rfl

/-- An empty literal at the end has an even index. -/
theorem even_fields {t : Template} (h : Lines.fields 37 t.text ++ [[]] = t.parts) :
    (Lines.fields 37 t.text).length % 2 = 0 := by
  have hlen := t.length_parts
  rw [← h, List.length_append, List.length_singleton] at hlen
  omega

theorem collect_fields (t : Template) (expandValues : ExpandValues) :
    (Lines.fields 37 t.text).zipIdx.foldl collectPiece expandValues =
      collectNames expandValues t.names := by
  have hparts : t.parts.zipIdx.foldl collectPiece expandValues =
      collectNames expandValues t.names := by
    rw [Template.parts, List.zipIdx_cons, List.foldl_cons]
    exact collect_holes t.holes rfl expandValues
  rcases t.fields_text with hfields | hfields
  · rw [hfields, hparts]
  · rw [← hparts, ← hfields, List.zipIdx_append, List.foldl_append]
    exact (if_neg (by simpa using even_fields hfields)).symm

/-- The pass that collects, on a string. -/
theorem collect_string (t : Template) (line : Nat) (expandValues : ExpandValues) :
    expandString false line t.string expandValues =
      .ok (t.string, collectNames expandValues t.names) := by
  unfold expandString
  by_cases hone : (Lines.fields 37 t.text).length = 1
  · have hnames : t.names = [] := by rw [Template.names, Template.holes_eq_nil hone, List.map_nil]
    rw [hnames]
    exact if_pos hone
  · refine (if_neg hone).trans ?_
    rw [if_neg (by decide)]
    exact congrArg (fun values => Except.ok (t.string, values)) (collect_fields t expandValues)

/-! ## Substituting -/

section Substituting

variable {expandValues : ExpandValues} {assign : Bytes → Bytes} {line : Nat}

theorem expandPiece_literal {k : Nat} (hk : k % 2 = 0) (os literal : Bytes) :
    expandPiece line expandValues os (literal, k) = .ok (os ++ literal) :=
  if_neg (by dsimp only; omega)

theorem expandPiece_name {name : Bytes} (hname : expandValues[name]? = some (assign name)) {k : Nat}
    (hk : k % 2 = 1) (os : Bytes) :
    expandPiece line expandValues os (name, k) =
      if assign name = [] then .error ⟨name, line⟩ else .ok (os ++ assign name) := by
  unfold expandPiece
  rw [if_pos hk, hname]

theorem expand_holes {holes : List (MacroName × Literal)}
    (hfound : ∀ name ∈ holes.map (·.1.chars), expandValues[name]? = some (assign name))
    (hvalues : ∀ name ∈ holes.map (·.1.chars), assign name ≠ []) {k : Nat} (hk : k % 2 = 1)
    (os : Bytes) :
    ((holes.flatMap fun hole => [hole.1.chars, hole.2.chars]).zipIdx k).foldlM
      (expandPiece line expandValues) os =
        .ok (os ++ holes.flatMap fun hole => assign hole.1.chars ++ hole.2.chars) := by
  induction holes generalizing k os with
  | nil => simp [pure, Except.pure]
  | cons hole holes ih =>
      obtain ⟨hfirst, hfound⟩ := List.forall_mem_cons.mp hfound
      obtain ⟨hvalue, hvalues⟩ := List.forall_mem_cons.mp hvalues
      have hrest := ih hfound hvalues (k := k + 2) (by omega)
        (os ++ assign hole.1.chars ++ hole.2.chars)
      rw [zipIdx_holes, List.foldlM_cons, expandPiece_name hfirst hk, if_neg hvalue]
      show (List.foldlM _ (os ++ assign hole.1.chars) _ = _)
      rw [List.foldlM_cons, expandPiece_literal (by omega)]
      refine hrest.trans ?_
      simp

/-- The first name without a value stops the loop. -/
theorem expand_holes_error {holes : List (MacroName × Literal)}
    (hfound : ∀ name ∈ holes.map (·.1.chars), expandValues[name]? = some (assign name))
    (hempty : ∃ name ∈ holes.map (·.1.chars), assign name = []) {k : Nat} (hk : k % 2 = 1)
    (os : Bytes) :
    ∃ name ∈ holes.map (·.1.chars), assign name = [] ∧
      ((holes.flatMap fun hole => [hole.1.chars, hole.2.chars]).zipIdx k).foldlM
        (expandPiece line expandValues) os = .error ⟨name, line⟩ := by
  induction holes generalizing k os with
  | nil => simp at hempty
  | cons hole holes ih =>
      obtain ⟨hfirst, hfound⟩ := List.forall_mem_cons.mp hfound
      by_cases hvalue : assign hole.1.chars = []
      · refine ⟨hole.1.chars, by simp, hvalue, ?_⟩
        rw [zipIdx_holes, List.foldlM_cons, expandPiece_name hfirst hk, if_pos hvalue]
        rfl
      · have hempty' : ∃ name ∈ holes.map (·.1.chars), assign name = [] := by
          obtain ⟨name, hname, hnone⟩ := hempty
          rcases List.mem_cons.mp hname with rfl | hname
          · exact absurd hnone hvalue
          · exact ⟨name, hname, hnone⟩
        obtain ⟨name, hname, hnone, hrest⟩ := ih hfound hempty' (k := k + 2) (by omega)
          (os ++ assign hole.1.chars ++ hole.2.chars)
        refine ⟨name, List.mem_cons_of_mem _ hname, hnone, ?_⟩
        rw [zipIdx_holes, List.foldlM_cons, expandPiece_name hfirst hk, if_neg hvalue]
        show (List.foldlM _ (os ++ assign hole.1.chars) _ = _)
        rw [List.foldlM_cons, expandPiece_literal (by omega)]
        exact hrest

/-- Without an empty literal at the end the pieces expand to the same. -/
theorem foldlM_fields (t : Template) (os : Bytes) :
    (Lines.fields 37 t.text).zipIdx.foldlM (expandPiece line expandValues) os =
      t.parts.zipIdx.foldlM (expandPiece line expandValues) os := by
  rcases t.fields_text with hfields | hfields
  · rw [hfields]
  · have hlast : ∀ out, [(([] : Bytes), (Lines.fields 37 t.text).length)].foldlM
        (expandPiece line expandValues) out = .ok out := by
      intro out
      rw [List.foldlM_cons, expandPiece_literal (even_fields hfields), List.append_nil]
      rfl
    rw [← hfields, List.zipIdx_append, List.foldlM_append]
    simp only [List.zipIdx_singleton, Nat.zero_add, hlast]
    exact (bind_pure _).symm

theorem expand_parts (t : Template) :
    t.parts.zipIdx.foldlM (expandPiece line expandValues) [] =
      ((t.holes.flatMap fun hole => [hole.1.chars, hole.2.chars]).zipIdx 1).foldlM
        (expandPiece line expandValues) t.head.chars := by
  rw [Template.parts, List.zipIdx_cons, List.foldlM_cons, expandPiece_literal rfl]
  rfl

/-- The pass that expands, on a string whose names all have values. -/
theorem expand_string {t : Template}
    (hfound : ∀ name ∈ t.names, expandValues[name]? = some (assign name))
    (hvalues : ∀ name ∈ t.names, assign name ≠ []) (line : Nat) :
    expandString true line t.string expandValues =
      .ok (t.expanded assign, expandValues) := by
  unfold expandString
  by_cases hone : (Lines.fields 37 t.text).length = 1
  · rw [Template.expanded_of_holes assign (Template.holes_eq_nil hone)]
    exact if_pos hone
  · refine (if_neg hone).trans ?_
    rw [if_pos rfl]
    show Except.map _ ((Lines.fields 37 t.text).zipIdx.foldlM _ []) = _
    rw [foldlM_fields, expand_parts, expand_holes hfound hvalues rfl]
    rfl

/-- And on one with a name that has none. -/
theorem expand_string_error {t : Template}
    (hfound : ∀ name ∈ t.names, expandValues[name]? = some (assign name))
    (hempty : ∃ name ∈ t.names, assign name = []) (line : Nat) :
    ∃ name ∈ t.names, assign name = [] ∧
      expandString true line t.string expandValues = .error ⟨name, line⟩ := by
  obtain ⟨name, hname, hnone, hrun⟩ :=
    @expand_holes_error expandValues assign line _ hfound hempty 1 rfl t.head.chars
  refine ⟨name, hname, hnone, ?_⟩
  unfold expandString
  by_cases hone : (Lines.fields 37 t.text).length = 1
  · rw [Template.holes_eq_nil hone] at hname
    simp at hname
  · refine (if_neg hone).trans ?_
    rw [if_pos rfl]
    show Except.map _ ((Lines.fields 37 t.text).zipIdx.foldlM _ []) = _
    rw [foldlM_fields, expand_parts, hrun]
    rfl

end Substituting

/-! ## Trees -/

mutual

/-- The tree with other strings. -/
def SettingOf.map {σ τ : Type} (f : σ → τ) : SettingOf σ → SettingOf τ
  | .string info s => .string info (f s)
  | .scalar info v => .scalar info v
  | .array info elements => .array info elements
  | .group info settings => .group info (mapAll f settings)
  | .list info settings => .list info (mapAll f settings)

def mapAll {σ τ : Type} (f : σ → τ) : List (SettingOf σ) → List (SettingOf τ)
  | [] => []
  | s :: settings => s.map f :: mapAll f settings

end

mutual

/-- The names in the strings of a tree of templates. -/
def SettingOf.names : SettingOf Template → List Bytes
  | .string _ t => t.names
  | .scalar _ _ => []
  | .array _ _ => []
  | .group _ settings => namesAll settings
  | .list _ settings => namesAll settings

def namesAll : List (SettingOf Template) → List Bytes
  | [] => []
  | s :: settings => s.names ++ namesAll settings

end

theorem collectNames_append (expandValues : ExpandValues) (names names' : List Bytes) :
    collectNames (collectNames expandValues names) names' =
      collectNames expandValues (names ++ names') := by
  simp [collectNames]

mutual

theorem collect_setting : ∀ (s : SettingOf Template) (expandValues : ExpandValues),
    expandSetting false (s.map Template.string) expandValues =
      .ok (s.map Template.string, collectNames expandValues s.names)
  | .string info t, expandValues => by
      rw [SettingOf.map, expandSetting, collect_string]
      rfl
  | .scalar info v, expandValues => rfl
  | .array info elements, expandValues => rfl
  | .group info settings, expandValues => by
      rw [SettingOf.map, expandSetting, collect_settings settings expandValues]
      rfl
  | .list info settings, expandValues => by
      rw [SettingOf.map, expandSetting, collect_settings settings expandValues]
      rfl

/-- The pass that collects changes nothing. -/
theorem collect_settings : ∀ (settings : List (SettingOf Template)) (expandValues : ExpandValues),
    expandConfig false (mapAll Template.string settings) expandValues =
      .ok (mapAll Template.string settings, collectNames expandValues (namesAll settings))
  | [], expandValues => rfl
  | s :: settings, expandValues => by
      rw [mapAll, expandConfig, collect_setting s expandValues]
      show (expandConfig false (mapAll Template.string settings)
        (collectNames expandValues s.names) >>= _) = _
      rw [collect_settings settings, collectNames_append]
      rfl

end

section Expanding

variable {expandValues : ExpandValues} {assign : Bytes → Bytes}

mutual

theorem expand_setting : ∀ (s : SettingOf Template),
    (∀ name ∈ s.names, expandValues[name]? = some (assign name)) →
    (∀ name ∈ s.names, assign name ≠ []) →
      expandSetting true (s.map Template.string) expandValues =
        .ok (s.map (Template.expanded assign), expandValues)
  | .string info t, hfound, hvalues => by
      rw [SettingOf.map, expandSetting, expand_string hfound hvalues]
      rfl
  | .scalar info v, _, _ => rfl
  | .array info elements, _, _ => rfl
  | .group info settings, hfound, hvalues => by
      rw [SettingOf.map, expandSetting, expand_settings settings hfound hvalues]
      rfl
  | .list info settings, hfound, hvalues => by
      rw [SettingOf.map, expandSetting, expand_settings settings hfound hvalues]
      rfl

/-- The pass that expands, when every name has a value. -/
theorem expand_settings : ∀ (settings : List (SettingOf Template)),
    (∀ name ∈ namesAll settings, expandValues[name]? = some (assign name)) →
    (∀ name ∈ namesAll settings, assign name ≠ []) →
      expandConfig true (mapAll Template.string settings) expandValues =
        .ok (mapAll (Template.expanded assign) settings, expandValues)
  | [], _, _ => rfl
  | s :: settings, hfound, hvalues => by
      rw [namesAll] at hfound hvalues
      obtain ⟨hfound, hfound'⟩ := List.forall_mem_append.mp hfound
      obtain ⟨hvalues, hvalues'⟩ := List.forall_mem_append.mp hvalues
      rw [mapAll, expandConfig, expand_setting s hfound hvalues]
      show (expandConfig true (mapAll Template.string settings) expandValues >>= _) = _
      rw [expand_settings settings hfound' hvalues']
      rfl

end

mutual

theorem expand_setting_error : ∀ (s : SettingOf Template),
    (∀ name ∈ s.names, expandValues[name]? = some (assign name)) →
    (∃ name ∈ s.names, assign name = []) →
      ∃ e, expandSetting true (s.map Template.string) expandValues = .error e ∧
        e.name ∈ s.names ∧ assign e.name = []
  | .string info t, hfound, hempty => by
      obtain ⟨name, hname, hnone, hrun⟩ := expand_string_error hfound hempty info.line
      refine ⟨⟨name, info.line⟩, ?_, hname, hnone⟩
      rw [SettingOf.map, expandSetting, hrun]
      rfl
  | .scalar info v, _, hempty => by simp [SettingOf.names] at hempty
  | .array info elements, _, hempty => by simp [SettingOf.names] at hempty
  | .group info settings, hfound, hempty => by
      obtain ⟨e, hrun, he⟩ := expand_settings_error settings hfound hempty
      refine ⟨e, ?_, he⟩
      rw [SettingOf.map, expandSetting, hrun]
      rfl
  | .list info settings, hfound, hempty => by
      obtain ⟨e, hrun, he⟩ := expand_settings_error settings hfound hempty
      refine ⟨e, ?_, he⟩
      rw [SettingOf.map, expandSetting, hrun]
      rfl

/-- And when one has none. -/
theorem expand_settings_error : ∀ (settings : List (SettingOf Template)),
    (∀ name ∈ namesAll settings, expandValues[name]? = some (assign name)) →
    (∃ name ∈ namesAll settings, assign name = []) →
      ∃ e, expandConfig true (mapAll Template.string settings) expandValues = .error e ∧
        e.name ∈ namesAll settings ∧ assign e.name = []
  | [], _, hempty => by simp [namesAll] at hempty
  | s :: settings, hfound, hempty => by
      rw [namesAll] at hfound hempty
      obtain ⟨hfound, hfound'⟩ := List.forall_mem_append.mp hfound
      by_cases hfirst : ∃ name ∈ s.names, assign name = []
      · obtain ⟨e, hrun, hname, hnone⟩ := expand_setting_error s hfound hfirst
        refine ⟨e, ?_, List.mem_append_left _ hname, hnone⟩
        rw [mapAll, expandConfig, hrun]
        rfl
      · have hvalues : ∀ name ∈ s.names, assign name ≠ [] :=
          fun name hname hnone => hfirst ⟨name, hname, hnone⟩
        have hrest : ∃ name ∈ namesAll settings, assign name = [] := by
          obtain ⟨name, hname, hnone⟩ := hempty
          rcases List.mem_append.mp hname with hname | hname
          · exact absurd hnone (hvalues name hname)
          · exact ⟨name, hname, hnone⟩
        obtain ⟨e, hrun, hname, hnone⟩ := expand_settings_error settings hfound' hrest
        refine ⟨e, ?_, List.mem_append_right _ hname, hnone⟩
        rw [mapAll, expandConfig, expand_setting s hfound hvalues]
        show (expandConfig true (mapAll Template.string settings) expandValues >>= _) = _
        rw [hrun]
        rfl

end

end Expanding

/-! ## The two passes -/

/-- What the first pass collects is what the second looks up. -/
theorem getElem?_collected {settings : List (SettingOf Template)} (assign : Bytes → Bytes)
    {name : Bytes} (hname : name ∈ namesAll settings) :
    ((collectNames ∅ (namesAll settings)).map fun name _ => assign name)[name]? =
      some (assign name) := by
  have hmem : name ∈ collectNames ∅ (namesAll settings) := mem_collectNames.mpr (.inr hname)
  rw [Std.ExtTreeMap.getElem?_map, Std.ExtTreeMap.getElem?_eq_some_getElem hmem]
  rfl

theorem mem_collected {settings : List (SettingOf Template)} {name : Bytes} :
    name ∈ collectNames ∅ (namesAll settings) ↔ name ∈ namesAll settings := by
  rw [mem_collectNames]
  simp

section Collected

variable {settings : List (SettingOf Template)} {assign : Bytes → Bytes}

/-- The pass that expands, when every name that was collected has a value. -/
theorem expand_collected (hvalues : ∀ name ∈ namesAll settings, assign name ≠ []) :
    expandConfig true (mapAll Template.string settings)
        ((collectNames ∅ (namesAll settings)).map fun name _ => assign name) =
      .ok (mapAll (Template.expanded assign) settings,
        (collectNames ∅ (namesAll settings)).map fun name _ => assign name) :=
  expand_settings settings (fun _ hname => getElem?_collected assign hname) hvalues

/-- It throws only at a name that was collected and has none. -/
theorem name_of_expand_collected {e : NoDefined}
    (hrun : expandConfig true (mapAll Template.string settings)
      ((collectNames ∅ (namesAll settings)).map fun name _ => assign name) = .error e) :
    e.name ∈ namesAll settings ∧ assign e.name = [] := by
  by_cases hempty : ∃ name ∈ namesAll settings, assign name = []
  · obtain ⟨e', hrun', he⟩ := expand_settings_error settings
      (fun _ hname => getElem?_collected assign hname) hempty
    rw [hrun] at hrun'
    cases hrun'
    exact he
  · have hvalues : ∀ name ∈ namesAll settings, assign name ≠ [] :=
      fun name hname hnone => hempty ⟨name, hname, hnone⟩
    rw [expand_collected hvalues] at hrun
    cases hrun

end Collected

/-- The pass that collects leaves the tree, and gathers the names in it. The pass that
expands throws when one of them is empty, and only at such a name; otherwise it substitutes. -/
theorem expandConfig_substitutes (settings : List (SettingOf Template)) :
    ∃ collected,
      expandConfig false (mapAll Template.string settings) ∅ =
        .ok (mapAll Template.string settings, collected) ∧
      (∀ name, name ∈ collected ↔ name ∈ namesAll settings) ∧
      ∀ assign : Bytes → Bytes,
        ((∃ e, expandConfig true (mapAll Template.string settings)
            (collected.map fun name _ => assign name) = .error e) ↔
          ∃ name ∈ collected, assign name = []) ∧
        (∀ e, expandConfig true (mapAll Template.string settings)
            (collected.map fun name _ => assign name) = .error e →
          e.name ∈ collected ∧ assign e.name = []) ∧
        ((∀ name ∈ collected, assign name ≠ []) →
          expandConfig true (mapAll Template.string settings)
              (collected.map fun name _ => assign name) =
            .ok (mapAll (Template.expanded assign) settings,
              collected.map fun name _ => assign name)) ∧
        ∀ t : Template, (∀ name ∈ t.names, 0 ∉ assign name) →
          (t.expanded assign).chars = t.substitute assign := by
  refine ⟨collectNames ∅ (namesAll settings), collect_settings settings ∅,
    fun name => mem_collected, ?_⟩
  intro assign
  simp only [mem_collected]
  refine ⟨⟨?_, ?_⟩, ?_, expand_collected, fun t => Template.expanded_chars⟩
  · rintro ⟨e, hrun⟩
    exact ⟨e.name, name_of_expand_collected hrun⟩
  · intro hempty
    obtain ⟨e, hrun, -⟩ := expand_settings_error settings
      (fun _ hname => getElem?_collected assign hname) hempty
    exact ⟨e, hrun⟩
  · intro e hrun
    exact name_of_expand_collected hrun

mutual

theorem map_expanded_of_names : ∀ {s : SettingOf Template} (assign : Bytes → Bytes),
    s.names = [] → s.map (Template.expanded assign) = s.map Template.string
  | .string info t, assign, h => by
      have hholes : t.holes = [] := List.map_eq_nil_iff.mp h
      rw [SettingOf.map, SettingOf.map, Template.expanded_of_holes assign hholes]
  | .scalar info v, _, _ => rfl
  | .array info elements, _, _ => rfl
  | .group info settings, assign, h => congrArg _ (mapAll_expanded_of_names assign h)
  | .list info settings, assign, h => congrArg _ (mapAll_expanded_of_names assign h)

theorem mapAll_expanded_of_names : ∀ {settings : List (SettingOf Template)}
    (assign : Bytes → Bytes), namesAll settings = [] →
      mapAll (Template.expanded assign) settings = mapAll Template.string settings
  | [], _, _ => rfl
  | s :: settings, assign, h => by
      obtain ⟨hs, hsettings⟩ := List.append_eq_nil_iff.mp h
      rw [mapAll, mapAll, map_expanded_of_names assign hs,
        mapAll_expanded_of_names assign hsettings]

end

/-- `init` goes on with the configuration expanded, when every macro has a flag. -/
theorem expandApplication_ok {flags : Bytes → Bytes} {settings : List (SettingOf Template)}
    (hflags : ∀ name ∈ namesAll settings, flags name ≠ []) :
    expandApplication flags (mapAll Template.string settings) =
      .ok (mapAll (Template.expanded flags) settings) := by
  have hcollect := collect_settings settings ∅
  have hexpand := expand_collected hflags
  unfold expandApplication
  rw [hcollect]
  show (if (collectNames ∅ (namesAll settings)).isEmpty = true then _ else _) = _
  by_cases hnone : (collectNames ∅ (namesAll settings)).isEmpty = true
  · have hnames : namesAll settings = [] := by
      rw [Std.ExtTreeMap.isEmpty_iff, Std.ExtTreeMap.eq_empty_iff_forall_not_mem] at hnone
      refine List.eq_nil_iff_forall_not_mem.mpr fun name hname => ?_
      exact hnone name (mem_collected.mpr hname)
    rw [if_pos hnone, mapAll_expanded_of_names flags hnames]
    rfl
  · rw [if_neg hnone, hexpand]
    rfl

end FlexEtl
