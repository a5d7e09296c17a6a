/-
FlexEtl.Db.TypeNameTheorems — types read back from their names.

A type object prints less than it was made from: `printed` is what is left. Its
name belongs to the grammar (`getName_isNamed`), so `CreateColumnByType` reads
the printed type from it. `column2ClickColumn` does this for each row of an array,
and `rowColumn` says that the column it makes there gets the same cells as one of
the item type itself, which is what `column2ClickColumn` of `Db.Column` takes.
-/
import FlexEtl.Db.TypeParserTheorems

namespace FlexEtl

open Decoder (Stops)
open TypeParser (callTokens itemTokens)

/-! ## What a name tells -/

/-- The precision that the name of a decimal type stands for. -/
def printedPrecision (precision : Nat) : Nat :=
  if precision ≤ 9 then 9 else if precision ≤ 18 then 18 else 38

/-- The enumerators of an enum type in the order of their codes, each code with the last of its
names. -/
def printedItems (items : List (Bytes × Int)) : List (Bytes × Int) :=
  (valueToName items).toList.map fun e => (e.2, e.1)

/-- The type without nesting that a name stands for. -/
def LeafType.printed : LeafType → LeafType
  | .ipv4 => .uint32
  | .ipv6 => .fixedString 16
  | .decimal precision scale => .decimal (printedPrecision precision) scale
  | .enum8 items => .enum8 (printedItems items)
  | .enum16 items => .enum16 (printedItems items)
  | l => l

mutual

/-- The type that the name of a type stands for. -/
def ChType.printed : ChType → ChType
  | .leaf l => .leaf l.printed
  | .array item => .array item.printed
  | .nullable nested => .nullable nested.printed
  | .tuple items => .tuple (printedAll items)

/-- The types that the names of some types stand for. -/
def printedAll : List ChType → List ChType
  | [] => []
  | item :: items => item.printed :: printedAll items

end

/-- Enumerators whose names and codes the parser takes. -/
def ReadableItems (items : List (Bytes × Int)) : Prop :=
  items ≠ [] ∧ ∀ item ∈ items, KeepsName item.1 ∧ -2 ^ 15 ≤ item.2 ∧ item.2 < 2 ^ 15

/-- A type without nesting whose name can be read: it is not the type of 128 bits, which has
no name for the parser, and what it holds fits in what the parser takes. -/
def LeafType.Readable : LeafType → Prop
  | .int128 => False
  | .fixedString n => n < 2 ^ 63
  | .decimal _ scale => scale < 2 ^ 63
  | .enum8 items | .enum16 items => ReadableItems items
  | _ => True

mutual

/-- Every type without nesting in the type is a `P`, and the items of every tuple are a `Q`. -/
def ChType.All (P : LeafType → Prop) (Q : List ChType → Prop) : ChType → Prop
  | .leaf l => P l
  | .array item => item.All P Q
  | .nullable nested => nested.All P Q
  | .tuple items => Q items ∧ AllItems P Q items

def AllItems (P : LeafType → Prop) (Q : List ChType → Prop) : List ChType → Prop
  | [] => True
  | item :: items => item.All P Q ∧ AllItems P Q items

end

/-- A type whose name can be read. -/
abbrev ChType.Readable : ChType → Prop := ChType.All LeafType.Readable (· ≠ [])

/-! ## Spelled tokens -/

/-- The text has these tokens in front of anything that ends a name. -/
def Spells (ts : List Token) (s : Bytes) : Prop :=
  ∀ rest, Delimits rest → tokens (s ++ rest) = (tokens rest).map (ts ++ ·)

theorem Spells.tokens_eq {ts : List Token} {s : Bytes} (h : Spells ts s) : tokens s = some ts := by
  simpa using h [] Decoder.stops_nil

theorem spells_name {name : Bytes} (hname : KeepsName name) : Spells (nameTokens name) name :=
  fun _ hrest => tokens_name hname hrest

theorem spells_number (n : Int) :
    Spells [.number (Numeral.decimalInt n)] (Numeral.decimalInt n) :=
  fun _ hrest => tokens_number hrest

theorem delimits_comma (rest : Bytes) : Delimits (0x2c :: rest) := by
  simp [isNameChar, isNameStart, Numeral.isDigit, Numeral.digit?]

theorem delimits_rPar (rest : Bytes) : Delimits (0x29 :: rest) := by
  simp [isNameChar, isNameStart, Numeral.isDigit, Numeral.digit?]

theorem delimits_lPar (rest : Bytes) : Delimits (0x28 :: rest) := by
  simp [isNameChar, isNameStart, Numeral.isDigit, Numeral.digit?]

theorem delimits_quote (rest : Bytes) : Delimits (0x27 :: rest) := by
  simp [isNameChar, isNameStart, Numeral.isDigit, Numeral.digit?]

/-- The items of a list behind its first, and the end of it. -/
theorem tokens_others {tss : List (List Token)} {ss : List Bytes}
    (h : List.Forall₂ Spells tss ss) (rest : Bytes) :
    tokens (ss.flatMap (fun s => ascii ", " ++ s) ++ 0x29 :: rest) =
      (tokens rest).map (tss.flatMap (.comma :: ·) ++ .rPar :: ·) ∧
    Delimits (ss.flatMap (fun s => ascii ", " ++ s) ++ 0x29 :: rest) := by
  have hcomma : ascii ", " = [0x2c, 0x20] := rfl
  simp only [hcomma, List.cons_append, List.nil_append]
  induction h with
  | nil => exact ⟨by simp, delimits_rPar rest⟩
  | cons hfirst _ ih =>
      obtain ⟨htokens, hdelimits⟩ := ih
      constructor
      · simp [hfirst _ hdelimits, htokens, Function.comp_def]
      · exact delimits_comma _

/-- A name with a list in parentheses. -/
theorem spells_call {head : Bytes} (hname : KeepsName head) (hne : head ≠ [])
    {tss : List (List Token)} {ss : List Bytes} (h : List.Forall₂ Spells tss ss) :
    Spells (callTokens head tss) (head ++ ascii "(" ++ joinNames ss ++ ascii ")") := by
  intro rest _
  have hlpar : ascii "(" = [0x28] := rfl
  have hrpar : ascii ")" = [0x29] := rfl
  have hitems : tokens (joinNames ss ++ 0x29 :: rest) =
      (tokens rest).map (itemTokens tss ++ .rPar :: ·) := by
    cases h with
    | nil => simp [joinNames, itemTokens]
    | cons hfirst hothers =>
        obtain ⟨htokens, hdelimits⟩ := tokens_others hothers rest
        simp [joinNames, itemTokens, hfirst _ hdelimits, htokens, Function.comp_def]
  simp [hlpar, hrpar, tokens_name hname (delimits_lPar _), nameTokens, hne, hitems, callTokens,
    Function.comp_def]

/-! ## Printed names belong to the grammar -/

/-- An enumerator as it is printed. -/
theorem spells_enumerator {item : Bytes × Int} (hname : KeepsName item.1)
    (hlow : -2 ^ 15 ≤ item.2) (hhigh : item.2 < 2 ^ 15) :
    ∃ ts, IsEnumerator item ts ∧ Spells ts (enumeratorName (item.2, item.1)) := by
  refine ⟨_, ⟨_, item.2, stol_decimalInt (by omega) (by omega), ?_, rfl⟩, ?_⟩
  · exact (Int.bmod_eq_of_le (by omega) (by omega)).symm
  · intro rest hrest
    have hopen : ascii "'" = [0x27] := rfl
    have hclose : ascii "' = " = [0x27, 0x20, 0x3d, 0x20] := rfl
    simp [enumeratorName, hopen, hclose, tokens_name hname (delimits_quote _),
      tokens_number hrest, Function.comp_def]

theorem mem_of_valueToName {items : List (Bytes × Int)} {code : Int} {name : Bytes}
    (h : (valueToName items)[code]? = some name) : (name, code) ∈ items := by
  have hfold : ∀ (items : List (Bytes × Int)) (m : Std.ExtTreeMap Int Bytes compare),
      (items.foldl (fun m item => m.insert item.2 item.1) m)[code]? = some name →
        m[code]? = some name ∨ (name, code) ∈ items := by
    intro items
    induction items with
    | nil => exact fun m h => .inl h
    | cons item items ih =>
        intro m h
        rcases ih _ h with h | h
        · by_cases heq : item.2 = code
          · subst heq
            simp at h
            subst h
            exact .inr (by simp)
          · simp [Std.ExtTreeMap.getElem?_insert, heq] at h
            exact .inl h
        · exact .inr (List.mem_cons_of_mem _ h)
  simpa using hfold items ∅ h

theorem mem_of_mem_printedItems {items : List (Bytes × Int)} {item : Bytes × Int}
    (h : item ∈ printedItems items) : item ∈ items := by
  obtain ⟨e, he, rfl⟩ := List.mem_map.mp h
  exact mem_of_valueToName (Std.ExtTreeMap.mem_toList_iff_getElem?_eq_some.mp he)

/-- Something for every element of a list, as a list. -/
theorem exists_forall₂ {α β γ : Type} {R : α → β → Prop} {S : β → γ → Prop} {f : α → γ}
    {xs : List α} (h : ∀ x ∈ xs, ∃ y, R x y ∧ S y (f x)) :
    ∃ ys, List.Forall₂ R xs ys ∧ List.Forall₂ S ys (xs.map f) := by
  induction xs with
  | nil => exact ⟨[], .nil, .nil⟩
  | cons x xs ih =>
      obtain ⟨hx, hxs⟩ := List.forall_mem_cons.mp h
      obtain ⟨y, hR, hS⟩ := hx
      obtain ⟨ys, hRs, hSs⟩ := ih hxs
      exact ⟨y :: ys, .cons hR hRs, .cons hS hSs⟩

/-- The name of an enum type. -/
theorem enumName_isNamed {head : String} (hhead : KeepsName (ascii head)) (hne : ascii head ≠ [])
    {items : List (Bytes × Int)} (hitems : ReadableItems items) {s : Bytes}
    (hs : enumName head items = .ok s) :
    printedItems items ≠ [] ∧ ∃ tss, List.Forall₂ IsEnumerator (printedItems items) tss ∧
      Spells (callTokens (ascii head) tss) s := by
  have henumerators : ∀ item ∈ printedItems items, ∃ ts, IsEnumerator item ts ∧
      Spells ts (enumeratorName (item.2, item.1)) := by
    intro item hitem
    obtain ⟨hname, hlow, hhigh⟩ := hitems.2 item (mem_of_mem_printedItems hitem)
    exact spells_enumerator hname hlow hhigh
  obtain ⟨tss, htss, hspells⟩ := exists_forall₂ henumerators
  have hnames : (printedItems items).map (fun item => enumeratorName (item.2, item.1)) =
      (valueToName items).toList.map enumeratorName := by
    simp [printedItems]
  rw [hnames] at hspells
  unfold enumName at hs
  split at hs
  · cases hs
  · rename_i enumerators hnone
    cases hs
    have hne' : printedItems items ≠ [] := by
      simpa [printedItems] using hnone
    exact ⟨hne', tss, htss, spells_call hhead hne hspells⟩

theorem numberedName_isNamed {head : String} (hhead : KeepsName (ascii head))
    (hne : ascii head ≠ []) (n : Nat) :
    Spells (callTokens (ascii head) [[.number (Numeral.decimalInt n)]]) (numberedName head n) := by
  have hn : Numeral.decimalInt n = Numeral.decimal n := by
    simp [Numeral.decimalInt]
  have h := spells_call hhead hne (.cons (spells_number n) .nil)
  simpa [joinNames, numberedName, hn] using h

theorem plainName_isNamed {head : String} {l : LeafType} (h : (head, l) ∈ plainTypes) :
    ∃ ts, l.IsNamed ts ∧ Spells ts (ascii head) := by
  have hall : ∀ entry ∈ plainTypes, KeepsName (ascii entry.1) ∧ ascii entry.1 ≠ [] := by
    decide +kernel
  obtain ⟨hname, hne⟩ := hall _ h
  have hspells := spells_name hname
  simp only [nameTokens, if_neg hne] at hspells
  exact ⟨_, .plain h, hspells⟩

theorem toSizeT_of_lt {n : Nat} (h : n < 2 ^ 63) : toSizeT n = n := by
  unfold toSizeT
  omega

theorem LeafType.getName_isNamed {l : LeafType} (hl : l.Readable) {s : Bytes}
    (hs : l.GetName = .ok s) : ∃ ts, l.printed.IsNamed ts ∧ Spells ts s := by
  cases l with
  | int128 => exact absurd hl id
  | fixedString n =>
      cases hs
      have hn : stol (Numeral.decimalInt n) = .ok (n : Int) :=
        stol_decimalInt (by omega) (by simp only [Readable] at hl; omega)
      have hnamed := LeafType.IsNamed.fixedString hn
      rw [toSizeT_of_lt hl] at hnamed
      exact ⟨_, hnamed, numberedName_isNamed (by decide +kernel) (by decide +kernel) n⟩
  | decimal precision scale =>
      cases hs
      have hn : stol (Numeral.decimalInt scale) = .ok (scale : Int) :=
        stol_decimalInt (by omega) (by simp only [Readable] at hl; omega)
      have hhead : (decimalHead precision, printedPrecision precision) ∈ scaledTypes := by
        unfold decimalHead printedPrecision
        split_ifs <;> simp [scaledTypes]
      have hnamed := LeafType.IsNamed.scaled hhead hn
      rw [toSizeT_of_lt hl] at hnamed
      have hall : ∀ entry ∈ scaledTypes, KeepsName (ascii entry.1) ∧ ascii entry.1 ≠ [] := by
        decide +kernel
      obtain ⟨hname, hne⟩ := hall _ hhead
      exact ⟨_, hnamed, numberedName_isNamed hname hne scale⟩
  | enum8 items =>
      obtain ⟨hne, tss, htss, hspells⟩ :=
        enumName_isNamed (by decide +kernel) (by decide +kernel) hl hs
      exact ⟨_, .enum8 hne htss, hspells⟩
  | enum16 items =>
      obtain ⟨hne, tss, htss, hspells⟩ :=
        enumName_isNamed (by decide +kernel) (by decide +kernel) hl hs
      exact ⟨_, .enum16 hne htss, hspells⟩
  | ipv6 =>
      cases hs
      have hnamed := LeafType.IsNamed.fixedString
        (stol_decimalInt (show (-2 : Int) ^ 63 ≤ (16 : Nat) by decide) (by decide))
      exact ⟨_, hnamed, numberedName_isNamed (by decide +kernel) (by decide +kernel) 16⟩
  | _ =>
      cases hs
      exact plainName_isNamed (by simp [plainTypes, printed])

theorem getName_array {item : ChType} {s : Bytes} (h : (ChType.array item).GetName = .ok s) :
    ∃ name, item.GetName = .ok name ∧
      s = ascii "Array" ++ ascii "(" ++ joinNames [name] ++ ascii ")" := by
  rw [ChType.GetName] at h
  cases hname : item.GetName with
  | error fault => rw [hname] at h; cases h
  | ok name =>
      rw [hname] at h
      cases h
      exact ⟨name, rfl, by simp [joinNames]; rfl⟩

theorem getName_nullable {nested : ChType} {s : Bytes}
    (h : (ChType.nullable nested).GetName = .ok s) :
    ∃ name, nested.GetName = .ok name ∧
      s = ascii "Nullable" ++ ascii "(" ++ joinNames [name] ++ ascii ")" := by
  rw [ChType.GetName] at h
  cases hname : nested.GetName with
  | error fault => rw [hname] at h; cases h
  | ok name =>
      rw [hname] at h
      cases h
      exact ⟨name, rfl, by simp [joinNames]; rfl⟩

theorem getName_tuple {items : List ChType} {s : Bytes} (h : (ChType.tuple items).GetName = .ok s) :
    ∃ names, getNames items = .ok names ∧
      s = ascii "Tuple" ++ ascii "(" ++ joinNames names ++ ascii ")" := by
  rw [ChType.GetName] at h
  cases hnames : getNames items with
  | error fault => rw [hnames] at h; cases h
  | ok names =>
      rw [hnames] at h
      cases h
      exact ⟨names, rfl, rfl⟩

theorem getNames_cons {item : ChType} {items : List ChType} {names : List Bytes}
    (h : getNames (item :: items) = .ok names) :
    ∃ name others, item.GetName = .ok name ∧ getNames items = .ok others ∧
      names = name :: others := by
  rw [getNames] at h
  cases hname : item.GetName with
  | error fault => rw [hname] at h; cases h
  | ok name =>
      cases hothers : getNames items with
      | error fault => rw [hname, hothers] at h; cases h
      | ok others =>
          rw [hname, hothers] at h
          cases h
          exact ⟨name, others, rfl, rfl, rfl⟩

mutual

/-- The name of a type that can be read is a name of the type that is printed. -/
theorem ChType.getName_isNamed : ∀ {t : ChType}, t.Readable → ∀ {s : Bytes}, t.GetName = .ok s →
    ∃ ts, t.printed.IsNamed ts ∧ Spells ts s
  | .leaf _, hl, _, hs => LeafType.getName_isNamed hl hs
  | .array item, hitem, s, hs => by
      obtain ⟨name, hname, rfl⟩ := getName_array hs
      obtain ⟨ts, hnamed, hspells⟩ := ChType.getName_isNamed (t := item) hitem hname
      exact ⟨_, ⟨ts, hnamed, rfl⟩,
        spells_call (by decide +kernel) (by decide +kernel) (.cons hspells .nil)⟩
  | .nullable nested, hnested, s, hs => by
      obtain ⟨name, hname, rfl⟩ := getName_nullable hs
      obtain ⟨ts, hnamed, hspells⟩ := ChType.getName_isNamed (t := nested) hnested hname
      exact ⟨_, ⟨ts, hnamed, rfl⟩,
        spells_call (by decide +kernel) (by decide +kernel) (.cons hspells .nil)⟩
  | .tuple items, ⟨hne, hitems⟩, s, hs => by
      obtain ⟨names, hnames, rfl⟩ := getName_tuple hs
      obtain ⟨tss, hnamed, hspells⟩ := getNames_areNamed hitems hnames
      have hprinted : printedAll items ≠ [] := by
        cases items with
        | nil => exact absurd rfl hne
        | cons item items => simp [printedAll]
      exact ⟨_, ⟨hprinted, tss, hnamed, rfl⟩,
        spells_call (by decide +kernel) (by decide +kernel) hspells⟩

theorem getNames_areNamed : ∀ {items : List ChType},
    AllItems LeafType.Readable (· ≠ []) items → ∀ {names : List Bytes},
    getNames items = .ok names →
    ∃ tss, AreNamed (printedAll items) tss ∧ List.Forall₂ Spells tss names
  | [], _, _, hnames => by
      cases hnames
      exact ⟨[], rfl, .nil⟩
  | item :: items, ⟨hitem, hitems⟩, names, hnames => by
      obtain ⟨name, others, hname, hothers, rfl⟩ := getNames_cons hnames
      obtain ⟨ts, hnamed, hspells⟩ := ChType.getName_isNamed hitem hname
      obtain ⟨tss, hallNamed, hallSpells⟩ := getNames_areNamed hitems hothers
      exact ⟨ts :: tss, ⟨ts, tss, hnamed, hallNamed, rfl⟩, .cons hspells hallSpells⟩

end

/-- A type is read from its name as what the name tells of it. -/
theorem typeByName_getName {t : ChType} (ht : t.Readable) {s : Bytes} (hs : t.GetName = .ok s) :
    typeByName s = .ok (some t.printed) := by
  obtain ⟨ts, hnamed, hspells⟩ := ChType.getName_isNamed ht hs
  exact typeByName_of_isNamed hspells.tokens_eq hnamed

/-! ## What can be read from a name -/

mutual

/-- The names in the tree are names that tokens hold. -/
def TypeAst.NamesKept : TypeAst → Prop
  | ⟨_, _, name, _, elements⟩ => KeepsName name ∧ AllNamesKept elements

def AllNamesKept : List TypeAst → Prop
  | [] => True
  | element :: elements => element.NamesKept ∧ AllNamesKept elements

end

theorem namesKept_iff (ast : TypeAst) :
    ast.NamesKept ↔ KeepsName ast.name ∧ AllNamesKept ast.elements := by
  cases ast
  simp [TypeAst.NamesKept]

theorem allNamesKept_append {xs ys : List TypeAst} :
    AllNamesKept (xs ++ ys) ↔ AllNamesKept xs ∧ AllNamesKept ys := by
  induction xs with
  | nil => simp [AllNamesKept]
  | cons x xs ih => simp [AllNamesKept, ih, and_assoc]

theorem keepsName_of_next {s rest name : Bytes} (h : NextToken s = (.name name, rest)) :
    KeepsName name := by
  induction s with
  | nil => simp [NextToken] at h
  | cons c s ih =>
      by_cases hskip : isSkipped c = true
      · rw [NextToken, if_pos hskip] at h
        exact ih h
      · by_cases hstart : isNameStart c = true
        · obtain ⟨-, hlpar, hrpar, hcomma⟩ := of_isNameStart hstart
          simp only [NextToken, hskip, hlpar, hrpar, hcomma, hstart, if_true, if_false,
            Prod.mk.injEq, Token.name.injEq, Bool.false_eq_true] at h
          obtain ⟨rfl, -⟩ := h
          have hchar : isNameChar c = true := by simp [isNameChar, hstart]
          constructor
          · intro d hd
            rcases List.mem_cons.mp hd with rfl | hd
            · exact hchar
            · exact List.mem_takeWhile_imp hd
          · simpa using hstart
        · rw [NextToken, if_neg hskip] at h
          split_ifs at h <;> simp at h

namespace TypeParser

/-- The names in all of the nodes. -/
def NamesKept (p : TypeParser) : Prop :=
  p.type_.NamesKept ∧ ∀ node ∈ p.open_elements_, node.NamesKept

theorem namesKept_new : ({} : TypeAst).NamesKept := by
  simp [TypeAst.NamesKept, AllNamesKept, KeepsName]

theorem NamesKept.openChild {p : TypeParser} (h : p.NamesKept) : p.openChild.NamesKept := by
  obtain ⟨htype, habove⟩ := h
  exact ⟨namesKept_new, by simpa [TypeParser.openChild] using ⟨htype, habove⟩⟩

/-- A node with one more element. -/
theorem namesKept_attach {parent child : TypeAst} (hparent : parent.NamesKept)
    (hchild : child.NamesKept) :
    TypeAst.NamesKept { parent with elements := parent.elements ++ [child] } := by
  rw [namesKept_iff] at hparent ⊢
  exact ⟨hparent.1, allNamesKept_append.mpr ⟨hparent.2, hchild, trivial⟩⟩

theorem NamesKept.popOpen {p : TypeParser} (h : p.NamesKept) :
    (Outcome.after TypeParser.popOpen p).NamesKept := by
  obtain ⟨htype, habove⟩ := h
  obtain ⟨type_, open_elements_, rootPushed⟩ := p
  cases open_elements_ with
  | nil => cases rootPushed <;> exact ⟨htype, habove⟩
  | cons parent above =>
      obtain ⟨hparent, habove⟩ := List.forall_mem_cons.mp habove
      exact ⟨namesKept_attach hparent htype, habove⟩

theorem NamesKept.takeToken {token : Token} (htoken : ∀ name, token = .name name → KeepsName name)
    {p : TypeParser} (h : p.NamesKept) :
    (Outcome.after (TypeParser.takeToken token) p).NamesKept := by
  cases token with
  | name value =>
      refine ⟨?_, h.2⟩
      rw [namesKept_iff]
      exact ⟨htoken value rfl, ((namesKept_iff _).mp h.1).2⟩
  | number value =>
      have hnode := (namesKept_iff _).mp h.1
      cases hn : stol value with
      | ok n =>
          rw [Outcome.after_ok (takeToken_number hn p)]
          exact ⟨(namesKept_iff _).mpr hnode, h.2⟩
      | error fault =>
          rw [Outcome.after_error (takeToken_number_error hn p)]
          exact ⟨(namesKept_iff _).mpr hnode, h.2⟩
  | lPar => exact h.openChild
  | rPar => exact Outcome.after_bind_invariant h.popOpen fun _ _ h => h
  | comma => exact Outcome.after_bind_invariant h.popOpen fun _ _ h => h.openChild
  | eos => exact h
  | invalid => exact h

theorem NamesKept.parseLoop {n : Nat} {s : Bytes} {p : TypeParser} (h : p.NamesKept) :
    (Outcome.after (TypeParser.parseLoop n s) p).NamesKept := by
  induction n generalizing s p with
  | zero => exact h
  | succ n ih =>
      refine Outcome.after_bind_invariant (h.takeToken ?_) fun r p h => ?_
      · intro name hname
        exact keepsName_of_next (Prod.ext hname rfl)
      · cases r with
        | none => exact ih h
        | some result => exact h

theorem NamesKept.root {p : TypeParser} (h : p.NamesKept) : p.root.NamesKept := by
  obtain ⟨type_, open_elements_, rootPushed⟩ := p
  induction open_elements_ generalizing type_ with
  | nil => exact h.1
  | cons parent above ih =>
      obtain ⟨hparent, habove⟩ := List.forall_mem_cons.mp h.2
      exact ih _ ⟨namesKept_attach hparent h.1, habove⟩

/-- The names in the tree that a parse leaves. -/
theorem namesKept_parse (name : Bytes) : (Outcome.after (Parse name) {}).root.NamesKept :=
  NamesKept.root (NamesKept.parseLoop ⟨namesKept_new, by simp⟩)

end TypeParser

/-- What the parser makes of a name: the codes that no name has do not occur, and the
enumerators have names and codes of theirs. -/
def LeafType.FromName : LeafType → Prop
  | .int128 | .ipv4 | .ipv6 => False
  | .enum8 items | .enum16 items =>
      ∀ item ∈ items, KeepsName item.1 ∧ -2 ^ 15 ≤ item.2 ∧ item.2 < 2 ^ 15
  | _ => True

theorem enumItems_kept {elements : List TypeAst} (h : AllNamesKept elements) :
    ∀ item ∈ elements.map enumItem, KeepsName item.1 ∧ -2 ^ 15 ≤ item.2 ∧ item.2 < 2 ^ 15 := by
  induction elements with
  | nil => simp
  | cons element elements ih =>
      obtain ⟨hnode, hothers⟩ := h
      have hlow : -2 ^ 15 ≤ element.value.bmod (2 ^ 16) := Int.le_bmod (by decide)
      have hhigh : element.value.bmod (2 ^ 16) < 2 ^ 15 := Int.bmod_lt (by decide)
      simpa [enumItem] using
        ⟨⟨((namesKept_iff _).mp hnode).1, hlow, hhigh⟩, by simpa [enumItem] using ih hothers⟩

/-- Any tuple. -/
abbrev AnyItems : List ChType → Prop := fun _ => True

theorem fromName_terminal {code : TypeCode} {elements : List TypeAst} {t : ChType}
    (h : CreateTerminalColumn code elements = .ok (some t)) :
    t.All LeafType.FromName AnyItems := by
  have hleaf : ∀ {l : LeafType}, l.FromName → leafColumn l = .ok (some t) →
      t.All LeafType.FromName AnyItems := by
    intro l hl h
    cases h
    exact hl
  have hfront : ∀ {f : Int → LeafType}, (∀ n, (f n).FromName) →
      (do let n ← frontValue elements; leafColumn (f n)) = .ok (some t) →
      t.All LeafType.FromName AnyItems := by
    intro f hf h
    cases elements with
    | nil => cases h
    | cons element elements => exact hleaf (hf _) h
  cases code with
  | fixedString => exact hfront (f := fun n => .fixedString (toSizeT n)) (fun _ => trivial) h
  | decimal32 => exact hfront (f := fun n => .decimal 9 (toSizeT n)) (fun _ => trivial) h
  | decimal64 => exact hfront (f := fun n => .decimal 18 (toSizeT n)) (fun _ => trivial) h
  | decimal128 =>
      simp only [CreateTerminalColumn] at h
      split at h
      · exact hleaf (by trivial) h
      · exact hleaf (by trivial) h
      · cases h
  | void | int128 | array | nullable | tuple | enum8 | enum16 => cases h
  | _ => exact hleaf (by trivial) h

mutual

theorem fromName_create : ∀ {ast : TypeAst}, ast.NamesKept → ∀ {t : ChType},
    CreateColumnFromAst ast = .ok (some t) → t.All LeafType.FromName AnyItems
  | ⟨.array, _, _, _, elements⟩, hkept, t, h => by
      rw [CreateColumnFromAst] at h
      cases hfront : createFront elements with
      | error fault => rw [hfront] at h; cases h
      | ok column =>
          rw [hfront] at h
          cases column with
          | none => cases h
          | some item =>
              cases h
              exact fromName_createFront (t := item) hkept.2 hfront
  | ⟨.nullable, _, _, _, elements⟩, hkept, t, h => by
      rw [CreateColumnFromAst] at h
      cases hfront : createFront elements with
      | error fault => rw [hfront] at h; cases h
      | ok column =>
          rw [hfront] at h
          cases column with
          | none => cases h
          | some item =>
              cases h
              exact fromName_createFront (t := item) hkept.2 hfront
  | ⟨.terminal, code, _, _, elements⟩, _, t, h => by
      rw [CreateColumnFromAst] at h
      exact fromName_terminal h
  | ⟨.tuple, _, _, _, elements⟩, hkept, t, h => by
      rw [CreateColumnFromAst] at h
      cases hall : createAll elements with
      | error fault => rw [hall] at h; cases h
      | ok columns =>
          rw [hall] at h
          cases columns with
          | none => cases h
          | some items => cases h; exact ⟨trivial, fromName_createAll hkept.2 hall⟩
  | ⟨.enum, code, _, _, elements⟩, hkept, t, h => by
      cases code with
      | enum8 => cases h; exact enumItems_kept hkept.2
      | enum16 => cases h; exact enumItems_kept hkept.2
      | _ => cases h
  | ⟨.null, _, _, _, _⟩, _, t, h => by rw [CreateColumnFromAst] at h; cases h
  | ⟨.number, _, _, _, _⟩, _, t, h => by rw [CreateColumnFromAst] at h; cases h

theorem fromName_createFront : ∀ {elements : List TypeAst}, AllNamesKept elements →
    ∀ {t : ChType}, createFront elements = .ok (some t) → t.All LeafType.FromName AnyItems
  | [], _, _, h => by rw [createFront] at h; cases h
  | element :: _, hkept, _, h => by
      rw [createFront] at h
      exact fromName_create hkept.1 h

theorem fromName_createAll : ∀ {elements : List TypeAst}, AllNamesKept elements →
    ∀ {items : List ChType}, createAll elements = .ok (some items) →
      AllItems LeafType.FromName AnyItems items
  | [], _, _, h => by
      rw [createAll] at h
      cases h
      trivial
  | element :: elements, hkept, items, h => by
      rw [createAll] at h
      cases hfirst : CreateColumnFromAst element with
      | error fault => rw [hfirst] at h; cases h
      | ok column =>
          rw [hfirst] at h
          cases column with
          | none => cases h
          | some t =>
              cases hothers : createAll elements with
              | error fault => simp only [hothers] at h; cases h
              | ok columns =>
                  simp only [hothers] at h
                  cases columns with
                  | none => cases h
                  | some others =>
                      cases h
                      exact ⟨fromName_create hkept.1 hfirst, fromName_createAll hkept.2 hothers⟩

end

/-- What a column can be that is made by the name of its type. -/
theorem fromName_of_typeByName {name : Bytes} {t : ChType} (h : typeByName name = .ok (some t)) :
    t.All LeafType.FromName AnyItems := by
  have hkept := TypeParser.namesKept_parse name
  unfold typeByName at h
  split at h
  · rename_i p hparse
    rw [Outcome.after_ok hparse] at hkept
    exact fromName_create hkept h
  · cases h
  · cases h

/-! ## Names of printed types -/

theorem valueToName_eq_ofList (items : List (Bytes × Int)) :
    valueToName items = Std.ExtTreeMap.ofList (items.map fun item => (item.2, item.1)) compare := by
  rw [Std.ExtTreeMap.ofList_eq_foldl, List.foldl_map]
  rfl

theorem mem_printedItems {items : List (Bytes × Int)} {name : Bytes} {code : Int} :
    (name, code) ∈ printedItems items ↔ (valueToName items)[code]? = some name := by
  rw [← Std.ExtTreeMap.mem_toList_iff_getElem?_eq_some]
  simp [printedItems]

/-- The map is made again from its entries. -/
theorem valueToName_printedItems (items : List (Bytes × Int)) :
    valueToName (printedItems items) = valueToName items := by
  have hentries : (printedItems items).map (fun item => (item.2, item.1)) =
      (valueToName items).toList := by
    simp [printedItems, Function.comp_def]
  ext code name
  constructor
  · intro h
    exact mem_printedItems.mp (mem_of_valueToName h)
  · intro h
    have hmem := Std.ExtTreeMap.mem_toList_iff_getElem?_eq_some.mpr h
    rw [valueToName_eq_ofList, hentries]
    exact Std.ExtTreeMap.getElem?_ofList_of_mem Std.ReflCmp.compare_self
      Std.ExtTreeMap.distinct_keys_toList hmem

theorem enumName_printedItems (head : String) (items : List (Bytes × Int)) :
    enumName head (printedItems items) = enumName head items := by
  rw [enumName, enumName, valueToName_printedItems]

theorem LeafType.getName_printed (l : LeafType) : l.printed.GetName = l.GetName := by
  cases l with
  | enum8 items => exact enumName_printedItems _ items
  | enum16 items => exact enumName_printedItems _ items
  | decimal precision scale =>
      have hhead : decimalHead (printedPrecision precision) = decimalHead precision := by
        unfold decimalHead printedPrecision
        split_ifs <;> first | rfl | omega
      simp only [printed, LeafType.GetName, hhead]
  | ipv6 => decide
  | _ => rfl

mutual

/-- The printed type has the same name, so `IsEqual` takes it for the same type. -/
theorem ChType.getName_printed : ∀ t : ChType, t.printed.GetName = t.GetName
  | .leaf l => l.getName_printed
  | .array item => by rw [ChType.printed, ChType.GetName, ChType.GetName, item.getName_printed]
  | .nullable nested => by
      rw [ChType.printed, ChType.GetName, ChType.GetName, nested.getName_printed]
  | .tuple items => by
      rw [ChType.printed, ChType.GetName, ChType.GetName, getNames_printedAll items]

theorem getNames_printedAll : ∀ items : List ChType, getNames (printedAll items) = getNames items
  | [] => rfl
  | item :: items => by
      rw [printedAll, getNames, getNames, item.getName_printed, getNames_printedAll items]

end

theorem printedItems_ne_nil {items : List (Bytes × Int)} (hne : items ≠ []) :
    printedItems items ≠ [] := by
  cases items with
  | nil => exact absurd rfl hne
  | cons item items =>
      have hmem : item.2 ∈ valueToName (item :: items) := by
        simp [valueToName_eq_ofList, Std.ExtTreeMap.mem_ofList]
      obtain ⟨name, hname⟩ := Option.isSome_iff_exists.mp
        (Std.ExtTreeMap.isSome_getElem?_iff_mem.mpr hmem)
      exact List.ne_nil_of_mem (mem_printedItems.mpr hname)

theorem enumName_ok {head : String} {items : List (Bytes × Int)} (hne : items ≠ []) :
    ∃ s, enumName head items = .ok s := by
  have hprinted := printedItems_ne_nil hne
  unfold enumName
  split
  · rename_i hnil
    simp [printedItems, hnil] at hprinted
  · exact ⟨_, rfl⟩

theorem LeafType.getName_ok {l : LeafType} (h : l.Readable) : ∃ s, l.GetName = .ok s := by
  cases l with
  | enum8 items => exact enumName_ok h.1
  | enum16 items => exact enumName_ok h.1
  | _ => exact ⟨_, rfl⟩

mutual

/-- A type that can be read has a name. -/
theorem ChType.getName_ok : ∀ {t : ChType}, t.Readable → ∃ s, t.GetName = .ok s
  | .leaf _, h => LeafType.getName_ok h
  | .array item, h => by
      obtain ⟨name, hname⟩ := ChType.getName_ok (t := item) h
      exact ⟨_, by rw [ChType.GetName, hname]; rfl⟩
  | .nullable nested, h => by
      obtain ⟨name, hname⟩ := ChType.getName_ok (t := nested) h
      exact ⟨_, by rw [ChType.GetName, hname]; rfl⟩
  | .tuple items, h => by
      obtain ⟨names, hnames⟩ := getNames_ok h.2
      exact ⟨_, by rw [ChType.GetName, hnames]; rfl⟩

theorem getNames_ok : ∀ {items : List ChType}, AllItems LeafType.Readable (· ≠ []) items →
    ∃ names, getNames items = .ok names
  | [], _ => ⟨[], rfl⟩
  | item :: items, h => by
      obtain ⟨name, hname⟩ := ChType.getName_ok h.1
      obtain ⟨names, hnames⟩ := getNames_ok h.2
      exact ⟨_, by rw [getNames, hname, hnames]; rfl⟩

end

/-! ## From a name to a type and back -/

/-- A type read from a name whose own name can be read: what the parser leaves to chance. -/
def LeafType.Fits : LeafType → Prop
  | .fixedString n => n < 2 ^ 63
  | .decimal _ scale => scale < 2 ^ 63
  | .enum8 items | .enum16 items => items ≠ []
  | _ => True

theorem LeafType.readable_of_fits {l : LeafType} (hfrom : l.FromName) (hfits : l.Fits) :
    l.Readable := by
  cases l with
  | enum8 items => exact ⟨hfits, hfrom⟩
  | enum16 items => exact ⟨hfits, hfrom⟩
  | int128 => exact hfrom
  | _ => exact hfits

mutual

theorem ChType.All.and_imp {P P' R : LeafType → Prop} {Q Q' S : List ChType → Prop}
    (hleaf : ∀ l, P l → P' l → R l) (htuple : ∀ items, Q items → Q' items → S items) :
    ∀ {t : ChType}, t.All P Q → t.All P' Q' → t.All R S
  | .leaf l, h, h' => hleaf l h h'
  | .array item, h, h' => ChType.All.and_imp (t := item) hleaf htuple h h'
  | .nullable nested, h, h' => ChType.All.and_imp (t := nested) hleaf htuple h h'
  | .tuple items, h, h' =>
      ⟨htuple items h.1 h'.1, AllItems.and_imp hleaf htuple h.2 h'.2⟩

theorem AllItems.and_imp {P P' R : LeafType → Prop} {Q Q' S : List ChType → Prop}
    (hleaf : ∀ l, P l → P' l → R l) (htuple : ∀ items, Q items → Q' items → S items) :
    ∀ {items : List ChType}, AllItems P Q items → AllItems P' Q' items → AllItems R S items
  | [], _, _ => trivial
  | _ :: _, h, h' =>
      ⟨ChType.All.and_imp hleaf htuple h.1 h'.1, AllItems.and_imp hleaf htuple h.2 h'.2⟩

end

theorem ChType.readable_of_fits {t : ChType} (hfrom : t.All LeafType.FromName AnyItems)
    (hfits : t.All LeafType.Fits (· ≠ [])) : t.Readable :=
  hfrom.and_imp (fun _ => LeafType.readable_of_fits) (fun _ _ h => h) hfits

/-- What a call makes of a name, also where an exception has left a part of its tree. -/
theorem fromName_of_call {names : List Bytes} {cache cache' : AstCache}
    (h : CacheAfter names cache) {name : Bytes} {t : ChType}
    (hcall : CreateColumnByType name cache = .ok (some t) cache') :
    t.All LeafType.FromName AnyItems := by
  have hanswer := answer_of_cacheHolds (cacheHolds_of_cacheAfter h) name
  have hkept := TypeParser.namesKept_parse name
  rw [hcall, answer] at hanswer
  unfold answerAfter at hanswer
  split at hanswer
  · rename_i what p hparse
    rw [Outcome.after_error hparse] at hkept
    split at hanswer
    · exact fromName_create hkept hanswer.symm
    · cases hanswer
  · exact fromName_of_typeByName hanswer.symm

/-- A type that has been read from a name has a name itself. This name is read as the printed
type, which has the same name, after any calls. -/
theorem CreateColumnByType_readBack {names : List Bytes} {cache cache' : AstCache}
    (h : CacheAfter names cache) {name : Bytes} {t : ChType}
    (hcall : CreateColumnByType name cache = .ok (some t) cache')
    (hfits : t.All LeafType.Fits (· ≠ [])) :
    ∃ s, t.GetName = .ok s ∧ t.printed.GetName = .ok s ∧
      ∃ cache'', CreateColumnByType s cache' = .ok (some t.printed) cache'' := by
  have hreadable := ChType.readable_of_fits (fromName_of_call h hcall) hfits
  obtain ⟨s, hs⟩ := ChType.getName_ok hreadable
  exact ⟨s, hs, by rw [t.getName_printed, hs],
    call_of_typeByName (h.returned hcall) (typeByName_getName hreadable hs)⟩

/-- The name of an address of 128 bits makes a column of texts, and so does its name. -/
theorem readBack_ipv6 : ∃ s, (ChType.leaf (.fixedString 16)).GetName = .ok s ∧
    (ChType.leaf (.fixedString 16)).printed.GetName = .ok s ∧
    ∃ cache cache', CreateColumnByType s cache =
      .ok (some (ChType.leaf (.fixedString 16)).printed) cache' := by
  have hnamed : ChType.IsNamed (.leaf (.fixedString 16)) [.name (ascii "IPv6")] :=
    LeafType.IsNamed.plain (by simp [plainTypes])
  have htype := typeByName_of_isNamed (s := ascii "IPv6") (by decide) hnamed
  obtain ⟨cache, hcall⟩ := call_of_typeByName .start htype
  obtain ⟨s, hs, hprinted, hagain⟩ := CreateColumnByType_readBack .start hcall
    (show 16 < 2 ^ 63 by decide)
  exact ⟨s, hs, hprinted, cache, hagain⟩

end FlexEtl
