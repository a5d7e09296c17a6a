/-
FlexEtl.Db.TypeParserTheorems — what the names of types are read as.

`tokens` is the text without its blanks, and what `Parse` does depends on it only.
`IsNamed` is the grammar of the names: which tokens stand for which type. A
name of the grammar is read as its type (`typeByName_of_isNamed`), however it is
spaced, and `GetName` writes such names (`getName_isNamed`), so that a type can be
read from its name, but for what the name does not tell: `printed`.
-/
import FlexEtl.Db.TypeParser
import FlexEtl.Lib.Outcome
import FlexEtl.Lib.Scanner
import Mathlib.Tactic.FinCases

namespace FlexEtl

open Decoder (Stops)

/-! ## The tokens of a text -/

/-- The tokens up to the end, if no character is invalid. -/
def tokensFrom : Nat → Bytes → Option (List Token)
  | 0, _ => none
  | fuel + 1, s =>
      match NextToken s with
      | (.eos, _) => some []
      | (.invalid, _) => none
      | (token, rest) => (tokensFrom fuel rest).map (token :: ·)

/-- The tokens of a text. -/
def tokens (s : Bytes) : Option (List Token) := tokensFrom (s.length + 1) s

theorem length_dropWhile_le (p : UInt8 → Bool) (s : Bytes) : (s.dropWhile p).length ≤ s.length :=
  (List.dropWhile_suffix p).length_le

/-- A token takes characters. -/
theorem NextToken_lt (s : Bytes) :
    (NextToken s).1 = .eos ∨ (NextToken s).1 = .invalid ∨
      (NextToken s).2.length < s.length := by
  induction s with
  | nil => simp [NextToken]
  | cons c s ih =>
      have hname := length_dropWhile_le isNameChar s
      have hdigits := length_dropWhile_le (Numeral.isDigit 10) s
      simp only [NextToken, List.length_cons]
      split
      · rcases ih with h | h | h
        · exact .inl h
        · exact .inr (.inl h)
        · exact .inr (.inr (by omega))
      · split_ifs <;> simp <;> omega

/-- Fuel above the length makes no difference. -/
theorem tokensFrom_eq {n : Nat} {s : Bytes} (h : s.length < n) : tokensFrom n s = tokens s := by
  have hfuel : ∀ (n m : Nat) (s : Bytes), s.length < n → s.length < m →
      tokensFrom n s = tokensFrom m s := by
    intro n
    induction n with
    | zero => intro m s hn; omega
    | succ n ih =>
        intro m s hn hm
        cases m with
        | zero => omega
        | succ m =>
            have hlt := NextToken_lt s
            cases htoken : NextToken s with
            | mk token rest =>
                simp only [htoken] at hlt
                cases token with
                | eos => simp [tokensFrom, htoken]
                | invalid => simp [tokensFrom, htoken]
                | _ =>
                    have hrest : rest.length < s.length := by simpa using hlt
                    simp [tokensFrom, htoken, ih m rest (by omega) (by omega)]
  exact hfuel n (s.length + 1) s h (by omega)

/-- The first token, where there is one. -/
theorem tokens_of_next {s rest : Bytes} {token : Token} (h : NextToken s = (token, rest))
    (heos : token ≠ .eos) (hinvalid : token ≠ .invalid) :
    tokens s = (tokens rest).map (token :: ·) := by
  have hlt := NextToken_lt s
  simp only [h, heos, hinvalid, false_or] at hlt
  have hrest : tokensFrom s.length rest = tokens rest := tokensFrom_eq hlt
  cases token with
  | eos => exact absurd rfl heos
  | invalid => exact absurd rfl hinvalid
  | _ => simp [tokens, tokensFrom, h, hrest]

theorem tokensFrom_succ {n : Nat} {s : Bytes} {ts : List Token}
    (h : tokensFrom (n + 1) s = some ts) :
    (∃ rest, NextToken s = (.eos, rest) ∧ ts = []) ∨
      ∃ token rest us, NextToken s = (token, rest) ∧ token ≠ .eos ∧ token ≠ .invalid ∧
        tokensFrom n rest = some us ∧ ts = token :: us := by
  cases hnext : NextToken s with
  | mk token rest =>
      cases token with
      | eos => exact .inl ⟨rest, rfl, by simpa [tokensFrom, hnext] using h.symm⟩
      | invalid => simp [tokensFrom, hnext] at h
      | _ =>
          simp only [tokensFrom, hnext, Option.map_eq_some_iff] at h
          obtain ⟨us, hus, rfl⟩ := h
          exact .inr ⟨_, rest, us, rfl, by simp, by simp, hus, rfl⟩

@[simp] theorem tokens_nil : tokens [] = some [] := rfl

/-- A blank before the text makes no difference. -/
theorem tokens_skipped {c : UInt8} (h : isSkipped c = true) (s : Bytes) :
    tokens (c :: s) = tokens s := by
  have hnext : NextToken (c :: s) = NextToken s := by simp [NextToken, h]
  have hfuel : tokensFrom (s.length + 1 + 1) s = tokens s := tokensFrom_eq (by omega)
  rw [← hfuel, tokens, tokensFrom, tokensFrom, hnext, List.length_cons]

@[simp] theorem tokens_lPar (s : Bytes) : tokens (0x28 :: s) = (tokens s).map (.lPar :: ·) :=
  tokens_of_next (by simp [NextToken, isSkipped]) (by simp) (by simp)

@[simp] theorem tokens_rPar (s : Bytes) : tokens (0x29 :: s) = (tokens s).map (.rPar :: ·) :=
  tokens_of_next (by simp [NextToken, isSkipped]) (by simp) (by simp)

@[simp] theorem tokens_comma (s : Bytes) : tokens (0x2c :: s) = (tokens s).map (.comma :: ·) :=
  tokens_of_next (by simp [NextToken, isSkipped]) (by simp) (by simp)

@[simp] theorem tokens_blank (s : Bytes) : tokens (0x20 :: s) = tokens s :=
  tokens_skipped (by decide) s

@[simp] theorem tokens_quote (s : Bytes) : tokens (0x27 :: s) = tokens s :=
  tokens_skipped (by decide) s

@[simp] theorem tokens_equals (s : Bytes) : tokens (0x3d :: s) = tokens s :=
  tokens_skipped (by decide) s

/-- What follows a name or a number, so that it ends there. -/
abbrev Delimits (rest : Bytes) : Prop := Stops (fun c => isNameChar c = true) rest

/-- A text that a name token may hold; the empty one is what a node holds without a token. -/
def KeepsName (name : Bytes) : Prop :=
  (∀ c ∈ name, isNameChar c = true) ∧ ∀ c ∈ name.head?, isNameStart c = true

instance (name : Bytes) : Decidable (KeepsName name) :=
  decidable_of_iff (name.all isNameChar = true ∧ name.head?.all isNameStart = true)
    (by cases name <;> simp [KeepsName])

theorem takeWhile_of_stops {p : UInt8 → Bool} {w rest : Bytes} (hw : ∀ c ∈ w, p c = true)
    (hrest : Stops (fun c => p c = true) rest) :
    (w ++ rest).takeWhile p = w ∧ (w ++ rest).dropWhile p = rest := by
  have hstop : rest.takeWhile p = [] ∧ rest.dropWhile p = rest := by
    cases rest with
    | nil => simp
    | cons c rest =>
        have hc : p c = false := by simpa using hrest c rfl
        simp [hc]
  simp [List.takeWhile_append_of_pos hw, List.dropWhile_append_of_pos hw, hstop]

/-- What the other tests say about the first character of a name. -/
theorem of_isNameStart {c : UInt8} (h : isNameStart c = true) :
    isSkipped c = false ∧ c ≠ 0x28 ∧ c ≠ 0x29 ∧ c ≠ 0x2c := by
  have hall := @Numeral.forall_byte
    (fun c => !isNameStart c || (!isSkipped c && c != 0x28 && c != 0x29 && c != 0x2c))
    (by decide +kernel) c
  simpa [h, and_assoc] using hall

/-- What they say about the first character of a number. -/
theorem of_isDigit_or_minus {c : UInt8} (h : Numeral.isDigit 10 c = true ∨ c = 0x2d) :
    isSkipped c = false ∧ c ≠ 0x28 ∧ c ≠ 0x29 ∧ c ≠ 0x2c ∧ isNameStart c = false := by
  have hall := @Numeral.forall_byte
    (fun c => !(Numeral.isDigit 10 c || c == 0x2d) ||
      (!isSkipped c && c != 0x28 && c != 0x29 && c != 0x2c && !isNameStart c))
    (by decide +kernel) c
  rcases h with h | rfl
  · simpa [h, and_assoc] using hall
  · decide

/-- The token of a name, if it is not empty. -/
def nameTokens (name : Bytes) : List Token := if name = [] then [] else [.name name]

theorem tokens_name {name rest : Bytes} (hname : KeepsName name) (hrest : Delimits rest) :
    tokens (name ++ rest) = (tokens rest).map (nameTokens name ++ ·) := by
  cases name with
  | nil => simp [nameTokens]
  | cons c name =>
      have hstart : isNameStart c = true := hname.2 c rfl
      obtain ⟨hskip, hlpar, hrpar, hcomma⟩ := of_isNameStart hstart
      obtain ⟨htake, hdrop⟩ := takeWhile_of_stops
        (fun d hd => hname.1 d (List.mem_cons_of_mem _ hd)) hrest
      have hnext : NextToken (c :: (name ++ rest)) = (.name (c :: name), rest) := by
        simp [NextToken, hskip, hlpar, hrpar, hcomma, hstart, htake, hdrop]
      simpa [nameTokens] using tokens_of_next hnext (by simp) (by simp)

theorem stops_digit_of_delimits {rest : Bytes} (h : Delimits rest) :
    Stops (fun c => Numeral.isDigit 10 c = true) rest :=
  h.mono fun c hc => by simp [isNameChar, hc]

theorem tokens_number {n : Int} {rest : Bytes} (hrest : Delimits rest) :
    tokens (Numeral.decimalInt n ++ rest) =
      (tokens rest).map (.number (Numeral.decimalInt n) :: ·) := by
  have hnext : ∀ c ds, (Numeral.isDigit 10 c = true ∨ c = 0x2d) →
      (∀ d ∈ ds, Numeral.isDigit 10 d = true) →
      NextToken (c :: (ds ++ rest)) = (.number (c :: ds), rest) := by
    intro c ds hc hds
    obtain ⟨hskip, hlpar, hrpar, hcomma, hstart⟩ := of_isDigit_or_minus hc
    obtain ⟨htake, hdrop⟩ := takeWhile_of_stops hds (stops_digit_of_delimits hrest)
    simp [NextToken, hskip, hlpar, hrpar, hcomma, hstart, hc, htake, hdrop]
  have hdigits : ∀ d ∈ Numeral.decimal n.natAbs, Numeral.isDigit 10 d = true :=
    fun d hd => Numeral.isDigit_of_mem_decimal hd
  unfold Numeral.decimalInt
  split
  · exact tokens_of_next (hnext 0x2d _ (.inr rfl) hdigits) (by simp) (by simp)
  · cases hdecimal : Numeral.decimal n.natAbs with
    | nil => exact absurd hdecimal (Numeral.decimal_ne_nil _)
    | cons c ds =>
        rw [hdecimal] at hdigits
        exact tokens_of_next
          (hnext c ds (.inl (hdigits c (by simp))) fun d hd => hdigits d (by simp [hd]))
          (by simp) (by simp)

/-- A printed number is read back, if it fits. -/
theorem stol_decimalInt {n : Int} (hlow : -2 ^ 63 ≤ n) (hhigh : n < 2 ^ 63) :
    stol (Numeral.decimalInt n) = .ok n := by
  have hvalue : (if n < 0 then -(n.natAbs : Int) else n.natAbs) = n := by
    split <;> omega
  simp only [stol, Numeral.sign_decimalInt, Numeral.scan_decimal, decide_eq_true_eq, hvalue]
  rw [if_pos ⟨hlow, hhigh⟩]

/-! ## The tree of some tokens -/

namespace TypeParser

/-- The turns of the loop for some tokens before the last. -/
def takeTokens : List Token → TypeParserM Unit
  | [] => pure ()
  | token :: ts => do
      let _ ← takeToken token
      takeTokens ts

theorem takeTokens_cons {token : Token} {ts : List Token} {p p' : TypeParser} {r : Option Bool}
    (h : takeToken token p = .ok r p') : takeTokens (token :: ts) p = takeTokens ts p' :=
  Outcome.bind_of_ok h

theorem takeTokens_append {ts us : List Token} {p p' : TypeParser}
    (h : takeTokens ts p = .ok () p') : takeTokens (ts ++ us) p = takeTokens us p' := by
  induction ts generalizing p with
  | nil =>
      cases h
      rfl
  | cons token ts ih =>
      obtain ⟨r, p₁, htoken, hts⟩ := Decoder.bind_eq_ok.mp h
      rw [List.cons_append, takeTokens_cons htoken]
      exact ih hts

theorem takeToken_goes_on {token : Token} (heos : token ≠ .eos) (hinvalid : token ≠ .invalid)
    {p p' : TypeParser} {r : Option Bool} (h : takeToken token p = .ok r p') : r = none := by
  cases token with
  | eos => exact absurd rfl heos
  | invalid => exact absurd rfl hinvalid
  | name value => cases h; rfl
  | number value =>
      obtain ⟨_, p₁, _, h⟩ := Decoder.bind_eq_ok.mp h
      cases hn : stol value with
      | ok n => simp only [hn] at h; cases h; rfl
      | error fault => simp only [hn] at h; cases h
  | lPar => cases h; rfl
  | rPar =>
      obtain ⟨_, p₁, _, h⟩ := Decoder.bind_eq_ok.mp h
      cases h
      rfl
  | comma =>
      obtain ⟨_, p₁, _, h⟩ := Decoder.bind_eq_ok.mp h
      cases h
      rfl

/-- What `Parse` does depends on the tokens. -/
theorem parseLoop_of_tokens {n : Nat} {s : Bytes} {ts : List Token}
    (htokens : tokensFrom n s = some ts) {p p' : TypeParser} (h : takeTokens ts p = .ok () p') :
    parseLoop n s p = .ok true p' := by
  induction n generalizing s ts p with
  | zero => simp [tokensFrom] at htokens
  | succ n ih =>
      rcases tokensFrom_succ htokens with
        ⟨rest, hnext, rfl⟩ | ⟨token, rest, us, hnext, heos, hinvalid, hus, rfl⟩
      · cases h
        simp only [parseLoop, hnext]
        rfl
      · obtain ⟨r, p₁, htoken, hrun⟩ := Decoder.bind_eq_ok.mp h
        have hr := takeToken_goes_on heos hinvalid htoken
        subst hr
        rw [parseLoop, hnext, Outcome.bind_of_ok htoken]
        exact ih hus hrun

theorem takeToken_number {value : Bytes} {n : Int} (h : stol value = .ok n) (p : TypeParser) :
    takeToken (.number value) p =
      .ok none { p with type_ := { p.type_ with category := .number, value := n } } := by
  simp only [takeToken, h]
  rfl

/-- A number that does not fit leaves its node marked. -/
theorem takeToken_number_error {value : Bytes} {fault : Fault} (h : stol value = .error fault)
    (p : TypeParser) : takeToken (.number value) p =
      .error fault { p with type_ := { p.type_ with category := .number } } := by
  simp only [takeToken, h]
  rfl

/-- The loop ends at a number that does not fit. -/
theorem parseLoop_error {n : Nat} {s value : Bytes} {ts us : List Token}
    (htokens : tokensFrom n s = some (ts ++ .number value :: us)) {p p' : TypeParser}
    (h : takeTokens ts p = .ok () p') {fault : Fault} (hvalue : stol value = .error fault) :
    parseLoop n s p =
      .error fault { p' with type_ := { p'.type_ with category := .number } } := by
  induction n generalizing s ts p with
  | zero => simp [tokensFrom] at htokens
  | succ n ih =>
      rcases tokensFrom_succ htokens with
        ⟨rest, hnext, hnil⟩ | ⟨token, rest, vs, hnext, heos, hinvalid, hvs, hcons⟩
      · simp at hnil
      · cases ts with
        | nil =>
            cases h
            cases hcons
            rw [parseLoop, hnext, Outcome.bind_of_error (takeToken_number_error hvalue _)]
        | cons first ts =>
            rw [List.cons_append, List.cons.injEq] at hcons
            obtain ⟨rfl, rfl⟩ := hcons
            obtain ⟨r, p₁, htoken, hrun⟩ := Decoder.bind_eq_ok.mp h
            have hr := takeToken_goes_on heos hinvalid htoken
            subst hr
            rw [parseLoop, hnext, Outcome.bind_of_ok htoken]
            exact ih hvs hrun

/-- The tokens make this tree out of a new node, and leave the nodes above it alone. -/
def Builds (ts : List Token) (ast : TypeAst) : Prop :=
  ∀ above rootPushed, takeTokens ts ⟨{}, above, rootPushed⟩ = .ok () ⟨ast, above, rootPushed⟩

/-- A node with a name and some elements. -/
def named (name : Bytes) (elements : List TypeAst) : TypeAst :=
  { category := GetTypeMeta name, code := GetTypeCode name, name := name, elements := elements }

theorem builds_name (name : Bytes) : Builds [.name name] (named name []) := fun _ _ => rfl

theorem builds_number {value : Bytes} {n : Int} (h : stol value = .ok n) :
    Builds [.number value] { category := .number, value := n } := by
  intro above rootPushed
  rw [takeTokens_cons (takeToken_number h _)]
  rfl

/-- An enumerator: a name, if it is not empty, and a number. -/
theorem builds_enumerator (name : Bytes) {value : Bytes} {n : Int} (h : stol value = .ok n) :
    ∃ ast : TypeAst, ast.name = name ∧ ast.value = n ∧
      Builds (nameTokens name ++ [Token.number value]) ast := by
  by_cases hname : name = []
  · subst hname
    exact ⟨_, rfl, rfl, builds_number h⟩
  · refine ⟨{ named name [] with category := .number, value := n }, rfl, rfl, ?_⟩
    intro above rootPushed
    rw [nameTokens, if_neg hname, takeTokens_append (builds_name name above rootPushed),
      takeTokens_cons (takeToken_number h _)]
    rfl

/-- Tokens with commas between them. -/
def itemTokens : List (List Token) → List Token
  | [] => []
  | ts :: tss => ts ++ tss.flatMap (.comma :: ·)

/-- The rest of a list in parentheses, behind its first element. -/
theorem takeTokens_siblings {tss : List (List Token)} {asts : List TypeAst}
    (h : List.Forall₂ Builds tss asts) (last parent : TypeAst) (above : List TypeAst)
    (rootPushed : Bool) :
    takeTokens (tss.flatMap (Token.comma :: ·) ++ [Token.rPar]) ⟨last, parent :: above, rootPushed⟩ =
      .ok () ⟨{ parent with elements := parent.elements ++ last :: asts }, above, rootPushed⟩ := by
  induction h generalizing last parent with
  | nil => rfl
  | @cons ts ast tss asts hfirst _ ih =>
      have hcomma : takeToken .comma ⟨last, parent :: above, rootPushed⟩ =
          .ok none ⟨{}, { parent with elements := parent.elements ++ [last] } :: above,
            rootPushed⟩ := rfl
      rw [List.flatMap_cons, List.append_assoc, List.cons_append, takeTokens_cons hcomma,
        takeTokens_append (hfirst _ _), ih]
      simp

/-- The tokens of a name in front of parentheses. -/
def callTokens (name : Bytes) (tss : List (List Token)) : List Token :=
  .name name :: .lPar :: (itemTokens tss ++ [.rPar])

theorem builds_call (name : Bytes) {tss : List (List Token)} {asts : List TypeAst}
    (hne : tss ≠ []) (h : List.Forall₂ Builds tss asts) :
    Builds (callTokens name tss) (named name asts) := by
  intro above rootPushed
  cases h with
  | nil => exact absurd rfl hne
  | @cons ts ast tss asts hfirst hothers =>
      have hopen : takeTokens [.name name, .lPar] ⟨{}, above, rootPushed⟩ =
          .ok () ⟨{}, named name [] :: above, rootPushed⟩ := rfl
      have hsplit : callTokens name (ts :: tss) =
          [.name name, .lPar] ++ (ts ++ (tss.flatMap (Token.comma :: ·) ++ [Token.rPar])) := by
        simp [callTokens, itemTokens]
      rw [hsplit, takeTokens_append hopen, takeTokens_append (hfirst _ _),
        takeTokens_siblings hothers]
      simp [named]

end TypeParser

/-! ## The grammar of the names -/

/-- Names without parameters, and the types that their columns have. -/
def plainTypes : List (String × LeafType) :=
  [("Int8", .int8), ("Int16", .int16), ("Int32", .int32), ("Int64", .int64),
    ("UInt8", .uint8), ("UInt16", .uint16), ("UInt32", .uint32), ("UInt64", .uint64),
    ("Float32", .float32), ("Float64", .float64), ("String", .string),
    ("DateTime", .dateTime), ("Date", .date), ("UUID", .uuid),
    ("IPv4", .uint32), ("IPv6", .fixedString 16)]

/-- Names of decimal types, with the precision that a scale alone stands for. -/
def scaledTypes : List (String × Nat) :=
  [("Decimal32", 9), ("Decimal64", 18), ("Decimal128", 38), ("Decimal", 38)]

/-- The tokens of an enumerator. -/
def IsEnumerator (item : Bytes × Int) (ts : List Token) : Prop :=
  ∃ value n, stol value = .ok n ∧ item.2 = n.bmod (2 ^ 16) ∧
    ts = nameTokens item.1 ++ [Token.number value]

open TypeParser (callTokens)

/-- The tokens name the type without nesting. -/
inductive LeafType.IsNamed : LeafType → List Token → Prop
  | plain {head : String} {l : LeafType} (h : (head, l) ∈ plainTypes) :
      IsNamed l [.name (ascii head)]
  | fixedString {value : Bytes} {n : Int} (h : stol value = .ok n) :
      IsNamed (.fixedString (toSizeT n)) (callTokens (ascii "FixedString") [[.number value]])
  | scaled {head : String} {precision : Nat} {value : Bytes} {n : Int}
      (hhead : (head, precision) ∈ scaledTypes) (h : stol value = .ok n) :
      IsNamed (.decimal precision (toSizeT n)) (callTokens (ascii head) [[.number value]])
  | decimal {head : String} {first second : Bytes} {m n : Int}
      (hhead : head ∈ ["Decimal", "Decimal128"]) (hfirst : stol first = .ok m)
      (hsecond : stol second = .ok n) :
      IsNamed (.decimal (toSizeT m) (toSizeT n))
        (callTokens (ascii head) [[.number first], [.number second]])
  | enum8 {items : List (Bytes × Int)} {tss : List (List Token)} (hne : items ≠ [])
      (h : List.Forall₂ IsEnumerator items tss) :
      IsNamed (.enum8 items) (callTokens (ascii "Enum8") tss)
  | enum16 {items : List (Bytes × Int)} {tss : List (List Token)} (hne : items ≠ [])
      (h : List.Forall₂ IsEnumerator items tss) :
      IsNamed (.enum16 items) (callTokens (ascii "Enum16") tss)

mutual

/-- The tokens name the type. -/
def ChType.IsNamed : ChType → List Token → Prop
  | .leaf l, ts => l.IsNamed ts
  | .array item, ts => ∃ us, item.IsNamed us ∧ ts = callTokens (ascii "Array") [us]
  | .nullable nested, ts => ∃ us, nested.IsNamed us ∧ ts = callTokens (ascii "Nullable") [us]
  | .tuple items, ts =>
      items ≠ [] ∧ ∃ tss, AreNamed items tss ∧ ts = callTokens (ascii "Tuple") tss

/-- The lists of tokens name the types. -/
def AreNamed : List ChType → List (List Token) → Prop
  | [], tss => tss = []
  | item :: items, tss => ∃ ts others, item.IsNamed ts ∧ AreNamed items others ∧ tss = ts :: others

end

/-! ## Columns by name -/

open TypeParser (Builds named builds_name builds_number builds_enumerator builds_call)

/-- The tokens build a tree whose column has the type. -/
def Creates (ts : List Token) (t : ChType) : Prop :=
  ∃ ast, Builds ts ast ∧ CreateColumnFromAst ast = .ok (some t)

theorem builds_enumerators {items : List (Bytes × Int)} {tss : List (List Token)}
    (h : List.Forall₂ IsEnumerator items tss) :
    ∃ asts, List.Forall₂ Builds tss asts ∧ asts.map enumItem = items := by
  induction h with
  | nil => exact ⟨[], .nil, rfl⟩
  | @cons item ts items tss hitem _ ih =>
      obtain ⟨asts, hbuilds, hitems⟩ := ih
      obtain ⟨value, n, hn, hitem, rfl⟩ := hitem
      obtain ⟨ast, hname, hvalue, hast⟩ := builds_enumerator item.1 hn
      have hfirst : enumItem ast = item := by
        rw [enumItem, hname, hvalue, ← hitem]
      exact ⟨ast :: asts, .cons hast hbuilds, by rw [List.map_cons, hfirst, hitems]⟩

theorem forall₂_ne_nil {α β : Type} {R : α → β → Prop} {xs : List α} {ys : List β}
    (h : List.Forall₂ R xs ys) (hne : xs ≠ []) : ys ≠ [] := by
  cases h with
  | nil => exact absurd rfl hne
  | cons _ _ => simp

theorem LeafType.creates_of_isNamed {l : LeafType} {ts : List Token} (h : l.IsNamed ts) :
    Creates ts (.leaf l) := by
  cases h with
  | @plain head _ h =>
      refine ⟨_, builds_name _, ?_⟩
      have hall : ∀ entry ∈ plainTypes,
          GetTypeMeta (ascii entry.1) = .terminal ∧
            CreateTerminalColumn (GetTypeCode (ascii entry.1)) [] =
              .ok (some (.leaf entry.2)) := by
        intro entry hentry
        fin_cases hentry <;> exact ⟨rfl, rfl⟩
      obtain ⟨hmeta, hcolumn⟩ := hall _ h
      simp [named, CreateColumnFromAst, hmeta, hcolumn]
  | fixedString h =>
      exact ⟨_, builds_call _ (by simp) (.cons (builds_number h) .nil), rfl⟩
  | @scaled head precision value n hhead h =>
      refine ⟨_, builds_call _ (by simp) (.cons (builds_number h) .nil), ?_⟩
      fin_cases hhead <;> rfl
  | @decimal head first second m n hhead hfirst hsecond =>
      refine ⟨_, builds_call _ (by simp)
        (.cons (builds_number hfirst) (.cons (builds_number hsecond) .nil)), ?_⟩
      fin_cases hhead <;> rfl
  | enum8 hne h =>
      obtain ⟨asts, hbuilds, hitems⟩ := builds_enumerators h
      refine ⟨_, builds_call _ (forall₂_ne_nil h hne) hbuilds, ?_⟩
      rw [← hitems]
      rfl
  | enum16 hne h =>
      obtain ⟨asts, hbuilds, hitems⟩ := builds_enumerators h
      refine ⟨_, builds_call _ (forall₂_ne_nil h hne) hbuilds, ?_⟩
      rw [← hitems]
      rfl

mutual

/-- The tokens that name a type create its column. -/
theorem ChType.creates_of_isNamed : ∀ {t : ChType} {ts : List Token}, t.IsNamed ts → Creates ts t
  | .leaf l, ts, h => LeafType.creates_of_isNamed h
  | .array item, _, ⟨us, hus, rfl⟩ => by
      obtain ⟨ast, hbuilds, hcreate⟩ := ChType.creates_of_isNamed hus
      refine ⟨_, builds_call _ (by simp) (.cons hbuilds .nil), ?_⟩
      show (do wrapColumn .array (← CreateColumnFromAst ast)) = _
      rw [hcreate]
      rfl
  | .nullable nested, _, ⟨us, hus, rfl⟩ => by
      obtain ⟨ast, hbuilds, hcreate⟩ := ChType.creates_of_isNamed hus
      refine ⟨_, builds_call _ (by simp) (.cons hbuilds .nil), ?_⟩
      show (do wrapColumn .nullable (← CreateColumnFromAst ast)) = _
      rw [hcreate]
      rfl
  | .tuple items, _, ⟨hne, tss, htss, rfl⟩ => by
      obtain ⟨asts, hbuilds, hcreate⟩ := createAll_of_areNamed htss
      have htss_ne : tss ≠ [] := by
        cases items with
        | nil => exact absurd rfl hne
        | cons item items =>
            obtain ⟨ts, others, _, _, rfl⟩ := htss
            simp
      refine ⟨_, builds_call _ htss_ne hbuilds, ?_⟩
      show (do let columns ← createAll asts; pure (columns.map ChType.tuple)) = _
      rw [hcreate]
      rfl

theorem createAll_of_areNamed : ∀ {items : List ChType} {tss : List (List Token)},
    AreNamed items tss → ∃ asts, List.Forall₂ Builds tss asts ∧
      createAll asts = .ok (some items)
  | [], _, rfl => ⟨[], .nil, rfl⟩
  | item :: items, _, ⟨ts, others, hitem, hothers, rfl⟩ => by
      obtain ⟨ast, hbuilds, hcreate⟩ := ChType.creates_of_isNamed hitem
      obtain ⟨asts, hall, hcreates⟩ := createAll_of_areNamed hothers
      refine ⟨ast :: asts, .cons hbuilds hall, ?_⟩
      rw [createAll, hcreate]
      show (do let columns ← createAll asts; pure (columns.map (item :: ·))) = _
      rw [hcreates]
      rfl

end

/-- A text whose tokens name a type is read as that type. -/
theorem typeByName_of_isNamed {s : Bytes} {ts : List Token} {t : ChType}
    (htokens : tokens s = some ts) (h : t.IsNamed ts) : typeByName s = .ok (some t) := by
  obtain ⟨ast, hbuilds, hcreate⟩ := ChType.creates_of_isNamed h
  have hparse : TypeParser.Parse s {} = .ok true ⟨ast, [], true⟩ :=
    TypeParser.parseLoop_of_tokens htokens (hbuilds [] true)
  rw [typeByName, hparse]
  exact hcreate

theorem stol_ne_outOfFuel (value : Bytes) : stol value ≠ .error .outOfFuel := by
  unfold stol
  split
  · simp
  · simp only
    split_ifs <;> simp

theorem takeToken_ne_outOfFuel (token : Token) (p p' : TypeParser) :
    TypeParser.takeToken token p ≠ .error .outOfFuel p' := by
  have hpop : TypeParser.popOpen p ≠ .error .outOfFuel p' := by
    intro h
    obtain ⟨type_, open_elements_, rootPushed⟩ := p
    cases open_elements_ with
    | nil => cases rootPushed <;> cases h
    | cons parent above => cases h
  intro h
  cases token with
  | number value =>
      cases hn : stol value with
      | ok n =>
          rw [TypeParser.takeToken_number hn] at h
          cases h
      | error fault =>
          rw [TypeParser.takeToken_number_error hn] at h
          cases h
          exact stol_ne_outOfFuel value hn
  | rPar | comma =>
      rcases Outcome.bind_cases TypeParser.popOpen _ p with
        ⟨fault, p₁, hrun, hbind⟩ | ⟨_, p₁, _, hbind⟩
      · rw [TypeParser.takeToken, hbind] at h
        cases h
        exact hpop hrun
      · rw [TypeParser.takeToken, hbind] at h
        cases h
  | _ => cases h

/-- The parser comes to an end. -/
theorem Parse_ne_outOfFuel (name : Bytes) (p p' : TypeParser) :
    TypeParser.Parse name p ≠ .error .outOfFuel p' := by
  have hloop : ∀ (n : Nat) (s : Bytes) (p p' : TypeParser), s.length < n →
      TypeParser.parseLoop n s p ≠ .error .outOfFuel p' := by
    intro n
    induction n with
    | zero => intro s p p' h; omega
    | succ n ih =>
        intro s p p' hlen hrun
        rw [TypeParser.parseLoop] at hrun
        rcases Outcome.bind_cases (TypeParser.takeToken (NextToken s).1) _ p with
          ⟨fault, p₁, htoken, hbind⟩ | ⟨r, p₁, htoken, hbind⟩
        · rw [hbind] at hrun
          cases hrun
          exact takeToken_ne_outOfFuel _ _ _ htoken
        · rw [hbind] at hrun
          cases r with
          | some result => cases hrun
          | none =>
              rcases NextToken_lt s with heos | hinvalid | hlt
              · rw [heos] at htoken
                cases htoken
              · rw [hinvalid] at htoken
                cases htoken
              · exact ih _ _ _ (by omega) hrun
  exact hloop _ name p p' (by omega)

/-! ## The cache -/

/-- The tree that a call leaves in the cache: all of it, or what there was of it when an
exception ended the parse. -/
def keptTree (type_name : Bytes) : Option TypeAst :=
  match TypeParser.Parse type_name {} with
  | .ok true p => some p.root
  | .error (.thrown _) p => some p.root
  | _ => none

/-- The caches after some calls, the last of them first. The calls have returned, or have
ended in an exception that the caller has caught. -/
inductive CacheAfter : List Bytes → AstCache → Prop
  | start : CacheAfter [] ∅
  | returned {names : List Bytes} {name : Bytes} {cache cache' : AstCache} {r : Option ChType}
      (h : CacheAfter names cache) (hcall : CreateColumnByType name cache = .ok r cache') :
      CacheAfter (name :: names) cache'
  | thrown {names : List Bytes} {name : Bytes} {cache cache' : AstCache} {what : String}
      (h : CacheAfter names cache)
      (hcall : CreateColumnByType name cache = .error (.thrown what) cache') :
      CacheAfter (name :: names) cache'

/-- The answer to a call, without the cache that it leaves. -/
def answer {ε σ α : Type} : EStateM.Result ε σ α → Except ε α
  | .ok a _ => .ok a
  | .error e _ => .error e

/-- A call of `CreateColumnByType`, by what `ParseTypeName` does. -/
theorem CreateColumnByType_eq (name : Bytes) (cache : AstCache) :
    CreateColumnByType name cache =
      match ParseTypeName name cache with
      | .ok none cache' => .ok none cache'
      | .ok (some ast) cache' =>
          match CreateColumnFromAst ast with
          | .ok column => .ok column cache'
          | .error fault => .error fault cache'
      | .error fault cache' => .error fault cache' := by
  cases hparse : ParseTypeName name cache with
  | error fault cache' => exact Outcome.bind_of_error hparse
  | ok r cache' =>
      rw [CreateColumnByType, Outcome.bind_of_ok hparse]
      cases r with
      | none => rfl
      | some ast => cases hcolumn : CreateColumnFromAst ast <;> simp only [hcolumn] <;> rfl

theorem after_CreateColumnByType (name : Bytes) (cache : AstCache) :
    Outcome.after (CreateColumnByType name) cache = Outcome.after (ParseTypeName name) cache := by
  simp only [Outcome.after, CreateColumnByType_eq]
  cases ParseTypeName name cache with
  | error fault cache' => rfl
  | ok r cache' =>
      cases r with
      | none => rfl
      | some ast => cases hcolumn : CreateColumnFromAst ast <;> simp [hcolumn]

/-- The cache holds the tree of every name that has been asked for, if it is kept. -/
def CacheHolds (names : List Bytes) (cache : AstCache) : Prop :=
  ∀ name, cache[name]? = if names.contains name then keptTree name else none

theorem ParseTypeName_cached {name : Bytes} {cache : AstCache} {ast : TypeAst}
    (h : cache[name]? = some ast) : ParseTypeName name cache = .ok (some ast) cache := by
  have hget : (get : EStateM Fault AstCache AstCache) cache = .ok cache cache := rfl
  rw [ParseTypeName, Outcome.bind_of_ok hget]
  simp only [h]
  rfl

theorem ParseTypeName_fresh {name : Bytes} {cache : AstCache} (h : cache[name]? = none) :
    ParseTypeName name cache =
      match TypeParser.Parse name {} with
      | .ok true p => .ok (some p.root) (cache.insert name p.root)
      | .ok false _ => .ok none cache
      | .error fault p => .error fault (cache.insert name p.root) := by
  have hget : (get : EStateM Fault AstCache AstCache) cache = .ok cache cache := rfl
  rw [ParseTypeName, Outcome.bind_of_ok hget]
  simp only [h]
  cases hparse : TypeParser.Parse name {} with
  | error fault p => simp only; rfl
  | ok r p => cases r <;> simp only <;> rfl

/-- An entry that is new, and those that were there. -/
theorem CacheHolds.insert {names : List Bytes} {cache : AstCache} (h : CacheHolds names cache)
    {name : Bytes} {ast : TypeAst} (hkept : keptTree name = some ast) :
    CacheHolds (name :: names) (cache.insert name ast) := by
  intro other
  by_cases heq : name = other
  · subst heq
    simp [hkept]
  · have hne : other ≠ name := fun h => heq h.symm
    simp [Std.ExtTreeMap.getElem?_insert, heq, hne, h other]

theorem CacheHolds.after {names : List Bytes} {cache : AstCache} (h : CacheHolds names cache)
    (name : Bytes) (hthrown : ∀ fault cache', ParseTypeName name cache = .error fault cache' →
      ∃ what, fault = .thrown what) :
    CacheHolds (name :: names) (Outcome.after (ParseTypeName name) cache) := by
  cases hentry : cache[name]? with
  | some ast =>
      have hmem : name ∈ names := by
        by_contra hnot
        simp [h name, hnot] at hentry
      rw [Outcome.after_ok (ParseTypeName_cached hentry)]
      intro other
      by_cases heq : other = name
      · subst heq
        simp [h other, hmem]
      · simp [h other, heq]
  | none =>
      have hcall := ParseTypeName_fresh hentry
      cases hparse : TypeParser.Parse name {} with
      | error fault p =>
          rw [hparse] at hcall
          obtain ⟨what, rfl⟩ := hthrown _ _ hcall
          rw [Outcome.after_error hcall]
          exact h.insert (by simp [keptTree, hparse])
      | ok r p =>
          cases r with
          | true =>
              rw [hparse] at hcall
              rw [Outcome.after_ok hcall]
              exact h.insert (by simp [keptTree, hparse])
          | false =>
              rw [hparse] at hcall
              rw [Outcome.after_ok hcall]
              intro other
              by_cases heq : other = name
              · subst heq
                simp [hentry, keptTree, hparse]
              · simp [h other, heq]

theorem cacheHolds_of_cacheAfter {names : List Bytes} {cache : AstCache}
    (h : CacheAfter names cache) : CacheHolds names cache := by
  induction h with
  | start => intro name; simp
  | @returned names name cache cache' r _ hcall ih =>
      have hafter := ih.after name fun fault cache₁ hparse => by
        rw [CreateColumnByType_eq, hparse] at hcall
        cases hcall
      rwa [← after_CreateColumnByType, Outcome.after_ok hcall] at hafter
  | @thrown names name cache cache' what _ hcall ih =>
      have hafter := ih.after name fun fault cache₁ hparse => by
        rw [CreateColumnByType_eq, hparse] at hcall
        cases hcall
        exact ⟨_, rfl⟩
      rwa [← after_CreateColumnByType, Outcome.after_error hcall] at hafter

/-- What a call answers after calls for some names: what it answers at first, unless an
exception ends the parse of the name. That one is thrown once, and the calls for the name that
follow make a column of the tree that was left behind. -/
def answerAfter (names : List Bytes) (name : Bytes) : Except Fault (Option ChType) :=
  match TypeParser.Parse name {} with
  | .error (.thrown what) p =>
      if names.contains name then CreateColumnFromAst p.root else .error (.thrown what)
  | _ => typeByName name

theorem answer_of_cacheHolds {names : List Bytes} {cache : AstCache}
    (h : CacheHolds names cache) (name : Bytes) :
    answer (CreateColumnByType name cache) = answerAfter names name := by
  have hcolumn : ∀ ast cache', ParseTypeName name cache = .ok (some ast) cache' →
      answer (CreateColumnByType name cache) = CreateColumnFromAst ast := by
    intro ast cache' hparse
    rw [CreateColumnByType_eq, hparse]
    cases hcreate : CreateColumnFromAst ast <;> simp [hcreate, answer]
  have hholds := h name
  cases hentry : cache[name]? with
  | some ast =>
      rw [hcolumn ast cache (ParseTypeName_cached hentry)]
      rw [hentry] at hholds
      split_ifs at hholds with hmem
      unfold keptTree at hholds
      unfold answerAfter typeByName
      split at hholds
      · cases hholds
        simp [*]
      · cases hholds
        have hmem' : name ∈ names := by simpa using hmem
        simp [*]
      · cases hholds
  | none =>
      have hcall := ParseTypeName_fresh hentry
      cases hparse : TypeParser.Parse name {} with
      | ok r p =>
          rw [hparse] at hcall
          cases r with
          | true => simp [hcolumn _ _ hcall, answerAfter, typeByName, hparse]
          | false => simp [CreateColumnByType_eq, hcall, answer, answerAfter, typeByName, hparse]
      | error fault p =>
          rw [hparse] at hcall
          cases fault with
          | thrown what =>
              have hmem : name ∉ names := by
                intro hmem
                simp [hentry, hmem, keptTree, hparse] at hholds
              simp [CreateColumnByType_eq, hcall, answer, answerAfter, hparse, hmem]
          | undefined what =>
              simp [CreateColumnByType_eq, hcall, answer, answerAfter, typeByName, hparse]
          | outOfFuel =>
              simp [CreateColumnByType_eq, hcall, answer, answerAfter, typeByName, hparse]

/-- In every run the cache shows in that one case only. -/
theorem answer_CreateColumnByType {names : List Bytes} {cache : AstCache}
    (h : CacheAfter names cache) (name : Bytes) :
    answer (CreateColumnByType name cache) = answerAfter names name :=
  answer_of_cacheHolds (cacheHolds_of_cacheAfter h) name

/-- A size that `std::stol` does not take. -/
def longSize : Bytes := ascii "FixedString(99999999999999999999)"

/-- What the parser has built when it meets the size. -/
def longSizeTree : TypeParser where
  type_ := { category := .number }
  open_elements_ := [TypeParser.named (ascii "FixedString") []]

theorem parse_longSize : TypeParser.Parse longSize {} = .error (.thrown "stol") longSizeTree := by
  have htokens : tokens longSize = some ([.name (ascii "FixedString"), .lPar] ++
      [.number (ascii "99999999999999999999"), .rPar]) := by
    decide +kernel
  have hvalue : stol (ascii "99999999999999999999") = .error (.thrown "stol") := by
    decide +kernel
  exact TypeParser.parseLoop_error htokens rfl hvalue

/-- The second call for that name makes a column of texts without characters. -/
theorem answer_longSize_again : ∃ cache, CacheAfter [longSize] cache ∧
    answer (CreateColumnByType longSize cache) = .ok (some (.leaf (.fixedString 0))) := by
  have hcall : CreateColumnByType longSize ∅ =
      .error (.thrown "stol") ((∅ : AstCache).insert longSize longSizeTree.root) := by
    rw [CreateColumnByType_eq, ParseTypeName_fresh (by simp), parse_longSize]
  have hafter := CacheAfter.thrown .start hcall
  refine ⟨_, hafter, ?_⟩
  rw [answer_CreateColumnByType hafter longSize, answerAfter, parse_longSize]
  rfl

/-! ## Calls after any others -/

theorem ok_of_answer {ε σ α : Type} {r : EStateM.Result ε σ α} {a : α} (h : answer r = .ok a) :
    ∃ s, r = .ok a s := by
  cases r with
  | ok b s =>
      cases h
      exact ⟨s, rfl⟩
  | error e s => cases h

theorem parse_of_typeByName {name : Bytes} {t : ChType} (h : typeByName name = .ok (some t)) :
    ∃ p, TypeParser.Parse name {} = .ok true p := by
  unfold typeByName at h
  split at h
  · exact ⟨_, by assumption⟩
  · cases h
  · cases h

/-- A name that is read as a type is read as this type after any other calls. -/
theorem call_of_typeByName {names : List Bytes} {cache : AstCache} (h : CacheAfter names cache)
    {name : Bytes} {t : ChType} (htype : typeByName name = .ok (some t)) :
    ∃ cache', CreateColumnByType name cache = .ok (some t) cache' := by
  obtain ⟨p, hparse⟩ := parse_of_typeByName htype
  have hanswer := answer_of_cacheHolds (cacheHolds_of_cacheAfter h) name
  rw [answerAfter, hparse] at hanswer
  exact ok_of_answer (hanswer.trans htype)

/-- After any other calls, a text whose tokens name a type makes a column of this type. -/
theorem CreateColumnByType_of_isNamed {names : List Bytes} {cache : AstCache}
    (h : CacheAfter names cache) {s : Bytes} {ts : List Token} {t : ChType}
    (htokens : tokens s = some ts) (hnamed : t.IsNamed ts) :
    ∃ cache', CreateColumnByType s cache = .ok (some t) cache' :=
  call_of_typeByName h (typeByName_of_isNamed htokens hnamed)

/-- Blanks, quotes and the other name of a decimal type make no difference. -/
theorem CreateColumnByType_spaced : ∃ cache',
    CreateColumnByType (ascii "Array( Tuple(Decimal(9,  2),Enum8('a'=-1)))") ∅ =
      .ok (some (.array (.tuple [.leaf (.decimal 9 2), .leaf (.enum8 [(ascii "a", -1)])])))
        cache' := by
  have hnine : stol (ascii "9") = .ok 9 := by decide +kernel
  have htwo : stol (ascii "2") = .ok 2 := by decide +kernel
  have hminus : stol (ascii "-1") = .ok (-1) := by decide +kernel
  have hdecimal : LeafType.IsNamed (.decimal 9 2) (callTokens (ascii "Decimal")
      [[.number (ascii "9")], [.number (ascii "2")]]) :=
    .decimal (by simp) hnine htwo
  have henum : LeafType.IsNamed (.enum8 [(ascii "a", -1)]) (callTokens (ascii "Enum8")
      [[.name (ascii "a"), .number (ascii "-1")]]) :=
    .enum8 (by simp) (.cons ⟨_, _, hminus, by decide, by decide⟩ .nil)
  have hnamed : ChType.IsNamed (.array (.tuple [.leaf (.decimal 9 2),
      .leaf (.enum8 [(ascii "a", -1)])])) _ :=
    ⟨_, ⟨by simp, _, ⟨_, _, hdecimal, ⟨_, _, henum, rfl, rfl⟩, rfl⟩, rfl⟩, rfl⟩
  exact CreateColumnByType_of_isNamed .start (by decide +kernel) hnamed

end FlexEtl
