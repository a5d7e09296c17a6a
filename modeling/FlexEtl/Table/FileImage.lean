/-
FlexEtl.Table.FileImage — every file that `load` can be given.

An `Image` is a value as a file may spell it: the byte of a boolean may be any,
the count of an empty array may be negative, and a string holds all the bytes
that its length counts. `valueItems` describes `restoreValue` on arbitrary
bytes (`describes_restoreValue`), and `fileItems` the whole of `loadBody`
(`describes_loadBody`): a file is accepted when it begins with the text of a
`FileImage`, and it faults where a length is met that the buffer cannot take
(`Overruns`).
-/
import FlexEtl.Table.Fields

namespace FlexEtl

open Decoder

/-! ## Values -/

/-- A value as a file may spell it. -/
inductive Image where
  | null
  | str (s : Bytes)
  | int (u : UInt64)
  | uint (u : UInt64)
  | double (u : UInt64)
  | bool (b : UInt8)
  | array (n : Int) (xs : List Image)

namespace Image

theorem inductOn {P : Image → Prop} (img : Image) (null : P .null) (str : ∀ s, P (.str s))
    (int : ∀ u, P (.int u)) (uint : ∀ u, P (.uint u)) (double : ∀ u, P (.double u))
    (bool : ∀ b, P (.bool b)) (array : ∀ n xs, (∀ x ∈ xs, P x) → P (.array n xs)) : P img :=
  @Image.rec P (fun xs => ∀ x ∈ xs, P x) null str int uint double bool
    (fun n xs ih => array n xs ih) (by simp)
    (fun _ _ hx hxs y hy => (List.mem_cons.mp hy).elim (· ▸ hx) (hxs y)) img

/-- The tag. -/
def type : Image → ClickType
  | null => .unknown
  | str _ => .str
  | int _ => .int
  | uint _ => .uint
  | double _ => .double
  | bool _ => .bool
  | array _ _ => .array

/-- The bytes in the file. -/
def text : Image → Bytes
  | null => intBytes ClickType.unknown.code
  | str s => intBytes ClickType.str.code ++ (intBytes s.length ++ s)
  | int u => intBytes ClickType.int.code ++ LittleEndian.bytes 8 u.toNat
  | uint u => intBytes ClickType.uint.code ++ LittleEndian.bytes 8 u.toNat
  | double u => intBytes ClickType.double.code ++ LittleEndian.bytes 8 u.toNat
  | bool b => intBytes ClickType.bool.code ++ [b]
  | array n xs => intBytes ClickType.array.code ++ (intBytes n ++ textAll xs)
where
  textAll : List Image → Bytes
    | [] => []
    | x :: xs => x.text ++ textAll xs

/-- The bytes after the tag. -/
def payloadText : Image → Bytes
  | null => []
  | str s => intBytes s.length ++ s
  | int u => LittleEndian.bytes 8 u.toNat
  | uint u => LittleEndian.bytes 8 u.toNat
  | double u => LittleEndian.bytes 8 u.toNat
  | bool b => [b]
  | array n xs => intBytes n ++ text.textAll xs

theorem text_eq (img : Image) : img.text = intBytes img.type.code ++ img.payloadText := by
  cases img with
  | null => exact (List.append_nil _).symm
  | _ => rfl

/-- The value that `restoreValue` makes of it. -/
def value : Image → Value
  | null => .null
  | str s => .str (cstring s)
  | int u => .int u.toInt64
  | uint u => .uint u
  | double u => .double u
  | bool b => .bool (b != 0)
  | array _ xs => .array (valueAll xs)
where
  valueAll : List Image → List Value
    | [] => []
    | x :: xs => x.value :: valueAll xs

/-- The bytes of the buffer that reading it takes. -/
def room : Image → Nat
  | str s => s.length + 1
  | array _ xs => roomAll xs
  | _ => 0
where
  roomAll : List Image → Nat
    | [] => 0
    | x :: xs => max x.room (roomAll xs)

/-- A spelling that can be read: counts are what they count, and no string is so long that
its length cannot be incremented. -/
def Valid : Image → Prop
  | str s => (s.length : Int) < intMax
  | array n xs => (InInt n ∧ xs.length = n.toNat) ∧ ValidAll xs
  | _ => True
where
  ValidAll : List Image → Prop
    | [] => True
    | x :: xs => x.Valid ∧ ValidAll xs

theorem textAll_eq (xs : List Image) : text.textAll xs = xs.flatMap text := by
  induction xs with
  | nil => rfl
  | cons x xs ih => rw [text.textAll, ih, List.flatMap_cons]

theorem valueAll_eq (xs : List Image) : value.valueAll xs = xs.map value := by
  induction xs with
  | nil => rfl
  | cons x xs ih => rw [value.valueAll, ih, List.map_cons]

theorem roomAll_eq (xs : List Image) : room.roomAll xs = (xs.map room).foldr max 0 := by
  induction xs with
  | nil => rfl
  | cons x xs ih => rw [room.roomAll, ih, List.map_cons, List.foldr_cons]

theorem validAll_iff (xs : List Image) : Valid.ValidAll xs ↔ ∀ x ∈ xs, x.Valid := by
  induction xs with
  | nil => simp [Valid.ValidAll]
  | cons x xs ih => simp [Valid.ValidAll, ih]

end Image

/-- What has been read of a value when the length of a string in it is next, and the bytes
of the buffer that took. -/
inductive ValueStop : Bytes → Nat → Prop where
  | str : ValueStop (intBytes ClickType.str.code) 0
  | array {n : Int} {ys : List Image} {pre : Bytes} {r : Nat} : InInt n → ys.length < n.toNat →
      (∀ y ∈ ys, y.Valid) → ValueStop pre r →
      ValueStop (intBytes ClickType.array.code ++ (intBytes n ++ (ys.flatMap Image.text ++ pre)))
        (max ((ys.map Image.room).foldr max 0) r)

/-- The values of a file. -/
def valueItems : Items UInt8 Image where
  Valid := Image.Valid
  text := Image.text
  room := Image.room
  Fault inp mark := ∃ pre r, ValueStop pre r ∧
    ∃ rest, inp = pre ++ rest ∧ charsItems.Fault rest (max mark r)

/-- What `restoreValue` does after the tag. -/
def payload (vec : List Value) : Option ClickType → Language UInt8 Value
  | some .str => charsItems.one fun s => .array (vec ++ [.str (cstring s)])
  | some .array => intItems.andThen fun n =>
      (valueItems.list n.toNat).one fun xs => .array (vec ++ [.array (xs.map Image.value)])
  | some .int => wordItems.one fun u => .array (vec ++ [.int u.toInt64])
  | some .uint => wordItems.one fun u => .array (vec ++ [.uint u])
  | some .double => wordItems.one fun u => .array (vec ++ [.double u])
  | some .bool => (byteItems 1).one fun bs => .array (vec ++ [.bool (bs != [0])])
  | some .unknown => .pure (.array (vec ++ [.null]))
  | none => .fail

/-- The tag of a value is one of seven, or none of them. -/
theorem tag_cases {bs : Bytes} (h : bs.length = 4) :
    ClickType.ofCode? (LittleEndian.toNat bs) = none ∨
    ∃ t : ClickType, ClickType.ofCode? (LittleEndian.toNat bs) = some t ∧ bs = intBytes t.code := by
  have himage := LittleEndian.bytes_toNat bs
  rw [h] at himage
  generalize LittleEndian.toNat bs = k at himage ⊢
  subst himage
  unfold ClickType.ofCode?
  split
  · exact .inr ⟨.unknown, rfl, by decide⟩
  · exact .inr ⟨.str, rfl, by decide⟩
  · exact .inr ⟨.int, rfl, by decide⟩
  · exact .inr ⟨.uint, rfl, by decide⟩
  · exact .inr ⟨.double, rfl, by decide⟩
  · exact .inr ⟨.array, rfl, by decide⟩
  · exact .inr ⟨.bool, rfl, by decide⟩
  · exact .inl rfl

theorem singleton_bne (c : UInt8) : ([c] != [0]) = (c != 0) :=
  Bool.eq_iff_iff.mpr (by simp)

/-- A payload makes the values of its tag. -/
theorem payload_accepts {vec : List Value} {t : ClickType} {enc : Bytes} {b : Value} {r : Nat} :
    (payload vec (some t)).accepts enc b r ↔ ∃ img : Image, img.Valid ∧ img.type = t ∧
      enc = img.payloadText ∧ b = .array (vec ++ [img.value]) ∧ r = img.room := by
  constructor
  · intro h
    cases t with
    | unknown =>
        obtain ⟨rfl, rfl, rfl⟩ := h
        exact ⟨.null, trivial, rfl, rfl, rfl, rfl⟩
    | str =>
        obtain ⟨s, hs, rfl, rfl, rfl⟩ := h
        exact ⟨.str s, hs, rfl, rfl, rfl, rfl⟩
    | int =>
        obtain ⟨u, -, rfl, rfl, rfl⟩ := h
        exact ⟨.int u, trivial, rfl, rfl, rfl, rfl⟩
    | uint =>
        obtain ⟨u, -, rfl, rfl, rfl⟩ := h
        exact ⟨.uint u, trivial, rfl, rfl, rfl, rfl⟩
    | double =>
        obtain ⟨u, -, rfl, rfl, rfl⟩ := h
        exact ⟨.double u, trivial, rfl, rfl, rfl, rfl⟩
    | array =>
        obtain ⟨n, hn, _, _, ⟨xs, ⟨hlen, hxs⟩, rfl, rfl, rfl⟩, rfl, rfl⟩ := h
        refine ⟨.array n xs, ⟨⟨hn, hlen⟩, (Image.validAll_iff xs).mpr hxs⟩, rfl, ?_, ?_, ?_⟩
        · rw [Image.payloadText, Image.textAll_eq]
          rfl
        · rw [Image.value, Image.valueAll_eq]
        · rw [Image.room, Image.roomAll_eq]
          exact Nat.zero_max _
    | bool =>
        obtain ⟨bs, hlen, rfl, rfl, rfl⟩ := h
        obtain ⟨c, rfl⟩ := List.length_eq_one_iff.mp hlen
        exact ⟨.bool c, trivial, rfl, rfl, by rw [Image.value, ← singleton_bne], rfl⟩
  · rintro ⟨img, hvalid, rfl, rfl, rfl, rfl⟩
    cases img with
    | null => exact ⟨rfl, rfl, rfl⟩
    | str s => exact ⟨s, hvalid, rfl, rfl, rfl⟩
    | int u => exact ⟨u, trivial, rfl, rfl, rfl⟩
    | uint u => exact ⟨u, trivial, rfl, rfl, rfl⟩
    | double u => exact ⟨u, trivial, rfl, rfl, rfl⟩
    | bool c => exact ⟨[c], rfl, rfl, by rw [Image.value, ← singleton_bne], rfl⟩
    | array n xs =>
        obtain ⟨⟨hn, hlen⟩, hxs⟩ := hvalid
        refine ⟨n, hn, _, _, ⟨xs, ⟨hlen, (Image.validAll_iff xs).mp hxs⟩, rfl, ?_, rfl⟩, ?_, ?_⟩
        · rw [Image.value, Image.valueAll_eq]
        · rw [Image.payloadText, Image.textAll_eq]
          rfl
        · rw [Image.room, Image.roomAll_eq]
          exact (Nat.zero_max _).symm

/-- A value faults at the length of a string, or within an array. -/
theorem value_faults {inp : Bytes} {mark : Nat} :
    valueItems.Fault inp mark ↔
      (∃ inp', inp = intBytes ClickType.str.code ++ inp' ∧ charsItems.Fault inp' mark) ∨
      ∃ n, InInt n ∧ ∃ inp', inp = intBytes ClickType.array.code ++ (intBytes n ++ inp') ∧
        (valueItems.list n.toNat).Fault inp' mark := by
  constructor
  · rintro ⟨pre, r, hstop, rest, rfl, hfault⟩
    cases hstop with
    | str => exact .inl ⟨rest, rfl, by rwa [Nat.max_zero] at hfault⟩
    | @array n ys pre r hn hlen hys hstop =>
        refine .inr ⟨n, hn, ys.flatMap Image.text ++ pre ++ rest, by simp, ?_⟩
        refine ⟨ys, hlen, hys, pre ++ rest, by rw [List.append_assoc]; rfl, ?_⟩
        exact ⟨pre, r, hstop, rest, rfl, by rwa [Nat.max_assoc]⟩
  · rintro (⟨inp', rfl, hfault⟩ | ⟨n, hn, _, rfl, ys, hlen, hys, _, rfl, pre, r, hstop, rest, rfl, hfault⟩)
    · exact ⟨_, 0, .str, inp', rfl, by rwa [Nat.max_zero]⟩
    · refine ⟨_, _, .array hn hlen hys hstop, rest, by simp [valueItems], ?_⟩
      rwa [Nat.max_assoc] at hfault

theorem payload_faults {vec : List Value} {t : ClickType} {inp : Bytes} {mark : Nat} :
    (payload vec (some t)).faults inp mark ↔
      t = .str ∧ charsItems.Fault inp mark ∨
      t = .array ∧ ∃ n, InInt n ∧ ∃ rest, inp = intBytes n ++ rest ∧
        (valueItems.list n.toNat).Fault rest mark := by
  constructor
  · intro h
    cases t with
    | str => exact .inl ⟨rfl, h⟩
    | array =>
        rcases h with hnot | ⟨n, hn, rest, rfl, hfault⟩
        · exact hnot.elim
        · exact .inr ⟨rfl, n, hn, rest, rfl, by rwa [show intItems.room n = 0 from rfl,
            Nat.max_zero] at hfault⟩
    | _ => exact h.elim
  · rintro (⟨rfl, h⟩ | ⟨rfl, n, hn, rest, rfl, h⟩)
    · exact h
    · exact .inr ⟨n, hn, rest, rfl, by rwa [show intItems.room n = 0 from rfl, Nat.max_zero]⟩

/-- A tag and its payload are a value. -/
theorem payload_equiv (vec : List Value) :
    ((byteItems 4).andThen fun bs => payload vec (ClickType.ofCode? (LittleEndian.toNat bs))).Equiv
      (valueItems.one fun img => .array (vec ++ [img.value])) where
  accepts enc b r := by
    constructor
    · rintro ⟨bs, hlen, e, r', hacc, rfl, rfl⟩
      dsimp only at hacc
      rcases tag_cases hlen with hnone | ⟨t, ht, rfl⟩
      · rw [hnone] at hacc
        exact hacc.elim
      · rw [ht] at hacc
        obtain ⟨img, hvalid, rfl, rfl, rfl, rfl⟩ := payload_accepts.mp hacc
        exact ⟨img, hvalid, (Image.text_eq img).symm, rfl, Nat.zero_max _⟩
    · rintro ⟨img, hvalid, rfl, rfl, rfl⟩
      refine ⟨intBytes img.type.code, LittleEndian.length_ofInt 4 _, img.payloadText, img.room,
        ?_, Image.text_eq img, (Nat.zero_max _).symm⟩
      dsimp only
      rw [toNat_intBytes_code, ClickType.ofCode?_code]
      exact payload_accepts.mpr ⟨img, hvalid, rfl, rfl, rfl, rfl⟩
  faults inp mark := by
    constructor
    · rintro (hnot | ⟨bs, hlen, rest, rfl, hfault⟩)
      · exact hnot.elim
      · dsimp only at hfault
        rw [show (byteItems 4).room bs = 0 from rfl, Nat.max_zero] at hfault
        rcases tag_cases hlen with hnone | ⟨t, ht, rfl⟩
        · rw [hnone] at hfault
          exact hfault.elim
        · rw [ht] at hfault
          rcases payload_faults.mp hfault with ⟨rfl, h⟩ | ⟨rfl, n, hn, rest', rfl, h⟩
          · exact value_faults.mpr (.inl ⟨rest, rfl, h⟩)
          · exact value_faults.mpr (.inr ⟨n, hn, rest', rfl, h⟩)
    · intro hfault
      have htag : ∀ (t : ClickType) (inp : Bytes), (payload vec (some t)).faults inp mark →
          ((byteItems 4).andThen fun bs =>
            payload vec (ClickType.ofCode? (LittleEndian.toNat bs))).faults
              (intBytes t.code ++ inp) mark := by
        intro t inp h
        refine .inr ⟨intBytes t.code, LittleEndian.length_ofInt 4 _, inp, rfl, ?_⟩
        dsimp only
        rw [toNat_intBytes_code, ClickType.ofCode?_code]
        rwa [show (byteItems 4).room (intBytes t.code) = 0 from rfl, Nat.max_zero]
      rcases value_faults.mp hfault with ⟨inp', rfl, h⟩ | ⟨n, hn, inp', rfl, h⟩
      · exact htag .str inp' (payload_faults.mpr (.inl ⟨rfl, h⟩))
      · exact htag .array _ (payload_faults.mpr (.inr ⟨rfl, n, hn, inp', rfl, h⟩))

/-- On any bytes, `restoreValue` reads one value. -/
theorem describes_restoreValue (fuel : Nat) : ∀ (n : Nat) (vec : List Value), n < fuel →
    Loads n (restoreValue fuel (.array vec)) (valueItems.one fun img => .array (vec ++ [img.value])) := by
  induction fuel with
  | zero => exact fun n vec hn => absurd hn (Nat.not_lt_zero n)
  | succ fuel ih =>
      intro n vec hn
      refine Describes.congr ?_ (payload_equiv vec)
      have htype : Loads n readType ((byteItems 4).one fun bs =>
          ClickType.ofCode? (LittleEndian.toNat bs)) :=
        (describes_freadExact 4 "Read type value failed").map _
      refine htype.bind 4 (fun bs hbs => Nat.le_of_eq (Eq.symm hbs)) fun h4 bs _ => ?_
      have hword : ∀ (message : String) (g : UInt64 → Value),
          Loads (n - 4) (do let u ← readWord message; pure (Value.array (vec ++ [g u])))
            (wordItems.one fun u => Value.array (vec ++ [g u])) := fun message g =>
        (describes_readWord message).map fun u => Value.array (vec ++ [g u])
      cases ClickType.ofCode? (LittleEndian.toNat bs) with
      | none => exact Describes.throw ⟨_, rfl⟩
      | some type =>
          cases type with
          | unknown => exact Describes.pure _
          | int => exact hword _ fun u => .int u.toInt64
          | uint => exact hword _ .uint
          | double => exact hword _ .double
          | bool => exact (describes_freadExact 1 _).map _
          | str =>
              have h := (describes_chars (n := n - 4) "Read string value length failed"
                "Read string value failed").map fun bs => Value.array (vec ++ [.str (cstring bs)])
              simp only [bind_assoc] at h
              exact h
          | array =>
              refine (describes_readInt _).bind_zero fun i _ => ?_
              have hstep : ∀ ys : List Image,
                  Loads (n - 4) (restoreValue fuel (.array (ys.map Image.value)))
                    (valueItems.one fun x => Value.array ((ys ++ [x]).map Image.value)) := by
                intro ys
                simp only [List.map_append, List.map_singleton]
                exact ih (n - 4) _ (by omega)
              have hloop := @Describes.iter _ _ _ _ _ loadView (n - 4) valueItems
                (restoreValue fuel) (fun ys => .array (ys.map Image.value)) hstep i.toNat []
              exact hloop.map fun val => Value.array (vec ++ [val])

/-- One more value, after the images of some. -/
theorem describes_nextValue {n fuel : Nat} (hfuel : n < fuel) (vec : List Value)
    (ys : List Image) :
    Loads n (restoreValue fuel (.array (vec ++ ys.map Image.value)))
      (valueItems.one fun x => Value.array (vec ++ (ys ++ [x]).map Image.value)) := by
  simp only [List.map_append, List.map_singleton, ← List.append_assoc]
  exact describes_restoreValue fuel n _ hfuel

/-! ## Columns -/

/-- A column as a file may spell it. -/
structure ColumnImage where
  name : Bytes
  cells : List Image

/-- The columns of a file with a row count. -/
def columnItems (rowCount : Int) : Items UInt8 ColumnImage where
  Valid col := (col.name.length : Int) < intMax ∧ 0 ≤ rowCount ∧
    (valueItems.list rowCount.toNat).Valid col.cells
  text col := charsItems.text col.name ++ col.cells.flatMap Image.text
  room col := max (charsItems.room col.name) (valueItems.peak col.cells)
  Fault inp mark := charsItems.Fault inp mark ∨
    ∃ name, charsItems.Valid name ∧ ∃ rest, inp = charsItems.text name ++ rest ∧
      (valueItems.list rowCount.toNat).Fault rest (max mark (charsItems.room name))

/-- The table with the cells of one more column, under the name that a `char *` denotes. -/
def ClickTable.addColumn (t : ClickTable) (col : ColumnImage) : ClickTable :=
  { t with
    m_tbl := t.m_tbl.insert (cstring col.name)
      ⟨(t.m_tbl[cstring col.name]?.getD {}).data ++ col.cells.map Image.value⟩ }

theorem not_listFault_zero {γ : Type} {S : Items UInt8 γ} {inp : Bytes} {mark : Nat} :
    ¬ (S.list 0).Fault inp mark := by
  rintro ⟨xs, hlen, -⟩
  exact absurd hlen (Nat.not_lt_zero _)

/-- The cells of a column, after its name. -/
theorem describes_cells {n fuel : Nat} (hfuel : n < fuel) (rowCount : Int) (t : ClickTable)
    (name : Bytes) :
    Loads n (do
        let data ← Decoder.iter (restoreValue fuel) rowCount.toNat
          (.array (t.m_tbl[cstring name]?.getD {}).data)
        pure { t with m_tbl := t.m_tbl.insert (cstring name) ⟨(data.vector?).getD []⟩ })
      ((valueItems.list rowCount.toNat).one fun xs => t.addColumn ⟨name, xs⟩) := by
  have hloop := @Describes.iter _ _ _ _ _ loadView n valueItems (restoreValue fuel)
    (fun ys => .array ((t.m_tbl[cstring name]?.getD {}).data ++ ys.map Image.value))
    (describes_nextValue hfuel _) rowCount.toNat []
  simp only [List.map_nil, List.append_nil, List.nil_append] at hloop
  exact hloop.map fun data =>
    { t with m_tbl := t.m_tbl.insert (cstring name) ⟨(data.vector?).getD []⟩ }

/-- On any bytes, `loadColumn` reads one column. -/
theorem describes_loadColumn {n fuel : Nat} (hfuel : n < fuel) (rowCount : Int) (t : ClickTable) :
    Loads n (loadColumn fuel rowCount t) ((columnItems rowCount).one t.addColumn) := by
  have hname := describes_chars (n := n) "Read 'nameSize' failed" "Read 'name' failed"
  by_cases hneg : rowCount < 0
  · -- a name is read, and then the count is refused
    have hbody := hname.bind_zero (g := fun _ => throw (.thrown "vector::reserve"))
      fun _ _ => Describes.throw (α := ClickTable) ⟨_, rfl⟩
    have hload : loadColumn fuel rowCount t = (do
        let _ ← (do
          let size ← readInt "Read 'nameSize' failed"
          readChars size "Read 'name' failed")
        throw (.thrown "vector::reserve")) := by
      simp only [loadColumn, if_pos hneg, bind_assoc]
      rfl
    rw [hload]
    refine Describes.congr hbody ⟨fun enc b r => ?_, fun inp mark => ?_⟩
    · constructor
      · rintro ⟨name, -, e, r', hnot, -⟩
        exact hnot.elim
      · rintro ⟨col, ⟨-, h0, -⟩, -⟩
        exact absurd hneg (Int.not_lt.mpr h0)
    · constructor
      · rintro (hfault | ⟨_, _, _, _, hnot⟩)
        · exact .inl hfault
        · exact hnot.elim
      · rintro (hfault | ⟨name, hname, rest, rfl, hfault⟩)
        · exact .inl hfault
        · rw [Int.toNat_of_nonpos (Int.le_of_lt hneg)] at hfault
          exact absurd hfault not_listFault_zero
  · have hbody := hname.bind_zero
      (g := fun name => (do
        let data ← Decoder.iter (restoreValue fuel) rowCount.toNat
          (.array (t.m_tbl[cstring name]?.getD {}).data)
        pure { t with m_tbl := t.m_tbl.insert (cstring name) ⟨(data.vector?).getD []⟩ } :
          LoadM ClickTable))
      fun name _ => describes_cells hfuel rowCount t name
    have hload : loadColumn fuel rowCount t = (do
        let name ← (do
          let size ← readInt "Read 'nameSize' failed"
          readChars size "Read 'name' failed")
        let data ← Decoder.iter (restoreValue fuel) rowCount.toNat
          (.array (t.m_tbl[cstring name]?.getD {}).data)
        pure { t with m_tbl := t.m_tbl.insert (cstring name) ⟨(data.vector?).getD []⟩ }) := by
      simp [loadColumn, hneg]
    rw [hload]
    refine Describes.congr hbody ⟨fun enc b r => ?_, fun inp mark => Iff.rfl⟩
    constructor
    · rintro ⟨name, hname, _, _, ⟨xs, hxs, rfl, rfl, rfl⟩, rfl, rfl⟩
      exact ⟨⟨name, xs⟩, ⟨hname, Int.not_lt.mp hneg, hxs⟩, rfl, rfl, rfl⟩
    · rintro ⟨⟨name, xs⟩, ⟨hname, h0, hxs⟩, rfl, rfl, rfl⟩
      exact ⟨name, hname, _, _, ⟨xs, hxs, rfl, rfl, rfl⟩, rfl, rfl⟩

/-! ## Files -/

/-- A file that `load` accepts, up to where it stops reading. -/
structure FileImage where
  columnCount : Int
  rowCount : Int
  columns : List ColumnImage

namespace FileImage

/-- The bytes after the two fields that are checked. -/
def body (f : FileImage) : Bytes :=
  intBytes f.columnCount ++ (intBytes f.rowCount ++
    f.columns.flatMap (columnItems f.rowCount).text)

/-- The bytes in the file. -/
def text (f : FileImage) : Bytes := intBytes KEY ++ (intBytes MASK ++ f.body)

/-- The table that `load` makes of it. -/
def table (f : FileImage) : ClickTable :=
  { f.columns.foldl ClickTable.addColumn {} with m_rowCount := toSizeT f.rowCount }

/-- The columns are as many as counted, and none of them stops `load`. -/
def Valid (f : FileImage) : Prop :=
  InInt f.columnCount ∧ InInt f.rowCount ∧
    ((columnItems f.rowCount).list f.columnCount.toNat).Valid f.columns

end FileImage

def fileItems : Items UInt8 FileImage where
  Valid := FileImage.Valid
  text := FileImage.text
  room f := (columnItems f.rowCount).peak f.columns
  Fault inp mark := ∃ columnCount rowCount, InInt columnCount ∧ InInt rowCount ∧
    ∃ rest, inp = intBytes KEY ++ (intBytes MASK ++ (intBytes columnCount ++
      (intBytes rowCount ++ rest))) ∧
      ((columnItems rowCount).list columnCount.toNat).Fault rest mark

/-- What follows the two checks of `loadBody`. -/
def columnsLanguage : Language UInt8 ClickTable :=
  intItems.andThen fun columnCount => intItems.andThen fun rowCount =>
    ((columnItems rowCount).list columnCount.toNat).one fun columns =>
      { columns.foldl ClickTable.addColumn {} with m_rowCount := toSizeT rowCount }

/-- The two checks of `loadBody`. -/
def headerLanguage : Language UInt8 ClickTable :=
  intItems.andThen fun key => intItems.andThen fun mask =>
    if key = KEY ∧ mask = MASK then columnsLanguage else .fail

theorem describes_columns {n fuel : Nat} (hfuel : n < fuel) :
    Loads n (do
        let columnCount ← readInt "Read 'columnCount' failed"
        let rowCount ← readInt "Read 'rowCount' failed"
        let t ← Decoder.iter (loadColumn fuel rowCount) columnCount.toNat {}
        pure { t with m_rowCount := toSizeT rowCount }) columnsLanguage := by
  refine (describes_readInt _).bind_zero fun columnCount _ => ?_
  refine (describes_readInt _).bind_zero fun rowCount _ => ?_
  have hstep : ∀ ys : List ColumnImage,
      Loads n (loadColumn fuel rowCount (ys.foldl ClickTable.addColumn {}))
        ((columnItems rowCount).one fun x => (ys ++ [x]).foldl ClickTable.addColumn {}) := by
    intro ys
    simp only [List.foldl_append, List.foldl_cons, List.foldl_nil]
    exact describes_loadColumn hfuel rowCount _
  have hloop := @Describes.iter _ _ _ _ _ loadView n (columnItems rowCount) (loadColumn fuel rowCount)
    (fun ys => ys.foldl ClickTable.addColumn {}) hstep columnCount.toNat []
  exact hloop.map fun t : ClickTable => { t with m_rowCount := toSizeT rowCount }

theorem length_intText (i : Int) : (intItems.text i).length = 4 := LittleEndian.length_ofInt 4 i

theorem describes_header {n fuel : Nat} (hfuel : n ≤ fuel) :
    Loads n (loadBody fuel {}) headerLanguage := by
  refine (describes_readInt _).bind 4 (fun i _ => Nat.le_of_eq (length_intText i).symm)
    fun h4 key _ => ?_
  refine (describes_readInt _).bind_zero fun mask _ => ?_
  by_cases hkey : key = KEY
  · by_cases hmask : mask = MASK
    · rw [if_pos ⟨hkey, hmask⟩]
      simp only [id, hkey, hmask, beq_self_eq_true, assert1, if_true, pure_bind]
      exact describes_columns (by omega)
    · rw [if_neg fun h => hmask h.2]
      simp only [id, hkey, beq_self_eq_true, assert1, if_true, pure_bind,
        beq_eq_false_iff_ne.mpr hmask, Bool.false_eq_true, if_false]
      exact Describes.throw ⟨_, rfl⟩
  · rw [if_neg fun h => hkey h.1]
    simp only [id, assert1, beq_eq_false_iff_ne.mpr hkey, Bool.false_eq_true, if_false]
    exact Describes.throw ⟨_, rfl⟩

theorem inInt_key : InInt KEY := ⟨by decide, by decide⟩

theorem inInt_mask : InInt MASK := ⟨by decide, by decide⟩

@[simp] theorem room_intItems (i : Int) : intItems.room i = 0 := rfl

/-- Past the checks, `load` reads the body of a file. -/
theorem columns_accepts {enc : Bytes} {t : ClickTable} {r : Nat} :
    columnsLanguage.accepts enc t r ↔
      ∃ f : FileImage, f.Valid ∧ enc = f.body ∧ t = f.table ∧ r = fileItems.room f := by
  constructor
  · rintro ⟨cc, hcc, _, _, ⟨rc, hrc, _, _, ⟨cols, hcols, rfl, rfl, rfl⟩, rfl, rfl⟩, rfl, rfl⟩
    refine ⟨⟨cc, rc, cols⟩, ⟨hcc, hrc, hcols⟩, rfl, rfl, ?_⟩
    rw [room_intItems, room_intItems, Nat.zero_max, Nat.zero_max]
    rfl
  · rintro ⟨⟨cc, rc, cols⟩, ⟨hcc, hrc, hcols⟩, rfl, rfl, rfl⟩
    refine ⟨cc, hcc, _, _, ⟨rc, hrc, _, _, ⟨cols, hcols, rfl, rfl, rfl⟩, rfl, rfl⟩, rfl, ?_⟩
    rw [room_intItems, room_intItems, Nat.zero_max, Nat.zero_max]
    rfl

theorem columns_faults {inp : Bytes} {mark : Nat} :
    columnsLanguage.faults inp mark ↔ ∃ columnCount rowCount, InInt columnCount ∧ InInt rowCount ∧
      ∃ rest, inp = intBytes columnCount ++ (intBytes rowCount ++ rest) ∧
        ((columnItems rowCount).list columnCount.toNat).Fault rest mark := by
  constructor
  · rintro (hnot | ⟨cc, hcc, _, rfl, hnot | ⟨rc, hrc, rest, rfl, hfault⟩⟩)
    · exact hnot.elim
    · exact hnot.elim
    · rw [room_intItems, room_intItems, Nat.max_zero, Nat.max_zero] at hfault
      exact ⟨cc, rc, hcc, hrc, rest, rfl, hfault⟩
  · rintro ⟨cc, rc, hcc, hrc, rest, rfl, hfault⟩
    refine .inr ⟨cc, hcc, _, rfl, .inr ⟨rc, hrc, rest, rfl, ?_⟩⟩
    rwa [room_intItems, room_intItems, Nat.max_zero, Nat.max_zero]

theorem header_equiv : headerLanguage.Equiv (fileItems.one FileImage.table) where
  accepts enc t r := by
    constructor
    · rintro ⟨key, -, _, _, ⟨mask, -, e, r', hacc, rfl, rfl⟩, rfl, rfl⟩
      dsimp only at hacc
      split at hacc
      · rename_i hchecks
        obtain ⟨rfl, rfl⟩ := hchecks
        obtain ⟨f, hf, rfl, rfl, rfl⟩ := columns_accepts.mp hacc
        exact ⟨f, hf, rfl, rfl, (Nat.zero_max _).trans (Nat.zero_max _)⟩
      · exact hacc.elim
    · rintro ⟨f, hf, rfl, rfl, rfl⟩
      refine ⟨KEY, inInt_key, _, _, ⟨MASK, inInt_mask, f.body, fileItems.room f, ?_, rfl, rfl⟩, rfl, ?_⟩
      · dsimp only
        rw [if_pos ⟨rfl, rfl⟩]
        exact columns_accepts.mpr ⟨f, hf, rfl, rfl, rfl⟩
      · rw [room_intItems, room_intItems, Nat.zero_max, Nat.zero_max]
  faults inp mark := by
    constructor
    · rintro (hnot | ⟨key, -, _, rfl, hnot | ⟨mask, -, rest, rfl, hfault⟩⟩)
      · exact hnot.elim
      · exact hnot.elim
      · dsimp only at hfault
        rw [room_intItems, room_intItems, Nat.max_zero, Nat.max_zero] at hfault
        split at hfault
        · rename_i hchecks
          obtain ⟨rfl, rfl⟩ := hchecks
          obtain ⟨cc, rc, hcc, hrc, rest', rfl, hcolumns⟩ := columns_faults.mp hfault
          exact ⟨cc, rc, hcc, hrc, rest', rfl, hcolumns⟩
        · exact hfault.elim
    · rintro ⟨cc, rc, hcc, hrc, rest, rfl, hfault⟩
      refine .inr ⟨KEY, inInt_key, _, rfl, .inr ⟨MASK, inInt_mask, _, rfl, ?_⟩⟩
      dsimp only
      rw [if_pos ⟨rfl, rfl⟩, room_intItems, room_intItems, Nat.max_zero, Nat.max_zero]
      exact columns_faults.mpr ⟨cc, rc, hcc, hrc, rest, rfl, hfault⟩

/-- On any bytes, `load` reads one file. -/
theorem describes_loadBody {n fuel : Nat} (hfuel : n ≤ fuel) :
    Loads n (loadBody fuel {}) (fileItems.one FileImage.table) :=
  (describes_header hfuel).congr header_equiv

end FlexEtl
