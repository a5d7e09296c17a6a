/-
FlexEtl.Table.CdbTheorems — which tables survive `save` and `load`.

`saved` writes a string with its length in front and `restoreValue` reads
that many bytes back, but then hands them on as a `char *`. So the bytes of
the file always describe the table, and what `load` makes of them is the
table exactly when no name and no string holds a zero byte
(`load_saved_iff`); a string of `INT_MAX` bytes is the other exception, since
`size + 1` overflows there.

One direction composes `Decoder.Reads` field by field, in the order of
`storeValue`, with the scratch buffer's bookkeeping as the invariant. The
other direction does not look at the saved bytes: whatever the file, no
string that `load` returns holds a zero byte or is that long (`Yields`).
-/
import FlexEtl.Table.Cdb
import FlexEtl.Table.ClickTableTheorems
import Mathlib.Data.List.TakeWhile

namespace FlexEtl

open Decoder

/-! ## C integers -/

theorem toCInt_of_le {n : Nat} (h : (n : Int) ≤ intMax) : toCInt n = n := by
  have hn : (n : Int) < 2 ^ 31 := by simp only [intMax] at h; omega
  exact Int.bmod_eq_of_le (by omega) (by norm_num at hn ⊢; omega)

theorem toSizeT_of_nonneg {i : Int} (h0 : 0 ≤ i) (h : i ≤ intMax) : toSizeT i = i.toNat := by
  simp only [intMax] at h
  unfold toSizeT
  omega

theorem toSizeT_natCast {n : Nat} (h : (n : Int) ≤ intMax) : toSizeT n = n := by
  rw [toSizeT_of_nonneg (by omega) h, Int.toNat_natCast]

/-- An `int` that a file holds is read back. -/
theorem toInt_intBytes {i : Int} (hlow : -2 ^ 31 ≤ i) (hhigh : i ≤ intMax) :
    LittleEndian.toInt (intBytes i) = i := by
  simp only [intMax] at hhigh
  rw [intBytes, LittleEndian.toInt_ofInt]
  exact Int.bmod_eq_of_le (by norm_num; omega) (by norm_num; omega)

theorem toNat_intBytes_code (t : ClickType) :
    LittleEndian.toNat (intBytes t.code) = t.code := by
  cases t <;> decide

/-! ## The scratch buffer -/

/-- No allocation has failed, so the buffer owns what it says it does. -/
def Buffer.Sound (b : Buffer) : Prop := b.block = b.size

/-- No block is larger than an allocation can be. -/
def Buffer.Bounded (b : Buffer) : Prop := b.block ≤ maxAlloc

theorem Buffer.sound_empty : Buffer.Sound {} := rfl

theorem Buffer.bounded_empty : Buffer.Bounded {} := Nat.zero_le maxAlloc

theorem Buffer.sound_reserve {b : Buffer} (hb : b.Sound) {n : Nat} (hn : n ≤ maxAlloc) :
    (b.reserve n).Sound ∧ n ≤ (b.reserve n).block := by
  unfold Buffer.reserve
  split
  · rename_i h
    exact ⟨hb, by rw [hb]; exact h⟩
  · simp [Buffer.Sound]

theorem Buffer.bounded_reserve {b : Buffer} (hb : b.Bounded) (n : Nat) :
    (b.reserve n).Bounded := by
  unfold Buffer.reserve
  split
  · exact hb
  · unfold Buffer.Bounded
    split
    · assumption
    · exact Nat.zero_le _

/-! ## Reading back the fields -/

section Reads

/-- The decoders' invariant on the way back. -/
abbrev SoundStream (s : Stream) : Prop := s.buffer.Sound

/-- `p` reads back exactly `enc`. -/
abbrev ReadsBack {α : Type} (p : LoadM α) (enc : Bytes) (a : α) : Prop :=
  Reads Stream.rest SoundStream p enc a

theorem readsBack_freadExact {n : Nat} {bs : Bytes} (h : bs.length = n) (message : String) :
    ReadsBack (freadExact n message) bs bs := by
  intro s rest hs hrest
  refine ⟨{ s with rest := rest }, ?_, hs, rfl⟩
  have htake : s.rest.take n = bs := by rw [hrest, List.take_left' h]
  have hdrop : s.rest.drop n = rest := by rw [hrest, List.drop_left' h]
  simp [freadExact, bind, EStateM.bind, fread, htake, hdrop, h, assert1, pure, EStateM.pure]

theorem readsBack_readInt {i : Int} (hlow : -2 ^ 31 ≤ i) (hhigh : i ≤ intMax)
    (message : String) : ReadsBack (readInt message) (intBytes i) i := by
  have h := Reads.map LittleEndian.toInt
    (readsBack_freadExact (LittleEndian.length_ofInt 4 i) message)
  exact h.congr rfl (toInt_intBytes hlow hhigh)

theorem readsBack_readType (t : ClickType) :
    ReadsBack readType (intBytes t.code) (some t) := by
  have h := Reads.map (fun bs => ClickType.ofCode? (LittleEndian.toNat bs))
    (@readsBack_freadExact _ (intBytes t.code) rfl "Read type value failed")
  rwa [toNat_intBytes_code, ClickType.ofCode?_code] at h

theorem readsBack_readWord (u : UInt64) (message : String) :
    ReadsBack (readWord message) (LittleEndian.bytes 8 u.toNat) u := by
  have h := Reads.map (fun bs => UInt64.ofNat (LittleEndian.toNat bs))
    (readsBack_freadExact (LittleEndian.length_bytes 8 u.toNat) message)
  refine h.congr rfl ?_
  have hu : u.toNat < 256 ^ 8 := u.toNat_lt
  rw [LittleEndian.toNat_bytes_of_lt hu, UInt64.ofNat_toNat]

/-- A call of `readChars` whose size can be incremented: the reserve, the read, and the
three tests of what came. -/
theorem readChars_eq {size : Int} (h : size ≠ intMax) (message : String) (s : Stream) :
    readChars size message s =
      let buffer := s.buffer.reserve (toSizeT (size + 1))
      let bs := s.rest.take (toSizeT size)
      let s' : Stream := { rest := s.rest.drop (toSizeT size), buffer }
      if buffer.block < bs.length then .error (.undefined "fread past the end of the buffer") s'
      else if bs.length ≠ toSizeT size then .error (.thrown message) s'
      else if buffer.block ≤ bs.length then
        .error (.undefined "terminating zero past the end of the buffer") s'
      else .ok bs s' := by
  dsimp only
  unfold readChars reserveChars
  rw [if_neg h]
  show (if (s.buffer.reserve (toSizeT (size + 1))).block < (s.rest.take (toSizeT size)).length
    then _ else _ : LoadM Bytes)
      ⟨s.rest.drop (toSizeT size), s.buffer.reserve (toSizeT (size + 1))⟩ = _
  split
  · rfl
  · unfold assert1
    by_cases hlen : (s.rest.take (toSizeT size)).length = toSizeT size
    · rw [if_pos (beq_iff_eq.mpr hlen), if_neg (not_not.mpr hlen)]
      show (if (s.buffer.reserve (toSizeT (size + 1))).block ≤ (s.rest.take (toSizeT size)).length
        then _ else _ : LoadM Bytes)
          ⟨s.rest.drop (toSizeT size), s.buffer.reserve (toSizeT (size + 1))⟩ = _
      split
      · rfl
      · rfl
    · rw [if_neg (fun heq => hlen (beq_iff_eq.mp heq)), if_pos hlen]
      rfl

theorem readsBack_readChars {bs : Bytes} (h : (bs.length : Int) < intMax) (message : String) :
    ReadsBack (readChars bs.length message) bs bs := by
  intro s rest hs hrest
  have hle : (bs.length : Int) ≤ intMax := Int.le_of_lt h
  have hne : (bs.length : Int) ≠ intMax := Int.ne_of_lt h
  have hcount : toSizeT bs.length = bs.length := toSizeT_natCast hle
  have hsucc : toSizeT ((bs.length : Int) + 1) = bs.length + 1 := by
    have := @toSizeT_natCast (bs.length + 1) (by push_cast; omega)
    simpa using this
  have halloc : bs.length + 1 ≤ maxAlloc := by
    simp only [intMax] at h
    unfold maxAlloc
    omega
  obtain ⟨hsound, hblock⟩ := Buffer.sound_reserve hs halloc
  have htake : s.rest.take bs.length = bs := by rw [hrest, List.take_left' rfl]
  have hdrop : s.rest.drop bs.length = rest := by rw [hrest, List.drop_left' rfl]
  refine ⟨{ rest := rest, buffer := s.buffer.reserve (bs.length + 1) }, ?_, hsound, rfl⟩
  have hroom : ¬ (s.buffer.reserve (bs.length + 1)).block < bs.length := by omega
  have hzero : ¬ (s.buffer.reserve (bs.length + 1)).block ≤ bs.length := by omega
  rw [readChars_eq hne]
  dsimp only
  rw [hcount, hsucc, htake, hdrop, if_neg hroom, if_neg (not_not.mpr rfl), if_neg hzero]

end Reads

/-! ## Reading back a value -/

/-- What the format can hold: a string without a zero byte that is shorter
than `INT_MAX`. -/
def PlainString (s : Bytes) : Prop := 0 ∉ s ∧ (s.length : Int) < intMax

instance (s : Bytes) : Decidable (PlainString s) := instDecidableAnd

/-- A count that fits in an `int`. -/
def FitsInt (n : Nat) : Prop := (n : Int) ≤ intMax

theorem not_mem_cstring (bs : Bytes) : 0 ∉ cstring bs := fun h => by
  simpa using List.mem_takeWhile_imp h

theorem cstring_of_plain {s : Bytes} (h : 0 ∉ s) : cstring s = s := by
  rw [cstring, List.takeWhile_eq_self_iff]
  intro b hb
  have hne : b ≠ 0 := fun h0 => h (h0 ▸ hb)
  simpa using hne

theorem readsBack_storeChars {s : Bytes} (h : PlainString s) (m₁ m₂ : String) :
    ReadsBack (do let size ← readInt m₁; readChars size m₂) (storeChars s).flatten s := by
  have hle : (s.length : Int) ≤ intMax := Int.le_of_lt h.2
  have hflat : (storeChars s).flatten = intBytes s.length ++ s := by
    simp [storeChars, toCInt_of_le hle, toSizeT_natCast hle]
  rw [hflat]
  exact (readsBack_readInt (by omega) hle m₁).bind (readsBack_readChars h.2 m₂)

theorem storeList_eq (xs : List Value) :
    (storeValue.storeList xs).flatten = xs.flatMap fun x => (storeValue x).flatten := by
  induction xs with
  | nil => rfl
  | cons x xs ih => simp [storeValue.storeList, ih]

/-- `restoreValue` inverts `storeValue` on every value the format can hold. -/
theorem readsBack_restoreValue (v : Value) :
    v.Every PlainString FitsInt → ∀ (fuel : Nat), v.depth < fuel → ∀ (vec : List Value),
      ReadsBack (restoreValue fuel (.array vec)) (storeValue v).flatten (.array (vec ++ [v])) := by
  induction v using Value.inductOn with
  | null =>
      intro _ fuel hf vec
      obtain ⟨fuel, rfl⟩ := Nat.exists_eq_add_of_lt hf
      simp only [restoreValue, storeValue, List.flatten_cons, List.flatten_nil, List.append_nil]
      exact (readsBack_readType .unknown).bind (Reads.pure _)
  | int i =>
      intro _ fuel hf vec
      obtain ⟨fuel, rfl⟩ := Nat.exists_eq_add_of_lt hf
      simp only [restoreValue, storeValue, List.flatten_cons, List.flatten_nil, List.append_nil]
      refine (readsBack_readType .int).bind ?_
      have h := Reads.map (fun u : UInt64 => Value.array (vec ++ [.int u.toInt64]))
        (readsBack_readWord i.toUInt64 "Read value failed")
      rwa [Int64.toInt64_toUInt64] at h
  | uint u =>
      intro _ fuel hf vec
      obtain ⟨fuel, rfl⟩ := Nat.exists_eq_add_of_lt hf
      simp only [restoreValue, storeValue, List.flatten_cons, List.flatten_nil, List.append_nil]
      refine (readsBack_readType .uint).bind ?_
      exact Reads.map (fun u : UInt64 => Value.array (vec ++ [.uint u])) (readsBack_readWord u _)
  | double d =>
      intro _ fuel hf vec
      obtain ⟨fuel, rfl⟩ := Nat.exists_eq_add_of_lt hf
      simp only [restoreValue, storeValue, List.flatten_cons, List.flatten_nil, List.append_nil]
      refine (readsBack_readType .double).bind ?_
      exact Reads.map (fun u : UInt64 => Value.array (vec ++ [.double u])) (readsBack_readWord d _)
  | bool b =>
      intro _ fuel hf vec
      obtain ⟨fuel, rfl⟩ := Nat.exists_eq_add_of_lt hf
      simp only [restoreValue, storeValue, List.flatten_cons, List.flatten_nil, List.append_nil]
      refine (readsBack_readType .bool).bind ?_
      refine (Reads.map (fun bs : Bytes => Value.array (vec ++ [.bool (bs != [0])]))
        (@readsBack_freadExact _ [if b then 1 else 0] rfl _)).congr rfl ?_
      cases b <;> rfl
  | str s =>
      intro hs fuel hf vec
      obtain ⟨fuel, rfl⟩ := Nat.exists_eq_add_of_lt hf
      have hs : PlainString s := Value.every_str.mp hs
      simp only [restoreValue, storeValue, List.flatten_cons]
      refine (readsBack_readType .str).bind ?_
      have h := Reads.map (fun bs => Value.array (vec ++ [.str (cstring bs)]))
        (readsBack_storeChars hs "Read string value length failed" "Read string value failed")
      rw [cstring_of_plain hs.1] at h
      simpa only [bind_assoc] using h
  | array xs ih =>
      intro hxs fuel hf vec
      obtain ⟨fuel, rfl⟩ := Nat.exists_eq_add_of_lt hf
      obtain ⟨hlen, hxs⟩ := Value.every_array.mp hxs
      simp only [restoreValue, storeValue, List.flatten_cons]
      refine (readsBack_readType .array).bind ?_
      rw [toCInt_of_le hlen]
      refine (readsBack_readInt (by omega) hlen _).bind ?_
      rw [Int.toNat_natCast, storeList_eq]
      -- the elements are read one level further down, on one unit of fuel less
      have hloop : ReadsBack (Decoder.iter (restoreValue ((Value.array xs).depth + fuel))
          xs.length (.array [])) (xs.flatMap fun x => (storeValue x).flatten) (.array xs) := by
        refine Reads.iter Value.array xs fun ys x zs hsplit => ?_
        have hmem : x ∈ xs := by simp [hsplit]
        have hdepth := Value.depth_lt_of_mem hmem
        exact ih x hmem (hxs x hmem) _ (by omega) ys
      exact Reads.map (fun val => Value.array (vec ++ [val])) hloop

/-! ## Reading back a table -/

namespace ClickTable

/-- All lengths and counts of the table fit in an `int`. -/
structure Fits (t : ClickTable) : Prop where
  columns : FitsInt t.m_tbl.size
  rows : FitsInt t.m_rowCount
  names : ∀ (c : Bytes) (col : ClickColumn), t.m_tbl[c]? = some col → FitsInt c.length
  cells : ∀ (c : Bytes) (col : ClickColumn), t.m_tbl[c]? = some col →
    ∀ v ∈ col.data, v.Every (fun s => FitsInt s.length) FitsInt

/-- No column name and no string in a cell holds a zero byte or is `INT_MAX` long. -/
def Plain (t : ClickTable) : Prop :=
  ∀ (c : Bytes) (col : ClickColumn), t.m_tbl[c]? = some col →
    PlainString c ∧ ∀ v ∈ col.data, v.Every PlainString fun _ => True

end ClickTable

/-- One value's encoding is longer than its arrays are deep, so the length of
the file is fuel enough. -/
theorem depth_lt_length (v : Value) : v.depth < (storeValue v).flatten.length := by
  induction v using Value.inductOn with
  | array xs ih =>
      have hlist : Value.depth.depthList xs ≤ (storeValue.storeList xs).flatten.length := by
        induction xs with
        | nil => exact Nat.zero_le _
        | cons x xs ihxs =>
            have hx := ih x (by simp)
            have hxs := ihxs fun y hy => ih y (by simp [hy])
            simp only [Value.depth.depthList, storeValue.storeList, List.flatten_append,
              List.length_append]
            omega
      simp only [storeValue, Value.depth, List.flatten_cons, List.length_append, intBytes,
        LittleEndian.length_ofInt]
      omega
  | _ => simp [storeValue, storeChars, Value.depth, intBytes]

theorem flatten_storeColumn (entry : Bytes × ClickColumn) :
    (storeColumn entry).flatten = (storeChars entry.1).flatten
      ++ entry.2.data.flatMap fun v => (storeValue v).flatten := by
  simp [storeColumn, List.flatMap, List.flatten_flatten, Function.comp_def]

theorem ClickTable.saved_eq (t : ClickTable) :
    t.saved = intBytes KEY ++ (intBytes MASK ++ (intBytes (toCInt t.m_tbl.size)
      ++ (intBytes (toCInt t.m_rowCount)
        ++ t.m_tbl.toList.flatMap fun entry => (storeColumn entry).flatten))) := by
  simp [saved, save, List.flatMap, List.flatten_flatten, Function.comp_def]

theorem length_le_flatMap {α β : Type} {f : α → List β} {xs : List α} {x : α} (h : x ∈ xs) :
    (f x).length ≤ (xs.flatMap f).length :=
  (List.sublist_flatten_of_mem (List.mem_map_of_mem h)).length_le

/-- The encoding of a cell is part of the file. -/
theorem length_cell_le (t : ClickTable) {c : Bytes} {col : ClickColumn}
    (hcol : t.m_tbl[c]? = some col) {v : Value} (hv : v ∈ col.data) :
    (storeValue v).flatten.length ≤ t.saved.length := by
  have hmem : (c, col) ∈ t.m_tbl.toList :=
    Std.ExtTreeMap.mem_toList_iff_getElem?_eq_some.mpr hcol
  have hcell := length_le_flatMap (f := fun v => (storeValue v).flatten) hv
  have hcolumn := length_le_flatMap (f := fun e => (storeColumn e).flatten) hmem
  simp only [flatten_storeColumn, List.length_append] at hcolumn
  simp only [ClickTable.saved_eq, List.length_append, flatten_storeColumn]
  omega

/-- `loadColumn` inverts `storeColumn` for a name the table does not have yet. -/
theorem readsBack_loadColumn {t : ClickTable} {name : Bytes} {data : List Value} {fuel n : Nat}
    (hname : PlainString name) (hnew : t.m_tbl[name]? = none) (hsize : data.length = n)
    (hcells : ∀ v ∈ data, v.Every PlainString FitsInt ∧ v.depth < fuel) :
    ReadsBack (loadColumn fuel n t) (storeColumn (name, ⟨data⟩)).flatten
      { t with m_tbl := t.m_tbl.insert name ⟨data⟩ } := by
  rw [flatten_storeColumn]
  have hn : ¬ (n : Int) < 0 := by omega
  have hloop : ReadsBack (Decoder.iter (restoreValue fuel) n (.array []))
      (data.flatMap fun v => (storeValue v).flatten) (.array data) := by
    subst hsize
    refine Reads.iter Value.array data fun ys x zs hsplit => ?_
    obtain ⟨hx, hdepth⟩ := hcells x (by simp [hsplit])
    exact readsBack_restoreValue x hx fuel hdepth ys
  have hcolumn := Reads.map
    (fun v : Value => { t with m_tbl := t.m_tbl.insert name ⟨(v.vector?).getD []⟩ }) hloop
  have hbody := (readsBack_storeChars hname "Read 'nameSize' failed" "Read 'name' failed").bind
    (f := fun bs => do
      let v ← Decoder.iter (restoreValue fuel) n
        (.array (t.m_tbl[cstring bs]?.getD {}).data)
      pure { t with m_tbl := t.m_tbl.insert (cstring bs) ⟨(v.vector?).getD []⟩ })
    (by rw [cstring_of_plain hname.1, hnew]; exact hcolumn)
  simpa [loadColumn, hn] using hbody

/-- The table that the columns read so far make. -/
def ofEntries (entries : List (Bytes × ClickColumn)) : ClickTable :=
  { m_tbl := Std.ExtTreeMap.ofList entries }

theorem ofEntries_append_one (ys : List (Bytes × ClickColumn)) (e : Bytes × ClickColumn) :
    ofEntries (ys ++ [e])
      = { ofEntries ys with m_tbl := (ofEntries ys).m_tbl.insert e.1 e.2 } := by
  obtain ⟨c, col⟩ := e
  simp [ofEntries, Std.ExtTreeMap.ofList_eq_insertMany_empty, Std.ExtTreeMap.insertMany_append,
    Std.ExtTreeMap.insertMany_list_singleton]

theorem ofEntries_getElem?_none {ys zs : List (Bytes × ClickColumn)} {e : Bytes × ClickColumn}
    {t : ClickTable} (h : t.m_tbl.toList = ys ++ e :: zs) :
    (ofEntries ys).m_tbl[e.1]? = none := by
  refine Std.ExtTreeMap.getElem?_ofList_of_contains_eq_false ?_
  have hdistinct := Std.ExtTreeMap.distinct_keys_toList (t := t.m_tbl)
  rw [h, List.pairwise_append] at hdistinct
  rw [Bool.eq_false_iff]
  intro hmem
  obtain ⟨col, hy⟩ : ∃ col, (e.1, col) ∈ ys := by simpa using hmem
  have hne := hdistinct.2.2 (e.1, col) hy e (by simp)
  simp at hne

theorem ofEntries_toList (t : ClickTable) :
    (ofEntries t.m_tbl.toList).m_tbl = t.m_tbl := by
  apply Std.ExtTreeMap.ext_getElem?
  intro c
  cases hc : t.m_tbl[c]? with
  | some col =>
      have hmem : (c, col) ∈ t.m_tbl.toList :=
        Std.ExtTreeMap.mem_toList_iff_getElem?_eq_some.mpr hc
      exact Std.ExtTreeMap.getElem?_ofList_of_mem (k := c) (by simp)
        Std.ExtTreeMap.distinct_keys_toList hmem
  | none =>
      refine Std.ExtTreeMap.getElem?_ofList_of_contains_eq_false ?_
      rw [Bool.eq_false_iff]
      intro hmem
      have hin : c ∈ t.m_tbl := by simpa using hmem
      rw [Std.ExtTreeMap.mem_iff_isSome_getElem?, hc] at hin
      simp at hin

/-- `load` inverts `save` on every aligned table the format can hold. -/
theorem readsBack_loadBody {t : ClickTable} (ht : t.Aligned) (hfits : t.Fits) (hplain : t.Plain) :
    ReadsBack (loadBody t.saved.length {}) t.saved t := by
  have hcols : toCInt t.m_tbl.size = t.m_tbl.toList.length := by
    rw [toCInt_of_le hfits.columns, Std.ExtTreeMap.length_toList]
  have hrows : toCInt t.m_rowCount = t.m_rowCount := toCInt_of_le hfits.rows
  have hfitcols : (t.m_tbl.toList.length : Int) ≤ intMax := by
    rw [Std.ExtTreeMap.length_toList]
    exact hfits.columns
  have hfitrows : (t.m_rowCount : Int) ≤ intMax := hfits.rows
  have hloop : ReadsBack
      (Decoder.iter (loadColumn t.saved.length t.m_rowCount) t.m_tbl.toList.length {})
      (t.m_tbl.toList.flatMap fun entry => (storeColumn entry).flatten)
      (ofEntries t.m_tbl.toList) := by
    refine Reads.iter ofEntries t.m_tbl.toList fun ys e zs hsplit => ?_
    have hcol : t.m_tbl[e.1]? = some e.2 :=
      Std.ExtTreeMap.mem_toList_iff_getElem?_eq_some.mp (by simp [hsplit])
    rw [ofEntries_append_one]
    refine readsBack_loadColumn (hplain e.1 e.2 hcol).1 (ofEntries_getElem?_none hsplit)
      (ht.size_eq hcol) fun v hv => ⟨?_, ?_⟩
    · exact ((hplain e.1 e.2 hcol).2 v hv).combine (hfits.cells e.1 e.2 hcol v hv)
    · exact Nat.lt_of_lt_of_le (depth_lt_length v) (length_cell_le t hcol hv)
  have htable : ({ ofEntries t.m_tbl.toList with m_rowCount := toSizeT t.m_rowCount } : ClickTable)
      = t := by
    simp only [ofEntries_toList, toSizeT_natCast hfitrows]
  rw [t.saved_eq, hcols, hrows]
  refine (readsBack_readInt (by decide) (by decide) _).bind ?_
  refine (readsBack_readInt (by decide) (by decide) _).bind ?_
  simp only [beq_self_eq_true, assert1, if_true, pure_bind]
  refine (readsBack_readInt (by omega) hfitcols _).bind ?_
  refine (readsBack_readInt (by omega) hfitrows _).bind ?_
  rw [Int.toNat_natCast]
  have h := Reads.map
    (fun t' : ClickTable => { t' with m_rowCount := toSizeT t.m_rowCount }) hloop
  rw [t.saved_eq, hcols, hrows, htable] at h
  exact h

/-! ## What `load` can return -/

/-- `p` returns only values that satisfy `P`. -/
abbrev LoadYields {α : Type} (p : LoadM α) (P : α → Prop) : Prop :=
  Yields (fun s : Stream => s.buffer.Bounded) p P

theorem yields_freadExact (n : Nat) (message : String) :
    LoadYields (freadExact n message) fun bs => bs.length = n := by
  intro s bs s' hs h
  by_cases hlen : (s.rest.take n).length = n
  · simp only [freadExact, bind, EStateM.bind, fread, assert1, hlen, beq_self_eq_true, if_true,
      pure, EStateM.pure] at h
    cases h
    exact ⟨hs, hlen⟩
  · have hne : ((s.rest.take n).length == n) = false := by simpa using hlen
    simp only [freadExact, bind, EStateM.bind, fread, assert1, hne, Bool.false_eq_true, if_false]
      at h
    cases h

/-- Four bytes are an `int`. -/
theorem toInt_range {bs : Bytes} (hbs : bs.length = 4) :
    -2 ^ 31 ≤ LittleEndian.toInt bs ∧ LittleEndian.toInt bs ≤ intMax := by
  have hlow : -((2 ^ 32 : Nat) / 2 : Int) ≤ LittleEndian.toInt bs := by
    rw [LittleEndian.toInt, hbs]
    exact Int.le_bmod (by decide)
  have hhigh : LittleEndian.toInt bs < ((2 ^ 32 : Nat) + 1) / 2 := by
    rw [LittleEndian.toInt, hbs]
    exact Int.bmod_lt (by decide)
  norm_num at hlow hhigh
  simp only [intMax]
  omega

theorem yields_readInt (message : String) :
    LoadYields (readInt message) fun i => -2 ^ 31 ≤ i ∧ i ≤ intMax :=
  (yields_freadExact 4 message).bind fun _ hbs => Yields.pure (toInt_range hbs)

/-- A string read without a fault has fewer than `INT_MAX` bytes: a negative
length counts more bytes than any buffer has room for. -/
theorem yields_readChars {size : Int} (hsize : -2 ^ 31 ≤ size ∧ size ≤ intMax)
    (message : String) :
    LoadYields (readChars size message) fun bs => (bs.length : Int) < intMax := by
  intro s bs s' hs h
  by_cases hmax : size = intMax
  · simp only [readChars, reserveChars, hmax, if_true] at h
    cases h
  have hbounded := Buffer.bounded_reserve hs (toSizeT (size + 1))
  rw [readChars_eq hmax] at h
  dsimp only at h
  split at h
  · cases h
  · split at h
    · cases h
    · rename_i hlen
      split at h
      · cases h
      · rename_i hblock
        cases h
        refine ⟨hbounded, ?_⟩
        have hcount : (s.rest.take (toSizeT size)).length = toSizeT size := not_not.mp hlen
        unfold Buffer.Bounded maxAlloc at hbounded
        simp only [intMax] at hsize hmax ⊢
        have hsmall : toSizeT size ≤ 2 ^ 63 - 1 := by omega
        rw [hcount]
        unfold toSizeT at hsmall ⊢
        omega

/-- What reaches a `std::string` through a `char *` holds no zero byte. -/
theorem plainString_cstring {bs : Bytes} (h : (bs.length : Int) < intMax) :
    PlainString (cstring bs) := by
  refine ⟨fun h0 => ?_, ?_⟩
  · have := List.mem_takeWhile_imp h0
    simp at this
  · have hle : (cstring bs).length ≤ bs.length := (List.takeWhile_prefix _).length_le
    omega

/-- A value with plain strings only. -/
abbrev PlainValue (v : Value) : Prop := v.Every PlainString fun _ => True

theorem plainValue_push {vec : List Value} {v : Value} (hvec : PlainValue (.array vec))
    (hv : PlainValue v) : PlainValue (.array (vec ++ [v])) := by
  obtain ⟨-, hvec⟩ := Value.every_array.mp hvec
  refine Value.every_array.mpr ⟨trivial, fun x hx => ?_⟩
  rcases List.mem_append.mp hx with hx | hx
  · exact hvec x hx
  · obtain rfl : x = v := by simpa using hx
    exact hv

theorem plainValue_nil : PlainValue (.array []) :=
  Value.every_array.mpr ⟨trivial, by simp⟩

theorem yields_restoreValue (fuel : Nat) : ∀ (value : Value), PlainValue value →
    LoadYields (restoreValue fuel value) PlainValue := by
  induction fuel with
  | zero => exact fun _ _ => Yields.throw
  | succ fuel ih =>
      intro value hvalue
      cases value with
      | array vec =>
          have hword : ∀ (message : String) (g : UInt64 → Value), (∀ u, PlainValue (g u)) →
              LoadYields (do let u ← readWord message; pure (.array (vec ++ [g u])))
                PlainValue := fun message g hg =>
            ((yields_freadExact 8 message).bind (Q := fun _ => True)
              fun _ _ => Yields.pure trivial).bind
              fun u _ => Yields.pure (plainValue_push hvalue (hg u))
          refine (Yields.bind (P := fun _ => True)
            ((yields_freadExact 4 _).bind fun _ _ => Yields.pure trivial) ?_)
          intro type _
          match type with
          | some .str =>
              refine (yields_readInt _).bind fun size hsize => ?_
              refine (yields_readChars hsize _).bind fun bs hbs => Yields.pure ?_
              exact plainValue_push hvalue (Value.every_str.mpr (plainString_cstring hbs))
          | some .array =>
              refine (yields_readInt _).bind fun size _ => ?_
              refine (Yields.iter ih size.toNat (.array []) plainValue_nil).bind fun v hv => ?_
              exact Yields.pure (plainValue_push hvalue hv)
          | some .int => exact hword _ (fun u => .int u.toInt64) fun _ => trivial
          | some .uint => exact hword _ .uint fun _ => trivial
          | some .double => exact hword _ .double fun _ => trivial
          | some .bool =>
              refine (yields_freadExact 1 _).bind fun bs _ => Yields.pure ?_
              exact plainValue_push hvalue trivial
          | some .unknown => exact Yields.pure (plainValue_push hvalue trivial)
          | none => exact Yields.throw
      | _ => exact Yields.throw

theorem yields_loadColumn {fuel : Nat} {rowCount : Int} {t : ClickTable} (ht : t.Plain) :
    LoadYields (loadColumn fuel rowCount t) ClickTable.Plain := by
  refine (yields_readInt _).bind fun size hsize => ?_
  refine (yields_readChars hsize _).bind fun bs hbs => ?_
  -- the column that the name selects, new or already there, is plain
  have hcol : PlainValue (.array (t.m_tbl[cstring bs]?.getD {}).data) := by
    cases hc : t.m_tbl[cstring bs]? with
    | none => exact plainValue_nil
    | some col => exact Value.every_array.mpr ⟨trivial, (ht _ col hc).2⟩
  dsimp only
  split
  · exact Yields.throw.bind (P := fun _ => False) fun _ h => h.elim
  · refine (Yields.iter (yields_restoreValue fuel) rowCount.toNat _ hcol).bind fun v hv => ?_
    refine Yields.pure fun c col hc => ?_
    rw [Std.ExtTreeMap.getElem?_insert] at hc
    split at hc
    · rename_i hname
      obtain rfl : cstring bs = c := by simpa using hname
      cases hc
      refine ⟨plainString_cstring hbs, ?_⟩
      cases v with
      | array xs => exact (Value.every_array.mp hv).2
      | _ => simp [Value.vector?]
    · exact ht c col hc

/-- Whatever the file, `load` into an empty table leaves no zero byte in a
name or a string. -/
theorem plain_of_load {fileName : String} {file : Option Bytes} {t : ClickTable}
    (h : ClickTable.load {} fileName file = .returned t) : t.Plain := by
  cases file with
  | none => simp [ClickTable.load] at h
  | some bytes =>
      have hyields : LoadYields (loadBody bytes.length {}) ClickTable.Plain := by
        refine (yields_readInt _).bind fun key _ => ?_
        refine (yields_readInt _).bind fun mask _ => ?_
        refine Yields.bind (P := fun _ => True) ?_ fun _ _ => ?_
        · unfold assert1
          split
          · exact Yields.pure trivial
          · exact Yields.throw
        refine Yields.bind (P := fun _ => True) ?_ fun _ _ => ?_
        · unfold assert1
          split
          · exact Yields.pure trivial
          · exact Yields.throw
        refine (yields_readInt _).bind fun columnCount _ => ?_
        refine (yields_readInt _).bind fun rowCount _ => ?_
        have hempty : ClickTable.Plain {} := by
          intro c col hc
          simp at hc
        refine (Yields.iter (fun _ => yields_loadColumn) columnCount.toNat {} hempty).bind ?_
        exact fun t' ht' => Yields.pure ht'
      simp only [ClickTable.load] at h
      split at h
      · rename_i t' s' hload
        cases h
        exact (hyields _ _ _ Buffer.bounded_empty hload).2
      · cases h
      · cases h
      · cases h

/-- A file whose `try` block runs through is loaded. -/
theorem load_of_ok {t t' : ClickTable} {bytes : Bytes} {s' : Stream} (fileName : String)
    (h : loadBody bytes.length t { rest := bytes } = .ok t' s') :
    t.load fileName (some bytes) = .returned t' := by
  simp only [ClickTable.load, h]

theorem load_saved_of_plain {t : ClickTable} (ht : t.Aligned) (hfits : t.Fits) (hplain : t.Plain)
    (fileName : String) : ClickTable.load {} fileName (some t.saved) = .returned t := by
  obtain ⟨s', hload, -, -⟩ :=
    readsBack_loadBody ht hfits hplain { rest := t.saved } [] Buffer.sound_empty (by simp)
  exact load_of_ok fileName hload

/-! ## The round trip -/

/-- **The `.cdb` round trip.** An aligned table whose lengths and counts fit in
an `int` is read back as it was saved exactly when none of its names and
strings holds a zero byte or is `INT_MAX` bytes long. -/
theorem load_saved_iff {t : ClickTable} (ht : t.Aligned) (hfits : t.Fits) (fileName : String) :
    ClickTable.load {} fileName (some t.saved) = .returned t ↔ t.Plain :=
  ⟨fun h => plain_of_load h, fun hplain => load_saved_of_plain ht hfits hplain fileName⟩

/-! ### Two tables -/

/-- A fact about every column is a fact about the list of columns. -/
theorem forall_column_iff {t : ClickTable} {P : Bytes → ClickColumn → Prop} :
    (∀ (c : Bytes) (col : ClickColumn), t.m_tbl[c]? = some col → P c col)
      ↔ ∀ e ∈ t.m_tbl.toList, P e.1 e.2 :=
  ⟨fun h e he => h e.1 e.2 (Std.ExtTreeMap.mem_toList_iff_getElem?_eq_some.mp he),
    fun h c col hc => h (c, col) (Std.ExtTreeMap.mem_toList_iff_getElem?_eq_some.mpr hc)⟩

theorem fits_of_toList {t : ClickTable} {es : List (Bytes × ClickColumn)}
    (hes : t.m_tbl.toList = es) (hcolumns : FitsInt es.length) (hrows : FitsInt t.m_rowCount)
    (hcells : ∀ e ∈ es, FitsInt e.1.length ∧
      ∀ v ∈ e.2.data, v.Every (fun s => FitsInt s.length) FitsInt) : t.Fits where
  columns := by rwa [← Std.ExtTreeMap.length_toList, hes]
  rows := hrows
  names := forall_column_iff.mpr fun e he => (hcells e (hes ▸ he)).1
  cells := forall_column_iff.mpr fun e he => (hcells e (hes ▸ he)).2

/-- The table of one row that the line `{"k":[1,"x"]}` makes. -/
def plainTable : ClickTable :=
  ClickTable.run {} [.row [([107], .array [.uint 1, .str [120]])] true]

theorem toList_plainTable :
    plainTable.m_tbl.toList = [([107], ⟨[.array [.uint 1, .str [120]]]⟩)] := by decide

theorem fits_plainTable : plainTable.Fits :=
  fits_of_toList toList_plainTable (by simp [FitsInt, intMax])
    (by simp [plainTable, ClickTable.run, ClickTable.exec, FitsInt, intMax])
    (by simp [FitsInt, intMax, Value.Every, Value.Every.everyList])

theorem plain_plainTable : plainTable.Plain := by
  unfold ClickTable.Plain
  rw [forall_column_iff, toList_plainTable]
  simp [PlainString, intMax, Value.Every, Value.Every.everyList]

/-- The table of a line without zero bytes comes back. -/
theorem load_saved_plainTable :
    ClickTable.load {} "t.cdb" (some plainTable.saved) = .returned plainTable :=
  (load_saved_iff (ClickTable.aligned_run ClickTable.aligned_empty _) fits_plainTable "t.cdb").mpr
    plain_plainTable

/-- The table of one row that the line `{"k":"a\u0000b"}` makes. -/
def zeroByteTable : ClickTable := ClickTable.run {} [.row [([107], .str [97, 0, 98])] true]

theorem toList_zeroByteTable :
    zeroByteTable.m_tbl.toList = [([107], ⟨[.str [97, 0, 98]]⟩)] := by decide

theorem fits_zeroByteTable : zeroByteTable.Fits :=
  fits_of_toList toList_zeroByteTable (by simp [FitsInt, intMax])
    (by simp [zeroByteTable, ClickTable.run, ClickTable.exec, FitsInt, intMax])
    (by simp [FitsInt, intMax])

/-- The columns of a loaded table. -/
def LoadResult.columns : LoadResult → List (Bytes × ClickColumn)
  | .returned t => t.m_tbl.toList
  | _ => []

/-- A string is cut at its zero byte: the loaded table holds `"a"` where the
saved one holds the three bytes of `"a\u0000b"`. -/
theorem zeroByteTable_not_restored :
    zeroByteTable.Aligned ∧ zeroByteTable.Fits ∧
    zeroByteTable.m_tbl.toList = [([107], ⟨[.str [97, 0, 98]]⟩)] ∧
    (ClickTable.load {} "t.cdb" (some zeroByteTable.saved)).columns
      = [([107], ⟨[.str [97]]⟩)] ∧
    ClickTable.load {} "t.cdb" (some zeroByteTable.saved) ≠ .returned zeroByteTable := by
  have hload : (ClickTable.load {} "t.cdb" (some zeroByteTable.saved)).columns
      = [([107], ⟨[.str [97]]⟩)] := by decide +kernel
  refine ⟨ClickTable.aligned_run ClickTable.aligned_empty _, fits_zeroByteTable,
    toList_zeroByteTable, hload, fun heq => ?_⟩
  rw [heq, LoadResult.columns, toList_zeroByteTable] at hload
  simp at hload

/-- Two column names that agree up to a zero byte become one column, whose
cells are those of both. -/
example : (ClickTable.load {} "t.cdb" (some (ClickTable.run {}
      [.row [([107], .null), ([107, 0], .bool true)] true]).saved)).columns
    = [([107], ⟨[.null, .bool true]⟩)] := by decide +kernel

end FlexEtl
