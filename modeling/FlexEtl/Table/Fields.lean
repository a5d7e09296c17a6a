/-
FlexEtl.Table.Fields — the fields of a `.cdb` file, on arbitrary bytes.

An integer and a word are read or are cut short. A name or a string is a length
and so many bytes, and its length may be one that the buffer cannot take
(`Overruns`): `readChars` is undefined exactly there (`describes_readChars`).
-/
import FlexEtl.Table.CdbTheorems
import FlexEtl.Lib.Language

namespace FlexEtl

open Decoder

/-! ## Items -/

/-- The range of an `int`. -/
def InInt (i : Int) : Prop := -2 ^ 31 ≤ i ∧ i ≤ intMax

/-- A length before which reading the characters is undefined, when the buffer has `room`
bytes and `left` bytes follow: `INT_MAX` cannot be incremented; below `-1` the allocation
fails, and at `-1` none is made, and in both cases all that is left is read. -/
def Overruns (room : Nat) (n : Int) (left : Nat) : Prop :=
  n = intMax ∨ (n < -1 ∧ 0 < left) ∨ (n = -1 ∧ room < left)

instance (room : Nat) (n : Int) (left : Nat) : Decidable (Overruns room n left) :=
  inferInstanceAs (Decidable (_ ∨ _))

/-- A kind of item that is read without a buffer. -/
def plainItems {γ : Type} (Valid : γ → Prop) (text : γ → Bytes) : Items UInt8 γ where
  Valid := Valid
  text := text
  room _ := 0
  Fault _ _ := False

/-- `n` bytes. -/
def byteItems (n : Nat) : Items UInt8 Bytes := plainItems (fun bs => bs.length = n) id

def intItems : Items UInt8 Int := plainItems InInt intBytes

def wordItems : Items UInt8 UInt64 :=
  plainItems (fun _ => True) fun u => LittleEndian.bytes 8 u.toNat

/-- The characters of a name or a string of `n` bytes. -/
def contentItems (n : Int) : Items UInt8 Bytes where
  Valid bs := (bs.length : Int) = n ∧ n < intMax
  text := id
  room bs := bs.length + 1
  Fault inp mark := Overruns mark n inp.length

/-- A name or a string, with its length in front. -/
def charsItems : Items UInt8 Bytes where
  Valid bs := (bs.length : Int) < intMax
  text bs := intBytes bs.length ++ bs
  room bs := bs.length + 1
  Fault inp mark := ∃ n, InInt n ∧ ∃ rest, inp = intBytes n ++ rest ∧ Overruns mark n rest.length

/-- The loader's state: the buffer owns what it says, and no more than an `int` counts. -/
def loadView : View Fault Stream UInt8 where
  input := Stream.rest
  mark s := s.buffer.block
  Inv s := s.buffer.Sound ∧ (s.buffer.block : Int) ≤ intMax
  Thrown f := ∃ what, f = .thrown what
  Undefined f := ∃ what, f = .undefined what

/-- What `p` does on at most `n` bytes. -/
abbrev Loads {α : Type} (n : Nat) (p : LoadM α) (L : Language UInt8 α) : Prop :=
  Describes loadView n p L

section Fields

variable {n : Nat}

/-! ## Integers and words -/

theorem freadExact_eq (m : Nat) (message : String) (s : Stream) :
    freadExact m message s =
      if (s.rest.take m).length = m then
        .ok (s.rest.take m) { s with rest := s.rest.drop m }
      else .error (.thrown message) { s with rest := s.rest.drop m } := by
  simp only [freadExact, bind, EStateM.bind, fread, assert1]
  by_cases h : (s.rest.take m).length = m
  · rw [if_pos (beq_iff_eq.mpr h), if_pos h]
    rfl
  · rw [if_neg (fun heq => h (beq_iff_eq.mp heq)), if_neg h]
    rfl

theorem describes_freadExact (m : Nat) (message : String) :
    Loads n (freadExact m message) ((byteItems m).one id) where
  ok {s s' bs} _ _ hrun := by
    rw [freadExact_eq] at hrun
    split at hrun
    · rename_i hlen
      cases hrun
      exact ⟨s.rest.take m, 0, ⟨_, hlen, rfl, rfl, rfl⟩, (List.take_append_drop m s.rest).symm⟩
    · cases hrun
  error {s s' e} _ _ hrun := by
    rw [freadExact_eq] at hrun
    split at hrun
    · cases hrun
    · cases hrun
      exact .inl ⟨message, rfl⟩
  accepts {s enc rest bs r} hs _ hinput hacc := by
    obtain ⟨_, hlen, rfl, rfl, rfl⟩ := hacc
    change s.rest = bs ++ rest at hinput
    change bs.length = m at hlen
    have htake : s.rest.take m = bs := by rw [hinput, List.take_left' hlen]
    have hdrop : s.rest.drop m = rest := by rw [hinput, List.drop_left' hlen]
    refine ⟨{ s with rest := rest }, ?_, hs, rfl, (Nat.max_zero _).symm⟩
    rw [freadExact_eq, htake, hdrop, if_pos hlen]
  faults _ _ hfault := hfault.elim

theorem describes_readInt (message : String) :
    Loads n (readInt message) (intItems.one id) := by
  refine ((describes_freadExact 4 message).map LittleEndian.toInt).congr
    ⟨fun enc i r => ?_, fun _ _ => Iff.rfl⟩
  constructor
  · rintro ⟨bs, hlen, rfl, rfl, rfl⟩
    change enc.length = 4 at hlen
    refine ⟨LittleEndian.toInt enc, toInt_range hlen, ?_, rfl, rfl⟩
    have himage := LittleEndian.ofInt_toInt enc
    rw [hlen] at himage
    exact himage.symm
  · rintro ⟨i, hi, rfl, rfl, rfl⟩
    exact ⟨intBytes i, LittleEndian.length_ofInt 4 i, rfl, (toInt_intBytes hi.1 hi.2).symm, rfl⟩

theorem describes_readWord (message : String) :
    Loads n (readWord message) (wordItems.one id) := by
  refine ((describes_freadExact 8 message).map fun bs =>
    UInt64.ofNat (LittleEndian.toNat bs)).congr ⟨fun enc u r => ?_, fun _ _ => Iff.rfl⟩
  constructor
  · rintro ⟨bs, hlen, rfl, rfl, rfl⟩
    change enc.length = 8 at hlen
    refine ⟨UInt64.ofNat (LittleEndian.toNat enc), trivial, ?_, rfl, rfl⟩
    have hlt := LittleEndian.toNat_lt enc
    have himage := LittleEndian.bytes_toNat enc
    rw [hlen] at hlt himage
    show enc = LittleEndian.bytes 8 (UInt64.ofNat (LittleEndian.toNat enc)).toNat
    rw [UInt64.toNat_ofNat_of_lt' hlt, himage]
  · rintro ⟨u, -, rfl, rfl, rfl⟩
    refine ⟨LittleEndian.bytes 8 u.toNat, LittleEndian.length_bytes 8 _, rfl, ?_, rfl⟩
    have hu : u.toNat < 256 ^ 8 := u.toNat_lt
    show u = UInt64.ofNat _
    rw [id, LittleEndian.toNat_bytes_of_lt hu, UInt64.ofNat_toNat]

/-! ## Names and strings -/

/-- The block after the buffer has been asked for a length that can be incremented. -/
theorem block_reserve {b : Buffer} (hb : b.Sound) (hroom : (b.block : Int) ≤ intMax) {size : Int}
    (hsize : InInt size) :
    (b.reserve (toSizeT (size + 1))).block =
      if size < -1 then 0 else max b.block (size + 1).toNat := by
  unfold Buffer.Sound at hb
  obtain ⟨hlow, hhigh⟩ := hsize
  simp only [intMax] at hroom hhigh
  unfold Buffer.reserve toSizeT maxAlloc
  split
  · split
    · omega
    · omega
  · dsimp only
    split
    · split
      · omega
      · omega
    · split
      · omega
      · omega

theorem sound_reserve {b : Buffer} (hb : b.Sound) {size : Int} (h0 : 0 ≤ size)
    (hmax : size < intMax) : (b.reserve (toSizeT (size + 1))).Sound := by
  have hcount : toSizeT (size + 1) = (size + 1).toNat := toSizeT_of_nonneg (by omega) (by omega)
  refine (Buffer.sound_reserve hb ?_).1
  simp only [intMax] at hmax
  unfold maxAlloc
  omega

/-- A length that is no `INT_MAX` and not negative: the characters are read, if there are
enough of them. -/
theorem readChars_nonneg {size : Int} (h0 : 0 ≤ size) (hmax : size < intMax) (message : String)
    {s : Stream} (hs : loadView.Inv s) :
    ∃ buffer : Buffer, buffer.Sound ∧ buffer.block = max s.buffer.block (size.toNat + 1) ∧
      readChars size message s =
        if (s.rest.take size.toNat).length = size.toNat then
          .ok (s.rest.take size.toNat) { rest := s.rest.drop size.toNat, buffer }
        else .error (.thrown message) { rest := s.rest.drop size.toNat, buffer } := by
  have hsize : InInt size := ⟨by omega, Int.le_of_lt hmax⟩
  have hblock := block_reserve hs.1 hs.2 hsize
  rw [if_neg (by omega), show (size + 1).toNat = size.toNat + 1 by omega] at hblock
  refine ⟨_, sound_reserve hs.1 h0 hmax, hblock, ?_⟩
  have hcount : toSizeT size = size.toNat := toSizeT_of_nonneg h0 (Int.le_of_lt hmax)
  have hlen := List.length_take_le size.toNat s.rest
  rw [readChars_eq (Int.ne_of_lt hmax)]
  dsimp only
  rw [hcount, if_neg (by omega)]
  by_cases h : (s.rest.take size.toNat).length = size.toNat
  · rw [if_neg (not_not.mpr h), if_neg (by omega), if_pos h]
  · rw [if_pos h, if_neg h]

/-- A negative length: all that is left goes past the end of the block, or there is too
little of it. -/
theorem readChars_neg {size : Int} (hsize : InInt size) (hneg : size < 0) (message : String)
    {s : Stream} (hs : loadView.Inv s) :
    ∃ f s', readChars size message s = .error f s' ∧
      if Overruns s.buffer.block size s.rest.length then loadView.Undefined f
      else loadView.Thrown f := by
  have hblock := block_reserve hs.1 hs.2 hsize
  have hroom := hs.2
  obtain ⟨hlow, -⟩ := hsize
  have hmax : size ≠ intMax := by simp only [intMax]; omega
  have hcount : (toSizeT size : Int) = 2 ^ 64 + size := by unfold toSizeT; omega
  have hlen : (s.rest.take (toSizeT size)).length = min (toSizeT size) s.rest.length :=
    List.length_take
  simp only [intMax] at hroom
  have hover : Overruns s.buffer.block size s.rest.length ↔
      (s.buffer.reserve (toSizeT (size + 1))).block < (s.rest.take (toSizeT size)).length := by
    unfold Overruns
    rw [hblock, hlen]
    split
    · omega
    · omega
  rw [readChars_eq hmax]
  dsimp only
  by_cases h : Overruns s.buffer.block size s.rest.length
  · rw [if_pos (hover.mp h)]
    exact ⟨_, _, rfl, by rw [if_pos h]; exact ⟨_, rfl⟩⟩
  · have hshort : (s.rest.take (toSizeT size)).length ≠ toSizeT size := by
      have hle := Nat.le_of_not_lt (fun hlt => h (hover.mpr hlt))
      rw [hblock] at hle
      split at hle
      · omega
      · omega
    rw [if_neg (fun hlt => h (hover.mpr hlt)), if_pos hshort]
    exact ⟨_, _, rfl, by rw [if_neg h]; exact ⟨_, rfl⟩⟩

theorem describes_readChars_neg {size : Int} (hsize : InInt size) (hneg : size < 0)
    (message : String) : Loads n (readChars size message) ((contentItems size).one id) := by
  have hrun := fun {s} => @readChars_neg size hsize hneg message s
  constructor
  case ok =>
    intro s s' bs hs _ hok
    obtain ⟨f, s'', herror, -⟩ := hrun hs
    rw [hok] at herror
    cases herror
  case error =>
    intro s s' e hs _ herr
    obtain ⟨f, s'', herror, hkind⟩ := hrun hs
    rw [herr] at herror
    cases herror
    split at hkind
    · rename_i hover
      exact .inr ⟨hkind, hover⟩
    · exact .inl hkind
  case accepts =>
    rintro s enc rest bs r _ _ _ ⟨_, ⟨hlen, -⟩, -⟩
    omega
  case faults =>
    intro s hs _ hover
    change Overruns s.buffer.block size s.rest.length at hover
    obtain ⟨f, s', herror, hkind⟩ := hrun hs
    exact ⟨f, s', herror, by rwa [if_pos hover] at hkind⟩

/-- At `INT_MAX` nothing is read: `size + 1` is no `int`. -/
theorem describes_readChars_intMax (message : String) :
    Loads n (readChars intMax message) ((contentItems intMax).one id) := by
  have hrun : ∀ s, readChars intMax message s =
      .error (.undefined "signed overflow in size + 1") s := by
    intro s
    unfold readChars reserveChars
    rw [if_pos rfl]
    rfl
  constructor
  case ok => intro s s' bs _ _ hok; rw [hrun] at hok; cases hok
  case error =>
    intro s s' e _ _ herr
    rw [hrun] at herr
    cases herr
    exact .inr ⟨⟨_, rfl⟩, .inl rfl⟩
  case accepts =>
    rintro s enc rest bs r _ _ _ ⟨_, ⟨-, hlt⟩, -⟩
    exact absurd hlt (lt_irrefl _)
  case faults => exact fun _ _ _ => ⟨_, _, hrun _, _, rfl⟩

theorem describes_readChars_nonneg {size : Int} (h0 : 0 ≤ size) (hlt : size < intMax)
    (message : String) : Loads n (readChars size message) ((contentItems size).one id) := by
  have hrun := fun {s} => @readChars_nonneg size h0 hlt message s
  constructor
  case ok =>
    intro s s' bs hs _ hok
    obtain ⟨buffer, -, -, heq⟩ := hrun hs
    rw [heq] at hok
    split at hok
    · rename_i hlen
      cases hok
      refine ⟨s.rest.take size.toNat, _, ⟨s.rest.take size.toNat, ⟨?_, hlt⟩, rfl, rfl, rfl⟩, ?_⟩
      · omega
      · exact (List.take_append_drop size.toNat s.rest).symm
    · cases hok
  case error =>
    intro s s' e hs _ herr
    obtain ⟨buffer, -, -, heq⟩ := hrun hs
    rw [heq] at herr
    split at herr
    · cases herr
    · cases herr
      exact .inl ⟨message, rfl⟩
  case accepts =>
    rintro s _ rest bs r hs _ hinput ⟨_, ⟨hlen, -⟩, rfl, rfl, rfl⟩
    obtain ⟨buffer, hsound, hblock, heq⟩ := hrun hs
    change s.rest = bs ++ rest at hinput
    have hnat : bs.length = size.toNat := by omega
    have htake : s.rest.take size.toNat = bs := by rw [hinput, List.take_left' hnat]
    have hdrop : s.rest.drop size.toNat = rest := by rw [hinput, List.drop_left' hnat]
    have hroom : (buffer.block : Int) ≤ intMax := by
      have := hs.2
      omega
    refine ⟨{ rest, buffer }, ?_, ⟨hsound, hroom⟩, rfl, ?_⟩
    · rw [heq, htake, hdrop, if_pos hnat]
    · show buffer.block = max s.buffer.block (bs.length + 1)
      rw [hblock, hnat]
  case faults =>
    intro s _ _ hover
    change Overruns s.buffer.block size s.rest.length at hover
    unfold Overruns at hover
    omega

/-- A call of `readChars` is undefined exactly at the lengths that overrun the buffer. -/
theorem describes_readChars {size : Int} (hsize : InInt size) (message : String) :
    Loads n (readChars size message) ((contentItems size).one id) := by
  rcases Int.lt_or_le size 0 with hneg | h0
  · exact describes_readChars_neg hsize hneg message
  · rcases lt_or_eq_of_le hsize.2 with hlt | rfl
    · exact describes_readChars_nonneg h0 hlt message
    · exact describes_readChars_intMax message

/-- Reading a name or a string, with its length. -/
theorem describes_chars (m₁ m₂ : String) :
    Loads n (do let size ← readInt m₁; readChars size m₂) (charsItems.one id) := by
  refine ((describes_readInt m₁).bind_zero fun i hi => describes_readChars hi m₂).congr
    ⟨fun enc bs r => ?_, fun inp mark => ?_⟩
  · constructor
    · rintro ⟨i, hi, _, _, ⟨bs, ⟨rfl, hlt⟩, rfl, rfl, rfl⟩, rfl, rfl⟩
      exact ⟨bs, hlt, rfl, rfl, Nat.zero_max _⟩
    · rintro ⟨bs, hlt, rfl, rfl, rfl⟩
      refine ⟨(bs.length : Int), ⟨by omega, Int.le_of_lt hlt⟩, _, _,
        ⟨bs, ⟨rfl, hlt⟩, rfl, rfl, rfl⟩, rfl, (Nat.zero_max _).symm⟩
  · constructor
    · rintro (hnot | ⟨i, hi, rest, rfl, hover⟩)
      · exact hnot.elim
      · exact ⟨i, hi, rest, rfl, by rwa [show intItems.room i = 0 from rfl, Nat.max_zero] at hover⟩
    · rintro ⟨i, hi, rest, rfl, hover⟩
      exact .inr ⟨i, hi, rest, rfl, by rwa [show intItems.room i = 0 from rfl, Nat.max_zero]⟩

end Fields

end FlexEtl
