/-
FlexEtl.Json.FileNames — the names that `dump` gives its files.

A name is the time and, behind an underscore, a counter. `Stamp` is that pair
before it is printed: a plain name has the counter zero. The state of the node
is itself a stamp, the one of the last save, and a save moves it forward in the
order of `Stamp.Before` (`stamp_dump`). The first call of `dump`, which only
notes the time, moves it forward too. So no stamp comes twice, and two stamps
never print alike (`dumpName_injective`).
-/
import FlexEtl.Json.Json2ClickTheorems
import Mathlib.Data.List.Nodup

namespace FlexEtl

/-! ## Printing -/

/-- The decimal digits of a number tell it. -/
theorem toString_injective {m n : Nat} (h : toString m = toString n) : m = n := by
  have hdigits : Nat.toDigits 10 m = Nat.toDigits 10 n := by
    rw [← Nat.toList_repr, ← Nat.toList_repr]
    exact congrArg String.toList h
  have hvalue := congrArg (fun ds => Nat.ofDigitChars 10 ds 0) hdigits
  simpa [Nat.ofDigitChars_toDigits] using hvalue

namespace Json2Click

/-- What the name of a file is made of: a time, and a counter, which a plain name does
not show. -/
structure Stamp where
  time : Int
  counter : Nat
  deriving DecidableEq, Repr

namespace Stamp

/-- The part of the name behind the time. -/
def suffix (s : Stamp) : String := if s.counter = 0 then "" else "_" ++ toString s.counter

/-- The name of the file. -/
def fileName (cfg : Config) (s : Stamp) : String :=
  cfg.m_outputDir ++ "/" ++ (cfg.strftime s.time ++ s.suffix) ++ ".cdb"

/-- The order in which stamps are given. -/
def Before (s s' : Stamp) : Prop :=
  s.time < s'.time ∨ (s.time = s'.time ∧ s.counter < s'.counter)

theorem Before.trans {s s' s'' : Stamp} (h : s.Before s') (h' : s'.Before s'') :
    s.Before s'' := by
  rcases h with hlt | ⟨hsame, hless⟩
  · rcases h' with hlt' | ⟨hsame', -⟩
    · exact .inl (Int.lt_trans hlt hlt')
    · exact .inl (lt_of_lt_of_eq hlt hsame')
  · rcases h' with hlt' | ⟨hsame', hless'⟩
    · exact .inl (lt_of_eq_of_lt hsame hlt')
    · exact .inr ⟨hsame.trans hsame', Nat.lt_trans hless hless'⟩

theorem Before.ne {s s' : Stamp} (h : s.Before s') : s ≠ s' := by
  rintro rfl
  rcases h with h | ⟨-, h⟩
  · exact absurd h (Int.lt_irrefl _)
  · exact absurd h (Nat.lt_irrefl _)

/-- The counter is all that follows the first underscore. -/
theorem suffix_injective {s s' : Stamp} (h : s.suffix = s'.suffix) : s.counter = s'.counter := by
  unfold suffix at h
  by_cases hs : s.counter = 0
  · by_cases hs' : s'.counter = 0
    · rw [hs, hs']
    · rw [if_pos hs, if_neg hs'] at h
      have hchars := congrArg String.toList h
      simp at hchars
  · by_cases hs' : s'.counter = 0
    · rw [if_neg hs, if_pos hs'] at h
      have hchars := congrArg String.toList h
      simp at hchars
    · rw [if_neg hs, if_neg hs'] at h
      exact toString_injective ((String.append_right_inj "_").mp h)

/-- A suffix is empty or starts with an underscore. -/
theorem takeWhile_suffix (s : Stamp) : s.suffix.toList.takeWhile (· ≠ '_') = [] := by
  unfold suffix
  split
  · rfl
  · simp

/-- Different stamps have different names, where `strftime` tells the times apart and
prints no underscore. -/
theorem fileName_injective {cfg : Config} {s s' : Stamp}
    (htime : cfg.strftime s.time = cfg.strftime s'.time → s.time = s'.time)
    (hs : '_' ∉ (cfg.strftime s.time).toList) (hs' : '_' ∉ (cfg.strftime s'.time).toList)
    (h : s.fileName cfg = s'.fileName cfg) : s = s' := by
  have htext : cfg.strftime s.time ++ s.suffix = cfg.strftime s'.time ++ s'.suffix :=
    (String.append_right_inj _).mp ((String.append_left_inj _).mp h)
  have hprefix : ∀ t : Stamp, '_' ∉ (cfg.strftime t.time).toList →
      (cfg.strftime t.time ++ t.suffix).toList.takeWhile (· ≠ '_') =
        (cfg.strftime t.time).toList := by
    intro t ht
    rw [String.toList_append, List.takeWhile_append_of_pos, takeWhile_suffix, List.append_nil]
    intro c hc
    have hne : c ≠ '_' := fun heq => ht (heq ▸ hc)
    simpa using hne
  have hsame : cfg.strftime s.time = cfg.strftime s'.time := by
    apply String.toList_injective
    rw [← hprefix s hs, ← hprefix s' hs', htext]
  have hsuffix : s.suffix = s'.suffix := by
    rw [hsame] at htext
    exact (String.append_right_inj _).mp htext
  obtain ⟨time, counter⟩ := s
  obtain ⟨time', counter'⟩ := s'
  obtain rfl : time = time' := htime hsame
  obtain rfl : counter = counter' := suffix_injective hsuffix
  rfl

end Stamp

/-- The stamp of the last save, or of the first call. -/
def stamp (st : Json2Click) : Stamp := ⟨st.m_saveTime, st.m_saveCounter.toNat⟩

/-- What a dump does to the stamp: nothing; or, while there is no time yet, note the
time; or take the next one and give the file its name. -/
theorem stamp_dump (cfg : Config) (bForced : Bool) (env : DumpEnv) {st : Json2Click}
    (hcounter : 0 ≤ st.m_saveCounter) :
    (∃ st', st.dump cfg bForced env = (st', none) ∧ st'.m_saveCounter = st.m_saveCounter ∧
      (st'.m_saveTime = st.m_saveTime ∨
        (st.m_table.rowCount ≠ 0 ∧ st.m_saveTime = 0 ∧ st'.m_saveTime = env.now))) ∨
    (∃ st' call, st.dump cfg bForced env = (st', some call) ∧ st.m_table.rowCount ≠ 0 ∧
      call.fileName = st'.stamp.fileName cfg ∧ st'.m_saveTime = env.now ∧
      st'.m_saveCounter = if env.now = st.m_saveTime then st.m_saveCounter + 1 else 0) := by
  unfold dump
  split
  · exact .inl ⟨st, rfl, rfl, .inl rfl⟩
  · rename_i hrows
    have hrows' : st.m_table.rowCount ≠ 0 := fun h => hrows h.symm
    split
    · rename_i hfirst
      have hzero : st.m_saveTime = 0 := by
        rw [Bool.and_eq_true, beq_iff_eq] at hfirst
        exact hfirst.2
      exact .inl ⟨{ st with m_saveTime := env.now }, rfl, rfl, .inr ⟨hrows', hzero, rfl⟩⟩
    · split
      · exact .inl ⟨st, rfl, rfl, .inl rfl⟩
      · refine .inr ⟨_, _, rfl, hrows', ?_, rfl, rfl⟩
        -- the counter that is printed is the one that is kept
        unfold dumpName Stamp.fileName Stamp.suffix stamp
        dsimp only
        by_cases hnow : env.now = st.m_saveTime
        · have hpos : 0 < st.m_saveCounter + 1 := by omega
          obtain ⟨n, hn⟩ := Int.eq_ofNat_of_zero_le hcounter
          have hsucc : st.m_saveCounter + 1 = ((n + 1 : Nat) : Int) := by omega
          have htext : cfg.strftime env.now ++ "_" ++ toString ((n + 1 : Nat) : Int) =
              cfg.strftime env.now ++ ("_" ++ toString (n + 1)) := String.append_assoc
          rw [if_pos ⟨hnow, hpos⟩, if_pos hnow, hsucc, Int.toNat_natCast,
            if_neg (Nat.succ_ne_zero n), htext]
        · rw [if_neg fun h => hnow h.1, if_neg hnow, Int.toNat_zero, if_pos rfl,
            String.append_empty]

/-! ## The names of a run -/

/-- The names given so far, and the state, are those of stamps that were given in order.
The times of the stamps are among the readings of the clock. -/
def Given (cfg : Config) (times : List Int) (st : Json2Click) (names : List String) : Prop :=
  0 ≤ st.m_saveCounter ∧ ∃ stamps : List Stamp,
    names = stamps.map (Stamp.fileName cfg) ∧ stamps.Pairwise Stamp.Before ∧
    (∀ s ∈ stamps, s.time ∈ times ∧ (s.Before st.stamp ∨ s = st.stamp)) ∧
    (stamps ≠ [] → st.m_saveTime ∈ times)

theorem given_init (cfg : Config) : Given cfg [] {} [] :=
  ⟨Int.le_refl 0, [], rfl, List.Pairwise.nil, by simp, fun h => absurd rfl h⟩

/-- Only the last time and the counter matter. -/
theorem Given.same {cfg : Config} {times : List Int} {st st' : Json2Click} {names : List String}
    (h : Given cfg times st names) (htime : st'.m_saveTime = st.m_saveTime)
    (hcounter : st'.m_saveCounter = st.m_saveCounter) : Given cfg times st' names := by
  unfold Given stamp at h ⊢
  rw [htime, hcounter]
  exact h

theorem Given.mono {cfg : Config} {times times' : List Int} {st : Json2Click}
    {names : List String} (h : Given cfg times st names) (hsub : times ⊆ times') :
    Given cfg times' st names := by
  obtain ⟨hcounter, stamps, hnames, horder, hstamps, htime⟩ := h
  exact ⟨hcounter, stamps, hnames, horder,
    fun s hs => ⟨hsub (hstamps s hs).1, (hstamps s hs).2⟩, fun hne => hsub (htime hne)⟩

/-- What comes after the last stamp comes after all. -/
theorem Stamp.before_of_last {s last next : Stamp} (h : s.Before last ∨ s = last)
    (hnext : last.Before next) : s.Before next := by
  rcases h with hbefore | rfl
  · exact hbefore.trans hnext
  · exact hnext

/-- The time moves forward, and the counter stays. -/
theorem Stamp.before_or_eq_of_le {s : Stamp} {time time' : Int} {counter : Nat}
    (h : s.Before ⟨time, counter⟩ ∨ s = ⟨time, counter⟩) (hle : time ≤ time') :
    s.Before ⟨time', counter⟩ ∨ s = ⟨time', counter⟩ := by
  rcases Int.lt_or_eq_of_le hle with hlt | rfl
  · exact .inl (before_of_last h (.inl hlt))
  · exact h

/-- A dump goes on with the stamps. -/
theorem given_dump {cfg : Config} {times : List Int} {st : Json2Click} {names : List String}
    (h : Given cfg times st names) (bForced : Bool) (env : DumpEnv)
    (hclock : st.m_table.rowCount ≠ 0 → ∀ r ∈ times, r ≤ env.now) :
    Given cfg (times ++ if st.m_table.rowCount = 0 then [] else [env.now])
      (st.dump cfg bForced env).1
      (names ++ (st.dump cfg bForced env).2.toList.map (·.fileName)) := by
  obtain ⟨st', hdump, hcounter, htime⟩ | ⟨st', call, hdump, hrows, hname, htime, hcounter⟩ :=
    stamp_dump cfg bForced env h.1
  · rw [hdump, Option.toList_none, List.map_nil, List.append_nil]
    rcases htime with htime | ⟨hrows, -, htime⟩
    · exact (h.mono (List.subset_append_left _ _)).same htime hcounter
    · obtain ⟨hpos, stamps, hnames, horder, hstamps, hlast⟩ := h
      refine ⟨hcounter ▸ hpos, stamps, hnames, horder, fun s hs => ?_, fun _ => ?_⟩
      · have hle := hclock hrows _ (hlast (List.ne_nil_of_mem hs))
        refine ⟨List.mem_append_left _ (hstamps s hs).1, ?_⟩
        unfold stamp
        rw [hcounter, htime]
        exact Stamp.before_or_eq_of_le (hstamps s hs).2 hle
      · rw [htime, if_neg hrows]
        exact List.mem_append_right _ List.mem_cons_self
  · obtain ⟨hpos, stamps, hnames, horder, hstamps, hlast⟩ := h
    have hnow : env.now ∈ times ++ if st.m_table.rowCount = 0 then [] else [env.now] := by
      rw [if_neg hrows]
      exact List.mem_append_right _ List.mem_cons_self
    have hnext : ∀ s ∈ stamps, s.Before st'.stamp := by
      intro s hs
      have hle := hclock hrows _ (hlast (List.ne_nil_of_mem hs))
      refine Stamp.before_of_last (hstamps s hs).2 ?_
      rcases Int.lt_or_eq_of_le hle with hlt | heq
      · exact .inl (lt_of_lt_of_eq hlt htime.symm)
      · refine .inr ⟨heq.trans htime.symm, ?_⟩
        show st.m_saveCounter.toNat < st'.m_saveCounter.toNat
        rw [hcounter, if_pos heq.symm]
        omega
    rw [hdump]
    refine ⟨?_, stamps ++ [st'.stamp], ?_, ?_, ?_, fun _ => htime ▸ hnow⟩
    · rw [hcounter]
      split
      · omega
      · exact Int.le_refl 0
    · simp [hnames, hname]
    · refine List.pairwise_append.mpr ⟨horder, List.pairwise_singleton _ _, fun s hs s' hs' => ?_⟩
      obtain rfl := List.mem_singleton.mp hs'
      exact hnext s hs
    · intro s hs
      rcases List.mem_append.mp hs with hs | hs
      · exact ⟨List.mem_append_left _ (hstamps s hs).1, .inl (hnext s hs)⟩
      · obtain rfl := List.mem_singleton.mp hs
        refine ⟨?_, .inr rfl⟩
        unfold stamp
        rw [htime]
        exact hnow

/-- What is assumed of the clock and of `strftime`: the readings never go back, each has
a text of its own, and no text has an underscore. -/
structure Readable (cfg : Config) (times : List Int) : Prop where
  ordered : times.Pairwise (· ≤ ·)
  injective : ∀ a ∈ times, ∀ b ∈ times, cfg.strftime a = cfg.strftime b → a = b
  plain : ∀ a ∈ times, '_' ∉ (cfg.strftime a).toList

theorem Given.nodup {cfg : Config} {times : List Int} {st : Json2Click} {names : List String}
    (h : Given cfg times st names) (hread : Readable cfg times) : names.Nodup := by
  obtain ⟨-, stamps, rfl, horder, hstamps, -⟩ := h
  refine List.Nodup.map_on (fun s hs s' hs' hname => ?_) (horder.imp Stamp.Before.ne)
  have htime := (hstamps s hs).1
  have htime' := (hstamps s' hs').1
  exact Stamp.fileName_injective (hread.injective _ htime _ htime') (hread.plain _ htime)
    (hread.plain _ htime') hname

/-! ### Calls of `dump` -/

/-- A call of `dump`, and the table it finds. -/
structure DumpCall where
  table : ClickTable
  bForced : Bool
  env : DumpEnv

/-- One more call, after the saves so far. -/
def dumpNext (cfg : Config) (run : Json2Click × List SaveCall) (c : DumpCall) :
    Json2Click × List SaveCall :=
  match ({ run.1 with m_table := c.table } : Json2Click).dump cfg c.bForced c.env with
  | (st, call) => (st, run.2 ++ call.toList)

/-- The calls of a run, from a fresh node on, and their saves. -/
def dumpRun (cfg : Config) (calls : List DumpCall) : Json2Click × List SaveCall :=
  calls.foldl (dumpNext cfg) ({}, [])

/-- The clock is read where the table is not empty. -/
def readings (calls : List DumpCall) : List Int :=
  calls.flatMap fun c => if c.table.rowCount = 0 then [] else [c.env.now]

theorem given_dumpRun (cfg : Config) (calls : List DumpCall)
    (hordered : (readings calls).Pairwise (· ≤ ·)) :
    Given cfg (readings calls) (dumpRun cfg calls).1
      ((dumpRun cfg calls).2.map (·.fileName)) := by
  induction calls using List.reverseRecOn with
  | nil => exact given_init cfg
  | append_singleton calls c ih =>
      have happend : readings (calls ++ [c]) =
          readings calls ++ if c.table.rowCount = 0 then [] else [c.env.now] := by
        simp [readings]
      rw [happend, List.pairwise_append] at hordered
      have hsofar : Given cfg (readings calls)
          { (dumpRun cfg calls).1 with m_table := c.table }
          ((dumpRun cfg calls).2.map (·.fileName)) := (ih hordered.1).same rfl rfl
      have hnext := given_dump hsofar c.bForced c.env fun hrows r hr =>
        hordered.2.2 r hr c.env.now (by rw [if_neg hrows]; exact List.mem_cons_self)
      rw [happend, dumpRun, List.foldl_append, List.foldl_cons, List.foldl_nil, ← dumpRun,
        dumpNext, List.map_append]
      exact hnext

end Json2Click

/-! ### The worker -/

namespace Worker

open Json2Click (Config Given Readable)

/-- The names given to `save`. -/
def names (w : Worker) : List String := w.saves.map (·.fileName)

/-- When the lines of a file are dumped. -/
def lineTimes (cfg : Config) (lines : List LineInput) : List Int :=
  if cfg.m_blockSize ≠ 0 then lines.map (·.dump.now) else []

/-- When the worker calls `dump` at the end of a round. -/
def delayTimes (cfg : Config) (env : DumpEnv) : List Int :=
  if cfg.m_delay ≠ 0 then [env.now] else []

/-- When the worker calls `dump` in a round. -/
def tickTimes (cfg : Config) (t : Tick) : List Int :=
  match t.dequeued with
  | none => delayTimes cfg t.dump
  | some inp =>
      if inp.fileName.empty then delayTimes cfg t.dump
      else
        match inp.content with
        | none => []
        | some lines => lineTimes cfg lines ++ delayTimes cfg t.dump

/-- When the worker calls `dump` in a run. -/
def clock (cfg : Config) (ticks : List Tick) (exit : DumpEnv) : List Int :=
  ticks.flatMap (tickTimes cfg) ++ [exit.now]

theorem given_dump {cfg : Config} {times : List Int} {w : Worker}
    (h : Given cfg times w.node w.names) (bForced : Bool) (env : DumpEnv)
    (hordered : (times ++ [env.now]).Pairwise (· ≤ ·)) :
    Given cfg (times ++ [env.now]) (w.dump cfg bForced env).node
      (w.dump cfg bForced env).names := by
  have hclock : ∀ r ∈ times, r ≤ env.now := fun r hr =>
    (List.pairwise_append.mp hordered).2.2 r hr env.now List.mem_cons_self
  have hdump := Json2Click.given_dump h bForced env fun _ => hclock
  have hsub : (times ++ if w.node.m_table.rowCount = 0 then [] else [env.now]) ⊆
      times ++ [env.now] := by
    split
    · rw [List.append_nil]
      exact List.subset_append_left _ _
    · exact List.Subset.refl _
  unfold dump names
  rcases hcall : w.node.dump cfg bForced env with ⟨node, _ | call⟩
  · rw [hcall] at hdump
    simpa [names] using hdump.mono hsub
  · rw [hcall] at hdump
    simpa [names] using hdump.mono hsub

theorem given_readLine {cfg : Config} (file : Nat) {times : List Int} {w : Worker}
    (h : Given cfg times w.node w.names) (f : FileState) (l : LineInput)
    (hordered : (times ++ lineTimes cfg [l]).Pairwise (· ≤ ·)) :
    Given cfg (times ++ lineTimes cfg [l]) (readLine cfg file (w, f) l).1.node
      (readLine cfg file (w, f) l).1.names := by
  have hparse : (w.node.parseLine l.stream).1.m_saveTime = w.node.m_saveTime ∧
      (w.node.parseLine l.stream).1.m_saveCounter = w.node.m_saveCounter := by
    unfold Json2Click.parseLine
    rcases parse w.node.m_table l.stream with ⟨_ | _ | _, table⟩
    · exact ⟨rfl, rfl⟩
    · exact ⟨rfl, rfl⟩
    · exact ⟨rfl, rfl⟩
  have hline : Given cfg times (w.node.parseLine l.stream).1 w.names :=
    h.same hparse.1 hparse.2
  unfold lineTimes at hordered ⊢
  unfold readLine
  dsimp only
  split
  · rename_i hmode
    rw [if_pos hmode] at hordered
    exact given_dump hline false l.dump hordered
  · rw [List.append_nil]
    exact hline

theorem given_readLines {cfg : Config} (file : Nat) (lines : List LineInput) :
    ∀ {times : List Int} {w : Worker} (f : FileState), Given cfg times w.node w.names →
      (times ++ lineTimes cfg lines).Pairwise (· ≤ ·) →
      Given cfg (times ++ lineTimes cfg lines) (lines.foldl (readLine cfg file) (w, f)).1.node
        (lines.foldl (readLine cfg file) (w, f)).1.names := by
  induction lines with
  | nil =>
      intro times w f h _
      exact h.mono (List.subset_append_left _ _)
  | cons l lines ih =>
      intro times w f h hordered
      have hsplit : lineTimes cfg (l :: lines) = lineTimes cfg [l] ++ lineTimes cfg lines := by
        unfold lineTimes
        split
        · rfl
        · rfl
      rw [hsplit, ← List.append_assoc] at hordered ⊢
      have hl := given_readLine file h f l (List.pairwise_append.mp hordered).1
      exact ih (readLine cfg file (w, f) l).2 hl hordered

/-- Between the dumps nothing touches the time, the counter or the saves. -/
theorem given_procFile {cfg : Config} (hmode : cfg.m_delay ≠ 0 ∨ cfg.m_blockSize ≠ 0)
    (file : Nat) (inp : FileInput) (lines : List LineInput) {times : List Int} {w : Worker}
    (h : Given cfg times w.node w.names)
    (hordered : (times ++ lineTimes cfg lines).Pairwise (· ≤ ·)) :
    Given cfg (times ++ lineTimes cfg lines) (w.procFile cfg file inp lines).node
      (w.procFile cfg file inp lines).names := by
  have hlines := given_readLines file lines {} h hordered
  have hmode' : ¬ (cfg.m_delay = 0 ∧ cfg.m_blockSize = 0) := fun hz =>
    hmode.elim (fun h => h hz.1) (fun h => h hz.2)
  have hcount : ∀ (w : Worker) (f : FileState),
      (w.countFile cfg f).node.m_saveTime = w.node.m_saveTime ∧
      (w.countFile cfg f).node.m_saveCounter = w.node.m_saveCounter ∧
      (w.countFile cfg f).names = w.names := by
    intro w f
    unfold countFile
    split
    · exact ⟨rfl, rfl, rfl⟩
    · exact ⟨rfl, rfl, rfl⟩
  have hmove : ∀ (w : Worker) (bOk : Bool),
      (w.moveFile cfg file inp bOk).node.m_saveTime = w.node.m_saveTime ∧
      (w.moveFile cfg file inp bOk).node.m_saveCounter = w.node.m_saveCounter ∧
      (w.moveFile cfg file inp bOk).names = w.names := by
    intro w bOk
    unfold moveFile
    dsimp only
    split
    · exact ⟨rfl, rfl, rfl⟩
    · exact ⟨rfl, rfl, rfl⟩
  unfold procFile saveFile
  dsimp only
  rw [if_neg hmode']
  obtain ⟨htime, hcounter, hnames⟩ := hmove
    ((lines.foldl (readLine cfg file) (w, {})).1.countFile cfg
      (lines.foldl (readLine cfg file) (w, {})).2)
    (lines.foldl (readLine cfg file) (w, {})).2.bOk
  obtain ⟨htime', hcounter', hnames'⟩ := hcount (lines.foldl (readLine cfg file) (w, {})).1
    (lines.foldl (readLine cfg file) (w, {})).2
  rw [hnames, hnames']
  exact hlines.same (htime.trans htime') (hcounter.trans hcounter')

theorem given_dumpDelay {cfg : Config} {times : List Int} {w : Worker}
    (h : Given cfg times w.node w.names) (env : DumpEnv)
    (hordered : (times ++ delayTimes cfg env).Pairwise (· ≤ ·)) :
    Given cfg (times ++ delayTimes cfg env) (w.dumpDelay cfg env).node
      (w.dumpDelay cfg env).names := by
  unfold delayTimes at hordered ⊢
  unfold dumpDelay
  split
  · rename_i hmode
    rw [if_pos hmode] at hordered
    exact given_dump h false env hordered
  · rw [List.append_nil]
    exact h

theorem given_tick {cfg : Config} (hmode : cfg.m_delay ≠ 0 ∨ cfg.m_blockSize ≠ 0) (file : Nat)
    (t : Tick) {times : List Int} {w : Worker} (h : Given cfg times w.node w.names)
    (hordered : (times ++ tickTimes cfg t).Pairwise (· ≤ ·)) :
    Given cfg (times ++ tickTimes cfg t) (w.tick cfg file t).node (w.tick cfg file t).names := by
  unfold tickTimes at hordered ⊢
  unfold tick
  cases hdequeued : t.dequeued with
  | none =>
      rw [hdequeued] at hordered
      exact given_dumpDelay h t.dump hordered
  | some inp =>
      rw [hdequeued] at hordered
      dsimp only at hordered ⊢
      split
      · rename_i hempty
        rw [if_pos hempty] at hordered
        exact given_dumpDelay h t.dump hordered
      · rename_i hempty
        rw [if_neg hempty] at hordered
        cases hcontent : inp.content with
        | none =>
            dsimp only
            rw [List.append_nil]
            exact h
        | some lines =>
            rw [hcontent] at hordered
            dsimp only at hordered ⊢
            rw [← List.append_assoc] at hordered ⊢
            exact given_dumpDelay (given_procFile hmode file inp lines h
              (List.pairwise_append.mp hordered).1) t.dump hordered

theorem given_rounds {cfg : Config} (hmode : cfg.m_delay ≠ 0 ∨ cfg.m_blockSize ≠ 0)
    (ticks : List Tick) : ∀ (file : Nat) {times : List Int} {w : Worker},
      Given cfg times w.node w.names →
      (times ++ ticks.flatMap (tickTimes cfg)).Pairwise (· ≤ ·) →
      Given cfg (times ++ ticks.flatMap (tickTimes cfg)) (w.rounds cfg file ticks).node
        (w.rounds cfg file ticks).names := by
  induction ticks with
  | nil =>
      intro file times w h _
      exact h.mono (List.subset_append_left _ _)
  | cons t ticks ih =>
      intro file times w h hordered
      rw [List.flatMap_cons, ← List.append_assoc] at hordered ⊢
      exact ih (file + 1) (given_tick hmode file t h (List.pairwise_append.mp hordered).1) hordered

theorem given_lifeProc {cfg : Config} (hmode : cfg.m_delay ≠ 0 ∨ cfg.m_blockSize ≠ 0)
    (ticks : List Tick) (exit : DumpEnv)
    (hordered : (clock cfg ticks exit).Pairwise (· ≤ ·)) :
    Given cfg (clock cfg ticks exit) (lifeProc cfg ticks exit {}).node
      (lifeProc cfg ticks exit {}).names := by
  have hrounds := given_rounds hmode ticks 0 (w := {}) (Json2Click.given_init cfg)
    (List.pairwise_append.mp hordered).1
  unfold lifeProc
  dsimp only
  rw [if_pos hmode]
  exact given_dump hrounds true exit hordered

end Worker

namespace Json2Click

/-- **File names never repeat.** In every sequence of dumps, forced or not, of whatever
tables, and so in every run of the worker with a delay or a block size: the names given
to `save` are pairwise distinct. -/
theorem dump_fileNames (cfg : Config) :
    (∀ calls : List DumpCall, Readable cfg (readings calls) →
      ((dumpRun cfg calls).2.map (·.fileName)).Nodup) ∧
    (∀ (ticks : List Tick) (exit : DumpEnv), cfg.m_delay ≠ 0 ∨ cfg.m_blockSize ≠ 0 →
      Readable cfg (Worker.clock cfg ticks exit) →
      ((Worker.lifeProc cfg ticks exit {}).saves.map (·.fileName)).Nodup) :=
  ⟨fun calls hread => (given_dumpRun cfg calls hread.ordered).nodup hread,
    fun ticks exit hmode hread =>
      (Worker.given_lifeProc hmode ticks exit hread.ordered).nodup hread⟩

/-- The texts of two seconds in the format `%Y%m%d%H%M%S`, in UTC. -/
def secondsConfig : Config :=
  { m_outputDir := "output", m_failedDir := "failed", m_blockSize := 1,
    strftime := fun t => if t = 7 then "19700101000007" else "19700101000008" }

/-- The table of a line. -/
def oneRow : ClickTable := ClickTable.run {} [.row [([97], .bool true)] true]

/-- Three dumps in one second, the first of which only notes the time, and one in the
next. -/
def fourDumps : List DumpCall :=
  [⟨oneRow, false, ⟨7, true⟩⟩, ⟨oneRow, false, ⟨7, true⟩⟩, ⟨oneRow, true, ⟨7, false⟩⟩,
    ⟨oneRow, false, ⟨8, true⟩⟩]

theorem readable_seconds {times : List Int} (hordered : times.Pairwise (· ≤ ·))
    (htimes : ∀ t ∈ times, t = 7 ∨ t = 8) : Readable secondsConfig times where
  ordered := hordered
  injective a ha b hb h := by
    rcases htimes a ha with rfl | rfl
    · rcases htimes b hb with rfl | rfl
      · rfl
      · exact absurd h (by decide)
    · rcases htimes b hb with rfl | rfl
      · exact absurd h (by decide)
      · rfl
  plain a ha := by
    rcases htimes a ha with rfl | rfl
    · decide
    · decide

/-- A file of three lines that are read within two seconds. -/
def threeLines : Tick :=
  { dequeued := some
      { fileName := { dir := "watch", filename := "a.json" }
        content := some ([7, 7, 8].map fun now =>
          { stream := (Json.object [([97], .scalar (.bool true))]).stream, length := 11,
            dump := { now } }) }
    dump := { now := 8 } }

/-- Four dumps, and a run that reads three lines and stops. -/
theorem dump_fileNames_seconds :
    ((dumpRun secondsConfig fourDumps).2.map (·.fileName)).Nodup ∧
      ((Worker.lifeProc secondsConfig [threeLines] ⟨8, true⟩ {}).saves.map
        (·.fileName)).Nodup := by
  obtain ⟨hcalls, hruns⟩ := dump_fileNames secondsConfig
  refine ⟨hcalls fourDumps (readable_seconds (by decide) (by decide)), ?_⟩
  exact hruns [threeLines] ⟨8, true⟩ (.inr (by decide))
    (readable_seconds (by decide) (by decide))

end Json2Click

end FlexEtl
