/-
FlexEtl.Node.BackuperTheorems — which backups are kept.

Whatever a turn takes away had an extension that is registered, and more hours
than `m_cleanTime` (`Cleanable`). That is more than the days that were asked for, as
long as the hours of these days are an `int`. Where they are not they wrap, and
then files are removed too early, unless they wrap to more hours than any
duration has.
-/
import FlexEtl.Node.Backuper

namespace FlexEtl

/-! ## Directories -/

/-- What is left after a removal. -/
theorem Directories.mem_files_remove {dirs : Directories} {path name path' : Bytes} {e : DirEntry} :
    e ∈ (dirs.remove path name).files path' ↔
      e ∈ dirs.files path' ∧ ¬ (path' = path ∧ e.name = name) := by
  by_cases hpath : path' = path
  · subst hpath
    cases hdir : dirs path' with
    | none => simp [files, remove, hdir]
    | some dir => simp [files, remove, hdir, Directory.remove]
  · simp [files, remove, hpath]

/-- A name stands for one file. -/
theorem Directories.eq_of_name {dirs : Directories} {path : Bytes} {e e' : DirEntry}
    (h : e ∈ dirs.files path) (h' : e' ∈ dirs.files path) (hname : e.name = e'.name) : e = e' := by
  cases hdir : dirs path with
  | none => simp [files, hdir] at h
  | some dir =>
      simp only [files, hdir] at h h'
      exact List.inj_on_of_nodup_map dir.distinct h h' hname

/-! ## A turn -/

/-- The tests of the inner loop, for a file that it removes. -/
structure Cleanable (m_cleanTime : Int32) (exts : Std.ExtTreeSet Bytes compare) (curSysTime : Int64)
    (e : DirEntry) : Prop where
  file : e.isDirectory = false
  ext : extension e.name ∈ exts
  old : ∃ fileTime, e.lastWriteTime = some fileTime ∧
    m_cleanTime.toInt64 < hours (curSysTime - fileTime)

/-- Files have been taken away, and all of them with reason. -/
def TakenAway (P : Bytes → DirEntry → Prop) (dirs dirs' : Directories) : Prop :=
  ∀ path, (∀ e ∈ dirs'.files path, e ∈ dirs.files path) ∧
    ∀ e ∈ dirs.files path, e ∉ dirs'.files path → P path e

theorem TakenAway.refl (P : Bytes → DirEntry → Prop) (dirs : Directories) : TakenAway P dirs dirs :=
  fun _ => ⟨fun _ he => he, fun _ he hgone => absurd he hgone⟩

/-- To remove one more file that was there at the start. -/
theorem TakenAway.remove {P : Bytes → DirEntry → Prop} {dirs dirs' : Directories}
    (h : TakenAway P dirs dirs') {path : Bytes} {itr : DirEntry} (hitr : itr ∈ dirs.files path)
    (hP : P path itr) : TakenAway P dirs (dirs'.remove path itr.name) := by
  intro path'
  refine ⟨fun e he => (h path').1 e (Directories.mem_files_remove.mp he).1, ?_⟩
  intro e he hgone
  by_cases hbefore : e ∈ dirs'.files path'
  · -- it was there just before, so it is the file that has been removed
    have hsame : path' = path ∧ e.name = itr.name := by
      by_contra hother
      exact hgone (Directories.mem_files_remove.mpr ⟨hbefore, hother⟩)
    obtain ⟨rfl, hname⟩ := hsame
    rw [Directories.eq_of_name he hitr hname]
    exact hP
  · exact (h path').2 e he hbefore

namespace Backuper

variable {m_cleanTime : Int32} {curSysTime : Int64} {fails : Bytes → Bytes → Bool}

/-- The body of the inner loop leaves the directories, or it removes its file. -/
theorem cleanEntry_cases (path : Bytes) (exts : Std.ExtTreeSet Bytes compare) (itr : DirEntry)
    (dirs : Directories) :
    Outcome.after (cleanEntry m_cleanTime curSysTime fails path exts itr) dirs = dirs ∨
    Cleanable m_cleanTime exts curSysTime itr ∧
      Outcome.after (cleanEntry m_cleanTime curSysTime fails path exts itr) dirs =
        dirs.remove path itr.name := by
  unfold cleanEntry
  cases hfile : itr.isDirectory with
  | true => exact .inl rfl
  | false =>
      cases hext : exts.contains (extension itr.name) with
      | false => exact .inl rfl
      | true =>
          cases htime : itr.lastWriteTime with
          | none => exact .inl rfl
          | some fileTime =>
              by_cases hold : m_cleanTime.toInt64 < hours (curSysTime - fileTime)
              · cases hfails : fails path itr.name with
                | true =>
                    simp only [if_pos hold]
                    exact .inl rfl
                | false =>
                    simp only [if_pos hold]
                    exact .inr ⟨⟨hfile, Std.ExtTreeSet.contains_iff_mem.mp hext, fileTime, htime,
                      hold⟩, rfl⟩
              · simp only [if_neg hold]
                exact .inl rfl

/-- So every turn of a loop keeps what has been taken with reason. -/
theorem taken_cleanDir {P : Bytes → DirEntry → Prop} {dirs : Directories}
    {path : Bytes × Std.ExtTreeSet Bytes compare}
    (hP : ∀ e, Cleanable m_cleanTime path.2 curSysTime e → P path.1 e) {dirs' : Directories}
    (h : TakenAway P dirs dirs') :
    TakenAway P dirs (Outcome.after (cleanDir m_cleanTime curSysTime fails path) dirs') := by
  rw [cleanDir, Outcome.after_get_bind]
  refine Outcome.after_foldlM_invariant (I := TakenAway P dirs) ?_ () dirs' h
  intro itr hitr _ dirs'' hbefore
  rcases cleanEntry_cases path.1 path.2 itr dirs'' with hsame | ⟨hcleanable, hremoved⟩
  · rw [hsame]
    exact hbefore
  · rw [hremoved]
    exact hbefore.remove ((h path.1).1 itr hitr) (hP itr hcleanable)

theorem taken_clean (b : Backuper) (dirs : Directories) :
    TakenAway (fun path e => ∃ exts, b.m_backupDirs[path]? = some exts ∧
      Cleanable b.m_cleanTime exts curSysTime e) dirs
      (Outcome.after (b.clean curSysTime fails) dirs) := by
  refine Outcome.after_foldlM_invariant ?_ () dirs (TakenAway.refl _ dirs)
  intro path hpath _ dirs' hbefore
  refine taken_cleanDir (fun e he => ⟨path.2, ?_, he⟩) hbefore
  exact Std.ExtTreeMap.mem_toList_iff_getElem?_eq_some.mp hpath

/-- The backuper once it has read the queue. -/
def dequeued (b : Backuper) : Backuper :=
  match b.m_registerQueue with
  | [] => b
  | newPath :: queue => { b with m_registerQueue := queue }.insertDir newPath.1 newPath.2

theorem after_check (b : Backuper) (bForceCheck : Bool) (curTime : Int64) (dirs : Directories) :
    Outcome.after (b.check bForceCheck curTime curSysTime fails) dirs = dirs ∨
    Outcome.after (b.check bForceCheck curTime curSysTime fails) dirs =
      Outcome.after (b.clean curSysTime fails) dirs := by
  unfold check
  by_cases hwait : !bForceCheck ∧ seconds (curTime - b.lastTime) < period
  · rw [if_pos hwait]
    exact .inl rfl
  · rw [if_neg hwait]
    right
    rcases Outcome.after_bind_cases (clean { b with lastTime := curTime } curSysTime fails)
      (fun _ => pure { b with lastTime := curTime }) dirs with hstop | ⟨_, hgo⟩
    · exact hstop
    · exact hgo

/-- What a turn takes away is old for one of the extensions of its directory. -/
theorem taken_lifeTurn (b : Backuper) (curTime : Int64) (dirs : Directories) :
    TakenAway (fun path e => ∃ exts, b.dequeued.m_backupDirs[path]? = some exts ∧
      Cleanable b.m_cleanTime exts curSysTime e) dirs
      (Outcome.after (b.lifeTurn curTime curSysTime fails) dirs) := by
  have hcheck : ∀ (b' : Backuper) (bForceCheck : Bool),
      TakenAway (fun path e => ∃ exts, b'.m_backupDirs[path]? = some exts ∧
        Cleanable b'.m_cleanTime exts curSysTime e) dirs
        (Outcome.after (b'.check bForceCheck curTime curSysTime fails) dirs) := by
    intro b' bForceCheck
    rcases after_check b' bForceCheck curTime dirs with hsame | hclean
    · rw [hsame]
      exact TakenAway.refl _ dirs
    · rw [hclean]
      exact taken_clean b' dirs
  cases hqueue : b.m_registerQueue with
  | nil =>
      simp only [lifeTurn, dequeued, hqueue]
      exact hcheck b false
  | cons newPath queue =>
      simp only [lifeTurn, dequeued, hqueue]
      exact hcheck _ true

theorem check_ok {b b' : Backuper} {bForceCheck : Bool} {curTime : Int64} {dirs dirs' : Directories}
    (h : b.check bForceCheck curTime curSysTime fails dirs = .ok b' dirs') :
    ∃ lastTime, b' = { b with lastTime } := by
  unfold check at h
  by_cases hwait : !bForceCheck ∧ seconds (curTime - b.lastTime) < period
  · rw [if_pos hwait] at h
    cases h
    exact ⟨b.lastTime, rfl⟩
  · rw [if_neg hwait] at h
    rcases Outcome.bind_cases (clean { b with lastTime := curTime } curSysTime fails)
      (fun _ => pure { b with lastTime := curTime }) dirs with
        ⟨_, _, -, hstop⟩ | ⟨_, dirs'', -, hgo⟩
    · cases hstop.symm.trans h
    · cases hgo.symm.trans h
      exact ⟨curTime, rfl⟩

theorem lifeTurn_ok {b b' : Backuper} {curTime : Int64} {dirs dirs' : Directories}
    (h : b.lifeTurn curTime curSysTime fails dirs = .ok b' dirs') :
    ∃ lastTime, b' = { b.dequeued with lastTime } := by
  cases hqueue : b.m_registerQueue with
  | nil =>
      have hsame : b.dequeued = b := by rw [dequeued, hqueue]
      simp only [lifeTurn, hqueue] at h
      rw [hsame]
      exact check_ok h
  | cons newPath queue =>
      simp only [lifeTurn, hqueue] at h
      simp only [dequeued, hqueue]
      exact check_ok h

end Backuper

/-! ## Registrations -/

namespace Backups

variable {days : UInt32} {s s' : Backups}

/-- The thread works with what was registered, and with the time of the flag. -/
structure Consistent (days : UInt32) (s : Backups) : Prop where
  cleanTime : s.backuper.m_cleanTime = cleanBackupDays days
  queue : ∀ e ∈ s.backuper.m_registerQueue, e ∈ s.registered
  dirs : ∀ path exts, s.backuper.m_backupDirs[path]? = some exts →
    ∀ ext ∈ exts, (path, ext) ∈ s.registered

theorem mem_insertDir {b : Backuper} {path ext path' : Bytes}
    {exts : Std.ExtTreeSet Bytes compare}
    (h : (b.insertDir path ext).m_backupDirs[path']? = some exts) {ext' : Bytes}
    (hext : ext' ∈ exts) :
    (path' = path ∧ ext' = ext) ∨
      ∃ exts', b.m_backupDirs[path']? = some exts' ∧ ext' ∈ exts' := by
  by_cases hpath : path' = path
  · subst hpath
    rw [Backuper.insertDir, Std.ExtTreeMap.getElem?_insert_self, Option.some.injEq] at h
    subst h
    rw [Std.ExtTreeSet.mem_insert, Std.LawfulEqCmp.compare_eq_iff_eq,
      Std.ExtTreeMap.getD_eq_getD_getElem?] at hext
    rcases hext with rfl | hold
    · exact .inl ⟨rfl, rfl⟩
    · cases hget : b.m_backupDirs[path']? with
      | none => simp [hget] at hold
      | some exts' =>
          rw [hget] at hold
          exact .inr ⟨exts', rfl, hold⟩
  · have hne : path ≠ path' := fun heq => hpath heq.symm
    simp only [Backuper.insertDir, Std.ExtTreeMap.getElem?_insert,
      Std.LawfulEqCmp.compare_eq_iff_eq, if_neg hne] at h
    exact .inr ⟨exts, h, hext⟩

theorem consistent_dequeued (h : s.Consistent days) :
    Consistent days { s with backuper := s.backuper.dequeued } := by
  unfold Backuper.dequeued
  cases hqueue : s.backuper.m_registerQueue with
  | nil => exact h
  | cons newPath queue =>
      have hnew := h.queue newPath (by simp [hqueue])
      refine ⟨h.cleanTime, ?_, ?_⟩
      · intro e he
        exact h.queue e (by simpa [hqueue] using .inr he)
      · intro path exts hget ext hext
        rcases mem_insertDir hget hext with ⟨rfl, rfl⟩ | ⟨exts', hget', hext'⟩
        · exact hnew
        · exact h.dirs path exts' hget' ext hext'

/-- A turn ends with the queue read, or with the thread. -/
theorem step_turn {curTime curSysTime : Int64} {fails : Bytes → Bytes → Bool}
    (hstep : s.step (.turn curTime curSysTime fails) = some s') :
    s'.dirs = Outcome.after (s.backuper.lifeTurn curTime curSysTime fails) s.dirs ∧
      s'.registered = s.registered ∧
      (s'.backuper = s.backuper ∨ ∃ lastTime, s'.backuper = { s.backuper.dequeued with lastTime }) := by
  rw [step] at hstep
  split at hstep
  · cases hturn : s.backuper.lifeTurn curTime curSysTime fails s.dirs with
    | ok backuper dirs =>
        rw [hturn] at hstep
        obtain rfl := Option.some.inj hstep
        exact ⟨(Outcome.after_ok hturn).symm, rfl, .inr (Backuper.lifeTurn_ok hturn)⟩
    | error e dirs =>
        rw [hturn] at hstep
        obtain rfl := Option.some.inj hstep
        exact ⟨(Outcome.after_error hturn).symm, rfl, .inl rfl⟩
  · cases hstep

theorem consistent_step (h : s.Consistent days) {a : BackupAction} (hstep : s.step a = some s') :
    s'.Consistent days := by
  cases a with
  | addBackupDir path ext =>
      obtain rfl := Option.some.inj hstep
      refine ⟨h.cleanTime, ?_, ?_⟩
      · intro e he
        rcases List.mem_append.mp he with hold | hnew
        · exact List.mem_append_left _ (h.queue e hold)
        · exact List.mem_append_right _ hnew
      · intro path' exts hget ext' hext
        exact List.mem_append_left _ (h.dirs path' exts hget ext' hext)
  | change dirs =>
      obtain rfl := Option.some.inj hstep
      exact ⟨h.cleanTime, h.queue, h.dirs⟩
  | turn curTime curSysTime fails =>
      obtain ⟨-, hregistered, hbackuper⟩ := step_turn hstep
      have hdequeued := consistent_dequeued h
      rcases hbackuper with hsame | ⟨lastTime, hnew⟩
      · refine ⟨?_, ?_, ?_⟩
        · rw [hsame]
          exact h.cleanTime
        · rw [hsame, hregistered]
          exact h.queue
        · rw [hsame, hregistered]
          exact h.dirs
      · refine ⟨?_, ?_, ?_⟩
        · rw [hnew]
          exact hdequeued.cleanTime
        · rw [hnew, hregistered]
          exact hdequeued.queue
        · rw [hnew, hregistered]
          exact hdequeued.dirs

theorem Consistent.of_reachable (h : (machine days).Reachable Possible s) : s.Consistent days := by
  refine h.invariant ?_ fun s a s' hs _ hstep => @consistent_step days s s' hs a hstep
  intro s hinit
  obtain ⟨hbackuper, -, -⟩ := hinit
  refine ⟨by rw [hbackuper], by simp [hbackuper], ?_⟩
  intro path exts hget
  simp [hbackuper] at hget

theorem step_turn_ok {curTime curSysTime : Int64} {fails : Bytes → Bytes → Bool}
    {backuper : Backuper} {dirs : Directories} (hrunning : s.running = true)
    (hturn : s.backuper.lifeTurn curTime curSysTime fails s.dirs = .ok backuper dirs) :
    s.step (.turn curTime curSysTime fails) = some { s with backuper, dirs } := by
  rw [step, if_pos hrunning, hturn]

/-- What a turn takes away had been registered, and it has more hours than the clean time. -/
theorem taken_turn (h : (machine days).Reachable Possible s) {curTime curSysTime : Int64}
    {fails : Bytes → Bytes → Bool} (hstep : s.step (.turn curTime curSysTime fails) = some s')
    {path : Bytes} {e : DirEntry} (he : e ∈ s.dirs.files path) (hgone : e ∉ s'.dirs.files path) :
    e.isDirectory = false ∧ (path, extension e.name) ∈ s.registered ∧
      ∃ fileTime, e.lastWriteTime = some fileTime ∧
        (cleanBackupDays days).toInt64 < hours (curSysTime - fileTime) := by
  have hconsistent := Consistent.of_reachable h
  obtain ⟨hdirs, -, -⟩ := step_turn hstep
  rw [hdirs] at hgone
  obtain ⟨exts, hget, hcleanable⟩ :=
    (Backuper.taken_lifeTurn s.backuper curTime s.dirs path).2 e he hgone
  have hext := (consistent_dequeued hconsistent).dirs path exts hget _ hcleanable.ext
  rw [← hconsistent.cleanTime]
  exact ⟨hcleanable.file, hext, hcleanable.old⟩

end Backups

/-! ## Hours -/

theorem toInt_cleanBackupDays (days : UInt32) :
    (cleanBackupDays days).toInt = (24 * (days.toNat : Int)).bmod (2 ^ 32) := by
  have hmul : (24 * days).toBitVec.toNat = 24 * days.toNat % 2 ^ 32 := by
    rw [UInt32.toNat_toBitVec, UInt32.toNat_mul]
    rfl
  have hmod : ((24 * days.toNat % 2 ^ 32 : Nat) : Int).bmod (2 ^ 32) =
      ((24 * days.toNat : Nat) : Int).bmod (2 ^ 32) := by
    rw [Int.natCast_emod]
    exact Int.emod_bmod _ _
  rw [cleanBackupDays, Int32.toInt, UInt32.toBitVec_toInt32, BitVec.toInt_eq_toNat_bmod, hmul, hmod,
    Int.natCast_mul]
  rfl

theorem toInt_hours (d : Int64) : (hours d).toInt = d.toInt.tdiv 3600000000000 :=
  Int64.toInt_div_of_ne_right d 3600000000000 (by decide)

/-- A duration that has more hours than `n`, which is not negative, has another one. -/
theorem le_of_lt_hours {n : Int} (hn : 0 ≤ n) {d : Int64} (h : n < (hours d).toInt) :
    (n + 1) * 3600000000000 ≤ d.toInt := by
  rw [toInt_hours] at h
  have hpos : 0 ≤ d.toInt := by
    by_contra hneg
    have hflip : 0 ≤ (-d.toInt).tdiv 3600000000000 := Int.tdiv_nonneg (by omega) (by decide)
    rw [Int.neg_tdiv] at hflip
    omega
  rw [Int.tdiv_eq_ediv_of_nonneg hpos] at h
  omega

/-- No duration has more hours than these. -/
theorem hours_le (d : Int64) : (hours d).toInt ≤ 2562047 := by
  by_contra h
  have hlong := le_of_lt_hours (by decide) (lt_of_not_ge h)
  have hmax := d.toInt_lt
  omega

/-- Hours that are an `int` stay what they are. -/
theorem toInt_cleanBackupDays_of_lt {days : UInt32} (h : 24 * days.toNat < 2 ^ 31) :
    (cleanBackupDays days).toInt = 24 * days.toNat := by
  rw [toInt_cleanBackupDays]
  exact Int.bmod_eq_of_le (by omega) (by omega)

/-- The difference of two times is longer than a positive duration only where it does not
wrap around, since the clock shows no time before the epoch. -/
theorem le_sub_of_le_toInt_sub {curSysTime fileTime : Int64} (hclock : 0 ≤ curSysTime) {n : Int}
    (hn : 0 < n) (h : n ≤ (curSysTime - fileTime).toInt) :
    n ≤ curSysTime.toInt - fileTime.toInt := by
  have hcur : 0 ≤ curSysTime.toInt := by simpa [Int64.le_iff_toInt_le] using hclock
  have hmax := curSysTime.toInt_lt
  have hfile := fileTime.le_toInt
  have hfile' := fileTime.toInt_lt
  rw [Int64.toInt_sub, Int.bmod_def] at h
  split at h
  · omega
  · omega

theorem old_of_lt_hours {days : UInt32}
    (hdays : 24 * days.toNat < 2 ^ 31 ∨ 2562047 ≤ (24 * (days.toNat : Int)).bmod (2 ^ 32))
    {curSysTime fileTime : Int64} (hclock : 0 ≤ curSysTime)
    (h : (cleanBackupDays days).toInt64 < hours (curSysTime - fileTime)) :
    days.toNat * day < curSysTime.toInt - fileTime.toInt := by
  rw [Int64.lt_iff_toInt_lt, Int32.toInt_toInt64] at h
  rcases hdays with hfits | hnever
  · rw [toInt_cleanBackupDays_of_lt hfits] at h
    have hlong := le_of_lt_hours (by omega) h
    have hage := le_sub_of_le_toInt_sub hclock (by omega) hlong
    unfold day
    omega
  · rw [toInt_cleanBackupDays] at h
    have hmax := hours_le (curSysTime - fileTime)
    omega

/-! ## A file that is removed -/

/-- `a.c`, written at the epoch. -/
def epochFile : DirEntry := ⟨[97, 46, 99], false, some 0⟩

/-- The directories `b`, with this file. -/
def epochDirs : Directories :=
  Function.update (fun _ => none) [98] (some ⟨[epochFile], List.nodup_singleton _⟩)

/-- A file whose hours are more than the clean time does not survive the turn in which its
directory is registered. -/
theorem Backups.epochFile_removed {days : UInt32} {curSysTime : Int64}
    (h : (cleanBackupDays days).toInt64 < hours (curSysTime - 0)) :
    ∃ s s', (machine days).Reachable Possible s ∧
      s.step (.turn 0 curSysTime fun _ _ => false) = some s' ∧
      epochFile ∈ s.dirs.files [98] ∧ epochFile ∉ s'.dirs.files [98] := by
  have hinit : (machine days).Reachable Possible
      ⟨{ m_cleanTime := cleanBackupDays days }, true, epochDirs, []⟩ := .init ⟨rfl, rfl, rfl⟩
  have hregistered := hinit.next (a := .addBackupDir [98] [46, 99]) trivial rfl
  have hentry : Backuper.cleanEntry (cleanBackupDays days) curSysTime (fun _ _ => false) [98]
      (Std.ExtTreeSet.insert ∅ [46, 99]) epochFile epochDirs =
        .ok () (epochDirs.remove [98] epochFile.name) := by
    unfold Backuper.cleanEntry epochFile
    simp only [if_pos h]
    rfl
  have hdir : Backuper.cleanDir (cleanBackupDays days) curSysTime (fun _ _ => false)
      ([98], Std.ExtTreeSet.insert ∅ [46, 99]) epochDirs =
        .ok () (epochDirs.remove [98] epochFile.name) :=
    Outcome.bind_of_ok hentry
  have hturn : Backuper.lifeTurn
      { m_cleanTime := cleanBackupDays days, m_registerQueue := [([98], [46, 99])] } 0 curSysTime
      (fun _ _ => false) epochDirs =
        .ok (Backuper.dequeued
          { m_cleanTime := cleanBackupDays days, m_registerQueue := [([98], [46, 99])] })
          (epochDirs.remove [98] epochFile.name) :=
    Outcome.bind_of_ok (Outcome.bind_of_ok hdir)
  have hthere : epochFile ∈ epochDirs.files [98] := by simp [epochDirs, Directories.files]
  have hgone : epochFile ∉ (epochDirs.remove [98] epochFile.name).files [98] := by
    simp [epochDirs, Directories.files, Directories.remove, Directory.remove]
  exact ⟨_, _, hregistered, step_turn_ok rfl hturn, hthere, hgone⟩

/-! ## When backups are kept -/

/-- Hours that wrap around are too few for some file. -/
theorem not_keepsBackups {days : UInt32} (hwraps : 2 ^ 31 ≤ 24 * days.toNat)
    (hfew : (24 * (days.toNat : Int)).bmod (2 ^ 32) < 2562047) : ¬ KeepsBackups days := by
  intro hkeeps
  -- the file gets an hour more than the clean time, or none if that is negative
  obtain ⟨n, hn, hmore, hmax⟩ : ∃ n : Int, 0 ≤ n ∧
      (24 * (days.toNat : Int)).bmod (2 ^ 32) < n ∧ n ≤ 2562047 :=
    ⟨max 0 ((24 * (days.toNat : Int)).bmod (2 ^ 32) + 1), by omega, by omega, by omega⟩
  have hclock : (Int64.ofInt (n * 3600000000000)).toInt = n * 3600000000000 :=
    Int64.toInt_ofInt_of_le (by omega) (by omega)
  have hhours : (hours (Int64.ofInt (n * 3600000000000) - 0)).toInt = n := by
    rw [Int64.sub_zero, toInt_hours, hclock]
    exact Int.mul_tdiv_cancel n (by decide)
  have hold : (cleanBackupDays days).toInt64 <
      hours (Int64.ofInt (n * 3600000000000) - 0) := by
    rw [Int64.lt_iff_toInt_lt, Int32.toInt_toInt64, toInt_cleanBackupDays, hhours]
    exact hmore
  obtain ⟨s, s', hreach, hstep, hthere, hgone⟩ := Backups.epochFile_removed hold
  have hepoch : 0 ≤ Int64.ofInt (n * 3600000000000) := by
    rw [Int64.le_iff_toInt_le, hclock]
    simp
    omega
  obtain ⟨fileTime, htime, hdue⟩ :=
    (hkeeps s hreach 0 _ _ s' hepoch hstep [98] epochFile hthere hgone).old
  obtain rfl := Option.some.inj htime
  rw [hclock] at hdue
  simp only [day, Int64.toInt_zero] at hdue
  omega

/-- Backups are kept as long as the flag says just when its hours are an `int`, or wrap around
to more hours than any duration has. -/
theorem keepsBackups_iff (days : UInt32) :
    KeepsBackups days ↔
      24 * days.toNat < 2 ^ 31 ∨ 2562047 ≤ (24 * (days.toNat : Int)).bmod (2 ^ 32) := by
  constructor
  · intro hkeeps
    by_contra hdays
    rw [not_or, not_lt, not_le] at hdays
    exact not_keepsBackups hdays.1 hdays.2 hkeeps
  · intro hdays s hreach curTime curSysTime fails s' hclock hstep path e hthere hgone
    obtain ⟨hfile, hext, fileTime, htime, hold⟩ := Backups.taken_turn hreach hstep hthere hgone
    exact ⟨hfile, hext, fileTime, htime, old_of_lt_hours hdays hclock hold⟩

/-- With 89478486 days the clean time is negative. -/
theorem clean_backup_wraps : ¬ KeepsBackups 89478486 :=
  not_keepsBackups (by decide) (by decide)

end FlexEtl
