/-
FlexEtl.Node.StartupTheorems — which steps of the others a starting node survives.

What a step does is said once for each action (`step_create` to `step_take`).
What the directory, the files and the events have to do with each other is kept
by every step (`WellFormed.step`). From such a state a step leads to a safe one
exactly when it is harmless (`safe_step_iff`), so every run of harmless steps is
safe (`safe_of_reachable`).
-/
import FlexEtl.Node.Startup

namespace FlexEtl

namespace Starting

open State

variable {n : Starting} {s s' : State}

/-! ## Files and names -/

/-- What the directory, the files and the events have to do with each other. -/
structure WellFormed (s : State) : Prop where
  named : ∀ name f, s.dir name = some f → ∃ file, s.files f = some file ∧ file.name = name
  unhanded : ∀ f file, s.files f = some file → file.isOpen = true → file.handed = false
  fresh : ∀ f file, s.files f = some file → s.dir file.name = some f → file.isOpen = true →
    file.reused = false → file.name ∉ s.events
  quiet : s.phase ≠ .watching → s.events = []

theorem file?_eq_some {name : Bytes} {f : Nat} {file : File} :
    s.file? name = some (f, file) ↔ s.dir name = some f ∧ s.files f = some file := by
  unfold State.file?
  constructor
  · intro h
    obtain ⟨g, hdir, h⟩ := Option.bind_eq_some_iff.mp h
    obtain ⟨file', hfile, heq⟩ := Option.map_eq_some_iff.mp h
    obtain ⟨rfl, rfl⟩ := Prod.mk.inj heq
    exact ⟨hdir, hfile⟩
  · rintro ⟨hdir, hfile⟩
    simp [hdir, hfile]

@[simp] theorem setFile_same (f : Nat) (file : File) : (s.setFile f file).files f = some file := by
  simp [setFile]

theorem setFile_of_ne {f g : Nat} (file : File) (h : g ≠ f) :
    (s.setFile f file).files g = s.files g := by
  simp [setFile, h]

/-- What is a file after one has been set. -/
theorem setFile_eq_some {f g : Nat} {file x : File} :
    (s.setFile f file).files g = some x ↔ (g = f ∧ x = file) ∨ (g ≠ f ∧ s.files g = some x) := by
  by_cases hg : g = f
  · subst hg
    simp [eq_comm]
  · simp [setFile_of_ne, hg]

@[simp] theorem setDir_same (name : Bytes) (entry : Option Nat) :
    (s.setDir name entry).dir name = entry := by
  simp [setDir]

theorem setDir_of_ne {name name' : Bytes} (entry : Option Nat) (h : name' ≠ name) :
    (s.setDir name entry).dir name' = s.dir name' := by
  simp [setDir, h]

/-! ### Notifications -/

@[simp] theorem notify_dir (name : Bytes) : (s.notify name).dir = s.dir := by
  unfold notify
  split <;> rfl

@[simp] theorem notify_files (name : Bytes) : (s.notify name).files = s.files := by
  unfold notify
  split <;> rfl

@[simp] theorem notify_log (name : Bytes) : (s.notify name).log = s.log := by
  unfold notify
  split <;> rfl

@[simp] theorem notify_phase (name : Bytes) : (s.notify name).phase = s.phase := by
  unfold notify
  split <;> rfl

/-- What is waiting after a notification. -/
theorem mem_notify {name name' : Bytes} :
    name' ∈ (s.notify name).events ↔ name' ∈ s.events ∨ (name' = name ∧ s.phase = .watching) := by
  unfold notify
  split
  · rename_i h
    simp [h]
  · rename_i h
    have hphase : s.phase ≠ .watching := h
    simp [hphase]

/-- A name that could be completed is on its way after the notification. -/
theorem coming_notify {name : Bytes} : (s.notify name).Coming name ↔ s.Open name := by
  unfold State.Coming State.Open
  rw [notify_phase]
  cases hphase : s.phase with
  | idle => simp
  | listing todo => simp
  | watching => simp [mem_notify, hphase]

theorem coming_notify_of_coming {name name' : Bytes} (h : s.Coming name') :
    (s.notify name).Coming name' := by
  unfold State.Coming at h ⊢
  rw [notify_phase]
  cases hphase : s.phase with
  | idle => trivial
  | listing todo =>
      rw [hphase] at h
      exact h
  | watching =>
      rw [hphase] at h
      exact mem_notify.mpr (.inl h)

/-! ### Well-formed states -/

theorem WellFormed.name_eq (h : WellFormed s) {name : Bytes} {f : Nat} {file : File}
    (hfile : s.file? name = some (f, file)) : file.name = name := by
  obtain ⟨hdir, hf⟩ := file?_eq_some.mp hfile
  obtain ⟨file', hf', hname⟩ := h.named name f hdir
  obtain rfl : file = file' := Option.some.inj (hf.symm.trans hf')
  exact hname

/-- A file is replaced by one of the same name that is no more open. -/
theorem WellFormed.setFile (h : WellFormed s) {f : Nat} {file file' : File}
    (hf : s.files f = some file) (hname : file'.name = file.name)
    (hopen : file'.isOpen = true → file.isOpen = true ∧ file'.handed = false)
    (hreused : file'.reused = file.reused) : WellFormed (s.setFile f file') := by
  refine ⟨fun name g hdir => ?_, fun g x hx hisOpen => ?_, fun g x hx hdir hisOpen hr => ?_,
    h.quiet⟩
  · obtain ⟨x, hx, hxname⟩ := h.named name g hdir
    by_cases hg : g = f
    · subst hg
      obtain rfl : file = x := Option.some.inj (hf.symm.trans hx)
      exact ⟨file', setFile_same g file', hname.trans hxname⟩
    · exact ⟨x, (setFile_of_ne file' hg).trans hx, hxname⟩
  · rcases setFile_eq_some.mp hx with ⟨rfl, rfl⟩ | ⟨-, hx'⟩
    · exact (hopen hisOpen).2
    · exact h.unhanded g x hx' hisOpen
  · rcases setFile_eq_some.mp hx with ⟨rfl, rfl⟩ | ⟨-, hx'⟩
    · rw [hname] at hdir ⊢
      exact h.fresh g file hf hdir (hopen hisOpen).1 (hreused ▸ hr)
    · exact h.fresh g x hx' hdir hisOpen hr

theorem WellFormed.setDir_none (h : WellFormed s) (name : Bytes) :
    WellFormed (s.setDir name none) := by
  have hget : ∀ name' g, (s.setDir name none).dir name' = some g → s.dir name' = some g := by
    intro name' g hdir
    by_cases hname : name' = name
    · rw [hname, setDir_same] at hdir
      cases hdir
    · rwa [setDir_of_ne none hname] at hdir
  exact ⟨fun name' g hdir => h.named name' g (hget name' g hdir), h.unhanded,
    fun g x hx hdir => h.fresh g x hx (hget _ g hdir), h.quiet⟩

/-- A new file takes a name. -/
theorem WellFormed.enter (h : WellFormed s) {f : Nat} {file : File} (hf : s.files f = none)
    (hhanded : file.handed = false)
    (hreused : file.isOpen = true → file.reused = false → file.name ∉ s.events) :
    WellFormed ((s.setFile f file).setDir file.name f) := by
  have hold : ∀ name g, name ≠ file.name →
      ((s.setFile f file).setDir file.name f).dir name = some g → s.dir name = some g := by
    intro name g hname hdir
    rwa [setDir_of_ne _ hname] at hdir
  refine ⟨fun name g hdir => ?_, fun g x hx hisOpen => ?_, fun g x hx hdir hisOpen hr => ?_,
    h.quiet⟩
  · by_cases hname : name = file.name
    · subst hname
      rw [setDir_same] at hdir
      obtain rfl := Option.some.inj hdir
      exact ⟨file, setFile_same f file, rfl⟩
    · obtain ⟨x, hx, hxname⟩ := h.named name g (hold name g hname hdir)
      have hg : g ≠ f := by
        rintro rfl
        rw [hf] at hx
        cases hx
      exact ⟨x, (setFile_of_ne file hg).trans hx, hxname⟩
  · rcases setFile_eq_some.mp hx with ⟨rfl, rfl⟩ | ⟨-, hx'⟩
    · exact hhanded
    · exact h.unhanded g x hx' hisOpen
  · rcases setFile_eq_some.mp hx with ⟨rfl, rfl⟩ | ⟨hg, hx'⟩
    · exact hreused hisOpen hr
    · have hname : x.name ≠ file.name := by
        intro hname
        rw [hname, setDir_same] at hdir
        exact hg (Option.some.inj hdir).symm
      exact h.fresh g x hx' (hold _ g hname hdir) hisOpen hr

/-- An event of a name under which no file is open. -/
theorem WellFormed.notify (h : WellFormed s) {name : Bytes}
    (hclosed : ∀ f file, s.dir name = some f → s.files f = some file → file.isOpen = false) :
    WellFormed (s.notify name) := by
  refine ⟨by simpa using h.named, by simpa using h.unhanded, ?_, ?_⟩
  · intro f file hf hdir hisOpen hr hmem
    rw [notify_files] at hf
    rw [notify_dir] at hdir
    rcases mem_notify.mp hmem with hmem | ⟨rfl, -⟩
    · exact h.fresh f file hf hdir hisOpen hr hmem
    · rw [hclosed f file hdir hf] at hisOpen
      cases hisOpen
  · intro hphase
    rw [notify_phase] at hphase
    refine List.eq_nil_iff_forall_not_mem.mpr fun name' hmem => ?_
    rcases mem_notify.mp hmem with hmem | ⟨-, hwatching⟩
    · rw [h.quiet hphase] at hmem
      cases hmem
    · exact hphase hwatching

/-! ### Handing over -/

/-- A name for which nothing is handed over. -/
theorem handOver_eq_self {name : Bytes} (h : ¬ n.Matches name ∨ s.file? name = none) :
    handOver n name s = s := by
  unfold handOver
  rcases h with h | h
  · rw [if_neg h]
  · rw [h]
    split <;> rfl

/-- The state after a file has been handed over. -/
theorem handOver_eq {name : Bytes} {f : Nat} {file : File} (h : n.Matches name)
    (hfile : s.file? name = some (f, file)) :
    handOver n name s =
      if n.removes then
        (({ s with log := s.log ++ [file] } : State).setFile f
          { file with handed := file.handed || !file.isOpen }).setDir name none
      else ({ s with log := s.log ++ [file] } : State).setFile f
        { file with handed := file.handed || !file.isOpen } := by
  rw [handOver, if_pos h, hfile]

/-- Of a name either nothing is handed over or a file. -/
theorem handOver_cases (n : Starting) (s : State) (name : Bytes) :
    (¬ n.Matches name ∨ s.file? name = none) ∨
      n.Matches name ∧ ∃ f file, s.file? name = some (f, file) := by
  by_cases h : n.Matches name
  · cases hfile : s.file? name with
    | none => exact .inl (.inr rfl)
    | some e => exact .inr ⟨h, e.1, e.2, rfl⟩
  · exact .inl (.inl h)

theorem WellFormed.handOver (h : WellFormed s) (n : Starting) (name : Bytes) :
    WellFormed (handOver n name s) := by
  rcases handOver_cases n s name with hself | ⟨hm, f, file, hfile⟩
  · rw [handOver_eq_self hself]
    exact h
  · rw [handOver_eq hm hfile]
    have hlog : WellFormed { s with log := s.log ++ [file] } :=
      ⟨h.named, h.unhanded, h.fresh, h.quiet⟩
    have hf : s.files f = some file := (file?_eq_some.mp hfile).2
    have hopen : file.isOpen = true → (file.handed || !file.isOpen) = false := fun hisOpen => by
      rw [h.unhanded f file hf hisOpen, hisOpen]
      rfl
    have hset : WellFormed (({ s with log := s.log ++ [file] } : State).setFile f
        { file with handed := file.handed || !file.isOpen }) :=
      hlog.setFile hf rfl (fun hisOpen => ⟨hisOpen, hopen hisOpen⟩) rfl
    split
    · exact hset.setDir_none name
    · exact hset

/-! ## Steps -/

theorem step_create {f : Nat} {name : Bytes} (hs : step n s (.create f name) = some s') :
    s.files f = none ∧ s.dir name = none ∧ s' = (s.setFile f
      { name, isOpen := true, reused := s.events.contains name }).setDir name f := by
  simp only [step] at hs
  split at hs
  · rename_i hfree
    exact ⟨hfree.1, hfree.2, (Option.some.inj hs).symm⟩
  · cases hs

theorem step_write {f : Nat} {piece : Bytes} (hs : step n s (.write f piece) = some s') :
    ∃ file, s.files f = some file ∧ file.isOpen = true ∧
      s' = s.setFile f { file with content := file.content ++ piece } := by
  simp only [step] at hs
  split at hs
  · rename_i file hf
    split at hs
    · rename_i hisOpen
      exact ⟨file, hf, hisOpen, (Option.some.inj hs).symm⟩
    · cases hs
  · cases hs

/-- A close is reported if the file is in the directory. -/
theorem step_close {f : Nat} (hs : step n s (.close f) = some s') :
    ∃ file, s.files f = some file ∧ file.isOpen = true ∧
      ((s.dir file.name = some f ∧
          s' = (s.setFile f { file with isOpen := false }).notify file.name) ∨
        (s.dir file.name ≠ some f ∧ s' = s.setFile f { file with isOpen := false })) := by
  simp only [step] at hs
  split at hs
  · rename_i file hf
    split at hs
    · rename_i hisOpen
      refine ⟨file, hf, hisOpen, ?_⟩
      obtain rfl := Option.some.inj hs
      by_cases hdir : s.dir file.name = some f
      · exact .inl ⟨hdir, if_pos hdir⟩
      · exact .inr ⟨hdir, if_neg hdir⟩
    · cases hs
  · cases hs

theorem step_moveIn {f : Nat} {name content : Bytes}
    (hs : step n s (.moveIn f name content) = some s') :
    s.files f = none ∧ s' =
      ((s.setFile f { name, content, isOpen := false }).setDir name f).notify name := by
  simp only [step] at hs
  split at hs
  · rename_i hf
    exact ⟨hf, (Option.some.inj hs).symm⟩
  · cases hs

theorem step_openDir {todo : List Bytes} (hs : step n s (.openDir todo) = some s') :
    s.phase = .idle ∧ s' = { s with phase := .listing todo } := by
  simp only [step] at hs
  split at hs
  · rename_i hphase
    exact ⟨hphase, (Option.some.inj hs).symm⟩
  · cases hs

theorem step_scan (hs : step n s .scan = some s') :
    ∃ name todo, s.phase = .listing (name :: todo) ∧
      s' = handOver n name { s with phase := .listing todo } := by
  simp only [step] at hs
  split at hs
  · rename_i name todo hphase
    exact ⟨name, todo, hphase, (Option.some.inj hs).symm⟩
  · cases hs

theorem step_register (hs : step n s .register = some s') :
    s.phase = .listing [] ∧ s' = { s with phase := .watching } := by
  simp only [step] at hs
  split at hs
  · rename_i hphase
    exact ⟨hphase, (Option.some.inj hs).symm⟩
  · cases hs

theorem step_deliver (hs : step n s .deliver = some s') :
    ∃ name events, s.events = name :: events ∧ s' = handOver n name { s with events } := by
  simp only [step] at hs
  split at hs
  · rename_i name events hevents
    exact ⟨name, events, hevents, (Option.some.inj hs).symm⟩
  · cases hs

theorem step_take {name : Bytes} (hs : step n s (.take name) = some s') :
    s' = s.setDir name none := by
  simp only [step] at hs
  split at hs
  · exact (Option.some.inj hs).symm
  · cases hs

theorem WellFormed.step (h : WellFormed s) {a : Action} (hs : step n s a = some s') :
    WellFormed s' := by
  cases a with
  | create f name =>
      obtain ⟨hf, -, rfl⟩ := step_create hs
      have henter : WellFormed ((s.setFile f
          { name, isOpen := true, reused := s.events.contains name }).setDir name f) :=
        h.enter hf rfl fun _ hr => by simpa using hr
      exact henter
  | write f piece =>
      obtain ⟨file, hf, hisOpen, rfl⟩ := step_write hs
      exact h.setFile hf rfl (fun _ => ⟨hisOpen, h.unhanded f file hf hisOpen⟩) rfl
  | close f =>
      obtain ⟨file, hf, -, hclose⟩ := step_close hs
      have hset : WellFormed (s.setFile f { file with isOpen := false }) :=
        h.setFile hf rfl (fun hisOpen => by cases hisOpen) rfl
      rcases hclose with ⟨hdir, rfl⟩ | ⟨-, rfl⟩
      · refine hset.notify fun g x hg hx => ?_
        obtain rfl : f = g := Option.some.inj (hdir.symm.trans hg)
        obtain rfl := Option.some.inj ((setFile_same f _).symm.trans hx)
        rfl
      · exact hset
  | moveIn f name content =>
      obtain ⟨hf, rfl⟩ := step_moveIn hs
      have henter : WellFormed ((s.setFile f { name, content, isOpen := false }).setDir name f) :=
        h.enter hf rfl fun hisOpen => by cases hisOpen
      refine henter.notify fun g x hg hx => ?_
      obtain rfl : f = g := Option.some.inj ((setDir_same name _).symm.trans hg)
      obtain rfl := Option.some.inj ((setFile_same f _).symm.trans hx)
      rfl
  | openDir todo =>
      obtain ⟨hphase, rfl⟩ := step_openDir hs
      exact ⟨h.named, h.unhanded, h.fresh, fun _ => h.quiet (by rw [hphase]; simp)⟩
  | scan =>
      obtain ⟨name, todo, hphase, rfl⟩ := step_scan hs
      have hpop : WellFormed { s with phase := .listing todo } :=
        ⟨h.named, h.unhanded, h.fresh, fun _ => h.quiet (by rw [hphase]; simp)⟩
      exact hpop.handOver n name
  | register =>
      obtain ⟨-, rfl⟩ := step_register hs
      exact ⟨h.named, h.unhanded, h.fresh, fun hphase => absurd rfl hphase⟩
  | deliver =>
      obtain ⟨name, events, hevents, rfl⟩ := step_deliver hs
      have hpop : WellFormed { s with events } := by
        refine ⟨h.named, h.unhanded, fun f file hf hdir hisOpen hr hmem => ?_, fun hphase => ?_⟩
        · refine h.fresh f file hf hdir hisOpen hr ?_
          rw [hevents]
          exact List.mem_cons_of_mem name hmem
        · have hnil := h.quiet hphase
          rw [hevents] at hnil
          cases hnil
      exact hpop.handOver n name
  | take name =>
      obtain rfl := step_take hs
      exact h.setDir_none name

/-- A name for which nothing is handed over may lose its turn. -/
theorem Safe.pass {name : Bytes} {phase : Phase} {events : List Bytes} (hsafe : Safe n s)
    (hcoming : ∀ name', name' ≠ name → s.Coming name' →
      ({ s with phase, events } : State).Coming name')
    (hself : ¬ n.Matches name ∨ s.file? name = none) : Safe n { s with phase, events } := by
  refine ⟨fun g x hx hmx hclosed => ?_, hsafe.closed⟩
  refine (hsafe.handed g x hx hmx hclosed).imp_right fun hway => ?_
  have hname : x.name ≠ name := by
    rintro rfl
    rcases hself with hnot | hnone
    · exact hnot hmx
    · rw [file?_eq_some.mpr ⟨hway.1, hx⟩] at hnone
      cases hnone
  exact ⟨hway.1, hcoming _ hname hway.2⟩

/-- After a hand-over the file itself has been handed over if it is complete, and the turn
of another file is still to come. -/
theorem Safe.handed_or {name : Bytes} {phase : Phase} {events : List Bytes} (hsafe : Safe n s)
    (hcoming : ∀ name', name' ≠ name → s.Coming name' →
      ({ s with phase, events } : State).Coming name') {f : Nat} {file : File}
    (hfile : s.file? name = some (f, file)) {g : Nat} {x : File}
    (hx : (s.setFile f { file with handed := file.handed || !file.isOpen }).files g = some x)
    (hm : n.Matches x.name) (hclosed : x.isOpen = false) :
    x.handed = true ∨ (x.name ≠ name ∧ s.dir x.name = some g ∧
      ({ s with phase, events } : State).Coming x.name) := by
  rcases setFile_eq_some.mp hx with ⟨rfl, rfl⟩ | ⟨hg, hx'⟩
  · exact .inl (by simp [show file.isOpen = false from hclosed])
  · refine (hsafe.handed g x hx' hm hclosed).imp_right ?_
    rintro ⟨hdir, hcomingx⟩
    have hname : x.name ≠ name := fun hname => by
      rw [hname, (file?_eq_some.mp hfile).1] at hdir
      exact hg (Option.some.inj hdir).symm
    exact ⟨hname, hdir, hcoming _ hname hcomingx⟩

/-- A hand-over is safe when before it no other name has lost its turn, and a handler that
removes files is not given one that is open. -/
theorem safe_handOver_iff {name : Bytes} {phase : Phase} {events : List Bytes}
    (hsafe : Safe n s)
    (hcoming : ∀ name', name' ≠ name → s.Coming name' →
      ({ s with phase, events } : State).Coming name') :
    Safe n (handOver n name { s with phase, events }) ↔ (n.Matches name → n.removes = true →
      ∀ f file, s.file? name = some (f, file) → file.isOpen = false) := by
  rcases handOver_cases n { s with phase, events } name with hself | ⟨hm, f, file, hfile⟩
  · rw [handOver_eq_self hself]
    refine iff_of_true (hsafe.pass hcoming hself) fun hm _ f file hfile => ?_
    rcases hself with hnot | hnone
    · exact absurd hm hnot
    · rw [show s.file? name = none from hnone] at hfile
      cases hfile
  · rw [handOver_eq hm hfile]
    constructor
    · intro hs' _ hremoves g x hx
      obtain ⟨rfl, rfl⟩ := Prod.mk.inj (Option.some.inj (Eq.trans hfile.symm hx))
      refine hs'.closed hremoves file ?_
      rw [if_pos hremoves]
      exact List.mem_append_right _ (List.mem_singleton_self _)
    · intro hharmless
      have hclosed : n.removes = true → ∀ x ∈ s.log ++ [file], x.isOpen = false := by
        intro hremoves x hx
        rcases List.mem_append.mp hx with hx | hx
        · exact hsafe.closed hremoves x hx
        · rw [List.mem_singleton.mp hx]
          exact hharmless hm hremoves f file hfile
      split
      · refine ⟨fun g x hx hmx hcl => ?_, hclosed⟩
        refine (hsafe.handed_or hcoming hfile hx hmx hcl).imp_right ?_
        rintro ⟨hname, hdir, hcomingx⟩
        exact ⟨(setDir_of_ne none hname).trans hdir, hcomingx⟩
      · refine ⟨fun g x hx hmx hcl => ?_, hclosed⟩
        exact (hsafe.handed_or hcoming hfile hx hmx hcl).imp_right fun hway => hway.2

/-! ### The writers -/

theorem safe_create {f : Nat} {name : Bytes} (hsafe : Safe n s)
    (hs : step n s (.create f name) = some s') : Safe n s' := by
  obtain ⟨-, hfree, rfl⟩ := step_create hs
  refine ⟨fun g x hx hm hclosed => ?_, hsafe.closed⟩
  rcases setFile_eq_some.mp hx with ⟨rfl, rfl⟩ | ⟨-, hx'⟩
  · cases hclosed
  · refine (hsafe.handed g x hx' hm hclosed).imp_right ?_
    rintro ⟨hdir, hcoming⟩
    have hname : x.name ≠ name := fun hname => by
      rw [hname, hfree] at hdir
      cases hdir
    exact ⟨(setDir_of_ne _ hname).trans hdir, hcoming⟩

theorem safe_write {f : Nat} {piece : Bytes} (hsafe : Safe n s)
    (hs : step n s (.write f piece) = some s') : Safe n s' := by
  obtain ⟨file, -, hisOpen, rfl⟩ := step_write hs
  refine ⟨fun g x hx hm hclosed => ?_, hsafe.closed⟩
  rcases setFile_eq_some.mp hx with ⟨rfl, rfl⟩ | ⟨-, hx'⟩
  · rw [show file.isOpen = false from hclosed] at hisOpen
    cases hisOpen
  · exact hsafe.handed g x hx' hm hclosed

theorem safe_close_iff {f : Nat} (h : WellFormed s) (hsafe : Safe n s)
    (hs : step n s (.close f) = some s') : Safe n s' ↔ Harmless n s (.close f) := by
  obtain ⟨file, hf, hisOpen, hclose⟩ := step_close hs
  have hunhanded := h.unhanded f file hf hisOpen
  rcases hclose with ⟨hdir, rfl⟩ | ⟨hdir, rfl⟩
  · constructor
    · intro hs' x hx hm
      obtain rfl : file = x := Option.some.inj (hf.symm.trans hx)
      have hget : ((s.setFile f { file with isOpen := false }).notify file.name).files f =
          some { file with isOpen := false } := by
        rw [notify_files, setFile_same]
      have hway := (hs'.handed f _ hget hm rfl).resolve_left (by simp [hunhanded])
      have hopen : (s.setFile f { file with isOpen := false }).Open file.name :=
        coming_notify.mp hway.2
      exact ⟨hdir, hopen⟩
    · intro hharmless
      refine ⟨fun g x hx hm hclosed => ?_, by rw [notify_log]; exact hsafe.closed⟩
      rw [notify_files] at hx
      unfold State.OnItsWay
      rw [notify_dir]
      rcases setFile_eq_some.mp hx with ⟨rfl, rfl⟩ | ⟨-, hx'⟩
      · exact .inr ⟨hdir, coming_notify.mpr (hharmless file hf hm).2⟩
      · refine (hsafe.handed g x hx' hm hclosed).imp_right fun hway => ⟨hway.1, ?_⟩
        exact coming_notify_of_coming hway.2
  · constructor
    · intro hs' x hx hm
      obtain rfl : file = x := Option.some.inj (hf.symm.trans hx)
      have hway := (hs'.handed f _ (setFile_same f _) hm rfl).resolve_left (by simp [hunhanded])
      exact absurd hway.1 hdir
    · intro hharmless
      refine ⟨fun g x hx hm hclosed => ?_, hsafe.closed⟩
      rcases setFile_eq_some.mp hx with ⟨rfl, rfl⟩ | ⟨-, hx'⟩
      · exact absurd (hharmless file hf hm).1 hdir
      · exact hsafe.handed g x hx' hm hclosed

theorem safe_moveIn_iff {f : Nat} {name content : Bytes} (h : WellFormed s) (hsafe : Safe n s)
    (hs : step n s (.moveIn f name content) = some s') :
    Safe n s' ↔ Harmless n s (.moveIn f name content) := by
  obtain ⟨hf, rfl⟩ := step_moveIn hs
  have hfiles : (((s.setFile f { name, content, isOpen := false }).setDir name
      (some f)).notify name).files = (s.setFile f { name, content, isOpen := false }).files :=
    notify_files name
  have hdir : ∀ name', (((s.setFile f { name, content, isOpen := false }).setDir name
      (some f)).notify name).dir name' = if name' = name then some f else s.dir name' := by
    intro name'
    rw [notify_dir]
    rfl
  constructor
  · intro hs' hm
    have hnew := (congrFun hfiles f).trans (setFile_same f _)
    have hway := (hs'.handed f _ hnew hm rfl).resolve_left (by simp)
    have hopen : ((s.setFile f { name, content, isOpen := false }).setDir name (some f)).Open
        name := coming_notify.mp hway.2
    refine ⟨hopen, fun g x hx hclosed => ?_⟩
    have hname := h.name_eq hx
    have hx' := (file?_eq_some.mp hx).2
    have hg : g ≠ f := by
      rintro rfl
      rw [hf] at hx'
      cases hx'
    have hold := (congrFun hfiles g).trans (setFile_eq_some.mpr (.inr ⟨hg, hx'⟩))
    refine (hs'.handed g x hold (by rw [hname]; exact hm) hclosed).resolve_right fun hway => ?_
    -- the file that was replaced is not in the directory any more
    have hgone := hway.1
    rw [hdir, if_pos hname] at hgone
    exact hg (Option.some.inj hgone).symm
  · intro hharmless
    refine ⟨fun g x hx hm hclosed => ?_, by rw [notify_log]; exact hsafe.closed⟩
    rw [hfiles] at hx
    rcases setFile_eq_some.mp hx with ⟨rfl, rfl⟩ | ⟨hg, hx'⟩
    · exact .inr ⟨by rw [hdir, if_pos rfl], coming_notify.mpr (hharmless hm).1⟩
    · by_cases hname : x.name = name
      · refine (hsafe.handed g x hx' hm hclosed).elim .inl fun hway => .inl ?_
        rw [hname] at hm
        refine (hharmless hm).2 g x (file?_eq_some.mpr ⟨?_, hx'⟩) hclosed
        rw [← hname]
        exact hway.1
      · refine (hsafe.handed g x hx' hm hclosed).imp_right fun hway => ⟨?_, ?_⟩
        · rw [hdir, if_neg hname]
          exact hway.1
        · exact coming_notify_of_coming hway.2

/-! ### The start, the watcher and the worker -/

theorem safe_openDir {todo : List Bytes} (hsafe : Safe n s) (hp : Possible s (.openDir todo))
    (hs : step n s (.openDir todo) = some s') : Safe n s' := by
  obtain ⟨-, rfl⟩ := step_openDir hs
  refine ⟨fun f x hx hm hclosed => ?_, hsafe.closed⟩
  refine (hsafe.handed f x hx hm hclosed).imp_right fun hway => ⟨hway.1, ?_⟩
  exact hp x.name (by rw [hway.1]; rfl)

theorem safe_scan_iff (hsafe : Safe n s) (hs : step n s .scan = some s') :
    Safe n s' ↔ Harmless n s .scan := by
  obtain ⟨name, todo, hphase, rfl⟩ := step_scan hs
  refine (safe_handOver_iff hsafe ?_).trans ?_
  · intro name' hne hcoming
    unfold State.Coming at hcoming
    rw [hphase] at hcoming
    exact (List.mem_cons.mp hcoming).resolve_left hne
  · constructor
    · intro h name' todo' hphase' hm
      rw [hphase] at hphase'
      obtain ⟨rfl, rfl⟩ := List.cons.inj (Phase.listing.inj hphase')
      exact h hm
    · intro h hm
      exact h name todo hphase hm

theorem safe_register (hsafe : Safe n s) (hs : step n s .register = some s') : Safe n s' := by
  obtain ⟨hphase, rfl⟩ := step_register hs
  refine ⟨fun f x hx hm hclosed => ?_, hsafe.closed⟩
  refine (hsafe.handed f x hx hm hclosed).imp_right fun hway => ?_
  -- the listing has no turn left
  have hcoming := hway.2
  unfold State.Coming at hcoming
  rw [hphase] at hcoming
  cases hcoming

theorem safe_deliver_iff (h : WellFormed s) (hsafe : Safe n s)
    (hs : step n s .deliver = some s') : Safe n s' ↔ Harmless n s .deliver := by
  obtain ⟨name, events, hevents, rfl⟩ := step_deliver hs
  refine (safe_handOver_iff hsafe ?_).trans ?_
  · intro name' hne hcoming
    unfold State.Coming at hcoming ⊢
    dsimp only
    cases hphase : s.phase with
    | idle => trivial
    | listing todo =>
        rw [hphase] at hcoming
        exact hcoming
    | watching =>
        rw [hphase] at hcoming
        rw [hevents] at hcoming
        exact (List.mem_cons.mp hcoming).resolve_left hne
  · constructor
    · intro hclosed name' events' hevents' hm hremoves f x hx _
      rw [hevents] at hevents'
      obtain ⟨rfl, rfl⟩ := List.cons.inj hevents'
      exact hclosed hm hremoves f x hx
    · intro hharmless hm hremoves f x hx
      cases hreused : x.reused with
      | true => exact hharmless name events hevents hm hremoves f x hx hreused
      | false =>
          -- a file that is open and not reused has no event waiting
          obtain ⟨hdir, hf⟩ := file?_eq_some.mp hx
          have hname := h.name_eq hx
          by_contra hisOpen
          refine h.fresh f x hf (by rw [hname]; exact hdir) (by simpa using hisOpen) hreused ?_
          rw [hname, hevents]
          exact List.mem_cons_self

theorem safe_take_iff {name : Bytes} (h : WellFormed s) (hsafe : Safe n s)
    (hs : step n s (.take name) = some s') : Safe n s' ↔ Harmless n s (.take name) := by
  obtain rfl := step_take hs
  constructor
  · intro hs' hm f x hx hclosed
    have hname := h.name_eq hx
    refine (hs'.handed f x (file?_eq_some.mp hx).2 (by rw [hname]; exact hm)
      hclosed).resolve_right fun hway => ?_
    have hgone := hway.1
    rw [hname, setDir_same] at hgone
    cases hgone
  · intro hharmless
    refine ⟨fun f x hx hm hclosed => ?_, hsafe.closed⟩
    rcases hsafe.handed f x hx hm hclosed with hhanded | hway
    · exact .inl hhanded
    · by_cases hname : x.name = name
      · rw [hname] at hm
        refine .inl (hharmless hm f x (file?_eq_some.mpr ⟨?_, hx⟩) hclosed)
        rw [← hname]
        exact hway.1
      · exact .inr ⟨(setDir_of_ne none hname).trans hway.1, hway.2⟩

/-! ## Runs -/

/-- From a safe state a step leads to a safe one exactly when it is harmless. -/
theorem safe_step_iff {a : Action} (h : WellFormed s) (hsafe : Safe n s) (hp : Possible s a)
    (hs : step n s a = some s') : Safe n s' ↔ Harmless n s a := by
  cases a with
  | create f name => exact iff_of_true (safe_create hsafe hs) trivial
  | write f piece => exact iff_of_true (safe_write hsafe hs) trivial
  | close f => exact safe_close_iff h hsafe hs
  | moveIn f name content => exact safe_moveIn_iff h hsafe hs
  | openDir todo => exact iff_of_true (safe_openDir hsafe hp hs) trivial
  | scan => exact safe_scan_iff hsafe hs
  | register => exact iff_of_true (safe_register hsafe hs) trivial
  | deliver => exact safe_deliver_iff h hsafe hs
  | take name => exact safe_take_iff h hsafe hs

theorem wellFormed_of_init (h : (machine n).Init s) : WellFormed s := by
  obtain ⟨hphase, hevents, -, hdir, hfiles⟩ := h
  refine ⟨fun name f hf => (hdir name f).mp hf, fun f x hx _ => (hfiles f x hx).1,
    fun f x hx _ _ _ hmem => ?_, fun _ => hevents⟩
  rw [hevents] at hmem
  cases hmem

theorem safe_of_init (h : (machine n).Init s) : Safe n s := by
  obtain ⟨hphase, -, hlog, hdir, -⟩ := h
  refine ⟨fun f x hx _ _ => .inr ⟨(hdir x.name f).mpr ⟨x, hx, rfl⟩, ?_⟩, fun _ x hx => ?_⟩
  · unfold State.Coming
    rw [hphase]
    trivial
  · rw [hlog] at hx
    cases hx

/-- When the watch is registered and no event is waiting, every turn has come. -/
theorem Safe.handed_of_quiet (hsafe : Safe n s) (hphase : s.phase = .watching)
    (hevents : s.events = []) {f : Nat} {file : File} (hf : s.files f = some file)
    (hm : n.Matches file.name) (hclosed : file.isOpen = false) : file.handed = true := by
  refine (hsafe.handed f file hf hm hclosed).resolve_right fun hway => ?_
  have hcoming := hway.2
  unfold State.Coming at hcoming
  rw [hphase, hevents] at hcoming
  cases hcoming

/-- **Startup.** In a run whose steps are all harmless no file is missed and none is taken
half-written. Once the start is over and all events have been read, every complete file
has been handed over. -/
theorem safe_of_reachable
    (h : (machine n).Reachable (fun s a => Possible s a ∧ Harmless n s a) s) :
    Safe n s ∧ (s.phase = .watching → s.events = [] → ∀ f file, s.files f = some file →
      n.Matches file.name → file.isOpen = false → file.handed = true) := by
  have hinv : WellFormed s ∧ Safe n s := by
    refine h.invariant (I := fun s => WellFormed s ∧ Safe n s)
      (fun s hinit => ⟨wellFormed_of_init hinit, safe_of_init hinit⟩) ?_
    rintro s a s' ⟨hwf, hsafe⟩ ⟨hp, hharmless⟩ hs
    exact ⟨hwf.step hs, (safe_step_iff hwf hsafe hp hs).mpr hharmless⟩
  refine ⟨hinv.2, fun hphase hevents f file hf hm hclosed => ?_⟩
  exact hinv.2.handed_of_quiet hphase hevents hf hm hclosed

/-- A directory with the finished file `a`. -/
def oneFinished : State where
  dir name := if name = [97] then some 0 else none
  files f := if f = 0 then some { name := [97], content := [1], isOpen := false } else none

theorem oneFinished_init (n : Starting) : (machine n).Init oneFinished := by
  refine ⟨rfl, rfl, rfl, fun name f => ?_, fun f file hf => ?_⟩
  · by_cases hf : f = 0
    · by_cases hname : name = [97]
      · simp [oneFinished, hf, hname]
      · simp [oneFinished, hf, hname, eq_comm]
    · by_cases hname : name = [97]
      · simp [oneFinished, hf, hname, eq_comm]
      · simp [oneFinished, hf, hname]
  · by_cases hf0 : f = 0
    · subst hf0
      cases hf
      exact ⟨rfl, rfl⟩
    · simp [oneFinished, hf0] at hf

/-- A pipeset finds `a` in its listing. A writer has begun `b` in the meantime, and closes it
when the watch is registered. -/
theorem startup_harmless :
    ∃ s, (machine pipeSet).Reachable (fun s a => Possible s a ∧ Harmless pipeSet s a) s ∧
      s.phase = .watching ∧ s.events = [] ∧ s.log.map (·.name) = [[97], [98]] ∧
      Safe pipeSet s ∧ ∃ file, s.files 1 = some file ∧ file.name = [98] ∧
        file.content = [2] ∧ file.handed = true := by
  have hbegin : (machine pipeSet).Reachable (fun s a => Possible s a ∧ Harmless pipeSet s a)
      oneFinished := .init (oneFinished_init pipeSet)
  have hopened := hbegin.next (a := .openDir [[97]]) ⟨fun name hname => by
    by_contra hne
    have hnot : name ≠ [97] := fun heq => hne (List.mem_singleton.mpr heq)
    simp [oneFinished, hnot] at hname, trivial⟩ rfl
  have hscanned := hopened.next (a := .scan) ⟨trivial, fun name todo hphase _ _ f file hfile => by
    cases hphase
    cases hfile
    rfl⟩ rfl
  have hwritten := (hscanned.next (a := .create 1 [98]) ⟨trivial, trivial⟩ rfl).next
    (a := .write 1 [2]) ⟨trivial, trivial⟩ rfl
  have hclosed := (hwritten.next (a := .register) ⟨trivial, trivial⟩ rfl).next (a := .close 1)
    ⟨trivial, fun file hfile _ => by
      cases hfile
      exact ⟨rfl, trivial⟩⟩ rfl
  have hdelivered := hclosed.next (a := .deliver)
    ⟨trivial, fun name events hevents _ _ f file hfile _ => by
      cases hevents
      cases hfile
      rfl⟩ rfl
  obtain ⟨hsafe, hhanded⟩ := safe_of_reachable hdelivered
  exact ⟨_, hdelivered, rfl, rfl, rfl, hsafe, _, rfl, rfl, rfl,
    hhanded rfl rfl 1 _ rfl (.inl rfl) rfl⟩

/-- An empty directory. -/
def emptyDir : State where
  dir _ := none
  files _ := none

theorem emptyDir_init (n : Starting) : (machine n).Init emptyDir := by
  refine ⟨rfl, rfl, rfl, fun name f => ?_, fun f file hf => ?_⟩
  · simp [emptyDir]
  · cases hf

/-- A pipeset takes a file away while it is written, and a file that is moved in between
the listing and the watch is never handed over. -/
theorem startup_unsafe :
    (∃ s, (machine pipeSet).Reachable Possible s ∧ (∃ file ∈ s.log, file.isOpen = true) ∧
      ¬ Safe pipeSet s) ∧
    ∃ s, (machine json2Click).Reachable Possible s ∧ s.phase = .watching ∧ s.events = [] ∧
      (∃ file, s.files 0 = some file ∧ file.isOpen = false ∧ file.handed = false) ∧
      ¬ Safe json2Click s := by
  constructor
  · have hempty : (machine pipeSet).Reachable Possible emptyDir := .init (emptyDir_init pipeSet)
    have hcreated := hempty.next (a := .create 0 [97]) trivial rfl
    have hwritten := hcreated.next (a := .write 0 [1]) trivial rfl
    have hopened := hwritten.next (a := .openDir [[97]]) (fun name hname => by
      have hdir : (if name = [97] then some 0 else (none : Option Nat)).isSome = true := hname
      by_contra hne
      rw [if_neg fun heq => hne (List.mem_singleton.mpr heq)] at hdir
      cases hdir) rfl
    have hscanned := hopened.next (a := .scan) trivial rfl
    refine ⟨_, hscanned, ⟨_, List.mem_singleton_self _, rfl⟩, fun hsafe => ?_⟩
    have hclosed := hsafe.closed rfl _ (List.mem_singleton_self _)
    cases hclosed
  · have hempty : (machine json2Click).Reachable Possible emptyDir :=
      .init (emptyDir_init json2Click)
    have hopened := hempty.next (a := .openDir []) (fun name hname => by cases hname) rfl
    have hmoved := hopened.next (a := .moveIn 0 [97, 46, 106, 115, 111, 110] [123, 125]) trivial rfl
    have hregistered := hmoved.next (a := .register) trivial rfl
    refine ⟨_, hregistered, rfl, rfl, ⟨_, rfl, rfl, rfl⟩, fun hsafe => ?_⟩
    have hm : json2Click.Matches [97, 46, 106, 115, 111, 110] := .inr (by decide)
    have hhanded := hsafe.handed_of_quiet rfl rfl (f := 0) rfl hm rfl
    cases hhanded

end Starting

end FlexEtl
