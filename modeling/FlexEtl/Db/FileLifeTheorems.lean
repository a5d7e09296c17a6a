/-
FlexEtl.Db.FileLifeTheorems — every file of the node has a fate.

Before the first process a file waits or is absent. `goes_step` takes its fate
along a run, through the rule for simulations, so whatever the node does each
file only goes through the life that `Fate.Next` describes. Where a file is can
then be read off its fate: `file_accounted`.
-/
import FlexEtl.Db.FileLifeSteps
import FlexEtl.Db.SendBlock
import FlexEtl.Table.CdbTheorems

namespace FlexEtl

/-! ## Whole runs -/

/-- A file's fate before the first process. -/
def Fate.Begins (f : Fate) : Prop := f = .absent ∨ f = .pending

namespace System

variable {γ : Type} {columns : Columns γ} {cfg : Click2DB.Config} {s : System γ}

theorem shows_initial (hcfg : cfg.Complete) {fs : Fs} {names : List String}
    (hnames : ∀ name, name ∈ names ↔ (fs { dir := cfg.m_toSend, filename := name }).isSome)
    (hdistinct : DistinctNames cfg (initial cfg fs names : System γ)) (p : Path) :
    ∃ f : Fate, f.Begins ∧ Shows cfg (initial cfg fs names : System γ) p f := by
  have hcount : ∀ e : SenderEvent, (∀ file, e ≠ .accepted file) →
      (initial cfg fs names : System γ).db.log.count e = 0 := by
    intro e hne
    refine List.count_eq_zero_of_not_mem fun hmem => ?_
    obtain ⟨name, -, hname⟩ := List.mem_map.mp hmem
    exact hne _ hname.symm
  have haccepted : .accepted p ∈ (initial cfg fs names : System γ).db.log ↔
      p.dir = cfg.m_toSend ∧ (initial cfg fs names : System γ).has cfg.m_toSend p := by
    show _ ↔ p.dir = cfg.m_toSend ∧ (fs { dir := cfg.m_toSend, filename := p.filename }).isSome
    rw [← hnames]
    constructor
    · intro hmem
      obtain ⟨name, hlisted, hname⟩ := List.mem_map.mp hmem
      cases hname
      exact ⟨rfl, hlisted⟩
    · rintro ⟨hdir, hmem⟩
      refine List.mem_map.mpr ⟨p.filename, hmem, ?_⟩
      rw [← hdir]
  by_cases hwaits : p.dir = cfg.m_toSend ∧ (initial cfg fs names : System γ).has cfg.m_toSend p
  · obtain ⟨hhome, hhas⟩ := hwaits
    refine ⟨.pending, .inr rfl, fun _ => hhome, fun _ dir hmem => ?_, (by simp), rfl, rfl, rfl, rfl,
      trivial, ⟨?_, hcount _ (by simp), hcount _ (by simp), fun r => ?_,
        fun r _ => hcount _ (by simp), (by simp)⟩⟩
    · obtain ⟨hfailed, hbad⟩ := hdistinct p hhas
      simp only [Click2DB.Config.dirs, List.mem_cons, List.not_mem_nil, or_false] at hmem
      rcases hmem with rfl | rfl | rfl
      · exact ⟨fun _ => rfl, fun _ => hhas⟩
      · exact ⟨fun h => absurd h hfailed, fun h => absurd (Option.some.inj h).symm hcfg.failed_ne⟩
      · exact ⟨fun h => absurd h hbad, fun h => absurd (Option.some.inj h).symm hcfg.bad_ne⟩
    · exact ⟨fun _ => rfl, fun _ => haccepted.mpr ⟨hhome, hhas⟩⟩
    · rw [hcount (.sendFailed r p) (by simp)]
      exact Nat.zero_le _
  · refine ⟨.absent, .inl rfl, fun hf => absurd rfl hf, fun hf => absurd rfl hf,
      fun _ hhome hhas => ?_, rfl, rfl, rfl, trivial, trivial, ⟨?_, hcount _ (by simp),
        hcount _ (by simp), fun r => hcount _ (by simp), fun r _ => hcount _ (by simp), (by simp)⟩⟩
    · exact hwaits ⟨hhome, hhas⟩
    · exact ⟨fun hmem => absurd (haccepted.mp hmem) hwaits, (by simp [Fate.accepted])⟩

/-- All the files at once: each goes on in its life, or stays where it is. -/
def AllNext (f f' : Path → Fate) : Prop := ∀ p, Relation.ReflGen Fate.Next (f p) (f' p)

theorem next_of_allNext {f f' : Path → Fate} (h : Relation.ReflTransGen AllNext f f') (p : Path) :
    Relation.ReflTransGen Fate.Next (f p) (f' p) := by
  induction h with
  | refl => exact .refl
  | tail _ hnext ih => exact ih.trans (hnext p).to_reflTransGen

/-- **The files live apart.** Whatever the node does, each of its files goes through the
steps of `Fate.Next`, from a fate that a file may begin with. -/
theorem lives (hcfg : cfg.Complete)
    (h : ((machine columns cfg).starting (DistinctNames cfg)).Reachable (Smooth cfg) s) :
    ∃ f₀ f : Path → Fate, (∀ p, (f₀ p).Begins) ∧
      (∀ p, Relation.ReflTransGen Fate.Next (f₀ p) (f p)) ∧ ∀ p, Shows cfg s p (f p) := by
  have hinit : ∀ s, ((machine columns cfg).starting (DistinctNames cfg)).Init s →
      ∃ f : Path → Fate, (∀ p, (f p).Begins) ∧ ∀ p, Shows cfg s p (f p) := by
    rintro s ⟨⟨fs, names, rfl, hnames⟩, hdistinct⟩
    choose f hf using fun p => shows_initial hcfg hnames hdistinct p
    exact ⟨f, fun p => (hf p).1, fun p => (hf p).2⟩
  have hstep : ∀ s a s' (f : Path → Fate), (∀ p, Shows cfg s p (f p)) → Smooth cfg s a →
      (machine columns cfg).step s a = some s' →
      ∃ f', Relation.ReflTransGen AllNext f f' ∧ ∀ p, Shows cfg s' p (f' p) := by
    intro s a s' f hf ha hs
    have hs' : s.step columns cfg a = some s' := hs
    have hgoes := goes_step hcfg (fun p => ⟨f p, hf p⟩) ha hs'
    choose f' hnext hf' using fun p => hgoes p (f p) (hf p)
    exact ⟨f', .single hnext, hf'⟩
  obtain ⟨f₀, f, hbegins, hlives, hshows⟩ := h.simulation hinit hstep
  exact ⟨f₀, f, hbegins, next_of_allNext hlives, hshows⟩

/-! ## Where a file is -/

/-- The place that a fate means. -/
def placeOf : Fate → Place
  | .deleted => .deleted
  | .failed _ => .failed
  | .badfiles => .badfiles
  | _ => .tosend

theorem not_inserted {p : Path} {f : Fate} (h : Shows cfg s p f) (hf : f.inserts = 0) :
    .inserted p ∉ s.db.log := by
  rw [← List.count_eq_zero, h.history.inserts, hf]

/-- An accepted file that the worker does not hold is in the place of its fate. -/
theorem at_placeOf {p : Path} {f : Fate} (h : Shows cfg s p f) (haccepted : .accepted p ∈ s.db.log)
    (hfree : s.pc.handOf p = none) : s.At cfg p (placeOf f) := by
  have hknown := h.history.accepted.mp haccepted
  have hhand := h.hand
  rw [hfree] at hhand
  cases f with
  | absent => cases hknown
  | copied => cases hknown
  | inHand stage n => cases hhand
  | pending =>
      exact ⟨(h.present (by simp) _ cfg.toSend_mem).mpr rfl, not_inserted h rfl, .inl h.process⟩
  | queued n =>
      exact ⟨(h.present (by simp) _ cfg.toSend_mem).mpr rfl, not_inserted h rfl,
        .inr ⟨n, h.bounded, h.entries⟩⟩
  | deleted =>
      refine ⟨fun dir hmem hhas => ?_, h.history.inserts⟩
      cases (h.present (by simp) dir hmem).mp hhas
  | failed run =>
      have htries := h.history.tries run
      simp only [Fate.Tries, if_true] at htries
      exact ⟨(h.present (by simp) _ cfg.sendFailed_mem).mpr rfl, not_inserted h rfl, run,
        h.history.gaveUp run rfl, htries⟩
  | badfiles =>
      refine ⟨(h.present (by simp) _ cfg.loadFailed_mem).mpr rfl, not_inserted h rfl, ?_⟩
      rw [← List.count_pos_iff, h.history.loads]
      exact Nat.one_pos

/-- Where a file is tells its fate's place. -/
theorem placeOf_eq (hcfg : cfg.Complete) {p : Path} {f : Fate} (h : Shows cfg s p f)
    (hknown : f.accepted = true) (hfree : f.hand = none) {place : Place} (hat : s.At cfg p place) :
    place = placeOf f := by
  have hf : f ≠ .absent := fun hf => by rw [hf] at hknown; cases hknown
  have hdir : ∀ dir ∈ cfg.dirs, s.has dir p → f.dir cfg = some dir :=
    fun dir hmem => (h.present hf dir hmem).mp
  cases place with
  | tosend =>
      have hwaits := hdir _ cfg.toSend_mem hat.1
      cases f with
      | deleted => cases hwaits
      | failed run => exact absurd (Option.some.inj hwaits) hcfg.failed_ne
      | badfiles => exact absurd (Option.some.inj hwaits) hcfg.bad_ne
      | _ => rfl
  | deleted =>
      have hgone : ∀ dir ∈ cfg.dirs, f.dir cfg ≠ some dir :=
        fun dir hmem heq => hat.1 dir hmem ((h.present hf dir hmem).mpr heq)
      cases f with
      | absent => exact absurd rfl hf
      | deleted => rfl
      | failed run => exact absurd rfl (hgone _ cfg.sendFailed_mem)
      | badfiles => exact absurd rfl (hgone _ cfg.loadFailed_mem)
      | _ => exact absurd rfl (hgone _ cfg.toSend_mem)
  | failed =>
      obtain ⟨hhas, -, run, -, htries⟩ := hat
      have hthree := h.history.tries run
      have hthere := hdir _ cfg.sendFailed_mem hhas
      rw [htries] at hthree
      cases f with
      | absent => exact absurd rfl hf
      | deleted => cases hthere
      | failed run' => rfl
      -- the two directories may be the same one: the failed sends tell the files apart
      | badfiles => exact absurd hthree (by simp [Fate.Tries])
      | inHand stage n => cases hfree
      | _ => exact absurd (Option.some.inj hthere).symm hcfg.failed_ne
  | badfiles =>
      obtain ⟨hhas, -, hload⟩ := hat
      have hthere := hdir _ cfg.loadFailed_mem hhas
      rw [← List.count_pos_iff, h.history.loads] at hload
      cases f with
      | absent => exact absurd rfl hf
      | deleted => cases hthere
      | failed run' => cases hload
      | badfiles => rfl
      | inHand stage n => cases hfree
      | _ => exact absurd (Option.some.inj hthere).symm hcfg.bad_ne

/-- **No file is lost, and none is inserted twice.** Let file operations succeed and
file names be distinct. Whatever the server, the readers of the files, the other
threads and the restarts of the process do: an accepted file that the worker does not
just hold is in exactly one place; and a file that is in none of the directories was
inserted, exactly once. -/
theorem file_accounted (hcfg : cfg.Complete)
    (h : ((machine columns cfg).starting (DistinctNames cfg)).Reachable (Smooth cfg) s) (p : Path)
    (haccepted : .accepted p ∈ s.db.log) :
    (s.pc.handOf p = none → ∃! place, s.At cfg p place) ∧
    ((∀ dir ∈ cfg.dirs, ¬ s.has dir p) → s.db.log.count (.inserted p) = 1) := by
  obtain ⟨-, f, -, -, hshows⟩ := lives hcfg h
  have hp := hshows p
  have hknown := hp.history.accepted.mp haccepted
  refine ⟨fun hfree => ?_, fun hgone => ?_⟩
  · exact ⟨placeOf (f p), at_placeOf hp haccepted hfree,
      fun place hat => placeOf_eq hcfg hp hknown (hp.hand.symm.trans hfree) hat⟩
  · have hf : f p ≠ .absent := fun hf => by rw [hf] at hknown; cases hknown
    have hdir : ∀ dir ∈ cfg.dirs, (f p).dir cfg ≠ some dir :=
      fun dir hmem heq => hgone dir hmem ((hp.present hf dir hmem).mpr heq)
    rw [hp.history.inserts]
    cases hfate : f p with
    | absent => exact absurd hfate hf
    | deleted => rfl
    | failed run => exact absurd (by rw [hfate]; rfl) (hdir _ cfg.sendFailed_mem)
    | badfiles => exact absurd (by rw [hfate]; rfl) (hdir _ cfg.loadFailed_mem)
    | _ => exact absurd (by rw [hfate]; rfl) (hdir _ cfg.toSend_mem)

/-- One file waits before the first process. -/
def waitingFile : Path := { dir := "tosend", filename := "a.cdb" }

def oneFile : Fs := fun p => if p = waitingFile then some plainTable.saved else none

theorem mem_oneFile (name : String) :
    name ∈ ["a.cdb"] ↔ (oneFile { dir := plainConfig.m_toSend, filename := name }).isSome := by
  by_cases h : name = "a.cdb"
  · simp [oneFile, waitingFile, plainConfig, h]
  · simp [oneFile, waitingFile, plainConfig, h]

theorem distinctNames_oneFile :
    DistinctNames plainConfig (initial plainConfig oneFile ["a.cdb"] : System γ) := by
  intro p _
  constructor
  · simp [System.has, initial, oneFile, waitingFile, plainConfig]
  · simp [System.has, initial, oneFile, waitingFile, plainConfig]

/-- The file is loaded while it is there. -/
theorem step_load_waitingFile {s : System γ} {n : Nat} (hpc : s.pc = .load (n, waitingFile))
    (hfs : s.fs = oneFile) :
    ((machine columns cfg).starting (DistinctNames cfg)).step s (.lifeProc {}) =
      some { s with pc := .send (n, waitingFile) plainTable } := by
  have hload : ClickTable.load {} waitingFile.string (some plainTable.saved) =
      .returned plainTable :=
    load_saved_of_plain (ClickTable.aligned_run ClickTable.aligned_empty _)
      fits_plainTable plain_plainTable waitingFile.string
  have hfile : s.fs waitingFile = some plainTable.saved := by rw [hfs]; simp [oneFile]
  show s.step columns cfg (.lifeProc {}) = _
  simp only [step, lifeProc, hpc, load, hfile, id]
  rw [hload]

/-- What the worker does from the head of its loop to the file in its hands, while the server
describes a table with the column `k`. -/
def takesFile : List Action :=
  [.lifeProc {}, .lifeProc {}, .lifeProc {}, .lifeProc { description := .ok [([107], [73])] },
    .lifeProc {}, .lifeProc { dequeue := some 0 }]

/-- The first send of the file fails, the second succeeds, and the file is removed. -/
def resentFile : System Nat where
  pc := .loop
  db := {
    m_run := true
    m_tblType := Click2DB.tblTypeOf [([107], [73])]
    m_pClickDB := some 0
    g_ErrorDB := 1
    g_InsertedRows := 1
    log := [.moved 1 "" waitingFile, .inserted waitingFile, .called .Insert (some 0),
      .described 0, .called .Execute (some 0), .requeued waitingFile, .sendFailed 1 waitingFile,
      .called .Insert (some 0), .described 0, .called .Execute (some 0), .connected 0,
      .accepted waitingFile]
    inserts := [⟨some 0, [116], { columns := [([107], 1)], rows := 1 }⟩,
      ⟨some 0, [116], { columns := [([107], 1)], rows := 1 }⟩] }
  updateTblDesc := false
  fs := oneFile.erase waitingFile
  clients := 1
  run := 1

theorem reachable_resentFile :
    ((machine Click2DB.sizeColumns plainConfig).starting (DistinctNames plainConfig)).Reachable
      (Smooth plainConfig) resentFile := by
  have hinit : ((machine Click2DB.sizeColumns plainConfig).starting
      (DistinctNames plainConfig)).Init (initial plainConfig oneFile ["a.cdb"]) :=
    ⟨⟨oneFile, ["a.cdb"], rfl, mem_oneFile⟩, distinctNames_oneFile⟩
  have hbegin : ((machine Click2DB.sizeColumns plainConfig).starting
      (DistinctNames plainConfig)).Reachable (Smooth plainConfig)
      (initial plainConfig oneFile ["a.cdb"]) := .init hinit
  have hstarted := (hbegin.next (a := .init ["a.cdb"])
    ⟨⟨by decide, mem_oneFile⟩, trivial⟩ rfl).next (a := .start) ⟨trivial, trivial⟩ rfl
  have htakes : ∀ a ∈ takesFile, ∀ s : System Nat, Smooth plainConfig s a := by
    simp [takesFile, Smooth, Possible]
  have hfailed := ((hstarted.run htakes rfl).next (a := .lifeProc {}) ⟨trivial, rfl⟩
    (step_load_waitingFile (n := 0) rfl rfl)).next
    (a := .lifeProc { send := { insert := .error "timeout" } }) ⟨trivial, rfl⟩ rfl |>.next
    (a := .lifeProc {}) ⟨trivial, rfl⟩ rfl
  exact ((hfailed.run htakes rfl).next (a := .lifeProc {}) ⟨trivial, rfl⟩
    (step_load_waitingFile (n := 1) rfl rfl)).next (a := .lifeProc {}) ⟨trivial, rfl⟩ rfl |>.next
    (a := .lifeProc {}) ⟨trivial, rfl⟩ rfl

/-- The removed file is in one place, and it was inserted once. -/
theorem file_accounted_resentFile :
    (∃! place, resentFile.At plainConfig waitingFile place) ∧
      resentFile.db.log.count (.inserted waitingFile) = 1 := by
  have hcfg : plainConfig.Complete := ⟨by decide, by decide, by decide, by decide⟩
  obtain ⟨hplace, hinserted⟩ := file_accounted hcfg reachable_resentFile waitingFile (by decide)
  refine ⟨hplace rfl, hinserted fun dir hdir => ?_⟩
  have hgone : dir = "tosend" ∨ dir = "failed" ∨ dir = "bad" := by
    simpa [plainConfig, Click2DB.Config.dirs] using hdir
  rcases hgone with rfl | rfl | rfl
  · simp [has, resentFile, waitingFile, Fs.erase]
  · simp [has, resentFile, oneFile, waitingFile, Fs.erase]
  · simp [has, resentFile, oneFile, waitingFile, Fs.erase]

end System

end FlexEtl
