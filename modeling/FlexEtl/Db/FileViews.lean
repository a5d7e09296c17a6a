/-
FlexEtl.Db.FileViews — what a step leaves alone.

Lemmas about the parts of the state that `Shows` looks at: the entries of a
file in the queue, the paths with its name, and what the record says of it.
`Same` collects these parts, and `Touches` says that a step concerns one file
only, so it is `Same` for every other.
-/
import FlexEtl.Db.FileLife

namespace FlexEtl

variable {γ : Type}

/-! ## Queues -/

theorem entries_append (queue : List (Nat × Path)) (file : Nat × Path) (p : Path) :
    entries (queue ++ [file]) p = entries queue p ++ if file.2 = p then [file.1] else [] := by
  unfold entries
  rw [List.filter_append, List.map_append]
  by_cases h : file.2 = p
  · simp [h]
  · simp [h]

/-- An entry that is taken out stood between those that stay. -/
theorem split_of_getElem? {queue : List (Nat × Path)} {i : Nat} {file : Nat × Path}
    (h : queue[i]? = some file) : ∃ l r, queue = l ++ file :: r ∧ queue.eraseIdx i = l ++ r := by
  obtain ⟨hi, rfl⟩ := List.getElem?_eq_some_iff.mp h
  refine ⟨queue.take i, queue.drop (i + 1), ?_, List.eraseIdx_eq_take_drop_succ queue i⟩
  rw [List.getElem_cons_drop, List.take_append_drop]

theorem entries_eraseIdx_of_ne {queue : List (Nat × Path)} {i : Nat} {file : Nat × Path} {p : Path}
    (h : queue[i]? = some file) (hne : file.2 ≠ p) :
    entries (queue.eraseIdx i) p = entries queue p := by
  obtain ⟨l, r, hqueue, herase⟩ := split_of_getElem? h
  rw [herase, hqueue]
  simp [entries, hne]

/-- The only entry of a file is the one that is taken out. -/
theorem entries_eraseIdx_same {queue : List (Nat × Path)} {i n : Nat} {file : Nat × Path}
    (h : queue[i]? = some file) (hone : entries queue file.2 = [n]) :
    n = file.1 ∧ entries (queue.eraseIdx i) file.2 = [] := by
  obtain ⟨l, r, hqueue, herase⟩ := split_of_getElem? h
  have hsplit : entries queue file.2 = entries l file.2 ++ file.1 :: entries r file.2 := by
    rw [hqueue]
    simp [entries]
  rw [hsplit] at hone
  have hlength := congrArg List.length hone
  simp only [List.length_append, List.length_cons, List.length_nil] at hlength
  have hl : entries l file.2 = [] := List.eq_nil_of_length_eq_zero (by omega)
  have hr : entries r file.2 = [] := List.eq_nil_of_length_eq_zero (by omega)
  rw [hl, hr] at hone
  refine ⟨(List.cons.inj hone).1.symm, ?_⟩
  rw [herase]
  have happend : entries (l ++ r) file.2 = entries l file.2 ++ entries r file.2 := by simp [entries]
  rw [happend, hl, hr]
  rfl

theorem mem_entries {queue : List (Nat × Path)} {file : Nat × Path} (h : file ∈ queue) :
    file.1 ∈ entries queue file.2 :=
  List.mem_map.mpr ⟨file, List.mem_filter.mpr ⟨h, by simp⟩, rfl⟩

/-- The queue that `init` fills has one entry for each file of the directory. -/
theorem entries_listing (dir : String) {listing : List String} (hnodup : listing.Nodup) (p : Path) :
    entries (listing.map fun name => (0, { dir := dir, filename := name })) p =
      if p.dir = dir ∧ p.filename ∈ listing then [0] else [] := by
  induction listing with
  | nil => simp [entries]
  | cons name listing ih =>
      obtain ⟨hnot, hnodup'⟩ := List.nodup_cons.mp hnodup
      have hcons :
          entries ((name :: listing).map fun name => (0, { dir := dir, filename := name })) p
          = (if ({ dir := dir, filename := name } : Path) = p then [0] else []) ++
            entries (listing.map fun name => (0, { dir := dir, filename := name })) p := by
        by_cases hp : ({ dir := dir, filename := name } : Path) = p
        · simp [entries, hp]
        · simp [entries, hp]
      rw [hcons, ih hnodup']
      obtain ⟨pdir, pname⟩ := p
      by_cases hd : pdir = dir
      · by_cases hn : name = pname
        · subst hd hn
          simp [hnot]
        · have hn' : ¬ pname = name := fun h => hn h.symm
          simp [hd, hn, hn']
      · have hd' : ¬ dir = pdir := fun h => hd h.symm
        simp [hd, hd']

/-! ## Files -/

theorem Fs.rename_of_filename_ne {fs : Fs} {source : Path} {dir : String} {p : Path}
    (h : p.filename ≠ source.filename) :
    fs.rename source { dir := dir, filename := source.filename } p = fs p := by
  have hsource : p ≠ source := fun heq => h (by rw [heq])
  have htarget : p ≠ { dir := dir, filename := source.filename } := fun heq => h (by rw [heq])
  cases hcontent : fs source with
  | none => simp only [Fs.rename, hcontent]
  | some content =>
      simp only [Fs.rename, hcontent]
      rw [Fs.write_of_ne _ _ htarget, Fs.erase_of_ne _ hsource]

theorem Fs.rename_isSome {fs : Fs} {source : Path} {dir : String} (h : (fs source).isSome)
    (dir' : String)
    (honly : (fs { dir := dir', filename := source.filename }).isSome → dir' = source.dir) :
    (fs.rename source { dir := dir, filename := source.filename }
      { dir := dir', filename := source.filename }).isSome ↔ dir' = dir := by
  obtain ⟨content, hcontent⟩ := Option.isSome_iff_exists.mp h
  simp only [Fs.rename, hcontent]
  by_cases hd : dir' = dir
  · rw [hd, Fs.write_same]
    exact ⟨fun _ => rfl, fun _ => rfl⟩
  · have htarget : ({ dir := dir', filename := source.filename } : Path) ≠
        { dir := dir, filename := source.filename } := by simpa using hd
    rw [Fs.write_of_ne _ _ htarget]
    refine ⟨fun hsome => ?_, fun heq => absurd heq hd⟩
    by_cases hs : dir' = source.dir
    · rw [hs, Fs.erase_same] at hsome
      cases hsome
    · have hsource : ({ dir := dir', filename := source.filename } : Path) ≠ source := by
        intro heq
        exact hs (by rw [← heq])
      rw [Fs.erase_of_ne _ hsource] at hsome
      exact absurd (honly hsome) hs

/-- The worker's three ways to be done with a file, when nothing fails. -/
theorem moveFile_smooth {fs : Fs} {file : Path} {toPath : String} (h : (fs file).isSome) :
    moveFile {} toPath file fs =
      (true, if toPath = "" then fs.erase file
        else fs.rename file { dir := toPath, filename := file.filename }) := by
  obtain ⟨content, hcontent⟩ := Option.isSome_iff_exists.mp h
  unfold moveFile
  split
  · simp [hcontent]
  · simp [hcontent]

/-! ## The record -/

/-- The record after a step is the one before it, with `new` about files. -/
def Logged (log log' new : List SenderEvent) : Prop :=
  ∀ e, e.file ≠ none → log'.count e = (new ++ log).count e

theorem logged_refl (log : List SenderEvent) : Logged log log [] := fun _ _ => rfl

theorem logged_append (log : List SenderEvent) {l : List SenderEvent}
    (hnew : ∀ e ∈ l, e.file = none) : Logged log (l ++ log) [] := by
  intro e he
  rw [List.count_append, List.nil_append, List.count_eq_zero_of_not_mem, Nat.zero_add]
  exact fun hmem => he (hnew e hmem)

theorem Logged.cons {log log' new : List SenderEvent} (h : Logged log log' new) (e : SenderEvent) :
    Logged log (e :: log') (e :: new) := by
  intro e' he'
  rw [List.count_cons, h e' he', List.cons_append, List.count_cons]

theorem Logged.mem {log log' new : List SenderEvent} (h : Logged log log' new) {e : SenderEvent}
    (he : e.file ≠ none) : e ∈ log' ↔ e ∈ new ++ log := by
  rw [← List.count_pos_iff, ← List.count_pos_iff, h e he]

/-- Nothing about other files is new. -/
theorem Logged.other {log log' new : List SenderEvent} (h : Logged log log' new) {q p : Path}
    (hnew : ∀ e ∈ new, e.file = some q) (hne : q ≠ p) {e : SenderEvent} (he : e.file = some p) :
    log'.count e = log.count e := by
  have hnone : e.file ≠ none := by rw [he]; nofun
  rw [h e hnone, List.count_append, List.count_eq_zero_of_not_mem, Nat.zero_add]
  intro hmem
  exact hne (Option.some.inj ((hnew e hmem).symm.trans he))

theorem History.same {cfg : Click2DB.Config} {run : Nat} {p : Path} {log log' : List SenderEvent}
    {f : Fate} (h : History cfg run p log f)
    (hlog : ∀ e, e.file = some p → log'.count e = log.count e) : History cfg run p log' f where
  accepted := by
    rw [← List.count_pos_iff, hlog _ rfl, List.count_pos_iff]
    exact h.accepted
  loads := (hlog _ rfl).trans h.loads
  inserts := (hlog _ rfl).trans h.inserts
  tries r := by
    rw [hlog _ rfl]
    exact h.tries r
  later r hr := (hlog _ rfl).trans (h.later r hr)
  gaveUp r hf := by
    rw [← List.count_pos_iff, hlog _ rfl, List.count_pos_iff]
    exact h.gaveUp r hf

/-- A fate may change without a record of it. -/
theorem History.turn {cfg : Click2DB.Config} {run run' : Nat} {p : Path} {log : List SenderEvent}
    {f f' : Fate} (h : History cfg run p log f) (haccepted : f.accepted = f'.accepted)
    (hloads : f.loads = f'.loads) (hinserts : f.inserts = f'.inserts) (hrun : run ≤ run')
    (htries : ∀ r k, (run < r → k = 0) → f.Tries run r k → f'.Tries run' r k)
    (hgaveUp : ∀ r, f' = .failed r → f = .failed r) : History cfg run' p log f' where
  accepted := haccepted ▸ h.accepted
  loads := h.loads.trans hloads
  inserts := h.inserts.trans hinserts
  tries r := htries r _ (h.later r) (h.tries r)
  later r hr := h.later r (by omega)
  gaveUp r hf := h.gaveUp r (hgaveUp r hf)

/-- A fate that changes with an event. -/
theorem History.event {cfg : Click2DB.Config} {run : Nat} {p : Path} {log log' : List SenderEvent}
    {f f' : Fate} (h : History cfg run p log f) {e : SenderEvent} (hlog : Logged log log' [e])
    (haccepted : (e = .accepted p ∨ f.accepted = true) ↔ f'.accepted = true)
    (hloads : f.loads + (if e = .loadFailed p then 1 else 0) = f'.loads)
    (hinserts : f.inserts + (if e = .inserted p then 1 else 0) = f'.inserts)
    (htries : ∀ r k, f.Tries run r k → f'.Tries run r (k + if e = .sendFailed r p then 1 else 0))
    (hlater : ∀ r, run < r → e ≠ .sendFailed r p)
    (hgaveUp : ∀ r, f' = .failed r → e = .moved r cfg.m_sendFailed p) :
    History cfg run p log' f' := by
  have hcount : ∀ e', e'.file ≠ none →
      log'.count e' = log.count e' + if e = e' then 1 else 0 := by
    intro e' he'
    rw [hlog e' he', List.singleton_append, List.count_cons]
    simp
  refine ⟨?_, ?_, ?_, fun r => ?_, fun r hr => ?_, fun r hf => ?_⟩
  · rw [hlog.mem (by nofun), List.singleton_append, List.mem_cons, h.accepted, ← haccepted, eq_comm]
  · rw [hcount _ (by nofun), h.loads, hloads]
  · rw [hcount _ (by nofun), h.inserts, hinserts]
  · rw [hcount _ (by nofun)]
    exact htries r _ (h.tries r)
  · rw [hcount _ (by nofun), h.later r hr, if_neg (hlater r hr)]
  · rw [hlog.mem (by nofun), hgaveUp r hf]
    exact List.mem_cons_self

/-! ## Steps that leave a file alone -/

theorem Click2DB.Config.toSend_mem (cfg : Click2DB.Config) : cfg.m_toSend ∈ cfg.dirs := by
  simp [Click2DB.Config.dirs]

theorem Click2DB.Config.sendFailed_mem (cfg : Click2DB.Config) : cfg.m_sendFailed ∈ cfg.dirs := by
  simp [Click2DB.Config.dirs]

theorem Click2DB.Config.loadFailed_mem (cfg : Click2DB.Config) : cfg.m_loadFailed ∈ cfg.dirs := by
  simp [Click2DB.Config.dirs]

/-- What the system shows of the file has not changed. -/
structure Same (cfg : Click2DB.Config) (s s' : System γ) (p : Path) : Prop where
  present : p.dir = cfg.m_toSend → ∀ dir ∈ cfg.dirs, s'.has dir p ↔ s.has dir p
  entries : entries s'.db.m_pQueue p = entries s.db.m_pQueue p
  hand : s'.pc.handOf p = s.pc.handOf p
  arriving : s'.arriving.count p = s.arriving.count p
  down : s'.pc = .down ↔ s.pc = .down
  run : s'.run = s.run
  log : ∀ e, e.file = some p → s'.db.log.count e = s.db.log.count e

theorem process_of_down {pc pc' : Pc} {f : Fate} (hdown : pc' = .down ↔ pc = .down)
    (h : f.Process pc) : f.Process pc' := by
  cases f with
  | copied => exact fun hpc => h (hdown.mp hpc)
  | queued n => exact fun hpc => h (hdown.mp hpc)
  | pending => exact hdown.mpr h
  | _ => trivial

theorem Shows.same {cfg : Click2DB.Config} {s s' : System γ} {p : Path} {f : Fate}
    (h : Shows cfg s p f) (hs : Same cfg s s' p) : Shows cfg s' p f where
  home := h.home
  present hf dir hdir := (hs.present (h.home hf) dir hdir).trans (h.present hf dir hdir)
  apart hf hhome hhas := h.apart hf hhome ((hs.present hhome _ cfg.toSend_mem).mp hhas)
  entries := hs.entries.trans h.entries
  hand := hs.hand.trans h.hand
  arriving := hs.arriving.trans h.arriving
  process := process_of_down hs.down h.process
  bounded := h.bounded
  history := by
    rw [hs.run]
    exact h.history.same hs.log

/-- A step that concerns one file. -/
structure Touches (s s' : System γ) (q : Path) : Prop where
  fs : ∀ p : Path, p.filename ≠ q.filename → s'.fs p = s.fs p
  entries : ∀ p, q ≠ p → entries s'.db.m_pQueue p = entries s.db.m_pQueue p
  hand : ∀ p, q ≠ p → s'.pc.handOf p = s.pc.handOf p
  arriving : ∀ p, q ≠ p → s'.arriving.count p = s.arriving.count p
  down : s'.pc = .down ↔ s.pc = .down
  run : s'.run = s.run
  log : ∀ p, q ≠ p → ∀ e, e.file = some p → s'.db.log.count e = s.db.log.count e

theorem Touches.same {cfg : Click2DB.Config} {s s' : System γ} {q p : Path} (h : Touches s s' q)
    (hq : q.dir = cfg.m_toSend) (hne : q ≠ p) : Same cfg s s' p where
  present hp dir _ := by
    have hname : p.filename ≠ q.filename := by
      intro heq
      refine hne ?_
      cases q
      cases p
      simp only at hp hq heq
      rw [hp, hq, heq]
    unfold System.has
    rw [h.fs { dir := dir, filename := p.filename } hname]
  entries := h.entries p hne
  hand := h.hand p hne
  arriving := h.arriving p hne
  down := h.down
  run := h.run
  log := h.log p hne

/-- Where the worker holds no other file than `q`. -/
def HoldsOnly (pc : Pc) (q : Path) : Prop := ∀ held, pc.hand = some held → held.2.2 = q

theorem handOf_of_ne {pc : Pc} {q p : Path} (h : HoldsOnly pc q) (hne : q ≠ p) :
    pc.handOf p = none := by
  unfold Pc.handOf
  cases hhand : pc.hand with
  | none => rfl
  | some held =>
      have hq := h held hhand
      simp only [hq, if_neg hne]

theorem holdsOnly_of_none {pc : Pc} (h : pc.hand = none) (q : Path) : HoldsOnly pc q := by
  intro held hheld
  rw [h] at hheld
  cases hheld

theorem holdsOnly_of_some {pc : Pc} {stage : Stage} {file : Nat × Path}
    (h : pc.hand = some (stage, file)) : HoldsOnly pc file.2 := by
  intro held hheld
  rw [h] at hheld
  cases hheld
  rfl

/-- A step of the worker that concerns one file. -/
theorem touches_of {s s' : System γ} {q : Path} {l : List SenderEvent}
    (hfs : ∀ p : Path, p.filename ≠ q.filename → s'.fs p = s.fs p)
    (hentries : ∀ p, q ≠ p → entries s'.db.m_pQueue p = entries s.db.m_pQueue p)
    (harriving : s'.arriving = s.arriving) (hrun : s'.run = s.run) (hhand : HoldsOnly s.pc q)
    (hhand' : HoldsOnly s'.pc q) (hdown : s.pc ≠ .down) (hdown' : s'.pc ≠ .down)
    (hlog : Logged s.db.log s'.db.log l) (hnew : ∀ e ∈ l, e.file = some q) :
    Touches s s' q where
  fs := hfs
  entries := hentries
  hand p hne := (handOf_of_ne hhand' hne).trans (handOf_of_ne hhand hne).symm
  arriving p _ := by rw [harriving]
  down := ⟨fun h => absurd h hdown', fun h => absurd h hdown⟩
  run := hrun
  log _ hne _ he := hlog.other hnew hne he

end FlexEtl
