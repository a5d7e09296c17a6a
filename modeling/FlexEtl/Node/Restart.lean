/-
FlexEtl.Node.Restart — a killed pipeset, started again.

`restart` is what the next process does before its workers run: `init` of every
sub-node, which queues what is in its directory, and then `PipeBase::start`,
which hands every file of the watched directory to `doProc`. The files do not
meet, so what a restart makes of one is what `doProc` makes of it (`view_scan`),
and that tells which kills it repairs (`survives_iff`).
-/
import FlexEtl.Node.FanoutTheorems

namespace FlexEtl

namespace PipeSet

/-! ## The next process -/

/-- What the next process finds: what the directory iterators show, every file that is
there and no name twice, and what the system answers to each call of `doProc`. -/
structure Restart (watchDir : String) (s : Fanout) where
  tosend : Nat → List String
  listing : List String
  env : String → Env
  mem_tosend : ∀ i sub, s.subs[i]? = some sub → ∀ name,
    name ∈ tosend i ↔ (s.fs { dir := sub.m_toSend, filename := name }).isSome
  mem_listing : ∀ name, name ∈ listing ↔ (s.fs { dir := watchDir, filename := name }).isSome
  nodup_listing : listing.Nodup

namespace Restart

variable {watchDir : String} {s : Fanout} (r : Restart watchDir s)

/-- `Click2DB::init` of every sub-node. The queue is a new one. -/
def init : Fanout :=
  { s with subs := s.subs.mapIdx fun i sub => { sub with
      m_pQueue := (r.tosend i).map fun name => (0, { dir := sub.m_toSend, filename := name }) } }

/-- `PipeBase::start` as far as a part of the listing. -/
def scan (names : List String) (t : Fanout) : Fanout :=
  names.foldl (fun t name => proc (r.env name) { dir := watchDir, filename := name } t) t

/-- The state when the workers start. -/
def restart : Fanout := r.scan r.listing r.init

end Restart

/-! ## Recovery -/

/-- Every sub-node has a complete copy of the file, and the copy is in its queue. -/
def Recovered (fileName : Path) (content : Bytes) (s : Fanout) : Prop :=
  ∀ (i : Nat) (sub : SubNode), s.subs[i]? = some sub →
    s.fs (toFile sub.m_toSend fileName) = some content ∧
      ∃ k, (k, toFile sub.m_toSend fileName) ∈ sub.m_pQueue

/-- The restart brings the file to every sub-node, and whenever the source is gone before,
while the directory is scanned, they have it. -/
structure Survives (fileName : Path) (content : Bytes) {s : Fanout}
    (r : Restart fileName.dir s) : Prop where
  recovered : Recovered fileName content r.restart
  kept : ∀ k, (r.scan (r.listing.take k) r.init).fs fileName = none →
    Recovered fileName content (r.scan (r.listing.take k) r.init)

/-- What the killed process must leave behind: up to some sub-node all can be given the
file, from a source that is still there, and the others have it complete. And the source
is not itself one of the copies, unless it cannot be removed. -/
def Recoverable (env : Env) (fileName : Path) (content : Bytes) (s : Fanout) : Prop :=
  (∃ j, Takes env.copyFails s.dirs fileName s.fs j ∧
    (0 < j → s.fs fileName = some content) ∧
    ∀ i dir, s.dirs[i]? = some dir → j ≤ i → s.fs (toFile dir fileName) = some content) ∧
  (fileName.dir ∈ s.dirs → env.move.removeFails = true)

/-! ## Recovery by `doProc` -/

variable {env : Env} {fileName : Path} {content : Bytes} {s : Fanout}

/-- The copies that are there are those that have been queued. -/
def Queued (fileName : Path) (s : Fanout) : Prop :=
  ∀ (i : Nat) (sub : SubNode), s.subs[i]? = some sub →
    ((∃ k, (k, toFile sub.m_toSend fileName) ∈ sub.m_pQueue) ↔
      (s.fs (toFile sub.m_toSend fileName)).isSome)

/-- Where `doProc` has taken the file, all sub-nodes have it, if those after the first that
refused it had it already. -/
theorem recovered_proc {env : Env} {fileName : Path} {content : Bytes} {s : Fanout}
    (hsource : s.fs fileName = some content) (hqueued : Queued fileName s)
    (h : Recoverable env fileName content s) :
    Recovered fileName content (proc env fileName s) := by
  obtain ⟨⟨j, htakes, -, hcomplete⟩, hremove⟩ := h
  obtain ⟨j', htakes', hrefuses, hfs, hsubs⟩ := proc_copies env hsource
  -- the next sub-node after those that can take the file has it
  have hrefuses' : Refuses env.copyFails s.dirs fileName s.fs j := by
    intro dir hdir
    rw [hcomplete j dir hdir (Nat.le_refl _)]
    exact .inr (.inl rfl)
  obtain rfl := Nat.le_antisymm (htakes.le_of_refuses hrefuses) (htakes'.le_of_refuses hrefuses')
  intro i sub' hi
  rw [hsubs, List.getElem?_mapIdx, Option.map_eq_some_iff] at hi
  obtain ⟨sub, hi, rfl⟩ := hi
  have hdir := dirs_getElem? hi
  rw [hfs]
  by_cases hij : i < j
  · rw [if_pos hij]
    have hmem : sub.m_toSend ∈ s.dirs.take j :=
      List.mem_of_getElem? ((List.getElem?_take_of_lt hij).trans hdir)
    refine ⟨remove_eq_some.mpr ⟨copies_same hmem, .inr fun heq => ?_⟩, 0, ?_⟩
    · have habsent := htakes.absent hmem
      rw [show toFile sub.m_toSend fileName = fileName from heq, hsource] at habsent
      cases habsent
    · exact List.mem_append_right _ (List.mem_singleton_self _)
  · rw [if_neg hij]
    have hfile := hcomplete i _ hdir (Nat.not_lt.mp hij)
    refine ⟨remove_eq_some.mpr ⟨?_, ?_⟩, (hqueued i sub hi).mpr (by rw [hfile]; rfl)⟩
    · unfold copies
      split
      · rfl
      · exact hfile
    · by_cases heq : toFile sub.m_toSend fileName = fileName
      · refine .inl (hremove ?_)
        have hsame : sub.m_toSend = fileName.dir := congrArg Path.dir heq
        rw [← hsame]
        exact List.mem_of_getElem? hdir
      · exact .inr heq

/-- Where all sub-nodes have the file after `doProc`, it was recoverable. -/
theorem recoverable_of_recovered {env : Env} {fileName : Path} {content : Bytes} {s : Fanout}
    (hsource : s.fs fileName = some content) (hqueued : Queued fileName s)
    (h : Recovered fileName content (proc env fileName s)) :
    Recoverable env fileName content s := by
  obtain ⟨j, htakes, -, hfs, hsubs⟩ := proc_copies env hsource
  have hsub : ∀ (i : Nat) (sub : SubNode), s.subs[i]? = some sub →
      (proc env fileName s).subs[i]? = some (if i < j then sub.enqueue fileName else sub) := by
    intro i sub hi
    rw [hsubs, List.getElem?_mapIdx, hi, Option.map_some]
  refine ⟨⟨j, htakes, fun _ => hsource, ?_⟩, ?_⟩
  · intro i dir hi hji
    obtain ⟨sub, hi', rfl⟩ := getElem?_dirs hi
    have hat := h i _ (hsub i sub hi')
    rw [if_neg (Nat.not_lt.mpr hji), hfs] at hat
    obtain ⟨hfile, hpending⟩ := hat
    have hsome := (hqueued i sub hi').mp hpending
    have hnot : sub.m_toSend ∉ s.dirs.take j := by
      intro hmem
      rw [htakes.absent hmem] at hsome
      cases hsome
    rw [← @copies_of_not_mem s.fs fileName content _ _ hnot]
    exact (remove_eq_some.mp hfile).1
  · intro hmem
    obtain ⟨i, hi, hget⟩ := List.getElem_of_mem hmem
    obtain ⟨sub, hi', hdir⟩ := getElem?_dirs (by rw [List.getElem?_eq_getElem hi, hget])
    have hat := (h i _ (hsub i sub hi')).1
    rw [hfs, show (if i < j then sub.enqueue fileName else sub).m_toSend = fileName.dir by
      rw [← hdir]; split <;> rfl] at hat
    exact (remove_eq_some.mp hat).2.resolve_right (not_not.mpr rfl)

/-! ## The scan -/

/-- All that a pipeset has to do with the files of one name. -/
def view (name : String) (s : Fanout) :
    (String → Option Bytes) × List (String × List (Nat × Path)) :=
  (fun dir => s.fs { dir, filename := name },
    s.subs.map fun sub => (sub.m_toSend, sub.m_pQueue.filter (·.2.filename = name)))

theorem view_fs {s t : Fanout} {p : Path} (h : view p.filename s = view p.filename t) :
    s.fs p = t.fs p :=
  congrFun (congrArg Prod.fst h) p.dir

theorem view_dirs {name : String} {s t : Fanout} (h : view name s = view name t) :
    s.dirs = t.dirs := by
  have hmap := congrArg (List.map Prod.fst) (congrArg Prod.snd h)
  simpa [view, Fanout.dirs, Function.comp_def] using hmap

/-- Equal views have equal queues, as far as the files of the name go. -/
theorem view_sub {name : String} {s t : Fanout} (h : view name s = view name t) {i : Nat}
    {sub : SubNode} (hi : t.subs[i]? = some sub) :
    ∃ sub', s.subs[i]? = some sub' ∧ sub'.m_toSend = sub.m_toSend ∧
      ∀ e : Nat × Path, e.2.filename = name → (e ∈ sub'.m_pQueue ↔ e ∈ sub.m_pQueue) := by
  have hget := congrArg (·[i]?) (congrArg Prod.snd h)
  simp only [view, List.getElem?_map, hi, Option.map_some] at hget
  obtain ⟨sub', hi', hsub⟩ := Option.map_eq_some_iff.mp hget
  obtain ⟨hdir, hqueue⟩ := Prod.mk.inj hsub
  refine ⟨sub', hi', hdir, fun e he => ?_⟩
  have hmem := congrArg (e ∈ ·) hqueue
  simpa [he] using hmem

theorem recovered_congr {fileName : Path} {content : Bytes} {s t : Fanout}
    (h : view fileName.filename s = view fileName.filename t)
    (hs : Recovered fileName content s) : Recovered fileName content t := by
  intro i sub hi
  obtain ⟨sub', hi', hdir, hqueue⟩ := view_sub h hi
  obtain ⟨hfile, k, hk⟩ := hs i sub' hi'
  rw [hdir] at hfile hk
  refine ⟨?_, k, (hqueue (k, toFile sub.m_toSend fileName) rfl).mp hk⟩
  rw [← hfile]
  exact (view_fs (p := toFile sub.m_toSend fileName) h).symm

/-- What can be recovered does not depend on other files. -/
theorem recoverable_congr {env : Env} {fileName : Path} {content : Bytes} {s t : Fanout}
    (hfs : ∀ dir, s.fs { dir, filename := fileName.filename } =
      t.fs { dir, filename := fileName.filename }) (hdirs : s.dirs = t.dirs)
    (hs : Recoverable env fileName content s) : Recoverable env fileName content t := by
  obtain ⟨⟨j, htakes, hsource, hcomplete⟩, hremove⟩ := hs
  have hsame : ∀ dir, s.fs (toFile dir fileName) = t.fs (toFile dir fileName) := hfs
  refine ⟨⟨j, ⟨?_, ?_, ?_⟩, ?_, ?_⟩, ?_⟩
  · rw [← hdirs]
    exact htakes.le
  · intro i dir hi hij
    rw [← hsame]
    exact htakes.free i dir (by rw [hdirs]; exact hi) hij
  · rw [← hdirs]
    exact htakes.nodup
  · intro hj
    rw [← hsource hj]
    exact (hfs fileName.dir).symm
  · intro i dir hi hij
    rw [← hsame]
    exact hcomplete i dir (by rw [hdirs]; exact hi) hij
  · rw [← hdirs]
    exact hremove

/-- The loop touches only files of the name it is called with. -/
theorem offer_fs_of_ne {fileName q : Path} (h : q.filename ≠ fileName.filename)
    (dirs : List String) : ∀ (copyFails : Nat → Bool) (i : Nat) (r : Run),
      (offer fileName i (handlers copyFails dirs) r).fs q = r.fs q := by
  induction dirs with
  | nil => exact fun _ _ _ => rfl
  | cons dir dirs ih =>
      intro copyFails i r
      rw [handlers_cons, offer]
      split
      · rw [ih, click2db, copyFile]
        cases hsource : r.fs fileName with
        | none => rfl
        | some content =>
            dsimp only
            split
            · rfl
            · exact Fs.write_of_ne _ _ fun hq => h (by rw [hq, toFile])
      · exact ih _ _ _

theorem proc_fs_of_ne (env : Env) {fileName q : Path} (s : Fanout)
    (h : q.filename ≠ fileName.filename) : (proc env fileName s).fs q = s.fs q := by
  simp only [proc, doProc, moveFile_remove]
  split
  · refine (Fs.erase_of_ne _ fun hq => h (congrArg Path.filename hq)).trans ?_
    exact offer_fs_of_ne h s.dirs env.copyFails 0 _
  · exact offer_fs_of_ne h s.dirs env.copyFails 0 _

/-- `doProc` for another file. -/
theorem view_proc (env : Env) {fileName : Path} {name : String} (s : Fanout)
    (h : name ≠ fileName.filename) : view name (proc env fileName s) = view name s := by
  refine Prod.ext (funext fun dir => proc_fs_of_ne env s h) ?_
  have hsub : ∀ sub : SubNode, ((sub.enqueue fileName).m_toSend,
      (sub.enqueue fileName).m_pQueue.filter (·.2.filename = name)) =
        (sub.m_toSend, sub.m_pQueue.filter (·.2.filename = name)) := by
    intro sub
    simp [SubNode.enqueue, toFile, h.symm]
  refine List.ext_getElem? fun i => ?_
  simp only [view, proc, List.getElem?_map, List.getElem?_mapIdx]
  cases s.subs[i]? with
  | none => rfl
  | some sub =>
      simp only [Option.map_some]
      split
      · rw [hsub]
      · rfl

theorem view_scan {watchDir : String} {s : Fanout} (r : Restart watchDir s) {name : String} :
    ∀ (names : List String) (t : Fanout), name ∉ names →
      view name (r.scan names t) = view name t := by
  intro names
  induction names with
  | nil => exact fun _ _ => rfl
  | cons n names ih =>
      intro t hname
      rw [List.mem_cons, not_or] at hname
      exact (ih _ hname.2).trans (view_proc _ t hname.1)

/-! ## The restart -/

theorem restart_getElem? {watchDir : String} {s : Fanout} (r : Restart watchDir s) {i : Nat}
    {sub : SubNode} (h : r.init.subs[i]? = some sub) :
    ∃ sub', s.subs[i]? = some sub' ∧ sub = { sub' with
      m_pQueue := (r.tosend i).map fun name =>
        (0, { dir := sub'.m_toSend, filename := name }) } := by
  rw [Restart.init, List.getElem?_mapIdx, Option.map_eq_some_iff] at h
  obtain ⟨sub', hi, rfl⟩ := h
  exact ⟨sub', hi, rfl⟩

theorem init_dirs {watchDir : String} {s : Fanout} (r : Restart watchDir s) :
    r.init.dirs = s.dirs := by
  refine List.ext_getElem? fun i => ?_
  simp only [Restart.init, Fanout.dirs, List.getElem?_map, List.getElem?_mapIdx]
  cases s.subs[i]? with
  | none => rfl
  | some sub => rfl

/-- `init` queues every copy that is there. -/
theorem queued_init {fileName : Path} {s : Fanout} (r : Restart fileName.dir s) :
    Queued fileName r.init := by
  intro i sub hi
  obtain ⟨sub', hi', rfl⟩ := restart_getElem? r hi
  rw [show r.init.fs = s.fs from rfl]
  refine Iff.trans ?_ (r.mem_tosend i sub' hi' fileName.filename)
  simp [toFile]

theorem queued_congr {fileName : Path} {s t : Fanout}
    (h : view fileName.filename s = view fileName.filename t) (hs : Queued fileName s) :
    Queued fileName t := by
  intro i sub hi
  obtain ⟨sub', hi', hdir, hqueue⟩ := view_sub h hi
  have hat := hs i sub' hi'
  rw [hdir, view_fs (p := toFile sub.m_toSend fileName) h] at hat
  rw [← hat]
  exact exists_congr fun k => (hqueue (k, toFile sub.m_toSend fileName) rfl).symm

/-- A file whose source is still there: the scan comes to it once, and what `doProc` makes
of it then stays. -/
theorem survives_iff_of_present {fileName : Path} {content : Bytes} {s : Fanout}
    (r : Restart fileName.dir s) (hsource : s.fs fileName = some content) :
    Survives fileName content r ↔
      Recoverable (r.env fileName.filename) fileName content s := by
  have hmem : fileName.filename ∈ r.listing :=
    (r.mem_listing fileName.filename).mpr (by rw [show _ = s.fs fileName from rfl, hsource]; rfl)
  obtain ⟨before, after, hlisting⟩ := List.append_of_mem hmem
  have hnodup := r.nodup_listing
  rw [hlisting, List.nodup_append, List.nodup_cons] at hnodup
  have hbefore : fileName.filename ∉ before := fun hb =>
    hnodup.2.2 _ hb _ List.mem_cons_self rfl
  have hview := view_scan r before r.init hbefore
  have hrestart : view fileName.filename r.restart = view fileName.filename
      (proc (r.env fileName.filename) fileName (r.scan before r.init)) := by
    rw [Restart.restart, hlisting, Restart.scan, List.foldl_append, List.foldl_cons]
    exact view_scan r after _ hnodup.2.1.1
  have hqueued := queued_congr hview.symm (queued_init r)
  have hsource' : (r.scan before r.init).fs fileName = some content := by
    rw [view_fs hview]
    exact hsource
  have hsame : ∀ dir, (r.scan before r.init).fs { dir, filename := fileName.filename } =
      s.fs { dir, filename := fileName.filename } := fun dir =>
    (view_fs (p := { dir, filename := fileName.filename }) hview).trans rfl
  have hdirs := (view_dirs hview).trans (init_dirs r)
  constructor
  · intro hs
    refine recoverable_congr hsame hdirs ?_
    exact recoverable_of_recovered hsource' hqueued (recovered_congr hrestart hs.recovered)
  · intro hr
    have hr' := recoverable_congr (fun dir => (hsame dir).symm) hdirs.symm hr
    have hrecovered := recovered_congr hrestart.symm (recovered_proc hsource' hqueued hr')
    refine ⟨hrecovered, fun k hgone => ?_⟩
    by_cases hk : fileName.filename ∈ r.listing.take k
    · -- nothing happens to the file after its turn
      have hrest : fileName.filename ∉ r.listing.drop k := fun hd => by
        have hdisjoint := r.nodup_listing
        rw [← List.take_append_drop k r.listing, List.nodup_append] at hdisjoint
        exact hdisjoint.2.2 _ hk _ hd rfl
      refine recovered_congr ?_ hrecovered
      rw [Restart.restart, ← List.take_append_drop k r.listing, Restart.scan,
        List.foldl_append, List.take_append_drop]
      exact view_scan r _ _ hrest
    · rw [view_fs (view_scan r _ r.init hk)] at hgone
      rw [show r.init.fs fileName = s.fs fileName from rfl, hsource] at hgone
      cases hgone

/-- A file whose source has been removed: nothing happens to it after `init`. -/
theorem survives_iff_of_removed {fileName : Path} {content : Bytes} {s : Fanout}
    (r : Restart fileName.dir s) (hnone : s.fs fileName = none) :
    Survives fileName content r ↔
      Recoverable (r.env fileName.filename) fileName content s := by
  have hdirs := init_dirs r
  have hnot : ∀ k, fileName.filename ∉ r.listing.take k := by
    intro k hmem
    have hsome := (r.mem_listing fileName.filename).mp (List.mem_of_mem_take hmem)
    rw [show s.fs _ = none from hnone] at hsome
    cases hsome
  have hview : ∀ k, view fileName.filename (r.scan (r.listing.take k) r.init) =
      view fileName.filename r.init := fun k => view_scan r _ r.init (hnot k)
  have hall : view fileName.filename r.restart = view fileName.filename r.init := by
    rw [Restart.restart, ← List.take_length (l := r.listing)]
    exact hview _
  constructor
  · intro hs
    have hinit := recovered_congr hall hs.recovered
    have hcomplete : ∀ (i : Nat) (dir : String), s.dirs[i]? = some dir →
        s.fs (toFile dir fileName) = some content := by
      intro i dir hi
      rw [← hdirs] at hi
      obtain ⟨sub, hi', rfl⟩ := getElem?_dirs hi
      exact (hinit i sub hi').1
    refine ⟨⟨0, .zero _ _ _ _, fun h0 => absurd h0 (Nat.lt_irrefl 0), fun i dir hi _ =>
      hcomplete i dir hi⟩, fun hmem => ?_⟩
    obtain ⟨i, hi, hget⟩ := List.getElem_of_mem hmem
    have hfile := hcomplete i fileName.dir (by rw [List.getElem?_eq_getElem hi, hget])
    rw [show toFile fileName.dir fileName = fileName from rfl, hnone] at hfile
    cases hfile
  · rintro ⟨⟨j, -, hj, hcomplete⟩, -⟩
    obtain rfl : j = 0 := by
      refine Nat.eq_zero_of_not_pos fun hpos => ?_
      rw [hj hpos] at hnone
      cases hnone
    have hinit : Recovered fileName content r.init := by
      intro i sub hi
      have hfile := hcomplete i sub.m_toSend (by rw [← hdirs]; exact dirs_getElem? hi)
        (Nat.zero_le i)
      exact ⟨hfile, (queued_init r i sub hi).mpr
        (by rw [show r.init.fs = s.fs from rfl, hfile]; rfl)⟩
    exact ⟨recovered_congr hall.symm hinit, fun k _ => recovered_congr (hview k).symm hinit⟩

/-- Such a fan-out is recoverable unless it is killed between the first byte of the first
copy and the last byte of the last one. -/
theorem recoverable_iff_of_fresh {env' : Env} (hf : Fresh env fileName s)
    (hok : ∀ i, env'.copyFails i = false) {c : Call}
    (h : (callsFrom env fileName content s).Reachable Alone c) :
    Recoverable env' fileName content c.s ↔
      (∀ dir ∈ c.s.dirs, c.s.fs (toFile dir fileName) = none) ∨
      ∀ dir ∈ c.s.dirs, c.s.fs (toFile dir fileName) = some content := by
  obtain ⟨hprogress, hsource⟩ := progress_of_reachable h
  obtain ⟨m, hturn, hleft⟩ := hf.prefix_of_progress hsource hprogress
  have hdirs := dirs_of_progress hsource hprogress
  rw [← hdirs] at hturn hleft
  constructor
  · rintro ⟨⟨j, htakes, -, hcomplete⟩, -⟩
    cases j with
    | zero =>
        refine .inr fun dir hdir => ?_
        obtain ⟨i, hi, hget⟩ := List.getElem_of_mem hdir
        exact hcomplete i dir (by rw [List.getElem?_eq_getElem hi, hget]) (Nat.zero_le i)
    | succ j =>
        -- the first sub-node has no file, so no other has one
        have hlen := htakes.le
        have hfirst := List.getElem?_eq_getElem (show 0 < c.s.dirs.length by omega)
        have habsent := (htakes.free 0 _ hfirst (Nat.succ_pos j)).1
        obtain rfl : m = 0 := by
          refine Nat.eq_zero_of_not_pos fun hpos => ?_
          rw [(hturn 0 _ hfirst).1 hpos] at habsent
          cases habsent
        refine .inl fun dir hdir => ?_
        obtain ⟨i, hi, hget⟩ := List.getElem_of_mem hdir
        have hi' : c.s.dirs[i]? = some dir := by rw [List.getElem?_eq_getElem hi, hget]
        cases i with
        | zero =>
            obtain rfl : dir = c.s.dirs[0] := hget.symm
            exact habsent
        | succ i => exact (hturn (i + 1) dir hi').2 (Nat.succ_pos i)
  · have hwatch : fileName.dir ∈ c.s.dirs → env'.move.removeFails = true := by
      intro hmem
      rw [hdirs] at hmem
      exact absurd rfl (hf.ne_source hsource hmem)
    rintro (hnone | hall)
    · rcases hleft with hleft | hlen
      · refine ⟨⟨c.s.dirs.length, ⟨Nat.le_refl _, ?_, ?_⟩, fun _ => hleft, ?_⟩, hwatch⟩
        · exact fun i dir hi _ => ⟨hnone dir (List.mem_of_getElem? hi), hok i⟩
        · rw [List.take_length, hdirs]
          exact hf.nodup
        · intro i dir hi hle
          have hlt := (List.getElem?_eq_some_iff.mp hi).1
          omega
      · -- all copies have been made, so there is no sub-node
        refine ⟨⟨0, .zero _ _ _ _, fun h0 => absurd h0 (Nat.lt_irrefl 0), ?_⟩, hwatch⟩
        intro i dir hi _
        have hlt := (List.getElem?_eq_some_iff.mp hi).1
        exact (hturn i dir hi).1 (by omega)
    · refine ⟨⟨0, .zero _ _ _ _, fun h0 => absurd h0 (Nat.lt_irrefl 0), ?_⟩, hwatch⟩
      exact fun i dir hi _ => hall dir (List.mem_of_getElem? hi)

/-- **Recovery.** Wherever a fan-out is killed, the next process brings the file to every
sub-node exactly when up to some sub-node all can still be given the file and the others
have it complete. -/
theorem survives_iff {c : Call}
    (h : (machine env fileName content).Reachable (Possible fileName) c)
    (r : Restart fileName.dir c.s) :
    Survives fileName content r ↔ Recoverable (r.env fileName.filename) fileName content c.s :=
  (sourced_of_reachable h).source.elim (survives_iff_of_present r) fun hgone =>
    survives_iff_of_removed r hgone.1

/-- The file `input/a.cdb` and two sub-nodes that have nothing yet. -/
def twoTargets : Fanout where
  fs := Fs.write (fun _ => none) ⟨"input", "a.cdb"⟩ [1]
  subs := [{ m_toSend := "send1" }, { m_toSend := "send2" }]

/-- The first copy is complete, the second not begun. -/
def halfway : Fanout where
  fs := (twoTargets.fs.write ⟨"send1", "a.cdb"⟩ []).write ⟨"send1", "a.cdb"⟩ [1]
  subs := [{ m_toSend := "send1", m_pQueue := [(0, ⟨"send1", "a.cdb"⟩)] }, { m_toSend := "send2" }]

theorem reachable_halfway :
    (machine {} ⟨"input", "a.cdb"⟩ [1]).Reachable (Possible ⟨"input", "a.cdb"⟩)
      ⟨.offer 1 true, halfway⟩ := by
  have hinit : (machine {} ⟨"input", "a.cdb"⟩ [1]).Reachable (Possible ⟨"input", "a.cdb"⟩)
      { s := twoTargets } := .init ⟨rfl, by decide⟩
  have hcreated : (machine {} ⟨"input", "a.cdb"⟩ [1]).Reachable (Possible ⟨"input", "a.cdb"⟩)
      ⟨.copying 0 0, { twoTargets with
        fs := twoTargets.fs.write ⟨"send1", "a.cdb"⟩ [] }⟩ :=
    hinit.next (a := .next 0) trivial rfl
  have hwritten : (machine {} ⟨"input", "a.cdb"⟩ [1]).Reachable (Possible ⟨"input", "a.cdb"⟩)
      ⟨.enqueue 0, { twoTargets with fs := halfway.fs }⟩ :=
    hcreated.next (a := .next 1) trivial rfl
  exact hwritten.next (a := .next 0) trivial rfl

/-- Both copies are complete, and the source is still there. -/
def bothCopied : Fanout where
  fs := (halfway.fs.write ⟨"send2", "a.cdb"⟩ []).write ⟨"send2", "a.cdb"⟩ [1]
  subs := [{ m_toSend := "send1", m_pQueue := [(0, ⟨"send1", "a.cdb"⟩)] },
    { m_toSend := "send2", m_pQueue := [(0, ⟨"send2", "a.cdb"⟩)] }]

theorem reachable_bothCopied :
    (machine {} ⟨"input", "a.cdb"⟩ [1]).Reachable (Possible ⟨"input", "a.cdb"⟩)
      ⟨.offer 2 true, bothCopied⟩ := by
  have hcreated : (machine {} ⟨"input", "a.cdb"⟩ [1]).Reachable (Possible ⟨"input", "a.cdb"⟩)
      ⟨.copying 1 0, { halfway with fs := halfway.fs.write ⟨"send2", "a.cdb"⟩ [] }⟩ :=
    reachable_halfway.next (a := .next 0) trivial rfl
  have hwritten : (machine {} ⟨"input", "a.cdb"⟩ [1]).Reachable (Possible ⟨"input", "a.cdb"⟩)
      ⟨.enqueue 1, { halfway with fs := bothCopied.fs }⟩ :=
    hcreated.next (a := .next 1) trivial rfl
  exact hwritten.next (a := .next 0) trivial rfl

/-- The process after one that is killed there. -/
def afterCopies : Restart "input" bothCopied where
  tosend i := ["a.cdb"]
  listing := ["a.cdb"]
  env _ := {}
  mem_tosend := by
    intro i sub hi name
    have hdir : sub.m_toSend = "send1" ∨ sub.m_toSend = "send2" := by
      rcases List.mem_pair.mp (List.mem_of_getElem? hi) with rfl | rfl
      · exact .inl rfl
      · exact .inr rfl
    by_cases hname : name = "a.cdb"
    · rcases hdir with hdir | hdir
      · simp [hname, hdir, bothCopied, halfway, Fs.write]
      · simp [hname, hdir, bothCopied, Fs.write]
    · rcases hdir with hdir | hdir
      · simp [hname, hdir, bothCopied, halfway, twoTargets, Fs.write]
      · simp [hname, hdir, bothCopied, halfway, twoTargets, Fs.write]
  mem_listing := by simp [bothCopied, halfway, twoTargets, Fs.write]
  nodup_listing := by decide

/-- The restart deletes the source, and both sub-nodes have the file. -/
theorem survives_afterCopies : Survives ⟨"input", "a.cdb"⟩ [1] afterCopies := by
  refine (survives_iff reachable_bothCopied afterCopies).mpr ⟨⟨0, .zero _ _ _ _,
    fun h0 => absurd h0 (Nat.lt_irrefl 0), fun i dir hi _ => ?_⟩, fun hwatched => ?_⟩
  · rcases List.mem_pair.mp (List.mem_of_getElem? hi) with rfl | rfl
    · decide
    · decide
  · exact absurd hwatched (by decide)

/-- The process after one that is killed between the copies. -/
def interrupted : Restart "input" halfway where
  tosend i := if i = 0 then ["a.cdb"] else []
  listing := ["a.cdb"]
  env _ := {}
  mem_tosend := by
    intro i sub hi name
    cases i with
    | zero =>
        obtain rfl := Option.some.inj hi
        by_cases hname : name = "a.cdb"
        · simp [hname, halfway]
        · simp [hname, halfway, twoTargets, Fs.write]
    | succ i =>
        cases i with
        | zero =>
            obtain rfl := Option.some.inj hi
            simp [halfway, twoTargets, Fs.write]
        | succ i => simp [halfway] at hi
  mem_listing := by simp [halfway, twoTargets, Fs.write]
  nodup_listing := by decide

/-- The restart deletes the source, and the second sub-node never gets the file. -/
theorem halfway_lost :
    (machine {} ⟨"input", "a.cdb"⟩ [1]).Reachable (Possible ⟨"input", "a.cdb"⟩)
        ⟨.offer 1 true, halfway⟩ ∧
      interrupted.restart.fs ⟨"input", "a.cdb"⟩ = none ∧
      interrupted.restart.fs ⟨"send2", "a.cdb"⟩ = none ∧
      ¬ Survives ⟨"input", "a.cdb"⟩ [1] interrupted := by
  have hsecond : interrupted.restart.fs ⟨"send2", "a.cdb"⟩ = none := by decide
  refine ⟨reachable_halfway, by decide, hsecond, fun h => ?_⟩
  have hfile := (h.recovered 1 { m_toSend := "send2" } rfl).1
  rw [show toFile "send2" ⟨"input", "a.cdb"⟩ = ⟨"send2", "a.cdb"⟩ from rfl, hsecond] at hfile
  cases hfile

end PipeSet

end FlexEtl
