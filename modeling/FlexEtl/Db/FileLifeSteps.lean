/-
FlexEtl.Db.FileLifeSteps — every step of the node is a step of its files.

A step of the node concerns at most one file, or it is the same for all. What
it does to this file is one move of the file's own transition system. The
worker's steps come first: without a file, with one in its hands, and those
that end a file's stay there. `goes_step` puts them together with the steps of
the other threads.
-/
import FlexEtl.Db.FileViews
import FlexEtl.Db.LifeProcTheorems

namespace FlexEtl

variable {γ : Type}

/-! ## One step -/

/-- The file goes on in its life, or stays where it is. -/
def Goes (cfg : Click2DB.Config) (s s' : System γ) (p : Path) : Prop :=
  ∀ f, Shows cfg s p f → ∃ f', Relation.ReflGen Fate.Next f f' ∧ Shows cfg s' p f'

theorem goes_of_same {cfg : Click2DB.Config} {s s' : System γ} {p : Path} (h : Same cfg s s' p) :
    Goes cfg s s' p := fun f hf => ⟨f, .refl, hf.same h⟩

/-- A step that concerns one file is a step of this file's life. -/
theorem goes_of_touches {cfg : Click2DB.Config} {s s' : System γ} {q : Path} (h : Touches s s' q)
    (hq : q.dir = cfg.m_toSend) (hown : Goes cfg s s' q) (p : Path) : Goes cfg s s' p := by
  by_cases hne : q = p
  · exact hne ▸ hown
  · exact goes_of_same (h.same hq hne)

/-- The fate of the file in hand. -/
theorem Shows.inHand {cfg : Click2DB.Config} {s : System γ} {f : Fate} {stage : Stage}
    {file : Nat × Path} (h : Shows cfg s file.2 f) (hpc : s.pc.hand = some (stage, file)) :
    f = .inHand stage file.1 := by
  have hhand := h.hand
  simp only [Pc.handOf, hpc, if_true] at hhand
  cases f with
  | inHand stage' n => cases hhand; rfl
  | _ => cases hhand

theorem handOf_self {pc : Pc} {stage : Stage} {file : Nat × Path}
    (h : pc.hand = some (stage, file)) : pc.handOf file.2 = some (stage, file.1) := by
  simp only [Pc.handOf, h, if_true]

theorem handOf_none {pc : Pc} (h : pc.hand = none) (p : Path) : pc.handOf p = none := by
  simp only [Pc.handOf, h]

section Steps

variable {columns : Columns γ} {cfg : Click2DB.Config} {s s' : System γ}

/-! ### Without a file -/

/-- A step of the worker without a file in its hands. -/
theorem same_of_idle {p : Path} {l : List SenderEvent} (hfs : s'.fs = s.fs)
    (hqueue : s'.db.m_pQueue = s.db.m_pQueue) (harriving : s'.arriving = s.arriving)
    (hrun : s'.run = s.run) (hhand : s.pc.hand = none) (hhand' : s'.pc.hand = none)
    (hdown : s'.pc = .down ↔ s.pc = .down) (hlog : s'.db.log = l ++ s.db.log)
    (hnew : ∀ e ∈ l, e.file = none) : Same cfg s s' p where
  present _ dir _ := by unfold System.has; rw [hfs]
  entries := by rw [hqueue]
  hand := (handOf_none hhand' p).trans (handOf_none hhand p).symm
  arriving := by rw [harriving]
  down := hdown
  run := hrun
  log e he := by
    rw [hlog, logged_append s.db.log hnew e (by rw [he]; nofun)]
    rfl

theorem nothing_new : ∀ e ∈ ([] : List SenderEvent), e.file = none := fun e he => by cases he

theorem up_of_pc {pc pc' : Pc} (h : pc ≠ .down) (h' : pc' ≠ .down) : pc' = .down ↔ pc = .down :=
  ⟨fun hpc => absurd hpc h', fun hpc => absurd hpc h⟩

/-- The worker goes on in the loop. -/
theorem same_walk {p : Path} {update : Bool} {counter : Nat} (pc : Pc) (hhand : s.pc.hand = none)
    (hup : s.pc ≠ .down) (hhand' : pc.hand = none) (hup' : pc ≠ .down) :
    Same cfg s { s with pc, updateTblDesc := update, emptyCounter := counter } p :=
  same_of_idle rfl rfl rfl rfl hhand hhand' (up_of_pc hup hup') (List.nil_append _).symm nothing_new

/-- The worker goes on, with news about the server. -/
theorem same_talk {p : Path} {db : Click2DB γ} {l : List SenderEvent} {update : Bool}
    {counter clients : Nat} (pc : Pc) (hhand : s.pc.hand = none) (hup : s.pc ≠ .down)
    (hhand' : pc.hand = none) (hup' : pc ≠ .down) (hqueue : db.m_pQueue = s.db.m_pQueue)
    (hlog : db.log = l ++ s.db.log) (hnew : ∀ e ∈ l, e.file = none) :
    Same cfg s { s with pc, db, updateTblDesc := update, emptyCounter := counter, clients } p :=
  same_of_idle rfl hqueue rfl rfl hhand hhand' (up_of_pc hup hup') hlog hnew

theorem same_connect (hhand : s.pc.hand = none) (hup : s.pc ≠ .down) (answer : Except String Unit)
    (p : Path) : Same cfg s (s.connect answer) p := by
  unfold System.connect
  split
  case isTrue => exact same_walk .ping hhand hup rfl (by simp)
  case isFalse hnone =>
    have hclient : s.db.m_pClickDB = none := by simpa using hnone
    cases answer with
    | ok u =>
        simp only [System.tryConnect, hclient]
        exact same_talk (l := [.connected s.clients]) .ping hhand hup rfl (by simp) rfl rfl
          (List.forall_mem_singleton.mpr rfl)
    | error what =>
        simp only [System.tryConnect, hclient]
        exact same_talk .loop hhand hup rfl (by simp) rfl (List.nil_append _).symm nothing_new

theorem same_ping (hhand : s.pc.hand = none) (hup : s.pc ≠ .down) (answer : Except String Unit)
    (p : Path) : Same cfg s (s.ping answer) p := by
  have hnew : ∀ e ∈ [SenderEvent.called .Ping s.db.m_pClickDB], e.file = none :=
    List.forall_mem_singleton.mpr rfl
  unfold System.ping
  split
  · cases answer with
    | ok u => exact same_talk .describe hhand hup rfl (by simp) rfl rfl hnew
    | error what => exact same_talk .describe hhand hup rfl (by simp) rfl rfl hnew
  · exact same_walk .describe hhand hup rfl (by simp)

/-- Asking for the description: what it does to the queue and to the record. -/
theorem asks_quiet {db db' : Click2DB γ} (h : Click2DB.Asks db db') :
    db'.m_pQueue = db.m_pQueue ∧ ∃ new, db'.log = new ++ db.log ∧ ∀ e ∈ new, e.file = none := by
  cases h with
  | silent _ => exact ⟨rfl, [], rfl, nothing_new⟩
  | refused _ client _ =>
      exact ⟨rfl, [.called .Execute (some client)], rfl, List.forall_mem_singleton.mpr rfl⟩
  | answered _ client _ _ =>
      exact ⟨rfl, [.described client, .called .Execute (some client)], rfl,
        List.forall_mem_cons.mpr ⟨rfl, List.forall_mem_singleton.mpr rfl⟩⟩

theorem same_describe (hhand : s.pc.hand = none) (hup : s.pc ≠ .down)
    (answer : Except String Click2DB.Description) (p : Path) :
    Same cfg s (s.describe answer) p := by
  have hasks := Click2DB.asks_descibeTable answer s.db
  unfold System.describe
  split
  · cases hrun : (Click2DB.descibeTable answer).run s.db with
    | ok changed db =>
        have hrun' : Click2DB.descibeTable answer s.db = .ok changed db := hrun
        rw [Outcome.after_ok hrun'] at hasks
        obtain ⟨hqueue, new, hlog, hnew⟩ := asks_quiet hasks
        exact same_talk .test hhand hup rfl (by simp) hqueue hlog hnew
    | error fault db =>
        have hrun' : Click2DB.descibeTable answer s.db = .error fault db := hrun
        rw [Outcome.after_error hrun'] at hasks
        obtain ⟨hqueue, new, hlog, hnew⟩ := asks_quiet hasks
        exact same_talk .test hhand hup rfl (by simp) hqueue hlog hnew
  · exact same_walk .test hhand hup rfl (by simp)

theorem same_test (hhand : s.pc.hand = none) (hup : s.pc ≠ .down) (p : Path) :
    Same cfg s s.test p := by
  unfold System.test
  split
  · exact same_walk .loop hhand hup rfl (by simp)
  · exact same_walk .dequeue hhand hup rfl (by simp)

/-! ### Taking a file from the queue -/

/-- The fate of a file with an entry in the queue. -/
theorem Shows.queued {f : Fate} {i : Nat} {file : Nat × Path} (h : Shows cfg s file.2 f)
    (hi : s.db.m_pQueue[i]? = some file) :
    f = .queued file.1 ∧ FlexEtl.entries (s.db.m_pQueue.eraseIdx i) file.2 = [] := by
  have hmem := mem_entries (List.mem_of_getElem? hi)
  have hentries := h.entries
  cases f with
  | queued n =>
      obtain ⟨rfl, herase⟩ := entries_eraseIdx_same hi hentries
      exact ⟨rfl, herase⟩
  | _ =>
      rw [hentries] at hmem
      cases hmem

theorem goes_dequeue (hall : ∀ p, ∃ f, Shows cfg s p f) (hpc : s.pc = .dequeue)
    (answer : Option Nat) (p : Path) : Goes cfg s (s.dequeue answer) p := by
  have hhand : s.pc.hand = none := by rw [hpc]; rfl
  have hup : s.pc ≠ .down := by rw [hpc]; nofun
  have hidle : Same cfg s { s with emptyCounter := s.emptyCounter + 1, pc := .loop } p :=
    same_walk .loop hhand hup rfl (by simp)
  unfold System.dequeue
  split
  case h_1 => exact goes_of_same hidle
  case h_2 i =>
    split
    case h_1 => exact goes_of_same hidle
    case h_2 file hi =>
      obtain ⟨f₀, h₀⟩ := hall file.2
      obtain ⟨rfl, -⟩ := h₀.queued hi
      refine goes_of_touches (q := file.2) ?_ (h₀.home nofun) ?_ p
      · exact touches_of (l := []) (fun _ _ => rfl)
          (fun p hne => entries_eraseIdx_of_ne hi hne) rfl rfl (holdsOnly_of_none hhand _)
          (holdsOnly_of_some rfl) hup nofun (logged_refl _) (fun e he => by cases he)
      · intro f h
        obtain ⟨rfl, herase⟩ := h.queued hi
        refine ⟨.inHand .load file.1, .single (.dequeue file.1), ?_⟩
        exact ⟨fun _ => h.home nofun, fun _ => h.present nofun, nofun, herase, handOf_self rfl,
          h.arriving, trivial, h.bounded,
          h.history.turn rfl rfl rfl (Nat.le_refl _) (fun _ _ _ htries => htries) nofun⟩

/-! ### With a file in hand -/

theorem Shows.has_toSend {f : Fate} {stage : Stage} {n : Nat} {q : Path}
    (h : Shows cfg s q f) (hf : f = .inHand stage n) : (s.fs q).isSome := by
  have hhome := h.home (by rw [hf]; nofun)
  have hhas := (h.present (by rw [hf]; nofun) _ cfg.toSend_mem).mpr (by rw [hf]; rfl)
  unfold System.has at hhas
  rw [← hhome] at hhas
  exact hhas

/-- The worker goes on with the file, which stays where it is. -/
theorem goes_hand {p : Path} {stage stage' : Stage} {file : Nat × Path} {db : Click2DB γ}
    {l : List SenderEvent} (pc : Pc) (hall : ∀ p, ∃ f, Shows cfg s p f)
    (hhand : s.pc.hand = some (stage, file))
    (hup : s.pc ≠ .down) (hhand' : pc.hand = some (stage', file)) (hup' : pc ≠ .down)
    (hqueue : db.m_pQueue = s.db.m_pQueue) (hlog : Logged s.db.log db.log l)
    (hnew : ∀ e ∈ l, e.file = some file.2)
    (hnext : Fate.Next (.inHand stage file.1) (.inHand stage' file.1))
    (hhistory : History cfg s.run file.2 s.db.log (.inHand stage file.1) →
      History cfg s.run file.2 db.log (.inHand stage' file.1)) :
    Goes cfg s { s with pc, db } p := by
  obtain ⟨f₀, h₀⟩ := hall file.2
  obtain rfl := h₀.inHand hhand
  refine goes_of_touches (q := file.2) ?_ (h₀.home nofun) ?_ p
  · exact touches_of (fun _ _ => rfl) (fun p _ => congrArg (entries · p) hqueue) rfl rfl
      (holdsOnly_of_some hhand) (holdsOnly_of_some hhand') hup hup' hlog hnew
  · intro f h
    obtain rfl := h.inHand hhand
    refine ⟨.inHand stage' file.1, .single hnext, ?_⟩
    exact ⟨fun _ => h.home nofun, fun _ => h.present nofun, nofun,
      (congrArg (entries · file.2) hqueue).trans h.entries, handOf_self hhand', h.arriving, trivial,
      h.bounded, hhistory h.history⟩

theorem goes_load (hall : ∀ p, ∃ f, Shows cfg s p f) {file : Nat × Path} (hpc : s.pc = .load file)
    {read : Option Bytes → Option Bytes} (hs : s.load read file = some s') (p : Path) :
    Goes cfg s s' p := by
  have hhand : s.pc.hand = some (.load, file) := by rw [hpc]; rfl
  have hup : s.pc ≠ .down := by rw [hpc]; simp
  unfold System.load at hs
  split at hs
  case h_1 table _ =>
    cases hs
    refine goes_hand (.send file table) hall hhand hup rfl (by simp) rfl (logged_refl _)
      (fun e he => by cases he) (.loaded file.1) ?_
    intro h
    exact h.turn rfl rfl rfl (Nat.le_refl _) (fun _ _ _ htries => htries) nofun
  case h_2 =>
    cases hs
    have hlog := (logged_refl s.db.log).cons (.loadFailed file.2)
    refine goes_hand (.bad file) hall hhand hup rfl (by simp) rfl hlog
      (List.forall_mem_singleton.mpr rfl) (.loadFailed file.1) ?_
    intro h
    refine h.event hlog ?_ ?_ rfl (fun r k htries => htries) nofun nofun
    · exact ⟨fun _ => rfl, fun _ => .inr rfl⟩
    · simp [Fate.loads]
  case h_3 => cases hs

/-- What a call of `sendTable` leaves behind, as far as files go. -/
theorem send_effect {env : Click2DB.SendEnv} {file : Nat × Path} {table : ClickTable}
    (hs : s.send columns cfg env file table = some s') :
    (∃ db, s' = { s with db, pc := .sent file } ∧ db.m_pQueue = s.db.m_pQueue ∧
      Logged s.db.log db.log [.inserted file.2]) ∨
    (∃ db, s' = { s with db, pc := .caught file } ∧ db.m_pQueue = s.db.m_pQueue ∧
      Logged s.db.log db.log [.sendFailed s.run file.2]) := by
  have hsends := Click2DB.sends_sendTable columns cfg.m_tableName env file.2 table s.db
  unfold System.send at hs
  generalize (Click2DB.sendTable columns cfg.m_tableName env file.2 table).run s.db = result
    at hs hsends
  cases hsends with
  | unmade fault hasks =>
      obtain ⟨hqueue, new, hlog, hnew⟩ := asks_quiet hasks
      cases fault with
      | thrown what =>
          cases hs
          refine .inr ⟨_, rfl, hqueue, ?_⟩
          have hlogged := (logged_append s.db.log hnew).cons (.sendFailed s.run file.2)
          rw [← hlog] at hlogged
          exact hlogged
      | undefined what => cases hs
      | outOfFuel => cases hs
  | @refused what m_tableName block db hasks =>
      obtain ⟨hqueue, new, hlog, hnew⟩ := asks_quiet hasks
      cases hs
      refine .inr ⟨_, rfl, hqueue, ?_⟩
      have hlogged := logged_append s.db.log (l := .called .Insert db.m_pClickDB :: new)
        (List.forall_mem_cons.mpr ⟨rfl, hnew⟩)
      rw [List.cons_append, ← hlog] at hlogged
      exact hlogged.cons (.sendFailed s.run file.2)
  | @sent table m_tableName block db hasks =>
      obtain ⟨hqueue, new, hlog, hnew⟩ := asks_quiet hasks
      cases hs
      refine .inl ⟨_, rfl, hqueue, ?_⟩
      have hlogged := logged_append s.db.log (l := .called .Insert db.m_pClickDB :: new)
        (List.forall_mem_cons.mpr ⟨rfl, hnew⟩)
      rw [List.cons_append, ← hlog] at hlogged
      exact hlogged.cons (.inserted file.2)

theorem goes_send (hall : ∀ p, ∃ f, Shows cfg s p f) {file : Nat × Path} {table : ClickTable}
    (hpc : s.pc = .send file table) {env : Click2DB.SendEnv}
    (hs : s.send columns cfg env file table = some s') (p : Path) : Goes cfg s s' p := by
  have hhand : s.pc.hand = some (.send, file) := by rw [hpc]; rfl
  have hup : s.pc ≠ .down := by rw [hpc]; simp
  rcases send_effect hs with ⟨db, rfl, hqueue, hlog⟩ | ⟨db, rfl, hqueue, hlog⟩
  · refine goes_hand (.sent file) hall hhand hup rfl (by simp) hqueue hlog
      (List.forall_mem_singleton.mpr rfl) (.inserted file.1) ?_
    intro h
    refine h.event hlog ?_ rfl ?_ (fun r k htries => htries) nofun nofun
    · exact ⟨fun _ => rfl, fun _ => .inr rfl⟩
    · simp [Fate.inserts]
  · refine goes_hand (.caught file) hall hhand hup rfl (by simp) hqueue hlog
      (List.forall_mem_singleton.mpr rfl) (.sendFailed file.1) ?_
    intro h
    refine h.event hlog ?_ rfl rfl ?_ ?_ nofun
    · exact ⟨fun _ => rfl, fun _ => .inr rfl⟩
    · intro r k htries
      simp only [Fate.Tries] at htries ⊢
      by_cases hr : r = s.run
      · subst hr
        simpa using htries
      · have hr' : ¬ s.run = r := fun h => hr h.symm
        simpa [hr, hr'] using htries
    · intro r hr heq
      cases heq
      exact Nat.lt_irrefl _ hr

/-- The worker is done with the file: it has moved it somewhere else, or removed it. -/
theorem goes_moveFile (hall : ∀ p, ∃ f, Shows cfg s p f) {stage : Stage} {file : Nat × Path}
    (hhand : s.pc.hand = some (stage, file)) (hup : s.pc ≠ .down) {toPath : String} {f' : Fate}
    (hnext : Fate.Next (.inHand stage file.1) f')
    (hdir : f'.dir cfg = if toPath = "" then none else some toPath)
    (hentries : f'.entries = []) (hhand' : f'.hand = none) (harriving : f'.arriving = 0)
    (hprocess : f'.Process .loop) (hbounded : f'.Bounded)
    (hhistory : ∀ log', History cfg s.run file.2 s.db.log (.inHand stage file.1) →
      Logged s.db.log log' [.moved s.run toPath file.2] → History cfg s.run file.2 log' f')
    (p : Path) : Goes cfg s { s.moveFile {} toPath file.2 with pc := .loop } p := by
  obtain ⟨f₀, h₀⟩ := hall file.2
  obtain rfl := h₀.inHand hhand
  have hhome := h₀.home nofun
  have hfile := h₀.has_toSend rfl
  have hlog := (logged_refl s.db.log).cons (.moved s.run toPath file.2)
  have hmove : { s.moveFile {} toPath file.2 with pc := .loop } =
      { s with
        fs := if toPath = "" then s.fs.erase file.2
          else s.fs.rename file.2 { dir := toPath, filename := file.2.filename }
        db := s.db.record (.moved s.run toPath file.2)
        pc := .loop } := by
    unfold System.moveFile
    rw [moveFile_smooth hfile]
  rw [hmove]
  refine goes_of_touches (q := file.2) ?_ hhome ?_ p
  · refine touches_of (fun p hname => ?_) (fun _ _ => rfl) rfl rfl
      (holdsOnly_of_some hhand) (holdsOnly_of_none rfl _) hup nofun hlog
      (List.forall_mem_singleton.mpr rfl)
    dsimp only
    split
    · exact Fs.erase_of_ne _ (fun heq => hname (by rw [heq]))
    · exact Fs.rename_of_filename_ne hname
  · intro f h
    obtain rfl := h.inHand hhand
    refine ⟨f', .single hnext, ?_⟩
    have hnot : f' ≠ .absent := fun hf => by rw [hf] at hnext; cases hnext
    refine ⟨fun _ => hhome, fun _ dir hmem => ?_, fun hf => absurd hf hnot,
      h.entries.trans hentries.symm,
      (handOf_none rfl _).trans hhand'.symm, h.arriving.trans harriving.symm, hprocess, hbounded,
      hhistory _ h.history hlog⟩
    have honly : (s.fs { dir := dir, filename := file.2.filename }).isSome → dir = file.2.dir := by
      intro hsome
      have hdir' := (h.present nofun dir hmem).mp hsome
      exact (Option.some.inj hdir').symm.trans hhome.symm
    rw [hdir]
    unfold System.has
    dsimp only
    by_cases hempty : toPath = ""
    · rw [if_pos hempty, if_pos hempty]
      refine ⟨fun hsome => ?_, nofun⟩
      by_cases heq : ({ dir := dir, filename := file.2.filename } : Path) = file.2
      · rw [heq, Fs.erase_same] at hsome
        cases hsome
      · rw [Fs.erase_of_ne _ heq] at hsome
        exact absurd (by rw [honly hsome]) heq
    · rw [if_neg hempty, if_neg hempty, Option.some.injEq, eq_comm (a := toPath)]
      exact Fs.rename_isSome hfile dir honly

/-- Three failed sends are needed to give up. -/
theorem tries_le_two {stage : Stage} {run r k n : Nat} (hstage : stage ≠ .caught) (hn : n ≤ 2)
    (h : (Fate.inHand stage n).Tries run r k) : k ≤ 2 := by
  cases stage with
  | caught => exact absurd rfl hstage
  | _ =>
      simp only [Fate.Tries] at h
      split at h
      · omega
      · exact h

theorem bounded_of_hand (hall : ∀ p, ∃ f, Shows cfg s p f) {stage : Stage} {file : Nat × Path}
    (hhand : s.pc.hand = some (stage, file)) : file.1 ≤ 2 := by
  obtain ⟨f₀, h₀⟩ := hall file.2
  obtain rfl := h₀.inHand hhand
  exact h₀.bounded

theorem goes_bad (hcfg : cfg.Complete) (hall : ∀ p, ∃ f, Shows cfg s p f) {file : Nat × Path}
    (hpc : s.pc = .bad file) (p : Path) :
    Goes cfg s { s.moveFile {} cfg.m_loadFailed file.2 with pc := .loop } p := by
  have hhand : s.pc.hand = some (.bad, file) := by rw [hpc]; rfl
  refine goes_moveFile hall hhand (by rw [hpc]; nofun)
    (.rejected file.1) ?_ rfl rfl rfl trivial trivial ?_ p
  · rw [if_neg hcfg.bad]
    rfl
  · intro log' h hlog
    refine h.event hlog ⟨fun _ => rfl, fun _ => .inr rfl⟩ rfl rfl ?_ nofun nofun
    intro r k htries
    have htwo : k ≤ 2 := tries_le_two (by simp) (bounded_of_hand hall hhand) htries
    exact htwo

theorem goes_sent (hall : ∀ p, ∃ f, Shows cfg s p f) {file : Nat × Path}
    (hpc : s.pc = .sent file) (p : Path) :
    Goes cfg s { s.moveFile {} "" file.2 with pc := .loop } p := by
  have hhand : s.pc.hand = some (.sent, file) := by rw [hpc]; rfl
  refine goes_moveFile hall hhand (by rw [hpc]; nofun)
    (.removed file.1) rfl rfl rfl rfl trivial trivial ?_ p
  intro log' h hlog
  refine h.event hlog ⟨fun _ => rfl, fun _ => .inr rfl⟩ rfl rfl ?_ nofun nofun
  intro r k htries
  have htwo : k ≤ 2 := tries_le_two (by simp) (bounded_of_hand hall hhand) htries
  exact htwo

theorem goes_caught (hcfg : cfg.Complete) (hall : ∀ p, ∃ f, Shows cfg s p f) {file : Nat × Path}
    (hpc : s.pc = .caught file) (p : Path) :
    Goes cfg s { s.retry cfg {} file with pc := .loop } p := by
  have hhand : s.pc.hand = some (.caught, file) := by rw [hpc]; rfl
  have hup : s.pc ≠ .down := by rw [hpc]; nofun
  obtain ⟨f₀, h₀⟩ := hall file.2
  obtain rfl := h₀.inHand hhand
  have hbounded := bounded_of_hand hall hhand
  unfold System.retry
  dsimp only
  split
  case isTrue hmore =>
    have hlog := (logged_refl s.db.log).cons (.requeued file.2)
    refine goes_of_touches (q := file.2) ?_ (h₀.home nofun) ?_ p
    · refine touches_of (fun _ _ => rfl) (fun p hne => ?_) rfl rfl (holdsOnly_of_some hhand)
        (holdsOnly_of_none rfl _) hup nofun hlog (List.forall_mem_singleton.mpr rfl)
      exact (entries_append _ _ p).trans (by rw [if_neg hne, List.append_nil])
    · intro f h
      obtain rfl := h.inHand hhand
      refine ⟨.queued (file.1 + 1), .single (.requeued file.1 hmore), ?_⟩
      refine ⟨fun _ => h.home nofun, fun _ => h.present nofun, nofun, ?_, handOf_none rfl _,
        h.arriving, nofun, Nat.lt_succ_iff.mp hmore,
        h.history.event hlog ?_ rfl rfl ?_ nofun nofun⟩
      · refine (entries_append _ _ _).trans ?_
        rw [h.entries, if_pos rfl]
        rfl
      · exact ⟨fun _ => rfl, fun _ => .inr rfl⟩
      · exact fun r k htries => htries
  case isFalse hlast =>
    refine goes_moveFile hall hhand hup (.gaveUp file.1 s.run hlast) ?_ rfl rfl rfl trivial
      trivial ?_ p
    · rw [if_neg hcfg.failed]
      rfl
    · intro log' h hlog
      refine h.event hlog ⟨fun _ => rfl, fun _ => .inr rfl⟩ rfl rfl ?_ nofun ?_
      · intro r k htries
        simp only [Fate.Tries] at htries ⊢
        split at htries
        case isTrue hr => simp [hr]; omega
        case isFalse hr => simp [hr]; omega
      · intro r hr
        cases hr
        rfl

theorem goes_lifeProc (hcfg : cfg.Complete) (hall : ∀ p, ∃ f, Shows cfg s p f) {a : Answers}
    (ha : a.move = {}) (hs : s.lifeProc columns cfg a = some s') (p : Path) : Goes cfg s s' p := by
  unfold System.lifeProc at hs
  rw [ha] at hs
  cases hpc : s.pc with
  | loop =>
      rw [hpc] at hs
      cases hs
      refine goes_of_same (same_of_idle rfl rfl rfl rfl (by rw [hpc]; rfl) ?_ ?_
        (List.nil_append _).symm nothing_new)
      · dsimp only; split <;> rfl
      · refine up_of_pc (by rw [hpc]; nofun) ?_
        dsimp only
        split <;> nofun
  | connect =>
      rw [hpc] at hs
      cases hs
      exact goes_of_same (same_connect (by rw [hpc]; rfl) (by rw [hpc]; nofun) _ p)
  | ping =>
      rw [hpc] at hs
      cases hs
      exact goes_of_same (same_ping (by rw [hpc]; rfl) (by rw [hpc]; nofun) _ p)
  | describe =>
      rw [hpc] at hs
      cases hs
      exact goes_of_same (same_describe (by rw [hpc]; rfl) (by rw [hpc]; nofun) _ p)
  | test =>
      rw [hpc] at hs
      cases hs
      exact goes_of_same (same_test (by rw [hpc]; rfl) (by rw [hpc]; nofun) p)
  | dequeue => rw [hpc] at hs; cases hs; exact goes_dequeue hall hpc _ p
  | load file => rw [hpc] at hs; exact goes_load hall hpc hs p
  | bad file => rw [hpc] at hs; cases hs; exact goes_bad hcfg hall hpc p
  | send file table => rw [hpc] at hs; exact goes_send hall hpc hs p
  | sent file => rw [hpc] at hs; cases hs; exact goes_sent hall hpc p
  | caught file => rw [hpc] at hs; cases hs; exact goes_caught hcfg hall hpc p
  | down => rw [hpc] at hs; cases hs
  | ready => rw [hpc] at hs; cases hs
  | exited => rw [hpc] at hs; cases hs

/-! ### The other threads -/

theorem same_refl (s : System γ) (p : Path) : Same cfg s s p where
  present _ _ _ := Iff.rfl
  entries := rfl
  hand := rfl
  arriving := rfl
  down := Iff.rfl
  run := rfl
  log _ _ := rfl

/-- A file that no directory has, and that was never accepted, is absent. -/
theorem Shows.absent {f : Fate} {p : Path} (h : Shows cfg s p f)
    (hnone : ∀ dir ∈ cfg.dirs, ¬ s.has dir p) (hnew : .accepted p ∉ s.db.log) : f = .absent := by
  by_contra hf
  have hdir : ∀ dir ∈ cfg.dirs, f.dir cfg ≠ some dir :=
    fun dir hmem heq => hnone dir hmem ((h.present hf dir hmem).mpr heq)
  cases f with
  | absent => exact hf rfl
  | deleted => exact hnew (h.history.accepted.mpr rfl)
  | failed run => exact hdir _ cfg.sendFailed_mem rfl
  | badfiles => exact hdir _ cfg.loadFailed_mem rfl
  | _ => exact hdir _ cfg.toSend_mem rfl

theorem goes_copy (hup : s.pc ≠ .down) {inFile : Path}
    {fails : Bool} (hnone : ∀ dir ∈ cfg.dirs, ¬ s.has dir inFile)
    (hnew : .accepted { dir := cfg.m_toSend, filename := inFile.filename } ∉ s.db.log) (p : Path) :
    Goes cfg s (s.copy cfg inFile fails) p := by
  unfold System.copy copyFile
  dsimp only
  cases hcontent : s.fs inFile with
  | none => exact goes_of_same (same_refl s p)
  | some content =>
      dsimp only
      by_cases hfails :
          (fails || (s.fs { dir := cfg.m_toSend, filename := inFile.filename }).isSome) = true
      · rw [if_pos hfails]
        exact goes_of_same (same_refl s p)
      · rw [if_neg hfails]
        refine goes_of_touches (q := { dir := cfg.m_toSend, filename := inFile.filename })
          ?_ rfl ?_ p
        · refine ⟨fun p hname => ?_, fun _ _ => rfl, fun _ _ => rfl, fun p hne => ?_, Iff.rfl, rfl,
            fun _ _ _ _ => rfl⟩
          · exact Fs.write_of_ne _ _ (fun heq => hname (by rw [heq]))
          · exact List.count_cons_of_ne hne
        · intro f h
          obtain rfl := h.absent hnone hnew
          refine ⟨.copied, .single .copy, ?_⟩
          refine ⟨fun _ => rfl, fun _ dir hmem => ?_, nofun, h.entries, h.hand, ?_, hup, trivial,
            h.history.turn rfl rfl rfl (Nat.le_refl _) (fun _ _ _ htries => htries) nofun⟩
          · unfold System.has
            dsimp only [Fate.dir]
            by_cases hdir : dir = cfg.m_toSend
            · rw [hdir, Fs.write_same]
              exact ⟨fun _ => rfl, fun _ => rfl⟩
            · have hpath : ({ dir := dir, filename := inFile.filename } : Path) ≠
                  { dir := cfg.m_toSend, filename := inFile.filename } := by simpa using hdir
              rw [Fs.write_of_ne _ _ hpath]
              refine ⟨fun hsome => absurd hsome (hnone dir hmem), fun heq => ?_⟩
              exact absurd (Option.some.inj heq).symm hdir
          · refine List.count_cons_self.trans ?_
            rw [h.arriving]
            rfl

theorem goes_enqueue (hall : ∀ p, ∃ f, Shows cfg s p f) {toFile : Path}
    (hmem : toFile ∈ s.arriving) (p : Path) : Goes cfg s (s.enqueue toFile) p := by
  have hcopied : ∀ f, Shows cfg s toFile f → f = .copied := by
    intro f h
    have hcount := List.count_pos_iff.mpr hmem
    rw [h.arriving] at hcount
    cases f with
    | copied => rfl
    | _ => cases hcount
  obtain ⟨f₀, h₀⟩ := hall toFile
  obtain rfl := hcopied f₀ h₀
  have hlog := (logged_refl s.db.log).cons (.accepted toFile)
  refine goes_of_touches (q := toFile) ?_ (h₀.home nofun) ?_ p
  · refine ⟨fun _ _ => rfl, fun p hne => ?_, fun _ _ => rfl, fun p hne => ?_, Iff.rfl, rfl,
      fun p hne e he => ?_⟩
    · exact (entries_append _ _ p).trans (by rw [if_neg hne, List.append_nil])
    · exact List.count_erase_of_ne (fun heq => hne heq.symm)
    · exact hlog.other (List.forall_mem_singleton.mpr rfl) hne he
  · intro f h
    obtain rfl := hcopied f h
    refine ⟨.queued 0, .single .accept, ?_⟩
    refine ⟨fun _ => h.home nofun, fun _ => h.present nofun, nofun, ?_, h.hand, ?_, h.process,
      Nat.zero_le _, h.history.event hlog ?_ rfl rfl ?_ nofun nofun⟩
    · refine (entries_append _ _ _).trans ?_
      rw [h.entries, if_pos rfl]
      rfl
    · refine List.count_erase_self.trans ?_
      rw [h.arriving]
      rfl
    · exact ⟨fun _ => rfl, fun _ => .inl rfl⟩
    · intro r k htries
      simp only [Fate.Tries] at htries ⊢
      split <;> simp [htries]

theorem goes_outside {fs : Fs} (hfs : ∀ p : Path, p.dir ∈ cfg.dirs → fs p = s.fs p) (p : Path) :
    Goes cfg s { s with fs } p := by
  refine goes_of_same ⟨fun _ dir hmem => ?_, rfl, rfl, rfl, Iff.rfl, rfl, fun _ _ => rfl⟩
  unfold System.has
  dsimp only
  rw [hfs { dir := dir, filename := p.filename } hmem]

/-- Without a process a file is in no queue and in nobody's hands. -/
theorem goes_init (hcfg : cfg.Complete) (hpc : s.pc = .down) {listing : List String}
    (hnodup : listing.Nodup)
    (hlisting : ∀ name, name ∈ listing ↔ (s.fs { dir := cfg.m_toSend, filename := name }).isSome)
    (p : Path) : Goes cfg s (s.init cfg listing) p := by
  intro f h
  have hentries := entries_listing cfg.m_toSend hnodup p
  have hhere : p.dir = cfg.m_toSend ∧ p.filename ∈ listing ↔
      p.dir = cfg.m_toSend ∧ f.dir cfg = some cfg.m_toSend := by
    refine and_congr_right fun hhome => ?_
    rw [hlisting]
    by_cases hf : f = .absent
    · subst hf
      exact ⟨fun hhas => absurd hhas (h.apart rfl hhome), nofun⟩
    · exact h.present hf _ cfg.toSend_mem
  rw [if_congr hhere rfl rfl] at hentries
  have hkeep : ∀ r k, (s.run < r → k = 0) → f.Tries s.run r k → f.entries = [] → f.hand = none →
      f.Tries (s.run + 1) r k := by
    intro r k _ htries hnone hfree
    cases f with
    | queued n => cases hnone
    | inHand stage n => cases hfree
    | _ => exact htries
  have hstays : f.entries = [] → f.hand = none → f.dir cfg ≠ some cfg.m_toSend → f.Process .ready →
      Shows cfg (s.init cfg listing) p f := by
    intro hnone hfree hdir hprocess
    refine ⟨h.home, h.present, h.apart, ?_, (handOf_none rfl p).trans hfree.symm, h.arriving,
      hprocess, h.bounded, ?_⟩
    · exact hentries.trans (by rw [if_neg (fun hand => hdir hand.2), hnone])
    · exact h.history.turn rfl rfl rfl (Nat.le_succ _)
        (fun r k hlater htries => hkeep r k hlater htries hnone hfree) (fun _ heq => heq)
  have hprocess := h.process
  have hhand := h.hand
  rw [hpc] at hprocess hhand
  cases f with
  | absent => exact ⟨_, .refl, hstays rfl rfl nofun trivial⟩
  | copied => exact absurd rfl hprocess
  | queued n => exact absurd rfl hprocess
  | inHand stage n => cases hhand
  | deleted => exact ⟨_, .refl, hstays rfl rfl nofun trivial⟩
  | failed run =>
      exact ⟨_, .refl, hstays rfl rfl (fun heq => hcfg.failed_ne (Option.some.inj heq)) trivial⟩
  | badfiles =>
      exact ⟨_, .refl, hstays rfl rfl (fun heq => hcfg.bad_ne (Option.some.inj heq)) trivial⟩
  | pending =>
      have hhome := h.home nofun
      refine ⟨.queued 0, .single .restart, ?_⟩
      refine ⟨fun _ => hhome, fun _ => h.present nofun, nofun, ?_, handOf_none rfl p, h.arriving,
        nofun, Nat.zero_le _, ?_⟩
      · exact hentries.trans (if_pos ⟨hhome, rfl⟩)
      · refine h.history.turn rfl rfl rfl (Nat.le_succ _) (fun r k hlater htries => ?_) nofun
        simp only [Fate.Tries] at htries ⊢
        split
        case isTrue hr => exact hlater (hr ▸ Nat.lt_succ_self s.run)
        case isFalse => exact htries

theorem goes_destroy (hpc : s.pc = .ready ∨ s.pc = .exited) (harriving : s.arriving = [])
    (p : Path) :
    Goes cfg s { s with pc := .down, db := { log := s.db.log, inserts := s.db.inserts } } p := by
  intro f h
  have hhand := h.hand
  have hprocess := h.process
  have hcount := h.arriving
  rw [harriving] at hcount
  have hnone : s.pc.hand = none := by rcases hpc with hpc | hpc <;> rw [hpc] <;> rfl
  have hup : s.pc ≠ .down := by rcases hpc with hpc | hpc <;> rw [hpc] <;> nofun
  rw [handOf_none hnone] at hhand
  have hstays : f.entries = [] → f.Process .down →
      Shows cfg { s with pc := .down, db := { log := s.db.log, inserts := s.db.inserts } } p f :=
    fun hentries hdown =>
    ⟨h.home, h.present, h.apart, hentries.symm, (handOf_none rfl p).trans hhand, h.arriving, hdown,
      h.bounded, h.history⟩
  cases f with
  | copied => cases hcount
  | inHand stage n => cases hhand
  | pending => exact absurd hprocess hup
  | queued n =>
      refine ⟨.pending, .single (.stop n), ?_⟩
      refine ⟨fun _ => h.home nofun, fun _ => h.present nofun, nofun, rfl, handOf_none rfl p,
        h.arriving, rfl, trivial, ?_⟩
      refine h.history.turn rfl rfl rfl (Nat.le_refl _) (fun r k _ htries => ?_) nofun
      have hbounded : n ≤ 2 := h.bounded
      simp only [Fate.Tries] at htries ⊢
      split at htries <;> omega
  | _ => exact ⟨_, .refl, hstays rfl trivial⟩

theorem goes_step (hcfg : cfg.Complete) (hall : ∀ p, ∃ f, Shows cfg s p f) {a : System.Action}
    (ha : System.Smooth cfg s a) (hs : s.step columns cfg a = some s') (p : Path) :
    Goes cfg s s' p := by
  obtain ⟨hpossible, hsmooth⟩ := ha
  cases a with
  | lifeProc a => exact goes_lifeProc hcfg hall hsmooth hs p
  | copy inFile fails =>
      obtain ⟨hup, rfl⟩ := System.step_copy hs
      exact goes_copy hup hsmooth.1 hsmooth.2 p
  | enqueue toFile =>
      obtain ⟨hmem, rfl⟩ := System.step_enqueue hs
      exact goes_enqueue hall hmem p
  | outside fs =>
      cases hs
      exact goes_outside hpossible p
  | init listing =>
      obtain ⟨hpc, rfl⟩ := System.step_init hs
      exact goes_init hcfg hpc hpossible.1 hpossible.2 p
  | start =>
      obtain ⟨hpc, rfl⟩ := System.step_start hs
      exact goes_of_same (same_of_idle rfl rfl rfl rfl (by rw [hpc]; rfl) rfl
        (up_of_pc (by rw [hpc]; nofun) nofun) (List.nil_append _).symm nothing_new)
  | stop =>
      cases hs
      exact goes_of_same ⟨fun _ _ _ => Iff.rfl, rfl, rfl, rfl, Iff.rfl, rfl, fun _ _ => rfl⟩
  | destroy =>
      obtain ⟨hpc, harriving, rfl⟩ := System.step_destroy hs
      exact goes_destroy hpc harriving p

end Steps

end FlexEtl
