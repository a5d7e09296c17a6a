/-
FlexEtl.Node.FanoutTheorems — what a fan-out over `Click2DB` nodes does.

A run of `doProc` is a number: it copies the file to that many sub-nodes from
the first on, and the next one refuses it (`offer_copies`). The steps of a call
go through the stages of `Progress`, and the last one is what `doProc` does
(`returned_eq`).
-/
import FlexEtl.Node.Fanout

namespace FlexEtl

namespace PipeSet

/-! ## One fan-out -/

@[simp] theorem copies_nil (fs : Fs) (fileName : Path) (content : Bytes) :
    copies fs fileName content [] = fs := by
  funext q
  simp [copies]

theorem copies_same {fs : Fs} {fileName : Path} {content : Bytes} {dir : String}
    {dirs : List String} (h : dir ∈ dirs) :
    copies fs fileName content dirs (toFile dir fileName) = some content :=
  if_pos ⟨rfl, h⟩

theorem copies_of_not_mem {fs : Fs} {fileName : Path} {content : Bytes} {dir : String}
    {dirs : List String} (h : dir ∉ dirs) :
    copies fs fileName content dirs (toFile dir fileName) = fs (toFile dir fileName) :=
  if_neg fun hmem => h hmem.2

theorem handlers_cons (copyFails : Nat → Bool) (dir : String) (dirs : List String) :
    handlers copyFails (dir :: dirs) =
      some (click2db (copyFails 0) dir) :: handlers (fun i => copyFails (i + 1)) dirs := by
  simp [handlers, List.mapIdx_cons]

theorem click2db_refuses {copyFails : Bool} {dir : String} {fileName : Path} {fs : Fs}
    {content : Bytes} (hsource : fs fileName = some content)
    (h : copyFails = true ∨ (fs (toFile dir fileName)).isSome) :
    click2db copyFails dir fileName fs = (false, fs) := by
  rw [← Bool.or_eq_true] at h
  simp [click2db, copyFile, hsource, h]

theorem click2db_copies {dir : String} {fileName : Path} {fs : Fs} {content : Bytes}
    (hsource : fs fileName = some content) (h : fs (toFile dir fileName) = none) :
    click2db false dir fileName fs = (true, fs.write (toFile dir fileName) content) := by
  simp [click2db, copyFile, hsource, h]

/-- Where a file of the name lies, its directory says. -/
theorem eq_toFile {q fileName : Path} (hname : q.filename = fileName.filename) :
    q = toFile q.dir fileName := by
  rw [toFile, ← hname]

/-- A copy made first is one of the copies. -/
theorem copies_write (fs : Fs) (fileName : Path) (content : Bytes) (dir : String)
    (dirs : List String) :
    copies (fs.write (toFile dir fileName) content) fileName content dirs =
      copies fs fileName content (dir :: dirs) := by
  funext q
  by_cases hq : q = toFile dir fileName
  · subst hq
    rw [copies_same List.mem_cons_self, copies, Fs.write_same, ite_self]
  · unfold copies
    rw [Fs.write_of_ne fs content hq]
    refine if_congr (and_congr_right fun hname => ?_) rfl rfl
    have hne : q.dir ≠ dir := fun hdir => hq (hdir ▸ eq_toFile hname)
    simp [hne]

/-- And so is one made last. -/
theorem write_copies (fs : Fs) (fileName : Path) (content : Bytes) (dir : String)
    (dirs : List String) :
    (copies fs fileName content dirs).write (toFile dir fileName) content =
      copies fs fileName content (dirs ++ [dir]) := by
  funext q
  by_cases hq : q = toFile dir fileName
  · subst hq
    rw [copies_same (by simp), Fs.write_same]
  · rw [Fs.write_of_ne _ content hq]
    unfold copies
    refine if_congr (and_congr_right fun hname => ?_) rfl rfl
    have hne : q.dir ≠ dir := fun hdir => hq (hdir ▸ eq_toFile hname)
    simp [hne]

section Takes

variable {copyFails : Nat → Bool} {dirs : List String} {dir : String} {fileName : Path} {fs : Fs}
  {content : Bytes} {j k : Nat}

/-- A directory that takes the file does not have it. -/
theorem Takes.absent (h : Takes copyFails dirs fileName fs j) (hdir : dir ∈ dirs.take j) :
    fs (toFile dir fileName) = none := by
  obtain ⟨i, hi, hget⟩ := List.mem_take_iff_getElem.mp hdir
  refine (h.free i dir ?_ (by omega)).1
  rw [List.getElem?_eq_getElem (by omega), hget]

/-- A directory that takes the file is not the one of its source. -/
theorem Takes.ne_source (h : Takes copyFails dirs fileName fs (j + 1))
    (hdir : dirs[j]? = some dir) (hsource : fs fileName = some content) :
    fileName ≠ toFile dir fileName := by
  intro heq
  have habsent := (h.free j dir hdir (Nat.lt_succ_self j)).1
  rw [← heq, hsource] at habsent
  cases habsent

/-- No more sub-nodes can be given the file than up to the first that refuses it. -/
theorem Takes.le_of_refuses (h : Takes copyFails dirs fileName fs j)
    (hr : Refuses copyFails dirs fileName fs k) : j ≤ k := by
  by_contra hlt
  rw [Nat.not_le] at hlt
  have hlen := h.le
  have hget := List.getElem?_eq_getElem (show k < dirs.length by omega)
  obtain ⟨habsent, hok⟩ := h.free k _ hget hlt
  rcases hr _ hget with hfails | hsome | hmem
  · rw [hok] at hfails
    cases hfails
  · rw [habsent] at hsome
    cases hsome
  · have hsplit : dirs.take (k + 1) = dirs.take k ++ [dirs[k]] := by
      rw [List.take_add_one, hget, Option.toList_some]
    have hnodup := h.nodup.sublist (List.take_sublist_take_left (show k + 1 ≤ j from hlt))
    rw [hsplit, List.nodup_append] at hnodup
    exact hnodup.2.2 _ hmem _ (List.mem_singleton_self _) rfl

theorem Takes.zero (copyFails : Nat → Bool) (dirs : List String) (fileName : Path) (fs : Fs) :
    Takes copyFails dirs fileName fs 0 :=
  ⟨Nat.zero_le _, by simp, by simp⟩

/-- A sub-node that takes the file, and then so many others. -/
theorem Takes.succ (habsent : fs (toFile dir fileName) = none) (hok : copyFails 0 = false)
    (h : Takes (fun i => copyFails (i + 1)) dirs fileName (fs.write (toFile dir fileName) content)
      j) :
    Takes copyFails (dir :: dirs) fileName fs (j + 1) := by
  have hne : ∀ d, (fs.write (toFile dir fileName) content) (toFile d fileName) = none →
      d ≠ dir := by
    rintro d hnone rfl
    rw [Fs.write_same] at hnone
    cases hnone
  refine ⟨Nat.succ_le_succ h.le, ?_, ?_⟩
  · intro i d hd hi
    cases i with
    | zero =>
        obtain rfl : dir = d := by simpa using hd
        exact ⟨habsent, hok⟩
    | succ i =>
        obtain ⟨hnone, hok'⟩ := h.free i d (by simpa using hd) (Nat.lt_of_succ_lt_succ hi)
        refine ⟨?_, hok'⟩
        rwa [Fs.write_of_ne _ _ fun hp => hne d hnone (congrArg Path.dir hp)] at hnone
  · rw [List.take_succ_cons, List.nodup_cons]
    exact ⟨fun hmem => hne dir (h.absent hmem) rfl, h.nodup⟩

/-- One sub-node more. -/
theorem Takes.snoc (h : Takes copyFails dirs fileName fs j) (hdir : dirs[j]? = some dir)
    (habsent : fs (toFile dir fileName) = none) (hok : copyFails j = false)
    (hnew : dir ∉ dirs.take j) : Takes copyFails dirs fileName fs (j + 1) := by
  obtain ⟨hj, hget⟩ := List.getElem?_eq_some_iff.mp hdir
  refine ⟨hj, ?_, ?_⟩
  · intro i d hi hij
    rcases Nat.lt_succ_iff_lt_or_eq.mp hij with hlt | rfl
    · exact h.free i d hi hlt
    · obtain rfl : dir = d := Option.some.inj (hdir.symm.trans hi)
      exact ⟨habsent, hok⟩
  · rw [List.take_add_one, hdir, Option.toList_some, List.nodup_append]
    refine ⟨h.nodup, List.nodup_singleton _, ?_⟩
    rintro a ha b hb rfl
    exact hnew (List.mem_singleton.mp hb ▸ ha)

theorem Refuses.succ
    (h : Refuses (fun i => copyFails (i + 1)) dirs fileName (fs.write (toFile dir fileName) content)
      j) :
    Refuses copyFails (dir :: dirs) fileName fs (j + 1) := by
  intro d hd
  rcases h d (by simpa using hd) with hfails | hsome | hmem
  · exact .inl hfails
  · by_cases hdir : d = dir
    · exact .inr (.inr (by simp [hdir]))
    · rw [Fs.write_of_ne _ _ fun hp => hdir (congrArg Path.dir hp)] at hsome
      exact .inr (.inl hsome)
  · exact .inr (.inr (by simp [hmem]))

end Takes

/-- The loop copies the file to so many sub-nodes, and the next one refuses it. -/
theorem offer_copies {fileName : Path} {content : Bytes} (dirs : List String) :
    ∀ (copyFails : Nat → Bool) (i : Nat) (fs : Fs) (done : List (Nat × Bool)),
      fs fileName = some content → ∃ j,
        Takes copyFails dirs fileName fs j ∧ Refuses copyFails dirs fileName fs j ∧
        (offer fileName i (handlers copyFails dirs) { fs, answers := done }).fs =
          copies fs fileName content (dirs.take j) ∧
        (offer fileName i (handlers copyFails dirs) { fs, answers := done }).answers =
          done ++ ((List.range j).map fun k => (i + k, true)) ++
            if j < dirs.length then [(i + j, false)] else [] := by
  induction dirs with
  | nil =>
      intro copyFails i fs done hsource
      refine ⟨0, .zero copyFails [] fileName fs, by simp [Refuses], ?_, ?_⟩
      · simp [handlers, offer]
      · simp [handlers, offer]
  | cons dir dirs ih =>
      intro copyFails i fs done hsource
      rw [handlers_cons]
      by_cases hrefused : copyFails 0 = true ∨ (fs (toFile dir fileName)).isSome
      · refine ⟨0, .zero copyFails _ fileName fs, ?_, ?_, ?_⟩
        · intro d hd
          obtain rfl : dir = d := by simpa using hd
          exact hrefused.imp_right .inl
        · simp only [offer, click2db_refuses hsource hrefused, if_true]
          rw [offer_refused _ _ rfl]
          simp
        · simp only [offer, click2db_refuses hsource hrefused, if_true]
          rw [offer_refused _ _ rfl]
          simp
      · rw [not_or, Bool.not_eq_true, Option.not_isSome_iff_eq_none] at hrefused
        obtain ⟨hok, habsent⟩ := hrefused
        have hsource' : (fs.write (toFile dir fileName) content) fileName = some content := by
          rw [Fs.write_of_ne, hsource]
          intro h
          rw [← h, hsource] at habsent
          cases habsent
        obtain ⟨j, htakes, hrefuses, hfs, hans⟩ := ih (fun i => copyFails (i + 1)) (i + 1)
          (fs.write (toFile dir fileName) content) (done ++ [(i, true)]) hsource'
        refine ⟨j + 1, htakes.succ habsent hok, hrefuses.succ, ?_, ?_⟩
        · simp only [offer, hok, click2db_copies hsource habsent, if_true]
          rw [hfs, copies_write, List.take_succ_cons]
        · simp only [offer, hok, click2db_copies hsource habsent, if_true]
          rw [hans, List.range_succ_eq_map]
          simp [Nat.add_assoc, Nat.add_comm 1, Function.comp_def]

/-- `doProc` with a source: the first sub-nodes take the file, and the source goes if it
can. -/
theorem proc_copies (env : Env) {fileName : Path} {content : Bytes} {s : Fanout}
    (hsource : s.fs fileName = some content) : ∃ j,
      Takes env.copyFails s.dirs fileName s.fs j ∧ Refuses env.copyFails s.dirs fileName s.fs j ∧
      (proc env fileName s).fs =
        (if env.move.removeFails then copies s.fs fileName content (s.dirs.take j)
        else (copies s.fs fileName content (s.dirs.take j)).erase fileName) ∧
      (proc env fileName s).subs =
        s.subs.mapIdx fun i sub => if i < j then sub.enqueue fileName else sub := by
  obtain ⟨j, htakes, hrefuses, hfs, hans⟩ := offer_copies s.dirs env.copyFails 0 s.fs [] hsource
  refine ⟨j, htakes, hrefuses, ?_, ?_⟩
  · have hsource' : copies s.fs fileName content (s.dirs.take j) fileName = some content := by
      unfold copies
      split
      · rfl
      · exact hsource
    simp only [proc, doProc, moveFile_remove, hfs, hsource']
    cases env.move.removeFails with
    | true => simp
    | false => simp
  · have hanswer : ∀ i, (i, true) ∈ (doProc (handlers env.copyFails s.dirs) env.move fileName
        s.fs).1.answers ↔ i < j := by
      intro i
      show (i, true) ∈ (offer fileName 0 (handlers env.copyFails s.dirs) { fs := s.fs }).answers ↔ _
      rw [hans]
      split
      · simp
      · simp
    simp only [proc, hanswer]

theorem dirs_getElem? {s : Fanout} {i : Nat} {sub : SubNode} (h : s.subs[i]? = some sub) :
    s.dirs[i]? = some sub.m_toSend := by
  rw [Fanout.dirs, List.getElem?_map, h, Option.map_some]

theorem getElem?_dirs {s : Fanout} {i : Nat} {dir : String} (h : s.dirs[i]? = some dir) :
    ∃ sub, s.subs[i]? = some sub ∧ sub.m_toSend = dir := by
  rw [Fanout.dirs, List.getElem?_map, Option.map_eq_some_iff] at h
  exact h

theorem remove_eq_some {fails : Bool} {fs : Fs} {p q : Path} {content : Bytes} :
    (if fails then fs else fs.erase p) q = some content ↔
      fs q = some content ∧ (fails = true ∨ q ≠ p) := by
  cases fails with
  | true => simp
  | false =>
      by_cases h : q = p
      · simp [h]
      · simp [h, Fs.erase_of_ne]

/-! ## The steps of `doProc` -/

variable {env : Env} {fileName : Path} {content : Bytes} {s : Fanout}

theorem after_fs (j : Nat) : (after fileName content s j).fs =
    copies s.fs fileName content (s.dirs.take j) :=
  rfl

theorem after_zero : after fileName content s 0 = s := by
  have hsubs : s.subs.mapIdx (fun i sub => if i < 0 then sub.enqueue fileName else sub) =
      s.subs := by
    refine List.ext_getElem? fun i => ?_
    rw [List.getElem?_mapIdx]
    cases s.subs[i]? with
    | none => rfl
    | some sub => rfl
  rw [after, hsubs, List.take_zero, copies_nil]

theorem after_source (hsource : s.fs fileName = some content) (j : Nat) :
    (after fileName content s j).fs fileName = some content := by
  unfold after copies
  dsimp only
  split
  · rfl
  · exact hsource

/-- The queue of a sub-node changes, its directory does not. -/
theorem after_getElem? (i j : Nat) : (after fileName content s j).subs[i]? =
    s.subs[i]?.map fun sub => if i < j then sub.enqueue fileName else sub := by
  simp [after, List.getElem?_mapIdx]

theorem after_enqueue (i : Nat) :
    (after fileName content s i).subs.modify i (·.enqueue fileName) =
      (after fileName content s (i + 1)).subs := by
  refine List.ext_getElem? fun k => ?_
  rw [List.getElem?_modify, after_getElem?, after_getElem?]
  cases s.subs[k]? with
  | none => rfl
  | some sub =>
      by_cases hk : i = k
      · subst hk
        simp
      · by_cases hlt : k < i
        · simp [hk, hlt, show k < i + 1 by omega]
        · simp [hk, hlt, show ¬ k < i + 1 by omega]

/-- A copy that is complete is one of the copies. -/
theorem after_write {i : Nat} {dir : String} (hdir : s.dirs[i]? = some dir) :
    (after fileName content s i).fs.write (toFile dir fileName) content =
      (after fileName content s (i + 1)).fs := by
  rw [after_fs, after_fs, write_copies, List.take_add_one, hdir, Option.toList_some]

/-- What is a file at the end of `doProc`. -/
theorem proc_eq (hsource : s.fs fileName = some content) {j : Nat}
    (h : Takes env.copyFails s.dirs fileName s.fs j)
    (hr : Refuses env.copyFails s.dirs fileName s.fs j) :
    { after fileName content s j with
      fs := (moveFile env.move "" fileName (after fileName content s j).fs).2 } =
      proc env fileName s := by
  obtain ⟨j', htakes, hrefuses, hfs, hsubs⟩ := proc_copies env hsource
  obtain rfl := Nat.le_antisymm (htakes.le_of_refuses hr) (h.le_of_refuses hrefuses)
  have hremoved : (moveFile env.move "" fileName (after fileName content s j').fs).2 =
      (proc env fileName s).fs := by
    rw [hfs, moveFile_remove, after_source hsource]
    cases env.move.removeFails with
    | true => rfl
    | false => rfl
  rw [hremoved]
  exact congrArg (Fanout.mk _) hsubs.symm

/-- The directory of a sub-node is none of those that have the file, if it is absent. -/
theorem after_absent {i : Nat} {dir : String}
    (h : (after fileName content s i).fs (toFile dir fileName) = none) :
    dir ∉ s.dirs.take i ∧ s.fs (toFile dir fileName) = none := by
  have hnot : dir ∉ s.dirs.take i := by
    intro hmem
    rw [after_fs, copies_same hmem] at h
    cases h
  exact ⟨hnot, by rwa [after_fs, copies_of_not_mem hnot] at h⟩

/-- The sub-node at position `i`, and none beyond the last. -/
theorem after_sub {i j : Nat} : ((after fileName content s j).subs[i]? = none ∧
      s.dirs[i]? = none) ∨
    ∃ sub, (after fileName content s j).subs[i]? = some sub ∧ s.dirs[i]? = some sub.m_toSend := by
  rw [after_getElem?, Fanout.dirs, List.getElem?_map]
  cases s.subs[i]? with
  | none => exact .inl ⟨rfl, rfl⟩
  | some sub =>
      refine .inr ⟨_, rfl, ?_⟩
      split
      · rfl
      · rfl

/-- What the step does at the turn of a sub-node. -/
theorem next_offer {t : Fanout} {i piece : Nat} {res : Bool} {c' : Call}
    (hs : next env fileName piece ⟨.offer i res, t⟩ = some c') :
    (t.subs[i]? = none ∧ c' = ⟨.remove res, t⟩) ∨
    ∃ sub, t.subs[i]? = some sub ∧
      ((res = false ∧ c' = ⟨.offer (i + 1) false, t⟩) ∨
        (res = true ∧ (env.copyFails i = true ∨ t.fs fileName = none ∨
          (t.fs (toFile sub.m_toSend fileName)).isSome) ∧ c' = ⟨.offer (i + 1) false, t⟩) ∨
        (res = true ∧ env.copyFails i = false ∧ t.fs (toFile sub.m_toSend fileName) = none ∧
          c' = ⟨.copying i 0, { t with fs := t.fs.write (toFile sub.m_toSend fileName) [] }⟩)) := by
  cases hsub : t.subs[i]? with
  | none =>
      simp only [PipeSet.next, hsub, Option.some.injEq] at hs
      exact .inl ⟨rfl, hs.symm⟩
  | some sub =>
      refine .inr ⟨sub, rfl, ?_⟩
      simp only [PipeSet.next, hsub] at hs
      cases res with
      | false => exact .inl ⟨rfl, (Option.some.inj hs).symm⟩
      | true =>
          rw [if_pos rfl] at hs
          split at hs
          · rename_i hrefused
            rw [Bool.or_eq_true, Bool.or_eq_true, Option.isNone_iff_eq_none, or_assoc] at hrefused
            exact .inr (.inl ⟨rfl, hrefused, (Option.some.inj hs).symm⟩)
          · rename_i hfree
            rw [Bool.or_eq_true, Bool.or_eq_true, not_or, not_or, Bool.not_eq_true,
              Option.not_isSome_iff_eq_none] at hfree
            exact .inr (.inr ⟨rfl, hfree.1.1, hfree.2, (Option.some.inj hs).symm⟩)

/-- What the step does in a copy: a piece more of it, or all the rest. -/
theorem next_copying {t : Fanout} {i written piece : Nat} {c' : Call}
    (hs : next env fileName piece ⟨.copying i written, t⟩ = some c') :
    ∃ sub content, t.subs[i]? = some sub ∧ t.fs fileName = some content ∧
      (c' = ⟨.copying i (written + piece), { t with
          fs := t.fs.write (toFile sub.m_toSend fileName) (content.take (written + piece)) }⟩ ∨
        c' = ⟨.enqueue i, { t with fs := t.fs.write (toFile sub.m_toSend fileName) content }⟩) := by
  cases hsub : t.subs[i]? with
  | none => simp [PipeSet.next, hsub] at hs
  | some sub =>
      cases hsource : t.fs fileName with
      | none => simp [PipeSet.next, hsub, hsource] at hs
      | some content =>
          refine ⟨sub, content, rfl, rfl, ?_⟩
          simp only [PipeSet.next, hsub, hsource] at hs
          split at hs
          · exact .inl (Option.some.inj hs).symm
          · rename_i hlen
            rw [List.take_of_length_le (Nat.not_lt.mp hlen)] at hs
            exact .inr (Option.some.inj hs).symm

/-- A step leads from one stage of a call to another. -/
theorem Progress.next (hsource : s.fs fileName = some content) {c c' : Call} {piece : Nat}
    (h : Progress env fileName content s c) (hs : next env fileName piece c = some c') :
    Progress env fileName content s c' := by
  cases h with
  | @offer i h =>
      rcases @after_sub fileName content s i i with ⟨hnone, hend⟩ | ⟨sub, hsub, hdir⟩
      · rcases next_offer hs with ⟨-, rfl⟩ | ⟨sub, hsub, -⟩
        · exact .remove h fun dir hi => by rw [hend] at hi; cases hi
        · rw [hnone] at hsub
          cases hsub
      · rcases next_offer hs with ⟨hnone, -⟩ | ⟨sub', hsub', hcase⟩
        · rw [hnone] at hsub
          cases hsub
        · obtain rfl : sub = sub' := Option.some.inj (hsub.symm.trans hsub')
          rcases hcase with ⟨hres, -⟩ | ⟨-, hrefused, rfl⟩ | ⟨-, hok, hfree, rfl⟩
          · cases hres
          · refine .refused h fun dir hi => ?_
            obtain rfl : sub.m_toSend = dir := Option.some.inj (hdir.symm.trans hi)
            rw [after_source hsource] at hrefused
            rcases hrefused with hfails | hgone | hsome
            · exact .inl hfails
            · cases hgone
            · by_cases hmem : sub.m_toSend ∈ s.dirs.take i
              · exact .inr (.inr hmem)
              · rw [after_fs, copies_of_not_mem hmem] at hsome
                exact .inr (.inl hsome)
          · obtain ⟨hnew, habsent⟩ := after_absent hfree
            exact @Progress.copying _ _ _ _ i _ 0 (h.snoc hdir habsent hok hnew) hdir
  | @copying i dir written h hdir =>
      rcases @after_sub fileName content s i i with ⟨-, hend⟩ | ⟨sub, hsub, hdir'⟩
      · rw [hend] at hdir
        cases hdir
      · obtain rfl : sub.m_toSend = dir := Option.some.inj (hdir'.symm.trans hdir)
        obtain ⟨sub', content', hsub', hcontent, hcase⟩ := next_copying hs
        obtain rfl : sub = sub' := Option.some.inj (hsub.symm.trans hsub')
        dsimp only at hcontent hcase
        rw [Fs.write_of_ne _ _ (h.ne_source hdir hsource), after_source hsource] at hcontent
        obtain rfl : content = content' := Option.some.inj hcontent
        rw [Fs.write_write, Fs.write_write, after_write hdir] at hcase
        rcases hcase with rfl | rfl
        · exact .copying h hdir
        · exact .enqueue h
  | @enqueue i h =>
      simp only [PipeSet.next, Option.some.injEq] at hs
      subst hs
      rw [after_enqueue]
      exact .offer h
  | @refused i j h hr =>
      rcases next_offer hs with ⟨-, rfl⟩ | ⟨sub, -, ⟨-, rfl⟩ | ⟨hres, -⟩ | ⟨hres, -⟩⟩
      · exact .remove h hr
      · exact .refused h hr
      · cases hres
      · cases hres
  | @remove res j h hr =>
      simp only [PipeSet.next, Option.some.injEq] at hs
      subst hs
      rw [proc_eq hsource h hr]
      exact .returned
  | returned => simp [PipeSet.next] at hs

theorem progress_of_reachable {c : Call}
    (h : (callsFrom env fileName content s).Reachable Alone c) :
    Progress env fileName content s c ∧ s.fs fileName = some content := by
  refine h.invariant (I := fun c => Progress env fileName content s c ∧
    s.fs fileName = some content) ?_ ?_
  · rintro ⟨pc, s'⟩ ⟨⟨hpc, hsource⟩, hs⟩
    obtain rfl : s' = s := hs
    obtain rfl : pc = .offer 0 true := hpc
    have hzero : Progress env fileName content s' ⟨.offer 0 true, after fileName content s' 0⟩ :=
      .offer (.zero _ _ _ _)
    rw [after_zero] at hzero
    exact ⟨hzero, hsource⟩
  · rintro c a c' ⟨hc, hsource⟩ halone hstep
    cases a with
    | next piece => exact ⟨hc.next hsource hstep, hsource⟩
    | others fs => exact halone.elim

/-- **Refinement.** A call that runs to its end does what `doProc` does. -/
theorem returned_eq {c : Call} {res : Bool}
    (h : (callsFrom env fileName content s).Reachable Alone c)
    (hc : c.pc = .returned res) : c.s = proc env fileName s := by
  obtain ⟨hprogress, -⟩ := progress_of_reachable h
  cases hprogress with
  | returned => rfl
  | _ => cases hc

/-! ### The source -/

/-- The source is there until it is removed, and no copy is made over it. -/
structure Sourced (fileName : Path) (content : Bytes) (c : Call) : Prop where
  source : c.s.fs fileName = some content ∨
    (c.s.fs fileName = none ∧ ∃ res, c.pc = .returned res)
  copying : ∀ i written sub, c.pc = .copying i written → c.s.subs[i]? = some sub →
    fileName ≠ toFile sub.m_toSend fileName

theorem Sourced.next {c c' : Call} {piece : Nat} (h : Sourced fileName content c)
    (hs : next env fileName piece c = some c') : Sourced fileName content c' := by
  obtain ⟨pc, s⟩ := c
  have hthere : (∀ res, pc ≠ .returned res) → s.fs fileName = some content := by
    intro hpc
    rcases h.source with hsource | ⟨-, res, hres⟩
    · exact hsource
    · exact absurd hres (hpc res)
  cases pc with
  | offer i res =>
      have hsource := hthere (by simp)
      rcases next_offer hs with ⟨-, rfl⟩ | ⟨sub, hsub, ⟨-, rfl⟩ | ⟨-, -, rfl⟩ | ⟨-, -, hfree, rfl⟩⟩
      · exact ⟨.inl hsource, by simp⟩
      · exact ⟨.inl hsource, by simp⟩
      · exact ⟨.inl hsource, by simp⟩
      · -- the copy is made where there is no file
        have hne : fileName ≠ toFile sub.m_toSend fileName := by
          intro heq
          rw [← heq, hsource] at hfree
          cases hfree
        refine ⟨.inl ((Fs.write_of_ne _ _ hne).trans hsource), ?_⟩
        intro i' written sub' hpc hsub'
        obtain ⟨rfl, -⟩ := Pc.copying.inj hpc
        obtain rfl : sub = sub' := Option.some.inj (hsub.symm.trans hsub')
        exact hne
  | copying i written =>
      have hsource := hthere (by simp)
      obtain ⟨sub, content', hsub, -, hcase⟩ := next_copying hs
      have hne := h.copying i written sub rfl hsub
      rcases hcase with rfl | rfl
      · refine ⟨.inl ((Fs.write_of_ne _ _ hne).trans hsource), ?_⟩
        intro i' written' sub' hpc hsub'
        obtain ⟨rfl, -⟩ := Pc.copying.inj hpc
        exact h.copying i written sub' rfl hsub'
      · exact ⟨.inl ((Fs.write_of_ne _ _ hne).trans hsource), by simp⟩
  | enqueue i =>
      have hsource := hthere (by simp)
      simp only [PipeSet.next, Option.some.injEq] at hs
      subst hs
      exact ⟨.inl hsource, by simp⟩
  | remove res =>
      have hsource := hthere (by simp)
      simp only [PipeSet.next, Option.some.injEq] at hs
      subst hs
      refine ⟨?_, by simp⟩
      rw [moveFile_remove]
      split
      · exact .inr ⟨Fs.erase_same _ _, res, rfl⟩
      · exact .inl hsource
  | returned res => simp [PipeSet.next] at hs

/-- Wherever the process is killed, the source is still there or has just been removed. -/
theorem sourced_of_reachable {c : Call}
    (h : (machine env fileName content).Reachable (Possible fileName) c) :
    Sourced fileName content c := by
  refine h.invariant ?_ ?_
  · rintro c ⟨hpc, hsource⟩
    refine ⟨.inl hsource, fun i written sub hcopying _ => ?_⟩
    rw [hpc] at hcopying
    cases hcopying
  · intro c a c' hc hpossible hstep
    cases a with
    | next piece => exact hc.next hstep
    | others fs =>
        obtain rfl := Option.some.inj hstep
        refine ⟨?_, hc.copying⟩
        show fs fileName = _ ∨ (fs fileName = _ ∧ _)
        rw [hpossible.1]
        exact hc.source

/-! ### A fan-out that meets nothing in its way -/

/-- No sub-node has a file of the name yet, each has a directory of its own, and no copy
fails. -/
structure Fresh (env : Env) (fileName : Path) (s : Fanout) : Prop where
  absent : ∀ dir ∈ s.dirs, s.fs (toFile dir fileName) = none
  nodup : s.dirs.Nodup
  succeeds : ∀ i, env.copyFails i = false

theorem Fresh.length_le_of_refuses (hf : Fresh env fileName s) {j : Nat}
    (hr : Refuses env.copyFails s.dirs fileName s.fs j) : s.dirs.length ≤ j := by
  have hall : Takes env.copyFails s.dirs fileName s.fs s.dirs.length :=
    ⟨Nat.le_refl _, fun i dir hi _ => ⟨hf.absent dir (List.mem_of_getElem? hi), hf.succeeds i⟩,
      by rw [List.take_length]; exact hf.nodup⟩
  exact hall.le_of_refuses hr

theorem Fresh.ne_source (hf : Fresh env fileName s) (hsource : s.fs fileName = some content)
    {dir : String} (hdir : dir ∈ s.dirs) : toFile dir fileName ≠ fileName := by
  intro heq
  have habsent := hf.absent dir hdir
  rw [heq, hsource] at habsent
  cases habsent

/-- The sub-nodes before the one whose turn it is have the file, and the ones after it have
none of that name. -/
def Prefix (fileName : Path) (content : Bytes) (dirs : List String) (fs : Fs) (m : Nat) : Prop :=
  ∀ i dir, dirs[i]? = some dir → (i < m → fs (toFile dir fileName) = some content) ∧
    (m < i → fs (toFile dir fileName) = none)

theorem Fresh.prefix_copies (hf : Fresh env fileName s) (m : Nat) :
    Prefix fileName content s.dirs (copies s.fs fileName content (s.dirs.take m)) m := by
  intro i dir hdir
  constructor
  · intro hi
    exact copies_same (List.mem_of_getElem? ((List.getElem?_take_of_lt hi).trans hdir))
  · intro hi
    have hnot : dir ∉ s.dirs.take m := by
      intro hmem
      obtain ⟨k, hk, hget⟩ := List.mem_take_iff_getElem.mp hmem
      obtain ⟨hlt, hget'⟩ := List.getElem?_eq_some_iff.mp hdir
      have hsame := (hf.nodup.getElem_inj_iff (i := k) (j := i)).mp (hget.trans hget'.symm)
      omega
    rw [copies_of_not_mem hnot]
    exact hf.absent dir (List.mem_of_getElem? hdir)

/-- What is in the turn's own directory does not matter. -/
theorem Prefix.write {dirs : List String} {fs : Fs} {m : Nat} {dir : String} (written : Bytes)
    (h : Prefix fileName content dirs fs m) (hnodup : dirs.Nodup) (hdir : dirs[m]? = some dir) :
    Prefix fileName content dirs (fs.write (toFile dir fileName) written) m := by
  intro i d hd
  have hsame : i ≠ m → (fs.write (toFile dir fileName) written) (toFile d fileName) =
      fs (toFile d fileName) := by
    intro hne
    refine Fs.write_of_ne _ _ fun heq => hne ?_
    obtain rfl : d = dir := congrArg Path.dir heq
    obtain ⟨hi, hget⟩ := List.getElem?_eq_some_iff.mp hd
    obtain ⟨hm, hget'⟩ := List.getElem?_eq_some_iff.mp hdir
    exact (hnodup.getElem_inj_iff).mp (hget.trans hget'.symm)
  obtain ⟨hbefore, hafter⟩ := h i d hd
  exact ⟨fun hi => (hsame (Nat.ne_of_lt hi)).trans (hbefore hi),
    fun hi => (hsame (Nat.ne_of_gt hi)).trans (hafter hi)⟩

theorem Fresh.prefix_of_progress (hf : Fresh env fileName s)
    (hsource : s.fs fileName = some content) {c : Call}
    (h : Progress env fileName content s c) :
    ∃ m, Prefix fileName content s.dirs c.s.fs m ∧
      (c.s.fs fileName = some content ∨ s.dirs.length ≤ m) := by
  cases h with
  | @offer i h => exact ⟨i, hf.prefix_copies i, .inl (after_source hsource i)⟩
  | @copying i dir written h hdir =>
      refine ⟨i, (hf.prefix_copies i).write _ hf.nodup hdir, .inl ?_⟩
      exact (Fs.write_of_ne _ _ (h.ne_source hdir hsource)).trans (after_source hsource i)
  | @enqueue i h => exact ⟨i + 1, hf.prefix_copies (i + 1), .inl (after_source hsource (i + 1))⟩
  | @refused i j h hr => exact ⟨j, hf.prefix_copies j, .inl (after_source hsource j)⟩
  | @remove res j h hr => exact ⟨j, hf.prefix_copies j, .inl (after_source hsource j)⟩
  | returned =>
      obtain ⟨j, -, hrefuses, hfs, -⟩ := proc_copies env hsource
      refine ⟨j, fun i dir hdir => ?_, .inr (hf.length_le_of_refuses hrefuses)⟩
      have hne := hf.ne_source hsource (List.mem_of_getElem? hdir)
      rw [hfs]
      split
      · exact hf.prefix_copies j i dir hdir
      · rw [Fs.erase_of_ne _ hne]
        exact hf.prefix_copies j i dir hdir

theorem dirs_after (j : Nat) : (after fileName content s j).dirs = s.dirs := by
  refine List.ext_getElem? fun i => ?_
  simp only [Fanout.dirs, List.getElem?_map, after_getElem?]
  cases s.subs[i]? with
  | none => rfl
  | some sub =>
      simp only [Option.map_some]
      split
      · rfl
      · rfl

theorem dirs_of_progress (hsource : s.fs fileName = some content) {c : Call}
    (h : Progress env fileName content s c) : c.s.dirs = s.dirs := by
  cases h with
  | offer _ => exact dirs_after _
  | @copying i dir written h hdir => exact @dirs_after fileName content s i
  | @enqueue i h => exact @dirs_after fileName content s i
  | refused _ _ => exact dirs_after _
  | remove _ _ => exact dirs_after _
  | returned =>
      obtain ⟨j, -, -, -, hsubs⟩ := proc_copies env hsource
      rw [Fanout.dirs, hsubs]
      exact @dirs_after fileName content s j

end PipeSet

end FlexEtl
