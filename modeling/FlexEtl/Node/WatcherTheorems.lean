/-
FlexEtl.Node.WatcherTheorems — which registrations hear of an event.

The walk reads back the events that the kernel laid out (`lifeProc_reads`), so
what is called for an event depends on the entry of its descriptor alone, and
that is the last registration of the directory (`getElem?_registered`). The
watcher delivers exactly when no other registration has been waiting for what
that one does not hear of (`delivers_iff`).
-/
import FlexEtl.Node.Watcher

namespace FlexEtl

/-! ## Registrations -/

namespace Watcher

variable {κ : Type} {inotify_add_watch : Bytes → Int}

/-- The map keeps the last registration of a directory. -/
theorem getElem?_registered (rs : List (Registration κ)) (wd : Int) :
    (registered inotify_add_watch rs).m_watchMap[wd]? =
      (ofDir inotify_add_watch rs wd).getLast? := by
  induction rs using List.reverseRecOn with
  | nil => rfl
  | append_singleton rs r ih =>
      rw [registered, List.foldl_append, List.foldl_cons, List.foldl_nil, ← registered, addWatch,
        Std.ExtTreeMap.getElem?_insert, ih, ofDir, ofDir, List.filter_append]
      by_cases hwd : inotify_add_watch r.watch = wd
      · simp [hwd]
      · simp [hwd]

/-! ## Reading events back -/

/-- What is called for an event. -/
def calls (w : Watcher κ) (e : InotifyEvent) : List (Call κ) := w.onEvent e.wd e.mask e.len e.name

theorem length_encode (e : InotifyEvent) : e.encode.length = EVENT_SIZE + e.len := by
  simp [InotifyEvent.encode, InotifyEvent.len, EVENT_SIZE]
  omega

/-- The C string of a name is the name. -/
theorem takeWhile_name {e : InotifyEvent} (h : e.name ≠ []) (rest : Bytes) :
    (e.name ++ (List.replicate e.padding 0 ++ rest)).takeWhile (· ≠ 0) = e.name := by
  have hname : ∀ b ∈ e.name, decide (b ≠ 0) = true := fun b hb => decide_eq_true (e.name_ne b hb).1
  obtain ⟨n, hn⟩ := Nat.exists_eq_add_one.mpr (e.padding_iff.mpr h)
  rw [List.takeWhile_append_of_pos hname, hn, List.replicate_succ, List.cons_append,
    List.takeWhile_cons_of_neg (by simp), List.append_nil]

/-- An event has a name when its length says so. -/
theorem len_ne_zero_iff (e : InotifyEvent) : e.len ≠ 0 ↔ e.name ≠ [] := by
  have hpad := e.padding_iff
  have hname := List.length_eq_zero_iff (l := e.name)
  unfold InotifyEvent.len
  constructor
  · intro hlen hnil
    rw [hnil, List.length_nil, Nat.zero_add] at hlen
    exact hpad.mp (Nat.pos_of_ne_zero hlen) hnil
  · intro hne hlen
    exact hne (hname.mp (Nat.eq_zero_of_add_eq_zero_right hlen))

/-- What the walk does with a buffer that is not empty. -/
theorem walk_succ (w : Watcher κ) (fuel : Nat) {buffer : Bytes} (h : buffer ≠ []) :
    walk w (fuel + 1) buffer =
      w.onEvent (LittleEndian.toInt (buffer.take 4))
          (LittleEndian.toNat ((buffer.drop 4).take 4))
          (LittleEndian.toNat ((buffer.drop 12).take 4))
          ((buffer.drop EVENT_SIZE).takeWhile (· ≠ 0)) ++
        walk w fuel (buffer.drop (EVENT_SIZE + LittleEndian.toNat ((buffer.drop 12).take 4))) := by
  cases buffer with
  | nil => exact absurd rfl h
  | cons b buffer => rfl

/-- One round of the walk takes one event. -/
theorem walk_encode (w : Watcher κ) (fuel : Nat) (e : InotifyEvent) (rest : Bytes) :
    walk w (fuel + 1) (e.encode ++ rest) = w.calls e ++ walk w fuel rest := by
  have hlayout : e.encode ++ rest = LittleEndian.ofInt 4 e.wd ++ (LittleEndian.bytes 4 e.mask ++
      (LittleEndian.bytes 4 e.cookie ++ (LittleEndian.bytes 4 e.len ++
        (e.name ++ (List.replicate e.padding 0 ++ rest))))) := by
    simp only [InotifyEvent.encode, List.append_assoc]
  have hne : e.encode ++ rest ≠ [] := by
    intro h
    have hlen := congrArg List.length h
    rw [List.length_append, length_encode] at hlen
    simp [EVENT_SIZE] at hlen
  have hwd : LittleEndian.toInt ((e.encode ++ rest).take 4) = e.wd := by
    rw [hlayout, List.take_left' (LittleEndian.length_ofInt 4 _), LittleEndian.toInt_ofInt]
    have hrange := e.wd_range
    exact Int.bmod_eq_of_le (by omega) (by omega)
  have hmask : LittleEndian.toNat (((e.encode ++ rest).drop 4).take 4) = e.mask := by
    rw [hlayout, List.drop_left' (LittleEndian.length_ofInt 4 _),
      List.take_left' (LittleEndian.length_bytes 4 _)]
    exact LittleEndian.toNat_bytes_of_lt e.mask_lt
  have hdrop : (e.encode ++ rest).drop 12 = LittleEndian.bytes 4 e.len ++
      (e.name ++ (List.replicate e.padding 0 ++ rest)) := by
    rw [hlayout, ← List.append_assoc, ← List.append_assoc]
    exact List.drop_left' (by simp)
  have hlen : LittleEndian.toNat (((e.encode ++ rest).drop 12).take 4) = e.len := by
    rw [hdrop, List.take_left' (LittleEndian.length_bytes 4 _)]
    exact LittleEndian.toNat_bytes_of_lt e.len_lt
  have hname : (e.encode ++ rest).drop EVENT_SIZE =
      e.name ++ (List.replicate e.padding 0 ++ rest) := by
    rw [EVENT_SIZE, ← List.drop_drop (i := 4) (j := 12), hdrop]
    exact List.drop_left' (LittleEndian.length_bytes 4 _)
  rw [walk_succ w fuel hne, hwd, hmask, hlen, ← length_encode, List.drop_left, hname]
  congr 1
  by_cases h : e.name = []
  · -- without a name nothing is called, whatever the bytes behind the event
    have hzero : ¬ e.len ≠ 0 := fun hne => (len_ne_zero_iff e).mp hne h
    rw [calls, onEvent, onEvent, if_neg hzero, if_neg hzero]
  · rw [takeWhile_name h, calls]

/-- The walk over a buffer goes through its events in order. -/
theorem walk_events (w : Watcher κ) (events : List InotifyEvent) : ∀ fuel,
    (events.flatMap InotifyEvent.encode).length ≤ fuel →
      walk w fuel (events.flatMap InotifyEvent.encode) = events.flatMap w.calls := by
  induction events with
  | nil => intro fuel _; cases fuel <;> rfl
  | cons e events ih =>
      intro fuel hfuel
      rw [List.flatMap_cons, List.length_append, length_encode, EVENT_SIZE] at hfuel
      obtain ⟨fuel, rfl⟩ := Nat.exists_eq_add_one.mpr (show 0 < fuel by omega)
      rw [List.flatMap_cons, walk_encode, ih fuel (by omega), List.flatMap_cons]

/-- However the kernel splits its events over the buffers, the thread goes through all of
them in order. -/
theorem lifeProc_reads (w : Watcher κ) (reads : List (Option (List InotifyEvent))) :
    w.lifeProc (reads.map poll) = (reads.flatMap (·.getD [])).flatMap w.calls := by
  induction reads with
  | nil => rfl
  | cons read reads ih =>
      rw [List.map_cons, List.flatMap_cons, List.flatMap_append]
      cases read with
      | none => exact ih
      | some events =>
          rw [poll, lifeProc, walk_events w events _ (Nat.le_refl _), ih]
          rfl

/-! ## Delivery -/

/-- An event is for the last registration of its directory, if that covers it. -/
theorem calls_registered_of_covers {rs : List (Registration κ)} {e : InotifyEvent}
    {l : Registration κ} (hlast : (ofDir inotify_add_watch rs e.wd).getLast? = some l)
    (hl : Covers inotify_add_watch l e) :
    (registered inotify_add_watch rs).calls e = [callFor l e] := by
  obtain ⟨-, hname, hmask, hext⟩ := hl
  rw [calls, onEvent, if_pos ((len_ne_zero_iff e).mpr hname), if_pos hmask, getElem?_registered,
    hlast]
  exact if_pos hext

theorem calls_registered_of_not_covers {rs : List (Registration κ)} {e : InotifyEvent}
    (hl : ∀ l, (ofDir inotify_add_watch rs e.wd).getLast? = some l →
      ¬ Covers inotify_add_watch l e) :
    (registered inotify_add_watch rs).calls e = [] := by
  rw [calls, onEvent]
  by_cases hlen : e.len ≠ 0
  · by_cases hmask : e.mask &&& WATCH_FLAGS ≠ 0
    · rw [if_pos hlen, if_pos hmask, getElem?_registered]
      cases hlast : (ofDir inotify_add_watch rs e.wd).getLast? with
      | none => rfl
      | some l =>
          have hdir := (List.mem_filter.mp (List.mem_of_getLast? hlast)).2
          refine if_neg fun hext => hl l hlast ⟨?_, (len_ne_zero_iff e).mp hlen, hmask, hext⟩
          exact of_decide_eq_true hdir
    · rw [if_pos hlen, if_neg hmask]
  · rw [if_neg hlen]

variable (inotify_add_watch) in
/-- All that the watcher does with an event. -/
theorem calls_registered_cases (rs : List (Registration κ)) (e : InotifyEvent) :
    (∃ l ∈ rs, (ofDir inotify_add_watch rs e.wd).getLast? = some l ∧
      Covers inotify_add_watch l e ∧
      (registered inotify_add_watch rs).calls e = [callFor l e]) ∨
    ((∀ l, (ofDir inotify_add_watch rs e.wd).getLast? = some l →
      ¬ Covers inotify_add_watch l e) ∧ (registered inotify_add_watch rs).calls e = []) := by
  by_cases hl : ∃ l, (ofDir inotify_add_watch rs e.wd).getLast? = some l ∧
      Covers inotify_add_watch l e
  · obtain ⟨l, hlast, hcovers⟩ := hl
    have hmem : l ∈ rs := (List.mem_filter.mp (List.mem_of_getLast? hlast)).1
    exact .inl ⟨l, hmem, hlast, hcovers, calls_registered_of_covers hlast hcovers⟩
  · have hnot : ∀ l, (ofDir inotify_add_watch rs e.wd).getLast? = some l →
        ¬ Covers inotify_add_watch l e := fun l hlast hcovers => hl ⟨l, hlast, hcovers⟩
    exact .inr ⟨hnot, calls_registered_of_not_covers hnot⟩

/-- The watcher calls no more than what serves an event. -/
theorem length_calls_le {rs : List (Registration κ)} {e : InotifyEvent} {cs : List (Call κ)}
    (h : Served inotify_add_watch rs e cs) :
    ((registered inotify_add_watch rs).calls e).length ≤ cs.length := by
  obtain ⟨l, hmem, -, hcovers, hcalls⟩ | ⟨-, hcalls⟩ :=
    calls_registered_cases inotify_add_watch rs e
  · have hcalled := (h.mem_iff l.callBack).mpr ⟨l, hmem, hcovers, rfl⟩
    have hpos := List.length_pos_of_mem hcalled
    rw [List.length_map] at hpos
    rw [hcalls]
    exact hpos
  · rw [hcalls]
    exact Nat.zero_le _

/-- What the watcher calls serves an event when the last registration of the directory
stands for all that cover the event. -/
theorem served_calls_iff {rs : List (Registration κ)} {e : InotifyEvent} :
    Served inotify_add_watch rs e ((registered inotify_add_watch rs).calls e) ↔
      ∀ r ∈ rs, Covers inotify_add_watch r e →
        ∃ l, (ofDir inotify_add_watch rs e.wd).getLast? = some l ∧
          Covers inotify_add_watch l e ∧ l.callBack = r.callBack := by
  obtain ⟨l, hmem, hlast, hcovers, hcalls⟩ | ⟨hl, hcalls⟩ :=
    calls_registered_cases inotify_add_watch rs e
  · rw [hcalls]
    constructor
    · intro h r hr hrcovers
      refine ⟨l, hlast, hcovers, ?_⟩
      have hcalled := (h.mem_iff r.callBack).mpr ⟨r, hr, hrcovers, rfl⟩
      exact (List.mem_singleton.mp hcalled).symm
    · intro h
      refine ⟨List.nodup_singleton _, fun k => ?_, fun c hc => ?_⟩
      · constructor
        · intro hk
          exact ⟨l, hmem, hcovers, (List.mem_singleton.mp hk).symm⟩
        · rintro ⟨r, hr, hrcovers, rfl⟩
          obtain ⟨l', hlast', -, hsame⟩ := h r hr hrcovers
          obtain rfl : l = l' := Option.some.inj (hlast.symm.trans hlast')
          exact List.mem_singleton.mpr hsame.symm
      · exact ⟨l, hmem, hcovers, List.mem_singleton.mp hc⟩
  · rw [hcalls]
    constructor
    · intro h r hr hrcovers
      exact absurd ((h.mem_iff r.callBack).mpr ⟨r, hr, hrcovers, rfl⟩) List.not_mem_nil
    · intro h
      have hnone : ∀ r ∈ rs, ¬ Covers inotify_add_watch r e := by
        intro r hr hrcovers
        obtain ⟨l, hlast, hcovers, -⟩ := h r hr hrcovers
        exact hl l hlast hcovers
      refine ⟨List.nodup_nil, fun k => ?_, fun c hc => absurd hc List.not_mem_nil⟩
      refine iff_of_false List.not_mem_nil ?_
      rintro ⟨r, hr, hrcovers, -⟩
      exact hnone r hr hrcovers

/-- Calls that serve all events serve each with its own. -/
theorem served_of_delivers {rs : List (Registration κ)} {reads : List (Option (List InotifyEvent))}
    (h : Delivers inotify_add_watch rs reads) :
    ∀ e ∈ reads.flatMap (·.getD []),
      Served inotify_add_watch rs e ((registered inotify_add_watch rs).calls e) := by
  obtain ⟨chunks, hserved, hcalls⟩ := h
  -- no chunk is shorter than the calls for its event, and together they are no longer
  have hle : List.Forall₂ (fun row row' => row.length ≤ row'.length)
      ((reads.flatMap (·.getD [])).map (registered inotify_add_watch rs).calls) chunks :=
    List.forall₂_map_left_iff.mpr (hserved.imp fun _ _ h => length_calls_le h)
  rw [lifeProc_reads, List.flatMap_def] at hcalls
  obtain rfl := Ragged.eq_of_flatten_eq hle hcalls
  rw [List.forall₂_map_right_iff, List.forall₂_same] at hserved
  exact hserved

/-- **Delivery.** The watcher calls for every event what is registered for it exactly
when, wherever a registration covers an event, the last one of the same directory covers
it too and has the same callback. -/
theorem delivers_iff (rs : List (Registration κ)) (reads : List (Option (List InotifyEvent))) :
    Delivers inotify_add_watch rs reads ↔
      ∀ e ∈ reads.flatMap (·.getD []), ∀ r ∈ rs, Covers inotify_add_watch r e →
        ∃ l, (ofDir inotify_add_watch rs e.wd).getLast? = some l ∧
          Covers inotify_add_watch l e ∧ l.callBack = r.callBack := by
  constructor
  · intro h e he
    exact served_calls_iff.mp (served_of_delivers h e he)
  · intro h
    refine ⟨(reads.flatMap (·.getD [])).map (registered inotify_add_watch rs).calls, ?_, ?_⟩
    · rw [List.forall₂_map_right_iff, List.forall₂_same]
      exact fun e he => served_calls_iff.mpr (h e he)
    · rw [lifeProc_reads, List.flatMap_def]

/-- Two nodes, `false` and then `true`, watch the directory `in`. -/
def twoNodes : List (Registration Bool) :=
  [{ watch := [105, 110], ext := [], callBack := false },
    { watch := [105, 110], ext := [], callBack := true }]

/-- The file `a` has been written. -/
def written : InotifyEvent where
  wd := 1
  mask := IN_CLOSE_WRITE
  cookie := 0
  name := [97]
  padding := 15
  wd_range := by decide
  mask_lt := by decide
  cookie_lt := by decide
  name_ne := List.forall_mem_singleton.mpr ⟨by decide, by decide⟩
  padding_iff := by decide
  len_lt := by decide

/-- Only the node that came last hears of the file. -/
theorem delivers_fails :
    ((registered (fun _ => 1) twoNodes).lifeProc ([some [written]].map poll)).map (·.callBack) =
      [true] ∧ ¬ Delivers (fun _ => 1) twoNodes [some [written]] := by
  have hcalls : ((registered (fun _ => 1) twoNodes).calls written).map (·.callBack) = [true] := by
    rw [calls, onEvent, getElem?_registered]
    rfl
  refine ⟨?_, fun h => ?_⟩
  · rw [lifeProc_reads]
    simpa using hcalls
  · have hserved := served_of_delivers h written (by simp)
    have hfirst := (hserved.mem_iff false).mpr
      ⟨{ watch := [105, 110], ext := [], callBack := false }, by simp [twoNodes],
        ⟨rfl, by decide, by decide, .inl rfl⟩, rfl⟩
    rw [hcalls] at hfirst
    simp at hfirst

end Watcher

end FlexEtl
