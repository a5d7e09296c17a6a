/-
FlexEtl.Node.MetricsTheorems — counts are conserved.

A run of the metrics refines a `Meter`, which has one number for each name and
no handles. What is needed for that is who points at which cell (`Aliased`): a
connected handle points at the cell of the view under its name, two names never
have the same cell, and the cell of a handle that is not connected is nobody
else's. Then an increment counts under the one name of its handle, a turn of
the loop reports what is pending under one name, and the other steps change
nothing, `connect` included.
-/
import FlexEtl.Node.Metrics

namespace FlexEtl

namespace Recorded

variable {ι : Type} [DecidableEq ι] {ctype : ι → Ctype} {mRoot : Bytes} {r r' : Recorded ι}

/-! ## Steps -/

/-- What `connect` can do: point the handle at the cell that has the name, enter the cell of
the handle under a new name, or throw. -/
theorem connect_cases (ctype : ι → Ctype) (r : Recorded ι) (i : ι) (mtr : Bytes) :
    (∃ view, r.now.counterMap[mtr]? = some view ∧ view.ctype = ctype i ∧
      r.connect ctype i mtr =
        { r with
          now := { r.now with val := Function.update r.now.val i view.val }
          connected := Function.update r.connected i (some mtr) }) ∨
    (r.now.counterMap[mtr]? = none ∧
      r.connect ctype i mtr =
        { r with
          now := { r.now with
            counterMap := r.now.counterMap.insert mtr ⟨ctype i, r.now.val i⟩ }
          connected := Function.update r.connected i (some mtr) }) ∨
    r.connect ctype i mtr = r := by
  unfold connect Metrics.connect
  cases hview : r.now.counterMap[mtr]? with
  | none => exact .inr (.inl ⟨rfl, rfl⟩)
  | some view =>
      by_cases htype : view.ctype = ctype i
      · refine .inl ⟨view, rfl, htype, ?_⟩
        simp only [if_pos htype]
      · refine .inr (.inr ?_)
        simp only [if_neg htype]

/-- What a step can do. -/
theorem step_cases {a : MetricsAction ι} (hstep : step ctype mRoot r a = some r') :
    (∃ i name root, a = .connect i name root ∧ r.now.aggregation = none ∧
      r' = r.connect ctype i (getName mRoot root name)) ∨
    (∃ i n, r' = r.increment i n) ∨
    (∃ curTime, r.now.aggregation = none ∧
      r' = { r with now := { r.now with
        lastTime := curTime
        aggregation := some ⟨r.now.counterMap.toList, 60 * curTime, []⟩ } }) ∨
    (∃ name view todo seconds buffer,
      r.now.aggregation = some ⟨(name, view) :: todo, seconds, buffer⟩ ∧
      r' = { r with now := r.now.flushTurn seconds buffer name view todo }) ∨
    ∃ seconds buffer, r.now.aggregation = some ⟨[], seconds, buffer⟩ ∧
      r' = { r with now := { r.now with
        aggregation := none
        sendQueue := if buffer = [] then r.now.sendQueue else r.now.sendQueue ++ [buffer] } } := by
  cases a with
  | connect i name root =>
      simp only [step] at hstep
      split at hstep
      · cases hstep
      · rename_i hfree
        rw [Bool.not_eq_true, Option.isSome_eq_false_iff, Option.isNone_iff_eq_none] at hfree
        exact .inl ⟨i, name, root, rfl, hfree, (Option.some.inj hstep).symm⟩
  | plusPlus i =>
      simp only [step] at hstep
      split at hstep
      · exact .inr (.inl ⟨i, 1, (Option.some.inj hstep).symm⟩)
      · cases hstep
  | plusEq i count =>
      simp only [step] at hstep
      split at hstep
      · exact .inr (.inl ⟨i, count, (Option.some.inj hstep).symm⟩)
      · cases hstep
  | addWord i word =>
      simp only [step] at hstep
      split at hstep
      · cases hstep
      · exact .inr (.inl ⟨i, word, (Option.some.inj hstep).symm⟩)
  | beginAggregate curTime =>
      simp only [step] at hstep
      split at hstep
      · cases hstep
      · rename_i hguard
        have hfree : r.now.aggregation = none := by
          rw [← Option.not_isSome_iff_eq_none]
          exact fun h => hguard (.inl h)
        exact .inr (.inr (.inl ⟨curTime, hfree, (Option.some.inj hstep).symm⟩))
  | flush =>
      simp only [step] at hstep
      split at hstep
      · rename_i name view todo seconds buffer hloop
        exact .inr (.inr (.inr (.inl
          ⟨name, view, todo, seconds, buffer, hloop, (Option.some.inj hstep).symm⟩)))
      · cases hstep
  | enqueue =>
      simp only [step] at hstep
      split at hstep
      · rename_i seconds buffer hloop
        exact .inr (.inr (.inr (.inr ⟨seconds, buffer, hloop, (Option.some.inj hstep).symm⟩)))
      · cases hstep

/-! ## Cells -/

/-- Who points at which cell. -/
structure Aliased (ctype : ι → Ctype) (r : Recorded ι) : Prop where
  registered : ∀ i name, r.connected i = some name →
    ∃ view : CounterView ι, r.now.counterMap[name]? = some view ∧
      view.val = r.now.val i ∧ view.ctype = ctype i
  own : ∀ i, r.connected i = none → r.now.val i = i
  free : ∀ i, r.connected i = none →
    ∀ (name : Bytes) (view : CounterView ι), r.now.counterMap[name]? = some view → view.val ≠ i
  fresh : ∀ i, r.connected i = none → (∀ e ∈ r.made, e.1 ≠ i) → r.now.cells i = 0
  distinct : ∀ (name name' : Bytes) (view view' : CounterView ι),
    r.now.counterMap[name]? = some view → r.now.counterMap[name']? = some view' →
      view.val = view'.val → name = name'
  listed : ∀ aggregation, r.now.aggregation = some aggregation →
    ∀ e ∈ aggregation.todo, r.now.counterMap[e.1]? = some e.2

theorem aliased_init (h : (machine ctype mRoot).Init r) : r.Aliased ctype := by
  obtain ⟨hhandles, hmap, haggregation, -, -⟩ := h
  have hnone : ∀ name : Bytes, r.now.counterMap[name]? = none := by simp [hmap]
  constructor
  · intro i name hi
    rw [(hhandles i).2.2] at hi
    cases hi
  · exact fun i _ => (hhandles i).1
  · intro i _ name view hview
    rw [hnone] at hview
    cases hview
  · exact fun i _ _ => (hhandles i).2.1
  · intro name name' view view' hview
    rw [hnone] at hview
    cases hview
  · intro aggregation hsome
    rw [haggregation] at hsome
    cases hsome

/-- A handle that is still not connected is not the one that has been. -/
theorem unconnected_before {i j : ι} {mtr : Bytes}
    (hj : Function.update r.connected i (some mtr) j = none) : j ≠ i ∧ r.connected j = none := by
  by_cases heq : j = i
  · simp [heq] at hj
  · exact ⟨heq, by simpa [heq] using hj⟩

theorem aliased_increment (h : r.Aliased ctype) (i : ι) (n : UInt64) :
    (r.increment i n).Aliased ctype := by
  refine ⟨h.registered, h.own, h.free, ?_, h.distinct, h.listed⟩
  intro j hj hmade
  have hne : j ≠ r.now.val i := by
    intro heq
    cases hi : r.connected i with
    | none =>
        rw [h.own i hi] at heq
        exact hmade (i, n) (by simp [increment]) heq.symm
    | some name =>
        obtain ⟨view, hview, hval, -⟩ := h.registered i name hi
        exact h.free j hj name view hview (hval.trans heq.symm)
  have hbefore : ∀ e ∈ r.made, e.1 ≠ j := fun e he => hmade e (List.mem_append_left _ he)
  simpa [increment, Metrics.fetchAdd, Function.update_of_ne hne] using h.fresh j hj hbefore

/-- A handle that is connected to a name that is there leaves its own cell. -/
theorem aliased_redirect (h : r.Aliased ctype) {i : ι} {mtr : Bytes} {view : CounterView ι}
    (hview : r.now.counterMap[mtr]? = some view) (htype : view.ctype = ctype i) :
    Aliased ctype { r with
      now := { r.now with val := Function.update r.now.val i view.val }
      connected := Function.update r.connected i (some mtr) } := by
  refine ⟨?_, ?_, ?_, ?_, h.distinct, h.listed⟩
  · intro j name hj
    by_cases heq : j = i
    · subst heq
      simp only [Function.update_self, Option.some.injEq] at hj ⊢
      subst hj
      exact ⟨view, hview, rfl, htype⟩
    · simp only [Function.update_of_ne heq] at hj ⊢
      exact h.registered j name hj
  · intro j hj
    obtain ⟨hne, hj⟩ := unconnected_before hj
    simp only [Function.update_of_ne hne]
    exact h.own j hj
  · intro j hj
    exact h.free j (unconnected_before hj).2
  · intro j hj
    exact h.fresh j (unconnected_before hj).2

/-- A handle that is connected to a new name brings its own cell. -/
theorem aliased_insert (h : r.Aliased ctype) {i : ι} {mtr : Bytes} (hi : r.connected i = none)
    (hfree : r.now.aggregation = none) (hview : r.now.counterMap[mtr]? = none) :
    Aliased ctype { r with
      now := { r.now with counterMap := r.now.counterMap.insert mtr ⟨ctype i, r.now.val i⟩ }
      connected := Function.update r.connected i (some mtr) } := by
  have hentries : ∀ (name : Bytes) (view : CounterView ι),
      (r.now.counterMap.insert mtr ⟨ctype i, r.now.val i⟩)[name]? = some view →
        (name = mtr ∧ view = ⟨ctype i, i⟩) ∨
          (name ≠ mtr ∧ r.now.counterMap[name]? = some view) := by
    intro name view hget
    simp only [Std.ExtTreeMap.getElem?_insert, Std.LawfulEqCmp.compare_eq_iff_eq, h.own i hi]
      at hget
    by_cases heq : mtr = name
    · rw [if_pos heq, Option.some.injEq] at hget
      exact .inl ⟨heq.symm, hget.symm⟩
    · rw [if_neg heq] at hget
      exact .inr ⟨fun h => heq h.symm, hget⟩
  refine ⟨?_, ?_, ?_, ?_, ?_, ?_⟩
  · intro j name hj
    by_cases heq : j = i
    · subst heq
      simp only [Function.update_self, Option.some.injEq] at hj
      subst hj
      exact ⟨⟨ctype j, r.now.val j⟩, by simp, rfl, rfl⟩
    · simp only [Function.update_of_ne heq] at hj
      obtain ⟨view, hget, hval⟩ := h.registered j name hj
      have hne : mtr ≠ name := by
        intro heq
        rw [← heq, hview] at hget
        cases hget
      refine ⟨view, ?_, hval⟩
      simpa [Std.ExtTreeMap.getElem?_insert, hne] using hget
  · intro j hj
    exact h.own j (unconnected_before hj).2
  · intro j hj name view hget
    obtain ⟨hne, hj⟩ := unconnected_before hj
    rcases hentries name view hget with ⟨-, rfl⟩ | ⟨-, hget⟩
    · exact fun heq => hne heq.symm
    · exact h.free j hj name view hget
  · intro j hj
    exact h.fresh j (unconnected_before hj).2
  · intro name name' view view' hget hget' hval
    rcases hentries name view hget with ⟨rfl, rfl⟩ | ⟨-, hold⟩ <;>
      rcases hentries name' view' hget' with ⟨rfl, rfl⟩ | ⟨-, hold'⟩
    · rfl
    · exact absurd hval.symm (h.free i hi name' view' hold')
    · exact absurd hval (h.free i hi name view hold)
    · exact h.distinct name name' view view' hold hold' hval
  · intro aggregation hsome
    rw [hfree] at hsome
    cases hsome

/-- A turn of the loop sets the cell of a view to zero. -/
theorem aliased_flush (h : r.Aliased ctype) {name : Bytes} {view : CounterView ι}
    {todo : List (Bytes × CounterView ι)} {seconds : Int} {buffer : List MetricLine}
    (hloop : r.now.aggregation = some ⟨(name, view) :: todo, seconds, buffer⟩) :
    Aliased ctype { r with now := r.now.flushTurn seconds buffer name view todo } := by
  refine ⟨h.registered, h.own, h.free, ?_, h.distinct, ?_⟩
  · intro j hj hmade
    by_cases heq : j = view.val
    · simp [Metrics.flushTurn, heq]
    · simp only [Metrics.flushTurn, Function.update_of_ne heq]
      exact h.fresh j hj hmade
  · intro aggregation hsome e he
    obtain rfl := Option.some.inj hsome
    exact h.listed _ hloop e (List.mem_cons_of_mem _ he)

/-- Every step that is allowed keeps it. -/
theorem aliased_step (h : r.Aliased ctype) {a : MetricsAction ι} (ha : r.Allowed a)
    (hstep : step ctype mRoot r a = some r') : r'.Aliased ctype := by
  rcases step_cases hstep with ⟨i, name, root, rfl, hfree, rfl⟩ | ⟨i, n, rfl⟩ | ⟨curTime, -, rfl⟩ |
    ⟨name, view, todo, seconds, buffer, hloop, rfl⟩ | ⟨seconds, buffer, -, rfl⟩
  · rcases connect_cases ctype r i (getName mRoot root name) with
      ⟨view, hview, htype, hconnect⟩ | ⟨hview, hconnect⟩ | hconnect
    · rw [hconnect]
      exact aliased_redirect h hview htype
    · rw [hconnect]
      exact aliased_insert h ha.1 hfree hview
    · rw [hconnect]
      exact h
  · exact aliased_increment h i n
  · refine ⟨h.registered, h.own, h.free, h.fresh, h.distinct, ?_⟩
    intro aggregation hsome e he
    obtain rfl := Option.some.inj hsome
    exact Std.ExtTreeMap.mem_toList_iff_getElem?_eq_some.mp he
  · exact aliased_flush h hloop
  · refine ⟨h.registered, h.own, h.free, h.fresh, h.distinct, ?_⟩
    intro aggregation hsome
    cases hsome

omit [DecidableEq ι] in
/-- Only handles that are connected under a name point at the cell of its view. -/
theorem Aliased.connected_of_cell (h : r.Aliased ctype) {i : ι} {name : Bytes}
    {view : CounterView ι} (hview : r.now.counterMap[name]? = some view)
    (hcell : view.val = r.now.val i) : r.connected i = some name ∧ view.ctype = ctype i := by
  cases hi : r.connected i with
  | none =>
      rw [h.own i hi] at hcell
      exact absurd hcell (h.free i hi name view hview)
  | some name' =>
      obtain ⟨view', hview', hval', htype⟩ := h.registered i name' hi
      obtain rfl := h.distinct name name' view view' hview hview' (hcell.trans hval'.symm)
      rw [hview, Option.some.injEq] at hview'
      exact ⟨rfl, hview' ▸ htype⟩

/-! ## The meter -/

/-- The run without handles and cells. -/
def meter (ctype : ι → Ctype) (r : Recorded ι) : Meter Bytes UInt64 :=
  ⟨r.pending, r.increments ctype, r.reports⟩

omit [DecidableEq ι] in
theorem pending_of_view {name : Bytes} {view : CounterView ι}
    (hview : r.now.counterMap[name]? = some view) :
    r.pending name = if view.ctype = .counterU then r.now.cells view.val else 0 := by
  rw [pending, hview]

omit [DecidableEq ι] in
theorem pending_of_none {name : Bytes} (hview : r.now.counterMap[name]? = none) :
    r.pending name = 0 := by
  rw [pending, hview]

omit [DecidableEq ι] in
/-- What a name holds depends on the cell of its view. -/
theorem pending_congr {name : Bytes} (hmap : r'.now.counterMap = r.now.counterMap)
    (hcell : ∀ view, r.now.counterMap[name]? = some view → view.ctype = .counterU →
      r'.now.cells view.val = r.now.cells view.val) : r'.pending name = r.pending name := by
  cases hview : r.now.counterMap[name]? with
  | none => rw [pending_of_none hview, pending_of_none (by rw [hmap, hview])]
  | some view =>
      rw [pending_of_view hview, pending_of_view (by rw [hmap, hview])]
      by_cases htype : view.ctype = .counterU
      · rw [if_pos htype, if_pos htype, hcell view hview htype]
      · rw [if_neg htype, if_neg htype]

theorem increments_increment (i : ι) (n : UInt64) :
    (r.increment i n).increments ctype = r.increments ctype ++
      (if ctype i = .counterU then (r.connected i).map fun name => (name, n) else none).toList := by
  rw [increments, increment, List.filterMap_append]
  congr 1

/-- An increment of a `counter_u` counts under the name of the handle. -/
theorem meter_increment (h : r.Aliased ctype) {i : ι} {name : Bytes} (n : UInt64)
    (htype : ctype i = .counterU) (hi : r.connected i = some name) :
    (r.increment i n).meter ctype = (r.meter ctype).count name n := by
  obtain ⟨view, hview, hval, hsame⟩ := h.registered i name hi
  have hpending : (r.increment i n).pending =
      Function.update r.pending name (r.pending name + n) := by
    funext name'
    by_cases heq : name' = name
    · subst heq
      have hafter : (r.increment i n).now.counterMap[name']? = some view := hview
      rw [Function.update_self, pending_of_view hafter, pending_of_view hview, hsame, htype,
        if_pos rfl, if_pos rfl]
      simp [increment, Metrics.fetchAdd, hval]
    · rw [Function.update_of_ne heq]
      refine pending_congr rfl fun view' hview' _ => ?_
      have hne : view'.val ≠ r.now.val i := by
        intro hcell
        have hi' := (h.connected_of_cell hview' hcell).1
        exact heq (Option.some.inj (hi'.symm.trans hi))
      simp [increment, Metrics.fetchAdd, hne]
  have hincrements : (r.increment i n).increments ctype = r.increments ctype ++ [(name, n)] := by
    rw [increments_increment, if_pos htype, hi]
    rfl
  simp only [meter, hpending, hincrements]
  rfl

/-- Any other increment counts under none. -/
theorem meter_increment_other (h : r.Aliased ctype) {i : ι} (n : UInt64)
    (hother : ctype i ≠ .counterU ∨ r.connected i = none) :
    (r.increment i n).meter ctype = r.meter ctype := by
  have hpending : (r.increment i n).pending = r.pending := by
    funext name
    refine pending_congr rfl fun view hview htype => ?_
    have hne : view.val ≠ r.now.val i := by
      intro hcell
      obtain ⟨hi, hsame⟩ := h.connected_of_cell hview hcell
      rcases hother with hother | hnone
      · exact hother (hsame ▸ htype)
      · rw [hi] at hnone
        cases hnone
    simp [increment, Metrics.fetchAdd, hne]
  have hincrements : (r.increment i n).increments ctype = r.increments ctype := by
    rw [increments_increment]
    rcases hother with hother | hnone
    · rw [if_neg hother]
      simp
    · simp [hnone]
  simp only [meter, hpending, hincrements]
  rfl

/-- The increments are through other handles than one that is connected now. -/
theorem increments_connected {i : ι} (hmade : ∀ e ∈ r.made, e.1 ≠ i) (mtr : Bytes)
    (now : Metrics ι) :
    increments ctype { r with now, connected := Function.update r.connected i (some mtr) } =
      r.increments ctype := by
  refine List.filterMap_congr fun e he => ?_
  simp only [Function.update_of_ne (hmade e he)]

theorem meter_redirect {i : ι} (hmade : ∀ e ∈ r.made, e.1 ≠ i) (mtr : Bytes) (cell : ι) :
    meter ctype { r with
      now := { r.now with val := Function.update r.now.val i cell }
      connected := Function.update r.connected i (some mtr) } = r.meter ctype := by
  rw [meter, increments_connected hmade]
  rfl

theorem meter_insert (h : r.Aliased ctype) {i : ι} {mtr : Bytes} (hi : r.connected i = none)
    (hmade : ∀ e ∈ r.made, e.1 ≠ i) (hview : r.now.counterMap[mtr]? = none) :
    meter ctype { r with
      now := { r.now with counterMap := r.now.counterMap.insert mtr ⟨ctype i, r.now.val i⟩ }
      connected := Function.update r.connected i (some mtr) } = r.meter ctype := by
  rw [meter, increments_connected hmade]
  have hpending : pending { r with
      now := { r.now with counterMap := r.now.counterMap.insert mtr ⟨ctype i, r.now.val i⟩ }
      connected := Function.update r.connected i (some mtr) } = r.pending := by
    funext name
    by_cases heq : name = mtr
    · subst heq
      have hzero : r.now.cells (r.now.val i) = 0 := by
        rw [h.own i hi]
        exact h.fresh i hi hmade
      rw [pending_of_none hview]
      simp [pending, hzero]
    · have hne : mtr ≠ name := fun h => heq h.symm
      simp only [pending, Std.ExtTreeMap.getElem?_insert, Std.LawfulEqCmp.compare_eq_iff_eq,
        if_neg hne]
  rw [hpending]
  rfl

/-- A turn of the loop on a `counter_u` reports what is pending under the name. -/
theorem meter_flush (h : r.Aliased ctype) {name : Bytes} {view : CounterView ι}
    {todo : List (Bytes × CounterView ι)} {seconds : Int} {buffer : List MetricLine}
    (hloop : r.now.aggregation = some ⟨(name, view) :: todo, seconds, buffer⟩)
    (htype : view.ctype = .counterU) :
    meter ctype { r with now := r.now.flushTurn seconds buffer name view todo } =
      (r.meter ctype).report name := by
  have hview : r.now.counterMap[name]? = some view := h.listed _ hloop (name, view) (by simp)
  have hpending : pending { r with now := r.now.flushTurn seconds buffer name view todo } =
      Function.update r.pending name 0 := by
    funext name'
    by_cases heq : name' = name
    · subst heq
      simp only [Function.update_self, pending, Metrics.flushTurn, hview, htype, if_true]
    · rw [Function.update_of_ne heq]
      refine pending_congr rfl fun view' hview' _ => ?_
      have hne : view'.val ≠ view.val := fun hcell =>
        heq (h.distinct name' name view' view hview' hview hcell)
      simp [Metrics.flushTurn, hne]
  have hreports : reports { r with now := r.now.flushTurn seconds buffer name view todo } =
      r.reports ++ [(name, r.pending name)] := by
    rw [pending_of_view hview, htype, if_pos rfl]
    simp [reports, Metrics.lines, Metrics.flushTurn, hloop, htype, Ctype.flushed]
  simp only [meter, hpending, hreports]
  rfl

/-- And on another counter nothing. -/
theorem meter_flush_other (h : r.Aliased ctype) {name : Bytes} {view : CounterView ι}
    {todo : List (Bytes × CounterView ι)} {seconds : Int} {buffer : List MetricLine}
    (hloop : r.now.aggregation = some ⟨(name, view) :: todo, seconds, buffer⟩)
    (htype : view.ctype ≠ .counterU) :
    meter ctype { r with now := r.now.flushTurn seconds buffer name view todo } =
      r.meter ctype := by
  have hview : r.now.counterMap[name]? = some view := h.listed _ hloop (name, view) (by simp)
  have hpending : pending { r with now := r.now.flushTurn seconds buffer name view todo } =
      r.pending := by
    funext name'
    refine pending_congr rfl fun view' hview' htype' => ?_
    have hne : view'.val ≠ view.val := by
      intro hcell
      obtain rfl := h.distinct name' name view' view hview' hview hcell
      obtain rfl : view' = view := by simpa [hview'] using hview
      exact htype htype'
    simp [Metrics.flushTurn, hne]
  have hreports : reports { r with now := r.now.flushTurn seconds buffer name view todo } =
      r.reports := by
    cases hctype : view.ctype with
    | counterU => exact absurd hctype htype
    | counterD => simp [reports, Metrics.lines, Metrics.flushTurn, hloop, hctype, Ctype.flushed]
    | collectorU => simp [reports, Metrics.lines, Metrics.flushTurn, hloop, hctype, Ctype.flushed]
  simp only [meter, hpending, hreports]
  rfl

/-- A step of the metrics is a step of the meter, or none. -/
theorem meter_step (h : r.Aliased ctype) {a : MetricsAction ι} (ha : r.Allowed a)
    (hstep : step ctype mRoot r a = some r') :
    r'.meter ctype = r.meter ctype ∨ Meter.Next (r.meter ctype) (r'.meter ctype) := by
  rcases step_cases hstep with ⟨i, name, root, rfl, -, rfl⟩ | ⟨i, n, rfl⟩ |
    ⟨curTime, hfree, rfl⟩ | ⟨name, view, todo, seconds, buffer, hloop, rfl⟩ |
    ⟨seconds, buffer, hloop, rfl⟩
  · left
    rcases connect_cases ctype r i (getName mRoot root name) with
      ⟨view, -, -, hconnect⟩ | ⟨hview, hconnect⟩ | hconnect
    · rw [hconnect]
      exact meter_redirect ha.2 _ _
    · rw [hconnect]
      exact meter_insert h ha.1 ha.2 hview
    · rw [hconnect]
  · by_cases htype : ctype i = .counterU
    · cases hi : r.connected i with
      | none => exact .inl (meter_increment_other h n (.inr hi))
      | some name =>
          rw [meter_increment h n htype hi]
          exact .inr (.count _ name n)
    · exact .inl (meter_increment_other h n (.inl htype))
  · have hreports : reports { r with now := { r.now with
        lastTime := curTime
        aggregation := some ⟨r.now.counterMap.toList, 60 * curTime, []⟩ } } = r.reports := by
      simp [reports, Metrics.lines, hfree]
    simp only [meter, hreports]
    exact .inl rfl
  · by_cases htype : view.ctype = .counterU
    · rw [meter_flush h hloop htype]
      exact .inr (.report _ name)
    · exact .inl (meter_flush_other h hloop htype)
  · have hreports : reports { r with now := { r.now with
        aggregation := none
        sendQueue := if buffer = [] then r.now.sendQueue else r.now.sendQueue ++ [buffer] } } =
          r.reports := by
      by_cases hempty : buffer = []
      · simp [reports, Metrics.lines, hloop, hempty]
      · simp [reports, Metrics.lines, hloop, hempty]
    simp only [meter, hreports]
    exact .inl rfl

/-! ## Runs -/

/-- The metrics refine a meter. -/
theorem refines_meter (h : (machine ctype mRoot).Reachable Allowed r) :
    r.Aliased ctype ∧
      ∃ m, Meter.Unused m ∧ Relation.ReflTransGen Meter.Next m (r.meter ctype) := by
  refine h.invariant (I := fun r => r.Aliased ctype ∧
    ∃ m, Meter.Unused m ∧ Relation.ReflTransGen Meter.Next m (r.meter ctype)) ?_ ?_
  · intro r hinit
    refine ⟨aliased_init hinit, r.meter ctype, ?_, .refl⟩
    obtain ⟨-, hmap, haggregation, hqueue, hmade⟩ := hinit
    refine ⟨fun name => pending_of_none (by simp [hmap]), ?_, ?_⟩
    · simp [meter, increments, hmade]
    · simp [meter, reports, Metrics.lines, haggregation, hqueue]
  · rintro r a r' ⟨halias, m, hunused, hrun⟩ ha hstep
    refine ⟨aliased_step halias ha hstep, m, hunused, ?_⟩
    rcases meter_step halias ha hstep with hsame | hnext
    · rw [hsame]
      exact hrun
    · exact hrun.tail hnext

/-- What has been reported under a name and what is pending there are the increments made
through the handles that are connected under it. -/
theorem counts_conserved (h : (machine ctype mRoot).Reachable Allowed r) (name : Bytes) :
    Meter.total name r.reports + r.pending name = Meter.total name (r.increments ctype) := by
  obtain ⟨-, m, hunused, hrun⟩ := refines_meter h
  exact Meter.conserved hunused hrun name

/-- Two handles of one name, that count to six. -/
theorem counts_conserved_shared : ∃ r : Recorded Bool,
    (machine (fun _ => .counterU) []).Reachable Allowed r ∧ r.reports = [([97], 6)] ∧
      Meter.total [97] r.reports + r.pending [97] =
        Meter.total [97] (r.increments fun _ => .counterU) := by
  have hinit : (machine (fun _ : Bool => Ctype.counterU) []).Reachable Allowed
      ⟨⟨fun _ => 0, id, ∅, 0, none, []⟩, fun _ => none, []⟩ :=
    .init ⟨fun i => ⟨rfl, rfl, rfl⟩, rfl, rfl, rfl, rfl⟩
  have hfirst := hinit.next (a := .connect true [97] []) ⟨rfl, by simp⟩ rfl
  have hsecond := hfirst.next (a := .connect false [97] [])
    ⟨rfl, by simp [connect, Metrics.connect, getName]⟩ rfl
  have hone := hsecond.next (a := .plusPlus true) trivial rfl
  have hsix := hone.next (a := .plusEq false 5) trivial rfl
  have hbegin := hsix.next (a := .beginAggregate 1) trivial rfl
  have hflush := hbegin.next (a := .flush) trivial rfl
  exact ⟨_, hflush, rfl, counts_conserved hflush [97]⟩

end Recorded

end FlexEtl
