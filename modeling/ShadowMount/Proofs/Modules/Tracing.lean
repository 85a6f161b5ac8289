import ShadowMount.Proofs.Modules.Sweeps

/-!
# Modules that leave a trace

Which hooks have run is not kept by the registry. It is seen from the modules: any kind of module
can be made to write in a trace that its hooks run, beside what they do anyway. The trace is part
of the state that modules share, so its entries come in the order in which the hooks run.

Writing the trace changes nothing else. A run with traced modules, with the trace taken away, is
the run with the modules themselves.

* **`Traced`** — a module that writes in the trace, under its own kind.
* **`App.untraced_after`** — what the trace is taken away from is the run without it.
* **`Sweeps.trace`** — what a sweep writes.
-/

namespace ShadowMount

variable {κ σ ι μ : Type}

/-- A module that writes in the trace that its hooks run. -/
structure Traced (ι μ : Type) where
  /-- The kind under which it writes. -/
  key : ι
  /-- The module itself. -/
  member : μ

/-- The hooks of the module itself, each with an entry in the trace. -/
instance [NativeModule σ μ] : NativeModule (σ × List (Hook × ι)) (Traced ι μ) where
  name traced := NativeModule.name traced.member
  start traced shared :=
    let (outcome, member, left) := NativeModule.start traced.member shared.1
    (outcome, { traced with member }, left, shared.2 ++ [(.start, traced.key)])
  stop traced shared :=
    let (outcome, member, left) := NativeModule.stop traced.member shared.1
    (outcome, { traced with member }, left, shared.2 ++ [(.stop, traced.key)])
  hearsBatches traced := NativeModule.hearsBatches traced.member
  batchDone traced shared :=
    let (member, left) := NativeModule.batchDone traced.member shared.1
    ({ traced with member }, left, shared.2 ++ [(.batchComplete, traced.key)])

/-- The call of a host whose modules are traced. -/
def HostCall.traced : HostCall κ σ ι μ → HostCall κ (σ × List (Hook × ι)) ι (Traced ι μ)
  | register key member => .register key ⟨key, member⟩
  | notifyStart => .notifyStart
  | notifyStop => .notifyStop
  | notifyBatch => .notifyBatch
  | start => .start
  | stop => .stop
  | completeBatch engine => .completeBatch engine
  | modify key change => .modify key fun traced => { traced with member := change traced.member }
  | useShared change => .useShared fun shared => (change shared.1, shared.2)
  | useUi change => .useUi change

/-! ## The trace taken away

Each function of the registry is followed with the trace and without it. None of them looks at the
trace, so taking it away before or after makes no difference; for the loops this is an induction
over their rounds. -/

namespace OrderedMap

variable {ν : Type} (f : μ → ν) (m : OrderedMap ι μ)

/-- Replaces each value by its image under `f`; the keys stay where they are. -/
def map : OrderedMap ι ν where
  entries := m.entries.map fun entry => (entry.1, f entry.2)
  nodup := by
    rw [List.map_map]
    exact m.nodup

/-- The keys are the same. -/
theorem keys_map : (m.map f).keys = m.keys := by
  rw [keys, map, List.map_map]
  rfl

/-- There are as many entries. -/
theorem size_map : (m.map f).size = m.size := List.length_map ..

variable [DecidableEq ι]

/-- The same keys are there. -/
theorem contains_map (key : ι) : (m.map f).contains key = m.contains key := by
  rw [contains, contains, keys_map]

/-- The value under a key is the image of the one that was there. -/
theorem get?_map (key : ι) : (m.map f).get? key = (m.get? key).map f := by
  show (m.entries.map fun entry => (entry.1, f entry.2)).lookup key = (m.entries.lookup key).map f
  induction m.entries with
  | nil => rfl
  | cons entry rest ih =>
    rw [List.map_cons, List.lookup_cons, List.lookup_cons, ih]
    cases key == entry.1 <;> rfl

/-- To put a value and replace all comes to the same as to replace all and put the image. -/
theorem map_put (key : ι) (value : μ) : (m.put key value).map f = (m.map f).put key (f value) := by
  refine ext_get? ?_ fun other => ?_
  · rw [keys_map, keys_put, keys_put, keys_map]
  · rw [get?_map, get?_put, get?_put, get?_map]
    split <;> rfl

end OrderedMap

namespace Registry

/-- The registry without the trace. -/
def untraced (registry : Registry (σ × List (Hook × ι)) ι (Traced ι μ)) : Registry σ ι μ where
  modules := registry.modules.map Traced.member
  listeners := registry.listeners
  stage := registry.stage
  shared := registry.shared.1
  log := registry.log

variable [NativeModule σ μ] [DecidableEq ι]
  (registry : Registry (σ × List (Hook × ι)) ι (Traced ι μ))

omit [NativeModule σ μ] [DecidableEq ι] in
/-- The same modules are registered. -/
theorem keys_untraced : registry.untraced.modules.keys = registry.modules.keys :=
  OrderedMap.keys_map ..

/-- A traced module is registered where the module itself would be. -/
theorem untraced_register (key : ι) (member : μ) :
    registry.untraced.register key member =
      ((registry.register key ⟨key, member⟩).1,
        (registry.register key ⟨key, member⟩).2.untraced) := by
  -- what is asked before a registration is not touched by the trace
  simp only [register, untraced, OrderedMap.contains_map]
  split
  · rfl
  · split
    · rfl
    · simp only [say, OrderedMap.map_put]
      rfl

omit [NativeModule σ μ] in
/-- A change of a traced module is one of the module in it. -/
theorem untraced_modify (key : ι) (change : μ → μ) :
    registry.untraced.modify key change =
      ((registry.modify key fun traced => { traced with member := change traced.member }).1,
        (registry.modify key fun traced =>
          { traced with member := change traced.member }).2.untraced) := by
  simp only [modify, untraced, OrderedMap.get?_map]
  cases registry.modules.get? key with
  | none => rfl
  | some traced =>
    simp only [Option.map_some, OrderedMap.map_put]

omit [DecidableEq ι] in
/-- A traced hook does to the module and to the rest of the shared state what the hook does, and
writes its entry. -/
theorem hookOf_traced (phase : Phase) (key : ι) (traced : Traced ι μ)
    (shared : σ × List (Hook × ι)) :
    hookOf phase key traced shared =
      ((hookOf phase key traced.member shared.1).1,
        { traced with member := (hookOf phase key traced.member shared.1).2.1 },
        (hookOf phase key traced.member shared.1).2.2, shared.2 ++ [(phase.hook, traced.key)]) := by
  cases phase <;> rfl

/-- A listener writes that it has heard of the batch; the other modules write nothing. -/
theorem hookForBatch_traced (listeners : List ι) (key : ι) (traced : Traced ι μ)
    (shared : σ × List (Hook × ι)) :
    hookForBatch listeners key traced shared =
      ((hookForBatch listeners key traced.member shared.1).1,
        { traced with member := (hookForBatch listeners key traced.member shared.1).2.1 },
        (hookForBatch listeners key traced.member shared.1).2.2,
        shared.2 ++ if key ∈ listeners then [(.batchComplete, traced.key)] else []) := by
  unfold hookForBatch
  split
  · rfl
  · rw [List.append_nil]

/-- A round of a sweep. -/
theorem untraced_runHook (phase : Phase) (failures : List HookFailure)
    (entry : ι × Traced ι μ) :
    runHook phase (failures, registry.untraced) (entry.1, entry.2.member) =
      ((runHook phase (failures, registry) entry).1,
        (runHook phase (failures, registry) entry).2.untraced) := by
  obtain ⟨key, traced⟩ := entry
  -- the hook has the same outcome with the trace and without it
  cases hrun : hookOf phase key traced.member registry.shared.1 with
  | mk outcome state =>
    obtain ⟨after, left⟩ := state
    have htraced := hookOf_traced phase key traced registry.shared
    simp only [hrun] at htraced
    cases outcome with
    | ok answer =>
      rw [@runHook_of_ok _ _ _ _ _ registry.untraced _ _ _ _ _ failures hrun,
        runHook_of_ok failures htraced]
      simp only [untraced, OrderedMap.map_put]
    | error reason =>
      -- which failure is logged depends on the name and the reason alone
      cases phase <;> simp only [hookOf] at hrun htraced <;>
        simp only [runHook, untraced, hrun, htraced, say, OrderedMap.map_put] <;> rfl

/-- A sweep. -/
theorem untraced_sweep (phase : Phase) :
    registry.untraced.sweep phase =
      ((registry.sweep phase).1, (registry.sweep phase).2.untraced) := by
  -- round by round, as the registry between two rounds is one with a trace, too
  have hloop : ∀ (entries : List (ι × Traced ι μ)) (failures : List HookFailure)
      (registry : Registry (σ × List (Hook × ι)) ι (Traced ι μ)),
      (entries.map fun entry => (entry.1, entry.2.member)).foldl (runHook phase)
          (failures, registry.untraced) =
        ((entries.foldl (runHook phase) (failures, registry)).1,
          (entries.foldl (runHook phase) (failures, registry)).2.untraced) := by
    intro entries
    induction entries with
    | nil => exact fun failures registry => rfl
    | cons entry rest ih =>
      intro failures registry
      rw [List.map_cons, List.foldl_cons, List.foldl_cons, untraced_runHook, ih]
  have hfold := hloop registry.modules.entries [] registry
  simp only [sweep]
  rw [show registry.untraced.modules.entries =
    registry.modules.entries.map fun entry => (entry.1, entry.2.member) from rfl, hfold]

/-- A notification. -/
theorem untraced_notify (phase : Phase) :
    registry.untraced.notify phase =
      ((registry.notify phase).1, (registry.notify phase).2.untraced) := by
  -- the stage decides whether there is a sweep, and it is not traced
  have hsweep := fun stage phase => { registry with stage }.untraced_sweep phase
  cases phase with
  | start =>
    simp only [notify, start]
    rw [show registry.untraced.stage = registry.stage from rfl]
    split
    · rfl
    · exact hsweep .initialized .start
  | stop =>
    simp only [notify, stop]
    rw [show registry.untraced.stage = registry.stage from rfl]
    split
    · rfl
    · exact hsweep .destroyed .stop

/-- A listener that hears of a batch. -/
theorem untraced_hearBatch (key : ι) :
    registry.untraced.hearBatch key = (registry.hearBatch key).untraced := by
  simp only [hearBatch, untraced, OrderedMap.get?_map]
  cases registry.modules.get? key with
  | none => rfl
  | some traced =>
    simp only [Option.map_some, OrderedMap.map_put]
    rfl

/-- A complete batch. -/
theorem untraced_tellBatch : registry.untraced.tellBatch = registry.tellBatch.untraced := by
  -- again round by round, over the listeners
  have hloop : ∀ (keys : List ι) (registry : Registry (σ × List (Hook × ι)) ι (Traced ι μ)),
      keys.foldl hearBatch registry.untraced = (keys.foldl hearBatch registry).untraced := by
    intro keys
    induction keys with
    | nil => exact fun registry => rfl
    | cons key rest ih =>
      intro registry
      rw [List.foldl_cons, List.foldl_cons, untraced_hearBatch, ih]
  simp only [tellBatch]
  rw [show registry.untraced.stage = registry.stage from rfl]
  split
  · rfl
  · exact hloop registry.listeners registry

end Registry

namespace App

/-- The instance without the trace. -/
def untraced (app : App κ (σ × List (Hook × ι)) ι (Traced ι μ)) : App κ σ ι μ where
  ui := app.ui
  modules := app.modules.untraced

variable [Coordinate κ] [NativeModule σ μ] [DecidableEq ι]

/-- A call has the same answer and does the same, but for the trace. -/
theorem untraced_step (app : App κ (σ × List (Hook × ι)) ι (Traced ι μ))
    (call : HostCall κ σ ι μ) :
    app.untraced.step call = ((app.step call.traced).1, (app.step call.traced).2.untraced) := by
  -- the instance starts and stops its modules by notifying them
  have hstart : app.modules.untraced.start = _ := app.modules.untraced_notify .start
  have hstop : app.modules.untraced.stop = _ := app.modules.untraced_notify .stop
  have hsize : app.modules.untraced.modules.size = app.modules.modules.size :=
    OrderedMap.size_map ..
  cases call with
  | register key member =>
    simp only [step, HostCall.traced, untraced, Registry.untraced_register]
  | notifyStart =>
    simp only [step, HostCall.traced, untraced, hstart]
    rfl
  | notifyStop =>
    simp only [step, HostCall.traced, untraced, hstop]
    rfl
  | notifyBatch => simp only [step, HostCall.traced, untraced, Registry.untraced_tellBatch]
  | start =>
    simp only [step, HostCall.traced, start, say, untraced, hsize, hstart]
    rfl
  | stop =>
    simp only [step, HostCall.traced, stop, say, untraced, hstop]
    rfl
  | completeBatch engine =>
    simp only [step, HostCall.traced, completeBatch, untraced]
    obtain ⟨report, ui⟩ := app.ui.layOutAndRunPass engine
    cases report.result with
    | ok count => simp only [Registry.untraced_tellBatch]
    | error err => simp only [say, Registry.untraced_tellBatch]
  | modify key change => simp only [step, HostCall.traced, untraced, Registry.untraced_modify]
  | useShared change => rfl
  | useUi change => rfl

/-- A run with traced modules is, without the trace, the run with the modules themselves. -/
theorem untraced_after (calls : List (HostCall κ σ ι μ)) :
    ∀ app : App κ (σ × List (Hook × ι)) ι (Traced ι μ),
      (app.after (calls.map HostCall.traced)).untraced = app.untraced.after calls := by
  -- one call after the other, from whatever the calls before have left
  induction calls with
  | nil => exact fun app => rfl
  | cons call rest ih =>
    intro app
    show ((app.step call.traced).2.after (rest.map HostCall.traced)).untraced =
      (app.untraced.step call).2.after rest
    rw [ih, untraced_step]

end App

/-! ## What is written

The entries of a sweep, for any hook that adds what it writes at the end of the trace. Modules write
under the kind that they carry, which no hook changes. -/

section Writing

variable [NativeModule σ μ]
  {hook : ι → Traced ι μ → σ × List (Hook × ι) →
    Except String Unit × Traced ι μ × σ × List (Hook × ι)}
  {modules after : List (ι × Traced ι μ)} {shared left : σ × List (Hook × ι)}
  {failures : List HookFailure}

/-- A sweep writes what the hook writes for each module, in the order of the modules. -/
theorem Sweeps.trace {written : ι → Traced ι μ → List (Hook × ι)}
    (hwrites : ∀ key traced shared,
      (hook key traced shared).2.2.2 = shared.2 ++ written key traced)
    (h : Sweeps hook modules shared after left failures) :
    left.2 = shared.2 ++ modules.flatMap fun entry => written entry.1 entry.2 := by
  induction h with
  -- an entry for each module, be it one whose hook passes or one whose hook fails
  | nil => rw [List.flatMap_nil, List.append_nil]
  | @passed key member _ shared _ _ _ _ _ hrun _ ih
  | @failed key member _ shared _ _ _ _ _ _ hrun _ ih =>
    have hfirst := hwrites key member shared
    rw [hrun] at hfirst
    rw [ih, hfirst, List.flatMap_cons, List.append_assoc]

/-- Modules keep the kind under which they write. -/
theorem Sweeps.labels (hkeeps : ∀ key traced shared, (hook key traced shared).2.1.key = traced.key)
    (h : Sweeps hook modules shared after left failures)
    (hlabels : ∀ entry ∈ modules, entry.2.key = entry.1) :
    ∀ entry ∈ after, entry.2.key = entry.1 := by
  induction h with
  | nil => exact hlabels
  | @passed key member _ shared _ _ _ _ _ hrun _ ih
  | @failed key member _ shared _ _ _ _ _ _ hrun _ ih =>
    obtain ⟨hfirst, hrest⟩ := List.forall_mem_cons.mp hlabels
    refine List.forall_mem_cons.mpr ⟨?_, ih hrest⟩
    have hkept := hkeeps key member shared
    rw [hrun] at hkept
    exact hkept.trans hfirst

end Writing

end ShadowMount
