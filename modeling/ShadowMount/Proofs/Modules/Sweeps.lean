import Mathlib.Data.List.Basic
import ShadowMount.Proofs.Modules.HostCalls

/-!
# Sweeps over native modules

A sweep runs a hook on one module after the other. What that comes to is said without the registry:
`Sweeps` runs the hooks of the modules themselves, in the order of a list, and hands the shared
state from each to the next. The loops of the registry are shown to do the same.

* **`Sweeps`** — a hook run on a list of modules, with the failures it ends in.
* **`hookOf`**, **`hookForBatch`** — the hooks of notifications and of batches.
* **`Registry.sweep_swept`**, **`Registry.tellBatch_swept`** — what a sweep of the registry and a
  batch come to.
* **`Registry.notify_of_moved`**, **`Registry.notify_of_stale`** — which notifications sweep.
-/

namespace ShadowMount

variable {σ ι μ : Type}

/-! ## Hooks run one after the other

This is the meaning of a sweep, in which only the modules themselves have a part. The state that
modules share is threaded through the list; a module that fails leaves its changes like any other,
and those behind it run all the same. -/

/-- `Sweeps hook modules shared after left failures`: the hook runs on each of the modules, in
order, on what those before it left of the shared state. It leaves them as `after` and the shared
state as `left`, and `failures` lists the modules that failed, by the names they then have. -/
inductive Sweeps [NativeModule σ μ] (hook : ι → μ → σ → Except String Unit × μ × σ) :
    List (ι × μ) → σ → List (ι × μ) → σ → List HookFailure → Prop
  /-- No module is left. -/
  | nil {shared : σ} : Sweeps hook [] shared [] shared []
  /-- The hook of the next module passes. -/
  | passed {key : ι} {member after : μ} {shared mid left : σ} {rest done : List (ι × μ)}
      {failures : List HookFailure} (hrun : hook key member shared = (.ok (), after, mid))
      (hrest : Sweeps hook rest mid done left failures) :
      Sweeps hook ((key, member) :: rest) shared ((key, after) :: done) left failures
  /-- The hook of the next module fails, and the sweep goes on with the others. -/
  | failed {key : ι} {member after : μ} {shared mid left : σ} {rest done : List (ι × μ)}
      {failures : List HookFailure} {reason : String}
      (hrun : hook key member shared = (.error reason, after, mid))
      (hrest : Sweeps hook rest mid done left failures) :
      Sweeps hook ((key, member) :: rest) shared ((key, after) :: done) left
        (⟨NativeModule.name after, reason⟩ :: failures)

section Hooks

variable [NativeModule σ μ]

/-- The hook that a notification asks for. -/
def hookOf : Phase → ι → μ → σ → Except String Unit × μ × σ
  | .start, _ => NativeModule.start
  | .stop, _ => NativeModule.stop

/-- The hook that a complete batch asks for: that of the modules among `listeners`. It cannot
fail. -/
def hookForBatch [DecidableEq ι] (listeners : List ι) (key : ι) (member : μ) (shared : σ) :
    Except String Unit × μ × σ :=
  if key ∈ listeners then (.ok (), NativeModule.batchDone member shared)
  else (.ok (), member, shared)

variable {hook : ι → μ → σ → Except String Unit × μ × σ} {modules after : List (ι × μ)}
  {shared left : σ} {failures : List HookFailure}

/-- A sweep reaches all modules and adds none. -/
theorem Sweeps.keys (h : Sweeps hook modules shared after left failures) :
    after.map Prod.fst = modules.map Prod.fst := by
  induction h with
  | nil => rfl
  | passed _ _ ih => rw [List.map_cons, List.map_cons, ih]
  | failed _ _ ih => rw [List.map_cons, List.map_cons, ih]

end Hooks

/-! ## Changing one entry of a map -/

namespace OrderedMap

variable [DecidableEq ι]

/-- A put on a key that is there changes the one entry where it stands. -/
theorem entries_put_of_split {m : OrderedMap ι μ} {done rest : List (ι × μ)} {key : ι}
    {old : μ} (h : m.entries = done ++ (key, old) :: rest) (new : μ) :
    (m.put key new).entries = done ++ (key, new) :: rest := by
  have hknown : key ∈ m.entries.map Prod.fst := by
    rw [h]
    simp
  have hnodup := m.nodup
  rw [h, List.map_append, List.map_cons, List.nodup_append, List.nodup_cons] at hnodup
  obtain ⟨-, ⟨hrest, -⟩, hdone⟩ := hnodup
  -- no other entry has this key
  have hkeep : ∀ {part : List (ι × μ)}, key ∉ part.map Prod.fst →
      overwrite key new part = part := by
    intro part hpart
    refine (List.map_congr_left fun entry hentry => if_neg ?_).trans (List.map_id _)
    rintro rfl
    exact hpart (List.mem_map_of_mem hentry)
  rw [put, dif_pos hknown]
  show overwrite key new m.entries = _
  rw [h, overwrite, List.map_append, List.map_cons, if_pos rfl, ← overwrite, ← overwrite,
    hkeep fun hmem => hdone key hmem key (List.mem_cons_self ..) rfl, hkeep hrest]

end OrderedMap

/-! ## Sweeps of the registry

The registry puts each module back as soon as its hook has run. Since a put changes one entry where
it stands, the modules to come are those that were there when the loop began. -/

namespace Registry

variable [NativeModule σ μ] [DecidableEq ι] {registry : Registry σ ι μ} {phase : Phase}

/-- `registry.SweptTo after hook failures`: the hook has run on all modules. Neither the listeners
nor the stage are concerned. -/
structure SweptTo (registry after : Registry σ ι μ)
    (hook : ι → μ → σ → Except String Unit × μ × σ) (failures : List HookFailure) : Prop where
  /-- The hook has run on the modules in their order. -/
  sweeps : Sweeps hook registry.modules.entries registry.shared after.modules.entries after.shared
    failures
  /-- The listeners are the same. -/
  listeners : after.listeners = registry.listeners
  /-- The stage is the same. -/
  stage : after.stage = registry.stage

omit [DecidableEq ι] in
/-- A sweep keeps who is registered. -/
theorem SweptTo.keys {after : Registry σ ι μ} {hook : ι → μ → σ → Except String Unit × μ × σ}
    {failures : List HookFailure} (h : registry.SweptTo after hook failures) :
    after.modules.keys = registry.modules.keys :=
  h.sweeps.keys

/-- A hook that passes. -/
theorem runHook_of_ok {key : ι} {member after : μ} {left : σ} (failures : List HookFailure)
    (h : hookOf phase key member registry.shared = (.ok (), after, left)) :
    runHook phase (failures, registry) (key, member) =
      (failures, { registry with modules := registry.modules.put key after, shared := left }) := by
  cases phase <;> simp only [hookOf] at h <;> simp only [runHook, h]

/-- A hook that fails. -/
theorem runHook_of_error {key : ι} {member after : μ} {left : σ} {reason : String}
    (failures : List HookFailure)
    (h : hookOf phase key member registry.shared = (.error reason, after, left)) :
    ∃ log, runHook phase (failures, registry) (key, member) =
      (failures ++ [⟨NativeModule.name after, reason⟩],
        { registry with modules := registry.modules.put key after, shared := left, log }) := by
  cases phase <;> simp only [hookOf] at h <;> simp only [runHook, h, say] <;> exact ⟨_, rfl⟩

/-- The loop over the modules, some of which it has left behind. Each round runs on a registry that
the rounds before have changed, but not in the modules to come. -/
theorem foldl_runHook (phase : Phase) : ∀ {rest done : List (ι × μ)} {failures : List HookFailure}
    {registry : Registry σ ι μ}, registry.modules.entries = done ++ rest →
      ∃ after swept new, rest.foldl (runHook phase) (failures, registry) =
          (failures ++ new, swept) ∧
        Sweeps (hookOf phase) rest registry.shared after swept.shared new ∧
        swept.modules.entries = done ++ after ∧ swept.listeners = registry.listeners ∧
        swept.stage = registry.stage
  | [], done, failures, registry, h =>
    ⟨[], registry, [], by rw [List.append_nil, List.foldl_nil], .nil, h, rfl, rfl⟩
  | (key, member) :: rest, done, failures, registry, h => by
    -- run the hook of the next module, which stands behind those done; its entry changes in place,
    -- and the induction goes on from the registry that this leaves
    cases hrun : hookOf phase key member registry.shared with
    | mk outcome state =>
      obtain ⟨after, left⟩ := state
      have hentries := OrderedMap.entries_put_of_split h after
      rw [← List.singleton_append, ← List.append_assoc] at hentries
      cases outcome with
      | ok answer =>
        obtain ⟨afters, swept, new, hfold, hsweeps, hswept, hlisteners, hstage⟩ :=
          @foldl_runHook phase rest _ failures
            { registry with modules := registry.modules.put key after, shared := left } hentries
        refine ⟨(key, after) :: afters, swept, new, ?_, .passed hrun hsweeps, ?_, hlisteners,
          hstage⟩
        · rw [List.foldl_cons, runHook_of_ok failures hrun, hfold]
        · rw [hswept, List.append_assoc, List.singleton_append]
      -- a failure is noted, and the next modules are swept all the same
      | error reason =>
        obtain ⟨log, hfailed⟩ := runHook_of_error failures hrun
        obtain ⟨afters, swept, new, hfold, hsweeps, hswept, hlisteners, hstage⟩ :=
          @foldl_runHook phase rest _ (failures ++ [⟨NativeModule.name after, reason⟩])
            { registry with modules := registry.modules.put key after, shared := left, log }
            hentries
        refine ⟨(key, after) :: afters, swept, _ :: new, ?_, .failed hrun hsweeps, ?_,
          hlisteners, hstage⟩
        · rw [List.foldl_cons, hfailed, hfold, List.append_assoc, List.singleton_append]
        · rw [hswept, List.append_assoc, List.singleton_append]

/-- A sweep runs the hook of each module and reports those that fail. -/
theorem sweep_swept (registry : Registry σ ι μ) (phase : Phase) :
    ∃ failures, registry.SweptTo (registry.sweep phase).2 (hookOf phase) failures ∧
      (registry.sweep phase).1 =
        if failures = [] then .ok () else .error (.hooksFailed phase failures) := by
  obtain ⟨after, swept, failures, hfold, hsweeps, hentries, hlisteners, hstage⟩ :=
    -- the loop starts with nothing done and no failures
    @foldl_runHook _ _ _ _ _ phase registry.modules.entries [] [] registry rfl
  have hsweep : registry.sweep phase =
      (if failures.isEmpty then .ok () else .error (.hooksFailed phase failures), swept) := by
    rw [sweep, hfold]
    rfl
  rw [hsweep]
  -- the registry asks whether the list of failures is empty
  refine ⟨failures, ⟨?_, hlisteners, hstage⟩, if_congr List.isEmpty_iff rfl rfl⟩
  rw [List.nil_append] at hentries
  rwa [hentries]

/-! ## Notifications

The start counts once, from the stage of registration, and the stop counts once, from any stage
before it. -/

/-- Notifies of a phase. -/
def notify (registry : Registry σ ι μ) : Phase → Except (ModuleError ι) Unit × Registry σ ι μ
  | .start => registry.start
  | .stop => registry.stop

/-- A notification that moves the stage sweeps over all modules. -/
theorem notify_of_moved (h : registry.stage.notified phase ≠ registry.stage) :
    registry.notify phase =
      { registry with stage := registry.stage.notified phase }.sweep phase := by
  -- at each of the three stages, the notification moves the stage or it does not
  cases phase <;> cases hstage : registry.stage <;>
    simp_all [notify, start, stop, Stage.notified]

/-- Any other notification is only logged. -/
theorem notify_of_stale (h : registry.stage.notified phase = registry.stage) :
    ∃ log, registry.notify phase = (.ok (), { registry with log }) := by
  cases phase <;> cases hstage : registry.stage <;>
    simp_all [notify, start, stop, say, Stage.notified]

/-! ## Batches

Listeners are kept in a list of their own, by kind. The loop looks each of them up at its turn; as
kinds are distinct and listed in the order of the modules, this is a sweep in which the others do
nothing. -/

/-- A listener hears of a batch. -/
theorem hearBatch_of_split {key : ι} {member : μ} {done rest : List (ι × μ)}
    (h : registry.modules.entries = done ++ (key, member) :: rest) :
    registry.hearBatch key = { registry with
      modules := registry.modules.put key (NativeModule.batchDone member registry.shared).1
      shared := (NativeModule.batchDone member registry.shared).2 } := by
  have hget : registry.modules.get? key = some member :=
    OrderedMap.get?_eq_some_iff.mpr (by rw [h]; simp)
  rw [hearBatch, hget]

/-- The loop over the listeners, which are those of the modules to come whose kinds are in `heard`.
The modules in between are passed by. -/
theorem foldl_hearBatch (heard : List ι) : ∀ {rest done : List (ι × μ)}
    {registry : Registry σ ι μ}, registry.modules.entries = done ++ rest →
      ∃ after swept, ((rest.map Prod.fst).filter (· ∈ heard)).foldl hearBatch registry = swept ∧
        Sweeps (hookForBatch heard) rest registry.shared after swept.shared [] ∧
        swept.modules.entries = done ++ after ∧ swept.listeners = registry.listeners ∧
        swept.stage = registry.stage
  | [], done, registry, h => ⟨[], registry, rfl, .nil, h, rfl, rfl⟩
  | (key, member) :: rest, done, registry, h => by
    -- a module that hears of the batch is the next listener; one that does not is no listener
    by_cases hkey : key ∈ heard
    · have hrun : hookForBatch heard key member registry.shared =
          (.ok (), NativeModule.batchDone member registry.shared) := if_pos hkey
      obtain ⟨left, hleft⟩ : ∃ left, left = NativeModule.batchDone member registry.shared :=
        ⟨_, rfl⟩
      have hentries := OrderedMap.entries_put_of_split h left.1
      rw [← List.singleton_append, ← List.append_assoc] at hentries
      obtain ⟨after, swept, hfold, hsweeps, hswept, hlisteners, hstage⟩ :=
        @foldl_hearBatch heard rest _
          { registry with modules := registry.modules.put key left.1, shared := left.2 } hentries
      refine ⟨(key, left.1) :: after, swept, ?_, .passed (by rw [hrun, ← hleft]) hsweeps, ?_,
        hlisteners, hstage⟩
      · rw [List.map_cons, List.filter_cons_of_pos (by simpa using hkey), List.foldl_cons,
          hearBatch_of_split h, ← hleft, hfold]
      · rw [hswept, List.append_assoc, List.singleton_append]
    · have hrun : hookForBatch heard key member registry.shared =
          (.ok (), member, registry.shared) := if_neg hkey
      rw [← List.singleton_append, ← List.append_assoc] at h
      obtain ⟨after, swept, hfold, hsweeps, hswept, hrest⟩ :=
        @foldl_hearBatch heard rest _ registry h
      refine ⟨(key, member) :: after, swept, ?_, .passed hrun hsweeps, ?_, hrest⟩
      · rw [List.map_cons, List.filter_cons_of_neg (by simpa using hkey), hfold]
      · rw [hswept, List.append_assoc, List.singleton_append]

/-- While the instance lives, the listeners hear of a batch, in the order of their registration. -/
theorem tellBatch_swept (h : registry.stage = .initialized)
    (horder : registry.listeners = registry.modules.keys.filter (· ∈ registry.listeners)) :
    registry.SweptTo registry.tellBatch (hookForBatch registry.listeners) [] := by
  obtain ⟨after, swept, hfold, hsweeps, hentries, hlisteners, hstage⟩ :=
    @foldl_hearBatch _ _ _ _ _ registry.listeners registry.modules.entries [] registry rfl
  -- the loop runs over the listeners, which are the modules that hear, in their order
  have htell : registry.tellBatch = swept := by
    rw [tellBatch, if_neg (not_not.mpr h), ← hfold]
    conv_lhs => rw [horder]
    rfl
  rw [htell]
  rw [List.nil_append] at hentries
  exact ⟨by rwa [hentries], hlisteners, hstage⟩

/-- Outside of the life of the instance a batch is only logged. -/
theorem tellBatch_of_not_live (h : registry.stage ≠ .initialized) :
    ∃ log, registry.tellBatch = { registry with log } := by
  rw [tellBatch, if_pos h]
  exact ⟨_, rfl⟩

end Registry

end ShadowMount
