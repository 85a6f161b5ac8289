import Mathlib.Data.List.Nodup
import ShadowMount.Proofs.Modules.Tracing
import ShadowMount.Sample

/-!
# The life of native modules

The registry does what the calls of the host ask for. Where it stands is read off from the calls
(`Registry.Tracks`), and so is what its modules write when they are traced (`Registry.Wrote`). For
both there is a step lemma, for one call, and a run lemma, by induction on the calls.

* **`Registry.Tracks.after_step`**, **`App.tracks_after`** — stage, modules and listeners.
* **`Registry.Wrote.after_step`**, **`App.wrote_after`** — the trace of hooks.
* **`App.hooks_follow_life`** — the trace is one sweep of starts, then one sweep of the listeners
  for each batch, then one sweep of stops, whatever fails on the way; and each of these sweeps runs
  the hooks of the modules one after the other and reports those that fail.
-/

namespace ShadowMount

variable {κ σ ι μ : Type}

/-! ## The instance and its registry

What the host asks of an instance comes down to what it asks of the registry; the pass of a batch
and the log are all the instance adds. -/

section Host

variable [Coordinate κ] [NativeModule σ μ] [DecidableEq ι]

/-- What a call makes of the modules. -/
def HostCall.onModules (registry : Registry σ ι μ) : HostCall κ σ ι μ → Registry σ ι μ
  | register key member => (registry.register key member).2
  | notifyStart | start => (registry.notify .start).2
  | notifyStop | stop => (registry.notify .stop).2
  | notifyBatch | completeBatch _ => registry.tellBatch
  | modify key change => (registry.modify key change).2
  | useShared change => { registry with shared := change registry.shared }
  | useUi _ => registry

/-- A completed batch answers the report of its pass, and the modules hear of it however the pass
ended. Beside the pass only the log changes. -/
theorem App.completeBatch_spec (app : App κ σ ι μ) (engine : LayoutEngine κ) :
    ∃ log, app.completeBatch engine = ((app.ui.layOutAndRunPass engine).1,
      { ui := { (app.ui.layOutAndRunPass engine).2 with
          scene := { (app.ui.layOutAndRunPass engine).2.scene with log } }
        modules := app.modules.tellBatch }) := by
  unfold completeBatch
  obtain ⟨report, ui⟩ := app.ui.layOutAndRunPass engine
  cases hresult : report.result with
  | ok count => exact ⟨ui.scene.log, by simp only [hresult]⟩
  | error err => exact ⟨_, by simp only [hresult]; rfl⟩

/-- The modules of an instance change as the call asks, and by nothing else. -/
theorem App.modules_step (app : App κ σ ι μ) (call : HostCall κ σ ι μ) :
    (app.step call).2.modules = call.onModules app.modules := by
  cases call with
  -- the report of the pass does not matter to the modules
  | completeBatch engine =>
    obtain ⟨log, h⟩ := app.completeBatch_spec engine
    exact congrArg (·.2.modules) h
  | _ => rfl

end Host

/-! ## The registry follows the calls

The step lemma has a case for each call. Registrations decide who is enrolled and need the stage,
notifications move the stage and keep who is enrolled, and everything else keeps both. -/

/-- A choice among entries with different keys is one among the keys. -/
theorem map_fst_filter [DecidableEq ι] {entries : List (ι × μ)}
    (hnodup : (entries.map Prod.fst).Nodup) (p : ι × μ → Bool) :
    (entries.filter p).map Prod.fst =
      (entries.map Prod.fst).filter (· ∈ (entries.filter p).map Prod.fst) := by
  rw [List.filter_map]
  refine congrArg (List.map Prod.fst) (List.filter_congr fun entry hentry => ?_)
  rw [Bool.eq_iff_iff, Function.comp, decide_eq_true_iff, List.mem_map]
  constructor
  · exact fun hp => ⟨entry, List.mem_filter.mpr ⟨hentry, hp⟩, rfl⟩
  · rintro ⟨other, hother, hkey⟩
    obtain ⟨hmem, hp⟩ := List.mem_filter.mp hother
    exact List.inj_on_of_nodup_map hnodup hmem hentry hkey ▸ hp

section Tracking

variable [NativeModule σ μ] [DecidableEq ι] {registry : Registry σ ι μ}
  {calls : List (HostCall κ σ ι μ)}

/-- The registry stands where the calls lead. -/
structure Registry.Tracks (registry : Registry σ ι μ) (calls : List (HostCall κ σ ι μ)) : Prop where
  /-- The stage is the one that the calls lead to. -/
  stage : registry.stage = stageAfter calls
  /-- The enrolled modules are registered, in their order. -/
  keys : registry.modules.keys = enrolledKeys calls
  /-- The listeners are those that wanted to hear of batches when they were enrolled. -/
  listeners : registry.listeners = listenerKeys calls

namespace Registry.Tracks

/-- A registration is accepted before the first notification, once for each kind of module. -/
theorem register_eq (h : registry.Tracks calls) (key : ι) (member : μ) :
    ∃ log, registry.register key member =
      if (firstNotice? calls).isSome then (.error (.late (NativeModule.name member)), registry)
      else if key ∈ enrolledKeys calls then
        (.error (.duplicate (NativeModule.name member)), registry)
      else (.ok (), { registry with
        log
        modules := registry.modules.put key member
        listeners := registry.listeners ++
          if NativeModule.hearsBatches member then [key] else [] }) := by
  -- a registration is late once the stage has moved, which is at the first notification
  have hstage : registry.stage ≠ .registered ↔ (firstNotice? calls).isSome = true := by
    rw [h.stage, Ne, stageAfter_eq_registered_iff, Option.isSome_iff_ne_none]
  refine ⟨registry.log ++ [⟨.debug, s!"registered native module {NativeModule.name member}"⟩], ?_⟩
  simp only [register, if_congr hstage rfl rfl, OrderedMap.contains, h.keys, decide_eq_true_eq, say]
  cases NativeModule.hearsBatches member <;> simp

/-- After a call that enrols nobody. -/
theorem of_enrolled {call : HostCall κ σ ι μ} {after : Registry σ ι μ} (h : registry.Tracks calls)
    (hsame : enrolled (calls ++ [call]) = enrolled calls)
    (hstage : after.stage = call.notice?.elim registry.stage registry.stage.notified)
    (hkeys : after.modules.keys = registry.modules.keys)
    (hlisteners : after.listeners = registry.listeners) : after.Tracks (calls ++ [call]) where
  stage := by rw [hstage, h.stage, stageAfter_concat]
  keys := by rw [hkeys, h.keys, enrolledKeys, enrolledKeys, hsame]
  listeners := by rw [hlisteners, h.listeners, listenerKeys, listenerKeys, hsame]

/-- A registration that is accepted enrols the module. -/
theorem after_register (h : registry.Tracks calls) (key : ι) (member : μ) :
    (registry.register key member).2.Tracks (calls ++ [.register key member]) := by
  obtain ⟨log, heq⟩ := h.register_eq key member
  rw [heq]
  split
  -- too late, a kind that is there already, or a new module: the calls tell which
  · next hlate =>
    have henrolled : enrolled (calls ++ [.register key member]) = enrolled calls := by
      rw [enrolled_concat, if_neg (Option.isSome_iff_ne_none.mp hlate)]
    exact h.of_enrolled henrolled rfl rfl rfl
  · next hearly =>
    have henrolled := enrolled_concat_register calls (Option.not_isSome_iff_eq_none.mp hearly) key
      member
    split
    · next hknown =>
      rw [if_pos hknown] at henrolled
      exact h.of_enrolled henrolled rfl rfl rfl
    · next hnew =>
      rw [if_neg hnew] at henrolled
      refine ⟨?_, ?_, ?_⟩
      -- a registration does not move the stage, puts the module last, and adds it to the listeners
      -- if it asks for it
      · rw [stageAfter_concat]
        exact h.stage
      · rw [OrderedMap.keys_put, h.keys, if_neg hnew, enrolledKeys, enrolledKeys, henrolled,
          List.map_append]
        rfl
      · rw [h.listeners, listenerKeys, listenerKeys, henrolled, List.filter_append, List.map_append]
        cases hhears : NativeModule.hearsBatches member <;> simp [hhears]

/-- A notification that is news sweeps over all modules. -/
theorem notify_of_news (h : registry.Tracks calls) {phase : Phase}
    (hnews : isNews calls phase = true) : registry.notify phase =
      { registry with stage := registry.stage.notified phase }.sweep phase := by
  -- a notification is news exactly if it moves the stage
  have hmoved := (isNews_iff calls phase).mp hnews
  rw [← h.stage] at hmoved
  exact notify_of_moved hmoved

/-- Any other notification leaves the stage and the modules as they are. -/
theorem notify_of_old (h : registry.Tracks calls) {phase : Phase}
    (hold : isNews calls phase ≠ true) : registry.stage.notified phase = registry.stage ∧
      ∃ log, registry.notify phase = (.ok (), { registry with log }) := by
  have hstale := mt (isNews_iff calls phase).mpr hold
  rw [not_not, ← h.stage] at hstale
  exact ⟨hstale, notify_of_stale hstale⟩

/-- What a notification comes to. -/
theorem notify_spec (h : registry.Tracks calls) (phase : Phase) :
    if isNews calls phase then ∃ failures,
      Sweeps (hookOf phase) registry.modules.entries registry.shared
        (registry.notify phase).2.modules.entries (registry.notify phase).2.shared failures ∧
      (registry.notify phase).1 =
        if failures = [] then .ok () else .error (.hooksFailed phase failures)
    else (registry.notify phase).2.modules = registry.modules ∧
      (registry.notify phase).2.shared = registry.shared ∧ (registry.notify phase).1 = .ok () := by
  split
  · next hnews =>
    rw [h.notify_of_news hnews]
    obtain ⟨failures, hswept, hanswer⟩ :=
      sweep_swept { registry with stage := registry.stage.notified phase } phase
    exact ⟨failures, hswept.sweeps, hanswer⟩
  · next hold =>
    obtain ⟨-, log, heq⟩ := h.notify_of_old hold
    rw [heq]
    exact ⟨rfl, rfl, rfl⟩

/-- A notification moves the stage and keeps who is registered. -/
theorem after_notify {call : HostCall κ σ ι μ} (h : registry.Tracks calls) {phase : Phase}
    (hnotice : call.notice? = some phase) :
    (registry.notify phase).2.Tracks (calls ++ [call]) := by
  -- a call that notifies offers no module
  have hcandidate : call.candidate? = none := by
    cases call <;> first | rfl | cases hnotice
  have henrolled := enrolled_concat_of_no_candidate calls call hcandidate
  by_cases hnews : isNews calls phase = true
  -- the stage has moved before the sweep, which keeps it
  · rw [h.notify_of_news hnews]
    obtain ⟨failures, hswept, -⟩ :=
      sweep_swept { registry with stage := registry.stage.notified phase } phase
    refine h.of_enrolled henrolled ?_ hswept.keys hswept.listeners
    rw [hswept.stage, hnotice]
    rfl
  · obtain ⟨hstale, log, heq⟩ := h.notify_of_old hnews
    rw [heq]
    refine h.of_enrolled henrolled ?_ rfl rfl
    rw [hnotice]
    exact hstale.symm

/-- The modules hear of batches while the instance lives. -/
theorem live_iff (h : registry.Tracks calls) :
    registry.stage = .initialized ↔ isLive calls = true := by
  rw [h.stage, stageAfter_eq_initialized_iff]

/-- The listeners are in the order of the modules. -/
theorem listeners_order (h : registry.Tracks calls) :
    registry.listeners = registry.modules.keys.filter (· ∈ registry.listeners) := by
  have hnodup := registry.modules.nodup
  rw [← OrderedMap.keys, h.keys] at hnodup
  rw [h.listeners, h.keys]
  exact map_fst_filter hnodup _

/-- A batch is heard by the listeners if the instance lives, and only logged if not. -/
theorem tellBatch_cases (h : registry.Tracks calls) :
    (isLive calls = true ∧
      registry.SweptTo registry.tellBatch (hookForBatch (listenerKeys calls)) []) ∨
    isLive calls = false ∧ ∃ log, registry.tellBatch = { registry with log } := by
  by_cases hstage : registry.stage = .initialized
  -- the registry keeps the listeners in a list of its own, which has them in the order of the
  -- modules
  · refine .inl ⟨h.live_iff.mp hstage, ?_⟩
    rw [← h.listeners]
    exact tellBatch_swept hstage h.listeners_order
  · exact .inr ⟨Bool.eq_false_iff.mpr (mt h.live_iff.mpr hstage), tellBatch_of_not_live hstage⟩

/-- What a batch comes to. -/
theorem tellBatch_spec (h : registry.Tracks calls) :
    if isLive calls then Sweeps (hookForBatch (listenerKeys calls)) registry.modules.entries
      registry.shared registry.tellBatch.modules.entries registry.tellBatch.shared []
    else registry.tellBatch.modules = registry.modules ∧
      registry.tellBatch.shared = registry.shared := by
  rcases h.tellBatch_cases with ⟨hlive, hswept⟩ | ⟨hlive, log, heq⟩
  · rw [if_pos hlive]
    exact hswept.sweeps
  · rw [if_neg (Bool.eq_false_iff.mp hlive), heq]
    exact ⟨rfl, rfl⟩

/-- A batch keeps who is registered. -/
theorem after_tellBatch {call : HostCall κ σ ι μ} (h : registry.Tracks calls)
    (hbatch : call.tellsBatch = true) : registry.tellBatch.Tracks (calls ++ [call]) := by
  obtain ⟨hnotice, hcandidate⟩ : call.notice? = none ∧ call.candidate? = none := by
    cases call <;> first | exact ⟨rfl, rfl⟩ | cases hbatch
  have henrolled := enrolled_concat_of_no_candidate calls call hcandidate
  rcases h.tellBatch_cases with ⟨-, hswept⟩ | ⟨-, log, heq⟩
  · refine h.of_enrolled henrolled ?_ hswept.keys hswept.listeners
    rw [hswept.stage, hnotice]
    rfl
  · rw [heq]
    refine h.of_enrolled henrolled ?_ rfl rfl
    rw [hnotice]
    rfl

/-- A change of one module keeps who is registered. -/
theorem after_modify (h : registry.Tracks calls) (key : ι) (change : μ → μ) :
    (registry.modify key change).2.Tracks (calls ++ [.modify key change]) := by
  have henrolled := enrolled_concat_of_no_candidate calls (.modify key change) rfl
  -- the change concerns a module that is registered, or nobody
  rw [modify]
  cases hmember : registry.modules.get? key with
  | none => exact h.of_enrolled henrolled rfl rfl rfl
  | some member =>
    have hknown := OrderedMap.isSome_get?_iff.mp (Option.isSome_of_eq_some hmember)
    exact h.of_enrolled henrolled rfl ((OrderedMap.keys_put ..).trans (if_pos hknown)) rfl

/-- The registry follows every call. -/
theorem after_step (h : registry.Tracks calls) (call : HostCall κ σ ι μ) :
    (call.onModules registry).Tracks (calls ++ [call]) := by
  cases call with
  | register key member => exact h.after_register key member
  | notifyStart => exact h.after_notify rfl
  | start => exact h.after_notify rfl
  | notifyStop => exact h.after_notify rfl
  | stop => exact h.after_notify rfl
  | notifyBatch => exact h.after_tellBatch rfl
  | completeBatch engine => exact h.after_tellBatch rfl
  | modify key change => exact h.after_modify key change
  | useShared change =>
    exact h.of_enrolled (enrolled_concat_of_no_candidate calls _ rfl) rfl rfl rfl
  | useUi change => exact h.of_enrolled (enrolled_concat_of_no_candidate calls _ rfl) rfl rfl rfl

/-- A registry without modules stands where no calls lead. -/
theorem fresh (shared : σ) :
    ({ shared } : Registry σ ι μ).Tracks ([] : List (HostCall κ σ ι μ)) := ⟨rfl, rfl, rfl⟩

end Registry.Tracks

/-! ## The trace follows the calls

A registry of traced modules is, without the trace, a registry that follows the calls. So what is
known of the stage and of who is enrolled can be used here, and what is left is to compare the
entries that one call writes with the hooks that it makes due. -/

/-- The traced modules write under their own kinds, and have written the hooks that the calls ask
for. -/
structure Registry.Wrote (registry : Registry (σ × List (Hook × ι)) ι (Traced ι μ))
    (calls : List (HostCall κ σ ι μ)) : Prop where
  /-- Each module writes under the kind that it is registered under. -/
  labels : ∀ entry ∈ registry.modules.entries, entry.2.key = entry.1
  /-- What was written is what the calls ask for. -/
  trace : registry.shared.2 = expectedHooks calls

namespace Registry.Wrote

variable {registry : Registry (σ × List (Hook × ι)) ι (Traced ι μ)} {call : HostCall κ σ ι μ}

/-- A module that is put under its own kind. -/
theorem labels_put {modules : OrderedMap ι (Traced ι μ)}
    (h : ∀ entry ∈ modules.entries, entry.2.key = entry.1) {key : ι} {traced : Traced ι μ}
    (hkey : traced.key = key) :
    ∀ entry ∈ (modules.put key traced).entries, entry.2.key = entry.1 := by
  -- the entry is the one put, or one that was there
  rintro ⟨other, value⟩ hentry
  rw [← OrderedMap.get?_eq_some_iff, OrderedMap.get?_put] at hentry
  split at hentry
  · next hother =>
    cases hentry
    exact hkey.trans hother.symm
  · exact h (other, value) (OrderedMap.get?_eq_some_iff.mp hentry)

/-- After a call that runs no hook. -/
theorem of_quiet {after : Registry (σ × List (Hook × ι)) ι (Traced ι μ)}
    (h : registry.Wrote calls) (hdue : hooksDue calls call = [])
    (hlabels : ∀ entry ∈ after.modules.entries, entry.2.key = entry.1)
    (hshared : after.shared.2 = registry.shared.2) : after.Wrote (calls ++ [call]) where
  labels := hlabels
  trace := by rw [hshared, h.trace, expectedHooks_concat, hdue, List.append_nil]

/-- After a call that runs a hook on all modules. -/
theorem of_swept {after : Registry (σ × List (Hook × ι)) ι (Traced ι μ)}
    {hook : ι → Traced ι μ → σ × List (Hook × ι) →
      Except String Unit × Traced ι μ × σ × List (Hook × ι)}
    {written : ι → Traced ι μ → List (Hook × ι)} {failures : List HookFailure}
    (h : registry.Wrote calls) (hswept : registry.SweptTo after hook failures)
    (hkeeps : ∀ key traced shared, (hook key traced shared).2.1.key = traced.key)
    (hwrites : ∀ key traced shared,
      (hook key traced shared).2.2.2 = shared.2 ++ written key traced)
    (hdue : (registry.modules.entries.flatMap fun entry => written entry.1 entry.2) =
      hooksDue calls call) :
    after.Wrote (calls ++ [call]) where
  labels := hswept.sweeps.labels hkeeps h.labels
  trace := by rw [hswept.sweeps.trace hwrites, h.trace, hdue, expectedHooks_concat]

/-- One entry from each module. -/
theorem entries_eq (h : registry.Wrote calls) (hook : Hook) :
    (registry.modules.entries.flatMap fun entry => [(hook, entry.2.key)]) =
      registry.modules.keys.map (hook, ·) := by
  rw [← List.map_eq_flatMap, OrderedMap.keys, List.map_map]
  -- a module writes under the kind of its entry
  exact List.map_congr_left fun entry hentry => by rw [h.labels entry hentry]; rfl

/-- One entry from each module of some kinds. -/
theorem entries_filter_eq (h : registry.Wrote calls) (hook : Hook) (heard : List ι) :
    (registry.modules.entries.flatMap fun entry =>
        if entry.1 ∈ heard then [(hook, entry.2.key)] else []) =
      (registry.modules.keys.filter (· ∈ heard)).map (hook, ·) := by
  have hlabels := h.labels
  rw [OrderedMap.keys]
  generalize registry.modules.entries = entries at hlabels
  induction entries with
  | nil => rfl
  | cons entry rest ih =>
    obtain ⟨hfirst, hrest⟩ := List.forall_mem_cons.mp hlabels
    rw [List.flatMap_cons, List.map_cons, List.filter_cons, ih hrest, hfirst]
    by_cases hkey : entry.1 ∈ heard <;> simp [hkey]

/-- A registration runs no hook. The module that it puts writes under its own kind. -/
theorem after_register (h : registry.Wrote calls) (key : ι) (member : μ) :
    (registry.register key ⟨key, member⟩).2.Wrote (calls ++ [.register key member]) := by
  have hdue : hooksDue calls (.register key member) = [] := by
    simp [hooksDue, HostCall.notice?, HostCall.tellsBatch]
  simp only [register]
  split
  · exact h.of_quiet hdue h.labels rfl
  · split
    · exact h.of_quiet hdue h.labels rfl
    · exact h.of_quiet hdue (labels_put h.labels rfl) rfl

/-- A change of a module runs no hook. What it is traced under stays. -/
theorem after_modify (h : registry.Wrote calls) (key : ι) (change : μ → μ) :
    (registry.modify key fun traced => { traced with member := change traced.member }).2.Wrote
      (calls ++ [.modify key change]) := by
  have hdue : hooksDue calls (.modify key change) = [] := by
    simp [hooksDue, HostCall.notice?, HostCall.tellsBatch]
  simp only [modify]
  cases hget : registry.modules.get? key with
  | none => exact h.of_quiet hdue h.labels rfl
  | some traced =>
    have hkey : traced.key = key := h.labels (key, traced) (OrderedMap.get?_eq_some_iff.mp hget)
    exact h.of_quiet hdue (labels_put h.labels hkey) rfl

/-- A notification that is news is written by all modules, any other by none. -/
theorem after_notify (h : registry.Wrote calls) (htracks : registry.untraced.Tracks calls)
    {phase : Phase} (hnotice : call.notice? = some phase) :
    (registry.notify phase).2.Wrote (calls ++ [call]) := by
  have hdue : hooksDue calls call =
      if isNews calls phase then (enrolledKeys calls).map (phase.hook, ·) else [] := by
    rw [hooksDue, hnotice]
  -- whether a notification is news is seen from the stage, with the trace or without it
  have hmoves : isNews calls phase = true ↔ registry.stage.notified phase ≠ registry.stage := by
    rw [isNews_iff, ← htracks.stage]
    rfl
  by_cases hnews : isNews calls phase = true
  · rw [notify_of_moved (hmoves.mp hnews)]
    obtain ⟨failures, hswept, -⟩ :=
      sweep_swept { registry with stage := registry.stage.notified phase } phase
    -- moving the stage writes nothing; the sweep does
    have hbefore : { registry with stage := registry.stage.notified phase }.Wrote calls :=
      ⟨h.labels, h.trace⟩
    refine hbefore.of_swept hswept (fun key traced shared => by rw [hookOf_traced])
      (fun key traced shared => by rw [hookOf_traced]) ?_
    rw [hdue, if_pos hnews, ← htracks.keys, keys_untraced]
    exact h.entries_eq phase.hook
  · obtain ⟨log, heq⟩ := notify_of_stale (not_not.mp (mt hmoves.mpr hnews))
    rw [heq]
    exact h.of_quiet (by rw [hdue, if_neg hnews]) h.labels rfl

/-- A batch is written by the listeners if the instance lives, and by nobody if not. -/
theorem after_tellBatch (h : registry.Wrote calls) (htracks : registry.untraced.Tracks calls)
    (hbatch : call.tellsBatch = true) : registry.tellBatch.Wrote (calls ++ [call]) := by
  have hnotice : call.notice? = none := by
    cases call <;> first | rfl | cases hbatch
  have hdue : hooksDue calls call =
      if isLive calls then (listenerKeys calls).map (Hook.batchComplete, ·) else [] := by
    rw [hooksDue, hnotice, hbatch, Bool.and_true]
  have hlive : registry.stage = .initialized ↔ isLive calls = true := htracks.live_iff
  by_cases hstage : registry.stage = .initialized
  · have horder : registry.listeners =
        registry.modules.keys.filter (· ∈ registry.listeners) := by
      rw [← keys_untraced]
      exact htracks.listeners_order
    refine h.of_swept (tellBatch_swept hstage horder)
      (fun key traced shared => by rw [hookForBatch_traced])
      (fun key traced shared => by rw [hookForBatch_traced]) ?_
    rw [hdue, if_pos (hlive.mp hstage), ← htracks.listeners]
    show _ = registry.listeners.map _
    -- the listeners are in the order of the modules, and so the entries come in their order
    conv_rhs => rw [horder]
    exact h.entries_filter_eq .batchComplete _
  · obtain ⟨log, heq⟩ := tellBatch_of_not_live hstage
    rw [heq]
    exact h.of_quiet (by rw [hdue, if_neg (mt hlive.mpr hstage)]) h.labels rfl

/-- The trace follows every call. -/
theorem after_step (h : registry.Wrote calls) (htracks : registry.untraced.Tracks calls)
    (call : HostCall κ σ ι μ) : (call.traced.onModules registry).Wrote (calls ++ [call]) := by
  cases call with
  | register key member => exact h.after_register key member
  | notifyStart => exact h.after_notify htracks rfl
  | start => exact h.after_notify htracks rfl
  | notifyStop => exact h.after_notify htracks rfl
  | stop => exact h.after_notify htracks rfl
  | notifyBatch => exact h.after_tellBatch htracks rfl
  | completeBatch engine => exact h.after_tellBatch htracks rfl
  | modify key change => exact h.after_modify key change
  | useShared change =>
    refine h.of_quiet ?_ h.labels rfl
    simp [hooksDue, HostCall.notice?, HostCall.tellsBatch]
  | useUi change =>
    refine h.of_quiet ?_ h.labels rfl
    simp [hooksDue, HostCall.notice?, HostCall.tellsBatch]

/-- Without modules nothing is written. -/
theorem fresh (shared : σ) : ({ shared := (shared, []) } :
    Registry (σ × List (Hook × ι)) ι (Traced ι μ)).Wrote ([] : List (HostCall κ σ ι μ)) :=
  ⟨List.forall_mem_nil _, rfl⟩

end Registry.Wrote

/-! ## Instances

The run lemmas, by induction on the calls from the end, and the main result, which reads them after
any number of calls and before any next one. -/

variable [Coordinate κ]

/-- An instance without modules, which share some state. -/
def App.fresh (ui : Ui κ) (shared : σ) : App κ σ ι μ := ⟨ui, { shared }⟩

/-- An instance without modules, on which traced modules can be registered. -/
def App.freshTraced (ui : Ui κ) (shared : σ) : App κ (σ × List (Hook × ι)) ι (Traced ι μ) :=
  .fresh ui (shared, [])

/-- The modules of an instance stand where the calls made on it lead. -/
theorem App.tracks_after (ui : Ui κ) (shared : σ) (calls : List (HostCall κ σ ι μ)) :
    ((App.fresh ui shared).after calls).modules.Tracks calls := by
  induction calls using List.reverseRecOn with
  | nil => exact .fresh shared
  | append_singleton calls call ih =>
    rw [after, List.foldl_append]
    change (App.step _ call).2.modules.Tracks _
    rw [App.modules_step]
    exact ih.after_step call

/-- A run with traced modules is, without the trace, the run with the modules themselves. -/
theorem App.untraced_freshTraced (ui : Ui κ) (shared : σ) (calls : List (HostCall κ σ ι μ)) :
    ((App.freshTraced ui shared).after (calls.map HostCall.traced)).untraced =
      (App.fresh ui shared).after calls :=
  App.untraced_after calls (App.freshTraced ui shared)

/-- What traced modules write in a run. -/
theorem App.wrote_after (ui : Ui κ) (shared : σ) (calls : List (HostCall κ σ ι μ)) :
    ((App.freshTraced ui shared).after (calls.map HostCall.traced)).modules.Wrote calls := by
  induction calls using List.reverseRecOn with
  | nil => exact .fresh shared
  | append_singleton calls call ih =>
    have htracks := App.tracks_after ui shared calls
    -- the registry follows the calls, and is the same without the trace
    rw [← App.untraced_freshTraced] at htracks
    rw [List.map_append, after, List.foldl_append]
    change (App.step _ call.traced).2.modules.Wrote _
    rw [App.modules_step]
    exact ih.after_step htracks call

/-- A notification is answered by the registry. -/
theorem App.reply_of_notice (app : App κ σ ι μ) {call : HostCall κ σ ι μ} {phase : Phase}
    (h : call.notice? = some phase) :
    (app.step call).1 = .modules (app.modules.notify phase).1 ∧
      (app.step call).2.modules = (app.modules.notify phase).2 := by
  cases call <;> cases h <;> exact ⟨rfl, rfl⟩

/-- A batch, complete in whatever way, is told to the modules. -/
theorem App.modules_of_batch (app : App κ σ ι μ) {call : HostCall κ σ ι μ}
    (h : call.tellsBatch = true) : (app.step call).2.modules = app.modules.tellBatch := by
  rw [App.modules_step]
  cases call <;> first | rfl | cases h

/-- The hooks of modules follow the life of the instance, whatever modules and passes fail.

The trace that the modules write is one sweep of starts over the modules, one sweep over the
listeners for each batch that the instance lives to see, and one sweep of stops; writing it changes
nothing else. Modules are registered before the first notification only, one of each kind. A sweep
runs the hook of every module, one after the other, on the state that they share, and reports those
that fail. A batch is told however its pass ended, and is answered by the report of the pass. -/
theorem App.hooks_follow_life (ui : Ui κ) (shared : σ) (calls : List (HostCall κ σ ι μ)) :
    let app := (App.fresh ui shared).after calls
    let traced := (App.freshTraced ui shared).after (calls.map HostCall.traced)
    (traced.untraced = app ∧
      traced.modules.shared.2 =
        (if firstNotice? calls = some .start then (enrolledKeys calls).map (Hook.start, ·)
          else []) ++
        (List.replicate (batchesHeard calls)
          ((listenerKeys calls).map (Hook.batchComplete, ·))).flatten ++
        (if isStopped calls then (enrolledKeys calls).map (Hook.stop, ·) else []) ∧
      (firstNotice? calls = some .stop → batchesHeard calls = 0)) ∧
    (app.modules.modules.keys = enrolledKeys calls ∧ (enrolledKeys calls).Nodup ∧
      ∀ key member, (app.step (.register key member)).1 = .modules
        (if (firstNotice? calls).isSome then .error (.late (NativeModule.name member))
        else if key ∈ enrolledKeys calls then .error (.duplicate (NativeModule.name member))
        else .ok ())) ∧
    (∀ call phase, call.notice? = some phase →
      let after := (app.step call).2.modules
      if isNews calls phase then ∃ failures,
        Sweeps (hookOf phase) app.modules.modules.entries app.modules.shared after.modules.entries
          after.shared failures ∧
        (app.step call).1 = .modules
          (if failures = [] then .ok () else .error (.hooksFailed phase failures))
      else after.modules = app.modules.modules ∧ after.shared = app.modules.shared ∧
        (app.step call).1 = .modules (.ok ())) ∧
    (∀ call, call.tellsBatch = true →
      let after := (app.step call).2.modules
      if isLive calls then Sweeps (hookForBatch (listenerKeys calls)) app.modules.modules.entries
        app.modules.shared after.modules.entries after.shared []
      else after.modules = app.modules.modules ∧ after.shared = app.modules.shared) ∧
    ∀ engine, (app.step (.completeBatch engine)).1 =
      .pass (app.ui.layOutAndRunPass engine).1 := by
  intro app traced
  have htracks : app.modules.Tracks calls := App.tracks_after ui shared calls
  have hwrote : traced.modules.Wrote calls := App.wrote_after ui shared calls
  refine ⟨⟨App.untraced_freshTraced ui shared calls, hwrote.trace, fun hstop => ?_⟩,
    ⟨htracks.keys, ?_, fun key member => ?_⟩, fun call phase hnotice => ?_,
    fun call hbatch => ?_, fun engine => ?_⟩
  · exact batchesHeard_of_not_started calls (by rw [hstop]; exact nofun)
  · rw [← htracks.keys]
    exact app.modules.modules.nodup
  -- the answer to one more registration, after all calls
  · obtain ⟨log, heq⟩ := htracks.register_eq key member
    have hreply : (app.step (.register key member)).1 =
        .modules (app.modules.register key member).1 := rfl
    rw [hreply, heq, apply_ite Prod.fst, apply_ite Prod.fst]
  -- a notification after all calls, of the start or of the stop, directly or through the instance
  · obtain ⟨hreply, hmodules⟩ := app.reply_of_notice hnotice
    rw [hreply, hmodules]
    have hspec := htracks.notify_spec phase
    split at hspec
    · next hnews =>
      obtain ⟨failures, hsweeps, hanswer⟩ := hspec
      rw [if_pos hnews]
      exact ⟨failures, hsweeps, congrArg _ hanswer⟩
    · next hold =>
      obtain ⟨hsame, hshared, hanswer⟩ := hspec
      rw [if_neg hold]
      exact ⟨hsame, hshared, congrArg _ hanswer⟩
  -- a batch after all calls, complete in one way or the other
  · rw [app.modules_of_batch hbatch]
    exact htracks.tellBatch_spec
  · obtain ⟨log, heq⟩ := app.completeBatch_spec engine
    exact congrArg (HostReply.pass ·.1) heq

/-- Two modules, one of which hears of batches and one of which cannot start, live through a batch
that could not be laid out. -/
def troubledLife : List (HostCall Float32 (List String) Nat PlainModule) :=
  [.register 0 { name := "clock", hearsBatches := true, stopFailure := some "stuck" },
    .register 1 { name := "audio", startFailure := some "no device" },
    .register 0 { name := "clock" }, .notifyBatch, .start, .start,
    .completeBatch fun root => throw (.missing root)]

/-- Both modules start, in order, the clock hears of the batch, and of the two that are stopped the
clock is reported. -/
theorem App.hooks_follow_life_troubled :
    let ui : Ui Float32 := { scene := Sample.scene 1 {} }
    let app := (App.fresh ui []).after troubledLife
    let traced := (App.freshTraced ui []).after (troubledLife.map HostCall.traced)
    traced.modules.shared.2 = [(.start, 0), (.start, 1), (.batchComplete, 0)] ∧
    app.modules.shared = ["init:clock", "init:audio", "batch:clock"] ∧
    (∃ failures, Sweeps (hookOf .stop) app.modules.modules.entries app.modules.shared
        (app.step .stop).2.modules.modules.entries (app.step .stop).2.modules.shared failures ∧
      (app.step .stop).1 = .modules
        (if failures = [] then .ok () else .error (.hooksFailed .stop failures))) ∧
    (app.step .stop).1 = .modules (.error (.hooksFailed .stop [⟨"clock", "stuck"⟩])) ∧
    Sweeps (hookForBatch [0]) app.modules.modules.entries app.modules.shared
      (app.step .notifyBatch).2.modules.modules.entries
      (app.step .notifyBatch).2.modules.shared [] := by
  obtain ⟨⟨-, htrace, -⟩, -, hnotices, hbatches, -⟩ :=
    App.hooks_follow_life { scene := Sample.scene 1 {} } [] troubledLife
  refine ⟨htrace.trans (by decide +kernel), by decide +kernel, ?_, rfl, ?_⟩
  · have hstop := hnotices .stop .stop rfl
    rw [if_pos (by decide +kernel)] at hstop
    exact hstop
  · have hlisteners : listenerKeys troubledLife = [0] := by decide +kernel
    have hbatch := hbatches .notifyBatch rfl
    rw [if_pos (by decide +kernel), hlisteners] at hbatch
    exact hbatch

end Tracking

end ShadowMount
