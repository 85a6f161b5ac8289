import Mathlib.Data.List.Basic
import Mathlib.Data.List.Induction
import Mathlib.Data.List.TakeWhile
import ShadowMount.App

/-!
# What a host asks of native modules

A host makes one call after the other on a running instance and on its modules: it registers
modules, notifies of the start, of the stop and of batches, directly or through the instance, and
in between changes modules, what they share, and the user interface at will.

What the calls ask for is read off from their list alone, without a registry: which modules are
enrolled, whether the instance starts and stops, which batches it lives to see. For each of these
there is a lemma that says what one more call adds.

* **`App.step`**, **`App.after`** — the instance under its host.
* **`enrolled`**, **`batchesHeard`**, **`expectedHooks`** — what a list of calls asks for.
* **`expectedHooks_concat`** — a call adds the hooks that it makes due (`hooksDue`).
-/

namespace ShadowMount

variable {κ σ ι μ : Type}

/-- A call on a running instance or on its modules. -/
inductive HostCall (κ σ ι μ : Type) where
  /-- Register a module of a kind. -/
  | register (key : ι) (member : μ)
  /-- Tell the registry that the instance has started. -/
  | notifyStart
  /-- Tell the registry that the instance is going away. -/
  | notifyStop
  /-- Tell the registry that a batch is complete. -/
  | notifyBatch
  /-- Start the instance. -/
  | start
  /-- Stop the instance. -/
  | stop
  /-- Complete a batch, laid out by an engine. -/
  | completeBatch (engine : LayoutEngine κ)
  /-- Change the module of a kind. -/
  | modify (key : ι) (change : μ → μ)
  /-- Do anything to what the modules share. -/
  | useShared (change : σ → σ)
  /-- Do anything to the user interface. -/
  | useUi (change : Ui κ → Ui κ)

/-- What a call is answered. -/
inductive HostReply (κ ι : Type) where
  /-- No answer. -/
  | quiet
  /-- What the registry answers. -/
  | modules (result : Except (ModuleError ι) Unit)
  /-- The report of a pass. -/
  | pass (report : PassReport κ)

namespace HostCall

/-- The notification that a call makes, if it makes one. -/
def notice? : HostCall κ σ ι μ → Option Phase
  | notifyStart | start => some .start
  | notifyStop | stop => some .stop
  | _ => none

/-- Whether a call completes a batch. -/
def tellsBatch : HostCall κ σ ι μ → Bool
  | notifyBatch | completeBatch _ => true
  | _ => false

/-- The module that a call offers for registration. -/
def candidate? : HostCall κ σ ι μ → Option (ι × μ)
  | register key member => some (key, member)
  | _ => none

end HostCall

/-! ## The instance under its host

A host makes calls in any order and may do anything in between: change modules, what they share, and
the user interface. All of this is one step function, and a run is a fold over the calls. -/

section Host

variable [Coordinate κ] [NativeModule σ μ] [DecidableEq ι]

/-- Makes a call. -/
def App.step (app : App κ σ ι μ) : HostCall κ σ ι μ → HostReply κ ι × App κ σ ι μ
  | .register key member =>
    let (result, modules) := app.modules.register key member
    (.modules result, { app with modules })
  | .notifyStart =>
    let (result, modules) := app.modules.start
    (.modules result, { app with modules })
  | .notifyStop =>
    let (result, modules) := app.modules.stop
    (.modules result, { app with modules })
  | .notifyBatch => (.quiet, { app with modules := app.modules.tellBatch })
  | .start =>
    let (result, app) := app.start
    (.modules result, app)
  | .stop =>
    let (result, app) := app.stop
    (.modules result, app)
  | .completeBatch engine =>
    let (report, app) := app.completeBatch engine
    (.pass report, app)
  | .modify key change =>
    let (result, modules) := app.modules.modify key change
    (.modules result, { app with modules })
  | .useShared change =>
    (.quiet, { app with modules := { app.modules with shared := change app.modules.shared } })
  | .useUi change => (.quiet, { app with ui := change app.ui })

/-- An instance after some calls. -/
def App.after (app : App κ σ ι μ) (calls : List (HostCall κ σ ι μ)) : App κ σ ι μ :=
  calls.foldl (fun app call => (app.step call).2) app

end Host

/-- A hook of a module. -/
inductive Hook where
  /-- At the start of the instance. -/
  | start
  /-- At its end. -/
  | stop
  /-- When a batch is complete. -/
  | batchComplete
  deriving DecidableEq

/-- The hook that a phase runs. -/
def Phase.hook : Phase → Hook
  | start => .start
  | stop => .stop

/-! ## What calls ask for

Read off from the list of calls alone. The registry has no part in these definitions, so what is
proved of it against them is not circular. -/

section Wishes

variable (calls : List (HostCall κ σ ι μ))

/-- The first notification. -/
def firstNotice? : Option Phase := calls.findSome? HostCall.notice?

/-- Whether the instance was stopped. -/
def isStopped : Bool := calls.any (·.notice? == some .stop)

/-- The calls before the first notification. -/
def opening : List (HostCall κ σ ι μ) := calls.takeWhile (·.notice?.isNone)

/-- Whether the instance lives: the first notification was a start, and no stop has come since. -/
def isLive : Bool := firstNotice? calls == some .start && !isStopped calls

/-- The number of batches that the instance lives to see in `calls`, which come after `before`. -/
def batchesHeardAfter (before : List (HostCall κ σ ι μ)) : List (HostCall κ σ ι μ) → Nat
  | [] => 0
  | call :: rest =>
    (isLive before && call.tellsBatch).toNat + batchesHeardAfter (before ++ [call]) rest

/-- The number of batches that the instance lives to see. -/
def batchesHeard : Nat := batchesHeardAfter [] calls

variable [DecidableEq ι]

/-- Adds a module, unless there is one of its kind. -/
def enroll (roll : List (ι × μ)) (entry : ι × μ) : List (ι × μ) :=
  if entry.1 ∈ roll.map Prod.fst then roll else roll ++ [entry]

/-- The modules offered before the first notification, the first of each kind, in order. -/
def enrolled : List (ι × μ) := ((opening calls).filterMap HostCall.candidate?).foldl enroll []

/-- The kinds of the enrolled modules. -/
def enrolledKeys : List ι := (enrolled calls).map Prod.fst

variable [NativeModule σ μ]

/-- The kinds of the enrolled modules that wanted to hear about batches when they were
registered. -/
def listenerKeys : List ι :=
  ((enrolled calls).filter fun entry => NativeModule.hearsBatches entry.2).map Prod.fst

/-- The hooks that calls ask for: the starts, the batches, the stops. -/
def expectedHooks : List (Hook × ι) :=
  (if firstNotice? calls = some .start then (enrolledKeys calls).map (Hook.start, ·) else []) ++
    (List.replicate (batchesHeard calls)
      ((listenerKeys calls).map (Hook.batchComplete, ·))).flatten ++
    if isStopped calls then (enrolledKeys calls).map (Hook.stop, ·) else []

end Wishes

/-- The stage that calls lead to. -/
def stageAfter (calls : List (HostCall κ σ ι μ)) : Stage :=
  if isStopped calls then .destroyed
  else if (firstNotice? calls).isSome then .initialized
  else .registered

/-- What a notification makes of a stage. -/
def Stage.notified : Stage → Phase → Stage
  | registered, .start => initialized
  | stage, .start => stage
  | _, .stop => destroyed

section Concat

variable (calls : List (HostCall κ σ ι μ)) (call : HostCall κ σ ι μ)

/-- The first notification stays the first. -/
theorem firstNotice?_concat :
    firstNotice? (calls ++ [call]) = (firstNotice? calls).or call.notice? := by
  rw [firstNotice?, List.findSome?_append, List.findSome?_singleton]
  rfl

/-- What was stopped stays stopped. -/
theorem isStopped_concat :
    isStopped (calls ++ [call]) = (isStopped calls || call.notice? == some .stop) := by
  simp [isStopped]

/-- There was no notification when no call was one. -/
theorem firstNotice?_eq_none_iff :
    firstNotice? calls = none ↔ ∀ c ∈ calls, c.notice?.isNone = true := by
  simp [firstNotice?]

/-- An instance that was stopped was notified. -/
theorem firstNotice?_isSome_of_isStopped (h : isStopped calls = true) :
    (firstNotice? calls).isSome = true := by
  obtain ⟨c, hmem, hstop⟩ := List.any_eq_true.mp h
  rw [beq_iff_eq] at hstop
  exact List.findSome?_isSome_iff.mpr ⟨c, hmem, by rw [hstop]; rfl⟩

/-- A notification that is not a stop is a start. -/
theorem firstNotice?_of_not_isStopped (h : isStopped calls = false) :
    firstNotice? calls = none ∨ firstNotice? calls = some .start := by
  cases hnotice : firstNotice? calls with
  | none => exact .inl rfl
  | some phase =>
    obtain ⟨c, hmem, hc⟩ := List.exists_of_findSome?_eq_some hnotice
    cases phase with
    | start => exact .inr rfl
    | stop =>
      have hstop : isStopped calls = true := List.any_eq_true.mpr ⟨c, hmem, by simp [hc]⟩
      rw [h] at hstop
      cases hstop

/-- Modules may be registered as long as there was no notification. -/
theorem stageAfter_eq_registered_iff :
    stageAfter calls = .registered ↔ firstNotice? calls = none := by
  have hstopped := firstNotice?_isSome_of_isStopped calls
  rw [stageAfter]
  cases hnotice : firstNotice? calls <;> cases hstop : isStopped calls <;> simp_all

/-- The instance is initialized while it lives. -/
theorem stageAfter_eq_initialized_iff : stageAfter calls = .initialized ↔ isLive calls = true := by
  have hnotice := firstNotice?_of_not_isStopped calls
  rw [stageAfter, isLive]
  cases hstop : isStopped calls with
  | true => simp
  | false => rcases hnotice hstop with hnotice | hnotice <;> simp [hnotice]

/-- The instance is destroyed once it is stopped. -/
theorem stageAfter_eq_destroyed_iff : stageAfter calls = .destroyed ↔ isStopped calls = true := by
  rw [stageAfter]
  cases isStopped calls <;> cases firstNotice? calls <;> simp

/-- Without a notification there was no stop. -/
theorem isStopped_of_unnotified (h : firstNotice? calls = none) : isStopped calls = false := by
  rw [← Bool.not_eq_true, ← stageAfter_eq_destroyed_iff, (stageAfter_eq_registered_iff calls).mpr h]
  exact nofun

/-- What a call makes of the stage. -/
theorem stageAfter_concat : stageAfter (calls ++ [call]) =
    call.notice?.elim (stageAfter calls) (stageAfter calls).notified := by
  have hstopped := firstNotice?_isSome_of_isStopped calls
  simp only [stageAfter, isStopped_concat, firstNotice?_concat]
  generalize isStopped calls = stopped at hstopped ⊢
  generalize firstNotice? calls = notice at hstopped ⊢
  -- all cases of what the call notifies of, what came first and whether there was a stop
  rcases call.notice? with _ | _ | _ <;> cases notice <;> cases stopped <;>
    simp_all [Stage.notified]

/-- Whether the last batch is heard is decided by all the calls before it. -/
theorem batchesHeardAfter_concat : ∀ (before calls : List (HostCall κ σ ι μ)),
    batchesHeardAfter before (calls ++ [call]) = batchesHeardAfter before calls +
      (isLive (before ++ calls) && call.tellsBatch).toNat
  | before, [] => by simp [batchesHeardAfter]
  | before, first :: rest => by
    simp [batchesHeardAfter, batchesHeardAfter_concat, Nat.add_assoc]

/-- The last call adds a batch if it completes one while the instance lives. -/
theorem batchesHeard_concat : batchesHeard (calls ++ [call]) =
    batchesHeard calls + (isLive calls && call.tellsBatch).toNat :=
  batchesHeardAfter_concat call [] calls

/-- An instance hears of no batch unless it was started, and not stopped before. -/
theorem batchesHeard_of_not_started (h : firstNotice? calls ≠ some .start) :
    batchesHeard calls = 0 := by
  induction calls using List.reverseRecOn with
  | nil => rfl
  | append_singleton calls call ih =>
    have hearlier : firstNotice? calls ≠ some .start := by
      intro hstart
      rw [firstNotice?_concat, hstart] at h
      exact h rfl
    rw [batchesHeard_concat, ih hearlier, isLive, beq_eq_false_iff_ne.mpr hearlier]
    rfl

/-- A call that comes after the first notification enrols nobody. -/
theorem enrolled_concat [DecidableEq ι] : enrolled (calls ++ [call]) =
    if firstNotice? calls = none then call.candidate?.toList.foldl enroll (enrolled calls)
    else enrolled calls := by
  split
  · next hnone =>
    -- no call so far was a notification, so the opening goes on with this one
    have hquiet := (firstNotice?_eq_none_iff calls).mp hnone
    have hself : opening calls = calls := List.takeWhile_eq_self_iff.mpr hquiet
    have hlast : (List.takeWhile (·.notice?.isNone) [call]).filterMap HostCall.candidate? =
        call.candidate?.toList := by
      cases call <;> rfl
    rw [enrolled, opening, List.takeWhile_append_of_pos hquiet, List.filterMap_append, hlast,
      List.foldl_append, enrolled, hself]
  · next hsome =>
    -- the opening has ended before, and stays as it is
    have hsame : opening (calls ++ [call]) = opening calls := by
      rw [opening, List.takeWhile_append, if_neg]
      · rfl
      · intro hlength
        have hself := (List.takeWhile_prefix _).sublist.eq_of_length hlength
        exact hsome ((firstNotice?_eq_none_iff calls).mpr (List.takeWhile_eq_self_iff.mp hself))
    rw [enrolled, hsame]
    rfl

/-- A module offered before the first notification is enrolled unless there is one of its kind. -/
theorem enrolled_concat_register [DecidableEq ι] (h : firstNotice? calls = none) (key : ι)
    (member : μ) : enrolled (calls ++ [.register key member]) =
      if key ∈ enrolledKeys calls then enrolled calls else enrolled calls ++ [(key, member)] := by
  rw [enrolled_concat, if_pos h]
  rfl

/-- A call that offers no module enrols nobody. -/
theorem enrolled_concat_of_no_candidate [DecidableEq ι] (h : call.candidate? = none) :
    enrolled (calls ++ [call]) = enrolled calls := by
  rw [enrolled_concat, h]
  split <;> rfl

end Concat

/-! ## Hooks that a call adds

The expected hooks are given by three stretches: starts, batches, stops. A call at the end of the
list adds to one of them, and since the stretches after it are still empty at that time, what it
adds stands at the end of the whole. -/

/-- Whether a notification would be news: a start as long as there was none, a stop as long as there
was no stop. -/
def isNews (calls : List (HostCall κ σ ι μ)) : Phase → Bool
  | .start => (firstNotice? calls).isNone
  | .stop => !isStopped calls

/-- A notification is news if it moves the stage. -/
theorem isNews_iff (calls : List (HostCall κ σ ι μ)) (phase : Phase) :
    isNews calls phase = true ↔ (stageAfter calls).notified phase ≠ stageAfter calls := by
  cases phase with
  | start =>
    rw [isNews, Option.isNone_iff_eq_none, ← stageAfter_eq_registered_iff]
    cases stageAfter calls <;> simp [Stage.notified]
  | stop =>
    rw [isNews, Bool.not_eq_true', ← Bool.not_eq_true, ← stageAfter_eq_destroyed_iff]
    cases stageAfter calls <;> simp [Stage.notified]

section Due

variable [NativeModule σ μ] [DecidableEq ι]
  (calls : List (HostCall κ σ ι μ)) (call : HostCall κ σ ι μ)

/-- The hooks that a call has called, after others. -/
def hooksDue : List (Hook × ι) :=
  match call.notice? with
  | some phase => if isNews calls phase then (enrolledKeys calls).map (phase.hook, ·) else []
  | none =>
    if isLive calls && call.tellsBatch then (listenerKeys calls).map (Hook.batchComplete, ·)
    else []

variable {calls call}

/-- Before the first notification no hook is expected. -/
theorem expectedHooks_of_unnotified (h : firstNotice? calls = none) : expectedHooks calls = [] := by
  have hheard := batchesHeard_of_not_started calls (by rw [h]; exact nofun)
  rw [expectedHooks, h, isStopped_of_unnotified calls h, hheard]
  rfl

/-- A call after which the same modules are enrolled adds the hooks that are due. -/
theorem expectedHooks_concat_of_enrolled (hsame : enrolled (calls ++ [call]) = enrolled calls) :
    expectedHooks (calls ++ [call]) = expectedHooks calls ++ hooksDue calls call := by
  rw [expectedHooks, enrolledKeys, listenerKeys, hsame, ← enrolledKeys, ← listenerKeys,
    firstNotice?_concat, isStopped_concat, batchesHeard_concat, hooksDue]
  -- by the kind of the call: a batch adds its hooks behind those of earlier ones, as no stop has
  -- come yet; a start can only come first, a stop only once
  cases hnotice : call.notice? with
  | none =>
    cases hheard : isLive calls && call.tellsBatch with
    | false => simp [expectedHooks]
    | true =>
      have hstop : isStopped calls = false := by
        rw [isLive, Bool.and_eq_true, Bool.and_eq_true, Bool.not_eq_true'] at hheard
        exact hheard.1.2
      simp [expectedHooks, hstop, List.replicate_succ']
  | some phase =>
    have hbatch : call.tellsBatch = false := by
      cases call <;> first | rfl | cases hnotice
    cases phase with
    | start =>
      cases hfirst : firstNotice? calls with
      | none =>
        -- a first start: no batch has been heard before
        have hheard := batchesHeard_of_not_started calls (by rw [hfirst]; exact nofun)
        rw [expectedHooks_of_unnotified hfirst]
        simp [isNews, hfirst, hbatch, hheard, isStopped_of_unnotified calls hfirst, Phase.hook]
      | some first => simp [expectedHooks, isNews, hfirst, hbatch]
    | stop =>
      cases hstop : isStopped calls with
      | false =>
        -- a first stop: the stops come behind everything else
        rcases firstNotice?_of_not_isStopped calls hstop with hfirst | hfirst <;>
          simp [expectedHooks, isNews, hfirst, hbatch, hstop, Phase.hook]
      | true =>
        obtain ⟨first, hfirst⟩ :=
          Option.isSome_iff_exists.mp (firstNotice?_isSome_of_isStopped calls hstop)
        simp [expectedHooks, isNews, hfirst, hbatch, hstop]

/-- A call adds the hooks that are due. -/
theorem expectedHooks_concat :
    expectedHooks (calls ++ [call]) = expectedHooks calls ++ hooksDue calls call := by
  by_cases hcandidate : call.candidate? = none
  · exact expectedHooks_concat_of_enrolled
      (enrolled_concat_of_no_candidate calls call hcandidate)
  · -- A registration: it enrols a module only where no hook is expected yet.
    obtain ⟨hnotice, hbatch⟩ : call.notice? = none ∧ call.tellsBatch = false := by
      cases call <;> first | exact ⟨rfl, rfl⟩ | exact absurd rfl hcandidate
    by_cases hnone : firstNotice? calls = none
    · have hnext : firstNotice? (calls ++ [call]) = none := by
        rw [firstNotice?_concat, hnone, hnotice]
        rfl
      rw [expectedHooks_of_unnotified hnone, expectedHooks_of_unnotified hnext, hooksDue, hnotice,
        hbatch, Bool.and_false]
      rfl
    · exact expectedHooks_concat_of_enrolled (by rw [enrolled_concat, if_neg hnone])

end Due

end ShadowMount
