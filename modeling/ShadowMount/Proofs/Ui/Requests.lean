import Mathlib.Data.List.Induction
import ShadowMount.Proofs.Ui.Journal
import ShadowMount.Proofs.Ui.Session

/-!
# Requests and answers

A run as data: the requests of a host, served one after the other, and what each was answered. A
rule for requests is asked at the state in which each request is made, so that a run keeps to a rule
exactly when it does so up to its last request and there.

* **`Ui.after`**, **`Ui.answers`** — the end of a run and its answers.
* **`Ui.Obeys`** — a run that keeps to a rule; `Ui.Fair` is the rule that engines only set frames
  and that no tag is registered while it waits for its drop.
* **`Ui.exists_history`**, **`Ui.session`** — fair runs as histories and as sessions.
-/

namespace ShadowMount

open Native

variable {κ : Type}

/-- Whether a call goes to the native side. -/
def Delivery.isNative : Delivery κ → Bool
  | execute _ | endBatch => true
  | frameChanged .. | passDone _ => false

/-- What a host asks of a user interface. -/
inductive Request (κ : Type) where
  /-- Perform a command. -/
  | perform (command : Command κ)
  /-- Run a pass. -/
  | pass
  /-- Lay out the roots with an engine, and run a pass. -/
  | layOutAndPass (engine : LayoutEngine κ)

/-- What a request is answered. -/
inductive Answer (κ : Type) where
  /-- A command was performed, with this result. -/
  | done (result : Except UiError Unit)
  /-- A pass was run, with this report. -/
  | passed (report : PassReport κ)

namespace Answer

/-- What was flushed, if anything was. -/
def flush? : Answer κ → Option (Flush κ)
  | done _ => none
  | passed report => report.flush

/-- The calls to the native side and to the listener. -/
def deliveries (answer : Answer κ) : List (Delivery κ) := answer.flush?.elim [] Flush.deliveries

end Answer

/-- What a request has registered, given its answer. -/
def Request.registered : Request κ → Answer κ → Registration
  | perform command, .done (.ok _) => command.registration
  | _, _ => .none

/-- An engine, if the request has one, only sets frames. -/
def Request.FramesOnly : Request κ → Prop
  | layOutAndPass engine => engine.FramesOnly
  | perform _ | pass => True

namespace Registration

/-- The root to be registered. -/
def root? : Registration → Option Tag
  | root tag => some tag
  | none | node _ => .none

/-- Roots are registered once each, all of them roots of the platform, whose tags no other node
takes. -/
structure Rooted (platform : List Tag) (registrations : List Registration) : Prop where
  /-- No root is registered twice. -/
  once : (registrations.filterMap root?).Nodup
  /-- A root that is registered has its view from the platform. -/
  roots : ∀ {tag}, .root tag ∈ registrations → tag ∈ platform
  /-- The tags of the platform are not taken for other nodes. -/
  nodes : ∀ {tag}, .node tag ∈ registrations → tag ∉ platform

variable {platform : List Tag} {registrations : List Registration}

/-- The roots among the registrations. -/
theorem mem_filterMap_root? {tag : Tag} :
    tag ∈ registrations.filterMap root? ↔ .root tag ∈ registrations := by
  rw [List.mem_filterMap]
  refine ⟨fun ⟨registration, hmem, hroot⟩ => ?_, fun hmem => ⟨_, hmem, rfl⟩⟩
  cases registration with
  | none => cases hroot
  | node => cases hroot
  | root => exact Option.some.inj hroot ▸ hmem

/-- The roots registered so far are the roots among the registrations. -/
theorem mem_foldl_extend {tag : Tag} : ∀ {registrations : List Registration} {past : List Tag},
    tag ∈ registrations.foldl extend past ↔ tag ∈ past ∨ .root tag ∈ registrations
  | [], past => by simp
  | registration :: rest, past => by
    rw [List.foldl_cons, mem_foldl_extend, List.mem_cons]
    cases registration with
    | none => simp [extend]
    | node => simp [extend]
    | root other => simp [extend, or_assoc, or_left_comm]

/-- An earlier part of a run registers as is expected, too. -/
theorem Rooted.of_concat {registration : Registration}
    (h : Rooted platform (registrations ++ [registration])) : Rooted platform registrations where
  once := by
    have honce := h.once
    rw [List.filterMap_append] at honce
    exact honce.of_append_left
  roots := fun hmem => h.roots (List.mem_append_left _ hmem)
  nodes := fun hmem => h.nodes (List.mem_append_left _ hmem)

/-- What is expected of a registration, and a tag that waits for no drop: it is allowed. -/
theorem Expected.allowed {platform past dropping : List Tag} {registration : Registration}
    (h : registration.Expected platform past)
    (hfree : ∀ tag ∈ registration.tag?, tag ∉ dropping) :
    registration.Allowed platform past dropping := by
  cases registration with
  | none => trivial
  | root tag => exact ⟨h.1, h.2, hfree tag rfl⟩
  | node tag => exact ⟨h, hfree tag rfl⟩

/-- The last registration is expected where the run has come to. -/
theorem Rooted.expected {registration : Registration}
    (h : Rooted platform (registrations ++ [registration])) :
    registration.Expected platform (registrations.foldl extend []) := by
  have hlast := List.mem_append_right registrations (List.mem_singleton_self registration)
  cases registration with
  | none => trivial
  | node tag => exact h.nodes hlast
  | root tag =>
    -- a root that was registered in the past would be there twice
    refine ⟨h.roots hlast, fun hpast => ?_⟩
    have honce := h.once
    rw [List.filterMap_append, List.nodup_append] at honce
    rcases mem_foldl_extend.mp hpast with hnil | hmem
    · cases hnil
    · exact honce.2.2 tag (mem_filterMap_root?.mpr hmem) tag (List.mem_singleton_self tag) rfl

end Registration

/-- The native side after the deliveries of some answers. -/
def Native.Hierarchy.follow (h : Hierarchy κ) (answers : List (Answer κ)) : Hierarchy κ :=
  (answers.flatMap Answer.deliveries).foldl receive h

/-- The native side follows the last answer from where it has come to. -/
theorem Native.Hierarchy.follow_concat (h : Hierarchy κ) (answers : List (Answer κ))
    (answer : Answer κ) :
    h.follow (answers ++ [answer]) = answer.deliveries.foldl receive (h.follow answers) := by
  rw [follow, List.flatMap_append, List.foldl_append, List.flatMap_singleton, follow]

/-- A report is followed as it is absorbed. -/
theorem Native.Hierarchy.foldl_deliveries (h : Hierarchy κ) (report : PassReport κ) :
    (Answer.passed report).deliveries.foldl receive h = h.absorb report := by
  rw [Answer.deliveries, Answer.flush?, absorb]
  cases report.flush with
  | none => rfl
  | some flush => rfl

namespace Ui

variable [Coordinate κ]

/-- Serves one request. -/
def serve (ui : Ui κ) : Request κ → Answer κ × Ui κ
  | .perform command => (.done (ui.perform command).1, (ui.perform command).2)
  | .pass => (.passed ui.runPass.1, ui.runPass.2)
  | .layOutAndPass engine =>
    (.passed (ui.layOutAndRunPass engine).1, (ui.layOutAndRunPass engine).2)

/-- The user interface once requests are served. -/
def after (ui : Ui κ) (requests : List (Request κ)) : Ui κ :=
  requests.foldl (fun ui request => (ui.serve request).2) ui

/-- What requests are answered. -/
def answers (ui : Ui κ) : List (Request κ) → List (Answer κ)
  | [] => []
  | request :: rest => (ui.serve request).1 :: (ui.serve request).2.answers rest

/-- What requests register. -/
def registrations (ui : Ui κ) (requests : List (Request κ)) : List Registration :=
  List.zipWith Request.registered requests (ui.answers requests)

/-- Every request keeps to a rule when its turn comes. -/
def Obeys (rule : Ui κ → Request κ → Prop) : Ui κ → List (Request κ) → Prop
  | _, [] => True
  | ui, request :: rest => rule ui request ∧ (ui.serve request).2.Obeys rule rest

/-- Engines only set frames, and no tag is registered while it waits for its drop. -/
structure Fair (ui : Ui κ) (request : Request κ) : Prop where
  /-- The engine, if there is one, does what engines are for. -/
  framesOnly : request.FramesOnly
  /-- The tag that is registered, if the request succeeds, waits for no drop. -/
  free : ∀ tag ∈ (request.registered (ui.serve request).1).tag?, tag ∉ ui.scene.mount.dropTags

/-! Properties of runs are shown by induction on the requests from the end, since a rule is asked in
the state that the earlier requests have led to. The lemmas of this section take the last request
apart from the others. -/

/-! ## The last request of a run -/

variable {ui : Ui κ} {rule : Ui κ → Request κ → Prop} {requests : List (Request κ)}
  {request : Request κ}

/-- The last request is served in the state that the others lead to. -/
theorem after_concat : ui.after (requests ++ [request]) = ((ui.after requests).serve request).2 :=
  List.foldl_concat ..

/-- Every request has its answer. -/
theorem length_answers : ∀ {ui : Ui κ} {requests : List (Request κ)},
    (ui.answers requests).length = requests.length
  | _, [] => rfl
  | _, _ :: _ => congrArg (· + 1) length_answers

/-- The last answer. -/
theorem answers_concat : ∀ {ui : Ui κ} {requests : List (Request κ)},
    ui.answers (requests ++ [request]) =
      ui.answers requests ++ [((ui.after requests).serve request).1]
  | _, [] => rfl
  | _, _ :: _ => congrArg _ answers_concat

/-- The last registration. -/
theorem registrations_concat : ui.registrations (requests ++ [request]) =
    ui.registrations requests ++ [request.registered ((ui.after requests).serve request).1] := by
  rw [registrations, answers_concat, List.zipWith_append length_answers.symm]
  rfl

/-- A run keeps to a rule up to its last request and there. -/
theorem obeys_concat : ∀ {ui : Ui κ} {requests : List (Request κ)},
    ui.Obeys rule (requests ++ [request]) ↔
      ui.Obeys rule requests ∧ rule (ui.after requests) request
  | _, [] => and_comm
  | _, _ :: _ => by
    rw [List.cons_append, Obeys, Obeys, obeys_concat, and_assoc]
    rfl

/-- What a rule says of every next answer holds of all answers of a run that keeps to it. -/
theorem Obeys.forall_answers {P : Answer κ → Prop} (h : ui.Obeys rule requests)
    (hnext : ∀ {requests request}, ui.Obeys rule requests → rule (ui.after requests) request →
      P ((ui.after requests).serve request).1) : ∀ answer ∈ ui.answers requests, P answer := by
  induction requests using List.reverseRecOn with
  | nil => exact nofun
  | append_singleton requests request ih =>
    rw [obeys_concat] at h
    rw [answers_concat]
    exact List.forall_mem_append.mpr ⟨ih h.1, List.forall_mem_singleton.mpr (hnext h.1 h.2)⟩

end Ui

/-! ## Runs as histories and sessions

A fair run has a record, and if its roots are registered as the platform expects, it is a session
with a native side. Both are used to read off what holds of runs that are given as lists of
requests. -/

section Runs

variable [Coordinate κ] {ui : Ui κ} {request : Request κ} {requests : List (Request κ)}
  {managers : Managers} {config : Config} {platform : List Tag}

/-- An answer that flushes is the report of a pass. -/
theorem Ui.passes_of_flush (hframes : request.FramesOnly) {flush : Flush κ}
    (hflush : (ui.serve request).1.flush? = some flush) :
    ∃ report, ui.Passes report (ui.serve request).2 ∧ report.flush = some flush := by
  cases request with
  | perform command => cases hflush
  | pass => exact ⟨_, .plain, hflush⟩
  | layOutAndPass engine => exact ⟨_, .laidOut engine hframes, hflush⟩

/-- A fair request goes into the record. -/
theorem History.serve {record : Record κ} (h : History record ui) (hfair : ui.Fair request) :
    ∃ record', History record' (ui.serve request).2 := by
  cases request with
  | perform command =>
    have hfree := hfair.free
    -- a command is recorded if it succeeds; otherwise it has only been tried
    cases hresult : (ui.perform command).1 with
    | ok _ =>
      simp only [Ui.serve, Request.registered, hresult] at hfree
      exact ⟨_, h.perform command hresult hfree⟩
    | error err => exact ⟨_, h.refuse command hresult⟩
  | pass => exact ⟨_, h.pass .plain⟩
  | layOutAndPass engine => exact ⟨_, h.pass (.laidOut engine hfair.framesOnly)⟩

/-- A fair run has a record. -/
theorem Ui.exists_history (hfair : (Ui.new managers config : Ui κ).Obeys Fair requests) :
    ∃ record, History record ((Ui.new managers config).after requests) := by
  induction requests using List.reverseRecOn with
  | nil => exact ⟨_, .start managers config⟩
  | append_singleton requests request ih =>
    rw [obeys_concat] at hfair
    obtain ⟨record, hhistory⟩ := ih hfair.1
    rw [after_concat]
    exact hhistory.serve hfair.2

/-- A fair request keeps to a session if its registration is allowed. -/
theorem Session.serve {past : List Tag} {native : Hierarchy κ}
    (h : Session platform past ui native) (hframes : request.FramesOnly)
    (hallowed : (request.registered (ui.serve request).1).Allowed platform past
      ui.scene.mount.dropTags) :
    Session platform ((request.registered (ui.serve request).1).extend past)
      (ui.serve request).2 ((ui.serve request).1.deliveries.foldl .receive native) := by
  cases request with
  | perform command =>
    cases hresult : (ui.perform command).1 with
    | ok _ =>
      simp only [Ui.serve, Request.registered, hresult] at hallowed ⊢
      exact h.perform command hresult hallowed
    | error err =>
      simp only [Ui.serve, Request.registered, hresult]
      exact h.refuse command hresult
  | pass =>
    simp only [Ui.serve, Hierarchy.foldl_deliveries]
    exact h.runPass
  | layOutAndPass engine =>
    simp only [Ui.serve, Hierarchy.foldl_deliveries]
    exact h.layOutAndRunPass engine hframes

/-- A fair run is a session if the roots are registered as the platform expects. -/
theorem Ui.session (hfair : (Ui.new managers config : Ui κ).Obeys Fair requests)
    (hrooted : Registration.Rooted platform ((Ui.new managers config).registrations requests)) :
    Session platform
      (((Ui.new managers config).registrations requests).foldl Registration.extend [])
      ((Ui.new managers config).after requests)
      ((Hierarchy.withRoots platform).follow ((Ui.new managers config).answers requests)) := by
  induction requests using List.reverseRecOn with
  | nil => exact .start managers config
  | append_singleton requests request ih =>
    rw [obeys_concat] at hfair
    rw [registrations_concat] at hrooted
    -- the earlier requests make a session, and the last one goes on with it
    have hsession := ih hfair.1 hrooted.of_concat
    rw [registrations_concat, after_concat, answers_concat, Hierarchy.follow_concat,
      List.foldl_concat]
    exact hsession.serve hfair.2.framesOnly (hrooted.expected.allowed hfair.2.free)

end Runs

end ShadowMount
