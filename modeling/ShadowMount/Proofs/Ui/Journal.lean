import ShadowMount.Proofs.Native.Replay
import ShadowMount.Proofs.Ui.Emission

/-!
# The journal of a run

A record of what happened to a user interface, read off from its states: who was registered and who
was removed, and which operations were enqueued, by a command or a pass between which two trees.
Operations that were pruned from the queue are struck from the record, so that its operations are
exactly those flushed so far and those still pending.

* **`History`** — a run of commands and passes with its record. No tag is registered while it waits
  for its drop.
* **`History.tracks`** — the record is lawful and agrees with the user interface: with the standing
  of every tag, with the queue and with the pending drops.
-/

namespace ShadowMount

variable {κ : Type}

namespace Event

/-- The operation that is enqueued, if one is. -/
def operation? : Event κ → Option (Operation κ)
  | enqueue operation .. => some operation
  | _ => none

/-- The drop that a removal calls for, if the node had a view. -/
def drop? : Event κ → Option PendingDrop
  | unregister tag before =>
    if before.createdAt tag then some ⟨tag, before.isRoot tag⟩ else none
  | _ => none

/-- Whether an event stays in the record when the operations addressed to the tags of `skip` are
pruned. -/
def survives (skip : Tag → Bool) (event : Event κ) : Bool :=
  event.operation?.all (·.survives skip)

end Event

namespace Registration

/-- The tag to be registered. -/
def tag? : Registration → Option Tag
  | none => .none
  | root tag | node tag => some tag

/-- A registration as an event. -/
def events : Registration → List (Event κ)
  | none => []
  | root tag => [.register tag true]
  | node tag => [.register tag false]

end Registration

/-- What has happened so far. -/
structure Record (κ : Type) where
  /-- The operations that were flushed. -/
  delivered : List (Operation κ) := []
  /-- The events up to the last flush. -/
  past : List (Event κ) := []
  /-- The events since the last flush. -/
  recent : List (Event κ) := []

namespace Record

/-- All events, oldest first. -/
def events (record : Record κ) : List (Event κ) := record.past ++ record.recent

/-- All operations, flushed or pending. -/
def operations (record : Record κ) : List (Operation κ) := record.events.filterMap Event.operation?

/-- The drops called for since the last flush. -/
def drops (record : Record κ) : List PendingDrop := record.recent.filterMap Event.drop?

/-- The record after a command that leads from one scene to another. If removed views take their
operations out of the queue, these are struck; then come the registration, the removals and the
operations that are new in the queue. -/
def afterCommand (record : Record κ) (registration : Registration) (removals : List Tag)
    (scene done : Scene κ) : Record κ :=
  let pruned tag :=
    scene.mount.config.pruneDrops && (removals.filter scene.tree.createdAt).contains tag
  let added := done.mount.queue.drop scene.mount.queue.length
  { record with
    recent := record.recent.filter (Event.survives pruned) ++ registration.events ++
      removals.map (.unregister · scene.tree) ++ added.map (.enqueue · scene.tree done.tree) }

/-- The record after a pass that leads from one scene to another. -/
def afterPass (record : Record κ) (report : PassReport κ) (scene done : Scene κ) : Record κ :=
  match report.flush with
  | none => record
  | some flush =>
    let added := flush.operations.drop scene.mount.queue.length
    { delivered := record.delivered ++ flush.operations
      past := record.events ++ added.map (.enqueue · scene.tree done.tree)
      recent := [] }

/-- A pass that flushes closes the stretch of recent events. -/
theorem afterPass_of_flush (record : Record κ) {report : PassReport κ} {flush : Flush κ}
    (h : report.flush = some flush) (scene done : Scene κ) :
    record.afterPass report scene done = {
      delivered := record.delivered ++ flush.operations
      past := record.events ++ (flush.operations.drop scene.mount.queue.length).map
        (.enqueue · scene.tree done.tree) } := by
  rw [afterPass, h]

end Record

/-! ## Runs

A run is made of commands that succeed, commands that fail and passes. Each adds its events to the
record, the registrations and removals of a command before the operations that it enqueues. -/

section Runs

variable [Coordinate κ]

/-- A pass of a user interface, with or without a layout by an engine that only sets frames. -/
inductive Ui.Passes (ui : Ui κ) : PassReport κ → Ui κ → Prop
  | plain : Passes ui ui.runPass.1 ui.runPass.2
  | laidOut (engine : LayoutEngine κ) (hengine : engine.FramesOnly) :
      Passes ui (ui.layOutAndRunPass engine).1 (ui.layOutAndRunPass engine).2

/-- A run of commands and passes, with the record of it. No tag is registered while it waits for
its drop. -/
inductive History : Record κ → Ui κ → Prop
  /-- At the start nothing has happened. -/
  | start (managers : Managers) (config : Config) : History {} (Ui.new managers config)
  /-- A command that succeeds, with what it registers, removes and enqueues. -/
  | perform {record : Record κ} {ui : Ui κ} (h : History record ui) (command : Command κ)
      (hok : (ui.perform command).1 = .ok ())
      (hfree : ∀ tag ∈ command.registration.tag?, tag ∉ ui.scene.mount.dropTags) :
      History (record.afterCommand command.registration (command.removals ui.scene.tree) ui.scene
        (ui.perform command).2.scene) (ui.perform command).2
  /-- A command that fails leaves no trace in the record. -/
  | refuse {record : Record κ} {ui : Ui κ} (h : History record ui) (command : Command κ)
      {err : UiError} (herr : (ui.perform command).1 = .error err) :
      History record (ui.perform command).2
  /-- A pass, whether it flushes or not. -/
  | pass {record : Record κ} {ui after : Ui κ} {report : PassReport κ} (h : History record ui)
      (hpass : ui.Passes report after) :
      History (record.afterPass report ui.scene after.scene) after

/-- Passes lead to reachable states. -/
theorem Ui.Passes.reachable {ui after : Ui κ} {report : PassReport κ} (h : ui.Passes report after)
    (hreachable : ui.Reachable) : after.Reachable := by
  cases h with
  | plain => exact .runPass hreachable
  | laidOut engine hengine => exact .layOutAndRunPass hreachable engine hengine

/-- What a history records is a run of the user interface. -/
theorem History.reachable {record : Record κ} {ui : Ui κ} (h : History record ui) :
    ui.Reachable := by
  induction h with
  | start managers config => exact .new managers config
  | perform _ command _ _ ih => exact .perform ih command
  | refuse _ command _ ih => exact .perform ih command
  | pass _ hpass ih => exact hpass.reachable ih

end Runs

/-! ## Agreement with the scene

What the record says and what the scene holds, side by side. Every part of this is kept by every
request, and together they are the invariant of a run. -/

/-- A record that is lawful and agrees with a scene. -/
structure Record.Tracks (record : Record κ) (scene : Scene κ) : Prop where
  /-- Each event finds its tag in the standing it needs, and the standings at the end are those of
  the scene. -/
  lawful : Lawful (fun _ => .absent) record.events scene.standing
  /-- The operations of the closed stretch are those flushed. -/
  delivered : record.past.filterMap Event.operation? = record.delivered
  /-- The operations of the open stretch are those in the queue. -/
  pending : record.recent.filterMap Event.operation? = scene.mount.queue
  /-- Drops are not queued before the flush. -/
  undropped : ∀ operation ∈ scene.mount.queue, operation.isDrop = false
  /-- The drops pending are those called for since the last flush, in that order. -/
  drops : scene.mount.drops = record.drops
  /-- No view waits for its drop twice. -/
  dropped_once : scene.mount.dropTags.Nodup
  /-- What waits for its drop is not registered. -/
  dropped_gone : ∀ tag ∈ scene.mount.dropTags, scene.tree.contains tag = false
  /-- A view is dropped after those below it. -/
  descendants_first : ∀ {tag below before}, Event.unregister tag before ∈ record.recent →
    before.createdAt tag = true → before.Ancestor tag below → before.createdAt below = true →
    [⟨below, before.isRoot below⟩, ⟨tag, before.isRoot tag⟩].Sublist record.drops

namespace Record.Tracks

variable {record : Record κ} {scene done : Scene κ}

/-- The operations recorded are those flushed and those still queued. -/
theorem operations (h : record.Tracks scene) :
    record.operations = record.delivered ++ scene.mount.queue := by
  rw [Record.operations, Record.events, List.filterMap_append, h.delivered, h.pending]

/-- Nothing happens where the standings, the queue and the drops stay. -/
theorem congr (h : record.Tracks scene) (hqueue : done.mount.queue = scene.mount.queue)
    (hdrops : done.mount.drops = scene.mount.drops) (hstanding : done.standing = scene.standing)
    (hcontains : ∀ tag, done.tree.contains tag = scene.tree.contains tag) :
    record.Tracks done where
  lawful := hstanding ▸ h.lawful
  delivered := h.delivered
  pending := hqueue ▸ h.pending
  undropped := hqueue ▸ h.undropped
  drops := hdrops.trans h.drops
  dropped_once := by
    rw [MountState.dropTags, hdrops]
    exact h.dropped_once
  dropped_gone := by
    rw [MountState.dropTags, hdrops]
    exact fun tag htag => (hcontains tag).trans (h.dropped_gone tag htag)
  descendants_first := h.descendants_first

end Record.Tracks

/-! ## What events say -/

/-- An enqueueing says which operation is enqueued. -/
theorem Event.operation?_comp_enqueue (before after : Tree κ) :
    Event.operation? ∘ (Event.enqueue · before after) = some := rfl

/-- The operations of enqueueings are those enqueued. -/
theorem filterMap_operation?_enqueue (operations : List (Operation κ)) (before after : Tree κ) :
    (operations.map (Event.enqueue · before after)).filterMap Event.operation? = operations := by
  rw [List.filterMap_map, Event.operation?_comp_enqueue, List.filterMap_some]

/-- Enqueueings call for no drops. -/
theorem filterMap_drop?_enqueue (operations : List (Operation κ)) (before after : Tree κ) :
    (operations.map (Event.enqueue · before after)).filterMap Event.drop? = [] := by
  rw [List.filterMap_map]
  exact List.filterMap_eq_nil_iff.mpr fun _ _ => rfl

/-- Pruning strikes the same operations from the record as from the queue. -/
theorem filterMap_operation?_filter (skip : Tag → Bool) (events : List (Event κ)) :
    (events.filter (Event.survives skip)).filterMap Event.operation? =
      (events.filterMap Event.operation?).filter (Operation.survives skip) := by
  rw [List.filterMap_filter, List.filter_filterMap]
  refine List.filterMap_congr fun event _ => ?_
  rw [Event.survives]
  cases event.operation? with
  | none => rfl
  | some operation => rfl

/-- Pruning strikes no removals, so the drops called for stay. -/
theorem filterMap_drop?_filter (skip : Tag → Bool) (events : List (Event κ)) :
    (events.filter (Event.survives skip)).filterMap Event.drop? =
      events.filterMap Event.drop? := by
  rw [List.filterMap_filter]
  refine List.filterMap_congr fun event _ => ?_
  cases event with
  | register => rfl
  | unregister => rfl
  | enqueue operation => exact ite_self none

/-- Removals call for a drop of each view, in their order. -/
theorem filterMap_drop?_unregister (before : Tree κ) (gone : List Tag) :
    (gone.map (Event.unregister · before)).filterMap Event.drop? =
      (gone.filter before.createdAt).map fun t => ⟨t, before.isRoot t⟩ := by
  induction gone with
  | nil => rfl
  | cons tag rest ih =>
    rw [List.map_cons, List.filterMap_cons, List.filter_cons, ih, Event.drop?]
    cases before.createdAt tag <;> rfl

/-- Removals enqueue nothing. -/
theorem filterMap_operation?_unregister (before : Tree κ) (gone : List Tag) :
    (gone.map (Event.unregister · before)).filterMap Event.operation? = [] := by
  rw [List.filterMap_map]
  exact List.filterMap_eq_nil_iff.mpr fun _ _ => rfl

/-- Registrations neither enqueue nor call for drops. -/
theorem Registration.filterMap_events (registration : Registration) :
    (registration.events : List (Event κ)).filterMap Event.operation? = [] ∧
      (registration.events : List (Event κ)).filterMap Event.drop? = [] := by
  cases registration with
  | none => exact ⟨rfl, rfl⟩
  | root => exact ⟨rfl, rfl⟩
  | node => exact ⟨rfl, rfl⟩

/-- A command adds the drops of the views that it removes, in the order of their removal. -/
theorem Record.drops_afterCommand (record : Record κ) (registration : Registration)
    (removals : List Tag) (scene done : Scene κ) :
    (record.afterCommand registration removals scene done).drops = record.drops ++
      (removals.filter scene.tree.createdAt).map fun tag => ⟨tag, scene.tree.isRoot tag⟩ := by
  simp only [Record.drops, Record.afterCommand, List.filterMap_append, filterMap_drop?_filter,
    registration.filterMap_events.2, filterMap_drop?_unregister, filterMap_drop?_enqueue,
    List.append_nil]

/-! ## Registrations and operations -/

namespace Record

variable {record : Record κ} {scene done : Scene κ} {registration : Registration}

/-- A command that removes nothing adds to the record. -/
theorem recent_afterCommand {operations : List (Operation κ)}
    (hqueue : done.mount.queue = scene.mount.queue ++ operations) :
    (record.afterCommand registration [] scene done).recent = record.recent ++
      (registration.events ++ operations.map (.enqueue · scene.tree done.tree)) := by
  -- nothing is struck, as there is nothing to prune for
  have hall : record.recent.filter (Event.survives fun _ => false) = record.recent := by
    refine List.filter_eq_self.mpr fun event _ => ?_
    cases event with
    | enqueue operation => exact operation.survives_none
    | register => rfl
    | unregister => rfl
  simp only [afterCommand, List.filter_nil, List.contains_nil, Bool.and_false, hqueue,
    List.drop_left, List.map_nil, List.append_nil, hall, List.append_assoc]

/-- A command that removes nothing keeps record and scene in agreement, if its own events are lawful
and agree. -/
theorem Tracks.afterCommand (h : record.Tracks scene) {operations : List (Operation κ)}
    (hqueue : done.mount.queue = scene.mount.queue ++ operations)
    (hkinds : ∀ operation ∈ operations, operation.isDrop = false)
    (hlawful : Lawful scene.standing
      (registration.events ++ operations.map (.enqueue · scene.tree done.tree)) done.standing)
    (hdrops : done.mount.drops = scene.mount.drops)
    (hgone : ∀ tag ∈ scene.mount.dropTags, done.tree.contains tag = false) :
    (record.afterCommand registration [] scene done).Tracks done := by
  have hrecent := @recent_afterCommand _ record scene done registration operations hqueue
  have hsame : (record.afterCommand registration [] scene done).drops = record.drops := by
    rw [record.drops_afterCommand, List.filter_nil, List.map_nil, List.append_nil]
  refine ⟨?_, h.delivered, ?_, ?_, ?_, ?_, ?_, ?_⟩
  -- lawful: what happened before, then the events of the command
  · rw [Record.events, hrecent, ← List.append_assoc]
    exact h.lawful.append hlawful
  -- the queue grows by the operations recorded
  · rw [hrecent, List.filterMap_append, List.filterMap_append, registration.filterMap_events.1,
      filterMap_operation?_enqueue, h.pending, hqueue]
    rfl
  · rw [hqueue]
    exact List.forall_mem_append.mpr ⟨h.undropped, hkinds⟩
  -- the drops stay
  · rw [hsame, hdrops, h.drops]
  · rw [MountState.dropTags, hdrops]
    exact h.dropped_once
  · rw [MountState.dropTags, hdrops]
    exact hgone
  -- no removal is new, so the order of drops is as before
  · rw [hsame, hrecent]
    intro tag below before hmem
    rcases List.mem_append.mp hmem with hmem | hmem
    · exact h.descendants_first hmem
    · -- the events of this command remove nothing
      rcases List.mem_append.mp hmem with hmem | hmem
      · cases registration with
        | none => cases hmem
        | root => cases List.mem_singleton.mp hmem
        | node => cases List.mem_singleton.mp hmem
      · obtain ⟨operation, -, heq⟩ := List.mem_map.mp hmem
        cases heq

end Record

/-! ## Removals

A command that removes nodes may strike operations from the queue. They are struck from the record
as well, which keeps it lawful, as they were plain: nothing later depends on a plain operation. -/

/-- Nodes are removed one after the other. -/
theorem lawful_unregister {before : Tree κ} : ∀ {gone : List Tag} {s : Tag → Standing},
    gone.Nodup → (∀ tag ∈ gone, (s tag).isLive = true) →
    Lawful s (gone.map (Event.unregister · before)) fun tag =>
      if tag ∈ gone then (s tag).removed else s tag
  | [], s, _, _ => by
    simp only [List.not_mem_nil, if_false]
    exact .nil s
  | tag :: rest, s, hnodup, hlive => by
    obtain ⟨hnot, hrest⟩ := List.nodup_cons.mp hnodup
    have hne : ∀ {x}, x ∈ rest → x ≠ tag := fun hx heq => hnot (heq ▸ hx)
    -- the others stand as they did when the first one is removed
    have htail := @lawful_unregister before rest (Function.update s tag (s tag).removed) hrest
      fun x hx => by
        rw [Function.update_of_ne (hne hx)]
        exact hlive x (List.mem_cons_of_mem _ hx)
    -- where each node ends up: the first one removed, the others as they are after the rest
    have hfinal : (fun x => if x ∈ rest then (Function.update s tag (s tag).removed x).removed
        else Function.update s tag (s tag).removed x) =
          fun x => if x ∈ tag :: rest then (s x).removed else s x := by
      funext x
      by_cases hx : x = tag
      · subst hx
        rw [if_neg hnot, Function.update_self, if_pos (List.mem_cons_self ..)]
      · rw [Function.update_of_ne hx]
        simp only [List.mem_cons, hx, false_or]
    exact .cons (.unregister (hlive tag (List.mem_cons_self ..))) (hfinal ▸ htail)

/-- Looking a drop up among those called for. -/
theorem find?_drops (isRoot : Tag → Bool) (tags : List Tag) (tag : Tag) :
    (tags.map fun t => (⟨t, isRoot t⟩ : PendingDrop)).find? (·.tag == tag) =
      if tag ∈ tags then some ⟨tag, isRoot tag⟩ else none := by
  induction tags with
  | nil => rfl
  | cons first rest ih =>
    rw [List.map_cons, List.find?_cons]
    by_cases heq : first = tag
    · subst heq
      rw [beq_self_eq_true, if_pos (List.mem_cons_self ..)]
    · have hmem : tag ∈ first :: rest ↔ tag ∈ rest := by
        rw [List.mem_cons, or_iff_right (Ne.symm heq)]
      rw [beq_eq_false_iff_ne.mpr heq, ih]
      simp only [hmem]

/-- A tag that does not wait has no drop. -/
theorem find?_drops_of_not_mem {drops : List PendingDrop} {tag : Tag}
    (h : tag ∉ drops.map PendingDrop.tag) : drops.find? (·.tag == tag) = none := by
  refine List.find?_eq_none.mpr fun drop hdrop heq => h ?_
  rw [← eq_of_beq heq]
  exact List.mem_map_of_mem hdrop

/-- The standings after a removal: views wait for their drops, and nothing else changes. -/
theorem Tree.Trimmed.standing {tree after : Tree κ} {gone : List Tag} {drops : List PendingDrop}
    (h : tree.Trimmed gone after)
    (hgone : ∀ tag ∈ drops.map PendingDrop.tag, tree.contains tag = false) :
    after.standing (drops ++ (gone.filter tree.createdAt).map fun t => ⟨t, tree.isRoot t⟩) =
      fun tag => if tag ∈ gone then (tree.standing drops tag).removed
        else tree.standing drops tag := by
  funext tag
  -- removed nodes: with a view they are doomed, without one they are absent
  by_cases hmem : tag ∈ gone
  · have hcontains := h.registered hmem
    have hfree : after.contains tag = false := by rw [contains, h.erased hmem, Option.isSome_none]
    have hnone : drops.find? (·.tag == tag) = none := by
      refine find?_drops_of_not_mem fun hdrop => ?_
      rw [hgone tag hdrop] at hcontains
      cases hcontains
    rw [if_pos hmem, standing_of_free hfree, List.find?_append, hnone, Option.none_or,
      find?_drops]
    cases hview : tree.createdAt tag with
    | true =>
      rw [if_pos (List.mem_filter.mpr ⟨hmem, hview⟩), standing_of_created hview]
      rfl
    | false =>
      have hnot : tag ∉ gone.filter tree.createdAt := by
        intro hin
        rw [(List.mem_filter.mp hin).2] at hview
        cases hview
      rw [if_neg hnot, standing_of_uncreated hview hcontains]
      rfl
  -- the others: neither their records nor their drops have changed
  · have hroot : after.isRoot tag = tree.isRoot tag := by
      rw [Bool.eq_iff_iff, isRoot_iff, isRoot_iff, h.roots]
      exact and_iff_left hmem
    have hcontains : after.contains tag = tree.contains tag := by
      rw [Bool.eq_iff_iff, h.contains_iff]
      exact and_iff_left hmem
    rw [if_neg hmem, ← standing_congr hcontains (h.created hmem) hroot, Tree.standing,
      Tree.standing, List.find?_append, find?_drops,
      if_neg fun hin => hmem (List.mem_filter.mp hin).1, Option.or_none]

namespace Record

variable {record : Record κ} {tree after : Tree κ} {mount : MountState κ} {log : List Log.Line}
  {gone : List Tag}

/-- A command that removes nodes prunes the record and adds the removals. -/
theorem recent_afterTrim (isRoot : Tag → Bool) (log' : List Log.Line) :
    (record.afterCommand .none gone ⟨tree, mount, log⟩
      ⟨after, mount.scheduledAll isRoot (gone.filter tree.createdAt), log'⟩).recent =
    record.recent.filter (Event.survives fun tag =>
      mount.config.pruneDrops && (gone.filter tree.createdAt).contains tag) ++
        gone.map (.unregister · tree) := by
  -- nothing is new in the queue, which pruning can only shorten
  have hdrop : (mount.scheduledAll isRoot (gone.filter tree.createdAt)).queue.drop
      mount.queue.length = [] := by
    rw [List.drop_eq_nil_iff, MountState.queue_scheduledAll]
    exact List.length_filter_le ..
  simp only [Record.afterCommand, hdrop, List.map_nil, List.append_nil, Registration.events]

/-- What pruning strikes is plain: creates survive it, and no drop is queued. -/
theorem Tracks.plain_of_pruned {scene : Scene κ} (h : record.Tracks scene) {skip : Tag → Bool}
    {event : Event κ} (hmem : event ∈ record.recent) (hstruck : event.survives skip = false) :
    ∃ operation before after, event = .enqueue operation before after ∧
      operation.isPlain = true := by
  cases event with
  | register => cases hstruck
  | unregister => cases hstruck
  | enqueue operation before after =>
    have hqueued : operation ∈ scene.mount.queue := by
      rw [← h.pending]
      exact List.mem_filterMap.mpr ⟨_, hmem, rfl⟩
    have hcreate : operation.isCreate = false := (Bool.or_eq_false_iff.mp hstruck).1
    exact ⟨operation, before, after, rfl,
      Operation.isPlain_iff.mpr ⟨hcreate, h.undropped operation hqueued⟩⟩

/-- A command that removes nodes keeps record and scene in agreement. -/
theorem Tracks.afterTrim (h : record.Tracks ⟨tree, mount, log⟩) (hwf : tree.WellFormed)
    (htrimmed : tree.Trimmed gone after) (log' : List Log.Line) :
    (record.afterCommand .none gone ⟨tree, mount, log⟩
      ⟨after, mount.scheduledAll tree.isRoot (gone.filter tree.createdAt), log'⟩).Tracks
        ⟨after, mount.scheduledAll tree.isRoot (gone.filter tree.createdAt), log'⟩ := by
  have hrecent := @recent_afterTrim _ record tree after mount log gone tree.isRoot log'
  -- every removed node was registered, so its standing is a live one
  have hlive : ∀ tag ∈ gone, ((tree.standing mount.drops) tag).isLive = true := by
    intro tag htag
    cases hview : tree.createdAt tag with
    | true => rw [Tree.standing_of_created hview]; rfl
    | false => rw [Tree.standing_of_uncreated hview (htrimmed.registered htag)]; rfl
  -- none of them was waiting for a drop already
  have hfree : ∀ {tag}, tag ∈ mount.dropTags → tag ∉ gone := by
    intro tag hdrop htag
    have hcontains := htrimmed.registered htag
    rw [h.dropped_gone tag hdrop] at hcontains
    cases hcontains
  refine ⟨?_, h.delivered, ?_, ?_, ?_, ?_, ?_, ?_⟩
  -- lawful: the closed stretch, what pruning leaves of the open one, and the removals
  · obtain ⟨mid, hpast, hpresent⟩ := h.lawful.split
    have hremoved := @lawful_unregister _ tree gone _ htrimmed.nodup hlive
    rw [← htrimmed.standing h.dropped_gone] at hremoved
    rw [Record.events, hrecent, Scene.standing, MountState.drops_scheduledAll]
    refine hpast.append ((hpresent.filter _ ?_).append hremoved)
    exact h.plain_of_pruned
  -- the queue is pruned as the record is
  · rw [hrecent, List.filterMap_append, filterMap_operation?_filter, h.pending,
      filterMap_operation?_unregister, List.append_nil, MountState.queue_scheduledAll]
  · rw [MountState.queue_scheduledAll]
    exact fun operation hmem => h.undropped operation (List.mem_filter.mp hmem).1
  -- the drops of the removed views are appended
  · rw [record.drops_afterCommand, MountState.drops_scheduledAll, ← h.drops]
  -- none of them is pending twice, as what was pending is not registered
  · rw [MountState.dropTags_scheduledAll, List.nodup_append]
    refine ⟨h.dropped_once, htrimmed.nodup.filter _, fun x hx y hy heq => ?_⟩
    exact hfree hx (heq ▸ (List.mem_filter.mp hy).1)
  -- what waits for its drop is gone: it was so before, or has just been removed
  · rw [MountState.dropTags_scheduledAll]
    intro tag hmem
    refine Bool.eq_false_iff.mpr fun hcontains => ?_
    obtain ⟨hbefore, hkept⟩ := htrimmed.contains_iff.mp hcontains
    rcases List.mem_append.mp hmem with hdrop | hgone
    · rw [h.dropped_gone tag hdrop] at hbefore
      cases hbefore
    · exact hkept (List.mem_filter.mp hgone).1
  -- views are dropped after those below them
  · rw [record.drops_afterCommand, hrecent]
    intro tag below before hmem hview hanc hbelow
    rcases List.mem_append.mp hmem with hmem | hmem
    -- removed earlier, so this was known
    · exact (h.descendants_first (List.mem_filter.mp hmem).1 hview hanc hbelow).trans
        (List.sublist_append_left ..)
    -- removed now: the walk has the node after its descendants
    · obtain ⟨removed, htag, heq⟩ := List.mem_map.mp hmem
      cases heq
      have hfirst := ((htrimmed.descendant_first hwf htag hanc).filter tree.createdAt).map
        fun t => (⟨t, tree.isRoot t⟩ : PendingDrop)
      rw [List.filter_cons_of_pos hbelow, List.filter_cons_of_pos hview] at hfirst
      exact hfirst.trans (List.sublist_append_right ..)

end Record

/-! ## Commands

The effect of a command, as events: registrations, removals, or what it has enqueued. -/

section Commands

variable {record : Record κ} {tree after : Tree κ} {mount mount' : MountState κ}
  {log log' : List Log.Line}

/-- A registration puts an unused tag in its place and leaves all others in theirs. -/
theorem Tree.Registered.lawful {tag : Tag} {isRoot : Bool} {drops : List PendingDrop}
    (h : tree.Registered tag after) (hfree : tag ∉ drops.map PendingDrop.tag)
    (hroots : ∀ {x}, x ≠ tag → after.isRoot x = tree.isRoot x)
    (hnew : after.standing drops tag = if isRoot then .shown true else .hidden) :
    Lawful (tree.standing drops) ([.register tag isRoot] : List (Event κ))
      (after.standing drops) := by
  -- the tag is unused: not registered, and not waiting for a drop
  have habsent : tree.standing drops tag = .absent := by
    rw [Tree.standing_of_free h.free, find?_drops_of_not_mem hfree]
    rfl
  -- its new standing is the one a registration gives, and all others keep theirs
  have hfinal : after.standing drops = Function.update (tree.standing drops) tag
      (if isRoot then .shown true else .hidden) := by
    funext x
    by_cases hx : x = tag
    · subst hx
      rw [Function.update_self, hnew]
    · rw [Function.update_of_ne hx]
      refine Tree.standing_congr ?_ (h.created (Ne.symm hx)) (hroots hx)
      rw [h.contains, decide_eq_false (Ne.symm hx), Bool.false_or]
  rw [hfinal]
  exact .single (.register habsent)

/-- A registration keeps record and scene in agreement. -/
theorem Record.Tracks.afterRegistration (h : record.Tracks ⟨tree, mount, log⟩)
    {registration : Registration} {tag : Tag} {isRoot : Bool}
    (hevents : (registration.events : List (Event κ)) = [.register tag isRoot])
    (hregistered : tree.Registered tag after) (hfree : tag ∉ mount.dropTags)
    (hroots : ∀ {x}, x ≠ tag → after.isRoot x = tree.isRoot x)
    (hnew : after.standing mount.drops tag = if isRoot then .shown true else .hidden)
    (hqueue : mount'.queue = mount.queue) (hdrops : mount'.drops = mount.drops) :
    (record.afterCommand registration [] ⟨tree, mount, log⟩ ⟨after, mount', log'⟩).Tracks
      ⟨after, mount', log'⟩ := by
  have hlawful := hregistered.lawful hfree hroots hnew
  refine h.afterCommand (hqueue.trans (List.append_nil _).symm) nofun ?_ hdrops ?_
  · have hstanding : Scene.standing ⟨after, mount', log'⟩ = after.standing mount.drops :=
      congrArg after.standing hdrops
    rw [hevents, hstanding]
    exact hlawful
  -- what waits for its drop is not registered now, as only the new tag is
  · intro x hx
    have hne : tag ≠ x := fun heq => hfree (heq ▸ hx)
    rw [hregistered.contains, decide_eq_false hne, h.dropped_gone x hx]
    rfl

variable [Coordinate κ] {scene done : Scene κ}

/-- Every effect of a command goes into the record. -/
theorem Effect.tracks {managers : Managers} {registration : Registration} {removals : List Tag}
    (h : Effect managers registration removals scene done) (hsound : scene.tree.Sound)
    (hanchored : scene.tree.Anchored) (htracks : record.Tracks scene)
    (hfree : ∀ tag ∈ registration.tag?, tag ∉ scene.mount.dropTags) :
    (record.afterCommand registration removals scene done).Tracks done := by
  cases h with
  -- a root comes with its view
  | @addRoot tree mount log tag viewClass width height hunused sent hsent log' =>
    refine htracks.afterRegistration rfl (Tree.registered_withRootNode hunused)
      (hfree tag rfl) ?_ ?_ rfl rfl
    · intro x hx
      rw [Bool.eq_iff_iff, Tree.isRoot_iff, Tree.isRoot_iff]
      exact Tree.mem_withRoot.trans (or_iff_left hx)
    · refine (Tree.standing_of_created ?_).trans (congrArg Standing.shown ?_)
      · exact (Tree.createdAt_store ..).trans (if_pos rfl)
      · exact Tree.isRoot_iff.mpr (Tree.mem_withRoot.mpr (.inr rfl))
  -- a node comes without a view
  | @create tree mount log node hfresh hcreated hunused =>
    refine htracks.afterRegistration rfl (Tree.registered_store hfresh hunused)
      (hfree node.tag rfl) (fun _ => rfl) (Tree.standing_of_uncreated ?_ ?_) rfl rfl
    · rw [Tree.createdAt_store, if_pos rfl, hcreated]
    · rw [Tree.contains_store, decide_eq_true rfl, Bool.true_or]
  | trim htrimmed log' => exact htracks.afterTrim hsound.wellFormed htrimmed log'
  | active h =>
    -- commands that move no node: what they enqueue is lawful
    obtain ⟨operations, hqueue, hkinds, hlawful⟩ := h.emits hsound hanchored
    have hdrops : done.mount.drops = scene.mount.drops :=
      congrArg (·.2.1) (Touches.fixtures h.touches)
    -- no touch registers a node, so what waits for its drop stays gone
    refine htracks.afterCommand hqueue hkinds hlawful hdrops fun tag htag => ?_
    have hstamp := (Touches.stamps h.touches).2 tag
    rw [Tree.get?_of_free (htracks.dropped_gone tag htag), Option.map_none,
      Option.map_eq_none_iff] at hstamp
    rw [Tree.contains, hstamp, Option.isSome_none]

end Commands

/-! ## Passes

A pass enqueues what reconciliation emits, and its flush adds the drops that wait. -/

section Passes

/-- A new frame keeps everything else of a tree. -/
theorem Tree.kept_reframe {tree : Tree κ} {tag : Tag} {node : Node κ}
    (hget : tree.get? tag = some node) (frame : Frame κ) :
    tree.Kept (tree.store tag { node with frame }) := by
  refine ⟨sameLinks_store hget rfl rfl rfl, fun x => ?_, fun hflags => ?_, fun {x} hview => ?_, rfl⟩
  · rw [get?_store]
    split
    · next heq =>
      rw [← heq, hget]
      rfl
    · rfl
  · have hmounts := hflags.created_mounts hget
    exact hflags.store hget rfl rfl rfl id id hmounts (hflags.virtual_not_mounts hget)
  · exact (flags_update hget frame node.props x).1.trans hview

/-- So do several new frames. -/
theorem Tree.Reframed.kept {tree after : Tree κ} (h : tree.Reframed after) : tree.Kept after := by
  induction h with
  | refl => exact (Tree.Grown.refl tree).kept
  | tail _ hstep ih =>
    obtain ⟨tag, frame, hset⟩ := hstep
    obtain ⟨node, hget, rfl⟩ := Tree.store_of_setFrame hset
    exact ih.trans (Tree.kept_reframe hget frame)

/-- Setting frames makes no view. -/
theorem Tree.Reframed.createdAt {tree after : Tree κ} (h : tree.Reframed after) (tag : Tag) :
    after.createdAt tag = tree.createdAt tag := by
  induction h with
  | refl => rfl
  | tail _ hstep ih =>
    obtain ⟨t, frame, hset⟩ := hstep
    obtain ⟨node, hget, rfl⟩ := Tree.store_of_setFrame hset
    exact (Tree.flags_update hget frame node.props tag).1.trans ih

/-- Setting frames leaves every tag in its standing. -/
theorem Tree.Reframed.standing {tree after : Tree κ} (h : tree.Reframed after)
    (drops : List PendingDrop) : after.standing drops = tree.standing drops := by
  funext tag
  refine Tree.standing_congr (h.kept.links.contains tag) (h.createdAt tag) ?_
  rw [Tree.isRoot, Tree.isRoot, h.kept.links.roots]

/-- The drops of a flush, one after the other. -/
theorem lawful_drops {tree before last : Tree κ} : ∀ {drops : List PendingDrop},
    (drops.map PendingDrop.tag).Nodup →
    (∀ tag ∈ drops.map PendingDrop.tag, tree.contains tag = false ∧
      before.contains tag = false ∧ last.contains tag = false) →
    Lawful (tree.standing drops)
      ((drops.map PendingDrop.operation).map (Event.enqueue · before last)) (tree.standing [])
  | [], _, _ => .nil _
  | drop :: rest, hnodup, hgone => by
    obtain ⟨hnot, hrest⟩ := List.nodup_cons.mp hnodup
    obtain ⟨htree, hbefore, hlast⟩ := hgone drop.tag (List.mem_cons_self ..)
    -- the first drop finds its tag doomed and leaves it absent
    have hdoomed : tree.standing (drop :: rest) drop.tag = .doomed drop.isRoot := by
      rw [Tree.standing_of_free htree, List.find?_cons, beq_self_eq_true]
      rfl
    -- the others find theirs as they were
    have hnext : Function.update (tree.standing (drop :: rest)) drop.tag .absent =
        tree.standing rest := by
      funext x
      by_cases hx : x = drop.tag
      · subst hx
        rw [Function.update_self, Tree.standing_of_free htree, find?_drops_of_not_mem hnot]
        rfl
      · rw [Function.update_of_ne hx, Tree.standing, Tree.standing, List.find?_cons,
          beq_eq_false_iff_ne.mpr (Ne.symm hx)]
    have hfirst := @Event.Leads.drop κ (tree.standing (drop :: rest)) before last drop hdoomed
      hbefore hlast
    rw [hnext] at hfirst
    exact .cons hfirst (lawful_drops hrest fun tag htag => hgone tag (List.mem_cons_of_mem _ htag))

variable [Coordinate κ] {ui after : Ui κ} {report : PassReport κ}

/-- What a pass does that flushes. -/
structure Ui.Flushes (ui : Ui κ) (flush : Flush κ) (after : Ui κ) : Prop where
  /-- Nodes and flags are kept, views only added. -/
  kept : ui.scene.tree.Kept after.scene.tree
  /-- What was queued, what the pass adds, and the pending drops. -/
  operations : ∃ added, flush.operations =
      ui.scene.mount.queue ++ (added ++ ui.scene.mount.drops.map PendingDrop.operation) ∧
    (∀ operation ∈ added, operation.isDrop = false) ∧
    Lawful ui.scene.standing (added.map (.enqueue · ui.scene.tree after.scene.tree))
      (after.scene.tree.standing ui.scene.mount.drops)
  /-- Nothing is left in the queue. -/
  queue : after.scene.mount.queue = []
  /-- No drop is left pending. -/
  drops : after.scene.mount.drops = []
  /-- Every attached node that mounts has a view. -/
  mounted : ∀ {tag}, after.scene.tree.Attached tag → after.scene.tree.mountsAt tag = true →
    after.scene.tree.createdAt tag = true

/-- A pass over a tree whose frames have been set. -/
theorem Ui.runPass_flushes {framed : Tree κ} (hsound : ui.scene.Sound)
    (hanchored : ui.scene.tree.Anchored) (hframed : ui.scene.tree.Reframed framed) :
    let framedUi : Ui κ := { ui with scene := { ui.scene with tree := framed } }
    ∃ flush, framedUi.runPass.1.flush = some flush ∧ ui.Flushes flush framedUi.runPass.2 := by
  intro framedUi
  -- the frames set are touches, so the pass starts from a sound tree
  have htouches := hframed.touches ui.scene.mount ui.scene.log
  have hsound' : framed.Sound := Touches.sound htouches hsound.tree
  have hanchored' : framed.Anchored := Touches.anchored htouches hanchored
  -- the pass is a run of steps, and what it enqueues is lawful
  obtain ⟨refreshed, log, hrun, hsettled, hpass⟩ :=
    @Ui.runPass_sound _ _ { ui with scene := { ui.scene with tree := framed } }
      ⟨hsound', hsound.closed⟩
  have hgrown := Mount.Run.grown hrun
  obtain ⟨added, hqueue, hkinds, hlawful⟩ := Mount.Run.emits hrun hsound' hanchored' hframed.kept
    (Tree.Grown.refl refreshed.tree).kept fun _ _ hparent => hparent
  have hdrops : refreshed.mount.drops = ui.scene.mount.drops :=
    congrArg (·.2.1) (Touches.fixtures (Touches.ofProgress (Mount.Run.progress hrun)))
  rw [hpass]
  refine ⟨_, rfl, hframed.kept.trans hgrown.kept, ⟨added, ?_, hkinds, ?_⟩, rfl, rfl, ?_⟩
  -- what was queued, what the pass adds, then the drops
  · show refreshed.mount.queue ++ refreshed.mount.drops.map PendingDrop.operation = _
    rw [hqueue, hdrops, List.append_assoc]
  -- neither frames nor the mark of the open pass are part of a standing
  · have hstart : Scene.standing { ui.scene with
        tree := framed
        mount := { ui.scene.mount with passOpen := true } } = ui.scene.standing :=
      hframed.standing ui.scene.mount.drops
    have hlast : refreshed.standing = refreshed.tree.standing ui.scene.mount.drops :=
      congrArg refreshed.tree.standing hdrops
    rw [hstart, hlast] at hlawful
    exact hlawful
  -- an attached node lies below a root, whose subtree is settled
  · rintro tag ⟨root, hroot, hsub⟩ hmounts
    rw [hgrown.roots] at hroot
    exact (hsettled root hroot tag hsub hmounts).1

/-- A pass is left out and changes no more than frames, or it flushes. -/
theorem Ui.Passes.cases (h : ui.Passes report after) (hsound : ui.scene.Sound)
    (hanchored : ui.scene.tree.Anchored) :
    (report.flush = none ∧ (∀ count, report.result ≠ .ok count) ∧
      ui.scene.tree.Reframed after.scene.tree ∧ after.scene.mount = ui.scene.mount) ∨
    ∃ flush, report.flush = some flush ∧ ui.Flushes flush after := by
  cases h with
  -- a plain pass always flushes
  | plain => exact .inr (Ui.runPass_flushes hsound hanchored .refl)
  | laidOut engine hengine =>
    have hframed := Ui.layOut_reframed hengine ui.scene.tree.roots ui.scene.tree
    rw [Ui.layOutAndRunPass_eq hsound]
    generalize Ui.layOut engine ui.scene.tree.roots ui.scene.tree = answer at hframed
    obtain ⟨laidOut, result, tree⟩ := answer
    -- the engine decides whether there is a pass at all
    cases result with
    | error err => exact .inl ⟨rfl, nofun, hframed, rfl⟩
    | ok _ => exact .inr (Ui.runPass_flushes hsound hanchored hframed)

/-- A pass goes into the record. -/
theorem Ui.Passes.tracks {record : Record κ} (h : ui.Passes report after)
    (hsound : ui.scene.Sound) (hanchored : ui.scene.tree.Anchored)
    (htracks : record.Tracks ui.scene) :
    (record.afterPass report ui.scene after.scene).Tracks after.scene := by
  rcases h.cases hsound hanchored with ⟨hnone, -, hframed, hmount⟩ | ⟨flush, hsome, hflushes⟩
  -- no pass: frames may have changed, which no standing depends on
  · rw [Record.afterPass, hnone]
    refine htracks.congr (by rw [hmount]) (by rw [hmount]) ?_ fun tag =>
      hframed.kept.links.contains tag
    rw [Scene.standing, hmount]
    exact hframed.standing ui.scene.mount.drops
  · obtain ⟨added, hoperations, hkinds, hlawful⟩ := hflushes.operations
    have hcontains := hflushes.kept.links.contains
    -- the drops go last, when their views are gone from the tree
    have hdropped := @lawful_drops κ after.scene.tree ui.scene.tree after.scene.tree
      ui.scene.mount.drops htracks.dropped_once fun tag htag => by
        have hgone := htracks.dropped_gone tag htag
        exact ⟨(hcontains tag).trans hgone, hgone, (hcontains tag).trans hgone⟩
    rw [record.afterPass_of_flush hsome, hoperations]
    refine ⟨?_, ?_, ?_, ?_, ?_, ?_, ?_, ?_⟩
    -- lawful: the record, what the pass adds, and the drops
    · rw [Record.events, List.append_nil, List.drop_left, List.map_append, Scene.standing,
        hflushes.drops]
      exact htracks.lawful.append (hlawful.append hdropped)
    -- the operations flushed are those recorded
    · rw [List.drop_left, List.filterMap_append, filterMap_operation?_enqueue]
      show record.operations ++ _ = _
      rw [htracks.operations, List.append_assoc]
    · rw [hflushes.queue]
      rfl
    · rw [hflushes.queue]
      exact fun _ hmem => absurd hmem List.not_mem_nil
    · exact hflushes.drops
    · rw [MountState.dropTags, hflushes.drops]
      exact .nil
    · rw [MountState.dropTags, hflushes.drops]
      exact fun _ hmem => absurd hmem List.not_mem_nil
    · exact fun hmem => absurd hmem List.not_mem_nil

end Passes

/-- The record of a run is lawful and agrees with the user interface at its end. -/
theorem History.tracks [Coordinate κ] {record : Record κ} {ui : Ui κ} (h : History record ui) :
    record.Tracks ui.scene := by
  induction h with
  | start managers config =>
    refine ⟨?_, rfl, rfl, nofun, rfl, .nil, nofun, nofun⟩
    -- at the start every tag is unused
    have hempty : (Ui.new managers config : Ui κ).scene.standing = fun _ => .absent := by
      funext tag
      exact Tree.standing_of_free (by simp [Tree.contains, Tree.get?, Ui.new])
    rw [hempty]
    exact .nil _
  | @perform record ui h command hok hfree ih =>
    -- a command that succeeds has one of the effects
    obtain ⟨done, hdone, heffect⟩ := Ui.effect_of_ok h.reachable.sound hok
    rw [hdone]
    exact heffect.tracks h.reachable.sound.tree h.reachable.anchored ih hfree
  | @refuse record ui h command err hrefused ih =>
    -- a command that fails changes nothing but the log
    obtain ⟨log, herr⟩ := Ui.unchanged_of_error h.reachable.sound hrefused
    rw [herr]
    exact ih.congr rfl rfl rfl fun _ => rfl
  | pass h hpass ih => exact hpass.tracks h.reachable.sound h.reachable.anchored ih

/-! ## Runs that can be computed

The same runs as a function on lists of requests, for examples. -/

/-- One turn of a run: a command or a plain pass. -/
inductive Turn (κ : Type) where
  | perform (command : Command κ)
  | pass

namespace Turn

variable [Coordinate κ]

/-- Takes a turn and records it. -/
def take : Turn κ → Record κ × Ui κ → Record κ × Ui κ
  | perform command, (record, ui) =>
    match ui.perform command with
    | (.ok _, after) => (record.afterCommand command.registration
        (command.removals ui.scene.tree) ui.scene after.scene, after)
    | (.error _, after) => (record, after)
  | pass, (record, ui) =>
    (record.afterPass ui.runPass.1 ui.scene ui.runPass.2.scene, ui.runPass.2)

/-- Takes turns one after the other. -/
def takeAll (turns : List (Turn κ)) (state : Record κ × Ui κ) : Record κ × Ui κ :=
  turns.foldl (fun state turn => turn.take state) state

/-- Whether a turn registers no tag that waits for its drop. -/
def isFair (ui : Ui κ) : Turn κ → Bool
  | perform command => command.registration.tag?.all (!ui.scene.mount.dropTags.contains ·)
  | pass => true

/-- Whether every turn is fair when it is taken. -/
def allFair : List (Turn κ) → Record κ × Ui κ → Bool
  | [], _ => true
  | turn :: rest, state => turn.isFair state.2 && allFair rest (turn.take state)

end Turn

/-- A fair turn goes on with the history. -/
theorem History.take [Coordinate κ] {record : Record κ} {ui : Ui κ} (h : History record ui)
    {turn : Turn κ} (hfair : turn.isFair ui = true) :
    History (turn.take (record, ui)).1 (turn.take (record, ui)).2 := by
  cases turn with
  | pass => exact h.pass .plain
  -- a command is recorded if it succeeds
  | perform command =>
    have hfree : ∀ tag ∈ command.registration.tag?, tag ∉ ui.scene.mount.dropTags := by
      intro tag htag
      have hall : command.registration.tag?.all (!ui.scene.mount.dropTags.contains ·) = true :=
        hfair
      rw [Option.mem_def.mp htag, Option.all_some] at hall
      simpa using hall
    cases hnext : ui.perform command with
    | mk result after =>
      have hafter : (ui.perform command).2 = after := congrArg Prod.snd hnext
      cases result with
      | ok _ =>
        have hperformed := h.perform command (congrArg Prod.fst hnext) hfree
        rw [hafter] at hperformed
        simpa only [Turn.take, hnext] using hperformed
      | error err =>
        have hrefused := h.refuse command (congrArg Prod.fst hnext)
        rw [hafter] at hrefused
        simpa only [Turn.take, hnext] using hrefused

/-- So do fair turns, one after the other. -/
theorem History.takeAll [Coordinate κ] {turns : List (Turn κ)} {state : Record κ × Ui κ}
    (h : History state.1 state.2) (hfair : Turn.allFair turns state = true) :
    History (Turn.takeAll turns state).1 (Turn.takeAll turns state).2 := by
  induction turns generalizing state with
  | nil => exact h
  | cons turn rest ih =>
    rw [Turn.allFair, Bool.and_eq_true] at hfair
    exact ih (h.take hfair.1) hfair.2

end ShadowMount
