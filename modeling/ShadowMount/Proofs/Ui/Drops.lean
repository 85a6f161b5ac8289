import ShadowMount.Proofs.Ui.Journal

/-!
# Drops

The view of a removed node is dropped by the next flush, after everything else. From then on the tag
stands for no view, until a create makes one, or until the tag is registered as a root, whose view
the platform owns and for which no create is sent.

* **`Lawful.isViewed`** — no view comes from nowhere.
* **`History.drop_discipline`** — what holds of the drops of every run.
* **`History.mention_without_create`** — a root that is registered again is named without a create.
-/

namespace ShadowMount

variable {κ : Type}

/-- Whether there is a view. -/
def Standing.isViewed : Standing → Bool
  | shown _ | doomed _ => true
  | absent | hidden => false

/-- Whether an event brings a view: a create of it, or the registration of a root. -/
def Event.brings (tag : Tag) : Event κ → Bool
  | register t isRoot => t == tag && isRoot
  | unregister .. => false
  | enqueue operation .. => operation.isCreate && operation.target? == some tag

/-! ## Views come and go

A view comes by a create or with the registration of a root, and goes by a drop. In between the
standing of its tag says that it is there, so an operation that names the tag after a drop has one
of the two before it. -/

/-- Where there is no view there is none after an event that brings none. -/
theorem Event.Leads.isViewed {s done : Tag → Standing} {event : Event κ} (h : event.Leads s done)
    {tag : Tag} (hbrings : event.brings tag = false) (hnone : (s tag).isViewed = false) :
    (done tag).isViewed = false := by
  by_cases hsubject : event.subject? = some tag
  · cases h with
    -- by the kind of the event: registering a root and a create bring a view and are ruled out, an
    -- unregistered node without a view leaves none, and a drop takes the view away
    | @register _ _ isRoot =>
      cases hsubject
      rw [Event.brings, beq_self_eq_true, Bool.true_and] at hbrings
      rw [Function.update_self, hbrings]
      rfl
    | unregister =>
      cases hsubject
      rw [Function.update_self]
      cases hstanding : s tag with
      | absent => rfl
      | hidden => rfl
      | shown isRoot =>
        rw [hstanding] at hnone
        cases hnone
      | doomed isRoot =>
        rw [hstanding] at hnone
        cases hnone
    | create =>
      cases hsubject
      rw [Event.brings, Operation.isCreate, Operation.target?, beq_self_eq_true] at hbrings
      cases hbrings
    | @drop _ _ _ drop =>
      obtain rfl : drop.tag = tag :=
        Option.some.inj (drop.target?_operation.symm.trans hsubject)
      rw [Function.update_self]
      rfl
    | plain => exact hnone
  · rw [h.eq_of_ne hsubject, hnone]

/-- Without an event that brings it, a view does not come. -/
theorem Lawful.isViewed {s done : Tag → Standing} {events : List (Event κ)}
    (h : Lawful s events done) {tag : Tag} (hbrings : ∀ event ∈ events, event.brings tag = false)
    (hnone : (s tag).isViewed = false) : (done tag).isViewed = false := by
  induction h with
  | nil => exact hnone
  | cons hfirst _ ih =>
    obtain ⟨hbrings, hrest⟩ := List.forall_mem_cons.mp hbrings
    exact ih hrest (hfirst.isViewed hbrings hnone)

/-- An operation names views, but for the one that a create makes. -/
theorem Event.Leads.isViewed_of_mentions {s done : Tag → Standing} {operation : Operation κ}
    {before after : Tree κ} (h : (Event.enqueue operation before after).Leads s done) {tag : Tag}
    (hmem : tag ∈ operation.mentions)
    (hbrings : (Event.enqueue operation before after).brings tag = false) :
    (s tag).isViewed = true := by
  -- a create makes the view that it names; a drop finds it doomed; others find it shown
  cases h with
  | create =>
    obtain rfl := List.mem_singleton.mp hmem
    rw [Event.brings, Operation.isCreate, Operation.target?, beq_self_eq_true] at hbrings
    cases hbrings
  | drop hdoomed =>
    rw [PendingDrop.mentions_operation, List.mem_singleton] at hmem
    rw [hmem, hdoomed]
    rfl
  | plain _ hshown =>
    obtain ⟨isRoot, hstanding⟩ := hshown tag hmem
    rw [hstanding]
    rfl

/-- After a drop there is no view. -/
theorem Event.Leads.isViewed_of_isDrop {s done : Tag → Standing} {operation : Operation κ}
    {before after : Tree κ} (h : (Event.enqueue operation before after).Leads s done) {tag : Tag}
    (hdrop : operation.isDrop = true) (hmem : tag ∈ operation.mentions) :
    (done tag).isViewed = false := by
  cases h with
  | create => cases hdrop
  | drop =>
    rw [PendingDrop.mentions_operation, List.mem_singleton] at hmem
    rw [hmem, Function.update_self]
    rfl
  | plain hplain =>
    rw [(Operation.isPlain_iff.mp hplain).2] at hdrop
    cases hdrop

/-- Between a drop and the next operation that names the tag, something brings a view. -/
theorem Lawful.brings_of_mentions {s done : Tag → Standing} {earlier between later : List (Event κ)}
    {dropped operation : Operation κ} {before after before' after' : Tree κ} {tag : Tag}
    (h : Lawful s (earlier ++ .enqueue dropped before after ::
      (between ++ .enqueue operation before' after' :: later)) done)
    (hdrop : dropped.isDrop = true) (hdropped : tag ∈ dropped.mentions)
    (hmem : tag ∈ operation.mentions) :
    ∃ event ∈ between ++ [.enqueue operation before' after'], event.brings tag = true := by
  -- the drop takes the view away, and without a bringing event there is none when it is named
  obtain ⟨mid, -, hrest⟩ := h.split
  obtain _ | ⟨hdropping, hrest⟩ := hrest
  obtain ⟨last, hbetween, hrest⟩ := hrest.split
  obtain _ | ⟨hnaming, -⟩ := hrest
  by_contra hno
  have hnone : ∀ event ∈ between ++ [Event.enqueue operation before' after'],
      event.brings tag = false :=
    fun event hevent => Bool.eq_false_iff.mpr fun hbrings => hno ⟨event, hevent, hbrings⟩
  obtain ⟨hbrings, hlast⟩ := List.forall_mem_append.mp hnone
  have hunviewed := hbetween.isViewed hbrings (hdropping.isViewed_of_isDrop hdrop hdropped)
  rw [hnaming.isViewed_of_mentions hmem (hlast _ (List.mem_singleton_self _))] at hunviewed
  cases hunviewed

/-! ## Runs

The record keeps the drops that commands call for, and a flush ends with just these. -/

section Runs

variable [Coordinate κ] {record : Record κ} {ui : Ui κ}

/-- The nodes that a command removes are those that the tree loses. -/
theorem Effect.mem_removals_iff {managers : Managers} {registration : Registration}
    {removals : List Tag} {scene done : Scene κ}
    (h : Effect managers registration removals scene done) : removals.Nodup ∧
      ∀ tag, tag ∈ removals ↔ scene.tree.contains tag = true ∧ done.tree.contains tag = false := by
  cases h with
  | addRoot hfree =>
    -- a new node takes nothing away from the tree
    refine ⟨.nil, fun tag => ⟨nofun, ?_⟩⟩
    rintro ⟨hbefore, hafter⟩
    rw [(Tree.registered_withRootNode hfree).contains, hbefore, Bool.or_true] at hafter
    cases hafter
  | create hfresh hcreated hfree =>
    refine ⟨.nil, fun tag => ⟨nofun, ?_⟩⟩
    rintro ⟨hbefore, hafter⟩
    rw [(Tree.registered_store hfresh hfree).contains, hbefore, Bool.or_true] at hafter
    cases hafter
  | trim htrimmed =>
    -- what is cut off is what the tree loses
    refine ⟨htrimmed.nodup, fun tag => ?_⟩
    rw [Bool.eq_false_iff, Ne, htrimmed.contains_iff, not_and_not_right]
    exact ⟨fun hgone => ⟨htrimmed.registered hgone, fun _ => hgone⟩, fun h => h.2 h.1⟩
  | active h =>
    -- touches keep the registered nodes
    refine ⟨.nil, fun tag => ⟨nofun, ?_⟩⟩
    rintro ⟨hbefore, hafter⟩
    have hstamp := congrArg Option.isSome ((Touches.stamps h.touches).2 tag)
    rw [Option.isSome_map, Option.isSome_map] at hstamp
    rw [Tree.contains, hstamp] at hafter
    rw [Tree.contains, hafter] at hbefore
    cases hbefore

/-- A flush ends with the drops called for since the last one, and has no others. -/
theorem History.flush_drops (h : History record ui) {report : PassReport κ} {after : Ui κ}
    {flush : Flush κ} (hpass : ui.Passes report after) (hflush : report.flush = some flush) :
    ∃ body, flush.operations = body ++ record.drops.map PendingDrop.operation ∧
      ∀ operation ∈ body, operation.isDrop = false := by
  rcases hpass.cases h.reachable.sound h.reachable.anchored with
    ⟨hnone, -⟩ | ⟨flush', hsome, hflushes⟩
  · rw [hnone] at hflush
    cases hflush
  · obtain rfl : flush' = flush := Option.some.inj (hsome.symm.trans hflush)
    -- the operations of a pass are sends, the drops follow behind them
    obtain ⟨added, hoperations, hkinds, -⟩ := hflushes.operations
    refine ⟨ui.scene.mount.queue ++ added, ?_, ?_⟩
    · rw [hoperations, h.tracks.drops, List.append_assoc]
    · exact List.forall_mem_append.mpr ⟨h.tracks.undropped, hkinds⟩

/-- The operations of a run, flushed or pending, and its drops. A flush ends with one drop for each
view whose node was removed since the last flush, a root's view dropped as such, and has no drop
before these. The nodes that a command removes are those that the tree loses; their drops come after
those of earlier commands, in the order of removal, and the views below a removed node are dropped
before its own. After its drop a tag is not named by any operation until a create makes a new view
or the tag is registered as a root. -/
theorem History.drop_discipline (h : History record ui) :
    record.operations = record.delivered ++ ui.scene.mount.queue ∧
    (∀ {report after flush}, ui.Passes report after → report.flush = some flush →
      ∃ body, flush.operations = body ++ record.drops.map PendingDrop.operation ∧
        ∀ operation ∈ body, operation.isDrop = false) ∧
    (record.drops.map PendingDrop.tag).Nodup ∧
    (∀ {command}, (ui.perform command).1 = .ok () →
      (command.removals ui.scene.tree).Nodup ∧
      (∀ tag, tag ∈ command.removals ui.scene.tree ↔ ui.scene.tree.contains tag = true ∧
        (ui.perform command).2.scene.tree.contains tag = false) ∧
      (record.afterCommand command.registration (command.removals ui.scene.tree) ui.scene
        (ui.perform command).2.scene).drops = record.drops ++
          ((command.removals ui.scene.tree).filter ui.scene.tree.createdAt).map
            fun tag => ⟨tag, ui.scene.tree.isRoot tag⟩) ∧
    (∀ {tag below before}, .unregister tag before ∈ record.recent →
      before.createdAt tag = true → before.Ancestor tag below → before.createdAt below = true →
      [⟨below, before.isRoot below⟩, ⟨tag, before.isRoot tag⟩].Sublist record.drops) ∧
    (∀ {earlier between later dropped operation before after before' after' tag},
      record.events = earlier ++ .enqueue dropped before after ::
        (between ++ .enqueue operation before' after' :: later) →
      dropped.isDrop = true → tag ∈ dropped.mentions → tag ∈ operation.mentions →
      ∃ event ∈ between ++ [.enqueue operation before' after'], event.brings tag = true) := by
  have htracks := h.tracks
  refine ⟨htracks.operations, h.flush_drops, ?_, ?_, htracks.descendants_first, ?_⟩
  · have honce := htracks.dropped_once
    rwa [MountState.dropTags, htracks.drops] at honce
  · intro command hok
    -- the effect of the command says what it removes
    obtain ⟨done, hdone, heffect⟩ := Ui.effect_of_ok h.reachable.sound hok
    obtain ⟨hnodup, hmem⟩ := heffect.mem_removals_iff
    rw [hdone]
    exact ⟨hnodup, hmem, record.drops_afterCommand ..⟩
  · intro earlier between later dropped operation before after before' after' tag hevents
    have hlawful := htracks.lawful
    rw [hevents] at hlawful
    exact hlawful.brings_of_mentions

end Runs

/-- A scroller inside a scroller; the outer one is removed after the first pass. -/
def nestedScrollers : Record Float32 × Ui Float32 :=
  Turn.takeAll [.perform (.addRoot 1 0 0), .perform (.create 2 "ScrollView" 1 .empty),
    .perform (.create 3 "ScrollView" 1 .empty), .perform (.prependChildren 2 [3]),
    .perform (.prependChildren 1 [2]), .pass, .perform (.editChildren 1 { removeFrom := [0] })]
    ({}, Ui.new Managers.builtins {})

/-- The next flush drops the inner view before the outer one. -/
theorem History.drop_discipline_nestedScrollers : ∃ flush body,
    nestedScrollers.2.runPass.1.flush = some flush ∧
      flush.operations = body ++ [.drop 3, .drop 2] ∧
      ∀ operation ∈ body, operation.isDrop = false := by
  have h : History nestedScrollers.1 nestedScrollers.2 :=
    History.takeAll (.start Managers.builtins {}) (by decide +kernel)
  have hdrops : nestedScrollers.1.drops = [⟨3, false⟩, ⟨2, false⟩] := by decide +kernel
  obtain ⟨refreshed, log, -, -, hpass⟩ := Ui.runPass_sound h.reachable.sound
  have hflush : nestedScrollers.2.runPass.1.flush = some refreshed.mount.closePass.1 :=
    congrArg (·.1.flush) hpass
  obtain ⟨-, hflushed, -⟩ := h.drop_discipline
  obtain ⟨body, hoperations, hbody⟩ := hflushed .plain hflush
  rw [hdrops] at hoperations
  exact ⟨_, body, hflush, hoperations, hbody⟩

/-- A root is removed and, after a pass, registered again; then a scroller is placed below it. -/
def returningRoot : Record Float32 × Ui Float32 :=
  Turn.takeAll [.perform (.addRoot 1 0 0), .perform (.removeRoot 1), .pass,
    .perform (.addRoot 1 0 0), .perform (.create 2 "ScrollView" 1 .empty),
    .perform (.prependChildren 1 [2]), .pass]
    ({}, Ui.new Managers.builtins {})

/-- It does not take a create for a tag to be named again after its drop: the platform brings the
view of a root. -/
theorem History.mention_without_create :
    ¬ ∀ {record : Record Float32} {ui : Ui Float32}, History record ui →
      ∀ {earlier between later : List (Operation Float32)}
        {dropped operation : Operation Float32} {tag : Tag},
      record.operations = earlier ++ dropped :: (between ++ operation :: later) →
      dropped.isDrop = true → tag ∈ dropped.mentions → tag ∈ operation.mentions →
      ∃ create ∈ between ++ [operation], create.isCreate = true ∧ create.target? = some tag := by
  intro hall
  have h : History returningRoot.1 returningRoot.2 :=
    History.takeAll (.start Managers.builtins {}) (by decide +kernel)
  have hshape : returningRoot.1.operations.map (fun op => (op.isDrop, op.isCreate, op.mentions)) =
      [(true, false, [1]), (false, true, [2]), (false, false, [2, 1]), (false, false, [1, 2])] := by
    decide +kernel
  obtain ⟨dropped, rest, hoperations, hdropped, hshape⟩ := List.map_eq_cons_iff.mp hshape
  obtain ⟨made, rest, rfl, hmade, hshape⟩ := List.map_eq_cons_iff.mp hshape
  obtain ⟨framed, rest, rfl, hframed, -⟩ := List.map_eq_cons_iff.mp hshape
  simp only [Prod.mk.injEq] at hdropped hmade hframed
  obtain ⟨create, hmem, hcreate, htarget⟩ := @hall _ _ h [] [made] rest dropped framed 1 hoperations
    hdropped.1 (by rw [hdropped.2.2]; decide) (by rw [hframed.2.2]; decide)
  rcases List.mem_cons.mp hmem with rfl | hmem
  · -- the one create is that of the scroller
    have hnamed := Operation.mem_mentions_of_target? htarget
    rw [hmade.2.2] at hnamed
    revert hnamed
    decide
  · rw [List.mem_singleton.mp hmem, hframed.2.1] at hcreate
    cases hcreate

end ShadowMount
