import ShadowMount.Proofs.Native.Links

/-!
# Replaying the queue

What the native side will be once the queue is executed. With pruning on, a destroyed view takes
the operations addressed to it out of the queue after the fact, so the queue is replayed with the
operations of any set of tags left out. Leaving out is what pruning does, and creates always stay.

* **`queue_scheduledAll`** — scheduling drops is such a pruning.
* **`replay_enqueue`**, **`replay_scheduledAll`** — how a replay changes with the queue.
-/

namespace ShadowMount

variable {κ : Type}

/-- Whether an operation is executed when those addressed to the tags of `skip` are left out,
creates excepted. -/
def Operation.survives (skip : Tag → Bool) (operation : Operation κ) : Bool :=
  operation.isCreate || !operation.target?.any skip

namespace Operation

/-! ## What a queue keeps

`survives` is monotone in what is skipped: skipping the tags of two sets is skipping those of one
and then those of the other. This is why drops can prune a queue one by one. -/

/-- Operations survive two sets of tags if they survive each. -/
theorem survives_or (skip skip' : Tag → Bool) (operation : Operation κ) :
    operation.survives (fun t => skip t || skip' t) =
      (operation.survives skip && operation.survives skip') := by
  simp only [survives]
  cases operation.isCreate with
  | true => rfl
  | false =>
    cases operation.target? with
    | none => rfl
    | some t => simp only [Option.any_some, Bool.false_or, Bool.not_or]

/-- Pruning for one view more. -/
theorem survives_concat (tags : List Tag) (tag : Tag) (operation : Operation κ) :
    operation.survives (tags ++ [tag]).contains =
      (operation.survives tags.contains && operation.survives (· == tag)) := by
  rw [← survives_or]
  refine congrArg (survives · operation) (funext fun t => ?_)
  rw [List.contains_append, List.contains_cons, List.contains_nil, Bool.or_false]

/-- Without tags to skip, every operation survives. -/
theorem survives_none (operation : Operation κ) : operation.survives (fun _ => false) = true := by
  rw [survives]
  cases operation.target? <;> simp

/-- Creates always survive. -/
theorem survives_of_created? (skip : Tag → Bool) {operation : Operation κ}
    (h : operation.created? ≠ none) : operation.survives skip = true := by
  cases operation with
  | create => rfl
  | _ => exact absurd rfl h

/-- An operation survives if the tag it is addressed to is not skipped. -/
theorem survives_of_target? {skip : Tag → Bool} {operation : Operation κ} {tag : Tag}
    (htarget : operation.target? = some tag) (hkept : skip tag = false) :
    operation.survives skip = true := by
  rw [survives, htarget, Option.any_some, hkept, Bool.not_false, Bool.or_true]

end Operation

namespace Native.Hierarchy

/-- The hierarchy once a queue is executed without the operations addressed to tags of `skip`. -/
def replay (h : Hierarchy κ) (skip : Tag → Bool) (queue : OperationQueue κ) : Hierarchy κ :=
  (queue.filter (Operation.survives skip)).foldl execute h

/-! ## Replays and the queue -/

/-- An enqueued operation is executed last, if it survives. -/
theorem replay_enqueue (h : Hierarchy κ) (skip : Tag → Bool) (queue : OperationQueue κ)
    (operation : Operation κ) : h.replay skip (queue.enqueue operation) =
      if operation.survives skip then (h.replay skip queue).execute operation
      else h.replay skip queue := by
  rw [replay, OperationQueue.enqueue, List.filter_append, List.foldl_append]
  cases hsurvives : operation.survives skip with
  | true => rw [List.filter_cons_of_pos hsurvives]; rfl
  | false => rw [List.filter_cons_of_neg (by rw [hsurvives]; decide)]; rfl

/-- A replay that leaves nothing out executes the queue. -/
theorem replay_skip_none (h : Hierarchy κ) (queue : OperationQueue κ) :
    h.replay (fun _ => false) queue = queue.foldl execute h := by
  rw [replay, List.filter_eq_self.mpr fun operation _ => operation.survives_none]

end Native.Hierarchy

namespace MountState

open Native

variable {isRoot : Tag → Bool}

/-- The tags whose drops are pending. -/
def dropTags (state : MountState κ) : List Tag := state.drops.map PendingDrop.tag

/-! How scheduling drops changes a mount state. Each field is described for one drop and then, by
induction on the list, for many. The frames still to be reported and what was sent lose the dropped
tags, and the configuration stays. -/

theorem dropTags_childrenSent (state : MountState κ) (tag : Tag) (children : List Tag) :
    (state.childrenSent tag children).dropTags = state.dropTags :=
  congrArg (·.2.1.map PendingDrop.tag) (state.fixtures_childrenSent tag children)

theorem config_scheduled (state : MountState κ) (tag : Tag) (isRoot : Bool) :
    (state.scheduled tag isRoot).config = state.config := by
  unfold scheduled
  split <;> rfl

theorem drops_scheduled (state : MountState κ) (tag : Tag) (isRoot : Bool) :
    (state.scheduled tag isRoot).drops = state.drops ++ [⟨tag, isRoot⟩] := by
  unfold scheduled
  split <;> rfl

theorem dropTags_scheduled (state : MountState κ) (tag : Tag) (isRoot : Bool) :
    (state.scheduled tag isRoot).dropTags = state.dropTags ++ [tag] := by
  rw [dropTags, drops_scheduled, List.map_append]
  rfl

theorem drops_scheduledAll : ∀ (tags : List Tag) (state : MountState κ),
    (state.scheduledAll isRoot tags).drops = state.drops ++ tags.map fun t => ⟨t, isRoot t⟩
  | [], state => (List.append_nil _).symm
  | tag :: rest, state => by
    show ((state.scheduled tag (isRoot tag)).scheduledAll isRoot rest).drops = _
    rw [drops_scheduledAll rest, drops_scheduled, List.append_assoc]
    rfl

theorem dropTags_scheduledAll (tags : List Tag) (state : MountState κ) :
    (state.scheduledAll isRoot tags).dropTags = state.dropTags ++ tags := by
  rw [dropTags, drops_scheduledAll, List.map_append, List.map_map, dropTags]
  exact congrArg _ (List.map_id' tags)

theorem sent_scheduled (state : MountState κ) (tag : Tag) (isRoot : Bool) {other : Tag}
    (hne : other ≠ tag) : (state.scheduled tag isRoot).sent other = state.sent other := by
  have herase : ∀ s : MountState κ, (s.forget tag isRoot).sent other = s.sent other := by
    intro s
    show (s.sentStates.erase tag)[other]?.getD {} = _
    rw [Std.ExtTreeMap.getElem?_erase, if_neg (by simpa using Ne.symm hne)]
    rfl
  unfold scheduled
  split
  · exact herase _
  · exact herase _

theorem sent_scheduledAll : ∀ (tags : List Tag) (state : MountState κ) {other : Tag},
    other ∉ tags → (state.scheduledAll isRoot tags).sent other = state.sent other
  | [], _, _, _ => rfl
  | tag :: rest, state, other, hnot => by
    have hne : other ≠ tag := fun heq => hnot (heq ▸ List.mem_cons_self ..)
    exact (sent_scheduledAll rest _ fun hmem => hnot (List.mem_cons_of_mem _ hmem)).trans
      (sent_scheduled state tag (isRoot tag) hne)

theorem config_scheduledAll : ∀ (tags : List Tag) (state : MountState κ),
    (state.scheduledAll isRoot tags).config = state.config
  | [], _ => rfl
  | tag :: rest, state =>
    (config_scheduledAll rest _).trans (config_scheduled state tag (isRoot tag))

/-- What was sent for the dropped views is forgotten. -/
theorem sentStates_scheduledAll : ∀ (tags : List Tag) (state : MountState κ) (other : Tag),
    (state.scheduledAll isRoot tags).sentStates[other]? =
      if other ∈ tags then none else state.sentStates[other]?
  | [], _, _ => rfl
  | tag :: rest, state, other => by
    have hfirst : (state.scheduled tag (isRoot tag)).sentStates[other]? =
        if other = tag then none else state.sentStates[other]? := by
      have herase : (state.scheduled tag (isRoot tag)).sentStates = state.sentStates.erase tag := by
        unfold scheduled
        split <;> rfl
      rw [herase, Std.ExtTreeMap.getElem?_erase]
      by_cases heq : other = tag
      · simp [heq]
      · rw [if_neg heq, if_neg (by simpa using Ne.symm heq)]
    show ((state.scheduled tag (isRoot tag)).scheduledAll isRoot rest).sentStates[other]? = _
    rw [sentStates_scheduledAll rest, hfirst]
    by_cases hmem : other ∈ rest <;> simp [hmem]

theorem frameChanges_scheduled (state : MountState κ) (tag : Tag) (isRoot : Bool) :
    (state.scheduled tag isRoot).frameChanges = state.frameChanges.filter (·.1 != tag) := by
  unfold scheduled
  split <;> rfl

/-- The frames of the dropped views are not reported. -/
theorem frameChanges_scheduledAll : ∀ (tags : List Tag) (state : MountState κ),
    (state.scheduledAll isRoot tags).frameChanges = state.frameChanges.filter (·.1 ∉ tags)
  | [], state => (List.filter_eq_self.mpr fun _ _ => by simp).symm
  | tag :: rest, state => by
    show ((state.scheduled tag (isRoot tag)).scheduledAll isRoot rest).frameChanges = _
    rw [frameChanges_scheduledAll rest, frameChanges_scheduled, List.filter_filter]
    refine List.filter_congr fun entry _ => ?_
    rw [Bool.and_comm, bne, Bool.beq_eq_decide_eq]
    simp

/-- With pruning on, scheduling a drop takes the operations addressed to its tag out of the queue,
creates excepted. With pruning off it takes none. -/
theorem queue_scheduled (state : MountState κ) (tag : Tag) (isRoot : Bool) :
    (state.scheduled tag isRoot).queue =
      state.queue.filter (Operation.survives fun t => state.config.pruneDrops && t == tag) := by
  unfold scheduled
  cases hprune : state.config.pruneDrops with
  | true =>
    rw [if_pos rfl]
    refine List.filter_congr fun operation _ => ?_
    rw [Operation.survivesPruning, Operation.survives]
    cases operation.target? <;> rfl
  | false =>
    rw [if_neg Bool.false_ne_true]
    exact (List.filter_eq_self.mpr fun operation _ => operation.survives_none).symm

/-- Scheduling drops takes the operations of the dropped views out of the queue, if pruning is on. -/
theorem queue_scheduledAll : ∀ (tags : List Tag) (state : MountState κ),
    (state.scheduledAll isRoot tags).queue =
      state.queue.filter (Operation.survives fun t => state.config.pruneDrops && tags.contains t)
  | [], state => by
    simp only [List.contains_nil, Bool.and_false]
    exact (List.filter_eq_self.mpr fun operation _ => operation.survives_none).symm
  | tag :: rest, state => by
    show ((state.scheduled tag (isRoot tag)).scheduledAll isRoot rest).queue = _
    rw [queue_scheduledAll rest, queue_scheduled, config_scheduled, List.filter_filter]
    refine List.filter_congr fun operation _ => ?_
    rw [← Operation.survives_or]
    refine congrArg (Operation.survives · operation) (funext fun t => ?_)
    rw [List.contains_cons, Bool.and_or_distrib_left, Bool.or_comm]

/-- Replaying the queue after drops were scheduled is replaying the one before, with the operations
to the dropped tags left out too if pruning is on. -/
theorem replay_scheduledAll (h : Hierarchy κ) (tags : List Tag) (skip : Tag → Bool)
    (state : MountState κ) : h.replay skip (state.scheduledAll isRoot tags).queue =
      h.replay (fun t => skip t || state.config.pruneDrops && tags.contains t) state.queue := by
  rw [Hierarchy.replay, Hierarchy.replay, queue_scheduledAll, List.filter_filter]
  exact congrArg (List.foldl Hierarchy.execute h)
    (List.filter_congr fun operation _ => (operation.survives_or ..).symm)

end MountState

end ShadowMount
