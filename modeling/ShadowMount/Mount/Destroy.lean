import ShadowMount.Mount.State

/-!
# Destruction

Destroying a subtree schedules the drop of each of its views, children before parents, and
removes its nodes from the tree. The drops are sent by the next flush.
-/

namespace ShadowMount.Mount

open MountM

variable {κ : Type}

/-- Schedules the drop of a view. With pruning on, what is still queued for the view is discarded,
its create excepted. -/
def scheduleDrop (tag : Tag) (isRoot : Bool) : MountM κ Unit := do
  let state := (← get).mount
  if state.config.pruneDrops then
    let pruned := state.queue.prunedCount tag
    if pruned ≠ 0 then
      say .debug s!"pruned {pruned} pending operations for dropped view {tag}"
    onMount (·.prune tag)
  if state.config.logDrops then
    say .info s!"dropping view {tag}"
  onMount (·.forget tag isRoot)

/-- Drops the views of a subtree and removes it from the tree. Answers the removed tags. -/
def destroySubtree (tag : Tag) : MountM κ (List Tag) := do
  (← query (·.postOrder tag)).forM fun member => do
    if (← node member).created then
      scheduleDrop member ((← get).tree.isRoot member)
  onTree (Tree.removeSubtree tag)

/-- Destroys a root with everything below it. Answers the removed tags. -/
def destroyRoot (root : Tag) : MountM κ (List Tag) := do
  if (← get).tree.isRoot root then destroySubtree root
  else throw (.contract (.notARoot root))

end ShadowMount.Mount
