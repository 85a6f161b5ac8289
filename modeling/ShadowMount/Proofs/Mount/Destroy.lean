import ShadowMount.Mount.Destroy
import ShadowMount.Proofs.Tree.Relink

/-!
# Destroyed subtrees

On a well-formed tree, destroying a registered subtree always succeeds. The tree loses the subtree
and the mount state gets one drop for each of its views, in post-order; nothing else of the scene
changes but the log.

* **`destroySubtree_ok`** — the result, spelled out.
-/

namespace ShadowMount

namespace MountState

variable {κ : Type}

/-- The mount state once the drop of a view is scheduled. -/
def scheduled (state : MountState κ) (tag : Tag) (isRoot : Bool) : MountState κ :=
  (if state.config.pruneDrops then state.prune tag else state).forget tag isRoot

/-- The mount state once the drops of several views are scheduled. -/
def scheduledAll (state : MountState κ) (isRoot : Tag → Bool) (tags : List Tag) : MountState κ :=
  tags.foldl (fun state tag => state.scheduled tag (isRoot tag)) state

/-- Scheduling in two parts. -/
theorem scheduledAll_append (state : MountState κ) (isRoot : Tag → Bool) (tags tags' : List Tag) :
    state.scheduledAll isRoot (tags ++ tags') =
      (state.scheduledAll isRoot tags).scheduledAll isRoot tags' :=
  List.foldl_append

/-- Scheduling drops leaves an open pass open. -/
theorem passOpen_scheduledAll (isRoot : Tag → Bool) : ∀ (tags : List Tag) (state : MountState κ),
    (state.scheduledAll isRoot tags).passOpen = state.passOpen
  | [], _ => rfl
  | tag :: rest, state => by
    have hfirst : (state.scheduled tag (isRoot tag)).passOpen = state.passOpen := by
      unfold scheduled
      split <;> rfl
    exact (passOpen_scheduledAll isRoot rest _).trans hfirst

end MountState

namespace Mount

open MountM

variable {κ : Type} {tree : Tree κ} {mount : MountState κ} {log : List Log.Line}

/-- Scheduling a drop succeeds under any configuration. The switches decide on the queue and the
log. -/
theorem scheduleDrop_ok (tree : Tree κ) (mount : MountState κ) (log : List Log.Line) (tag : Tag)
    (isRoot : Bool) : ∃ log',
    scheduleDrop tag isRoot ⟨tree, mount, log⟩ =
      .ok () ⟨tree, mount.scheduled tag isRoot, log'⟩ := by
  -- the last part is the same whether or not anything was pruned
  have hforget : ∀ (state : MountState κ) (log : List Log.Line), ∃ log',
      (do
        if mount.config.logDrops then
          say .info s!"dropping view {tag}"
        onMount (·.forget tag isRoot) : MountM κ Unit) ⟨tree, state, log⟩ =
          .ok () ⟨tree, state.forget tag isRoot, log'⟩ := by
    intro state log
    cases mount.config.logDrops with
    | true => exact ⟨_, rfl⟩
    | false => exact ⟨_, rfl⟩
  unfold MountState.scheduled
  -- with pruning, the number of discarded operations is logged if there are any
  cases hprune : mount.config.pruneDrops with
  | false =>
    obtain ⟨log', hlog'⟩ := hforget mount log
    refine ⟨log', ?_⟩
    rw [scheduleDrop, get_bind]
    simp only [hprune, Bool.false_eq_true, ↓reduceIte]
    exact hlog'
  | true =>
    by_cases hcount : mount.queue.prunedCount tag = 0
    · obtain ⟨log', hlog'⟩ := hforget (mount.prune tag) log
      refine ⟨log', ?_⟩
      rw [scheduleDrop, get_bind]
      simp only [hprune, ↓reduceIte, hcount, ne_eq, not_true_eq_false]
      exact hlog'
    · obtain ⟨log', hlog'⟩ := hforget (mount.prune tag) (log ++ [⟨.debug,
        s!"pruned {mount.queue.prunedCount tag} pending operations for dropped view {tag}"⟩])
      refine ⟨log', ?_⟩
      rw [scheduleDrop, get_bind]
      simp only [hprune, ↓reduceIte, hcount, ne_eq, not_false_eq_true]
      exact hlog'

/-- The loop over the members of a subtree schedules a drop for each created one. -/
theorem scheduleDrops_ok : ∀ {members : List Tag} (mount : MountState κ) (log : List Log.Line),
    (∀ x ∈ members, tree.contains x = true) → ∃ log',
      (members.forM fun member => do
        if (← node member).created then
          scheduleDrop member ((← get).tree.isRoot member) : MountM κ Unit) ⟨tree, mount, log⟩ =
        .ok () ⟨tree, mount.scheduledAll tree.isRoot (members.filter tree.createdAt), log'⟩
  | [], mount, log, _ => ⟨log, rfl⟩
  | member :: rest, mount, log, hall => by
    obtain ⟨found, hget⟩ := Tree.contains_iff.mp (hall member (List.mem_cons_self ..))
    -- looking the member up succeeds, as members are registered
    have hnode : node member ⟨tree, mount, log⟩ = .ok found ⟨tree, mount, log⟩ := node_of_get? hget
    have hrest : ∀ x ∈ rest, tree.contains x = true :=
      fun x hx => hall x (List.mem_cons_of_mem _ hx)
    have hcreatedAt := Tree.createdAt_of_get? hget
    -- a member with a view is dropped, one without is passed over
    cases hcreated : found.created with
    | true =>
      obtain ⟨mid, hdrop⟩ := scheduleDrop_ok tree mount log member (tree.isRoot member)
      obtain ⟨log', hlog'⟩ :=
        scheduleDrops_ok (mount.scheduled member (tree.isRoot member)) mid hrest
      refine ⟨log', ?_⟩
      rw [List.filter_cons_of_pos (by rw [hcreatedAt, hcreated])]
      refine (forM_cons_of_ok ?_).trans hlog'
      rw [bind_of_ok hnode, if_pos hcreated]
      exact hdrop
    | false =>
      obtain ⟨log', hlog'⟩ := scheduleDrops_ok mount log hrest
      refine ⟨log', ?_⟩
      rw [List.filter_cons_of_neg (by rw [hcreatedAt, hcreated]; exact Bool.false_ne_true)]
      refine (forM_cons_of_ok ?_).trans hlog'
      rw [bind_of_ok hnode, if_neg (by rw [hcreated]; exact Bool.false_ne_true)]
      rfl

/-- Destroying a registered subtree: its nodes go and its views are dropped in post-order. -/
theorem destroySubtree_ok (mount : MountState κ) (log : List Log.Line) (hwf : tree.WellFormed)
    {tag : Tag} (ht : tree.contains tag = true) : ∃ members log',
      tree.postOrder tag = .ok members ∧ destroySubtree tag ⟨tree, mount, log⟩ =
        .ok members ⟨tree.withoutSubtree tag members,
          mount.scheduledAll tree.isRoot (members.filter tree.createdAt), log'⟩ := by
  obtain ⟨members, hmembers, hmem, -⟩ := Tree.postOrder_spec hwf ht
  have hall : ∀ x ∈ members, tree.contains x = true := by
    intro x hx
    rcases (hmem x).mp hx with rfl | hanc
    · exact ht
    · exact hanc.contains
  -- the drops are scheduled before any node is removed
  obtain ⟨log', hdrops⟩ := scheduleDrops_ok mount log hall
  refine ⟨members, log', hmembers, ?_⟩
  unfold destroySubtree
  rw [bind_of_ok (query_of_ok hmembers), bind_of_ok hdrops]
  exact onTree_of_ok (Tree.removeSubtree_of_contains hwf ht hmembers)

/-- An unregistered subtree cannot be destroyed, and nothing changes. -/
theorem destroySubtree_of_missing {scene : Scene κ} {tag : Tag} (hget : scene.tree.get? tag = none) :
    destroySubtree tag scene = .error (.missing tag) scene := by
  -- the post-order already fails, on its first node
  have hquery : scene.tree.postOrder tag = .error (.missing tag) := by
    rw [Tree.postOrder, Tree.budget, Tree.postOrderFrom, Tree.children,
      Tree.node_of_get?_none hget]
    rfl
  rw [destroySubtree, bind_of_error (query_of_error hquery)]

/-- The destruction of a subtree fails without a change, or takes out the subtree and schedules the
drops of its views. -/
theorem destroySubtree_cases {scene : Scene κ} (hwf : scene.tree.WellFormed) (tag : Tag) :
    (∃ err, destroySubtree tag scene = .error err scene) ∨
    ∃ members log, scene.tree.contains tag = true ∧ scene.tree.postOrder tag = .ok members ∧
      destroySubtree tag scene = .ok members ⟨scene.tree.withoutSubtree tag members,
        scene.mount.scheduledAll scene.tree.isRoot (members.filter scene.tree.createdAt), log⟩ := by
  cases hget : scene.tree.get? tag with
  | none => exact .inl ⟨_, destroySubtree_of_missing hget⟩
  | some node =>
    have ht := Tree.contains_of_get? hget
    obtain ⟨members, log, hmembers, hok⟩ := destroySubtree_ok scene.mount scene.log hwf ht
    exact .inr ⟨members, log, ht, hmembers, hok⟩

/-- A root is destroyed as the subtree it heads. -/
theorem destroyRoot_of_root {scene : Scene κ} {root : Tag} (hroot : scene.tree.isRoot root = true) :
    destroyRoot root scene = destroySubtree root scene := by
  rw [destroyRoot, get_bind, if_pos hroot]

/-- What is not a root is not destroyed as one. -/
theorem destroyRoot_of_other {scene : Scene κ} {root : Tag}
    (hroot : scene.tree.isRoot root = false) :
    destroyRoot root scene = .error (.contract (.notARoot root)) scene := by
  rw [destroyRoot, get_bind, hroot]
  rfl

/-- The destruction of a root is that of its subtree, or fails without a change. -/
theorem destroyRoot_cases (scene : Scene κ) (root : Tag) :
    (∃ err, destroyRoot root scene = .error err scene) ∨
    destroyRoot root scene = destroySubtree root scene := by
  cases hroot : scene.tree.isRoot root with
  | true => exact .inr (destroyRoot_of_root hroot)
  | false => exact .inl ⟨_, destroyRoot_of_other hroot⟩

end Mount

end ShadowMount
