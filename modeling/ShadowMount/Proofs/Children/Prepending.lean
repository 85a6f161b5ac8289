import ShadowMount.Proofs.Children.Acceptance

/-!
# Putting children in front

A child list can be extended at its front in two ways: by `prepend`, which attaches one child after
the other, or by a batch that only adds, at the positions from zero on. They check and insert in
code of their own, and come to the same: the same error in the same place, or the same tree.

* **`Batch.plan_adding`** — the checks of an adding batch, in the order in which they are made.
* **`Children.carryOut_adding`** — the passes of such a batch are the loop of `prepend`.
* **`Children.prepend_is_adding_batch`** — the two agree on every scene, be its tree well-formed or
  not.
-/

namespace ShadowMount

/-- Inserting where one list ends and another begins. -/
theorem insertIdx_between {α : Type} (front back : List α) (a : α) :
    (front ++ back).insertIdx front.length a = (front ++ [a]) ++ back := by
  induction front with
  | nil => rfl
  | cons first front ih =>
    rw [List.cons_append, List.length_cons, List.insertIdx_succ_cons, ih]
    rfl

namespace Tree

variable {κ : Type} {parent : Tag}

/-- A lineage begins with the node itself. -/
theorem mem_lineage {tree : Tree κ} {tag : Tag} {l : List Tag} (h : tree.lineage tag = .ok l) :
    tag ∈ l := by
  rw [lineage, budget, lineageFrom] at h
  obtain ⟨node, -, h⟩ := query_bind_eq_ok_iff.mp h
  -- the walk begins with the node, be it a root or not
  split at h
  · cases h
    exact List.mem_singleton_self tag
  · obtain ⟨rest, -, h⟩ := query_bind_eq_ok_iff.mp h
    cases h
    exact List.mem_cons_self ..

/-- No node may be attached below itself. -/
theorem ne_of_checkAttachable {tree : Tree κ} {child : Tag}
    (h : tree.checkAttachable parent child = .ok ()) : child ≠ parent := by
  rintro rfl
  rw [checkAttachable] at h
  obtain ⟨node, -, h⟩ := query_bind_eq_ok_iff.mp h
  split at h
  · cases h
  · split at h
    · cases h
    · obtain ⟨l, hl, h⟩ := query_bind_eq_ok_iff.mp h
      -- the last check looks for the child among the ancestors of the parent and the parent itself
      rw [if_pos (List.contains_iff_mem.mpr (mem_lineage hl))] at h
      cases h

/-- What an attachment makes of the parent, in any tree. -/
theorem get?_parent_of_attach {tree after : Tree κ} {child : Tag} {index : Nat}
    (h : attach parent child index tree = .ok () after) : ∃ above,
      tree.get? parent = some above ∧ index ≤ above.children.length ∧ after.get? parent =
        some { above with children := above.children.insertIdx index child } := by
  unfold attach at h
  -- three checks come before the parent is changed
  cases habove : tree.get? parent with
  | none =>
    have hparent : TreeM.node parent tree = .error (.missing parent) tree := by
      rw [TreeM.node, TreeM.query, node_of_get?_none habove]
    rw [bind_of_error hparent] at h
    cases h
  | some above =>
    have hparent : TreeM.node parent tree = .ok above tree := by
      rw [TreeM.node, TreeM.query, node_of_get? habove]
    rw [bind_of_ok hparent] at h
    by_cases hindex : above.children.length < index
    · rw [if_pos hindex] at h
      cases h
    · rw [if_neg hindex] at h
      cases hcheck : tree.checkAttachable parent child with
      | error err =>
        have hquery : TreeM.query (·.checkAttachable parent child) tree = .error err tree := by
          rw [TreeM.query, hcheck]
        rw [bind_of_error hquery] at h
        cases h
      | ok _ =>
        have hquery : TreeM.query (·.checkAttachable parent child) tree = .ok () tree := by
          rw [TreeM.query, hcheck]
        have hne := ne_of_checkAttachable hcheck
        rw [bind_of_ok hquery, bind_of_ok (update_of_get? habove)] at h
        -- the child is another node, so linking it leaves the parent's record alone
        refine ⟨above, rfl, by omega, ?_⟩
        cases hchild : (tree.store parent
            { above with children := above.children.insertIdx index child }).get? child with
        | none =>
          rw [update_of_missing hchild] at h
          cases h
        | some node =>
          rw [update_of_get? hchild] at h
          cases h
          rw [get?_store, if_neg hne, get?_store, if_pos rfl]

/-- Children attached one after the other stand in their order, between what was before the first
position and what was behind it. -/
theorem children_attachEach : ∀ {children front back : List Tag} {tree after : Tree κ}
    {above : Node κ}, tree.get? parent = some above → above.children = front ++ back →
      attachEach parent ((children.zipIdx front.length).map Prod.swap) tree = .ok () after →
        ∃ found, after.get? parent = some found ∧ found.children = front ++ children ++ back
  | [], front, back, tree, after, above, habove, hchildren, h => by
    cases h
    exact ⟨above, habove, by rw [hchildren, List.append_nil]⟩
  | child :: rest, front, back, tree, after, above, habove, hchildren, h => by
    change (attach parent child front.length >>= fun _ =>
      attachEach parent ((rest.zipIdx (front.length + 1)).map Prod.swap)) tree = _ at h
    -- the first child goes behind the front, and the rest behind it
    cases hattach : attach parent child front.length tree with
    | error err failed =>
      rw [bind_of_error hattach] at h
      cases h
    | ok answer mid =>
      rw [bind_of_ok hattach] at h
      obtain ⟨above', habove', -, hmid⟩ := get?_parent_of_attach hattach
      obtain rfl : above = above' := Option.some.inj (habove.symm.trans habove')
      have hlength : front.length + 1 = (front ++ [child]).length := by simp
      rw [hlength] at h
      obtain ⟨found, hfound, hlist⟩ := children_attachEach hmid
        (by rw [hchildren]; exact insertIdx_between front back child) h
      refine ⟨found, hfound, ?_⟩
      rw [hlist]
      simp

end Tree

namespace Batch

/-- The batch that only adds children, at the positions from zero on. -/
def adding (children : List Tag) : Batch :=
  { addTags := children, addAt := List.range children.length }

/-- The entries of an adding batch are sorted as they are. -/
theorem sortOn_adding (children : List Tag) :
    sortOn Prod.fst ((List.range children.length).zip children) =
      (children.zipIdx 0).map Prod.swap := by
  have hzip : (children.zipIdx 0).map Prod.swap =
      (List.range children.length).zip children := by
    rw [List.zipIdx_eq_zip_range', List.zip_swap, List.range_eq_range']
  rw [hzip]
  refine (eq_sortOn (.refl _) ?_).symm
  have hkeys : (((List.range children.length).zip children).map Prod.fst).Pairwise (· < ·) := by
    -- the positions are zero, one, two and so on
    rw [List.map_fst_zip (by simp)]
    exact List.pairwise_lt_range
  exact List.pairwise_map.mp hkeys

/-- The plan of an adding batch has neither moves nor removals, and its entries keep their order. -/
theorem editPlan_adding (children : List Tag) : (adding children).editPlan =
    { moves := ⟨[], [], [], []⟩, removals := [],
      additions := (children.zipIdx 0).map Prod.swap } := by
  rw [← sortOn_adding]
  simp [editPlan, movePlan, movesByTarget, moves, adding]

/-- The checks of an adding batch: the parent, then the children in their order. -/
theorem plan_adding {κ : Type} (tree : Tree κ) (parent : Tag) (children : List Tag) :
    (adding children).plan tree parent = (do
      let _ ← tree.node parent
      tree.checkNewChildren parent [] children
      return (adding children).editPlan) := by
  -- without moves there is a plan of moves
  have harrays : MovePlan.ofArrays [] [] = .ok (adding children).editPlan.moves :=
    (adding children).ofArrays_eq_ok_iff.mpr ⟨rfl, List.nodup_nil, rfl⟩
  -- the positions from zero on lie in the list that is longer by as many children
  have hpositions : ∀ count, checkPositions (count + children.length) []
      (List.range children.length) = .ok () := by
    intro count
    refine checkPositions_eq_ok_iff.mpr
      ⟨fun i hi => ?_, List.nodup_range, fun _ _ => List.not_mem_nil⟩
    have hlt := List.mem_range.mp hi
    omega
  have htags : ((children.zipIdx 0).map Prod.swap).map Prod.snd = children := by
    rw [List.map_map]
    exact List.zipIdx_map_fst 0 children
  -- no move and no removal can fail a check, and the positions from zero on never do
  rw [editPlan_adding] at harrays ⊢
  unfold plan
  refine congrArg (tree.node parent >>= ·) (funext fun node => ?_)
  simp only [adding, harrays, Except.mapError, ok_bind, sortOn_nil, List.append_nil,
    List.nil_append, List.length_nil, Nat.sub_zero, List.length_range, ne_eq, not_true_eq_false,
    if_false, sortOn_adding, List.length_map, List.length_zipIdx, hpositions, htags]
  rfl

/-- There is nothing to detach. -/
theorem detachSchedule_adding (children : List Tag) :
    (adding children).editPlan.detachSchedule = [] := by
  rw [editPlan_adding]
  show detachSteps [] [] = []
  rw [detachSteps]

/-- Without moves the second schedule is the list of additions. -/
theorem attachSteps_nil : ∀ additions : List (Nat × Tag),
    attachSteps additions [] = additions.map fun entry => .add entry.1 entry.2
  | [] => by
    rw [attachSteps]
    rfl
  | (index, child) :: rest => by
    rw [attachSteps, attachSteps_nil rest]
    rfl

/-- The children are attached in their order. -/
theorem attachSchedule_adding (children : List Tag) :
    (adding children).editPlan.attachSchedule =
      ((children.zipIdx 0).map Prod.swap).map fun entry => .add entry.1 entry.2 := by
  rw [editPlan_adding]
  exact attachSteps_nil _

end Batch

namespace Children

open MountM

variable {κ : Type}

/-- The passes of an adding batch do what the loop of `prepend` does. -/
theorem carryOut_adding (parent : Tag) (children : List Tag) (scene : Scene κ) :
    carryOut parent (Batch.adding children).editPlan scene =
      onFailure (attachFrom parent 0 children) poisonTree scene := by
  have hpasses : (do
      let moves ← detachAll parent none (Batch.adding children).editPlan.moves
        (Batch.adding children).editPlan.detachSchedule
      attachAll parent none moves (Batch.adding children).editPlan.attachSchedule : MountM κ Unit) =
        attachFrom parent 0 children := by
    funext scene
    -- both sides are attachments one after the other
    rw [Batch.detachSchedule_adding, Batch.attachSchedule_adding, attachFrom_eq]
    have hascending : ((children.zipIdx 0).map Prod.swap).Pairwise fun a b => a.1 < b.1 := by
      rw [← Batch.sortOn_adding]
      refine ascending_sortOn ?_
      rw [List.map_fst_zip (by simp)]
      exact List.nodup_range
    show attachAll parent none (Batch.adding children).editPlan.moves
      (((children.zipIdx 0).map Prod.swap).map fun entry => .add entry.1 entry.2) scene = _
    rw [@attachAll_eq _ parent ((Batch.adding children).resolve []) (fun _ _ => rfl)
      (fun _ _ => rfl) _ none _ scene]
    · rw [List.map_map]
      exact congrArg (fun entries => onTree (Tree.attachEach parent entries) scene)
        (List.map_id _)
    -- positions ascend, and no step is a move or a collision
    · exact List.pairwise_map.mpr hascending
    · simp
    · simp
    · exact List.pairwise_map.mpr (hascending.imp (by simp))
    · simp
  exact congrArg (onFailure · poisonTree scene) hpasses

/-- Poisoning always succeeds. -/
theorem poisonTree_apply (scene : Scene κ) :
    poisonTree scene = .ok () { scene with tree := scene.tree.poison } := rfl

/-- Attachment and poisoning do not look at the log. -/
theorem attachFrom_withLog (parent : Tag) (children : List Tag) (scene : Scene κ)
    (log : List Log.Line) :
    onFailure (attachFrom parent 0 children) poisonTree { scene with log } =
      withLog log (onFailure (attachFrom parent 0 children) poisonTree scene) := by
  have hloop : ∀ scene : Scene κ, attachFrom parent 0 children scene =
      onTree (Tree.attachEach parent ((children.zipIdx 0).map Prod.swap)) scene :=
    fun _ => attachFrom_eq
  -- the outcome depends on the tree alone, and so does the clean-up
  cases hedit : Tree.attachEach parent ((children.zipIdx 0).map Prod.swap) scene.tree with
  | ok answer after =>
    rw [onFailure_of_ok ((hloop scene).trans (onTree_of_ok hedit)),
      onFailure_of_ok ((hloop { scene with log }).trans (onTree_of_ok hedit))]
    rfl
  | error err after =>
    rw [onFailure_of_error ((hloop scene).trans (onTree_of_error hedit)) (poisonTree_apply _),
      onFailure_of_error ((hloop { scene with log }).trans (onTree_of_error hedit))
        (poisonTree_apply _)]
    rfl

/-- What the loop of `prepend` makes of a child list, in any tree. -/
theorem children_of_attachFrom {parent : Tag} {children : List Tag} {scene done : Scene κ}
    {above : Node κ} (habove : scene.tree.get? parent = some above)
    (h : onFailure (attachFrom parent 0 children) poisonTree scene = .ok () done) :
    ∃ found, done.tree.get? parent = some found ∧ found.children = children ++ above.children := by
  have hloop : attachFrom parent 0 children scene =
      onTree (Tree.attachEach parent ((children.zipIdx 0).map Prod.swap)) scene := attachFrom_eq
  -- without an error nothing was cleaned up, and the tree is the one attached to
  cases hedit : Tree.attachEach parent ((children.zipIdx 0).map Prod.swap) scene.tree with
  | ok answer after =>
    rw [onFailure_of_ok (hloop.trans (onTree_of_ok hedit))] at h
    cases h
    exact @Tree.children_attachEach _ parent children [] above.children _ _ _ habove rfl hedit
  | error err after =>
    rw [onFailure_of_error (hloop.trans (onTree_of_error hedit)) (poisonTree_apply _)] at h
    cases h

/-- Putting children in front is the batch that adds them at the positions from zero on: on every
scene, both answer or both fail with the same error, and they leave the same tree and the same mount
state. Where they answer, the new children stand before the old ones. -/
theorem prepend_is_adding_batch (parent : Tag) (children : List Tag) (scene : Scene κ) :
    (∃ log, applyBatch parent { addTags := children, addAt := List.range children.length } scene =
      withLog log (prepend parent children scene)) ∧
    ∀ done, prepend parent children scene = .ok () done →
      ∃ before, scene.tree.children parent = .ok before ∧
        done.tree.children parent = .ok (children ++ before) := by
  show (∃ log, applyBatch parent (.adding children) scene = _) ∧ _
  unfold prepend
  -- the checks of either way, in the same order: consistency, the parent, the children
  cases hcheck : scene.tree.checkConsistent with
  | error err =>
    rw [bind_of_error (query_of_error hcheck)]
    refine ⟨⟨scene.log, ?_⟩, nofun⟩
    rw [applyBatch, bind_of_error (query_of_error hcheck)]
    rfl
  | ok _ =>
    rw [bind_of_ok (query_of_ok hcheck)]
    have hplan := Batch.plan_adding scene.tree parent children
    cases habove : scene.tree.get? parent with
    | none =>
      rw [Tree.node_of_get?_none habove] at hplan
      obtain ⟨log, hlog⟩ := applyBatch_of_planless hcheck hplan
      rw [bind_of_error (node_of_missing habove)]
      exact ⟨⟨log, hlog⟩, nofun⟩
    | some above =>
      rw [Tree.node_of_get? habove, ok_bind] at hplan
      rw [bind_of_ok (node_of_get? habove)]
      cases hnew : scene.tree.checkNewChildren parent [] children with
      | error err =>
        rw [hnew] at hplan
        obtain ⟨log, hlog⟩ := applyBatch_of_planless hcheck hplan
        rw [bind_of_error (query_of_error hnew)]
        exact ⟨⟨log, hlog⟩, nofun⟩
      | ok _ =>
        rw [hnew, ok_bind] at hplan
        obtain ⟨log, log', hlog⟩ := applyBatch_of_plan hcheck hplan
        rw [bind_of_ok (query_of_ok hnew)]
        -- all checks passed: the passes are the loop, and their log is the only difference
        refine ⟨⟨log', ?_⟩, fun done hdone => ?_⟩
        · rw [hlog, carryOut_adding, attachFrom_withLog]
          cases onFailure (attachFrom parent 0 children) poisonTree scene <;> rfl
        -- the loop leaves the new children before the old ones
        · obtain ⟨found, hfound, hlist⟩ := children_of_attachFrom habove hdone
          refine ⟨above.children, ?_, ?_⟩
          · rw [Tree.children, Tree.node_of_get? habove]
            rfl
          · rw [Tree.children, Tree.node_of_get? hfound, ← hlist]
            rfl

end Children

namespace Sample

/-- A root with the children 2 and 3, and the detached nodes 4 and 5. -/
def waiting : Scene Float32 :=
  Scene.afterCalls {} [.registerRoot 1 "Root" 0 0, plain 2, plain 3, plain 4, plain 5,
    .prepend 1 [2, 3]]

end Sample

/-- Two nodes put in front of two children, by either way. -/
theorem Children.prepend_is_adding_batch_waiting : ∃ done log,
    prepend 1 [5, 4] Sample.waiting = .ok () done ∧
      applyBatch 1 { addTags := [5, 4], addAt := [0, 1] } Sample.waiting =
        .ok () { done with log } ∧
      done.tree.children 1 = .ok [5, 4, 2, 3] := by
  obtain ⟨⟨log, hbatch⟩, hfront⟩ := prepend_is_adding_batch 1 [5, 4] Sample.waiting
  have hworks : (match prepend 1 [5, 4] Sample.waiting with
      | .ok .. => true
      | .error .. => false) = true := by decide +kernel
  cases hrun : prepend 1 [5, 4] Sample.waiting with
  | error err failed =>
    rw [hrun] at hworks
    cases hworks
  | ok answer done =>
    obtain ⟨before, hbefore, hafter⟩ := hfront done hrun
    have hlisted : Sample.waiting.tree.children 1 = .ok [2, 3] := by decide +kernel
    obtain rfl := Except.ok.inj (hbefore.symm.trans hlisted)
    rw [hrun] at hbatch
    exact ⟨done, log, rfl, hbatch, hafter⟩

end ShadowMount
