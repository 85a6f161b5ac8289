import ShadowMount.Proofs.Core.Reachable

/-!
# Trimmed trees

Child edits and the removal of a root destroy whole subtrees. Seen from the views, both do the same:
the destroyed nodes are gone, and the attached nodes that stay keep their parent and their flags.
Detached subtrees may be attached on the way, but nothing in them has a view.

* **`Trimmed`** — what is left of the attached part of a tree.
* **`Rearranged.trimmed`**, **`trimmed_withoutSubtree`** — the two kinds of edits trim.
* **`Children.applyBatch_trims`**, **`Children.prepend_trims`** — the outcome of a child edit.
-/

namespace ShadowMount.Tree

variable {κ : Type} {tree after : Tree κ}

/-- `tag` lies below a root, or is one. -/
def Attached (tree : Tree κ) (tag : Tag) : Prop := ∃ r ∈ tree.roots, tree.InSubtree r tag

/-- Without a parent, only roots are attached. -/
theorem Attached.mem_roots {t : Tag} (h : tree.Attached t) (hparent : tree.parentOf? t = none) :
    t ∈ tree.roots := by
  obtain ⟨r, hr, rfl | hanc⟩ := h
  · exact hr
  · obtain ⟨p, hp, -⟩ := hanc.parent_inSubtree
    rw [hparent] at hp
    cases hp

/-- Attachment is handed up: the parent of an attached node is attached. -/
theorem Attached.parent (hwf : tree.WellFormed) {t p : Tag} (h : tree.Attached t)
    (hp : tree.parentOf? t = some p) : tree.Attached p := by
  obtain ⟨r, hr, rfl | hanc⟩ := h
  · rw [hwf.root_parentless hr] at hp
    cases hp
  · obtain ⟨q, hq, hsub⟩ := hanc.parent_inSubtree
    obtain rfl : p = q := Option.some.inj (hp.symm.trans hq)
    exact ⟨r, hr, hsub⟩

/-- Every ancestor of an attached node is attached. -/
theorem Attached.ancestor (hwf : tree.WellFormed) {t a : Tag} (h : tree.Attached t)
    (ha : tree.Ancestor a t) : tree.Attached a := by
  induction ha with
  | parent hp => exact h.parent hwf hp
  | step hp _ ih => exact ih (h.parent hwf hp)

/-- Attachment is handed down to all descendants. -/
theorem Attached.below {t a : Tag} (h : tree.Attached a) (ha : tree.Ancestor a t) :
    tree.Attached t := by
  obtain ⟨r, hr, hsub⟩ := h
  exact ⟨r, hr, hsub.trans (.inr ha)⟩

/-- What destroying the nodes `gone` makes of a tree. -/
structure Trimmed (tree : Tree κ) (gone : List Tag) (after : Tree κ) : Prop where
  sound : after.Sound
  registered : ∀ {x}, x ∈ gone → tree.contains x = true
  /-- What goes takes its descendants with it, and they go first. -/
  closed : ∀ {x y}, x ∈ gone → tree.InSubtree x y → y ∈ gone
  descendants_first : gone.Pairwise fun x y => ¬ tree.InSubtree x y
  /-- Nothing is left of a destroyed node. -/
  erased : ∀ {x}, x ∈ gone → after.get? x = none
  /-- The nodes that stay keep root, class and kind. -/
  stamp : ∀ {x}, x ∉ gone → (after.get? x).map Node.stamp = (tree.get? x).map Node.stamp
  /-- The nodes that stay keep their views. -/
  created : ∀ {x}, x ∉ gone → after.createdAt x = tree.createdAt x
  /-- The attached nodes that stay keep their place. A detached one may have been attached. -/
  parent : ∀ {x}, tree.Attached x → x ∉ gone → after.parentOf? x = tree.parentOf? x
  mounts : ∀ {x}, tree.Attached x → x ∉ gone → after.mountsAt x = tree.mountsAt x
  /-- The roots that are destroyed leave the list. -/
  roots : ∀ r, r ∈ after.roots ↔ r ∈ tree.roots ∧ r ∉ gone
  props : ∀ {x}, x ∉ gone → (after.get? x).map (·.props) = (tree.get? x).map (·.props)

namespace Trimmed

variable {gone : List Tag}

/-- Above an attached node that stays, everything stays. -/
theorem ancestor_kept (h : tree.Trimmed gone after) {x a : Tag} (hx : x ∉ gone)
    (ha : tree.Ancestor a x) : a ∉ gone :=
  fun hgone => hx (h.closed hgone (.inr ha))

/-- Exactly the destroyed nodes are missing. -/
theorem contains_iff (h : tree.Trimmed gone after) {t : Tag} :
    after.contains t = true ↔ tree.contains t = true ∧ t ∉ gone := by
  by_cases hgone : t ∈ gone
  · rw [contains, h.erased hgone]
    exact ⟨fun hsome => absurd hsome Bool.false_ne_true, fun hnot => absurd hgone hnot.2⟩
  · have hsome := congrArg Option.isSome (h.stamp hgone)
    rw [Option.isSome_map, Option.isSome_map] at hsome
    rw [contains, hsome]
    exact ⟨fun ht => ⟨ht, hgone⟩, And.left⟩

/-- The views after the edit are those of before, less those of the destroyed nodes. -/
theorem createdAt_iff (h : tree.Trimmed gone after) {t : Tag} :
    after.createdAt t = true ↔ t ∉ gone ∧ tree.createdAt t = true := by
  by_cases hgone : t ∈ gone
  · rw [createdAt, h.erased hgone]
    exact ⟨fun hsome => absurd hsome Bool.false_ne_true, fun hnot => absurd hgone hnot.1⟩
  · rw [h.created hgone]
    exact ⟨fun hview => ⟨hgone, hview⟩, And.right⟩

/-- No node is destroyed twice. -/
theorem nodup (h : tree.Trimmed gone after) : gone.Nodup :=
  h.descendants_first.imp fun hnot heq => hnot (.inl heq.symm)

/-- What is below a node that goes, goes before it. -/
theorem descendant_first (h : tree.Trimmed gone after) (hwf : tree.WellFormed) {x a : Tag}
    (ha : a ∈ gone) (hanc : tree.Ancestor a x) : [x, a].Sublist gone := by
  have hx := h.closed ha (.inr hanc)
  have hfirst := h.descendants_first
  obtain ⟨before, rest, rfl⟩ := List.append_of_mem ha
  rcases List.mem_append.mp hx with hx | hx
  · exact (List.singleton_sublist.mpr hx).append (List.singleton_sublist.mpr (List.mem_cons_self ..))
  · rcases List.mem_cons.mp hx with rfl | hx
    · exact absurd hanc (hwf.not_ancestor_self _)
    · have htail := (List.pairwise_cons.mp (List.pairwise_append.mp hfirst).2.1).1 x hx
      exact absurd (.inr hanc) htail

/-- The ancestors of an attached node that stays are still its ancestors: were one of them gone, the
node would be gone with it. -/
theorem ancestor (h : tree.Trimmed gone after) (hwf : tree.WellFormed) {x a : Tag}
    (hattached : tree.Attached x) (hx : x ∉ gone) (ha : tree.Ancestor a x) : after.Ancestor a x := by
  induction ha with
  | parent hp => exact .parent ((h.parent hattached hx).trans hp)
  | step hp hrest ih =>
    exact .step ((h.parent hattached hx).trans hp)
      (ih (hattached.parent hwf hp) (h.ancestor_kept hx (.parent hp)))

/-- An attached node that stays is attached afterwards, below the same root. -/
theorem attached (h : tree.Trimmed gone after) (hwf : tree.WellFormed) {x : Tag}
    (hattached : tree.Attached x) (hx : x ∉ gone) : after.Attached x := by
  obtain ⟨r, hr, rfl | hanc⟩ := hattached
  · exact ⟨x, (h.roots x).mpr ⟨hr, hx⟩, .refl x⟩
  · have hroot := (h.roots r).mpr ⟨hr, h.ancestor_kept hx hanc⟩
    exact ⟨r, hroot, .inr (h.ancestor hwf ⟨r, hr, .inr hanc⟩ hx hanc)⟩

/-- An ancestor afterwards was one before, as no attached node got a new parent. -/
theorem ancestor_before (h : tree.Trimmed gone after) (hwf : tree.WellFormed) {x a : Tag}
    (hattached : tree.Attached x) (hx : x ∉ gone) (ha : after.Ancestor a x) :
    tree.Ancestor a x := by
  induction ha with
  | parent hp => exact .parent ((h.parent hattached hx).symm.trans hp)
  | step hp hrest ih =>
    have hp' := (h.parent hattached hx).symm.trans hp
    exact .step hp' (ih (hattached.parent hwf hp') (h.ancestor_kept hx (.parent hp')))

/-- The view above an attached node that stays is the one it had. -/
theorem nativeParent (h : tree.Trimmed gone after) (hwf : tree.WellFormed) {c p : Tag}
    (hattached : tree.Attached c) (hc : c ∉ gone) (hp : tree.NativeParent c p) :
    after.NativeParent c p := by
  refine ⟨hp.1.transport (fun x hx => ?_) fun x hx _ hnot => ?_, ?_⟩
  · rcases hx with rfl | hx
    · exact h.parent hattached hc
    · exact h.parent (hattached.ancestor hwf hx) (h.ancestor_kept hc hx)
  · rw [h.mounts (hattached.ancestor hwf hx) (h.ancestor_kept hc hx), hnot]
  · rw [h.mounts (hattached.ancestor hwf hp.ancestor) (h.ancestor_kept hc hp.ancestor), hp.2]

end Trimmed

/-! ## Edits that trim

A child edit detaches, destroys and attaches; the removal of a root destroys. As far as views are
concerned, only what is destroyed matters, because a subtree that is detached and attached again
comes from where no views are, or goes back to where it was. -/

namespace Rearranged

variable {parent : Tag} {list added removed : List Tag} {x : Tag}

/-- A node that stays and does not get attached is the old one, up to the child list of the parent.
-/
theorem get?_of_stays (h : tree.Rearranged parent list added removed after)
    (hstays : ∀ r ∈ removed, ¬ tree.InSubtree r x) (hold : x ∉ added) :
    ∃ children : Option (List Tag), after.get? x =
      (tree.get? x).map fun node => { node with children := children.getD node.children } := by
  obtain ⟨above, habove, hparent, -⟩ := h.at_parent
  by_cases hxp : x = parent
  · exact ⟨some list, by rw [hxp, hparent, habove]; rfl⟩
  · refine ⟨none, ?_⟩
    rw [h.kept hxp hold hstays]
    cases tree.get? x <;> rfl

/-- What is neither in the list of children nor changed by an attachment is the same in all nodes that
stay, whether they get attached or not. -/
theorem reads_kept {α : Type} (read : Node κ → α)
    (hchildren : ∀ (node : Node κ) children, read { node with children } = read node)
    (hattached : ∀ (node : Node κ) above forces, read (node.attachedTo above forces) = read node)
    (h : tree.Rearranged parent list added removed after)
    (hstays : ∀ r ∈ removed, ¬ tree.InSubtree r x) :
    (after.get? x).map read = (tree.get? x).map read := by
  by_cases hnew : x ∈ added
  · obtain ⟨above, -, -, hget⟩ := h.at_parent
    rw [hget hnew, Option.map_map]
    exact congrArg (Option.map · _) (funext fun node => hattached node _ _)
  · obtain ⟨children, hget⟩ := h.get?_of_stays hstays hnew
    rw [hget, Option.map_map]
    exact congrArg (Option.map · _) (funext fun node => hchildren node _)

end Rearranged

/-- A child edit trims the removed subtrees, in whichever order they go: the attached nodes that stay
are found as before, but for the child list of the parent. -/
theorem Rearranged.trimmed {parent : Tag} {list added removed order : List Tag}
    (h : tree.Rearranged parent list added removed after) (horder : order.Perm removed)
    (hwf : tree.WellFormed) (hsound : after.Sound)
    (hadded : ∀ c ∈ added, tree.Attachable parent c)
    (hchild : ∀ c ∈ removed, tree.parentOf? c = some parent) (hnodup : removed.Nodup) :
    tree.Trimmed (tree.swept order) after := by
  -- the removed children were listed by the parent, so each of them is registered
  have hchildOrder : ∀ c ∈ order, tree.parentOf? c = some parent :=
    fun c hc => hchild c (horder.mem_iff.mp hc)
  have hcontained : ∀ c ∈ order, tree.contains c = true := by
    intro c hc
    obtain ⟨node, hget, -⟩ := get?_of_parentOf? (hchildOrder c hc)
    exact contains_of_get? hget
  -- the order in which the children go makes no difference to what goes
  have hmem : ∀ {x}, x ∈ tree.swept order ↔ ∃ r ∈ removed, tree.InSubtree r x := by
    intro x
    rw [mem_swept hwf hcontained]
    exact exists_congr fun r => and_congr_left fun _ => horder.mem_iff
  have hstays : ∀ {x}, x ∉ tree.swept order → ∀ r ∈ removed, ¬ tree.InSubtree r x :=
    fun hx r hr hsub => hx (hmem.mpr ⟨r, hr, hsub⟩)
  -- a node that gets attached has no parent and is no root, so it was not attached
  have hloose : ∀ {x}, tree.Attached x → x ∉ added := fun hx hmem =>
    (hadded _ hmem).not_root (hx.mem_roots (hadded _ hmem).parentless)
  refine ⟨hsound, ?_, ?_, pairwise_swept hwf hchildOrder (horder.nodup_iff.mpr hnodup), ?_,
    fun hx => ?_, fun hx => ?_, ?_, ?_, ?_, fun hx => ?_⟩
  -- the destroyed nodes are registered, and closed under descent
  · intro x hx
    obtain ⟨r, hr, hsub⟩ := (mem_swept hwf hcontained).mp hx
    rcases hsub with rfl | hanc
    · exact hcontained x hr
    · exact hanc.contains
  · intro x y hx hxy
    obtain ⟨r, hr, hsub⟩ := hmem.mp hx
    exact hmem.mpr ⟨r, hr, hsub.trans hxy⟩
  · intro x hx
    obtain ⟨r, hr, hsub⟩ := hmem.mp hx
    exact h.gone hr hsub
  -- what stays keeps its stamp and its view
  · exact h.reads_kept Node.stamp (fun _ _ => rfl) Node.stamp_attachedTo (hstays hx)
  · have hcreated := h.reads_kept (·.created) (fun _ _ => rfl) Node.created_attachedTo (hstays hx)
    have hany := congrArg (Option.any id) hcreated
    rwa [Option.any_map, Option.any_map] at hany
  -- an attached node that stays keeps parent and flags, since it is none of those that get attached
  · intro x hx hgone
    obtain ⟨children, hget⟩ := h.get?_of_stays (hstays hgone) (hloose hx)
    rw [parentOf?, parentOf?, hget, Option.bind_map]
    rfl
  · intro x hx hgone
    obtain ⟨children, hget⟩ := h.get?_of_stays (hstays hgone) (hloose hx)
    rw [mountsAt, mountsAt, hget, Option.any_map]
  -- roots have no parent and so lie in no removed subtree
  · intro r
    rw [h.roots]
    refine ⟨fun hr => ⟨hr, fun hgone => ?_⟩, And.left⟩
    obtain ⟨c, hc, hsub⟩ := hmem.mp hgone
    exact not_inSubtree_of_parentless (hchild c hc) (hwf.root_parentless hr) hsub
  · exact h.reads_kept (·.props) (fun _ _ => rfl) Node.props_attachedTo (hstays hx)

/-- Removing a root trims everything below it. -/
theorem trimmed_withoutSubtree (h : tree.Sound) {root : Tag} {members : List Tag}
    (hroot : root ∈ tree.roots) (hmembers : tree.postOrder root = .ok members) :
    tree.Trimmed members (tree.withoutSubtree root members) := by
  have hwf := h.wellFormed
  have ht := hwf.root_contained hroot
  have hparent := hwf.root_parentless hroot
  obtain ⟨xs, hxs, hmem, hpairwise⟩ := postOrder_spec hwf ht
  obtain rfl : xs = members := Except.ok.inj (hxs.symm.trans hmembers)
  -- the other nodes are literally the same: a root is listed by nobody
  have hget := fun x => @get?_withoutSubtree_of_parentless _ tree root xs hparent x
  refine ⟨h.withoutSubtree ht hmembers, ?_, ?_, hpairwise, ?_, ?_, ?_, ?_, ?_, ?_, fun hx => ?_⟩
  · intro x hx
    rcases (hmem x).mp hx with rfl | hanc
    · exact ht
    · exact hanc.contains
  · intro x y hx hxy
    exact (hmem y).mpr (((hmem x).mp hx).trans hxy)
  · intro x hx
    rw [hget, if_pos hx]
  · intro x hx
    rw [hget, if_neg hx]
  · intro x hx
    rw [createdAt, hget, if_neg hx]
    rfl
  · intro x _ hx
    rw [parentOf?, hget, if_neg hx]
    rfl
  · intro x _ hx
    rw [mountsAt, hget, if_neg hx]
    rfl
  · intro r
    show r ∈ tree.roots.erase root ↔ _
    rw [hwf.roots_nodup.mem_erase_iff]
    constructor
    · rintro ⟨hne, hr⟩
      -- no other root lies below this one
      refine ⟨hr, fun hgone => ?_⟩
      rcases (hmem r).mp hgone with rfl | hanc
      · exact hne rfl
      · obtain ⟨p, hp, -⟩ := hanc.parent_inSubtree
        rw [hwf.root_parentless hr] at hp
        cases hp
    · rintro ⟨hr, hgone⟩
      refine ⟨?_, hr⟩
      rintro rfl
      exact hgone ((hmem r).mpr (.refl r))
  · rw [hget, if_neg hx]

end ShadowMount.Tree

namespace ShadowMount.Children

variable {κ : Type} {tree : Tree κ} {parent : Tag}

/-- A batch fails and changes nothing, or trims the removed subtrees and schedules the drops of their
views. -/
theorem applyBatch_trims {scene : Scene κ} (hsound : scene.tree.Sound) (batch : Batch) :
    let gone := scene.tree.swept (batch.removedChildren (scene.tree.childrenOf parent))
    (∃ err log, applyBatch parent batch scene = .error err { scene with log }) ∨
    ∃ after log, applyBatch parent batch scene = .ok () ⟨after,
        scene.mount.scheduledAll scene.tree.isRoot (gone.filter scene.tree.createdAt), log⟩ ∧
      scene.tree.Trimmed gone after := by
  obtain ⟨tree, mount, log⟩ := scene
  have hwf := hsound.wellFormed
  by_cases hvalid : batch.Valid tree parent
  · right
    obtain ⟨after, log', hok, hwf', hflags, hrearranged⟩ :=
      applyBatch_of_valid mount log hwf hsound.flags hsound.consistent hvalid
    have hsound' : after.Sound := ⟨hwf', hflags, hrearranged.poisoned.trans hsound.consistent⟩
    obtain ⟨hchild, hnodup⟩ := hvalid.named_children hwf
    rw [Batch.childrenAt, List.map_append] at hchild hnodup
    exact ⟨after, log', hok, hrearranged.trimmed (batch.removedChildren_perm _) hwf hsound'
      hvalid.attachable (fun c hc => hchild c (List.mem_append_right _ hc))
      (List.nodup_append.mp hnodup).2.1⟩
  · left
    exact applyBatch_of_invalid mount log hwf hsound.consistent hvalid

/-- Prepending fails and changes nothing, or trims nothing. -/
theorem prepend_trims {scene : Scene κ} (hsound : scene.tree.Sound) (children : List Tag) :
    (∃ err, prepend parent children scene = .error err scene) ∨
    ∃ after, prepend parent children scene = .ok () { scene with tree := after } ∧
      scene.tree.Trimmed [] after := by
  rcases prepend_cases hsound.wellFormed hsound.flags children with
    herr | ⟨after, list, hok, hwf, hflags, hrearranged, hattachable⟩
  · exact .inl herr
  · have hsound' : after.Sound := ⟨hwf, hflags, hrearranged.poisoned.trans hsound.consistent⟩
    exact .inr ⟨after, hok,
      hrearranged.trimmed .nil hsound.wellFormed hsound' hattachable nofun .nil⟩

end ShadowMount.Children
