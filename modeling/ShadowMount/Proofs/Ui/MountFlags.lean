import ShadowMount.Proofs.Ui.Anchors

/-!
# Mount flags

Which nodes of a reachable user interface mount to views and which have one. A node keeps the stamp
it was made with, so its kind and its layout policy are those of its view manager; its flags respect
the kind; and views hang from roots without a gap.

* **`Tree.Managed`** — every node but the roots is as some view manager asks.
* **`Ui.Reachable.mount_flags`** — what the flags of the nodes say in every reachable state.
-/

namespace ShadowMount

variable {κ : Type}

/-! ## Stamps

What a node was made with and keeps for life: its class, its kind, and whether it forces its
children to mount. -/

section Stamps

variable [Coordinate κ] {scene done : Scene κ}

/-- The stamp of a node has its class, its kind and what it does to its children; a touch changes
none of these. -/
theorem Touch.stamp (h : Touch scene done) (t : Tag) :
    (done.tree.get? t).map Node.stamp = (scene.tree.get? t).map Node.stamp := by
  cases h with
  | rise h => exact h.kept.stamps t
  | post => rfl
  | props => rfl
  | @data tree mount log tag node hget frame props =>
    show ((tree.store tag _).get? t).map Node.stamp = (tree.get? t).map Node.stamp
    rw [Tree.get?_store]
    split
    · next heq =>
      rw [← heq, hget]
      rfl
    · rfl

/-- A touch registers no root and removes none. -/
theorem Touch.roots (h : Touch scene done) : done.tree.roots = scene.tree.roots := by
  cases h with
  | rise h => exact h.kept.links.roots
  | post => rfl
  | props => rfl
  | data => rfl

/-- Nothing but registration and removal touches stamps and roots. -/
theorem Touches.stamps (h : Touches scene done) : done.tree.roots = scene.tree.roots ∧
    scene.tree.SameStamps done.tree := by
  induction h with
  | refl => exact ⟨rfl, fun _ => rfl⟩
  | tail _ htouch ih =>
    exact ⟨htouch.roots.trans ih.1, fun t => (htouch.stamp t).trans (ih.2 t)⟩

/-- A touch registers no node and removes none. -/
theorem Touches.contains (h : Touches scene done) (tag : Tag) :
    done.tree.contains tag = scene.tree.contains tag := by
  have hstamp := congrArg Option.isSome ((Touches.stamps h).2 tag)
  rwa [Option.isSome_map, Option.isSome_map] at hstamp

end Stamps

/-! ## Managers

Nodes are made by view managers, roots aside. As stamps stay, every node is as its manager asks, in
every state. -/

/-- Every node but the roots is of the class of some view manager. -/
def Tree.Managed (managers : Managers) (tree : Tree κ) : Prop :=
  ∀ {t node}, tree.get? t = some node → t ∉ tree.roots →
    ∃ name manager, managers.resolve name = .ok manager ∧ manager.Makes node

/-- What a manager makes is seen from the stamp. -/
theorem ViewManager.Makes.of_stamp_eq {manager : ViewManager} {node other : Node κ}
    (h : manager.Makes node) (hstamp : node.stamp = other.stamp) : manager.Makes other := by
  simp only [Node.stamp, Prod.mk.injEq] at hstamp
  obtain ⟨-, hname, hkind, hforces⟩ := hstamp
  exact ⟨hname ▸ h.name, hkind ▸ h.kind, hforces ▸ h.lays_out⟩

namespace Tree.Managed

variable {managers : Managers} {tree after : Tree κ}

/-- An empty tree has no nodes to manage. -/
theorem empty : (Tree.empty : Tree κ).Managed managers :=
  fun {t node} h => by simp [Tree.get?, Tree.empty] at h

/-- Nodes that were there before and keep their stamps stay managed. -/
theorem congr (h : tree.Managed managers)
    (hstamp : ∀ {t node}, after.get? t = some node → t ∉ after.roots →
      t ∉ tree.roots ∧ (after.get? t).map Node.stamp = (tree.get? t).map Node.stamp) :
    after.Managed managers := by
  intro t node hget hroot
  obtain ⟨hroot', hsame⟩ := hstamp hget hroot
  rw [hget, Option.map_some, eq_comm, Option.map_eq_some_iff] at hsame
  obtain ⟨old, hold, heq⟩ := hsame
  obtain ⟨name, manager, hresolve, hmakes⟩ := h hold hroot'
  exact ⟨name, manager, hresolve, hmakes.of_stamp_eq heq⟩

end Tree.Managed

section Managed

variable [Coordinate κ] {managers : Managers} {scene done : Scene κ}

/-- Touches keep nodes managed. -/
theorem Touches.managed (h : Touches scene done) (hmanaged : scene.tree.Managed managers) :
    done.tree.Managed managers := by
  obtain ⟨hroots, hstamps⟩ := Touches.stamps h
  refine hmanaged.congr fun {t node} _ hroot => ⟨?_, hstamps t⟩
  rwa [hroots] at hroot

/-- No command changes what a manager asked for, and new nodes come from managers. -/
theorem Effect.managed {registration : Registration} {removals : List Tag}
    (h : Effect managers registration removals scene done)
    (hmanaged : scene.tree.Managed managers) : done.tree.Managed managers := by
  cases h with
  | @addRoot tree mount log tag viewClass width height hfree =>
    -- the other nodes have been there before, and the new one is a root
    refine hmanaged.congr fun {t node} hget hroot => ?_
    have hne : tag ≠ t := fun heq => hroot (Tree.mem_withRoot.mpr (.inr heq.symm))
    refine ⟨fun hmem => hroot (Tree.mem_withRoot.mpr (.inl hmem)), ?_⟩
    show ((tree.store tag _).get? t).map Node.stamp = _
    rw [Tree.get?_store, if_neg hne]
  | @create tree mount log node hfresh hcreated hfree name manager hmanager hmakes =>
    intro t other hget hroot
    rw [Tree.get?_store] at hget
    split at hget
    -- the new node is what its manager makes
    · next heq => exact ⟨name, manager, hmanager, Option.some.inj hget ▸ hmakes⟩
    · exact hmanaged hget hroot
  | @trim tree after mount log gone htrimmed =>
    refine hmanaged.congr fun {t node} hget hroot => ?_
    -- what stays registered was not cut off, and keeps its stamp
    have hkept : t ∉ removals :=
      (htrimmed.contains_iff.mp (Tree.contains_of_get? hget)).2
    exact ⟨fun hmem => hroot ((htrimmed.roots t).mpr ⟨hmem, hkept⟩), htrimmed.stamp hkept⟩
  | active h => exact Touches.managed h.touches hmanaged

/-- The nodes of every reachable user interface are managed. -/
theorem Ui.Reachable.managed {ui : Ui κ} (h : ui.Reachable) :
    ui.scene.tree.Managed ui.managers :=
  h.invariant (P := fun managers tree => tree.Managed managers) (fun _ => Tree.Managed.empty)
    (fun heffect _ hmanaged => heffect.managed hmanaged) Touches.managed

end Managed

/-! ## Reachable states

The invariants of flags, of managers and of anchors, put together. -/

namespace Ui

variable [Coordinate κ] {ui : Ui κ}

/-- A view that is not a root's has a native parent with a view. -/
theorem Reachable.nativeParent_created (h : ui.Reachable) {t : Tag}
    (hview : ui.scene.tree.createdAt t = true) (hroot : t ∉ ui.scene.tree.roots) :
    ∃ p, ui.scene.tree.nativeParent t = .ok (some p) ∧ ui.scene.tree.createdAt p = true := by
  have hsound := h.sound.tree
  have hanchored := h.anchored
  -- the search for a native parent finds one, or there is none
  rcases Tree.nativeParent_cases hsound.wellFormed (Tree.contains_of_createdAt hview) with
    ⟨p, hquery, hp⟩ | ⟨hquery, hno⟩
  · exact ⟨p, hquery, hanchored.nativeParent hview hp⟩
  · -- the root above the node mounts, so some native parent is found
    obtain ⟨r, hr, rfl | hanc⟩ := hanchored.attached hview
    · exact absurd hr hroot
    · have hmounts := hsound.flags.mountsAt_of_createdAt (hsound.flags.root_created hr)
      obtain ⟨p, hp⟩ := hanc.exists_nativeParent hmounts
      exact absurd hp (hno p)

/-- In every reachable state a node with a view mounts, a virtual node does not and a view-mounting
one does. A node but a root is of the class of a view manager, and where that manager lays out the
children, every child that is not virtual mounts. A node with a view is a root or lies below one;
every mounting node above it has a view too, its native parent among them. -/
theorem Reachable.mount_flags (h : ui.Reachable) :
    (∀ {t node}, ui.scene.tree.get? t = some node →
      (node.created = true → node.mounts = true) ∧
      (node.kind = .virtual → node.mounts = false) ∧
      (node.kind = .viewMounting → node.mounts = true) ∧
      (t ∉ ui.scene.tree.roots →
        ∃ name manager, ui.managers.resolve name = .ok manager ∧ manager.Makes node)) ∧
    (∀ {c p node above}, ui.scene.tree.get? c = some node → node.parent = some p →
      ui.scene.tree.get? p = some above → above.forcesChildren = true → node.kind ≠ .virtual →
      node.mounts = true) ∧
    (∀ {t}, ui.scene.tree.createdAt t = true → ui.scene.tree.Attached t ∧
      (∀ {a}, ui.scene.tree.Ancestor a t → ui.scene.tree.mountsAt a = true →
        ui.scene.tree.createdAt a = true) ∧
      (t ∉ ui.scene.tree.roots →
        ∃ p, ui.scene.tree.nativeParent t = .ok (some p) ∧ ui.scene.tree.createdAt p = true)) := by
  have hflags := h.sound.tree.flags
  have hanchored := h.anchored
  -- each clause is an invariant of its own: flags, managers, anchors
  refine ⟨fun hget => ⟨hflags.created_mounts hget, hflags.virtual_not_mounts hget,
    hflags.viewMounting_mounts hget, h.managed hget⟩, hflags.forced_mounts, fun hview => ?_⟩
  exact ⟨hanchored.attached hview, fun ha hmounts => hanchored.above hview ha hmounts,
    h.nativeParent_created hview⟩

/-- A pager with a plain page, below the root; then a command forces a view for the text inside the
page, and another one fails for a run of text. -/
def forcedText : Ui Float32 :=
  (Ui.new Managers.builtins {}).performAll [.addRoot 1 0 0, .create 2 "ViewPager" 1 .empty,
    .create 3 "View" 1 .empty, .create 4 "Text" 1 .empty, .create 5 "RawText" 1 .empty,
    .prependChildren 4 [5], .prependChildren 3 [4], .prependChildren 2 [3], .prependChildren 1 [2],
    .sendCommand 4 0 [], .sendCommand 5 0 []]

/-- The page mounts because the pager lays it out, and has a view because the text below it does. -/
theorem Reachable.mount_flags_forcedText :
    forcedText.scene.tree.createdAt 4 = true ∧
      forcedText.scene.tree.mountsAt 3 = true ∧
      ∃ p, forcedText.scene.tree.nativeParent 4 = .ok (some p) ∧
        forcedText.scene.tree.createdAt p = true := by
  have hreachable : forcedText.Reachable := Reachable.performAll (.new ..) _
  have hview : forcedText.scene.tree.createdAt 4 = true := by decide +kernel
  have hroot : 4 ∉ forcedText.scene.tree.roots := by decide +kernel
  obtain ⟨-, -, hviews⟩ := hreachable.mount_flags
  exact ⟨hview, by decide +kernel, (hviews hview).2.2 hroot⟩

end Ui

end ShadowMount
