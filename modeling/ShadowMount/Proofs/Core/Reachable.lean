import ShadowMount.Proofs.Children.Edits
import ShadowMount.Proofs.Mount.Requests

/-!
# Reachable trees

What the core offers to its callers, one constructor of `CoreCall` for each function. A call works
on a tree and on a mount state, answers or fails, and leaves a tree in both cases. Callers may pair
a tree with any mount state, so `Reachable` quantifies over mount states at every call.

* **`CoreCall.evolved`** — a call leaves a sound tree sound, be it answered or refused, and adds at
  most one root, behind the others.
* **`Reachable.sound`** — every reachable tree has well-formed links and flags that respect the
  kinds of its nodes, and is not poisoned.
-/

namespace ShadowMount

open MountM

/-- A call of the core. A node is registered without links and with flags that respect its kind,
which is how nodes are made. -/
inductive CoreCall (κ : Type) where
  | register (node : Node κ) (fresh : node.IsFresh)
  | registerRoot (tag : Tag) (viewClass : String) (width height : κ)
  | setFrame (tag : Tag) (frame : Frame κ)
  | mergeProps (tag : Tag) (delta : Props)
  | promote (tag : Tag)
  | attach (parent child : Tag) (index : Nat)
  | detachAt (parent : Tag) (index : Nat)
  | removeSubtree (tag : Tag)
  | applyBatch (parent : Tag) (batch : Batch)
  | prepend (parent : Tag) (children : List Tag)
  | trackRoot (root : Tag)
  | escalate (tag : Tag)
  | refreshSubtree (tag : Tag)
  | refreshRoots
  | sendProps (tag : Tag) (delta : Props)
  | destroySubtree (tag : Tag)
  | destroyRoot (root : Tag)
  | relativeFrame (tag : Tag)
  | touchView (tag : Tag)

namespace CoreCall

variable {κ : Type} [Coordinate κ]

/-- The meaning of a call. -/
def run : CoreCall κ → MountM κ Unit
  | register node _ => onTree (Tree.register node)
  | registerRoot tag viewClass width height =>
    onTree (Tree.registerRoot tag viewClass width height)
  | setFrame tag frame => onTree (Tree.setFrame tag frame)
  | mergeProps tag delta => onTree (Tree.mergeProps tag delta)
  | promote tag => discard (onTree (Tree.promote tag))
  | attach parent child index => onTree (Tree.attach parent child index)
  | detachAt parent index => discard (onTree (Tree.detachAt parent index))
  | removeSubtree tag => discard (onTree (Tree.removeSubtree tag))
  | applyBatch parent batch => Children.applyBatch parent batch
  | prepend parent children => Children.prepend parent children
  | trackRoot root => Mount.trackRoot root
  | escalate tag => discard (Mount.escalate tag)
  | refreshSubtree tag => Mount.refreshSubtree tag
  | refreshRoots => Mount.refreshRoots
  | sendProps tag delta => discard (Mount.sendProps tag delta)
  | destroySubtree tag => discard (Mount.destroySubtree tag)
  | destroyRoot root => discard (Mount.destroyRoot root)
  | relativeFrame tag => discard (Mount.relativeFrame tag)
  | touchView tag => discard (Mount.touchView tag)

/-- The root that a call registers, if it succeeds in that. -/
def newRoots : CoreCall κ → Scene κ → List Tag
  | registerRoot tag viewClass width height, scene =>
    match run (registerRoot tag viewClass width height) scene with
    | .ok .. => [tag]
    | .error .. => []
  | _, _ => []

end CoreCall

/-- The trees that calls of the core can lead to, each call with a mount state of its own. -/
inductive Tree.Reachable {κ : Type} [Coordinate κ] : Tree κ → Prop
  | empty : Reachable .empty
  | call {tree : Tree κ} (h : Reachable tree) (call : CoreCall κ) (mount : MountState κ)
      (log : List Log.Line) : Reachable (leaves call.run ⟨tree, mount, log⟩).tree

/-- What holds of every reachable tree. -/
structure Tree.Sound {κ : Type} (tree : Tree κ) : Prop where
  wellFormed : tree.WellFormed
  flags : tree.FlagsSound
  consistent : tree.poisoned = false

/-- What a call makes of a tree: it is sound, and its roots are earlier ones or just `added`, in
this order. -/
structure Tree.Evolved {κ : Type} (tree : Tree κ) (added : List Tag) (after : Tree κ) : Prop where
  sound : after.Sound
  roots : after.roots.Sublist (tree.roots ++ added)

/-! ## Edits of single nodes

Soundness is the conjunction of the two invariants of links and flags with a tree that is not
poisoned. Each edit keeps it, by the lemmas for the single invariants. -/

namespace Tree.Sound

variable {κ : Type} {tree : Tree κ}

/-- The tree without nodes is sound, every clause being empty. -/
theorem empty : (Tree.empty : Tree κ).Sound where
  wellFormed := {
    tag_eq := fun {t node} h => by simp [Tree.get?, Tree.empty] at h
    link := fun {c p} => by simp [Tree.childrenOf, Tree.parentOf?, Tree.get?, Tree.empty]
    nodup := fun p => by simp [Tree.childrenOf, Tree.get?, Tree.empty]
    acyclic := ⟨fun _ => 0, fun {c p} h => by simp [Tree.parentOf?, Tree.get?, Tree.empty] at h⟩
    roots_nodup := .nil
    root_contained := nofun
    root_parentless := nofun }
  flags := {
    created_mounts := fun {t node} h => by simp [Tree.get?, Tree.empty] at h
    virtual_not_mounts := fun {t node} h => by simp [Tree.get?, Tree.empty] at h
    viewMounting_mounts := fun {t node} h => by simp [Tree.get?, Tree.empty] at h
    forced_mounts := fun {c p node above} h => by simp [Tree.get?, Tree.empty] at h
    root_created := nofun }
  consistent := rfl

theorem register (h : tree.Sound) {node : Node κ} (hfresh : node.IsFresh)
    (hfree : tree.contains node.tag = false) : (tree.store node.tag node).Sound :=
  ⟨h.wellFormed.store_fresh hfresh hfree, h.flags.store_fresh h.wellFormed hfresh hfree,
    h.consistent⟩

theorem withRootNode [Coordinate κ] (h : tree.Sound) {tag : Tag} {viewClass : String}
    {width height : κ} (hfree : tree.contains tag = false) :
    (tree.withRootNode tag viewClass width height).Sound :=
  ⟨h.wellFormed.withRootNode hfree, h.flags.withRootNode h.wellFormed hfree, h.consistent⟩

/-- A change of the frame or the properties of a node. -/
theorem update (h : tree.Sound) {t : Tag} {node : Node κ} (hget : tree.get? t = some node)
    (frame : Frame κ) (props : Props) : (tree.store t { node with frame, props }).Sound := by
  have hlinks := @Tree.sameLinks_store _ _ t node { node with frame, props } hget rfl rfl rfl
  have hcreated := h.flags.created_mounts hget
  exact ⟨hlinks.wellFormed h.wellFormed,
    h.flags.store hget rfl rfl rfl id id hcreated (h.flags.virtual_not_mounts hget), h.consistent⟩

/-- Changes that keep links and soundness of flags keep a tree sound. -/
theorem kept {after : Tree κ} (h : tree.Sound) (hkept : tree.Kept after) : after.Sound :=
  ⟨hkept.links.wellFormed h.wellFormed, hkept.flags h.flags, hkept.poisoned.trans h.consistent⟩

/-- Removing the subtree of a node keeps a tree sound. -/
theorem withoutSubtree (h : tree.Sound) {tag : Tag} {members : List Tag}
    (ht : tree.contains tag = true) (hmembers : tree.postOrder tag = .ok members) :
    (tree.withoutSubtree tag members).Sound := by
  obtain ⟨xs, hxs, hmem, -⟩ := Tree.postOrder_spec h.wellFormed ht
  obtain rfl : xs = members := Except.ok.inj (hxs.symm.trans hmembers)
  exact ⟨h.wellFormed.withoutSubtree hmem, h.flags.withoutSubtree h.wellFormed hmem,
    Tree.poisoned_withoutSubtree.trans h.consistent⟩

end Tree.Sound

/-! ## Calls

Each call of the core is followed through its actions. What has to be said of the roots is said at
the same time: they are those from before, less some, with at most one new root behind them. -/

namespace Tree.Evolved

variable {κ : Type} {tree after : Tree κ}

/-- A sound tree whose roots are earlier ones, none of them new. -/
theorem of_sublist (h : after.Sound) (hroots : after.roots.Sublist tree.roots) :
    tree.Evolved [] after :=
  ⟨h, by rwa [List.append_nil]⟩

/-- A sound tree with the same roots has evolved without adding any. -/
theorem of_roots_eq (h : after.Sound) (hroots : after.roots = tree.roots) : tree.Evolved [] after :=
  .of_sublist h (hroots ▸ .refl _)

/-- A sound tree that did not change at all has evolved. -/
theorem refl (h : tree.Sound) : tree.Evolved [] tree := .of_roots_eq h rfl

/-- So has one that kept its links. -/
theorem kept (h : tree.Sound) (hkept : tree.Kept after) : tree.Evolved [] after :=
  .of_roots_eq (h.kept hkept) hkept.links.roots

/-- So has one that lost a subtree, whose roots are earlier ones. -/
theorem withoutSubtree (h : tree.Sound) {tag : Tag} {members : List Tag}
    (ht : tree.contains tag = true) (hmembers : tree.postOrder tag = .ok members) :
    tree.Evolved [] (tree.withoutSubtree tag members) :=
  .of_sublist (h.withoutSubtree ht hmembers) List.erase_sublist

end Tree.Evolved

namespace CoreCall

variable {κ : Type} {scene : Scene κ}

/-- An edit of the tree that fails without a change, or ends in an evolved tree. -/
theorem evolved_onTree {α : Type} {edit : TreeM κ α}
    (h : (∃ err, edit scene.tree = .error err scene.tree) ∨
      ∃ answer tree, edit scene.tree = .ok answer tree ∧ scene.tree.Evolved [] tree)
    (hsound : scene.tree.Sound) : scene.tree.Evolved [] (leaves (onTree edit) scene).tree := by
  rcases h with ⟨err, herr⟩ | ⟨answer, tree, hok, htree⟩
  · rw [leaves_of_error (onTree_of_error herr)]
    exact .refl hsound
  · rw [leaves_of_ok (onTree_of_ok hok)]
    exact htree

/-- An update of the frame or the properties of a node is such an edit. -/
theorem evolved_update (tag : Tag) (frame : Node κ → Frame κ) (props : Node κ → Props)
    (hsound : scene.tree.Sound) : scene.tree.Evolved [] (leaves (onTree (TreeM.update tag fun node =>
      { node with frame := frame node, props := props node })) scene).tree := by
  refine evolved_onTree ((Tree.update_cases ..).imp_right ?_) hsound
  rintro ⟨node, hget, hok⟩
  exact ⟨(), _, hok, .of_roots_eq (hsound.update hget _ _) rfl⟩

/-- The registration of a fresh node leaves a sound tree sound. -/
theorem evolved_register {node : Node κ} (fresh : node.IsFresh) (hsound : scene.tree.Sound) :
    scene.tree.Evolved [] (leaves (onTree (Tree.register node)) scene).tree := by
  refine evolved_onTree ((Tree.register_cases scene.tree node).imp_right ?_) hsound
  rintro ⟨hfree, hok⟩
  exact ⟨(), _, hok, .of_roots_eq (hsound.register fresh hfree) rfl⟩

/-- So does a promotion. -/
theorem evolved_promote (tag : Tag) (hsound : scene.tree.Sound) :
    scene.tree.Evolved [] (leaves (onTree (Tree.promote tag)) scene).tree := by
  refine evolved_onTree ((Tree.promote_cases scene.tree tag).imp_right ?_) hsound
  rintro ⟨node, hget, hok⟩
  exact ⟨_, _, hok, .kept hsound (Tree.kept_promote hget)⟩

/-- The new child of an attachment hangs in no cycle, and mounts if its parent forces it to. -/
theorem evolved_attach (parent child : Tag) (index : Nat) (hsound : scene.tree.Sound) :
    scene.tree.Evolved [] (leaves (onTree (Tree.attach parent child index)) scene).tree := by
  have hwf := hsound.wellFormed
  refine evolved_onTree ((Tree.attach_cases hwf parent child index).imp_right ?_) hsound
  rintro ⟨above, node, habove, hnode, hindex, hattachable, hok⟩
  exact ⟨(), _, hok, .of_roots_eq ⟨hwf.linked habove hnode hindex hattachable,
    hsound.flags.linked habove hnode, hsound.consistent⟩ rfl⟩

/-- A detached child keeps its flags, which no parent asks for any more. -/
theorem evolved_detachAt (parent : Tag) (index : Nat) (hsound : scene.tree.Sound) :
    scene.tree.Evolved [] (leaves (onTree (Tree.detachAt parent index)) scene).tree := by
  have hwf := hsound.wellFormed
  refine evolved_onTree ((Tree.detachAt_cases hwf parent index).imp_right ?_) hsound
  rintro ⟨above, child, node, habove, hchild, hnode, hok⟩
  exact ⟨child, _, hok, .of_roots_eq ⟨hwf.unlinked habove hchild hnode,
    hsound.flags.unlinked hwf habove hnode, hsound.consistent⟩ rfl⟩

/-- The removal of a subtree may take a root along, and adds none. -/
theorem evolved_removeSubtree (tag : Tag) (hsound : scene.tree.Sound) :
    scene.tree.Evolved [] (leaves (onTree (Tree.removeSubtree tag)) scene).tree := by
  refine evolved_onTree ((Tree.removeSubtree_cases hsound.wellFormed tag).imp_right ?_) hsound
  rintro ⟨members, ht, hmembers, hok⟩
  exact ⟨members, _, hok, .withoutSubtree hsound ht hmembers⟩

/-- Destroying a subtree leaves a sound tree sound, also where it finds nothing to destroy. -/
theorem evolved_destroySubtree (tag : Tag) (hsound : scene.tree.Sound) :
    scene.tree.Evolved [] (leaves (Mount.destroySubtree tag) scene).tree := by
  rcases Mount.destroySubtree_cases hsound.wellFormed tag with
    ⟨err, herr⟩ | ⟨members, log, ht, hmembers, hok⟩
  · rw [leaves_of_error herr]
    exact .refl hsound
  · rw [leaves_of_ok hok]
    exact .withoutSubtree hsound ht hmembers

/-- Destroying a root is that on a root, and refused on anything else. -/
theorem evolved_destroyRoot (root : Tag) (hsound : scene.tree.Sound) :
    scene.tree.Evolved [] (leaves (Mount.destroyRoot root) scene).tree := by
  rcases Mount.destroyRoot_cases scene root with ⟨err, herr⟩ | heq
  · rw [leaves_of_error herr]
    exact .refl hsound
  · rw [leaves, heq]
    exact evolved_destroySubtree root hsound

/-- Tracking a root writes the mount state alone. -/
theorem evolved_trackRoot (root : Tag) (hsound : scene.tree.Sound) :
    scene.tree.Evolved [] (leaves (Mount.trackRoot root) scene).tree := by
  rcases Mount.trackRoot_cases hsound.wellFormed root with ⟨err, herr⟩ | ⟨found, -, -, hok⟩
  · rw [leaves_of_error herr]
    exact .refl hsound
  · rw [leaves_of_ok hok]
    exact .refl hsound

/-- A batch leaves a sound tree sound, be it accepted or rejected. -/
theorem evolved_applyBatch (parent : Tag) (batch : Batch) (hsound : scene.tree.Sound) :
    scene.tree.Evolved [] (leaves (Children.applyBatch parent batch) scene).tree := by
  obtain ⟨tree, mount, log⟩ := scene
  by_cases hvalid : batch.Valid tree parent
  · obtain ⟨after, log', hok, hwf, hflags, hrearranged⟩ := Children.applyBatch_of_valid
      mount log hsound.wellFormed hsound.flags hsound.consistent hvalid
    rw [leaves_of_ok hok]
    exact .of_roots_eq ⟨hwf, hflags, hrearranged.poisoned.trans hsound.consistent⟩
      hrearranged.roots
  · obtain ⟨err, log', herr⟩ := Children.applyBatch_of_invalid mount log hsound.wellFormed
      hsound.consistent hvalid
    rw [leaves_of_error herr]
    exact .refl hsound

/-- Putting children in front leaves a sound tree sound, be it accepted or refused. -/
theorem evolved_prepend (parent : Tag) (children : List Tag) (hsound : scene.tree.Sound) :
    scene.tree.Evolved [] (leaves (Children.prepend parent children) scene).tree := by
  rcases Children.prepend_cases hsound.wellFormed hsound.flags children with
    ⟨err, herr⟩ | ⟨after, list, hok, hwf, hflags, hrearranged, -⟩
  · rw [leaves_of_error herr]
    exact .refl hsound
  · rw [leaves_of_ok hok]
    exact .of_roots_eq ⟨hwf, hflags, hrearranged.poisoned.trans hsound.consistent⟩
      hrearranged.roots

/-- Sending properties does not touch the tree. -/
theorem evolved_sendProps (tag : Tag) (delta : Props) (hsound : scene.tree.Sound) :
    scene.tree.Evolved [] (leaves (Mount.sendProps tag delta) scene).tree := by
  rcases @Mount.leaves_sendProps _ scene tag delta with hsame | ⟨viewClass, hsent⟩
  · rw [hsame]
    exact .refl hsound
  · rw [hsent]
    exact .refl hsound

variable [Coordinate κ]

/-- The registration of a root is the one call that adds to the roots. -/
theorem evolved_registerRoot (tag : Tag) (viewClass : String) (width height : κ)
    (hsound : scene.tree.Sound) :
    scene.tree.Evolved (newRoots (registerRoot tag viewClass width height) scene)
      (leaves (run (registerRoot tag viewClass width height)) scene).tree := by
  rcases Tree.registerRoot_cases scene.tree tag viewClass width height with
    ⟨err, herr⟩ | ⟨hfree, hok⟩
  · rw [newRoots, run, onTree_of_error herr, leaves_of_error (onTree_of_error herr)]
    exact .refl hsound
  · rw [newRoots, run, onTree_of_ok hok, leaves_of_ok (onTree_of_ok hok)]
    refine ⟨hsound.withRootNode hfree, ?_⟩
    show (Tree.withRoot scene.tree.roots tag).Sublist (scene.tree.roots ++ [tag])
    rw [Tree.withRoot]
    split
    · exact List.sublist_append_left ..
    · exact .refl _

/-- An action that fails without a change or ascends. -/
theorem evolved_ascent {α : Type} {action : MountM κ α}
    (h : (∃ err, action scene = .error err scene) ∨
      ∃ answer done, action scene = .ok answer done ∧ Mount.Ascent scene done)
    (hsound : scene.tree.Sound) : scene.tree.Evolved [] (leaves action scene).tree := by
  rcases h with ⟨err, herr⟩ | ⟨answer, done, hok, hascent⟩
  · rw [leaves_of_error herr]
    exact .refl hsound
  · rw [leaves_of_ok hok]
    exact .kept hsound (Mount.Progress.kept hascent.progress)

/-- A call leaves a sound tree sound, be it answered or refused, and adds at most one root, behind
the others. -/
theorem evolved (call : CoreCall κ) (hsound : scene.tree.Sound) :
    scene.tree.Evolved (call.newRoots scene) (leaves call.run scene).tree := by
  have hwf := hsound.wellFormed
  have hflags := hsound.flags
  -- the edits of the tree come first, then the calls that also schedule operations on views
  cases call with
  | register node fresh => exact evolved_register fresh hsound
  | registerRoot tag viewClass width height =>
    exact evolved_registerRoot tag viewClass width height hsound
  | setFrame tag frame => exact evolved_update tag (fun _ => frame) (·.props) hsound
  | mergeProps tag delta =>
    exact evolved_update tag (·.frame) (fun node => Props.merge node.props delta) hsound
  | promote tag =>
    rw [run, leaves_discard]
    exact evolved_promote tag hsound
  | attach parent child index => exact evolved_attach parent child index hsound
  | detachAt parent index =>
    rw [run, leaves_discard]
    exact evolved_detachAt parent index hsound
  | removeSubtree tag =>
    rw [run, leaves_discard]
    exact evolved_removeSubtree tag hsound
  | applyBatch parent batch => exact evolved_applyBatch parent batch hsound
  | prepend parent children => exact evolved_prepend parent children hsound
  | trackRoot root => exact evolved_trackRoot root hsound
  | sendProps tag delta =>
    rw [run, leaves_discard]
    exact evolved_sendProps tag delta hsound
  | destroySubtree tag =>
    rw [run, leaves_discard]
    exact evolved_destroySubtree tag hsound
  | destroyRoot root =>
    rw [run, leaves_discard]
    exact evolved_destroyRoot root hsound
  -- the other calls ascend
  | escalate tag =>
    rw [run, leaves_discard]
    refine evolved_ascent ((Mount.escalate_cases hwf hflags tag).imp_right ?_) hsound
    rintro ⟨done, hok, hascent, -⟩
    exact ⟨_, done, hok, hascent⟩
  | refreshSubtree tag =>
    refine evolved_ascent ((Mount.refreshSubtree_cases hwf hflags tag).imp_right ?_) hsound
    rintro ⟨done, hok, hascent⟩
    exact ⟨(), done, hok, hascent⟩
  | refreshRoots =>
    obtain ⟨done, hok, hrun, -⟩ := Mount.refreshRoots_ok hwf hflags
    exact evolved_ascent (.inr ⟨(), done, hok, Mount.Run.ascent hrun⟩) hsound
  | relativeFrame tag =>
    rw [run, leaves_discard]
    refine evolved_ascent ((Mount.relativeFrame_cases hwf hflags tag).imp_right ?_) hsound
    rintro ⟨frame, done, hok, hascent, -⟩
    exact ⟨frame, done, hok, hascent⟩
  | touchView tag =>
    rw [run, leaves_discard]
    refine evolved_ascent ((Mount.touchView_cases hwf hflags tag).imp_right ?_) hsound
    rintro ⟨target, done, hok, hascent, -⟩
    exact ⟨target, done, hok, hascent⟩

end CoreCall

/-- By induction on the calls: every reachable tree is sound. -/
theorem Tree.Reachable.sound {κ : Type} [Coordinate κ] {tree : Tree κ} (h : tree.Reachable) :
    tree.Sound := by
  induction h with
  | empty => exact .empty
  | call _ call mount log ih => exact (@CoreCall.evolved _ ⟨_, mount, log⟩ _ call ih).sound

end ShadowMount
