import ShadowMount.Mount.Pass
import ShadowMount.Proofs.Mount.Reconcile

/-!
# Escalation in well-formed trees

Escalation promotes a node, makes sure of the view above it and reconciles below. Beside the steps
of reconciliation it takes two more: a promotion below a node that is itself without a view, where
nothing has a view yet, and a promotion below a view. The second one comes in one piece with the
child list of the view above and with the creation of the node's own view, because in between the
views below the node have no native parent.

* **`Rise`** — one step of escalation; `Progress` is a run of them.
* **`Ascent`** — an escalation as a whole, which promotes at most one node and does so before any
  view is created.
* **`escalate_cases`** — an escalation either fails and leaves the scene as it was, every promotion
  taken back, or is an ascent after which the node has a view.
* **`refreshRoots_ok`** — bringing all roots up to date never fails and settles every root.
-/

namespace ShadowMount

namespace Tree

variable {κ : Type} {tree : Tree κ}

/-- A stored node is found under its tag. -/
theorem get?_store_self (t : Tag) (node : Node κ) : (tree.store t node).get? t = some node := by
  rw [get?_store, if_pos rfl]

/-- Storing the node that is there changes nothing. -/
theorem store_get? {t : Tag} {node : Node κ} (hget : tree.get? t = some node) :
    tree.store t node = tree := by
  refine ext_get? (fun x => ?_) rfl rfl
  rw [get?_store]
  split
  · next heq => rw [← heq, hget]
  · rfl

/-- Of two nodes stored under one tag the second one stays. -/
theorem store_store (t : Tag) (a b : Node κ) : (tree.store t a).store t b = tree.store t b := by
  refine ext_get? (fun x => ?_) rfl rfl
  rw [get?_store, get?_store, get?_store]
  split <;> rfl

/-- The way up from an ancestor is shorter. -/
theorem Lineage.of_ancestor {t a : Tag} {l : List Tag} (h : tree.Lineage t l)
    (ha : tree.Ancestor a t) : ∃ l', tree.Lineage a l' ∧ l'.length < l.length := by
  induction h with
  | top _ hnone =>
    obtain ⟨p, hp, -⟩ := ha.parent_inSubtree
    rw [hnone] at hp
    cases hp
  | @up t p l hparent hrest ih =>
    obtain ⟨q, hq, hsub⟩ := ha.parent_inSubtree
    obtain rfl : p = q := Option.some.inj (hparent.symm.trans hq)
    rcases hsub with rfl | hsub
    · exact ⟨l, hrest, by simp⟩
    · obtain ⟨l', hl', hlt⟩ := ih hsub
      refine ⟨l', hl', ?_⟩
      rw [List.length_cons]
      omega

/-- A node with a native parent is no root. -/
theorem WellFormed.not_root_of_nativeParent (hwf : tree.WellFormed) {t p : Tag}
    (h : tree.NativeParent t p) : tree.isRoot t = false := by
  cases hroot : tree.isRoot t with
  | false => rfl
  | true =>
    obtain ⟨q, hq, -⟩ := h.ancestor.parent_inSubtree
    rw [hwf.root_parentless (isRoot_iff.mp hroot)] at hq
    cases hq

/-! ## Promotions

A promotion turns on the mount flag of one node. Links and views stay; what changes is that the
views below the node have another native parent. -/

/-- A promotion changes no link. -/
theorem sameLinks_promote {t : Tag} {node : Node κ} (hget : tree.get? t = some node) :
    SameLinks tree (tree.store t node.promote) :=
  sameLinks_store hget node.tag_promote node.parent_promote node.children_promote

/-- A promotion keeps the flags sound: it adds one flag, and not on a virtual node. -/
theorem FlagsSound.promote (hflags : tree.FlagsSound) {t : Tag} {node : Node κ}
    (hget : tree.get? t = some node) : (tree.store t node.promote).FlagsSound := by
  refine hflags.store hget node.kind_promote node.forcesChildren_promote node.parent_promote
    ?_ ?_ ?_ ?_
  · intro h
    rw [Node.mounts_promote, h, Bool.true_or]
  · intro h
    rw [Node.created_promote, h]
  · intro h
    rw [Node.created_promote] at h
    rw [Node.mounts_promote, hflags.created_mounts hget h, Bool.true_or]
  · intro h
    rw [Node.mounts_promote, hflags.virtual_not_mounts hget h, h]
    rfl

/-- A promotion changes no view. -/
theorem createdAt_promote {t : Tag} {node : Node κ} (hget : tree.get? t = some node) (x : Tag) :
    (tree.store t node.promote).createdAt x = tree.createdAt x := by
  rw [createdAt_store]
  split
  · next heq => rw [← heq, Node.created_promote, createdAt_of_get? hget]
  · rfl

/-- A promotion keeps the native parent of a node unless it comes in between. -/
theorem NativeParent.promote {t c p : Tag} {node : Node κ} (h : tree.NativeParent c p)
    (hget : tree.get? t = some node) (hnot : tree.Ancestor t c → ¬ tree.Ancestor p t) :
    (tree.store t node.promote).NativeParent c p := by
  have hlinks := sameLinks_promote hget
  refine ⟨h.1.transport (fun y _ => hlinks.parent y) fun y hy hp hmounts => ?_, ?_⟩
  · have hne : t ≠ y := by
      rintro rfl
      exact hnot hy hp
    rw [mountsAt_store, if_neg hne, hmounts]
  · rw [mountsAt_store]
    split
    · next heq => rw [Node.mounts_promote, ← mountsAt_of_get? hget, heq, h.2, Bool.true_or]
    · exact h.2

/-- Before a promotion at least as much was exposed. -/
theorem Exposed.of_promote {t c p : Tag} {node : Node κ} (hget : tree.get? t = some node)
    (h : (tree.store t node.promote).Exposed p c) : tree.Exposed p c := by
  have hlinks := sameLinks_promote hget
  refine h.transport (fun y _ => (hlinks.parent y).symm) fun y _ _ hmounts => ?_
  rw [mountsAt_store] at hmounts
  split at hmounts
  · next heq =>
    rw [Node.mounts_promote, Bool.or_eq_false_iff] at hmounts
    rw [← heq, mountsAt_of_get? hget, hmounts.1]
  · exact hmounts

/-- A promotion does not change what lies above the promoted node. -/
theorem nativeParent_promote_iff (hwf : tree.WellFormed) {t x p : Tag} {node : Node κ}
    (hget : tree.get? t = some node) (hx : tree.InSubtree x t) :
    (tree.store t node.promote).NativeParent x p ↔ tree.NativeParent x p := by
  constructor
  · intro h
    have hanc := (sameLinks_promote hget).ancestor_iff.mp h.ancestor
    have hne : t ≠ p := by
      rintro rfl
      exact hwf.not_ancestor_of_inSubtree hx hanc
    refine ⟨h.1.of_promote hget, ?_⟩
    rw [← h.2, mountsAt_store, if_neg hne]
  · intro h
    exact h.promote hget fun ht => absurd ht (hwf.not_ancestor_of_inSubtree hx)

/-! ## What escalation keeps

Everything that holds of a tree through an escalation: links, stamps, and the views and flags that
are there already. -/

/-- What escalation keeps of a tree: links, stamps and properties, sound flags, views,
consistency. -/
structure Kept (a b : Tree κ) : Prop where
  /-- Links and roots. -/
  links : a.SameLinks b
  /-- Root, class, kind and properties of every node. -/
  data : ∀ t, (b.get? t).map (fun node => (node.stamp, node.props)) =
    (a.get? t).map fun node => (node.stamp, node.props)
  /-- Flags that respect the kinds. -/
  flags : a.FlagsSound → b.FlagsSound
  /-- Every view; there may be more. -/
  created : ∀ {t}, a.createdAt t = true → b.createdAt t = true
  poisoned : b.poisoned = a.poisoned

/-- Two trees with the same tags, whose nodes have the same stamps. -/
def SameStamps (a b : Tree κ) : Prop :=
  ∀ t, (b.get? t).map Node.stamp = (a.get? t).map Node.stamp

/-- What is kept has the stamps it had. -/
theorem Kept.stamps {a b : Tree κ} (h : Kept a b) : SameStamps a b := by
  intro t
  have hdata := congrArg (Option.map Prod.fst) (h.data t)
  rwa [Option.map_map, Option.map_map] at hdata

/-- What is kept twice is kept. -/
theorem Kept.trans {a b c : Tree κ} (hab : Kept a b) (hbc : Kept b c) : Kept a c :=
  ⟨hab.links.trans hbc.links, fun t => (hbc.data t).trans (hab.data t),
    fun h => hbc.flags (hab.flags h), fun h => hbc.created (hab.created h),
    hbc.poisoned.trans hab.poisoned⟩

/-- Creating views keeps all of this. -/
theorem Grown.kept {a b : Tree κ} (h : a.Grown b) : Kept a b := by
  refine ⟨h.sameLinks, fun t => ?_, h.flagsSound, h.mono, h.poisoned⟩
  rw [h.node, Option.map_map]
  rfl

/-- So does a promotion. -/
theorem kept_promote {t : Tag} {node : Node κ} (hget : tree.get? t = some node) :
    Kept tree (tree.store t node.promote) := by
  refine ⟨sameLinks_promote hget, fun x => ?_, fun hflags => hflags.promote hget, fun {x} h => ?_,
    rfl⟩
  · rw [get?_store]
    split
    · next heq =>
      rw [← heq, hget, Option.map_some, Option.map_some, Node.stamp_promote, Node.props_promote]
    · rfl
  · rw [createdAt_promote hget, h]

end Tree

/-- After a promotion that makes a difference the node mounts. -/
theorem Node.mounts_of_promotable {κ : Type} {node : Node κ} (h : node.isPromotable = true) :
    node.promote.mounts = true := by
  rw [Node.promote, if_pos h]

/-- A virtual node cannot be promoted. -/
theorem Node.not_virtual_of_promotable {κ : Type} {node : Node κ} (h : node.isPromotable = true) :
    node.isVirtual = false := by
  rw [Node.isPromotable] at h
  simpa using (Bool.and_eq_true_iff.mp h).1

/-- A node that mounts already cannot be promoted either. -/
theorem Node.unmounted_of_promotable {κ : Type} {node : Node κ} (h : node.isPromotable = true) :
    node.mounts = false := by
  rw [Node.isPromotable] at h
  simpa using (Bool.and_eq_true_iff.mp h).2

/-- What does not mount has no view. -/
theorem Tree.FlagsSound.not_created {κ : Type} {tree : Tree κ} (hflags : tree.FlagsSound) {t : Tag}
    {node : Node κ} (hget : tree.get? t = some node) (hmounts : node.mounts = false) :
    node.created = false := by
  cases hcreated : node.created with
  | false => rfl
  | true =>
    rw [hflags.created_mounts hget hcreated] at hmounts
    cases hmounts

/-- What mounts is not virtual. -/
theorem Tree.FlagsSound.not_virtual {κ : Type} {tree : Tree κ} (hflags : tree.FlagsSound) {t : Tag}
    {node : Node κ} (hget : tree.get? t = some node) (hmounts : node.mounts = true) :
    node.isVirtual = false := by
  rw [Node.isVirtual, beq_eq_false_iff_ne]
  intro hkind
  rw [hflags.virtual_not_mounts hget hkind] at hmounts
  cases hmounts

namespace Mount

open MountM

variable {κ : Type} [Coordinate κ] {scene mid done : Scene κ}

/-! ## Steps of escalation

The steps of a reconciliation, and the two kinds of promotion. Where a promotion is taken back no
step was made, so failing escalations do not appear here. -/

/-- One step of escalation, with what is known when it is taken. -/
inductive Rise : Scene κ → Scene κ → Prop
  | step {scene done : Scene κ} (h : Step scene done) : Rise scene done
  | promote {tree : Tree κ} {mount : MountState κ} {log : List Log.Line} {tag parent : Tag}
      {node : Node κ} (hget : tree.get? tag = some node) (hparent : tree.NativeParent tag parent)
      (habove : tree.createdAt parent = false) :
      Rise ⟨tree, mount, log⟩ ⟨tree.store tag node.promote, mount, log⟩
  | insert {tree : Tree κ} {mount : MountState κ} {log : List Log.Line} {tag parent : Tag}
      {node : Node κ} {children : List Tag} (hget : tree.get? tag = some node)
      (hpromotable : node.isPromotable = true) (hcreated : node.created = false)
      (hparent : tree.NativeParent tag parent) (habove : tree.createdAt parent = true)
      (hchildren : (tree.store tag node.promote).nativeChildren parent = .ok children) :
      Rise ⟨tree, mount, log⟩ (withView
        ⟨tree.store tag node.promote, mount.childrenSent parent children, log⟩ tag node.promote)

/-- Steps of escalation, one after the other. -/
abbrev Progress (scene done : Scene κ) : Prop := Relation.ReflTransGen Rise scene done

/-- A run of reconciliation is a run of steps of escalation. -/
theorem Run.progress (h : Run scene done) : Progress scene done := by
  induction h with
  | refl => exact .refl
  | tail _ hstep ih => exact ih.tail (.step hstep)

/-- One step of escalation keeps links, data, flags and views. -/
theorem Rise.kept (h : Rise scene done) : scene.tree.Kept done.tree := by
  cases h with
  | step h => exact h.grown.kept
  | promote hget => exact Tree.kept_promote hget
  | insert hget hpromotable =>
    exact (Tree.kept_promote hget).trans (Tree.grown_store (Tree.get?_store_self ..)
      (Node.mounts_of_promotable hpromotable)).kept

/-- So do any number of them. -/
theorem Progress.kept (h : Progress scene done) : scene.tree.Kept done.tree := by
  induction h with
  | refl => exact ⟨.refl _, fun _ => rfl, id, id, rfl⟩
  | tail _ hrise ih => exact ih.trans hrise.kept

/-- A whole escalation: what is sent while the tree is still as it was, then at most one step of
escalation, then a run of reconciliation. -/
def Ascent (scene done : Scene κ) : Prop :=
  ∃ mid lifted, Run scene mid ∧ mid.tree = scene.tree ∧ Relation.ReflGen Rise mid lifted ∧
    Run lifted done

/-- A run of reconciliation is an ascent without a promotion. -/
theorem Run.ascent (h : Run scene done) : Ascent scene done := ⟨scene, scene, .refl, rfl, .refl, h⟩

/-- An ascent may go on with a run. -/
theorem Ascent.andThen (h : Ascent scene mid) (hrun : Run mid done) : Ascent scene done := by
  obtain ⟨sent, lifted, hsent, htree, hlift, hrest⟩ := h
  exact ⟨sent, lifted, hsent, htree, hlift, hrest.trans hrun⟩

/-- An ascent is a run of steps. -/
theorem Ascent.progress (h : Ascent scene done) : Progress scene done := by
  obtain ⟨sent, lifted, hsent, -, hlift, hrest⟩ := h
  exact ((Run.progress hsent).trans hlift.to_reflTransGen).trans (Run.progress hrest)

/-! ## One view

Bringing a view up to date whose place in the hierarchy is secured. -/

/-- Refreshing an existing view sends its frame, unless nothing is above it, and then its native
child list. -/
theorem refreshView_ok (hwf : scene.tree.WellFormed) {tag : Tag}
    (hview : scene.tree.createdAt tag = true) : ∃ mount children,
      (mount = scene.mount ∨ ∃ p frame, scene.tree.NativeParent tag p ∧
        mount = scene.mount.frameSent tag p frame) ∧
      scene.tree.nativeChildren tag = .ok children ∧
      refreshView tag scene = .ok () { scene with mount := mount.childrenSent tag children } := by
  have ht := Tree.contains_of_createdAt hview
  obtain ⟨children, hchildren, -⟩ := Tree.nativeChildren_spec hwf ht
  unfold refreshView
  rw [get_bind]
  -- a root has no native parent, and its frame is not sent by this
  by_cases hroot : scene.tree.isRoot tag = true
  · refine ⟨scene.mount, children, .inl rfl, hchildren, ?_⟩
    rw [hroot, if_neg (by decide)]
    exact sendChildren_of_ok hchildren
  · rw [if_pos (by rw [Bool.not_eq_true _ |>.mp hroot]; rfl)]
    -- any other view goes where its native parent draws it
    rcases Tree.nativeParent_cases hwf ht with ⟨p, hquery, hp⟩ | ⟨hquery, -⟩
    · obtain ⟨found, hget⟩ := Tree.contains_iff.mp ht
      obtain ⟨⟨dx, dy⟩, hoffset⟩ := Tree.offsetInNativeParent_ok hwf ht
      refine ⟨scene.mount.frameSent tag p (found.frame.shift dx dy), children,
        .inr ⟨p, _, hp, rfl⟩, hchildren, ?_⟩
      rw [bind_of_ok (query_of_ok hquery)]
      show (query (·.offsetInNativeParent tag) >>= _ : MountM κ Unit) scene = _
      rw [bind_of_ok (query_of_ok hoffset)]
      show (node tag >>= _ : MountM κ Unit) scene = _
      rw [bind_of_ok (node_of_get? hget), bind_of_ok (sendFrame_apply ..)]
      exact sendChildren_of_ok hchildren
    · -- a view in a loose subtree has no frame to be placed by
      refine ⟨scene.mount, children, .inl rfl, hchildren, ?_⟩
      rw [bind_of_ok (query_of_ok hquery)]
      exact sendChildren_of_ok hchildren

/-- Refreshing an existing view is a run of steps. -/
theorem refreshView_run (hwf : scene.tree.WellFormed) {tag : Tag}
    (hview : scene.tree.createdAt tag = true) :
    ∃ done, refreshView tag scene = .ok () done ∧ Run scene done := by
  obtain ⟨mount, children, hmount, hchildren, hrefresh⟩ := refreshView_ok hwf hview
  obtain ⟨tree, start, log⟩ := scene
  refine ⟨_, hrefresh, ?_⟩
  have hlast : Step ⟨tree, mount, log⟩ ⟨tree, mount.childrenSent tag children, log⟩ :=
    .children hview hchildren
  rcases hmount with rfl | ⟨p, frame, hp, rfl⟩
  · exact .single hlast
  · exact .tail (.single (.frame frame hview hp)) hlast

/-! ## The way up

The outcome at one node depends on the outcome at its native parent. There are four cases in which
there is nothing to climb and two in which the escalation of the native parent decides; an induction
along the lineage puts them together. -/

/-- The escalation of a node with a view refreshes the view and answers that it is not new. -/
theorem escalateWithin_of_created {tag : Tag} {found : Node κ} {steps : Nat}
    (hget : scene.tree.get? tag = some found) (hvirtual : found.isVirtual = false)
    (hcreated : found.created = true) (h : refreshView tag scene = .ok () done) :
    escalateWithin (steps + 1) tag scene = .ok false done := by
  unfold escalateWithin
  rw [bind_of_ok (node_of_get? hget), hvirtual, if_neg Bool.false_ne_true, if_pos hcreated,
    bind_of_ok h]
  rfl

/-- The escalation of a virtual node fails before anything is done. -/
theorem escalateWithin_of_virtual {tag : Tag} {found : Node κ} {steps : Nat}
    (hget : scene.tree.get? tag = some found) (hvirtual : found.isVirtual = true) :
    escalateWithin (steps + 1) tag scene = .error (.virtualNode tag) scene := by
  unfold escalateWithin
  rw [bind_of_ok (node_of_get? hget), if_pos hvirtual]
  rfl

/-- The escalation of a missing node fails before anything is done. -/
theorem escalateWithin_of_missing {tag : Tag} {steps : Nat} (hget : scene.tree.get? tag = none) :
    escalateWithin (steps + 1) tag scene = .error (.missing tag) scene := by
  unfold escalateWithin
  exact bind_of_error (node_of_missing hget)

/-- The scene in which a node is promoted. -/
def promoted (scene : Scene κ) (tag : Tag) (node : Node κ) : Scene κ :=
  { scene with tree := scene.tree.store tag node.promote }

section Climb

variable {tag parent : Tag} {found : Node κ} {steps : Nat}
  (hget : scene.tree.get? tag = some found) (hvirtual : found.isVirtual = false)
  (hcreated : found.created = false)

include hget hvirtual hcreated

/-- A node with nothing above it that mounts has nowhere to get a view from. -/
theorem escalateWithin_of_unparented (hnone : scene.tree.nativeParent tag = .ok none) :
    escalateWithin (steps + 1) tag scene = .error (.noMountingAncestor tag) scene := by
  unfold escalateWithin
  rw [bind_of_ok (node_of_get? hget), hvirtual, if_neg Bool.false_ne_true, hcreated,
    if_neg Bool.false_ne_true, bind_of_ok (query_of_ok hnone)]
  rfl

/-- A failure above takes the promotion back. -/
theorem escalateWithin_of_failure {err : UiError} (hmounting : found.mounts = false →
      found.kind ≠ .viewMounting)
    (hparent : scene.tree.nativeParent tag = .ok (some parent))
    (h : escalateWithin steps parent (promoted scene tag found) =
      .error err (promoted scene tag found)) :
    escalateWithin (steps + 1) tag scene = .error err scene := by
  -- what the clean-up does: it takes the promotion back, if there was one
  have hclean : (if found.isPromotable then onTree (TreeM.update tag Node.demote) else pure () :
      MountM κ Unit) (promoted scene tag found) = .ok () scene := by
    obtain ⟨tree, mount, log⟩ := scene
    cases hpromotable : found.isPromotable with
    | true =>
      have hnot := Node.unmounted_of_promotable hpromotable
      -- demoting the promoted node gives the node as it was
      have hback : found.promote.demote = found := by
        rw [Node.promote, if_pos hpromotable, Node.demote, if_pos]
        · cases found
          exact congrArg (fun mounts => Node.mk _ _ _ _ _ _ _ _ _ mounts _) hnot.symm
        · simpa [hcreated] using hmounting hnot
      show onTree (TreeM.update tag Node.demote) (promoted _ tag found) = _
      rw [onTree_of_ok (Tree.update_of_get? (Tree.get?_store_self tag found.promote)), hback]
      show EStateM.Result.ok () (⟨(tree.store tag found.promote).store tag found, mount, log⟩ :
        Scene κ) = _
      rw [Tree.store_store, Tree.store_get? hget]
    | false =>
      show EStateM.Result.ok () (⟨tree.store tag found.promote, mount, log⟩ : Scene κ) = _
      rw [Node.promote, hpromotable, if_neg Bool.false_ne_true, Tree.store_get? hget]
  unfold escalateWithin
  rw [bind_of_ok (node_of_get? hget), hvirtual, if_neg Bool.false_ne_true, hcreated,
    if_neg Bool.false_ne_true, bind_of_ok (query_of_ok hparent)]
  show (onTree (Tree.promote tag) >>= _ : MountM κ Bool) scene = _
  rw [bind_of_ok (onTree_of_ok (Tree.promote_of_get? hget))]
  exact bind_of_error (onFailure_of_error h hclean)

/-- Once the node above has its view, the subtree is reconciled below it. -/
theorem escalateWithin_of_success {flag : Bool}
    (hparent : scene.tree.nativeParent tag = .ok (some parent))
    (h : escalateWithin steps parent (promoted scene tag found) = .ok flag mid) :
    ∃ log, ∀ {done}, reconcileBelow tag parent { mid with log } = .ok () done →
      escalateWithin (steps + 1) tag scene = .ok true done := by
  -- the promotion and the escalation of the node above, whatever follows
  have hstart : ∀ {rest : Bool → MountM κ Bool},
      (onTree (Tree.promote tag) >>= fun flag => onFailure (escalateWithin steps parent)
        (if flag then onTree (TreeM.update tag Node.demote) else pure ()) >>= fun _ => rest flag)
          scene = rest found.isPromotable mid := by
    intro rest
    rw [bind_of_ok (onTree_of_ok (Tree.promote_of_get? hget))]
    exact bind_of_ok (onFailure_of_ok h)
  -- a promotion that made a difference is noted in the log, and nothing else is different
  cases hpromotable : found.isPromotable with
  | true =>
    refine ⟨mid.log ++ [⟨.debug, s!"node {tag} forced to mount to a view"⟩], fun {done} hbelow => ?_⟩
    unfold escalateWithin
    rw [bind_of_ok (node_of_get? hget), hvirtual, if_neg Bool.false_ne_true, hcreated,
      if_neg Bool.false_ne_true, bind_of_ok (query_of_ok hparent)]
    refine hstart.trans ?_
    rw [hpromotable]
    show (say _ _ >>= fun _ => reconcileBelow tag parent >>= fun _ => pure true :
      MountM κ Bool) mid = _
    rw [bind_of_ok (say_apply ..), bind_of_ok hbelow]
    rfl
  | false =>
    refine ⟨mid.log, fun {done} hbelow => ?_⟩
    unfold escalateWithin
    rw [bind_of_ok (node_of_get? hget), hvirtual, if_neg Bool.false_ne_true, hcreated,
      if_neg Bool.false_ne_true, bind_of_ok (query_of_ok hparent)]
    refine hstart.trans ?_
    rw [hpromotable]
    show (reconcileBelow tag parent >>= fun _ => pure true : MountM κ Bool) mid = _
    rw [bind_of_ok hbelow]
    rfl

end Climb

/-- What a successful escalation of `tag` has reached: its view, and one above it if the view is
new. -/
structure Escalated (scene : Scene κ) (tag : Tag) (done : Scene κ) : Prop where
  view : done.tree.createdAt tag = true
  above : scene.tree.createdAt tag = false →
    ∃ p, done.tree.NativeParent tag p ∧ done.tree.createdAt p = true

omit [Coordinate κ] in
/-- A settled node that mounts has its view. -/
theorem Settled.createdAt {tag : Tag} (h : Settled done tag)
    (hmounts : done.tree.mountsAt tag = true) : done.tree.createdAt tag = true :=
  (h tag (.refl tag) hmounts).1

/-- Escalating a node that mounts: no flag but those of new views changes. The recursion follows the
nodes that mount upwards until one has a view or none is left. -/
theorem escalateWithin_mounting : ∀ {steps : Nat} {tag : Tag} {scene : Scene κ} {l : List Tag},
    scene.tree.WellFormed → scene.tree.FlagsSound → scene.tree.Lineage tag l → l.length ≤ steps →
    scene.tree.mountsAt tag = true →
      (∃ err, escalateWithin steps tag scene = .error err scene) ∨
      ∃ done, escalateWithin steps tag scene = .ok (!scene.tree.createdAt tag) done ∧
        Run scene done ∧ Escalated scene tag done
  | 0, tag, scene, l, _, _, hl, hsteps, _ => by
    have := hl.length_pos
    omega
  | steps + 1, tag, scene, l, hwf, hflags, hl, hsteps, hmounts => by
    have ht := hl.contains
    obtain ⟨found, hget⟩ := Tree.contains_iff.mp ht
    have hfound : found.mounts = true := by rwa [Tree.mountsAt_of_get? hget] at hmounts
    have hvirtual := hflags.not_virtual hget hfound
    have hcreatedAt := Tree.createdAt_of_get? hget
    cases hcreated : found.created with
    -- a node with a view is refreshed, and the recursion ends
    | true =>
      rw [hcreated] at hcreatedAt
      obtain ⟨done, hrefresh, hrun⟩ := refreshView_run hwf hcreatedAt
      refine .inr ⟨done, ?_, hrun, (Run.grown hrun).mono hcreatedAt, fun h => ?_⟩
      · rw [hcreatedAt]
        exact escalateWithin_of_created hget hvirtual hcreated hrefresh
      · rw [hcreatedAt] at h
        cases h
    | false =>
      rw [hcreated] at hcreatedAt
      -- the node mounts already, so the promotion changes nothing
      have hsame : promoted scene tag found = scene := by
        obtain ⟨tree, mount, log⟩ := scene
        show (⟨tree.store tag found.promote, mount, log⟩ : Scene κ) = _
        rw [Node.promote_of_mounts hfound, Tree.store_get? hget]
      rcases Tree.nativeParent_cases hwf ht with ⟨p, hquery, hp⟩ | ⟨hquery, -⟩
      · obtain ⟨l', hl', hlt⟩ := hl.of_ancestor hp.ancestor
        have hsteps' : l'.length ≤ steps := by omega
        rcases escalateWithin_mounting hwf hflags hl' hsteps' hp.2 with
          -- the escalation of the native parent has failed or has given it a view
          ⟨err, herr⟩ | ⟨mid, hmid, hrun, hup⟩
        · refine .inl ⟨err, escalateWithin_of_failure hget hvirtual hcreated ?_ hquery ?_⟩
          · intro h
            rw [hfound] at h
            cases h
          · rw [hsame]
            exact herr
        -- the native parent has its view, so the node can be reconciled below it
        · rw [← hsame] at hmid
          obtain ⟨log, hlast⟩ := escalateWithin_of_success hget hvirtual hcreated hquery hmid
          have hrun' : Run scene { mid with log } := hrun.tail (.note ..)
          have hgrown := Run.grown hrun'
          obtain ⟨done, hbelow, hrunBelow, hsettled⟩ := @reconcileBelow_ok _ _ { mid with log }
            (hgrown.sameLinks.wellFormed hwf) tag p (hgrown.nativeParent hp) hup.view
          have hgrown' := hgrown.trans (Run.grown hrunBelow)
          refine .inr ⟨done, ?_, hrun'.trans hrunBelow,
            hsettled.createdAt ((hgrown'.mountsAt tag).trans hmounts), fun _ => ?_⟩
          · rw [hcreatedAt]
            exact hlast hbelow
          · exact ⟨p, hgrown'.nativeParent hp, (Run.grown hrunBelow).mono hup.view⟩
      -- nothing above mounts
      · exact .inl ⟨_, escalateWithin_of_unparented hget hvirtual hcreated hquery⟩

/-- Promoting a node below a view: the view above is refreshed without what hung below the node,
and the node's own view takes it over. -/
theorem escalateWithin_insert {steps : Nat} {tag parent : Tag} {found : Node κ}
    (hwf : scene.tree.WellFormed) (hflags : scene.tree.FlagsSound)
    (hget : scene.tree.get? tag = some found) (hpromotable : found.isPromotable = true)
    (hcreated : found.created = false) (hp : scene.tree.NativeParent tag parent)
    (hview : scene.tree.createdAt parent = true) :
    ∃ done, escalateWithin (steps + 2) tag scene = .ok true done ∧ Ascent scene done ∧
      Escalated scene tag done := by
  have hvirtual : found.isVirtual = false := Node.not_virtual_of_promotable hpromotable
  have hkept := Tree.kept_promote hget
  have hwf' := hkept.links.wellFormed hwf
  have hview' := hkept.created hview
  have hmounts := Node.mounts_of_promotable hpromotable
  have hp' := (Tree.nativeParent_promote_iff hwf hget (.refl tag)).mpr hp
  obtain ⟨above, habove, habovecreated⟩ := Tree.get?_of_createdAt hview'
  have hflags' := hkept.flags hflags
  have habovevirtual := hflags'.not_virtual habove (hflags'.created_mounts habove habovecreated)
  -- the view above is found and refreshed at once, so the climb has no further step
  obtain ⟨mount, children, hmount, hchildren, hrefresh⟩ :=
    @refreshView_ok _ _ (promoted scene tag found) hwf' parent hview'
  obtain ⟨log, hlast⟩ := escalateWithin_of_success hget hvirtual hcreated
    (Tree.nativeParent_eq_some hwf hp)
    (@escalateWithin_of_created _ _ (promoted scene tag found) _ parent above steps habove
      habovevirtual habovecreated hrefresh)
  obtain ⟨tree, start, oldLog⟩ := scene
  -- the subtree of the node follows, and begins with the creation of its view
  obtain ⟨done, hbelow, hrun, hsettled⟩ := @reconcileBelow_withView _ _
    ⟨tree.store tag found.promote, mount.childrenSent parent children, log⟩ hwf' tag parent
    found.promote (Tree.get?_store_self ..) hmounts (found.created_promote.trans hcreated) hp' hview'
  have hgrown := (Tree.grown_store (Tree.get?_store_self ..) hmounts).trans (Run.grown hrun)
  refine ⟨done, hlast hbelow, ?_, hsettled.createdAt ?_, fun _ => ?_⟩
  · -- the frame of the view above goes out first; it does not depend on the promotion
    have hframe : Run ⟨tree, start, oldLog⟩ ⟨tree, mount, oldLog⟩ := by
      rcases hmount with rfl | ⟨q, frame, hq, rfl⟩
      · exact .refl
      · refine .single (.frame frame hview ?_)
        exact (Tree.nativeParent_promote_iff hwf hget (.inr hp.ancestor)).mp hq
    exact ⟨⟨tree, mount, log⟩, _, hframe.tail (.note _ log), rfl,
      .single (.insert hget hpromotable hcreated hp hview hchildren), hrun⟩
  · rw [hgrown.mountsAt, Tree.mountsAt_store, if_pos rfl, hmounts]
  · exact ⟨parent, hgrown.nativeParent hp', hgrown.mono hview'⟩

/-- Promoting a node below one that has no view: the promotion itself, and then what happens to a
node that mounts. -/
theorem escalateWithin_promote {steps : Nat} {tag parent : Tag} {found : Node κ} {l : List Tag}
    (hwf : scene.tree.WellFormed) (hflags : scene.tree.FlagsSound)
    (hget : scene.tree.get? tag = some found) (hpromotable : found.isPromotable = true)
    (hcreated : found.created = false) (hkind : found.kind ≠ .viewMounting)
    (hp : scene.tree.NativeParent tag parent) (hview : scene.tree.createdAt parent = false)
    (hl : scene.tree.Lineage parent l) (hsteps : l.length ≤ steps) :
    (∃ err, escalateWithin (steps + 1) tag scene = .error err scene) ∨
    ∃ done, escalateWithin (steps + 1) tag scene = .ok true done ∧ Ascent scene done ∧
      Escalated scene tag done := by
  have hvirtual : found.isVirtual = false := Node.not_virtual_of_promotable hpromotable
  have hquery := Tree.nativeParent_eq_some hwf hp
  have hkept := Tree.kept_promote hget
  have hwf' := hkept.links.wellFormed hwf
  have hp' := (Tree.nativeParent_promote_iff hwf hget (.refl tag)).mpr hp
  -- the node above mounts and has no view, so its escalation is one of a node that mounts
  rcases @escalateWithin_mounting _ _ steps parent (promoted scene tag found) l hwf'
    (hkept.flags hflags) (hkept.links.lineage hl) hsteps hp'.2 with
    ⟨err, herr⟩ | ⟨mid, hmid, hrun, hup⟩
  · exact .inl ⟨err, escalateWithin_of_failure hget hvirtual hcreated (fun _ => hkind) hquery herr⟩
  · -- promote, give the node above its view, reconcile below it: one ascent
    obtain ⟨log, hlast⟩ := escalateWithin_of_success hget hvirtual hcreated hquery hmid
    have hrun' : Run (promoted scene tag found) { mid with log } := hrun.tail (.note ..)
    have hgrown := Run.grown hrun'
    obtain ⟨done, hbelow, hrunBelow, hsettled⟩ := @reconcileBelow_ok _ _ { mid with log }
      (hgrown.sameLinks.wellFormed hwf') tag parent (hgrown.nativeParent hp') hup.view
    have hgrown' := hgrown.trans (Run.grown hrunBelow)
    refine .inr ⟨done, hlast hbelow, ?_, hsettled.createdAt ?_, fun _ => ?_⟩
    · obtain ⟨tree, mount, oldLog⟩ := scene
      exact ⟨_, _, .refl, rfl, .single (.promote hget hp hview), hrun'.trans hrunBelow⟩
    · rw [hgrown'.mountsAt]
      show (scene.tree.store tag found.promote).mountsAt tag = true
      rw [Tree.mountsAt_store, if_pos rfl, Node.mounts_of_promotable hpromotable]
    · exact ⟨parent, hgrown'.nativeParent hp', (Run.grown hrunBelow).mono hup.view⟩

/-- The escalation of a node that mounts fails and changes nothing, or is a run of reconciliation.
-/
theorem escalate_mounting (hwf : scene.tree.WellFormed) (hflags : scene.tree.FlagsSound) {tag : Tag}
    (hmounts : scene.tree.mountsAt tag = true) :
    (∃ err, escalate tag scene = .error err scene) ∨
    ∃ done, escalate tag scene = .ok (!scene.tree.createdAt tag) done ∧ Run scene done ∧
      Escalated scene tag done := by
  obtain ⟨found, hget, -⟩ := Tree.get?_of_mountsAt hmounts
  obtain ⟨l, hl⟩ := hwf.exists_lineage (Tree.contains_of_get? hget)
  exact escalateWithin_mounting hwf hflags hl (Nat.le_succ_of_le (hl.length_le_size hwf)) hmounts

/-- An escalation fails and changes nothing, or ascends and gives the node a view. -/
theorem escalate_cases (hwf : scene.tree.WellFormed) (hflags : scene.tree.FlagsSound) (tag : Tag) :
    (∃ err, escalate tag scene = .error err scene) ∨
    ∃ done, escalate tag scene = .ok (!scene.tree.createdAt tag) done ∧ Ascent scene done ∧
      Escalated scene tag done := by
  cases hget : scene.tree.get? tag with
  | none => exact .inl ⟨_, escalateWithin_of_missing hget⟩
  | some found =>
    cases hmounts : found.mounts with
    -- a node that mounts: no promotion
    | true =>
      rcases escalate_mounting hwf hflags ((Tree.mountsAt_of_get? hget).trans hmounts) with
        herr | ⟨done, hdone, hrun, hup⟩
      · exact .inl herr
      · exact .inr ⟨done, hdone, Run.ascent hrun, hup⟩
    | false =>
      show (∃ err, escalateWithin (scene.tree.size + 1) tag scene = .error err scene) ∨
        ∃ done,
          escalateWithin (scene.tree.size + 1) tag scene = .ok (!scene.tree.createdAt tag) done ∧
          _
      have ht := Tree.contains_of_get? hget
      obtain ⟨l, hl⟩ := hwf.exists_lineage ht
      have hsize := hl.length_le_size hwf
      -- a node that does not mount has no view, and its kind does not ask for one
      have hcreated := hflags.not_created hget hmounts
      have hkind : found.kind ≠ .viewMounting := by
        intro hkind
        rw [hflags.viewMounting_mounts hget hkind] at hmounts
        cases hmounts
      rw [Tree.createdAt_of_get? hget, hcreated]
      cases hvirtual : found.isVirtual with
      | true => exact .inl ⟨_, escalateWithin_of_virtual hget hvirtual⟩
      | false =>
        have hpromotable : found.isPromotable = true := by
          rw [Node.isPromotable, hvirtual, hmounts]
          rfl
        rcases Tree.nativeParent_cases hwf ht with ⟨p, hquery, hp⟩ | ⟨hquery, -⟩
        · obtain ⟨l', hl', hlt⟩ := hl.of_ancestor hp.ancestor
          -- a native parent with a view is refreshed; one without is escalated itself
          cases hview : scene.tree.createdAt p with
          | true =>
            -- a node and its native parent are two nodes, which pay for two steps
            have hpos := hl'.length_pos
            obtain ⟨steps, hsteps⟩ : ∃ steps, scene.tree.size + 1 = steps + 2 :=
              ⟨scene.tree.size - 1, by omega⟩
            rw [hsteps]
            exact .inr (escalateWithin_insert hwf hflags hget hpromotable hcreated hp hview)
          | false =>
            exact escalateWithin_promote hwf hflags hget hpromotable hcreated hkind hp hview hl'
              (by omega)
        · exact .inl ⟨_, escalateWithin_of_unparented hget hvirtual hcreated hquery⟩

/-! ## Subtrees and roots

A refresh of a subtree is a refresh of the view at its top, or a reconciliation inside of the view
above it, or nothing at all. Roots always have their views. -/

/-- The refresh of a root reconciles it from the origin, and settles it. -/
theorem refreshSubtree_root (hwf : scene.tree.WellFormed) (hflags : scene.tree.FlagsSound)
    {root : Tag} (hroot : root ∈ scene.tree.roots) :
    ∃ done, refreshSubtree root scene = .ok () done ∧ Run scene done ∧ Settled done root := by
  have hview := hflags.root_created hroot
  obtain ⟨done, hok, hrun, hsettled⟩ := @reconcileSubtree_ok _ _ scene hwf root 0 0 none
    ⟨hflags.mountsAt_of_createdAt hview, hview⟩ (hwf.root_contained hroot)
  refine ⟨done, ?_, hrun, hsettled⟩
  unfold refreshSubtree
  rw [get_bind, if_pos (Tree.isRoot_iff.mpr hroot)]
  exact hok

/-- Refreshing a subtree below an existing view reconciles it there. -/
theorem refreshSubtree_of_parent (hwf : scene.tree.WellFormed) {tag parent : Tag}
    (hp : scene.tree.NativeParent tag parent) (hview : scene.tree.createdAt parent = true) :
    refreshSubtree tag scene = reconcileBelow tag parent scene := by
  obtain ⟨above, habove, hcreated⟩ := Tree.get?_of_createdAt hview
  unfold refreshSubtree
  rw [get_bind, if_neg (by rw [hwf.not_root_of_nativeParent hp]; exact Bool.false_ne_true),
    bind_of_ok (query_of_ok (Tree.nativeParent_eq_some hwf hp))]
  show (node parent >>= _ : MountM κ Unit) scene = _
  rw [bind_of_ok (node_of_get? habove), hcreated]
  rfl

/-- Below a node without a view, that view is created first. -/
theorem refreshSubtree_of_uncreated (hwf : scene.tree.WellFormed) {tag parent : Tag}
    (hp : scene.tree.NativeParent tag parent) (hview : scene.tree.createdAt parent = false) :
    refreshSubtree tag scene =
      (discard (escalate parent) >>= fun _ => reconcileBelow tag parent : MountM κ Unit) scene := by
  obtain ⟨above, habove, -⟩ := Tree.get?_of_mountsAt hp.2
  rw [Tree.createdAt_of_get? habove] at hview
  unfold refreshSubtree
  rw [get_bind, if_neg (by rw [hwf.not_root_of_nativeParent hp]; exact Bool.false_ne_true),
    bind_of_ok (query_of_ok (Tree.nativeParent_eq_some hwf hp))]
  show (node parent >>= _ : MountM κ Unit) scene = _
  rw [bind_of_ok (node_of_get? habove), hview]
  rfl

/-- Where there is nothing to hang from, refreshing a subtree fails. -/
theorem refreshSubtree_of_loose (hwf : scene.tree.WellFormed) {tag : Tag}
    (hroot : tag ∉ scene.tree.roots) (hnone : ∀ p, ¬ scene.tree.NativeParent tag p) :
    ∃ err, refreshSubtree tag scene = .error err scene ∧
      (err = .missing tag ∨ err = .noMountingAncestor tag) := by
  unfold refreshSubtree
  rw [get_bind, if_neg fun h => hroot (Tree.isRoot_iff.mp h)]
  cases hget : scene.tree.get? tag with
  | none =>
    refine ⟨.missing tag, bind_of_error (query_of_error ?_), .inl rfl⟩
    rw [Tree.nativeParent, Tree.node_of_get?_none hget]
    rfl
  | some found =>
    rcases Tree.nativeParent_cases hwf (Tree.contains_of_get? hget) with ⟨p, -, hp⟩ | ⟨hquery, -⟩
    · exact absurd hp (hnone p)
    · refine ⟨.noMountingAncestor tag, ?_, .inr rfl⟩
      rw [bind_of_ok (query_of_ok hquery)]
      rfl

/-- Below an existing view a subtree is brought up to date. -/
theorem refreshSubtree_of_view (hwf : scene.tree.WellFormed) {tag parent : Tag}
    (hp : scene.tree.NativeParent tag parent) (hview : scene.tree.createdAt parent = true) :
    ∃ done, refreshSubtree tag scene = .ok () done ∧ Run scene done := by
  obtain ⟨done, hbelow, hrun, -⟩ := reconcileBelow_ok hwf hp hview
  exact ⟨done, (refreshSubtree_of_parent hwf hp hview).trans hbelow, hrun⟩

/-- Bringing the roots up to date, one after the other. What is settled stays settled. -/
theorem refreshRoots_ok (hwf : scene.tree.WellFormed) (hflags : scene.tree.FlagsSound) :
    ∃ done, refreshRoots scene = .ok () done ∧ Run scene done ∧
      ∀ root ∈ scene.tree.roots, Settled done root := by
  have hloop : ∀ {roots : List Tag} {scene : Scene κ}, scene.tree.WellFormed →
      scene.tree.FlagsSound → (∀ root ∈ roots, root ∈ scene.tree.roots) →
        ∃ done, roots.forM refreshSubtree scene = .ok () done ∧ Run scene done ∧
          ∀ root ∈ roots, Settled done root := by
    intro roots
    induction roots with
    | nil => exact fun {scene} _ _ _ => ⟨scene, rfl, .refl, nofun⟩
    | cons root rest ih =>
      intro scene hwf hflags hroots
      obtain ⟨mid, hfirst, hrun, hsettled⟩ :=
        refreshSubtree_root hwf hflags (hroots root (List.mem_cons_self ..))
      have hgrown := Run.grown hrun
      have hwf' := hgrown.sameLinks.wellFormed hwf
      obtain ⟨done, hrest, hrun', hsettled'⟩ := ih hwf' (hgrown.flagsSound hflags)
        fun r hr => hgrown.roots ▸ hroots r (List.mem_cons_of_mem _ hr)
      refine ⟨done, (forM_cons_of_ok hfirst).trans hrest, hrun.trans hrun', fun r hr => ?_⟩
      rcases List.mem_cons.mp hr with rfl | hr
      -- what was settled first is left alone by what follows
      · exact Run.settled hrun' hwf' hsettled
      · exact hsettled' r hr
  exact hloop hwf hflags fun _ h => h

end Mount

end ShadowMount
