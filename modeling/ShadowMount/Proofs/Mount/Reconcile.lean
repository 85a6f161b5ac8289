import Mathlib.Logic.Relation
import ShadowMount.Mount.Reconcile
import ShadowMount.Proofs.Tree.Edits

/-!
# Reconciliation of well-formed trees

Reconciling a subtree is a run of single steps: the creation of a view below a view that exists,
a frame, a child list, a line of the log. `Step` is the relation of one such step, with what is
known when it is taken; everything a pass does to a scene is a run of steps, so an invariant need
only survive steps.

* **`Grown`** — what steps do to a tree: views are created, nothing else.
* **`reconcile_ok`** — reconciling a subtree never fails, is a run of steps, and settles the
  subtree: every node that is to have a view has one, and its child list was sent.
-/

namespace ShadowMount

namespace Tree

variable {κ : Type} {a b c : Tree κ}

/-- Two trees that differ at most in views that were created in between. -/
structure Grown (a b : Tree κ) : Prop where
  /-- Every record is the old one but for its flag, which is the one `createdAt` reads. -/
  node : ∀ t, b.get? t = (a.get? t).map fun node => { node with created := b.createdAt t }
  mono : ∀ {t}, a.createdAt t = true → b.createdAt t = true
  /-- A new view belongs to a node that was to have one: no step creates the view of a node that
  does not mount. -/
  mounted : ∀ {t}, b.createdAt t = true → a.createdAt t = true ∨ a.mountsAt t = true
  roots : b.roots = a.roots
  poisoned : b.poisoned = a.poisoned

namespace Grown

/-- Nothing was created. -/
theorem refl (a : Tree κ) : Grown a a := by
  refine ⟨fun t => ?_, id, .inl, rfl, rfl⟩
  cases hget : a.get? t with
  | none => rfl
  | some node => rw [Option.map_some, createdAt_of_get? hget]

/-- Which nodes mount is decided before reconciliation and read all through it. -/
theorem mountsAt (h : Grown a b) (t : Tag) : b.mountsAt t = a.mountsAt t := by
  rw [Tree.mountsAt, Tree.mountsAt, h.node, Option.any_map]

/-- Creations compose. A view created by either run belongs to a node that mounts, by whichever of
the two trees this is asked. -/
theorem trans (hab : Grown a b) (hbc : Grown b c) : Grown a c := by
  refine ⟨fun t => ?_, fun h => hbc.mono (hab.mono h), fun h => ?_, hbc.roots.trans hab.roots,
    hbc.poisoned.trans hab.poisoned⟩
  · rw [hbc.node, hab.node, Option.map_map]
    rfl
  · rcases hbc.mounted h with h | h
    · exact hab.mounted h
    · exact .inr (hab.mountsAt _ ▸ h)

/-- Creating views moves no node, so every fact about links carries over by the transport lemmas. -/
theorem sameLinks (h : Grown a b) : SameLinks a b := by
  refine ⟨fun t => ?_, fun t => ?_, fun t => ?_, h.roots⟩
  · rw [h.node, Option.map_map]
    rfl
  · rw [parentOf?, parentOf?, h.node, Option.bind_map]
    rfl
  · rw [childrenOf, childrenOf, h.node, Option.map_map]
    rfl

/-- Which nodes stand between two others, and that they do not mount, is as before. -/
theorem exposed (h : Grown a b) {p c : Tag} (hexposed : a.Exposed p c) : b.Exposed p c :=
  hexposed.transport (fun x _ => h.sameLinks.parent x) fun x _ _ hnot => (h.mountsAt x).trans hnot

/-- A native parent stays the native parent: it is found from links and mount flags alone. -/
theorem nativeParent (h : Grown a b) {c p : Tag} (hparent : a.NativeParent c p) :
    b.NativeParent c p :=
  ⟨h.exposed hparent.1, (h.mountsAt p).trans hparent.2⟩

/-- Sound flags stay sound. Only the rules that read the flag of an existing view need work: a node
with a view mounts, and roots have views. -/
theorem flagsSound (h : Grown a b) (hflags : a.FlagsSound) : b.FlagsSound := by
  -- a record of the later tree is a record of the earlier one with another flag
  have hcases : ∀ {t node}, b.get? t = some node →
      ∃ old, a.get? t = some old ∧ node = { old with created := b.createdAt t } := by
    intro t node hget
    rw [h.node] at hget
    obtain ⟨old, hold, heq⟩ := Option.map_eq_some_iff.mp hget
    exact ⟨old, hold, heq.symm⟩
  refine ⟨?_, ?_, ?_, ?_, ?_⟩
  -- a node with a view mounts: it had the view already, or it was created because it mounts
  · intro t node hget hcreated
    rw [← createdAt_of_get? hget] at hcreated
    have hmounts : b.mountsAt t = true := by
      rw [h.mountsAt]
      exact (h.mounted hcreated).elim hflags.mountsAt_of_createdAt id
    rwa [mountsAt_of_get? hget] at hmounts
  · -- this rule and the next two do not read the flag
    intro t node hget
    obtain ⟨old, hold, rfl⟩ := hcases hget
    have hsound := hflags.virtual_not_mounts hold
    exact hsound
  · intro t node hget
    obtain ⟨old, hold, rfl⟩ := hcases hget
    have hsound := hflags.viewMounting_mounts hold
    exact hsound
  · intro c p node above hget hp habove
    obtain ⟨old, hold, rfl⟩ := hcases hget
    obtain ⟨oldAbove, holdAbove, rfl⟩ := hcases habove
    have hsound := hflags.forced_mounts hold hp holdAbove
    exact hsound
  -- a root had its view, and no view is taken away
  · intro r hr
    rw [h.roots] at hr
    exact h.mono (hflags.root_created hr)

end Grown

/-- Creating the view of a node that mounts. -/
theorem grown_store {t : Tag} {node : Node κ} (hget : a.get? t = some node)
    (hmounts : node.mounts = true) : Grown a (a.store t { node with created := true }) := by
  have hcreated : ∀ x, (a.store t { node with created := true }).createdAt x =
      if t = x then true else a.createdAt x := fun x => createdAt_store t x _
  refine ⟨fun x => ?_, fun {x} h => ?_, fun {x} h => ?_, rfl, rfl⟩
  · rw [get?_store, hcreated]
    split
    -- the stored record is the one looked up, flag aside
    · next heq => rw [← heq, hget, Option.map_some]
    · cases hx : a.get? x with
      | none => rfl
      | some other => rw [Option.map_some, createdAt_of_get? hx]
  · rw [hcreated, h, ite_self]
  · rw [hcreated] at h
    split at h
    -- the only new view is that of the stored node, which mounts
    · next heq => exact .inr (by rw [← heq, mountsAt_of_get? hget, hmounts])
    · exact .inl h

end Tree

/-! ## Steps

Invariants of passes are shown for one step at a time. A step carries what is known when it is
taken, so that the lemmas about it need no look at the recursion. -/

namespace MountState

variable {κ : Type}

/-- The mount state once the creation of a view is enqueued. -/
def createSent (state : MountState κ) (tag : Tag) (node : Node κ) : MountState κ :=
  (state.enqueue (.create tag node.root node.viewClass node.props)).remember tag
    { props := node.props }

/-- The mount state once a frame is sent, if it differs from the last one. -/
def frameSent [Coordinate κ] (state : MountState κ) (tag parent : Tag) (frame : Frame κ) :
    MountState κ :=
  if (state.sent tag).frame.any (·.same frame) then state
  else
    let updated := (state.remember tag { state.sent tag with frame := some frame }).enqueue
      (.setFrame tag parent frame)
    { updated with frameChanges := updated.frameChanges ++ [(tag, frame)] }

/-- The mount state once a child list is sent, if it differs from the last one. -/
def childrenSent (state : MountState κ) (tag : Tag) (children : List Tag) : MountState κ :=
  if (state.sent tag).children = children then state.remember tag (state.sent tag)
  else (state.remember tag { state.sent tag with children }).enqueue (.setChildren tag children)

/-- What only removals and passes change: the configuration, the pending drops, and the mark of an
open pass. -/
def fixtures (state : MountState κ) : Config × List PendingDrop × Bool :=
  (state.config, state.drops, state.passOpen)

/-- Sending a frame is not among the things that change the fixtures. -/
theorem fixtures_frameSent [Coordinate κ] (state : MountState κ) (tag parent : Tag)
    (frame : Frame κ) : (state.frameSent tag parent frame).fixtures = state.fixtures := by
  unfold frameSent
  split <;> rfl

/-- Nor is sending a child list. -/
theorem fixtures_childrenSent (state : MountState κ) (tag : Tag) (children : List Tag) :
    (state.childrenSent tag children).fixtures = state.fixtures := by
  unfold childrenSent
  split <;> rfl

end MountState

namespace Mount

open MountM

variable {κ : Type} [Coordinate κ] {scene mid done : Scene κ}

/-- One step of reconciliation, with what is known when it is taken. -/
inductive Step : Scene κ → Scene κ → Prop
  /-- The creation of a view, always below a view that exists. -/
  | create {tree : Tree κ} {mount : MountState κ} {log : List Log.Line} {tag parent : Tag}
      {node : Node κ} (hget : tree.get? tag = some node) (hmounts : node.mounts = true)
      (hcreated : node.created = false) (hparent : tree.NativeParent tag parent)
      (habove : tree.createdAt parent = true) :
      Step ⟨tree, mount, log⟩
        ⟨tree.store tag { node with created := true }, mount.createSent tag node, log⟩
  /-- A frame for a view inside its native parent. Nothing is recorded if the frame is the one last
  sent. -/
  | frame {tree : Tree κ} {mount : MountState κ} {log : List Log.Line} {tag parent : Tag}
      (frame : Frame κ) (hcreated : tree.createdAt tag = true)
      (hparent : tree.NativeParent tag parent) :
      Step ⟨tree, mount, log⟩ ⟨tree, mount.frameSent tag parent frame, log⟩
  /-- The native child list of a view, as the tree gives it at that time. -/
  | children {tree : Tree κ} {mount : MountState κ} {log : List Log.Line} {tag : Tag}
      {children : List Tag} (hcreated : tree.createdAt tag = true)
      (hchildren : tree.nativeChildren tag = .ok children) :
      Step ⟨tree, mount, log⟩ ⟨tree, mount.childrenSent tag children, log⟩
  /-- A line of the log. -/
  | note {tree : Tree κ} {mount : MountState κ} (log log' : List Log.Line) :
      Step ⟨tree, mount, log⟩ ⟨tree, mount, log'⟩

/-- Steps, one after the other. -/
abbrev Run (scene done : Scene κ) : Prop := Relation.ReflTransGen Step scene done

/-- A step creates at most one view, and changes nothing else of the tree. -/
theorem Step.grown (h : Step scene done) : scene.tree.Grown done.tree := by
  cases h with
  | create hget hmounts => exact Tree.grown_store hget hmounts
  | frame => exact .refl _
  | children => exact .refl _
  | note => exact .refl _

/-- So does a run, by composing its steps. -/
theorem Run.grown (h : Run scene done) : scene.tree.Grown done.tree := by
  induction h with
  | refl => exact .refl _
  | tail _ hstep ih => exact ih.trans hstep.grown

/-- Every node that is to have a view has one, and its native child list is the one last sent. -/
def SettledAt (scene : Scene κ) (tag : Tag) : Prop :=
  scene.tree.mountsAt tag = true → scene.tree.createdAt tag = true ∧
    scene.tree.nativeChildren tag = .ok (scene.mount.sent tag).children

/-- The whole subtree of a node is settled. -/
def Settled (scene : Scene κ) (top : Tag) : Prop :=
  ∀ tag, scene.tree.InSubtree top tag → SettledAt scene tag

end Mount

namespace MountState

variable {κ : Type}

/-- The memory of a new view holds the properties its create carried, and neither frame nor
children. -/
theorem sent_createSent (state : MountState κ) (tag other : Tag) (node : Node κ) :
    (state.createSent tag node).sent other =
      if tag = other then { props := node.props } else state.sent other :=
  sent_remember ..

/-- Sending a frame leaves the child lists last sent alone. -/
theorem sent_frameSent_children [Coordinate κ] (state : MountState κ) (tag parent other : Tag)
    (frame : Frame κ) :
    ((state.frameSent tag parent frame).sent other).children = (state.sent other).children := by
  unfold frameSent
  split
  · rfl
  · show ((state.remember tag { state.sent tag with frame := some frame }).sent other).children = _
    rw [sent_remember]
    split
    · next heq => rw [heq]
    · rfl

/-- A child list is remembered whether or not it had to be sent. -/
theorem sent_childrenSent (state : MountState κ) (tag other : Tag) (children : List Tag) :
    (state.childrenSent tag children).sent other =
      if tag = other then { state.sent tag with children } else state.sent other := by
  unfold childrenSent
  split
  -- unchanged lists are not enqueued, and writing back what was read changes nothing
  · next heq =>
    rw [sent_remember]
    split
    · rw [← heq]
    · rfl
  · show (state.remember tag { state.sent tag with children }).sent other = _
    rw [sent_remember]

/-- Sending a child list leaves the frames last sent alone. -/
theorem sent_childrenSent_frame (state : MountState κ) (tag other : Tag) (children : List Tag) :
    ((state.childrenSent tag children).sent other).frame = (state.sent other).frame := by
  rw [sent_childrenSent]
  split
  · next heq => rw [heq]
  · rfl

end MountState

namespace Mount

open MountM

variable {κ : Type} [Coordinate κ] {scene mid done : Scene κ}

/-- A settled subtree stays settled: no view is created inside it any more, and its child lists
depend on nothing outside. -/
theorem Step.settled (h : Step scene done) (hwf : scene.tree.WellFormed) {top : Tag}
    (hsettled : Settled scene top) : Settled done top := by
  cases h with
  | @create tree mount log tag parent node hget hmounts hcreated hparent habove =>
    have hgrown := Tree.grown_store hget hmounts
    have hlinks := hgrown.sameLinks
    -- the created node lies outside, as it mounts and had no view
    have houtside : ¬ tree.InSubtree top tag := by
      intro hsub
      have hview := (hsettled tag hsub (by rw [Tree.mountsAt_of_get? hget, hmounts])).1
      rw [Tree.createdAt_of_get? hget, hcreated] at hview
      cases hview
    intro x hx hxmounts
    rw [hlinks.inSubtree_iff] at hx
    rw [hgrown.mountsAt] at hxmounts
    obtain ⟨hview, hchildren⟩ := hsettled x hx hxmounts
    -- neither does it lie below a settled node, whose child list is thus the one already sent
    have hne : ∀ {y}, tree.InSubtree x y → tag ≠ y :=
      fun hy heq => houtside (heq ▸ hx.trans hy)
    refine ⟨hgrown.mono hview, ?_⟩
    rw [MountState.sent_createSent, if_neg (hne (.refl x)), ← hchildren]
    -- the children of a view are found from the profiles of its descendants, none of which changed
    refine Tree.nativeChildren_congr hwf hlinks.size fun y hy => ?_
    rw [Tree.profile, Tree.get?_store, if_neg (hne hy)]
    rfl
  | frame frame hcreated hparent =>
    -- a frame touches neither the views nor the child lists
    intro x hx hxmounts
    obtain ⟨hview, hchildren⟩ := hsettled x hx hxmounts
    exact ⟨hview, by rw [MountState.sent_frameSent_children]; exact hchildren⟩
  | @children tree mount log tag children hcreated hchildren' =>
    -- the one child list that is sent is the one the tree gives
    intro x hx hxmounts
    obtain ⟨hview, hchildren⟩ := hsettled x hx hxmounts
    refine ⟨hview, ?_⟩
    rw [MountState.sent_childrenSent]
    split
    · next heq =>
      rw [← heq]
      exact hchildren'
    · exact hchildren
  | note => exact hsettled

/-- What a run has settled, the rest of the run leaves settled. -/
theorem Run.settled (h : Run scene done) (hwf : scene.tree.WellFormed) {top : Tag}
    (hsettled : Settled scene top) : Settled done top := by
  induction h with
  | refl => exact hsettled
  -- the step starts from the tree the run has reached, which is well formed as links never change
  | tail hrun hstep ih => exact hstep.settled ((Run.grown hrun).sameLinks.wellFormed hwf) ih

/-! ## Single views

What the functions for one view do when the view is there and when it is not. -/

omit [Coordinate κ] in
/-- A view that exists is left as it is. -/
theorem materialize_of_created {tag : Tag} {found : Node κ} (hget : scene.tree.get? tag = some found)
    (hcreated : found.created = true) : materialize tag scene = .ok () scene := by
  rw [materialize, bind_of_ok (node_of_get? hget), if_pos hcreated]
  rfl

omit [Coordinate κ] in
/-- A view that does not exist yet is created, from the properties of the node. -/
theorem materialize_of_uncreated {tag : Tag} {found : Node κ}
    (hget : scene.tree.get? tag = some found) (hcreated : found.created = false) :
    materialize tag scene = .ok () { scene with
      tree := scene.tree.store tag { found with created := true }
      mount := scene.mount.createSent tag found } := by
  rw [materialize, bind_of_ok (node_of_get? hget),
    if_neg (by rw [hcreated]; exact Bool.false_ne_true),
    bind_of_ok (onTree_of_ok (Tree.update_of_get? hget))]
  rfl

/-- Sending a frame cannot fail: the node is not looked up. -/
theorem sendFrame_apply (tag parent : Tag) (frame : Frame κ) :
    sendFrame tag parent frame scene =
      .ok () { scene with mount := scene.mount.frameSent tag parent frame } := rfl

omit [Coordinate κ] in
/-- Sending a child list fails exactly if the native children cannot be computed. -/
theorem sendChildren_of_ok {tag : Tag} {children : List Tag}
    (h : scene.tree.nativeChildren tag = .ok children) : sendChildren tag scene =
      .ok () { scene with mount := scene.mount.childrenSent tag children } := by
  rw [sendChildren, bind_of_ok (query_of_ok h)]
  rfl

/-! ## Subtrees

By induction on the budget, the subtree of a node is reconciled by a run of steps and is settled
afterwards; and settling one child does not unsettle the others, as views are only added. -/

end Mount

/-- What has to hold before the subtree of `tag` is reconciled below the view `above`: it is the
native parent and exists, or there is none and the node's own view exists. -/
def Tree.Ready {κ : Type} (tree : Tree κ) (tag : Tag) : Option Tag → Prop
  | none => tree.mountsAt tag = true ∧ tree.createdAt tag = true
  | some parent => tree.NativeParent tag parent ∧ tree.createdAt parent = true

/-- A node that is ready stays so while views are created. -/
theorem Tree.Grown.ready {κ : Type} {a b : Tree κ} (h : Tree.Grown a b) {tag : Tag}
    {above : Option Tag} (hready : a.Ready tag above) : b.Ready tag above := by
  cases above with
  | none => exact ⟨(h.mountsAt tag).trans hready.1, h.mono hready.2⟩
  | some parent => exact ⟨h.nativeParent hready.1, h.mono hready.2⟩

namespace Mount

open MountM

variable {κ : Type} [Coordinate κ] {scene mid done : Scene κ}

/-- Making sure of the view of a node that mounts, and of its frame. -/
theorem materialize_ok {tag : Tag} {above : Option Tag} {found : Node κ}
    (hget : scene.tree.get? tag = some found) (hmounts : found.mounts = true)
    (hready : scene.tree.Ready tag above) :
    ∃ mid, materialize tag scene = .ok () mid ∧ Run scene mid ∧ mid.tree.createdAt tag = true := by
  obtain ⟨tree, mount, log⟩ := scene
  cases hcreated : found.created with
  | true =>
    exact ⟨_, materialize_of_created hget hcreated, .refl,
      by rw [Tree.createdAt_of_get? hget, hcreated]⟩
  | false =>
    refine ⟨_, materialize_of_uncreated hget hcreated, ?_, ?_⟩
    · cases above with
      | none =>
        -- without a native parent the view exists already
        have hview := hready.2
        rw [Tree.createdAt_of_get? hget, hcreated] at hview
        cases hview
      | some parent => exact .single (.create hget hmounts hcreated hready.1 hready.2)
    -- the flag was just set
    · show (tree.store tag _).createdAt tag = true
      rw [Tree.createdAt_store, if_pos rfl]

/-- Sending the child list of a view whose descendants are settled settles it too. -/
theorem sendChildren_settles (hwf : scene.tree.WellFormed) {tag : Tag}
    (hview : scene.tree.createdAt tag = true)
    (hbelow : ∀ c, scene.tree.parentOf? c = some tag → Settled scene c) :
    ∃ done, sendChildren tag scene = .ok () done ∧ Run scene done ∧ Settled done tag := by
  obtain ⟨tree, mount, log⟩ := scene
  -- the native children exist, as the view's node is registered
  obtain ⟨children, hchildren, -⟩ := Tree.nativeChildren_spec hwf (Tree.contains_of_createdAt hview)
  have hstep : Step ⟨tree, mount, log⟩ ⟨tree, mount.childrenSent tag children, log⟩ :=
    .children hview hchildren
  refine ⟨_, sendChildren_of_ok hchildren, .single hstep, ?_⟩
  rintro x (rfl | hanc)
  -- the view itself: the list in its memory is the one just sent
  · refine fun _ => ⟨hview, ?_⟩
    rw [MountState.sent_childrenSent, if_pos rfl]
    exact hchildren
  -- a descendant lies below some child, whose subtree sending the list left settled
  · obtain ⟨c, hc, hsub⟩ := Tree.ancestor_iff_child.mp hanc
    exact hstep.settled hwf (hbelow c hc) x hsub

/-- Reconciling with so many steps allowed never fails on a ready node whose descendants can be
reached, is a run of steps, and settles the subtree. -/
def Reconciles (κ : Type) [Coordinate κ] (steps : Nat) : Prop :=
  ∀ (tag : Tag) (dx dy : κ) {above : Option Tag} {scene : Scene κ} {l : List Tag},
    scene.tree.WellFormed → scene.tree.Lineage tag l → scene.tree.size < steps + l.length →
    scene.tree.Ready tag above →
      ∃ done, reconcile steps tag dx dy above scene = .ok () done ∧ Run scene done ∧
        Settled done tag

/-- The loop over siblings: each is ready when its turn comes, and what is settled stays settled. -/
theorem Reconciles.forM {steps : Nat} (h : Reconciles κ steps) (dx dy : κ) {above : Option Tag}
    {l : List Tag} : ∀ {cs : List Tag} {scene : Scene κ}, scene.tree.WellFormed →
      (∀ c ∈ cs, scene.tree.Lineage c (c :: l)) → scene.tree.size < steps + (l.length + 1) →
      (∀ c ∈ cs, scene.tree.Ready c above) →
        ∃ done, cs.forM (fun child => reconcile steps child dx dy above) scene = .ok () done ∧
          Run scene done ∧ ∀ c ∈ cs, Settled done c
  | [], scene, _, _, _, _ => ⟨scene, rfl, .refl, nofun⟩
  | c :: cs, scene, hwf, hlineage, hsize, hready => by
    -- the first sibling
    obtain ⟨mid, hfirst, hrun, hsettled⟩ := h c dx dy hwf (hlineage c (List.mem_cons_self ..)) hsize
      (hready c (List.mem_cons_self ..))
    have hgrown := Run.grown hrun
    have hwf' := hgrown.sameLinks.wellFormed hwf
    -- the others, from the scene the first one leaves
    obtain ⟨done, hrest, hrun', hsettled'⟩ := h.forM dx dy hwf'
      (fun x hx => hgrown.sameLinks.lineage (hlineage x (List.mem_cons_of_mem _ hx)))
      (by rw [hgrown.sameLinks.size]; exact hsize)
      (fun x hx => hgrown.ready (hready x (List.mem_cons_of_mem _ hx)))
    refine ⟨done, ?_, hrun.trans hrun', fun x hx => ?_⟩
    · show (reconcile steps c dx dy above >>= fun _ => cs.forM _) scene = _
      rw [bind_of_ok hfirst]
      exact hrest
    · rcases List.mem_cons.mp hx with rfl | hx
      -- settling the others does not unsettle the first
      · exact Run.settled hrun' hwf' hsettled
      · exact hsettled' x hx

/-- A node that mounts: its view and frame, then what is below, then its child list. -/
theorem Reconciles.mounting {steps : Nat} (h : Reconciles κ steps) {tag : Tag}
    {scene : Scene κ} {l : List Tag} (hwf : scene.tree.WellFormed) (hl : scene.tree.Lineage tag l)
    (hsize : scene.tree.size < steps + (l.length + 1)) (hmounts : scene.tree.mountsAt tag = true)
    (hview : scene.tree.createdAt tag = true) :
    ∃ done, (do
        (scene.tree.childrenOf tag).forM fun child => reconcile steps child 0 0 (some tag)
        sendChildren tag : MountM κ Unit) scene = .ok () done ∧
      Run scene done ∧ Settled done tag := by
  have hparent : ∀ c ∈ scene.tree.childrenOf tag, scene.tree.parentOf? c = some tag :=
    fun c hc => hwf.link.mp hc
  -- the children are reconciled below the node's own view, at the origin
  obtain ⟨mid, hloop, hrun, hsettled⟩ := h.forM 0 0 hwf
    (fun c hc => hwf.lineage_child hl hc) hsize
    (fun c hc => show scene.tree.Ready c (some tag) from ⟨⟨.parent (hparent c hc), hmounts⟩, hview⟩)
  have hgrown := Run.grown hrun
  have hlinks := hgrown.sameLinks
  -- every child is settled when the list is sent, so the list settles the node
  obtain ⟨done, hsend, hrun', hdone⟩ := sendChildren_settles (hlinks.wellFormed hwf)
    (hgrown.mono hview) (fun c hc => hsettled c (hwf.link.mpr (by rwa [hlinks.parent] at hc)))
  exact ⟨done, by rw [bind_of_ok hloop]; exact hsend, hrun.trans hrun', hdone⟩

/-- Reconciling a subtree never fails, is a run of steps, and settles the subtree. -/
theorem reconcile_ok : ∀ steps, Reconciles κ steps
  -- a lineage is no longer than the tree, so the budget is not spent here
  | 0, tag, _, _, _, scene, l, hwf, hl, hsteps, _ => by
    have := hl.length_le_size hwf
    omega
  | steps + 1, tag, dx, dy, above, scene, l, hwf, hl, hsteps, hready => by
    have ih : Reconciles κ steps := reconcile_ok steps
    obtain ⟨found, hget⟩ := Tree.contains_iff.mp hl.contains
    have hmountsAt := Tree.mountsAt_of_get? hget
    have hchildrenOf := Tree.childrenOf_of_get? hget
    unfold reconcile
    rw [bind_of_ok (node_of_get? hget), ← hchildrenOf]
    cases hmounts : found.mounts with
    | true =>
      rw [hmounts] at hmountsAt
      -- the view comes first: everything below is reconciled in the scene that has it
      obtain ⟨made, hmake, hrunMake, hview⟩ := materialize_ok hget hmounts hready
      have hgrown := Run.grown hrunMake
      have hlinks := hgrown.sameLinks
      have hwf' := hlinks.wellFormed hwf
      have hsize : made.tree.size < steps + (l.length + 1) := by
        rw [hlinks.size]
        omega
      rw [if_pos rfl, bind_of_ok hmake, ← hlinks.children]
      cases above with
      -- a root: no frame, as nothing is above it
      | none =>
        obtain ⟨done, hrest, hrun, hsettled⟩ := ih.mounting hwf'
          (hlinks.lineage hl) hsize ((hgrown.mountsAt tag).trans hmountsAt) hview
        exact ⟨done, hrest, hrunMake.trans hrun, hsettled⟩
      -- below another view: the frame is one more step before the children
      | some parent =>
        obtain ⟨tree, mount, log⟩ := made
        have hframe : Step ⟨tree, mount, log⟩
            ⟨tree, mount.frameSent tag parent (found.frame.shift dx dy), log⟩ :=
          .frame _ hview (hgrown.nativeParent hready.1)
        obtain ⟨done, hrest, hrun, hsettled⟩ := @Reconciles.mounting _ _ _ ih tag
          ⟨tree, mount.frameSent tag parent (found.frame.shift dx dy), log⟩ l hwf'
          (hlinks.lineage hl) hsize ((hgrown.mountsAt tag).trans hmountsAt) hview
        exact ⟨done, hrest, (hrunMake.tail hframe).trans hrun, hsettled⟩
    | false =>
      rw [hmounts] at hmountsAt
      rw [if_neg Bool.false_ne_true]
      -- a node that does not mount lies below some view
      obtain ⟨parent, rfl⟩ : ∃ parent, above = some parent := by
        cases above with
        | none => exact absurd (hmountsAt.symm.trans hready.1) Bool.false_ne_true
        | some parent => exact ⟨parent, rfl⟩
      have hparent : ∀ c ∈ scene.tree.childrenOf tag, scene.tree.parentOf? c = some tag :=
        fun c hc => hwf.link.mp hc
      have hreadyChild : ∀ c ∈ scene.tree.childrenOf tag, scene.tree.Ready c (some parent) :=
        -- the children keep the native parent, as this node does not mount
        fun c hc => ⟨(Tree.nativeParent_beyond_iff (hparent c hc) hmountsAt).mpr hready.1, hready.2⟩
      obtain ⟨done, hloop, hrun, hsettled⟩ := ih.forM (dx + found.frame.x)
        (dy + found.frame.y) hwf (fun c hc => hwf.lineage_child hl hc) (by omega) hreadyChild
      -- only the children's subtrees are left to settle, the node itself having no view
      refine ⟨done, hloop, hrun, fun x hx hxmounts => ?_⟩
      have hgrown := Run.grown hrun
      rw [hgrown.sameLinks.inSubtree_iff] at hx
      rcases hx with rfl | hanc
      · rw [hgrown.mountsAt, hmountsAt] at hxmounts
        cases hxmounts
      · obtain ⟨c, hc, hsub⟩ := Tree.ancestor_iff_child.mp hanc
        exact hsettled c (hwf.link.mpr hc) x (hgrown.sameLinks.inSubtree_iff.mpr hsub) hxmounts

/-- Bringing the subtree of a ready node up to date. -/
theorem reconcileSubtree_ok (hwf : scene.tree.WellFormed) {tag : Tag} (dx dy : κ)
    {above : Option Tag} (hready : scene.tree.Ready tag above)
    (ht : scene.tree.contains tag = true) :
    ∃ done, reconcileSubtree tag dx dy above scene = .ok () done ∧ Run scene done ∧
      Settled done tag := by
  -- the budget exceeds the number of nodes by one
  obtain ⟨l, hl⟩ := hwf.exists_lineage ht
  refine reconcile_ok _ tag dx dy hwf hl ?_ hready
  have := hl.length_pos
  rw [Tree.budget]
  omega

/-- The scene in which the view of a node has been created. -/
def withView (scene : Scene κ) (tag : Tag) (node : Node κ) : Scene κ :=
  { scene with
    tree := scene.tree.store tag { node with created := true }
    mount := scene.mount.createSent tag node }

/-- Reconciling the subtree of a node without a view starts with its creation. -/
theorem reconcileSubtree_eq_withView {tag : Tag} {found : Node κ} (dx dy : κ) {above : Option Tag}
    (hget : scene.tree.get? tag = some found) (hmounts : found.mounts = true)
    (hcreated : found.created = false) :
    reconcileSubtree tag dx dy above scene =
      reconcileSubtree tag dx dy above (withView scene tag found) := by
  have hlinks : Tree.SameLinks scene.tree (withView scene tag found).tree :=
    @Tree.sameLinks_store _ _ tag found { found with created := true } hget rfl rfl rfl
  have hget' : (withView scene tag found).tree.get? tag = some { found with created := true } := by
    show (scene.tree.store tag _).get? tag = _
    rw [Tree.get?_store, if_pos rfl]
  show reconcile scene.tree.budget tag dx dy above scene =
    reconcile (withView scene tag found).tree.budget tag dx dy above (withView scene tag found)
  -- links are the same, hence the budget, so both runs can be opened one step
  rw [hlinks.budget, Tree.budget]
  unfold reconcile
  rw [bind_of_ok (node_of_get? hget), bind_of_ok (node_of_get? hget')]
  show (if found.mounts = true then _ else _ : MountM κ Unit) scene =
    (if found.mounts = true then _ else _ : MountM κ Unit) (withView scene tag found)
  -- the left run creates the view and the right one finds it; from there on they are one
  rw [if_pos hmounts, bind_of_ok (materialize_of_uncreated hget hcreated),
    bind_of_ok (materialize_of_created hget' rfl)]
  rfl

/-- What follows the reconciliation of a subtree: the child list of the view above it. -/
theorem reconcileBelow_of_subtree {tag parent : Tag} (hwf : scene.tree.WellFormed)
    (hwfMid : mid.tree.WellFormed) (ht : scene.tree.contains tag = true)
    (hready : mid.tree.Ready tag (some parent))
    (hsubtree : ∀ dx dy : κ, reconcileSubtree tag dx dy (some parent) scene =
      reconcileSubtree tag dx dy (some parent) mid) :
    ∃ done, reconcileBelow tag parent scene = .ok () done ∧ Run mid done ∧ Settled done tag := by
  -- the subtree may be reconciled from `mid` instead, which is how a view still to be created is
  -- dealt with before the run begins
  obtain ⟨⟨dx, dy⟩, hoffset⟩ := Tree.offsetInNativeParent_ok hwf ht
  obtain ⟨⟨tree, mount, log⟩, hreconcile, hrun, hsettled⟩ :=
    reconcileSubtree_ok hwfMid dx dy hready hready.1.ancestor.contains
  have hgrown := Run.grown hrun
  have hwf' := hgrown.sameLinks.wellFormed hwfMid
  have hview' := hgrown.mono hready.2
  -- the view above is still there afterwards, and its children can be listed
  obtain ⟨children, hchildren, -⟩ :=
    Tree.nativeChildren_spec hwf' (Tree.contains_of_createdAt hview')
  have hstep : Step ⟨tree, mount, log⟩ ⟨tree, mount.childrenSent parent children, log⟩ :=
    .children hview' hchildren
  refine ⟨_, ?_, hrun.tail hstep, hstep.settled hwf' hsettled⟩
  rw [reconcileBelow, bind_of_ok (query_of_ok hoffset)]
  show (reconcileSubtree tag dx dy (some parent) >>= fun _ => sendChildren parent) scene = _
  rw [bind_of_ok ((hsubtree dx dy).trans hreconcile)]
  exact sendChildren_of_ok hchildren

/-- Bringing the subtree of a node below an existing view up to date. -/
theorem reconcileBelow_ok (hwf : scene.tree.WellFormed) {tag parent : Tag}
    (hparent : scene.tree.NativeParent tag parent) (hview : scene.tree.createdAt parent = true) :
    ∃ done, reconcileBelow tag parent scene = .ok () done ∧ Run scene done ∧ Settled done tag :=
  reconcileBelow_of_subtree hwf hwf hparent.ancestor.contains ⟨hparent, hview⟩ fun _ _ => rfl

/-- The same for a node that has no view yet, from its creation on. -/
theorem reconcileBelow_withView (hwf : scene.tree.WellFormed) {tag parent : Tag} {found : Node κ}
    (hget : scene.tree.get? tag = some found) (hmounts : found.mounts = true)
    (hcreated : found.created = false) (hparent : scene.tree.NativeParent tag parent)
    (hview : scene.tree.createdAt parent = true) :
    ∃ done, reconcileBelow tag parent scene = .ok () done ∧ Run (withView scene tag found) done ∧
      Settled done tag := by
  have hgrown : scene.tree.Grown (withView scene tag found).tree := Tree.grown_store hget hmounts
  exact reconcileBelow_of_subtree hwf (hgrown.sameLinks.wellFormed hwf) hparent.ancestor.contains
    ⟨hgrown.nativeParent hparent, hgrown.mono hview⟩
    fun dx dy => reconcileSubtree_eq_withView dx dy hget hmounts hcreated

end Mount

end ShadowMount
