import ShadowMount.Proofs.Tree.Trim
import ShadowMount.Ui.Basic

/-!
# Effects of commands

Everything a command can do to a scene, as a relation. A command either fails, and then tree and
mount state are untouched, or has one effect: it registers a root or a node, it trims the tree, or
it is active, which changes neither the nodes nor their links.

* **`Touch`** — one touch: a step of escalation, an operation addressed to a view that exists, a
  change of properties or of a frame. Every `Activity` is a run of touches.
* **`Effect`** — the effect of a command, indexed by the tag it registers and the tags it removes.
* **`Command.run_cases`** — every command fails without a change or has an effect.
-/

namespace ShadowMount

open MountM

/-- An operation that neither makes nor drops a view nor changes a child list, addressed to views
that exist. -/
def Operation.Harmless {κ : Type} (viewed : Tag → Prop) : Operation κ → Prop
  | .setProps tag .. | .setResponder tag .. | .measure tag .. | .measureRelative tag ..
  | .measureInWindow tag .. | .findSubview tag .. | .command tag .. | .popupMenu tag ..
  | .accessibilityEvent tag .. => viewed tag
  | .setFrame tag parent _ => viewed tag ∧ viewed parent
  | .clearResponder => True
  | .create .. | .setChildren .. | .drop .. | .dropRoot .. => False

/-- Where there are more views, operations do no more harm. -/
theorem Operation.Harmless.mono {κ : Type} {viewed viewed' : Tag → Prop} {operation : Operation κ}
    (hharmless : operation.Harmless viewed) (hsub : ∀ t, viewed t → viewed' t) :
    operation.Harmless viewed' := by
  cases operation with
  | setFrame => exact ⟨hsub _ hharmless.1, hsub _ hharmless.2⟩
  | clearResponder => trivial
  | create => exact hharmless
  | setChildren => exact hharmless
  | drop => exact hharmless
  | dropRoot => exact hharmless
  | _ => exact hsub _ hharmless

/-- The frame that an operation sends, with its view. -/
def Operation.frame? {κ : Type} : Operation κ → Option (Tag × Frame κ)
  | .setFrame tag _ frame => some (tag, frame)
  | _ => none

/-- The properties that an operation sends, with its view. -/
def Operation.props? {κ : Type} : Operation κ → Option (Tag × Props)
  | .setProps tag _ props => some (tag, props)
  | _ => none

/-- The node or root that a command is to register. -/
inductive Registration where
  | none
  | root (tag : Tag)
  | node (tag : Tag)
  deriving DecidableEq

/-- What a command registers if it succeeds. -/
def Command.registration {κ : Type} : Command κ → Registration
  | .addRoot tag .. => .root tag
  | .create tag .. => .node tag
  | _ => .none

/-- The nodes that a command removes if it succeeds, in the order of their removal. -/
def Command.removals {κ : Type} (tree : Tree κ) : Command κ → List Tag
  | .removeRoot tag => tree.swept [tag]
  | .editChildren parent batch => tree.swept (batch.removedChildren (tree.childrenOf parent))
  | _ => []

/-- A node of the class of a view manager. -/
structure ViewManager.Makes {κ : Type} (manager : ViewManager) (node : Node κ) : Prop where
  name : node.viewClass = manager.name
  kind : node.kind = manager.kind
  lays_out : node.forcesChildren = manager.laysOutChildren

variable {κ : Type} [Coordinate κ]

/-- One change of a scene that keeps its nodes and their links. -/
inductive Touch : Scene κ → Scene κ → Prop
  /-- A step of an escalation. -/
  | rise {scene done : Scene κ} (h : Mount.Rise scene done) : Touch scene done
  /-- An operation for views that exist. -/
  | post {tree : Tree κ} {mount : MountState κ} {log : List Log.Line} (operation : Operation κ)
      (h : operation.Harmless fun tag => tree.createdAt tag = true)
      (hframe : operation.frame? = none) :
      Touch ⟨tree, mount, log⟩ ⟨tree, mount.enqueue operation, log⟩
  /-- A change of properties is sent to a view that exists. -/
  | props {tree : Tree κ} {mount : MountState κ} {log : List Log.Line} {tag : Tag}
      (viewClass : String) (delta : Props) (hcreated : tree.createdAt tag = true) :
      Touch ⟨tree, mount, log⟩ ⟨tree, mount.propsSent tag viewClass delta, log⟩
  /-- The frame or the properties of a node are set. -/
  | data {tree : Tree κ} {mount : MountState κ} {log : List Log.Line} {tag : Tag} {node : Node κ}
      (hget : tree.get? tag = some node) (frame : Frame κ) (props : Props) :
      Touch ⟨tree, mount, log⟩ ⟨tree.store tag { node with frame, props }, mount, log⟩

/-- Touches, one after the other. -/
abbrev Touches (scene done : Scene κ) : Prop := Relation.ReflTransGen Touch scene done

/-- What a command does that neither registers nor removes a node: it revises the frame or the
properties of one, with word to its view if it has one and its properties change, or it gives a node
a view and posts an operation. -/
inductive Activity : Scene κ → Scene κ → Prop
  /-- The frame of a node is set, or the properties of one without a view. -/
  | revise {tree : Tree κ} {mount : MountState κ} {log : List Log.Line} {tag : Tag} {node : Node κ}
      (hget : tree.get? tag = some node) (frame : Frame κ) (props : Props) (log' : List Log.Line)
      (hprops : node.created = true → props = node.props) :
      Activity ⟨tree, mount, log⟩ ⟨tree.store tag { node with frame, props }, mount, log'⟩
  /-- The properties of a node are overwritten, and the changes sent to its view. -/
  | send {tree : Tree κ} {mount : MountState κ} {log : List Log.Line} {tag : Tag} {node : Node κ}
      (hget : tree.get? tag = some node) (hcreated : node.created = true) (frame : Frame κ)
      (props : Props) (viewClass : String) (delta : Props) (log' : List Log.Line)
      (hprops : props = Props.merge node.props delta) :
      Activity ⟨tree, mount, log⟩ ⟨tree.store tag { node with frame, props },
        mount.propsSent tag viewClass delta, log'⟩
  /-- A node is given a view, and an operation for views that exist is posted. -/
  | act {scene : Scene κ} {tree : Tree κ} {mount : MountState κ} {log : List Log.Line}
      (h : Mount.Ascent scene ⟨tree, mount, log⟩) (operation : Operation κ)
      (hoperation : operation.Harmless fun tag => tree.createdAt tag = true)
      (hframe : operation.frame? = none) (hprops : operation.props? = none) :
      Activity scene ⟨tree, mount.enqueue operation, log⟩

/-- What a command can do to a scene, where `managers` are the view classes. -/
inductive Effect (managers : Managers) : Registration → List Tag → Scene κ → Scene κ → Prop
  /-- A root is registered, with the view that the platform has made. -/
  | addRoot {tree : Tree κ} {mount : MountState κ} {log : List Log.Line} {tag : Tag}
      {viewClass : String} {width height : κ} (hfree : tree.contains tag = false) (sent : SentState κ)
      (hsent : sent.children = []) (log' : List Log.Line) (hprops : sent.props = .empty) :
      Effect managers (.root tag) [] ⟨tree, mount, log⟩
        ⟨tree.withRootNode tag viewClass width height, mount.remember tag sent, log'⟩
  /-- A node without a view is registered, of a class that a manager makes. -/
  | create {tree : Tree κ} {mount : MountState κ} {log : List Log.Line} {node : Node κ}
      (hfresh : node.IsFresh) (hcreated : node.created = false)
      (hfree : tree.contains node.tag = false) {name : String} {manager : ViewManager}
      (hmanager : managers.resolve name = .ok manager) (hmakes : manager.Makes node) :
      Effect managers (.node node.tag) [] ⟨tree, mount, log⟩ ⟨tree.store node.tag node, mount, log⟩
  /-- Nodes are removed or linked anew, and drops are scheduled for the views that go. -/
  | trim {tree after : Tree κ} {mount : MountState κ} {log : List Log.Line} {gone : List Tag}
      (htrimmed : tree.Trimmed gone after) (log' : List Log.Line) :
      Effect managers .none gone ⟨tree, mount, log⟩
        ⟨after, mount.scheduledAll tree.isRoot (gone.filter tree.createdAt), log'⟩
  /-- No node is registered or removed. -/
  | active {scene done : Scene κ} (h : Activity scene done) : Effect managers .none [] scene done

/-- An action fails without a change of the tree or the mount state, or has an effect. -/
def Transacts (managers : Managers) (registration : Registration) (removals : List Tag)
    (action : MountM κ Unit) (scene : Scene κ) : Prop :=
  (∃ err log, action scene = .error err { scene with log }) ∨
    ∃ done, action scene = .ok () done ∧ Effect managers registration removals scene done

variable {scene mid done : Scene κ}

/-- A line of the log is a touch. -/
theorem Touches.note (log : List Log.Line) : Touches scene { scene with log } :=
  .single (.rise (.step (.note ..)))

/-- The steps of an escalation are touches. -/
theorem Touches.ofProgress (h : Mount.Progress scene done) : Touches scene done := by
  induction h with
  | refl => exact .refl
  | tail _ hrise ih => exact ih.tail (.rise hrise)

/-- What an activity does it does touch by touch. -/
theorem Activity.touches (h : Activity scene done) : Touches scene done := by
  cases h with
  -- the log, and then the node
  | @revise tree mount log tag node hget frame props log' =>
    exact .tail (Touches.note log') (.data hget frame props)
  -- the log, the node and then the view
  | @send tree mount log tag node hget hcreated frame props viewClass delta log' =>
    refine .tail (.tail (Touches.note log') (.data hget frame props)) (.props _ delta ?_)
    rw [Tree.createdAt_store, if_pos rfl, hcreated]
  -- the ascent, and then the operation
  | act h operation hoperation hframe =>
    exact (Touches.ofProgress h.progress).tail (.post operation hoperation hframe)

/-! ## Structure

Commands that register and remove nodes or change their properties. Each checks its arguments first
and then makes one edit, which either fails without a change or is one of the effects. -/

variable {managers : Managers}

namespace Bridge

/-- Adding a root fails if the tag is taken. -/
theorem addRoot_transacts (tag : Tag) (width height : κ) :
    Transacts managers (.root tag) [] (addRoot tag width height) scene := by
  obtain ⟨tree, mount, log⟩ := scene
  unfold addRoot
  rcases Tree.registerRoot_cases tree tag rootViewClass width height with
    ⟨err, herr⟩ | ⟨hfree, hok⟩
  -- the first step fails, before anything is stored
  · exact .inl ⟨err, log, bind_of_error (onTree_of_error herr)⟩
  · have hroot : tag ∈ (tree.withRootNode tag rootViewClass width height).roots :=
      Tree.mem_withRoot.mpr (.inr rfl)
    have hget : (tree.withRootNode tag rootViewClass width height).get? tag =
        some (Tree.rootNode tag rootViewClass width height) := Tree.get?_store_self ..
    right
    -- afterwards the node is a root, so tracking it cannot fail
    rw [bind_of_ok (onTree_of_ok hok), bind_of_ok (Mount.trackRoot_of_root hroot hget)]
    exact ⟨_, rfl, .addRoot hfree _ rfl _ rfl⟩

/-- Removing a root fails if there is no such root. -/
theorem removeRoot_transacts (hsound : scene.tree.Sound) (tag : Tag) :
    Transacts managers .none (scene.tree.swept [tag]) (removeRoot tag) scene := by
  obtain ⟨tree, mount, log⟩ := scene
  unfold removeRoot
  cases hroot : tree.isRoot tag with
  -- checked before anything is removed
  | false => exact .inl ⟨_, log, bind_of_error (Mount.destroyRoot_of_other hroot)⟩
  | true =>
    have hmem := Tree.isRoot_iff.mp hroot
    obtain ⟨members, log', hmembers, hok⟩ := Mount.destroySubtree_ok mount log hsound.wellFormed
      (hsound.wellFormed.root_contained hmem)
    have hswept : tree.swept [tag] = members := by
      rw [Tree.swept, List.flatMap_singleton, Tree.subtree_of_postOrder hmembers]
    right
    rw [bind_of_ok ((Mount.destroyRoot_of_root hroot).trans hok), hswept]
    exact ⟨_, rfl, .trim (Tree.trimmed_withoutSubtree hsound hmem hmembers) _⟩

/-- The node that a create registers is as its manager asks. -/
theorem isFresh_ofManager (tag root : Tag) (manager : ViewManager) (props : Props) :
    ((Node.ofManager tag root manager : Node κ).mergeProps props).IsFresh where
  parentless := rfl
  childless := rfl
  created_mounts := nofun
  virtual_not_mounts := fun h => by
    have hkind : manager.kind = .virtual := h
    show (manager.kind == .viewMounting) = false
    rw [hkind]
    rfl
  viewMounting_mounts := fun h => by
    have hkind : manager.kind = .viewMounting := h
    show (manager.kind == .viewMounting) = true
    rw [hkind]
    rfl

/-- Registering a new node. It has no view, so its properties are not sent. -/
theorem register_transacts {node : Node κ} (hfresh : node.IsFresh) (hcreated : node.created = false)
    {name : String} {manager : ViewManager} (hmanager : managers.resolve name = .ok manager)
    (hmakes : manager.Makes node) (props : Props) : Transacts managers (.node node.tag) [] (do
      onTree (Tree.register node)
      if node.mounts then discard (Mount.sendProps node.tag props)) scene := by
  obtain ⟨tree, mount, log⟩ := scene
  rcases Tree.register_cases tree node with ⟨err, herr⟩ | ⟨hfree, hok⟩
  -- a taken tag fails, before anything is stored
  · exact .inl ⟨err, log, bind_of_error (onTree_of_error herr)⟩
  · refine .inr ⟨_, ?_, .create hfresh hcreated hfree hmanager hmakes⟩
    rw [bind_of_ok (onTree_of_ok hok)]
    cases hmounts : node.mounts with
    | false => rfl
    -- a node that mounts would be sent its properties if it had a view
    | true =>
      exact discard_of_ok (Mount.sendProps_of_uncreated props (Tree.get?_store_self ..) hmounts
        hcreated)

/-- Creating a node fails without its root or its class, or if the tag is taken. -/
theorem create_transacts (managers : Managers) (tag : Tag) (viewClass : String) (root : Tag)
    (props : Props) :
    Transacts managers (.node tag) [] (create managers tag viewClass root props) scene := by
  unfold create Transacts
  rw [get_bind]
  cases hroot : scene.tree.isRoot root with
  -- the checks in their order: the root, the class, the tag
  | false => exact .inl ⟨.contract (.notARoot root), scene.log, rfl⟩
  | true =>
    rw [if_neg (by decide)]
    cases hresolve : managers.resolve viewClass with
    | error err => exact .inl ⟨err, scene.log, bind_of_error rfl⟩
    | ok manager =>
      exact register_transacts (isFresh_ofManager tag root manager props) rfl hresolve
        ⟨rfl, rfl, rfl⟩ props

/-- Overwriting the properties of a node and sending them to its view, if it has one. -/
theorem mergeProps_activity {tree : Tree κ} {mount : MountState κ} {log : List Log.Line} {tag : Tag}
    {found : Node κ} (hsound : tree.Sound) (hget : tree.get? tag = some found) (props : Props)
    (log' : List Log.Line) : ∃ done, (do
      onTree (Tree.mergeProps tag props)
      if found.mounts then discard (Mount.sendProps tag props) : MountM κ Unit)
        ⟨tree, mount, log'⟩ = .ok () done ∧ Activity ⟨tree, mount, log⟩ done := by
  have hmerge : Tree.mergeProps tag props tree =
      .ok () (tree.store tag (found.mergeProps props)) := Tree.update_of_get? hget
  have hget' : (tree.store tag (found.mergeProps props)).get? tag =
      some (found.mergeProps props) := Tree.get?_store_self ..
  have hrevised : found.created = false → Activity ⟨tree, mount, log⟩
      ⟨tree.store tag (found.mergeProps props), mount, log'⟩ := fun hcreated =>
    .revise hget found.frame _ log' fun hview => absurd (hcreated.symm.trans hview) nofun
  rw [bind_of_ok (onTree_of_ok hmerge)]
  -- a node that does not mount has no view; one that mounts may have none yet
  cases hmounts : found.mounts with
  | false =>
    refine ⟨_, rfl, hrevised (Bool.eq_false_iff.mpr fun hview => ?_)⟩
    rw [hsound.flags.created_mounts hget hview] at hmounts
    cases hmounts
  | true =>
    cases hcreated : found.created with
    | false =>
      exact ⟨_, discard_of_ok (Mount.sendProps_of_uncreated props hget' hmounts hcreated),
        hrevised hcreated⟩
    | true =>
      obtain ⟨_, hsend⟩ := @Mount.sendProps_of_created _
        ⟨tree.store tag (found.mergeProps props), mount, log'⟩ tag (found.mergeProps props) props
        hget' hmounts hcreated
      exact ⟨_, discard_of_ok hsend, .send hget hcreated found.frame _ _ props log' rfl⟩

/-- Updating a node fails if there is none. A wrong class is a line in the log. -/
theorem update_transacts (hsound : scene.tree.Sound) (tag : Tag) (viewClass : String)
    (props : Props) :
    Transacts managers .none [] (update tag viewClass props) scene := by
  obtain ⟨tree, mount, log⟩ := scene
  unfold update Transacts
  cases hget : tree.get? tag with
  | none => exact .inl ⟨_, log, bind_of_error (node_of_missing hget)⟩
  | some found =>
    rw [bind_of_ok (node_of_get? hget)]
    right
    by_cases hclass : found.viewClass ≠ viewClass
    · rw [if_pos hclass, bind_of_ok (say_apply ..)]
      obtain ⟨done, hok, hactivity⟩ :=
        @mergeProps_activity _ _ tree mount log tag found hsound hget props _
      exact ⟨done, hok, .active hactivity⟩
    · rw [if_neg hclass]
      obtain ⟨done, hok, hactivity⟩ := mergeProps_activity hsound hget props log
      exact ⟨done, hok, .active hactivity⟩

/-! ## Native views

Commands that need a view make sure of it by an escalation and then enqueue an operation for it. -/

/-- Giving a node a view. The answer tells whether there was none. -/
theorem ensureMounted_cases (hsound : scene.tree.Sound) (tag : Tag) :
    (∃ err, ensureMounted tag scene = .error err scene) ∨
    ∃ done, ensureMounted tag scene = .ok (!scene.tree.createdAt tag) done ∧
      Mount.Ascent scene done ∧ Mount.Escalated scene tag done := by
  unfold ensureMounted
  cases hget : scene.tree.get? tag with
  | none => exact .inl ⟨_, bind_of_error (node_of_missing hget)⟩
  | some found =>
    rw [bind_of_ok (node_of_get? hget)]
    rcases Mount.escalate_cases hsound.wellFormed hsound.flags tag with
      ⟨err, herr⟩ | ⟨done, hok, hascent, hup⟩
    · exact .inl ⟨err, bind_of_error herr⟩
    · refine .inr ⟨done, ?_, hascent, hup⟩
      rw [bind_of_ok hok]
      show EStateM.Result.ok (!found.mounts || !scene.tree.createdAt tag) done = _
      -- a node with a view mounts
      have hmounts := hsound.flags.created_mounts hget
      rw [Tree.createdAt_of_get? hget]
      cases hcreated : found.created with
      | false => rw [Bool.not_false, Bool.or_true]
      | true => rw [hmounts hcreated]; rfl

/-- Posting an operation to a node's view fails only if the node cannot be given a view. -/
theorem enqueueMounted_transacts (hsound : scene.tree.Sound) (tag : Tag) (operation : Operation κ)
    (hoperation : ∀ {viewed : Tag → Prop}, viewed tag → operation.Harmless viewed)
    (hframe : operation.frame? = none) (hprops : operation.props? = none) :
    Transacts managers .none [] (enqueueMounted tag operation) scene := by
  unfold enqueueMounted
  rcases ensureMounted_cases hsound tag with ⟨err, herr⟩ | ⟨⟨tree, mount, log⟩, hok, hascent, hup⟩
  · exact .inl ⟨err, scene.log, bind_of_error herr⟩
  · exact .inr ⟨_, bind_of_ok hok,
      .active (.act hascent operation (hoperation hup.view) hframe hprops)⟩

/-- Measuring fails only if a node cannot be given a view: the node itself if it mounts, else the
one it is measured within. -/
theorem measure_transacts (hsound : scene.tree.Sound) (tag : Tag) (callback : Callback) :
    Transacts managers .none [] (measure tag callback) scene := by
  unfold measure
  cases hget : scene.tree.get? tag with
  | none => exact .inl ⟨_, scene.log, bind_of_error (node_of_missing hget)⟩
  | some found =>
    unfold Transacts
    rw [bind_of_ok (node_of_get? hget)]
    -- a node that mounts is measured itself, another one within its native parent
    cases hmounts : found.mounts with
    | true =>
      rcases Mount.escalate_cases hsound.wellFormed hsound.flags tag with
        ⟨err, herr⟩ | ⟨⟨tree, mount, log⟩, hok, hascent, hup⟩
      · exact .inl ⟨err, scene.log, bind_of_error herr⟩
      · exact .inr ⟨_, bind_of_ok hok,
          .active (.act hascent (.measure tag callback) hup.view rfl rfl)⟩
    | false =>
      rcases Mount.relativeFrame_cases hsound.wellFormed hsound.flags tag with
        ⟨err, herr⟩ | ⟨frame, ⟨tree, mount, log⟩, hok, hascent, hview⟩
      · exact .inl ⟨err, scene.log, bind_of_error herr⟩
      · exact .inr ⟨_, bind_of_ok hok,
          .active (.act hascent (.measureRelative frame.tag frame.fractions callback) hview rfl rfl)⟩

/-- After a node got its view there is one above it, so refreshing its subtree cannot fail. -/
theorem sendCommand_transacts (hsound : scene.tree.Sound) (tag : Tag) (command : Nat)
    (args : List PropValue) :
    Transacts managers .none [] (sendCommand tag command args) scene := by
  unfold sendCommand
  rcases ensureMounted_cases hsound tag with ⟨err, herr⟩ | ⟨mid, hok, hascent, hup⟩
  · exact .inl ⟨err, scene.log, bind_of_error herr⟩
  right
  rw [bind_of_ok hok]
  cases hcreated : scene.tree.createdAt tag with
  | true =>
    obtain ⟨tree, mount, log⟩ := mid
    exact ⟨_, rfl, .active (.act hascent (.command tag command args) hup.view rfl rfl)⟩
  | false =>
    -- the view is new, and only then is the subtree refreshed before the command is posted
    obtain ⟨p, hp, hview⟩ := hup.above hcreated
    have hkept := Mount.Progress.kept hascent.progress
    obtain ⟨⟨tree, mount, log⟩, hrefresh, hrun⟩ :=
      Mount.refreshSubtree_of_view (hkept.links.wellFormed hsound.wellFormed) hp hview
    have hview' := (Mount.Run.grown hrun).mono hup.view
    exact ⟨_, bind_of_ok hrefresh,
      .active (.act (hascent.andThen hrun) (.command tag command args) hview' rfl rfl)⟩

/-- Setting the responder fails only if the node it is set on cannot be given a view. -/
theorem setResponder_transacts (hsound : scene.tree.Sound) (tag : Tag) (blockNative : Bool) :
    Transacts managers .none [] (setResponder tag blockNative) scene := by
  unfold setResponder
  rcases Mount.touchView_cases hsound.wellFormed hsound.flags tag with
    ⟨err, herr⟩ | ⟨target, ⟨tree, mount, log⟩, hok, hascent, hview⟩
  · exact .inl ⟨err, scene.log, bind_of_error herr⟩
  · exact .inr ⟨_, bind_of_ok hok,
      .active (.act hascent (.setResponder target tag blockNative) hview rfl rfl)⟩

end Bridge

/-! ## Children and frames

Edits of child lists trim the tree or are rejected; a change of a frame touches one node. -/

/-- A batch fails or trims the tree of the subtrees that it removes. -/
theorem applyBatch_transacts (hsound : scene.tree.Sound) (parent : Tag) (batch : Batch) :
    Transacts managers .none
      (scene.tree.swept (batch.removedChildren (scene.tree.childrenOf parent)))
      (Children.applyBatch parent batch) scene := by
  rcases Children.applyBatch_trims hsound batch with herr | ⟨after, log, hok, htrimmed⟩
  · exact .inl herr
  · obtain ⟨tree, mount, log'⟩ := scene
    exact .inr ⟨_, hok, .trim htrimmed log⟩

/-- Putting children in front fails or trims the tree of nothing. -/
theorem prepend_transacts (hsound : scene.tree.Sound) (parent : Tag) (children : List Tag) :
    Transacts managers .none [] (Children.prepend parent children) scene := by
  rcases Children.prepend_trims hsound children with ⟨err, herr⟩ | ⟨after, hok, htrimmed⟩
  · exact .inl ⟨err, scene.log, herr⟩
  · obtain ⟨tree, mount, log⟩ := scene
    exact .inr ⟨_, hok, .trim htrimmed log⟩

/-- Setting a frame fails if there is no such node. -/
theorem setFrame_transacts (tag : Tag) (frame : Frame κ) :
    Transacts managers .none [] (onTree (Tree.setFrame tag frame)) scene := by
  obtain ⟨tree, mount, log⟩ := scene
  rcases Tree.update_cases tree tag fun node => { node with frame } with
    ⟨err, herr⟩ | ⟨node, hget, hok⟩
  · exact .inl ⟨err, log, onTree_of_error herr⟩
  · exact .inr ⟨_, onTree_of_ok hok, .active (.revise hget frame node.props log fun _ => rfl)⟩

/-- A command fails and changes nothing but the log, or has an effect. -/
theorem Command.run_cases (managers : Managers) (command : Command κ) (hsound : scene.tree.Sound) :
    Transacts managers command.registration (command.removals scene.tree) (command.run managers)
      scene := by
  cases command with
  | addRoot tag width height => exact Bridge.addRoot_transacts tag width height
  | removeRoot tag => exact Bridge.removeRoot_transacts hsound tag
  | create tag viewClass root props =>
    exact Bridge.create_transacts managers tag viewClass root props
  | update tag viewClass props => exact Bridge.update_transacts hsound tag viewClass props
  | editChildren parent batch => exact applyBatch_transacts hsound parent batch
  | prependChildren parent children => exact prepend_transacts hsound parent children
  | setFrame tag frame => exact setFrame_transacts tag frame
  | measure tag callback => exact Bridge.measure_transacts hsound tag callback
  | measureInWindow tag callback => exact Bridge.enqueueMounted_transacts hsound tag _ id rfl rfl
  | findSubview tag x y callback => exact Bridge.enqueueMounted_transacts hsound tag _ id rfl rfl
  | sendCommand tag command args => exact Bridge.sendCommand_transacts hsound tag command args
  | popupMenu tag items callback => exact Bridge.enqueueMounted_transacts hsound tag _ id rfl rfl
  | accessibilityEvent tag event => exact Bridge.enqueueMounted_transacts hsound tag _ id rfl rfl
  | setResponder tag blockNative => exact Bridge.setResponder_transacts hsound tag blockNative
  | clearResponder =>
    obtain ⟨tree, mount, log⟩ := scene
    exact .inr ⟨_, rfl, .active (.act (Mount.Run.ascent .refl) .clearResponder trivial rfl rfl)⟩

end ShadowMount
