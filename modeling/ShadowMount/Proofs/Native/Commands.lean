import ShadowMount.Proofs.Native.Mirror
import ShadowMount.Proofs.Ui.MountFlags

/-!
# Commands and the native side

Every effect of a command keeps the mirror on the native side, as long as the tags of the platform's
roots are registered once and as roots, and no node is given a view while its tag waits for a drop.
If no tag is registered while it waits for its drop, then no such node exists.

* **`Registration.Allowed`** — the rule for the tags that commands register; `Registration.Expected`
  is the part about roots.
* **`Mirrored`** — a sound tree with anchored views and a mirror on the native side.
* **`Effect.mirrored`** — commands that give no view to a tag that waits keep the mirror.
* **`InStep`**, **`Effect.inStep`** — so do commands that keep to the rule.
-/

namespace ShadowMount

open Native

variable {κ : Type}

namespace Registration

/-- A root is one of the platform and is registered for the first time, another node is none of
them, and neither waits for its drop. -/
def Allowed (platform past dropping : List Tag) : Registration → Prop
  | none => True
  | root tag => tag ∈ platform ∧ tag ∉ past ∧ tag ∉ dropping
  | node tag => tag ∉ platform ∧ tag ∉ dropping

/-- A root is one of the platform and is registered for the first time, and another node is none of
them. -/
def Expected (platform past : List Tag) : Registration → Prop
  | none => True
  | root tag => tag ∈ platform ∧ tag ∉ past
  | node tag => tag ∉ platform

/-- What is allowed is expected; only the tags that wait are left aside. -/
theorem Allowed.expected {platform past dropping : List Tag} {registration : Registration}
    (h : registration.Allowed platform past dropping) : registration.Expected platform past := by
  cases registration with
  | none => trivial
  | root => exact ⟨h.1, h.2.1⟩
  | node => exact h.1

/-- The roots registered so far, after a registration. -/
def extend (past : List Tag) : Registration → List Tag
  | root tag => tag :: past
  | none | node _ => past

end Registration

/-! ## What is sent -/

namespace MountState

/-- Sending a frame asks for two existing views, and enqueues one operation at most. -/
theorem posted_frameSent [Coordinate κ] (state : MountState κ) {tag parent : Tag}
    (frame : Frame κ) {viewed : Tag → Prop} (htag : viewed tag) (hparent : viewed parent) :
    Posted viewed state.queue (state.frameSent tag parent frame).queue := by
  unfold frameSent
  split
  · exact .inl rfl
  · exact .inr ⟨.setFrame tag parent frame, ⟨htag, hparent⟩, rfl⟩

/-- Sending properties leaves the child lists as they were sent. -/
theorem sent_propsSent_children (state : MountState κ) (tag other : Tag) (viewClass : String)
    (delta : Props) : ((state.propsSent tag viewClass delta).sent other).children =
      (state.sent other).children := by
  obtain ⟨props, hsent⟩ := state.sent_propsSent tag other viewClass delta
  rw [hsent]

/-- Sending properties asks for one existing view, and enqueues one operation at most. -/
theorem posted_propsSent (state : MountState κ) {tag : Tag} (viewClass : String) (delta : Props)
    {viewed : Tag → Prop} (htag : viewed tag) :
    Posted viewed state.queue (state.propsSent tag viewClass delta).queue := by
  unfold propsSent
  dsimp only
  split
  · exact .inl rfl
  · exact .inr ⟨.setProps tag viewClass _, htag, rfl⟩

end MountState

/-! ## Steps

Each touch of a command is one of the ways in which a mirror is kept: nothing is sent, an operation
is sent to a view, a view is created, a child list is sent. -/

section Steps

variable [Coordinate κ] {platform past : List Tag} {scene done : Scene κ} {native : Hierarchy κ}

omit [Coordinate κ] in
/-- A node that is given its view has it. -/
theorem createdAt_made {tree : Tree κ} {tag : Tag} {node : Node κ} :
    (tree.store tag { node with created := true }).createdAt tag = true :=
  (Tree.createdAt_store ..).trans (if_pos rfl)

/-- Each step of reconciliation keeps the mirror: it creates a view, sends a frame, sends a child
list, or notes something. Only the first of these needs that the tag of the new view waits for no
drop. -/
theorem Mount.Step.mirror (h : Mount.Step scene done) (hsound : scene.tree.Sound)
    (hanchored : scene.tree.Anchored) (hmirror : Mirror platform past scene native)
    (htidy : ∀ t ∈ scene.mount.dropTags, done.tree.createdAt t = false) :
    Mirror platform past done native := by
  cases h with
  | @create tree mount log tag parent node hget hmounts hcreated =>
    refine hmirror.create hsound.flags hget hmounts hcreated fun hdropped => ?_
    exact Bool.false_ne_true ((htidy tag hdropped).symm.trans createdAt_made)
  -- a frame changes no link, and names views that exist
  | @frame tree mount log tag parent frame hcreated hparent =>
    exact hmirror.steady (.refl tree) (fun _ => rfl) (congrArg (·.2.1) (mount.fixtures_frameSent ..))
      (fun t => mount.sent_frameSent_children ..)
      (mount.posted_frameSent frame hcreated (hanchored.nativeParent hcreated hparent))
      fun _ _ hnative => hnative
  -- a list of native children names views whose native parent gets it
  | @children tree mount log tag children hcreated hchildren =>
    obtain ⟨xs, hxs, hmem⟩ :=
      Tree.nativeChildren_spec hsound.wellFormed (Tree.contains_of_createdAt hcreated)
    obtain rfl : xs = children := Except.ok.inj (hxs.symm.trans hchildren)
    refine hmirror.childrenSent hsound.wellFormed hcreated fun c hc => ?_
    obtain ⟨hexposed, -, hview⟩ := (hmem c).mp hc
    exact ⟨hview, hexposed, hsound.flags.mountsAt_of_createdAt hcreated⟩
  | @note tree mount log log' =>
    exact hmirror.steady (.refl tree) (fun _ => rfl) rfl (fun _ => rfl) (.inl rfl)
      fun _ _ hnative => hnative

omit [Coordinate κ] in
/-- A node is inserted between a view and some of its children: the view lets them go first, and the
new view gets them later. -/
theorem Native.Mirror.insert {tree : Tree κ} {mount : MountState κ} {log : List Log.Line}
    {tag parent : Tag} {node : Node κ} {children : List Tag}
    (hmirror : Mirror platform past ⟨tree, mount, log⟩ native) (hsound : tree.Sound)
    (hget : tree.get? tag = some node) (hpromotable : node.isPromotable = true)
    (hcreated : node.created = false) (hparent : tree.NativeParent tag parent)
    (habove : tree.createdAt parent = true)
    (hchildren : (tree.store tag node.promote).nativeChildren parent = .ok children)
    (hdropped : tag ∉ mount.dropTags) :
    Mirror platform past (Mount.withView
      ⟨tree.store tag node.promote, mount.childrenSent parent children, log⟩ tag node.promote)
      native := by
  have hwf := hsound.wellFormed
  have hlinks := Tree.sameLinks_promote hget
  have hviews := Tree.createdAt_promote hget
  have hcontains : (tree.store tag node.promote).contains parent = true := by
    rw [hlinks.contains]
    exact Tree.contains_of_createdAt habove
  obtain ⟨xs, hxs, hmem⟩ := Tree.nativeChildren_spec (hlinks.wellFormed hwf) hcontains
  obtain rfl : xs = children := Except.ok.inj (hxs.symm.trans hchildren)
  -- the shorter list, still without the promotion
  have hlists := hmirror.childrenSent hwf habove fun c hc => by
    obtain ⟨hexposed, -, hview⟩ := (hmem c).mp hc
    exact ⟨hviews c ▸ hview, hexposed.of_promote hget, hparent.2⟩
  have hpromoted : Mirror platform past
      ⟨tree.store tag node.promote, mount.childrenSent parent xs, log⟩ native := by
    refine hlists.steady hlinks hviews rfl (fun _ => rfl) (.inl rfl) fun {q c} hc hview hnative => ?_
    by_cases hq : parent = q
    · subst hq
      rw [MountState.sent_childrenSent, if_pos rfl] at hc
      have hmounts := ((Tree.nativeParent_promote_iff hwf hget (.refl tag)).mpr hparent).2
      exact ⟨((hmem c).mp hc).1, hmounts⟩
    · -- the node comes in between only below its own native parent
      refine hnative.promote hget fun htag hbetween => hq ?_
      exact hparent.unique hwf ⟨hnative.1.between hwf htag hbetween, hnative.2⟩
  exact hpromoted.create (hsound.flags.promote hget) (Tree.get?_store_self ..)
    (Node.mounts_of_promotable hpromotable) (node.created_promote.trans hcreated)
    (mount.dropTags_childrenSent parent xs ▸ hdropped)

/-- Every rise keeps the mirror, be it a step, or the insertion of a promoted node. -/
theorem Mount.Rise.mirror (h : Mount.Rise scene done) (hsound : scene.tree.Sound)
    (hanchored : scene.tree.Anchored) (hmirror : Mirror platform past scene native)
    (htidy : ∀ t ∈ scene.mount.dropTags, done.tree.createdAt t = false) :
    Mirror platform past done native := by
  cases h with
  | step h => exact h.mirror hsound hanchored hmirror htidy
  | promote hget hparent habove =>
    refine hmirror.steady (Tree.sameLinks_promote hget) (Tree.createdAt_promote hget) rfl
      (fun _ => rfl) (.inl rfl) fun _ hview hnative => hnative.promote hget fun htag => ?_
    -- there is no view below the promoted node
    rw [hanchored.not_createdAt_below hparent habove (.inr htag)] at hview
    cases hview
  | insert hget hpromotable hcreated hparent habove hchildren =>
    refine hmirror.insert hsound hget hpromotable hcreated hparent habove hchildren
      fun hdropped => ?_
    exact Bool.false_ne_true ((htidy _ hdropped).symm.trans createdAt_made)

/-- Whatever a command touches keeps the mirror. -/
theorem Touch.mirror (h : Touch scene done) (hsound : scene.tree.Sound)
    (hanchored : scene.tree.Anchored) (hmirror : Mirror platform past scene native)
    (htidy : ∀ t ∈ scene.mount.dropTags, done.tree.createdAt t = false) :
    Mirror platform past done native := by
  cases h with
  | rise h => exact h.mirror hsound hanchored hmirror htidy
  | @post tree mount log operation h =>
    exact hmirror.steady (.refl tree) (fun _ => rfl) rfl (fun _ => rfl) (.inr ⟨operation, h, rfl⟩)
      fun _ _ hnative => hnative
  | @props tree mount log tag viewClass delta hcreated =>
    exact hmirror.steady (.refl tree) (fun _ => rfl) (congrArg (·.2.1) (mount.fixtures_propsSent ..))
      (fun t => mount.sent_propsSent_children ..) (mount.posted_propsSent viewClass delta hcreated)
      fun _ _ hnative => hnative
  | @data tree mount log tag node hget frame props =>
    have hlinks := @Tree.sameLinks_store _ tree tag node { node with frame, props } hget rfl rfl rfl
    have hsame := Tree.flags_update hget frame props
    exact hmirror.steady hlinks (fun t => (hsame t).1) rfl (fun _ => rfl) (.inl rfl)
      fun _ _ hnative => hnative.transport hsound.wellFormed hlinks.parent fun x _ => (hsame x).2

end Steps

/-! ## Commands

Registration is where a mirror can be lost, as a tag that waits for its drop has a view already. The
rule for registrations excludes it. -/

/-- A sound tree with anchored views and a native side that mirrors it. -/
structure Mirrored (platform past : List Tag) (scene : Scene κ) (native : Hierarchy κ) : Prop where
  sound : scene.tree.Sound
  anchored : scene.tree.Anchored
  mirror : Mirror platform past scene native

/-- The native side mirrors the tree, and no node has a tag that waits for its drop. -/
structure InStep (platform past : List Tag) (scene : Scene κ) (native : Hierarchy κ) : Prop extends
    Mirrored platform past scene native where
  free : ∀ {t}, t ∈ scene.mount.dropTags → scene.tree.contains t = false

variable [Coordinate κ] {platform past : List Tag} {scene done : Scene κ} {native : Hierarchy κ}

/-- What is touched neither drops a view nor cancels a drop. -/
theorem Touches.dropTags (h : Touches scene done) : done.mount.dropTags = scene.mount.dropTags :=
  congrArg (List.map PendingDrop.tag) (Touches.drops h)

/-- What happens between commands keeps the mirror if no view is made for a tag that waits for its
drop. -/
theorem Touches.mirrored (h : Touches scene done) (hmirrored : Mirrored platform past scene native)
    (htidy : ∀ t ∈ scene.mount.dropTags, done.tree.createdAt t = false) :
    Mirrored platform past done native := by
  induction h with
  | refl => exact hmirrored
  | @tail mid done htouches htouch ih =>
    have hmid : ∀ t ∈ scene.mount.dropTags, mid.tree.createdAt t = false := by
      refine fun t ht => Bool.eq_false_iff.mpr fun hview => ?_
      exact Bool.false_ne_true ((htidy t ht).symm.trans (htouch.createdAt_mono hview))
    obtain ⟨hsound, hanchored, hmirror⟩ := ih hmid
    rw [← Touches.dropTags htouches] at htidy
    exact ⟨htouch.sound hsound, htouch.anchored hanchored,
      htouch.mirror hsound hanchored hmirror htidy⟩

/-- Touching keeps the native side in step, as it registers nothing and drops nothing. -/
theorem Touches.inStep (h : Touches scene done) (hstep : InStep platform past scene native) :
    InStep platform past done native := by
  have hfree : ∀ {t}, t ∈ scene.mount.dropTags → done.tree.contains t = false := fun ht =>
    (Touches.contains h _).trans (hstep.free ht)
  refine ⟨Touches.mirrored h hstep.toMirrored fun t ht => ?_, fun ht => ?_⟩
  · exact Tree.createdAt_of_free (hfree ht)
  · exact hfree (Touches.dropTags h ▸ ht)

/-- A command that registers roots as expected and gives no view to a tag that waits for its drop
keeps the mirror. -/
theorem Effect.mirrored {managers : Managers} {registration : Registration} {removals : List Tag}
    (h : Effect managers registration removals scene done)
    (hmirrored : Mirrored platform past scene native)
    (hexpected : registration.Expected platform past)
    (htidy : ∀ t ∈ scene.mount.dropTags, done.tree.createdAt t = false) :
    Mirrored platform (registration.extend past) done native := by
  have hwf := hmirrored.sound.wellFormed
  refine ⟨h.sound hmirrored.sound, h.anchored hwf hmirrored.anchored, ?_⟩
  cases h with
  | addRoot hfree sent hsent log' =>
    obtain ⟨hplatform, hnew⟩ := hexpected
    refine hmirrored.mirror.addRoot hwf hfree hplatform hnew (fun hdropped => ?_) hsent
    exact Bool.false_ne_true ((htidy _ hdropped).symm.trans createdAt_withRootNode)
  | create hfresh hcreated hfree =>
    exact hmirrored.mirror.register hwf hfresh hcreated hfree hexpected
  | trim htrimmed => exact hmirrored.mirror.trim hwf hmirrored.anchored htrimmed
  | active h => exact (Touches.mirrored h.touches hmirrored htidy).mirror

/-- A command that registers as it is allowed to leaves no node with a tag that waits for its
drop. -/
theorem Effect.free {managers : Managers} {registration : Registration} {removals : List Tag}
    (h : Effect managers registration removals scene done)
    (hfree : ∀ {t}, t ∈ scene.mount.dropTags → scene.tree.contains t = false)
    (hallowed : registration.Allowed platform past scene.mount.dropTags) {t : Tag}
    (ht : t ∈ done.mount.dropTags) : done.tree.contains t = false := by
  cases h with
  -- a new root and a new node have tags that do not wait
  | @addRoot _ _ _ tag _ _ _ hnew =>
    have hne : tag ≠ t := fun heq => hallowed.2.2 (heq ▸ ht)
    rw [(Tree.registered_withRootNode hnew).contains, decide_eq_false hne]
    exact hfree ht
  | @create _ _ _ node hfresh hcreated hnew =>
    have hne : node.tag ≠ t := fun heq => hallowed.2 (heq ▸ ht)
    rw [(Tree.registered_store hfresh hnew).contains, decide_eq_false hne]
    exact hfree ht
  -- what waits afterwards waited before, or went now; neither has a node
  | trim htrimmed =>
    rw [MountState.dropTags_scheduledAll, List.mem_append, List.mem_filter] at ht
    refine Bool.eq_false_iff.mpr fun hafter => ?_
    obtain ⟨hcontains, hstays⟩ := htrimmed.contains_iff.mp hafter
    rcases ht with ht | ⟨hgone, -⟩
    · rw [hfree ht] at hcontains
      cases hcontains
    · exact hstays hgone
  | active h =>
    rw [Touches.contains h.touches]
    exact hfree (Touches.dropTags h.touches ▸ ht)

/-- A command cancels no drop. Only a flush takes drops off the list. -/
theorem Effect.dropTags_subset {managers : Managers} {registration : Registration}
    {removals : List Tag} (h : Effect managers registration removals scene done) :
    scene.mount.dropTags ⊆ done.mount.dropTags := by
  cases h with
  | addRoot => exact fun _ ht => ht
  | create => exact fun _ ht => ht
  | trim =>
    rw [MountState.dropTags_scheduledAll]
    exact List.subset_append_left ..
  | active h =>
    rw [Touches.dropTags h.touches]
    exact fun _ ht => ht

/-- A command that registers as it is allowed to keeps the native side in step. -/
theorem Effect.inStep {managers : Managers} {registration : Registration} {removals : List Tag}
    (h : Effect managers registration removals scene done) (hstep : InStep platform past scene native)
    (hallowed : registration.Allowed platform past scene.mount.dropTags) :
    InStep platform (registration.extend past) done native := by
  have hfree : ∀ {t}, t ∈ done.mount.dropTags → done.tree.contains t = false :=
    h.free hstep.free hallowed
  refine ⟨h.mirrored hstep.toMirrored hallowed.expected fun t ht => ?_, hfree⟩
  exact Tree.createdAt_of_free (hfree (h.dropTags_subset ht))

end ShadowMount
