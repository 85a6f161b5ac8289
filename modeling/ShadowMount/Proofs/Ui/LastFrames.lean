import ShadowMount.Proofs.Core.Measurement
import ShadowMount.Proofs.Native.Record
import ShadowMount.Proofs.Ui.Reuse

/-!
# The last frame of a view

A frame is sent with the native parent it is relative to, and what was sent last is remembered.
Later operations may make views between the two, by which the view gets another native parent.

* **`Tree.Framing`** — where the last frame of a view stands among the operations: the view that it
  names is older, and every view that is now in between is younger.
* **`Conveys`** — the operations that one touch sends, with what is known of views and frames.
* **`Scene.Framed`** — every frame that is remembered is the last one among the operations executed
  and waiting. Touches, commands and flushes keep this, so `Ui.framed_after` has it for every run.
-/

namespace ShadowMount

open Native

variable {κ : Type}

/-! ## Frames among operations

Between the last frame of a view and now, views may have been created above it. The frame names a
view above, and those in between are all among the later creates. -/

/-- An operation that neither makes a view nor sends a frame. -/
def Operation.Neutral (operation : Operation κ) : Prop :=
  operation.created? = none ∧ operation.frame? = none

/-- Neutral operations create no views. -/
theorem Operation.filterMap_created?_of_neutral {operations : List (Operation κ)}
    (h : ∀ operation ∈ operations, operation.Neutral) : operations.filterMap created? = [] :=
  List.filterMap_eq_nil_iff.mpr fun operation hmem => (h operation hmem).1

/-- No frame of a view is sent. -/
theorem Operation.filterMap_frameFor?_eq_nil {tag : Tag} {operations : List (Operation κ)} :
    operations.filterMap (frameFor? tag) = [] ↔
      ∀ parent frame, .setFrame tag parent frame ∉ operations := by
  rw [List.filterMap_eq_nil_iff]
  constructor
  · intro hnone parent frame hmem
    have hsends := hnone _ hmem
    rw [frameFor?, if_pos rfl] at hsends
    cases hsends
  · intro hnot operation hmem
    cases operation with
    | setFrame other parent frame =>
      refine if_neg fun heq => ?_
      subst heq
      exact hnot parent frame hmem
    | _ => rfl

/-- Neutral operations send no frames. -/
theorem Operation.filterMap_frameFor?_of_neutral {operations : List (Operation κ)}
    (h : ∀ operation ∈ operations, operation.Neutral) (tag : Tag) :
    operations.filterMap (frameFor? tag) = [] :=
  filterMap_frameFor?_eq_nil.mpr fun _ _ hmem => nomatch (h _ hmem).2

/-- What sends a frame of a view targets that view. -/
theorem Operation.target?_of_frameFor? {tag : Tag} {operation : Operation κ}
    (h : operation.frameFor? tag ≠ none) : operation.target? = some tag := by
  cases operation with
  | setFrame other parent frame =>
    by_contra hne
    exact h (if_neg fun heq => hne (congrArg some heq))
  | _ => exact absurd rfl h

/-- The last frame is the one after which there is no other. -/
theorem Operation.getLast?_frameFor? {tag named : Tag} {frame : Frame κ}
    {earlier later : List (Operation κ)} (hlast : later.filterMap (frameFor? tag) = []) :
    ((earlier ++ .setFrame tag named frame :: later).filterMap (frameFor? tag)).getLast? =
      some (named, frame) := by
  have hsends : frameFor? tag (.setFrame tag named frame) = some (named, frame) := if_pos rfl
  rw [List.filterMap_append, List.filterMap_cons_some hsends, hlast, List.getLast?_concat]

namespace Tree

variable {tree after : Tree κ} {tag named parent : Tag} {frame : Frame κ}
  {operations later more : List (Operation κ)}

/-- The last frame of `tag` named `named`, and `later` was sent since. -/
structure Framing (tree : Tree κ) (tag named : Tag) (later : List (Operation κ)) : Prop where
  /-- The named view is above. -/
  above : tree.Ancestor named tag
  /-- It is still there. -/
  view : tree.createdAt named = true
  /-- No frame of the view was sent since. -/
  last : later.filterMap (Operation.frameFor? tag) = []
  /-- The named view has been there since before. -/
  older : named ∉ later.filterMap Operation.created?
  /-- What came in between was created since. -/
  younger : ∀ {x}, tree.Ancestor named x → tree.Ancestor x tag → tree.createdAt x = true →
    x ∈ later.filterMap Operation.created?

/-- A frame that is sent now names the native parent. -/
theorem Framing.of_nativeParent (hsound : tree.Sound) (hparent : tree.NativeParent tag parent)
    (hview : tree.createdAt parent = true) : tree.Framing tag parent [] where
  above := hparent.ancestor
  view := hview
  last := rfl
  older := List.not_mem_nil
  younger hbelow habove hcreated := by
    -- a view in between mounts, and so it is not below the native parent
    have hmounts := hsound.flags.mountsAt_of_createdAt hcreated
    rcases hparent.1.mounting_ancestor habove hmounts with rfl | hback
    · exact absurd hbelow (hsound.wellFormed.not_ancestor_self _)
    · exact absurd (hbelow.trans hback) (hsound.wellFormed.not_ancestor_self _)

/-- Of the native parent and the view that the last frame named, one is above the other, and what is
younger is below. -/
theorem Framing.eq_iff (h : tree.Framing tag named later) (hflags : tree.FlagsSound)
    (hparent : tree.NativeParent tag parent) (hview : tree.createdAt parent = true) :
    named = parent ↔ parent ∉ later.filterMap Operation.created? := by
  -- had the native parent been created since, it could not have been named then
  constructor
  · rintro rfl
    exact h.older
  -- both mount and are above the view, so they are one or the native parent lies below
  · intro hnot
    rcases hparent.1.mounting_ancestor h.above (hflags.mountsAt_of_createdAt h.view) with
      heq | hbelow
    · exact heq.symm
    · exact absurd (h.younger hbelow hparent.ancestor hview) hnot

/-- More operations are sent, and views are made by them alone. -/
theorem Framing.transport (h : tree.Framing tag named later)
    (hlinks : ∀ {a x}, tree.InSubtree x tag → (after.Ancestor a x ↔ tree.Ancestor a x))
    (hview : after.createdAt named = true)
    (hlast : more.filterMap (Operation.frameFor? tag) = [])
    (hfresh : named ∉ more.filterMap Operation.created?)
    (hmade : ∀ {x}, tree.InSubtree x tag → after.createdAt x = true →
      tree.createdAt x = true ∨ x ∈ more.filterMap Operation.created?) :
    after.Framing tag named (later ++ more) where
  above := (hlinks (.refl tag)).mpr h.above
  view := hview
  last := by rw [List.filterMap_append, h.last, hlast, List.append_nil]
  older := by
    rw [List.filterMap_append, List.mem_append]
    exact not_or.mpr ⟨h.older, hfresh⟩
  younger hbelow habove hcreated := by
    have habove := (hlinks (.refl tag)).mp habove
    rw [List.filterMap_append, List.mem_append]
    -- a view in between was there before, or was created by the operations that follow
    refine (hmade (.inr habove) hcreated).imp_left fun hcreated => ?_
    exact h.younger ((hlinks (.inr habove)).mp hbelow) habove hcreated

/-- Among the operations is a frame of `tag`, and the last one is `frame`. -/
def Framed (tree : Tree κ) (operations : List (Operation κ)) (tag : Tag) (frame : Frame κ) : Prop :=
  ∃ earlier named later, operations = earlier ++ .setFrame tag named frame :: later ∧
    tree.Framing tag named later

/-- What is above the node, and which views are there, does not change. -/
theorem Framed.congr (h : tree.Framed operations tag frame)
    (hlinks : ∀ {a x}, tree.InSubtree x tag → (after.Ancestor a x ↔ tree.Ancestor a x))
    (hviews : ∀ {x}, tree.InSubtree x tag → after.createdAt x = tree.createdAt x) :
    after.Framed operations tag frame := by
  obtain ⟨earlier, named, later, heq, hframing⟩ := h
  refine ⟨earlier, named, later, heq, ?_⟩
  have hview := (hviews (.inr hframing.above)).trans hframing.view
  have hsame : after.Framing tag named (later ++ []) :=
    hframing.transport hlinks hview rfl List.not_mem_nil
      fun hx hcreated => .inl (hviews hx ▸ hcreated)
  rwa [List.append_nil] at hsame

/-- Neutral operations may follow. -/
theorem Framed.append (h : tree.Framed operations tag frame)
    (hneutral : ∀ operation ∈ more, operation.Neutral) :
    tree.Framed (operations ++ more) tag frame := by
  obtain ⟨earlier, named, later, rfl, hframing⟩ := h
  refine ⟨earlier, named, later ++ more, by simp, ?_⟩
  refine hframing.transport (fun _ => .rfl) hframing.view
    (Operation.filterMap_frameFor?_of_neutral hneutral tag) ?_ fun _ => .inl
  rw [Operation.filterMap_created?_of_neutral hneutral]
  exact List.not_mem_nil

/-- Operations may be left out of the queue, but for creates and the frames of `tag`. -/
theorem Framed.filter {executed queue : List (Operation κ)}
    (h : tree.Framed (executed ++ queue) tag frame) {keep : Operation κ → Bool}
    (hcreates : ∀ operation, operation.created? ≠ none → keep operation = true)
    (hframes : ∀ operation, operation.frameFor? tag ≠ none → keep operation = true) :
    tree.Framed (executed ++ queue.filter keep) tag frame := by
  obtain ⟨earlier, named, later, heq, hframing⟩ := h
  have hsends : keep (.setFrame tag named frame) = true := by
    refine hframes _ ?_
    rw [Operation.frameFor?, if_pos rfl]
    exact nofun
  -- the frame stands among the executed operations or in the queue
  have hsplit : ∃ earlier' kept rest, later = kept ++ rest ∧
      executed ++ queue.filter keep =
        earlier' ++ .setFrame tag named frame :: (kept ++ rest.filter keep) := by
    rcases List.append_eq_append_iff.mp heq with ⟨between, -, hqueue⟩ | ⟨between, hexecuted, hrest⟩
    · refine ⟨executed ++ between.filter keep, [], later, rfl, ?_⟩
      rw [hqueue, List.filter_append, List.filter_cons_of_pos hsends, List.append_assoc]
      rfl
    · cases between with
      | nil =>
        refine ⟨executed, [], later, rfl, ?_⟩
        rw [← List.nil_append queue, ← hrest, List.filter_cons_of_pos hsends]
        rfl
      | cons first kept =>
        obtain ⟨rfl, hlater⟩ := List.cons.inj hrest
        refine ⟨earlier, kept, queue, hlater, ?_⟩
        rw [hexecuted, List.append_assoc]
        rfl
  obtain ⟨earlier', kept, rest, rfl, hfiltered⟩ := hsplit
  refine ⟨earlier', named, kept ++ rest.filter keep, hfiltered, hframing.above, hframing.view, ?_,
    ?_, fun hbelow habove hcreated => ?_⟩
  -- neither frames of the view nor creates are left out, so all parts of the framing carry over
  · rw [List.filterMap_append, filterMap_filter_of_ne_none hframes, ← List.filterMap_append]
    exact hframing.last
  · rw [List.filterMap_append, filterMap_filter_of_ne_none hcreates, ← List.filterMap_append]
    exact hframing.older
  · rw [List.filterMap_append, filterMap_filter_of_ne_none hcreates, ← List.filterMap_append]
    exact hframing.younger hbelow habove hcreated

end Tree

/-! ## What a touch sends

The operations of a touch, with what the tree says of each: a create is for a view below a view, and
a frame names the native parent of its view. -/

/-- What is known of the operations that one touch sends. -/
structure Conveys (scene : Scene κ) (operations : List (Operation κ)) (done : Scene κ) : Prop where
  /-- The operations go to the end of the queue. -/
  queue : done.mount.queue = scene.mount.queue ++ operations
  /-- No node is moved. -/
  links : scene.tree.SameLinks done.tree
  /-- No view is lost. -/
  mono : ∀ {x}, scene.tree.createdAt x = true → done.tree.createdAt x = true
  /-- A view is made where there is none. -/
  fresh : ∀ x ∈ operations.filterMap Operation.created?, scene.tree.createdAt x = false
  /-- A view is made by its create alone. -/
  made : ∀ {x}, done.tree.createdAt x = true →
    scene.tree.createdAt x = true ∨ x ∈ operations.filterMap Operation.created?
  /-- A frame that is sent is remembered and names the native parent. -/
  sent : ∀ {x parent frame}, .setFrame x parent frame ∈ operations →
    operations = [.setFrame x parent frame] ∧ done.tree.Framing x parent [] ∧
      (done.mount.sent x).frame = some frame
  /-- Another frame that is remembered was so before. -/
  kept : ∀ {x frame}, (done.mount.sent x).frame = some frame →
    (∃ parent other, .setFrame x parent other ∈ operations) ∨
      x ∉ operations.filterMap Operation.created? ∧ (scene.mount.sent x).frame = some frame

namespace Conveys

variable {scene done : Scene κ} {operations : List (Operation κ)}

/-- Neutral operations tell nothing of views or frames. -/
theorem neutral (hqueue : done.mount.queue = scene.mount.queue ++ operations)
    (hneutral : ∀ operation ∈ operations, operation.Neutral)
    (hlinks : scene.tree.SameLinks done.tree)
    (hviews : ∀ x, done.tree.createdAt x = scene.tree.createdAt x)
    (hsent : ∀ x, (done.mount.sent x).frame = (scene.mount.sent x).frame) :
    Conveys scene operations done := by
  have hmade := Operation.filterMap_created?_of_neutral hneutral
  refine ⟨hqueue, hlinks, fun {x} hview => (hviews x).trans hview, ?_,
    fun {x} hview => .inl (hviews x ▸ hview), fun hmem => ?_,
    fun {x frame} hframe => .inr ⟨?_, hsent x ▸ hframe⟩⟩
  · rw [hmade]
    exact nofun
  · cases (hneutral _ hmem).2
  · rw [hmade]
    exact List.not_mem_nil

/-- A create makes one view, where there was none. -/
theorem create {tree : Tree κ} {mount : MountState κ} {log : List Log.Line} {tag : Tag}
    {node : Node κ} (hget : tree.get? tag = some node) (hnone : tree.createdAt tag = false) :
    Conveys ⟨tree, mount, log⟩ [.create tag node.root node.viewClass node.props]
      ⟨tree.store tag { node with created := true }, mount.createSent tag node, log⟩ := by
  have hviews : ∀ x, (tree.store tag { node with created := true }).createdAt x =
      if tag = x then true else tree.createdAt x := fun x => Tree.createdAt_store tag x _
  refine ⟨rfl, Tree.sameLinks_store hget rfl rfl rfl, fun {x} hview => ?_,
    List.forall_mem_singleton.mpr hnone, fun {x} hview => ?_, fun hmem => ?_,
    fun {x frame} hframe => ?_⟩
  · rw [hviews, hview, ite_self]
  · rw [hviews] at hview
    split at hview
    · next heq => exact .inr (List.mem_singleton.mpr heq.symm)
    · exact .inl hview
  · cases List.mem_singleton.mp hmem
  · -- nothing is remembered of the frame of a new view
    rw [MountState.sent_createSent] at hframe
    split at hframe
    · cases hframe
    · next hne => exact .inr ⟨fun hmem => hne (List.mem_singleton.mp hmem).symm, hframe⟩

/-- A frame that differs is sent and remembered; the same frame is not sent. -/
theorem frame [Coordinate κ] {tree : Tree κ} {mount : MountState κ} {log : List Log.Line}
    {tag parent : Tag} (frame : Frame κ) (hframing : tree.Framing tag parent []) :
    ∃ operations, Conveys ⟨tree, mount, log⟩ operations
      ⟨tree, mount.frameSent tag parent frame, log⟩ := by
  unfold MountState.frameSent
  split
  -- the frame last sent
  · exact ⟨[], neutral (List.append_nil _).symm nofun (.refl _) (fun _ => rfl) fun _ => rfl⟩
  · have hremember := fun x =>
      MountState.sent_remember mount tag x { mount.sent tag with frame := some frame }
    refine ⟨[.setFrame tag parent frame], rfl, .refl _, id, nofun, .inl, fun hmem => ?_,
      fun {x other} hother => ?_⟩
    · cases List.mem_singleton.mp hmem
      refine ⟨rfl, hframing, ?_⟩
      exact congrArg SentState.frame ((hremember tag).trans (if_pos rfl))
    -- only the memory of this view is written
    · by_cases heq : tag = x
      · exact .inl ⟨parent, frame, heq ▸ List.mem_singleton_self _⟩
      · have hkept := congrArg SentState.frame ((hremember x).trans (if_neg heq))
        exact .inr ⟨List.not_mem_nil, hkept.symm.trans hother⟩

end Conveys

/-! ## What every touch keeps

A frame that is sent is the last one for its view and names its native parent. A view that is made
may come between a view and its native parent, and is then among the later creates. -/

/-- A frame that is remembered for a view is the last one sent for it, unless the view is that of a
root. -/
def Scene.Framed (scene : Scene κ) (executed : List (Operation κ)) : Prop :=
  ∀ tag frame, scene.tree.createdAt tag = true → tag ∉ scene.tree.roots →
    (scene.mount.sent tag).frame = some frame →
      scene.tree.Framed (executed ++ scene.mount.queue) tag frame

/-- A touch keeps every remembered frame the last one sent. -/
theorem Conveys.framed {scene done : Scene κ} {operations executed : List (Operation κ)}
    (h : Conveys scene operations done) (hframed : scene.Framed executed) :
    done.Framed executed := by
  intro tag frame hview hroot hremembered
  rw [h.queue, ← List.append_assoc]
  -- either the frame was just sent, or it was remembered before and nothing is sent for it
  by_cases hsends : ∃ parent other, .setFrame tag parent other ∈ operations
  · obtain ⟨parent, other, hmem⟩ := hsends
    obtain ⟨rfl, hframing, hsent⟩ := h.sent hmem
    obtain rfl : other = frame := Option.some.inj (hsent.symm.trans hremembered)
    exact ⟨executed ++ scene.mount.queue, parent, [], rfl, hframing⟩
  · obtain ⟨hold, hremembered⟩ := (h.kept hremembered).resolve_left hsends
    -- the view was there: a new one has no frame in its memory
    have hbefore := (h.made hview).resolve_right hold
    obtain ⟨earlier, named, later, heq, hframing⟩ :=
      hframed tag frame hbefore (h.links.roots ▸ hroot) hremembered
    refine ⟨earlier, named, later ++ operations, by rw [heq]; simp, ?_⟩
    refine hframing.transport (fun _ => h.links.ancestor_iff) (h.mono hframing.view) ?_
      (fun hmade => ?_) fun _ => h.made
    · exact Operation.filterMap_frameFor?_eq_nil.mpr fun parent other hmem =>
        hsends ⟨parent, other, hmem⟩
    -- the named view is not created again, as it is there
    · have hnone := h.fresh named hmade
      rw [hframing.view] at hnone
      cases hnone

/-- A mount state sends a neutral operation or has no need to. -/
theorem Scene.Framed.posted {scene done : Scene κ} {operation : Operation κ}
    {executed : List (Operation κ)} (h : scene.Framed executed)
    (hposts : scene.mount.Posts operation done.mount) (hneutral : operation.Neutral)
    (hlinks : scene.tree.SameLinks done.tree)
    (hviews : ∀ x, done.tree.createdAt x = scene.tree.createdAt x)
    (hsent : ∀ x, (done.mount.sent x).frame = (scene.mount.sent x).frame) :
    done.Framed executed := by
  rcases hposts with ⟨hqueue, -⟩ | ⟨hqueue, -⟩
  -- nothing is sent
  · have hqueue := hqueue.trans (List.append_nil _).symm
    exact (Conveys.neutral hqueue nofun hlinks hviews hsent).framed h
  · have hsingle := List.forall_mem_singleton.mpr hneutral
    exact (Conveys.neutral hqueue hsingle hlinks hviews hsent).framed h

section Touches

variable [Coordinate κ] {scene done : Scene κ} {executed : List (Operation κ)}

/-- A step of a reconciliation keeps it. -/
theorem Mount.Step.framed (h : Mount.Step scene done) (hsound : scene.tree.Sound)
    (hanchored : scene.tree.Anchored) (hframed : scene.Framed executed) :
    done.Framed executed := by
  cases h with
  | create hget _ hcreated =>
    exact (Conveys.create hget ((Tree.createdAt_of_get? hget).trans hcreated)).framed hframed
  | frame frame hcreated hparent =>
    -- a view that exists has its native parent's view above it, so the frame names a view
    obtain ⟨operations, hconveys⟩ := Conveys.frame frame
      (.of_nativeParent hsound hparent (hanchored.nativeParent hcreated hparent))
    exact hconveys.framed hframed
  | @children tree mount log tag children =>
    exact hframed.posted (mount.posts_childrenSent tag children) ⟨rfl, rfl⟩ (.refl _)
      (fun _ => rfl) fun x => mount.sent_childrenSent_frame tag x children
  | note => exact hframed

/-- A step of an escalation keeps it. -/
theorem Mount.Rise.framed (h : Mount.Rise scene done) (hsound : scene.tree.Sound)
    (hanchored : scene.tree.Anchored) (hframed : scene.Framed executed) :
    done.Framed executed := by
  cases h with
  | step h => exact h.framed hsound hanchored hframed
  | @promote tree mount log tag parent node hget =>
    have hconveys : Conveys ⟨tree, mount, log⟩ [] ⟨tree.store tag node.promote, mount, log⟩ :=
      .neutral (List.append_nil _).symm nofun (Tree.sameLinks_promote hget)
        (Tree.createdAt_promote hget) fun _ => rfl
    exact hconveys.framed hframed
  | @insert tree mount log tag parent node children hget hpromotable hcreated =>
    -- the child list of the native parent goes out first, then the create
    have hviews := Tree.createdAt_promote hget
    have hlisted : Scene.Framed
        ⟨tree.store tag node.promote, mount.childrenSent parent children, log⟩ executed :=
      hframed.posted (mount.posts_childrenSent parent children) ⟨rfl, rfl⟩
        (Tree.sameLinks_promote hget) hviews
        fun x => mount.sent_childrenSent_frame parent x children
    have hnone : (tree.store tag node.promote).createdAt tag = false :=
      (hviews tag).trans ((Tree.createdAt_of_get? hget).trans hcreated)
    exact (Conveys.create (Tree.get?_store_self ..) hnone).framed hlisted

/-- A touch keeps it. -/
theorem Touch.framed (h : Touch scene done) (hsound : scene.tree.Sound)
    (hanchored : scene.tree.Anchored) (hframed : scene.Framed executed) :
    done.Framed executed := by
  cases h with
  | rise h => exact h.framed hsound hanchored hframed
  | @post tree mount log operation h hframe =>
    -- what is posted is neither a create nor a frame
    have hconveys : Conveys ⟨tree, mount, log⟩ [operation]
        ⟨tree, mount.enqueue operation, log⟩ := by
      refine .neutral rfl (List.forall_mem_singleton.mpr ⟨?_, hframe⟩) (.refl _) (fun _ => rfl)
        fun _ => rfl
      cases operation with
      | create => cases h
      | _ => rfl
    exact hconveys.framed hframed
  | @props tree mount log tag viewClass delta =>
    -- a change of properties leaves frames in memory alone
    obtain ⟨changed, hposts⟩ := mount.posts_propsSent tag viewClass delta
    refine hframed.posted hposts ⟨rfl, rfl⟩ (.refl _) (fun _ => rfl) fun x => ?_
    obtain ⟨props, hsent⟩ := mount.sent_propsSent tag x viewClass delta
    show ((mount.propsSent tag viewClass delta).sent x).frame = _
    rw [hsent]
  | @data tree mount log tag node hget frame props =>
    have hconveys : Conveys ⟨tree, mount, log⟩ []
        ⟨tree.store tag { node with frame, props }, mount, log⟩ :=
      .neutral (List.append_nil _).symm nofun (Tree.sameLinks_store hget rfl rfl rfl)
        (fun x => (Tree.flags_update hget frame props x).1) fun _ => rfl
    exact hconveys.framed hframed

/-- Touches keep it, one after the other. -/
theorem Touches.framed (h : Touches scene done) (hsound : scene.tree.Sound)
    (hanchored : scene.tree.Anchored) (hframed : scene.Framed executed) :
    done.Framed executed := by
  induction h with
  | refl => exact hframed
  | tail htouches htouch ih =>
    exact htouch.framed (Touches.sound htouches hsound) (Touches.anchored htouches hanchored) ih

end Touches

/-! ## What every command keeps

A node that is registered has nothing below it, and removal takes whole subtrees away, so neither
comes between a view and the one that its frame names. -/

section Effects

variable {scene done : Scene κ} {executed : List (Operation κ)}

/-- A new node is neither above a view nor has a frame that is remembered. -/
theorem Scene.Framed.registered {tree after : Tree κ} {mount sent : MountState κ}
    {log log' : List Log.Line} {new : Tag} (h : Scene.Framed ⟨tree, mount, log⟩ executed)
    (hwf : tree.WellFormed) (hregistered : tree.Registered new after)
    (hroots : ∀ tag ∈ tree.roots, tag ∈ after.roots)
    (hnew : after.createdAt new = true → new ∈ after.roots) (hqueue : sent.queue = mount.queue)
    (hsent : ∀ tag, new ≠ tag → sent.sent tag = mount.sent tag) :
    Scene.Framed ⟨after, sent, log'⟩ executed := by
  intro tag frame hview hroot hremembered
  -- a new node has a view only as a root, and nothing is said of roots
  have hne : new ≠ tag := by
    rintro rfl
    exact hroot (hnew hview)
  dsimp only at hview hroot hremembered ⊢
  rw [hregistered.created hne] at hview
  rw [hsent tag hne] at hremembered
  rw [hqueue]
  -- what is above a registered node is registered, hence not the new node
  have hcontains : ∀ {x}, tree.InSubtree x tag → tree.contains x = true := by
    rintro x (rfl | habove)
    · exact Tree.contains_of_createdAt hview
    · exact hwf.contains_ancestor habove
  have hbefore := h tag frame hview (fun hmem => hroot (hroots tag hmem)) hremembered
  refine hbefore.congr (fun _ => ?_) fun hx =>
    hregistered.created (hregistered.ne_of_contains (hcontains hx))
  exact ⟨fun ha => ha.transport fun x _ => (hregistered.parent x).symm, hregistered.ancestor⟩

/-- What is above a node that stays is left as it was. -/
theorem Scene.Framed.trimmed {tree after : Tree κ} {mount : MountState κ} {log log' : List Log.Line}
    {gone : List Tag} (h : Scene.Framed ⟨tree, mount, log⟩ executed) (hwf : tree.WellFormed)
    (hanchored : tree.Anchored) (htrimmed : tree.Trimmed gone after) :
    Scene.Framed ⟨after, mount.scheduledAll tree.isRoot (gone.filter tree.createdAt), log'⟩
      executed := by
  intro tag frame hview hroot hremembered
  obtain ⟨hstays, hview⟩ := htrimmed.createdAt_iff.mp hview
  have hundropped : tag ∉ gone.filter tree.createdAt :=
    fun hmem => hstays (List.mem_filter.mp hmem).1
  have hattached := hanchored.attached hview
  -- what is above a node that stays stays
  have hkept : ∀ {x}, tree.InSubtree x tag → x ∉ gone := by
    rintro x (rfl | habove)
    · exact hstays
    · exact htrimmed.ancestor_kept hstays habove
  have hplaced : ∀ {x}, tree.InSubtree x tag → tree.Attached x := by
    rintro x (rfl | habove)
    · exact hattached
    · exact hattached.ancestor hwf habove
  dsimp only at hroot hremembered ⊢
  rw [MountState.sent_scheduledAll _ _ hundropped] at hremembered
  rw [MountState.queue_scheduledAll]
  have hbefore :=
    h tag frame hview (fun hmem => hroot ((htrimmed.roots tag).mpr ⟨hmem, hstays⟩)) hremembered
  -- pruning takes out operations on dropped views alone
  refine (hbefore.congr (fun hx => ?_) fun hx => htrimmed.created (hkept hx)).filter ?_ ?_
  · exact ⟨htrimmed.ancestor_before hwf (hplaced hx) (hkept hx),
      htrimmed.ancestor hwf (hplaced hx) (hkept hx)⟩
  · exact fun operation => Operation.survives_of_created? _
  · intro operation hframes
    refine Operation.survives_of_target? (Operation.target?_of_frameFor? hframes) ?_
    rw [Bool.eq_false_iff.mpr fun hmem => hundropped (List.contains_iff_mem.mp hmem),
      Bool.and_false]

variable [Coordinate κ]

/-- The effect of a command keeps it. -/
theorem Effect.framed {managers : Managers} {registration : Registration} {removals : List Tag}
    (h : Effect managers registration removals scene done) (hsound : scene.tree.Sound)
    (hanchored : scene.tree.Anchored) (hframed : scene.Framed executed) :
    done.Framed executed := by
  cases h with
  | @addRoot tree mount log tag viewClass width height hfree sent hsent log' =>
    refine hframed.registered hsound.wellFormed (Tree.registered_withRootNode hfree)
      (fun r hr => Tree.mem_withRoot.mpr (.inl hr)) (fun _ => Tree.mem_withRoot.mpr (.inr rfl)) rfl
      fun other hne => ?_
    rw [MountState.sent_remember, if_neg hne]
  | create hfresh hcreated hfree =>
    refine hframed.registered hsound.wellFormed (Tree.registered_store hfresh hfree)
      (fun r hr => hr) (fun hview => ?_) rfl fun _ _ => rfl
    rw [Tree.createdAt_store, if_pos rfl, hcreated] at hview
    cases hview
  | trim htrimmed => exact hframed.trimmed hsound.wellFormed hanchored htrimmed
  | active h => exact Touches.framed h.touches hsound hanchored hframed

end Effects

/-! ## Requests

What waits becomes what was executed when a pass flushes; the drops at the end set no frame and
create nothing. -/

/-- Drops are neutral. -/
theorem PendingDrop.neutral_operations (drops : List PendingDrop) :
    ∀ operation ∈ drops.map (PendingDrop.operation : PendingDrop → Operation κ),
      operation.Neutral := by
  intro operation hmem
  obtain ⟨⟨tag, isRoot⟩, -, rfl⟩ := List.mem_map.mp hmem
  cases isRoot <;> exact ⟨rfl, rfl⟩

/-- A flush hands over what was sent, and drops at the end. -/
theorem Scene.Framed.flushed {scene : Scene κ} {native : Hierarchy κ}
    (h : scene.Framed native.executed) (log : List Log.Line) :
    Scene.Framed ⟨scene.tree, scene.mount.closePass.2, log⟩
      (scene.mount.closePass.1.deliveries.foldl .receive native).executed := by
  intro tag frame hview hroot hremembered
  rw [Hierarchy.executed_deliveries]
  show scene.tree.Framed ((native.executed ++ (scene.mount.queue ++ _)) ++ []) tag frame
  rw [List.append_nil, ← List.append_assoc]
  exact (h tag frame hview hroot hremembered).append
    (PendingDrop.neutral_operations scene.mount.drops)

namespace Ui

variable [Coordinate κ] {ui : Ui κ} {request : Request κ} {requests : List (Request κ)}
  {native : Hierarchy κ} {platform : List Tag} {managers : Managers} {config : Config}

/-- Serving a request keeps it, with what is executed meanwhile. -/
theorem framed_serve (hsound : ui.scene.Sound) (hanchored : ui.scene.tree.Anchored)
    (hframes : request.FramesOnly) (h : ui.scene.Framed native.executed) :
    (ui.serve request).2.scene.Framed
      ((ui.serve request).1.deliveries.foldl .receive native).executed := by
  rw [Answer.deliveries]
  -- touches, the effect of a command, or a pass
  rcases serve_cases hsound hframes with ⟨hnone, -, htouches⟩ | ⟨hnone, removals, heffect⟩ |
    ⟨refreshed, log, htouches, -, hflush, -, hscene⟩
  · rw [hnone]
    exact Touches.framed htouches hsound.tree hanchored h
  · rw [hnone]
    exact heffect.framed hsound.tree hanchored h
  · rw [hflush, hscene]
    have hopened : ui.scene.opened.Framed native.executed := h
    exact (Touches.framed htouches hsound.tree hanchored hopened).flushed log

/-- At every moment, every frame remembered is the last one sent. The induction is on the requests,
from the last one back. -/
theorem framed_after (hframes : ∀ request ∈ requests, request.FramesOnly) :
    ((Ui.new managers config).after requests).scene.Framed
      ((Hierarchy.withRoots platform).follow
        ((Ui.new managers config : Ui κ).answers requests)).executed := by
  induction requests using List.reverseRecOn with
  | nil =>
    -- at the start there are no views
    intro tag frame hview
    cases hview
  | append_singleton requests request ih =>
    obtain ⟨hearlier, hlast⟩ := List.forall_mem_append.mp hframes
    have hreachable : ((Ui.new managers config : Ui κ).after requests).Reachable :=
      reachable_after hearlier
    rw [after_concat, answers_concat, Hierarchy.follow_concat]
    exact framed_serve hreachable.sound hreachable.anchored
      (hlast request (List.mem_singleton_self request)) (ih hearlier)

end Ui

end ShadowMount
