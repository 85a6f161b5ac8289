import ShadowMount.Proofs.Native.Replay
import ShadowMount.Proofs.Ui.Anchors

/-!
# The native side in step with a scene

What the native side would look like if the queue were executed now, with the operations of any
tags left out: it has the views that exist or wait for their drop, its child lists are those last
sent, and wherever a view still lists another one in spite of a missing operation, the two are
dropped in the right order.

* **`Ledger`** — which tags are roots, on both sides.
* **`Shown`** — a hierarchy against a tree and a mount state.
* **`Mirror`** — the invariant: every replay of the queue is shown.
* **`Mirror.steady`**, **`Mirror.create`**, **`Mirror.childrenSent`**, **`Mirror.trim`** — the ways
  in which commands keep it.
-/

namespace ShadowMount.Native

open Hierarchy

variable {κ : Type}

/-- Which tags are roots. The roots of the platform are registered once each, those of `past` so
far, and no other node takes one of their tags. -/
structure Ledger (platform past roots : List Tag) (tree : Tree κ) (drops : List PendingDrop) :
    Prop where
  /-- The roots not registered so far still have the views the platform made for them. -/
  pending : ∀ {t}, t ∈ platform → t ∉ past → t ∈ roots
  within : ∀ {t}, t ∈ roots → t ∈ platform
  /-- A registered root is one of the platform's. -/
  root : ∀ {r}, r ∈ tree.roots → r ∈ past ∧ r ∈ roots
  /-- A node that is no root has not taken a root's tag. -/
  node : ∀ {t}, tree.contains t = true → t ∉ tree.roots → t ∉ platform
  /-- A waiting drop is that of a root exactly if its tag is one of the platform's. -/
  drop : ∀ d ∈ drops, if d.isRoot then d.tag ∈ past ∧ d.tag ∈ roots else d.tag ∉ platform

/-- What a hierarchy shows of a scene when the operations addressed to `skip` were left out. The
views are those of nodes, those that wait for their drop and those of roots to come. -/
structure Shown (platform past : List Tag) (tree : Tree κ) (mount : MountState κ)
    (skip : Tag → Bool) (shown : Hierarchy κ) : Prop where
  /-- The two directions of the links agree. -/
  linked : shown.Linked
  views : ∀ t, shown.hasView t = true ↔
    tree.createdAt t = true ∨ t ∈ mount.dropTags ∨ t ∈ platform ∧ t ∉ past
  /-- A view shows the child list last sent to it, if it was not among those skipped. -/
  children : ∀ {p}, tree.createdAt p = true → skip p = false →
    shown.childrenOf p = (mount.sent p).children
  /-- A listed view is below, or is dropped before the view that lists it. -/
  links : ∀ {c p}, c ∈ shown.childrenOf p →
    tree.createdAt p = true ∧
      (tree.createdAt c = true ∧ tree.Ancestor p c ∨ c ∈ mount.dropTags) ∨
    [c, p].Sublist mount.dropTags

/-- The native side is in step with a scene. -/
structure Mirror (platform past : List Tag) (scene : Scene κ) (h : Hierarchy κ) : Prop where
  /-- The native side has had nothing to complain about. -/
  consistent : h.violations = []
  /-- No view has been dropped while its parent stayed. -/
  settled : h.droppedAttached = []
  ledger : Ledger platform past h.roots scene.tree scene.mount.drops
  /-- A node whose tag waits for its drop has no view yet. -/
  gone : ∀ {t}, t ∈ scene.mount.dropTags → scene.tree.createdAt t = false
  /-- Nothing waits for two drops. -/
  nodup : scene.mount.dropTags.Nodup
  /-- What was sent as a child is one, or is about to be dropped. -/
  listed : ∀ {p c}, scene.tree.createdAt p = true → c ∈ (scene.mount.sent p).children →
    scene.tree.createdAt c = true ∧ scene.tree.NativeParent c p ∨ c ∈ scene.mount.dropTags
  /-- Executing the queue adds no complaint, whichever tags are skipped. -/
  record : ∀ skip, SameRecord h (h.replay skip scene.mount.queue)
  /-- And it leaves the native side as the scene has it. -/
  shown : ∀ skip, Shown platform past scene.tree scene.mount skip
    (h.replay skip scene.mount.queue)

/-! ## The roots of the platform -/

/-- The hierarchy of the platform has the views of its roots. -/
theorem view?_withRoots (roots : List Tag) (t : Tag) : (withRoots roots : Hierarchy κ).view? t =
    if t ∈ roots then some { viewClass := "Root" } else none := by
  have hfold : ∀ (roots : List Tag) (views : Std.ExtTreeMap Tag (View κ)),
      (roots.foldl (fun views root => views.insert root { viewClass := "Root" }) views)[t]? =
        if t ∈ roots then some ({ viewClass := "Root" } : View κ) else views[t]? := by
    intro roots
    induction roots with
    | nil => simp
    | cons root rest ih =>
      intro views
      rw [List.foldl_cons, ih, Std.ExtTreeMap.getElem?_insert]
      by_cases hroot : t = root
      · subst hroot
        simp
      · simp [hroot, Ne.symm hroot]
  exact (hfold roots ∅).trans (by simp)

/-- In the beginning there are the root views and nothing else. -/
theorem Mirror.start (platform : List Tag) (config : Config) (log : List Log.Line) :
    Mirror platform [] (⟨.empty, { config }, log⟩ : Scene κ) (withRoots platform) := by
  have hview := @view?_withRoots κ platform
  have hchildren : ∀ t, (withRoots platform : Hierarchy κ).childrenOf t = [] := by
    intro t
    rw [childrenOf, hview]
    split <;> rfl
  have hparent : ∀ t, (withRoots platform : Hierarchy κ).parentOf? t = none := by
    intro t
    rw [parentOf?, hview]
    split <;> rfl
  have hempty : ∀ t, (Tree.empty : Tree κ).get? t = none := fun t => by
    simp [Tree.get?, Tree.empty]
  -- every clause about a node or about a drop is empty, since there is neither
  refine ⟨rfl, rfl, ⟨fun h _ => h, id, fun h => absurd h List.not_mem_nil, fun {t} h => ?_,
    fun _ h => absurd h List.not_mem_nil⟩, fun h => absurd h List.not_mem_nil, .nil,
    fun {p c} h => ?_, fun skip => .refl _, fun skip => ?_⟩
  · rw [Tree.contains, hempty] at h
    cases h
  · rw [Tree.createdAt, hempty] at h
    cases h
  -- what remains are the views of the roots, which have neither parents nor children
  · refine ⟨fun c p => ?_, fun t => ?_, fun {p} h => ?_, fun {c p} h => ?_⟩
    · show (withRoots platform).parentOf? c = some p ↔ c ∈ (withRoots platform).childrenOf p
      rw [hparent, hchildren]
      simp
    · show ((withRoots platform).view? t).isSome = true ↔ _
      rw [hview, Tree.createdAt, hempty]
      by_cases ht : t ∈ platform <;> simp [ht, MountState.dropTags]
    · rw [Tree.createdAt, hempty] at h
      cases h
    · have h : c ∈ (withRoots platform).childrenOf p := h
      rw [hchildren] at h
      cases h

/-! ## Steps that keep links and views -/

section Steady

variable {platform past : List Tag} {tree after : Tree κ} {mount sent : MountState κ}
  {log log' : List Log.Line} {h shown done : Hierarchy κ}

/-- A hierarchy of the same shape shows the same, also of a tree with the same views. -/
theorem Shown.congr {skip : Tag → Bool} (hshown : Shown platform past tree mount skip shown)
    (hshape : SameShape shown done) (hanc : ∀ {a c}, tree.Ancestor a c → after.Ancestor a c)
    (hcreated : ∀ t, after.createdAt t = tree.createdAt t) (hdrops : sent.drops = mount.drops)
    (hsent : ∀ t, (sent.sent t).children = (mount.sent t).children) :
    Shown platform past after sent skip done := by
  have htags : sent.dropTags = mount.dropTags := congrArg (List.map PendingDrop.tag) hdrops
  refine ⟨hshape.linked hshown.linked, fun t => ?_, fun {p} hp hskip => ?_, fun {c p} hc => ?_⟩
  · rw [hshape.hasView, hcreated, htags]
    exact hshown.views t
  · rw [hcreated] at hp
    rw [hshape.children, hsent]
    exact hshown.children hp hskip
  · rw [hshape.children] at hc
    rw [hcreated, hcreated, htags]
    refine (hshown.links hc).imp_left fun hbelow => ⟨hbelow.1, hbelow.2.imp_left fun hview => ?_⟩
    exact ⟨hview.1, hanc hview.2⟩

/-- At most one operation is enqueued that changes no link. -/
def Posted (viewed : Tag → Prop) (queue queue' : OperationQueue κ) : Prop :=
  queue' = queue ∨ ∃ operation : Operation κ,
    operation.Harmless viewed ∧ queue' = queue.enqueue operation

/-- Whether or not the operation is left out, a replay keeps its shape. -/
theorem Mirror.replay_posted (hmirror : Mirror platform past ⟨tree, mount, log⟩ h)
    {queue : OperationQueue κ} (hposted : Posted (tree.createdAt · = true) mount.queue queue)
    (skip : Tag → Bool) : SameShape (h.replay skip mount.queue) (h.replay skip queue) := by
  rcases hposted with rfl | ⟨operation, hharmless, rfl⟩
  · exact .refl _
  · rw [replay_enqueue]
    split
    · refine execute_harmless (hharmless.mono fun t ht => ?_)
      exact ((hmirror.shown skip).views t).mpr (.inl ht)
    · exact .refl _

/-- The ledger is a matter of tags and roots, and so of links. -/
theorem Ledger.congr {roots : List Tag} {drops : List PendingDrop}
    (hledger : Ledger platform past roots tree drops) (hlinks : tree.SameLinks after) :
    Ledger platform past roots after drops where
  pending := hledger.pending
  within := hledger.within
  root := fun hr => hledger.root (hlinks.roots ▸ hr)
  node := fun {t} ht hnot => by
    rw [hlinks.contains] at ht
    rw [hlinks.roots] at hnot
    exact hledger.node ht hnot
  drop := hledger.drop

/-- Nothing is created or dropped, no child list is sent, and the views that were listed have the
native parents they had. -/
theorem Mirror.steady (hmirror : Mirror platform past ⟨tree, mount, log⟩ h)
    (hlinks : tree.SameLinks after) (hcreated : ∀ t, after.createdAt t = tree.createdAt t)
    (hdrops : sent.drops = mount.drops)
    (hsent : ∀ t, (sent.sent t).children = (mount.sent t).children)
    (hposted : Posted (tree.createdAt · = true) mount.queue sent.queue)
    (hnative : ∀ {p c}, c ∈ (mount.sent p).children → tree.createdAt c = true →
      tree.NativeParent c p → after.NativeParent c p) :
    Mirror platform past ⟨after, sent, log'⟩ h := by
  -- the drops are the same, and executing the queue shows the same shape as before
  have htags : sent.dropTags = mount.dropTags := congrArg (List.map PendingDrop.tag) hdrops
  have hshape := hmirror.replay_posted hposted
  refine ⟨hmirror.consistent, hmirror.settled, ?_, fun {t} ht => ?_, ?_, fun {p c} hp hc => ?_,
    fun skip => (hmirror.record skip).trans (hshape skip).record,
    fun skip => (hmirror.shown skip).congr (hshape skip) hlinks.ancestor hcreated hdrops hsent⟩
  · show Ledger platform past h.roots after sent.drops
    rw [hdrops]
    exact hmirror.ledger.congr hlinks
  · show after.createdAt t = false
    rw [hcreated]
    exact hmirror.gone (htags ▸ ht)
  · show sent.dropTags.Nodup
    rw [htags]
    exact hmirror.nodup
  -- what was listed has its view still, in the same native parent
  · have hp : tree.createdAt p = true := hcreated p ▸ hp
    have hc : c ∈ (mount.sent p).children := hsent p ▸ hc
    show after.createdAt c = true ∧ after.NativeParent c p ∨ c ∈ sent.dropTags
    rw [hcreated, htags]
    exact (hmirror.listed hp hc).imp_left fun hlisted => ⟨hlisted.1, hnative hc hlisted.1 hlisted.2⟩

end Steady

/-! ## New views -/

section Growth

variable {platform past : List Tag} {tree : Tree κ} {mount : MountState κ} {log : List Log.Line}
  {h shown : Hierarchy κ}

/-- What has no view lists nothing. -/
theorem childrenOf_of_hasView_eq_false {t : Tag} (hnone : h.hasView t = false) :
    h.childrenOf t = [] := by
  refine List.eq_nil_iff_forall_not_mem.mpr fun c hc => ?_
  rw [hasView_of_childrenOf hc] at hnone
  cases hnone

/-- A registered node without a view has none on the native side either, unless its tag waits for
its drop. -/
theorem Mirror.no_view (hmirror : Mirror platform past ⟨tree, mount, log⟩ h)
    (hflags : tree.FlagsSound) {t : Tag} (ht : tree.contains t = true)
    (hcreated : tree.createdAt t = false) (hdropped : t ∉ mount.dropTags) (skip : Tag → Bool) :
    (h.replay skip mount.queue).hasView t = false := by
  refine Bool.eq_false_iff.mpr fun hview => ?_
  rcases ((hmirror.shown skip).views t).mp hview with hc | hdrop | ⟨hplatform, -⟩
  · rw [hcreated] at hc
    cases hc
  · exact hdropped hdrop
  · -- a registered root has its view, and no other node has a tag of the platform
    by_cases hroot : t ∈ tree.roots
    · rw [hflags.root_created hroot] at hcreated
      cases hcreated
    · exact hmirror.ledger.node ht hroot hplatform

/-- The creation of a view that a hierarchy does not have yet. -/
theorem Shown.create {skip : Tag → Bool} {created : Hierarchy κ}
    (hshown : Shown platform past tree mount skip shown) {tag : Tag} {node : Node κ}
    (hget : tree.get? tag = some node) (hmounts : node.mounts = true)
    (hnone : shown.hasView tag = false) (hcreate : shown.Created tag created) :
    Shown platform past (tree.store tag { node with created := true }) (mount.createSent tag node)
      skip created := by
  have hgrown := Tree.grown_store hget hmounts
  refine ⟨hcreate.linked hshown.linked, fun t => ?_, fun {p} hp hskip => ?_, fun {c p} hc => ?_⟩
  -- the views are those of before and the new one
  · show created.hasView t = true ↔ _ ∨ t ∈ mount.dropTags ∨ t ∈ platform ∧ t ∉ past
    rw [hcreate.hasView, Tree.createdAt_store, Bool.or_eq_true, hshown.views, beq_iff_eq]
    by_cases ht : tag = t
    · rw [if_pos ht]
      exact ⟨fun _ => .inl rfl, fun _ => .inr ht.symm⟩
    · rw [if_neg ht]
      exact or_iff_left (Ne.symm ht)
  -- the child lists are those of before, and that of the new view is empty on both sides
  · rw [hcreate.children, MountState.sent_createSent]
    split
    · next heq =>
      -- a new view has no children
      rw [← heq, childrenOf_of_hasView_eq_false hnone]
    · next hne =>
      rw [Tree.createdAt_store, if_neg hne] at hp
      exact hshown.children hp hskip
  -- a listed view is listed as before, by a view that is still there
  · rw [hcreate.children] at hc
    rcases hshown.links hc with ⟨hp, hcase⟩ | hdropped
    · refine .inl ⟨hgrown.mono hp, hcase.imp_left fun hbelow => ?_⟩
      exact ⟨hgrown.mono hbelow.1, hgrown.sameLinks.ancestor hbelow.2⟩
    · exact .inr hdropped

/-- Creating the view of a node that has none and whose tag does not wait for its drop keeps the
native side in step. -/
theorem Mirror.create (hmirror : Mirror platform past ⟨tree, mount, log⟩ h)
    (hflags : tree.FlagsSound) {tag : Tag} {node : Node κ} (hget : tree.get? tag = some node)
    (hmounts : node.mounts = true) (hcreated : node.created = false)
    (hdropped : tag ∉ mount.dropTags) :
    Mirror platform past
      ⟨tree.store tag { node with created := true }, mount.createSent tag node, log⟩ h := by
  have hgrown := Tree.grown_store hget hmounts
  have hlinks := hgrown.sameLinks
  have hnone := hmirror.no_view hflags (Tree.contains_of_get? hget)
    ((Tree.createdAt_of_get? hget).trans hcreated) hdropped
  -- no replay leaves the new operation out, whichever child lists it skips
  have hcreate : ∀ skip, (h.replay skip mount.queue).Created tag
      (h.replay skip (mount.createSent tag node).queue) := by
    intro skip
    have hsurvives : Operation.survives skip
        (.create tag node.root node.viewClass node.props : Operation κ) = true := rfl
    show Created _ tag (h.replay skip (mount.queue.enqueue (.create tag _ _ _)))
    rw [replay_enqueue, if_pos hsurvives]
    exact execute_create _ _ _ (hnone skip)
  refine ⟨hmirror.consistent, hmirror.settled, hmirror.ledger.congr hlinks, fun {t} ht => ?_,
    hmirror.nodup, fun {p c} hp hc => ?_, fun skip => (hmirror.record skip).trans (hcreate skip).record,
    fun skip => (hmirror.shown skip).create hget hmounts (hnone skip) (hcreate skip)⟩
  -- no tag that waits for its drop is the new one
  · show (tree.store tag _).createdAt t = false
    have hne : tag ≠ t := fun heq => hdropped (heq ▸ ht)
    rw [Tree.createdAt_store, if_neg hne]
    exact hmirror.gone ht
  -- a list that was sent before names no other views than before
  · show (tree.store tag _).createdAt c = true ∧ _ ∨ c ∈ mount.dropTags
    have hc : c ∈ ((mount.createSent tag node).sent p).children := hc
    rw [MountState.sent_createSent] at hc
    split at hc
    · -- the new view has been sent no list yet
      cases hc
    · next hne =>
      have hp : (tree.store tag { node with created := true }).createdAt p = true := hp
      rw [Tree.createdAt_store, if_neg hne] at hp
      refine (hmirror.listed hp hc).imp_left fun hlisted => ?_
      exact ⟨hgrown.mono hlisted.1, hgrown.nativeParent hlisted.2⟩

end Growth

/-! ## Child lists -/

section Lists

variable {platform past : List Tag} {tree : Tree κ} {mount : MountState κ} {log : List Log.Line}
  {h shown done : Hierarchy κ}

/-- A child list is sent and executed. It takes no view from another list. -/
theorem Shown.relisted {skip : Tag → Bool} (hshown : Shown platform past tree mount skip shown)
    {p : Tag} {children : List Tag} (hp : tree.createdAt p = true)
    (hrelisted : shown.Relisted p children done)
    (hchildren : ∀ c ∈ children, tree.createdAt c = true ∧ tree.NativeParent c p)
    (hfree : ∀ {q c}, tree.createdAt q = true → q ≠ p → c ∈ (mount.sent q).children →
      c ∉ children) :
    Shown platform past tree (mount.childrenSent p children) skip done := by
  have htags := mount.dropTags_childrenSent p children
  -- links, views and lists are those of the native side after the update
  refine ⟨hrelisted.linked hshown.linked, fun t => ?_, fun {q} hq hskip => ?_, fun {c q} hc => ?_⟩
  · rw [hrelisted.hasView, htags]
    exact hshown.views t
  · rw [hrelisted.children, MountState.sent_childrenSent]
    by_cases hqp : q = p
    · rw [if_pos hqp, if_pos hqp.symm]
    · rw [if_neg hqp, if_neg (Ne.symm hqp), hshown.children hq hskip]
      -- the other lists lose nothing, because they name none of the views that move
      exact List.filter_eq_self.mpr fun c hc => decide_eq_true (hfree hq hqp hc)
  · rw [htags]
    rw [hrelisted.children] at hc
    split at hc
    · next heq =>
      -- what the new list names lies below its owner
      obtain ⟨hview, hnative⟩ := hchildren c hc
      exact .inl ⟨heq ▸ hp, .inl ⟨hview, heq ▸ hnative.ancestor⟩⟩
    · exact hshown.links (List.mem_filter.mp hc).1

/-- A child list is sent but left out. -/
theorem Shown.skipped {skip : Tag → Bool} (hshown : Shown platform past tree mount skip shown)
    {p : Tag} (children : List Tag) (hskip : skip p = true) :
    Shown platform past tree (mount.childrenSent p children) skip shown := by
  have htags := mount.dropTags_childrenSent p children
  refine ⟨hshown.linked, fun t => ?_, fun {q} hq hkeep => ?_, fun {c q} hc => ?_⟩
  · rw [htags]
    exact hshown.views t
  · have hne : p ≠ q := by
      rintro rfl
      rw [hskip] at hkeep
      cases hkeep
    rw [MountState.sent_childrenSent, if_neg hne]
    exact hshown.children hq hkeep
  · rw [htags]
    exact hshown.links hc

/-- A view that goes onto the list of its native parent is on no other list. -/
theorem Mirror.not_listed_elsewhere (hmirror : Mirror platform past ⟨tree, mount, log⟩ h)
    (hwf : tree.WellFormed) {p q c : Tag} (hc : tree.createdAt c = true)
    (hnative : tree.NativeParent c p) (hq : tree.createdAt q = true) (hne : q ≠ p) :
    c ∉ (mount.sent q).children := by
  intro hmem
  rcases hmirror.listed hq hmem with ⟨-, hother⟩ | hdrop
  · exact hne (hother.unique hwf hnative)
  · have hgone : tree.createdAt c = false := hmirror.gone hdrop
    rw [hc] at hgone
    cases hgone

/-- What a replay shows once a child list is enqueued. -/
theorem Mirror.replay_setChildren (hmirror : Mirror platform past ⟨tree, mount, log⟩ h)
    (hwf : tree.WellFormed) {p : Tag} {children : List Tag} (hp : tree.createdAt p = true)
    (hchildren : ∀ c ∈ children, tree.createdAt c = true ∧ tree.NativeParent c p)
    (skip : Tag → Bool) :
    SameRecord h (h.replay skip (mount.queue.enqueue (.setChildren p children))) ∧
      Shown platform past tree (mount.childrenSent p children) skip
        (h.replay skip (mount.queue.enqueue (.setChildren p children))) := by
  have hrecord := hmirror.record skip
  have hshown := hmirror.shown skip
  have hsurvives : Operation.survives skip (.setChildren p children : Operation κ) = !skip p := rfl
  rw [replay_enqueue, hsurvives]
  cases hskip : skip p with
  | true => exact ⟨hrecord, hshown.skipped children hskip⟩
  | false =>
    have hrelisted := execute_setChildren hshown.linked ((hshown.views p).mpr (.inl hp))
      fun c hc => (hshown.views c).mpr (.inl (hchildren c hc).1)
    refine ⟨hrecord.trans hrelisted.record, hshown.relisted hp hrelisted hchildren ?_⟩
    intro q c hq hne hlisted hc
    obtain ⟨hview, hnative⟩ := hchildren c hc
    exact hmirror.not_listed_elsewhere hwf hview hnative hq hne hlisted

/-- Sending a node the list of its native children keeps the native side in step. A list that was
sent before is not sent again. -/
theorem Mirror.childrenSent (hmirror : Mirror platform past ⟨tree, mount, log⟩ h)
    (hwf : tree.WellFormed) {p : Tag} {children : List Tag} (hp : tree.createdAt p = true)
    (hchildren : ∀ c ∈ children, tree.createdAt c = true ∧ tree.NativeParent c p) :
    Mirror platform past ⟨tree, mount.childrenSent p children, log⟩ h := by
  by_cases hsame : (mount.sent p).children = children
  · -- the list was sent before
    have hremember : mount.childrenSent p children = mount.remember p (mount.sent p) := if_pos hsame
    rw [hremember]
    refine hmirror.steady (.refl tree) (fun _ => rfl) rfl (fun t => ?_) (.inl rfl)
      fun _ _ hnative => hnative
    rw [MountState.sent_remember]
    split
    · next heq => rw [heq]
    · rfl
  have hqueue : (mount.childrenSent p children).queue =
      mount.queue.enqueue (.setChildren p children) := by
    rw [MountState.childrenSent, if_neg hsame]
    rfl
  have hreplay := hmirror.replay_setChildren hwf hp hchildren
  rw [← hqueue] at hreplay
  have hdrops : (mount.childrenSent p children).drops = mount.drops :=
    congrArg (·.2.1) (mount.fixtures_childrenSent p children)
  have htags := mount.dropTags_childrenSent p children
  -- nothing but the child list of `p` differs, in what was sent and in what is shown
  refine ⟨hmirror.consistent, hmirror.settled, ?_, fun {t} ht => ?_, ?_, fun {q c} hq hc => ?_,
    fun skip => (hreplay skip).1, fun skip => (hreplay skip).2⟩
  · show Ledger platform past h.roots tree (mount.childrenSent p children).drops
    rw [hdrops]
    exact hmirror.ledger
  · exact hmirror.gone (htags ▸ ht)
  · show (mount.childrenSent p children).dropTags.Nodup
    rw [htags]
    exact hmirror.nodup
  · show _ ∨ c ∈ (mount.childrenSent p children).dropTags
    have hc : c ∈ ((mount.childrenSent p children).sent q).children := hc
    rw [htags]
    rw [MountState.sent_childrenSent] at hc
    split at hc
    -- what was just sent to `p` are views of which `p` is the native parent
    · next heq => exact .inl (heq ▸ hchildren c hc)
    · exact hmirror.listed hq hc

end Lists

/-! ## New nodes -/

section Registered

variable {platform past : List Tag} {tree after : Tree κ} {mount : MountState κ}
  {log log' : List Log.Line} {h shown : Hierarchy κ} {tag : Tag}

/-- A new node that is no root is not seen on the native side yet. -/
theorem Mirror.register (hmirror : Mirror platform past ⟨tree, mount, log⟩ h)
    (hwf : tree.WellFormed) {node : Node κ} (hfresh : node.IsFresh) (hcreated : node.created = false)
    (hfree : tree.contains node.tag = false) (hplatform : node.tag ∉ platform) :
    Mirror platform past ⟨tree.store node.tag node, mount, log'⟩ h := by
  have hregistered := Tree.registered_store hfresh hfree
  have hviews : ∀ t, (tree.store node.tag node).createdAt t = tree.createdAt t := by
    intro t
    by_cases heq : node.tag = t
    · rw [Tree.createdAt_store, if_pos heq, hcreated, ← heq, Tree.createdAt,
        Tree.get?_of_free hfree, Option.any_none]
    · exact hregistered.created heq
  refine ⟨hmirror.consistent, hmirror.settled, ⟨hmirror.ledger.pending, hmirror.ledger.within,
    hmirror.ledger.root, fun {t} ht hnot => ?_, hmirror.ledger.drop⟩,
    fun {t} ht => (hviews t).trans (hmirror.gone ht), hmirror.nodup, fun {p c} hp hc => ?_,
    hmirror.record, fun skip => (hmirror.shown skip).congr (.refl _) hregistered.ancestor hviews rfl
      fun _ => rfl⟩
  -- the new node has not taken a root's tag
  · have ht : (tree.store node.tag node).contains t = true := ht
    rw [hregistered.contains, Bool.or_eq_true, decide_eq_true_eq] at ht
    rcases ht with rfl | ht
    · exact hplatform
    · exact hmirror.ledger.node ht hnot
  -- what was listed lies where it did, as the new node has no links
  · have hp : tree.createdAt p = true := hviews p ▸ hp
    show (tree.store node.tag node).createdAt c = true ∧ _ ∨ _
    rw [hviews]
    refine (hmirror.listed hp hc).imp_left fun hlisted => ?_
    exact ⟨hlisted.1, hregistered.nativeParent hwf hlisted.2⟩

variable [Coordinate κ] {viewClass : String} {width height : κ}

/-- The platform has made the view of a root. -/
theorem createdAt_withRootNode :
    (tree.withRootNode tag viewClass width height).createdAt tag = true := by
  refine (Tree.createdAt_store ..).trans ?_
  rw [if_pos rfl]
  rfl

/-- Registering a root settles it in the ledger: it is registered now, and not to come any more. -/
theorem Ledger.addRoot {roots : List Tag} {drops : List PendingDrop}
    (hledger : Ledger platform past roots tree drops) (hfree : tree.contains tag = false)
    (hplatform : tag ∈ platform) (hnew : tag ∉ past) :
    Ledger platform (tag :: past) roots (tree.withRootNode tag viewClass width height) drops where
  pending := fun ht hnot => hledger.pending ht fun hmem => hnot (List.mem_cons_of_mem _ hmem)
  within := hledger.within
  root := fun {r} hr => by
    rcases Tree.mem_withRoot.mp hr with hr | rfl
    · exact (hledger.root hr).imp_left (List.mem_cons_of_mem _)
    · exact ⟨List.mem_cons_self .., hledger.pending hplatform hnew⟩
  node := fun {t} ht hnot => by
    -- a node that is no root is an old one
    rw [(Tree.registered_withRootNode hfree).contains, Bool.or_eq_true, decide_eq_true_eq] at ht
    rcases ht with rfl | ht
    · exact absurd (Tree.mem_withRoot.mpr (.inr rfl)) hnot
    · exact hledger.node ht fun hr => hnot (Tree.mem_withRoot.mpr (.inl hr))
  drop := fun d hd => by
    have hdrop := hledger.drop d hd
    split
    · next hroot =>
      rw [if_pos hroot] at hdrop
      exact hdrop.imp_left (List.mem_cons_of_mem _)
    · next hroot => rwa [if_neg hroot] at hdrop

/-- A root to come is shown with its view and without children, and so it is afterwards. -/
theorem Shown.addRoot {skip : Tag → Bool} (hshown : Shown platform past tree mount skip shown)
    {sent : SentState κ} (hfree : tree.contains tag = false) (hplatform : tag ∈ platform)
    (hnew : tag ∉ past) (hdropped : tag ∉ mount.dropTags) (hsent : sent.children = []) :
    Shown platform (tag :: past) (tree.withRootNode tag viewClass width height)
      (mount.remember tag sent) skip shown := by
  have hregistered := @Tree.registered_withRootNode _ _ _ tag viewClass width height hfree
  have hview := @createdAt_withRootNode _ tree tag _ viewClass width height
  refine ⟨hshown.linked, fun t => ?_, fun {p} hp hskip => ?_, fun {c p} hc => ?_⟩
  · show _ ↔ _ ∨ t ∈ mount.dropTags ∨ t ∈ platform ∧ t ∉ tag :: past
    rw [hshown.views, List.mem_cons]
    by_cases ht : tag = t
    · -- it was a root to come and is a node with a view now
      subst ht
      exact ⟨fun _ => .inl hview, fun _ => .inr (.inr ⟨hplatform, hnew⟩)⟩
    · simp only [hregistered.created ht, Ne.symm ht, false_or]
  · rw [MountState.sent_remember]
    split
    · next heq =>
      rw [hsent, ← heq]
      refine List.eq_nil_iff_forall_not_mem.mpr fun c hc => ?_
      rcases hshown.links hc with ⟨hcreated, -⟩ | hpair
      · exact hregistered.ne_of_contains (Tree.contains_of_createdAt hcreated) rfl
      · exact hdropped (hpair.subset (by simp))
    · next hne =>
      rw [hregistered.created hne] at hp
      exact hshown.children hp hskip
  · refine (hshown.links hc).imp_left fun hbelow =>
      ⟨hregistered.createdAt_mono hbelow.1, hbelow.2.imp_left fun hcreated => ?_⟩
    exact ⟨hregistered.createdAt_mono hcreated.1, hregistered.ancestor hcreated.2⟩

/-- Registering a root whose tag does not wait for a drop keeps the native side in step: the view
the platform made for it is the view of a node from now on. -/
theorem Mirror.addRoot (hmirror : Mirror platform past ⟨tree, mount, log⟩ h)
    (hwf : tree.WellFormed) {sent : SentState κ} (hfree : tree.contains tag = false)
    (hplatform : tag ∈ platform) (hnew : tag ∉ past) (hdropped : tag ∉ mount.dropTags)
    (hsent : sent.children = []) : Mirror platform (tag :: past)
      ⟨tree.withRootNode tag viewClass width height, mount.remember tag sent, log'⟩ h := by
  have hregistered := @Tree.registered_withRootNode _ _ _ tag viewClass width height hfree
  have hgone : ∀ {t}, t ∈ mount.dropTags →
      (tree.withRootNode tag viewClass width height).createdAt t = false := fun ht =>
    (hregistered.created fun heq => hdropped (heq ▸ ht)).trans (hmirror.gone ht)
  refine ⟨hmirror.consistent, hmirror.settled, hmirror.ledger.addRoot hfree hplatform hnew,
    hgone, hmirror.nodup, fun {p c} hp hc => ?_, hmirror.record,
    fun skip => (hmirror.shown skip).addRoot hfree hplatform hnew hdropped hsent⟩
  have hc : c ∈ ((mount.remember tag sent).sent p).children := hc
  rw [MountState.sent_remember] at hc
  -- a new root has been sent no list; what the others were sent names the views it named before
  split at hc
  · rw [hsent] at hc
    cases hc
  · next hne =>
    have hp : (tree.withRootNode tag viewClass width height).createdAt p = true := hp
    rw [hregistered.created hne] at hp
    refine (hmirror.listed hp hc).imp_left fun hlisted => ?_
    exact ⟨hregistered.createdAt_mono hlisted.1, hregistered.nativeParent hwf hlisted.2⟩

end Registered

/-! ## Destroyed nodes -/

section Trimmed

variable {platform past gone : List Tag} {tree after : Tree κ} {mount : MountState κ}
  {log log' : List Log.Line} {h shown : Hierarchy κ}

/-- Destroying nodes moves their entries of the ledger from the nodes to the drops. -/
theorem Ledger.trim {roots : List Tag} {drops : List PendingDrop}
    (hledger : Ledger platform past roots tree drops) (htrimmed : tree.Trimmed gone after) :
    Ledger platform past roots after
      (drops ++ (gone.filter tree.createdAt).map fun t => ⟨t, tree.isRoot t⟩) := by
  refine ⟨hledger.pending, hledger.within, fun {r} hr => hledger.root ((htrimmed.roots r).mp hr).1,
    fun {t} ht hnot => ?_, fun d hd => ?_⟩
  -- a root that stays is listed among the roots still
  · refine hledger.node ((htrimmed.contains_iff.mp ht).1) fun hroot =>
      hnot ((htrimmed.roots t).mpr ⟨hroot, ?_⟩)
    intro hgone
    rw [Tree.contains, htrimmed.erased hgone] at ht
    cases ht
  -- a drop is an old one, or that of a node that goes now, with a view
  · rcases List.mem_append.mp hd with hd | hd
    · exact hledger.drop d hd
    · obtain ⟨t, ht, rfl⟩ := List.mem_map.mp hd
      have hcontains := Tree.contains_of_createdAt (List.mem_filter.mp ht).2
      show if tree.isRoot t = true then _ else _
      split
      · next hroot => exact hledger.root (Tree.isRoot_iff.mp hroot)
      · next hroot => exact hledger.node hcontains fun hmem => hroot (Tree.isRoot_iff.mpr hmem)

/-- Where a dropped view was listed, it goes before the view that lists it. -/
theorem Shown.trim {skip skip' : Tag → Bool} (hshown : Shown platform past tree mount skip' shown)
    (hwf : tree.WellFormed) (hanchored : tree.Anchored) (htrimmed : tree.Trimmed gone after)
    (hskip : ∀ t, t ∉ gone → skip t = false → skip' t = false) :
    Shown platform past after
      (mount.scheduledAll tree.isRoot (gone.filter tree.createdAt)) skip shown := by
  have hmem : ∀ {t}, t ∈ gone.filter tree.createdAt ↔ t ∈ gone ∧ tree.createdAt t = true :=
    List.mem_filter
  refine ⟨hshown.linked, fun t => ?_, fun {p} hp hkeep => ?_, fun {c p} hc => ?_⟩
  -- the views are those of nodes and of waiting drops, so a destroyed node only changes its group
  · rw [hshown.views, MountState.dropTags_scheduledAll, List.mem_append, hmem, htrimmed.createdAt_iff]
    by_cases hgone : t ∈ gone
    · simp only [hgone, not_true_eq_false, false_and, true_and, false_or]
      rw [or_assoc, or_left_comm]
    · simp only [hgone, not_false_eq_true, true_and, false_and, or_false]
  -- the child lists of the views that stay are those last sent
  · obtain ⟨hnot, hview⟩ := htrimmed.createdAt_iff.mp hp
    rw [MountState.sent_scheduledAll _ _ fun hgone => hnot (hmem.mp hgone).1]
    exact hshown.children hview (hskip p hnot hkeep)
  -- a listed view is below the one that lists it: both stay, both go, or one of them does
  · rw [MountState.dropTags_scheduledAll, List.mem_append, hmem, htrimmed.createdAt_iff,
      htrimmed.createdAt_iff]
    rcases hshown.links hc with ⟨hp, hcase⟩ | hpair
    · by_cases hgone : p ∈ gone
      · right
        rcases hcase with ⟨hview, hanc⟩ | hdrop
        · -- both go, the listed view first
          have hpair := (htrimmed.descendant_first hwf hgone hanc).filter tree.createdAt
          rw [List.filter_cons_of_pos hview, List.filter_cons_of_pos hp] at hpair
          exact hpair.trans (List.sublist_append_right ..)
        · exact (List.singleton_sublist.mpr hdrop).append
            (List.singleton_sublist.mpr (hmem.mpr ⟨hgone, hp⟩))
      · refine .inl ⟨⟨hgone, hp⟩, ?_⟩
        rcases hcase with ⟨hview, hanc⟩ | hdrop
        · by_cases hchild : c ∈ gone
          · exact .inr (.inr ⟨hchild, hview⟩)
          · exact .inl ⟨⟨hchild, hview⟩,
              htrimmed.ancestor hwf (hanchored.attached hview) hchild hanc⟩
        · exact .inr (.inl hdrop)
    · exact .inr (hpair.trans (List.sublist_append_left ..))

/-- Destroying nodes and scheduling the drops of their views keeps the native side in step.
Descendants go first, so no view is dropped while one of its children is left behind. -/
theorem Mirror.trim (hmirror : Mirror platform past ⟨tree, mount, log⟩ h) (hwf : tree.WellFormed)
    (hanchored : tree.Anchored) (htrimmed : tree.Trimmed gone after) :
    Mirror platform past
      ⟨after, mount.scheduledAll tree.isRoot (gone.filter tree.createdAt), log'⟩ h := by
  have hmem : ∀ {t}, t ∈ gone.filter tree.createdAt ↔ t ∈ gone ∧ tree.createdAt t = true :=
    List.mem_filter
  have hreplay : ∀ skip, h.replay skip
      (mount.scheduledAll tree.isRoot (gone.filter tree.createdAt)).queue = _ :=
    fun skip => MountState.replay_scheduledAll h _ skip mount
  refine ⟨hmirror.consistent, hmirror.settled, ?_, fun {t} ht => ?_, ?_, fun {p c} hp hc => ?_,
    fun skip => ?_, fun skip => ?_⟩
  · show Ledger platform past h.roots after (mount.scheduledAll _ _).drops
    rw [MountState.drops_scheduledAll]
    exact hmirror.ledger.trim htrimmed
  -- a waiting tag has no view, be it an old one or that of a node that goes now
  · have ht : t ∈ (mount.scheduledAll tree.isRoot (gone.filter tree.createdAt)).dropTags := ht
    show after.createdAt t = false
    rw [MountState.dropTags_scheduledAll, List.mem_append, hmem] at ht
    refine Bool.eq_false_iff.mpr fun hafter => ?_
    obtain ⟨hstays, hview⟩ := htrimmed.createdAt_iff.mp hafter
    rcases ht with ht | ⟨hgone, -⟩
    · have hnone : tree.createdAt t = false := hmirror.gone ht
      rw [hview] at hnone
      cases hnone
    · exact hstays hgone
  -- no tag waits for two drops: what goes now has a view, what waited has none
  · show (mount.scheduledAll tree.isRoot (gone.filter tree.createdAt)).dropTags.Nodup
    rw [MountState.dropTags_scheduledAll]
    refine hmirror.nodup.append ?_ fun t ht htgone => ?_
    · exact (Tree.nodup_of_pairwise_not_inSubtree htrimmed.descendants_first).filter _
    · have hnone : tree.createdAt t = false := hmirror.gone ht
      rw [(hmem.mp htgone).2] at hnone
      cases hnone
  -- what a staying view was sent stays below it or waits for its drop
  · show after.createdAt c = true ∧ _ ∨ c ∈ (mount.scheduledAll _ _).dropTags
    have hp : after.createdAt p = true := hp
    obtain ⟨hnot, hp⟩ := htrimmed.createdAt_iff.mp hp
    have hc : c ∈ ((mount.scheduledAll tree.isRoot (gone.filter tree.createdAt)).sent p).children :=
      hc
    rw [MountState.sent_scheduledAll _ _ fun hgone => hnot (hmem.mp hgone).1] at hc
    rw [MountState.dropTags_scheduledAll, List.mem_append, hmem]
    rcases hmirror.listed hp hc with ⟨hview, hnative⟩ | hdrop
    · by_cases hchild : c ∈ gone
      · exact .inr (.inr ⟨hchild, hview⟩)
      · refine .inl ⟨(htrimmed.created hchild).trans hview, ?_⟩
        exact htrimmed.nativeParent hwf (hanchored.attached hview) hchild hnative
    · exact .inr (.inl hdrop)
  · show SameRecord h (h.replay skip (mount.scheduledAll _ _).queue)
    rw [hreplay]
    exact hmirror.record _
  · show Shown platform past after _ skip (h.replay skip (mount.scheduledAll _ _).queue)
    rw [hreplay]
    refine (hmirror.shown _).trim hwf hanchored htrimmed fun t hnot hkeep => ?_
    -- operations are left out for the dropped views only
    have hnone : (gone.filter tree.createdAt).contains t = false :=
      Bool.eq_false_iff.mpr fun hgone => hnot (hmem.mp (List.contains_iff_mem.mp hgone)).1
    rw [hkeep, hnone, Bool.and_false, Bool.or_false]

end Trimmed

end ShadowMount.Native
