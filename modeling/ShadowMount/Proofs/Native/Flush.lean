import ShadowMount.Proofs.Native.Commands

/-!
# Flushes on the native side

A flush executes the queue, then the drops, and ends the batch. After the queue every drop finds its
view, and finds it without children, because what it may still list was dropped before it. A view
that is dropped below another one is a complaint only if the other one stays, and by then no view
that stays lists one that goes.

* **`Cleared`**, **`execute_drops`** — what a list of drops does, children first.
* **`Faithful`** — the native views are those of the tree, with the links of the tree.
* **`Mirrored.flush`** — the flush of a settled scene records no violation and leaves a faithful
  native side in step.
-/

namespace ShadowMount.Native.Hierarchy

variable {κ : Type} {h after : Hierarchy κ}

/-! ## Drops

The drops of a flush come children first. What a view still lists when it is dropped was dropped
before it, so no drop leaves children behind. -/

/-- A drop whose view exists and has no children takes the view away, and its tag off the list of
roots. A view is dropped as a root exactly if it is one, so the right list is asked and nothing is
complained about. -/
theorem execute_drop {d : PendingDrop} (hlinked : h.Linked) (hview : h.hasView d.tag = true)
    (hroot : d.isRoot = true ↔ d.tag ∈ h.roots) (hchildren : h.childrenOf d.tag = []) :
    h.Dropped d.tag (h.execute d.operation) ∧
      ∀ r, r ∈ (h.execute d.operation).roots ↔ r ∈ h.roots ∧ r ≠ d.tag := by
  obtain ⟨tag, isRoot⟩ := d
  cases isRoot with
  | true =>
    have hmem : h.roots.contains tag = true := List.contains_iff_mem.mpr (hroot.mp rfl)
    -- the hierarchy in which the root is taken off the list
    have hspec := @drop_spec _ { h with
      executed := h.executed ++ [.dropRoot tag]
      roots := h.roots.filter (· != tag) } tag hlinked hchildren
    have hexecute : h.execute (PendingDrop.operation ⟨tag, true⟩) = drop { h with
        executed := h.executed ++ [.dropRoot tag]
        roots := h.roots.filter (· != tag) } tag := by
      show perform _ (.dropRoot tag) = _
      rw [perform, if_pos hmem]
      exact if_pos hview
    rw [hexecute]
    obtain ⟨hdropped, hroots⟩ := hspec
    refine ⟨⟨hdropped.violations, hdropped.droppedAttached, hdropped.hasView, hdropped.parent,
      hdropped.children⟩, fun r => ?_⟩
    rw [hroots, List.mem_filter, bne_iff_ne]
  -- a drop of another view: the roots stay, and the tag was none of them
  | false =>
    have hnot : tag ∉ h.roots := fun hmem => Bool.false_ne_true (hroot.mpr hmem)
    have hmem : ¬ h.roots.contains tag = true := fun hc => hnot (List.contains_iff_mem.mp hc)
    have hspec := @drop_spec _ { h with executed := h.executed ++ [.drop tag] } tag hlinked hchildren
    have hexecute : h.execute (PendingDrop.operation ⟨tag, false⟩) =
        drop { h with executed := h.executed ++ [.drop tag] } tag := by
      show perform _ (.drop tag) = _
      rw [perform, if_neg hmem]
      exact if_pos hview
    rw [hexecute]
    obtain ⟨hdropped, hroots⟩ := hspec
    refine ⟨⟨hdropped.violations, hdropped.droppedAttached, hdropped.hasView, hdropped.parent,
      hdropped.children⟩, fun r => ?_⟩
    rw [hroots]
    refine ⟨fun hr => ⟨hr, ?_⟩, And.left⟩
    rintro rfl
    exact hnot hr

/-- The hierarchy after the views `tags` are dropped. -/
structure Cleared (h : Hierarchy κ) (tags : List Tag) (after : Hierarchy κ) : Prop where
  linked : after.Linked
  violations : after.violations = h.violations
  hasView : ∀ t, after.hasView t = true ↔ h.hasView t = true ∧ t ∉ tags
  children : ∀ q, after.childrenOf q = if q ∈ tags then [] else (h.childrenOf q).filter (· ∉ tags)
  roots : ∀ r, r ∈ after.roots ↔ r ∈ h.roots ∧ r ∉ tags
  /-- What is noted for the end of the batch are links to parents. -/
  attached : ∀ t p, (t, p) ∈ after.droppedAttached →
    (t, p) ∈ h.droppedAttached ∨ t ∈ tags ∧ t ∈ h.childrenOf p

/-- Dropping nothing clears nothing. -/
theorem Cleared.nil (hlinked : h.Linked) : h.Cleared [] h := by
  refine ⟨hlinked, rfl, fun t => by simp, fun q => ?_, fun r => by simp, fun t p hnoted => .inl hnoted⟩
  rw [if_neg List.not_mem_nil]
  exact (List.filter_eq_self.mpr fun _ _ => by simp).symm

/-- The first view is dropped before the others. What the first drop notes and what it takes off the
lists has to be seen together with what the others do. -/
theorem Cleared.cons {tag : Tag} {tags : List Tag} {mid : Hierarchy κ} (hlinked : h.Linked)
    (hdropped : h.Dropped tag mid) (hroots : ∀ r, r ∈ mid.roots ↔ r ∈ h.roots ∧ r ≠ tag)
    (hrest : mid.Cleared tags after) : h.Cleared (tag :: tags) after := by
  refine ⟨hrest.linked, hrest.violations.trans hdropped.violations, fun t => ?_, fun q => ?_,
    fun r => ?_, fun t p hnoted => ?_⟩
  -- a view stays if it is none of the dropped ones, the first or the others
  · rw [hrest.hasView, hdropped.hasView, Bool.and_eq_true, bne_iff_ne, List.mem_cons, not_or,
      and_assoc]
  · rw [hrest.children, hdropped.children]
    by_cases hq : q = tag
    -- the list of the first view is empty from its own drop on
    · rw [if_pos hq, if_pos (List.mem_cons.mpr (.inl hq)), List.filter_nil, ite_self]
    · by_cases hqr : q ∈ tags
      · rw [if_pos hqr, if_pos (List.mem_cons_of_mem _ hqr)]
      · have hnot : q ∉ tag :: tags := fun hmem => (List.mem_cons.mp hmem).elim hq hqr
        rw [if_neg hqr, if_neg hq, if_neg hnot, List.filter_filter]
        refine List.filter_congr fun x _ => ?_
        by_cases hx : x = tag <;> simp [hx]
  · rw [hrest.roots, hroots, List.mem_cons, not_or, and_assoc]
  -- a note is an old one, that about the first view, or one about the others
  · rcases hrest.attached t p hnoted with hbefore | ⟨ht, hlisted⟩
    · rw [hdropped.droppedAttached, List.mem_append] at hbefore
      rcases hbefore with hold | hnew
      · exact .inl hold
      · -- the note about the first view names its parent
        rw [Option.mem_toList, Option.map_eq_some_iff] at hnew
        obtain ⟨q, hq, heq⟩ := hnew
        cases heq
        exact .inr ⟨List.mem_cons_self .., (hlinked _ _).mp hq⟩
    · rw [hdropped.children] at hlisted
      split at hlisted
      · cases hlisted
      · exact .inr ⟨List.mem_cons_of_mem _ ht, (List.mem_filter.mp hlisted).1⟩

/-- Drops find their views without children as long as a listed view goes before the one that lists
it. -/
theorem execute_drops : ∀ {drops : List PendingDrop} {h : Hierarchy κ}, h.Linked →
    (drops.map PendingDrop.tag).Nodup →
    (∀ d ∈ drops, h.hasView d.tag = true ∧ (d.isRoot = true ↔ d.tag ∈ h.roots)) →
    (∀ d ∈ drops, ∀ c ∈ h.childrenOf d.tag, [c, d.tag].Sublist (drops.map PendingDrop.tag)) →
      h.Cleared (drops.map PendingDrop.tag) ((drops.map PendingDrop.operation).foldl execute h)
  | [], h, hlinked, _, _, _ => .nil hlinked
  | d :: rest, h, hlinked, hnodup, hknown, hfirst => by
    obtain ⟨hnotin, hnodup'⟩ := List.nodup_cons.mp hnodup
    obtain ⟨hview, hroot⟩ := hknown d (List.mem_cons_self ..)
    have hother : ∀ e ∈ rest, e.tag ≠ d.tag :=
      fun e he heq => hnotin (heq ▸ List.mem_map_of_mem he)
    -- nothing goes before the first
    have hchildren : h.childrenOf d.tag = [] := by
      refine List.eq_nil_iff_forall_not_mem.mpr fun c hc => hnotin ?_
      cases hfirst d (List.mem_cons_self ..) c hc with
      | cons _ hpair => exact hpair.subset (by simp)
      | cons_cons _ hpair => exact hpair.subset (by simp)
    obtain ⟨hdropped, hroots⟩ := execute_drop hlinked hview hroot hchildren
    refine .cons hlinked hdropped hroots (execute_drops (hdropped.linked hlinked hchildren) hnodup'
      (fun e he => ?_) fun e he c hc => ?_)
    -- the others are still there, and are roots if they were
    · obtain ⟨heview, heroot⟩ := hknown e (List.mem_cons_of_mem _ he)
      refine ⟨?_, heroot.trans ?_⟩
      · rw [hdropped.hasView, heview, bne_iff_ne.mpr (hother e he), Bool.and_true]
      · rw [hroots]
        exact ⟨fun hmem => ⟨hmem, hother e he⟩, And.left⟩
    -- what the others list is what they listed, less the first view
    · rw [hdropped.children, if_neg (hother e he), List.mem_filter, bne_iff_ne] at hc
      cases hfirst e (List.mem_cons_of_mem _ he) c hc.1 with
      | cons _ hpair => exact hpair
      | cons_cons => exact absurd rfl hc.2

/-! ## Batches

What a native side receives of a flush are its operations and the end of the batch. The reports that
come after it change nothing there. -/

/-- Only the operations and the end of the batch have an effect. -/
theorem foldl_receive_deliveries (flush : Flush κ) :
    flush.deliveries.foldl receive h = (flush.operations.foldl execute h).endBatch := by
  have hframes : ∀ (changes : List (Tag × Frame κ)) (h : Hierarchy κ),
      (changes.map fun change => Delivery.frameChanged change.1 change.2).foldl receive h = h := by
    intro changes
    induction changes with
    | nil => exact fun _ => rfl
    | cons _ _ ih => exact fun h => ih h
  have hoperations : ∀ (operations : List (Operation κ)) (h : Hierarchy κ),
      (operations.map Delivery.execute).foldl receive h = operations.foldl execute h :=
    fun _ _ => List.foldl_map
  rw [Flush.deliveries, Delivery.ofBatch, List.foldl_append, List.foldl_append, List.foldl_append,
    hoperations, hframes]
  rfl

/-- The end of a batch is no complaint if the parents of dropped views are gone. -/
theorem violations_endBatch (hgone : ∀ t p, (t, p) ∈ h.droppedAttached → h.hasView p = false) :
    h.endBatch.violations = h.violations := by
  show h.violations ++ _ = _
  rw [List.append_right_eq_self]
  refine List.filterMap_eq_nil_iff.mpr fun entry hentry => ?_
  show (if h.hasView entry.2 = true then some _ else none) = none
  rw [hgone entry.1 entry.2 hentry, if_neg Bool.false_ne_true]

end ShadowMount.Native.Hierarchy

namespace ShadowMount

open Native Hierarchy

variable {κ : Type} {platform past : List Tag} {scene : Scene κ} {native : Hierarchy κ}

/-! ## Faithful hierarchies

Between flushes the mirror holds of the hierarchy with the queue replayed. When the queue is empty
and no drop waits, this says that the hierarchy itself is the tree as it is shown. -/

/-- The native views are those of the tree, and those of roots to come. Every attached node that
mounts has its view, and the views are linked as the tree says. -/
structure Native.Faithful (platform past : List Tag) (tree : Tree κ) (h : Hierarchy κ) : Prop where
  consistent : h.violations = []
  views : ∀ t, h.hasView t = true ↔ tree.createdAt t = true ∨ t ∈ platform ∧ t ∉ past
  mounted : ∀ t, tree.Attached t → tree.mountsAt t = true → tree.createdAt t = true
  children : ∀ t, tree.createdAt t = true → tree.nativeChildren t = .ok (h.childrenOf t)
  parent : ∀ t, tree.createdAt t = true → tree.nativeParent t = .ok (h.parentOf? t)
  /-- A root to come has no links. -/
  bare : ∀ t, tree.createdAt t = false → h.childrenOf t = [] ∧ h.parentOf? t = none

/-- The child list sent for a view of a settled scene is its native child list. -/
theorem Mirrored.nativeChildren_sent (hstep : Mirrored platform past scene native)
    (hsettled : ∀ root ∈ scene.tree.roots, Mount.Settled scene root) {p : Tag}
    (hp : scene.tree.createdAt p = true) :
    scene.tree.nativeChildren p = .ok (scene.mount.sent p).children ∧
      ∀ c, c ∈ (scene.mount.sent p).children ↔
        scene.tree.createdAt c = true ∧ scene.tree.NativeParent c p := by
  obtain ⟨root, hroot, hsub⟩ := hstep.anchored.attached hp
  have hmounts := hstep.sound.flags.mountsAt_of_createdAt hp
  have hsent := (hsettled root hroot p hsub hmounts).2
  obtain ⟨xs, hxs, hmem⟩ :=
    Tree.nativeChildren_spec hstep.sound.wellFormed (Tree.contains_of_createdAt hp)
  obtain rfl : xs = (scene.mount.sent p).children := Except.ok.inj (hxs.symm.trans hsent)
  refine ⟨hsent, fun c => (hmem c).trans ⟨fun hc => ⟨hc.2.2, hc.1, hmounts⟩, fun hc => ?_⟩⟩
  exact ⟨hc.2.1, hstep.sound.flags.mountsAt_of_createdAt hc.1, hc.1⟩

/-- A scene in which nothing waits and every root is settled is shown faithfully. -/
theorem Mirrored.faithful (hstep : Mirrored platform past scene native)
    (hqueue : scene.mount.queue = []) (hdrops : scene.mount.drops = [])
    (hsettled : ∀ root ∈ scene.tree.roots, Mount.Settled scene root) :
    Faithful platform past scene.tree native := by
  have hshown := hstep.mirror.shown fun _ => false
  have htags : scene.mount.dropTags = [] := by rw [MountState.dropTags, hdrops, List.map_nil]
  rw [replay_skip_none, hqueue, List.foldl_nil] at hshown
  -- with no drop waiting, both ends of a native link are views of the tree
  have hlinks : ∀ {c p}, c ∈ native.childrenOf p →
      scene.tree.createdAt p = true ∧ scene.tree.createdAt c = true := by
    intro c p hc
    have hcase := hshown.links hc
    rw [htags] at hcase
    rcases hcase with ⟨hp, ⟨hview, -⟩ | hdrop⟩ | hpair
    · exact ⟨hp, hview⟩
    · cases hdrop
    · cases hpair
  have hchildren : ∀ {p}, scene.tree.createdAt p = true →
      native.childrenOf p = (scene.mount.sent p).children := fun hp => hshown.children hp rfl
  have hlisted : ∀ {c p}, scene.tree.createdAt p = true → (c ∈ native.childrenOf p ↔
      scene.tree.createdAt c = true ∧ scene.tree.NativeParent c p) := by
    intro c p hp
    rw [hchildren hp]
    exact (hstep.nativeChildren_sent hsettled hp).2 c
  refine ⟨hstep.mirror.consistent, fun t => ?_, fun t ht hmounts => ?_, fun t ht => ?_, fun t ht => ?_,
    fun t ht => ⟨?_, ?_⟩⟩
  -- without drops, the views are those of nodes and of roots to come
  · rw [hshown.views, htags]
    simp only [List.not_mem_nil, false_or]
  -- an attached node that mounts lies below a settled root
  · obtain ⟨root, hroot, hsub⟩ := ht
    exact (hsettled root hroot t hsub hmounts).1
  · rw [hchildren ht]
    exact (hstep.nativeChildren_sent hsettled ht).1
  · -- an anchored view hangs below a view, so that the lists decide its parent
    rcases Tree.nativeParent_cases hstep.sound.wellFormed (Tree.contains_of_createdAt ht) with
      ⟨p, hquery, hp⟩ | ⟨hquery, hnone⟩
    · have hview := hstep.anchored.nativeParent ht hp
      rw [hquery, (hshown.linked t p).mpr ((hlisted hview).mpr ⟨ht, hp⟩)]
    · cases hparent : native.parentOf? t with
      | none => exact hquery
      | some p =>
        have hc := (hshown.linked t p).mp hparent
        exact absurd ((hlisted (hlinks hc).1).mp hc).2 (hnone p)
  -- both ends of a link have views in the tree, so a view outside of it has none
  · refine List.eq_nil_iff_forall_not_mem.mpr fun c hc => ?_
    rw [(hlinks hc).1] at ht
    cases ht
  · cases hparent : native.parentOf? t with
    | none => rfl
    | some p =>
      rw [(hlinks ((hshown.linked t p).mp hparent)).2] at ht
      cases ht

/-! ## The flush of a pass

The queue is executed first, which is a replay and so covered by the mirror; then the drops; then
the batch is closed, and the check at its end finds nothing to complain of. -/

section Flush

variable (hstep : Mirrored platform past scene native)
  (hsettled : ∀ root ∈ scene.tree.roots, Mount.Settled scene root)

include hstep

/-- The tags of drops are those of no view of the tree, nor of roots to come. -/
theorem Mirrored.not_dropped {t : Tag}
    (ht : scene.tree.createdAt t = true ∨ t ∈ platform ∧ t ∉ past) : t ∉ scene.mount.dropTags := by
  intro hdrop
  rcases ht with ht | ⟨hplatform, hnew⟩
  · rw [hstep.mirror.gone hdrop] at ht
    cases ht
  · obtain ⟨d, hd, rfl⟩ := List.mem_map.mp hdrop
    have hcase := hstep.mirror.ledger.drop d hd
    split at hcase
    · exact hnew hcase.1
    · exact hcase hplatform

/-- After the queue, the drops clear away what is gone. -/
theorem Mirrored.cleared :
    (scene.mount.queue.foldl execute native).Cleared scene.mount.dropTags
      ((scene.mount.drops.map PendingDrop.operation).foldl execute
        (scene.mount.queue.foldl execute native)) := by
  have hmirror := hstep.mirror
  have hshown := hmirror.shown fun _ => false
  have hrecord := hmirror.record fun _ => false
  rw [replay_skip_none] at hshown hrecord
  -- a waiting view is there, since the tree has not taken it away before
  refine execute_drops hshown.linked hmirror.nodup (fun d hd => ⟨?_, ?_⟩) fun d hd c hc => ?_
  · exact (hshown.views d.tag).mpr (.inr (.inl (List.mem_map_of_mem hd)))
  · -- the ledger tells roots from other views
    have hcase := hmirror.ledger.drop d hd
    rw [hrecord.roots]
    split at hcase
    · next hroot => exact ⟨fun _ => hcase.2, fun _ => hroot⟩
    · next hroot =>
      exact ⟨fun heq => absurd heq hroot, fun hmem => absurd (hmirror.ledger.within hmem) hcase⟩
  -- a view that waits has no node with a view, so what it lists goes before it
  · rcases hshown.links hc with ⟨hview, -⟩ | hpair
    · have hgone := hmirror.gone (List.mem_map_of_mem hd)
      rw [hview] at hgone
      cases hgone
    · exact hpair

/-- The roots that were dropped are roots no more; all others are known as before. -/
theorem Mirrored.ledger_cleared {after : Hierarchy κ}
    (hcleared : (scene.mount.queue.foldl execute native).Cleared scene.mount.dropTags after) :
    Ledger platform past after.roots scene.tree [] := by
  have hledger := hstep.mirror.ledger
  have hrecord := hstep.mirror.record fun _ => false
  rw [replay_skip_none] at hrecord
  have hroots : ∀ {r}, r ∈ after.roots ↔ r ∈ native.roots ∧ r ∉ scene.mount.dropTags := by
    intro r
    rw [hcleared.roots, hrecord.roots]
  refine ⟨fun {t} ht hnew => ?_, fun {t} ht => ?_, fun {r} hr => ?_, hledger.node, nofun⟩
  · exact hroots.mpr ⟨hledger.pending ht hnew, hstep.not_dropped (.inr ⟨ht, hnew⟩)⟩
  · exact hledger.within (hroots.mp ht).1
  · have hknown := hledger.root hr
    have hview := hstep.sound.flags.root_created hr
    exact ⟨hknown.1, hroots.mpr ⟨hknown.2, hstep.not_dropped (.inl hview)⟩⟩

include hsettled

/-- A view that stays lists no view that goes. -/
theorem Mirrored.listed_stays {c p : Tag} (hp : scene.tree.createdAt p = true)
    (hc : c ∈ (scene.mount.queue.foldl execute native).childrenOf p) :
    scene.tree.createdAt c = true := by
  have hshown := hstep.mirror.shown fun _ => false
  rw [replay_skip_none] at hshown
  rw [hshown.children hp rfl] at hc
  exact (((hstep.nativeChildren_sent hsettled hp).2 c).mp hc).1

/-- No view is dropped below one that stays. -/
theorem Mirrored.flush_consistent :
    (scene.mount.closePass.1.deliveries.foldl receive native).violations = [] := by
  have hmirror := hstep.mirror
  have hshown := hmirror.shown fun _ => false
  have hrecord := hmirror.record fun _ => false
  rw [replay_skip_none] at hshown hrecord
  have hcleared := hstep.cleared
  -- the flush is the queue, the drops and the end of the batch, which alone looks at the notes
  rw [foldl_receive_deliveries]
  show ((scene.mount.queue ++ scene.mount.drops.map PendingDrop.operation).foldl execute
    native).endBatch.violations = []
  rw [List.foldl_append, violations_endBatch fun t p hnoted => ?_, hcleared.violations,
    hrecord.violations, hmirror.consistent]
  refine Bool.eq_false_iff.mpr fun hview => ?_
  obtain ⟨-, hstays⟩ := (hcleared.hasView p).mp hview
  -- a dropped view noted below one that stays was listed there when the drops began
  rcases hcleared.attached t p hnoted with hbefore | ⟨ht, hlisted⟩
  · rw [hrecord.droppedAttached, hmirror.settled] at hbefore
    cases hbefore
  -- the view that stays lists only views that stay, so no dropped view was noted there
  · rcases hshown.links hlisted with ⟨hp, -⟩ | hpair
    · have hgone := hmirror.gone ht
      rw [hstep.listed_stays hsettled hp hlisted] at hgone
      cases hgone
    · exact hstays (hpair.subset (by simp))

/-- What is left after the drops shows the scene in which nothing waits. -/
theorem Mirrored.shown_cleared {after : Hierarchy κ} (skip : Tag → Bool)
    (hcleared : (scene.mount.queue.foldl execute native).Cleared scene.mount.dropTags after) :
    Shown platform past scene.tree scene.mount.closePass.2 skip after := by
  have hshown := hstep.mirror.shown fun _ => false
  rw [replay_skip_none] at hshown
  have hkept : ∀ {t}, scene.tree.createdAt t = true → t ∉ scene.mount.dropTags :=
    fun ht => hstep.not_dropped (.inl ht)
  refine ⟨hcleared.linked, fun t => ?_, fun {p} hp _ => ?_, fun {c p} hc => ?_⟩
  -- no view of a node and none of a root to come is among the dropped ones
  · show _ ↔ scene.tree.createdAt t = true ∨ t ∈ [] ∨ t ∈ platform ∧ t ∉ past
    rw [hcleared.hasView, hshown.views]
    constructor
    · rintro ⟨hview | hdrop | hnew, hstays⟩
      · exact .inl hview
      · exact absurd hdrop hstays
      · exact .inr (.inr hnew)
    · rintro (hview | hnil | hnew)
      · exact ⟨.inl hview, hkept hview⟩
      · cases hnil
      · exact ⟨.inr (.inr hnew), hstep.not_dropped (.inr hnew)⟩
  · -- a list that was sent loses nothing, as every view on it stays
    have hall : ∀ c ∈ (scene.mount.queue.foldl execute native).childrenOf p,
        c ∉ scene.mount.dropTags := fun c hc => hkept (hstep.listed_stays hsettled hp hc)
    rw [hcleared.children, if_neg (hkept hp),
      List.filter_eq_self.mpr fun c hc => decide_eq_true (hall c hc)]
    exact hshown.children hp rfl
  -- a link that is left is an old one, with both of its ends left
  · rw [hcleared.children] at hc
    split at hc
    · cases hc
    · next hstays =>
      have hlisted := List.mem_filter.mp hc
      rcases hshown.links hlisted.1 with ⟨hp, hview | hdrop⟩ | hpair
      · exact .inl ⟨hp, .inl hview⟩
      · exact absurd hdrop (by simpa using hlisted.2)
      · exact absurd (hpair.subset (by simp)) hstays

/-- The flush of a settled scene leaves the native side in step, with nothing waiting. -/
theorem Mirrored.flush (log : List Log.Line) : InStep platform past
    ⟨scene.tree, scene.mount.closePass.2, log⟩
    (scene.mount.closePass.1.deliveries.foldl receive native) := by
  have hconsistent := hstep.flush_consistent hsettled
  have hcleared := hstep.cleared
  -- the drops come after the queue, so both can be looked at one after the other
  have hlast : (scene.mount.closePass.1.operations.foldl execute native).endBatch =
      ((scene.mount.drops.map PendingDrop.operation).foldl execute
        (scene.mount.queue.foldl execute native)).endBatch :=
    congrArg endBatch List.foldl_append
  rw [foldl_receive_deliveries, hlast] at hconsistent ⊢
  generalize (scene.mount.drops.map PendingDrop.operation).foldl execute
    (scene.mount.queue.foldl execute native) = after at hcleared hconsistent
  have hledger := hstep.ledger_cleared hcleared
  refine ⟨⟨hstep.sound, hstep.anchored, hconsistent, rfl, hledger, nofun, .nil,
    fun {p c} hp hc => ?_, fun skip => .refl _, fun skip => ?_⟩, nofun⟩
  -- what was sent last is the list of native children, as every root is settled
  · exact .inl (((hstep.nativeChildren_sent hsettled hp).2 c).mp hc)
  · -- the end of a batch touches no view
    have hafter := hstep.shown_cleared hsettled skip hcleared
    exact ⟨hafter.linked, hafter.views, hafter.children, hafter.links⟩

end Flush

end ShadowMount
