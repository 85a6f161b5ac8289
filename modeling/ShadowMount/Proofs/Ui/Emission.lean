import Mathlib.Logic.Function.Basic
import ShadowMount.Proofs.Ui.MountFlags

/-!
# Emission

The standing of a tag says where the tag is in its life: unused, registered without a view,
registered with one, or removed and waiting for the drop of its view. Registrations, removals and
operations move tags from one standing to another, and each has its place: a create is for a node
without a view below one that has a view, a drop is for a view whose node is gone, and every other
operation names only views of registered nodes.

* **`Event.Leads`** — what one event needs of the standings and makes of them; `Lawful` is a run of
  events.
* **`Emits`** — everything enqueued between two scenes is lawful.
* **`Activity.emits`**, **`Mount.Run.emits`** — what commands and passes enqueue.
-/

namespace ShadowMount

variable {κ : Type}

namespace Operation

/-- The views that an operation names: its target, the parent of a frame, the entries of a child
list. -/
def mentions : Operation κ → List Tag
  | setFrame tag parent _ => [tag, parent]
  | setChildren tag children => tag :: children
  | operation => operation.target?.toList

/-- Whether an operation destroys a view. -/
def isDrop : Operation κ → Bool
  | drop _ | dropRoot _ => true
  | _ => false

/-- Whether an operation neither makes nor destroys a view. -/
def isPlain (operation : Operation κ) : Bool := !operation.isCreate && !operation.isDrop

/-- The target of an operation is among the views it names. -/
theorem mem_mentions_of_target? {operation : Operation κ} {tag : Tag}
    (h : operation.target? = some tag) : tag ∈ operation.mentions := by
  cases operation with
  | clearResponder => cases h
  | _ =>
    cases h
    exact List.mem_cons_self ..

/-- A plain operation is neither a create nor a drop. -/
theorem isPlain_iff {operation : Operation κ} : operation.isPlain = true ↔
    operation.isCreate = false ∧ operation.isDrop = false := by
  rw [isPlain, Bool.and_eq_true, Bool.not_eq_true', Bool.not_eq_true']

/-- Harmless operations are plain. -/
theorem Harmless.isPlain {viewed : Tag → Prop} {operation : Operation κ}
    (h : operation.Harmless viewed) : operation.isPlain = true := by
  cases operation with
  | create => exact h.elim
  | drop => exact h.elim
  | dropRoot => exact h.elim
  | _ => rfl

/-- They name views that exist. -/
theorem Harmless.viewed {viewed : Tag → Prop} {operation : Operation κ}
    (h : operation.Harmless viewed) : ∀ tag ∈ operation.mentions, viewed tag := by
  cases operation with
  | setFrame => exact List.forall_mem_cons.mpr ⟨h.1, List.forall_mem_singleton.mpr h.2⟩
  | clearResponder => exact nofun
  | create => exact h.elim
  | setChildren => exact h.elim
  | drop => exact h.elim
  | dropRoot => exact h.elim
  | _ => exact List.forall_mem_singleton.mpr h

end Operation

/-! ## Standings

Where a tag is in its life, read off from a scene. -/

/-- Where a tag is in its life. -/
inductive Standing where
  /-- Unused. -/
  | absent
  /-- Registered without a view. -/
  | hidden
  /-- Registered with a view. -/
  | shown (isRoot : Bool)
  /-- Removed, with a view that waits for its drop. -/
  | doomed (isRoot : Bool)
  deriving DecidableEq

namespace Standing

/-- Whether a node is registered. -/
def isLive : Standing → Bool
  | hidden | shown _ => true
  | absent | doomed _ => false

/-- The standing of a tag when its node is removed. -/
def removed : Standing → Standing
  | hidden => absent
  | shown isRoot => doomed isRoot
  | other => other

end Standing

namespace Tree

variable {tree other : Tree κ} {drops : List PendingDrop}

/-- The standing of a tag, given the drops that are pending. -/
def standing (tree : Tree κ) (drops : List PendingDrop) (tag : Tag) : Standing :=
  if tree.createdAt tag then .shown (tree.isRoot tag)
  else if tree.contains tag then .hidden
  else (drops.find? (·.tag == tag)).elim .absent (.doomed ·.isRoot)

/-- A node with a view is shown. -/
theorem standing_of_created {tag : Tag} (h : tree.createdAt tag = true) :
    tree.standing drops tag = .shown (tree.isRoot tag) := by
  rw [standing, if_pos h]

/-- A registered node without a view is hidden. -/
theorem standing_of_uncreated {tag : Tag} (hcreated : tree.createdAt tag = false)
    (hcontains : tree.contains tag = true) : tree.standing drops tag = .hidden := by
  rw [standing, hcreated, hcontains]
  rfl

/-- An unused tag is absent, unless a drop is pending for it. -/
theorem standing_of_free {tag : Tag} (h : tree.contains tag = false) :
    tree.standing drops tag = (drops.find? (·.tag == tag)).elim .absent (.doomed ·.isRoot) := by
  have hcreated : tree.createdAt tag = false := by rw [createdAt, get?_of_free h, Option.any_none]
  rw [standing, hcreated, h]
  rfl

/-- A tag is shown exactly if its node has a view. -/
theorem standing_eq_shown_iff {tag : Tag} {isRoot : Bool} :
    tree.standing drops tag = .shown isRoot ↔
      tree.createdAt tag = true ∧ tree.isRoot tag = isRoot := by
  rw [standing]
  cases tree.createdAt tag with
  | true => simp
  | false =>
    cases tree.contains tag with
    | true => simp
    | false => cases drops.find? (·.tag == tag) <;> simp

/-- The standing depends on the registration, the flag and the place among the roots. -/
theorem standing_congr {tag : Tag} (hcontains : other.contains tag = tree.contains tag)
    (hcreated : other.createdAt tag = tree.createdAt tag)
    (hroot : other.isRoot tag = tree.isRoot tag) :
    other.standing drops tag = tree.standing drops tag := by
  rw [standing, standing, hcontains, hcreated, hroot]

/-- The node of a tag is not virtual. -/
def NotVirtual (tree : Tree κ) (tag : Tag) : Prop :=
  ∀ node, tree.get? tag = some node → node.kind ≠ .virtual

/-- The kind of a node is part of its stamp. -/
theorem NotVirtual.transport {tag : Tag} (h : tree.NotVirtual tag)
    (hstamp : (other.get? tag).map Node.stamp = (tree.get? tag).map Node.stamp) :
    other.NotVirtual tag := by
  intro node hget
  rw [hget, Option.map_some, eq_comm, Option.map_eq_some_iff] at hstamp
  obtain ⟨old, hold, heq⟩ := hstamp
  have hkind : old.kind = node.kind := congrArg (·.2.2.1) heq
  exact hkind ▸ h old hold

/-- Nothing is said of tags that are not in use. -/
theorem notVirtual_of_free {tag : Tag} (h : tree.contains tag = false) : tree.NotVirtual tag := by
  intro node hget
  rw [get?_of_free h] at hget
  cases hget

/-- A node with a view is not virtual, as virtual nodes do not mount. -/
theorem FlagsSound.notVirtual (hflags : tree.FlagsSound) {tag : Tag}
    (hview : tree.createdAt tag = true) : tree.NotVirtual tag := by
  intro node hget hkind
  rw [createdAt_of_get? hget] at hview
  have hmounts := hflags.created_mounts hget hview
  rw [hflags.virtual_not_mounts hget hkind] at hmounts
  cases hmounts

/-- The node of a tag is not virtual and calls for a view of a class with the given properties. -/
def CallsFor (tree : Tree κ) (tag root : Tag) (viewClass : String) (props : Props) : Prop :=
  ∃ node, tree.get? tag = some node ∧ node.root = root ∧ node.viewClass = viewClass ∧
    node.props = props ∧ node.kind ≠ .virtual

/-- A node that calls for a view is not virtual. -/
theorem CallsFor.notVirtual {tag root : Tag} {viewClass : String} {props : Props}
    (h : tree.CallsFor tag root viewClass props) : tree.NotVirtual tag := by
  obtain ⟨node, hget, -, -, -, hkind⟩ := h
  intro other hother
  rw [hget] at hother
  cases hother
  exact hkind

/-- A node that keeps its stamp and its properties calls for the same view. -/
theorem CallsFor.transport {tag root : Tag} {viewClass : String} {props : Props}
    (h : tree.CallsFor tag root viewClass props)
    (hdata : (other.get? tag).map (fun node => (node.stamp, node.props)) =
      (tree.get? tag).map fun node => (node.stamp, node.props)) :
    other.CallsFor tag root viewClass props := by
  obtain ⟨node, hget, hroot, hclass, hprops, hkind⟩ := h
  rw [hget, Option.map_some, Option.map_eq_some_iff] at hdata
  obtain ⟨new, hnew, heq⟩ := hdata
  simp only [Node.stamp, Prod.mk.injEq] at heq
  obtain ⟨⟨hroot', hclass', hkind', -⟩, hprops'⟩ := heq
  exact ⟨new, hnew, hroot'.trans hroot, hclass'.trans hclass, hprops'.trans hprops, hkind' ▸ hkind⟩

end Tree

/-- The standing of a tag in a scene. -/
def Scene.standing (scene : Scene κ) : Tag → Standing := scene.tree.standing scene.mount.drops

/-! ## Events

What can happen to a tag, with the standings that it needs and those that it leaves. A run of events
is lawful if each finds what it needs. -/

/-- What can happen to a tag. -/
inductive Event (κ : Type) where
  /-- A node is registered, as a root or not. -/
  | register (tag : Tag) (isRoot : Bool)
  /-- A node is removed by a command that finds the tree `before`. -/
  | unregister (tag : Tag) (before : Tree κ)
  /-- An operation is enqueued by a command or a pass that finds the tree `before` and leaves the
  tree `after`. -/
  | enqueue (operation : Operation κ) (before after : Tree κ)

/-- The tag that an event is about. -/
def Event.subject? : Event κ → Option Tag
  | register tag _ | unregister tag _ => some tag
  | enqueue operation .. => operation.target?

/-- What an event needs of the standings, and what it makes of them. -/
inductive Event.Leads : Event κ → (Tag → Standing) → (Tag → Standing) → Prop
  /-- A registration needs an unused tag. -/
  | register {s : Tag → Standing} {tag : Tag} {isRoot : Bool} (habsent : s tag = .absent) :
      Leads (.register tag isRoot) s
        (Function.update s tag (if isRoot then .shown true else .hidden))
  /-- A removal needs a registered node; its view waits for the drop. -/
  | unregister {s : Tag → Standing} {tag : Tag} {before : Tree κ} (hlive : (s tag).isLive = true) :
      Leads (.unregister tag before) s (Function.update s tag (s tag).removed)
  /-- A create needs a registered node without a view, whose native parent has one. It is the view
  that the node calls for, before and afterwards. -/
  | create {s : Tag → Standing} {before after : Tree κ} {tag parent root : Tag}
      {viewClass : String} {props : Props} (hhidden : s tag = .hidden)
      (hbefore : before.CallsFor tag root viewClass props)
      (hafter : after.CallsFor tag root viewClass props)
      (hparent : after.nativeParent tag = .ok (some parent))
      (habove : s parent = .shown (after.isRoot parent)) :
      Leads (.enqueue (.create tag root viewClass props) before after) s
        (Function.update s tag (.shown false))
  /-- A drop needs a view that waits for it, and a node that is gone. -/
  | drop {s : Tag → Standing} {before after : Tree κ} {drop : PendingDrop}
      (hdoomed : s drop.tag = .doomed drop.isRoot) (hbefore : before.contains drop.tag = false)
      (hafter : after.contains drop.tag = false) :
      Leads (.enqueue drop.operation before after) s (Function.update s drop.tag .absent)
  /-- Any other operation needs views for all it names, and changes no standing. -/
  | plain {s : Tag → Standing} {before after : Tree κ} {operation : Operation κ}
      (hplain : operation.isPlain = true)
      (hshown : ∀ tag ∈ operation.mentions, ∃ isRoot, s tag = .shown isRoot)
      (hbefore : ∀ tag ∈ operation.mentions, before.NotVirtual tag)
      (hafter : ∀ tag ∈ operation.mentions, after.NotVirtual tag) :
      Leads (.enqueue operation before after) s s

/-- A drop names the dropped view. -/
theorem PendingDrop.mentions_operation (drop : PendingDrop) :
    (drop.operation : Operation κ).mentions = [drop.tag] := by
  rw [operation]
  split <;> rfl

/-- It targets the dropped view. -/
theorem PendingDrop.target?_operation (drop : PendingDrop) :
    (drop.operation : Operation κ).target? = some drop.tag := by
  rw [operation]
  split <;> rfl

/-- It is a drop. -/
theorem PendingDrop.isDrop_operation (drop : PendingDrop) :
    (drop.operation : Operation κ).isDrop = true := by
  rw [operation]
  split <;> rfl

/-- An event changes the standing of no other tag. -/
theorem Event.Leads.eq_of_ne {s done : Tag → Standing} {event : Event κ} (h : event.Leads s done)
    {tag : Tag} (hne : event.subject? ≠ some tag) : done tag = s tag := by
  cases h with
  | register => exact Function.update_of_ne (fun heq => hne (congrArg some heq.symm)) ..
  | unregister => exact Function.update_of_ne (fun heq => hne (congrArg some heq.symm)) ..
  | create => exact Function.update_of_ne (fun heq => hne (congrArg some heq.symm)) ..
  | @drop _ _ _ drop =>
    have htarget : (drop.operation : Operation κ).target? ≠ some tag := hne
    rw [PendingDrop.target?_operation] at htarget
    exact Function.update_of_ne (fun heq => htarget (congrArg some heq.symm)) ..
  | plain => rfl

/-- Events one after the other, from some standings to others. -/
inductive Lawful : (Tag → Standing) → List (Event κ) → (Tag → Standing) → Prop
  | nil (s : Tag → Standing) : Lawful s [] s
  | cons {s mid done : Tag → Standing} {event : Event κ} {rest : List (Event κ)}
      (hfirst : event.Leads s mid) (hrest : Lawful mid rest done) : Lawful s (event :: rest) done

namespace Lawful

variable {s mid done : Tag → Standing} {events later : List (Event κ)}

/-- One event is a run. -/
theorem single {event : Event κ} (h : event.Leads s done) : Lawful s [event] done :=
  .cons h (.nil _)

/-- Runs compose. -/
theorem append (h : Lawful s events mid) (hlater : Lawful mid later done) :
    Lawful s (events ++ later) done := by
  induction h with
  | nil => exact hlater
  | cons hfirst _ ih => exact .cons hfirst (ih hlater)

/-- A run of two stretches passes through standings in between. -/
theorem split (h : Lawful s (events ++ later) done) :
    ∃ mid, Lawful s events mid ∧ Lawful mid later done := by
  induction events generalizing s with
  | nil => exact ⟨s, .nil s, h⟩
  | cons event rest ih =>
    obtain _ | ⟨hfirst, hrest⟩ := h
    obtain ⟨mid, hearlier, hlater⟩ := ih hrest
    exact ⟨mid, .cons hfirst hearlier, hlater⟩

/-- Plain operations can be left out: nothing after them rests on them. -/
theorem filter (h : Lawful s events done) (keep : Event κ → Bool)
    (hplain : ∀ {event}, event ∈ events → keep event = false →
      ∃ operation before after, event = .enqueue operation before after ∧
        operation.isPlain = true) : Lawful s (events.filter keep) done := by
  induction h with
  | nil => exact .nil _
  | @cons s mid done event rest hfirst _ ih =>
    have hrest := ih fun hmem => hplain (List.mem_cons_of_mem _ hmem)
    cases hkeep : keep event with
    | true =>
      rw [List.filter_cons_of_pos hkeep]
      exact .cons hfirst hrest
    | false =>
      rw [List.filter_cons_of_neg (by rw [hkeep]; exact Bool.false_ne_true)]
      obtain ⟨operation, before, after, rfl, hop⟩ := hplain (List.mem_cons_self ..) hkeep
      -- what is left out leads nowhere, as it is plain
      have hsame : mid = s := by
        cases hfirst with
        | plain => rfl
        | create => cases hop
        | @drop _ _ _ drop =>
          have hkind := (Operation.isPlain_iff.mp hop).2
          rw [drop.isDrop_operation] at hkind
          cases hkind
      exact hsame ▸ hrest

end Lawful

/-- No operation names a virtual node. -/
theorem Event.Leads.notVirtual {s done : Tag → Standing} {operation : Operation κ}
    {before after : Tree κ} (h : (Event.enqueue operation before after).Leads s done) :
    ∀ tag ∈ operation.mentions, before.NotVirtual tag ∧ after.NotVirtual tag := by
  cases h with
  | create _ hbefore hafter =>
    exact List.forall_mem_singleton.mpr ⟨hbefore.notVirtual, hafter.notVirtual⟩
  | drop _ hbefore hafter =>
    rw [PendingDrop.mentions_operation]
    exact List.forall_mem_singleton.mpr
      ⟨Tree.notVirtual_of_free hbefore, Tree.notVirtual_of_free hafter⟩
  | plain _ _ hbefore hafter => exact fun tag htag => ⟨hbefore tag htag, hafter tag htag⟩

/-! ## Operations of a stretch

What is enqueued between two scenes, as events. Events that concern different tags do not disturb
each other, so stretches are put together by their standings. -/

/-- Everything enqueued between two scenes is lawful and no drop, as part of what leads from the
tree `before` to the tree `after`. -/
def Emits (before after : Tree κ) (scene done : Scene κ) : Prop :=
  ∃ operations, done.mount.queue = scene.mount.queue ++ operations ∧
    (∀ operation ∈ operations, operation.isDrop = false) ∧
    Lawful scene.standing (operations.map (.enqueue · before after)) done.standing

section Emits

variable {before after tree : Tree κ} {scene mid done : Scene κ} {mount mount' : MountState κ}
  {log log' : List Log.Line}

/-- Nothing is enqueued. -/
theorem Emits.nothing (hqueue : done.mount.queue = scene.mount.queue)
    (hstanding : done.standing = scene.standing) : Emits before after scene done :=
  ⟨[], by rw [hqueue, List.append_nil], nofun, hstanding ▸ .nil _⟩

/-- Stretches compose. -/
theorem Emits.trans (hfirst : Emits before after scene mid) (hnext : Emits before after mid done) :
    Emits before after scene done := by
  obtain ⟨operations, hqueue, hkind, hlawful⟩ := hfirst
  obtain ⟨operations', hqueue', hkind', hlawful'⟩ := hnext
  refine ⟨operations ++ operations', by rw [hqueue', hqueue, List.append_assoc],
    List.forall_mem_append.mpr ⟨hkind, hkind'⟩, ?_⟩
  rw [List.map_append]
  exact hlawful.append hlawful'

/-- A plain operation about views, if it is sent at all. -/
theorem emits_plain (operation : Operation κ) (hflags : tree.FlagsSound)
    (hbefore : before.SameStamps tree) (hafter : tree.SameStamps after)
    (hfixtures : mount'.fixtures = mount.fixtures) (hplain : operation.isPlain = true)
    (hviewed : ∀ tag ∈ operation.mentions, tree.createdAt tag = true)
    (hqueue : mount'.queue = mount.queue ∨ mount'.queue = mount.queue ++ [operation]) :
    Emits before after ⟨tree, mount, log⟩ ⟨tree, mount', log'⟩ := by
  have hstanding : Scene.standing ⟨tree, mount', log'⟩ = Scene.standing ⟨tree, mount, log⟩ :=
    congrArg tree.standing (congrArg (·.2.1) hfixtures)
  -- the operation is left out as it tells nothing new, or it is sent
  rcases hqueue with hqueue | hqueue
  · exact .nothing hqueue hstanding
  · refine ⟨[operation], hqueue,
      List.forall_mem_singleton.mpr (Operation.isPlain_iff.mp hplain).2, ?_⟩
    rw [hstanding]
    have hkinds : ∀ tag ∈ operation.mentions, tree.NotVirtual tag :=
      fun tag htag => hflags.notVirtual (hviewed tag htag)
    exact .single (.plain hplain
      (fun tag htag => ⟨_, Tree.standing_of_created (hviewed tag htag)⟩)
      (fun tag htag => (hkinds tag htag).transport (hbefore tag).symm)
      fun tag htag => (hkinds tag htag).transport (hafter tag))

/-- A child list is sent or needs no sending. -/
theorem MountState.queue_childrenSent (state : MountState κ) (tag : Tag) (children : List Tag) :
    (state.childrenSent tag children).queue = state.queue ∨
      (state.childrenSent tag children).queue = state.queue ++ [.setChildren tag children] := by
  unfold childrenSent
  split
  · exact .inl rfl
  · exact .inr rfl

/-- A frame is sent or needs no sending. -/
theorem MountState.queue_frameSent [Coordinate κ] (state : MountState κ) (tag parent : Tag)
    (frame : Frame κ) : (state.frameSent tag parent frame).queue = state.queue ∨
      (state.frameSent tag parent frame).queue = state.queue ++ [.setFrame tag parent frame] := by
  unfold frameSent
  split
  · exact .inl rfl
  · exact .inr rfl

/-- The changes of properties are sent, or there are none. -/
theorem MountState.queue_propsSent (state : MountState κ) (tag : Tag) (viewClass : String)
    (delta : Props) : ∃ props, (state.propsSent tag viewClass delta).queue = state.queue ∨
      (state.propsSent tag viewClass delta).queue =
        state.queue ++ [.setProps tag viewClass props] := by
  unfold propsSent
  dsimp only
  refine ⟨Props.changes (state.sent tag).props delta, ?_⟩
  split
  · exact .inl rfl
  · exact .inr rfl

/-- A child list names the view it is for and views below it. -/
theorem emits_children (hwf : tree.WellFormed) (hflags : tree.FlagsSound)
    (hbefore : before.SameStamps tree) (hafter : tree.SameStamps after) {tag : Tag}
    {children : List Tag} (hview : tree.createdAt tag = true)
    (hchildren : tree.nativeChildren tag = .ok children) :
    Emits before after ⟨tree, mount, log⟩ ⟨tree, mount.childrenSent tag children, log⟩ := by
  obtain ⟨listed, hlisted, hmem⟩ :=
    Tree.nativeChildren_spec hwf (Tree.contains_of_createdAt hview)
  obtain rfl : listed = children := Except.ok.inj (hlisted.symm.trans hchildren)
  exact emits_plain (.setChildren tag listed) hflags hbefore hafter
    (mount.fixtures_childrenSent tag listed) rfl
    (List.forall_mem_cons.mpr ⟨hview, fun x hx => ((hmem x).mp hx).2.2⟩)
    (mount.queue_childrenSent tag listed)

/-- A create is for a node without a view below one with a view. -/
theorem emits_create (hsound : tree.Sound) (hbefore : before.Kept tree)
    {tag parent : Tag} {node : Node κ} (hget : tree.get? tag = some node)
    (hmounts : node.mounts = true) (hcreated : node.created = false)
    (hafter : (tree.store tag { node with created := true }).Kept after)
    (habove : tree.createdAt parent = true) (hparent : after.NativeParent tag parent) :
    Emits before after ⟨tree, mount, log⟩
      ⟨tree.store tag { node with created := true }, mount.createSent tag node, log⟩ := by
  have hgrown := Tree.grown_store hget hmounts
  have hkept := hgrown.kept.trans hafter
  have hfree : tree.createdAt tag = false := by rw [Tree.createdAt_of_get? hget, hcreated]
  -- the node is not a root: it has no view, and roots have one
  have hroot : tree.isRoot tag = false := by
    refine Bool.eq_false_iff.mpr fun hroot => ?_
    rw [hsound.flags.root_created (Tree.isRoot_iff.mp hroot)] at hfree
    cases hfree
  -- it calls for the view that is made: it mounts, so it is not virtual
  have hcalls : tree.CallsFor tag node.root node.viewClass node.props := by
    refine ⟨node, hget, rfl, rfl, rfl, fun hkind => ?_⟩
    rw [hsound.flags.virtual_not_mounts hget hkind] at hmounts
    cases hmounts
  -- only its own standing changes
  have hstanding : Scene.standing ⟨tree.store tag { node with created := true },
      mount.createSent tag node, log⟩ =
        Function.update (Scene.standing ⟨tree, mount, log⟩) tag (.shown false) := by
    funext x
    by_cases hx : x = tag
    · subst hx
      rw [Function.update_self]
      refine (Tree.standing_of_created ?_).trans (congrArg Standing.shown hroot)
      rw [Tree.createdAt_store, if_pos rfl]
    · rw [Function.update_of_ne hx]
      refine Tree.standing_congr (hgrown.sameLinks.contains x) ?_ rfl
      rw [Tree.createdAt_store, if_neg (Ne.symm hx)]
  refine ⟨[.create tag node.root node.viewClass node.props], rfl,
    List.forall_mem_singleton.mpr rfl, ?_⟩
  rw [hstanding]
  -- what it calls for is the same before and after the whole stretch
  refine .single (.create (Tree.standing_of_uncreated hfree (Tree.contains_of_get? hget))
    (hcalls.transport (hbefore.data tag).symm) (hcalls.transport (hkept.data tag))
    (Tree.nativeParent_eq_some (hkept.links.wellFormed hsound.wellFormed) hparent) ?_)
  refine (Tree.standing_of_created habove).trans (congrArg Standing.shown ?_)
  rw [Tree.isRoot, Tree.isRoot, hkept.links.roots]

end Emits

/-! ## Reconciliation

Creates come below views, frames and child lists go to views; each step is an event that finds its
standing. -/

namespace Mount

variable [Coordinate κ] {before after : Tree κ} {scene done : Scene κ}

/-- The views created between two trees keep their native parents in a third one. -/
def Placed (start last after : Tree κ) : Prop :=
  ∀ {t p}, start.createdAt t = false → last.createdAt t = true → last.NativeParent t p →
    after.NativeParent t p

/-- What a step of a reconciliation enqueues. -/
theorem Step.emits (h : Step scene done) (hsound : scene.tree.Sound)
    (hanchored : scene.tree.Anchored) (hbefore : before.Kept scene.tree)
    (hafter : done.tree.Kept after) (hplaced : Placed scene.tree done.tree after) :
    Emits before after scene done := by
  cases h with
  | @create tree mount log tag parent node hget hmounts hcreated hparent habove =>
    refine emits_create hsound hbefore hget hmounts hcreated hafter habove (hplaced ?_ ?_ ?_)
    · rw [Tree.createdAt_of_get? hget, hcreated]
    · rw [Tree.createdAt_store, if_pos rfl]
    · exact (Tree.grown_store hget hmounts).nativeParent hparent
  | @frame tree mount log tag parent frame hcreated hparent =>
    exact emits_plain (.setFrame tag parent frame) hsound.flags hbefore.stamps hafter.stamps
      (mount.fixtures_frameSent tag parent frame) rfl
      (List.forall_mem_cons.mpr
        ⟨hcreated, List.forall_mem_singleton.mpr (hanchored.nativeParent hcreated hparent)⟩)
      (mount.queue_frameSent tag parent frame)
  | children hcreated hchildren =>
    exact emits_children hsound.wellFormed hsound.flags hbefore.stamps hafter.stamps hcreated
      hchildren
  | note => exact .nothing rfl rfl

/-- What the steps of a reconciliation enqueue. The induction is on the first step, as each create
is judged by the tree at the very end. -/
theorem Run.emits (h : Run scene done) (hsound : scene.tree.Sound)
    (hanchored : scene.tree.Anchored) (hbefore : before.Kept scene.tree)
    (hafter : done.tree.Kept after) (hplaced : Placed scene.tree done.tree after) :
    Emits before after scene done := by
  induction h using Relation.ReflTransGen.head_induction_on with
  | refl => exact .nothing rfl rfl
  | @head scene mid hstep hrest ih =>
    have hgrown := hstep.grown
    have hrestGrown := Run.grown hrest
    -- the views that this step creates stay, and keep their native parents
    have hfirst : Emits before after scene mid := by
      refine hstep.emits hsound hanchored hbefore (hrestGrown.kept.trans hafter) ?_
      exact fun hnot hview hparent =>
        hplaced hnot (hrestGrown.mono hview) (hrestGrown.nativeParent hparent)
    refine hfirst.trans (ih (hsound.kept hgrown.kept) (hstep.anchored hanchored)
      (hbefore.trans hgrown.kept) fun {t p} hnot hview hparent => hplaced ?_ hview hparent)
    -- what has no view after the step had none before
    refine Bool.eq_false_iff.mpr fun hearlier => ?_
    rw [hgrown.mono hearlier] at hnot
    cases hnot

/-! ## Escalation

The promotion below a view changes the native parents of what is below. The create that comes with
it is made for the tree after the promotion, and its content is the same before and after. -/

/-- What a step of an escalation enqueues. -/
theorem Rise.emits (h : Rise scene done) (hsound : scene.tree.Sound)
    (hanchored : scene.tree.Anchored) (hbefore : before.Kept scene.tree)
    (hafter : done.tree.Kept after) (hplaced : Placed scene.tree done.tree after) :
    Emits before after scene done := by
  cases h with
  | step h => exact h.emits hsound hanchored hbefore hafter hplaced
  -- a promotion enqueues nothing and changes no standing
  | @promote tree mount log tag parent node hget hparent habove =>
    refine .nothing rfl (funext fun x => Tree.standing_congr ?_ (Tree.createdAt_promote hget x) rfl)
    exact (Tree.sameLinks_promote hget).contains x
  | @insert tree mount log tag parent node children hget hpromotable hcreated hparent habove
      hchildren =>
    -- promoted, then the child list of the view above, then the create
    have hmounts := Node.mounts_of_promotable hpromotable
    have hget' : (tree.store tag node.promote).get? tag = some node.promote :=
      Tree.get?_store_self ..
    have hpromoted := Tree.kept_promote hget
    have hgrown := Tree.grown_store hget' hmounts
    have hbefore' := hbefore.trans hpromoted
    have hsound' := hsound.kept hpromoted
    have habove' : (tree.store tag node.promote).createdAt parent = true := hpromoted.created habove
    have hparent' := (Tree.nativeParent_promote_iff hsound.wellFormed hget (.refl tag)).mpr hparent
    have hstart : Emits before after ⟨tree, mount, log⟩ ⟨tree.store tag node.promote, mount, log⟩ :=
      .nothing rfl (funext fun x => Tree.standing_congr (hpromoted.links.contains x)
        (Tree.createdAt_promote hget x) rfl)
    refine (hstart.trans (emits_children hsound'.wellFormed hsound'.flags hbefore'.stamps
      (hgrown.kept.trans hafter).stamps habove' hchildren)).trans
      (emits_create hsound' hbefore' hget' hmounts (by rw [Node.created_promote, hcreated]) hafter
        habove' (hplaced ?_ ?_ (hgrown.nativeParent hparent')))
    · show tree.createdAt tag = false
      rw [Tree.createdAt_of_get? hget, hcreated]
    · exact (Tree.createdAt_store ..).trans (if_pos rfl)

/-- What an escalation enqueues. No view is created before the promotion, so every view keeps the
native parent below which it is created. -/
theorem Ascent.emits (h : Ascent scene done) (hsound : scene.tree.Sound)
    (hanchored : scene.tree.Anchored) : Emits scene.tree done.tree scene done := by
  obtain ⟨mid, lifted, hquiet, htree, hlift, hrest⟩ := h
  have hkept : scene.tree.Kept scene.tree := Progress.kept .refl
  have hgrown := Run.grown hrest
  have hlifted : mid.tree.Kept lifted.tree := Progress.kept hlift.to_reflTransGen
  have hsound' : mid.tree.Sound := htree ▸ hsound
  have hanchored' : mid.tree.Anchored := htree ▸ hanchored
  -- up to the promotion no view is created
  have hfirst : Emits scene.tree done.tree scene mid := by
    refine Run.emits hquiet hsound hanchored hkept (hlifted.trans hgrown.kept) ?_
    rw [htree]
    intro t p hnot hview
    rw [hnot] at hview
    cases hview
  -- the promotion, if there is one, with the create of the view
  have hsecond : Emits scene.tree done.tree mid lifted ∧ lifted.tree.Anchored := by
    cases hlift with
    | refl => exact ⟨.nothing rfl rfl, hanchored'⟩
    | single hrise =>
      exact ⟨hrise.emits hsound' hanchored' (htree ▸ hkept) hgrown.kept
        fun _ _ hparent => hgrown.nativeParent hparent, hrise.anchored hanchored'⟩
  -- and what follows is the reconciliation below
  refine (hfirst.trans hsecond.1).trans ?_
  exact Run.emits hrest (hsound'.kept hlifted) hsecond.2 (htree ▸ hlifted) (Progress.kept .refl)
    fun _ _ hparent => hparent

end Mount

/-! ## Commands

A command adds its own operation behind those of its escalation. -/

/-- Nothing is enqueued when a node is revised. -/
theorem emits_revised {tree : Tree κ} {mount : MountState κ} {log : List Log.Line} {tag : Tag}
    {node : Node κ} (hget : tree.get? tag = some node) (frame : Frame κ) (props : Props)
    (log' : List Log.Line) : Emits tree (tree.store tag { node with frame, props })
      ⟨tree, mount, log⟩ ⟨tree.store tag { node with frame, props }, mount, log'⟩ := by
  have hlinks : tree.SameLinks (tree.store tag { node with frame, props }) :=
    Tree.sameLinks_store hget rfl rfl rfl
  exact .nothing rfl (funext fun x => Tree.standing_congr (hlinks.contains x)
    (Tree.flags_update hget frame props x).1 rfl)

/-- What a command enqueues that neither registers nor removes a node. -/
theorem Activity.emits [Coordinate κ] {scene done : Scene κ} (h : Activity scene done)
    (hsound : scene.tree.Sound) (hanchored : scene.tree.Anchored) :
    Emits scene.tree done.tree scene done := by
  obtain ⟨-, hstamps⟩ := Touches.stamps h.touches
  have hflags := (Touches.sound h.touches hsound).flags
  cases h with
  | revise hget frame props log' => exact emits_revised hget frame props log'
  -- the node first, then the properties for its view
  | @send tree mount log tag node hget hcreated frame props viewClass delta log' =>
    obtain ⟨changed, hqueue⟩ := mount.queue_propsSent tag viewClass delta
    have hview : (tree.store tag { node with frame, props }).createdAt tag = true := by
      rw [Tree.createdAt_store, if_pos rfl, hcreated]
    exact (emits_revised hget frame props log').trans
      (emits_plain (.setProps tag viewClass changed) hflags hstamps (fun _ => rfl)
        (mount.fixtures_propsSent tag viewClass delta) rfl
        (List.forall_mem_singleton.mpr hview) hqueue)
  -- the ascent first, then the operation
  | @act _ tree mount log h operation hoperation =>
    have hposted : Emits scene.tree tree ⟨tree, mount, log⟩ ⟨tree, mount.enqueue operation, log⟩ :=
      emits_plain operation hflags hstamps (fun _ => rfl) rfl hoperation.isPlain
        hoperation.viewed (.inr rfl)
    exact (h.emits hsound hanchored).trans hposted

end ShadowMount
