import ShadowMount.Proofs.Native.Portraits
import ShadowMount.Proofs.Ui.Reuse

/-!
# Snapshots and native views

For every view there is a snapshot of what was last sent to it, and all decisions about what to send
are made by looking at snapshots. They never drift from the native side: at every moment of a run,
also between passes, the operations that wait turn the native views into what the snapshots say.

* **`Portrayed`** — the invariant. There is a snapshot for exactly the nodes with a view, each view
  will be as in its snapshot, and the properties of the snapshot agree with those of the node.
* **`Activity.portrayed`**, **`Effect.portrayed`**, **`Ui.Passes.portrayed`** — what commands and
  passes keep, so that `Session.portrayed` has it at every moment.
* **`Ui.snapshots_faithful`** — the native side once the queue is executed.
-/

namespace ShadowMount

open Native

variable {κ : Type}

/-! ## Properties of nodes with a view

The snapshot of a view is compared with the properties of its node, which only nodes with a view
have to agree with. -/

namespace Tree

variable {tree after : Tree κ} {tag t : Tag} {node : Node κ}

/-- The properties of a node that has a view. -/
def viewProps? (tree : Tree κ) (tag : Tag) : Option Props :=
  (tree.get? tag).bind fun node => if node.created then some node.props else none

/-- There are such properties exactly for the nodes with a view. -/
theorem isSome_viewProps? (tree : Tree κ) (tag : Tag) :
    (tree.viewProps? tag).isSome = tree.createdAt tag := by
  unfold viewProps? createdAt
  cases tree.get? tag with
  | none => rfl
  | some node => cases hcreated : node.created <;> simp [hcreated]

/-- They are read off the record. -/
theorem viewProps?_of_get? (hget : tree.get? t = some node) (hcreated : node.created = true) :
    tree.viewProps? t = some node.props := by
  rw [viewProps?, hget, Option.bind_some, if_pos hcreated]

/-- A tag that is not in use has none. -/
theorem viewProps?_of_free (hfree : tree.contains t = false) : tree.viewProps? t = none := by
  rw [viewProps?, get?_of_free hfree, Option.bind_none]

/-- Storing a record decides them for its own tag. -/
theorem viewProps?_store (tree : Tree κ) (tag t : Tag) (node : Node κ) :
    (tree.store tag node).viewProps? t =
      if tag = t then (if node.created then some node.props else none) else tree.viewProps? t := by
  unfold viewProps?
  rw [get?_store]
  split <;> rfl

/-- They depend on the flag and the properties of the record alone. -/
theorem viewProps?_congr (hcreated : after.createdAt t = tree.createdAt t)
    (hprops : (after.get? t).map (·.props) = (tree.get? t).map (·.props)) :
    after.viewProps? t = tree.viewProps? t := by
  unfold createdAt at hcreated
  unfold viewProps?
  cases hget : tree.get? t with
  | none =>
    rw [hget, Option.map_none, Option.map_eq_none_iff] at hprops
    rw [hprops]
  | some node =>
    rw [hget, Option.map_some, Option.map_eq_some_iff] at hprops
    -- a record in one tree and one in the other, with the same flag and the same properties
    obtain ⟨node', hget', hsame⟩ := hprops
    rw [hget, hget'] at hcreated
    have hcreated : node'.created = node.created := hcreated
    rw [hget', Option.bind_some, Option.bind_some, hcreated, hsame]

/-- A node is replaced by one with the same properties, and with a view if it had one. -/
theorem viewProps?_replace {node' : Node κ} (hget : tree.get? tag = some node)
    (hcreated : node'.created = node.created)
    (hprops : node.created = true → node'.props = node.props) (t : Tag) :
    (tree.store tag node').viewProps? t = tree.viewProps? t := by
  rw [viewProps?_store]
  split
  · next heq =>
    subst heq
    rw [viewProps?, hget, Option.bind_some, hcreated]
    cases hview : node.created with
    | false => rfl
    | true => rw [hprops hview]
  · rfl

/-- Setting frames keeps them. -/
theorem Reframed.viewProps? (h : tree.Reframed after) (t : Tag) :
    after.viewProps? t = tree.viewProps? t := by
  refine viewProps?_congr (h.createdAt t) ?_
  have hdata := congrArg (Option.map Prod.snd) (h.kept.data t)
  rwa [Option.map_map, Option.map_map] at hdata

end Tree

/-! ## The invariant

Three agreements: snapshots are there for exactly the nodes with a view, each view will be as in its
snapshot once the queue is executed, and properties are aligned. -/

/-- The snapshots of a scene, against the native side that is to execute what waits. -/
structure Portrayed (platform past : List Tag) (scene : Scene κ) (native : Hierarchy κ) :
    Prop where
  /-- There is a snapshot for each view, and for nothing else. -/
  known : ∀ t, t ∈ scene.mount.sentStates ↔ scene.tree.createdAt t = true
  /-- Once the queue is executed, the view is as in its snapshot. The frame of a root is left to the
  platform. -/
  shows : ∀ {t}, scene.tree.createdAt t = true →
    scene.mount.Shows native (t ∈ scene.tree.roots) t
  /-- The properties last sent agree with the node's: no key has a value that differs. -/
  agrees : ∀ {t props}, scene.tree.viewProps? t = some props →
    (scene.mount.sent t).props.Agrees props
  /-- A root to come is no node yet, and its view has no properties. -/
  awaited : ∀ {t}, t ∈ platform → t ∉ past → scene.tree.contains t = false ∧
    ∃ content, native.foreseen scene.mount.queue t = some content ∧ content.props = .empty

namespace Portrayed

variable {platform past : List Tag} {scene done : Scene κ} {native : Hierarchy κ}

/-- In the beginning there are the views of roots to come. -/
theorem start (platform : List Tag) (config : Config) (log : List Log.Line) :
    Portrayed platform [] (⟨.empty, { config }, log⟩ : Scene κ) (.withRoots platform) := by
  have hempty : ∀ t, (Tree.empty : Tree κ).get? t = none := fun t => by
    simp [Tree.get?, Tree.empty]
  refine ⟨fun t => ?_, fun {t} hview => ?_, fun {t props} hprops => ?_, fun {t} ht _ => ⟨?_, ?_⟩⟩
  -- no node, no view, no properties
  · simp [Tree.createdAt, hempty]
  · simp [Tree.createdAt, hempty] at hview
  · simp [Tree.viewProps?, hempty] at hprops
  · rw [Tree.contains, hempty]
    rfl
  -- the views that the platform shows are bare
  · refine ⟨⟨"Root", .empty, none⟩, ?_, rfl⟩
    show (Hierarchy.withRoots platform : Hierarchy κ).content? t = _
    rw [Hierarchy.content?, view?_withRoots, if_pos ht]
    rfl

/-- Snapshots and queue stay, and so do the nodes with a view and their properties. -/
theorem congr (h : Portrayed platform past scene native)
    (hqueue : ∀ t, native.foreseen done.mount.queue t = native.foreseen scene.mount.queue t)
    (hsent : done.mount.sentStates = scene.mount.sentStates)
    (hroots : done.tree.roots = scene.tree.roots)
    (hviews : ∀ t, done.tree.viewProps? t = scene.tree.viewProps? t)
    (hfree : ∀ t ∈ platform, t ∉ past → scene.tree.contains t = false →
      done.tree.contains t = false) : Portrayed platform past done native := by
  have hcreated : ∀ t, done.tree.createdAt t = scene.tree.createdAt t := fun t => by
    rw [← Tree.isSome_viewProps?, ← Tree.isSome_viewProps?, hviews]
  have hremembered : ∀ t, done.mount.sent t = scene.mount.sent t := fun t => by
    rw [MountState.sent, MountState.sent, hsent]
  refine ⟨fun t => ?_, fun {t} hview => ?_, fun {t props} hprops => ?_, fun {t} ht hnew => ?_⟩
  -- the four parts in turn, each read in the later scene
  · rw [hsent, hcreated]
    exact h.known t
  · rw [hcreated] at hview
    rw [MountState.Shows, hqueue, hremembered, hroots]
    exact h.shows hview
  · rw [hviews] at hprops
    rw [hremembered]
    exact h.agrees hprops
  · obtain ⟨hcontains, hcontent⟩ := h.awaited ht hnew
    rw [hqueue]
    exact ⟨hfree t ht hnew hcontains, hcontent⟩

/-- The same, where the tree stays. -/
theorem congr_mount {tree : Tree κ} {mount mount' : MountState κ} {log log' : List Log.Line}
    (h : Portrayed platform past ⟨tree, mount, log⟩ native)
    (hqueue : ∀ t, native.foreseen mount'.queue t = native.foreseen mount.queue t)
    (hsent : mount'.sentStates = mount.sentStates) :
    Portrayed platform past ⟨tree, mount', log'⟩ native :=
  h.congr hqueue hsent rfl (fun _ => rfl) fun _ _ _ => id

/-- A root to come is not a node. -/
theorem ne_awaited {tag t : Tag} (h : Portrayed platform past scene native)
    (htag : scene.tree.contains tag = true) (ht : t ∈ platform) (hnew : t ∉ past) : tag ≠ t := by
  rintro rfl
  rw [(h.awaited ht hnew).1] at htag
  cases htag

/-- What is sent to a node makes no difference to a root to come. -/
theorem awaited_told {tag t : Tag} {operations : List (Operation κ)}
    (h : Portrayed platform past scene native)
    (htells : scene.mount.Tells tag operations done.mount) (htag : scene.tree.contains tag = true)
    (hlinks : scene.tree.SameLinks done.tree) (ht : t ∈ platform) (hnew : t ∉ past) :
    done.tree.contains t = false ∧
      ∃ content, native.foreseen done.mount.queue t = some content ∧ content.props = .empty := by
  rw [hlinks.contains, htells.foreseen_other (h.ne_awaited htag ht hnew)]
  exact h.awaited ht hnew

/-- Something is sent to a view and remembered. -/
theorem told {tag : Tag} {operations : List (Operation κ)} (h : Portrayed platform past scene native)
    (htells : scene.mount.Tells tag operations done.mount)
    (hview : scene.tree.createdAt tag = true) (hlinks : scene.tree.SameLinks done.tree)
    (hcreated : ∀ t, done.tree.createdAt t = scene.tree.createdAt t)
    (hagrees : ∀ {t props}, done.tree.viewProps? t = some props →
      (done.mount.sent t).props.Agrees props) : Portrayed platform past done native := by
  refine ⟨fun t => ?_, fun {t} ht => ?_, hagrees,
    h.awaited_told htells (Tree.contains_of_createdAt hview) hlinks⟩
  · rw [htells.known ((h.known tag).mpr hview), hcreated]
    exact h.known t
  · rw [hcreated] at ht
    rw [hlinks.roots]
    -- the view addressed shows what was sent; the others show what they showed
    by_cases heq : tag = t
    · subst heq
      exact htells.shows (h.shows hview)
    · exact htells.shows_other heq (h.shows ht)

/-- The same, where neither the tree nor the properties in the snapshots change. -/
theorem told_plain {tree : Tree κ} {mount told : MountState κ} {log : List Log.Line} {tag : Tag}
    {operations : List (Operation κ)} (h : Portrayed platform past ⟨tree, mount, log⟩ native)
    (htells : mount.Tells tag operations told)
    (hplain : ∀ operation ∈ operations, operation.isCreate = false ∧ operation.props? = none)
    (hview : tree.createdAt tag = true) : Portrayed platform past ⟨tree, told, log⟩ native := by
  refine h.told htells hview (.refl tree) (fun _ => rfl) fun {t props} hprops => ?_
  rw [htells.props hplain t]
  exact h.agrees hprops

/-- A node gets a view with all its properties. -/
theorem created {tree : Tree κ} {mount : MountState κ} {log : List Log.Line} {tag : Tag}
    {node : Node κ} (h : Portrayed platform past ⟨tree, mount, log⟩ native)
    (hget : tree.get? tag = some node) : Portrayed platform past
      ⟨tree.store tag { node with created := true }, mount.createSent tag node, log⟩ native := by
  have htells := mount.tells_createSent tag node
  have hlinks := @Tree.sameLinks_store _ tree tag node { node with created := true } hget rfl rfl rfl
  have hcreated : ∀ t, (tree.store tag { node with created := true }).createdAt t =
      if tag = t then true else tree.createdAt t := fun t => Tree.createdAt_store tag t _
  refine ⟨fun t => ?_, fun {t} ht => ?_, fun {t props} hprops => ?_,
    h.awaited_told htells (Tree.contains_of_get? hget) hlinks⟩
  -- a snapshot is made with the view
  · show t ∈ ((mount.enqueue _).remember tag _).sentStates ↔ _
    rw [MountState.mem_remember, hcreated]
    by_cases heq : tag = t
    · simp [heq]
    · simp only [heq, false_or, if_false]
      exact h.known t
  -- the new view shows what its create carries; the others show what they showed
  · by_cases heq : tag = t
    · subst heq
      exact mount.shows_createSent native _ tag node
    · rw [hcreated, if_neg heq] at ht
      exact htells.shows_other heq (h.shows ht)
  -- and the create carries all properties the node has
  · dsimp only at hprops ⊢
    rw [Tree.viewProps?_store] at hprops
    rw [MountState.sent_createSent]
    by_cases heq : tag = t
    · rw [if_pos heq, if_pos rfl] at hprops
      rw [if_pos heq, ← Option.some.inj hprops]
      exact .refl _
    · rw [if_neg heq] at hprops
      rw [if_neg heq]
      exact h.agrees hprops

/-- A root to come becomes a node, with the view that the platform has made for it. -/
theorem addRoot [Coordinate κ] {tree : Tree κ} {mount : MountState κ} {log log' : List Log.Line}
    {tag : Tag} {viewClass : String} {width height : κ} {sent : SentState κ}
    (h : Portrayed platform past ⟨tree, mount, log⟩ native) (hfree : tree.contains tag = false)
    (hplatform : tag ∈ platform) (hnew : tag ∉ past) (hprops : sent.props = .empty) :
    Portrayed platform (tag :: past)
      ⟨tree.withRootNode tag viewClass width height, mount.remember tag sent, log'⟩ native := by
  have hregistered := @Tree.registered_withRootNode _ tree _ tag viewClass width height hfree
  have hremembered := mount.sent_remember tag
  refine ⟨fun t => ?_, fun {t} hview => ?_, fun {t props} hcurrent => ?_, fun {t} ht hlater => ?_⟩
  -- the snapshot of the root is made with its node
  · rw [MountState.mem_remember]
    by_cases heq : tag = t
    · subst heq
      simp [createdAt_withRootNode]
    · simp only [heq, false_or, hregistered.created heq]
      exact h.known t
  · by_cases heq : tag = t
    · -- the platform places the view, and nothing else has been sent to it
      subst heq
      obtain ⟨-, content, hcontent, hempty⟩ := h.awaited hplatform hnew
      refine ⟨content, hcontent, ?_, fun hother => absurd (Tree.mem_withRoot.mpr (.inr rfl)) hother⟩
      rw [hremembered, if_pos rfl, hempty, hprops]
    · rw [hregistered.created heq] at hview
      obtain ⟨content, hcontent, hshown⟩ :=
        (h.shows hview).imp fun hroot => Tree.mem_withRoot.mpr (.inl hroot)
      refine ⟨content, hcontent, ?_⟩
      rw [hremembered, if_neg heq]
      exact hshown
  -- neither the view nor the node has properties yet
  · have hcurrent := (Tree.viewProps?_store ..).symm.trans hcurrent
    dsimp only
    rw [hremembered]
    by_cases heq : tag = t
    · rw [if_pos heq] at hcurrent
      rw [if_pos heq, hprops, ← Option.some.inj hcurrent]
      exact .refl _
    · rw [if_neg heq] at hcurrent
      rw [if_neg heq]
      exact h.agrees hcurrent
  -- the other roots to come are as they were
  · obtain ⟨hother, hlater⟩ := not_or.mp (mt List.mem_cons.mpr hlater)
    obtain ⟨hcontains, hcontent⟩ := h.awaited ht hlater
    rw [hregistered.contains, decide_eq_false (Ne.symm hother)]
    exact ⟨hcontains, hcontent⟩

/-- A new node has no view, and its tag is that of no root. -/
theorem register {tree : Tree κ} {mount : MountState κ} {log : List Log.Line} {node : Node κ}
    (h : Portrayed platform past ⟨tree, mount, log⟩ native) (hcreated : node.created = false)
    (hfree : tree.contains node.tag = false) (hplatform : node.tag ∉ platform) :
    Portrayed platform past ⟨tree.store node.tag node, mount, log⟩ native := by
  refine h.congr (fun _ => rfl) rfl rfl (fun t => ?_) fun t ht _ hcontains => ?_
  · dsimp only
    rw [Tree.viewProps?_store, hcreated]
    split
    · next heq => rw [← heq, Tree.viewProps?_of_free hfree]; rfl
    · rfl
  · dsimp only
    rw [Tree.contains_store, decide_eq_false fun heq : node.tag = t => hplatform (heq ▸ ht)]
    exact hcontains

/-- Views are forgotten with their nodes, and what is sent to the others stays. -/
theorem trim {tree after : Tree κ} {mount : MountState κ} {log log' : List Log.Line}
    {gone : List Tag} (h : Portrayed platform past ⟨tree, mount, log⟩ native)
    (htrimmed : tree.Trimmed gone after) : Portrayed platform past
      ⟨after, mount.scheduledAll tree.isRoot (gone.filter tree.createdAt), log'⟩ native := by
  have hstays : ∀ {t}, t ∉ gone → t ∉ gone.filter tree.createdAt :=
    fun hnot hmem => hnot (List.mem_filter.mp hmem).1
  refine ⟨fun t => ?_, fun {t} hview => ?_, fun {t props} hcurrent => ?_, fun {t} ht hnew => ?_⟩
  -- snapshots are erased with the views of removed nodes
  · dsimp only
    rw [Std.ExtTreeMap.mem_iff_isSome_getElem?, MountState.sentStates_scheduledAll,
      htrimmed.createdAt_iff]
    have hknown := h.known t
    rw [Std.ExtTreeMap.mem_iff_isSome_getElem?] at hknown
    dsimp only at hknown
    split
    · next hmem => simp [(List.mem_filter.mp hmem).1]
    · next hmem =>
      rw [hknown]
      refine ⟨fun hview => ⟨fun hgone => hmem (List.mem_filter.mpr ⟨hgone, hview⟩), hview⟩, And.right⟩
  -- what is sent to a view that stays is not pruned
  · obtain ⟨hnot, hview⟩ := htrimmed.createdAt_iff.mp hview
    refine ((h.shows hview).scheduledAll (hstays hnot)).imp fun hroot => ?_
    exact (htrimmed.roots t).mpr ⟨hroot, hnot⟩
  -- neither its snapshot nor its node is touched
  · have hview : after.createdAt t = true := by
      rw [← Tree.isSome_viewProps?, hcurrent]
      rfl
    have hnot := (htrimmed.createdAt_iff.mp hview).1
    dsimp only at hcurrent ⊢
    rw [Tree.viewProps?_congr (htrimmed.created hnot) (htrimmed.props hnot)] at hcurrent
    rw [MountState.sent_scheduledAll _ _ (hstays hnot)]
    exact h.agrees hcurrent
  -- a root to come is no node, so it is not removed, and nothing sent to it is pruned
  · obtain ⟨hcontains, hcontent⟩ := h.awaited ht hnew
    have hnot : t ∉ gone := fun hgone => h.ne_awaited (htrimmed.registered hgone) ht hnew rfl
    refine ⟨Bool.eq_false_iff.mpr fun hafter => ?_, ?_⟩
    · rw [(htrimmed.contains_iff.mp hafter).1] at hcontains
      cases hcontains
    · dsimp only
      rw [MountState.foreseen_scheduledAll (hstays hnot)]
      exact hcontent

end Portrayed

/-! ## Commands

What is sent to a view changes the view and its snapshot alike. A promotion changes neither, and a
removal takes the view and the snapshot away together. -/

section Steps

variable [Coordinate κ] {platform past : List Tag} {scene done : Scene κ} {native : Hierarchy κ}

/-- A step of a reconciliation keeps snapshots and views together. -/
theorem Mount.Step.portrayed (h : Mount.Step scene done)
    (hportrayed : Portrayed platform past scene native) : Portrayed platform past done native := by
  cases h with
  | create hget => exact hportrayed.created hget
  | @frame tree mount log tag parent frame hview =>
    obtain ⟨operations, htells, hplain⟩ := mount.tells_frameSent tag parent frame
    exact hportrayed.told_plain htells hplain hview
  | @children tree mount log tag children hview =>
    obtain ⟨operations, htells, hplain⟩ := mount.tells_childrenSent tag children
    exact hportrayed.told_plain htells hplain hview
  | note => exact hportrayed.congr_mount (fun _ => rfl) rfl

omit [Coordinate κ] in
/-- A promotion changes no flag of a view and no property. -/
theorem Portrayed.promoted {tree : Tree κ} {mount : MountState κ} {log : List Log.Line} {tag : Tag}
    {node : Node κ} (h : Portrayed platform past ⟨tree, mount, log⟩ native)
    (hget : tree.get? tag = some node) :
    Portrayed platform past ⟨tree.store tag node.promote, mount, log⟩ native := by
  refine h.congr (fun _ => rfl) rfl rfl ?_ fun t _ _ hfree => ?_
  · exact Tree.viewProps?_replace hget node.created_promote fun _ => node.props_promote
  · exact ((Tree.sameLinks_promote hget).contains t).trans hfree

/-- A step of an escalation keeps them together. -/
theorem Mount.Rise.portrayed (h : Mount.Rise scene done)
    (hportrayed : Portrayed platform past scene native) : Portrayed platform past done native := by
  cases h with
  | step h => exact h.portrayed hportrayed
  | promote hget => exact hportrayed.promoted hget
  | @insert tree mount log tag parent node children hget hpromotable hcreated hparent habove =>
    -- the child list of the native parent, and then the new view
    obtain ⟨operations, htells, hplain⟩ := mount.tells_childrenSent parent children
    have hview : (tree.store tag node.promote).createdAt parent = true :=
      (Tree.createdAt_promote hget parent).trans habove
    exact ((hportrayed.promoted hget).told_plain htells hplain hview).created
      (Tree.get?_store_self ..)

/-- Steps keep them together, one after the other. -/
theorem Mount.Progress.portrayed (h : Mount.Progress scene done)
    (hportrayed : Portrayed platform past scene native) : Portrayed platform past done native := by
  induction h with
  | refl => exact hportrayed
  | tail _ hrise ih => exact hrise.portrayed ih

/-- A command that neither registers nor removes a node. -/
theorem Activity.portrayed (h : Activity scene done)
    (hportrayed : Portrayed platform past scene native) : Portrayed platform past done native := by
  cases h with
  -- a frame or properties of the node are set, of which no view is told
  | @revise tree mount log tag node hget frame props log' hprops =>
    have hlinks := @Tree.sameLinks_store _ tree tag node { node with frame, props } hget rfl rfl rfl
    exact hportrayed.congr (fun _ => rfl) rfl rfl (Tree.viewProps?_replace hget rfl hprops)
      fun t _ _ hfree => (hlinks.contains t).trans hfree
  -- properties are set, and their changes are sent to the view
  | @send tree mount log tag node hget hcreated frame props viewClass delta log' hprops =>
    obtain ⟨operations, htells, hmerged⟩ := mount.tells_propsSent tag viewClass delta
    have hview : tree.createdAt tag = true := (Tree.createdAt_of_get? hget).trans hcreated
    refine hportrayed.told htells hview (Tree.sameLinks_store hget rfl rfl rfl)
      (fun t => (Tree.flags_update hget frame props t).1) fun {t current} hcurrent => ?_
    dsimp only at hcurrent ⊢
    rw [Tree.viewProps?_store] at hcurrent
    by_cases heq : tag = t
    · -- the delta goes to the node in full and to the snapshot by its changes
      subst heq
      rw [if_pos rfl, if_pos hcreated] at hcurrent
      have hbefore := hportrayed.agrees (Tree.viewProps?_of_get? hget hcreated)
      rw [← Option.some.inj hcurrent, hmerged, hprops]
      exact hbefore.merge delta
    · rw [if_neg heq] at hcurrent
      rw [htells.others heq]
      exact hportrayed.agrees hcurrent
  -- an operation for the view of an escalated node
  | @act _ tree mount log h operation hharmless hframe hprops =>
    have hascended := Mount.Progress.portrayed h.progress hportrayed
    have hplain := Operation.isPlain_iff.mp hharmless.isPlain
    -- it is none of those that are remembered
    have hforgotten : ∀ sent, operation.remembered sent = sent := by
      intro sent
      cases operation with
      | create => cases hharmless
      | setProps => cases hprops
      | setFrame => cases hframe
      | setChildren => cases hharmless
      | _ => rfl
    cases htarget : operation.target? with
    | none =>
      -- nobody is addressed, so that all views will be what they would have been
      refine hascended.congr_mount (fun t => Hierarchy.foreseen_append ?_) rfl
      exact List.forall_mem_singleton.mpr (by simp [htarget])
    | some tag =>
      have htells : mount.Tells tag [operation] (mount.enqueue operation) :=
        MountState.tells_enqueue hplain.2 (by simp [htarget]) hforgotten
      refine hascended.told_plain htells ?_ ?_
      · exact List.forall_mem_singleton.mpr ⟨hplain.1, hprops⟩
      · exact hharmless.viewed tag (Operation.mem_mentions_of_target? htarget)

/-- A command that registers as it is expected to keeps snapshots and views together. -/
theorem Effect.portrayed {managers : Managers} {registration : Registration} {removals : List Tag}
    (h : Effect managers registration removals scene done)
    (hportrayed : Portrayed platform past scene native)
    (hexpected : registration.Expected platform past) :
    Portrayed platform (registration.extend past) done native := by
  cases h with
  | addRoot hfree sent hsent log' hprops =>
    exact hportrayed.addRoot hfree hexpected.1 hexpected.2 hprops
  | create hfresh hcreated hfree => exact hportrayed.register hcreated hfree hexpected
  | trim htrimmed => exact hportrayed.trim htrimmed
  | active h => exact h.portrayed hportrayed

/-! ## Passes

A flush executes what waits, so that what views will be is what they are. -/

omit [Coordinate κ] in
/-- A flush does to the views that stay what was to be expected. -/
theorem Mirrored.content?_flush (h : Mirrored platform past scene native)
    (hsettled : ∀ root ∈ scene.tree.roots, Mount.Settled scene root) {t : Tag}
    (ht : t ∉ scene.mount.dropTags) :
    (scene.mount.closePass.1.deliveries.foldl Hierarchy.receive native).content? t =
      native.foreseen scene.mount.queue t := by
  have hquiet := h.flush_consistent hsettled
  rw [Hierarchy.foldl_receive_deliveries] at hquiet ⊢
  -- the end of the batch touches no view
  have hbatch : ((scene.mount.queue ++ scene.mount.drops.map PendingDrop.operation).foldl
      Hierarchy.execute native).violations = [] := (List.append_eq_nil_iff.mp hquiet).1
  refine (Hierarchy.content?_eq_foreseen hbatch t).trans (Hierarchy.foreseen_append ?_)
  refine List.forall_mem_map.mpr fun drop hdrop htarget => ht ?_
  rw [PendingDrop.target?_operation, Option.some.injEq] at htarget
  exact htarget ▸ List.mem_map_of_mem hdrop

omit [Coordinate κ] in
/-- A flush leaves nothing to come: the native views are what the snapshots say. -/
theorem Portrayed.flush (h : Portrayed platform past scene native)
    (hmirrored : Mirrored platform past scene native)
    (hsettled : ∀ root ∈ scene.tree.roots, Mount.Settled scene root) (log : List Log.Line) :
    Portrayed platform past ⟨scene.tree, scene.mount.closePass.2, log⟩
      (scene.mount.closePass.1.deliveries.foldl Hierarchy.receive native) := by
  have hcontent : ∀ {t}, t ∉ scene.mount.dropTags →
      (scene.mount.closePass.1.deliveries.foldl Hierarchy.receive native).foreseen [] t =
        native.foreseen scene.mount.queue t := fun ht => hmirrored.content?_flush hsettled ht
  refine ⟨h.known, fun {t} hview => ?_, h.agrees, fun {t} ht hnew => ?_⟩
  · obtain ⟨content, hforeseen, hshown⟩ := h.shows hview
    exact ⟨content, (hcontent (hmirrored.not_dropped (.inl hview))).trans hforeseen, hshown⟩
  · obtain ⟨hcontains, content, hforeseen, hempty⟩ := h.awaited ht hnew
    have hstays := hmirrored.not_dropped (.inr ⟨ht, hnew⟩)
    exact ⟨hcontains, content, (hcontent hstays).trans hforeseen, hempty⟩

omit [Coordinate κ] in
/-- Frames are set in the tree alone. -/
theorem Portrayed.reframed (h : Portrayed platform past scene native) {framed : Tree κ}
    (hframed : scene.tree.Reframed framed) :
    Portrayed platform past { scene with tree := framed } native := by
  have hlinks := hframed.kept.links
  exact h.congr (fun _ => rfl) rfl hlinks.roots hframed.viewProps?
    fun t _ _ hfree => (hlinks.contains t).trans hfree

/-- A pass keeps them together, whether or not it flushes. -/
theorem Ui.Passes.portrayed {ui after : Ui κ} {report : PassReport κ} (h : ui.Passes report after)
    (hsound : ui.scene.Sound) (hstep : InStep platform past ui.scene native)
    (hportrayed : Portrayed platform past ui.scene native) :
    Portrayed platform past after.scene (native.absorb report) := by
  obtain ⟨framed, hframed, ⟨-, hflush, hscene⟩ | ⟨log, hflush, hscene⟩⟩ := h.reframes hsound
  -- no flush: only frames were set, and no view is told of that
  · rw [hscene, Hierarchy.absorb, hflush]
    exact hportrayed.reframed hframed
  -- a flush: the steps of the pass keep both invariants, and the flush catches up
  · have hstart := Touches.inStep (hframed.touches ui.scene.mount ui.scene.log) hstep
    have hopened : InStep platform past _ native := ⟨hstart.toMirrored.opened, hstart.free⟩
    obtain ⟨-, hrun, hsettled⟩ := Mount.refreshRoots_run hstart.sound
    have hprogress := Mount.Run.progress hrun
    have hrefreshed := Touches.inStep (Touches.ofProgress hprogress) hopened
    rw [hscene, Hierarchy.absorb, hflush]
    refine Portrayed.flush (Mount.Progress.portrayed hprogress ?_) hrefreshed.toMirrored hsettled log
    exact (hportrayed.reframed hframed).congr_mount (fun _ => rfl) rfl

end Steps

/-! ## Sessions

At every moment the queue may be executed in the mind: this gives the views as in their snapshots,
without a violation. -/

section Sessions

variable [Coordinate κ] {platform past : List Tag} {ui : Ui κ} {native : Hierarchy κ}

/-- Snapshots and views stay together in every session. -/
theorem Session.portrayed (h : Session platform past ui native) :
    Portrayed platform past ui.scene native := by
  induction h with
  | start managers config => exact .start platform config []
  -- a command that succeeds
  | @perform past ui native h command hok hallowed ih =>
    obtain ⟨done, hdone, heffect⟩ := Ui.effect_of_ok h.inStep.1 hok
    rw [hdone]
    exact heffect.portrayed ih hallowed.expected
  -- a command that fails leaves a line in the log
  | @refuse past ui native h command err hrefused ih =>
    obtain ⟨log, herr⟩ := Ui.unchanged_of_error h.inStep.1 hrefused
    rw [herr]
    exact ih.congr_mount (fun _ => rfl) rfl
  | runPass h ih => exact Ui.Passes.plain.portrayed h.inStep.1 h.inStep.2 ih
  | layOutAndRunPass h engine hengine ih =>
    exact (Ui.Passes.laidOut engine hengine).portrayed h.inStep.1 h.inStep.2 ih

omit [Coordinate κ] in
/-- Once the queue is executed the scene is shown, and there is no violation. -/
theorem Native.Mirror.caughtUp {scene : Scene κ} (h : Mirror platform past scene native) :
    (scene.mount.queue.foldl Hierarchy.execute native).violations = [] ∧
      Shown platform past scene.tree scene.mount (fun _ => false)
        (scene.mount.queue.foldl Hierarchy.execute native) := by
  have hshown := h.shown fun _ => false
  have hrecord := h.record fun _ => false
  rw [Hierarchy.replay_skip_none] at hshown hrecord
  exact ⟨hrecord.violations.trans h.consistent, hshown⟩

omit [Coordinate κ] in
/-- The view of a node and its snapshot, once the queue is executed. -/
theorem Portrayed.caughtUp {scene : Scene κ} (h : Portrayed platform past scene native)
    (hmirror : Mirror platform past scene native) {tag : Tag} {node : Node κ}
    (hget : scene.tree.get? tag = some node) (hcreated : node.created = true) :
    ∃ view sent, (scene.mount.queue.foldl Hierarchy.execute native).view? tag = some view ∧
      scene.mount.sentStates[tag]? = some sent ∧ view.children = sent.children ∧
      (tag ∉ scene.tree.roots → view.frame = sent.frame) ∧
      view.props = sent.props ∧ view.props.Agrees node.props := by
  have hview : scene.tree.createdAt tag = true := (Tree.createdAt_of_get? hget).trans hcreated
  obtain ⟨hquiet, hshown⟩ := hmirror.caughtUp
  -- the snapshot is there, and is what the mount state answers
  obtain ⟨sent, hsent⟩ : ∃ sent, scene.mount.sentStates[tag]? = some sent :=
    Option.isSome_iff_exists.mp (Std.ExtTreeMap.mem_iff_isSome_getElem?.mp ((h.known tag).mpr hview))
  have hanswer : scene.mount.sent tag = sent := by rw [MountState.sent, hsent, Option.getD_some]
  obtain ⟨content, hforeseen, hprops, hframe⟩ := h.shows hview
  -- what is foreseen for a view is what it holds once the queue is executed
  rw [← Hierarchy.content?_eq_foreseen hquiet, Hierarchy.content?, Option.map_eq_some_iff]
    at hforeseen
  obtain ⟨view, hfound, rfl⟩ := hforeseen
  -- the child list comes from the mirror, the rest from the snapshot
  have hchildren := hshown.children hview rfl
  rw [Hierarchy.childrenOf, hfound] at hchildren
  have hagrees := h.agrees (Tree.viewProps?_of_get? hget hcreated)
  rw [← hprops] at hagrees
  rw [hanswer] at hchildren hprops hframe
  exact ⟨view, sent, hfound, hsent, hchildren, hframe, hprops, hagrees⟩

variable {managers : Managers} {config : Config} {requests : List (Request κ)}

/-- Snapshots never drift from the native side. Let engines only set frames, let no tag be registered
while it waits for its drop, and let the roots be registered as the platform expects. Then at every
moment of a run the queue could be executed: there would be no violation, and the views would be
those of nodes, those that wait for their drop and those of roots to come. There is a snapshot for
exactly the nodes with a view, and the view would have the children, the frame and the properties of
the snapshot, and properties that agree with those of the node. -/
theorem Ui.snapshots_faithful (hfair : (Ui.new managers config : Ui κ).Obeys Fair requests)
    (hrooted : Registration.Rooted platform ((Ui.new managers config).registrations requests)) :
    let ui : Ui κ := Ui.new managers config
    let scene := (ui.after requests).scene
    let native := (Hierarchy.withRoots platform).follow (ui.answers requests)
    let caughtUp := scene.mount.queue.foldl Hierarchy.execute native
    native.violations = [] ∧ caughtUp.violations = [] ∧
    (∀ tag, caughtUp.hasView tag = true ↔
      scene.tree.createdAt tag = true ∨ tag ∈ scene.mount.dropTags ∨
        tag ∈ platform ∧ .root tag ∉ ui.registrations requests) ∧
    (∀ tag, tag ∈ scene.mount.sentStates ↔ scene.tree.createdAt tag = true) ∧
    ∀ {tag node}, scene.tree.get? tag = some node → node.created = true →
      ∃ view sent, caughtUp.view? tag = some view ∧
        scene.mount.sentStates[tag]? = some sent ∧ view.children = sent.children ∧
        (tag ∉ scene.tree.roots → view.frame = sent.frame) ∧
        view.props = sent.props ∧ view.props.Agrees node.props := by
  intro ui scene native caughtUp
  have hsession := Ui.session hfair hrooted
  have hmirror := hsession.inStep.2.mirror
  have hportrayed := hsession.portrayed
  obtain ⟨hquiet, hshown⟩ := hmirror.caughtUp
  refine ⟨hmirror.consistent, hquiet, fun tag => ?_, hportrayed.known, hportrayed.caughtUp hmirror⟩
  -- the roots to come are the platform's but for those registered so far
  refine (hshown.views tag).trans ?_
  rw [Registration.mem_foldl_extend]
  simp only [List.not_mem_nil, false_or]
  exact .rfl

end Sessions

/-- The inset of a scroller that is shown is set to the other zero, the plain node above it is given
a view and takes it over from the root, and another scroller is removed. No pass follows. -/
def interrupted : List (Request Float32) :=
  [.perform (.addRoot 1 100 100), .perform (.create 2 "View" 1 .empty),
    .perform (.create 3 "ScrollView" 1 (.ofList [("inset", .number ⟨0⟩)])),
    .perform (.create 4 "ScrollView" 1 .empty), .perform (.prependChildren 2 [3]),
    .perform (.prependChildren 1 [2, 4]), .pass,
    .perform (.update 3 "ScrollView" (.ofList [("inset", .number ⟨0x8000000000000000⟩)])),
    .perform (.sendCommand 2 0 []), .perform (.editChildren 1 { removeFrom := [1] })]

/-- With six operations to come, the native side would have the view that waits for its drop and
that of the root to come. The view of the scroller would be as in its snapshot. -/
theorem Ui.snapshots_faithful_interrupted :
    let ui : Ui Float32 := Ui.new Managers.builtins {}
    let scene := (ui.after interrupted).scene
    let native := (Hierarchy.withRoots [1, 9]).follow (ui.answers interrupted)
    let caughtUp := scene.mount.queue.foldl Hierarchy.execute native
    scene.mount.queue.length = 6 ∧ scene.mount.dropTags = [4] ∧ caughtUp.violations = [] ∧
    caughtUp.hasView 4 = true ∧ caughtUp.hasView 9 = true ∧
    ∃ node view sent, scene.tree.get? 3 = some node ∧ caughtUp.view? 3 = some view ∧
      scene.mount.sentStates[3]? = some sent ∧ view.children = sent.children ∧
      view.frame = sent.frame ∧ view.props = sent.props ∧ view.props.Agrees node.props := by
  dsimp only
  have hfair : (Ui.new Managers.builtins {}).Obeys Ui.Fair interrupted := by
    refine ⟨⟨trivial, ?_⟩, ⟨trivial, ?_⟩, ⟨trivial, ?_⟩, ⟨trivial, ?_⟩, ⟨trivial, ?_⟩,
      ⟨trivial, ?_⟩, ⟨trivial, ?_⟩, ⟨trivial, ?_⟩, ⟨trivial, ?_⟩, ⟨trivial, ?_⟩, trivial⟩ <;>
      decide +kernel
  have hregistrations : (Ui.new Managers.builtins {}).registrations interrupted =
      [.root 1, .node 2, .node 3, .node 4] ++ .replicate 6 .none := by decide +kernel
  have hrooted : Registration.Rooted [1, 9]
      ((Ui.new Managers.builtins {}).registrations interrupted) := by
    rw [hregistrations]
    exact ⟨by decide, by simp, by simp⟩
  obtain ⟨-, hquiet, hviews, -, hshown⟩ := Ui.snapshots_faithful hfair hrooted
  have hdrops : ((Ui.new Managers.builtins {}).after interrupted).scene.mount.dropTags = [4] := by
    decide +kernel
  have hnew : Registration.root 9 ∉ (Ui.new Managers.builtins {}).registrations interrupted := by
    rw [hregistrations]
    decide
  have hview : ((Ui.new Managers.builtins {}).after interrupted).scene.tree.createdAt 3 =
      true := by decide +kernel
  have hroots : 3 ∉ ((Ui.new Managers.builtins {}).after interrupted).scene.tree.roots := by
    decide +kernel
  obtain ⟨node, hget, hcreated⟩ := Tree.get?_of_createdAt hview
  obtain ⟨view, sent, hfound, hsent, hchildren, hframe, hprops, hagrees⟩ := hshown hget hcreated
  refine ⟨by decide +kernel, hdrops, hquiet, (hviews 4).mpr (.inr (.inl ?_)),
    (hviews 9).mpr (.inr (.inr ⟨by decide, hnew⟩)), node, view, sent, hget, hfound, hsent,
    hchildren, hframe hroots, hprops, hagrees⟩
  rw [hdrops]
  exact List.mem_singleton_self 4

end ShadowMount
