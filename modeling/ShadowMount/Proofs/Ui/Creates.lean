import ShadowMount.Proofs.Ui.Journal

/-!
# Creates

A node that is not a root gets its view by a create, and its lifetime lasts from its registration to
its removal. In each lifetime there is at most one create and nothing is addressed to the node
before it.

* **`lifetime`** — the lifetime of a tag that is under way after some events, with the operations
  addressed to the tag.
* **`Lawful.fits`** — lifetimes go with standings, and so they begin with the create.
* **`History.create_discipline`** — what holds of the creates of every run.
-/

namespace ShadowMount

variable {κ : Type}

/-- A part of a lifetime: whether the node is a root, and what was addressed to it so far. -/
structure Lifetime (κ : Type) where
  /-- Whether the node is a root. -/
  isRoot : Bool
  /-- What was addressed to the node, oldest first. -/
  operations : List (Operation κ) := []

namespace Lifetime

/-- Whether a create was among the operations. -/
def hasCreate (life : Lifetime κ) : Bool := life.operations.any Operation.isCreate

/-- The operations of a node that has its view: for a root no create, and else one create at the
start. -/
def Viewed (life : Lifetime κ) : Prop :=
  if life.isRoot then life.hasCreate = false
  else ∃ create rest, life.operations = create :: rest ∧ create.isCreate = true ∧
    rest.any Operation.isCreate = false

/-- There is at most one create, which comes first; before it nothing is addressed to the node, and
a root has none at all. -/
def CreatedOnce (life : Lifetime κ) : Prop :=
  life.Viewed ∨ life.isRoot = false ∧ life.operations = []

end Lifetime

/-- The lifetime of a tag after one more event about it. -/
def Event.onLifetime (life : Option (Lifetime κ)) : Event κ → Option (Lifetime κ)
  | register _ isRoot => some { isRoot }
  | unregister .. => none
  | enqueue operation .. =>
    life.map fun life => { life with operations := life.operations ++ [operation] }

/-- The lifetime of a tag that is under way after some events, if there is one. -/
def lifetime (tag : Tag) (events : List (Event κ)) : Option (Lifetime κ) :=
  (events.filter (·.subject? = some tag)).foldl Event.onLifetime none

/-- Whether the lifetime of a tag that is under way has had a create. -/
def hadCreate (tag : Tag) (events : List (Event κ)) : Bool :=
  (lifetime tag events).any Lifetime.hasCreate

/-- What the standing of a tag says of its lifetime. -/
def Standing.Fits (life : Option (Lifetime κ)) : Standing → Prop
  | absent | doomed _ => life = none
  | hidden => life = some { isRoot := false }
  | shown isRoot => ∃ operations, life = some { isRoot, operations } ∧
    Lifetime.Viewed { isRoot, operations }

/-! ## Lifetimes and standings

The record of events says which operations a lifetime has, and the standing of a tag says where in
its life the tag is. Every lawful event keeps the two fitting each other, and what is to be said
about creates is read off from this. -/

/-- A plain operation does not change that the create comes first and only once. -/
theorem Lifetime.Viewed.concat {isRoot : Bool} {operations : List (Operation κ)}
    (h : Viewed { isRoot, operations }) {operation : Operation κ}
    (hplain : operation.isCreate = false) :
    Viewed { isRoot, operations := operations ++ [operation] } := by
  cases isRoot with
  | true =>
    -- the view of a root is the platform's, and never created
    have hnone : operations.any Operation.isCreate = false := h
    show (operations ++ [operation]).any Operation.isCreate = false
    rw [List.any_append, hnone, List.any_cons, hplain]
    rfl
  | false =>
    obtain ⟨create, rest, rfl, hcreate, hrest⟩ : ∃ create rest, operations = create :: rest ∧
      create.isCreate = true ∧ rest.any Operation.isCreate = false := h
    refine ⟨create, rest ++ [operation], rfl, hcreate, ?_⟩
    rw [List.any_append, hrest, List.any_cons, hplain]
    rfl

/-- An event about a tag keeps its lifetime and its standing together. -/
theorem Event.Leads.fits {s done : Tag → Standing} {event : Event κ} (h : event.Leads s done)
    {tag : Tag} (hsubject : event.subject? = some tag) {life : Option (Lifetime κ)}
    (hfits : (s tag).Fits life) : (done tag).Fits (event.onLifetime life) := by
  -- by the kind of the event; a plain operation finds the view shown and is added to the lifetime,
  -- and only registration and creation change what the standing says
  cases h with
  | @register _ _ isRoot =>
    cases hsubject
    rw [Function.update_self]
    cases isRoot with
    | true => exact ⟨[], rfl, rfl⟩
    | false => exact rfl
  | unregister =>
    cases hsubject
    rw [Function.update_self]
    cases s tag with
    | absent => exact rfl
    | hidden => exact rfl
    | shown isRoot => exact rfl
    | doomed isRoot => exact rfl
  | create hhidden =>
    cases hsubject
    rw [hhidden] at hfits
    obtain rfl : life = some { isRoot := false } := hfits
    rw [Function.update_self]
    -- the create is the first operation of a lifetime that had none
    exact ⟨_, rfl, _, [], rfl, rfl, rfl⟩
  | @drop _ _ _ drop hdoomed =>
    obtain rfl : drop.tag = tag :=
      Option.some.inj (drop.target?_operation.symm.trans hsubject)
    rw [hdoomed] at hfits
    obtain rfl : life = none := hfits
    rw [Function.update_self]
    exact rfl
  | plain hplain hshown =>
    obtain ⟨isRoot, hstanding⟩ := hshown tag (Operation.mem_mentions_of_target? hsubject)
    rw [hstanding] at hfits ⊢
    obtain ⟨operations, rfl, hviewed⟩ := hfits
    exact ⟨_, rfl, hviewed.concat (Operation.isPlain_iff.mp hplain).1⟩

/-- Lifetimes go with standings through lawful events. -/
theorem Lawful.fits {s done : Tag → Standing} {events : List (Event κ)} (h : Lawful s events done)
    {tag : Tag} {life : Option (Lifetime κ)} (hfits : (s tag).Fits life) :
    (done tag).Fits ((events.filter (·.subject? = some tag)).foldl Event.onLifetime life) := by
  induction h generalizing life with
  | nil => exact hfits
  | @cons s mid done event rest hfirst _ ih =>
    by_cases hsubject : event.subject? = some tag
    · rw [List.filter_cons_of_pos (by simpa using hsubject)]
      exact ih (hfirst.fits hsubject hfits)
    · rw [List.filter_cons_of_neg (by simpa using hsubject)]
      exact ih (hfirst.eq_of_ne hsubject ▸ hfits)

/-- A create finds its tag hidden and its native parent shown; before and after it, the node calls
for this very create. -/
theorem Event.Leads.create_inv {s done : Tag → Standing} {before after : Tree κ} {tag root : Tag}
    {viewClass : String} {props : Props}
    (h : (Event.enqueue (.create tag root viewClass props) before after).Leads s done) :
    ∃ parent, s tag = .hidden ∧ before.CallsFor tag root viewClass props ∧
      after.CallsFor tag root viewClass props ∧ after.nativeParent tag = .ok (some parent) ∧
      s parent = .shown (after.isRoot parent) := by
  generalize hevent : Event.enqueue (.create tag root viewClass props) before after = event at h
  cases h with
  | register => cases hevent
  | unregister => cases hevent
  | create hhidden hbefore hafter hparent habove =>
    cases hevent
    exact ⟨_, hhidden, hbefore, hafter, hparent, habove⟩
  | @drop _ _ _ drop =>
    -- an event that is a drop is no create
    injection hevent with hcreate
    have hkind : (drop.operation : Operation κ).isDrop = true := drop.isDrop_operation
    rw [← hcreate] at hkind
    cases hkind
  | plain hplain =>
    cases hevent
    cases hplain

/-- A lifetime that fits a standing has its create first and once. -/
theorem Standing.Fits.createdOnce {standing : Standing} {life : Lifetime κ}
    (h : standing.Fits (some life)) : life.CreatedOnce := by
  cases standing with
  | absent => cases h
  | doomed => cases h
  | hidden =>
    cases h
    exact .inr ⟨rfl, rfl⟩
  | shown isRoot =>
    obtain ⟨operations, heq, hviewed⟩ := h
    cases heq
    exact .inl hviewed

/-- A lifetime has had its create when the node has its view and is no root. -/
theorem Standing.Fits.hasCreate_iff {standing : Standing} {life : Option (Lifetime κ)}
    (h : standing.Fits life) : life.any Lifetime.hasCreate = true ↔ standing = .shown false := by
  cases standing with
  | absent =>
    obtain rfl : life = none := h
    simp
  | doomed =>
    obtain rfl : life = none := h
    simp
  | hidden =>
    obtain rfl : life = some { isRoot := false } := h
    simp [Lifetime.hasCreate]
  | shown isRoot =>
    obtain ⟨operations, rfl, hviewed⟩ := h
    cases isRoot with
    | true =>
      have hnone : Lifetime.hasCreate { isRoot := true, operations } = false := hviewed
      simp [hnone]
    | false =>
      obtain ⟨create, rest, rfl, hcreate, -⟩ : ∃ create rest, operations = create :: rest ∧
        create.isCreate = true ∧ rest.any Operation.isCreate = false := hviewed
      simp [Lifetime.hasCreate, hcreate]

/-! ## Runs

The record of a run is lawful, so lifetimes fit the standings in the scene that the run has come to.
-/

section Runs

variable [Coordinate κ] {record : Record κ} {ui : Ui κ}

/-- After every run, the lifetime of each tag fits its standing. -/
theorem History.fits (h : History record ui) (tag : Tag) :
    (ui.scene.standing tag).Fits (lifetime tag record.events) :=
  h.tracks.lawful.fits rfl

/-- The lifetimes under way are those of the nodes of the tree. -/
theorem History.lifetime_isRoot (h : History record ui) (tag : Tag) :
    (lifetime tag record.events).map Lifetime.isRoot =
      if ui.scene.tree.contains tag then some (ui.scene.tree.isRoot tag) else none := by
  have hfits := h.fits tag
  -- with a view, without one and with a node, without a node: the standing tells which
  cases hview : ui.scene.tree.createdAt tag with
  | true =>
    rw [Scene.standing, Tree.standing_of_created hview] at hfits
    obtain ⟨operations, hlife, -⟩ := hfits
    rw [hlife, if_pos (Tree.contains_of_createdAt hview), Option.map_some]
  | false =>
    cases hcontains : ui.scene.tree.contains tag with
    | true =>
      -- without a view it is no root
      have hroot : ui.scene.tree.isRoot tag = false := by
        refine Bool.eq_false_iff.mpr fun hroot => ?_
        rw [h.reachable.sound.tree.flags.root_created (Tree.isRoot_iff.mp hroot)] at hview
        cases hview
      rw [Scene.standing, Tree.standing_of_uncreated hview hcontains] at hfits
      have hlife : lifetime tag record.events = some { isRoot := false } := hfits
      rw [hlife, hroot]
      rfl
    | false =>
      have hnone : lifetime tag record.events = none := by
        rw [Scene.standing, Tree.standing_of_free hcontains] at hfits
        cases hdrop : ui.scene.mount.drops.find? (·.tag == tag) with
        | none => rwa [hdrop] at hfits
        | some drop => rwa [hdrop] at hfits
      rw [hnone]
      rfl

/-- After a pass that succeeds, the nodes with a view that are no roots are those that mount and
hang below a root. -/
theorem Ui.Passes.shown_iff {after : Ui κ} {report : PassReport κ} {count : Nat}
    (h : ui.Passes report after) (hreachable : ui.Reachable) (hok : report.result = .ok count)
    (tag : Tag) : after.scene.standing tag = .shown false ↔
      tag ∉ after.scene.tree.roots ∧ after.scene.tree.mountsAt tag = true ∧
        after.scene.tree.Attached tag := by
  have hafter := h.reachable hreachable
  rw [Scene.standing, Tree.standing_eq_shown_iff, Bool.eq_false_iff, Ne, Tree.isRoot_iff]
  -- a pass that succeeds has flushed, and every mounting node below a root has its view then
  rcases h.cases hreachable.sound hreachable.anchored with ⟨-, hfailed, -⟩ | ⟨flush, -, hflushes⟩
  · exact absurd hok (hfailed count)
  · constructor
    · rintro ⟨hview, hroot⟩
      exact ⟨hroot, hafter.sound.tree.flags.mountsAt_of_createdAt hview,
        hafter.anchored.attached hview⟩
    · rintro ⟨hroot, hmounts, hattached⟩
      exact ⟨hflushes.mounted hattached hmounts, hroot⟩

/-- The operations of a run, flushed or pending, and the lifetimes of its nodes. In each lifetime at
most one create is addressed to the node, before everything else that is, and none to a root. No
operation names a node that is virtual. A create carries the root, the class and all properties of
its node; it opens the part of the lifetime in which the node has a view, and the native parent is
a root or has had its own create. A command that creates views promotes a node before it does so, if
at all, so that the native parent is the one that the tree has after the command. After a pass that
succeeds, the nodes that have had their creates are those that mount and hang below a root, roots
aside. -/
theorem History.create_discipline (h : History record ui) :
    record.operations = record.delivered ++ ui.scene.mount.queue ∧
    (∀ tag, (lifetime tag record.events).map Lifetime.isRoot =
      if ui.scene.tree.contains tag then some (ui.scene.tree.isRoot tag) else none) ∧
    (∀ {earlier later tag life}, record.events = earlier ++ later →
      lifetime tag earlier = some life → life.CreatedOnce) ∧
    (∀ {earlier later operation before after},
      record.events = earlier ++ .enqueue operation before after :: later →
      (∀ tag ∈ operation.mentions, before.NotVirtual tag ∧ after.NotVirtual tag) ∧
      ∀ {tag root viewClass props}, operation = .create tag root viewClass props →
        lifetime tag earlier = some { isRoot := false } ∧
        before.CallsFor tag root viewClass props ∧ after.CallsFor tag root viewClass props ∧
        ∃ parent, after.nativeParent tag = .ok (some parent) ∧
          (parent ∈ after.roots ∨ hadCreate parent earlier = true)) ∧
    (∀ {report after count}, ui.Passes report after → report.result = .ok count → ∀ tag,
      hadCreate tag (record.afterPass report ui.scene after.scene).events = true ↔
        tag ∉ after.scene.tree.roots ∧ after.scene.tree.mountsAt tag = true ∧
          after.scene.tree.Attached tag) := by
  refine ⟨h.tracks.operations, h.lifetime_isRoot, ?_, ?_, ?_⟩
  · intro earlier later tag life hevents hlife
    -- what was recorded up to some moment is lawful by itself
    have hlawful := h.tracks.lawful
    rw [hevents] at hlawful
    obtain ⟨s, hearlier, -⟩ := hlawful.split
    have hfits : (s tag).Fits (lifetime tag earlier) := hearlier.fits rfl
    rw [hlife] at hfits
    exact hfits.createdOnce
  · intro earlier later operation before after hevents
    have hlawful := h.tracks.lawful
    rw [hevents] at hlawful
    obtain ⟨s, hearlier, hrest⟩ := hlawful.split
    obtain _ | ⟨hleads, -⟩ := hrest
    have hfits : ∀ tag, (s tag).Fits (lifetime tag earlier) := fun tag => hearlier.fits rfl
    refine ⟨hleads.notVirtual, ?_⟩
    rintro tag root viewClass props rfl
    obtain ⟨parent, hhidden, hbefore, hafter, hparent, habove⟩ := hleads.create_inv
    -- the lifetime of the tag, and that of its native parent, at the moment of the create
    have hlife := hfits tag
    rw [hhidden] at hlife
    refine ⟨hlife, hbefore, hafter, parent, hparent, ?_⟩
    cases hroot : after.isRoot parent with
    | true => exact .inl (Tree.isRoot_iff.mp hroot)
    | false =>
      rw [hroot] at habove
      exact .inr ((hfits parent).hasCreate_iff.mpr habove)
  -- the record goes on with the pass, and what it says then is read off the standing
  · intro report after count hpass hok tag
    exact ((h.pass hpass).fits tag).hasCreate_iff.trans (hpass.shown_iff h.reachable hok tag)

end Runs

/-- A plain node is forced to have a view, removed, and registered again, now as a scroller. -/
def returningView : Record Float32 × Ui Float32 :=
  Turn.takeAll [.perform (.addRoot 1 0 0), .perform (.create 2 "View" 1 .empty),
    .perform (.prependChildren 1 [2]), .perform (.sendCommand 2 0 []), .pass,
    .perform (.editChildren 1 { removeFrom := [0] }), .pass,
    .perform (.create 2 "ScrollView" 1 .empty), .perform (.prependChildren 1 [2])]
    ({}, Ui.new Managers.builtins { pruneDrops := true })

/-- The next pass makes a view for the second lifetime of the node. -/
theorem History.create_discipline_returningView :
    hadCreate 2 returningView.1.events = false ∧
    hadCreate 2 (returningView.1.afterPass returningView.2.runPass.1 returningView.2.scene
      returningView.2.runPass.2.scene).events = true := by
  have h : History returningView.1 returningView.2 :=
    History.takeAll (.start Managers.builtins { pruneDrops := true }) (by decide +kernel)
  have hok : ∃ count, returningView.2.runPass.1.result = .ok count := by
    obtain ⟨refreshed, log, -, -, hpass⟩ := Ui.runPass_sound h.reachable.sound
    exact ⟨_, congrArg (·.1.result) hpass⟩
  have hattached : returningView.2.runPass.2.scene.tree.Attached 2 :=
    ⟨1, by decide +kernel, .inr (.parent (by decide +kernel))⟩
  obtain ⟨-, -, -, -, hpassed⟩ := h.create_discipline
  obtain ⟨count, hcount⟩ := hok
  exact ⟨by decide +kernel,
    (hpassed .plain hcount 2).mpr ⟨by decide +kernel, by decide +kernel, hattached⟩⟩

end ShadowMount
