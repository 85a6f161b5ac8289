import ShadowMount.Proofs.Mount.Itinerary

/-!
# Journeys, visit by visit

A journey is a list of visits made one after the other, and what is known of each visit adds up. The
visits are the program's own steps (`Visit.perform`); they do not look at the log, so a journey can
be made with any log.

* **`Provided`** — every visit of a list finds the views it needs, from the start or from a visit
  before it. An itinerary below a view is provided with the views that its frames refer to, and with
  those that it sends frames for.
* **`Journey.backed`** — the frames of a journey that is provided with native parents go out after
  the creates of these parents.
* **`Journey.frameKnown`**, **`Journey.quiet`** — a frame once visited is known, and where a frame
  is known no journey that computes the same frame sends it again.
-/

namespace ShadowMount

open MountM Mount

variable {κ : Type}

/-! ## Provided visits

A list of visits is provided with the views that it needs: each visit finds its view among those
from the start or those created by visits before it. The lemmas say how such lists are put together.
-/

/-- Every visit finds the views it needs: they are there from the start, or a visit before it makes
sure of them. -/
inductive Visit.Provided (needs : Visit κ → Tag → Prop) : (Tag → Prop) → List (Visit κ) → Prop
  | nil (has : Tag → Prop) : Provided needs has []
  | cons {has : Tag → Prop} {visit : Visit κ} {rest : List (Visit κ)}
      -- the views there are when the visit is made
      (hneeds : ∀ x, needs visit x → has x)
      (hrest : Provided needs (fun x => has x ∨ visit.view? = some x) rest) :
      Provided needs has (visit :: rest)

/-- Only frames need views: their own and the one of their native parent, at most. -/
def Visit.OnlyFrames (needs : Visit κ → Tag → Prop) : Prop :=
  ∀ {visit x}, needs visit x →
    ∃ tag parent frame, visit = .frame tag parent frame ∧ (x = tag ∨ x = parent)

/-- A frame needs the view of its native parent. -/
def Visit.NeedsParent (visit : Visit κ) (x : Tag) : Prop := ∃ tag frame, visit = .frame tag x frame

/-- A frame needs the view that it is sent for. -/
def Visit.NeedsOwn (visit : Visit κ) (x : Tag) : Prop :=
  ∃ parent frame, visit = .frame x parent frame

/-- Needing the parent's view is a need of frames alone. -/
theorem Visit.onlyFrames_needsParent : OnlyFrames (NeedsParent : Visit κ → Tag → Prop) := by
  rintro _ x ⟨tag, frame, rfl⟩
  exact ⟨tag, x, frame, rfl, .inr rfl⟩

/-- So is needing one's own view. -/
theorem Visit.onlyFrames_needsOwn : OnlyFrames (NeedsOwn : Visit κ → Tag → Prop) := by
  rintro _ x ⟨parent, frame, rfl⟩
  exact ⟨x, parent, frame, rfl, .inl rfl⟩

/-- The visit that creates a view needs none. -/
theorem Visit.OnlyFrames.view {needs : Visit κ → Tag → Prop} {has : Tag → Prop}
    (h : OnlyFrames needs) (tag x : Tag) : needs (.view tag) x → has x := by
  intro hx
  obtain ⟨_, _, _, heq, -⟩ := h hx
  cases heq

namespace Visit.Provided

variable {needs : Visit κ → Tag → Prop} {has more : Tag → Prop} {visits rest : List (Visit κ)}

/-- With more views there from the start, nothing is missing that was not. -/
theorem mono (h : Provided needs has visits) (hmore : ∀ x, has x → more x) :
    Provided needs more visits := by
  induction h generalizing more with
  | nil => exact .nil more
  | cons hneeds _ ih =>
    exact .cons (fun x hx => hmore x (hneeds x hx)) (ih fun x hx => hx.imp_left (hmore x))

/-- Two lists of visits, the second provided with what the first one creates. -/
theorem append (h : Provided needs has visits)
    (hrest : Provided needs (fun x => has x ∨ x ∈ visits.filterMap Visit.view?) rest) :
    Provided needs has (visits ++ rest) := by
  induction h with
  | nil => exact hrest.mono fun x hx => hx.resolve_right List.not_mem_nil
  | @cons has visit visits hneeds _ ih =>
    refine .cons hneeds (ih (hrest.mono fun x hx => ?_))
    -- what the first visit creates counts as there when the rest is made
    rw [List.mem_filterMap, List.exists_mem_cons_iff, ← List.mem_filterMap] at hx
    exact or_assoc.mpr hx

/-- Visits that find all they need at the start are provided, in any order. -/
theorem of_forall (h : ∀ visit ∈ visits, ∀ x, needs visit x → has x) :
    Provided needs has visits := by
  induction visits generalizing has with
  | nil => exact .nil has
  | cons visit rest ih =>
    refine .cons (h visit (List.mem_cons_self ..)) (ih fun later hlater x hx => .inl ?_)
    exact h later (List.mem_cons_of_mem _ hlater) x hx

/-- Two lists of visits that are provided by themselves. -/
theorem append_same (h : Provided needs has visits) (hrest : Provided needs has rest) :
    Provided needs has (visits ++ rest) :=
  h.append (hrest.mono fun _ => .inl)

/-- Lists of visits that are provided by themselves, one after the other. -/
theorem flatMap {tags : List Tag} {each : Tag → List (Visit κ)}
    (h : ∀ c ∈ tags, Provided needs has (each c)) : Provided needs has (tags.flatMap each) := by
  induction tags with
  | nil => exact .nil has
  | cons c tags ih =>
    rw [List.flatMap_cons]
    exact (h c (List.mem_cons_self ..)).append_same
      (ih fun d hd => h d (List.mem_cons_of_mem _ hd))

/-- A visit to a frame is provided if the view and the one above it are there. -/
theorem frame (hneeds : OnlyFrames needs) {tag parent : Tag} {frame : Frame κ} (htag : has tag)
    (hparent : has parent) : Provided needs has [.frame tag parent frame] := by
  refine .cons (fun x hx => ?_) (.nil _)
  obtain ⟨_, _, _, heq, hx⟩ := hneeds hx
  cases heq
  rcases hx with rfl | rfl
  · exact htag
  · exact hparent

/-- A visit to a child list needs nothing. -/
theorem children (hneeds : OnlyFrames needs) (tag : Tag) :
    Provided needs has [.children tag] := by
  refine .cons (fun x hx => ?_) (.nil _)
  obtain ⟨_, _, _, heq, -⟩ := hneeds hx
  cases heq

end Visit.Provided

namespace Tree

variable [Coordinate κ] {tree : Tree κ} {needs : Visit κ → Tag → Prop}

/-- An itinerary is provided with what its frames need, if the view above exists. -/
theorem provided_itinerary (hneeds : Visit.OnlyFrames needs) :
    ∀ {steps : Nat} {tag : Tag} {dx dy : κ} {above : Option Tag} {has : Tag → Prop},
      (∀ parent ∈ above, has parent) →
        Visit.Provided needs has (tree.itinerary steps tag dx dy above)
  | 0, _, _, _, _, has, _ => .nil has
  | steps + 1, tag, dx, dy, above, has, habove => by
    cases hget : tree.get? tag with
    | none =>
      rw [itinerary, hget]
      exact .nil has
    | some node =>
      cases hmounts : node.mounts with
      | false =>
        rw [itinerary_of_unmounting hget hmounts]
        exact .flatMap fun c _ => provided_itinerary hneeds habove
      | true =>
        rw [itinerary_of_mounting hget hmounts]
        -- from here on the node has its view
        refine .cons (hneeds.view tag) (.append_same ?_ (.append_same ?_ (.children hneeds tag)))
        -- its frame finds the view just created and, by assumption, the one above
        · cases above with
          | none => exact .nil _
          | some parent => exact .frame hneeds (.inr rfl) (.inl (habove parent rfl))
        -- below it, the node's own view is the one above
        · refine .flatMap fun c _ => provided_itinerary hneeds ?_
          rintro _ ⟨⟩
          exact .inr rfl

end Tree

/-! ## Visits as actions

The relation of a visit and the action of the program agree. They do not read the log, and so the
same visits can be made with another one. -/

/-- The step of the program that makes a visit. -/
def Visit.perform [Coordinate κ] : Visit κ → MountM κ Unit
  | view tag => materialize tag
  | frame tag parent computed => sendFrame tag parent computed
  | children tag => sendChildren tag

namespace Mount

variable [Coordinate κ] {scene mid done : Scene κ} {visit : Visit κ}
  {visits rest : List (Visit κ)}

/-- A visit is what the program's step does. -/
theorem Visits.perform (h : Visits visit scene done) : visit.perform scene = .ok () done := by
  cases h with
  | kept hview =>
    obtain ⟨node, hget, hcreated⟩ := Tree.get?_of_createdAt hview
    exact materialize_of_created hget hcreated
  | created hget hcreated => exact materialize_of_uncreated hget hcreated
  | frame tag parent frame => exact sendFrame_apply tag parent frame
  | children hchildren => exact sendChildren_of_ok hchildren

/-- A journey is what the program's steps do, one after the other. -/
theorem Journey.perform (h : Journey visits scene done) :
    visits.forM Visit.perform scene = .ok () done := by
  induction h with
  | nil => rfl
  | cons hvisit _ ih => exact (forM_cons_of_ok hvisit.perform).trans ih

/-- What a visit does it does with any log. -/
theorem Visits.relog (h : Visits visit scene done) (log : List Log.Line) :
    Visits visit { scene with log } { done with log } := by
  cases h with
  | kept hview => exact .kept hview
  | created hget hcreated => exact .created hget hcreated
  | frame tag parent frame => exact .frame tag parent frame
  | children hchildren => exact .children hchildren

/-- What a journey does it does with any log. -/
theorem Journey.relog (h : Journey visits scene done) (log : List Log.Line) :
    Journey visits { scene with log } { done with log } := by
  induction h with
  | nil => exact .nil _
  | cons hvisit _ ih => exact .cons (hvisit.relog log) ih

/-- A journey along two lists passes through a scene in between. -/
theorem Journey.split : ∀ {visits : List (Visit κ)} {scene : Scene κ},
    Journey (visits ++ rest) scene done → ∃ mid, Journey visits scene mid ∧ Journey rest mid done
  | [], scene, h => ⟨scene, .nil scene, h⟩
  | visit :: visits, scene, h => by
    cases h with
    | cons hvisit hrest =>
      obtain ⟨mid, hfirst, hsecond⟩ := Journey.split hrest
      exact ⟨mid, .cons hvisit hfirst, hsecond⟩

/-! ## What a journey enqueues

The operations of a journey in their order. A frame names its native parent, and if the visits are
provided with native parents, the create of the parent is in front of it. -/

/-- A journey sends no frames but those visited. -/
theorem Journey.posts (h : Journey visits scene done) : ∃ operations,
    done.mount.queue = scene.mount.queue ++ operations ∧ ∀ x parent frame,
      .setFrame x parent frame ∈ operations → .frame x parent frame ∈ visits := by
  induction h with
  | nil => exact ⟨[], by simp, nofun⟩
  | cons hvisit _ ih =>
    obtain ⟨first, hfirst, -, -, hframe⟩ := hvisit.posts
    obtain ⟨later, hlater, hframes⟩ := ih
    refine ⟨first ++ later, by rw [hlater, hfirst, List.append_assoc],
      fun x parent frame hmem => ?_⟩
    rcases List.mem_append.mp hmem with hmem | hmem
    · exact hframe x parent frame hmem ▸ List.mem_cons_self ..
    · exact List.mem_cons_of_mem _ (hframes x parent frame hmem)

/-- Each frame goes out when its native parent has a view: it is one of `views`, or its create goes
out before. -/
def Backed (views : Tag → Prop) (operations : List (Operation κ)) : Prop :=
  ∀ earlier x parent frame later, operations = earlier ++ .setFrame x parent frame :: later →
    views parent ∨ parent ∈ earlier.filterMap Operation.created?

omit [Coordinate κ] in
/-- The first operation is a frame with its parent in view, or anything else; the rest may count on
what it creates. -/
theorem Backed.cons {views : Tag → Prop} {operation : Operation κ} {rest : List (Operation κ)}
    (hfirst : ∀ x parent frame, operation = .setFrame x parent frame → views parent)
    (hrest : Backed (fun x => views x ∨ operation.created? = some x) rest) :
    Backed views (operation :: rest) := by
  -- the frame asked about is the first operation, or among the rest
  intro earlier x parent frame later hsplit
  cases earlier with
  | nil =>
    obtain ⟨heq, -⟩ := List.cons.inj hsplit
    exact .inl (hfirst x parent frame heq)
  | cons first earlier =>
    obtain ⟨rfl, htail⟩ := List.cons.inj hsplit
    rw [List.mem_filterMap, List.exists_mem_cons_iff, ← List.mem_filterMap, ← or_assoc]
    exact hrest earlier x parent frame later htail

/-- A journey that is provided with native parents sends frames only below views that exist. -/
theorem Journey.backed {has : Tag → Prop} (h : Journey visits scene done)
    (hprovided : Visit.Provided Visit.NeedsParent has visits)
    (hhas : ∀ x, has x → scene.tree.createdAt x = true) : ∃ operations,
      done.mount.queue = scene.mount.queue ++ operations ∧
        Backed (scene.tree.createdAt · = true) operations := by
  induction h generalizing has with
  | nil => exact ⟨[], by simp, fun earlier _ _ _ _ h => by simp at h⟩
  | @cons visit rest scene mid done hvisit _ ih =>
    cases hprovided with
    | cons hneeds hrest =>
      obtain ⟨first, hfirst, hlength, hmade, hframe⟩ := hvisit.posts
      -- what is there for the rest is what was there, or the view just made sure of
      obtain ⟨later, hlater, hbacked⟩ := ih hrest fun x hx =>
        (hvisit.createdAt_iff x).mpr (hx.imp_left (hhas x))
      refine ⟨first ++ later, by rw [hlater, hfirst, List.append_assoc], ?_⟩
      -- a view that is there after the visit was there before, or has just been created
      have hviews : ∀ x, mid.tree.createdAt x = true →
          scene.tree.createdAt x = true ∨ x ∈ first.filterMap Operation.created? := by
        intro x hx
        rcases (hvisit.createdAt_iff x).mp hx with hx | hx
        · exact .inl hx
        · cases hcreated : scene.tree.createdAt x with
          | true => exact .inl rfl
          | false => simp [hmade, hx, hcreated]
      -- a visit enqueues at most one operation
      match first, hlength with
      | [], _ =>
        refine fun earlier x parent frame tail hsplit => ?_
        exact (hbacked earlier x parent frame tail hsplit).imp_left fun hx =>
          (hviews parent hx).resolve_right List.not_mem_nil
      | [operation], _ =>
        refine .cons (fun x parent frame heq => ?_) fun earlier x parent frame tail hsplit => ?_
        · have hvisited := hframe x parent frame (heq ▸ List.mem_singleton_self _)
          exact hhas parent (hneeds parent ⟨x, frame, hvisited⟩)
        · refine (hbacked earlier x parent frame tail hsplit).imp_left fun hx => ?_
          exact (hviews parent hx).imp_right fun hmem => by simpa using hmem

/-! ## Known frames

A frame that was sent stays known through visits that compute the same frame for its view, and a
visit that finds its frame known sends nothing. -/

/-- The view of a node exists, and the frame that was last sent for it is `frame`. -/
def FrameKnown (scene : Scene κ) (x : Tag) (frame : Frame κ) : Prop :=
  scene.tree.createdAt x = true ∧ (scene.mount.sent x).frame.any (·.same frame) = true

variable {x : Tag} {frame : Frame κ}

/-- A visit keeps a known frame, unless it computes another one for the same view. -/
theorem Visits.keeps_frameKnown (h : Visits visit scene done) (hknown : FrameKnown scene x frame)
    (hsame : ∀ parent other, visit = .frame x parent other → other = frame) :
    FrameKnown done x frame := by
  refine ⟨(h.createdAt_iff x).mpr (.inl hknown.1), ?_⟩
  cases h with
  | kept => exact hknown.2
  | @created _ tag node hget hcreated =>
    -- the created view is another one, as the known one exists
    have hne : tag ≠ x := by
      rintro rfl
      have hview := hknown.1
      rw [Tree.createdAt_of_get? hget, hcreated] at hview
      cases hview
    show ((scene.mount.createSent tag node).sent x).frame.any _ = true
    rw [MountState.sent_createSent, if_neg hne]
    exact hknown.2
  | frame tag parent other =>
    -- a visit to the same frame finds it sent
    by_cases htag : tag = x
    · subst htag
      obtain rfl := hsame parent other rfl
      rw [MountState.frameSent, if_pos hknown.2]
      exact hknown.2
    · rw [(Visits.frame tag parent other).sent_frame (Option.some_ne_none _).symm
        fun _ _ heq => htag (Visit.frame.inj heq).1]
      exact hknown.2
  | children =>
    rw [MountState.sent_childrenSent_frame]
    exact hknown.2

/-- A frame that is known is not sent again, as long as the same frame is computed. -/
theorem Journey.quiet (h : Journey visits scene done) (hknown : FrameKnown scene x frame)
    (hsame : ∀ parent other, .frame x parent other ∈ visits → other = frame) :
    FrameKnown done x frame ∧ ∃ operations, done.mount.queue = scene.mount.queue ++ operations ∧
      ∀ parent other, .setFrame x parent other ∉ operations := by
  induction h with
  | nil => exact ⟨hknown, [], by simp, nofun⟩
  | @cons visit rest scene mid done hvisit _ ih =>
    have hfirst : ∀ parent other, visit = .frame x parent other → other = frame :=
      fun parent other heq => hsame parent other (heq ▸ List.mem_cons_self ..)
    obtain ⟨hdone, later, hlater, hquiet⟩ := ih (hvisit.keeps_frameKnown hknown hfirst)
      fun parent other hmem => hsame parent other (List.mem_cons_of_mem _ hmem)
    -- the first visit finds the frame known, or is not about it
    by_cases hvisited : ∃ parent other, visit = .frame x parent other
    · obtain ⟨parent, other, rfl⟩ := hvisited
      obtain rfl := hfirst parent other rfl
      obtain rfl := hvisit.eq_of_current hknown.2
      exact ⟨hdone, later, hlater, hquiet⟩
    · obtain ⟨first, hposted, -, -, hframe⟩ := hvisit.posts
      refine ⟨hdone, first ++ later, by rw [hlater, hposted, List.append_assoc],
        fun parent other hmem => ?_⟩
      rcases List.mem_append.mp hmem with hmem | hmem
      · exact hvisited ⟨parent, other, hframe x parent other hmem⟩
      · exact hquiet parent other hmem

/-- Once a frame was visited it is known. -/
theorem Journey.frameKnown {has : Tag → Prop} {parent : Tag} (h : Journey visits scene done)
    (hprovided : Visit.Provided Visit.NeedsOwn has visits)
    (hhas : ∀ x, has x → scene.tree.createdAt x = true) (hmem : .frame x parent frame ∈ visits)
    (hsame : ∀ parent other, .frame x parent other ∈ visits → other = frame)
    (hself : frame.same frame = true) : FrameKnown done x frame := by
  induction h generalizing has with
  | nil => cases hmem
  | @cons visit rest scene mid done hvisit hjourney ih =>
    cases hprovided with
    | cons hneeds hrest =>
      have hrestSame : ∀ parent other, .frame x parent other ∈ rest → other = frame :=
        fun parent other hmem => hsame parent other (List.mem_cons_of_mem _ hmem)
      rcases List.mem_cons.mp hmem with rfl | hmem
      -- the visit itself: the view is there, and from here on the frame stays known
      · have hview : scene.tree.createdAt x = true := hhas x (hneeds x ⟨parent, frame, rfl⟩)
        have hknown : FrameKnown mid x frame :=
          ⟨(hvisit.createdAt_iff x).mpr (.inl hview), hvisit.frame_sent hself⟩
        exact (hjourney.quiet hknown hrestSame).1
      · exact ih hrest (fun y hy => (hvisit.createdAt_iff y).mpr (hy.imp_left (hhas y))) hmem
          hrestSame

end Mount

end ShadowMount
