import ShadowMount.Proofs.Core.Climb
import ShadowMount.Proofs.Mount.Placement

/-!
# Accurate visits

Passes, refreshes and escalations compute frames on their own ways through the tree. In exact
arithmetic the frame of a node is its position inside its native parent on each of these ways.

* **`WellFormed.mem_refreshItinerary_iff`**, **`Climb.accurate`** — the frames on each way.
* **`Mount.Performs`**, **`Mount.Follows`** — an action is a list of visits, with every mount state.
* **`Mount.refreshSubtree_follows`**, **`Mount.escalate_follows`** — the visits of actions that
  succeed.
-/

namespace ShadowMount

namespace Tree

variable {κ : Type} [Coordinate κ] {tree : Tree κ} {t x a p : Tag} {visits : List (Visit κ)}
  {frame : Frame κ}

/-- A root, or a node with a native parent. -/
def Hangs (tree : Tree κ) (tag : Tag) : Prop := tag ∈ tree.roots ∨ ∃ p, tree.NativeParent tag p

/-! ## Frames on each way

Every way through the tree is a list of visits, and a visit for a frame carries the frame that was
computed. That frame is the position of the node inside its native parent, whichever way the visit
is on. -/

/-- All visits are to nodes that mount, and all frames are the positions of their nodes. -/
structure Accurate (tree : Tree κ) (visits : List (Visit κ)) : Prop where
  /-- Only nodes that mount are visited. -/
  mounts : ∀ visit ∈ visits, tree.mountsAt visit.tag = true
  /-- Every frame that is sent is the position of its node, relative to its native parent. -/
  positioned : ∀ {x p frame}, .frame x p frame ∈ visits → tree.Positioned x p frame

/-- Accurate visits one after the other are accurate. -/
theorem Accurate.append {rest : List (Visit κ)} (h : tree.Accurate visits)
    (hrest : tree.Accurate rest) : tree.Accurate (visits ++ rest) :=
  ⟨fun visit hmem => (List.mem_append.mp hmem).elim (h.mounts visit) (hrest.mounts visit),
    fun hmem => (List.mem_append.mp hmem).elim h.positioned hrest.positioned⟩

/-- So are those of many nodes. -/
theorem Accurate.flatMap {tags : List Tag} {each : Tag → List (Visit κ)}
    (h : ∀ x ∈ tags, tree.Accurate (each x)) : tree.Accurate (tags.flatMap each) := by
  constructor
  · intro visit hmem
    obtain ⟨x, hx, hmem⟩ := List.mem_flatMap.mp hmem
    exact (h x hx).mounts visit hmem
  · intro _ _ _ hmem
    obtain ⟨x, hx, hmem⟩ := List.mem_flatMap.mp hmem
    exact (h x hx).positioned hmem

variable [Coordinate.Exact κ]

/-- The frames on the itinerary of a subtree are those of its mounting nodes. -/
theorem WellFormed.frame_mem_itinerary_iff (hwf : tree.WellFormed) {dx dy : κ} {above : Option Tag}
    (hx : tree.contains x = true) (hoffset : ∀ p ∈ above, tree.OffsetBelow x p dx dy)
    (htop : above = none → tree.mountsAt x = true ∧ ∀ p, ¬ tree.NativeParent x p) :
    .frame t a frame ∈ tree.itinerary tree.budget x dx dy above ↔
      tree.InSubtree x t ∧ tree.mountsAt t = true ∧ tree.Positioned t a frame := by
  constructor
  · intro h
    obtain ⟨hsub, hmounts⟩ := hwf.itinerary_inside h
    exact ⟨hsub, hmounts, hwf.positioned_itinerary hoffset h⟩
  · rintro ⟨hsub, hmounts, hpositioned⟩
    have htop' : above = none → tree.mountsAt x = true ∧ t ≠ x := fun habove =>
      ⟨(htop habove).1, fun heq => (htop habove).2 a (heq ▸ hpositioned.nativeParent)⟩
    obtain ⟨b, other, hframe⟩ := hwf.exists_frame_itinerary hx htop' hsub hmounts
    obtain ⟨rfl, rfl⟩ := hpositioned.unique hwf (hwf.positioned_itinerary hoffset hframe)
    exact hframe

/-- The frames of a refresh are those of the mounting nodes of the subtree. -/
theorem WellFormed.mem_refreshItinerary_iff (hwf : tree.WellFormed) (hflags : tree.FlagsSound)
    (hx : tree.Hangs x) : .frame t a frame ∈ tree.refreshItinerary x ↔
      tree.InSubtree x t ∧ tree.mountsAt t = true ∧ tree.Positioned t a frame := by
  rcases hx with hroot | ⟨p, hp⟩
  · have hisRoot := isRoot_iff.mpr hroot
    rw [refreshItinerary_of_root hisRoot]
    refine hwf.frame_mem_itinerary_iff (hwf.root_contained hroot) nofun fun _ =>
      ⟨hflags.mountsAt_of_createdAt (hflags.root_created hroot), fun p hp => ?_⟩
    rw [hwf.not_root_of_nativeParent hp] at hisRoot
    cases hisRoot
  · obtain ⟨dx, dy, hoffset, hvisits⟩ := hwf.refreshItinerary_below hp
    have hbelow := offsetBelow_of_offset hwf hp hoffset
    rw [hvisits, List.mem_append, List.mem_singleton, or_iff_left nofun]
    refine hwf.frame_mem_itinerary_iff hp.ancestor.contains ?_ nofun
    rintro _ ⟨⟩
    exact hbelow

/-- What a refresh sends are positions, of nodes that mount. -/
theorem WellFormed.accurate_refreshItinerary (hwf : tree.WellFormed) (hflags : tree.FlagsSound)
    (hx : tree.Hangs x) : tree.Accurate (tree.refreshItinerary x) := by
  refine ⟨fun visit hmem => ?_, fun hmem => ((hwf.mem_refreshItinerary_iff hflags hx).mp hmem).2.2⟩
  rcases hx with hroot | ⟨p, hp⟩
  · rw [refreshItinerary_of_root (isRoot_iff.mpr hroot)] at hmem
    exact (hwf.itinerary_inside hmem).2
  · exact hwf.refreshItinerary_mounts hp hmem

/-- What a climb sends are positions too: it refreshes views from the top down, and each of the
subtrees it reconciles on the way hangs from the view before. -/
theorem Climb.accurate (h : tree.Climb t a visits) (hwf : tree.WellFormed)
    (hflags : tree.FlagsSound) : tree.Accurate visits := by
  refine ⟨h.mounts hwf hflags, fun {x p frame} hmem => ?_⟩
  induction h with
  | view hview =>
    obtain ⟨rfl, hpositioned⟩ := (mem_viewItinerary_iff hwf (contains_of_createdAt hview)).mp hmem
    exact hpositioned
  | up _ _ hparent _ ih =>
    rcases List.mem_append.mp hmem with hmem | hmem
    · exact ih hmem
    · exact (hwf.accurate_refreshItinerary hflags (.inr ⟨_, hparent⟩)).positioned hmem

/-- A climb ends with the frame of its node, or consists of it. -/
theorem Climb.reaches (h : tree.Climb t a visits) (hwf : tree.WellFormed)
    (hflags : tree.FlagsSound) (hpositioned : tree.Positioned t p frame) :
    .frame t p frame ∈ visits := by
  cases h with
  | view hview =>
    exact (mem_viewItinerary_iff hwf (contains_of_createdAt hview)).mpr ⟨rfl, hpositioned⟩
  | up _ hmounts hparent _ =>
    exact List.mem_append_right _ ((hwf.mem_refreshItinerary_iff hflags (.inr ⟨_, hparent⟩)).mpr
      ⟨.refl t, hmounts, hpositioned⟩)

end Tree

namespace Mount

open MountM

variable {κ : Type} [Coordinate κ]

/-! ## Actions as visits

An action performs a list of visits if its effect is that of the visits, with any mount state. The
list then says everything about the frames that the action sends, without a look at what was sent
before. -/

/-- With any mount state and log, `action` succeeds on `tree` and comes to the same as the `visits`,
one after the other, on `start`, but for the log. -/
def Performs {α : Type} (action : MountM κ α) (tree start : Tree κ) (visits : List (Visit κ)) :
    Prop :=
  ∀ mount log, ∃ answer done, action ⟨tree, mount, log⟩ = .ok answer done ∧
    visits.forM Visit.perform ⟨start, mount, log⟩ = .ok () { done with log }

/-- The same, with the visits as a journey. -/
def Follows {α : Type} (action : MountM κ α) (tree start : Tree κ) (visits : List (Visit κ)) :
    Prop :=
  ∀ mount log, ∃ answer done, action ⟨tree, mount, log⟩ = .ok answer done ∧
    Journey visits ⟨start, mount, log⟩ { done with log }

section Follows

variable {α : Type} {action : MountM κ α} {tree start : Tree κ} {visits : List (Visit κ)}
  {mount : MountState κ} {log : List Log.Line} {done : Scene κ} {x : Tag}

/-- A journey through visits performs them. -/
theorem Follows.performs (h : Follows action tree start visits) :
    Performs action tree start visits := by
  intro mount log
  obtain ⟨answer, done, hok, hjourney⟩ := h mount log
  exact ⟨answer, done, hok, hjourney.perform⟩

/-- A run that is known to succeed makes the journey. -/
theorem Follows.journey (h : Follows action tree start visits) {answer : α}
    (hok : action ⟨tree, mount, log⟩ = .ok answer done) :
    Journey visits ⟨start, mount, log⟩ { done with log } := by
  obtain ⟨answer', done', hok', hjourney⟩ := h mount log
  rw [hok] at hok'
  cases hok'
  exact hjourney

/-- Refreshing a view is visiting it. -/
theorem refreshView_follows (hsound : tree.Sound) (hx : tree.contains x = true) :
    Follows (refreshView x) tree tree (tree.viewItinerary x) := by
  intro mount log
  obtain ⟨done, hok, hjourney⟩ :=
    @refreshView_journey _ _ ⟨tree, mount, log⟩ hsound.wellFormed x hx
  exact ⟨(), done, hok, hjourney.relog log⟩

/-- A pass visits the itineraries of all roots. -/
theorem refreshRoots_follows (hsound : tree.Sound) :
    Follows refreshRoots tree tree (tree.roots.flatMap tree.refreshItinerary) := by
  intro mount log
  obtain ⟨done, hok, hjourney⟩ := @refreshRoots_journey _ _ tree.roots ⟨tree, mount, log⟩
    hsound.wellFormed hsound.flags fun _ h => h
  exact ⟨(), done, hok, hjourney.relog log⟩

/-- An escalation that succeeds climbs to a view in the tree where the node is promoted, whatever
the mount state is. -/
theorem escalate_follows (hsound : tree.Sound) {answer : Bool}
    (hok : escalate x ⟨tree, mount, log⟩ = .ok answer done) : ∃ found a visits,
      tree.get? x = some found ∧ (tree.store x found.promote).Climb x a visits ∧
        Follows (escalate x) tree (tree.store x found.promote) visits := by
  obtain ⟨found, a, visits, hget, -, hclimb, hruns⟩ :=
    escalateWithin_climbs hsound.wellFormed hsound.flags hok
  exact ⟨found, a, visits, hget, hclimb, fun mount log => ⟨answer, hruns mount log⟩⟩

/-- A refresh that succeeds makes the visits to the subtree. It first climbs to a view, if the
native parent of the node has none. -/
theorem refreshSubtree_follows [Coordinate.Exact κ] (hsound : tree.Sound)
    (hok : refreshSubtree x ⟨tree, mount, log⟩ = .ok () done) : tree.Hangs x ∧ ∃ climb,
      tree.Accurate climb ∧
        Follows (refreshSubtree x) tree tree (climb ++ tree.refreshItinerary x) := by
  have hwf := hsound.wellFormed
  -- a supported subtree needs no climb
  have hsupported : tree.Supported x →
      Follows (refreshSubtree x) tree tree ([] ++ tree.refreshItinerary x) := by
    intro hx mount log
    obtain ⟨done, hok, hjourney, -⟩ :=
      @refreshSubtree_journey _ _ ⟨tree, mount, log⟩ x hwf hsound.flags hx
    exact ⟨(), done, hok, hjourney.relog log⟩
  by_cases hroot : x ∈ tree.roots
  -- a root hangs by itself
  · exact ⟨.inl hroot, [], ⟨nofun, nofun⟩, hsupported (.inl hroot)⟩
  by_cases hparent : ∃ p, tree.NativeParent x p
  · obtain ⟨p, hp⟩ := hparent
    cases hview : tree.createdAt p with
    -- the native parent has a view, so the subtree is supported
    | true => exact ⟨.inr ⟨p, hp⟩, [], ⟨nofun, nofun⟩, hsupported (.inr ⟨p, hp, hview⟩)⟩
    | false =>
      have hsplit := fun mount log =>
        @refreshSubtree_of_uncreated _ _ ⟨tree, mount, log⟩ hwf x p hp hview
      rw [hsplit] at hok
      cases hup : escalate p ⟨tree, mount, log⟩ with
      | error err failed =>
        rw [bind_of_error (discard_of_error hup)] at hok
        cases hok
      | ok flag mid =>
        obtain ⟨above, a, climb, habove, hclimb, hfollows⟩ := escalate_follows hsound hup
        -- the native parent mounts already, so its promotion changes nothing
        have hmounts := (Tree.mountsAt_of_get? habove).symm.trans hp.2
        rw [Node.promote_of_mounts hmounts, Tree.store_get? habove] at hclimb hfollows
        have haccurate := hclimb.accurate hwf hsound.flags
        refine ⟨.inr ⟨p, hp⟩, climb, haccurate, fun mount log => ?_⟩
        obtain ⟨_, mid, hmid, hjourney⟩ := hfollows mount log
        obtain ⟨done, hbelow, hjourney'⟩ :=
          @reconcileBelow_refreshes _ _ mid x p _ hwf (hjourney.grown haccurate.mounts) hp
        refine ⟨(), done, ?_, hjourney.append (hjourney'.relog log)⟩
        rw [hsplit, bind_of_ok (discard_of_ok hmid)]
        exact hbelow
  -- what hangs from nothing is not refreshed
  · obtain ⟨err, herr, -⟩ := @refreshSubtree_of_loose _ _ ⟨tree, mount, log⟩ hwf x hroot
      fun p hp => hparent ⟨p, hp⟩
    rw [herr] at hok
    cases hok

end Follows

end Mount

end ShadowMount
