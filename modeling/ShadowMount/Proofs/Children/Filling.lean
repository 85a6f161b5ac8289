import ShadowMount.Proofs.Children.Emptying

/-!
# Filling positions

The second pass over the tree attaches children, from the lowest position up. The checks of a
single attachment hold all along: attaching one child neither gives another a parent nor changes
what lies above the parent.

* **`attachEach_ok`** — attaching distinct attachable nodes at positions that fit never fails.
* **`attachAll_eq`** — the pass with parked children is such a sequence of attachments.
-/

namespace ShadowMount

namespace Tree

variable {κ : Type} {tree after : Tree κ} {parent : Tag} {above : Node κ}

/-- What filling positions below `parent` makes of a tree: the nodes `added` are attached to it,
`list` is its child list, and everything else is as before. -/
structure Filled (tree : Tree κ) (parent : Tag) (above : Node κ) (list added : List Tag)
    (after : Tree κ) : Prop where
  at_parent : after.get? parent = some { above with children := list }
  at_added : ∀ {x}, x ∈ added →
    after.get? x = (tree.get? x).map (Node.attachedTo parent above.forcesChildren)
  kept : ∀ {x}, x ≠ parent → x ∉ added → after.get? x = tree.get? x
  roots : after.roots = tree.roots
  poisoned : after.poisoned = tree.poisoned

/-- An attachment leaves the other nodes attachable. -/
theorem Attachable.linked (hwf : tree.WellFormed) {child other : Tag} {index : Nat} {node : Node κ}
    (habove : tree.get? parent = some above) (hnode : tree.get? child = some node)
    (h : tree.Attachable parent child) (hother : tree.Attachable parent other) (hne : child ≠ other) :
    (tree.linked parent child index above node).Attachable parent other := by
  have hcontains : ∀ x, (tree.linked parent child index above node).contains x = tree.contains x :=
    contains_linked habove hnode
  obtain ⟨l, hl⟩ := hwf.exists_lineage (contains_of_get? habove)
  -- the way up from the parent does not meet the child
  have hl' : (tree.linked parent child index above node).Lineage parent l := by
    refine hl.transport (fun x _ => hcontains x) fun x hx => ?_
    have hx' : child ≠ x := fun heq => h.not_above (heq ▸ (hl.mem_iff x).mp hx)
    rw [parentOf?_linked habove, if_neg hx']
  refine ⟨(hcontains other).trans hother.contained, ?_, hother.not_root, fun hsub => ?_⟩
  · rw [parentOf?_linked habove, if_neg hne]
    exact hother.parentless
  · exact hother.not_above ((hl.mem_iff other).mp ((hl'.mem_iff other).mpr hsub))

/-- Attaches children at their positions, one after the other. -/
def attachEach (parent : Tag) (entries : List (Nat × Tag)) : TreeM κ Unit :=
  entries.forM fun entry => attach parent entry.2 entry.1

/-- Attaching one child after the other. The induction is on the entries; the list of the parent
grows by one each time, which is what the positions are to fit. -/
theorem attachEach_ok : ∀ {entries : List (Nat × Tag)} {tree : Tree κ} {above : Node κ},
    tree.WellFormed → tree.FlagsSound → tree.get? parent = some above →
    Fits above.children.length (entries.map Prod.fst) → (entries.map Prod.snd).Nodup →
    (∀ c ∈ entries.map Prod.snd, tree.Attachable parent c) →
      ∃ after, attachEach parent entries tree = .ok () after ∧ after.WellFormed ∧
        after.FlagsSound ∧ tree.Filled parent above
          (entries.foldl (fun list entry => list.insertIdx entry.1 entry.2) above.children)
          (entries.map Prod.snd) after
  | [], tree, above, hwf, hflags, habove, _, _, _ =>
    ⟨tree, rfl, hwf, hflags, habove, nofun, fun _ _ => rfl, rfl, rfl⟩
  | (index, child) :: rest, tree, above, hwf, hflags, habove, ⟨hindex, hfits⟩, hnodup, hall => by
    obtain ⟨hnotin, hnodup⟩ := List.nodup_cons.mp hnodup
    have hchild := hall child (List.mem_cons_self ..)
    obtain ⟨node, hnode⟩ := contains_iff.mp hchild.contained
    have hattach := attach_of_attachable hwf habove hnode hindex hchild
    have hfound : (tree.linked parent child index above node).get? parent =
        some { above with children := above.children.insertIdx index child } := by
      rw [get?_linked, if_neg hchild.ne, if_pos rfl]
    have hlength : (above.children.insertIdx index child).length = above.children.length + 1 :=
      List.length_insertIdx_of_le_length hindex child
    -- linking one child leaves the others free to be linked
    have hrest : ∀ c ∈ rest.map Prod.snd,
        (tree.linked parent child index above node).Attachable parent c := by
      intro c hc
      have hne : child ≠ c := fun heq => hnotin (heq ▸ hc)
      exact hchild.linked hwf habove hnode (hall c (List.mem_cons_of_mem _ hc)) hne
    obtain ⟨after, hrun, hwf', hflags', hfilled⟩ := attachEach_ok
      (hwf.linked habove hnode hindex hchild) (hflags.linked habove hnode) hfound
      (by rw [hlength]; exact hfits) hnodup hrest
    refine ⟨after, ?_, hwf', hflags', hfilled.at_parent, ?_, ?_, hfilled.roots, hfilled.poisoned⟩
    -- first this child, then the rest
    · show (attach parent child index >>= fun _ => attachEach parent rest) tree = _
      rw [bind_of_ok hattach]
      exact hrun
    · intro x hx
      by_cases hxchild : x = child
      · -- the rest of the pass does not come back to the child
        subst hxchild
        rw [hfilled.kept hchild.ne hnotin, get?_linked, if_pos rfl, hnode, Option.map_some]
      · have hx' : x ∈ rest.map Prod.snd := (List.mem_cons.mp hx).resolve_left hxchild
        rw [hfilled.at_added hx', get?_linked, if_neg (fun heq => hxchild heq.symm),
          if_neg (hall x hx).ne.symm]
    -- what is neither the parent nor attached is passed by at every step
    · intro x hx hnot
      obtain ⟨hxchild, hxrest⟩ := not_or.mp (fun h => hnot (List.mem_cons.mpr h))
      rw [hfilled.kept hx hxrest, get?_linked, if_neg (fun heq => hxchild heq.symm),
        if_neg (fun heq => hx heq.symm)]

end Tree

namespace Children

open MountM

variable {κ : Type} {parent : Tag}

/-- A position above the one before passes the check. -/
theorem checkAscending_ok {scene : Scene κ} {previous : Option Nat} {index : Nat}
    (h : ∀ p ∈ previous, p < index) : checkAscending previous index scene = .ok () scene := by
  cases previous with
  | none => rfl
  | some previous =>
    have hlt := h previous rfl
    show (if index ≤ previous then throw _ else pure () : MountM κ Unit) scene = _
    rw [if_neg (by omega)]
    rfl

/-- The pass attaches what its steps stand for, as long as `resolve` names, for every target, the
child that waits there. -/
theorem attachAll_eq {resolve : AttachStep → Nat × Tag}
    (hadd : ∀ index child, resolve (.add index child) = (index, child))
    (hmove : ∀ index rank, (resolve (.move index rank)).1 = index) :
    ∀ {steps : List AttachStep} (previous : Option Nat) (moves : MovePlan) (scene : Scene κ),
      steps.Pairwise (fun a b => a.index < b.index) →
      (∀ p ∈ previous, ∀ step ∈ steps, p < step.index) → (∀ index, .collision index ∉ steps) →
      steps.Pairwise (fun a b => ∀ i j rank, a = .move i rank → b ≠ .move j rank) →
      (∀ index rank, .move index rank ∈ steps →
        moves.waiting? rank = some (resolve (.move index rank)).2) →
      attachAll parent previous moves steps scene =
        onTree (Tree.attachEach parent (steps.map resolve)) scene
  | [], _, _, _, _, _, _, _, _ => rfl
  | .collision index :: _, _, _, _, _, _, hcollision, _, _ =>
    absurd (List.mem_cons_self ..) (hcollision index)
  | .add index child :: rest, previous, moves, scene, hasc, hprevious, hcollision, hranks,
      hwaiting => by
    obtain ⟨hhead, hasc⟩ := List.pairwise_cons.mp hasc
    have hcheck : checkAscending previous index scene = .ok () scene :=
      checkAscending_ok fun p hp => hprevious p hp _ (List.mem_cons_self ..)
    -- after the addition the rest of the pass is the rest of the attachments, from any scene
    have hrest : ∀ scene : Scene κ, attachAll parent (some index) moves rest scene =
        onTree (Tree.attachEach parent (rest.map resolve)) scene := by
      intro scene
      refine attachAll_eq hadd hmove (some index) moves scene hasc ?_ ?_
        (List.pairwise_cons.mp hranks).2 ?_
      · rintro p ⟨⟩ step hstep
        exact hhead step hstep
      · exact fun i hi => hcollision i (List.mem_cons_of_mem _ hi)
      · exact fun i rank hi => hwaiting i rank (List.mem_cons_of_mem _ hi)
    unfold attachAll
    rw [bind_of_ok hcheck, List.map_cons, hadd]
    -- on the tree alone, the attachments are one action
    show _ = onTree (Tree.attach parent child index >>= fun _ =>
      Tree.attachEach parent (rest.map resolve)) scene
    rw [onTree_bind]
    exact congrArg (fun next => (onTree _ >>= fun _ => next) scene) (funext hrest)
  | .move index rank :: rest, previous, moves, scene, hasc, hprevious, hcollision, hranks,
      hwaiting => by
    obtain ⟨hhead, hasc⟩ := List.pairwise_cons.mp hasc
    obtain ⟨hother, hranks⟩ := List.pairwise_cons.mp hranks
    have hwait := hwaiting index rank (List.mem_cons_self ..)
    have hcheck : checkAscending previous index scene = .ok () scene :=
      checkAscending_ok fun p hp => hprevious p hp _ (List.mem_cons_self ..)
    have hrest : ∀ scene : Scene κ,
        attachAll parent (some index) (moves.takeParked rank).2 rest scene =
          onTree (Tree.attachEach parent (rest.map resolve)) scene := by
      intro scene
      refine attachAll_eq hadd hmove (some index) (moves.takeParked rank).2 scene hasc ?_ ?_ hranks ?_
      · rintro p ⟨⟩ step hstep
        exact hhead step hstep
      · exact fun i hi => hcollision i (List.mem_cons_of_mem _ hi)
      · intro i other hi
        -- the child taken was not waiting for a later target
        have hne : rank ≠ other := by
          rintro rfl
          exact hother _ hi index i rank rfl rfl
        rw [MovePlan.waiting?_takeParked_of_ne hne]
        exact hwaiting i other (List.mem_cons_of_mem _ hi)
    have hentry : resolve (.move index rank) = (index, (resolve (.move index rank)).2) :=
      Prod.ext (hmove index rank) rfl
    -- what is taken is what waits, and it waits no more
    have htaken : moves.takeParked rank =
        (some (resolve (.move index rank)).2, (moves.takeParked rank).2) := Prod.ext hwait rfl
    unfold attachAll
    rw [htaken, List.map_cons, hentry]
    show (checkAscending previous index >>= fun _ => _) scene =
      onTree (Tree.attach parent (resolve (.move index rank)).2 index >>= fun _ =>
        Tree.attachEach parent (rest.map resolve)) scene
    rw [bind_of_ok hcheck, onTree_bind]
    exact congrArg (fun next => (onTree _ >>= fun _ => next) scene) (funext hrest)

/-- Attaching from one position on is attaching at that position, the next, and so on. -/
theorem attachFrom_eq : ∀ {children : List Tag} {index : Nat} {scene : Scene κ},
    attachFrom parent index children scene =
      onTree (Tree.attachEach parent ((children.zipIdx index).map Prod.swap)) scene
  | [], _, _ => rfl
  | child :: rest, index, scene => by
    unfold attachFrom
    show _ = onTree (Tree.attach parent child index >>= fun _ =>
      Tree.attachEach parent ((rest.zipIdx (index + 1)).map Prod.swap)) scene
    rw [onTree_bind]
    exact congrArg (fun next => (onTree _ >>= fun _ => next) scene) (funext fun _ => attachFrom_eq)

end Children

end ShadowMount
