import ShadowMount.Proofs.Core.Escalation
import ShadowMount.Proofs.Tree.Bounds

/-!
# How far recursions go

A reconciliation recurses over the children of each node, and an escalation over its native parent,
while the flags of the tree change under both. Neither changes a link. So a reconciliation meets the
nodes of the subtree in document order, whatever the flags, and an escalation goes up a chain that
is fixed before it starts.

* **`RanOut`**, **`Ends`** — the outcome of an action one of whose walks has spent its steps, and
  the actions without it; `Ends` is closed under everything actions are made of.
* **`Mount.reconcileVisits`** — a reconciliation with the nodes it visits: `Mount.tours_preOrder`
  says that they are those of the subtree, each of them once.
* **`Mount.escalateWithin_ends`** — an escalation calls itself no more often than the node is deep.
* **`Tree.Sound.recursions_end`** — both, for every tag of a sound tree.
-/

namespace ShadowMount

/-! ## Actions that run out of steps -/

/-- The outcome of an action one of whose walks has spent its steps. -/
def RanOut {σ α : Type} (outcome : EStateM.Result UiError σ α) : Prop :=
  ∃ tag state, outcome = .error (.cyclicLinks tag) state

/-- An answer is not that of spent steps. -/
theorem not_ranOut_ok {σ α : Type} (answer : α) (state : σ) :
    ¬ RanOut (.ok answer state : EStateM.Result UiError σ α) := by
  rintro ⟨tag, failed, h⟩
  cases h

/-- Neither is any other error. -/
theorem not_ranOut_error {σ α : Type} {err : UiError} (herr : ∀ tag, err ≠ .cyclicLinks tag)
    (state : σ) : ¬ RanOut (.error err state : EStateM.Result UiError σ α) := by
  rintro ⟨tag, failed, h⟩
  cases h
  exact herr tag rfl

/-- An action none of whose walks runs out of steps. -/
def Ends {σ α : Type} (action : EStateM UiError σ α) (state : σ) : Prop := ¬ RanOut (action state)

namespace Ends

variable {σ α β : Type} {action : EStateM UiError σ α} {next : α → EStateM UiError σ β} {state : σ}

/-! `Ends` is closed under what actions are made of. To show it of an action that calls others is
then to name the lemmas of the others. -/

/-- An action that answers has not run out of steps. -/
theorem of_ok {answer : α} {done : σ} (h : action state = .ok answer done) : Ends action state := by
  rw [Ends, h]
  exact not_ranOut_ok answer done

/-- Nor has one that fails for another reason. -/
theorem of_error {err : UiError} {failed : σ} (h : action state = .error err failed)
    (herr : ∀ tag, err ≠ .cyclicLinks tag) : Ends action state := by
  rw [Ends, h]
  exact not_ranOut_error herr failed

/-- Actions with the same outcome end alike. -/
theorem congr {other : EStateM UiError σ α} (h : other state = action state)
    (hends : Ends action state) : Ends other state := by
  rw [Ends, h]
  exact hends

/-- An action goes on to end if what comes next does, from wherever the first part leads. -/
theorem bind (h : Ends action state)
    (hnext : ∀ answer done, action state = .ok answer done → Ends (next answer) done) :
    Ends (action >>= next) state := by
  cases hrun : action state with
  | ok answer done =>
    rw [Ends, bind_of_ok hrun]
    exact hnext answer done hrun
  | error err failed =>
    rintro ⟨tag, failed', hout⟩
    rw [bind_of_error hrun] at hout
    cases hout
    exact h ⟨tag, failed, hrun⟩

/-- An action that starts with a look at the state, which it leaves as it is. -/
theorem read_bind {ask : Except UiError α}
    (haction : action state = match ask with
      | .ok answer => .ok answer state
      | .error err => .error err state)
    (hask : ¬ Spent ask) (hnext : ∀ answer, ask = .ok answer → Ends (next answer) state) :
    Ends (action >>= next) state := by
  cases ask with
  | ok answer =>
    rw [Ends, bind_of_ok haction]
    exact hnext answer rfl
  | error err =>
    refine of_error (bind_of_error haction) ?_
    rintro tag rfl
    exact hask ⟨tag, rfl⟩

/-- Cleaning up after a failure does not change the error, so it cannot make it one of spent steps.
-/
theorem onFailure {κ α : Type} {action : MountM κ α} {cleanUp : MountM κ Unit} {scene : Scene κ}
    (h : Ends action scene) (hclean : ∀ failed, ∃ cleaned, cleanUp failed = .ok () cleaned) :
    Ends (MountM.onFailure action cleanUp) scene := by
  cases hrun : action scene with
  | ok answer done => exact of_ok (MountM.onFailure_of_ok hrun)
  | error err failed =>
    obtain ⟨cleaned, hcleaned⟩ := hclean failed
    refine of_error (MountM.onFailure_of_error hrun hcleaned) ?_
    rintro tag rfl
    exact h ⟨tag, failed, hrun⟩

/-- An edit of the tree ends as an action on the scene if it does as one on the tree. -/
theorem onTree {κ α : Type} {edit : TreeM κ α} {scene : Scene κ} (h : Ends edit scene.tree) :
    Ends (MountM.onTree edit) scene := by
  cases hrun : edit scene.tree with
  | ok answer tree => exact of_ok (MountM.onTree_of_ok hrun)
  | error err tree =>
    refine of_error (MountM.onTree_of_error hrun) ?_
    rintro tag rfl
    exact h ⟨tag, tree, hrun⟩

/-- What is done with an answer does not matter. -/
theorem map (f : α → β) (h : Ends action state) : Ends (f <$> action) state := by
  rintro ⟨tag, failed, hout⟩
  change EStateM.map f action state = _ at hout
  rw [EStateM.map] at hout
  split at hout
  · cases hout
  · next hrun =>
    cases hout
    exact h ⟨tag, failed, hrun⟩

/-- Nor does it matter whether the answer is used at all. -/
theorem discard (h : Ends action state) : Ends (discard action) state := h.map _

end Ends

/-! ## Reconciliation

The recursion is run together with a list of the nodes that it visits. The list does not depend on
what happens at a node, since no step of reconciliation changes a link; so it is the document order
of the subtree, and its length bounds the recursion. -/

namespace Mount

open MountM

section Visits

variable {κ : Type} [Coordinate κ] {tree : Tree κ}

/-- `reconcile` with a record of the nodes it visits, in order. -/
def reconcileVisits : (steps : Nat) → (tag : Tag) → (dx dy : κ) → (above : Option Tag) →
    (visited : List Tag) → MountM κ (List Tag)
  | 0, tag, _, _, _, _ => throw (.cyclicLinks tag)
  | steps + 1, tag, dx, dy, above, visited => do
    let node ← node tag
    if node.mounts then
      materialize tag
      match above with
      | some parent => sendFrame tag parent (node.frame.shift dx dy)
      | none => pure ()
      let visited ← node.children.foldlM
        (fun visited child => reconcileVisits steps child 0 0 (some tag) visited) (visited ++ [tag])
      sendChildren tag
      return visited
    else
      node.children.foldlM (fun visited child =>
        reconcileVisits steps child (dx + node.frame.x) (dy + node.frame.y) above visited)
        (visited ++ [tag])

omit [Coordinate κ] in
/-- A loop that carries a record along does what the loop without it does. -/
theorem forM_eq_foldlM {α β : Type} {f : α → MountM κ Unit} {g : β → α → MountM κ β}
    (h : ∀ a b, f a = (fun _ => ()) <$> g b a) (as : List α) (b : β) :
    as.forM f = (fun _ => ()) <$> as.foldlM g b := by
  induction as generalizing b with
  | nil => rfl
  | cons a as ih =>
    calc (a :: as).forM f
      _ = (fun _ => ()) <$> g b a >>= fun _ => as.forM f := by rw [← h a b]; rfl
      _ = g b a >>= fun _ => as.forM f := bind_map_left ..
      _ = g b a >>= fun b => (fun _ => ()) <$> as.foldlM g b := by simp only [← ih]
      _ = (fun _ => ()) <$> (a :: as).foldlM g b := by rw [List.foldlM_cons, map_bind]

/-- The record makes no difference. -/
theorem reconcile_eq_map (steps : Nat) (tag : Tag) (dx dy : κ) (above : Option Tag)
    (visited : List Tag) : reconcile steps tag dx dy above =
      (fun _ => ()) <$> reconcileVisits steps tag dx dy above visited := by
  induction steps generalizing tag dx dy above visited with
  | zero => rfl
  | succ steps ih =>
    -- the loops over the children agree, by induction on the steps
    have hloop : ∀ (cs : List Tag) (dx dy : κ) (above : Option Tag),
        cs.forM (fun child => reconcile steps child dx dy above) =
          (fun _ => ()) <$> cs.foldlM (fun visited child =>
            reconcileVisits steps child dx dy above visited) (visited ++ [tag]) :=
      fun cs dx dy above => forM_eq_foldlM (fun c _ => ih c dx dy above _) cs _
    -- both look the node up and do the same with it but for the loop over the children
    unfold reconcile reconcileVisits
    rw [map_bind]
    refine congrArg (node tag >>= ·) (funext fun node => ?_)
    cases node.mounts with
    | true =>
      simp only [if_true, hloop, map_bind, bind_map_left]
      cases above <;> simp
    | false =>
      simp only [Bool.false_eq_true, if_false, hloop]

/-- `Tours tree tags order bound`: from any scene with the links of `tree`, reconciling the subtrees
of `tags` visits `order` and keeps the links. From `bound` steps on, the steps make no
difference. -/
def Tours (tree : Tree κ) (tags order : List Tag) (bound : Nat) : Prop :=
  ∀ (dx dy : κ) (above : Option Tag) (scene : Scene κ) (visited : List Tag),
    tree.SameLinks scene.tree → ∃ done, tree.SameLinks done.tree ∧ ∀ steps, bound ≤ steps →
      tags.foldlM (fun visited tag => reconcileVisits steps tag dx dy above visited) visited scene =
        .ok (visited ++ order) done

/-- Siblings one after the other. -/
theorem Tours.siblings {f g : Tag → List Tag} {cs : List Tag}
    (h : ∀ c ∈ cs, Tours tree [c] (f c) (g c).length) :
    Tours tree cs (cs.flatMap f) (cs.flatMap g).length := by
  intro dx dy above
  induction cs with
  | nil =>
    intro scene visited hlinks
    refine ⟨scene, hlinks, fun steps _ => ?_⟩
    rw [List.flatMap_nil, List.append_nil]
    rfl
  | cons c cs ih =>
    intro scene visited hlinks
    -- the record of the first sibling is where that of the others begins
    -- the first sibling changes flags and the queue, which the others do not depend on
    obtain ⟨mid, hmid, hfirst⟩ := h c (List.mem_cons_self ..) dx dy above scene visited hlinks
    obtain ⟨done, hdone, hrest⟩ := ih (fun d hd => h d (List.mem_cons_of_mem _ hd)) mid
      (visited ++ f c) hmid
    refine ⟨done, hdone, fun steps hsteps => ?_⟩
    rw [List.flatMap_cons, List.length_append] at hsteps
    rw [← List.singleton_append, List.foldlM_append, bind_of_ok (hfirst steps (by omega)),
      hrest steps (by omega), List.flatMap_append, List.flatMap_singleton, List.append_assoc]

omit [Coordinate κ] in
/-- Materializing a node changes no link, whether it creates a view or finds one. -/
theorem materialize_links {scene : Scene κ} {tag : Tag} {found : Node κ}
    (hget : scene.tree.get? tag = some found) :
    ∃ mid, materialize tag scene = .ok () mid ∧ scene.tree.SameLinks mid.tree := by
  cases hcreated : found.created with
  | true => exact ⟨scene, materialize_of_created hget hcreated, .refl _⟩
  | false =>
    exact ⟨_, materialize_of_uncreated hget hcreated,
      @Tree.sameLinks_store _ _ tag found { found with created := true } hget rfl rfl rfl⟩

/-- What a node that mounts does with its children: their subtrees, then its child list. -/
theorem Tours.mounting {cs order : List Tag} {bound : Nat} {t : Tag}
    (h : Tours tree cs order bound) (hwf : tree.WellFormed) (ht : tree.contains t = true)
    (visited : List Tag) {mid : Scene κ} (hmid : tree.SameLinks mid.tree) :
    ∃ done, tree.SameLinks done.tree ∧ ∀ steps, bound ≤ steps → (do
        let visited ← cs.foldlM (fun visited child =>
          reconcileVisits steps child 0 0 (some t) visited) visited
        sendChildren t
        return visited : MountM κ (List Tag)) mid = .ok (visited ++ order) done := by
  obtain ⟨done, hdone, hloop⟩ := h 0 0 (some t) mid visited hmid
  obtain ⟨views, hviews, -⟩ :=
    Tree.nativeChildren_spec (hdone.wellFormed hwf) ((hdone.contains t).trans ht)
  refine ⟨{ done with mount := done.mount.childrenSent t views }, hdone, fun steps hsteps => ?_⟩
  rw [bind_of_ok (hloop steps hsteps), bind_of_ok (sendChildren_of_ok hviews)]
  rfl

/-- A reconciliation visits the nodes of the subtree in document order, each of them once. -/
theorem tours_preOrder (hwf : tree.WellFormed) {t : Tag} (ht : tree.contains t = true) :
    Tours tree [t] (tree.preOrder t) (tree.subtree t).length := by
  induction t, ht using hwf.subtree_induction with
  | node t ht ih =>
    intro dx dy above scene visited hlinks
    have hbelow := Tours.siblings ih
    obtain ⟨found, hget⟩ := Tree.contains_iff.mp ((hlinks.contains t).trans ht)
    have hchildren : found.children = tree.childrenOf t := by
      rw [← hlinks.children, Tree.childrenOf_of_get? hget]
    have hlength := Tree.length_subtree hwf ht
    have horder : visited ++ tree.preOrder t =
        visited ++ [t] ++ (tree.childrenOf t).flatMap tree.preOrder := by
      rw [Tree.preOrder_eq hwf ht, List.append_assoc, List.singleton_append]
    -- each time one step is left behind, and the children have the others
    suffices hstep : ∃ done, tree.SameLinks done.tree ∧
        ∀ steps, ((tree.childrenOf t).flatMap tree.subtree).length ≤ steps →
          reconcileVisits (steps + 1) t dx dy above visited scene =
            .ok (visited ++ tree.preOrder t) done by
      obtain ⟨done, hdone, hrun⟩ := hstep
      refine ⟨done, hdone, fun steps hsteps => ?_⟩
      obtain ⟨steps, rfl⟩ : ∃ k, steps = k + 1 := ⟨steps - 1, by omega⟩
      rw [List.foldlM_cons, bind_of_ok (hrun steps (by omega))]
      rfl
    -- a node that does not mount hands its place on to its children, and visits nothing itself
    cases hmounts : found.mounts with
    | false =>
      obtain ⟨done, hdone, hloop⟩ := hbelow (dx + found.frame.x) (dy + found.frame.y) above scene
        (visited ++ [t]) hlinks
      refine ⟨done, hdone, fun steps hsteps => ?_⟩
      unfold reconcileVisits
      rw [bind_of_ok (node_of_get? hget), hmounts, if_neg Bool.false_ne_true, hchildren,
        hloop steps hsteps, ← horder]
    -- a node that mounts gets its view, then its frame unless it is a root, and then its children
    -- are visited in its own coordinates
    | true =>
      obtain ⟨made, hmake, hmade⟩ := materialize_links hget
      cases above with
      | none =>
        obtain ⟨done, hdone, hrest⟩ := hbelow.mounting hwf ht (visited ++ [t]) (hlinks.trans hmade)
        refine ⟨done, hdone, fun steps hsteps => ?_⟩
        unfold reconcileVisits
        rw [bind_of_ok (node_of_get? hget), if_pos hmounts, bind_of_ok hmake, hchildren, horder]
        exact hrest steps hsteps
      | some parent =>
        obtain ⟨done, hdone, hrest⟩ := @Tours.mounting _ _ _ _ _ _ t hbelow hwf ht (visited ++ [t])
          { made with mount := made.mount.frameSent t parent (found.frame.shift dx dy) }
          (hlinks.trans hmade)
        refine ⟨done, hdone, fun steps hsteps => ?_⟩
        unfold reconcileVisits
        rw [bind_of_ok (node_of_get? hget), if_pos hmounts, bind_of_ok hmake, hchildren, horder]
        exact hrest steps hsteps

/-- Within the budget a reconciliation has visited the document order, or found no node. -/
theorem reconcileVisits_cases {scene : Scene κ} (hwf : scene.tree.WellFormed) (tag : Tag)
    (dx dy : κ) (above : Option Tag) :
    (∃ done, ∀ steps, scene.tree.budget ≤ steps →
      reconcileVisits steps tag dx dy above [] scene = .ok (scene.tree.preOrder tag) done) ∨
    ∀ steps, scene.tree.budget ≤ steps →
      reconcileVisits steps tag dx dy above [] scene = .error (.missing tag) scene := by
  rw [Tree.budget]
  cases hget : scene.tree.get? tag with
  | none =>
    refine .inr fun steps hsteps => ?_
    obtain ⟨steps, rfl⟩ : ∃ k, steps = k + 1 := ⟨steps - 1, by omega⟩
    unfold reconcileVisits
    exact bind_of_error (node_of_missing hget)
  | some node =>
    have ht := Tree.contains_of_get? hget
    have hsize := Tree.length_subtree_le_size hwf ht
    obtain ⟨done, -, hrun⟩ := tours_preOrder hwf ht dx dy above scene [] (.refl _)
    refine .inl ⟨done, fun steps hsteps => ?_⟩
    have hloop := hrun steps (by omega)
    simpa only [List.foldlM_cons, List.foldlM_nil, bind_pure, List.nil_append] using hloop

/-- A reconciliation is over within the budget of the tree, and more steps make no difference. -/
theorem reconcileVisits_ends {scene : Scene κ} (hwf : scene.tree.WellFormed) (tag : Tag) (dx dy : κ)
    (above : Option Tag) : EndsWithin RanOut
      (fun steps => reconcileVisits steps tag dx dy above [] scene) scene.tree.budget := by
  rcases reconcileVisits_cases hwf tag dx dy above with ⟨done, hok⟩ | herr
  · exact ⟨_, not_ranOut_ok _ done, hok⟩
  · exact ⟨_, not_ranOut_error (by simp) scene, herr⟩

end Visits

/-! ## Escalation

An escalation calls itself for the native parent before it does anything that could change the way.
With a budget above the depth of the node it gives one and the same outcome, whatever the budget. -/

section Climbing

variable {κ : Type} [Coordinate κ] {scene : Scene κ} {tag parent : Tag} {found : Node κ}

omit [Coordinate κ] in
/-- Composed actions agree on a scene if their first parts do. -/
theorem bind_congr_at {α β : Type} {x y : MountM κ α} {f : α → MountM κ β} (h : x scene = y scene) :
    (x >>= f) scene = (y >>= f) scene := by
  cases hy : y scene with
  | ok answer done => rw [bind_of_ok (h.trans hy), bind_of_ok hy]
  | error err failed => rw [bind_of_error (h.trans hy), bind_of_error hy]

omit [Coordinate κ] in
/-- Actions with a clean-up agree on a scene if they do without it. -/
theorem onFailure_congr_at {α : Type} {x y : MountM κ α} {cleanUp : MountM κ Unit}
    (h : x scene = y scene) : onFailure x cleanUp scene = onFailure y cleanUp scene := by
  cases hy : y scene with
  | ok answer done => rw [onFailure_of_ok (h.trans hy), onFailure_of_ok hy]
  | error err failed =>
    rw [onFailure, onFailure, tryCatch_of_error (h.trans hy), tryCatch_of_error hy]

/-- The steps matter to an escalation only as far as they matter to that of the native parent. -/
theorem escalateWithin_congr {steps more : Nat} (hget : scene.tree.get? tag = some found)
    (hvirtual : found.isVirtual = false) (hcreated : found.created = false)
    (hparent : scene.tree.nativeParent tag = .ok (some parent))
    (h : escalateWithin steps parent (promoted scene tag found) =
      escalateWithin more parent (promoted scene tag found)) :
    escalateWithin (steps + 1) tag scene = escalateWithin (more + 1) tag scene := by
  -- one call of itself, followed by what does not depend on the steps
  have hunfold : ∀ steps, escalateWithin (steps + 1) tag scene = (do
      let _ ← onFailure (escalateWithin steps parent) do
        if found.isPromotable then onTree (TreeM.update tag Node.demote)
      if found.isPromotable then say .debug s!"node {tag} forced to mount to a view"
      reconcileBelow tag parent
      return true : MountM κ Bool) (promoted scene tag found) := by
    intro steps
    conv_lhs => unfold escalateWithin
    rw [bind_of_ok (node_of_get? hget), hvirtual, if_neg Bool.false_ne_true, hcreated,
      if_neg Bool.false_ne_true, bind_of_ok (query_of_ok hparent)]
    change (onTree (Tree.promote tag) >>= _ : MountM κ Bool) scene = _
    rw [bind_of_ok (onTree_of_ok (Tree.promote_of_get? hget))]
    rfl
  rw [hunfold, hunfold]
  exact bind_congr_at (onFailure_congr_at h)

/-- With a step for each node on the way up, more steps make no difference. -/
theorem escalateWithin_eq : ∀ {steps more : Nat} {tag : Tag} {scene : Scene κ} {l : List Tag},
    scene.tree.WellFormed → scene.tree.Lineage tag l → l.length ≤ steps → l.length ≤ more →
      escalateWithin steps tag scene = escalateWithin more tag scene
  | 0, _, _, _, _, _, hl, hsteps, _ | _, 0, _, _, _, _, hl, _, hsteps => by
    have := hl.length_pos
    omega
  | steps + 1, more + 1, tag, scene, l, hwf, hl, hsteps, hmore => by
    obtain ⟨found, hget⟩ := Tree.contains_iff.mp hl.contains
    cases hvirtual : found.isVirtual with
    -- neither a virtual node nor one with a view climbs any further
    | true => rw [escalateWithin_of_virtual hget hvirtual, escalateWithin_of_virtual hget hvirtual]
    | false =>
      cases hcreated : found.created with
      | true =>
        obtain ⟨done, hrefresh, -⟩ := refreshView_journey hwf hl.contains
        rw [escalateWithin_of_created hget hvirtual hcreated hrefresh,
          escalateWithin_of_created hget hvirtual hcreated hrefresh]
      | false =>
        rcases Tree.nativeParent_cases hwf hl.contains with ⟨p, hquery, hp⟩ | ⟨hquery, -⟩
        · -- the native parent has a shorter way up, and the promotion leaves it alone
          obtain ⟨l', hl', hlt⟩ := hl.of_ancestor hp.ancestor
          have hlinks := (Tree.kept_promote hget).links
          refine escalateWithin_congr hget hvirtual hcreated hquery ?_
          exact escalateWithin_eq (hlinks.wellFormed hwf) (hlinks.lineage hl') (by omega) (by omega)
        · rw [escalateWithin_of_unparented hget hvirtual hcreated hquery,
            escalateWithin_of_unparented hget hvirtual hcreated hquery]

/-- An escalation calls itself no more often than the node is deep. -/
theorem escalateWithin_ends (hwf : scene.tree.WellFormed) (hflags : scene.tree.FlagsSound)
    (tag : Tag) : EndsWithin RanOut (fun steps => escalateWithin steps tag scene)
      (scene.tree.depth tag + 1) := by
  cases hget : scene.tree.get? tag with
  | none =>
    refine ⟨.error (.missing tag) scene, not_ranOut_error (by simp) scene, fun steps hsteps => ?_⟩
    obtain ⟨steps, rfl⟩ : ∃ k, steps = k + 1 := ⟨steps - 1, by omega⟩
    exact escalateWithin_of_missing hget
  | some found =>
    obtain ⟨l, hl⟩ := hwf.exists_lineage (Tree.contains_of_get? hget)
    rw [← hl.length_eq hwf]
    refine ⟨escalateWithin l.length tag scene, ?_, fun steps hsteps =>
      escalateWithin_eq hwf hl hsteps (Nat.le_refl _)⟩
    cases hvirtual : found.isVirtual with
    | true =>
      rw [hl.length_eq hwf, escalateWithin_of_virtual hget hvirtual]
      exact not_ranOut_error (by simp) scene
    | false =>
      -- with a step for each node on the way up the outcome is one of three, none of them spent
      have houtcome := escalateWithin_outcome hwf hflags hl (Nat.le_refl _) hget hvirtual
      generalize escalateWithin l.length tag scene = outcome at houtcome
      cases houtcome with
      | barren top => exact not_ranOut_error (by simp) scene
      | refreshed => exact not_ranOut_ok _ _
      | raised => exact not_ranOut_ok _ _

/-- An escalation does not run out of steps, because it is given one for each node of the tree. -/
theorem ends_escalate (hwf : scene.tree.WellFormed) (hflags : scene.tree.FlagsSound) (tag : Tag) :
    Ends (escalate tag) scene := by
  show ¬ RanOut (escalateWithin scene.tree.budget tag scene)
  exact ((escalateWithin_ends hwf hflags tag).mono
    (Nat.succ_le_succ (Tree.depth_le_size hwf tag))).not_spent

end Climbing

end Mount

/-! ## Sound trees

Both start with one step more than the tree has nodes. This is above the two bounds, so neither ends
for want of steps. -/

/-- The recursions of the mount core from a node: a reconciliation visits no node twice, and an
escalation calls itself no more often than the node is deep. -/
structure Mount.RecursionsEnd {κ : Type} [Coordinate κ] (tree : Tree κ) (tag : Tag) : Prop where
  /-- A reconciliation is the recorded one with its record dropped. -/
  reconcile_visits : ∀ (steps : Nat) (dx dy : κ) (above : Option Tag),
    reconcile steps tag dx dy above = (fun _ => ()) <$> reconcileVisits steps tag dx dy above []
  /-- It ends within the budget of the tree. -/
  reconcile : ∀ (mount : MountState κ) (log : List Log.Line) (dx dy : κ) (above : Option Tag),
    EndsWithin RanOut (reconcileVisits · tag dx dy above [] ⟨tree, mount, log⟩) tree.budget
  /-- It visits nodes of the subtree, none of them twice. -/
  reconcile_once : ∀ {mount : MountState κ} {log : List Log.Line} {dx dy : κ} {above : Option Tag}
    {visited : List Tag} {done : Scene κ},
    reconcileVisits tree.budget tag dx dy above [] ⟨tree, mount, log⟩ = .ok visited done →
      visited.Nodup ∧ ∀ x ∈ visited, tree.InSubtree tag x
  /-- An escalation takes no more steps than there are nodes on the way up. -/
  escalate : ∀ (mount : MountState κ) (log : List Log.Line),
    EndsWithin RanOut (escalateWithin · tag ⟨tree, mount, log⟩) (tree.depth tag + 1)

/-- On a sound tree both recursions end, from any tag. -/
theorem Tree.Sound.recursions_end {κ : Type} [Coordinate κ] {tree : Tree κ} (h : tree.Sound)
    (tag : Tag) : Mount.RecursionsEnd tree tag := by
  have hwf := h.wellFormed
  refine ⟨fun steps dx dy above => Mount.reconcile_eq_map steps tag dx dy above [],
    fun mount log => @Mount.reconcileVisits_ends _ _ ⟨tree, mount, log⟩ hwf tag,
    fun {mount log dx dy above visited done} hok => ?_,
    fun mount log => @Mount.escalateWithin_ends _ _ ⟨tree, mount, log⟩ hwf h.flags tag⟩
  rcases @Mount.reconcileVisits_cases _ _ ⟨tree, mount, log⟩ hwf tag dx dy above with
    ⟨done', hruns⟩ | herr
  · rw [hruns tree.budget (Nat.le_refl _)] at hok
    cases hok
    exact ⟨nodup_preOrder_of_any hwf tag, fun x => mem_preOrderFrom hwf⟩
  · rw [herr tree.budget (Nat.le_refl _)] at hok
    cases hok

end ShadowMount
