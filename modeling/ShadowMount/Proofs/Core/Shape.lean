import Mathlib.Data.List.Dedup
import ShadowMount.Proofs.Children.Acceptance

/-!
# The shape of a tree after any run

The links and the roots of a tree that calls of the core have led to, whatever the calls were and
whether they were answered or refused. `CoreRun` also remembers the tags that were registered as
roots, so that the order of the roots can be told.

* **`CoreRun.roots_sublist`** — roots stand in the order of their last registration.
* **`CoreRun.shape`** — the two directions of the links agree, following parents ends, and the roots
  are registered, parentless, distinct and in order.
-/

namespace ShadowMount

variable {κ : Type}

/-! ## The way up

Following parents as a function of the number of steps, so that it can be said after how many of
them the way ends. -/

/-- The node that so many parent links lead to. -/
def Tree.ascend (tree : Tree κ) : Nat → Tag → Option Tag
  | 0, tag => some tag
  | steps + 1, tag => (tree.parentOf? tag).bind (tree.ascend steps)

/-- Along a lineage the way up ends at a node without a parent. -/
theorem Tree.Lineage.ascend {tree : Tree κ} {t : Tag} {l : List Tag} (h : tree.Lineage t l) :
    ∃ steps top, l.length = steps + 1 ∧ tree.ascend steps t = some top ∧
      tree.contains top = true ∧ tree.parentOf? top = none := by
  induction h with
  | @top t ht hnone => exact ⟨0, t, rfl, rfl, ht, hnone⟩
  | @up t p l hparent _ ih =>
    obtain ⟨steps, top, hlength, hascend, htop⟩ := ih
    refine ⟨steps + 1, top, by rw [List.length_cons, hlength], ?_, htop⟩
    rw [Tree.ascend, hparent, Option.bind_some, hascend]

/-! ## Runs

The run keeps the list of tags that were registered as roots. A root that is destroyed and
registered again stands at its last registration, so the roots are compared with the list without
earlier repeats. -/

/-- Runs of calls from the empty tree, each call with a mount state of its own. The list has the
roots that were registered on the way, oldest first. -/
inductive CoreRun [Coordinate κ] : List Tag → Tree κ → Prop
  /-- The empty tree. -/
  | start : CoreRun [] .empty
  /-- One more call, which may fail. -/
  | call {registered : List Tag} {tree : Tree κ} (h : CoreRun registered tree) (call : CoreCall κ)
      (mount : MountState κ) (log : List Log.Line) :
      CoreRun (registered ++ call.newRoots ⟨tree, mount, log⟩)
        (leaves call.run ⟨tree, mount, log⟩).tree

/-- A new element goes behind the others, and only its last occurrence counts. -/
theorem sublist_dedup_concat {l registered : List Tag} {tag : Tag}
    (h : l.Sublist registered.dedup) (hnew : tag ∉ l) :
    (l ++ [tag]).Sublist (registered ++ [tag]).dedup := by
  induction registered generalizing l with
  -- by induction on what was registered before; its last occurrences are what counts
  | nil =>
    obtain rfl := List.sublist_nil.mp h
    exact .refl _
  | cons first rest ih =>
    rw [List.cons_append]
    have hlast : tag ∈ rest ++ [tag] := List.mem_append_right _ (List.mem_singleton.mpr rfl)
    -- an element that comes again further on does not count here
    by_cases hmem : first ∈ rest
    · rw [List.dedup_cons_of_mem hmem] at h
      rw [List.dedup_cons_of_mem (List.mem_append_left _ hmem)]
      exact ih h hnew
    · rw [List.dedup_cons_of_notMem hmem] at h
      cases h with
      -- the first element is not in the list, or it is the first of the list as well
      | cons _ h =>
        refine (ih h hnew).trans ?_
        by_cases hfirst : first ∈ rest ++ [tag]
        · rw [List.dedup_cons_of_mem hfirst]
        · rw [List.dedup_cons_of_notMem hfirst]
          exact List.sublist_cons_self ..
      | cons_cons _ h =>
        have hne : first ≠ tag := fun heq => hnew (heq ▸ List.mem_cons_self ..)
        have hfirst : first ∉ rest ++ [tag] := by simp [hmem, hne]
        rw [List.dedup_cons_of_notMem hfirst]
        exact (ih h fun hrest => hnew (List.mem_cons_of_mem _ hrest)).cons_cons first

variable [Coordinate κ]

/-- A call registers at most one root, which was none before. -/
theorem CoreCall.newRoots_cases {scene : Scene κ} (call : CoreCall κ) (hwf : scene.tree.WellFormed) :
    call.newRoots scene = [] ∨ ∃ tag, call.newRoots scene = [tag] ∧ tag ∉ scene.tree.roots := by
  cases call with
  | registerRoot tag viewClass width height =>
    -- a tag that is taken is refused, and one that is free is no root
    rcases Tree.registerRoot_cases scene.tree tag viewClass width height with
      ⟨err, herr⟩ | ⟨hfree, hok⟩
    · left
      rw [newRoots, run, MountM.onTree_of_error herr]
    · refine .inr ⟨tag, ?_, fun hroot => ?_⟩
      · rw [newRoots, run, MountM.onTree_of_ok hok]
      · rw [hwf.root_contained hroot] at hfree
        cases hfree
  | _ => exact .inl rfl

namespace CoreRun

variable {registered : List Tag} {tree : Tree κ}

/-- Trees that runs lead to are sound. -/
theorem sound (h : CoreRun registered tree) : tree.Sound := by
  induction h with
  | start => exact .empty
  | call _ call mount log ih => exact (@CoreCall.evolved _ ⟨_, mount, log⟩ _ call ih).sound

/-- Roots stand in the order of their last registration. -/
theorem roots_sublist (h : CoreRun registered tree) : tree.roots.Sublist registered.dedup := by
  induction h with
  | start => exact .refl _
  | @call registered tree hrun call mount log ih =>
    have hevolved := @CoreCall.evolved _ ⟨tree, mount, log⟩ _ call hrun.sound
    -- a call removes roots or adds one at the end; what is left keeps its order
    refine hevolved.roots.trans ?_
    rcases @CoreCall.newRoots_cases _ _ ⟨tree, mount, log⟩ call hrun.sound.wellFormed with
      hnone | ⟨tag, hone, hnew⟩
    · rw [hnone, List.append_nil, List.append_nil]
      exact ih
    · rw [hone]
      exact sublist_dedup_concat ih hnew

/-- After any run each node is stored under its own tag. A node lists exactly the nodes that name it
as their parent, none of them twice, and links name registered nodes only. From every node fewer
parent links than there are nodes lead to a node without a parent. The roots are registered,
parentless and distinct, and stand in the order of their last registration. -/
theorem shape (h : CoreRun registered tree) :
    (∀ {t node}, tree.get? t = some node → node.tag = t) ∧
    (∀ {c p}, c ∈ tree.childrenOf p ↔ tree.parentOf? c = some p) ∧
    (∀ p, (tree.childrenOf p).Nodup) ∧
    (∀ {c p}, c ∈ tree.childrenOf p ∨ tree.parentOf? c = some p →
      tree.contains c = true ∧ tree.contains p = true) ∧
    (∀ {t}, tree.contains t = true → ∃ steps top, steps < tree.size ∧
      tree.ascend steps t = some top ∧ tree.contains top = true ∧ tree.parentOf? top = none) ∧
    (∀ {r}, r ∈ tree.roots → tree.contains r = true ∧ tree.parentOf? r = none) ∧
    tree.roots.Nodup ∧ tree.roots.Sublist registered.dedup := by
  have hwf := h.sound.wellFormed
  refine ⟨hwf.tag_eq, hwf.link, hwf.nodup, fun {c p} hnamed => ?_, fun {t} ht => ?_,
    fun hr => ⟨hwf.root_contained hr, hwf.root_parentless hr⟩, hwf.roots_nodup, h.roots_sublist⟩
  -- a link in one direction is one in the other, and both ends are registered
  · have hparent : tree.parentOf? c = some p := hnamed.elim hwf.link.mp id
    obtain ⟨node, hget, -⟩ := Tree.get?_of_parentOf? hparent
    exact ⟨Tree.contains_of_get? hget, hwf.contains_parent hparent⟩
  -- the lineage of a node has no node twice, so it is no longer than the tree is large
  · obtain ⟨l, hl⟩ := hwf.exists_lineage ht
    obtain ⟨steps, top, hlength, hascend, htop, hnone⟩ := hl.ascend
    have hsize := hl.length_le_size hwf
    exact ⟨steps, top, by omega, hascend, htop, hnone⟩

end CoreRun

namespace Sample

/-- The registered roots and the tree after one more call. -/
def advance (state : List Tag × Tree Float32) (call : CoreCall Float32) :
    List Tag × Tree Float32 :=
  (state.1 ++ call.newRoots ⟨state.2, {}, []⟩, (leaves call.run ⟨state.2, {}, []⟩).tree)

/-- Calls one after the other make a run. -/
theorem coreRun_foldl_advance (calls : List (CoreCall Float32)) {state : List Tag × Tree Float32}
    (h : CoreRun state.1 state.2) :
    CoreRun (calls.foldl advance state).1 (calls.foldl advance state).2 := by
  induction calls generalizing state with
  | nil => exact h
  | cons call rest ih => exact ih (.call h call {} [])

/-- Two roots with nodes below the second one; the first root is destroyed and comes back. On the
way a cycle and a second registration are refused. -/
def returning : List Tag × Tree Float32 :=
  [.registerRoot 1 "Root" 0 0, .registerRoot 2 "Root" 0 0, plain 3, plain 4, .attach 3 4 0,
    .attach 4 3 0, .attach 2 3 0, .registerRoot 2 "Root" 0 0, .destroyRoot 1,
    .registerRoot 1 "Root" 0 0].foldl advance ([], .empty)

end Sample

/-- Node 4 hangs two links below the second root, which is the older one by now. -/
theorem CoreRun.shape_returning :
    Sample.returning.1 = [1, 2, 1] ∧ Sample.returning.2.roots = [2, 1] ∧
      Sample.returning.2.ascend 2 4 = some 2 ∧
      (∀ {t}, Sample.returning.2.contains t = true → ∃ steps top, steps < Sample.returning.2.size ∧
        Sample.returning.2.ascend steps t = some top ∧ Sample.returning.2.contains top = true ∧
        Sample.returning.2.parentOf? top = none) ∧
      Sample.returning.2.roots.Sublist Sample.returning.1.dedup := by
  have hrun : CoreRun Sample.returning.1 Sample.returning.2 :=
    Sample.coreRun_foldl_advance _ .start
  obtain ⟨-, -, -, -, hascend, -, -, hroots⟩ := hrun.shape
  exact ⟨by decide +kernel, by decide +kernel, by decide +kernel, hascend, hroots⟩

end ShadowMount
