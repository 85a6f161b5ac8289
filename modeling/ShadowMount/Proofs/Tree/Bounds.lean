import ShadowMount.Proofs.Tree.Traversals
import ShadowMount.Tree.Outline

/-!
# How far walks go

A walk along the links of a tree is given a number of steps, and fails with `cyclicLinks` once they
are spent. On a well-formed tree there is a number of steps from which on the outcome of a walk is
one and the same, and not this failure: the walk has ended by itself, and the limit is not part of
its meaning.

* **`EndsWithin`** — from so many steps on the outcome is fixed, and is not that of spent steps.
* **`depth`** — the number of ancestors, less than the number of nodes.
* **`walkUp`** — the one loop behind all walks to the top; `walkUp_ends` and `walkUp_above_ends`
  bound it by the depth.
* **`ClimbsEnd`**, **`SweepsEnd`** — what is shown of the walks up and down from a node.
-/

namespace ShadowMount

/-- The answer of a walk that has spent its steps. -/
def Spent {α : Type} (answer : Except UiError α) : Prop := ∃ tag, answer = .error (.cyclicLinks tag)

/-- `EndsWithin spent run bound`: from `bound` steps on, the outcome of `run` does not depend on the
steps any more, and is not that of a run that has spent them. -/
def EndsWithin {ρ : Type} (spent : ρ → Prop) (run : Nat → ρ) (bound : Nat) : Prop :=
  ∃ outcome, ¬ spent outcome ∧ ∀ steps, bound ≤ steps → run steps = outcome

/-- An answer is not that of spent steps. -/
theorem not_spent_ok {α : Type} (answer : α) : ¬ Spent (.ok answer) := by
  rintro ⟨tag, h⟩
  cases h

/-- Neither is any other error. -/
theorem not_spent_error {α : Type} {err : UiError} (herr : ∀ tag, err ≠ .cyclicLinks tag) :
    ¬ Spent (.error err : Except UiError α) := by
  rintro ⟨tag, h⟩
  cases h
  exact herr tag rfl

/-- A composed query has not spent its steps if neither of its two parts has. -/
theorem not_spent_bind {α β : Type} {ask : Except UiError α} {next : α → Except UiError β}
    (hask : ¬ Spent ask) (hnext : ∀ answer, ask = .ok answer → ¬ Spent (next answer)) :
    ¬ Spent (ask >>= next) := by
  cases ask with
  | ok answer => exact hnext answer rfl
  | error err =>
    refine not_spent_error ?_
    rintro tag rfl
    exact hask ⟨tag, rfl⟩

namespace EndsWithin

variable {ρ : Type} {spent : ρ → Prop} {run : Nat → ρ} {bound more : Nat}

/-- A bound may be raised. -/
theorem mono (h : EndsWithin spent run bound) (hle : bound ≤ more) : EndsWithin spent run more := by
  obtain ⟨outcome, hnot, hrun⟩ := h
  exact ⟨outcome, hnot, fun steps hsteps => hrun steps (Nat.le_trans hle hsteps)⟩

/-- The outcome is the one at the bound. -/
theorem not_spent (h : EndsWithin spent run bound) : ¬ spent (run bound) := by
  obtain ⟨outcome, hnot, hrun⟩ := h
  rwa [hrun bound (Nat.le_refl _)]

end EndsWithin

namespace Tree

variable {κ : Type} {tree : Tree κ} {t : Tag} {l : List Tag}

/-! ## Depth

The number of steps that a way up can take. It falls by one from a node to its parent, and is less
than the number of nodes, as a lineage has no repeats. -/

/-- The number of ancestors of a node; none for a tag without a node. -/
def depth (tree : Tree κ) (tag : Tag) : Nat := ((tree.lineage tag).toOption.getD []).length - 1

/-- The lineage of a node has the node itself and as many nodes more as the node is deep. -/
theorem Lineage.length_eq (h : tree.Lineage t l) (hwf : tree.WellFormed) :
    l.length = tree.depth t + 1 := by
  have hpos := h.length_pos
  have hdepth : tree.depth t = l.length - 1 := by
    rw [depth, lineage_eq hwf h]
    rfl
  omega

/-- A tag without a node counts as a top. -/
theorem depth_of_missing (hget : tree.get? t = none) : tree.depth t = 0 := by
  rw [depth, lineage, budget, lineageFrom, node_of_get?_none hget]
  rfl

/-- A registered node has fewer ancestors than the tree has nodes. -/
theorem depth_lt_size (hwf : tree.WellFormed) (ht : tree.contains t = true) :
    tree.depth t < tree.size := by
  obtain ⟨l, hl⟩ := hwf.exists_lineage ht
  have hlength := hl.length_eq hwf
  have hsize := hl.length_le_size hwf
  omega

/-- The depth of any tag is bounded by the number of nodes. -/
theorem depth_le_size (hwf : tree.WellFormed) (t : Tag) : tree.depth t ≤ tree.size := by
  cases hget : tree.get? t with
  | none =>
    rw [depth_of_missing hget]
    exact Nat.zero_le _
  | some node => exact Nat.le_of_lt (depth_lt_size hwf (contains_of_get? hget))

/-- A child lies one deeper than its parent. -/
theorem depth_of_parent (hwf : tree.WellFormed) {p : Tag} (hparent : tree.parentOf? t = some p) :
    tree.depth t = tree.depth p + 1 := by
  obtain ⟨l, hl⟩ := hwf.exists_lineage (hwf.contains_parent hparent)
  have hp := hl.length_eq hwf
  have ht := (Lineage.up hparent hl).length_eq hwf
  rw [List.length_cons] at ht
  omega

/-! ## Upwards

Every walk to the top is the loop `walkUp` with its own test. The loop ends within the depth of its
start, whatever the test, so the bound is shown once. -/

/-- A walk along parent links. At each node `look` answers, or hands a state on to the parent; `top`
answers where there is none. -/
def walkUp {σ α : Type} (tree : Tree κ) (look : Tag → Node κ → σ → α ⊕ σ)
    (top : σ → Except UiError α) : Nat → (start : Option Tag) → σ → Except UiError α
  | _, none, state => top state
  | 0, some tag, _ => throw (.cyclicLinks tag)
  | steps + 1, some tag, state => do
    let node ← tree.node tag
    match look tag node state with
    | .inl answer => return answer
    | .inr state => tree.walkUp look top steps node.parent state

section WalkUp

variable {σ α : Type} {look : Tag → Node κ → σ → α ⊕ σ} {top : σ → Except UiError α}

/-- At the top there is nothing left to look at. -/
theorem walkUp_none (steps : Nat) (state : σ) :
    tree.walkUp look top steps none state = top state := by
  cases steps <;> rfl

/-- The way up ends at the top, if not before. -/
theorem Lineage.walkUp_ends (h : tree.Lineage t l) (htop : ∀ state, ¬ Spent (top state))
    (state : σ) :
    EndsWithin Spent (fun steps => tree.walkUp look top steps (some t) state) l.length := by
  -- one step of the walk adds one to the bound of the rest
  have hstep : ∀ {t : Tag} {node : Node κ} {state : σ} {bound : Nat}, tree.get? t = some node →
      (∀ state, EndsWithin Spent (fun steps => tree.walkUp look top steps node.parent state)
        bound) →
      EndsWithin Spent (fun steps => tree.walkUp look top steps (some t) state) (bound + 1) := by
    intro t node state bound hget hrest
    cases hlook : look t node state with
    | inl answer =>
      refine ⟨.ok answer, not_spent_ok answer, fun steps hsteps => ?_⟩
      obtain ⟨steps, rfl⟩ : ∃ k, steps = k + 1 := ⟨steps - 1, by omega⟩
      simp only [walkUp, node_of_get? hget, ok_bind, hlook]
      rfl
    | inr next =>
      obtain ⟨outcome, hnot, hrun⟩ := hrest next
      refine ⟨outcome, hnot, fun steps hsteps => ?_⟩
      obtain ⟨steps, rfl⟩ : ∃ k, steps = k + 1 := ⟨steps - 1, by omega⟩
      simp only [walkUp, node_of_get? hget, ok_bind, hlook]
      exact hrun steps (by omega)
  -- the state differs from node to node, the bound only depends on the chain
  induction h generalizing state with
  | @top t hcontains hnone =>
    obtain ⟨node, hget⟩ := contains_iff.mp hcontains
    rw [parentOf?_of_get? hget] at hnone
    -- the topmost node: the rest of the walk is the answer at the top
    refine hstep hget fun state => ⟨top state, htop state, fun steps _ => ?_⟩
    rw [hnone]
    exact walkUp_none steps state
  -- any other node: the rest of the walk is that from the parent, bounded by induction
  | @up t p l hparent _ ih =>
    obtain ⟨node, hget, hnode⟩ := get?_of_parentOf? hparent
    refine hstep hget fun state => ?_
    rw [hnode]
    exact ih state

/-- A walk from a node goes as many steps up as the node is deep. -/
theorem walkUp_ends (hwf : tree.WellFormed) (htop : ∀ state, ¬ Spent (top state)) (t : Tag)
    (state : σ) : EndsWithin Spent (fun steps => tree.walkUp look top steps (some t) state)
      (tree.depth t + 1) := by
  cases hget : tree.get? t with
  | none =>
    refine ⟨.error (.missing t), not_spent_error (by simp), fun steps hsteps => ?_⟩
    obtain ⟨steps, rfl⟩ : ∃ k, steps = k + 1 := ⟨steps - 1, by omega⟩
    simp only [walkUp, node_of_get?_none hget]
    rfl
  | some node =>
    obtain ⟨l, hl⟩ := hwf.exists_lineage (contains_of_get? hget)
    rw [← hl.length_eq hwf]
    exact hl.walkUp_ends htop state

/-- A walk from the parent of a node takes no more steps than the node is deep. -/
theorem walkUp_above_ends (hwf : tree.WellFormed) (htop : ∀ state, ¬ Spent (top state)) (t : Tag)
    (start : Node κ → σ) : EndsWithin Spent (fun steps => do
      let node ← tree.node t
      tree.walkUp look top steps node.parent (start node)) (tree.depth t) := by
  cases hget : tree.get? t with
  | none =>
    refine ⟨.error (.missing t), not_spent_error (by simp), fun steps _ => ?_⟩
    rw [node_of_get?_none hget]
    rfl
  | some node =>
    simp only [node_of_get? hget, ok_bind]
    cases hparent : node.parent with
    | none => exact ⟨top (start node), htop _, fun steps _ => walkUp_none steps _⟩
    | some p =>
      rw [depth_of_parent hwf ((parentOf?_of_get? hget).trans hparent)]
      exact walkUp_ends hwf htop p (start node)

/-- What steps as `walkUp` does is `walkUp`. -/
theorem eq_walkUp {run : Nat → Option Tag → σ → Except UiError α}
    (hnone : ∀ steps state, run steps none state = top state)
    (hzero : ∀ tag state, run 0 (some tag) state = .error (.cyclicLinks tag))
    (hsucc : ∀ steps tag state, run (steps + 1) (some tag) state =
      tree.node tag >>= fun node => match look tag node state with
        | .inl answer => .ok answer
        | .inr next => run steps node.parent next) :
    ∀ steps start state, run steps start state = tree.walkUp look top steps start state
  | steps, none, state => by rw [hnone, walkUp_none]
  | 0, some tag, state => hzero tag state
  | steps + 1, some tag, state => by
    rw [hsucc, walkUp]
    refine congrArg (tree.node tag >>= ·) (funext fun node => ?_)
    cases look tag node state with
    | inl answer => rfl
    | inr next => exact eq_walkUp hnone hzero hsucc steps node.parent next

end WalkUp

/-- The walk to the top collects the chain of nodes it has met. -/
theorem lineageFrom_eq_walkUp : ∀ (steps : Nat) (tag : Tag) (chain : List Tag),
    (chain ++ ·) <$> tree.lineageFrom steps tag =
      tree.walkUp (fun tag _ chain => .inr (chain ++ [tag])) .ok steps (some tag) chain
  | 0, _, _ => rfl
  | steps + 1, tag, chain => by
    rw [lineageFrom, walkUp]
    cases hget : tree.get? tag with
    | none =>
      rw [node_of_get?_none hget]
      rfl
    | some node =>
      rw [node_of_get? hget, ok_bind, ok_bind]
      cases hparent : node.parent with
      | none =>
        show _ = tree.walkUp _ _ steps none _
        rw [walkUp_none]
        rfl
      | some p =>
        show (chain ++ ·) <$> (tree.lineageFrom steps p >>= fun l => pure (tag :: l)) =
          tree.walkUp _ _ steps (some p) (chain ++ [tag])
        -- the chain so far ends with this node when the walk goes on from its parent
        rw [← lineageFrom_eq_walkUp steps p (chain ++ [tag])]
        cases tree.lineageFrom steps p with
        | error err => rfl
        | ok l =>
          show Except.ok (chain ++ tag :: l) = .ok (chain ++ [tag] ++ l)
          rw [List.append_assoc, List.singleton_append]

/-- The walk to the top takes one step more than the node is deep. -/
theorem WellFormed.lineage_ends (hwf : tree.WellFormed) (tag : Tag) :
    EndsWithin Spent (tree.lineageFrom · tag) (tree.depth tag + 1) := by
  obtain ⟨outcome, hnot, hrun⟩ :=
    @walkUp_ends _ tree _ _ (fun tag _ chain => .inr (chain ++ [tag])) .ok hwf not_spent_ok tag []
  refine ⟨outcome, hnot, fun steps hsteps => ?_⟩
  calc tree.lineageFrom steps tag
    _ = ([] ++ ·) <$> tree.lineageFrom steps tag := (id_map _).symm
    _ = tree.walkUp _ _ steps (some tag) [] := lineageFrom_eq_walkUp steps tag []
    _ = outcome := hrun steps hsteps

/-- The walk to a mounting node is a walk up that answers at the first such node. -/
theorem firstMounting_eq_walkUp (steps : Nat) (start : Option Tag) :
    tree.firstMounting steps start =
      tree.walkUp (fun tag node (_ : Unit) => if node.mounts then .inl (some tag) else .inr ())
        (fun _ => .ok none) steps start () := by
  refine @eq_walkUp _ tree _ _ _ _ (fun steps start _ => tree.firstMounting steps start)
    (fun steps _ => by cases steps <;> rfl) (fun _ _ => rfl) (fun steps tag _ => ?_) steps start ()
  refine congrArg (tree.node tag >>= ·) (funext fun node => ?_)
  cases node.mounts <;> rfl

/-- The summation of offsets is a walk up that hands the sum on. -/
theorem sumOffsets_eq_walkUp [Coordinate κ] (steps : Nat) (start : Option Tag) (total : κ × κ) :
    tree.sumOffsets steps start total =
      tree.walkUp (fun _ node total => if node.mounts then .inl total
        else .inr (total.1 + node.frame.x, total.2 + node.frame.y)) .ok steps start total := by
  refine eq_walkUp (fun steps _ => by cases steps <;> rfl) (fun _ _ => rfl)
    (fun steps tag total => ?_) steps start total
  refine congrArg (tree.node tag >>= ·) (funext fun node => ?_)
  cases node.mounts <;> rfl

/-- The summation of positions is a walk up that hands the sum on and fails at the top. -/
theorem positionFrom_eq_walkUp [Coordinate κ] (origin : Tag) (steps : Nat) (start : Option Tag)
    (position : κ × κ) : tree.positionFrom origin steps start position =
      tree.walkUp (fun tag node position => if node.mounts then .inl (tag, position)
          else .inr (position.1 + node.frame.x, position.2 + node.frame.y))
        (fun _ => .error (.noMountingAncestor origin)) steps start position := by
  refine eq_walkUp (fun steps _ => by cases steps <;> rfl) (fun _ _ => rfl)
    (fun steps tag position => ?_) steps start position
  refine congrArg (tree.node tag >>= ·) (funext fun node => ?_)
  cases node.mounts <;> rfl

/-- The climb past unwanted nodes is a walk up that hands nothing on. -/
theorem climbPast_eq_walkUp (skip : Node κ → Bool) (origin : Tag) : ∀ (steps : Nat) (tag : Tag),
    tree.climbPast skip origin steps tag =
      tree.walkUp (fun tag node (_ : Unit) => if skip node then .inr () else .inl tag)
        (fun _ => .error (.noMountingAncestor origin)) steps (some tag) ()
  | 0, _ => rfl
  | steps + 1, tag => by
    rw [climbPast, walkUp]
    refine congrArg (tree.node tag >>= ·) (funext fun node => ?_)
    cases skip node with
    | false => rfl
    | true =>
      cases hparent : node.parent with
      | none =>
        show _ = tree.walkUp _ _ steps none ()
        rw [walkUp_none]
        rfl
      | some p => exact climbPast_eq_walkUp skip origin steps p

section ClimbPast

variable {skip : Node κ → Bool} {origin : Tag} {node : Node κ}

/-- A climb ends at a node that is not to be passed. -/
theorem climbPast_of_kept (hget : tree.get? t = some node) (hskip : skip node = false)
    (steps : Nat) : tree.climbPast skip origin (steps + 1) t = .ok t := by
  rw [climbPast, node_of_get? hget, ok_bind, hskip, if_neg Bool.false_ne_true]
  rfl

/-- A climb passes an unwanted node. -/
theorem climbPast_of_skipped (hget : tree.get? t = some node) (hskip : skip node = true) {p : Tag}
    (hparent : node.parent = some p) (steps : Nat) :
    tree.climbPast skip origin (steps + 1) t = tree.climbPast skip origin steps p := by
  rw [climbPast, node_of_get? hget, ok_bind, if_pos hskip, hparent]

/-- A climb fails where an unwanted node has no parent. -/
theorem climbPast_of_stuck (hget : tree.get? t = some node) (hskip : skip node = true)
    (hparent : node.parent = none) (steps : Nat) :
    tree.climbPast skip origin (steps + 1) t = .error (.noMountingAncestor origin) := by
  rw [climbPast, node_of_get? hget, ok_bind, if_pos hskip, hparent]
  rfl

/-- A walk past some nodes takes one step for each of them, and one more. -/
theorem climbPast_stops (hwf : tree.WellFormed) {v : Tag} :
    ∀ {steps : Nat} {t : Tag}, tree.climbPast skip origin steps t = .ok v →
      tree.depth v ≤ tree.depth t ∧ ∀ more, tree.depth t - tree.depth v + 1 ≤ more →
        tree.climbPast skip origin more t = .ok v
  | 0, _, h => nomatch h
  | steps + 1, t, h => by
    cases hget : tree.get? t with
    -- the climb answered, so none of its nodes is missing, and none it had to pass was the topmost
    | none =>
      rw [climbPast, node_of_get?_none hget] at h
      cases h
    | some node =>
      cases hskip : skip node with
      | false =>
        rw [climbPast_of_kept hget hskip] at h
        cases h
        refine ⟨Nat.le_refl _, fun more hmore => ?_⟩
        obtain ⟨more, rfl⟩ : ∃ k, more = k + 1 := ⟨more - 1, by omega⟩
        exact climbPast_of_kept hget hskip more
      | true =>
        cases hparent : node.parent with
        | none =>
          rw [climbPast_of_stuck hget hskip hparent] at h
          cases h
        | some p =>
          rw [climbPast_of_skipped hget hskip hparent] at h
          -- the parent lies one higher, so one more step is allowed for
          have hdepth := depth_of_parent hwf ((parentOf?_of_get? hget).trans hparent)
          obtain ⟨hle, hmost⟩ := climbPast_stops hwf h
          refine ⟨by omega, fun more hmore => ?_⟩
          obtain ⟨more, rfl⟩ : ∃ k, more = k + 1 := ⟨more - 1, by omega⟩
          rw [climbPast_of_skipped hget hskip hparent]
          exact hmost more (by omega)

end ClimbPast

/-- The walks up from a node, with the steps they take at most. The walk of touches has two parts:
what the first one leaves of the depth is enough for the second. -/
structure ClimbsEnd [Coordinate κ] (tree : Tree κ) (tag : Tag) : Prop where
  depth_le : tree.depth tag ≤ tree.size
  /-- To the topmost node. -/
  lineage : EndsWithin Spent (tree.lineageFrom · tag) (tree.depth tag + 1)
  /-- To the nearest mounting strict ancestor. -/
  nativeParent : EndsWithin Spent
    (fun steps => tree.node tag >>= fun node => tree.firstMounting steps node.parent)
    (tree.depth tag)
  /-- The same way, summing up positions. -/
  offset : EndsWithin Spent
    (fun steps => tree.node tag >>= fun node => tree.sumOffsets steps node.parent (0, 0))
    (tree.depth tag)
  /-- The same way again, failing at the top. -/
  position : EndsWithin Spent
    (fun steps => tree.node tag >>= fun node =>
      tree.positionFrom tag steps node.parent (node.frame.x, node.frame.y))
    (tree.depth tag)
  /-- The first part of the walk of touches, past virtual nodes. -/
  visible : EndsWithin Spent (tree.climbPast (·.isVirtual) tag · tag) (tree.depth tag + 1)
  /-- The second part, from the node the first has found to a mounting one. -/
  mounting : ∀ {steps visible}, tree.climbPast (·.isVirtual) tag steps tag = .ok visible →
    tree.depth visible ≤ tree.depth tag ∧
    EndsWithin Spent (tree.climbPast (·.isVirtual) tag · tag)
      (tree.depth tag - tree.depth visible + 1) ∧
    EndsWithin Spent (tree.climbPast (!·.mounts) tag · visible) (tree.depth visible + 1)

/-- On a well-formed tree every walk up from a tag ends, whether the tag is registered or not. -/
theorem WellFormed.climbs_end [Coordinate κ] (hwf : tree.WellFormed) (tag : Tag) :
    tree.ClimbsEnd tag := by
  have hfails : ∀ {α σ : Type} (_ : σ),
      ¬ Spent (.error (.noMountingAncestor tag) : Except UiError α) :=
    fun _ => not_spent_error (by simp)
  have hpast : ∀ skip x, EndsWithin Spent (tree.climbPast skip tag · x) (tree.depth x + 1) := by
    intro skip x
    simp only [climbPast_eq_walkUp]
    exact walkUp_ends hwf hfails x ()
  -- each walk is the loop `walkUp`, from the node itself or from its parent
  refine ⟨depth_le_size hwf tag, hwf.lineage_ends tag, ?_, ?_, ?_, hpast _ tag,
    fun {steps visible} hok => ?_⟩
  · simp only [firstMounting_eq_walkUp]
    exact walkUp_above_ends hwf (fun _ => not_spent_ok none) tag fun _ => ()
  · simp only [sumOffsets_eq_walkUp]
    exact walkUp_above_ends hwf not_spent_ok tag fun _ => (0, 0)
  · simp only [positionFrom_eq_walkUp]
    exact walkUp_above_ends hwf hfails tag fun node => (node.frame.x, node.frame.y)
  · obtain ⟨hle, hmost⟩ := climbPast_stops hwf hok
    exact ⟨hle, ⟨.ok visible, not_spent_ok visible, hmost⟩, hpast _ visible⟩

/-! ## Downwards

The recursive walks go down with a budget that falls at each child; the loops push every node of the
subtree at most once, or twice where a node is marked. The number of nodes bounds all of them. -/

/-- The loop for the native child list of a node, with the record of its pushes. -/
def mountedSweep (tree : Tree κ) (steps : Nat) (tag : Tag) :
    Except UiError (List Tag × List Tag) := do
  let children ← tree.children tag
  drain tree.visitMounted id steps children children []

/-- The loop for the post-order of a node, with the record of its pushes. -/
def markedSweep (tree : Tree κ) (steps : Nat) (tag : Tag) :
    Except UiError (List Tag × List (Tag × Bool)) :=
  drain tree.visitMarked Prod.fst steps [(tag, false)] [(tag, false)] []

/-- The line that shows a node in an outline. -/
def outlineLine (tree : Tree κ) (depth : Nat) (tag : Tag) : String :=
  let indent := String.join (List.replicate depth "  ")
  match tree.get? tag with
  | none => s!"{indent}[{tag}] (missing)\n"
  | some node => s!"{indent}[{tag}] {node.viewClass} {node.kind.name}{node.mountMark}\n"

/-- An ancestry climbs: the ancestor is less deep. -/
theorem Ancestor.depth_lt (hwf : tree.WellFormed) {a c : Tag} (h : tree.Ancestor a c) :
    tree.depth a < tree.depth c := by
  induction h with
  | parent hparent =>
    have := depth_of_parent hwf hparent
    omega
  | step hparent _ ih =>
    have := depth_of_parent hwf hparent
    omega

/-- The document order lists nodes of the subtree only. -/
theorem mem_preOrderFrom (hwf : tree.WellFormed) : ∀ {steps : Nat} {t x : Tag},
    x ∈ tree.preOrderFrom steps t → tree.InSubtree t x
  | 0, _, _, h => nomatch h
  | steps + 1, t, x, h => by
    rw [preOrderFrom, List.mem_cons, List.mem_flatMap] at h
    rcases h with rfl | ⟨c, hc, hx⟩
    · exact .refl x
    · exact (InSubtree.child (hwf.link.mp hc) (.refl t)).trans (mem_preOrderFrom hwf hx)

/-- An outline has one line for each node that the recursion meets, indented by its depth. -/
theorem outlineFrom_eq (hwf : tree.WellFormed) : ∀ (steps indent : Nat) (t : Tag),
    tree.outlineFrom steps indent t = String.join ((tree.preOrderFrom steps t).map fun x =>
      tree.outlineLine (indent + (tree.depth x - tree.depth t)) x)
  | 0, _, _ => rfl
  | steps + 1, indent, t => by
    -- what a child shows is indented by one more, and lies one deeper
    have hchild : ∀ c ∈ tree.childrenOf t, tree.outlineFrom steps (indent + 1) c =
        String.join ((tree.preOrderFrom steps c).map fun x =>
          tree.outlineLine (indent + (tree.depth x - tree.depth t)) x) := by
      intro c hc
      have hdepth := depth_of_parent hwf (hwf.link.mp hc)
      rw [outlineFrom_eq hwf steps (indent + 1) c]
      refine congrArg String.join (List.map_congr_left fun x hx => ?_)
      have hle : tree.depth c ≤ tree.depth x := by
        rcases mem_preOrderFrom hwf hx with rfl | hanc
        · exact Nat.le_refl _
        · exact Nat.le_of_lt (hanc.depth_lt hwf)
      rw [show indent + 1 + (tree.depth x - tree.depth c) =
        indent + (tree.depth x - tree.depth t) by omega]
    -- the lines of the children one after the other, by induction on the children
    have hjoin : ∀ {cs : List Tag}, (∀ c ∈ cs, c ∈ tree.childrenOf t) →
        String.join (cs.map (tree.outlineFrom steps (indent + 1))) =
          String.join ((cs.flatMap (tree.preOrderFrom steps)).map fun x =>
            tree.outlineLine (indent + (tree.depth x - tree.depth t)) x) := by
      intro cs hcs
      induction cs with
      | nil => rfl
      | cons c cs ih =>
        rw [List.map_cons, String.join_cons, hchild c (hcs c (List.mem_cons_self ..)),
          ih fun d hd => hcs d (List.mem_cons_of_mem _ hd), List.flatMap_cons, List.map_append,
          String.join_append]
    -- the node's own line comes first, with the indentation the recursion was called with
    rw [preOrderFrom, List.map_cons, String.join_cons, ← hjoin fun c hc => hc, Nat.sub_self,
      Nat.add_zero, outlineFrom, outlineLine]
    cases hget : tree.get? t with
    | none =>
      rw [childrenOf, hget]
      exact String.append_empty.symm
    | some node =>
      rw [childrenOf_of_get? hget]
      rfl

/-- The document order is complete within the budget. -/
theorem preOrderFrom_of_budget (hwf : tree.WellFormed) (t : Tag) {steps : Nat}
    (hsteps : tree.budget ≤ steps) : tree.preOrderFrom steps t = tree.preOrder t := by
  obtain ⟨extra, rfl⟩ := Nat.exists_eq_add_of_le hsteps
  cases hget : tree.get? t with
  | none =>
    have hchildren : tree.childrenOf t = [] := by simp [childrenOf, hget]
    rw [preOrder, budget, Nat.add_right_comm, preOrderFrom, preOrderFrom, hchildren]
    rfl
  -- a registered node is listed within the budget, so further steps add nothing, one by one
  | some node =>
    obtain ⟨l, hl⟩ := hwf.exists_lineage (contains_of_get? hget)
    induction extra with
    | zero => rfl
    | succ extra ih =>
      have hsize : tree.size < tree.budget + extra + l.length := by
        rw [budget]
        omega
      rw [← ih (Nat.le_add_right ..)]
      exact preOrderFrom_succ hwf hl hsize

/-- The document order from a tag repeats nothing, also if there is no node. -/
theorem nodup_preOrder_of_any (hwf : tree.WellFormed) (t : Tag) : (tree.preOrder t).Nodup := by
  cases hget : tree.get? t with
  | none =>
    have hchildren : tree.childrenOf t = [] := by simp [childrenOf, hget]
    rw [preOrder, budget, preOrderFrom, hchildren]
    exact List.pairwise_singleton ..
  | some node => exact nodup_preOrder hwf (contains_of_get? hget)

/-- A missing node has no children to answer. -/
theorem children_of_missing (hget : tree.get? t = none) :
    tree.children t = .error (.missing t) := by
  rw [children, node_of_get?_none hget]
  rfl

/-- The loop for native children fails on a missing node at once. -/
theorem mountedSweep_of_missing (hget : tree.get? t = none) (steps : Nat) :
    tree.mountedSweep steps t = .error (.missing t) := by
  rw [mountedSweep, children_of_missing hget]
  rfl

/-- The loop for the post-order fails on a missing node at its first step. -/
theorem markedSweep_of_missing (hget : tree.get? t = none) {steps : Nat} (hsteps : 1 ≤ steps) :
    tree.markedSweep steps t = .error (.missing t) := by
  obtain ⟨steps, rfl⟩ : ∃ k, steps = k + 1 := ⟨steps - 1, by omega⟩
  rw [markedSweep, drain, visitMarked, children_of_missing hget]
  rfl

/-- The recursion for the native child list of a node. -/
theorem WellFormed.contribution_ends (hwf : tree.WellFormed) (t : Tag) : EndsWithin Spent
    (fun steps => tree.children t >>= gather (tree.contribution steps)) tree.budget := by
  cases hget : tree.get? t with
  | none =>
    refine ⟨.error (.missing t), not_spent_error (by simp), fun steps _ => ?_⟩
    rw [children_of_missing hget]
    rfl
  | some node =>
    have ht := contains_of_get? hget
    have hviews := nativeChildren_eq_nativeViews hwf ht
    rw [nativeChildren, children_eq ht, ok_bind] at hviews
    simp only [children_eq ht, ok_bind]
    refine ⟨.ok (tree.nativeViews t), not_spent_ok _, fun steps hsteps => ?_⟩
    exact gather_mono (contribution_mono hsteps) hviews

/-- The recursion for the post-order of a node. -/
theorem WellFormed.postOrderFrom_ends (hwf : tree.WellFormed) (t : Tag) :
    EndsWithin Spent (tree.postOrderFrom · t) tree.budget := by
  cases hget : tree.get? t with
  | none =>
    refine ⟨.error (.missing t), not_spent_error (by simp), fun steps hsteps => ?_⟩
    rw [budget] at hsteps
    obtain ⟨steps, rfl⟩ : ∃ k, steps = k + 1 := ⟨steps - 1, by omega⟩
    show tree.postOrderFrom (steps + 1) t = _
    rw [postOrderFrom, children_of_missing hget]
    rfl
  | some node =>
    have hmembers := postOrder_eq_subtree hwf (contains_of_get? hget)
    exact ⟨.ok (tree.subtree t), not_spent_ok _, fun steps hsteps =>
      postOrderFrom_mono hsteps hmembers⟩

/-- The walks down from a node, with the steps they take at most and what they meet on the way. The
native child list and the post-order come by a recursion, and by a loop with the same answer. -/
structure SweepsEnd (tree : Tree κ) (tag : Tag) : Prop where
  /-- The native child list by recursion. -/
  nativeChildren : EndsWithin Spent
    (fun steps => tree.children tag >>= gather (tree.contribution steps)) tree.budget
  /-- The native child list by a loop over a stack. -/
  mounted : EndsWithin Spent (tree.mountedSweep · tag) tree.size
  /-- Both ways answer the same, also where they fail. -/
  mounted_eq : tree.nativeChildren tag = Prod.fst <$> tree.mountedSweep tree.size tag
  /-- The loop pushes no node twice, and only descendants. -/
  mounted_once : ∀ {views pushed}, tree.mountedSweep tree.size tag = .ok (views, pushed) →
    pushed.Nodup ∧ ∀ x ∈ pushed, tree.Ancestor tag x
  /-- The post-order by recursion. -/
  postOrder : EndsWithin Spent (tree.postOrderFrom · tag) tree.budget
  /-- The post-order by a loop whose stack entries are met twice each. -/
  marked : EndsWithin Spent (tree.markedSweep · tag) (2 * tree.size + 1)
  /-- Both ways answer the same, also where they fail. -/
  marked_eq : tree.postOrder tag = Prod.fst <$> tree.markedSweep (2 * tree.size + 1) tag
  /-- The loop pushes no entry twice, and only nodes of the subtree. -/
  marked_twice : ∀ {members pushed},
    tree.markedSweep (2 * tree.size + 1) tag = .ok (members, pushed) →
      pushed.Nodup ∧ ∀ entry ∈ pushed, tree.InSubtree tag entry.1
  /-- The outline is one line for each node in document order. -/
  outline : ∀ steps indent, tree.outlineFrom steps indent tag =
    String.join ((tree.preOrderFrom steps tag).map fun x =>
      tree.outlineLine (indent + (tree.depth x - tree.depth tag)) x)
  outline_ends : EndsWithin (fun _ => False) (tree.preOrderFrom · tag) tree.budget
  /-- An outline has no node twice. -/
  outline_once : (tree.preOrder tag).Nodup ∧ ∀ x ∈ tree.preOrder tag, tree.InSubtree tag x

/-- On a well-formed tree every walk down from a tag ends, whether the tag is registered or not. -/
theorem WellFormed.sweeps_end (hwf : tree.WellFormed) (tag : Tag) : tree.SweepsEnd tag := by
  have hchildren := hwf.contribution_ends tag
  have hmembers := hwf.postOrderFrom_ends tag
  have houtline := fun steps indent => outlineFrom_eq hwf steps indent tag
  have hends : EndsWithin (fun _ => False) (tree.preOrderFrom · tag) tree.budget :=
    ⟨tree.preOrder tag, id, fun _ => preOrderFrom_of_budget hwf tag⟩
  have honce : (tree.preOrder tag).Nodup ∧ ∀ x ∈ tree.preOrder tag, tree.InSubtree tag x :=
    ⟨nodup_preOrder_of_any hwf tag, fun x => mem_preOrderFrom hwf⟩
  cases hget : tree.get? tag with
  -- without a node, each walk fails at its first look-up
  | none =>
    have hmounted := mountedSweep_of_missing hget
    have hmarked : ∀ steps, 2 * tree.size + 1 ≤ steps →
        tree.markedSweep steps tag = .error (.missing tag) :=
      fun steps hsteps => markedSweep_of_missing hget (by omega)
    refine ⟨hchildren, ⟨_, not_spent_error (by simp), fun steps _ => hmounted steps⟩, ?_,
      fun h => ?_, hmembers, ⟨_, not_spent_error (by simp), hmarked⟩, ?_, fun h => ?_, houtline,
      hends, honce⟩
    · rw [hmounted, Tree.nativeChildren, children_of_missing hget]
      rfl
    · rw [hmounted] at h
      cases h
    · rw [hmarked _ (Nat.le_refl _), Tree.postOrder, budget, postOrderFrom,
        children_of_missing hget]
      rfl
    · rw [hmarked _ (Nat.le_refl _)] at h
      cases h
  -- with a node, the two loops are drained and have met what they should
  | some node =>
    have ht := contains_of_get? hget
    obtain ⟨views, hloop, hviews⟩ := drain_mounted hwf ht
    obtain ⟨entries, hloop', hentries⟩ := drain_marked hwf ht
    have hmounted : ∀ steps, tree.size ≤ steps →
        tree.mountedSweep steps tag = .ok (tree.nativeViews tag, views) := by
      intro steps hsteps
      rw [mountedSweep, children_eq ht, ok_bind]
      exact hloop steps hsteps
    have hmarked : ∀ steps, 2 * tree.size + 1 ≤ steps →
        tree.markedSweep steps tag = .ok (tree.subtree tag, entries) :=
      fun steps hsteps => hloop' steps (by omega)
    refine ⟨hchildren, ⟨_, not_spent_ok _, hmounted⟩, ?_, fun h => ?_, hmembers,
      ⟨_, not_spent_ok _, hmarked⟩, ?_, fun h => ?_, houtline, hends, honce⟩
    · rw [hmounted _ (Nat.le_refl _)]
      exact nativeChildren_eq_nativeViews hwf ht
    · rw [hmounted _ (Nat.le_refl _)] at h
      cases h
      exact hviews
    · rw [hmarked _ (Nat.le_refl _)]
      exact postOrder_eq_subtree hwf ht
    · rw [hmarked _ (Nat.le_refl _)] at h
      cases h
      exact hentries

end Tree

end ShadowMount
