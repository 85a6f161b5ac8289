import ShadowMount.Mount.State

/-!
# Outcomes of queries and actions

A query answers in `Except`; an action on a tree or a scene ends in a state with or without an
answer. The lemmas here take a composed query or action apart at its first step: `bind_of_ok` and
`bind_of_error` run a step whose outcome is known, and later proofs never look inside a monad.
-/

namespace ShadowMount

/-! ## Queries -/

section Queries

variable {ε α β : Type}

@[simp] theorem ok_bind (a : α) (f : α → Except ε β) : (Except.ok a >>= f) = f a := rfl

/-- A composed query answers exactly when both of its steps do. This is how an answer is taken apart
into what each step found; a proof that a query answers goes forward instead, through `ok_bind`. -/
theorem query_bind_eq_ok_iff {x : Except ε α} {f : α → Except ε β} {b : β} :
    (x >>= f) = .ok b ↔ ∃ a, x = .ok a ∧ f a = .ok b := by
  cases x with
  | error err => exact ⟨nofun, fun ⟨_, h, _⟩ => nomatch h⟩
  | ok a => exact ⟨fun h => ⟨a, rfl, h⟩, fun ⟨_, h, hf⟩ => (Except.ok.inj h) ▸ hf⟩

end Queries

/-! ## Actions -/

section Actions

variable {ε σ α β : Type} {x : EStateM ε σ α} {f : α → EStateM ε σ β} {s s' : σ}

/-- An action whose first step answers goes on from the state that step left. -/
theorem bind_of_ok {a : α} (h : x s = .ok a s') : (x >>= f) s = f a s' := by
  show EStateM.bind x f s = f a s'
  rw [EStateM.bind, h]

/-- An action whose first step fails stops there: what the step had changed before it failed stays
changed, and nothing is undone. -/
theorem bind_of_error {err : ε} (h : x s = .error err s') : (x >>= f) s = .error err s' := by
  show EStateM.bind x f s = .error err s'
  rw [EStateM.bind, h]

/-- Dropping the answer of an action keeps its state. -/
theorem discard_of_ok {a : α} (h : x s = .ok a s') : discard x s = .ok ⟨⟩ s' := by
  show EStateM.map (Function.const α PUnit.unit) x s = .ok PUnit.unit s'
  rw [EStateM.map, h]

theorem discard_of_error {err : ε} (h : x s = .error err s') : discard x s = .error err s' := by
  show EStateM.map _ x s = .error err s'
  rw [EStateM.map, h]

/-- The state that an action leaves, whether it answers or fails. -/
def leaves (action : EStateM ε σ α) (state : σ) : σ :=
  match action state with
  | .ok _ state => state
  | .error _ state => state

/-- For an action whose outcome is known, what it leaves is the state of that outcome. -/
theorem leaves_of_ok {a : α} (h : x s = .ok a s') : leaves x s = s' := by
  rw [leaves, h]

theorem leaves_of_error {err : ε} (h : x s = .error err s') : leaves x s = s' := by
  rw [leaves, h]

/-- The answer has no part in the state an action leaves. -/
theorem leaves_discard : leaves (discard x) s = leaves x s := by
  cases h : x s with
  | ok a s' => rw [leaves_of_ok h, leaves_of_ok (discard_of_ok h)]
  | error err s' => rw [leaves_of_error h, leaves_of_error (discard_of_error h)]

/-- A loop over a list runs its first element and then the others. -/
theorem forM_cons_of_ok {g : α → EStateM ε σ PUnit} {a : α} {as : List α}
    (h : g a s = .ok ⟨⟩ s') : (a :: as).forM g s = as.forM g s' := by
  show (g a >>= fun _ => as.forM g) s = as.forM g s'
  exact bind_of_ok h

end Actions

/-! ## Actions on the scene -/

namespace MountM

variable {κ α : Type} {scene : Scene κ}

/-- A query changes nothing, whichever way it ends. With its companion for failing queries this is
all that later proofs use of `query`. -/
theorem query_of_ok {ask : Tree κ → Except UiError α} {answer : α}
    (h : ask scene.tree = .ok answer) : query ask scene = .ok answer scene := by
  rw [query, h]

theorem query_of_error {ask : Tree κ → Except UiError α} {err : UiError}
    (h : ask scene.tree = .error err) : query ask scene = .error err scene := by
  rw [query, h]

/-- Looking up a registered node answers it, and nothing has changed. -/
theorem node_of_get? {tag : Tag} {found : Node κ} (h : scene.tree.get? tag = some found) :
    node tag scene = .ok found scene :=
  query_of_ok (by rw [Tree.node, h])

theorem node_of_missing {tag : Tag} (h : scene.tree.get? tag = none) :
    node tag scene = .error (.missing tag) scene :=
  query_of_error (by rw [Tree.node, h])

/-- An edit of the tree, seen as an action on the scene, leaves the mount state and the log alone.
It has its companion for failing edits, whose partial changes of the tree remain. -/
theorem onTree_of_ok {edit : TreeM κ α} {answer : α} {tree : Tree κ}
    (h : edit scene.tree = .ok answer tree) :
    onTree edit scene = .ok answer { scene with tree } := by
  rw [onTree, h]

theorem onTree_of_error {edit : TreeM κ α} {err : UiError} {tree : Tree κ}
    (h : edit scene.tree = .error err tree) :
    onTree edit scene = .error err { scene with tree } := by
  rw [onTree, h]

/-- Edits one after the other are one edit. -/
theorem onTree_bind {β : Type} {edit : TreeM κ α} {next : α → TreeM κ β} :
    onTree (edit >>= next) scene = (onTree edit >>= fun answer => onTree (next answer)) scene := by
  cases h : edit scene.tree with
  | ok answer tree =>
    rw [bind_of_ok (onTree_of_ok h), onTree, onTree, bind_of_ok h]
  | error err tree =>
    rw [bind_of_error (onTree_of_error h)]
    exact onTree_of_error (bind_of_error h)

/-- Saying something adds one line to the log, and never fails. -/
theorem say_apply (level : Log.Level) (message : String) :
    say level message scene = .ok () { scene with log := scene.log ++ [⟨level, message⟩] } := rfl

/-- The first step of an action that reads the scene. -/
theorem get_bind {f : Scene κ → MountM κ α} : (get >>= f) scene = f scene scene := rfl

/-- A handler is not run when there is nothing to handle. -/
theorem tryCatch_of_ok {action : MountM κ α} {handler : UiError → MountM κ α} {done : Scene κ}
    {answer : α} (h : action scene = .ok answer done) :
    tryCatch action handler scene = .ok answer done := by
  show EStateM.tryCatch action handler scene = _
  delta EStateM.tryCatch
  rw [h]

/-- A handler runs on the state the failure left, not on the one before the action: no change is
rolled back. -/
theorem tryCatch_of_error {action : MountM κ α} {handler : UiError → MountM κ α}
    {failed : Scene κ} {err : UiError} (h : action scene = .error err failed) :
    tryCatch action handler scene = handler err failed := by
  show EStateM.tryCatch action handler scene = _
  delta EStateM.tryCatch
  rw [h]
  rfl

/-- Without a failure there is no cleaning up. -/
theorem onFailure_of_ok {action : MountM κ α} {cleanUp : MountM κ Unit} {answer : α}
    {done : Scene κ} (h : action scene = .ok answer done) :
    onFailure action cleanUp scene = .ok answer done :=
  tryCatch_of_ok h

/-- After a failure the scene is cleaned up, and the error is the one that occurred, as long as
cleaning up does not fail itself. -/
theorem onFailure_of_error {action : MountM κ α} {cleanUp : MountM κ Unit} {err : UiError}
    {failed cleaned : Scene κ} (h : action scene = .error err failed)
    (hclean : cleanUp failed = .ok () cleaned) :
    onFailure action cleanUp scene = .error err cleaned :=
  (tryCatch_of_error h).trans (bind_of_ok hclean)

/-- Cleaning up does not turn a failure into an answer. -/
theorem ok_of_onFailure {action : MountM κ α} {cleanUp : MountM κ Unit} {answer : α}
    {done : Scene κ} (h : onFailure action cleanUp scene = .ok answer done) :
    action scene = .ok answer done := by
  cases haction : action scene with
  -- an answer stands as it is; a failure stays one, be it the first error or that of the clean-up
  | ok found state => rwa [onFailure_of_ok haction] at h
  | error err failed =>
    rw [onFailure, tryCatch_of_error haction] at h
    cases hclean : cleanUp failed with
    | ok _ cleaned =>
      rw [bind_of_ok hclean] at h
      cases h
    | error other cleaned =>
      rw [bind_of_error hclean] at h
      cases h

end MountM

end ShadowMount
