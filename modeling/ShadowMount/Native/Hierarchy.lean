import Std.Data.ExtTreeMap
import ShadowMount.Mount.Pass

/-!
# A native view hierarchy in memory

The native side as far as its structure goes: views with their properties, frames, parents and
children. It executes operations and keeps them. What would break a real platform, such as an
update of a view that was never created, is recorded as a violation and otherwise skipped.
-/

namespace ShadowMount.Native

/-- A native view. -/
structure View (κ : Type) where
  viewClass : String
  props : Props := .empty
  frame : Option (Frame κ) := none
  parent : Option Tag := none
  children : List Tag := []
  deriving DecidableEq

/-- What an operation does to a view, for the report of a missing one. -/
inductive Purpose where
  | setProps
  | setFrame
  | layoutParent
  | setChildren
  | attach
  | drop
  | dropRoot
  | setResponder
  | measure
  | command
  | popupMenu
  | accessibilityEvent
  deriving DecidableEq, Inhabited

/-- The wording of a purpose. -/
def Purpose.text : Purpose → String
  | setProps => "update properties"
  | setFrame => "update layout"
  | layoutParent => "layout parent"
  | setChildren => "update children"
  | attach => "attach"
  | drop => "drop"
  | dropRoot => "remove root"
  | setResponder => "set responder"
  | measure => "measure"
  | command => "dispatch command"
  | popupMenu => "show popup menu"
  | accessibilityEvent => "send accessibility event"

/-- A request that would break a real platform. -/
inductive Violation where
  /-- The view addressed for some purpose does not exist. -/
  | missingView (purpose : Purpose) (tag : Tag)
  /-- A view was created under the tag of an existing one. -/
  | createdTwice (tag : Tag)
  /-- A view was dropped while its children live. -/
  | droppedBeforeChildren (tag : Tag) (children : List Tag)
  /-- A root view was dropped as if it were none. -/
  | rootDroppedAsView (tag : Tag)
  /-- A view that is no root was removed as one. -/
  | removedAsRoot (tag : Tag)
  /-- A view was dropped while a parent that outlives the batch listed it. -/
  | droppedWhileAttached (tag parent : Tag)
  deriving DecidableEq, Inhabited

/-- The wording of a violation. -/
def Violation.message : Violation → String
  | missingView purpose tag => s!"{purpose.text} on missing view {tag}"
  | createdTwice tag => s!"view {tag} created twice"
  | droppedBeforeChildren tag children =>
    s!"view {tag} dropped before its children " ++
      Text.bracketed (children.map fun child => s!"{child}")
  | rootDroppedAsView tag => s!"root view {tag} dropped as a regular view"
  | removedAsRoot tag => s!"{tag} removed as a root but is not one"
  | droppedWhileAttached tag parent =>
    s!"view {tag} dropped while still attached to live parent {parent}"

/-- The native views, with a record of what was asked. -/
structure Hierarchy (κ : Type) where
  views : Std.ExtTreeMap Tag (View κ) := ∅
  roots : List Tag := []
  /-- The operations executed, oldest first. -/
  executed : List (Operation κ) := []
  violations : List Violation := []
  /-- Views dropped in the current batch while a parent listed them, with that parent. -/
  droppedAttached : List (Tag × Tag) := []
  /-- The number of batches completed. -/
  batches : Nat := 0

namespace Hierarchy

variable {κ : Type}

instance : Inhabited (Hierarchy κ) := ⟨{}⟩

/-- The hierarchy in which the platform's root views are in place. -/
def withRoots (roots : List Tag) : Hierarchy κ :=
  { views := roots.foldl (fun views root => views.insert root { viewClass := "Root" }) ∅
    roots }

/-! ## Queries -/

/-- The view with a tag. -/
def view? (h : Hierarchy κ) (tag : Tag) : Option (View κ) := h.views[tag]?

/-- Whether a view has this tag. -/
def hasView (h : Hierarchy κ) (tag : Tag) : Bool := (h.view? tag).isSome

/-- The children of a view; none if there is no such view. -/
def childrenOf (h : Hierarchy κ) (tag : Tag) : List Tag :=
  ((h.view? tag).map (·.children)).getD []

/-- The parent of a view. -/
def parentOf? (h : Hierarchy κ) (tag : Tag) : Option Tag := (h.view? tag).bind (·.parent)

/-- The tags for which a create was executed, in order. -/
def createdTags (h : Hierarchy κ) : List Tag :=
  h.executed.filterMap fun
    | .create tag .. => some tag
    | _ => none

/-- The tags for which a drop was executed, in order. -/
def droppedTags (h : Hierarchy κ) : List Tag :=
  h.executed.filterMap fun
    | .drop tag | .dropRoot tag => some tag
    | _ => none

/-- Whether no violation was recorded. -/
def isConsistent (h : Hierarchy κ) : Bool := h.violations.isEmpty

/-- The violations as one text, a line for each. -/
def complaint (h : Hierarchy κ) : String :=
  "native hierarchy violations:\n" ++ "\n".intercalate (h.violations.map Violation.message)

/-! ## Changes of single views -/

/-- Records a violation. -/
def complain (h : Hierarchy κ) (violation : Violation) : Hierarchy κ :=
  { h with violations := h.violations ++ [violation] }

/-- Changes a view, if it exists. -/
def update (h : Hierarchy κ) (tag : Tag) (change : View κ → View κ) : Hierarchy κ :=
  match h.view? tag with
  | some view => { h with views := h.views.insert tag (change view) }
  | none => h

/-- Goes on with `next` if the view exists and records a violation otherwise. -/
def require (h : Hierarchy κ) (tag : Tag) (purpose : Purpose)
    (next : Hierarchy κ → Hierarchy κ := id) : Hierarchy κ :=
  if h.hasView tag then next h else h.complain (.missingView purpose tag)

/-- Takes a view out of its parent's child list. -/
def detach (h : Hierarchy κ) (tag : Tag) : Hierarchy κ :=
  match h.parentOf? tag with
  | none => h
  | some parent =>
    (h.update tag ({ · with parent := none })).update parent fun view =>
      { view with children := view.children.filter (· != tag) }

/-! ## Operations -/

/-- Makes `child` name `tag` as its parent, after leaving another parent. -/
def adopt (tag : Tag) (h : Hierarchy κ) (child : Tag) : Hierarchy κ :=
  let left := if h.parentOf? child = some tag then h else h.detach child
  left.update child ({ · with parent := some tag })

/-- Replaces the child list of a view. Nothing happens if one of the children does not exist. -/
def setChildren (h : Hierarchy κ) (tag : Tag) (children : List Tag) : Hierarchy κ :=
  match children.find? (!h.hasView ·) with
  | some child => h.complain (.missingView .attach child)
  | none =>
    let released := (h.childrenOf tag).foldl
      (fun h child => h.update child ({ · with parent := none })) h
    (children.foldl (adopt tag) released).update tag ({ · with children := children })

/-- Destroys a view. -/
def drop (h : Hierarchy κ) (tag : Tag) : Hierarchy κ :=
  let live := (h.childrenOf tag).filter h.hasView
  let noted := if live.isEmpty then h else h.complain (.droppedBeforeChildren tag live)
  let noted := match h.parentOf? tag with
    | some parent =>
      if (h.childrenOf parent).contains tag then
        { noted with droppedAttached := noted.droppedAttached ++ [(tag, parent)] }
      else noted
    | none => noted
  let detached := noted.detach tag
  { detached with views := detached.views.erase tag }

/-- The effect of an operation on the views. -/
def perform (h : Hierarchy κ) : Operation κ → Hierarchy κ
  | .create tag _ viewClass props =>
    let noted := if h.hasView tag then h.complain (.createdTwice tag) else h
    { noted with views := noted.views.insert tag { viewClass, props } }
  | .setProps tag _ props =>
    h.require tag .setProps (·.update tag fun view =>
      { view with props := Props.merge view.props props })
  | .setFrame tag parent frame =>
    h.require tag .setFrame (·.require parent .layoutParent
      (·.update tag ({ · with frame := some frame })))
  | .setChildren tag children =>
    h.require tag .setChildren (·.setChildren tag children)
  | .drop tag =>
    let noted := if h.roots.contains tag then h.complain (.rootDroppedAsView tag) else h
    noted.require tag .drop (·.drop tag)
  | .dropRoot tag =>
    let noted :=
      if h.roots.contains tag then { h with roots := h.roots.filter (· != tag) }
      else h.complain (.removedAsRoot tag)
    noted.require tag .dropRoot (·.drop tag)
  | .setResponder tag .. => h.require tag .setResponder
  | .clearResponder => h
  | .measure tag .. | .measureRelative tag .. | .measureInWindow tag .. | .findSubview tag .. =>
    h.require tag .measure
  | .command tag .. => h.require tag .command
  | .popupMenu tag .. => h.require tag .popupMenu
  | .accessibilityEvent tag .. => h.require tag .accessibilityEvent

/-- Executes an operation and keeps it. -/
def execute (h : Hierarchy κ) (operation : Operation κ) : Hierarchy κ :=
  { h with executed := h.executed ++ [operation] }.perform operation

/-- Ends a batch. A view that was dropped while attached must have lost its parent in the same
batch. -/
def endBatch (h : Hierarchy κ) : Hierarchy κ :=
  { h with
    violations := h.violations ++ h.droppedAttached.filterMap fun (tag, parent) =>
      if h.hasView parent then some (.droppedWhileAttached tag parent) else none
    droppedAttached := []
    batches := h.batches + 1 }

/-- Takes the kept operations out. -/
def takeExecuted (h : Hierarchy κ) : List (Operation κ) × Hierarchy κ :=
  (h.executed, { h with executed := [] })

/-- The effect of a delivery; the calls to listeners have none. -/
def receive (h : Hierarchy κ) : Delivery κ → Hierarchy κ
  | .execute operation => h.execute operation
  | .endBatch => h.endBatch
  | .frameChanged .. | .passDone .. => h

end Hierarchy

end ShadowMount.Native
