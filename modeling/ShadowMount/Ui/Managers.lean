import ShadowMount.Error
import ShadowMount.Log
import ShadowMount.Node

/-!
# View managers

The view classes a host knows, by name. A class registered again replaces the earlier one and
keeps its place.
-/

namespace ShadowMount

/-- View managers by class name, in the order of their first registration. -/
abbrev Managers := OrderedMap String ViewManager

namespace Managers

/-- Registers a manager under its name, replacing any other of that name. -/
def register (managers : Managers) (manager : ViewManager) : Managers :=
  managers.put manager.name manager

/-- What registering a manager logs: a warning if it replaces another. -/
def registerLog (managers : Managers) (manager : ViewManager) : List Log.Line :=
  if managers.contains manager.name then [⟨.warn, s!"view manager {manager.name} replaced"⟩]
  else []

/-- The manager of a class. -/
def resolve (managers : Managers) (name : String) : Except UiError ViewManager :=
  match managers.get? name with
  | some manager => .ok manager
  | none => .error (.contract (.unknownViewClass name))

/-- The stock classes: containers, text and images are drawn by their mounting ancestor; runs of
text never get a view; inputs and scrollers always do; pagers also lay out their own pages. -/
def stock : List ViewManager := [
  { name := "View", kind := .layoutOnly },
  { name := "Text", kind := .layoutOnly },
  { name := "Image", kind := .layoutOnly },
  { name := "RawText", kind := .virtual },
  { name := "VirtualText", kind := .virtual },
  { name := "TextInput", kind := .viewMounting },
  { name := "ScrollView", kind := .viewMounting },
  { name := "ViewPager", kind := .viewMounting, laysOutChildren := true }]

/-- The managers of the stock classes. -/
def builtins : Managers := stock.foldl register .empty

/-- A picture of the registered names. -/
def describe (managers : Managers) : String :=
  Text.bracketed (managers.keys.map Text.quoted)

end Managers

end ShadowMount
