import ShadowMount.Proofs.Native.Links

/-!
# Contents of native views

The class, the properties and the frame of a native view, apart from its links. An operation changes
the contents of the view it is addressed to and of no other, so that the contents of a view after a
batch are decided by the operations addressed to it, as long as there is no violation.

* **`Keeps`** — a change of a hierarchy that leaves all contents alone; complaints are only added.
* **`content?_execute`** — the contents after one operation.
* **`content?_foldl`** — the contents after a list of operations without violations.
-/

namespace ShadowMount.Native

variable {κ : Type}

/-- What a native view shows, apart from its links. -/
structure Content (κ : Type) where
  viewClass : String
  props : Props
  frame : Option (Frame κ)

/-- The contents of a view. -/
def View.content (view : View κ) : Content κ := ⟨view.viewClass, view.props, view.frame⟩

/-- What an operation makes of the contents of the view it is addressed to. -/
def contentAfter : Operation κ → Option (Content κ) → Option (Content κ)
  | .create _ _ viewClass props, _ => some ⟨viewClass, props, none⟩
  | .setProps _ _ props, content =>
    content.map fun content => { content with props := Props.merge content.props props }
  | .setFrame _ _ frame, content => content.map ({ · with frame := some frame })
  | .drop _, _ | .dropRoot _, _ => none
  | _, content => content

namespace Hierarchy

variable {h mid after : Hierarchy κ} {tag t : Tag}

/-- The contents of the view with a tag. -/
def content? (h : Hierarchy κ) (tag : Tag) : Option (Content κ) := (h.view? tag).map View.content

/-- Views with the same contents and the same links are the same. -/
theorem view?_eq (hcontent : after.content? t = h.content? t)
    (hchildren : after.childrenOf t = h.childrenOf t)
    (hparent : after.parentOf? t = h.parentOf? t) : after.view? t = h.view? t := by
  rw [content?, content?] at hcontent
  rw [childrenOf, childrenOf] at hchildren
  rw [parentOf?, parentOf?] at hparent
  cases hview : h.view? t with
  | none =>
    rw [hview, Option.map_none, Option.map_eq_none_iff] at hcontent
    exact hcontent
  | some view =>
    rw [hview, Option.map_some, Option.map_eq_some_iff] at hcontent
    obtain ⟨view', hview', hsame⟩ := hcontent
    rw [hview, hview'] at hchildren hparent
    rw [hview', Option.some.injEq]
    -- two views that agree in every field; the contents have three of the five, the links the
    -- others
    obtain ⟨viewClass, props, frame, parent, children⟩ := view
    obtain ⟨viewClass', props', frame', parent', children'⟩ := view'
    simp_all [View.content]

/-! ## Changes that leave contents alone

Links are changed by adopting, detaching and releasing, none of which touches what a view holds. -/

/-- All contents stay, and complaints are only added. -/
structure Keeps (h after : Hierarchy κ) : Prop where
  /-- Nothing that was complained about is forgotten. -/
  violations : h.violations <+: after.violations
  content : ∀ t, after.content? t = h.content? t

/-- Doing nothing leaves all contents alone. -/
theorem Keeps.refl (h : Hierarchy κ) : Keeps h h := ⟨List.prefix_rfl, fun _ => rfl⟩

/-- Changes that leave all contents alone do so one after the other. -/
theorem Keeps.trans (hfirst : Keeps h mid) (hsecond : Keeps mid after) : Keeps h after :=
  ⟨hfirst.violations.trans hsecond.violations,
    fun t => (hsecond.content t).trans (hfirst.content t)⟩

/-- A complaint touches no view. -/
theorem keeps_complain (violation : Violation) : Keeps h (h.complain violation) :=
  ⟨List.prefix_append .., fun _ => rfl⟩

/-- An update leaves all contents alone if it leaves those of every view alone. -/
theorem keeps_update (tag : Tag) {change : View κ → View κ}
    (hchange : ∀ view, (change view).content = view.content) : Keeps h (h.update tag change) := by
  refine ⟨(sameRecord_update tag change).violations ▸ List.prefix_rfl, fun t => ?_⟩
  rw [content?, view?_update, content?]
  split
  · rw [Option.map_map]
    exact congrArg (fun f => (h.view? t).map f) (funext hchange)
  · rfl

/-- Leaving a parent changes links, and no contents. -/
theorem keeps_detach (tag : Tag) : Keeps h (h.detach tag) := by
  unfold detach
  split
  · exact .refl h
  · refine (keeps_update tag ?_).trans (keeps_update _ ?_) <;> exact fun _ => rfl

/-- Moving below another view changes links, and no contents. -/
theorem keeps_adopt (tag child : Tag) : Keeps h (adopt tag h child) := by
  have hleft : Keeps h (if h.parentOf? child = some tag then h else h.detach child) := by
    split
    · exact .refl h
    · exact keeps_detach child
  refine hleft.trans (keeps_update child ?_)
  exact fun _ => rfl

/-- A loop of such changes is one. -/
theorem keeps_foldl {f : Hierarchy κ → Tag → Hierarchy κ} (hf : ∀ h tag, Keeps h (f h tag)) :
    ∀ (tags : List Tag) (h : Hierarchy κ), Keeps h (tags.foldl f h)
  | [], h => .refl h
  | tag :: rest, h => (hf h tag).trans (keeps_foldl hf rest (f h tag))

/-- A new child list changes links, and no contents, whether it is accepted or complained about. -/
theorem keeps_setChildren (tag : Tag) (children : List Tag) :
    Keeps h (h.setChildren tag children) := by
  unfold setChildren
  split
  · exact keeps_complain _
  · have hreleased : ∀ released : List Tag, Keeps h
        (released.foldl (fun h child => h.update child ({ · with parent := none })) h) := by
      refine fun released => keeps_foldl (fun h child => keeps_update child ?_) released h
      exact fun _ => rfl
    refine ((hreleased _).trans (keeps_foldl (fun _ => keeps_adopt tag) children _)).trans
      (keeps_update tag ?_)
    exact fun _ => rfl

/-- What is done to an existing view, or else a complaint, leaves all contents alone if the former
does. -/
theorem keeps_require (tag : Tag) (purpose : Purpose) {next : Hierarchy κ → Hierarchy κ}
    (hnext : Keeps h (next h)) : Keeps h (h.require tag purpose next) := by
  unfold require
  split
  · exact hnext
  · exact keeps_complain _

/-! ## Operations

An operation is addressed to one view. It changes the contents of that view by a function that does
not look at the hierarchy, provided that no violation is recorded. -/

/-- Complaints are only added, and the contents of one view alone change. -/
structure Addresses (h : Hierarchy κ) (tag : Tag) (content : Option (Content κ))
    (after : Hierarchy κ) : Prop where
  violations : h.violations <+: after.violations
  content : ∀ t, after.content? t = if tag = t then content else h.content? t

/-- Leaving all contents alone is to leave those of every chosen view as they are. -/
theorem Keeps.addresses (hkeeps : Keeps h after) (tag : Tag) :
    Addresses h tag (h.content? tag) after := by
  refine ⟨hkeeps.violations, fun t => ?_⟩
  rw [hkeeps.content]
  split
  · next heq => rw [heq]
  · rfl

/-- What is done before to links and complaints has no part in what an operation does to contents.
-/
theorem Keeps.andThen (hkeeps : Keeps h mid) {content : Option (Content κ)}
    (haddresses : Addresses mid tag content after) : Addresses h tag content after := by
  refine ⟨hkeeps.violations.trans haddresses.violations, fun t => ?_⟩
  rw [haddresses.content, hkeeps.content]

/-- An update changes the contents of its view by what it does to contents in general. -/
theorem addresses_update (tag : Tag) (change : View κ → View κ) {f : Content κ → Content κ}
    (hchange : ∀ view, (change view).content = f view.content) :
    Addresses h tag ((h.content? tag).map f) (h.update tag change) := by
  refine ⟨(sameRecord_update tag change).violations ▸ List.prefix_rfl, fun t => ?_⟩
  rw [content?, view?_update, content?]
  split
  · next heq =>
    rw [← heq, Option.map_map, Option.map_map]
    exact congrArg (fun f => (h.view? tag).map f) (funext hchange)
  · rfl

/-- A dropped view has no contents any more. Whether the drop is complained about, noted, or neither
makes no difference to that. -/
theorem addresses_drop (tag : Tag) : Addresses h tag none (h.drop tag) := by
  have hnoted : ∀ live : List Tag,
      Keeps h (if live.isEmpty then h else h.complain (.droppedBeforeChildren tag live)) := by
    intro live
    split
    · exact .refl h
    · exact keeps_complain _
  have herased : ∀ detached : Hierarchy κ, Addresses detached tag none (detached.without tag) := by
    refine fun detached => ⟨List.prefix_rfl, fun t => ?_⟩
    rw [content?, view?_without]
    split <;> rfl
  -- the notes come first, then the view leaves its parent, and at last it is erased
  unfold drop
  dsimp only
  refine Keeps.andThen (.trans ?_ (keeps_detach tag)) (herased _)
  split
  · split
    · exact (hnoted _).trans ⟨List.prefix_rfl, fun _ => rfl⟩
    · exact hnoted _
  · exact hnoted _

/-- A tag without a view has no contents. -/
theorem content?_of_missing (hnone : h.hasView tag = false) : h.content? tag = none := by
  rw [hasView, Option.isSome_eq_false_iff, Option.isNone_iff_eq_none] at hnone
  rw [content?, hnone, Option.map_none]

/-- A change that requires a view changes the contents of the view, or complains that there is
none. -/
theorem addresses_require {purpose : Purpose} {next : Hierarchy κ → Hierarchy κ}
    {content : Option (Content κ)} (hmissing : h.content? tag = none → content = none)
    (hnext : Addresses h tag content (next h)) :
    Addresses h tag content (h.require tag purpose next) := by
  unfold require
  split
  · exact hnext
  · next hview =>
    have hgone := content?_of_missing (Bool.eq_false_iff.mpr hview)
    have hkept := (@keeps_complain _ h (.missingView purpose tag)).addresses tag
    rw [hmissing hgone]
    rw [hgone] at hkept
    exact hkept

/-- A complaint on a condition touches no view either. -/
theorem keeps_noting (condition : Bool) (violation : Violation) :
    Keeps h (if condition then h.complain violation else h) := by
  split
  · exact keeps_complain violation
  · exact .refl h

/-- A creation gives its view the contents of a new one, also where there was a view before. -/
theorem addresses_create (h : Hierarchy κ) (tag root : Tag) (viewClass : String) (props : Props) :
    Addresses h tag (some { viewClass, props, frame := none })
      (h.perform (.create tag root viewClass props)) := by
  refine (keeps_noting (h.hasView tag) (.createdTwice tag)).andThen ⟨List.prefix_rfl, fun t => ?_⟩
  show (((_ : Hierarchy κ).views.insert tag { viewClass, props })[t]?).map View.content = _
  rw [Std.ExtTreeMap.getElem?_insert]
  by_cases heq : tag = t
  · simp [heq, View.content]
  · simp only [compare_eq_iff_eq, heq, if_false]
    rfl

/-- A frame is not given without the parent that it is relative to: that is a complaint. -/
theorem perform_setFrame_of_missing (h : Hierarchy κ) (tag : Tag) {parent : Tag} (frame : Frame κ)
    (hparent : h.hasView parent = false) :
    ∃ violation, h.perform (.setFrame tag parent frame) = h.complain violation := by
  simp only [perform, require, hparent]
  split
  · exact ⟨_, rfl⟩
  · exact ⟨_, rfl⟩

/-- The platform takes down the view of a removed root. Its place among the roots is no content. -/
theorem addresses_dropRoot (h : Hierarchy κ) (tag : Tag) :
    Addresses h tag none (h.perform (.dropRoot tag)) := by
  have hnoted : Keeps h (if h.roots.contains tag then
      { h with roots := h.roots.filter (· != tag) } else h.complain (.removedAsRoot tag)) := by
    split
    · exact ⟨List.prefix_rfl, fun _ => rfl⟩
    · exact keeps_complain _
  unfold perform
  refine hnoted.andThen (addresses_require (fun _ => rfl) ?_)
  exact addresses_drop tag

/-- An operation changes the contents of the view that it is addressed to, or complains. -/
theorem perform_addresses (h : Hierarchy κ) {operation : Operation κ}
    (htarget : operation.target? = some tag) :
    Addresses h tag (contentAfter operation (h.content? tag)) (h.perform operation) ∨
      h.violations <+: (h.perform operation).violations ∧
        (h.perform operation).violations ≠ [] := by
  -- each operation asks for its view, and then changes the one view at most
  cases operation with
  | create other root viewClass props =>
    cases htarget
    exact .inl (addresses_create h tag root viewClass props)
  | setProps other viewClass props =>
    cases htarget
    left
    unfold perform
    refine addresses_require (fun hnone => by rw [hnone]; rfl) ?_
    refine addresses_update tag _ ?_
    exact fun _ => rfl
  | setFrame other parent frame =>
    cases htarget
    cases hparent : h.hasView parent with
    | true =>
      left
      unfold perform
      refine addresses_require (fun hnone => by rw [hnone]; rfl) ?_
      rw [require, if_pos hparent]
      refine addresses_update tag _ ?_
      exact fun _ => rfl
    | false =>
      -- the one change of contents that may be left out
      right
      obtain ⟨violation, hcomplains⟩ := perform_setFrame_of_missing h tag frame hparent
      rw [hcomplains]
      exact ⟨List.prefix_append .., by simp [complain]⟩
  | setChildren other children =>
    cases htarget
    left
    unfold perform
    refine Keeps.addresses (keeps_require tag _ ?_) tag
    exact keeps_setChildren tag children
  | drop other =>
    cases htarget
    left
    unfold perform
    refine (keeps_noting (h.roots.contains tag) (.rootDroppedAsView tag)).andThen
      (addresses_require (fun _ => rfl) ?_)
    exact addresses_drop tag
  | dropRoot other =>
    cases htarget
    exact .inl (addresses_dropRoot h tag)
  | clearResponder => cases htarget
  | _ =>
    -- the others only ask for their view
    cases htarget
    left
    unfold perform
    refine Keeps.addresses (keeps_require tag _ ?_) tag
    exact .refl h

/-- Executing an operation adds complaints and takes none away. -/
theorem violations_execute (h : Hierarchy κ) (operation : Operation κ) :
    h.violations <+: (h.execute operation).violations := by
  cases htarget : operation.target? with
  | none =>
    cases operation with
    | clearResponder => exact List.prefix_rfl
    | _ => cases htarget
  | some tag =>
    rcases perform_addresses { h with executed := h.executed ++ [operation] } htarget with
      haddresses | hcomplains
    · exact haddresses.violations
    · exact hcomplains.1

/-- Without a violation, an operation changes the contents of the view that it is addressed to. -/
theorem content?_execute (h : Hierarchy κ) (operation : Operation κ)
    (hquiet : (h.execute operation).violations = []) (t : Tag) :
    (h.execute operation).content? t =
      if operation.target? = some t then contentAfter operation (h.content? t)
      else h.content? t := by
  cases htarget : operation.target? with
  | none =>
    cases operation with
    | clearResponder => rfl
    | _ => cases htarget
  | some tag =>
    rcases perform_addresses { h with executed := h.executed ++ [operation] } htarget with
      -- the execution is on record, which is no part of the contents
      haddresses | hcomplains
    · refine (haddresses.content t).trans ?_
      by_cases heq : tag = t
      · rw [if_pos heq, if_pos (congrArg some heq), ← heq]
        rfl
      · rw [if_neg heq, if_neg fun hsome => heq (Option.some.inj hsome)]
        rfl
    -- a complaint stays on record, so without one this case does not occur
    · exact absurd hquiet hcomplains.2

/-- Neither does executing many. -/
theorem violations_foldl : ∀ (operations : List (Operation κ)) (h : Hierarchy κ),
    h.violations <+: (operations.foldl execute h).violations
  | [], _ => List.prefix_rfl
  | operation :: rest, h => (h.violations_execute operation).trans (violations_foldl rest _)

/-- Without a violation, the contents of a view depend on the operations addressed to it alone. -/
theorem content?_foldl (t : Tag) : ∀ (operations : List (Operation κ)) (h : Hierarchy κ),
    (operations.foldl execute h).violations = [] → (operations.foldl execute h).content? t =
      (operations.filter (·.target? = some t)).foldl (fun content operation =>
        contentAfter operation content) (h.content? t)
  | [], _, _ => rfl
  | operation :: rest, h, hquiet => by
    have hfirst : (h.execute operation).violations = [] :=
      List.prefix_nil.mp (hquiet ▸ violations_foldl rest _)
    rw [List.foldl_cons, content?_foldl t rest _ hquiet, content?_execute h operation hfirst]
    by_cases htarget : operation.target? = some t
    · rw [if_pos htarget, List.filter_cons_of_pos (by simpa using htarget), List.foldl_cons]
    · rw [if_neg htarget, List.filter_cons_of_neg (by simpa using htarget)]

end Hierarchy

end ShadowMount.Native
