import ShadowMount.Proofs.Native.Contents
import ShadowMount.Proofs.Native.Mirror

/-!
# Links along any run of the native side

The native side takes whatever operations it is sent. Child lists may repeat a view, name the view
they belong to or take children away from other parents, and operations may be addressed to views
that do not exist. The links stay in step all the same. There are two ways out, and both are on
record as violations: a view replaced by a new one of the same tag, and a view destroyed under its
children.

* **`execute_linked`** — one operation keeps the links, unless it adds such a violation.
* **`run_linked`** — so does a run.
* **`links_upkept`** — the links at every point of a run without such a violation.
-/

namespace ShadowMount.Native

variable {κ : Type}

/-- The violations that may leave a link with one direction only. -/
def Violation.breaksLinks : Violation → Bool
  | createdTwice _ | droppedBeforeChildren .. => true
  | _ => false

namespace Hierarchy

variable {h after : Hierarchy κ} {tag : Tag}

/-- No violation on record breaks links. -/
def Unbroken (h : Hierarchy κ) : Prop := ∀ violation ∈ h.violations, violation.breaksLinks = false

instance (h : Hierarchy κ) : Decidable h.Unbroken :=
  inferInstanceAs (Decidable (∀ violation ∈ h.violations, violation.breaksLinks = false))

/-- If nothing breaks links later, nothing did before, as complaints are never taken back. -/
theorem Unbroken.mono (hunbroken : after.Unbroken) (hgrown : h.violations <+: after.violations) :
    h.Unbroken :=
  fun violation hmem => hunbroken violation (hgrown.subset hmem)

/-! ## One operation

Here operations may be addressed to anything. One that is addressed to a missing view is noted and
has no other effect, so the links need only be followed where the views are there. -/

/-- The links are a matter of the views alone. -/
theorem linked_of_views (hviews : after.views = h.views) (hlinked : h.Linked) : after.Linked := by
  have hview : ∀ t, after.view? t = h.view? t := fun t => by rw [view?, hviews, view?]
  intro c p
  rw [parentOf?, hview, childrenOf, hview]
  exact hlinked c p

/-- What is done to a view that exists decides. -/
theorem linked_require {purpose : Purpose} {next : Hierarchy κ → Hierarchy κ} (hlinked : h.Linked)
    (hunbroken : (h.require tag purpose next).Unbroken)
    (hnext : (next h).Unbroken → (next h).Linked) : (h.require tag purpose next).Linked := by
  unfold require at hunbroken ⊢
  split
  · next hview =>
    rw [if_pos hview] at hunbroken
    exact hnext hunbroken
  · exact linked_of_views rfl hlinked

/-- A child list is not replaced if its view or one of the children is missing. -/
theorem views_setChildren_of_missing {children : List Tag}
    (hmissing : h.hasView tag = false ∨ ∃ c ∈ children, h.hasView c = false) :
    (h.execute (.setChildren tag children)).views = h.views := by
  show (require { h with executed := h.executed ++ [.setChildren tag children] } tag .setChildren
    (·.setChildren tag children)).views = _
  rw [require]
  split
  · next hview =>
    have hchild : ∃ c ∈ children, h.hasView c = false :=
      hmissing.resolve_left fun hnone => Bool.false_ne_true (hnone.symm.trans hview)
    have hfound : (children.find? (!h.hasView ·)).isSome = true := by
      obtain ⟨c, hc, hnone⟩ := hchild
      exact List.find?_isSome.mpr ⟨c, hc, by rw [hnone]; decide⟩
    obtain ⟨c, hfirst⟩ := Option.isSome_iff_exists.mp hfound
    -- recording the execution first makes no difference to which views exist
    have hfirst' : children.find? (!({ h with
        executed := h.executed ++ [.setChildren tag children] } : Hierarchy κ).hasView ·) = some c :=
      hfirst
    rw [setChildren, hfirst']
    rfl
  · rfl

/-- A view destroyed under its children is on record. -/
theorem droppedBeforeChildren_mem (hlinked : h.Linked) (hchildren : h.childrenOf tag ≠ []) :
    Violation.droppedBeforeChildren tag (h.childrenOf tag) ∈ (h.drop tag).violations := by
  -- what is listed exists, so the complaint names all children
  have hlive : (h.childrenOf tag).filter h.hasView = h.childrenOf tag :=
    List.filter_eq_self.mpr fun c hc => hasView_of_parentOf? ((hlinked c tag).mpr hc)
  unfold drop
  dsimp only
  rw [hlive, if_neg (fun hempty => hchildren (List.isEmpty_iff.mp hempty))]
  refine (keeps_detach tag).violations.subset ?_
  split
  · split <;> exact List.mem_append_right _ (List.mem_singleton_self _)
  · exact List.mem_append_right _ (List.mem_singleton_self _)

/-- Dropping a view keeps the links, unless it has children: then it is on record that they stay. -/
theorem linked_drop (hlinked : h.Linked) (hunbroken : (h.drop tag).Unbroken) :
    (h.drop tag).Linked := by
  by_cases hchildren : h.childrenOf tag = []
  · exact (drop_spec hlinked hchildren).1.linked hlinked hchildren
  · cases hunbroken _ (droppedBeforeChildren_mem hlinked hchildren)

/-- Both kinds of drops ask for the view first, with a note on whether it is a root. -/
theorem linked_require_drop {noted : Hierarchy κ} {purpose : Purpose}
    (hviews : noted.views = h.views) (hlinked : h.Linked)
    (hunbroken : (noted.require tag purpose (·.drop tag)).Unbroken) :
    (noted.require tag purpose (·.drop tag)).Linked := by
  have hnoted : noted.Linked := linked_of_views hviews hlinked
  exact linked_require hnoted hunbroken (linked_drop hnoted)

/-- An operation keeps the links or breaks them on record. -/
theorem execute_linked (hlinked : h.Linked) {operation : Operation κ}
    (hunbroken : (h.execute operation).Unbroken) : (h.execute operation).Linked := by
  have hkept : ({ h with executed := h.executed ++ [operation] } : Hierarchy κ).Linked := hlinked
  cases operation with
  | create tag root viewClass props =>
    cases hview : h.hasView tag with
    | false => exact (execute_create root viewClass props hview).linked hlinked
    -- a second view under a tag is complained about, and this complaint is among those ruled out
    | true =>
      have hcomplains : Violation.createdTwice tag ∈
          (h.execute (.create tag root viewClass props)).violations := by
        have hview' : ({ h with executed := h.executed ++ [.create tag root viewClass props] } :
          Hierarchy κ).hasView tag = true := hview
        rw [execute, perform, hview', if_pos rfl]
        exact List.mem_append_right _ (List.mem_singleton_self _)
      cases hunbroken _ hcomplains
  | setChildren tag children =>
    -- either all views are there and the links follow the new list, or nothing changes at all
    by_cases hpresent : h.hasView tag = true ∧ ∀ c ∈ children, h.hasView c = true
    · exact (execute_setChildren hlinked hpresent.1 hpresent.2).linked hlinked
    · refine linked_of_views (views_setChildren_of_missing ?_) hlinked
      simpa [Classical.or_iff_not_imp_left] using hpresent
  -- properties and frames are no links
  | setProps tag viewClass props =>
    refine linked_require hkept hunbroken fun _ => (sameShape_update tag _ ?_ ?_).linked hkept
    all_goals exact fun _ => rfl
  | setFrame tag parent frame =>
    refine linked_require hkept hunbroken fun hunbroken' => ?_
    refine linked_require hkept hunbroken' fun _ => (sameShape_update tag _ ?_ ?_).linked hkept
    all_goals exact fun _ => rfl
  -- both kinds of drops differ in what they note, and note it before the view goes
  | drop tag =>
    refine linked_require_drop ?_ hlinked hunbroken
    split <;> rfl
  | dropRoot tag =>
    refine linked_require_drop ?_ hlinked hunbroken
    split <;> rfl
  | clearResponder => exact hkept
  | _ => exact linked_require hkept hunbroken fun _ => hkept

/-! ## Runs

Along a run violations are only added. If none of the two kinds is among them at the end, none was
added on the way, and every operation has kept the links. -/

/-- Whatever is received, complaints are only added. -/
theorem violations_receive (h : Hierarchy κ) (delivery : Delivery κ) :
    h.violations <+: (h.receive delivery).violations := by
  cases delivery with
  | execute operation => exact h.violations_execute operation
  | endBatch => exact List.prefix_append ..
  | frameChanged | passDone => exact List.prefix_rfl

/-- Whatever is received keeps the links, or breaks them on record: only operations touch views. -/
theorem receive_linked (hlinked : h.Linked) {delivery : Delivery κ}
    (hunbroken : (h.receive delivery).Unbroken) : (h.receive delivery).Linked := by
  cases delivery with
  | execute operation => exact execute_linked hlinked hunbroken
  | endBatch => exact linked_of_views rfl hlinked
  | frameChanged | passDone => exact hlinked

/-- Over a whole run, complaints are only added. -/
theorem violations_run : ∀ (deliveries : List (Delivery κ)) (h : Hierarchy κ),
    h.violations <+: (deliveries.foldl receive h).violations
  | [], _ => List.prefix_rfl
  | delivery :: rest, h => (h.violations_receive delivery).trans (violations_run rest _)

/-- A run keeps the links: what is not on record at its end was on record at no step. -/
theorem run_linked : ∀ (deliveries : List (Delivery κ)) {h : Hierarchy κ}, h.Linked →
    (deliveries.foldl receive h).Unbroken → (deliveries.foldl receive h).Linked
  | [], _, hlinked, _ => hlinked
  | delivery :: rest, h, hlinked, hunbroken => by
    have hfirst : (h.receive delivery).Unbroken := hunbroken.mono (violations_run rest _)
    exact run_linked rest (receive_linked hlinked hfirst) hunbroken

/-- The roots of the platform start without links. -/
theorem linked_withRoots (roots : List Tag) : (withRoots roots : Hierarchy κ).Linked := by
  intro c p
  rw [parentOf?, view?_withRoots, childrenOf, view?_withRoots]
  split <;> split <;> simp

/-- At every point of a run that replaces no view and destroys none under its children, a view is
listed exactly by the parent it names, links lead to views that exist, and a child list with a
missing view in it, or for one, changes nothing. -/
theorem links_upkept (roots : List Tag) (earlier later : List (Delivery κ))
    (hunbroken : ((earlier ++ later).foldl receive (withRoots roots)).Unbroken) :
    let native := earlier.foldl receive (withRoots roots)
    (∀ c p, c ∈ native.childrenOf p ↔ ∃ view, native.view? c = some view ∧ view.parent = some p) ∧
    (∀ t view, native.view? t = some view → (∀ c ∈ view.children, native.hasView c = true) ∧
      ∀ p, view.parent = some p → native.hasView p = true) ∧
    ∀ tag children, native.hasView tag = false ∨ (∃ c ∈ children, native.hasView c = false) →
      (native.execute (.setChildren tag children)).views = native.views := by
  intro native
  -- the complaints at the end include those at this point
  have hlinked : native.Linked := by
    rw [List.foldl_append] at hunbroken
    exact run_linked earlier (linked_withRoots roots)
      (hunbroken.mono (violations_run later native))
  refine ⟨fun c p => ?_, fun t view hview => ⟨fun c hc => ?_, fun p hp => ?_⟩,
    fun tag children => views_setChildren_of_missing⟩
  · rw [← hlinked c p, parentOf?, Option.bind_eq_some_iff]
  · have hlisted : c ∈ native.childrenOf t := by
      rw [childrenOf, hview]
      exact hc
    exact hasView_of_parentOf? ((hlinked c t).mpr hlisted)
  · have hparent : native.parentOf? t = some p := by
      rw [parentOf?, hview]
      exact hp
    exact hasView_of_childrenOf ((hlinked t p).mp hparent)

/-- Two views move between two roots, by lists with repeats, a self-reference and a missing view. -/
def shuffled : List (Delivery Rat) :=
  [.create 3 1 "View" .empty, .create 4 1 "View" .empty, .setChildren 1 [3, 4, 3],
    .setChildren 2 [4, 2], .setChildren 4 [3], .setChildren 2 [5, 3], .drop 6].map .execute

theorem links_upkept_shuffled :
    let native := shuffled.foldl receive (withRoots [1, 2])
    native.childrenOf 1 = [] ∧ native.childrenOf 2 = [4, 2] ∧ native.childrenOf 4 = [3] ∧
    (∃ view, native.view? 2 = some view ∧ view.parent = some 2) ∧
    native.violations = [.missingView .attach 5, .missingView .drop 6] ∧
    (native.execute (.setChildren 1 [3, 5])).views = native.views := by
  intro native
  have hlists : native.childrenOf 1 = [] ∧ native.childrenOf 2 = [4, 2] ∧
      native.childrenOf 4 = [3] := by decide +kernel
  obtain ⟨hlinked, -, hskipped⟩ :=
    links_upkept [1, 2] shuffled [.endBatch] (by decide +kernel)
  refine ⟨hlists.1, hlists.2.1, hlists.2.2, (hlinked 2 2).mp ?_, by decide +kernel,
    hskipped 1 [3, 5] (.inr ⟨5, by decide, by decide +kernel⟩)⟩
  rw [hlists.2.1]
  decide

end Hierarchy

end ShadowMount.Native
