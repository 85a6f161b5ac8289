import ShadowMount.Proofs.Native.Flush

/-!
# The record of operations

The native side keeps every operation that it executes, whatever becomes of it. So the record is the
list of all operations that were flushed, oldest first.

* **`executed_perform`** — what an operation does to the views does not touch the record.
* **`executed_deliveries`** — a flush adds its operations to the record.
-/

namespace ShadowMount.Native.Hierarchy

variable {κ : Type} (h : Hierarchy κ)

/-! Each part of an operation works on the views, the roots and the complaints. The record is
written before, by `execute` alone, so every part leaves it alone. -/

@[simp]
theorem executed_update (tag : Tag) (change : View κ → View κ) :
    (h.update tag change).executed = h.executed := by
  unfold update
  split <;> rfl

@[simp]
theorem executed_detach (tag : Tag) : (h.detach tag).executed = h.executed := by
  unfold detach
  split
  · rfl
  · simp

/-- Doing something for every view of a list leaves the record alone if doing it once does. -/
theorem executed_foldl {f : Hierarchy κ → Tag → Hierarchy κ}
    (hf : ∀ h tag, (f h tag).executed = h.executed) : ∀ (tags : List Tag) (h : Hierarchy κ),
      (tags.foldl f h).executed = h.executed
  | [], _ => rfl
  | tag :: rest, h => (executed_foldl hf rest (f h tag)).trans (hf h tag)

/-- Adopting a view leaves the record alone. -/
theorem executed_adopt (tag child : Tag) : (adopt tag h child).executed = h.executed := by
  unfold adopt
  split <;> simp

@[simp]
theorem executed_setChildren (tag : Tag) (children : List Tag) :
    (h.setChildren tag children).executed = h.executed := by
  unfold setChildren
  split
  · rfl
  · rw [executed_update, executed_foldl (fun h => h.executed_adopt tag),
      executed_foldl fun h child => h.executed_update child _]

@[simp]
theorem executed_drop (tag : Tag) : (h.drop tag).executed = h.executed := by
  unfold drop complain
  dsimp only
  rw [executed_detach]
  repeat' split
  all_goals rfl

/-- Asking for a view leaves the record alone if what is done to it does. -/
theorem executed_require (tag : Tag) (purpose : Purpose) {next : Hierarchy κ → Hierarchy κ}
    (hnext : ∀ h, (next h).executed = h.executed) :
    (h.require tag purpose next).executed = h.executed := by
  unfold require
  split
  · exact hnext h
  · rfl

/-- What an operation does to the views does not touch the record. An operation that is refused is
on record all the same. -/
theorem executed_perform (operation : Operation κ) :
    (h.perform operation).executed = h.executed := by
  cases operation with
  | create =>
    unfold perform complain
    dsimp only
    split <;> rfl
  | setProps => exact executed_require _ _ _ fun h => h.executed_update ..
  | setFrame =>
    exact executed_require _ _ _ fun h => executed_require _ _ _ fun h => h.executed_update ..
  | setChildren => exact executed_require _ _ _ fun h => h.executed_setChildren ..
  -- a drop may be complained about first, which is not on this record
  | drop =>
    refine (executed_require _ _ _ fun h => h.executed_drop _).trans ?_
    split <;> rfl
  | dropRoot =>
    refine (executed_require _ _ _ fun h => h.executed_drop _).trans ?_
    split <;> rfl
  | clearResponder => rfl
  | _ => exact executed_require _ _ _ fun _ => rfl

/-- A batch of operations is added to the record in its order. -/
theorem executed_foldl_execute : ∀ (operations : List (Operation κ)) (h : Hierarchy κ),
    (operations.foldl execute h).executed = h.executed ++ operations
  | [], h => (List.append_nil _).symm
  | operation :: rest, h => by
    rw [List.foldl_cons, executed_foldl_execute rest, execute, executed_perform]
    simp

/-- The native side keeps the operations of a flush. -/
theorem executed_deliveries (flush : Flush κ) :
    (flush.deliveries.foldl receive h).executed = h.executed ++ flush.operations := by
  rw [foldl_receive_deliveries]
  exact executed_foldl_execute flush.operations h

end ShadowMount.Native.Hierarchy
