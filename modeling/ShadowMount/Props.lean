import ShadowMount.OrderedMap
import ShadowMount.Numeric.Binary64

/-!
# Property bags

Create and update commands carry properties by name. The core does not interpret the names; it
merges a delta into the properties of a node and tells which entries of a delta differ from what
was last sent.

Values are compared by `PropValue.same`, which is not an equivalence: a NaN differs from itself,
at any depth of nested lists.
-/

namespace ShadowMount

/-- The value of a property. -/
inductive PropValue where
  | null
  | bool (value : Bool)
  | number (value : Binary64)
  | text (value : String)
  | list (values : List PropValue)
  deriving Inhabited

namespace PropValue

mutual

/-- Equality of values, with numbers compared numerically. -/
def same : PropValue → PropValue → Bool
  | .null, .null => true
  | .bool a, .bool b => a == b
  | .number a, .number b => a.same b
  | .text a, .text b => a == b
  | .list as, .list bs => sameAll as bs
  | _, _ => false

/-- Equality of lists of values, place by place. -/
def sameAll : List PropValue → List PropValue → Bool
  | [], [] => true
  | a :: as, b :: bs => same a b && sameAll as bs
  | _, _ => false

end

/-! ## Identity of values -/

mutual

/-- Whether two values are identical. -/
def decideEq : (a b : PropValue) → Decidable (a = b)
  | .null, b => match b with
    | .null => isTrue rfl
    | .bool _ | .number _ | .text _ | .list _ => isFalse nofun
  | .bool a, b => match b with
    | .bool b => decidable_of_iff (a = b) ⟨congrArg _, PropValue.bool.inj⟩
    | .null | .number _ | .text _ | .list _ => isFalse nofun
  | .number a, b => match b with
    | .number b => decidable_of_iff (a = b) ⟨congrArg _, PropValue.number.inj⟩
    | .null | .bool _ | .text _ | .list _ => isFalse nofun
  | .text a, b => match b with
    | .text b => decidable_of_iff (a = b) ⟨congrArg _, PropValue.text.inj⟩
    | .null | .bool _ | .number _ | .list _ => isFalse nofun
  | .list as, b => match b with
    | .list bs => match decideAllEq as bs with
      | isTrue h => isTrue (congrArg _ h)
      | isFalse h => isFalse fun e => h (PropValue.list.inj e)
    | .null | .bool _ | .number _ | .text _ => isFalse nofun

/-- Whether two lists of values are identical. -/
def decideAllEq : (as bs : List PropValue) → Decidable (as = bs)
  | [], bs => match bs with
    | [] => isTrue rfl
    | _ :: _ => isFalse nofun
  | a :: as, bs => match bs with
    | [] => isFalse nofun
    | b :: bs => match decideEq a b, decideAllEq as bs with
      | isTrue h, isTrue hs => isTrue (by rw [h, hs])
      | isFalse h, _ => isFalse fun e => h (List.cons.inj e).1
      | _, isFalse hs => isFalse fun e => hs (List.cons.inj e).2

end

instance : DecidableEq PropValue := decideEq

end PropValue

/-- Properties by name, in the order in which the names were first set. -/
abbrev Props := OrderedMap String PropValue

namespace Props

/-- Whether `props` holds a value for `name` that equals `value`. -/
def holds (props : Props) (name : String) (value : PropValue) : Bool :=
  match props.get? name with
  | some current => current.same value
  | none => false

/-- Overwrites entries with those of `delta`; new names follow in the order of `delta`. -/
def merge (props delta : Props) : Props :=
  props.putAll delta.entries

/-- The entries of `delta` whose value differs from the one in `props`, or is absent there. -/
def changes (props delta : Props) : Props :=
  delta.filter fun entry => !props.holds entry.1 entry.2

/-- Equality of bags: the same names with equal values, whatever their order. -/
def same (a b : Props) : Bool :=
  a.size == b.size && a.entries.all fun entry => b.holds entry.1 entry.2

end Props

end ShadowMount
