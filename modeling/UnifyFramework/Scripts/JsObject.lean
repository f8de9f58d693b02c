import Mathlib.Data.List.Basic
import Mathlib.Tactic.Common
import Std.Data.ExtTreeMap

/-!
# Plain objects of the scripts

The scripts keep their tables in plain objects. Reading a property of such an object finds
an own property, or else a property of `Object.prototype`, whose values are functions (and
the prototype itself under `__proto__`) and count as true.
-/

namespace UnifyFramework

namespace Scripts

/-- The properties of `Object.prototype` in Duktape, each with the `length` that its value
has; `length` is undefined for the prototype, and compares like 0. -/
def objectPrototype : List (String × ℕ) :=
  [("constructor", 1), ("__proto__", 0), ("toString", 0), ("toLocaleString", 0), ("valueOf", 0),
    ("hasOwnProperty", 1), ("isPrototypeOf", 1), ("propertyIsEnumerable", 1)]

def inherited (name : String) : Option ℕ := objectPrototype.lookup name

inductive Lookup (α : Type)
  | own (value : α)
  | inherited (length : ℕ)
  | undefined
  deriving DecidableEq, Repr

def Lookup.truthy {α : Type} : Lookup α → Bool
  | .own _ | .inherited _ => true
  | .undefined => false

theorem Lookup.truthy_own {α : Type} (value : α) : (Lookup.own value).truthy = true := rfl

theorem Lookup.truthy_inherited {α : Type} (length : ℕ) :
    (Lookup.inherited length : Lookup α).truthy = true := rfl

/-- A plain object whose own properties hold objects of type `α`. -/
structure JsObject (α : Type) where
  own : Std.ExtTreeMap String α

namespace JsObject

variable {α : Type}

def get (o : JsObject α) (name : String) : Lookup α :=
  match o.own[name]? with
  | some value => .own value
  | none => (inherited name).elim .undefined .inherited

def put (o : JsObject α) (name : String) (value : α) : JsObject α := ⟨o.own.insert name value⟩

/-- The `delete` operator. -/
def delete (o : JsObject α) (name : String) : JsObject α := ⟨o.own.erase name⟩

theorem get_of_own {o : JsObject α} {name : String} {value : α} (h : o.own[name]? = some value) :
    o.get name = .own value := by
  rw [get, h]

theorem get_of_inherited {o : JsObject α} {name : String} {length : ℕ}
    (h : o.own[name]? = none) (hname : inherited name = some length) :
    o.get name = .inherited length := by
  rw [get, h, hname]
  rfl

theorem get_of_undefined {o : JsObject α} {name : String} (h : o.own[name]? = none)
    (hname : inherited name = none) : o.get name = .undefined := by
  rw [get, h, hname]
  rfl

theorem get_eq_undefined_iff {o : JsObject α} {name : String} :
    o.get name = .undefined ↔ o.own[name]? = none ∧ inherited name = none := by
  constructor
  · intro h
    cases hown : o.own[name]? with
    | some value =>
        rw [get_of_own hown] at h
        cases h
    | none =>
        cases hname : inherited name with
        | some length =>
            rw [get_of_inherited hown hname] at h
            cases h
        | none => exact ⟨rfl, rfl⟩
  · rintro ⟨hown, hname⟩
    exact get_of_undefined hown hname

theorem own_put (o : JsObject α) (name name' : String) (value : α) :
    (o.put name value).own[name']? = if name = name' then some value else o.own[name']? := by
  simp [put, Std.ExtTreeMap.getElem?_insert]

theorem own_delete (o : JsObject α) (name name' : String) :
    (o.delete name).own[name']? = if name = name' then none else o.own[name']? := by
  simp [delete, Std.ExtTreeMap.getElem?_erase]

end JsObject

end Scripts

end UnifyFramework
