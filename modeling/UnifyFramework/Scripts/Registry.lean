import UnifyFramework.Scripts.JsObject
import UnifyFramework.Transition.Run

/-!
# The registries of view models and proxies

`ViewModelManager` and `Facade` keep their objects in a plain object, under the names of the
objects. Whether a name is taken is decided by reading the property, which also finds what
the plain object inherits; and unregistering deletes whatever is registered under the name
of the object that is given. So a registry is the map from names to objects that it is meant
to be exactly as long as no name is one of `Object.prototype` and nobody unregisters an
object whose name another object holds.
-/

namespace UnifyFramework

namespace Scripts

open Transition

/-- A view model or a proxy; `id` tells objects with the same name apart. -/
structure NamedObject where
  id : ℕ
  name : String
  hasCleanup : Bool
  deriving DecidableEq, Repr

/-- What the registries print for a name: they differ in nothing else. -/
structure RegistryTexts where
  registered : String → Option String
  refused : String → String

def viewModelTexts : RegistryTexts where
  registered := fun name => some ("viewmodel name is " ++ name)
  refused := fun name => "Can't register viewmodel, (" ++ name ++ ") is registered! "

def proxyTexts : RegistryTexts where
  registered := fun _ => none
  refused := fun name => "Can't register proxy, (" ++ name ++ ") is registered! "

structure Registry where
  objects : JsObject NamedObject
  cleaned : List NamedObject
  printed : List String

namespace Registry

def new : Registry := ⟨⟨∅⟩, [], []⟩

def retrieve (r : Registry) (name : String) : Lookup NamedObject := r.objects.get name

def register (texts : RegistryTexts) (r : Registry) (o : NamedObject) : Registry :=
  if (r.retrieve o.name).truthy then { r with printed := r.printed ++ [texts.refused o.name] }
  else
    { r with
      objects := r.objects.put o.name o
      printed := r.printed ++ (texts.registered o.name).toList }

/-- Nothing happens without an object. -/
def unregister (r : Registry) : Option NamedObject → Registry
  | none => r
  | some o =>
      if (r.retrieve o.name).truthy then
        { r with
          objects := r.objects.delete o.name
          cleaned := r.cleaned ++ if o.hasCleanup then [o] else [] }
      else r

def registerViewModel (r : Registry) (viewmodel : NamedObject) : Registry :=
  r.register viewModelTexts viewmodel

def unregisterViewmodel (r : Registry) (viewmodel : Option NamedObject) : Registry :=
  r.unregister viewmodel

def retrieveViewModel (r : Registry) (viewmodelName : String) : Lookup NamedObject :=
  r.retrieve viewmodelName

def registerProxy (r : Registry) (proxy : NamedObject) : Registry := r.register proxyTexts proxy

def unregisterProxy (r : Registry) (proxy : Option NamedObject) : Registry := r.unregister proxy

def retrieveProxy (r : Registry) (proxyName : String) : Lookup NamedObject := r.retrieve proxyName

end Registry

inductive RegistryCall
  | register (o : NamedObject)
  | unregister (o : Option NamedObject)
  | retrieve (name : String)

/-- Who holds the name after a call: the first to register under a name that is free, until
that object is unregistered. -/
def nextHolder (name : String) (h : Option NamedObject) : RegistryCall → Option NamedObject
  | .register o => if o.name = name then h.or (some o) else h
  | .unregister (some o) => if h = some o then none else h
  | .unregister none | .retrieve _ => h

def holder (name : String) (calls : List RegistryCall) : Option NamedObject :=
  calls.foldl (nextHolder name) none

/-- The result of `retrieve` for a name with the given holder. -/
def Answers (result : Lookup NamedObject) : Option NamedObject → Prop
  | some o => result = .own o
  | none => result.truthy = false

structure RegistryRun where
  registry : Registry
  history : List RegistryCall

namespace RegistryRun

def new : RegistryRun := ⟨Registry.new, []⟩

def next (texts : RegistryTexts) (s : RegistryRun) : RegistryCall → Registry
  | .register o => s.registry.register texts o
  | .unregister o => s.registry.unregister o
  | .retrieve _ => s.registry

def step (texts : RegistryTexts) (s : RegistryRun) (call : RegistryCall) : Option RegistryRun :=
  some ⟨s.next texts call, s.history ++ [call]⟩

def stored (s : RegistryRun) (name : String) : Option NamedObject :=
  s.registry.objects.own[name]?

/-- `retrieve` finds the holder of the name. -/
def Finds (s : RegistryRun) : RegistryCall → Prop
  | .retrieve name => Answers (s.registry.retrieve name) (holder name s.history)
  | .register _ | .unregister _ => True

def Conforms (texts : RegistryTexts) (s : RegistryRun) (call : RegistryCall) : Prop :=
  (∀ name, (s.next texts call).objects.own[name]? = holder name (s.history ++ [call])) ∧
    s.Finds call

def Proper (s : RegistryRun) : RegistryCall → Prop
  | .register o => inherited o.name = none
  | .unregister (some o) => ∀ o' ∈ s.stored o.name, o' = o
  | .unregister none => True
  | .retrieve name => inherited name = none

instance decidableProper (s : RegistryRun) : (call : RegistryCall) → Decidable (s.Proper call)
  | .register _ => inferInstanceAs (Decidable (_ = _))
  | .unregister (some _) => inferInstanceAs (Decidable (∀ _ ∈ _, _))
  | .unregister none => inferInstanceAs (Decidable True)
  | .retrieve _ => inferInstanceAs (Decidable (_ = _))

/-- The registry is the map, and every object stands under its own name, which is not
inherited. -/
structure IsMap (s : RegistryRun) : Prop where
  holder : ∀ name, s.stored name = holder name s.history
  named : ∀ name o, s.stored name = some o → o.name = name ∧ inherited name = none

end RegistryRun

namespace Registry

theorem objects_register (texts : RegistryTexts) (r : Registry) (o : NamedObject) :
    (r.register texts o).objects =
      if (r.retrieve o.name).truthy then r.objects else r.objects.put o.name o :=
  apply_ite objects _ _ _

theorem objects_unregister (r : Registry) (o : NamedObject) :
    (r.unregister (some o)).objects =
      if (r.retrieve o.name).truthy then r.objects.delete o.name else r.objects :=
  apply_ite objects _ _ _

theorem own_register (texts : RegistryTexts) (r : Registry) (o : NamedObject) (name : String) :
    (r.register texts o).objects.own[name]? =
      if o.name = name ∧ inherited o.name = none then r.objects.own[name]?.or (some o)
      else r.objects.own[name]? := by
  rw [objects_register, retrieve]
  cases hown : r.objects.own[o.name]? with
  | some o' =>
      rw [JsObject.get_of_own hown, if_pos (Lookup.truthy_own o')]
      split_ifs with h
      · rw [← h.1, hown]
        rfl
      · rfl
  | none =>
      cases hname : inherited o.name with
      | some length =>
          rw [JsObject.get_of_inherited hown hname, if_pos (Lookup.truthy_inherited length),
            if_neg (by simp)]
      | none =>
          rw [JsObject.get_of_undefined hown hname, if_neg (by decide), JsObject.own_put]
          rcases eq_or_ne o.name name with rfl | hne
          · simp [hown]
          · simp [hne]

theorem own_unregister (r : Registry) (o : NamedObject) (name : String) :
    (r.unregister (some o)).objects.own[name]? =
      if o.name = name then none else r.objects.own[name]? := by
  rw [objects_unregister]
  by_cases htruthy : (r.retrieve o.name).truthy
  · rw [if_pos htruthy, JsObject.own_delete]
  · rw [if_neg htruthy]
    split_ifs with hname
    · cases hown : r.objects.own[o.name]? with
      | none => rw [← hname, hown]
      | some o' =>
          rw [retrieve, JsObject.get_of_own hown] at htruthy
          exact absurd rfl htruthy
    · rfl

end Registry

namespace RegistryRun

variable {texts : RegistryTexts} {s : RegistryRun}

theorem holder_concat (name : String) (calls : List RegistryCall) (call : RegistryCall) :
    Scripts.holder name (calls ++ [call]) = nextHolder name (Scripts.holder name calls) call :=
  List.foldl_concat _ _ _ _

theorem IsMap.stored_eq_none (h : s.IsMap) {name : String} {length : ℕ}
    (hname : inherited name = some length) : s.stored name = none := by
  cases hstored : s.stored name with
  | none => rfl
  | some o =>
      have := (h.named name o hstored).2
      rw [hname] at this
      cases this

theorem IsMap.conforms_register_iff (h : s.IsMap) (o : NamedObject) :
    s.Conforms texts (.register o) ↔ s.Proper (.register o) := by
  have hnext : ∀ name, (s.next texts (.register o)).objects.own[name]? =
      if o.name = name ∧ inherited o.name = none then (s.stored name).or (some o)
      else s.stored name :=
    Registry.own_register texts s.registry o
  rw [Conforms, Finds, and_true, Proper]
  simp only [hnext, holder_concat, nextHolder, ← h.holder]
  constructor
  · intro hsame
    cases hname : inherited o.name with
    | none => rfl
    | some length =>
        have := hsame o.name
        rw [if_neg (by simp [hname]), if_pos rfl, h.stored_eq_none hname] at this
        cases this
  · intro hname name
    simp only [hname, and_true]

theorem IsMap.conforms_unregister_iff (h : s.IsMap) (o : NamedObject) :
    s.Conforms texts (.unregister (some o)) ↔ s.Proper (.unregister (some o)) := by
  have hnext : ∀ name, (s.next texts (.unregister (some o))).objects.own[name]? =
      if o.name = name then none else s.stored name :=
    Registry.own_unregister s.registry o
  rw [Conforms, Finds, and_true, Proper]
  simp only [hnext, holder_concat, nextHolder, ← h.holder]
  constructor
  · intro hsame o' ho'
    have := hsame o.name
    rw [if_pos rfl] at this
    split_ifs at this with hstored
    · exact Option.some.inj (ho'.symm.trans hstored)
    · rw [← this] at ho'
      cases ho'
  · intro hproper name
    split_ifs with hname hstored hstored
    · rfl
    · cases hother : s.stored name with
      | none => rfl
      | some o' =>
          rw [← hname] at hother
          rw [← hname, hother, hproper o' hother] at hstored
          exact absurd rfl hstored
    · exact absurd (h.named name o hstored).1 hname
    · rfl

theorem IsMap.conforms_retrieve_iff (h : s.IsMap) (name : String) :
    s.Conforms texts (.retrieve name) ↔ s.Proper (.retrieve name) := by
  have hsame : ∀ name', (s.next texts (.retrieve name)).objects.own[name']? =
      Scripts.holder name' (s.history ++ [.retrieve name]) := by
    intro name'
    rw [holder_concat, nextHolder, ← h.holder]
    rfl
  rw [Conforms, and_iff_right hsame, Proper, Finds, ← h.holder]
  cases hname : inherited name with
  | some length =>
      have hstored := h.stored_eq_none hname
      rw [hstored, Registry.retrieve, JsObject.get_of_inherited hstored hname]
      simp [Answers, Lookup.truthy]
  | none =>
      refine iff_of_true ?_ rfl
      cases hstored : s.stored name with
      | none =>
          rw [Registry.retrieve, JsObject.get_of_undefined hstored hname]
          rfl
      | some o =>
          rw [Registry.retrieve, JsObject.get_of_own hstored]
          rfl

theorem IsMap.conforms_iff (h : s.IsMap) (call : RegistryCall) :
    s.Conforms texts call ↔ s.Proper call := by
  match call with
  | .register o => exact h.conforms_register_iff o
  | .unregister (some o) => exact h.conforms_unregister_iff o
  | .retrieve name => exact h.conforms_retrieve_iff name
  | .unregister none =>
      refine iff_of_true ⟨fun name => ?_, trivial⟩ trivial
      rw [holder_concat, nextHolder, ← h.holder]
      rfl

theorem IsMap.next (h : s.IsMap) {call : RegistryCall} (hproper : s.Proper call) :
    IsMap ⟨s.next texts call, s.history ++ [call]⟩ := by
  refine ⟨((h.conforms_iff call).mpr hproper).1, fun name o hstored => ?_⟩
  match call, hproper with
  | .register o', hname =>
      have hnext := (Registry.own_register texts s.registry o' name).symm.trans hstored
      split_ifs at hnext with heq
      · rcases Option.or_eq_some_iff.mp hnext with hold | ⟨_, hnew⟩
        · exact h.named name o hold
        · rw [← Option.some.inj hnew]
          exact ⟨heq.1, heq.1 ▸ hname⟩
      · exact h.named name o hnext
  | .unregister (some o'), _ =>
      have hnext := (Registry.own_unregister s.registry o' name).symm.trans hstored
      split_ifs at hnext with heq
      exact h.named name o hnext
  | .unregister none, _ => exact h.named name o hstored
  | .retrieve name', _ => exact h.named name o hstored

theorem isMap_new : IsMap new := by
  refine ⟨fun name => Std.ExtTreeMap.getElem?_empty, fun name o h => ?_⟩
  cases (Std.ExtTreeMap.getElem?_empty (a := name)).symm.trans h

theorem conforms_along_iff (texts : RegistryTexts) (calls : List RegistryCall) :
    Along (step texts) (Conforms texts) new calls ↔ Along (step texts) Proper new calls :=
  along_congr (fun _ call h => h.conforms_iff call)
    (fun _ _ _ h hproper hstep => Option.some.inj hstep ▸ h.next hproper) calls isMap_new

/-- A view model cannot be registered under the name of an inherited property, and one that
is not registered takes the place of the one that is with it. -/
theorem not_conforms_nameClashes :
    (¬ Along (step viewModelTexts) (Conforms viewModelTexts) new
      [.register ⟨1, "toString", true⟩]) ∧
    ¬ Along (step viewModelTexts) (Conforms viewModelTexts) new
      [.register ⟨1, "login", true⟩, .unregister (some ⟨2, "login", true⟩)] := by
  constructor
  · rintro ⟨⟨hregister, _⟩, _⟩
    exact absurd (hregister "toString") (by decide)
  · rintro ⟨_, hrest⟩
    exact absurd ((hrest _ rfl).1.1 "login") (by decide)

/-- A second view model is refused as long as the first one holds the name. -/
theorem conforms_secondRefused :
    Along (step viewModelTexts) (Conforms viewModelTexts) new
      [.register ⟨1, "login", true⟩, .register ⟨2, "login", true⟩, .retrieve "login",
        .unregister (some ⟨1, "login", true⟩), .register ⟨2, "login", true⟩, .retrieve "login"] :=
  (conforms_along_iff viewModelTexts _).mpr (by decide)

end RegistryRun

end Scripts

end UnifyFramework
