import UnifyFramework.Duktape.ValueStack
import UnifyFramework.Text.Lines

/-!
# Native calls into JavaScript

`CEJsEngine::innerCallJsFunction` and `CEJsEngine::innerCallGlobalFunction` push a function
and a vector of `CEJsValue` and call `duk_pcall` with the number of arguments that
`js_pushCEJsValue` has counted. For an array or a map it counts one argument and pushes none,
so that `duk_pcall` looks for the function one place too low. The other values are pushed one
by one onto a stack of a fixed number of slots; with too many of them the last push is a fatal
error. A call is made as it is meant exactly when there are no arrays and maps, the stack has
slots enough and what is done with the outcome of the call throws no error of its own.
-/

namespace UnifyFramework

namespace JsEngine

open Debugger Duktape

abbrev CString := { text : Bytes // (0 : UInt8) ∉ text }

/-- A string is made of a `const char*`, so that it holds no NUL byte. A map has its entries in
the order of the keys. -/
inductive CEJsValue
  | none
  | undefined
  | null
  | bool (value : Bool)
  | number (bits : UInt64)
  | string (text : CString)
  | array (values : List CEJsValue)
  | map (entries : List (Bytes × CEJsValue))

namespace CEJsValue

def stringValue (text : Bytes) : CEJsValue := string ⟨Text.upTo 0 text, Text.notMem_upTo 0 text⟩

def isNone : CEJsValue → Bool
  | none => true
  | _ => false

def isFlat : CEJsValue → Bool
  | array _ | map _ => false
  | _ => true

/-- The value that stands for it among the arguments. Of an array or a map we only ask that
it is an object. -/
def Represents : CEJsValue → DukTval → Prop
  | none, _ => False
  | undefined, v => v = .undefined
  | null, v => v = .null
  | bool value, v => v = .boolean value
  | number bits, v => v = .number bits
  | string text, v => v = .string text
  | array _, v | map _, v => ∃ classNumber heapptr, v = .object classNumber heapptr

def pushed : CEJsValue → Option DukTval
  | undefined => some .undefined
  | null => some .null
  | bool value => some (.boolean value)
  | number bits => some (.number bits)
  | string text => some (.string text)
  | none | array _ | map _ => Option.none

end CEJsValue

/-- `js_pushCEJsValue`, with the number of arguments it returns. -/
def jsPushCEJsValue (c : Context) : CEJsValue → Option (Context × ℕ)
  | .none => some (c, 0)
  | .undefined => (c.push .undefined).map fun c => (c, 1)
  | .null => (c.push .null).map fun c => (c, 1)
  | .bool value => (c.push (.boolean value)).map fun c => (c, 1)
  | .number bits => (c.push (.number bits)).map fun c => (c, 1)
  | .string text => (c.push (.string (Text.upTo 0 text))).map fun c => (c, 1)
  | .array _ | .map _ => some (c, 1)

def pushArgs (c : Context) (argNum : ℕ) : List CEJsValue → Option (Context × ℕ)
  | [] => some (c, argNum)
  | arg :: args => (jsPushCEJsValue c arg).bind fun r => pushArgs r.1 (argNum + r.2) args

/-- The arguments are pushed, and `duk_pcall` is called with their number. -/
def pushAndCall (js : Script) (c : Context) (args : List CEJsValue) :
    Option (Context × Completion) :=
  (pushArgs c 0 args).bind fun r => r.1.pcall js r.2

/-- `CCLOG` of an error. Without `CE_DEBUG` its arguments are not evaluated. -/
def ccLog (ceDebug : Bool) (js : Script) (error : DukTval) : Option Unit :=
  if ceDebug then (js.dukToString error).map fun _ => () else some ()

def jsToCejsValue (js : Script) : DukTval → Option CEJsValue
  | .number bits => some (.number bits)
  | .boolean value => some (.bool value)
  | .string data => some (.stringValue data)
  | .object classNumber heapptr =>
      (js.dukJsonEncode (.object classNumber heapptr)).map .stringValue
  | .undefined => some .undefined
  | _ => some .null

/-- `func` is what `duk_push_heapptr` finds behind the pointer. -/
def innerCallJsFunction (ceDebug : Bool) (js : Script) (c : Context) (func : DukTval)
    (args : List CEJsValue) : Option Context :=
  (c.push func).bind fun c => (pushAndCall js c args).bind fun
    | (c, .threw error) => (ccLog ceDebug js error).map fun _ => c.clear
    | (c, .returned _) => some c.clear

def innerCallGlobalFunction (ceDebug : Bool) (js : Script) (c : Context) (functionName : Bytes)
    (args : List CEJsValue) : Option (Context × CEJsValue) :=
  (c.getGlobalString js functionName).bind fun (c, ret) =>
    if ret && js.isFunction ((js.globals functionName).getD .undefined) then
      (pushAndCall js c args).bind fun
        | (c, .threw error) => (ccLog ceDebug js error).bind fun _ =>
            c.pop.map fun c => (c.clear, .none)
        | (c, .returned value) => (jsToCejsValue js value).bind fun result =>
            c.pop.map fun c => (c.clear, result)
    else c.pop.map fun c => (c, .null)

def argCount (args : List CEJsValue) : ℕ := args.countP fun arg => !arg.isNone

def argValues (args : List CEJsValue) : List DukTval := args.filterMap CEJsValue.pushed

/-- A job from `c` to `c'` that makes the call it is meant to make. -/
structure CallsExactly (c : Context) (func : DukTval) (args : List CEJsValue) (c' : Context) :
    Prop where
  /-- As many values are pushed above the function as arguments are counted, and the function
  is called with these. -/
  called : ∃ values pushed, (c.push func).bind (pushArgs · 0 args) =
      some (pushed, values.length) ∧ pushed.stack = c.stack ++ func :: values ∧
    List.Forall₂ CEJsValue.Represents (args.filter fun arg => !arg.isNone) values ∧
    c'.calls = c.calls ++ [⟨func, values⟩]
  clean : c.stack = [] → c'.stack = []

def Callable (c : Context) (args : List CEJsValue) : Prop :=
  (∀ arg ∈ args, arg.isFlat = true) ∧ c.stack.length + argCount args + 2 ≤ c.valstackSize

def Printable (ceDebug : Bool) (js : Script) : Completion → Prop
  | .threw error => ceDebug = true → (js.dukToString error).isSome
  | .returned _ => True

def Convertible (js : Script) : Completion → Prop
  | .returned (.object classNumber heapptr) =>
      (js.dukJsonEncode (.object classNumber heapptr)).isSome
  | _ => True

def globalFunction (js : Script) (functionName : Bytes) : Option DukTval :=
  (js.globals functionName).filter js.isFunction

/-- A job from `c` to `c'` that makes the global call it is meant to make. Without a function of
this name it does nothing. -/
def GlobalCallsExactly (js : Script) (c : Context) (functionName : Bytes)
    (args : List CEJsValue) (c' : Context) : Prop :=
  match globalFunction js functionName with
  | some func => CallsExactly c func args c'
  | none => c' = c

def GlobalCallable (ceDebug : Bool) (js : Script) (c : Context) (functionName : Bytes)
    (args : List CEJsValue) : Prop :=
  match globalFunction js functionName with
  | some func => Callable c args ∧ Printable ceDebug js (js.call func (argValues args)) ∧
      Convertible js (js.call func (argValues args))
  | none => c.stack.length + 2 ≤ c.valstackSize

theorem jsPushCEJsValue_of_pushed {c : Context} {arg : CEJsValue} {value : DukTval}
    (h : arg.pushed = some value) :
    jsPushCEJsValue c arg = (c.push value).map fun c => (c, 1) := by
  cases arg with
  | none | array | map => cases h
  | undefined | null | bool | number =>
      cases h
      rfl
  | string text =>
      cases h
      rw [jsPushCEJsValue, Text.upTo_eq_self_iff.mpr text.2]

theorem jsPushCEJsValue_of_not_pushed {c : Context} {arg : CEJsValue} (h : arg.pushed = none) :
    jsPushCEJsValue c arg = some (c, if arg.isNone then 0 else 1) := by
  cases arg with
  | none | array | map => rfl
  | undefined | null | bool | number | string => cases h

theorem isNone_of_pushed {arg : CEJsValue} {value : DukTval} (h : arg.pushed = some value) :
    arg.isNone = false := by
  cases arg with
  | none => cases h
  | undefined | null | bool | number | string | array | map => rfl

theorem argCount_cons (arg : CEJsValue) (args : List CEJsValue) :
    argCount (arg :: args) = argCount args + if arg.isNone then 0 else 1 := by
  cases h : arg.isNone <;> simp [argCount, h]

theorem argValues_cons_of_pushed {arg : CEJsValue} {value : DukTval} (args : List CEJsValue)
    (h : arg.pushed = some value) : argValues (arg :: args) = value :: argValues args :=
  List.filterMap_cons_some h

theorem argValues_cons_of_not_pushed {arg : CEJsValue} (args : List CEJsValue)
    (h : arg.pushed = none) : argValues (arg :: args) = argValues args :=
  List.filterMap_cons_none h

/-- The loop pushes the values it can push and counts the arguments there should be. -/
theorem pushArgs_eq_some_iff {c c' : Context} {argNum n : ℕ} (args : List CEJsValue) :
    pushArgs c argNum args = some (c', n) ↔ c'.stack = c.stack ++ argValues args ∧
      c'.valstackSize = c.valstackSize ∧ c'.calls = c.calls ∧ n = argNum + argCount args := by
  induction args generalizing c argNum with
  | nil =>
      rw [pushArgs, Option.some_inj, Prod.mk.injEq]
      constructor
      · rintro ⟨rfl, rfl⟩
        exact ⟨(List.append_nil _).symm, rfl, rfl, rfl⟩
      · rintro ⟨hstack, hsize, hcalls, rfl⟩
        exact ⟨Context.ext (hstack.trans (List.append_nil _)).symm hsize.symm hcalls.symm, rfl⟩
  | cons arg args ih =>
      rw [pushArgs, argCount_cons]
      cases harg : arg.pushed with
      | none =>
          rw [jsPushCEJsValue_of_not_pushed harg, Option.bind_some, ih,
            argValues_cons_of_not_pushed args harg, Nat.add_assoc, Nat.add_comm (argCount args)]
      | some value =>
          rw [jsPushCEJsValue_of_pushed harg, isNone_of_pushed harg,
            argValues_cons_of_pushed args harg, Option.bind_eq_some_iff,
            if_neg Bool.false_ne_true]
          constructor
          · rintro ⟨r, hr, hrest⟩
            obtain ⟨c₁, hpush, rfl⟩ := Option.map_eq_some_iff.mp hr
            obtain ⟨hstack₁, hsize₁, hcalls₁⟩ := Context.push_eq_some_iff.mp hpush
            obtain ⟨hstack, hsize, hcalls, hn⟩ := ih.mp hrest
            refine ⟨?_, hsize.trans hsize₁, hcalls.trans hcalls₁, by omega⟩
            rw [hstack, hstack₁, List.append_assoc, List.singleton_append]
          · rintro ⟨hstack, hsize, hcalls, hn⟩
            -- there is a slot for the value since there is one for everything that follows
            have hspace : c.stack.length < c.valstackSize := by
              have hfits := c'.fits
              rw [hstack, hsize, List.length_append, List.length_cons] at hfits
              omega
            obtain ⟨c₁, hpush⟩ : ∃ c₁, c.push value = some c₁ :=
              Context.exists_push_iff.mpr hspace
            obtain ⟨hstack₁, hsize₁, hcalls₁⟩ := Context.push_eq_some_iff.mp hpush
            refine ⟨(c₁, 1), by rw [hpush, Option.map_some], ih.mpr ⟨?_, ?_, ?_, by omega⟩⟩
            · rw [hstack, hstack₁, List.append_assoc, List.singleton_append]
            · exact hsize.trans hsize₁.symm
            · exact hcalls.trans hcalls₁.symm

theorem isFlat_of_pushed {arg : CEJsValue} {value : DukTval} (h : arg.pushed = some value) :
    arg.isFlat = true := by
  cases arg with
  | none | array | map => cases h
  | undefined | null | bool | number | string => rfl

theorem isFlat_of_not_pushed {arg : CEJsValue} (h : arg.pushed = none) :
    arg.isFlat = arg.isNone := by
  cases arg with
  | none | array | map => rfl
  | undefined | null | bool | number | string => cases h

theorem length_argValues_le (args : List CEJsValue) :
    (argValues args).length ≤ argCount args := by
  induction args with
  | nil => exact Nat.le_refl _
  | cons arg args ih =>
      rw [argCount_cons]
      cases harg : arg.pushed with
      | none =>
          rw [argValues_cons_of_not_pushed args harg]
          omega
      | some value =>
          rw [argValues_cons_of_pushed args harg, isNone_of_pushed harg]
          exact Nat.succ_le_succ ih

/-- The count agrees with the values exactly when there are no arrays and maps. -/
theorem length_argValues_eq_iff (args : List CEJsValue) :
    (argValues args).length = argCount args ↔ ∀ arg ∈ args, arg.isFlat = true := by
  induction args with
  | nil => exact iff_of_true rfl (by simp)
  | cons arg args ih =>
      have hle := length_argValues_le args
      rw [argCount_cons, List.forall_mem_cons, ← ih]
      cases harg : arg.pushed with
      | none =>
          rw [argValues_cons_of_not_pushed args harg, isFlat_of_not_pushed harg]
          cases arg.isNone with
          | true => simp
          | false =>
              -- an array or a map: there is one argument more than there are values
              refine iff_of_false ?_ (by simp)
              simp only [Bool.false_eq_true, if_false]
              omega
      | some value =>
          rw [argValues_cons_of_pushed args harg, isNone_of_pushed harg, isFlat_of_pushed harg]
          simp

theorem represents_of_pushed {arg : CEJsValue} {value : DukTval} (h : arg.pushed = some value) :
    arg.Represents value := by
  cases arg with
  | none | array | map => cases h
  | undefined | null | bool | number | string =>
      cases h
      rfl

theorem represents_argValues {args : List CEJsValue} (h : ∀ arg ∈ args, arg.isFlat = true) :
    List.Forall₂ CEJsValue.Represents (args.filter fun arg => !arg.isNone) (argValues args) := by
  induction args with
  | nil => exact .nil
  | cons arg args ih =>
      obtain ⟨hflat, hrest⟩ := List.forall_mem_cons.mp h
      cases harg : arg.pushed with
      | none =>
          rw [isFlat_of_not_pushed harg] at hflat
          simpa [argValues, harg, hflat] using ih hrest
      | some value =>
          rw [List.filter_cons_of_pos (by simp [isNone_of_pushed harg]),
            argValues_cons_of_pushed args harg]
          exact .cons (represents_of_pushed harg) (ih hrest)

/-- Without arrays and maps the function below the arguments is called. -/
theorem pushAndCall_eq_some_iff {js : Script} {c c' : Context} {below : List DukTval}
    {func : DukTval} {args : List CEJsValue} {result : Completion}
    (hflat : ∀ arg ∈ args, arg.isFlat = true) (hstack : c.stack = below ++ [func]) :
    pushAndCall js c args = some (c', result) ↔
      c.stack.length + argCount args + 1 ≤ c.valstackSize ∧
        result = js.call func (argValues args) ∧ c'.stack = below ++ [result.value] ∧
          c'.valstackSize = c.valstackSize ∧ c'.calls = c.calls ++ [⟨func, argValues args⟩] := by
  have hcount := (length_argValues_eq_iff args).mpr hflat
  rw [pushAndCall, Option.bind_eq_some_iff]
  constructor
  · rintro ⟨⟨p, n⟩, hpush, hcall⟩
    obtain ⟨hp, hsize, hcalls, rfl⟩ := (pushArgs_eq_some_iff args).mp hpush
    rw [hstack, List.append_assoc, List.singleton_append] at hp
    rw [Nat.zero_add, ← hcount] at hcall
    obtain ⟨hspace, hresult, hc', hsize', hcalls'⟩ := (Context.pcall_eq_some_iff hp).mp hcall
    rw [hcalls] at hcalls'
    refine ⟨?_, hresult, hc', hsize'.trans hsize, hcalls'⟩
    rw [hp, hsize, List.length_append, List.length_cons, hcount] at hspace
    rw [hstack, List.length_append, List.length_singleton]
    omega
  · rintro ⟨hspace, hresult, hc', hsize, hcalls⟩
    have hfits : (c.stack ++ argValues args).length ≤ c.valstackSize := by
      rw [List.length_append, hcount]
      omega
    refine ⟨(⟨c.stack ++ argValues args, c.valstackSize, c.calls, hfits⟩, argCount args), ?_, ?_⟩
    · exact (pushArgs_eq_some_iff args).mpr ⟨rfl, rfl, rfl, (Nat.zero_add _).symm⟩
    · rw [← hcount]
      have hp : c.stack ++ argValues args = below ++ func :: argValues args := by
        rw [hstack, List.append_assoc, List.singleton_append]
      refine (Context.pcall_eq_some_iff hp).mpr ⟨?_, hresult, hc', hsize, hcalls⟩
      rw [List.length_append, hcount]
      exact hspace

theorem push_pushAndCall_iff {js : Script} {c c' : Context} {func : DukTval}
    {args : List CEJsValue} {result : Completion} (hflat : ∀ arg ∈ args, arg.isFlat = true) :
    (∃ c₁, c.push func = some c₁ ∧ pushAndCall js c₁ args = some (c', result)) ↔
      c.stack.length + argCount args + 2 ≤ c.valstackSize ∧
        result = js.call func (argValues args) ∧ c'.stack = c.stack ++ [result.value] ∧
          c'.valstackSize = c.valstackSize ∧ c'.calls = c.calls ++ [⟨func, argValues args⟩] := by
  constructor
  · rintro ⟨c₁, hfunc, hcall⟩
    obtain ⟨hstack, hsize, hcalls⟩ := Context.push_eq_some_iff.mp hfunc
    have hall := (pushAndCall_eq_some_iff hflat hstack).mp hcall
    rw [hstack, hsize, hcalls, List.length_append, List.length_singleton] at hall
    exact ⟨by omega, hall.2⟩
  · rintro ⟨hspace, hrest⟩
    obtain ⟨c₁, hfunc⟩ : ∃ c₁, c.push func = some c₁ :=
      Context.exists_push_iff.mpr (by omega)
    obtain ⟨hstack, hsize, hcalls⟩ := Context.push_eq_some_iff.mp hfunc
    refine ⟨c₁, hfunc, (pushAndCall_eq_some_iff hflat hstack).mpr ?_⟩
    rw [hstack, hsize, hcalls, List.length_append, List.length_singleton]
    exact ⟨by omega, hrest⟩

/-- A call that is made as it is meant has no arrays and maps among its arguments. -/
theorem CallsExactly.flat {c c' : Context} {func : DukTval} {args : List CEJsValue}
    (h : CallsExactly c func args c') : ∀ arg ∈ args, arg.isFlat = true := by
  obtain ⟨values, p, hpush, hstack, _, _⟩ := h.called
  obtain ⟨c₁, hfunc, hargs⟩ := Option.bind_eq_some_iff.mp hpush
  obtain ⟨hstack₁, _, _⟩ := Context.push_eq_some_iff.mp hfunc
  obtain ⟨hp, _, _, hn⟩ := (pushArgs_eq_some_iff args).mp hargs
  rw [hstack, hstack₁, List.append_assoc, List.singleton_append, List.append_cancel_left_eq,
    List.cons.injEq] at hp
  rw [← length_argValues_eq_iff, ← hp.2, hn, Nat.zero_add]

theorem CallsExactly.callable {js : Script} {c c' c₁ c₂ : Context} {func : DukTval}
    {args : List CEJsValue} {result : Completion} (h : CallsExactly c func args c')
    (hfunc : c.push func = some c₁) (hcall : pushAndCall js c₁ args = some (c₂, result)) :
    Callable c args ∧ result = js.call func (argValues args) := by
  obtain ⟨hspace, hresult, _⟩ := (push_pushAndCall_iff h.flat).mp ⟨c₁, hfunc, hcall⟩
  exact ⟨⟨h.flat, hspace⟩, hresult⟩

/-- With slots enough for a flat list of arguments, a job that has made the call and cleared the
stack is as it should be. -/
theorem Callable.callsExactly {c c' : Context} {func : DukTval} {args : List CEJsValue}
    (h : Callable c args) (hcalls : c'.calls = c.calls ++ [⟨func, argValues args⟩])
    (hclear : c'.stack = []) : CallsExactly c func args c' := by
  obtain ⟨hflat, hspace⟩ := h
  have hcount := (length_argValues_eq_iff args).mpr hflat
  have hfits : (c.stack ++ func :: argValues args).length ≤ c.valstackSize := by
    rw [List.length_append, List.length_cons, hcount]
    omega
  obtain ⟨c₁, hfunc⟩ : ∃ c₁, c.push func = some c₁ := Context.exists_push_iff.mpr (by omega)
  obtain ⟨hstack₁, hsize₁, hcalls₁⟩ := Context.push_eq_some_iff.mp hfunc
  refine ⟨⟨argValues args, ⟨c.stack ++ func :: argValues args, c.valstackSize, c.calls, hfits⟩,
    ?_, rfl, represents_argValues hflat, hcalls⟩, fun _ => hclear⟩
  rw [hfunc, Option.bind_some, pushArgs_eq_some_iff, hstack₁, List.append_assoc,
    List.singleton_append, hcount, Nat.zero_add]
  exact ⟨rfl, hsize₁.symm, hcalls₁.symm, rfl⟩

theorem Callable.exists_call {c : Context} {args : List CEJsValue} (h : Callable c args)
    (js : Script) (func : DukTval) :
    ∃ c₁ c₂, c.push func = some c₁ ∧
      pushAndCall js c₁ args = some (c₂, js.call func (argValues args)) ∧
      c₂.stack = c.stack ++ [(js.call func (argValues args)).value] ∧
      c₂.calls = c.calls ++ [⟨func, argValues args⟩] := by
  obtain ⟨hflat, hspace⟩ := h
  have hfits : (c.stack ++ [(js.call func (argValues args)).value]).length ≤ c.valstackSize := by
    rw [List.length_append, List.length_singleton]
    omega
  let c₂ : Context := ⟨c.stack ++ [(js.call func (argValues args)).value], c.valstackSize,
    c.calls ++ [⟨func, argValues args⟩], hfits⟩
  have hc₂ : ∃ c₁, c.push func = some c₁ ∧
      pushAndCall js c₁ args = some (c₂, js.call func (argValues args)) :=
    (push_pushAndCall_iff hflat).mpr ⟨hspace, rfl, rfl, rfl, rfl⟩
  obtain ⟨c₁, hfunc, hcall⟩ := hc₂
  exact ⟨c₁, c₂, hfunc, hcall, rfl, rfl⟩

theorem ccLog_eq_some_iff {ceDebug : Bool} {js : Script} {error : DukTval} :
    (∃ u, ccLog ceDebug js error = some u) ↔ Printable ceDebug js (.threw error) := by
  rw [← Option.isSome_iff_exists]
  cases ceDebug with
  | false => exact iff_of_true rfl nofun
  | true =>
      rw [ccLog, if_pos rfl, Option.isSome_map]
      exact ⟨fun h _ => h, fun h => h rfl⟩

theorem jsToCejsValue_eq_some_iff {js : Script} {value : DukTval} :
    (∃ result, jsToCejsValue js value = some result) ↔ Convertible js (.returned value) := by
  rw [← Option.isSome_iff_exists]
  cases value with
  | object classNumber heapptr => exact Bool.eq_iff_iff.mp Option.isSome_map
  | undefined | unused | null | boolean | pointer | lightfunc | string | buffer | number =>
      exact iff_of_true rfl trivial

theorem innerCallJsFunction_exact_iff (ceDebug : Bool) (js : Script) (c : Context)
    (func : DukTval) (args : List CEJsValue) :
    (∃ c' ∈ innerCallJsFunction ceDebug js c func args, CallsExactly c func args c') ↔
      Callable c args ∧ Printable ceDebug js (js.call func (argValues args)) := by
  constructor
  · rintro ⟨c', hc', hexact⟩
    obtain ⟨c₁, hfunc, hrest⟩ := Option.bind_eq_some_iff.mp hc'
    obtain ⟨⟨c₂, result⟩, hcall, hend⟩ := Option.bind_eq_some_iff.mp hrest
    obtain ⟨hcallable, rfl⟩ := hexact.callable hfunc hcall
    refine ⟨hcallable, ?_⟩
    cases hresult : js.call func (argValues args) with
    | returned value => trivial
    | threw error =>
        rw [hresult] at hend
        obtain ⟨u, hlog, _⟩ := Option.map_eq_some_iff.mp hend
        exact ccLog_eq_some_iff.mp ⟨u, hlog⟩
  · rintro ⟨hcallable, hprintable⟩
    obtain ⟨c₁, c₂, hfunc, hcall, _, hcalls⟩ := hcallable.exists_call js func
    refine ⟨c₂.clear, ?_, hcallable.callsExactly hcalls rfl⟩
    rw [Option.mem_def, innerCallJsFunction, hfunc, Option.bind_some, hcall, Option.bind_some]
    cases hresult : js.call func (argValues args) with
    | returned value => rfl
    | threw error =>
        rw [hresult] at hprintable
        obtain ⟨u, hlog⟩ := ccLog_eq_some_iff.mpr hprintable
        simp only [hlog, Option.map_some]

theorem globalFunction_eq_some_iff {js : Script} {functionName : Bytes} {func : DukTval} :
    globalFunction js functionName = some func ↔
      js.globals functionName = some func ∧ js.isFunction func = true :=
  Option.filter_eq_some_iff

/-- Without a function of this name, the value that was found is taken away again. -/
theorem innerCallGlobalFunction_of_no_function {ceDebug : Bool} {js : Script} {c : Context}
    {functionName : Bytes} {args : List CEJsValue}
    (h : globalFunction js functionName = none) :
    (∃ r ∈ innerCallGlobalFunction ceDebug js c functionName args, r.1 = c) ↔
      c.stack.length + 2 ≤ c.valstackSize := by
  have hno : ((js.globals functionName).isSome &&
      js.isFunction ((js.globals functionName).getD .undefined)) = false := by
    rw [globalFunction] at h
    cases hglobal : js.globals functionName with
    | none => rfl
    | some value =>
        rw [hglobal] at h
        simpa [Option.filter] using h
  constructor
  · rintro ⟨r, hr, _⟩
    obtain ⟨⟨c₁, ret⟩, hlookup, _⟩ := Option.bind_eq_some_iff.mp hr
    exact (Context.getGlobalString_eq_some_iff.mp hlookup).1
  · intro hspace
    obtain ⟨c₁, hpush⟩ : ∃ c₁, c.push ((js.globals functionName).getD .undefined) = some c₁ :=
      Context.exists_push_iff.mpr (by omega)
    have hlookup := Context.getGlobalString_eq_some_iff.mpr ⟨hspace, hpush, rfl⟩
    obtain ⟨hstack, hsize, hcalls⟩ := Context.push_eq_some_iff.mp hpush
    have hpop := (Context.pop_eq_some_iff hstack).mpr ⟨rfl, hsize.symm, hcalls.symm⟩
    refine ⟨(c, .null), ?_, rfl⟩
    rw [Option.mem_def, innerCallGlobalFunction, hlookup, Option.bind_some]
    simp only [hno, Bool.false_eq_true, if_false, hpop, Option.map_some]

theorem innerCallGlobalFunction_of_function {ceDebug : Bool} {js : Script} {c : Context}
    {functionName : Bytes} {args : List CEJsValue} {func : DukTval}
    (h : globalFunction js functionName = some func) :
    (∃ r ∈ innerCallGlobalFunction ceDebug js c functionName args,
        CallsExactly c func args r.1) ↔
      Callable c args ∧ Printable ceDebug js (js.call func (argValues args)) ∧
        Convertible js (js.call func (argValues args)) := by
  obtain ⟨hglobal, hfunction⟩ := globalFunction_eq_some_iff.mp h
  constructor
  · rintro ⟨r, hr, hexact⟩
    obtain ⟨⟨c₁, ret⟩, hlookup, hrest⟩ := Option.bind_eq_some_iff.mp hr
    obtain ⟨_, hfunc, rfl⟩ := Context.getGlobalString_eq_some_iff.mp hlookup
    simp only [hglobal, Option.isSome_some, Option.getD_some, hfunction, Bool.and_self,
      if_true] at hfunc hrest
    obtain ⟨⟨c₂, result⟩, hcall, hend⟩ := Option.bind_eq_some_iff.mp hrest
    obtain ⟨hcallable, rfl⟩ := hexact.callable hfunc hcall
    refine ⟨hcallable, ?_⟩
    cases hresult : js.call func (argValues args) with
    | returned value =>
        rw [hresult] at hend
        obtain ⟨result, hconvert, _⟩ := Option.bind_eq_some_iff.mp hend
        exact ⟨trivial, jsToCejsValue_eq_some_iff.mp ⟨result, hconvert⟩⟩
    | threw error =>
        rw [hresult] at hend
        obtain ⟨u, hlog, _⟩ := Option.bind_eq_some_iff.mp hend
        exact ⟨ccLog_eq_some_iff.mp ⟨u, hlog⟩, trivial⟩
  · rintro ⟨hcallable, hprintable, hconvertible⟩
    obtain ⟨c₁, c₂, hfunc, hcall, hstack, hcalls⟩ := hcallable.exists_call js func
    have hspace : c.stack.length + 2 ≤ c.valstackSize := by
      have := hcallable.2
      omega
    have hlookup : c.getGlobalString js functionName = some (c₁, true) := by
      rw [Context.getGlobalString_eq_some_iff, hglobal]
      exact ⟨hspace, hfunc, rfl⟩
    have hfits : c.stack.length ≤ c₂.valstackSize := by
      have := c₂.fits
      rw [hstack, List.length_append] at this
      omega
    have hpop : c₂.pop = some ⟨c.stack, c₂.valstackSize, c₂.calls, hfits⟩ :=
      (Context.pop_eq_some_iff hstack).mpr ⟨rfl, rfl, rfl⟩
    have hjob : ∃ result, innerCallGlobalFunction ceDebug js c functionName args =
        some (c₂.clear, result) := by
      rw [innerCallGlobalFunction, hlookup, Option.bind_some]
      simp only [hglobal, Option.getD_some, hfunction, Bool.and_self, if_true]
      rw [hcall, Option.bind_some]
      cases hresult : js.call func (argValues args) with
      | returned value =>
          rw [hresult] at hconvertible
          obtain ⟨result, hconvert⟩ := jsToCejsValue_eq_some_iff.mpr hconvertible
          simp only [hconvert, Option.bind_some, hpop, Option.map_some]
          exact ⟨result, rfl⟩
      | threw error =>
          rw [hresult] at hprintable
          obtain ⟨u, hlog⟩ := ccLog_eq_some_iff.mpr hprintable
          simp only [hlog, Option.bind_some, hpop, Option.map_some]
          exact ⟨_, rfl⟩
    obtain ⟨result, hjob⟩ := hjob
    exact ⟨_, hjob, hcallable.callsExactly hcalls rfl⟩

theorem innerCallGlobalFunction_exact_iff (ceDebug : Bool) (js : Script) (c : Context)
    (functionName : Bytes) (args : List CEJsValue) :
    (∃ r ∈ innerCallGlobalFunction ceDebug js c functionName args,
        GlobalCallsExactly js c functionName args r.1) ↔
      GlobalCallable ceDebug js c functionName args := by
  simp only [GlobalCallsExactly, GlobalCallable]
  cases hfunction : globalFunction js functionName with
  | none => exact innerCallGlobalFunction_of_no_function hfunction
  | some func => exact innerCallGlobalFunction_of_function hfunction

def onCreate : DukTval := .object 5 ⟨[0x00, 0x00, 0x20, 0x10], Or.inl rfl⟩

def onCreateName : Bytes := ascii ['o', 'n', 'C', 'r', 'e', 'a', 't', 'e']

/-- A page with one function. It returns nothing. -/
def pageScript : Script where
  globalObject := .object 16 ⟨[0x00, 0x00, 0x10, 0x00], Or.inl rfl⟩
  globals key := if key = onCreateName then some onCreate else none
  isFunction value := value = onCreate
  call _ _ := .returned .undefined
  dukToString _ := some []
  dukJsonEncode _ := some []

def arrayArgument : List CEJsValue := [.number 0, .array []]

/-- As many arguments as leave no slot behind them. -/
def manyArguments : List CEJsValue := List.replicate 127 .undefined

theorem not_exists_mem_of_isNone {α : Type*} {x : Option α} (h : x.isNone = true) (p : α → Prop) :
    ¬ ∃ a ∈ x, p a := by
  rw [Option.isNone_iff_eq_none.mp h]
  simp

end JsEngine

end UnifyFramework
