import UnifyFramework.Duktape.Write

/-!
# The value stack of a Duktape context

The operations of the Duktape API that native code uses to call a function: pushing values,
looking up a global property and `duk_pcall`. The stack has a number of allocated slots, and
no API function allocates more of them. An error that is thrown outside of a protected call
(a push beyond the slots, a call with more arguments than there are values) ends in the fatal
error handler; it is `none` here.
-/

namespace UnifyFramework

namespace Duktape

open Debugger

structure Call where
  func : DukTval
  args : List DukTval
  deriving DecidableEq

inductive Completion
  | returned (value : DukTval)
  | threw (error : DukTval)
  deriving DecidableEq

def Completion.value : Completion → DukTval
  | returned value => value
  | threw error => error

/-- What the scripts are at the time of a call. The functions that may throw give `none`. -/
structure Script where
  globalObject : DukTval
  globals : Bytes → Option DukTval
  isFunction : DukTval → Bool
  call : DukTval → List DukTval → Completion
  dukToString : DukTval → Option Bytes
  dukJsonEncode : DukTval → Option Bytes

@[ext] structure Context where
  stack : List DukTval
  valstackSize : ℕ
  /-- The calls that have been made. -/
  calls : List Call
  fits : stack.length ≤ valstackSize

namespace Context

def new : Context := ⟨[], 128, [], Nat.zero_le _⟩

def push (c : Context) (value : DukTval) : Option Context :=
  if h : c.stack.length < c.valstackSize then
    some { c with
      stack := c.stack ++ [value]
      fits := by rwa [List.length_append, List.length_singleton] }
  else none

def pop (c : Context) : Option Context :=
  if c.stack = [] then none
  else
    some { c with
      stack := c.stack.dropLast
      fits := by
        rw [List.length_dropLast]
        exact Nat.le_trans (Nat.sub_le _ _) c.fits }

/-- `duk_set_top(ctx, 0)`. -/
def clear (c : Context) : Context := { c with stack := [], fits := Nat.zero_le _ }

/-- `duk_get_global_string`. The global object and the key are on the stack during the
lookup. -/
def getGlobalString (js : Script) (c : Context) (key : Bytes) : Option (Context × Bool) :=
  (c.push js.globalObject).bind fun c₁ => (c₁.push (.string key)).bind fun _ =>
    (c.push ((js.globals key).getD .undefined)).map fun c₂ => (c₂, (js.globals key).isSome)

/-- `duk_pcall`. It calls the value `nargs + 1` below the top and leaves one value in place of
the function and the arguments. -/
def pcall (js : Script) (c : Context) (nargs : ℕ) : Option (Context × Completion) :=
  if h : nargs < c.stack.length then
    -- the binding of `this` takes a slot of its own
    (c.push .undefined).map fun _ =>
      let idxFunc := c.stack.length - nargs - 1
      let func := c.stack.get ⟨idxFunc, by omega⟩
      let args := c.stack.drop (idxFunc + 1)
      let result := js.call func args
      ({ c with
          stack := c.stack.take idxFunc ++ [result.value]
          calls := c.calls ++ [⟨func, args⟩]
          fits := by
            have hfits := c.fits
            rw [List.length_append, List.length_take, List.length_singleton]
            omega },
        result)
  else none

variable {c c' : Context}

theorem push_eq_some_iff {value : DukTval} :
    c.push value = some c' ↔ c'.stack = c.stack ++ [value] ∧
      c'.valstackSize = c.valstackSize ∧ c'.calls = c.calls := by
  by_cases h : c.stack.length < c.valstackSize
  · rw [push, dif_pos h, Option.some_inj]
    constructor
    · rintro rfl
      exact ⟨rfl, rfl, rfl⟩
    · rintro ⟨hstack, hsize, hcalls⟩
      exact Context.ext hstack.symm hsize.symm hcalls.symm
  · rw [push, dif_neg h]
    refine iff_of_false (by simp) ?_
    rintro ⟨hstack, hsize, _⟩
    have hfits := c'.fits
    rw [hstack, hsize, List.length_append, List.length_singleton] at hfits
    exact h hfits

theorem exists_push_iff {value : DukTval} :
    (∃ c', c.push value = some c') ↔ c.stack.length < c.valstackSize := by
  constructor
  · rintro ⟨c', h⟩
    by_contra hfull
    rw [push, dif_neg hfull] at h
    cases h
  · intro h
    exact ⟨_, dif_pos h⟩

theorem pop_eq_some_iff {below : List DukTval} {value : DukTval}
    (hstack : c.stack = below ++ [value]) :
    c.pop = some c' ↔ c'.stack = below ∧ c'.valstackSize = c.valstackSize ∧
      c'.calls = c.calls := by
  have hdrop : c.stack.dropLast = below := by rw [hstack, List.dropLast_concat]
  rw [pop, if_neg (by simp [hstack]), Option.some_inj]
  constructor
  · rintro rfl
    exact ⟨hdrop, rfl, rfl⟩
  · rintro ⟨hbelow, hsize, hcalls⟩
    exact Context.ext (hdrop.trans hbelow.symm) hsize.symm hcalls.symm

theorem getGlobalString_eq_some_iff {js : Script} {key : Bytes} {found : Bool} :
    c.getGlobalString js key = some (c', found) ↔ c.stack.length + 2 ≤ c.valstackSize ∧
      c.push ((js.globals key).getD .undefined) = some c' ∧ found = (js.globals key).isSome := by
  simp only [getGlobalString, Option.bind_eq_some_iff, Option.map_eq_some_iff, Prod.mk.injEq]
  constructor
  · rintro ⟨c₁, hglobal, c₂, hkey, c₃, hvalue, rfl, rfl⟩
    obtain ⟨hstack, hsize, _⟩ := push_eq_some_iff.mp hglobal
    have hspace := exists_push_iff.mp ⟨c₂, hkey⟩
    rw [hstack, hsize, List.length_append, List.length_singleton] at hspace
    exact ⟨hspace, hvalue, rfl⟩
  · rintro ⟨hspace, hvalue, rfl⟩
    obtain ⟨c₁, hglobal⟩ : ∃ c₁, c.push js.globalObject = some c₁ :=
      exists_push_iff.mpr (Nat.lt_of_succ_lt hspace)
    obtain ⟨hstack, hsize, _⟩ := push_eq_some_iff.mp hglobal
    have hspace₁ : c₁.stack.length < c₁.valstackSize := by
      rw [hstack, hsize, List.length_append, List.length_singleton]
      exact hspace
    obtain ⟨c₂, hkey⟩ := exists_push_iff.mpr hspace₁
    exact ⟨c₁, hglobal, c₂, hkey, c', hvalue, rfl, rfl⟩

/-- With `nargs` values above the function, it is this function that is called. -/
theorem pcall_eq_some_iff {js : Script} {below args : List DukTval} {func : DukTval}
    {result : Completion} (hstack : c.stack = below ++ func :: args) :
    c.pcall js args.length = some (c', result) ↔ c.stack.length < c.valstackSize ∧
      result = js.call func args ∧ c'.stack = below ++ [result.value] ∧
        c'.valstackSize = c.valstackSize ∧ c'.calls = c.calls ++ [⟨func, args⟩] := by
  have hlen : c.stack.length = below.length + (args.length + 1) := by
    rw [hstack, List.length_append, List.length_cons]
  have hidx : c.stack.length - args.length - 1 = below.length := by omega
  have hfunc : c.stack[c.stack.length - args.length - 1]? = some func := by
    rw [hidx, hstack]
    simp
  have hget := (List.getElem?_eq_some_iff.mp hfunc).2
  have hargs : c.stack.drop (c.stack.length - args.length - 1 + 1) = args := by
    rw [hidx, hstack, ← List.drop_drop, List.drop_left, List.drop_one, List.tail_cons]
  have htake : c.stack.take (c.stack.length - args.length - 1) = below := by
    rw [hidx, hstack, List.take_left]
  rw [pcall, dif_pos (by omega), Option.map_eq_some_iff]
  simp only [List.get_eq_getElem, hget, hargs, htake, Prod.mk.injEq, exists_and_right]
  rw [exists_push_iff]
  refine and_congr_right fun _ => ?_
  constructor
  · rintro ⟨rfl, rfl⟩
    exact ⟨rfl, rfl, rfl, rfl⟩
  · rintro ⟨rfl, hstack', hsize, hcalls⟩
    exact ⟨Context.ext hstack'.symm hsize.symm hcalls.symm, rfl⟩

end Context

end Duktape

end UnifyFramework
