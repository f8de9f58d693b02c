import Mathlib.Logic.Function.Basic
import Mathlib.Tactic.Common
import UnifyFramework.Transition.Run

/-!
# HTTP requests on Android

The JS thread creates an `HttpRequest`, saves its address in `s_requests` under the
text of the address, and hands the text to the Java client as the context of the
response. The looper thread looks the context up when the response arrives, posts the
callback, deletes the request and erases the context. The steps of the two threads
interleave, and an address can be allocated again as soon as the request there is
deleted.

Requests carry the number of their creation, which the program does not have. The
histories `created`, `completions` and `posted` record what was asked for, what the
client has delivered and which callbacks were posted. `overtaken` has the requests that
were saved while the looper thread was about to erase the same context.
-/

namespace UnifyFramework

namespace Network

/-- The constants `kCEHTTPRequestMethod*`. -/
inductive HttpMethod
  | get
  | post
  | put
  | delete
  deriving DecidableEq

structure HttpRequest where
  url : String
  headerData : String
  postData : String
  method : HttpMethod
  jsListener : ℕ
  deriving DecidableEq

/-- The text `%p` prints for an address. -/
def ptrString (p : ℕ) : String := "0x" ++ String.ofList (Nat.toDigits 16 p)

/-- What `SimpleHttpClient` is called with. It keeps the context until it calls
`onJniSuccess` or `onJniFailure`. -/
structure ClientCall where
  id : ℕ
  methodName : String
  url : String
  data : String
  context : String
  deriving DecidableEq

/-- The call the `http*Jni` functions make, all in the same way. -/
def httpJni (methodName : String) (id address : ℕ) (request : HttpRequest) : ClientCall :=
  ⟨id, methodName, request.url, request.postData, ptrString address⟩

def httpGetJni : ℕ → ℕ → HttpRequest → ClientCall := httpJni "get"

def httpDeleteJni : ℕ → ℕ → HttpRequest → ClientCall := httpJni "delete"

def httpPostJni : ℕ → ℕ → HttpRequest → ClientCall := httpJni "post"

def httpPutJni : ℕ → ℕ → HttpRequest → ClientCall := httpJni "put"

namespace HttpRequest

def init (url : String) (headerData postData : Option String) (method : HttpMethod)
    (jsListener : ℕ) : HttpRequest :=
  ⟨url, headerData.getD "", postData.getD "", method, jsListener⟩

/-- With another method name the fields of the request are never set. -/
def createRequest (url : String) (headerData data : Option String) (method : String)
    (jsListener : ℕ) : Option HttpRequest :=
  if method = "get" then some (init url headerData data .get jsListener)
  else if method = "delete" then some (init url headerData data .delete jsListener)
  else if method = "post" then some (init url headerData data .post jsListener)
  else if method = "put" then some (init url headerData data .put jsListener)
  else none

/-- The call to the client in `start`. -/
def start (request : HttpRequest) (id address : ℕ) : ClientCall :=
  match request.method with
  | .get => httpGetJni id address request
  | .post => httpPostJni id address request
  | .delete => httpDeleteJni id address request
  | .put => httpPutJni id address request

end HttpRequest

/-- What the client reports: `onSuccess`, or `onFailure` with a response if there was one. -/
inductive Outcome
  | success (statusCode : Int) (response : String)
  | failure (statusCode : Int) (response : Option String)
  deriving DecidableEq

/-- `onFailure` turns the status 0 of a network error into -1. -/
def Outcome.statusCode : Outcome → Int
  | .success statusCode _ => statusCode
  | .failure statusCode _ => if statusCode = 0 then -1 else statusCode

/-- `jstring2string` makes an empty text of a missing one. -/
def Outcome.response : Outcome → String
  | .success _ response => response
  | .failure _ response => response.getD ""

/-- The job `callback` posts to the engine. -/
structure PostedCallback where
  jsListener : ℕ
  statusCode : Int
  response : String
  deriving DecidableEq

structure Completion where
  id : ℕ
  outcome : Outcome
  deriving DecidableEq

/-- Where the JS thread is in `createRequest(..)->start()`. -/
inductive Starting
  | idle
  | created (id address : ℕ)
  | saved (id address : ℕ)
  deriving DecidableEq

/-- Where the looper thread is in `onJniSuccess` or `onJniFailure`. -/
inductive Completing
  | idle
  | posted (context : String) (address : ℕ)
  | freed (context : String)
  deriving DecidableEq

structure HttpState where
  /-- The live requests with their numbers. -/
  heap : ℕ → Option (ℕ × HttpRequest)
  /-- `s_requests`, with `none` for the null pointer. -/
  requests : Std.ExtTreeMap String (Option ℕ)
  starting : Starting
  completing : Completing
  /-- The calls the client has not answered yet. -/
  outstanding : List ClientCall
  created : List HttpRequest
  overtaken : List ℕ
  completions : List Completion
  posted : List PostedCallback

inductive HttpEvent
  | create (url : String) (headerData data : Option String) (method : String) (jsListener : ℕ)
      (address : ℕ)
  | save
  | call
  | complete (call : ClientCall) (outcome : Outcome)
  | free
  | erase
  deriving DecidableEq

namespace HttpState

def init : HttpState := ⟨fun _ => none, ∅, .idle, .idle, [], [], [], [], []⟩

/-- `new HttpRequest`, at any free address. -/
def allocate (s : HttpState) (request : HttpRequest) (address : ℕ) : HttpState :=
  { s with
    heap := Function.update s.heap address (some (s.created.length, request))
    created := s.created ++ [request]
    starting := .created s.created.length address }

/-- `s_requests[context] = request`. -/
def save (s : HttpState) (id address : ℕ) : HttpState :=
  { s with
    requests := s.requests.insert (ptrString address) (some address)
    starting := .saved id address
    overtaken :=
      if s.completing = .freed (ptrString address) then s.overtaken ++ [id] else s.overtaken }

/-- `CallStaticVoidMethod`. -/
def callClient (s : HttpState) (call : ClientCall) : HttpState :=
  { s with outstanding := s.outstanding ++ [call], starting := .idle }

/-- A response whose context is missing. The lookup has inserted a null pointer. -/
def drop (s : HttpState) (call : ClientCall) (outcome : Outcome) : HttpState :=
  { s with
    requests := s.requests.insert call.context none
    outstanding := s.outstanding.erase call
    completions := s.completions ++ [⟨call.id, outcome⟩] }

/-- `callbackAndCleanup` up to `delete this`. -/
def post (s : HttpState) (call : ClientCall) (outcome : Outcome) (address : ℕ)
    (request : HttpRequest) : HttpState :=
  { s with
    completing := .posted call.context address
    outstanding := s.outstanding.erase call
    completions := s.completions ++ [⟨call.id, outcome⟩]
    posted := s.posted ++ [⟨request.jsListener, outcome.statusCode, outcome.response⟩] }

/-- `delete this`. -/
def free (s : HttpState) (context : String) (address : ℕ) : HttpState :=
  { s with heap := Function.update s.heap address none, completing := .freed context }

/-- `s_requests.erase(ctx)`. -/
def erase (s : HttpState) (context : String) : HttpState :=
  { s with requests := s.requests.erase context, completing := .idle }

/-- The steps of the two threads. `onJniSuccess` and `onJniFailure` differ in the name of
the text only. -/
def step (s : HttpState) : HttpEvent → Option HttpState
  | .create url headerData data method jsListener address =>
      if s.starting = .idle ∧ address ≠ 0 ∧ s.heap address = none then
        (HttpRequest.createRequest url headerData data method jsListener).map fun request =>
          s.allocate request address
      else none
  | .save =>
      match s.starting with
      | .created id address => some (s.save id address)
      | _ => none
  | .call =>
      match s.starting with
      | .saved id address =>
          (s.heap address).map fun request => s.callClient (request.2.start id address)
      | _ => none
  | .complete call outcome =>
      if s.completing = .idle ∧ call ∈ s.outstanding then
        match (s.requests[call.context]?).join with
        | none => some (s.drop call outcome)
        | some address =>
            (s.heap address).map fun request => s.post call outcome address request.2
      else none
  | .free =>
      match s.completing with
      | .posted context address => some (s.free context address)
      | _ => none
  | .erase =>
      match s.completing with
      | .freed context => some (s.erase context)
      | _ => none

def callbackOf (s : HttpState) (c : Completion) : Option PostedCallback :=
  (s.created[c.id]?).map fun request =>
    ⟨request.jsListener, c.outcome.statusCode, c.outcome.response⟩

def Delivered (s : HttpState) : Prop :=
  (s.completions.map Completion.id).Nodup ∧
    s.posted.map some = s.completions.map s.callbackOf

instance (s : HttpState) : Decidable s.Delivered := inferInstanceAs (Decidable (_ ∧ _))

end HttpState

theorem digitChar_injective {a b : ℕ} (ha : a < 16) (hb : b < 16)
    (h : a.digitChar = b.digitChar) : a = b := by
  have hall : ∀ a b : Fin 16, Nat.digitChar a = Nat.digitChar b → a = b := by decide
  exact Fin.mk.inj (hall ⟨a, ha⟩ ⟨b, hb⟩ h)

theorem toDigits_injective (m n : ℕ) (h : Nat.toDigits 16 m = Nat.toDigits 16 n) : m = n := by
  have hshort : ∀ (k : ℕ) (c d : Char), Nat.toDigits 16 k ++ [c] ≠ [d] := by
    intro k c d hc
    have hlen := congrArg List.length hc
    simp [Nat.toDigits_ne_nil] at hlen
  induction m using Nat.strongRecOn generalizing n with
  | _ m ih =>
      rw [Nat.toDigits_eq_if (b := 16) (n := m) (by decide),
        Nat.toDigits_eq_if (b := 16) (n := n) (by decide)] at h
      split_ifs at h with hm hn hn
      · exact digitChar_injective hm hn (List.singleton_inj.mp h)
      · exact absurd h.symm (hshort _ _ _)
      · exact absurd h (hshort _ _ _)
      · obtain ⟨hdiv, hmod⟩ := List.append_inj' h rfl
        have hdiv' := ih (m / 16) (by omega) (n / 16) hdiv
        have hmod' := digitChar_injective (Nat.mod_lt m (by decide)) (Nat.mod_lt n (by decide))
          (List.singleton_inj.mp hmod)
        omega

theorem ptrString_injective : Function.Injective ptrString := by
  intro m n h
  exact toDigits_injective m n (String.ofList_inj.mp ((String.append_right_inj _).mp h))

end Network

end UnifyFramework
