import PureplayIngest.Identity.IdentityService
import PureplayIngest.Lib.Interleaving
import PureplayIngest.Webhooks.Zod

/-!
POST requests that link an identity, and the interceptor in front of them.

A request with an `Idempotency-Key` is looked up in Redis first. When there is
an entry its response is replayed; when there is none the handler runs, and the
entry is written after the answer, by a SET nobody waits for. Any number of
requests do this at once.

How the URL of a request is read is not part of the model: the path that goes
into the cache key and the user that goes to the handler are functions of it.
-/

namespace PureplayIngest.Identity

open Shared.Domain Shared.Kysely Lib Webhooks

/-- What is read from the URL of a request: the `pathname` of the URL object,
and the parameter of the route. -/
structure Router where
  pathname : String → String
  canonical_user_id : String → String

/-- `LinkBodySchema`. -/
structure LinkBody where
  vendor : Vendor
  vendor_user_id : ZString 1 255

structure LinkRequest where
  url : String
  idempotencyKey : Option String
  body : LinkBody

/-- The status and the body of a response, which is the row the link returned. -/
structure CachedResponse where
  status : ℕ
  body : VendorIdentity
  deriving DecidableEq

def maxIdempotencyKeyLength : ℕ := 128

def buildCacheKey (key path : String) : String := "idempotency:" ++ path ++ ":" ++ key

/-- The stores, and the entries `idempotency:...` of Redis. -/
structure HttpWorld extends Stores where
  responses : String → Option CachedResponse

/-- A request. Once its handler has run it is answered, and the SET of its
response may still be pending, as may the backfill of the link. -/
inductive RequestState
  | lookup (request : LinkRequest) (cacheKey : String)
  | handling (request : LinkRequest) (cacheKey : Option String) (call : LinkState)
  | answered (request : LinkRequest) (cacheKey : Option String) (response : CachedResponse)
      (pendingSet : Bool) (call : LinkState)
  | replayed (request : LinkRequest) (cacheKey : String) (response : CachedResponse)
  | badRequest (request : LinkRequest)
  | failed (request : LinkRequest)

section

variable (router : Router)

def LinkRequest.pair (request : LinkRequest) : Vendor × String :=
  (request.body.vendor, request.body.vendor_user_id.value)

/-- The call the handler makes. -/
def linkIdentity (request : LinkRequest) : LinkState :=
  .commit request.pair (router.canonical_user_id request.url) "internal-api"

/-- A request, up to its first round trip. -/
def intercept (request : LinkRequest) : RequestState :=
  match request.idempotencyKey with
  | none => .handling request none (linkIdentity router request)
  | some key =>
      if key = "" then .handling request none (linkIdentity router request)
      else if utf16Length key > maxIdempotencyKeyLength then .badRequest request
      else .lookup request (buildCacheKey key (router.pathname request.url))

/-- Where a request goes on after a step of its link. The link returns before
its backfill, and the request is then answered. -/
def afterLink (request : LinkRequest) (cacheKey : Option String) : LinkState → RequestState
  | .backfill pair canonicalUserId row =>
      .answered request cacheKey ⟨201, row⟩ cacheKey.isSome (.backfill pair canonicalUserId row)
  | call => .handling request cacheKey call

/-- The steps of a request: the GET, one of the handler, the SET, the backfill;
each of them may fail. -/
inductive RequestLabel
  | get
  | getFail
  | handler
  | handlerFail
  | set
  | setFail
  | backfill
  | backfillFail
  deriving DecidableEq

def RequestState.step (w : HttpWorld) :
    RequestState → RequestLabel → Option (HttpWorld × RequestState)
  | .lookup request cacheKey, .get =>
      match w.responses cacheKey with
      | some response => some (w, .replayed request cacheKey response)
      | none => some (w, .handling request (some cacheKey) (linkIdentity router request))
  -- Without Redis the request is let through, and its response is not cached.
  | .lookup request _, .getFail => some (w, .handling request none (linkIdentity router request))
  | .handling request cacheKey call, .handler =>
      (call.step w.toStores).map fun (stores, call) =>
        ({ w with toStores := stores }, afterLink request cacheKey call)
  | .handling request _ _, .handlerFail => some (w, .failed request)
  | .answered request (some cacheKey) response true call, .set =>
      some ({ w with responses := Function.update w.responses cacheKey (some response) },
        .answered request (some cacheKey) response false call)
  | .answered request cacheKey response true call, .setFail =>
      some (w, .answered request cacheKey response false call)
  | .answered request cacheKey response pendingSet (.backfill pair c row), .backfill =>
      some ({ w with db := backfillCanonicalUser w.db pair c },
        .answered request cacheKey response pendingSet (.finished pair c row true))
  | .answered request cacheKey response pendingSet (.backfill pair c row), .backfillFail =>
      some (w, .answered request cacheKey response pendingSet (.finished pair c row false))
  | _, _ => none

end

namespace LinkRequests

/-- An entry is removed when its time is over, and whatever else the service
does changes the tables and the other keys. -/
inductive HttpEvent
  | expire (cacheKey : String)
  | others (stores : Stores)

def event (w : HttpWorld) : HttpEvent → Option HttpWorld
  | .expire cacheKey => some { w with responses := Function.update w.responses cacheKey none }
  | .others stores => some { w with toStores := stores }

def program (router : Router) : Program ℕ HttpWorld RequestState RequestLabel HttpEvent where
  step _ w s label := s.step router w label
  env := event

abbrev Config := Lib.Config ℕ HttpWorld RequestState

abbrev Action := Lib.Action ℕ RequestState RequestLabel HttpEvent

/-- The runs from a cache without responses. -/
def system (router : Router) : System Config Action :=
  (program router).system fun w => ∀ cacheKey, w.responses cacheKey = none

/-- Requests start at their beginning. -/
def Starts (router : Router) : Action → Prop
  | .spawn _ s => ∃ request, s = intercept router request
  | _ => True

/-! ### What a step is -/

inductive Step (router : Router) (w : HttpWorld) :
    RequestState → RequestLabel → HttpWorld → RequestState → Prop
  | hit (request : LinkRequest) {cacheKey : String} {response : CachedResponse}
      (hcached : w.responses cacheKey = some response) :
      Step router w (.lookup request cacheKey) .get w (.replayed request cacheKey response)
  | miss (request : LinkRequest) {cacheKey : String} (hcached : w.responses cacheKey = none) :
      Step router w (.lookup request cacheKey) .get w
        (.handling request (some cacheKey) (linkIdentity router request))
  | uncached (request : LinkRequest) (cacheKey : String) :
      Step router w (.lookup request cacheKey) .getFail w
        (.handling request none (linkIdentity router request))
  | handler (request : LinkRequest) (cacheKey : Option String) {call call' : LinkState}
      {stores : Stores} (hcall : call.step w.toStores = some (stores, call')) :
      Step router w (.handling request cacheKey call) .handler { w with toStores := stores }
        (afterLink request cacheKey call')
  | fail (request : LinkRequest) (cacheKey : Option String) (call : LinkState) :
      Step router w (.handling request cacheKey call) .handlerFail w (.failed request)
  | set (request : LinkRequest) (cacheKey : String) (response : CachedResponse) (call : LinkState) :
      Step router w (.answered request (some cacheKey) response true call) .set
        { w with responses := Function.update w.responses cacheKey (some response) }
        (.answered request (some cacheKey) response false call)
  | setFail (request : LinkRequest) (cacheKey : Option String) (response : CachedResponse)
      (call : LinkState) :
      Step router w (.answered request cacheKey response true call) .setFail w
        (.answered request cacheKey response false call)
  | backfill (request : LinkRequest) (cacheKey : Option String) (response : CachedResponse)
      (pendingSet : Bool) (pair : Vendor × String) (c : String) (row : VendorIdentity) :
      Step router w (.answered request cacheKey response pendingSet (.backfill pair c row))
        .backfill { w with db := backfillCanonicalUser w.db pair c }
        (.answered request cacheKey response pendingSet (.finished pair c row true))
  | backfillFail (request : LinkRequest) (cacheKey : Option String) (response : CachedResponse)
      (pendingSet : Bool) (pair : Vendor × String) (c : String) (row : VendorIdentity) :
      Step router w (.answered request cacheKey response pendingSet (.backfill pair c row))
        .backfillFail w
        (.answered request cacheKey response pendingSet (.finished pair c row false))

theorem step_cases {router : Router} {w w' : HttpWorld} {s s' : RequestState}
    {label : RequestLabel} (h : s.step router w label = some (w', s')) :
    Step router w s label w' s' := by
  rw [RequestState.step.eq_def] at h
  split at h
  · split at h
    · rename_i hcached
      obtain ⟨rfl, rfl⟩ := Prod.mk.inj (Option.some.inj h)
      exact .hit _ hcached
    · rename_i hcached
      obtain ⟨rfl, rfl⟩ := Prod.mk.inj (Option.some.inj h)
      exact .miss _ hcached
  · obtain ⟨rfl, rfl⟩ := Prod.mk.inj (Option.some.inj h)
    exact .uncached _ _
  · obtain ⟨⟨stores, call'⟩, hcall, heq⟩ := Option.map_eq_some_iff.mp h
    obtain ⟨rfl, rfl⟩ := Prod.mk.inj heq
    exact .handler _ _ hcall
  · obtain ⟨rfl, rfl⟩ := Prod.mk.inj (Option.some.inj h)
    exact .fail _ _ _
  · obtain ⟨rfl, rfl⟩ := Prod.mk.inj (Option.some.inj h)
    exact .set _ _ _ _
  · obtain ⟨rfl, rfl⟩ := Prod.mk.inj (Option.some.inj h)
    exact .setFail _ _ _ _
  · obtain ⟨rfl, rfl⟩ := Prod.mk.inj (Option.some.inj h)
    exact .backfill _ _ _ _ _ _ _
  · obtain ⟨rfl, rfl⟩ := Prod.mk.inj (Option.some.inj h)
    exact .backfillFail _ _ _ _ _ _ _
  · exact absurd h (by simp)

end LinkRequests

end PureplayIngest.Identity
