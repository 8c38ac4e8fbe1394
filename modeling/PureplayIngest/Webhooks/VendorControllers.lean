import PureplayIngest.Ingestion.ShotIngestionQueue
import PureplayIngest.Shared.Auth.ProductionAccess
import PureplayIngest.Shared.GlobalExceptionFilter
import PureplayIngest.Webhooks.DateRange
import PureplayIngest.Webhooks.PayloadSchemas

/-!
The controllers of the three vendors: a request from its guard to its first
look at the queue.

A request is refused by the guard, by the schema, by the parser or by the check
of the times, in this order, and each has its own status. What is left is
enqueued: a single shot at once, a batch after a check of the capacity.
-/

namespace PureplayIngest.Webhooks

open Shared Shared.Auth Shared.Domain Ingestion

/-- What the controllers call that is not part of the model, and the settings. -/
structure WebhookDeps where
  hmac : String → String → String
  sha256 : String → String
  config : String → Option String
  issues : Option Json → List Issue

/-- A request, what the platform has made of it, and the random numbers and the
times that are taken while it is handled. -/
structure HttpRequest where
  vendor : Vendor
  headers : String → Option String
  rawBody : List ℕ
  body : Option Json
  uuid : String
  ulid : ℕ → String
  guardedAt : ℤ
  receivedAt : ℤ

/-- The id Fastify gives to a request. -/
def HttpRequest.genReqId (request : HttpRequest) : String :=
  (request.headers "x-correlation-id").getD request.uuid

/-- `RequestIdInterceptor`, which sets the header for all that comes later. -/
def HttpRequest.correlationId (request : HttpRequest) : String :=
  (request.headers "x-correlation-id").getD request.genReqId

/-! ### The controllers -/

/-- `receive` of a vendor that sends single shots. -/
def receiveShot (parsed : Except JsError (List NormalisedShot)) (correlationId : String)
    (receivedAtUtc : ℤ) : Except Thrown WebhookState :=
  match parsed with
  | .error e => .error (thrownOf e)
  | .ok [] => .error (.other "Cannot read properties of undefined (reading 'captured_at_utc')")
  | .ok (shot :: _) =>
      if hasExcessiveClockSkew shot.captured_at_utc receivedAtUtc then .error clockSkewExcessive
      else .ok (.enqueuing [.check ⟨shot.vendor, shot, correlationId, receivedAtUtc⟩])

def TrackproController.receive (sha256 : String → String) (request : HttpRequest)
    (payload : TrackproPayload) : Except Thrown WebhookState :=
  receiveShot (parseTrackpro sha256 request.ulid payload request.receivedAt) request.correlationId
    request.receivedAt

def ProswingController.receive (sha256 : String → String) (request : HttpRequest)
    (payload : ProswingCanonicalPayload) : Except Thrown WebhookState :=
  receiveShot (parseProswing sha256 request.ulid payload request.receivedAt) request.correlationId
    request.receivedAt

def SwingmetricController.receive (sha256 : String → String) (request : HttpRequest)
    (payload : SwingmetricPayload) : Except Thrown WebhookState :=
  match parseSwingmetric sha256 request.ulid payload request.receivedAt with
  | .error e => .error (thrownOf e)
  | .ok shots =>
      if shots.any fun shot => hasExcessiveClockSkew shot.captured_at_utc request.receivedAt then
        .error clockSkewExcessive
      else .ok (.checkBatchCapacity (shots.map fun shot =>
        ⟨shot.vendor, shot, request.correlationId, request.receivedAt⟩))

/-- The body as the vendor's pipe passes it on. -/
def piped {α : Type} (deps : WebhookDeps) (request : HttpRequest) (schema : Schema α)
    (receive : α → Except Thrown WebhookState) : Except Thrown WebhookState :=
  match schema request.body with
  | none => .error (validationFailed (deps.issues request.body))
  | some payload => receive payload

/-- `ProswingValidationPipe`; a request without a body has none of the formats. -/
def ProswingValidationPipe : Schema ProswingCanonicalPayload
  | none => none
  | some raw => parseProswingRaw raw

/-- A request up to its first look at the queue. -/
def handle (deps : WebhookDeps) (request : HttpRequest) : Except Thrown WebhookState :=
  match canActivate deps.hmac deps.config request.guardedAt
      (vendorRoute request.vendor request.headers (some request.rawBody)) with
  | .error e => .error (unauthorizedException e.message)
  | .ok () =>
      match request.vendor with
      | .trackpro =>
          piped deps request TrackproPayloadSchema (TrackproController.receive deps.sha256 request)
      | .swingmetric =>
          piped deps request SwingmetricPayloadSchema
            (SwingmetricController.receive deps.sha256 request)
      | .proswing =>
          piped deps request ProswingValidationPipe
            (ProswingController.receive deps.sha256 request)

/-! ### What becomes of a request -/

/-- The body is one that its vendor's schema accepts. -/
inductive Accepts : Vendor → Option Json → AcceptedBody → Prop
  | trackpro {body : Option Json} {payload : TrackproPayload}
      (h : TrackproPayloadSchema body = some payload) :
      Accepts .trackpro body (.trackpro payload)
  | swingmetric {body : Option Json} {payload : SwingmetricPayload}
      (h : SwingmetricPayloadSchema body = some payload) :
      Accepts .swingmetric body (.swingmetric payload)
  | proswing {raw : Json} {payload : ProswingCanonicalPayload}
      (h : parseProswingRaw raw = some payload) :
      Accepts .proswing (some raw) (.proswing raw payload h)

/-- The times of the shots, as the vendor gives them. -/
def AcceptedBody.times : AcceptedBody → List ℤ
  | .trackpro payload => [payload.captured_at.timeValue]
  | .swingmetric payload => payload.shots.map fun shot => shot.ts_ms.value
  | .proswing _ payload _ => [payload.shot.occurred_at.timeValue]

/-- No more than a day before, and no more than five minutes after. -/
def InWindow (receivedAt t : ℤ) : Prop := receivedAt - 86400000 ≤ t ∧ t ≤ receivedAt + 300000

/-- The guard lets the request through. -/
def Authentic (deps : WebhookDeps) (request : HttpRequest) : Prop :=
  canActivate deps.hmac deps.config request.guardedAt
    (vendorRoute request.vendor request.headers (some request.rawBody)) = .ok ()

/-- `receive` of the vendor's controller. -/
def receive (sha256 : String → String) (request : HttpRequest) :
    AcceptedBody → Except Thrown WebhookState
  | .trackpro payload => TrackproController.receive sha256 request payload
  | .swingmetric payload => SwingmetricController.receive sha256 request payload
  | .proswing _ payload _ => ProswingController.receive sha256 request payload

/-- The job a shot is enqueued with. -/
def HttpRequest.job (request : HttpRequest) (shot : NormalisedShot) : ShotJob :=
  ⟨shot.vendor, shot, request.correlationId, request.receivedAt⟩

/-- How the jobs of a body are enqueued. -/
def AcceptedBody.enqueue (jobs : List ShotJob) : AcceptedBody → WebhookState
  | .swingmetric _ => .checkBatchCapacity jobs
  | _ => .enqueuing (jobs.map .check)

section

variable {deps : WebhookDeps} {sha256 : String → String} {ulid : ℕ → String}
  {request : HttpRequest} {body body' : AcceptedBody} {receivedAt t : ℤ}
  {shots : List NormalisedShot}

theorem hasExcessiveClockSkew_eq_false :
    hasExcessiveClockSkew t receivedAt = false ↔ InWindow receivedAt t := by
  rw [hasExcessiveClockSkew, decide_eq_false_iff_not, InWindow]
  omega

/-- The parser keeps the times and the order of the shots. -/
theorem parse_times (h : body.parse sha256 ulid receivedAt = .ok shots) :
    shots.map (·.captured_at_utc) = body.times := by
  cases body with
  | trackpro payload =>
      rw [parseTrackpro_ok h]
      rfl
  | swingmetric payload =>
      have hall := parseShots_ok h
      rw [AcceptedBody.times]
      clear h
      generalize payload.shots = batch at hall ⊢
      induction hall with
      | nil => rfl
      | cons hfirst _ ih =>
          obtain ⟨k, rfl⟩ := hfirst
          rw [List.map_cons, List.map_cons, ih]
          rfl
  | proswing raw payload accepted =>
      rw [parseProswing_ok h]
      rfl

theorem proswingAccepted_of_raw {raw : Json} {payload : ProswingCanonicalPayload}
    (h : parseProswingRaw raw = some payload) : ∃ p : ProswingAccepted, p.canonical = payload := by
  rw [parseProswingRaw] at h
  split at h
  · obtain ⟨p, _, rfl⟩ := Option.map_eq_some_iff.mp h
    exact ⟨.v3 p, rfl⟩
  · obtain ⟨p, _, rfl⟩ := Option.map_eq_some_iff.mp h
    exact ⟨.v2 p, rfl⟩
  · obtain ⟨p, _, rfl⟩ := Option.map_eq_some_iff.mp h
    exact ⟨.v1 p, rfl⟩

theorem parserProduced_of_parse {shot : NormalisedShot}
    (h : body.parse sha256 ulid receivedAt = .ok shots) (hshot : shot ∈ shots) :
    ParserProduced sha256 shot := by
  cases body with
  | trackpro payload => exact ⟨.trackpro payload, ulid, receivedAt, shots, h, hshot⟩
  | swingmetric payload => exact ⟨.swingmetric payload, ulid, receivedAt, shots, h, hshot⟩
  | proswing raw payload accepted =>
      obtain ⟨p, rfl⟩ := proswingAccepted_of_raw accepted
      exact ⟨.proswing p, ulid, receivedAt, shots, h, hshot⟩

theorem parseShots_error {payload : SwingmetricPayload} {batch : List SwingmetricShot}
    {e : JsError} (h : parseShots sha256 payload receivedAt ulid batch = .error e) :
    e = .rangeError "Invalid time value" := by
  induction batch generalizing ulid with
  | nil => exact absurd h (by simp [parseShots])
  | cons shot batch ih =>
      rw [parseShots] at h
      cases hfirst : parseSingleShot sha256 (ulid 0) shot payload receivedAt with
      | error e' =>
          rw [hfirst] at h
          rw [parseSingleShot, toISOString] at hfirst
          by_cases hrange : -maxTimeValue ≤ shot.ts_ms.value ∧ shot.ts_ms.value ≤ maxTimeValue
          · rw [if_pos hrange] at hfirst
            exact absurd hfirst (by simp)
          · rw [if_neg hrange] at hfirst
            cases hfirst
            cases h
            rfl
      | ok first =>
          cases hrest : parseShots sha256 payload receivedAt (fun k => ulid (k + 1)) batch with
          | error e' =>
              rw [hfirst, hrest] at h
              cases h
              exact ih hrest
          | ok rest =>
              rw [hfirst, hrest] at h
              exact absurd h (by simp [Except.map])

/-- A parser throws when a time is out of the range of dates, and only then. -/
theorem parse_cases (sha256 : String → String) (ulid : ℕ → String) (receivedAt : ℤ)
    (body : AcceptedBody) :
    (body.InDateRange ∧ ∃ shots, body.parse sha256 ulid receivedAt = .ok shots) ∨
      ¬ body.InDateRange ∧
        body.parse sha256 ulid receivedAt = .error (.rangeError "Invalid time value") := by
  cases body with
  | trackpro payload => exact .inl ⟨trivial, _, parseTrackpro_eq sha256 ulid payload receivedAt⟩
  | swingmetric payload =>
      by_cases hrange : (AcceptedBody.swingmetric payload).InDateRange
      · exact .inl ⟨hrange, parseShots_ok_iff.mpr hrange⟩
      · refine .inr ⟨hrange, ?_⟩
        rw [AcceptedBody.parse]
        cases hparse : parseSwingmetric sha256 ulid payload receivedAt with
        | error e => rw [parseShots_error hparse]
        | ok shots => exact absurd (parseShots_ok_iff.mp ⟨shots, hparse⟩) hrange
  | proswing raw payload accepted =>
      refine .inl ⟨trivial, ?_⟩
      rw [AcceptedBody.parse, parseProswing_eq, payload.shot.occurred_at.toISOString_timeValue]
      exact ⟨_, rfl⟩

theorem accepts_unique (h : Accepts request.vendor request.body body)
    (h' : Accepts request.vendor request.body body') : body = body' := by
  generalize request.vendor = vendor at h h'
  generalize request.body = json at h h'
  cases h with
  | trackpro h =>
      cases h' with
      | trackpro h' => rw [Option.some.inj (h.symm.trans h')]
  | swingmetric h =>
      cases h' with
      | swingmetric h' => rw [Option.some.inj (h.symm.trans h')]
  | proswing h =>
      cases h' with
      | proswing h' =>
          obtain rfl := Option.some.inj (h.symm.trans h')
          rfl

theorem receive_of_ok (h : body.parse sha256 request.ulid request.receivedAt = .ok shots) :
    receive sha256 request body =
      if shots.any fun shot => hasExcessiveClockSkew shot.captured_at_utc request.receivedAt then
        .error clockSkewExcessive
      else .ok (body.enqueue (shots.map request.job)) := by
  cases body with
  | trackpro payload =>
      obtain rfl := parseTrackpro_ok h
      rw [receive, TrackproController.receive, parseTrackpro_eq, receiveShot, List.any_cons,
        List.any_nil, Bool.or_false]
      rfl
  | swingmetric payload =>
      rw [AcceptedBody.parse] at h
      rw [receive, SwingmetricController.receive, h]
      rfl
  | proswing raw payload accepted =>
      rw [AcceptedBody.parse] at h
      rw [receive, ProswingController.receive, h]
      obtain rfl := parseProswing_ok h
      rw [receiveShot, List.any_cons, List.any_nil, Bool.or_false]
      rfl

theorem receive_of_error {e : JsError}
    (h : body.parse sha256 request.ulid request.receivedAt = .error e) :
    receive sha256 request body = .error (thrownOf e) := by
  cases body with
  | trackpro payload =>
      rw [AcceptedBody.parse] at h
      rw [receive, TrackproController.receive, h, receiveShot]
  | swingmetric payload =>
      rw [AcceptedBody.parse] at h
      rw [receive, SwingmetricController.receive, h]
  | proswing raw payload accepted =>
      rw [AcceptedBody.parse] at h
      rw [receive, ProswingController.receive, h, receiveShot]

theorem any_skewed_iff (h : body.parse sha256 ulid receivedAt = .ok shots) :
    (shots.any fun shot => hasExcessiveClockSkew shot.captured_at_utc receivedAt) = false ↔
      ∀ t ∈ body.times, InWindow receivedAt t := by
  rw [← parse_times h, List.forall_mem_map, List.any_eq_false]
  refine forall₂_congr fun shot _ => ?_
  rw [Bool.not_eq_true]
  exact hasExcessiveClockSkew_eq_false

/-! ### The guard and the pipe -/

theorem handle_of_unauthentic (h : ¬ Authentic deps request) :
    ∃ message, handle deps request = .error (unauthorizedException message) := by
  rw [Authentic] at h
  rw [handle]
  cases hguard : canActivate deps.hmac deps.config request.guardedAt
      (vendorRoute request.vendor request.headers (some request.rawBody)) with
  | error e => exact ⟨e.message, rfl⟩
  | ok => exact absurd hguard h

theorem handle_of_rejected (hauthentic : Authentic deps request)
    (h : ∀ body, ¬ Accepts request.vendor request.body body) :
    handle deps request = .error (validationFailed (deps.issues request.body)) := by
  rw [handle, hauthentic]
  generalize request.vendor = vendor at h
  cases vendor with
  | trackpro =>
      cases hschema : TrackproPayloadSchema request.body with
      | none => simp only [piped, hschema]
      | some payload => exact absurd (.trackpro hschema) (h _)
  | swingmetric =>
      cases hschema : SwingmetricPayloadSchema request.body with
      | none => simp only [piped, hschema]
      | some payload => exact absurd (.swingmetric hschema) (h _)
  | proswing =>
      cases hbody : request.body with
      | none => simp only [piped, hbody, ProswingValidationPipe]
      | some raw =>
          rw [hbody] at h
          cases hschema : parseProswingRaw raw with
          | none => simp only [piped, hbody, ProswingValidationPipe, hschema]
          | some payload => exact absurd (.proswing hschema) (h _)

theorem handle_of_accepted (hauthentic : Authentic deps request)
    (h : Accepts request.vendor request.body body) :
    handle deps request = receive deps.sha256 request body := by
  rw [handle, hauthentic]
  generalize request.vendor = vendor at h
  generalize hbody : request.body = json at h
  cases h with
  | trackpro h => simp only [piped, hbody, h, receive]
  | swingmetric h => simp only [piped, hbody, h, receive]
  | proswing h => simp only [piped, hbody, ProswingValidationPipe, h, receive]

/-- A body within the window goes to the queue. -/
theorem handle_of_window (hauthentic : Authentic deps request)
    (h : Accepts request.vendor request.body body) (hdate : body.InDateRange)
    (hwindow : ∀ t ∈ body.times, InWindow request.receivedAt t) :
    ∃ shots, body.parse deps.sha256 request.ulid request.receivedAt = .ok shots ∧
      handle deps request = .ok (body.enqueue (shots.map request.job)) := by
  obtain ⟨_, shots, hparse⟩ | ⟨hrange, _⟩ :=
    parse_cases deps.sha256 request.ulid request.receivedAt body
  · refine ⟨shots, hparse, ?_⟩
    rw [handle_of_accepted hauthentic h, receive_of_ok hparse, (any_skewed_iff hparse).mpr hwindow]
    rfl
  · exact absurd hdate hrange

/-! ### The status of the answer -/

/-- The status the controller answers a request with; 202 where it is for the
queue to say whether there is room. -/
def status (deps : WebhookDeps) (request : HttpRequest) : ℕ :=
  match handle deps request with
  | .error thrown => (reply request.correlationId thrown).status
  | .ok _ => 202

/-- What a request is, and the status that goes with it. -/
inductive Verdict (deps : WebhookDeps) (request : HttpRequest) : ℕ → Prop
  | unauthorized (hguard : ¬ Authentic deps request) : Verdict deps request 401
  | invalid (hguard : Authentic deps request)
      (hschema : ∀ body, ¬ Accepts request.vendor request.body body) : Verdict deps request 400
  | noDate {body : AcceptedBody} (hguard : Authentic deps request)
      (hschema : Accepts request.vendor request.body body) (hdate : ¬ body.InDateRange) :
      Verdict deps request 500
  | skewed {body : AcceptedBody} {t : ℤ} (hguard : Authentic deps request)
      (hschema : Accepts request.vendor request.body body) (hdate : body.InDateRange)
      (htime : t ∈ body.times) (hout : ¬ InWindow request.receivedAt t) : Verdict deps request 422
  | accepted {body : AcceptedBody} (hguard : Authentic deps request)
      (hschema : Accepts request.vendor request.body body) (hdate : body.InDateRange)
      (hwindow : ∀ t ∈ body.times, InWindow request.receivedAt t) : Verdict deps request 202

theorem Verdict.status_eq {n : ℕ} (h : Verdict deps request n) : status deps request = n := by
  rw [status]
  cases h with
  | unauthorized hguard =>
      obtain ⟨message, hhandle⟩ := handle_of_unauthentic hguard
      rw [hhandle]
      rfl
  | invalid hguard hschema =>
      rw [handle_of_rejected hguard hschema]
      rfl
  | @noDate body hguard hschema hdate =>
      rw [handle_of_accepted hguard hschema]
      obtain ⟨hrange, _⟩ | ⟨_, hparse⟩ :=
        parse_cases deps.sha256 request.ulid request.receivedAt body
      · exact absurd hrange hdate
      · rw [receive_of_error hparse]
        rfl
  | @skewed body t hguard hschema hdate htime hout =>
      rw [handle_of_accepted hguard hschema]
      obtain ⟨_, shots, hparse⟩ | ⟨hrange, _⟩ :=
        parse_cases deps.sha256 request.ulid request.receivedAt body
      · have hskew := mt (any_skewed_iff hparse).mp fun hall => hout (hall t htime)
        rw [receive_of_ok hparse, if_pos (Bool.not_eq_false _ ▸ hskew)]
        rfl
      · exact absurd hdate hrange
  | accepted hguard hschema hdate hwindow =>
      obtain ⟨shots, _, hhandle⟩ := handle_of_window hguard hschema hdate hwindow
      rw [hhandle]

theorem exists_verdict (deps : WebhookDeps) (request : HttpRequest) :
    ∃ n, Verdict deps request n := by
  by_cases hguard : Authentic deps request
  · by_cases hschema : ∃ body, Accepts request.vendor request.body body
    · obtain ⟨body, hschema⟩ := hschema
      by_cases hdate : body.InDateRange
      · by_cases hwindow : ∀ t ∈ body.times, InWindow request.receivedAt t
        · exact ⟨202, .accepted hguard hschema hdate hwindow⟩
        · push Not at hwindow
          obtain ⟨t, htime, hout⟩ := hwindow
          exact ⟨422, .skewed hguard hschema hdate htime hout⟩
      · exact ⟨500, .noDate hguard hschema hdate⟩
    · exact ⟨400, .invalid hguard (not_exists.mp hschema)⟩
  · exact ⟨401, .unauthorized hguard⟩

/-- Every request is one of these. -/
theorem verdict_status (deps : WebhookDeps) (request : HttpRequest) :
    Verdict deps request (status deps request) := by
  obtain ⟨n, hverdict⟩ := exists_verdict deps request
  rw [hverdict.status_eq]
  exact hverdict

/-- The controllers themselves do not answer 202 where they refuse. -/
theorem Verdict.ne_accepted {n : ℕ} {thrown : Thrown} (h : Verdict deps request n)
    (hhandle : handle deps request = .error thrown) : n ≠ 202 := by
  rintro rfl
  cases h with
  | accepted hguard hschema hdate hwindow =>
      obtain ⟨shots, _, hok⟩ := handle_of_window hguard hschema hdate hwindow
      exact absurd (hok.symm.trans hhandle) (by simp)

/-- What goes into the queue: the shots of a body that was accepted, all of
them within the window. -/
theorem handle_ok {s : WebhookState} (h : handle deps request = .ok s) :
    ∃ body shots, Authentic deps request ∧ Accepts request.vendor request.body body ∧
      body.parse deps.sha256 request.ulid request.receivedAt = .ok shots ∧
      (∀ shot ∈ shots, InWindow request.receivedAt shot.captured_at_utc) ∧
      s = body.enqueue (shots.map request.job) := by
  have hstatus : status deps request = 202 := by rw [status, h]
  have hverdict := verdict_status deps request
  rw [hstatus] at hverdict
  cases hverdict with
  | @accepted body hguard hschema hdate hwindow =>
      obtain ⟨shots, hparse, hok⟩ := handle_of_window hguard hschema hdate hwindow
      rw [← parse_times hparse, List.forall_mem_map] at hwindow
      exact ⟨body, shots, hguard, hschema, hparse, hwindow, Except.ok.inj (h.symm.trans hok)⟩

end

end PureplayIngest.Webhooks
