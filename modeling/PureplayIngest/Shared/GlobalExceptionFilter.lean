import PureplayIngest.Shared.Auth.WebhookAuthGuard
import PureplayIngest.Shots.ShotsService

/-!
`GlobalExceptionFilter`: what is thrown, and the reply that is made of it.

A reply names its problem twice, by `error_code` and by a URN in `type`, which
is the code in lower case with dashes.
-/

namespace PureplayIngest.Shared

open Domain Auth Shots

/-! ### What is thrown -/

/-- `domainErrorToHttp`. -/
def domainErrorToHttp (err : DomainError) : ℕ × String :=
  if err.code = "INVALID_CURSOR" ∨ err.code = "PAYLOAD_VALIDATION_FAILED" then (400, err.code)
  else if err.code = "NOT_FOUND" then (404, "NOT_FOUND")
  else (500, "INTERNAL_ERROR")

structure Issue where
  path : String
  code : String
  message : String

/-- `getResponse()` of an `HttpException`. -/
inductive ExceptionResponse
  | text (message : String)
  | object (error_code message : Option String) (issues : Option (List Issue))
      (retryAfter : Option ℕ)

structure HttpException where
  status : ℕ
  response : ExceptionResponse

inductive Thrown
  | domain (error : DomainError)
  | http (exception : HttpException)
  | other (message : String)

def unauthorizedException (message : String) : Thrown :=
  .http ⟨401, .object none (some message) none none⟩

def internalServerErrorException (message : String) : Thrown :=
  .http ⟨500, .object none (some message) none none⟩

/-- What `ZodValidationPipe` and `ProswingValidationPipe` throw. -/
def validationFailed (issues : List Issue) : Thrown :=
  .http ⟨400, .object (some "PAYLOAD_VALIDATION_FAILED")
    (some "Request payload validation failed.") (some issues) none⟩

def clockSkewExcessive : Thrown :=
  .http ⟨422, .object (some "CLOCK_SKEW_EXCESSIVE")
    (some <| "captured_at is outside the allowed ingestion window (max 24h past, 5min future).")
    none none⟩

/-- The queue is full, for a shot or for a batch. -/
def serviceUnavailable (message : String) : Thrown :=
  .http ⟨503, .object (some "SERVICE_UNAVAILABLE") (some message) none (some 30)⟩

def thrownOf : JsError → Thrown
  | .rangeError message => .other message
  | .internalServerError message => internalServerErrorException message

/-! ### The reply -/

structure ProblemDetails where
  type : String
  error_code : String
  title : String
  status : ℕ
  correlation_id : String
  issues : Option (List Issue)

structure Reply where
  status : ℕ
  retryAfter : Option String
  body : ProblemDetails

def dashed (ch : Char) : Char := if ch = '_' then '-' else ch

/-- `urn:problem:` and the code, in lower case and with dashes. -/
def problemType (errorCode : String) : String :=
  "urn:problem:" ++ String.ofList ((toLowerCase errorCode).toList.map dashed)

def buildProblem (status : ℕ) (errorCode title correlationId : String)
    (issues : Option (List Issue)) : ProblemDetails where
  type := problemType errorCode
  error_code := errorCode
  title := title
  status := status
  correlation_id := correlationId
  issues := issues

def mapStatusToCode (status : ℕ) : String :=
  match status with
  | 400 => "PAYLOAD_VALIDATION_FAILED"
  | 401 => "UNAUTHORIZED"
  | 404 => "NOT_FOUND"
  | 409 => "CONFLICT"
  | 415 => "UNSUPPORTED_MEDIA_TYPE"
  | 422 => "UNPROCESSABLE_ENTITY"
  | 429 => "TOO_MANY_REQUESTS"
  | 503 => "SERVICE_UNAVAILABLE"
  | _ => "INTERNAL_ERROR"

/-- Code, title, issues and `retryAfter` of an `HttpException`; empty strings
are as good as absent. -/
def HttpException.parts (exception : HttpException) :
    String × String × Option (List Issue) × Option ℕ :=
  match exception.response with
  | .text message => (mapStatusToCode exception.status, message, none, none)
  | .object error_code message issues retryAfter =>
      ((nonEmpty error_code).getD (mapStatusToCode exception.status),
        (nonEmpty message).getD "An error occurred.", issues, retryAfter)

/-- `catch`. The correlation id is that of the request's header, or of the
request itself. -/
def reply (correlationId : String) : Thrown → Reply
  | .domain error =>
      let (status, errorCode) := domainErrorToHttp error
      ⟨status, none, buildProblem status errorCode error.message correlationId none⟩
  | .http exception =>
      let (errorCode, title, issues, retryAfter) := exception.parts
      ⟨exception.status, retryAfter.map toString,
        buildProblem exception.status errorCode title correlationId issues⟩
  | .other _ =>
      ⟨500, none, buildProblem 500 "INTERNAL_ERROR" "An unexpected error occurred." correlationId
        none⟩

end PureplayIngest.Shared
