import PureplayIngest.Webhooks.Zod

/-!
`envSchema` and `validate`: the settings that are read from the environment.

`Number` is a parameter. A setting that passed its own check carries what was
checked; what is checked across settings, in production only, is `superRefine`.
-/

namespace PureplayIngest.Config

open Shared.Domain Webhooks

abbrev Environment := String → Option String

inductive NodeEnv
  | development
  | production
  | test
  deriving DecidableEq

def NodeEnv.toString : NodeEnv → String
  | .development => "development"
  | .production => "production"
  | .test => "test"

inductive WebhookAuthMode
  | none
  | api_key
  | hmac
  deriving DecidableEq

def WebhookAuthMode.toString : WebhookAuthMode → String
  | .none => "none"
  | .api_key => "api_key"
  | .hmac => "hmac"

/-- `z.string().min(lo)`. -/
structure MinString (lo : ℕ) where
  value : String
  min : lo ≤ utf16Length value

structure Env where
  NODE_ENV : NodeEnv
  DATABASE_URL : MinString 1
  REDIS_URL : MinString 1
  PORT : ZInt 1 65535
  WEBHOOK_AUTH_MODE : WebhookAuthMode
  TRACKPRO_API_KEY : Option (MinString 1)
  SWINGMETRIC_API_KEY : Option (MinString 1)
  PROSWING_API_KEY : Option (MinString 1)
  QUEUE_NAME : MinString 1
  MAX_QUEUE_DEPTH : ZInt 1 maxSafeInteger
  WORKER_CONCURRENCY : ZInt 1 64
  RUN_MIGRATIONS : Bool
  OTEL_SERVICE_NAME : String
  OTEL_EXPORTER_OTLP_ENDPOINT : Option String
  DB_POOL_MAX : ZInt 1 100
  CORS_ORIGIN : String
  TRACKPRO_HMAC_SECRET : Option (MinString 1)
  SWINGMETRIC_HMAC_SECRET : Option (MinString 1)
  PROSWING_HMAC_SECRET : Option (MinString 1)
  THROTTLE_ENABLED : Bool
  INTERNAL_API_KEY : Option (MinString 32)

/-! ### Single settings

A check returns `none` where the value is rejected. -/

def enum {α : Type} (name : α → String) (values : List α) (default : α) : Option String → Option α
  | .none => some default
  | some text => values.find? fun value => name value = text

/-- `z.enum(["true", "false"]).transform((v) => v === "true")`. -/
def boolean (default : Bool) (value : Option String) : Option Bool :=
  enum (fun b : Bool => if b then "true" else "false") [true, false] default value

def minString (lo : ℕ) (text : String) : Option (MinString lo) :=
  if h : lo ≤ utf16Length text then some ⟨text, h⟩ else none

def required (lo : ℕ) (value : Option String) : Option (MinString lo) := value.bind (minString lo)

def optional (lo : ℕ) : Option String → Option (Option (MinString lo))
  | .none => some none
  | some text => (minString lo text).map some

/-- `z.coerce.number().int().min(lo).max(hi)`. -/
def coerceInt (number : String → Option ℚ) {lo hi : ℤ} (default : ZInt lo hi) :
    Option String → Option (ZInt lo hi)
  | .none => some default
  | some text =>
      (number text).bind fun x =>
        if h : x.den = 1 ∧ lo ≤ x.num ∧ x.num ≤ hi then some ⟨x.num, h.2.1, h.2.2⟩ else none

/-! ### Across settings -/

structure Issue where
  path : String
  message : String
  deriving DecidableEq

def issueIf (p : Bool) (path message : String) : List Issue := if p then [⟨path, message⟩] else []

/-- The settings of a mode, by their names. -/
def Env.apiKeys (data : Env) : List (String × Option (MinString 1)) :=
  [("TRACKPRO_API_KEY", data.TRACKPRO_API_KEY), ("SWINGMETRIC_API_KEY", data.SWINGMETRIC_API_KEY),
    ("PROSWING_API_KEY", data.PROSWING_API_KEY)]

def Env.hmacSecrets (data : Env) : List (String × Option (MinString 1)) :=
  [("TRACKPRO_HMAC_SECRET", data.TRACKPRO_HMAC_SECRET),
    ("SWINGMETRIC_HMAC_SECRET", data.SWINGMETRIC_HMAC_SECRET),
    ("PROSWING_HMAC_SECRET", data.PROSWING_HMAC_SECRET)]

/-- `val !== undefined && val.length < 32`. -/
def tooShort (val : Option (MinString 1)) : Bool := val.any fun v => utf16Length v.value < 32

/-- What is asked of the settings of the mode: that there is one, and that each is long enough. -/
def secretIssues (mode : String) (secrets : List (String × Option (MinString 1))) : List Issue :=
  issueIf (!secrets.any fun secret => secret.2.isSome) "WEBHOOK_AUTH_MODE"
      ("WEBHOOK_AUTH_MODE=" ++ mode ++ " requires at least one of " ++
        ", ".intercalate (secrets.map (·.1)) ++ " to be set.") ++
    secrets.flatMap fun secret =>
      issueIf (tooShort secret.2) secret.1
        (secret.1 ++ " must be at least 32 characters in production.")

def superRefine (data : Env) : List Issue :=
  if data.NODE_ENV = .production then
    issueIf (data.WEBHOOK_AUTH_MODE = .none) "WEBHOOK_AUTH_MODE"
        "WEBHOOK_AUTH_MODE cannot be \"none\" in production. Set to \"api_key\" or \"hmac\"." ++
      (if data.WEBHOOK_AUTH_MODE = .api_key then secretIssues "api_key" data.apiKeys else []) ++
      (if data.WEBHOOK_AUTH_MODE = .hmac then secretIssues "hmac" data.hmacSecrets else []) ++
      issueIf (!data.THROTTLE_ENABLED) "THROTTLE_ENABLED"
        "THROTTLE_ENABLED cannot be false in production." ++
      issueIf (!data.INTERNAL_API_KEY.isSome) "INTERNAL_API_KEY"
        ("INTERNAL_API_KEY must be set (min 32 chars) in production to protect query " ++
          "endpoints.") ++
      issueIf (data.CORS_ORIGIN = "*") "CORS_ORIGIN"
        ("CORS_ORIGIN cannot be \"*\" in production. Set to your portal origin " ++
          "(e.g. https://app.example.com).")
  else []

/-! ### The schema -/

section

variable (number : String → Option ℚ) (env : Environment)

def envObject : Option Env := do
  return {
    NODE_ENV := ← enum NodeEnv.toString [.development, .production, .test] .development
      (env "NODE_ENV")
    DATABASE_URL := ← required 1 (env "DATABASE_URL")
    REDIS_URL := ← required 1 (env "REDIS_URL")
    PORT := ← coerceInt number ⟨3000, of_decide_eq_true rfl, of_decide_eq_true rfl⟩ (env "PORT")
    WEBHOOK_AUTH_MODE := ← enum WebhookAuthMode.toString [.none, .api_key, .hmac] .none
      (env "WEBHOOK_AUTH_MODE")
    TRACKPRO_API_KEY := ← optional 1 (env "TRACKPRO_API_KEY")
    SWINGMETRIC_API_KEY := ← optional 1 (env "SWINGMETRIC_API_KEY")
    PROSWING_API_KEY := ← optional 1 (env "PROSWING_API_KEY")
    QUEUE_NAME := ← required 1 (some ((env "QUEUE_NAME").getD "shot-ingestion"))
    MAX_QUEUE_DEPTH := ← coerceInt number ⟨10000, of_decide_eq_true rfl, of_decide_eq_true rfl⟩
      (env "MAX_QUEUE_DEPTH")
    WORKER_CONCURRENCY := ← coerceInt number ⟨16, of_decide_eq_true rfl, of_decide_eq_true rfl⟩
      (env "WORKER_CONCURRENCY")
    RUN_MIGRATIONS := ← boolean false (env "RUN_MIGRATIONS")
    OTEL_SERVICE_NAME := (env "OTEL_SERVICE_NAME").getD "pureplay-analytics-ingest"
    OTEL_EXPORTER_OTLP_ENDPOINT := env "OTEL_EXPORTER_OTLP_ENDPOINT"
    DB_POOL_MAX := ← coerceInt number ⟨20, of_decide_eq_true rfl, of_decide_eq_true rfl⟩
      (env "DB_POOL_MAX")
    CORS_ORIGIN := (env "CORS_ORIGIN").getD "*"
    TRACKPRO_HMAC_SECRET := ← optional 1 (env "TRACKPRO_HMAC_SECRET")
    SWINGMETRIC_HMAC_SECRET := ← optional 1 (env "SWINGMETRIC_HMAC_SECRET")
    PROSWING_HMAC_SECRET := ← optional 1 (env "PROSWING_HMAC_SECRET")
    THROTTLE_ENABLED := ← boolean true (env "THROTTLE_ENABLED")
    INTERNAL_API_KEY := ← optional 32 (env "INTERNAL_API_KEY") }

def formatted (issues : List Issue) : String :=
  "Environment validation failed:\n" ++
    "\n".intercalate (issues.map fun issue => "  " ++ issue.path ++ ": " ++ issue.message)

/-- The error of `validate`; what it says of single settings is the library's text. -/
inductive EnvironmentError
  | settings
  | refined (message : String)
  deriving DecidableEq

def validate : Except EnvironmentError Env :=
  match envObject number env with
  | none => .error .settings
  | some data =>
      if superRefine data = [] then .ok data
      else .error (.refined (formatted (superRefine data)))

end

/-- What the guards can ask of the settings, as strings. -/
def Env.get (data : Env) (key : String) : Option String :=
  ((data.apiKeys ++ data.hmacSecrets).lookup key).elim
    (if key = "WEBHOOK_AUTH_MODE" then some data.WEBHOOK_AUTH_MODE.toString
      else if key = "INTERNAL_API_KEY" then data.INTERNAL_API_KEY.map (·.value)
      else none)
    fun secret => secret.map (·.value)

/-! ### What a validated environment says -/

section

variable {number : String → Option ℚ} {env : Environment} {data : Env}

theorem enum_eq_some {α : Type} {name : α → String} {values : List α} {default value : α}
    {text : String} (h : enum name values default (some text) = some value) :
    name value = text := by
  simpa using List.find?_some h

/-- A value that is not the default one was set. -/
theorem setting_of_enum {α : Type} {name : α → String} {values : List α} {default value : α}
    {setting : Option String} (h : enum name values default setting = some value)
    (hne : value ≠ default) : setting = some (name value) := by
  cases setting with
  | none => exact absurd (Option.some.inj h).symm hne
  | some text => rw [enum_eq_some h]

theorem optional_eq_some {lo : ℕ} {setting : Option String} {value : MinString lo}
    (h : optional lo setting = some (some value)) : setting = some value.value := by
  cases setting with
  | none => exact absurd h (by simp [optional])
  | some text =>
      obtain ⟨parsed, hparsed, heq⟩ := Option.map_eq_some_iff.mp h
      obtain rfl := Option.some.inj heq
      rw [minString] at hparsed
      split at hparsed
      · exact congrArg some (congrArg MinString.value (Option.some.inj hparsed))
      · exact absurd hparsed (by simp)

/-- The settings that access depends on, as they are read. -/
structure Reads (env : Environment) (data : Env) : Prop where
  NODE_ENV : enum NodeEnv.toString [.development, .production, .test] .development
    (env "NODE_ENV") = some data.NODE_ENV
  WEBHOOK_AUTH_MODE : enum WebhookAuthMode.toString [.none, .api_key, .hmac] .none
    (env "WEBHOOK_AUTH_MODE") = some data.WEBHOOK_AUTH_MODE
  secrets : ∀ secret ∈ data.apiKeys ++ data.hmacSecrets, optional 1 (env secret.1) = some secret.2
  INTERNAL_API_KEY : optional 32 (env "INTERNAL_API_KEY") = some data.INTERNAL_API_KEY

theorem envObject_reads (h : envObject number env = some data) : Reads env data := by
  rw [envObject] at h
  obtain ⟨nodeEnv, hnode, h⟩ := Option.bind_eq_some_iff.mp h
  obtain ⟨_, _, h⟩ := Option.bind_eq_some_iff.mp h
  obtain ⟨_, _, h⟩ := Option.bind_eq_some_iff.mp h
  obtain ⟨_, _, h⟩ := Option.bind_eq_some_iff.mp h
  obtain ⟨mode, hmode, h⟩ := Option.bind_eq_some_iff.mp h
  obtain ⟨trackpro, htrackpro, h⟩ := Option.bind_eq_some_iff.mp h
  obtain ⟨swingmetric, hswingmetric, h⟩ := Option.bind_eq_some_iff.mp h
  obtain ⟨proswing, hproswing, h⟩ := Option.bind_eq_some_iff.mp h
  obtain ⟨_, _, h⟩ := Option.bind_eq_some_iff.mp h
  obtain ⟨_, _, h⟩ := Option.bind_eq_some_iff.mp h
  obtain ⟨_, _, h⟩ := Option.bind_eq_some_iff.mp h
  obtain ⟨_, _, h⟩ := Option.bind_eq_some_iff.mp h
  obtain ⟨_, _, h⟩ := Option.bind_eq_some_iff.mp h
  obtain ⟨trackpro', htrackpro', h⟩ := Option.bind_eq_some_iff.mp h
  obtain ⟨swingmetric', hswingmetric', h⟩ := Option.bind_eq_some_iff.mp h
  obtain ⟨proswing', hproswing', h⟩ := Option.bind_eq_some_iff.mp h
  obtain ⟨_, _, h⟩ := Option.bind_eq_some_iff.mp h
  obtain ⟨key, hkey, h⟩ := Option.bind_eq_some_iff.mp h
  obtain rfl := Option.some.inj h
  refine ⟨hnode, hmode, ?_, hkey⟩
  simp only [Env.apiKeys, Env.hmacSecrets, List.cons_append, List.nil_append, List.forall_mem_cons]
  exact ⟨htrackpro, hswingmetric, hproswing, htrackpro', hswingmetric', hproswing', by simp⟩

theorem validate_eq_ok :
    validate number env = .ok data ↔ envObject number env = some data ∧ superRefine data = [] := by
  rw [validate]
  cases henv : envObject number env with
  | none => simp
  | some parsed =>
      show (if superRefine parsed = [] then Except.ok parsed else _) = _ ↔ _
      split
      · rename_i hnil
        constructor
        · intro h
          obtain rfl := Except.ok.inj h
          exact ⟨rfl, hnil⟩
        · rintro ⟨heq, _⟩
          rw [Option.some.inj heq]
      · rename_i hissues
        constructor
        · intro h
          exact absurd h (by simp)
        · rintro ⟨heq, hnil⟩
          obtain rfl := Option.some.inj heq
          exact absurd hnil hissues

theorem issueIf_eq_nil {p : Bool} {path message : String} :
    issueIf p path message = [] ↔ p = false := by
  cases p <;> simp [issueIf]

theorem tooShort_of_secretIssues {mode : String} {secrets : List (String × Option (MinString 1))}
    (h : secretIssues mode secrets = []) {secret : String × Option (MinString 1)}
    (hmem : secret ∈ secrets) : tooShort secret.2 = false :=
  issueIf_eq_nil.mp (List.flatMap_eq_nil_iff.mp (List.append_eq_nil_iff.mp h).2 secret hmem)

/-- What the checks across settings leave in production. -/
structure Refined (data : Env) : Prop where
  mode : data.WEBHOOK_AUTH_MODE ≠ .none
  apiKeys : data.WEBHOOK_AUTH_MODE = .api_key → ∀ secret ∈ data.apiKeys, tooShort secret.2 = false
  hmacSecrets : data.WEBHOOK_AUTH_MODE = .hmac →
    ∀ secret ∈ data.hmacSecrets, tooShort secret.2 = false
  internal : data.INTERNAL_API_KEY.isSome

theorem refined_of_superRefine (hprod : data.NODE_ENV = .production) (h : superRefine data = []) :
    Refined data := by
  rw [superRefine, if_pos hprod] at h
  simp only [List.append_eq_nil_iff, issueIf_eq_nil, decide_eq_false_iff_not,
    Bool.not_eq_false'] at h
  obtain ⟨⟨⟨⟨⟨hmode, hkeys⟩, hsecrets⟩, _⟩, hinternal⟩, _⟩ := h
  refine ⟨hmode, fun hapi secret hmem => ?_, fun hhmac secret hmem => ?_, hinternal⟩
  · rw [if_pos hapi] at hkeys
    exact tooShort_of_secretIssues hkeys hmem
  · rw [if_pos hhmac] at hsecrets
    exact tooShort_of_secretIssues hsecrets hmem

end

end PureplayIngest.Config
