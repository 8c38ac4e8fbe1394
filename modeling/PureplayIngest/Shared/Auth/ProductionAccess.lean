import PureplayIngest.Config.EnvSchema
import PureplayIngest.Shared.Auth.WebhookAuthGuard

/-!
`InternalApiGuard`, and what the two guards let through in production.

Both guards let a request through when their own setting is missing: the one of
the vendors in the mode `none`, the internal one without a key. Neither can be
the case in an environment that is accepted for production; a vendor that has
no secret there is refused by the guard itself.
-/

namespace PureplayIngest.Shared.Auth

open Domain Config Webhooks

/-- `authHeader?.startsWith("Bearer ") ? authHeader.slice(7) : undefined`. -/
def bearerToken (authHeader : Option String) : Option String :=
  authHeader.bind fun header =>
    if "Bearer ".toList.isPrefixOf header.toList then some (String.ofList (header.toList.drop 7))
    else none

namespace InternalApiGuard

/-- `canActivate`; without a key every request is let through, with a warning. -/
def canActivate (config : String → Option String) (headers : String → Option String) :
    Except Unauthorized Unit :=
  match nonEmpty (config "INTERNAL_API_KEY") with
  | none => .ok ()
  | some key =>
      match nonEmpty (bearerToken (headers "authorization")) with
      | none => .error ⟨"Authorization: Bearer <INTERNAL_API_KEY> header is required for this " ++
          "endpoint.", none⟩
      | some provided =>
          if !sameBytes key provided then .error ⟨"Invalid internal API key.", none⟩ else .ok ()

end InternalApiGuard

/-- The route of a vendor's controller. -/
def vendorRoute (vendor : Vendor) (headers : String → Option String) (rawBody : Option (List ℕ)) :
    WebhookRequest where
  handlerVendor := none
  classVendor := some vendor.toString
  headers := headers
  rawBody := rawBody

def apiKeyName : Vendor → String
  | .trackpro => "TRACKPRO_API_KEY"
  | .swingmetric => "SWINGMETRIC_API_KEY"
  | .proswing => "PROSWING_API_KEY"

def hmacSecretName : Vendor → String
  | .trackpro => "TRACKPRO_HMAC_SECRET"
  | .swingmetric => "SWINGMETRIC_HMAC_SECRET"
  | .proswing => "PROSWING_HMAC_SECRET"

/-- A setting of at least 32 characters. -/
def Configured (env : Environment) (name secret : String) : Prop :=
  env name = some secret ∧ 32 ≤ utf16Length secret

def CarriesKey (env : Environment) (vendor : Vendor) (headers : String → Option String) : Prop :=
  ∃ key, Configured env (apiKeyName vendor) key ∧ headers "x-webhook-auth" = some key

def CarriesSignature (hmac : String → String → String) (env : Environment) (now : ℤ)
    (vendor : Vendor) (headers : String → Option String) (rawBody : Option (List ℕ)) : Prop :=
  ∃ secret tsHeader tsSec, Configured env (hmacSecretName vendor) secret ∧
    headers "x-webhook-timestamp" = some tsHeader ∧ parseInt tsHeader = some tsSec ∧
    (now / 1000 - tsSec).natAbs ≤ 300 ∧
    headers "x-webhook-signature" =
      some (expectedSig hmac secret tsHeader (vendorRoute vendor headers rawBody).body)

def CarriesBearer (env : Environment) (headers : String → Option String) : Prop :=
  ∃ key, Configured env "INTERNAL_API_KEY" key ∧ headers "authorization" = some ("Bearer " ++ key)

/-! ### The settings of a vendor -/

def apiKeyOf (data : Env) : Vendor → Option (MinString 1)
  | .trackpro => data.TRACKPRO_API_KEY
  | .swingmetric => data.SWINGMETRIC_API_KEY
  | .proswing => data.PROSWING_API_KEY

def hmacSecretOf (data : Env) : Vendor → Option (MinString 1)
  | .trackpro => data.TRACKPRO_HMAC_SECRET
  | .swingmetric => data.SWINGMETRIC_HMAC_SECRET
  | .proswing => data.PROSWING_HMAC_SECRET

theorem vendor_apiKeyName (vendor : Vendor) :
    vendor.toString.toUpper ++ "_API_KEY" = apiKeyName vendor := by
  cases vendor <;> decide +kernel

theorem vendor_hmacSecretName (vendor : Vendor) :
    vendor.toString.toUpper ++ "_HMAC_SECRET" = hmacSecretName vendor := by
  cases vendor <;> decide +kernel

section

variable {data : Env} {env : Environment} {vendor : Vendor}

theorem mem_apiKeys : (apiKeyName vendor, apiKeyOf data vendor) ∈ data.apiKeys := by
  cases vendor <;> simp [Env.apiKeys, apiKeyName, apiKeyOf]

theorem mem_hmacSecrets : (hmacSecretName vendor, hmacSecretOf data vendor) ∈ data.hmacSecrets := by
  cases vendor <;> simp [Env.hmacSecrets, hmacSecretName, hmacSecretOf]

theorem get_apiKey :
    data.get (vendor.toString.toUpper ++ "_API_KEY") =
      (apiKeyOf data vendor).map (·.value) := by
  rw [vendor_apiKeyName]
  cases vendor <;> rfl

theorem get_hmacSecret :
    data.get (vendor.toString.toUpper ++ "_HMAC_SECRET") =
      (hmacSecretOf data vendor).map (·.value) := by
  rw [vendor_hmacSecretName]
  cases vendor <;> rfl

/-- A setting that is read and long enough is configured. -/
theorem configured_of_reads (hreads : Reads env data) {name secret : String}
    {setting : Option (MinString 1)} (hmem : (name, setting) ∈ data.apiKeys ++ data.hmacSecrets)
    (hlong : tooShort setting = false) (hsecret : setting.map (·.value) = some secret) :
    Configured env name secret := by
  obtain ⟨value, rfl, rfl⟩ := Option.map_eq_some_iff.mp hsecret
  refine ⟨optional_eq_some (hreads.secrets _ hmem), ?_⟩
  simpa [tooShort] using hlong

end

/-! ### What is let through -/

section

variable {hmac : String → String → String} {data : Env} {env : Environment} {vendor : Vendor}
  {headers : String → Option String} {rawBody : Option (List ℕ)} {now : ℤ}

theorem vendorRoute_vendor : nonEmpty (vendorRoute vendor headers rawBody).vendor =
    some vendor.toString := by
  refine nonEmpty_eq_some.mpr ⟨rfl, ?_⟩
  cases vendor <;> decide

theorem carriesKey_of_checkApiKey (hreads : Reads env data)
    (hlong : ∀ secret ∈ data.apiKeys, tooShort secret.2 = false)
    (h : checkApiKey data.get (vendorRoute vendor headers rawBody) = .ok ()) :
    CarriesKey env vendor headers := by
  obtain ⟨name, key, hname, hkey, hheader⟩ := checkApiKey_eq_ok.mp h
  obtain rfl := Option.some.inj (vendorRoute_vendor.symm.trans hname)
  rw [get_apiKey] at hkey
  exact ⟨key, configured_of_reads hreads (List.mem_append_left _ mem_apiKeys)
    (hlong _ mem_apiKeys) (nonEmpty_eq_some.mp hkey).1, hheader⟩

theorem carriesSignature_of_checkHmac (hreads : Reads env data)
    (hlong : ∀ secret ∈ data.hmacSecrets, tooShort secret.2 = false)
    (h : checkHmac hmac data.get now (vendorRoute vendor headers rawBody) = .ok ()) :
    CarriesSignature hmac env now vendor headers rawBody := by
  obtain ⟨name, secret, tsHeader, hname, hsecret, hts, hwindow, hsig⟩ := checkHmac_eq_ok.mp h
  obtain rfl := Option.some.inj (vendorRoute_vendor.symm.trans hname)
  rw [get_hmacSecret] at hsecret
  rw [insideReplayWindow] at hwindow
  split at hwindow
  · exact absurd hwindow (by simp)
  · rename_i tsSec hparse
    exact ⟨secret, tsHeader, tsSec, configured_of_reads hreads
      (List.mem_append_right _ mem_hmacSecrets) (hlong _ mem_hmacSecrets)
      (nonEmpty_eq_some.mp hsecret).1, (nonEmpty_eq_some.mp hts).1, hparse,
      of_decide_eq_true hwindow, hsig⟩

theorem bearerToken_eq_some {authHeader : Option String} {token : String}
    (h : bearerToken authHeader = some token) : authHeader = some ("Bearer " ++ token) := by
  obtain ⟨header, rfl, hheader⟩ := Option.bind_eq_some_iff.mp h
  split at hheader
  · rename_i hprefix
    obtain ⟨rest, hrest⟩ := List.isPrefixOf_iff_prefix.mp hprefix
    obtain rfl := Option.some.inj hheader
    have hdrop : header.toList.drop 7 = rest := by
      rw [← hrest]
      rfl
    refine congrArg some (String.toList_inj.mp ?_)
    rw [hdrop, String.toList_append, String.toList_ofList (l := rest)]
    exact hrest.symm
  · exact absurd hheader (by simp)

theorem carriesBearer_of_canActivate (hreads : Reads env data)
    (hinternal : data.INTERNAL_API_KEY.isSome)
    (h : InternalApiGuard.canActivate data.get headers = .ok ()) : CarriesBearer env headers := by
  obtain ⟨key, hkey⟩ := Option.isSome_iff_exists.mp hinternal
  have hget : nonEmpty (data.get "INTERNAL_API_KEY") = some key.value := by
    refine nonEmpty_eq_some.mpr ⟨?_, fun hempty => ?_⟩
    · show data.INTERNAL_API_KEY.map (·.value) = _
      rw [hkey]
      rfl
    · have hmin := key.min
      rw [hempty] at hmin
      exact absurd hmin (by decide)
  rw [InternalApiGuard.canActivate, hget] at h
  have hread := hreads.INTERNAL_API_KEY
  rw [hkey] at hread
  split at h
  · rename_i hnone
    exact absurd hnone (by simp)
  · rename_i expected hexpected
    obtain rfl := Option.some.inj hexpected
    split at h
    · exact absurd h (by simp)
    · rename_i provided hprovided
      split at h
      · exact absurd h (by simp)
      · rename_i hsame
        simp only [Bool.not_eq_true', Bool.not_eq_false] at hsame
        obtain rfl := sameBytes_iff.mp hsame
        exact ⟨key.value, ⟨optional_eq_some hread, key.min⟩,
          bearerToken_eq_some (nonEmpty_eq_some.mp hprovided).1⟩

/-- Production fails closed: in an environment that is accepted for it, no guard
lets a request through without the secret that is configured for its route. -/
theorem production_fails_closed {number : String → Option ℚ}
    (hvalid : validate number env = .ok data) (hprod : env "NODE_ENV" = some "production") :
    (∀ vendor headers rawBody now,
      canActivate hmac data.get now (vendorRoute vendor headers rawBody) = .ok () →
        env "WEBHOOK_AUTH_MODE" = some "api_key" ∧ CarriesKey env vendor headers ∨
        env "WEBHOOK_AUTH_MODE" = some "hmac" ∧
          CarriesSignature hmac env now vendor headers rawBody) ∧
      ∀ headers, InternalApiGuard.canActivate data.get headers = .ok () →
        CarriesBearer env headers := by
  obtain ⟨hobject, hrefine⟩ := validate_eq_ok.mp hvalid
  have hreads := envObject_reads hobject
  have hnode := hreads.NODE_ENV
  rw [hprod] at hnode
  have hproduction : data.NODE_ENV = .production := by
    have hname := enum_eq_some hnode
    cases hmode : data.NODE_ENV <;> simp [hmode, NodeEnv.toString] at hname ⊢
  have hrefined := refined_of_superRefine hproduction hrefine
  refine ⟨fun vendor headers rawBody now h => ?_, fun headers h =>
    carriesBearer_of_canActivate hreads hrefined.internal h⟩
  have hmodeRead := hreads.WEBHOOK_AUTH_MODE
  have hget : data.get "WEBHOOK_AUTH_MODE" = some data.WEBHOOK_AUTH_MODE.toString := rfl
  -- The refinement has refused the mode without any check.
  rw [canActivate, hget] at h
  cases hmode : data.WEBHOOK_AUTH_MODE with
  | none => exact absurd hmode hrefined.mode
  | api_key =>
      rw [hmode] at h hmodeRead
      exact .inl ⟨setting_of_enum hmodeRead (by decide),
        carriesKey_of_checkApiKey hreads (hrefined.apiKeys hmode) h⟩
  | hmac =>
      rw [hmode] at h hmodeRead
      exact .inr ⟨setting_of_enum hmodeRead (by decide),
        carriesSignature_of_checkHmac hreads (hrefined.hmacSecrets hmode) h⟩

end

/-! ### An environment with one vendor -/

def demoKey : String := "trackpro-api-key-0123456789abcdef"

def demoInternalKey : String := "internal-api-key-0123456789abcdef"

/-- Only one vendor has a key. -/
def demoEnv (key : String) : Option String :=
  [("NODE_ENV", "production"), ("DATABASE_URL", "postgresql://localhost:5432/ingest"),
    ("REDIS_URL", "redis://localhost:6379"), ("WEBHOOK_AUTH_MODE", "api_key"),
    ("TRACKPRO_API_KEY", demoKey), ("CORS_ORIGIN", "https://app.example.com"),
    ("INTERNAL_API_KEY", demoInternalKey)].lookup key

def demoHeaders (key : String) : Option String :=
  [("x-webhook-auth", demoKey), ("authorization", "Bearer " ++ demoInternalKey)].lookup key

/-- The vendor with a key and the internal routes are open to those who have
the keys, and the other vendors are closed. -/
theorem production_fails_closed_demo : ∃ data, validate (fun _ => none) demoEnv = .ok data ∧
    CarriesKey demoEnv .trackpro demoHeaders ∧ CarriesBearer demoEnv demoHeaders ∧
    canActivate demoHmac data.get 1710498600000 (vendorRoute .proswing demoHeaders none) ≠
      .ok () := by
  have hchecks : (validate (fun _ => none) demoEnv).toOption.map (fun data =>
      (canActivate demoHmac data.get 1710498600000 (vendorRoute .trackpro demoHeaders none),
        InternalApiGuard.canActivate data.get demoHeaders,
        canActivate demoHmac data.get 1710498600000 (vendorRoute .proswing demoHeaders none))) =
      some (.ok (), .ok (), .error ⟨"Missing or unconfigured webhook authentication key.",
        some ("proswing", "api_key")⟩) := by decide +kernel
  obtain ⟨data, hdata, hall⟩ := Option.map_eq_some_iff.mp hchecks
  obtain ⟨hvendor, hrest⟩ := Prod.mk.inj hall
  obtain ⟨hinternal, hclosed⟩ := Prod.mk.inj hrest
  have hvalid : validate (fun _ => none) demoEnv = .ok data := by
    cases hv : validate (fun _ => none) demoEnv with
    | error e => rw [hv] at hdata; exact absurd hdata (by simp [Except.toOption])
    | ok data' =>
        rw [hv] at hdata
        exact congrArg Except.ok (Option.some.inj hdata)
  have hopen := @production_fails_closed demoHmac data demoEnv _ hvalid rfl
  refine ⟨data, hvalid, ?_, hopen.2 _ hinternal, by simp [hclosed]⟩
  obtain ⟨_, hkey⟩ | ⟨hmode, _⟩ := hopen.1 _ _ _ _ hvendor
  · exact hkey
  · exact absurd hmode (by decide)

end PureplayIngest.Shared.Auth
