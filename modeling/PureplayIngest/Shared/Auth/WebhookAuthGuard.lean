import PureplayIngest.Lib.Joined
import PureplayIngest.Lib.Utf8
import PureplayIngest.Shared.Domain.Shot
import PureplayIngest.Shared.JsString

/-!
`WebhookAuthGuard`, and what a signature that it accepts says about the request.

In hmac mode the text that is signed is the timestamp header and the body,
joined by a dot. The header is only read as far as an integer goes, so a header
with a dot of its own is accepted as well, and two requests with different
headers can have one signed text.
-/

namespace PureplayIngest.Shared.Auth

open Lib

/-- `UnauthorizedException`, and the labels under which it is counted. -/
structure Unauthorized where
  message : String
  authFailure : Option (String × String)
  deriving DecidableEq

/-- What the guard reads of a request and of its route. -/
structure WebhookRequest where
  handlerVendor : Option String
  classVendor : Option String
  headers : String → Option String
  rawBody : Option (List ℕ)

def WebhookRequest.vendor (request : WebhookRequest) : Option String :=
  request.handlerVendor.or request.classVendor

/-- An absent value and the empty string are both falsy. -/
def nonEmpty (value : Option String) : Option String := value.filter fun s => s ≠ ""

/-- `timingSafeEqual`, which is asked of buffers of equal length. -/
def sameBytes (expected provided : String) : Bool :=
  let expectedBuf := Utf8.encode expected.toList
  let providedBuf := Utf8.encode provided.toList
  expectedBuf.length = providedBuf.length && expectedBuf = providedBuf

/-- `rawBody.toString("utf8")`; a request without a body has an empty one. -/
def WebhookRequest.body (request : WebhookRequest) : List ℕ := request.rawBody.getD []

/-- The text that is signed. -/
def signedPayload (tsHeader : String) (body : List ℕ) : String :=
  tsHeader ++ "." ++ String.ofList (Utf8.decode body)

section

variable (hmac : String → String → String) (config : String → Option String) (now : ℤ)
  (request : WebhookRequest)

/-- The replay window, of five minutes to both sides. -/
def insideReplayWindow (tsHeader : String) : Bool :=
  match parseInt tsHeader with
  | none => false
  | some tsSec => (now / 1000 - tsSec).natAbs ≤ 300

def expectedSig (secret tsHeader : String) (body : List ℕ) : String :=
  "sha256=" ++ hmac secret (signedPayload tsHeader body)

def noVendor : Unauthorized := ⟨"No vendor metadata configured for this route.", none⟩

def checkHmac : Except Unauthorized Unit :=
  match nonEmpty request.vendor with
  | none => .error noVendor
  | some vendor =>
      match nonEmpty (config (vendor.toUpper ++ "_HMAC_SECRET")) with
      | none => .error ⟨"HMAC secret not configured for this vendor.", some (vendor, "hmac")⟩
      | some secret =>
          match nonEmpty (request.headers "x-webhook-timestamp"),
            nonEmpty (request.headers "x-webhook-signature") with
          | some tsHeader, some sigHeader =>
              if !insideReplayWindow now tsHeader then
                .error ⟨"Request timestamp is outside the 5-minute replay window.", none⟩
              else if !sameBytes (expectedSig hmac secret tsHeader request.body) sigHeader then
                .error ⟨"Invalid HMAC signature.", some (vendor, "hmac")⟩
              else .ok ()
          | _, _ =>
              .error ⟨"Missing X-Webhook-Timestamp or X-Webhook-Signature header.", none⟩

def checkApiKey : Except Unauthorized Unit :=
  match nonEmpty request.vendor with
  | none => .error noVendor
  | some vendor =>
      match nonEmpty (request.headers "x-webhook-auth"),
        nonEmpty (config (vendor.toUpper ++ "_API_KEY")) with
      | some providedKey, some expectedKey =>
          if !sameBytes expectedKey providedKey then
            .error ⟨"Invalid webhook authentication key.", some (vendor, "api_key")⟩
          else .ok ()
      | _, _ =>
          .error ⟨"Missing or unconfigured webhook authentication key.", some (vendor, "api_key")⟩

/-- `canActivate`; every mode but the first two is checked as `api_key`. -/
def canActivate : Except Unauthorized Unit :=
  let mode := (config "WEBHOOK_AUTH_MODE").getD "none"
  if mode = "none" then .ok ()
  else if mode = "hmac" then checkHmac hmac config now request
  else checkApiKey config request

end

/-! ### What is accepted -/

theorem nonEmpty_eq_some {value : Option String} {s : String} :
    nonEmpty value = some s ↔ value = some s ∧ s ≠ "" := by
  rw [nonEmpty, Option.filter_eq_some_iff, decide_eq_true_eq]

theorem sameBytes_iff {expected provided : String} :
    sameBytes expected provided = true ↔ provided = expected := by
  simp only [sameBytes, Bool.and_eq_true, decide_eq_true_eq]
  constructor
  · rintro ⟨_, hbytes⟩
    exact (String.toList_inj.mp (Utf8.encode_inj.mp hbytes)).symm
  · rintro rfl
    exact ⟨rfl, rfl⟩

section

variable {hmac : String → String → String} {config : String → Option String} {now : ℤ}
  {request : WebhookRequest}

/-- A request that passes in hmac mode carries the signature of its header and body. -/
theorem checkHmac_eq_ok : checkHmac hmac config now request = .ok () ↔
    ∃ vendor secret tsHeader, nonEmpty request.vendor = some vendor ∧
      nonEmpty (config (vendor.toUpper ++ "_HMAC_SECRET")) = some secret ∧
      nonEmpty (request.headers "x-webhook-timestamp") = some tsHeader ∧
      insideReplayWindow now tsHeader = true ∧
      request.headers "x-webhook-signature" =
        some (expectedSig hmac secret tsHeader request.body) := by
  rw [checkHmac]
  constructor
  · intro h
    split at h
    · exact absurd h (by simp)
    · rename_i vendor hvendor
      split at h
      · exact absurd h (by simp)
      · rename_i secret hsecret
        split at h
        · rename_i tsHeader sigHeader hts hsig
          split at h
          · exact absurd h (by simp)
          · rename_i hwindow
            split at h
            · exact absurd h (by simp)
            · rename_i hsame
              simp only [Bool.not_eq_true', Bool.not_eq_false] at hwindow hsame
              obtain rfl := sameBytes_iff.mp hsame
              exact ⟨vendor, secret, tsHeader, hvendor, hsecret, hts, hwindow,
                (nonEmpty_eq_some.mp hsig).1⟩
        · exact absurd h (by simp)
  · rintro ⟨vendor, secret, tsHeader, hvendor, hsecret, hts, hwindow, hsig⟩
    -- A header that is the expected signature is not empty.
    have hsig' : nonEmpty (request.headers "x-webhook-signature") =
        some (expectedSig hmac secret tsHeader request.body) :=
      nonEmpty_eq_some.mpr ⟨hsig, fun h => absurd (congrArg String.length h)
        (by rw [expectedSig, String.length_append]; simp)⟩
    simp only [hvendor, hsecret, hts, hsig', hwindow, sameBytes_iff.mpr rfl]
    rfl

theorem checkApiKey_eq_ok : checkApiKey config request = .ok () ↔
    ∃ vendor key, nonEmpty request.vendor = some vendor ∧
      nonEmpty (config (vendor.toUpper ++ "_API_KEY")) = some key ∧
      request.headers "x-webhook-auth" = some key := by
  rw [checkApiKey]
  constructor
  · intro h
    split at h
    · exact absurd h (by simp)
    · rename_i vendor hvendor
      split at h
      · rename_i providedKey expectedKey hprovided hexpected
        split at h
        · exact absurd h (by simp)
        · rename_i hsame
          simp only [Bool.not_eq_true', Bool.not_eq_false] at hsame
          obtain rfl := sameBytes_iff.mp hsame
          exact ⟨vendor, _, hvendor, hexpected, (nonEmpty_eq_some.mp hprovided).1⟩
      · exact absurd h (by simp)
  · rintro ⟨vendor, key, hvendor, hkey, hheader⟩
    have hheader' : nonEmpty (request.headers "x-webhook-auth") = some key :=
      nonEmpty_eq_some.mpr ⟨hheader, (nonEmpty_eq_some.mp hkey).2⟩
    simp only [hvendor, hkey, hheader', sameBytes_iff.mpr rfl]
    rfl

theorem canActivate_hmac (hmode : config "WEBHOOK_AUTH_MODE" = some "hmac") :
    canActivate hmac config now request = checkHmac hmac config now request := by
  rw [canActivate, hmode]
  rfl

end

/-! ### One signature, two requests -/

theorem signedPayload_toList (tsHeader : String) (text : List Char) :
    (signedPayload tsHeader (Utf8.encode text)).toList = tsHeader.toList ++ '.' :: text := by
  simp only [signedPayload, String.toList_append, String.toList_ofList, Utf8.decode_encode]
  rw [List.append_assoc]
  rfl

/-- The dots of the timestamp header. -/
def WebhookRequest.timestampDots (request : WebhookRequest) : ℕ :=
  ((request.headers "x-webhook-timestamp").getD "").toList.count '.'

/-- Two requests that are accepted with one signature are the same request just
when their timestamp headers have as many dots. -/
theorem same_signature_iff {hmac : String → String → String} {config : String → Option String}
    {now now' : ℤ} {request request' : WebhookRequest}
    (hinj : ∀ secret, Function.Injective (hmac secret))
    (hmode : config "WEBHOOK_AUTH_MODE" = some "hmac")
    (haccepted : canActivate hmac config now request = .ok ())
    (haccepted' : canActivate hmac config now' request' = .ok ())
    (hvendor : request.vendor = request'.vendor)
    (hsignature : request.headers "x-webhook-signature" = request'.headers "x-webhook-signature")
    {text text' : List Char} (hbody : request.body = Utf8.encode text)
    (hbody' : request'.body = Utf8.encode text') :
    (request.headers "x-webhook-timestamp" = request'.headers "x-webhook-timestamp" ∧
      request.body = request'.body) ↔ request.timestampDots = request'.timestampDots := by
  rw [canActivate_hmac hmode] at haccepted haccepted'
  obtain ⟨vendor, secret, ts, hv, hsecret, hts, _, hsig⟩ := checkHmac_eq_ok.mp haccepted
  obtain ⟨vendor', secret', ts', hv', hsecret', hts', _, hsig'⟩ := checkHmac_eq_ok.mp haccepted'
  obtain rfl := Option.some.inj (hv.symm.trans (hvendor ▸ hv'))
  obtain rfl := Option.some.inj (hsecret.symm.trans hsecret')
  have hexpected := Option.some.inj (hsig.symm.trans (hsignature.trans hsig'))
  have hpayload := hinj secret ((String.append_right_inj _).mp hexpected)
  rw [hbody, hbody', ← String.toList_inj, signedPayload_toList, signedPayload_toList] at hpayload
  obtain ⟨hts, _⟩ := nonEmpty_eq_some.mp hts
  obtain ⟨hts', _⟩ := nonEmpty_eq_some.mp hts'
  rw [WebhookRequest.timestampDots, WebhookRequest.timestampDots, hts, hts', hbody, hbody',
    Option.some_inj, Utf8.encode_inj, Option.getD_some, Option.getD_some]
  constructor
  · rintro ⟨rfl, rfl⟩
    rfl
  · intro hdots
    obtain ⟨htsList, htext⟩ := cut_of_count hdots hpayload
    exact ⟨String.toList_inj.mp htsList, htext⟩

/-! ### A body that is moved into the header -/

def demoSecret : String := "trackpro-hmac-secret-0123456789ab"

def demoBody : List Char := "\x7b\"launch_angle_deg\":12.5\x7d".toList

def demoPayload : String := "1710498600." ++ String.ofList demoBody

/-- A function without collisions that has the digest of the payload. -/
def demoHmac (_secret payload : String) : String :=
  if payload = demoPayload then "bccc05ef2fe8d3ae1c683e75963d6c19b16c665ac2c3a832fdee7f811dd74d96"
  else "-" ++ payload

def demoSignature : String :=
  "sha256=bccc05ef2fe8d3ae1c683e75963d6c19b16c665ac2c3a832fdee7f811dd74d96"

def demoConfig (key : String) : Option String :=
  if key = "WEBHOOK_AUTH_MODE" then some "hmac"
  else if key = "TRACKPRO_HMAC_SECRET" then some demoSecret
  else none

def demoRequest (tsHeader : String) (text : List Char) : WebhookRequest where
  handlerVendor := none
  classVendor := some "trackpro"
  headers key :=
    if key = "x-webhook-timestamp" then some tsHeader
    else if key = "x-webhook-signature" then some demoSignature
    else none
  rawBody := some (Utf8.encode text)

theorem demoHmac_injective (secret : String) : Function.Injective (demoHmac secret) := by
  intro payload payload' h
  have hne (p : String) :
      "bccc05ef2fe8d3ae1c683e75963d6c19b16c665ac2c3a832fdee7f811dd74d96" ≠ "-" ++ p := by
    intro h
    have hlist := congrArg String.toList h
    rw [String.toList_append] at hlist
    exact absurd (List.cons.inj hlist).1 (by decide)
  rw [demoHmac, demoHmac] at h
  split at h
  · rename_i hp
    split at h
    · rename_i hp'
      exact hp.trans hp'.symm
    · exact absurd h (hne _)
  · split at h
    · exact absurd h.symm (hne _)
    · exact (String.append_right_inj _).mp h

/-- The header takes over the part of the body up to its dot, and still begins
with the timestamp. -/
theorem signature_of_two_requests :
    ¬ ∀ (hmac : String → String → String) (config : String → Option String) (now : ℤ)
      (request request' : WebhookRequest) (text text' : List Char),
      (∀ secret, Function.Injective (hmac secret)) →
      config "WEBHOOK_AUTH_MODE" = some "hmac" →
      canActivate hmac config now request = .ok () →
      canActivate hmac config now request' = .ok () →
      request.vendor = request'.vendor →
      request.headers "x-webhook-signature" = request'.headers "x-webhook-signature" →
      request.body = Utf8.encode text → request'.body = Utf8.encode text' →
      request.headers "x-webhook-timestamp" = request'.headers "x-webhook-timestamp" ∧
        request.body = request'.body := by
  intro h
  have heq := h demoHmac demoConfig 1710498700000 (demoRequest "1710498600" demoBody)
    (demoRequest "1710498600.\x7b\"launch_angle_deg\":12" "5\x7d".toList) demoBody "5\x7d".toList
    demoHmac_injective rfl (by decide +kernel) (by decide +kernel) rfl rfl rfl rfl
  exact absurd heq.1 (by decide)

/-- The request, sent once more to a route that has its vendor from the handler. -/
def demoRepeated : WebhookRequest :=
  { demoRequest "1710498600" demoBody with handlerVendor := some "trackpro", classVendor := none }

theorem same_signature_iff_demo :
    ((demoRequest "1710498600" demoBody).headers "x-webhook-timestamp" =
        demoRepeated.headers "x-webhook-timestamp" ∧
      (demoRequest "1710498600" demoBody).body = demoRepeated.body) ↔
    (demoRequest "1710498600" demoBody).timestampDots = demoRepeated.timestampDots := by
  have haccepted : canActivate demoHmac demoConfig 1710498600000
      (demoRequest "1710498600" demoBody) = .ok () := by decide +kernel
  have hrepeated : canActivate demoHmac demoConfig 1710498660000 demoRepeated = .ok () := by
    decide +kernel
  exact same_signature_iff demoHmac_injective rfl haccepted hrepeated rfl rfl rfl rfl

end PureplayIngest.Shared.Auth
