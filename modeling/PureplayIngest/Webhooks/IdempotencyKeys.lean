import PureplayIngest.Lib.Joined
import PureplayIngest.Webhooks.Parsed
import Std.Data.String.ToNat

/-!
Which shots their idempotency key identifies.

A key is a vendor prefix and one or two ids of the vendor's, joined with `|`,
and the schemas do not keep `|` out of an id. A shot's key belongs to no other
shot of the vendor exactly when its two ids are joined unambiguously: no `|`
inside them splits the joined text into two ids the schema would accept too.
-/

namespace PureplayIngest.Webhooks

open Shared Shared.Domain Ingestion Lib

/-- The strings of `z.string().min(1).max(255)`. -/
def IsId (chars : List Char) : Prop :=
  1 ≤ utf16Length (String.ofList chars) ∧ utf16Length (String.ofList chars) ≤ 255

/-- No `|` inside the two ids can be taken for the one that joins them. -/
def Unambiguous (first second : String) : Prop :=
  OneCut (fun a b => IsId a ∧ IsId b) '|' first.toList second.toList

theorem ZString.isId (s : ZString 1 255) : IsId s.value.toList := by
  unfold IsId
  rw [String.ofList_toList]
  exact ⟨s.min, s.max⟩

/-- An id with the given characters. -/
def idOfChars (chars : List Char) (h : IsId chars) : ZString 1 255 :=
  ⟨String.ofList chars, h.1, h.2⟩

theorem separator_not_mem_digits (n : ℕ) : '|' ∉ (toString n).toList :=
  fun h => absurd (isDigit_toString h) (by decide)

/-! ### SwingMetric -/

theorem toNat_timeBucket (ts : ZInt 0 maxSafeInteger) :
    ((timeBucket ts.value).toNat : ℤ) = timeBucket ts.value := by
  have := ts.min
  unfold timeBucket
  omega

theorem swingmetricKey_toList (payload : SwingmetricPayload) (shot : SwingmetricShot) :
    (payload.idempotencyKey shot).toList =
      ['s', 'm', '|'] ++ ((payload.player.id.value.toList ++ '|' :: payload.device.value.toList) ++
        '|' :: (toString (timeBucket shot.ts_ms.value).toNat).toList) := by
  have hbucket : toString (timeBucket shot.ts_ms.value) =
      toString (timeBucket shot.ts_ms.value).toNat := by
    conv_lhs => rw [← toNat_timeBucket shot.ts_ms]
    rfl
  rw [SwingmetricPayload.idempotencyKey, hbucket]
  simp only [String.toList_append, List.append_assoc, List.cons_append, List.nil_append]
  rfl

/-- The keys agree when the seconds do and the joined ids do. -/
theorem swingmetricKey_eq_iff {payload payload' : SwingmetricPayload}
    {shot shot' : SwingmetricShot} :
    payload'.idempotencyKey shot' = payload.idempotencyKey shot ↔
      payload'.player.id.value.toList ++ '|' :: payload'.device.value.toList =
        payload.player.id.value.toList ++ '|' :: payload.device.value.toList ∧
      timeBucket shot'.ts_ms.value = timeBucket shot.ts_ms.value := by
  rw [← String.toList_inj, swingmetricKey_toList, swingmetricKey_toList, List.append_right_inj]
  constructor
  · intro h
    obtain ⟨hids, hdigits⟩ :=
      cut_last (separator_not_mem_digits _) (separator_not_mem_digits _) h
    have hnat := Nat.repr_injective (String.toList_inj.mp hdigits)
    rw [← toNat_timeBucket shot'.ts_ms, hnat, toNat_timeBucket]
    exact ⟨hids, rfl⟩
  · rintro ⟨hids, hbucket⟩
    rw [hids, hbucket]

/-- The batch with one shot, for another player and device. -/
def oneShotBatch (payload : SwingmetricPayload) (shot : SwingmetricShot)
    (player device : ZString 1 255) : SwingmetricPayload where
  session_id := payload.session_id
  player := { id := player, email := none }
  device := device
  shots := [shot]
  shots_min := le_rfl
  shots_max := by simp

/-- The SwingMetric shots with the key of a given one are from the same
player, device and second. -/
def SwingmetricKeyIdentifies (sha256 : String → String) (payload : SwingmetricPayload)
    (shot : SwingmetricShot) (parsed : NormalisedShot) : Prop :=
  ∀ (payload' : SwingmetricPayload) (shot' : SwingmetricShot) (ulid' : String)
    (receivedAtUtc' : ℤ) (parsed' : NormalisedShot), shot' ∈ payload'.shots →
    parseSingleShot sha256 ulid' shot' payload' receivedAtUtc' = .ok parsed' →
    parsed'.idempotency_key = parsed.idempotency_key →
    payload'.player.id.value = payload.player.id.value ∧
      payload'.device.value = payload.device.value ∧
      timeBucket shot'.ts_ms.value = timeBucket shot.ts_ms.value

theorem swingmetricKeyIdentifies_iff {sha256 : String → String} {payload : SwingmetricPayload}
    {shot : SwingmetricShot} {ulid : String} {receivedAtUtc : ℤ} {parsed : NormalisedShot}
    (hparse : parseSingleShot sha256 ulid shot payload receivedAtUtc = .ok parsed) :
    SwingmetricKeyIdentifies sha256 payload shot parsed ↔
      Unambiguous payload.player.id.value payload.device.value := by
  have hkey : parsed.idempotency_key = payload.idempotencyKey shot := by
    rw [parseSingleShot_ok hparse]
    rfl
  constructor
  · intro h
    refine oneCut_iff.mpr fun a b ⟨ha, hb⟩ hjoin => ?_
    -- The other cut is the key of a batch with this shot, so it is the same cut.
    obtain ⟨parsed', hparse'⟩ : ∃ parsed',
        parseSingleShot sha256 ulid shot (oneShotBatch payload shot (idOfChars a ha)
          (idOfChars b hb)) receivedAtUtc = .ok parsed' := by
      unfold parseSingleShot at hparse ⊢
      cases hiso : toISOString shot.ts_ms.value with
      | error e => simp [hiso] at hparse
      | ok captured => exact ⟨_, rfl⟩
    have hsame : parsed'.idempotency_key = parsed.idempotency_key := by
      rw [hkey, parseSingleShot_ok hparse']
      refine swingmetricKey_eq_iff.mpr ⟨?_, rfl⟩
      simpa [oneShotBatch, idOfChars] using hjoin
    obtain ⟨hplayer, hdevice, _⟩ :=
      h _ shot ulid receivedAtUtc parsed' (by simp [oneShotBatch]) hparse' hsame
    exact ⟨by rw [← hplayer]; simp [oneShotBatch, idOfChars],
      by rw [← hdevice]; simp [oneShotBatch, idOfChars]⟩
  · intro hcut payload' shot' ulid' receivedAtUtc' parsed' _ hparse' hsame
    rw [hkey, parseSingleShot_ok hparse'] at hsame
    obtain ⟨hjoin, hbucket⟩ := swingmetricKey_eq_iff.mp hsame
    obtain ⟨hplayer, hdevice⟩ := oneCut_iff.mp hcut _ _
      ⟨payload'.player.id.isId, payload'.device.isId⟩ hjoin
    exact ⟨String.toList_inj.mp hplayer, String.toList_inj.mp hdevice, hbucket⟩

/-! ### ProSwing -/

theorem proswingKey_eq_iff {p p' : ProswingCanonicalPayload} :
    p'.idempotencyKey = p.idempotencyKey ↔
      p'.user_token.toList ++ '|' :: p'.shot.id.toList =
        p.user_token.toList ++ '|' :: p.shot.id.toList := by
  have hkey (q : ProswingCanonicalPayload) : q.idempotencyKey.toList =
      ['p', 's', '|'] ++ (q.user_token.toList ++ '|' :: q.shot.id.toList) := by
    rw [ProswingCanonicalPayload.idempotencyKey]
    simp only [String.toList_append, List.append_assoc, List.cons_append, List.nil_append]
    rfl
  rw [← String.toList_inj, hkey, hkey, List.append_right_inj]

/-- Tokens of V1 and V2 have at least eight characters, those of V3 at least one. -/
theorem ProswingAccepted.isId (p : ProswingAccepted) :
    IsId p.canonical.user_token.toList ∧ IsId p.canonical.shot.id.toList := by
  have htoken (token : ZString 8 255) : IsId token.value.toList :=
    ZString.isId ⟨token.value, le_trans (by omega) token.min, token.max⟩
  cases p with
  | v1 p => exact ⟨htoken p.user_token, p.shot.id.isId⟩
  | v2 p => exact ⟨htoken p.user_token, p.shot.id.isId⟩
  | v3 p => exact ⟨p.player_id.isId, p.shot.id.isId⟩

/-- The V3 payload of a ball that was not hit, for any player and shot id. -/
def minimalV3 (player id : ZString 1 255) (occurred_at : IsoDateTime) : ProswingPayloadV3 where
  player_id := player
  device_id := none
  shot := {
    id := id
    occurred_at := occurred_at
    club_code := ⟨"PW", by decide, by decide⟩
    ball_speed := ⟨⟨0, by norm_num, by norm_num⟩, .mph, by simp⟩
    club_speed := none
    launch_angle := ⟨0, by norm_num, by norm_num⟩
    spin_rpm := none
    carry := ⟨⟨0, by norm_num, by norm_num⟩, .m⟩
    total := none
    deviation := ⟨⟨0, by norm_num, by norm_num⟩, .m⟩ }

/-- The ProSwing payloads, of whatever format, with the key of a given one are
for the same token and shot id. -/
def ProswingKeyIdentifies (sha256 : String → String) (p : ProswingAccepted)
    (parsed : NormalisedShot) : Prop :=
  ∀ (p' : ProswingAccepted) (ulid' : ℕ → String) (receivedAtUtc' : ℤ) (parsed' : NormalisedShot),
    parseProswing sha256 ulid' p'.canonical receivedAtUtc' = .ok [parsed'] →
    parsed'.idempotency_key = parsed.idempotency_key →
    p'.canonical.user_token = p.canonical.user_token ∧ p'.canonical.shot.id = p.canonical.shot.id

theorem proswing_key_of_parse {sha256 : String → String} {p : ProswingCanonicalPayload}
    {ulid : ℕ → String} {receivedAtUtc : ℤ} {parsed : NormalisedShot}
    (hparse : parseProswing sha256 ulid p receivedAtUtc = .ok [parsed]) :
    parsed.idempotency_key = p.idempotencyKey := by
  obtain rfl := List.singleton_inj.mp (parseProswing_ok hparse)
  rfl

/-- Whether a payload is parsed depends on its time only. -/
theorem proswing_parses_of_time {sha256 : String → String} {p q : ProswingCanonicalPayload}
    {ulid : ℕ → String} {receivedAtUtc : ℤ} {parsed : NormalisedShot}
    (hparse : parseProswing sha256 ulid p receivedAtUtc = .ok [parsed])
    (htime : q.shot.occurred_at = p.shot.occurred_at) :
    ∃ parsed', parseProswing sha256 ulid q receivedAtUtc = .ok [parsed'] := by
  rw [parseProswing_eq] at hparse
  rw [parseProswing_eq, htime]
  cases hiso : toISOString p.shot.occurred_at.timeValue with
  | error e => simp [hiso, Except.map] at hparse
  | ok captured => exact ⟨_, rfl⟩

theorem proswingKeyIdentifies_iff {sha256 : String → String} {p : ProswingAccepted}
    {ulid : ℕ → String} {receivedAtUtc : ℤ} {parsed : NormalisedShot}
    (hparse : parseProswing sha256 ulid p.canonical receivedAtUtc = .ok [parsed]) :
    ProswingKeyIdentifies sha256 p parsed ↔
      Unambiguous p.canonical.user_token p.canonical.shot.id := by
  constructor
  · intro h
    refine oneCut_iff.mpr fun a b ⟨ha, hb⟩ hjoin => ?_
    -- The other cut is the key of a V3 payload recorded at the same time.
    let other : ProswingAccepted :=
      .v3 (minimalV3 (idOfChars a ha) (idOfChars b hb) p.canonical.shot.occurred_at)
    obtain ⟨parsed', hparse'⟩ := proswing_parses_of_time (q := other.canonical) hparse rfl
    have hsame : parsed'.idempotency_key = parsed.idempotency_key := by
      rw [proswing_key_of_parse hparse, proswing_key_of_parse hparse']
      refine proswingKey_eq_iff.mpr ?_
      simpa [other, ProswingAccepted.canonical, fromV3, minimalV3, idOfChars] using hjoin
    obtain ⟨htoken, hid⟩ := h other ulid receivedAtUtc parsed' hparse' hsame
    exact ⟨by rw [← htoken]; simp [other, ProswingAccepted.canonical, fromV3, minimalV3, idOfChars],
      by rw [← hid]; simp [other, ProswingAccepted.canonical, fromV3, minimalV3, idOfChars]⟩
  · intro hcut p' ulid' receivedAtUtc' parsed' hparse' hsame
    rw [proswing_key_of_parse hparse, proswing_key_of_parse hparse'] at hsame
    obtain ⟨htoken, hid⟩ := oneCut_iff.mp hcut _ _ p'.isId (proswingKey_eq_iff.mp hsame)
    exact ⟨String.toList_inj.mp htoken, String.toList_inj.mp hid⟩

/-! ### Across vendors -/

def keyPrefix : Vendor → List Char
  | .trackpro => ['t', 'p', '|']
  | .swingmetric => ['s', 'm', '|']
  | .proswing => ['p', 's', '|']

theorem ParserProduced.key_prefix {sha256 : String → String} {shot : NormalisedShot}
    (h : ParserProduced sha256 shot) :
    shot.idempotency_key.toList.take 3 = keyPrefix shot.vendor := by
  obtain ⟨payload, ulid, receivedAtUtc, shots, hparse, hmem⟩ := h
  cases payload with
  | trackpro p =>
      rw [parseTrackpro_ok hparse, List.mem_singleton] at hmem
      subst hmem
      show ("tp|" ++ p.shot_uid.value).toList.take 3 = _
      rw [String.toList_append]
      rfl
  | swingmetric p =>
      obtain ⟨k, s, _, rfl⟩ := parseSwingmetric_ok hparse shot hmem
      show (p.idempotencyKey s).toList.take 3 = _
      rw [swingmetricKey_toList]
      rfl
  | proswing p =>
      rw [parseProswing_ok hparse, List.mem_singleton] at hmem
      subst hmem
      show ("ps|" ++ p.canonical.user_token ++ "|" ++ p.canonical.shot.id).toList.take 3 = _
      rw [String.append_assoc, String.append_assoc, String.toList_append]
      rfl

theorem keys_of_vendors_differ {sha256 : String → String} {a b : NormalisedShot}
    (ha : ParserProduced sha256 a) (hb : ParserProduced sha256 b) (h : a.vendor ≠ b.vendor) :
    a.idempotency_key ≠ b.idempotency_key := by
  intro hkey
  have hprefix : keyPrefix a.vendor = keyPrefix b.vendor := by
    rw [← ha.key_prefix, ← hb.key_prefix, hkey]
  revert h hprefix
  cases a.vendor <;> cases b.vendor <;> decide

/-! ### All vendors -/

/-- Keys identify the shot for exactly the shots whose ids are joined
unambiguously, and those of different vendors never meet. -/
theorem idempotencyKeys_identify_iff (sha256 : String → String) :
    (∀ (payload : SwingmetricPayload) (shot : SwingmetricShot) (ulid : String) (receivedAtUtc : ℤ)
        (parsed : NormalisedShot), shot ∈ payload.shots →
      parseSingleShot sha256 ulid shot payload receivedAtUtc = .ok parsed →
      (SwingmetricKeyIdentifies sha256 payload shot parsed ↔
        Unambiguous payload.player.id.value payload.device.value)) ∧
    (∀ (p : ProswingAccepted) (ulid : ℕ → String) (receivedAtUtc : ℤ) (parsed : NormalisedShot),
      parseProswing sha256 ulid p.canonical receivedAtUtc = .ok [parsed] →
      (ProswingKeyIdentifies sha256 p parsed ↔
        Unambiguous p.canonical.user_token p.canonical.shot.id)) ∧
    (∀ a b : NormalisedShot, ParserProduced sha256 a → ParserProduced sha256 b →
      a.vendor ≠ b.vendor → a.idempotency_key ≠ b.idempotency_key) :=
  ⟨fun _ _ _ _ _ _ hparse => swingmetricKeyIdentifies_iff hparse,
    fun _ _ _ _ hparse => proswingKeyIdentifies_iff hparse,
    fun _ _ => keys_of_vendors_differ⟩

/-- A batch of one shot, for players and devices that contain a `|`. -/
def sampleShot : SwingmetricShot where
  ts_ms := ⟨1710498645123, by decide, by decide⟩
  club := ⟨"7I", by decide, by decide⟩
  ball_speed_mph := ⟨120, by norm_num, by norm_num⟩
  swing_speed_mph := none
  launch_deg := ⟨16, by norm_num, by norm_num⟩
  spin_rpm := none
  carry_yd := ⟨170, by norm_num, by norm_num⟩
  total_yd := none
  offline_yd := ⟨3, by norm_num, by norm_num⟩

def sampleBatch (player device : ZString 1 255) : SwingmetricPayload where
  session_id := ⟨"session-1", by decide, by decide⟩
  player := { id := player, email := none }
  device := device
  shots := [sampleShot]
  shots_min := le_rfl
  shots_max := by simp

/-- Player `a|b` with device `c` and player `a` with device `b|c` share their keys. -/
theorem idempotencyKeys_collide :
    ¬ ∃ sha256 : String → String,
      (∀ (payload : SwingmetricPayload) (shot : SwingmetricShot) (ulid : String)
          (receivedAtUtc : ℤ) (parsed : NormalisedShot), shot ∈ payload.shots →
        parseSingleShot sha256 ulid shot payload receivedAtUtc = .ok parsed →
        SwingmetricKeyIdentifies sha256 payload shot parsed) ∧
      (∀ (p : ProswingAccepted) (ulid : ℕ → String) (receivedAtUtc : ℤ) (parsed : NormalisedShot),
        parseProswing sha256 ulid p.canonical receivedAtUtc = .ok [parsed] →
        ProswingKeyIdentifies sha256 p parsed) ∧
      (∀ a b : NormalisedShot, ParserProduced sha256 a → ParserProduced sha256 b →
        a.vendor ≠ b.vendor → a.idempotency_key ≠ b.idempotency_key) := by
  rintro ⟨sha256, hsm, _, _⟩
  have hsame := hsm (sampleBatch ⟨"a|b", by decide, by decide⟩ ⟨"c", by decide, by decide⟩)
    sampleShot "01HS0N8R9M0000000000000001" 1710498650000 _ List.mem_cons_self rfl
    (sampleBatch ⟨"a", by decide, by decide⟩ ⟨"b|c", by decide, by decide⟩)
    sampleShot "01HS0N8R9M0000000000000002" 1710498650000 _ List.mem_cons_self rfl
    (swingmetricKey_eq_iff.mpr ⟨by decide, rfl⟩)
  exact absurd hsame.1 (by decide)

end PureplayIngest.Webhooks
