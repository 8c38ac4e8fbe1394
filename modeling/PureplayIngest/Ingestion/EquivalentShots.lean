import PureplayIngest.Ingestion.DuplicateChains
import PureplayIngest.Lib.Joined

/-!
A shot is flagged only as a duplicate of an equivalent one.

The user in front of the hashed text is free-form, and may contain the
separator. The six parts after it cannot, so the text is read back from its
end, and equal texts have equal parts. Digests are taken to differ where the
texts do.
-/

namespace PureplayIngest.Ingestion

open Shared Shared.Domain Shared.Kysely Identity Lib Webhooks

/-! ### The parts are read back -/

/-- `n / 10 ^ f` written with `f` decimals. -/
def magnitudeChars (n f : ℕ) : List Char :=
  (toString (n / 10 ^ f)).toList ++ if f = 0 then [] else '.' :: pad f (n % 10 ^ f)

def fixedChars (m : ℤ) (f : ℕ) : List Char :=
  if m < 0 then '-' :: magnitudeChars m.natAbs f else magnitudeChars m.natAbs f

theorem toList_toFixed (m : ℤ) (f : ℕ) :
    (toFixed ((m : ℚ) / 10 ^ f) f).toList = fixedChars m f := by
  have hpow : (0 : ℚ) < 10 ^ f := by positivity
  have hscaled : |(m : ℚ) / 10 ^ f| * 10 ^ f = ((m.natAbs : ℤ) : ℚ) := by
    rw [abs_div, abs_of_pos hpow, div_mul_cancel₀ _ hpow.ne', Int.natCast_natAbs, Int.cast_abs]
  have hround : mathRound (|(m : ℚ) / 10 ^ f| * 10 ^ f) = (m.natAbs : ℤ) := by
    rw [hscaled, mathRound, Int.floor_intCast_add]
    norm_num
  have hneg : (m : ℚ) / 10 ^ f < 0 ↔ m < 0 := by
    rw [div_lt_iff₀ hpow, zero_mul, Int.cast_lt_zero]
  simp only [toFixed, fixedChars, magnitudeChars, hround, Int.toNat_natCast, hneg]
  split <;> split <;> simp

theorem mem_magnitudeChars {n f : ℕ} {ch : Char} (h : ch ∈ magnitudeChars n f) :
    ch.isDigit = true ∨ ch = '.' := by
  obtain h | h := List.mem_append.mp h
  · exact .inl (isDigit_toString h)
  · split at h
    · exact absurd h List.not_mem_nil
    · obtain rfl | h := List.mem_cons.mp h
      · exact .inr rfl
      · exact .inl (isDigit_pad h)

theorem magnitudeChars_injective {n k f : ℕ} (h : magnitudeChars n f = magnitudeChars k f) :
    n = k := by
  have hpow : 0 < 10 ^ f := by positivity
  obtain ⟨hwhole, hrest⟩ := List.append_inj' h (by split <;> simp)
  have hdiv := Nat.repr_injective (String.toList_inj.mp hwhole)
  have hmod : n % 10 ^ f = k % 10 ^ f := by
    split at hrest
    · rename_i hf
      rw [hf, pow_zero, Nat.mod_one, Nat.mod_one]
    · exact pad_inj (Nat.mod_lt _ hpow) (Nat.mod_lt _ hpow) (List.cons_inj_right _ |>.mp hrest)
  rw [← Nat.div_add_mod n (10 ^ f), ← Nat.div_add_mod k (10 ^ f), hdiv, hmod]

theorem fixedChars_injective {m n : ℤ} {f : ℕ} (h : fixedChars m f = fixedChars n f) : m = n := by
  have hminus (k : ℕ) : '-' ∉ magnitudeChars k f := fun hmem =>
    absurd (mem_magnitudeChars hmem) (by decide)
  rw [fixedChars, fixedChars] at h
  split at h <;> split at h
  · have := magnitudeChars_injective (List.cons_inj_right _ |>.mp h)
    omega
  · exact absurd (h ▸ List.mem_cons_self) (hminus _)
  · exact absurd (h ▸ List.mem_cons_self) (hminus _)
  · have := magnitudeChars_injective h
    omega

theorem toFixed_round_inj {x y : ℚ} {f : ℕ} (h : toFixed (round x f) f = toFixed (round y f) f) :
    round x f = round y f := by
  have hchars := congrArg String.toList h
  rw [round, round, toList_toFixed, toList_toFixed] at hchars
  rw [round, round, fixedChars_injective hchars]

theorem separator_not_mem_toFixed (x : ℚ) (f : ℕ) : '|' ∉ (toFixed (round x f) f).toList := by
  rw [round, toList_toFixed, fixedChars]
  have hmagnitude (k : ℕ) : '|' ∉ magnitudeChars k f := fun hmem =>
    absurd (mem_magnitudeChars hmem) (by decide)
  split
  · simp [hmagnitude]
  · exact hmagnitude _

theorem separator_not_mem_isoChars (t : ℤ) : '|' ∉ isoChars t := by
  have hpad (n k : ℕ) : '|' ∉ pad n k := fun hmem => absurd (isDigit_pad hmem) (by decide)
  have hyear (y : ℤ) : '|' ∉ isoYear y := by
    rw [isoYear]
    split
    · exact hpad _ _
    · split <;> simp [hpad]
  simp [isoChars, isoMinuteChars, hyear, hpad]

theorem separator_not_mem_club (c : ClubCode) : '|' ∉ c.toString.toList := by
  cases c <;> decide

theorem ofString?_toString (c : ClubCode) : ClubCode.ofString? c.toString = some c := by
  cases c <;> decide

theorem clubCode_toString_injective {c d : ClubCode} (h : c.toString = d.toString) : c = d := by
  have hsame := ofString?_toString c
  rw [h, ofString?_toString] at hsame
  exact (Option.some.inj hsame).symm

/-! ### Equal texts -/

/-- A shot whose club is one of `VALID_CLUB_CODES` and whose year has four digits. -/
structure Ordinary (shot : NormalisedShot) : Prop where
  club_code : ∃ c ∈ validClubCodes, shot.club_code = .code c
  years : 0 ≤ yearOf shot.captured_at_utc ∧ yearOf shot.captured_at_utc ≤ 9999

/-- What two shots share when their texts are equal, the minute apart. -/
structure SameContent (a b : NormalisedShot) : Prop where
  vendor_user_id : a.vendor_user_id = b.vendor_user_id
  club_code : a.club_code = b.club_code
  ball_speed_mps : round a.ball_speed_mps 1 = round b.ball_speed_mps 1
  launch_angle_deg : round a.launch_angle_deg 1 = round b.launch_angle_deg 1
  carry_m : round a.carry_m 0 = round b.carry_m 0
  lateral_m : round a.lateral_m 0 = round b.lateral_m 0

/-- The parts after the user. -/
def lastParts (input : ContentHashInput) : List (List Char) :=
  (hashParts input).tail.map String.toList

theorem length_lastParts (input : ContentHashInput) : (lastParts input).length = 6 := rfl

theorem toList_hashText (input : ContentHashInput) :
    (hashText input).toList =
      input.vendor_user_id.toList ++ (lastParts input).flatMap ('|' :: ·) := by
  simp [hashText, hashParts, lastParts, String.intercalate_cons_cons]

theorem separator_not_mem_lastParts {shot : NormalisedShot}
    (hclub : ∃ c ∈ validClubCodes, shot.club_code = .code c) (t : ℤ) :
    ∀ p ∈ lastParts (hashInputAt shot.toShotWithoutPayload t), '|' ∉ p := by
  obtain ⟨c, _, hc⟩ := hclub
  have hminute : '|' ∉ (minuteBucket (isoString t)).toList := by
    rw [minuteBucket, isoString, String.toList_ofList, String.toList_ofList]
    exact fun hmem => separator_not_mem_isoChars t (List.mem_of_mem_take hmem)
  simp only [lastParts, hashParts, hashInputAt, List.tail_cons, List.map_cons, List.map_nil, hc,
    List.forall_mem_cons]
  exact ⟨separator_not_mem_club c, hminute, separator_not_mem_toFixed _ _,
    separator_not_mem_toFixed _ _, separator_not_mem_toFixed _ _, separator_not_mem_toFixed _ _,
    List.forall_mem_nil _⟩

/-- The users may contain the separator. -/
theorem sameContent_of_textAt {a b : NormalisedShot} {t u : ℤ}
    (ha : ∃ c ∈ validClubCodes, a.club_code = .code c)
    (hb : ∃ c ∈ validClubCodes, b.club_code = .code c) (ht : 0 ≤ yearOf t ∧ yearOf t ≤ 9999)
    (h : textAt a t = textAt b u) : SameContent a b ∧ minuteOf t = minuteOf u := by
  have hchars := congrArg String.toList h
  simp only [textAt, toList_hashText] at hchars
  obtain ⟨huser, hparts⟩ := cut_parts ((length_lastParts _).trans (length_lastParts _).symm)
    (separator_not_mem_lastParts ha t) (separator_not_mem_lastParts hb u) hchars
  simp only [lastParts, hashParts, hashInputAt, List.tail_cons, List.map_cons, List.map_nil,
    List.cons.injEq, and_true, String.toList_inj] at huser hparts
  obtain ⟨hclub, hminute, hball, hlaunch, hcarry, hlateral⟩ := hparts
  obtain ⟨c, _, hc⟩ := ha
  obtain ⟨d, _, hd⟩ := hb
  rw [hc, hd] at hclub
  refine ⟨⟨huser, ?_, toFixed_round_inj hball, toFixed_round_inj hlaunch,
    toFixed_round_inj hcarry, toFixed_round_inj hlateral⟩, ?_⟩
  · rw [hc, hd, clubCode_toString_injective hclub]
  · rw [minuteBucket, minuteBucket, String.ofList_inj, isoString, isoString,
      String.toList_ofList, String.toList_ofList] at hminute
    exact (isoChars_take_eq_iff ht).mp hminute

/-! ### The origin of a flagged shot -/

/-- A row of a shot that some parser produced, with its user and its link. -/
def ParsedRow (sha256 : String → String) (row : NormalisedShot) : Prop :=
  ∃ shot canonical_user_id duplicate_of, ParserProduced sha256 shot ∧
    row = { shot with canonical_user_id := canonical_user_id, duplicate_of := duplicate_of }

theorem parsedRow {sha256 : String → String} {shot : NormalisedShot}
    (h : ParserProduced sha256 shot) : ParsedRow sha256 shot :=
  ⟨shot, shot.canonical_user_id, shot.duplicate_of, h, rfl⟩

theorem ParsedRow.content_hash {sha256 : String → String} {row : NormalisedShot}
    (h : ParsedRow sha256 row) : row.content_hash = sha256 (textAt row row.captured_at_utc) := by
  obtain ⟨shot, c, d, hparsed, rfl⟩ := h
  exact hparsed.fresh.content_hash

structure EquivalentTo (shot origin : NormalisedShot) : Prop where
  canonical_shot_id : origin.canonical_shot_id ≠ shot.canonical_shot_id
  vendor : origin.vendor = shot.vendor
  content : SameContent origin shot
  window : WithinWindow origin shot
  minute : minuteOf origin.captured_at_utc = minuteOf shot.captured_at_utc ∨
    minuteOf origin.captured_at_utc = minuteOf shot.captured_at_utc - 1

theorem OriginOf.equivalentTo {sha256 : String → String} (hsha256 : Function.Injective sha256)
    {shot origin : NormalisedShot} (hshot : ParsedRow sha256 shot) (hclub : Ordinary shot)
    (horigin : ParsedRow sha256 origin) (hordinary : Ordinary origin)
    (h : OriginOf sha256 shot origin) : EquivalentTo shot origin := by
  obtain ⟨⟨hvendor, _⟩, hhash, hid, hlower, hupper⟩ := h
  have htext : ∃ t ∈ [shot.captured_at_utc, shot.captured_at_utc - 60000],
      textAt origin origin.captured_at_utc = textAt shot t := by
    rw [horigin.content_hash, hshot.content_hash] at hhash
    obtain hhash | hhash := hhash
    · exact ⟨_, by simp, hsha256 hhash⟩
    · exact ⟨shot.captured_at_utc - 60000, by simp, hsha256 hhash⟩
  obtain ⟨t, ht, htext⟩ := htext
  obtain ⟨hcontent, hminute⟩ :=
    sameContent_of_textAt hordinary.club_code hclub.club_code hordinary.years htext
  refine ⟨hid, hvendor, hcontent, ⟨by omega, by omega⟩, ?_⟩
  simp only [List.mem_cons, List.not_mem_nil, or_false] at ht
  obtain rfl | rfl := ht
  · exact .inl hminute
  · refine .inr (hminute.trans ?_)
    unfold minuteOf
    omega

/-- The look-up of a shot chooses an equivalent one, whatever else the table
holds; and texts are equal only for shots that are equal in all that is hashed. -/
theorem flagged_equivalent {deps : Deps} (hsha256 : Function.Injective deps.sha256) {w : World}
    (hrows : ∀ row ∈ w.db.shots, ParsedRow deps.sha256 row ∧ Ordinary row)
    {job : ShotJob} {shot : NormalisedShot} (hshot : ParsedRow deps.sha256 shot ∧ Ordinary shot)
    {w' : World} {k : ℕ} {id origin : String}
    (hlookup : (ProcessState.lookup job shot id).step deps w k =
      some (w', .flag job shot id origin)) :
    (∃ row ∈ w.db.shots, row.canonical_shot_id = origin ∧ EquivalentTo shot row) ∧
      ∀ a b : NormalisedShot, Ordinary a → Ordinary b →
        textAt a a.captured_at_utc = textAt b b.captured_at_utc →
        SameContent a b ∧ minuteOf a.captured_at_utc = minuteOf b.captured_at_utc := by
  refine ⟨?_, fun a b ha hb => sameContent_of_textAt ha.club_code hb.club_code ha.years⟩
  cases ProcessState.step_cases hlookup with
  | choose _ _ hcandidates horigin =>
      have hmem := List.mem_of_getElem? horigin
      rw [originCandidates_ok hcandidates, mem_earliest, mem_originRows_iff] at hmem
      obtain ⟨hrow, horiginOf⟩ := hmem.1
      exact ⟨_, hrow, rfl, horiginOf.equivalentTo hsha256 hshot.1 hshot.2 (hrows _ hrow).1
        (hrows _ hrow).2⟩

/-! ### Two drives of one minute -/

def ownText : String := "demo-player-1|DR|2024-03-15T10:30|70.0|12.0|250|0"

def adjacentText : String := "demo-player-1|DR|2024-03-15T10:29|70.0|12.0|250|0"

def ownDigest : String := "de282ba7ab20a487f7ce4768e14654f808f241650f61555c1e1e8a5cde9eebc6"

def adjacentDigest : String := "7a93b95376c4a55ec8c1a3302dab14529a3761212a985bd0b5b9e580a303cda7"

/-- The digests of the two texts that are hashed for the drives; what any other
text is mapped to does not start as a digest does. -/
def distinctSha256 (text : String) : String :=
  if text = ownText then ownDigest
  else if text = adjacentText then adjacentDigest
  else "sha256:" ++ text

theorem distinctSha256_cases (text : String) :
    (text = ownText ∧ distinctSha256 text = ownDigest) ∨
      (text = adjacentText ∧ distinctSha256 text = adjacentDigest) ∨
      distinctSha256 text = "sha256:" ++ text := by
  unfold distinctSha256
  split
  · exact .inl ⟨‹_›, rfl⟩
  · split
    · exact .inr (.inl ⟨‹_›, rfl⟩)
    · exact .inr (.inr rfl)

theorem distinctSha256_injective : Function.Injective distinctSha256 := by
  have hhead {digest : String} (h : digest.toList.head? ≠ some 's') (u : String) :
      digest ≠ "sha256:" ++ u := by
    rintro rfl
    simp at h
  have hown := hhead (show ownDigest.toList.head? ≠ some 's' by decide)
  have hadjacent := hhead (show adjacentDigest.toList.head? ≠ some 's' by decide)
  intro s t h
  obtain ⟨rfl, hs⟩ | ⟨rfl, hs⟩ | hs := distinctSha256_cases s <;>
    obtain ⟨rfl, ht⟩ | ⟨rfl, ht⟩ | ht := distinctSha256_cases t <;>
    replace h := hs.symm.trans (h.trans ht)
  · rfl
  · exact absurd h (by decide)
  · exact absurd h (hown t)
  · exact absurd h (by decide)
  · rfl
  · exact absurd h (hadjacent t)
  · exact absurd h.symm (hown s)
  · exact absurd h.symm (hadjacent s)
  · exact (String.append_right_inj _).mp h

def distinctDeps : Deps := ⟨distinctSha256, fun _ => none⟩

def distinctJob (ulid : String) (payload : TrackproPayload) : ShotJob where
  vendor := .trackpro
  normalisedShot := driveShot distinctSha256 ulid payload 1710498606000
  correlationId := "4c7f2a44-6a51-4b8e-9f0c-3d6a1f6f2b10"
  receivedAtUtc := 1710498606000

def drivesStored : World :=
  { Service.freshWorld with
    db := { Service.freshWorld.db with
      shots := [(distinctJob firstId firstDrive).normalisedShot,
        (distinctJob secondId secondDrive).normalisedShot] } }

theorem lookup_drivesStored :
    ((ProcessState.lookup (distinctJob secondId secondDrive)
      (distinctJob secondId secondDrive).normalisedShot secondId).step distinctDeps drivesStored
        0).bind (fun next => Call.chosen (.process next.2)) = some (secondId, firstId) := by
  decide +kernel

theorem flagged_equivalent_drives :
    ∃ row ∈ drivesStored.db.shots, row.canonical_shot_id = firstId ∧
      EquivalentTo (distinctJob secondId secondDrive).normalisedShot row := by
  have hparsed (ulid : String) (payload : TrackproPayload) :
      ParsedRow distinctDeps.sha256 (distinctJob ulid payload).normalisedShot :=
    parsedRow parserProduced_driveShot
  have hfirst : Ordinary (distinctJob firstId firstDrive).normalisedShot :=
    ⟨⟨.dr, by decide, by decide⟩, by decide⟩
  have hsecond : Ordinary (distinctJob secondId secondDrive).normalisedShot :=
    ⟨⟨.dr, by decide, by decide⟩, by decide⟩
  have hrows : ∀ row ∈ drivesStored.db.shots, ParsedRow distinctDeps.sha256 row ∧ Ordinary row := by
    simp only [drivesStored, List.forall_mem_cons]
    exact ⟨⟨hparsed _ _, hfirst⟩, ⟨hparsed _ _, hsecond⟩, List.forall_mem_nil _⟩
  obtain ⟨⟨w, s⟩, hnext, hchosen⟩ := Option.bind_eq_some_iff.mp lookup_drivesStored
  cases ProcessState.step_cases hnext with
  | accepted _ _ => exact absurd hchosen (by simp [Call.chosen])
  | choose _ _ hcandidates horigin =>
      obtain ⟨_, horiginId⟩ := Prod.mk.inj (Option.some.inj hchosen)
      rw [horiginId] at hnext
      exact (flagged_equivalent distinctSha256_injective hrows ⟨hparsed _ _, hsecond⟩ hnext).1

end PureplayIngest.Ingestion
