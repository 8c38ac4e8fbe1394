import Mathlib.Data.List.Find
import PureplayIngest.Webhooks.Swingmetric
import PureplayIngest.Webhooks.ZodObject

/-!
`SwingmetricShotSchema` on JSON values.

Both wire formats are renamed to one set of field names before the schema
looks at them. A shot may use either name of a pair, with one exception: a
`null` under the canonical name of the optional total counts as absent, a
`null` under its alias does not.
-/

namespace PureplayIngest.Webhooks

open Shared Shared.Domain

/-- The names of the other wire format, each with the one it stands for. -/
def aliases : List (String × String) :=
  [("club_used", "club"), ("launch_angle", "launch_deg"), ("carry_yds", "carry_yd"),
    ("total_yds", "total_yd"), ("offline_yds", "offline_yd")]

def aliasNames : List String := aliases.map (·.1)

def canonicalNames : List String := aliases.map (·.2)

/-- `a ?? b`. -/
def nullish : Option Json → Option Json → Option Json
  | none, b => b
  | some .null, b => b
  | some a, _ => some a

/-- `normaliseShot` of an object. Other values it hands on, or makes an object
of that the schema rejects. -/
def normaliseShot (fields : List (String × Json)) : JsFields :=
  let rest : JsFields := (ownFields fields).filter fun field => field.1 ∉ aliasNames
  rest.filter (fun field => field.1 ∉ canonicalNames) ++
    aliases.map fun pair =>
      (pair.2, nullish (rest.get pair.2) ((ownFields fields).get pair.1))

def swingmetricShotNames : List String :=
  ["ts_ms", "club", "ball_speed_mph", "swing_speed_mph", "launch_deg", "spin_rpm", "carry_yd",
    "total_yd", "offline_yd"]

def swingmetricShotShape (fields : JsFields) : Option SwingmetricShot := do
  let ts_ms ← zInt 0 maxSafeInteger (fields.get "ts_ms")
  let club ← zString 1 64 (fields.get "club")
  let ball_speed_mph ← zNumber 0 268 (fields.get "ball_speed_mph")
  let swing_speed_mph ← (zNumber 0 230).optional (fields.get "swing_speed_mph")
  let launch_deg ← zNumber (-10) 70 (fields.get "launch_deg")
  let spin_rpm ← (zInt 0 15000).optional (fields.get "spin_rpm")
  let carry_yd ← zNumber 0 490 (fields.get "carry_yd")
  let total_yd ← (zNumber 0 545).optional (fields.get "total_yd")
  let offline_yd ← zNumber (-220) 220 (fields.get "offline_yd")
  return { ts_ms, club, ball_speed_mph, swing_speed_mph, launch_deg, spin_rpm, carry_yd, total_yd,
           offline_yd }

def SwingmetricShotSchema : Json → Option SwingmetricShot
  | .obj fields => zStrict swingmetricShotNames swingmetricShotShape (normaliseShot fields)
  | _ => none

/-! ### Renaming fields -/

/-- The alias of a name, among the pairs given. -/
def aliasOf (pairs : List (String × String)) (name : String) : String :=
  ((pairs.find? fun pair => pair.2 = name).map (·.1)).getD name

/-- The canonical names of the pairs are replaced by their aliases. -/
def renamed (pairs : List (String × String)) (fields : List (String × Json)) :
    List (String × Json) :=
  fields.map fun field => (aliasOf pairs field.1, field.2)

/-- At most one name of each pair is used. -/
def OneName (pairs : List (String × String)) (fields : List (String × Json)) : Prop :=
  ∀ pair ∈ pairs, ¬ (hasKey fields pair.1 ∧ hasKey fields pair.2)

/-! ### What the schema sees of the fields -/

section

variable {pairs : List (String × String)} {fields : List (String × Json)} {name : String}

theorem get_ownFields (fields : List (String × Json)) (name : String) :
    (ownFields fields).get name = (fields.find? fun field => field.1 = name).map (·.2) := by
  rw [JsFields.get, ownFields, List.find?_map, Option.bind_map]
  exact Option.map_eq_bind.symm

theorem get_eq_none_iff : (ownFields fields).get name = none ↔ ¬ hasKey fields name := by
  rw [get_ownFields, Option.map_eq_none_iff, List.find?_eq_none, hasKey, List.mem_map]
  simp only [decide_eq_true_eq, not_exists, not_and]

theorem get_filter {names : List String} {fields : JsFields} (h : name ∉ names) :
    JsFields.get (fields.filter fun field => field.1 ∉ names) name = fields.get name := by
  rw [JsFields.get, List.find?_filter, JsFields.get]
  congr 1
  refine List.find?_congr fun field _ => ?_
  by_cases hname : field.1 = name
  · simp [hname, h]
  · simp [hname]

theorem get_append_of_none {fields others : JsFields} (h : ∀ field ∈ fields, field.1 ≠ name) :
    JsFields.get (fields ++ others) name = others.get name := by
  have hnone : fields.find? (fun field => field.1 = name) = none :=
    List.find?_eq_none.mpr (by simpa using h)
  rw [JsFields.get, List.find?_append, hnone, Option.none_or, JsFields.get]

theorem get_append_right {fields others : JsFields} (h : ∀ field ∈ others, field.1 ≠ name) :
    JsFields.get (fields ++ others) name = fields.get name := by
  have hnone : others.find? (fun field => field.1 = name) = none :=
    List.find?_eq_none.mpr (by simpa using h)
  rw [JsFields.get, List.find?_append, hnone, Option.or_none, JsFields.get]

/-- Under a canonical name stands its own value, or else that of its alias. -/
theorem get_normaliseShot {pair : String × String} (h : pair ∈ aliases) :
    (normaliseShot fields).get pair.2 =
      nullish ((ownFields fields).get pair.2) ((ownFields fields).get pair.1) := by
  have hcanonical : pair.2 ∈ canonicalNames := List.mem_map_of_mem h
  have hrest : ∀ pair ∈ aliases, pair.2 ∉ aliasNames := by decide
  rw [normaliseShot, get_append_of_none]
  · have hget (f : String × String → Option Json) :
        JsFields.get (aliases.map fun pair => (pair.2, f pair)) pair.2 = f pair := by
      revert pair
      simp [aliases, JsFields.get]
    rw [hget, get_filter (hrest pair h)]
  · intro field hfield
    have hnot : field.1 ∉ canonicalNames := by simpa using (List.mem_filter.mp hfield).2
    exact fun heq => hnot (heq ▸ hcanonical)

theorem get_normaliseShot_other (hcanonical : name ∉ canonicalNames) (halias : name ∉ aliasNames) :
    (normaliseShot fields).get name = (ownFields fields).get name := by
  rw [normaliseShot, get_append_right, get_filter hcanonical, get_filter halias]
  intro field hfield
  obtain ⟨pair, hpair, rfl⟩ := List.mem_map.mp hfield
  exact fun heq => hcanonical (heq ▸ List.mem_map_of_mem hpair)

theorem strict_normaliseShot :
    (normaliseShot fields).strict swingmetricShotNames ↔
      ∀ field ∈ fields, field.1 ∈ aliasNames ++ swingmetricShotNames := by
  have hnames : ∀ name ∈ canonicalNames, name ∈ swingmetricShotNames := by decide
  constructor
  · intro h field hfield
    by_cases halias : field.1 ∈ aliasNames
    · exact List.mem_append_left _ halias
    · refine List.mem_append_right _ ?_
      by_cases hcanonical : field.1 ∈ canonicalNames
      · exact hnames _ hcanonical
      · refine h (field.1, some field.2) (List.mem_append_left _ ?_)
        simp only [List.mem_filter, ownFields, List.mem_map, decide_eq_true_eq]
        exact ⟨⟨⟨field, hfield, rfl⟩, halias⟩, hcanonical⟩
  · intro h field hfield
    obtain hfield | hfield := List.mem_append.mp hfield
    · simp only [List.mem_filter, ownFields, List.mem_map, decide_eq_true_eq] at hfield
      obtain ⟨⟨⟨own, hown, rfl⟩, halias⟩, _⟩ := hfield
      exact (List.mem_append.mp (h own hown)).resolve_left halias
    · obtain ⟨pair, hpair, rfl⟩ := List.mem_map.mp hfield
      exact hnames _ (List.mem_map_of_mem hpair)

end

/-! ### What it sees of renamed fields -/

section

variable {pairs : List (String × String)} {fields : List (String × Json)} {name : String}

/-- The ten names are different from one another. -/
theorem aliases_inj : ∀ pair ∈ aliases, ∀ other ∈ aliases,
    pair.1 ≠ other.2 ∧ (pair.1 = other.1 → pair = other) ∧ (pair.2 = other.2 → pair = other) := by
  decide

theorem aliasOf_cases (pairs : List (String × String)) (name : String) :
    (∃ pair ∈ pairs, pair.2 = name ∧ aliasOf pairs name = pair.1) ∨
      (∀ pair ∈ pairs, pair.2 ≠ name) ∧ aliasOf pairs name = name := by
  rw [aliasOf]
  cases hfind : pairs.find? fun pair => pair.2 = name with
  | some pair =>
      exact .inl ⟨pair, List.mem_of_find?_eq_some hfind, by simpa using List.find?_some hfind, rfl⟩
  | none => exact .inr ⟨by simpa using hfind, rfl⟩

theorem get_renamed (pairs : List (String × String)) (fields : List (String × Json))
    (name : String) : (ownFields (renamed pairs fields)).get name =
      (fields.find? fun field => aliasOf pairs field.1 = name).map (·.2) := by
  rw [get_ownFields, renamed, List.find?_map, Option.map_map]
  rfl

theorem get_renamed_other (h : ∀ pair ∈ pairs, pair.1 ≠ name ∧ pair.2 ≠ name) :
    (ownFields (renamed pairs fields)).get name = (ownFields fields).get name := by
  rw [get_renamed, get_ownFields]
  refine congrArg (Option.map _) (List.find?_congr fun field _ => decide_eq_decide.mpr ?_)
  obtain ⟨pair, hpair, hkey, halias⟩ | ⟨_, halias⟩ := aliasOf_cases pairs field.1
  · rw [halias, ← hkey]
    exact iff_of_false (h pair hpair).1 (h pair hpair).2
  · rw [halias]

theorem get_renamed_canonical (hsub : pairs ⊆ aliases) {pair : String × String}
    (hpair : pair ∈ pairs) : (ownFields (renamed pairs fields)).get pair.2 = none := by
  rw [get_renamed, Option.map_eq_none_iff, List.find?_eq_none]
  intro field _
  obtain ⟨other, hother, _, halias⟩ | ⟨hnone, halias⟩ := aliasOf_cases pairs field.1
  · rw [halias, decide_eq_true_eq]
    exact (aliases_inj other (hsub hother) pair (hsub hpair)).1
  · rw [halias, decide_eq_true_eq]
    exact (hnone pair hpair).symm

/-- The value has moved to the alias, which was free. -/
theorem get_renamed_alias (hsub : pairs ⊆ aliases) (hone : OneName pairs fields)
    {pair : String × String} (hpair : pair ∈ pairs) :
    (ownFields (renamed pairs fields)).get pair.1 =
      if hasKey fields pair.2 then (ownFields fields).get pair.2
      else (ownFields fields).get pair.1 := by
  have hiff (key : String) : aliasOf pairs key = pair.1 ↔ key = pair.1 ∨ key = pair.2 := by
    obtain ⟨other, hother, rfl, halias⟩ | ⟨hnone, halias⟩ := aliasOf_cases pairs key
    · obtain ⟨_, hfst, hsnd⟩ := aliases_inj other (hsub hother) pair (hsub hpair)
      have hne := (aliases_inj pair (hsub hpair) other (hsub hother)).1
      rw [halias]
      constructor
      · intro heq
        exact .inr (congrArg Prod.snd (hfst heq))
      · rintro (heq | heq)
        · exact absurd heq.symm hne
        · exact congrArg Prod.fst (hsnd heq)
    · rw [halias]
      exact ⟨.inl, fun h => h.resolve_right fun heq => hnone pair hpair heq.symm⟩
  rw [get_renamed, get_ownFields, get_ownFields]
  split
  · rename_i hkey
    refine congrArg (Option.map _) (List.find?_congr fun field hfield => decide_eq_decide.mpr ?_)
    rw [hiff]
    refine ⟨fun h => h.resolve_left fun heq => ?_, .inr⟩
    exact hone pair hpair ⟨List.mem_map.mpr ⟨field, hfield, heq⟩, hkey⟩
  · rename_i hkey
    refine congrArg (Option.map _) (List.find?_congr fun field hfield => decide_eq_decide.mpr ?_)
    rw [hiff]
    refine ⟨fun h => h.resolve_right fun heq => ?_, .inl⟩
    exact hkey (List.mem_map.mpr ⟨field, hfield, heq⟩)

theorem nullish_none (json : Option Json) : nullish none json = json := rfl

/-- Renaming shows in a `null` only, which was absent before. -/
theorem get_normaliseShot_renamed (hsub : pairs ⊆ aliases) (hone : OneName pairs fields)
    {pair : String × String} (hpair : pair ∈ aliases) :
    ¬ (pair ∈ pairs ∧ (ownFields fields).get pair.2 = some .null) ∧
        (normaliseShot (renamed pairs fields)).get pair.2 = (normaliseShot fields).get pair.2 ∨
      (pair ∈ pairs ∧ (ownFields fields).get pair.2 = some .null) ∧
        (normaliseShot fields).get pair.2 = none ∧
        (normaliseShot (renamed pairs fields)).get pair.2 = some .null := by
  rw [get_normaliseShot hpair, get_normaliseShot hpair]
  by_cases hmem : pair ∈ pairs
  · rw [get_renamed_canonical hsub hmem, get_renamed_alias hsub hone hmem, nullish_none]
    split
    · rename_i hkey
      have halias : (ownFields fields).get pair.1 = none :=
        get_eq_none_iff.mpr fun h => hone pair hmem ⟨h, hkey⟩
      rw [halias]
      cases hget : (ownFields fields).get pair.2 with
      | none => exact .inl ⟨by simp, rfl⟩
      | some json =>
          cases json with
          | null => exact .inr ⟨⟨hmem, rfl⟩, rfl, rfl⟩
          | _ => exact .inl ⟨by simp, rfl⟩
    · rename_i hkey
      rw [get_eq_none_iff.mpr hkey, nullish_none]
      exact .inl ⟨by simp, rfl⟩
  · refine .inl ⟨fun h => hmem h.1, ?_⟩
    rw [get_renamed_other fun other hother => ?_, get_renamed_other fun other hother => ?_]
    · obtain ⟨_, hfst, _⟩ := aliases_inj other (hsub hother) pair hpair
      have hne := (aliases_inj pair hpair other (hsub hother)).1
      exact ⟨fun heq => hmem (hfst heq ▸ hother), fun heq => hne heq.symm⟩
    · obtain ⟨hne, _, hsnd⟩ := aliases_inj other (hsub hother) pair hpair
      exact ⟨hne, fun heq => hmem (hsnd heq ▸ hother)⟩

theorem get_normaliseShot_renamed_other (hsub : pairs ⊆ aliases)
    (hcanonical : name ∉ canonicalNames) (halias : name ∉ aliasNames) :
    (normaliseShot (renamed pairs fields)).get name = (normaliseShot fields).get name := by
  rw [get_normaliseShot_other hcanonical halias, get_normaliseShot_other hcanonical halias]
  refine get_renamed_other fun pair hpair => ⟨?_, ?_⟩
  · exact fun heq => halias (heq ▸ List.mem_map_of_mem (hsub hpair))
  · exact fun heq => hcanonical (heq ▸ List.mem_map_of_mem (hsub hpair))

theorem strict_renamed (hsub : pairs ⊆ aliases) :
    (normaliseShot (renamed pairs fields)).strict swingmetricShotNames ↔
      (normaliseShot fields).strict swingmetricShotNames := by
  have hnames : ∀ pair ∈ aliases, pair.1 ∈ aliasNames ++ swingmetricShotNames ∧
      pair.2 ∈ aliasNames ++ swingmetricShotNames := by decide
  rw [strict_normaliseShot, strict_normaliseShot, renamed, List.forall_mem_map]
  refine forall₂_congr fun field _ => ?_
  obtain ⟨pair, hpair, hkey, halias⟩ | ⟨_, halias⟩ := aliasOf_cases pairs field.1
  · rw [halias, ← hkey]
    exact iff_of_true (hnames pair (hsub hpair)).1 (hnames pair (hsub hpair)).2
  · rw [halias]

end

/-! ### When the names are interchangeable -/

def IsText (lo hi : ℕ) (json : Option Json) : Prop :=
  ∃ s, json = some (.str s) ∧ lo ≤ utf16Length s ∧ utf16Length s ≤ hi

def IsNumber (lo hi : ℚ) (json : Option Json) : Prop :=
  ∃ x, json = some (.num x) ∧ lo ≤ x ∧ x ≤ hi

def IsInteger (lo hi : ℤ) (json : Option Json) : Prop :=
  ∃ n : ℤ, json = some (.num n) ∧ (-maxSafeInteger ≤ n ∧ n ≤ maxSafeInteger) ∧ lo ≤ n ∧ n ≤ hi

/-- The fields of a shot, the total apart, are what the schema asks for. -/
structure OthersFit (fields : List (String × Json)) : Prop where
  names : ∀ field ∈ fields, field.1 ∈ aliasNames ++ swingmetricShotNames
  ts_ms : IsInteger 0 maxSafeInteger ((normaliseShot fields).get "ts_ms")
  club : IsText 1 64 ((normaliseShot fields).get "club")
  ball_speed_mph : IsNumber 0 268 ((normaliseShot fields).get "ball_speed_mph")
  swing_speed_mph : (normaliseShot fields).get "swing_speed_mph" = none ∨
    IsNumber 0 230 ((normaliseShot fields).get "swing_speed_mph")
  launch_deg : IsNumber (-10) 70 ((normaliseShot fields).get "launch_deg")
  spin_rpm : (normaliseShot fields).get "spin_rpm" = none ∨
    IsInteger 0 15000 ((normaliseShot fields).get "spin_rpm")
  carry_yd : IsNumber 0 490 ((normaliseShot fields).get "carry_yd")
  offline_yd : IsNumber (-220) 220 ((normaliseShot fields).get "offline_yd")

theorem exists_zString {lo hi : ℕ} {json : Option Json} :
    (∃ s, zString lo hi json = some s) ↔ IsText lo hi json := by
  constructor
  · rintro ⟨a, h⟩
    rw [zString.eq_def] at h
    split at h
    · split at h
      · rename_i s hs
        exact ⟨s, rfl, hs⟩
      · exact absurd h (by simp)
    · exact absurd h (by simp)
  · rintro ⟨s, rfl, hs⟩
    exact ⟨_, dif_pos hs⟩

theorem exists_zNumber {lo hi : ℚ} {json : Option Json} :
    (∃ x, zNumber lo hi json = some x) ↔ IsNumber lo hi json := by
  constructor
  · rintro ⟨a, h⟩
    rw [zNumber.eq_def] at h
    split at h
    · split at h
      · rename_i x hx
        exact ⟨x, rfl, hx⟩
      · exact absurd h (by simp)
    · exact absurd h (by simp)
  · rintro ⟨x, rfl, hx⟩
    exact ⟨_, dif_pos hx⟩

theorem exists_zInt {lo hi : ℤ} {json : Option Json} :
    (∃ n, zInt lo hi json = some n) ↔ IsInteger lo hi json := by
  constructor
  · rintro ⟨a, h⟩
    rw [zInt.eq_def] at h
    split at h
    · rename_i x
      split at h
      · rename_i hx
        split at h
        · rename_i hbounds
          have hnum : (x.num : ℚ) = x := Rat.den_eq_one_iff x |>.mp hx.1
          exact ⟨x.num, by rw [hnum], hx.2, hbounds⟩
        · exact absurd h (by simp)
      · exact absurd h (by simp)
    · exact absurd h (by simp)
  · rintro ⟨n, rfl, hsafe, hbounds⟩
    refine ⟨⟨n, hbounds.1, hbounds.2⟩, ?_⟩
    simp [zInt, hsafe, hbounds]

theorem exists_optional {α : Type} {schema : Schema α} {json : Option Json} :
    (∃ a, schema.optional json = some a) ↔ json = none ∨ ∃ a, schema json = some a := by
  cases json with
  | none => exact iff_of_true ⟨none, rfl⟩ (.inl rfl)
  | some j =>
      constructor
      · rintro ⟨a, h⟩
        obtain ⟨b, hb, _⟩ := Option.map_eq_some_iff.mp h
        exact .inr ⟨b, hb⟩
      · rintro (h | ⟨a, ha⟩)
        · exact absurd h (by simp)
        · exact ⟨some a, Option.map_eq_some_iff.mpr ⟨a, ha, rfl⟩⟩

theorem swingmetricShotShape_eq_some {fields : JsFields} {shot : SwingmetricShot} :
    swingmetricShotShape fields = some shot ↔
      zInt 0 maxSafeInteger (fields.get "ts_ms") = some shot.ts_ms ∧
      zString 1 64 (fields.get "club") = some shot.club ∧
      zNumber 0 268 (fields.get "ball_speed_mph") = some shot.ball_speed_mph ∧
      (zNumber 0 230).optional (fields.get "swing_speed_mph") = some shot.swing_speed_mph ∧
      zNumber (-10) 70 (fields.get "launch_deg") = some shot.launch_deg ∧
      (zInt 0 15000).optional (fields.get "spin_rpm") = some shot.spin_rpm ∧
      zNumber 0 490 (fields.get "carry_yd") = some shot.carry_yd ∧
      (zNumber 0 545).optional (fields.get "total_yd") = some shot.total_yd ∧
      zNumber (-220) 220 (fields.get "offline_yd") = some shot.offline_yd := by
  rw [swingmetricShotShape]
  constructor
  · intro h
    obtain ⟨ts_ms, hts, h⟩ := Option.bind_eq_some_iff.mp h
    obtain ⟨club, hclub, h⟩ := Option.bind_eq_some_iff.mp h
    obtain ⟨ball, hball, h⟩ := Option.bind_eq_some_iff.mp h
    obtain ⟨swing, hswing, h⟩ := Option.bind_eq_some_iff.mp h
    obtain ⟨launch, hlaunch, h⟩ := Option.bind_eq_some_iff.mp h
    obtain ⟨spin, hspin, h⟩ := Option.bind_eq_some_iff.mp h
    obtain ⟨carry, hcarry, h⟩ := Option.bind_eq_some_iff.mp h
    obtain ⟨total, htotal, h⟩ := Option.bind_eq_some_iff.mp h
    obtain ⟨offline, hoffline, h⟩ := Option.bind_eq_some_iff.mp h
    obtain rfl := Option.some.inj h
    exact ⟨hts, hclub, hball, hswing, hlaunch, hspin, hcarry, htotal, hoffline⟩
  · rintro ⟨hts, hclub, hball, hswing, hlaunch, hspin, hcarry, htotal, hoffline⟩
    rw [hts, hclub, hball, hswing, hlaunch, hspin, hcarry, htotal, hoffline]
    rfl

/-- A shot without a total is accepted when everything else fits. -/
theorem isSome_schema_of_no_total {fields : List (String × Json)}
    (htotal : (normaliseShot fields).get "total_yd" = none) :
    (SwingmetricShotSchema (.obj fields)).isSome ↔ OthersFit fields := by
  rw [SwingmetricShotSchema, Option.isSome_iff_exists]
  simp only [zStrict_eq_some, swingmetricShotShape_eq_some, strict_normaliseShot]
  constructor
  · rintro ⟨shot, hnames, hts, hclub, hball, hswing, hlaunch, hspin, hcarry, _, hoffline⟩
    exact ⟨hnames, exists_zInt.mp ⟨_, hts⟩, exists_zString.mp ⟨_, hclub⟩,
      exists_zNumber.mp ⟨_, hball⟩, (exists_optional.mp ⟨_, hswing⟩).imp_right exists_zNumber.mp,
      exists_zNumber.mp ⟨_, hlaunch⟩, (exists_optional.mp ⟨_, hspin⟩).imp_right exists_zInt.mp,
      exists_zNumber.mp ⟨_, hcarry⟩, exists_zNumber.mp ⟨_, hoffline⟩⟩
  · intro h
    obtain ⟨ts_ms, hts⟩ := exists_zInt.mpr h.ts_ms
    obtain ⟨club, hclub⟩ := exists_zString.mpr h.club
    obtain ⟨ball, hball⟩ := exists_zNumber.mpr h.ball_speed_mph
    obtain ⟨swing, hswing⟩ := exists_optional.mpr (h.swing_speed_mph.imp_right exists_zNumber.mpr)
    obtain ⟨launch, hlaunch⟩ := exists_zNumber.mpr h.launch_deg
    obtain ⟨spin, hspin⟩ := exists_optional.mpr (h.spin_rpm.imp_right exists_zInt.mpr)
    obtain ⟨carry, hcarry⟩ := exists_zNumber.mpr h.carry_yd
    obtain ⟨offline, hoffline⟩ := exists_zNumber.mpr h.offline_yd
    exact ⟨⟨ts_ms, club, ball, swing, launch, spin, carry, none, offline⟩, h.names, hts, hclub,
      hball, hswing, hlaunch, hspin, hcarry, by rw [htotal]; rfl, hoffline⟩

section

variable {pairs : List (String × String)} {fields : List (String × Json)}

/-- A required field is missed alike whether it is absent or `null`. -/
theorem required_renamed (hsub : pairs ⊆ aliases) (hone : OneName pairs fields) {α : Type}
    (schema : Schema α) (hnull : schema (some .null) = schema none) (pair : String × String)
    (hpair : pair ∈ aliases) :
    schema ((normaliseShot (renamed pairs fields)).get pair.2) =
      schema ((normaliseShot fields).get pair.2) := by
  obtain ⟨_, heq⟩ | ⟨_, hold, hnew⟩ := get_normaliseShot_renamed hsub hone hpair
  · rw [heq]
  · rw [hold, hnew, hnull]

/-- The names of a pair are interchangeable, but for a `null` total in a shot
that is otherwise accepted. -/
theorem schema_renamed_iff (hsub : pairs ⊆ aliases) (hone : OneName pairs fields) :
    SwingmetricShotSchema (.obj (renamed pairs fields)) = SwingmetricShotSchema (.obj fields) ↔
      ¬ (("total_yds", "total_yd") ∈ pairs ∧ (ownFields fields).get "total_yd" = some .null ∧
        OthersFit fields) := by
  have htotalPair : (("total_yds", "total_yd") : String × String) ∈ aliases := by decide
  obtain ⟨hnot, htotal⟩ | ⟨⟨hmem, hnull⟩, hold, hnew⟩ :=
    get_normaliseShot_renamed hsub hone htotalPair
  · refine iff_of_true ?_ fun h => hnot ⟨h.1, h.2.1⟩
    have hother (name : String) (hname : name ∉ canonicalNames ++ aliasNames) :
        (normaliseShot (renamed pairs fields)).get name = (normaliseShot fields).get name :=
      get_normaliseShot_renamed_other hsub (fun h => hname (List.mem_append_left _ h))
        fun h => hname (List.mem_append_right _ h)
    have hclub := required_renamed hsub hone (zString 1 64) rfl ("club_used", "club") (by decide)
    have hlaunch := required_renamed hsub hone (zNumber (-10) 70) rfl
      ("launch_angle", "launch_deg") (by decide)
    have hcarry := required_renamed hsub hone (zNumber 0 490) rfl ("carry_yds", "carry_yd")
      (by decide)
    have hoffline := required_renamed hsub hone (zNumber (-220) 220) rfl
      ("offline_yds", "offline_yd") (by decide)
    have hshape : swingmetricShotShape (normaliseShot (renamed pairs fields)) =
        swingmetricShotShape (normaliseShot fields) := by
      rw [swingmetricShotShape, swingmetricShotShape, hother "ts_ms" (by decide),
        hother "ball_speed_mph" (by decide), hother "swing_speed_mph" (by decide),
        hother "spin_rpm" (by decide), htotal, hclub, hlaunch, hcarry, hoffline]
    rw [SwingmetricShotSchema, SwingmetricShotSchema, zStrict, zStrict, hshape]
    exact if_congr (strict_renamed hsub) rfl rfl
  · -- Under its own name a null total counts as missing, under the other it is refused.
    have hrejected : SwingmetricShotSchema (.obj (renamed pairs fields)) = none := by
      rw [SwingmetricShotSchema, Option.eq_none_iff_forall_ne_some]
      intro shot h
      obtain ⟨_, _, _, _, _, _, _, _, htotal, _⟩ :=
        (zStrict_eq_some.mp h).imp_right swingmetricShotShape_eq_some.mp
      rw [hnew] at htotal
      exact absurd htotal (by simp [Schema.optional, zNumber])
    rw [hrejected, eq_comm, ← Option.not_isSome_iff_eq_none, isSome_schema_of_no_total hold]
    exact not_congr ⟨fun h => ⟨hmem, hnull, h⟩, fun h => h.2.2⟩

end

/-! ### A shot with and without its total -/

/-- A seven iron, under the canonical names. -/
def ironFields (total : Json) : List (String × Json) :=
  [("ts_ms", .num 1779199398000), ("club", .str "7I"), ("ball_speed_mph", .num (243 / 2)),
    ("launch_deg", .num (114 / 5)), ("carry_yd", .num 158), ("total_yd", total),
    ("offline_yd", .num (-21 / 10))]

theorem oneName_ironFields (total : Json) : OneName aliases (ironFields total) := by
  rintro pair hpair ⟨halias, _⟩
  simp only [aliases, List.mem_cons, List.not_mem_nil, or_false] at hpair
  obtain rfl | rfl | rfl | rfl | rfl := hpair <;> simp [hasKey, ironFields] at halias

/-- A total of `null` is overlooked under its canonical name only. -/
theorem schema_renamed_differs :
    ¬ ∀ (pairs : List (String × String)) (fields : List (String × Json)), pairs ⊆ aliases →
      OneName pairs fields →
      SwingmetricShotSchema (.obj (renamed pairs fields)) =
        SwingmetricShotSchema (.obj fields) := by
  intro h
  have heq := congrArg Option.isSome
    (h aliases (ironFields .null) (fun _ => id) (oneName_ironFields .null))
  exact absurd heq (by decide +kernel)

theorem schema_renamed_iff_iron :
    SwingmetricShotSchema (.obj (renamed aliases (ironFields (.num 165)))) =
      SwingmetricShotSchema (.obj (ironFields (.num 165))) := by
  refine (schema_renamed_iff (fun _ => id) (oneName_ironFields _)).mpr ?_
  rintro ⟨_, hnull, _⟩
  simp [ironFields, get_ownFields] at hnull

end PureplayIngest.Webhooks
