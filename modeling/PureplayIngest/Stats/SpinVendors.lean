import PureplayIngest.Stats.ClubAggregates

/-!
The vendors of `vendors_excluded`.

They are meant to be the vendors without spin data, and are collected from the
shots that have none. A vendor that reports a spin for some of its shots and
not for others is listed as well, although its values are part of the mean.
-/

namespace PureplayIngest.Stats

open Shared.Domain Lib

/-- A shot of the vendor counts for the mean. -/
def Contributes (shots : List StatsRow) (v : Vendor) : Prop :=
  ∃ s ∈ shots, s.vendor = v ∧ s.spin_rpm ≠ none

/-- The vendor has shots, and no spin with any of them. -/
def WithoutSpin (shots : List StatsRow) (v : Vendor) : Prop :=
  (∃ s ∈ shots, s.vendor = v) ∧ ∀ s ∈ shots, s.vendor = v → s.spin_rpm = none

/-- A vendor reports a spin for some of its shots, and none for others. -/
def MixedSpin (shots : List StatsRow) (v : Vendor) : Prop :=
  (∃ s ∈ shots, s.vendor = v ∧ s.spin_rpm = none) ∧ Contributes shots v

section Shots

variable {ν : Type} (numbers : Numbers ν) {shots : List StatsRow} {v : Vendor}

theorem mem_vendors_excluded :
    v ∈ (spinStats numbers shots).vendors_excluded ↔
      ∃ s ∈ shots, s.vendor = v ∧ s.spin_rpm = none := by
  simp only [spinStats, List.mem_eraseDups, List.mem_map, List.mem_filter, decide_eq_true_eq]
  constructor
  · rintro ⟨s, ⟨hs, hspin⟩, hv⟩
    exact ⟨s, hs, hv, hspin⟩
  · rintro ⟨s, hs, hv, hspin⟩
    exact ⟨s, ⟨hs, hspin⟩, hv⟩

theorem withoutSpin_iff :
    WithoutSpin shots v ↔
      v ∈ (spinStats numbers shots).vendors_excluded ∧ ¬ Contributes shots v := by
  rw [mem_vendors_excluded, WithoutSpin]
  constructor
  · rintro ⟨⟨s, hs, hv⟩, hnone⟩
    exact ⟨⟨s, hs, hv, hnone s hs hv⟩, fun ⟨t, ht, hvt, hspin⟩ => hspin (hnone t ht hvt)⟩
  · rintro ⟨⟨s, hs, hv, -⟩, hnot⟩
    refine ⟨⟨s, hs, hv⟩, fun t ht hvt => ?_⟩
    by_contra hspin
    exact hnot ⟨t, ht, hvt, hspin⟩

/-- The list is right about a vendor unless its shots are mixed. -/
theorem listed_iff_withoutSpin :
    (v ∈ (spinStats numbers shots).vendors_excluded ↔ WithoutSpin shots v) ↔
      ¬ MixedSpin shots v := by
  rw [withoutSpin_iff numbers, MixedSpin, ← mem_vendors_excluded numbers]
  constructor
  · rintro h ⟨hlisted, hcontributes⟩
    exact (h.mp hlisted).2 hcontributes
  · intro h
    exact ⟨fun hlisted => ⟨hlisted, fun hcontributes => h ⟨hlisted, hcontributes⟩⟩, And.left⟩

end Shots

section Aggregates

variable {ν : Type} (numbers : Numbers ν)

/-- The shots of the group of a club. -/
def shotsOf (rows : List StatsRow) (clubCode : ClubValue) : List StatsRow :=
  rows.filter (·.club_code = clubCode)

/--
What `vendors_excluded` says is true, and no vendor in it contributes to the
mean, exactly when the club has no vendor with both kinds of shots.
-/
theorem vendors_excluded_iff (rows : List StatsRow) :
    ∀ club ∈ aggregates numbers rows,
      ((∀ v, v ∈ club.spin_rpm.vendors_excluded ↔
            WithoutSpin (shotsOf rows club.club_code) v) ∧
          ∀ v ∈ club.spin_rpm.vendors_excluded,
            ¬ Contributes (shotsOf rows club.club_code) v) ↔
        ∀ v, ¬ MixedSpin (shotsOf rows club.club_code) v := by
  intro club hclub
  have hspin : club.spin_rpm = spinStats numbers (shotsOf rows club.club_code) :=
    congrArg ClubAggregate.spin_rpm ((mem_aggregates numbers).mp hclub).2
  rw [hspin]
  constructor
  · intro h v
    exact (listed_iff_withoutSpin numbers).mp (h.1 v)
  · intro h
    exact ⟨fun v => (listed_iff_withoutSpin numbers).mpr (h v),
      fun v hlisted hcontributes =>
        h v ⟨(mem_vendors_excluded numbers).mp hlisted, hcontributes⟩⟩

theorem clubAggregate_mem {rows : List StatsRow} {row : StatsRow} (hrow : row ∈ rows) :
    clubAggregate numbers row.club_code (shotsOf rows row.club_code) ∈ aggregates numbers rows :=
  (mem_aggregates numbers).mpr ⟨⟨row, hrow, rfl⟩, rfl⟩

end Aggregates

/-- A shot of `driverRow`'s vendor for which the spin was not measured. -/
def missedSpin : StatsRow := { driverRow with spin_rpm := none }

theorem vendors_excluded_iff_driverRow :
    .swingmetric ∈ (clubAggregate Numbers.ofFractions driverRow.club_code
        (shotsOf [driverRow, spinlessRow] driverRow.club_code)).spin_rpm.vendors_excluded ↔
      WithoutSpin (shotsOf [driverRow, spinlessRow] driverRow.club_code) .swingmetric := by
  refine ((vendors_excluded_iff Numbers.ofFractions [driverRow, spinlessRow] _
    (clubAggregate_mem _ List.mem_cons_self)).mpr fun v hmixed => ?_).1 .swingmetric
  obtain ⟨⟨s, hs, hv, hspin⟩, t, ht, rfl, hspin'⟩ := hmixed
  have hs : s = driverRow ∨ s = spinlessRow := by simpa using List.mem_of_mem_filter hs
  have ht : t = driverRow ∨ t = spinlessRow := by simpa using List.mem_of_mem_filter ht
  rcases hs with rfl | rfl <;> rcases ht with rfl | rfl
  · exact absurd hspin (by decide)
  · exact hspin' rfl
  · exact absurd hv (by decide)
  · exact hspin' rfl

/-- The driver's vendor is listed, and its spin of 2600 is the mean. -/
theorem vendors_excluded_missedSpin :
    ¬ ∀ club ∈ aggregates Numbers.ofFractions [driverRow, missedSpin],
      ∀ v, v ∈ club.spin_rpm.vendors_excluded ↔
        WithoutSpin (shotsOf [driverRow, missedSpin] club.club_code) v := by
  intro h
  have hmixed : MixedSpin (shotsOf [driverRow, missedSpin] driverRow.club_code) .trackpro :=
    ⟨⟨missedSpin, by decide, rfl, rfl⟩, driverRow, by decide, rfl, by decide⟩
  exact (listed_iff_withoutSpin Numbers.ofFractions).mp
    (h _ (clubAggregate_mem _ List.mem_cons_self) .trackpro) hmixed

end PureplayIngest.Stats
