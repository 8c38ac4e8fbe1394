import PureplayIngest.Migrations.Files

/-!
The shipped aliases and `normaliseClub`.

The same mapping is written down twice, in `002_club_data.sql` and in the code. The
table has more aliases; all that the code recognises is in it with the same code, by
the text in lower case. A text with one of the few letters whose upper case is ASCII
and whose lower case is not is found by the lower case of its upper case.
-/

namespace PureplayIngest.Migrations

open Shared.Domain

theorem invertedIron_cases {s candidate : String} (h : invertedIron s = some candidate) :
    ∃ d, s = String.ofList ['I', d] ∧ candidate = String.ofList [d, 'I'] := by
  rw [invertedIron] at h
  split at h
  · rename_i d hlist
    split at h
    · refine ⟨d, ?_, (Option.some.inj h).symm⟩
      rw [← hlist, String.ofList_toList]
    · cases h
  · cases h

/-- The code that the shipped table has for a text. -/
def seededCode (clubAlias : String) : Option String :=
  (clubAliasSeed.find? fun row => row.clubAlias = clubAlias).map (·.club_code)

/-- The codes, but for the sentinel, are aliases of themselves. -/
theorem seededCode_code : ∀ code ∈ validClubCodes, code ≠ .unknown →
    seededCode (toLowerCase code.toString) = some code.toString := by
  decide +kernel

/-- So are the numbers of the irons with the letter before them. -/
theorem seededCode_inverted : ∀ code ∈ validClubCodes,
    code.toString = String.ofList [code.toString.toList.headD 'I', 'I'] →
      seededCode (toLowerCase (String.ofList ['I', code.toString.toList.headD 'I'])) =
        some code.toString := by
  decide +kernel

theorem seededCode_of_inverted {upper candidate : String} {code : ClubCode}
    (hcandidate : invertedIron upper = some candidate)
    (hfound : ClubCode.ofString? candidate = some code) :
    seededCode (toLowerCase upper) = some code.toString := by
  obtain ⟨d, rfl, rfl⟩ := invertedIron_cases hcandidate
  have hstring := ofString?_eq_some hfound
  have hhead : code.toString.toList.headD 'I' = d := by
    rw [hstring, String.toList_ofList]
    exact rfl
  have hseeded := seededCode_inverted code code.mem_validClubCodes
  rw [hhead] at hseeded
  exact hseeded hstring

theorem seededCode_aliasMap : ∀ entry ∈ aliasMap, seededCode entry.1 = some entry.2.toString := by
  decide +kernel

/-- What is in the table and recognised by the code has one code. -/
theorem seeds_recognised : ∀ row ∈ clubAliasSeed, normaliseClub row.clubAlias = .code .unknown ∨
    ∃ code ∈ validClubCodes, normaliseClub row.clubAlias = .code code ∧
      row.club_code = code.toString := by
  decide +kernel

theorem seededCode_of_alias {lower : String} {code : ClubCode}
    (h : (aliasLookup lower).getD (.code .unknown) = .code code) (hknown : code ≠ .unknown) :
    seededCode lower = some code.toString := by
  rw [aliasLookup] at h
  cases hlookup : aliasMap.lookup lower with
  | some found =>
      rw [hlookup] at h
      obtain rfl := ClubValue.code.inj h
      obtain ⟨before, after, heq, _⟩ := List.lookup_eq_some_iff.mp hlookup
      refine seededCode_aliasMap (lower, found) ?_
      rw [heq]
      exact List.mem_append_right _ List.mem_cons_self
  | none =>
      simp only [hlookup] at h
      split at h
      · cases h
      · split at h
        · cases h
        · exact absurd (ClubValue.code.inj h).symm hknown

/-- Whatever the code recognises, the table maps to the same code. -/
theorem seededCode_of_normaliseClub {raw : String} {code : ClubCode}
    (h : normaliseClub raw = .code code) (hknown : code ≠ .unknown) :
    seededCode (toLowerCase (trim raw)) = some code.toString ∨
      seededCode (toLowerCase (toUpperCase (trim raw))) = some code.toString := by
  rw [normaliseClub] at h
  split at h
  · exact absurd (ClubValue.code.inj h).symm hknown
  · split at h
    · rename_i hupper
      obtain rfl := ClubValue.code.inj h
      rw [← ofString?_eq_some hupper]
      exact .inr (seededCode_code _ (ClubCode.mem_validClubCodes _) hknown)
    · split at h
      · rename_i hinverted
        obtain rfl := ClubValue.code.inj h
        obtain ⟨candidate, hcandidate, hfound⟩ := Option.bind_eq_some_iff.mp hinverted
        exact .inr (seededCode_of_inverted hcandidate hfound)
      · exact .inl (seededCode_of_alias h hknown)

theorem seededCode_pitchingWedge :
    seededCode (toLowerCase (trim " Pitching Wedge")) = some ClubCode.pw.toString ∨
      seededCode (toLowerCase (toUpperCase (trim " Pitching Wedge"))) =
        some ClubCode.pw.toString :=
  seededCode_of_normaliseClub
    (show normaliseClub " Pitching Wedge" = .code .pw by decide +kernel) (by decide)

end PureplayIngest.Migrations
