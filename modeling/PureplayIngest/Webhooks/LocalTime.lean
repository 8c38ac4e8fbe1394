import PureplayIngest.Webhooks.Proswing

/-!
The local time of a ProSwing shot.

The instant and the offset are read from the same string, by `Date` and by a
regular expression that looks at its last six characters. Both see the same
offset, so the local time is what the string says.
-/

namespace PureplayIngest.Webhooks

open Shared Shared.Domain Lib Ingestion

section Scan

variable {s rest : List Char} {ch : Char} {n k : ℕ}

theorem takeDigits_succ (h : takeDigits (n + 1) s = some (k, rest)) :
    ∃ c s' low, s = c :: s' ∧ c.isDigit = true ∧ takeDigits n s' = some (low, rest) ∧
      k = (c.toNat - 48) * 10 ^ n + low := by
  cases s with
  | nil => exact absurd h (by simp [takeDigits])
  | cons c s =>
      rw [takeDigits] at h
      split at h
      · rename_i hdigit
        obtain ⟨⟨low, s'⟩, hlow, heq⟩ := Option.map_eq_some_iff.mp h
        obtain ⟨rfl, rfl⟩ := Prod.mk.inj heq
        exact ⟨c, s, low, rfl, hdigit, hlow, rfl⟩
      · exact absurd h (by simp)

theorem takeDigits_suffix (h : takeDigits n s = some (k, rest)) : rest <:+ s := by
  induction n generalizing s k with
  | zero =>
      obtain ⟨_, rfl⟩ : 0 = k ∧ s = rest := by simpa [takeDigits] using h
      exact List.suffix_rfl
  | succ n ih =>
      obtain ⟨c, s', low, rfl, _, hlow, _⟩ := takeDigits_succ h
      exact (ih hlow).trans (List.suffix_cons c s')

theorem expect_suffix (h : expect ch s = some rest) : s = ch :: rest := by
  cases s with
  | nil => exact absurd h (by simp [expect])
  | cons c s =>
      rw [expect] at h
      split at h
      · rename_i heq
        rw [heq, Option.some.inj h]
      · exact absurd h (by simp)

/-- Two digits, as the regular expression reads them. -/
theorem takeDigits_two (h : takeDigits 2 s = some (k, rest)) :
    ∃ a b, s = a :: b :: rest ∧ a.isDigit = true ∧ b.isDigit = true ∧
      k = (a.toNat - 48) * 10 + (b.toNat - 48) := by
  obtain ⟨a, s₁, high, rfl, ha, hhigh, rfl⟩ := takeDigits_succ h
  obtain ⟨b, s₂, low, rfl, hb, hlow, rfl⟩ := takeDigits_succ hhigh
  obtain ⟨rfl, rfl⟩ : 0 = low ∧ s₂ = rest := by simpa [takeDigits] using hlow
  exact ⟨a, b, rfl, ha, hb, by omega⟩

theorem scanSeconds_suffix {second millisecond : ℕ}
    (h : scanSeconds s = some (second, millisecond, rest)) : rest <:+ s := by
  unfold scanSeconds at h
  split at h
  · obtain ⟨_, _, rfl⟩ : 0 = second ∧ 0 = millisecond ∧ s = rest := by simpa using h
    exact List.suffix_rfl
  · rename_i s₁ hcolon
    rw [expect_suffix hcolon]
    obtain ⟨⟨k, s₂⟩, hsecond, h⟩ := Option.bind_eq_some_iff.mp h
    have hsuffix := (takeDigits_suffix hsecond).trans (List.suffix_cons ':' s₁)
    dsimp only at h
    split at h
    · obtain ⟨_, _, rfl⟩ : k = second ∧ 0 = millisecond ∧ s₂ = rest := by simpa using h
      exact hsuffix
    · rename_i s₃ hpoint
      split at h
      · exact absurd h (by simp)
      · obtain ⟨_, _, rfl⟩ : k = second ∧ _ = millisecond ∧ s₃.dropWhile Char.isDigit = rest := by
          simpa using h
        rw [expect_suffix hpoint] at hsuffix
        exact ((List.dropWhile_suffix _).trans (List.suffix_cons '.' s₃)).trans hsuffix

/-- The offset is what a timestamp ends with. -/
theorem scanDateTime_offset {text : String} {p : DateTimeParts}
    (h : scanDateTime text = some p) :
    ∃ tail, tail <:+ text.toList ∧ scanOffset tail = some p.offsetMin := by
  simp only [scanDateTime, Option.bind_eq_bind, Option.bind_eq_some_iff, Prod.exists] at h
  obtain ⟨year, s₁, hyear, s₂, hdash, month, s₃, hmonth, s₄, hdash', day, s₅, hday, s₆, hT, hour,
    s₇, hhour, s₈, hcolon, minute, s₉, hminute, second, millisecond, tail, hseconds, offsetMin,
    hoffset, hp⟩ := h
  obtain rfl := Option.some.inj hp
  refine ⟨tail, ?_, hoffset⟩
  have hsuffix {c : Char} {s s' : List Char} (he : expect c s = some s') : s' <:+ s :=
    expect_suffix he ▸ List.suffix_cons c s'
  -- From the first digit of the year to the offset.
  have hdate : s₆ <:+ text.toList :=
    (hsuffix hT).trans ((takeDigits_suffix hday).trans ((hsuffix hdash').trans
      ((takeDigits_suffix hmonth).trans ((hsuffix hdash).trans (takeDigits_suffix hyear)))))
  have htime : tail <:+ s₆ :=
    (scanSeconds_suffix hseconds).trans ((takeDigits_suffix hminute).trans
      ((hsuffix hcolon).trans (takeDigits_suffix hhour)))
  exact htime.trans hdate

end Scan

/-- The offset as the regular expression reads it is that of the timestamp. -/
theorem tzMatch_eq {text : String} {p : DateTimeParts} (h : scanDateTime text = some p) :
    tzMatch text = p.offsetMin := by
  obtain ⟨tail, ⟨before, htext⟩, hoffset⟩ := scanDateTime_offset h
  have hreverse : text.toList.reverse = tail.reverse ++ before.reverse := by
    rw [← htext, List.reverse_append]
  unfold scanOffset at hoffset
  split at hoffset
  · -- The `Z` is no digit.
    rw [← Option.some.inj hoffset, tzMatch, hreverse]
    split
    · rename_i m0 m1 colon h0 h1 sign rest heq
      obtain rfl : 'Z' = m0 := (List.cons.inj heq).1
      rfl
    · rfl
  · rename_i sign s hne
    obtain ⟨⟨hours, s₁⟩, hhours, hrest⟩ := Option.bind_eq_some_iff.mp hoffset
    obtain ⟨s₂, hcolon, hrest'⟩ := Option.bind_eq_some_iff.mp hrest
    obtain ⟨⟨minutes, s₃⟩, hminutes, hsign⟩ := Option.bind_eq_some_iff.mp hrest'
    dsimp only at hsign
    obtain ⟨h1, h0, rfl, hh1, hh0, rfl⟩ := takeDigits_two hhours
    obtain rfl := expect_suffix hcolon
    obtain ⟨m1, m0, rfl, hm1, hm0, rfl⟩ := takeDigits_two hminutes
    split at hsign
    · rename_i hrange
      obtain rfl := List.isEmpty_iff.mp hrange.1
      have hlast : [sign, h1, h0, ':', m1, m0].reverse ++ before.reverse =
          m0 :: m1 :: ':' :: h0 :: h1 :: sign :: before.reverse := rfl
      rw [tzMatch, hreverse, hlast]
      simp only [hm0, hm1, hh0, hh1, beq_self_eq_true, Bool.and_self, if_true]
      split at hsign
      · exact Option.some.inj hsign
      · exact Option.some.inj hsign
      · exact absurd hsign (by simp)
    · exact absurd hsign (by simp)
  · exact absurd hoffset (by simp)

end PureplayIngest.Webhooks
