import PureplayIngest.Shared.Kysely.Types
import PureplayIngest.Webhooks.Swingmetric

/-!
The texts of a payload whose form a schema fixes. Timestamps, shot ids and
e-mail addresses have characters of a few kinds only, and so has the number an
idempotency key ends with: the database can hold them.
-/

namespace PureplayIngest.Webhooks

open Shared Shared.Kysely

theorem ne_nul_of_isDigit {ch : Char} (h : ch.isDigit = true) : ch ≠ '\x00' := by
  rintro rfl
  exact absurd h (by decide)

theorem nul_notMem_of_all {p : Char → Bool} {chars : List Char} (hp : p '\x00' = false)
    (h : chars.all p = true) : '\x00' ∉ chars :=
  fun hmem => absurd (hp.symm.trans (List.all_eq_true.mp h _ hmem)) (by decide)

/-! ### Timestamps -/

section Scan

variable {s rest : List Char} {n k : ℕ}

/-- What is read is no character 0, so one that there is comes after it. -/
theorem nul_mem_of_takeDigits (h : takeDigits n s = some (k, rest)) (hnul : '\x00' ∈ s) :
    '\x00' ∈ rest := by
  induction n generalizing s k with
  | zero => exact (Prod.mk.inj (Option.some.inj h)).2 ▸ hnul
  | succ n ih =>
      cases s with
      | nil => exact absurd h (by simp [takeDigits])
      | cons ch s =>
          rw [takeDigits] at h
          split at h
          · rename_i hdigit
            obtain ⟨⟨k', rest'⟩, htail, heq⟩ := Option.map_eq_some_iff.mp h
            obtain ⟨_, rfl⟩ := Prod.mk.inj heq
            exact ih htail ((List.mem_cons.mp hnul).resolve_left (ne_nul_of_isDigit hdigit).symm)
          · exact absurd h (by simp)

theorem nul_mem_of_expect {ch : Char} (hch : '\x00' ≠ ch) (h : expect ch s = some rest)
    (hnul : '\x00' ∈ s) : '\x00' ∈ rest := by
  cases s with
  | nil => exact absurd h (by simp [expect])
  | cons x s =>
      rw [expect] at h
      split at h
      · rename_i hx
        obtain rfl := Option.some.inj h
        exact (List.mem_cons.mp hnul).resolve_left (hx ▸ hch)
      · exact absurd h (by simp)

theorem nul_mem_dropWhile (hnul : '\x00' ∈ s) : '\x00' ∈ s.dropWhile Char.isDigit := by
  rw [← List.takeWhile_append_dropWhile (p := Char.isDigit) (l := s)] at hnul
  exact (List.mem_append.mp hnul).resolve_left (nul_notMem_of_all (by decide) List.all_takeWhile)

theorem nul_mem_of_scanSeconds {second millisecond : ℕ}
    (h : scanSeconds s = some (second, millisecond, rest)) (hnul : '\x00' ∈ s) :
    '\x00' ∈ rest := by
  rw [scanSeconds] at h
  split at h
  · obtain ⟨_, _, rfl⟩ : 0 = second ∧ 0 = millisecond ∧ s = rest := by simpa using h
    exact hnul
  · rename_i after hcolon
    obtain ⟨⟨sec, tail⟩, hdigits, h⟩ := Option.bind_eq_some_iff.mp h
    have htail := nul_mem_of_takeDigits hdigits (nul_mem_of_expect (by decide) hcolon hnul)
    dsimp only at h
    split at h
    · obtain ⟨_, _, rfl⟩ : sec = second ∧ 0 = millisecond ∧ tail = rest := by simpa using h
      exact htail
    · rename_i fraction hdot
      have hfraction := nul_mem_of_expect (by decide) hdot htail
      split at h
      · exact absurd h (by simp)
      · obtain ⟨_, heq⟩ := Prod.mk.inj (Option.some.inj h)
        exact (Prod.mk.inj heq).2 ▸ nul_mem_dropWhile hfraction

theorem nul_notMem_of_scanOffset {offsetMin : Option ℤ} (h : scanOffset s = some offsetMin) :
    '\x00' ∉ s := by
  intro hnul
  rw [scanOffset.eq_def] at h
  split at h
  · exact absurd hnul (by decide)
  · rename_i sign s' _
    simp only [Option.bind_eq_bind, Option.bind_eq_some_iff] at h
    obtain ⟨⟨hours, s₁⟩, hhours, s₂, hcolon, ⟨minutes, s₃⟩, hminutes, h⟩ := h
    split at h
    · rename_i hend
      have hnil : s₃ = [] := List.isEmpty_iff.mp hend.1
      have hsign : '\x00' ≠ sign := by
        rintro rfl
        exact absurd h (by simp)
      have hafter := (List.mem_cons.mp hnul).resolve_left hsign
      have hlast := nul_mem_of_takeDigits hminutes
        (nul_mem_of_expect (by decide) hcolon (nul_mem_of_takeDigits hhours hafter))
      exact absurd (hnil ▸ hlast) List.not_mem_nil
    · exact absurd h (by simp)
  · exact absurd hnul List.not_mem_nil

theorem noNul_of_scanDateTime {text : String} {parts : DateTimeParts}
    (h : scanDateTime text = some parts) : NoNul text := by
  intro hnul
  simp only [scanDateTime, Option.bind_eq_bind, Option.bind_eq_some_iff] at h
  obtain ⟨⟨_, s₁⟩, hyear, s₂, hdash, ⟨_, s₃⟩, hmonth, s₄, hdash', ⟨_, s₅⟩, hday, s₆, ht, ⟨_, s₇⟩,
    hhour, s₈, hcolon, ⟨_, s₉⟩, hminute, ⟨_, _, s₁₀⟩, hsecond, _, hoffset, _⟩ := h
  have hdate := nul_mem_of_takeDigits hday (nul_mem_of_expect (by decide) hdash'
    (nul_mem_of_takeDigits hmonth (nul_mem_of_expect (by decide) hdash
      (nul_mem_of_takeDigits hyear hnul))))
  have htime := nul_mem_of_takeDigits hminute (nul_mem_of_expect (by decide) hcolon
    (nul_mem_of_takeDigits hhour (nul_mem_of_expect (by decide) ht hdate)))
  exact nul_notMem_of_scanOffset hoffset (nul_mem_of_scanSeconds hsecond htime)

end Scan

/-! ### Patterns -/

theorem nul_notMem_of_matchesAll {tests : List (Char → Bool)} {chars : List Char}
    (htests : ∀ test ∈ tests, test '\x00' = false) (h : matchesAll tests chars = true) :
    '\x00' ∉ chars := by
  induction tests generalizing chars with
  | nil =>
      cases chars with
      | nil => exact List.not_mem_nil
      | cons ch chars => exact absurd h (by simp [matchesAll])
  | cons test tests ih =>
      cases chars with
      | nil => exact List.not_mem_nil
      | cons ch chars =>
          rw [matchesAll, Bool.and_eq_true] at h
          obtain ⟨htest, htests⟩ := List.forall_mem_cons.mp htests
          rintro (_ | ⟨_, hmem⟩)
          · exact absurd (htest.symm.trans h.1) (by decide)
          · exact ih htests h.2 hmem

theorem ShotUid.noNul (uid : ShotUid) : NoNul uid.value :=
  nul_notMem_of_matchesAll (by decide) uid.wellFormed

theorem mem_of_mem_intercalate {ch sep : Char} {parts : List (List Char)}
    (h : ch ∈ [sep].intercalate parts) : ch = sep ∨ ∃ part ∈ parts, ch ∈ part := by
  induction parts with
  | nil => exact absurd h (by simp [List.intercalate])
  | cons part parts ih =>
      cases parts with
      | nil => exact .inr ⟨part, List.mem_cons_self, by simpa [List.intercalate] using h⟩
      | cons next rest =>
          have hsplit : [sep].intercalate (part :: next :: rest) =
              part ++ sep :: [sep].intercalate (next :: rest) := by
            simp [List.intercalate]
          rw [hsplit, List.mem_append, List.mem_cons] at h
          obtain hpart | hsep | hrest := h
          · exact .inr ⟨part, List.mem_cons_self, hpart⟩
          · exact .inl hsep
          · exact (ih hrest).imp_right fun ⟨other, hother, hch⟩ =>
              ⟨other, List.mem_cons_of_mem _ hother, hch⟩

theorem exists_mem_splitOn {ch sep : Char} {chars : List Char} (hmem : ch ∈ chars)
    (hsep : ch ≠ sep) : ∃ part ∈ chars.splitOn sep, ch ∈ part := by
  have hjoined : ch ∈ [sep].intercalate (chars.splitOn sep) := by
    rwa [List.intercalate_splitOn]
  exact (mem_of_mem_intercalate hjoined).resolve_left hsep

theorem nul_notMem_of_isDomainLabel {label : List Char} (h : isDomainLabel label = true) :
    '\x00' ∉ label := by
  cases label with
  | nil => exact List.not_mem_nil
  | cons ch chars =>
      rw [isDomainLabel, Bool.and_eq_true] at h
      rintro (_ | ⟨_, hmem⟩)
      · exact absurd h.1 (by decide)
      · exact nul_notMem_of_all (by decide) h.2 hmem

theorem noNul_of_isEmail {s : String} (h : isEmail s = true) : NoNul s := by
  intro hnul
  obtain ⟨part, hpart, hmem⟩ := exists_mem_splitOn hnul (by decide : '\x00' ≠ '@')
  rw [isEmail] at h
  split at h
  · rename_i name domain hparts
    split at h
    · rename_i top label labels hlabels
      simp only [Bool.and_eq_true] at h
      obtain ⟨⟨⟨⟨⟨⟨_, _⟩, hname⟩, _⟩, hlabel⟩, _⟩, htop⟩ := h
      rw [hparts] at hpart
      obtain rfl | rfl := List.mem_pair.mp hpart
      · exact nul_notMem_of_all (by decide) hname hmem
      · obtain ⟨piece, hpiece, hmem⟩ := exists_mem_splitOn hmem (by decide : '\x00' ≠ '.')
        rw [← List.mem_reverse, hlabels] at hpiece
        obtain rfl | hpiece := List.mem_cons.mp hpiece
        · exact nul_notMem_of_all (by decide) htop hmem
        · exact nul_notMem_of_isDomainLabel (List.all_eq_true.mp hlabel _ hpiece) hmem
    · exact absurd h (by simp)
  · exact absurd h (by simp)

/-! ### Numbers -/

theorem noNul_natRepr (n : ℕ) : NoNul (Nat.repr n) := by
  rw [NoNul, Nat.repr, String.toList_ofList]
  exact fun hmem =>
    ne_nul_of_isDigit (Nat.isDigit_of_mem_toDigits (by decide) (by decide) hmem) rfl

theorem noNul_timeBucket (ts : ZInt 0 maxSafeInteger) :
    NoNul (toString (timeBucket ts.value)) := by
  have hmin := ts.min
  obtain ⟨n, hn⟩ : ∃ n : ℕ, timeBucket ts.value = n := by
    refine Int.eq_ofNat_of_zero_le ?_
    unfold timeBucket
    omega
  rw [hn]
  exact noNul_natRepr n

end PureplayIngest.Webhooks
