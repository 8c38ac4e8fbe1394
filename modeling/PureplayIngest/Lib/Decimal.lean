import Mathlib.Tactic.NormNum
import Std.Data.String.ToNat

/-!
Decimal numerals of a fixed width, most significant digit first.
-/

namespace PureplayIngest.Lib

/-- The character of the last decimal digit of `k`. -/
def digit (k : ℕ) : Char := Char.ofNat (48 + k % 10)

/-- The last `n` decimal digits of `k`, zero-padded on the left. -/
def pad : ℕ → ℕ → List Char
  | 0, _ => []
  | n + 1, k => pad n (k / 10) ++ [digit k]

theorem digit_toNat (k : ℕ) : (digit k).toNat = 48 + k % 10 := by
  have key : ∀ i : Fin 10, (Char.ofNat (48 + i.val)).toNat = 48 + i.val := by decide
  exact key ⟨k % 10, Nat.mod_lt _ (by norm_num)⟩

theorem isDigit_digit (k : ℕ) : (digit k).isDigit = true := by
  have key : ∀ i : Fin 10, (Char.ofNat (48 + i.val)).isDigit = true := by decide
  exact key ⟨k % 10, Nat.mod_lt _ (by norm_num)⟩

theorem digit_inj {k k' : ℕ} (h : digit k = digit k') : k % 10 = k' % 10 := by
  have hval := congrArg Char.toNat h
  rw [digit_toNat, digit_toNat] at hval
  omega

@[simp] theorem length_pad (n k : ℕ) : (pad n k).length = n := by
  induction n generalizing k with
  | zero => rfl
  | succ n ih => simp [pad, ih]

/-- The numeral from its most significant digit on. -/
theorem pad_succ (n k : ℕ) : pad (n + 1) k = digit (k / 10 ^ n) :: pad n k := by
  induction n generalizing k with
  | zero => rw [pow_zero, Nat.div_one]; rfl
  | succ n ih =>
      have hpow : 10 ^ (n + 1) = 10 * 10 ^ n := by rw [pow_succ, Nat.mul_comm]
      rw [hpow, ← Nat.div_div_eq_div_mul]
      show pad (n + 1) (k / 10) ++ [digit k] = _
      rw [ih, List.cons_append]
      rfl

theorem pad_inj {n k k' : ℕ} (hk : k < 10 ^ n) (hk' : k' < 10 ^ n)
    (h : pad n k = pad n k') : k = k' := by
  induction n generalizing k k' with
  | zero => simp only [pow_zero] at hk hk'; omega
  | succ n ih =>
      obtain ⟨hhigh, hlow⟩ := List.append_inj' h rfl
      have hdigit := digit_inj (List.singleton_inj.mp hlow)
      have hdiv : k / 10 = k' / 10 :=
        ih (by rw [pow_succ] at hk; omega) (by rw [pow_succ] at hk'; omega) hhigh
      omega

/-- Every character of a padded numeral is a digit. -/
theorem mem_pad {n k : ℕ} {ch : Char} (h : ch ∈ pad n k) : 48 ≤ ch.toNat ∧ ch.toNat ≤ 57 := by
  induction n generalizing k with
  | zero => simp [pad] at h
  | succ n ih =>
      rcases List.mem_append.mp h with h | h
      · exact ih h
      · obtain rfl := List.mem_singleton.mp h
        rw [digit_toNat]
        omega

theorem isDigit_pad {n k : ℕ} {ch : Char} (h : ch ∈ pad n k) : ch.isDigit = true := by
  obtain ⟨hlower, hupper⟩ := mem_pad h
  simp only [Char.isDigit, Bool.and_eq_true, decide_eq_true_eq]
  exact ⟨hlower, hupper⟩

/-- Every character of a numeral is a digit. -/
theorem isDigit_toString {n : ℕ} {ch : Char} (h : ch ∈ (toString n).toList) : ch.isDigit = true :=
  Nat.isDigit_of_mem_toDigits (b := 10) (by decide) (by decide)
    (show ch ∈ Nat.toDigits 10 n by simpa [Nat.repr] using h)

/-! ### Numerals are compared as numbers -/

theorem digit_lt {k k' : ℕ} (h : k % 10 < k' % 10) : digit k < digit k' := by
  show (digit k).toNat < (digit k').toNat
  rw [digit_toNat, digit_toNat]
  omega

/-- The signs, among others, are before all digits. -/
theorem lt_digit {ch : Char} (h : ch.toNat < 48) (k : ℕ) : ch < digit k := by
  show ch.toNat < (digit k).toNat
  rw [digit_toNat]
  omega

theorem pad_append_lt {n k k' : ℕ} (hk : k < 10 ^ n) (hk' : k' < 10 ^ n) {s s' : List Char}
    (h : k < k' ∨ k = k' ∧ s < s') : pad n k ++ s < pad n k' ++ s' := by
  induction n generalizing k k' s s' with
  | zero =>
      rw [pow_zero] at hk hk'
      obtain h | ⟨_, h⟩ := h
      · omega
      · exact h
  | succ n ih =>
      rw [pow_succ] at hk hk'
      simp only [pad, List.append_assoc, List.singleton_append]
      refine ih (Nat.div_lt_of_lt_mul (by rwa [Nat.mul_comm]))
        (Nat.div_lt_of_lt_mul (by rwa [Nat.mul_comm])) ?_
      obtain hlt | ⟨rfl, hlt⟩ := h
      · have hdiv : k / 10 < k' / 10 ∨ k / 10 = k' / 10 ∧ k % 10 < k' % 10 := by omega
        exact hdiv.imp_right fun ⟨heq, hlast⟩ => ⟨heq, List.Lex.rel (digit_lt hlast)⟩
      · exact .inr ⟨rfl, List.cons_lt_cons_self.mpr hlt⟩

end PureplayIngest.Lib
