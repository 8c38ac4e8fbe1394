import Mathlib.Data.List.TakeWhile
import Mathlib.Tactic.NormNum

/-!
Base64 with the URL-safe alphabet and without padding.

The decoder takes both alphabets, ends at the first sign of padding and passes
over every other character that is in neither.
-/

namespace PureplayIngest.Lib.Base64Url

def encodeSextet (n : ℕ) : Char :=
  if n < 26 then Char.ofNat (65 + n)
  else if n < 52 then Char.ofNat (71 + n)
  else if n < 62 then Char.ofNat (n - 4)
  else if n = 62 then '-' else '_'

def decodeSextet (ch : Char) : Option ℕ :=
  let c := ch.toNat
  if 65 ≤ c ∧ c ≤ 90 then some (c - 65)
  else if 97 ≤ c ∧ c ≤ 122 then some (c - 71)
  else if 48 ≤ c ∧ c ≤ 57 then some (c + 4)
  else if ch = '-' ∨ ch = '+' then some 62
  else if ch = '_' ∨ ch = '/' then some 63
  else none

def sextetsOfBytes : List ℕ → List ℕ
  | [] => []
  | [a] => [a / 4, a % 4 * 16]
  | [a, b] => [a / 4, a % 4 * 16 + b / 16, b % 16 * 4]
  | a :: b :: c :: bytes =>
      a / 4 :: (a % 4 * 16 + b / 16) :: (b % 16 * 4 + c / 64) :: c % 64 :: sextetsOfBytes bytes

/-- Bits that do not make up a byte are dropped. -/
def bytesOfSextets : List ℕ → List ℕ
  | a :: b :: c :: d :: sextets =>
      (a * 4 + b / 16) :: (b % 16 * 16 + c / 4) :: (c % 4 * 64 + d) :: bytesOfSextets sextets
  | [a, b, c] => [a * 4 + b / 16, b % 16 * 16 + c / 4]
  | [a, b] => [a * 4 + b / 16]
  | _ => []

def encode (bytes : List ℕ) : List Char := (sextetsOfBytes bytes).map encodeSextet

def decode (text : List Char) : List ℕ :=
  bytesOfSextets ((text.takeWhile (· ≠ '=')).filterMap decodeSextet)

theorem decodeSextet_encodeSextet {n : ℕ} (h : n < 64) :
    decodeSextet (encodeSextet n) = some n := by
  have key : ∀ i : Fin 64, decodeSextet (encodeSextet i.val) = some i.val := by decide
  exact key ⟨n, h⟩

theorem filterMap_decodeSextet {sextets : List ℕ} (h : ∀ n ∈ sextets, n < 64) :
    (sextets.map encodeSextet).filterMap decodeSextet = sextets := by
  induction sextets with
  | nil => rfl
  | cons n sextets ih =>
      have hread := decodeSextet_encodeSextet (h n List.mem_cons_self)
      rw [List.map_cons, List.filterMap_cons_some hread,
        ih fun m hm => h m (List.mem_cons_of_mem _ hm)]

/-- No padding is written. -/
theorem takeWhile_encodeSextet {sextets : List ℕ} (h : ∀ n ∈ sextets, n < 64) :
    (sextets.map encodeSextet).takeWhile (· ≠ '=') = sextets.map encodeSextet := by
  refine List.takeWhile_eq_self_iff.mpr fun ch hch => ?_
  obtain ⟨n, hn, rfl⟩ := List.mem_map.mp hch
  refine decide_eq_true fun heq => ?_
  have hread := decodeSextet_encodeSextet (h n hn)
  rw [heq] at hread
  exact absurd hread (by simp [decodeSextet])

theorem sextetsOfBytes_lt {bytes : List ℕ} (h : ∀ b ∈ bytes, b < 256) :
    ∀ n ∈ sextetsOfBytes bytes, n < 64 := by
  induction bytes using sextetsOfBytes.induct with
  | case1 => simp [sextetsOfBytes]
  | case2 a =>
      simp only [List.forall_mem_cons] at h
      simp only [sextetsOfBytes, List.forall_mem_cons]
      exact ⟨by omega, by omega, by simp⟩
  | case3 a b =>
      simp only [List.forall_mem_cons] at h
      simp only [sextetsOfBytes, List.forall_mem_cons]
      exact ⟨by omega, by omega, by omega, by simp⟩
  | case4 a b c bytes ih =>
      simp only [List.forall_mem_cons] at h
      obtain ⟨ha, hb, hc, hbytes⟩ := h
      simp only [sextetsOfBytes, List.forall_mem_cons]
      exact ⟨by omega, by omega, by omega, by omega, ih hbytes⟩

theorem bytesOfSextets_sextetsOfBytes {bytes : List ℕ} (h : ∀ b ∈ bytes, b < 256) :
    bytesOfSextets (sextetsOfBytes bytes) = bytes := by
  induction bytes using sextetsOfBytes.induct with
  | case1 => rfl
  | case2 a =>
      simp only [List.forall_mem_cons] at h
      simp only [sextetsOfBytes, bytesOfSextets, List.cons.injEq, and_true]
      omega
  | case3 a b =>
      simp only [List.forall_mem_cons] at h
      simp only [sextetsOfBytes, bytesOfSextets, List.cons.injEq, and_true]
      omega
  | case4 a b c bytes ih =>
      simp only [List.forall_mem_cons] at h
      obtain ⟨ha, hb, hc, hbytes⟩ := h
      simp only [sextetsOfBytes, bytesOfSextets, List.cons.injEq, ih hbytes, and_true]
      omega

theorem decode_encode {bytes : List ℕ} (h : ∀ b ∈ bytes, b < 256) :
    decode (encode bytes) = bytes := by
  have hsextets := sextetsOfBytes_lt h
  rw [decode, encode, takeWhile_encodeSextet hsextets, filterMap_decodeSextet hsextets]
  exact bytesOfSextets_sextetsOfBytes h

/-- Text in the other alphabet and with padding is read as well. -/
example : decode "+/8=AAAA".toList = [251, 255] ∧ encode [251, 255] = "-_8".toList := by decide

end PureplayIngest.Lib.Base64Url
