import Mathlib.Data.Nat.Notation
import Mathlib.Tactic.NormNum

/-!
UTF-8, with the decoder that never fails: what is not part of a character is
replaced, a maximal prefix of a character at a time. Bytes are numbers.
-/

namespace PureplayIngest.Lib.Utf8

def encodeChar (ch : Char) : List ℕ :=
  let c := ch.toNat
  if c < 0x80 then [c]
  else if c < 0x800 then [0xC0 + c / 64, 0x80 + c % 64]
  else if c < 0x10000 then [0xE0 + c / 4096, 0x80 + c / 64 % 64, 0x80 + c % 64]
  else [0xF0 + c / 262144, 0x80 + c / 4096 % 64, 0x80 + c / 64 % 64, 0x80 + c % 64]

def encode (text : List Char) : List ℕ := text.flatMap encodeChar

def replacement : Char := '\uFFFD'

/-- A character begun: its bits so far, the bytes it lacks, and the bounds of
the next one. -/
structure Pending where
  codePoint : ℕ
  needed : ℕ
  lower : ℕ
  upper : ℕ

/-- A byte that does not continue a character. The bounds after `0xE0`, `0xED`,
`0xF0` and `0xF4` exclude overlong forms, surrogates and what lies past the
last code point. -/
def lead (b : ℕ) : List Char × Option Pending :=
  if b < 0x80 then ([Char.ofNat b], none)
  else if b < 0xC2 then ([replacement], none)
  else if b < 0xE0 then ([], some ⟨b - 0xC0, 1, 0x80, 0xBF⟩)
  else if b < 0xF0 then
    ([], some ⟨b - 0xE0, 2, if b = 0xE0 then 0xA0 else 0x80, if b = 0xED then 0x9F else 0xBF⟩)
  else if b < 0xF5 then
    ([], some ⟨b - 0xF0, 3, if b = 0xF0 then 0x90 else 0x80, if b = 0xF4 then 0x8F else 0xBF⟩)
  else ([replacement], none)

def next : Option Pending → ℕ → List Char × Option Pending
  | none, b => lead b
  | some p, b =>
      if p.lower ≤ b ∧ b ≤ p.upper then
        let codePoint := p.codePoint * 64 + (b - 0x80)
        if p.needed = 1 then ([Char.ofNat codePoint], none)
        else ([], some ⟨codePoint, p.needed - 1, 0x80, 0xBF⟩)
      else (replacement :: (lead b).1, (lead b).2)

def decodeFrom : Option Pending → List ℕ → List Char
  | none, [] => []
  | some _, [] => [replacement]
  | state, b :: bytes => (next state b).1 ++ decodeFrom (next state b).2 bytes

def decode (bytes : List ℕ) : List Char := decodeFrom none bytes

theorem decodeFrom_cons (state : Option Pending) (b : ℕ) (bytes : List ℕ) :
    decodeFrom state (b :: bytes) = (next state b).1 ++ decodeFrom (next state b).2 bytes := by
  cases state <;> rfl

/-- A continuation byte that is not the last one. -/
theorem decodeFrom_more {codePoint c n lower upper b : ℕ} {bytes : List ℕ}
    (hb : lower ≤ b ∧ b ≤ upper) (hc : codePoint * 64 + (b - 0x80) = c) :
    decodeFrom (some ⟨codePoint, n + 2, lower, upper⟩) (b :: bytes) =
      decodeFrom (some ⟨c, n + 1, 0x80, 0xBF⟩) bytes := by
  rw [decodeFrom_cons, next, if_pos hb, if_neg (by omega : n + 2 ≠ 1), ← hc]
  rfl

theorem decodeFrom_done {codePoint c lower upper b : ℕ} {bytes : List ℕ}
    (hb : lower ≤ b ∧ b ≤ upper) (hc : codePoint * 64 + (b - 0x80) = c) :
    decodeFrom (some ⟨codePoint, 1, lower, upper⟩) (b :: bytes) =
      Char.ofNat c :: decodeFrom none bytes := by
  rw [decodeFrom_cons, next, if_pos hb, if_pos rfl, ← hc]
  rfl

theorem toNat_valid (ch : Char) :
    ch.toNat < 0xD800 ∨ 0xDFFF < ch.toNat ∧ ch.toNat < 0x110000 := ch.valid

/-- The bytes of a character are read as that character. -/
theorem decodeFrom_encodeChar (ch : Char) (bytes : List ℕ) :
    decodeFrom none (encodeChar ch ++ bytes) = ch :: decodeFrom none bytes := by
  have hvalid := toNat_valid ch
  have hch := Char.ofNat_toNat ch
  rw [encodeChar]
  generalize ch.toNat = c at hvalid hch
  split
  · rename_i h1
    rw [List.singleton_append, decodeFrom_cons, next, lead, if_pos h1, hch]
    rfl
  · split
    · rename_i h1 h2
      rw [List.cons_append, List.singleton_append, decodeFrom_cons, next, lead,
        if_neg (by omega), if_neg (by omega), if_pos (by omega), List.nil_append,
        decodeFrom_done (by omega) (by omega : _ = c), hch]
    · split
      · rename_i h1 h2 h3
        rw [List.cons_append, List.cons_append, List.singleton_append, decodeFrom_cons, next, lead,
          if_neg (by omega), if_neg (by omega), if_neg (by omega), if_pos (by omega),
          List.nil_append, decodeFrom_more (by split <;> split <;> omega) rfl,
          decodeFrom_done (by omega) (by omega : _ = c), hch]
      · rename_i h1 h2 h3
        rw [List.cons_append, List.cons_append, List.cons_append, List.singleton_append,
          decodeFrom_cons, next, lead, if_neg (by omega), if_neg (by omega), if_neg (by omega),
          if_neg (by omega), if_pos (by omega), List.nil_append,
          decodeFrom_more (by split <;> split <;> omega) rfl, decodeFrom_more (by omega) rfl,
          decodeFrom_done (by omega) (by omega : _ = c), hch]

theorem decode_encode (text : List Char) : decode (encode text) = text := by
  induction text with
  | nil => rfl
  | cons ch text ih =>
      rw [encode, List.flatMap_cons, decode, decodeFrom_encodeChar]
      exact congrArg (ch :: ·) ih

theorem encode_inj {text text' : List Char} : encode text = encode text' ↔ text = text' := by
  constructor
  · intro h
    rw [← decode_encode text, h, decode_encode]
  · rintro rfl
    rfl

theorem encodeChar_lt {ch : Char} {b : ℕ} (h : b ∈ encodeChar ch) : b < 256 := by
  have hvalid := toNat_valid ch
  rw [encodeChar] at h
  generalize ch.toNat = c at hvalid h

  split at h
  · simp only [List.mem_cons, List.not_mem_nil, or_false] at h
    omega
  · split at h
    · simp only [List.mem_cons, List.not_mem_nil, or_false] at h
      omega
    · split at h <;>
      · simp only [List.mem_cons, List.not_mem_nil, or_false] at h
        omega

theorem encode_lt {text : List Char} {b : ℕ} (h : b ∈ encode text) : b < 256 := by
  obtain ⟨ch, _, hb⟩ := List.mem_flatMap.mp h
  exact encodeChar_lt hb

end PureplayIngest.Lib.Utf8
