/-!
Club codes and the lookup that turns a vendor's club string into one.

`ALIAS_MAP` is a plain object, so indexing it with a string it has no entry
for falls through to `Object.prototype`. Lower-cased keys reach exactly two
of its members, and both are truthy; `normaliseClub` then returns that member
where its type promises a club code. `ClubValue` is what the lookup can
really return.
-/

namespace PureplayIngest.Shared.Domain

inductive ClubCode
  | dr
  | w3 | w4 | w5 | w7
  | h2 | h3 | h4 | h5
  | i1 | i2 | i3 | i4 | i5 | i6 | i7 | i8 | i9
  | pw | gw | aw | sw | lw
  | pt
  | unknown
  deriving DecidableEq, Repr

/-- The members of `VALID_CLUB_CODES`, in its order. -/
def validClubCodes : List ClubCode :=
  [.dr, .w3, .w4, .w5, .w7, .h2, .h3, .h4, .h5, .i1, .i2, .i3, .i4, .i5, .i6, .i7, .i8, .i9,
    .pw, .gw, .aw, .sw, .lw, .pt, .unknown]

def ClubCode.toString : ClubCode → String
  | .dr => "DR"
  | .w3 => "3W" | .w4 => "4W" | .w5 => "5W" | .w7 => "7W"
  | .h2 => "2H" | .h3 => "3H" | .h4 => "4H" | .h5 => "5H"
  | .i1 => "1I" | .i2 => "2I" | .i3 => "3I" | .i4 => "4I" | .i5 => "5I" | .i6 => "6I"
  | .i7 => "7I" | .i8 => "8I" | .i9 => "9I"
  | .pw => "PW" | .gw => "GW" | .aw => "AW" | .sw => "SW" | .lw => "LW"
  | .pt => "PT"
  | .unknown => "UNKNOWN"

/-- `VALID_CLUB_CODES.includes(s)`, with the code found. -/
def ClubCode.ofString? (s : String) : Option ClubCode :=
  validClubCodes.find? fun code => code.toString = s

/-- What indexing `ALIAS_MAP` can give: a code, or one of the two members of
`Object.prototype` whose names are all lower case. -/
inductive ClubValue
  | code (c : ClubCode)
  | objectConstructor
  | objectPrototype
  deriving DecidableEq, Repr

/-- The value as `Array.prototype.join` writes it. -/
def ClubValue.toString : ClubValue → String
  | .code c => c.toString
  | .objectConstructor => "function Object() \x7b [native code] \x7d"
  | .objectPrototype => "[object Object]"

def aliasMap : List (String × ClubCode) :=
  [("driver", .dr),
    ("3 wood", .w3), ("4 wood", .w4), ("5 wood", .w5), ("7 wood", .w7),
    ("3wood", .w3), ("4wood", .w4), ("5wood", .w5), ("7wood", .w7),
    ("2 hybrid", .h2), ("3 hybrid", .h3), ("4 hybrid", .h4), ("5 hybrid", .h5),
    ("2hybrid", .h2), ("3hybrid", .h3), ("4hybrid", .h4), ("5hybrid", .h5),
    ("1 iron", .i1), ("2 iron", .i2), ("3 iron", .i3), ("4 iron", .i4), ("5 iron", .i5),
    ("6 iron", .i6), ("7 iron", .i7), ("8 iron", .i8), ("9 iron", .i9),
    ("1iron", .i1), ("2iron", .i2), ("3iron", .i3), ("4iron", .i4), ("5iron", .i5),
    ("6iron", .i6), ("7iron", .i7), ("8iron", .i8), ("9iron", .i9),
    ("pitching wedge", .pw), ("gap wedge", .gw), ("approach wedge", .aw), ("sand wedge", .sw),
    ("lob wedge", .lw),
    ("putter", .pt)]

/-- `ALIAS_MAP[key]`: own entries first, then the prototype chain. Its other
members have an upper-case letter in their names and no lower-cased key
reaches them. -/
def aliasLookup (key : String) : Option ClubValue :=
  match aliasMap.lookup key with
  | some c => some (.code c)
  | none =>
      if key = "constructor" then some .objectConstructor
      else if key = "__proto__" then some .objectPrototype
      else none

/-- The characters `String.prototype.trim` removes. -/
def isJsSpace (ch : Char) : Bool :=
  ch ∈ ['\t', '\n', '\x0b', '\x0c', '\r', ' ', '\u00a0', '\u1680', '\u2028', '\u2029', '\u202f',
    '\u205f', '\u3000', '\ufeff'] ∨ (0x2000 ≤ ch.toNat ∧ ch.toNat ≤ 0x200a)

def trim (s : String) : String :=
  String.ofList ((s.toList.dropWhile isJsSpace).reverse.dropWhile isJsSpace).reverse

/-- `toUpperCase` on one character. The result is only compared with ASCII
strings, so characters whose upper case is not ASCII are left as they are;
the dotless i and the long s are the two whose upper case is one letter. -/
def upperChar (ch : Char) : List Char :=
  if ch = '\u0131' then ['I']
  else if ch = '\u017f' then ['S']
  else if ch = '\u00df' then ['S', 'S']
  else if ch = '\ufb00' then ['F', 'F']
  else if ch = '\ufb01' then ['F', 'I']
  else if ch = '\ufb02' then ['F', 'L']
  else if ch = '\ufb03' then ['F', 'F', 'I']
  else if ch = '\ufb04' then ['F', 'F', 'L']
  else if ch = '\ufb05' ∨ ch = '\ufb06' then ['S', 'T']
  else [ch.toUpper]

def toUpperCase (s : String) : String := String.ofList (s.toList.flatMap upperChar)

/-- `toLowerCase`, again as far as ASCII results go: besides the ASCII letters
only the Kelvin sign has an ASCII lower case. -/
def lowerChar (ch : Char) : Char := if ch = '\u212a' then 'k' else ch.toLower

def toLowerCase (s : String) : String := String.ofList (s.toList.map lowerChar)

/-- The match of `^I(\d)$`, as the candidate with number and letter swapped. -/
def invertedIron (upper : String) : Option String :=
  match upper.toList with
  | ['I', d] => if d.isDigit then some (String.ofList [d, 'I']) else none
  | _ => none

def normaliseClub (raw : String) : ClubValue :=
  if raw = "" then .code .unknown
  else
    match ClubCode.ofString? (toUpperCase (trim raw)) with
    | some c => .code c
    | none =>
        match (invertedIron (toUpperCase (trim raw))).bind ClubCode.ofString? with
        | some c => .code c
        | none => (aliasLookup (toLowerCase (trim raw))).getD (.code .unknown)

example : normaliseClub " i7" = .code .i7 := by decide
example : normaliseClub "Pitching Wedge" = .code .pw := by decide

/-! ### What the lookup returns -/

theorem ofString?_eq_some {s : String} {code : ClubCode} (h : ClubCode.ofString? s = some code) :
    code.toString = s := by
  rw [ClubCode.ofString?] at h
  simpa using List.find?_some h

theorem ClubCode.length_toString (code : ClubCode) : code.toString.length ≤ 7 := by
  cases code <;> decide

theorem ClubCode.mem_validClubCodes (code : ClubCode) : code ∈ validClubCodes := by
  cases code <;> decide

/-- A code is its own normal form. -/
theorem normaliseClub_toString (code : ClubCode) : normaliseClub code.toString = .code code := by
  cases code <;> decide

theorem length_toLowerCase (s : String) : (toLowerCase s).length = s.length := by
  rw [toLowerCase, String.length_ofList, List.length_map, String.length_toList]

theorem upperChar_ne_nil (ch : Char) : upperChar ch ≠ [] := by
  intro h
  simp only [upperChar] at h
  repeat (split at h <;> try contradiction)

theorem length_le_toUpperCase (s : String) : s.length ≤ (toUpperCase s).length := by
  rw [toUpperCase, String.length_ofList, ← String.length_toList]
  induction s.toList with
  | nil => exact Nat.le_refl _
  | cons ch chars ih =>
      have hne := List.length_pos_iff.mpr (upperChar_ne_nil ch)
      rw [List.flatMap_cons, List.length_append, List.length_cons]
      omega

theorem invertedIron_eq_some {s candidate : String} (h : invertedIron s = some candidate) :
    s.length = 2 := by
  rw [invertedIron] at h
  split at h
  · rename_i heq
    rw [← String.length_toList, heq]
    rfl
  · exact absurd h (by simp)

/-- Only the alias map is left for a text that is longer than every code. -/
theorem normaliseClub_of_long {raw : String} (h : 7 < (trim raw).length) :
    normaliseClub raw = (aliasLookup (toLowerCase (trim raw))).getD (.code .unknown) := by
  have hupper := length_le_toUpperCase (trim raw)
  have hcanonical : ClubCode.ofString? (toUpperCase (trim raw)) = none := by
    apply Option.eq_none_iff_forall_not_mem.mpr
    intro code hcode
    have hlength := code.length_toString
    rw [ofString?_eq_some hcode] at hlength
    omega
  have hinverted : invertedIron (toUpperCase (trim raw)) = none := by
    apply Option.eq_none_iff_forall_not_mem.mpr
    intro candidate hcandidate
    have hlength := invertedIron_eq_some hcandidate
    omega
  rw [normaliseClub, hcanonical, hinverted]
  refine if_neg fun hempty => ?_
  rw [hempty] at h
  exact absurd h (by decide)

/-- What the alias map or the prototype chain holds for such a text is the result. -/
theorem normaliseClub_eq {raw : String} {value : ClubValue}
    (hvalue : aliasLookup (toLowerCase (trim raw)) = some value)
    (hlong : 7 < (toLowerCase (trim raw)).length) : normaliseClub raw = value := by
  rw [length_toLowerCase] at hlong
  rw [normaliseClub_of_long hlong, hvalue, Option.getD_some]

/-- The two members of `Object.prototype` aside, there is a code. -/
theorem normaliseClub_eq_code_iff (raw : String) :
    (∃ code, normaliseClub raw = .code code) ↔
      toLowerCase (trim raw) ≠ "constructor" ∧ toLowerCase (trim raw) ≠ "__proto__" := by
  constructor
  · rintro ⟨code, hcode⟩
    refine ⟨fun hkey => ?_, fun hkey => ?_⟩
    · have hmember : normaliseClub raw = .objectConstructor :=
        normaliseClub_eq (by rw [hkey]; rfl) (by rw [hkey]; decide)
      exact absurd (hmember.symm.trans hcode) (by simp)
    · have hmember : normaliseClub raw = .objectPrototype :=
        normaliseClub_eq (by rw [hkey]; rfl) (by rw [hkey]; decide)
      exact absurd (hmember.symm.trans hcode) (by simp)
  · rintro ⟨hconstructor, hproto⟩
    rw [normaliseClub]
    split
    · exact ⟨_, rfl⟩
    · split
      · exact ⟨_, rfl⟩
      · split
        · exact ⟨_, rfl⟩
        · rw [aliasLookup, if_neg hconstructor, if_neg hproto]
          split <;> exact ⟨_, rfl⟩

/-- `normaliseClub` yields a club code, and the same one again, exactly for
the strings that do not name one of the two members. -/
theorem normaliseClub_code_iff (raw : String) :
    (∃ code ∈ validClubCodes, normaliseClub raw = .code code ∧
        normaliseClub code.toString = normaliseClub raw) ↔
      toLowerCase (trim raw) ≠ "constructor" ∧ toLowerCase (trim raw) ≠ "__proto__" := by
  rw [← normaliseClub_eq_code_iff]
  constructor
  · rintro ⟨code, _, hcode, _⟩
    exact ⟨code, hcode⟩
  · rintro ⟨code, hcode⟩
    exact ⟨code, code.mem_validClubCodes, hcode, (normaliseClub_toString code).trans hcode.symm⟩

/-- A member of `Object.prototype` is no club code. -/
theorem normaliseClub_constructor :
    ¬ ∃ code ∈ validClubCodes, normaliseClub "constructor" = .code code ∧
      normaliseClub code.toString = normaliseClub "constructor" := by
  rintro ⟨code, _, hcode, _⟩
  have hvalue : normaliseClub "constructor" = .objectConstructor := by decide
  rw [hvalue] at hcode
  exact absurd hcode (by simp)

end PureplayIngest.Shared.Domain
