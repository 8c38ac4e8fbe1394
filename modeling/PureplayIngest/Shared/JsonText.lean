import PureplayIngest.Shared.Domain.Shot
import Mathlib.Algebra.Order.Field.Rat
import Mathlib.Tactic.NormNum

/-!
`JSON.parse`, and `JSON.stringify` of an object whose properties are strings.

What is read are sequences of Unicode characters. A surrogate that stands
alone, which a JavaScript string may hold, becomes the replacement character,
as it does once the string leaves JavaScript.
-/

namespace PureplayIngest.Shared.JsonText

open Domain

/-- Read something off the front of the text. -/
abbrev Scan (α : Type) := List Char → Option (α × List Char)

def isSpace (ch : Char) : Bool := ch = ' ' ∨ ch = '\t' ∨ ch = '\n' ∨ ch = '\r'

def skipSpace (s : List Char) : List Char := s.dropWhile isSpace

/-! ### Strings -/

def hexChar (n : ℕ) : Char := if n < 10 then Char.ofNat (48 + n) else Char.ofNat (87 + n)

def hexValue (ch : Char) : Option ℕ :=
  let c := ch.toNat
  if 48 ≤ c ∧ c ≤ 57 then some (c - 48)
  else if 97 ≤ c ∧ c ≤ 102 then some (c - 87)
  else if 65 ≤ c ∧ c ≤ 70 then some (c - 55)
  else none

/-- What the letter after a backslash stands for. -/
def unescape (ch : Char) : Option ℕ :=
  if ch = 'b' then some 8
  else if ch = 't' then some 9
  else if ch = 'n' then some 10
  else if ch = 'f' then some 12
  else if ch = 'r' then some 13
  else if ch = '"' ∨ ch = '\\' ∨ ch = '/' then some ch.toNat
  else none

/-- A string after its opening quote: code points, surrogates among them. -/
def scanUnits : Scan (List ℕ)
  | [] => none
  | ch :: s =>
      if ch = '"' then some ([], s)
      else if ch = '\\' then
        match s with
        | [] => none
        | e :: s =>
            if e = 'u' then
              match s with
              | a :: b :: c :: d :: s => do
                  let unit := (((← hexValue a) * 16 + (← hexValue b)) * 16 + (← hexValue c)) * 16 +
                    (← hexValue d)
                  let (units, s) ← scanUnits s
                  return (unit :: units, s)
              | _ => none
            else do
              let unit ← unescape e
              let (units, s) ← scanUnits s
              return (unit :: units, s)
      else if ch.toNat < 0x20 then none
      else (scanUnits s).map fun (units, s) => (ch.toNat :: units, s)

def ofUnit (unit : ℕ) : Char :=
  if 0xD800 ≤ unit ∧ unit ≤ 0xDFFF then '\uFFFD' else Char.ofNat unit

/-- A high surrogate and the low one after it are one character. -/
def ofUnits : List ℕ → List Char
  | [] => []
  | [unit] => [ofUnit unit]
  | high :: low :: units =>
      if (0xD800 ≤ high ∧ high ≤ 0xDBFF) ∧ 0xDC00 ≤ low ∧ low ≤ 0xDFFF then
        Char.ofNat (0x10000 + (high - 0xD800) * 0x400 + (low - 0xDC00)) :: ofUnits units
      else ofUnit high :: ofUnits (low :: units)

def scanString : Scan String := fun s =>
  (scanUnits s).map fun (units, s) => (String.ofList (ofUnits units), s)

/-! ### Numbers -/

def ofDigits (digits : List Char) : ℕ := digits.foldl (fun n ch => n * 10 + (ch.toNat - 48)) 0

def scanDigits : Scan (List Char) := fun s =>
  if s.takeWhile Char.isDigit = [] then none
  else some (s.takeWhile Char.isDigit, s.dropWhile Char.isDigit)

def scanFraction : Scan (List Char)
  | '.' :: s => scanDigits s
  | s => some ([], s)

def scanExponent (s : List Char) : Option (ℤ × List Char) :=
  match s with
  | e :: s' =>
      if e = 'e' ∨ e = 'E' then
        match s' with
        | '-' :: s' => (scanDigits s').map fun (digits, s) => (-ofDigits digits, s)
        | '+' :: s' => (scanDigits s').map fun (digits, s) => (ofDigits digits, s)
        | s' => (scanDigits s').map fun (digits, s) => (ofDigits digits, s)
      else some (0, s)
  | [] => some (0, s)

/-- `mantissa * 10 ^ exponent`. -/
def scaled (mantissa : ℕ) (exponent : ℤ) : ℚ :=
  if 0 ≤ exponent then mantissa * 10 ^ exponent.toNat else mantissa / 10 ^ (-exponent).toNat

def scanMagnitude : Scan ℚ := fun s => do
  let (whole, s) ← scanDigits s
  if whole.head? = some '0' ∧ 1 < whole.length then none
  else do
    let (fraction, s) ← scanFraction s
    let (exponent, s) ← scanExponent s
    return (scaled (ofDigits (whole ++ fraction)) (exponent - fraction.length), s)

def scanNumber : Scan ℚ
  | '-' :: s => (scanMagnitude s).map fun (x, s) => (-x, s)
  | s => scanMagnitude s

/-! ### Values -/

/-- A property set twice keeps its place and has its last value. -/
def setProperty : List (String × Json) → String → Json → List (String × Json)
  | [], name, value => [(name, value)]
  | field :: fields, name, value =>
      if field.1 = name then (name, value) :: fields else field :: setProperty fields name value

/-- The items of an array that is not empty. -/
def scanItems (value : Scan Json) : ℕ → Scan (List Json)
  | 0, _ => none
  | n + 1, s => do
      let (item, s) ← value s
      match skipSpace s with
      | ',' :: s =>
          let (items, s) ← scanItems value n s
          return (item :: items, s)
      | ']' :: s => return ([item], s)
      | _ => none

/-- The members of an object that is not empty, after those that came before. -/
def scanMembers (value : Scan Json) : ℕ → List (String × Json) → Scan (List (String × Json))
  | 0, _, _ => none
  | n + 1, fields, s =>
      match skipSpace s with
      | '"' :: s => do
          let (name, s) ← scanString s
          match skipSpace s with
          | ':' :: s =>
              let (v, s) ← value s
              match skipSpace s with
              | ',' :: s => scanMembers value n (setProperty fields name v) s
              | '}' :: s => return (setProperty fields name v, s)
              | _ => none
          | _ => none
      | _ => none

/-- A value, nested no deeper than the first argument. -/
def scanValue : ℕ → Scan Json
  | 0, _ => none
  | n + 1, s =>
      match skipSpace s with
      | 'n' :: 'u' :: 'l' :: 'l' :: s => some (.null, s)
      | 't' :: 'r' :: 'u' :: 'e' :: s => some (.bool true, s)
      | 'f' :: 'a' :: 'l' :: 's' :: 'e' :: s => some (.bool false, s)
      | '"' :: s => (scanString s).map fun (text, s) => (.str text, s)
      | '[' :: s =>
          match skipSpace s with
          | ']' :: s => some (.arr [], s)
          | s => (scanItems (scanValue n) s.length s).map fun (items, s) => (.arr items, s)
      | '{' :: s =>
          match skipSpace s with
          | '}' :: s => some (.obj [], s)
          | s => (scanMembers (scanValue n) s.length [] s).map fun (fields, s) => (.obj fields, s)
      | s => (scanNumber s).map fun (x, s) => (.num x, s)

/-- `JSON.parse`; `none` is a `SyntaxError`. A text nests no deeper than it is long. -/
def parse (text : List Char) : Option Json := do
  let (value, s) ← scanValue (text.length + 1) text
  if skipSpace s = [] then return value else none

/-! ### Writing -/

def escape (ch : Char) : Option Char :=
  if ch = '"' then some '"'
  else if ch = '\\' then some '\\'
  else if ch.toNat = 8 then some 'b'
  else if ch.toNat = 9 then some 't'
  else if ch.toNat = 10 then some 'n'
  else if ch.toNat = 12 then some 'f'
  else if ch.toNat = 13 then some 'r'
  else none

def quoteChar (ch : Char) : List Char :=
  match escape ch with
  | some e => ['\\', e]
  | none =>
      if ch.toNat < 0x20 then
        ['\\', 'u', '0', '0', hexChar (ch.toNat / 16), hexChar (ch.toNat % 16)]
      else [ch]

def quote (text : String) : List Char := '"' :: text.toList.flatMap quoteChar ++ ['"']

def stringifyMembers : List (String × String) → List Char
  | [] => []
  | [(name, value)] => quote name ++ ':' :: quote value
  | (name, value) :: members => quote name ++ ':' :: quote value ++ ',' :: stringifyMembers members

/-- `JSON.stringify` of an object whose properties are strings. -/
def stringify (members : List (String × String)) : List Char :=
  '{' :: stringifyMembers members ++ ['}']

/-! ### What is written is read back -/

theorem escape_eq_some {ch e : Char} (h : escape ch = some e) :
    e ≠ 'u' ∧ unescape e = some ch.toNat := by
  simp only [escape] at h
  repeat' split at h
  all_goals first
    | obtain rfl := Option.some.inj h
      exact ⟨by decide, by simp_all [unescape]⟩
    | exact absurd h (by simp)

theorem escape_eq_none {ch : Char} (h : escape ch = none) : ch ≠ '"' ∧ ch ≠ '\\' := by
  constructor <;>
  · rintro rfl
    exact absurd h (by decide)

theorem hexValue_hexChar {n : ℕ} (h : n < 16) : hexValue (hexChar n) = some n := by
  have key : ∀ i : Fin 16, hexValue (hexChar i.val) = some i.val := by decide
  exact key ⟨n, h⟩

theorem scanUnits_quoteChar (ch : Char) (s : List Char) :
    scanUnits (quoteChar ch ++ s) = (scanUnits s).map fun (units, s) => (ch.toNat :: units, s) := by
  rw [quoteChar]
  split
  · rename_i e he
    obtain ⟨hu, hunit⟩ := escape_eq_some he
    rw [List.cons_append, List.cons_append, List.nil_append, scanUnits.eq_def]
    simp only [hu, hunit, if_false, if_true]
    cases scanUnits s <;> rfl
  · rename_i hnone
    obtain ⟨hquote, hslash⟩ := escape_eq_none hnone
    split
    · rename_i hlow
      simp only [List.cons_append, List.nil_append]
      rw [scanUnits]
      have hzero : hexValue '0' = some 0 := by decide
      have hhigh := hexValue_hexChar (n := ch.toNat / 16) (by omega)
      have hlow' := hexValue_hexChar (n := ch.toNat % 16) (by omega)
      have hsum : ((0 * 16 + 0) * 16 + ch.toNat / 16) * 16 + ch.toNat % 16 = ch.toNat := by omega
      simp only [if_true, hzero, hhigh, hlow', Option.bind_eq_bind, Option.bind_some, hsum]
      cases scanUnits s <;> rfl
    · rename_i hhigh
      rw [List.singleton_append, scanUnits.eq_def]
      simp only [hquote, hslash, hhigh, if_false]

theorem scanUnits_quote (text s : List Char) :
    scanUnits (text.flatMap quoteChar ++ '"' :: s) = some (text.map Char.toNat, s) := by
  induction text with
  | nil => rw [List.flatMap_nil, List.nil_append, scanUnits.eq_def]; rfl
  | cons ch text ih =>
      rw [List.flatMap_cons, List.append_assoc, scanUnits_quoteChar, ih]
      rfl

theorem ofUnit_toNat (ch : Char) : ofUnit ch.toNat = ch := by
  have hvalid : ch.toNat < 0xD800 ∨ 0xDFFF < ch.toNat ∧ ch.toNat < 0x110000 := ch.valid
  rw [ofUnit, if_neg (by omega), Char.ofNat_toNat]

/-- There is no surrogate among the characters of a text. -/
theorem ofUnits_map_toNat (text : List Char) : ofUnits (text.map Char.toNat) = text := by
  induction text with
  | nil => rfl
  | cons ch text ih =>
      cases text with
      | nil => rw [List.map_singleton, ofUnits, ofUnit_toNat]
      | cons ch' text =>
          have hvalid : ch.toNat < 0xD800 ∨ 0xDFFF < ch.toNat ∧ ch.toNat < 0x110000 := ch.valid
          rw [List.map_cons, List.map_cons] at *
          rw [ofUnits, if_neg (by omega), ofUnit_toNat, ih]

theorem scanString_quote (text : String) (s : List Char) :
    scanString (text.toList.flatMap quoteChar ++ '"' :: s) = some (text, s) := by
  rw [scanString, scanUnits_quote, Option.map_some]
  simp only [ofUnits_map_toNat, String.ofList_toList]

theorem scanValue_quote (n : ℕ) (text : String) (s : List Char) :
    scanValue (n + 1) (quote text ++ s) = some (.str text, s) := by
  have hquote : quote text ++ s = '"' :: (text.toList.flatMap quoteChar ++ '"' :: s) := by
    simp only [quote, List.cons_append, List.append_assoc, List.nil_append]
  have hskip : skipSpace (quote text ++ s) = quote text ++ s := by rw [hquote]; rfl
  rw [scanValue, hskip, hquote]
  simp only
  rw [scanString_quote, Option.map_some]

theorem setProperty_of_notMem {fields : List (String × Json)} {name : String}
    (h : name ∉ fields.map (·.1)) (value : Json) :
    setProperty fields name value = fields ++ [(name, value)] := by
  induction fields with
  | nil => rfl
  | cons field fields ih =>
      rw [List.map_cons, List.mem_cons, not_or] at h
      rw [setProperty, if_neg (Ne.symm h.1), ih h.2, List.cons_append]

/-- The members of an object as its properties. -/
def strings (members : List (String × String)) : List (String × Json) :=
  members.map fun m => (m.1, .str m.2)

theorem quote_append (text : String) (s : List Char) :
    quote text ++ s = '"' :: (text.toList.flatMap quoteChar ++ '"' :: s) := by
  simp only [quote, List.cons_append, List.append_assoc, List.nil_append]

/-- One member, up to the comma or the brace after it. -/
theorem scanMembers_member {value : Scan Json}
    (hvalue : ∀ text s, value (quote text ++ s) = some (.str text, s)) {n : ℕ}
    {fields : List (String × Json)} {name text : String} {s : List Char} :
    scanMembers value (n + 1) fields (quote name ++ ':' :: (quote text ++ s)) =
      match skipSpace s with
      | ',' :: s => scanMembers value n (setProperty fields name (.str text)) s
      | '}' :: s => some (setProperty fields name (.str text), s)
      | _ => none := by
  have hskip : skipSpace (quote name ++ ':' :: (quote text ++ s)) =
      '"' :: (name.toList.flatMap quoteChar ++ '"' :: ':' :: (quote text ++ s)) := by
    rw [quote_append]
    rfl
  have hcolon : skipSpace (':' :: (quote text ++ s)) = ':' :: (quote text ++ s) := rfl
  rw [scanMembers, hskip]
  simp only [scanString_quote, Option.bind_eq_bind, Option.bind_some, hcolon, hvalue]
  rfl

theorem stringifyMembers_cons {members : List (String × String)} (hne : members ≠ [])
    (name text : String) : stringifyMembers ((name, text) :: members) =
      quote name ++ ':' :: (quote text ++ ',' :: stringifyMembers members) := by
  rw [stringifyMembers, List.append_assoc, List.cons_append]
  exact hne

theorem stringifyMembers_head (name text : String) (members : List (String × String)) :
    ∃ s, stringifyMembers ((name, text) :: members) = '"' :: s := by
  cases members with
  | nil => exact ⟨_, by rw [stringifyMembers, quote_append]⟩
  | cons member members =>
      exact ⟨_, by rw [stringifyMembers_cons (List.cons_ne_nil _ _), quote_append]⟩

theorem scanMembers_stringify {value : Scan Json}
    (hvalue : ∀ text s, value (quote text ++ s) = some (.str text, s))
    {members : List (String × String)} (hne : members ≠ []) {n : ℕ} (hn : members.length ≤ n)
    {fields : List (String × Json)} (hnames : (fields.map (·.1) ++ members.map (·.1)).Nodup)
    (s : List Char) :
    scanMembers value n fields (stringifyMembers members ++ '}' :: s) =
      some (fields ++ strings members, s) := by
  induction members using stringifyMembers.induct generalizing n fields with
  | case1 => exact absurd rfl hne
  | case2 name text =>
      obtain ⟨n, rfl⟩ := Nat.exists_eq_add_of_le' hn
      have hfresh : name ∉ fields.map (·.1) := fun h =>
        (List.nodup_append.mp hnames).2.2 name h name (List.mem_singleton_self name) rfl
      rw [stringifyMembers, List.append_assoc, List.cons_append, List.length_singleton,
        scanMembers_member hvalue, setProperty_of_notMem hfresh]
      rfl
  | case3 name text members hmembers ih =>
      obtain ⟨n, rfl⟩ := Nat.exists_eq_add_of_le' hn
      have hfresh : name ∉ fields.map (·.1) := fun h =>
        (List.nodup_append.mp hnames).2.2 name h name List.mem_cons_self rfl
      have hnames' : ((fields ++ [(name, JsonOf.str text)]).map (·.1) ++
          members.map (·.1)).Nodup := by
        rw [List.map_append, List.append_assoc]
        exact hnames
      rw [stringifyMembers_cons hmembers, List.append_assoc, List.cons_append, List.append_assoc,
        List.length_cons, ← Nat.add_assoc, scanMembers_member hvalue, setProperty_of_notMem hfresh]
      show scanMembers value _ (fields ++ [(name, JsonOf.str text)])
        (stringifyMembers members ++ '}' :: s) = _
      rw [ih (fun h => hmembers h) (Nat.le_add_left _ _) hnames', List.append_assoc]
      rfl

theorem length_le_stringifyMembers (members : List (String × String)) :
    members.length ≤ (stringifyMembers members).length := by
  induction members using stringifyMembers.induct with
  | case1 => exact Nat.le_refl 0
  | case2 name text =>
      simp only [stringifyMembers, List.length_append, List.length_cons, List.length_nil]
      omega
  | case3 name text members hmembers ih =>
      simp only [stringifyMembers, List.length_append, List.length_cons]
      omega

/-- `JSON.parse(JSON.stringify(members))`. -/
theorem parse_stringify {members : List (String × String)} (hne : members ≠ [])
    (hnames : (members.map (·.1)).Nodup) :
    parse (stringify members) = some (.obj (strings members)) := by
  have hfuel : members.length ≤ (stringifyMembers members ++ ['}']).length := by
    rw [List.length_append]
    exact (length_le_stringifyMembers members).trans (Nat.le_add_right _ _)
  have hmembers := scanMembers_stringify
    (scanValue_quote (stringifyMembers members ++ ['}']).length) hne hfuel
    (show (([] : List (String × Json)).map (·.1) ++ members.map (·.1)).Nodup from hnames) []
  have hvalue : scanValue ((stringify members).length + 1) (stringify members) =
      some (.obj (strings members), []) := by
    obtain ⟨⟨name, text⟩, rest, rfl⟩ := List.exists_cons_of_ne_nil hne
    obtain ⟨s, hs⟩ := stringifyMembers_head name text rest
    rw [hs] at hmembers
    have hopen : stringify ((name, text) :: rest) = '{' :: ('"' :: s ++ ['}']) := by
      rw [stringify, hs, List.cons_append]
    have hskip : skipSpace ('{' :: ('"' :: s ++ ['}'])) = '{' :: ('"' :: s ++ ['}']) := rfl
    rw [hopen, scanValue, hskip]
    show Option.map _ (scanMembers (scanValue (('"' :: s ++ ['}']).length + 1))
      ('"' :: s ++ ['}']).length [] ('"' :: s ++ ['}'])) = _
    rw [hmembers, Option.map_some, List.nil_append]
  rw [parse, hvalue]
  rfl

end PureplayIngest.Shared.JsonText
