import PureplayIngest.Shared.IsoDateTime
import PureplayIngest.Webhooks.Zod

/-!
Zod schemas on JSON values.

A schema looks at a property of a JavaScript object, which may be
`undefined`, and parses it or rejects it. Which issues a rejection reports is
left out. An object schema is strict: it rejects an object with a key it does
not name. The order of keys plays no part.
-/

namespace PureplayIngest.Webhooks

open Shared Shared.Domain

/-- The own properties of an object; `none` is a property that is `undefined`. -/
abbrev JsFields := List (String × Option Json)

/-- `fields[name]`. -/
def JsFields.get (fields : JsFields) (name : String) : Option Json :=
  (fields.find? fun field => field.1 = name).bind (·.2)

/-- The properties of an object that comes from `JSON.parse`. -/
def ownFields (fields : List (String × Json)) : JsFields := fields.map fun f => (f.1, some f.2)

/-- `name in fields`. -/
def hasKey (fields : List (String × Json)) (name : String) : Prop := name ∈ fields.map (·.1)

instance (fields : List (String × Json)) (name : String) : Decidable (hasKey fields name) :=
  inferInstanceAs (Decidable (name ∈ _))

abbrev Schema (α : Type) := Option Json → Option α

def zString (lo hi : ℕ) : Schema (ZString lo hi)
  | some (.str s) =>
      if h : lo ≤ utf16Length s ∧ utf16Length s ≤ hi then some ⟨s, h.1, h.2⟩ else none
  | _ => none

def zNumber (lo hi : ℚ) : Schema (ZNumber lo hi)
  | some (.num x) => if h : lo ≤ x ∧ x ≤ hi then some ⟨x, h.1, h.2⟩ else none
  | _ => none

def zInt (lo hi : ℤ) : Schema (ZInt lo hi)
  | some (.num x) =>
      if x.den = 1 ∧ -maxSafeInteger ≤ x.num ∧ x.num ≤ maxSafeInteger then
        if h : lo ≤ x.num ∧ x.num ≤ hi then some ⟨x.num, h.1, h.2⟩ else none
      else none
  | _ => none

/-- `z.string().datetime({ offset: true })`. -/
def zDateTime : Schema IsoDateTime
  | some (.str s) => IsoDateTime.ofString? s
  | _ => none

def zLiteral (text : String) : Schema Unit
  | some (.str s) => if s = text then some () else none
  | _ => none

/-- `z.enum`, of the values that `name` spells. -/
def zEnum {α : Type} (name : α → String) (values : List α) : Schema α
  | some (.str s) => values.find? fun a => name a = s
  | _ => none

def Schema.optional {α : Type} (schema : Schema α) : Schema (Option α)
  | none => some none
  | some json => (schema (some json)).map some

/-- The keys of a strict object are among those it names. -/
def JsFields.strict (names : List String) (fields : JsFields) : Prop :=
  ∀ field ∈ fields, field.1 ∈ names

instance (names : List String) (fields : JsFields) : Decidable (fields.strict names) :=
  inferInstanceAs (Decidable (∀ field ∈ fields, _))

/-- `z.object(shape).strict()`, on the properties of an object. -/
def zStrict {α : Type} (names : List String) (shape : JsFields → Option α) (fields : JsFields) :
    Option α :=
  if fields.strict names then shape fields else none

/-- Neither `null` nor an array is an object. -/
def zObject {α : Type} (names : List String) (shape : JsFields → Option α) : Schema α
  | some (.obj fields) => zStrict names shape (ownFields fields)
  | _ => none

/-! ### What an accepted value is like -/

section

variable {α : Type} {names : List String} {shape : JsFields → Option α} {a : α}

theorem zStrict_eq_some {fields : JsFields} :
    zStrict names shape fields = some a ↔ fields.strict names ∧ shape fields = some a := by
  rw [zStrict]
  split
  · simp [*]
  · simp [*]

theorem zObject_eq_some {json : Option Json} (h : zObject names shape json = some a) :
    ∃ fields, json = some (.obj fields) ∧ (ownFields fields).strict names ∧
      shape (ownFields fields) = some a := by
  rw [zObject.eq_def] at h
  split at h
  · exact ⟨_, rfl, zStrict_eq_some.mp h⟩
  · exact absurd h (by simp)

theorem mem_of_get {fields : JsFields} {name : String} {json : Json}
    (h : fields.get name = some json) : (name, some json) ∈ fields := by
  rw [JsFields.get, Option.bind_eq_some_iff] at h
  obtain ⟨⟨key, value⟩, hfind, rfl⟩ := h
  have hkey : key = name := by simpa using List.find?_some hfind
  exact hkey ▸ List.mem_of_find?_eq_some hfind

/-- A key that a strict object does not name is not there. -/
theorem not_hasKey_of_strict {fields : List (String × Json)} {name : String}
    (h : (ownFields fields).strict names) (hname : name ∉ names) : ¬ hasKey fields name := by
  intro hmem
  obtain ⟨field, hfield, rfl⟩ := List.mem_map.mp hmem
  exact hname (h _ (List.mem_map.mpr ⟨field, hfield, rfl⟩))

theorem hasKey_of_get {fields : List (String × Json)} {name : String} {json : Json}
    (h : (ownFields fields).get name = some json) : hasKey fields name := by
  obtain ⟨field, hfield, heq⟩ := List.mem_map.mp (mem_of_get h)
  exact List.mem_map.mpr ⟨field, hfield, (Prod.mk.inj heq).1⟩

/-- What an optional schema found was there. -/
theorem optional_eq_some {schema : Schema α} {json : Option Json}
    (h : schema.optional json = some (some a)) : ∃ j, json = some j ∧ schema (some j) = some a := by
  cases json with
  | none => exact absurd h (by simp [Schema.optional])
  | some j =>
      obtain ⟨b, hb, heq⟩ := Option.map_eq_some_iff.mp h
      exact ⟨j, rfl, Option.some.inj heq ▸ hb⟩

end

end PureplayIngest.Webhooks
