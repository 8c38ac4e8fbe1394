import Mathlib.Data.Set.Finite.Basic
import Mathlib.Logic.Relation
import Mathlib.Order.WellFounded

/-!
Relations without cycles, grown one edge at a time.
-/

namespace PureplayIngest.Lib

open Relation

variable {α : Type*} {r s : α → α → Prop} {a b x y : α}

/-- No path returns to where it started. -/
def Acyclic (r : α → α → Prop) : Prop := ∀ a, ¬ TransGen r a a

theorem Acyclic.mono (h : Acyclic r) (hsr : ∀ x y, s x y → r x y) : Acyclic s :=
  fun a ha => h a (TransGen.mono hsr _ _ ha)

/-- A path after an edge `(a, b)` was added either is an old one or uses the edge. -/
theorem transGen_insert (h : TransGen (fun x y => r x y ∨ x = a ∧ y = b) x y) :
    TransGen r x y ∨ ReflTransGen r x a ∧ ReflTransGen r b y := by
  induction h with
  | single h =>
      obtain h | ⟨rfl, rfl⟩ := h
      · exact .inl (.single h)
      · exact .inr ⟨.refl, .refl⟩
  | tail _ h ih =>
      obtain h | ⟨rfl, rfl⟩ := h
      · exact ih.imp (·.tail h) fun hpath => ⟨hpath.1, hpath.2.tail h⟩
      · obtain hpath | hpath := ih
        · exact .inr ⟨hpath.to_reflTransGen, .refl⟩
        · exact .inr ⟨hpath.1, .refl⟩

/-- An edge closes a cycle only if its end leads back to its start. -/
theorem Acyclic.insert (h : Acyclic r) (hback : ¬ ReflTransGen r b a) :
    Acyclic fun x y => r x y ∨ x = a ∧ y = b := by
  intro x hx
  obtain hpath | ⟨hxa, hbx⟩ := transGen_insert hx
  · exact h x hpath
  · exact hback (hbx.trans hxa)

/-- In a finite set some element has no edge to another one of the set. -/
theorem Acyclic.exists_sink {t : Set α} (h : Acyclic r) (hfinite : t.Finite) (hne : t.Nonempty) :
    ∃ a ∈ t, ∀ b ∈ t, ¬ r a b := by
  have := hfinite.to_subtype
  let path (p q : t) : Prop := TransGen r q.1 p.1
  have : IsTrans t path := ⟨fun _ _ _ hpq hqr => hqr.trans hpq⟩
  have : Std.Irrefl path := ⟨fun p hp => h p.1 hp⟩
  obtain ⟨a, ha⟩ := hne
  obtain ⟨p, _, hp⟩ :=
    (Finite.wellFounded_of_trans_of_irrefl path).has_min Set.univ ⟨⟨a, ha⟩, trivial⟩
  exact ⟨p.1, p.2, fun b hb hpb => hp ⟨b, hb⟩ trivial (.single hpb)⟩

end PureplayIngest.Lib
