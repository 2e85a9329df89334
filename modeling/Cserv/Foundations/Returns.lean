import Mathlib.Tactic

/-!
# Total correctness of partial computations

A computation that may fail is an `Option`. It returns a value with a property when it does
not fail; the rules follow the statements of a `do` block.
-/
namespace Cserv.Foundations

universe u
variable {α β : Type u} {o : Option α} {f : α → Option β} {Q R : α → Prop} {S : β → Prop}

/-- The computation succeeds, and its value satisfies `Q`. -/
def Returns (o : Option α) (Q : α → Prop) : Prop := ∃ a, o = some a ∧ Q a

theorem Returns.some {a : α} (h : Q a) : Returns (some a) Q := ⟨a, rfl, h⟩

theorem Returns.bind (h : Returns o Q) (hf : ∀ a, Q a → Returns (f a) S) :
    Returns (o >>= f) S := by
  obtain ⟨a, rfl, ha⟩ := h
  exact hf a ha

theorem Returns.step {a : α} (h : o = .some a) (hf : Returns (f a) S) : Returns (o >>= f) S := by
  rw [h]
  exact hf

theorem Returns.mono (h : Returns o Q) (hQ : ∀ a, Q a → R a) : Returns o R := by
  obtain ⟨a, ho, ha⟩ := h
  exact ⟨a, ho, hQ a ha⟩

theorem bind_mono {g : α → Option β} {b : β} (hfg : ∀ a, f a = some b → g a = some b)
    (h : (o >>= f) = some b) : (o >>= g) = some b := by
  obtain ⟨a, ho, hb⟩ := Option.bind_eq_some_iff.mp h
  exact Option.bind_eq_some_iff.mpr ⟨a, ho, hfg a hb⟩

end Cserv.Foundations
