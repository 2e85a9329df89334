import Mathlib.Logic.Relation
import Mathlib.Tactic

/-!
# Invariants of runs

A run of a step relation is its reflexive and transitive closure. An invariant that every
step keeps holds in all states of a run, and a relation that simulates the steps from the
states of an invariant simulates the runs. A run of `n` steps is the sequence of its states; it is no
longer than a measure that every step lowers, and it has passed through a state that alone can end
what its steps keep otherwise.
-/
namespace Cserv.Foundations

open Relation

variable {σ τ : Type*} {step : σ → σ → Prop} (Inv : σ → Prop)

theorem run_invariant (hstep : ∀ a b, Inv a → step a b → Inv b) {a b : σ} (ha : Inv a)
    (hrun : ReflTransGen step a b) : Inv b := by
  induction hrun with
  | refl => exact ha
  | tail _ hlast ih => exact hstep _ _ ih hlast

/-- Each step is a run of another relation, seen through `f`. -/
theorem run_simulation {step' : τ → τ → Prop} {f : σ → τ}
    (hstep : ∀ a b, Inv a → step a b → Inv b)
    (hsim : ∀ a b, Inv a → step a b → ReflTransGen step' (f a) (f b)) {a b : σ} (ha : Inv a)
    (hrun : ReflTransGen step a b) : ReflTransGen step' (f a) (f b) := by
  induction hrun with
  | refl => exact ReflTransGen.refl
  | tail hfirst hlast ih => exact ih.trans (hsim _ _ (run_invariant Inv hstep ha hfirst) hlast)

section Counted

variable {x : ℕ → σ} {m n : ℕ} {Inv} {μ : σ → ℕ}

theorem run_length_le (hstep : ∀ a b, Inv a → step a b → Inv b ∧ μ b < μ a) (h₀ : Inv (x 0))
    (hrun : ∀ i < n, step (x i) (x (i + 1))) : Inv (x n) ∧ n + μ (x n) ≤ μ (x 0) := by
  induction n with
  | zero => exact ⟨h₀, (Nat.zero_add _).le⟩
  | succ n ih =>
    obtain ⟨hinv, hle⟩ := ih fun i hi => hrun i (hi.trans n.lt_succ_self)
    obtain ⟨hinv', hlt⟩ := hstep _ _ hinv (hrun n n.lt_succ_self)
    exact ⟨hinv', by omega⟩

theorem run_antitone (hstep : ∀ a b, Inv a → step a b → Inv b ∧ μ b ≤ μ a) (hm : Inv (x m))
    (hmn : m ≤ n) (hrun : ∀ i < n, step (x i) (x (i + 1))) : Inv (x n) ∧ μ (x n) ≤ μ (x m) := by
  induction n, hmn using Nat.le_induction with
  | base => exact ⟨hm, le_rfl⟩
  | succ n _ ih =>
    obtain ⟨hinv, hle⟩ := ih fun i hi => hrun i (hi.trans n.lt_succ_self)
    obtain ⟨hinv', hle'⟩ := hstep _ _ hinv (hrun n n.lt_succ_self)
    exact ⟨hinv', hle'.trans hle⟩

end Counted

end Cserv.Foundations
