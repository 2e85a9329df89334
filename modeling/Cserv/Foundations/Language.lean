import Cserv.Foundations.Scanner

/-!
# Languages of scanners

A scanner recognises a language from a state when its successful runs are those
over texts with a prefix in the language. Words come as families `B : τ → List UInt8`
of texts with their syntax tree, so that the result of a run can be stated for the
tree. The rules take one state apart: one byte, or a loop over a class of bytes.
-/
namespace Cserv.Foundations

universe u v
variable {σ : Type u} {ρ : Type v} {τ : Type*}

/-- A word of the family `B` with the property `R` opens `bs`, and `q` is the
position of its last byte when `p` is the position of the first. -/
def Reads (B : τ → List UInt8) (R : τ → Prop) (p : ℕ) (bs : List UInt8) (q : ℕ) : Prop :=
  ∃ t, B t <+: bs ∧ q + 1 = p + (B t).length ∧ R t

section Reads

variable {B : τ → List UInt8} {R : τ → Prop} {p q : ℕ} {c ch : UInt8} {rest : List UInt8}

theorem reads_congr {R' : τ → Prop} {bs : List UInt8} (h : ∀ t, R t ↔ R' t) :
    Reads B R p bs q ↔ Reads B R' p bs q := by
  simp only [Reads, h]

theorem reads_cons :
    Reads (fun t => c :: B t) R p (c :: rest) q ↔ Reads B R (p + 1) rest q := by
  simp only [Reads, List.cons_prefix_cons, true_and, List.length_cons]
  constructor
  · rintro ⟨t, hpre, hq, hR⟩
    exact ⟨t, hpre, by omega, hR⟩
  · rintro ⟨t, hpre, hq, hR⟩
    exact ⟨t, hpre, by omega, hR⟩

theorem not_reads_cons (hc : c ≠ ch) : ¬Reads (fun t => c :: B t) R p (ch :: rest) q := by
  rintro ⟨t, hpre, -⟩
  exact hc (List.cons_prefix_cons.mp hpre).1

theorem not_reads_cons_nil : ¬Reads (fun t => c :: B t) R p [] q := by
  rintro ⟨t, hpre, -⟩
  simp at hpre

end Reads

abbrev Block (P : UInt8 → Bool) := { xs : List UInt8 // ∀ c ∈ xs, P c = true }

abbrev Word (P : UInt8 → Bool) := { xs : List UInt8 // xs ≠ [] ∧ ∀ c ∈ xs, P c = true }

section Words

variable {P : UInt8 → Bool} {B : τ → List UInt8} {R : List UInt8 → τ → Prop} {p q : ℕ}
  {ch : UInt8} {rest : List UInt8}

theorem reads_word_cons (hch : P ch = true) :
    Reads (fun t : Word P × τ => t.1.1 ++ B t.2) (fun t => R t.1.1 t.2) p (ch :: rest) q ↔
      Reads (fun t : Block P × τ => t.1.1 ++ B t.2) (fun t => R (ch :: t.1.1) t.2) (p + 1) rest q := by
  constructor
  · rintro ⟨⟨⟨xs, hne, hxs⟩, t⟩, hpre, hq, hR⟩
    cases xs with
    | nil => exact absurd rfl hne
    | cons x xs =>
      obtain ⟨rfl, hrest⟩ := List.cons_prefix_cons.mp hpre
      refine ⟨⟨⟨xs, fun c hc => hxs c (List.mem_cons_of_mem _ hc)⟩, t⟩, hrest, ?_, hR⟩
      simp only [List.length_append, List.length_cons] at hq ⊢
      omega
  · rintro ⟨⟨⟨xs, hxs⟩, t⟩, hpre, hq, hR⟩
    refine ⟨⟨⟨ch :: xs, by simp, by simpa [hch] using hxs⟩, t⟩, by simpa using hpre, ?_, hR⟩
    simp only [List.length_append, List.length_cons] at hq ⊢
    omega

theorem not_reads_word_cons {R : Word P × τ → Prop} (hch : P ch = false) :
    ¬Reads (fun t => t.1.1 ++ B t.2) R p (ch :: rest) q := by
  rintro ⟨⟨⟨xs, hne, hxs⟩, t⟩, hpre, -⟩
  cases xs with
  | nil => exact hne rfl
  | cons x xs =>
    obtain ⟨rfl, -⟩ := List.cons_prefix_cons.mp hpre
    simp [hch] at hxs

theorem not_reads_word_nil {R : Word P × τ → Prop} :
    ¬Reads (fun t => t.1.1 ++ B t.2) R p [] q := by
  rintro ⟨⟨⟨xs, hne, _⟩, t⟩, hpre, -⟩
  exact hne (List.append_eq_nil_iff.mp (List.prefix_nil.mp hpre)).1

end Words

namespace Scanner

variable (S : Scanner σ ρ) (Q : ρ → Prop)

/-- From state `s` at `p` the run over `bs` stops at the byte `q` with a result in `Q`. -/
def Yields (p : ℕ) (s : σ) (bs : List UInt8) (q : ℕ) : Prop :=
  ∃ r, S.run p s bs = .halt q r ∧ Q r

variable {S Q} {p q : ℕ} {s s' : σ} {ch : UInt8} {rest : List UInt8}

theorem not_yields_nil : ¬S.Yields Q p s [] q := by
  rintro ⟨r, h, -⟩
  simp at h

theorem yields_next (h : S.step p ch s = .next s') :
    S.Yields Q p s (ch :: rest) q ↔ S.Yields Q (p + 1) s' rest q := by
  simp only [Yields, S.run_next h]

theorem yields_again (h : S.step p ch s = .again s') :
    S.Yields Q p s (ch :: rest) q ↔ S.Yields Q p s' (ch :: rest) q := by
  simp only [Yields, S.run_again h]

theorem yields_stop {r : ρ} (h : S.step p ch s = .stop r) :
    S.Yields Q p s (ch :: rest) q ↔ q = p ∧ Q r := by
  simp only [Yields, S.run_stop h, Scan.halt.injEq]
  constructor
  · rintro ⟨r', ⟨rfl, rfl⟩, hQ⟩
    exact ⟨rfl, hQ⟩
  · rintro ⟨rfl, hQ⟩
    exact ⟨r, ⟨rfl, rfl⟩, hQ⟩

theorem not_yields_stop {r : ρ} (h : S.step p ch s = .stop r) (hQ : ¬Q r) :
    ¬S.Yields Q p s (ch :: rest) q := by
  rw [yields_stop h]
  exact fun hr => hQ hr.2

theorem yields_step_congr (h : S.step p ch s = S.step p ch s') :
    S.Yields Q p s (ch :: rest) q ↔ S.Yields Q p s' (ch :: rest) q := by
  cases hv : S.step p ch s' with
  | next t => rw [yields_next hv, yields_next (h.trans hv)]
  | again t => rw [yields_again hv, yields_again (h.trans hv)]
  | stop r => rw [yields_stop hv, yields_stop (h.trans hv)]

/-- A loop over the bytes of a class `P`, with an accumulator updated by `f`: a
run reads a block of such bytes and leaves the loop at the first other byte. -/
theorem yields_loop {α : Type*} {P : UInt8 → Bool} (e : α → σ) (f : α → UInt8 → α)
    (hstep : ∀ p ch a, P ch = true → S.step p ch (e a) = .next (e (f a ch)))
    (p : ℕ) (a : α) (bs : List UInt8) :
    S.Yields Q p (e a) bs q ↔
      ∃ xs ch rest, bs = xs ++ ch :: rest ∧ (∀ c ∈ xs, P c = true) ∧ P ch = false ∧
        S.Yields Q (p + xs.length) (e (xs.foldl f a)) (ch :: rest) q := by
  induction bs generalizing p a with
  | nil => simp [not_yields_nil]
  | cons c cs ih =>
    cases hc : P c with
    | true =>
      rw [yields_next (hstep p c a hc), ih]
      constructor
      · rintro ⟨xs, ch, rest, rfl, hxs, hch, hY⟩
        refine ⟨c :: xs, ch, rest, rfl, by simpa [hc] using hxs, hch, ?_⟩
        simpa [Nat.add_assoc, Nat.add_comm 1] using hY
      · rintro ⟨xs, ch, rest, hbs, hxs, hch, hY⟩
        cases xs with
        | nil =>
          obtain ⟨rfl, rfl⟩ := List.cons.inj hbs
          simp [hc] at hch
        | cons x xs =>
          obtain ⟨rfl, rfl⟩ := List.cons.inj hbs
          refine ⟨xs, ch, rest, rfl, fun d hd => hxs d (List.mem_cons_of_mem _ hd), hch, ?_⟩
          simpa [Nat.add_assoc, Nat.add_comm 1] using hY
    | false =>
      constructor
      · intro hY
        exact ⟨[], c, cs, rfl, by simp, hc, by simpa using hY⟩
      · rintro ⟨xs, ch, rest, hbs, hxs, hch, hY⟩
        cases xs with
        | nil =>
          obtain ⟨rfl, rfl⟩ := List.cons.inj hbs
          simpa using hY
        | cons x xs =>
          obtain ⟨rfl, rfl⟩ := List.cons.inj hbs
          simp [hc] at hxs

/-- When leaving the loop reads a word of `B`, the loop reads a block and then such a word. -/
theorem yields_loop_reads {α : Type*} {P : UInt8 → Bool} (e : α → σ) (f : α → UInt8 → α)
    {B : τ → List UInt8} {R : ℕ → α → τ → Prop}
    (hstep : ∀ p ch a, P ch = true → S.step p ch (e a) = .next (e (f a ch)))
    (hhead : ∀ t, ∃ ch word, B t = ch :: word ∧ P ch = false)
    (hexit : ∀ p a ch rest, P ch = false →
      (S.Yields Q p (e a) (ch :: rest) q ↔ Reads B (R p a) p (ch :: rest) q))
    (p : ℕ) (a : α) (bs : List UInt8) :
    S.Yields Q p (e a) bs q ↔
      Reads (fun t : Block P × τ => t.1.1 ++ B t.2)
        (fun t => R (p + t.1.1.length) (t.1.1.foldl f a) t.2) p bs q := by
  rw [yields_loop e f hstep]
  constructor
  · rintro ⟨xs, ch, rest, rfl, hxs, hch, hY⟩
    obtain ⟨t, hpre, hq, hR⟩ := (hexit _ _ _ _ hch).mp hY
    refine ⟨⟨⟨xs, hxs⟩, t⟩, by simpa using hpre, ?_, hR⟩
    rw [hq, List.length_append, Nat.add_assoc]
  · rintro ⟨⟨⟨xs, hxs⟩, t⟩, ⟨tail, rfl⟩, hq, hR⟩
    obtain ⟨ch, word, hB, hch⟩ := hhead t
    refine ⟨xs, ch, word ++ tail, by simp [hB], hxs, hch, ?_⟩
    rw [hexit _ _ _ _ hch]
    refine ⟨t, by simp [hB], ?_, hR⟩
    simp only [List.length_append] at hq
    omega

end Scanner

end Cserv.Foundations
