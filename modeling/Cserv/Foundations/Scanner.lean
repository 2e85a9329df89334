import Mathlib.Tactic

/-!
# Resumable byte scanners

A scanner is the loop `for (p = pos; p != last; p++) switch (state)`: one step
function over a state, the position and the byte there. A step moves on, reads
the same byte again in another state, or leaves the loop. Running out of bytes
keeps the state, so that the next call can resume from it.
-/
namespace Cserv.Foundations

universe u v
variable {σ : Type u} {ρ : Type v}

/-- What one byte does to a scanner in state `σ`. -/
inductive Verdict (σ : Type u) (ρ : Type v)
  | next (s : σ)
  | again (s : σ)
  | stop (r : ρ)

/-- The payload of a verdict satisfies the predicate for its kind. -/
def Verdict.All (N A : σ → Prop) (Q : ρ → Prop) : Verdict σ ρ → Prop
  | .next s => N s
  | .again s => A s
  | .stop r => Q r

/-- A step function is a cascade of tests, taken apart one test at a time. -/
theorem Verdict.All.ite {N A : σ → Prop} {Q : ρ → Prop} {c : Prop} [Decidable c]
    {v w : Verdict σ ρ} (hv : c → v.All N A Q) (hw : ¬c → w.All N A Q) :
    (if c then v else w).All N A Q := by
  by_cases h : c
  · simpa [h] using hv h
  · simpa [h] using hw h

/-- The state left at the end of the bytes, or the position and result of the
byte that left the loop. -/
inductive Scan (σ : Type u) (ρ : Type v)
  | more (s : σ)
  | halt (p : ℕ) (r : ρ)

/-- A scan that stands at the end of its bytes goes on with `k`. -/
def Scan.resume (k : σ → Scan σ ρ) : Scan σ ρ → Scan σ ρ
  | .more s => k s
  | .halt p r => .halt p r

/-- A scanner never reads one byte a third time: a state that gives the byte
back is followed by one that does not. -/
structure Scanner (σ : Type u) (ρ : Type v) where
  step : ℕ → UInt8 → σ → Verdict σ ρ
  givesBack : σ → Bool
  again_spec : ∀ p ch s s', step p ch s = .again s' →
    givesBack s = true ∧ givesBack s' = false

namespace Scanner

variable (S : Scanner σ ρ)

def run (p : ℕ) (s : σ) (bs : List UInt8) : Scan σ ρ :=
  match bs with
  | [] => .more s
  | ch :: rest =>
    match h : S.step p ch s with
    | .next s' => run (p + 1) s' rest
    | .again s' => run p s' (ch :: rest)
    | .stop r => .halt p r
termination_by 2 * bs.length + (S.givesBack s).toNat
decreasing_by
  · have hb : (S.givesBack s').toNat ≤ 1 := Bool.toNat_le _
    simp only [List.length_cons]
    omega
  · obtain ⟨h₁, h₂⟩ := S.again_spec p ch s s' h
    simp [h₁, h₂]

@[simp] theorem run_nil (p : ℕ) (s : σ) : S.run p s [] = .more s := by
  rw [run]

theorem run_next {p : ℕ} {ch : UInt8} {s s' : σ} (h : S.step p ch s = .next s')
    (rest : List UInt8) : S.run p s (ch :: rest) = S.run (p + 1) s' rest := by
  rw [run]
  split <;> simp_all

theorem run_again {p : ℕ} {ch : UInt8} {s s' : σ} (h : S.step p ch s = .again s')
    (rest : List UInt8) : S.run p s (ch :: rest) = S.run p s' (ch :: rest) := by
  rw [run]
  split <;> simp_all

theorem run_stop {p : ℕ} {ch : UInt8} {s : σ} {r : ρ} (h : S.step p ch s = .stop r)
    (rest : List UInt8) : S.run p s (ch :: rest) = .halt p r := by
  rw [run]
  split <;> simp_all

/-- The verdict on a byte once a byte given back has been read again. -/
def react (p : ℕ) (ch : UInt8) (s : σ) : Verdict σ ρ :=
  match S.step p ch s with
  | .again s' => S.step p ch s'
  | v => v

theorem react_ne_again (p : ℕ) (ch : UInt8) (s s' : σ) : S.react p ch s ≠ .again s' := by
  unfold react
  cases h : S.step p ch s with
  | again t =>
    intro h'
    have h₁ := (S.again_spec p ch s t h).2
    have h₂ := (S.again_spec p ch t s' h').1
    simp [h₁] at h₂
  | next t => simp
  | stop r => simp

theorem run_cons (p : ℕ) (s : σ) (ch : UInt8) (rest : List UInt8) :
    S.run p s (ch :: rest) =
      match S.react p ch s with
      | .next s' => S.run (p + 1) s' rest
      | .again s' => .more s'
      | .stop r => .halt p r := by
  unfold react
  cases h : S.step p ch s with
  | next t => rw [S.run_next h]
  | stop r => rw [S.run_stop h]
  | again t =>
    rw [S.run_again h]
    cases h' : S.step p ch t with
    | next t' => simp only [S.run_next h', h']
    | stop r => simp only [S.run_stop h', h']
    | again t' =>
      have h₁ := (S.again_spec p ch s t h).2
      have h₂ := (S.again_spec p ch t t' h').1
      simp [h₁] at h₂

theorem run_step_congr {p : ℕ} {ch : UInt8} {s t : σ} (h : S.step p ch s = S.step p ch t)
    (rest : List UInt8) : S.run p s (ch :: rest) = S.run p t (ch :: rest) := by
  simp only [run_cons, react, h]

theorem run_loop {P : UInt8 → Bool} {s : σ} (hstep : ∀ p ch, P ch = true → S.step p ch s = .next s)
    {xs : List UInt8} (hxs : ∀ ch ∈ xs, P ch = true) (p : ℕ) (rest : List UInt8) :
    S.run p s (xs ++ rest) = S.run (p + xs.length) s rest := by
  induction xs generalizing p with
  | nil => rfl
  | cons ch xs ih =>
    rw [List.forall_mem_cons] at hxs
    rw [List.cons_append, S.run_next (hstep p ch hxs.1), ih hxs.2, List.length_cons, Nat.add_assoc,
      Nat.add_comm 1]

/-- A run over two pieces is the run over the first, resumed on the second. -/
theorem run_append (p : ℕ) (s : σ) (xs ys : List UInt8) :
    S.run p s (xs ++ ys) = (S.run p s xs).resume (fun s' => S.run (p + xs.length) s' ys) := by
  induction xs generalizing p s with
  | nil => simp [Scan.resume]
  | cons ch rest ih =>
    rw [List.cons_append, run_cons, run_cons]
    cases h : S.react p ch s with
    | next s' => simp only [ih, List.length_cons, Nat.add_assoc, Nat.add_comm 1]
    | again s' => exact absurd h (S.react_ne_again p ch s s')
    | stop r => rfl

theorem run_halt_lt {p q : ℕ} {s : σ} {bs : List UInt8} {r : ρ}
    (h : S.run p s bs = .halt q r) : p ≤ q ∧ q < p + bs.length := by
  induction bs generalizing p s with
  | nil => simp at h
  | cons ch rest ih =>
    rw [run_cons] at h
    cases hv : S.react p ch s with
    | next s' =>
      rw [hv] at h
      have hq := ih h
      simp only [List.length_cons]
      omega
    | again s' => exact absurd hv (S.react_ne_again p ch s s')
    | stop r' =>
      rw [hv] at h
      obtain ⟨rfl, -⟩ := Scan.halt.inj h
      simp

/-- The same loop with its positions counted from `d`. -/
def shift (d : ℕ) : Scanner σ ρ where
  step p := S.step (d + p)
  givesBack := S.givesBack
  again_spec p := S.again_spec (d + p)

theorem react_shift (d p : ℕ) (ch : UInt8) (s : σ) :
    (S.shift d).react p ch s = S.react (d + p) ch s := rfl

end Scanner

def Scan.shift (d : ℕ) : Scan σ ρ → Scan σ ρ
  | .more s => .more s
  | .halt p r => .halt (d + p) r

theorem Scanner.run_shift (S : Scanner σ ρ) (d p : ℕ) (s : σ) (bs : List UInt8) :
    S.run (d + p) s bs = ((S.shift d).run p s bs).shift d := by
  induction bs generalizing p s with
  | nil => simp [Scan.shift]
  | cons ch rest ih =>
    rw [run_cons, run_cons, S.react_shift]
    cases h : S.react (d + p) ch s with
    | next s' => exact ih (p + 1) s'
    | again s' => exact absurd h (S.react_ne_again (d + p) ch s s')
    | stop r => rfl

/-! ## Simulation of one scanner by another -/

section Simulation

variable {τ : Type*} {π : Type*}

inductive Verdict.Rel (N A : σ → τ → Prop) (Q : ρ → π → Prop) : Verdict σ ρ → Verdict τ π → Prop
  | next {s : σ} {t : τ} : N s t → Verdict.Rel N A Q (.next s) (.next t)
  | again {s : σ} {t : τ} : A s t → Verdict.Rel N A Q (.again s) (.again t)
  | stop {r : ρ} {q : π} : Q r q → Verdict.Rel N A Q (.stop r) (.stop q)

theorem Verdict.Rel.ite {N A : σ → τ → Prop} {Q : ρ → π → Prop} {c : Prop} [Decidable c]
    {v w : Verdict σ ρ} {v' w' : Verdict τ π} (hv : c → Verdict.Rel N A Q v v')
    (hw : ¬c → Verdict.Rel N A Q w w') :
    Verdict.Rel N A Q (if c then v else w) (if c then v' else w') := by
  by_cases h : c
  · simpa [h] using hv h
  · simpa [h] using hw h

inductive Scan.Rel (M : σ → τ → Prop) (Q : ℕ → ρ → π → Prop) : Scan σ ρ → Scan τ π → Prop
  | more {s : σ} {t : τ} : M s t → Scan.Rel M Q (.more s) (.more t)
  | halt {p : ℕ} {r : ρ} {q : π} : Q p r q → Scan.Rel M Q (.halt p r) (.halt p q)

theorem Scanner.react_rel (S : Scanner σ ρ) (T : Scanner τ π) {N A : σ → τ → Prop}
    {Q : ρ → π → Prop} {p : ℕ} {ch : UInt8}
    (hstep : ∀ s t, A s t → Verdict.Rel N A Q (S.step p ch s) (T.step p ch t))
    {s : σ} {t : τ} (h : A s t) :
    Verdict.Rel N (fun _ _ => False) Q (S.react p ch s) (T.react p ch t) := by
  have h₁ := hstep s t h
  cases hs : S.step p ch s <;> cases ht : T.step p ch t <;> rw [hs, ht] at h₁ <;>
    cases h₁ <;> simp only [Scanner.react, hs, ht]
  case next.next.next hN => exact .next hN
  case stop.stop.stop hQ => exact .stop hQ
  case again.again.again s' t' hA =>
    have h₂ := hstep s' t' hA
    have hback := (S.again_spec p ch s s' hs).2
    cases hs' : S.step p ch s' <;> cases ht' : T.step p ch t' <;> rw [hs', ht'] at h₂ <;>
      cases h₂
    case next.next.next hN => exact .next hN
    case stop.stop.stop hQ => exact .stop hQ
    case again.again.again s'' t'' _ =>
      have hgive := (S.again_spec p ch s' s'' hs').1
      simp [hback] at hgive

/-- Scanners whose single steps are related run in lockstep. A step may use that
its byte is the one of the scanned range at its position. -/
theorem Scanner.run_rel (S : Scanner σ ρ) (T : Scanner τ π) (R : ℕ → σ → τ → Prop)
    (Q : ℕ → ρ → π → Prop) (bs : List UInt8) {p : ℕ} {s : σ} {t : τ}
    (hstep : ∀ q ch s t, p ≤ q → bs[q - p]? = some ch → R q s t →
      Verdict.Rel (R (q + 1)) (R q) (Q q) (S.step q ch s) (T.step q ch t))
    (h : R p s t) : Scan.Rel (R (p + bs.length)) Q (S.run p s bs) (T.run p t bs) := by
  induction bs generalizing p s t with
  | nil => simpa using Scan.Rel.more h
  | cons ch rest ih =>
    have key : Verdict.Rel (R (p + 1)) (fun _ _ => False) (Q p) (S.react p ch s) (T.react p ch t) :=
      S.react_rel T (fun s t hst => hstep p ch s t le_rfl (by simp) hst) h
    have hrest : ∀ q c s t, p + 1 ≤ q → rest[q - (p + 1)]? = some c → R q s t →
        Verdict.Rel (R (q + 1)) (R q) (Q q) (S.step q c s) (T.step q c t) := by
      intro q c s t hq hc
      apply hstep q c s t (by omega)
      rw [show q - p = q - (p + 1) + 1 by omega, List.getElem?_cons_succ]
      exact hc
    rw [Scanner.run_cons, Scanner.run_cons]
    cases hs : S.react p ch s <;> cases ht : T.react p ch t <;> rw [hs, ht] at key <;> cases key
    case next.next.next hR =>
      have hrun := ih hrest hR
      rwa [Nat.add_assoc, Nat.add_comm 1] at hrun
    case stop.stop.stop hQ => exact .halt hQ
    case again.again.again hF => exact hF.elim

/-- Where a scan has got to: `M` holds of its state, or `Q` of the place and the result of its end. -/
def Scan.All (M : σ → Prop) (Q : ℕ → ρ → Prop) : Scan σ ρ → Prop
  | .more s => M s
  | .halt p r => Q p r

/-- Two scanners that take the same steps under an invariant have the same runs. -/
theorem Scanner.run_congr (S T : Scanner σ ρ) (I : ℕ → σ → Prop) (bs : List UInt8) {p : ℕ}
    {s : σ}
    (hstep : ∀ q ch s, p ≤ q → bs[q - p]? = some ch → I q s →
      S.step q ch s = T.step q ch s ∧ (S.step q ch s).All (I (q + 1)) (I q) (fun _ => True))
    (h : I p s) : S.run p s bs = T.run p s bs := by
  have hrel := S.run_rel T (fun p s t => s = t ∧ I p s) (fun _ r q => r = q) bs
    (fun q ch s t hq hch hst => by
      obtain ⟨rfl, hI⟩ := hst
      obtain ⟨heq, hs⟩ := hstep q ch s hq hch hI
      rw [← heq]
      cases hv : S.step q ch s <;> rw [hv] at hs
      · exact .next ⟨rfl, hs⟩
      · exact .again ⟨rfl, hs⟩
      · exact .stop rfl) (p := p) (t := s) ⟨rfl, h⟩
  cases hS : S.run p s bs <;> cases hT : T.run p s bs <;> rw [hS, hT] at hrel <;> cases hrel
  case more.more.more hM => rw [hM.1]
  case halt.halt.halt hQ => rw [hQ]

/-- An invariant of the steps holds of the state a run ends in, and what the
last step establishes holds of its result. -/
theorem Scanner.run_inv (S : Scanner σ ρ) (I : ℕ → σ → Prop) (Q : ℕ → ρ → Prop)
    (bs : List UInt8) {p : ℕ} {s : σ}
    (hstep : ∀ q ch s, p ≤ q → bs[q - p]? = some ch → I q s →
      (S.step q ch s).All (I (q + 1)) (I q) (Q q))
    (h : I p s) : (S.run p s bs).All (I (p + bs.length)) Q := by
  have hrel := S.run_rel S (fun p s t => s = t ∧ I p s) (fun p r q => r = q ∧ Q p r) bs
    (fun q ch s t hq hch hst => by
      obtain ⟨rfl, hI⟩ := hst
      have hs := hstep q ch s hq hch hI
      cases hv : S.step q ch s <;> rw [hv] at hs
      · exact .next ⟨rfl, hs⟩
      · exact .again ⟨rfl, hs⟩
      · exact .stop ⟨rfl, hs⟩) (p := p) (t := s) ⟨rfl, h⟩
  cases hrun : S.run p s bs <;> rw [hrun] at hrel <;> cases hrel
  case more.more hM => exact hM.2
  case halt.halt hQ => exact hQ.2

end Simulation

/-! ## The rounds of a run -/

/-- What a round at `p` leads to, where `point` are the points of the loop and `exit` those behind
it. -/
def Verdict.point {τ : Type*} (point : ℕ → σ → τ) (exit : Scan σ ρ → τ) (p : ℕ) : Verdict σ ρ → τ
  | .next s => point (p + 1) s
  | .again s => point p s
  | .stop r => exit (.halt p r)

/-- A machine whose steps are the rounds of the loop runs to the point behind it. -/
theorem Scanner.run_rounds {τ : Type*} (S : Scanner σ ρ) {step : τ → τ → Prop} {mem : List UInt8}
    {point : ℕ → σ → τ} {exit : Scan σ ρ → τ}
    (hend : ∀ s, step (point mem.length s) (exit (.more s)))
    (hbyte : ∀ p ch s, mem[p]? = some ch →
      step (point p s) ((S.step p ch s).point point exit p))
    {p : ℕ} (hp : p ≤ mem.length) (s : σ) :
    Relation.ReflTransGen step (point p s) (exit (S.run p s (mem.drop p))) := by
  generalize hbs : mem.drop p = bs
  have hround : ∀ {p ch rest} s, mem.drop p = ch :: rest →
      step (point p s) ((S.step p ch s).point point exit p) := by
    intro p ch rest s hbs
    have hch := congrArg List.head? hbs
    rw [List.head?_drop] at hch
    exact hbyte p ch s hch
  fun_induction Scanner.run S p s bs with
  | case1 p s =>
    have heq : p = mem.length := le_antisymm hp (List.drop_eq_nil_iff.mp hbs)
    rw [heq]
    exact .single (hend s)
  | case2 p s ch rest s' hv ih =>
    have hlt := List.length_lt_of_drop_ne_nil (hbs ▸ List.cons_ne_nil ch rest)
    have hrest : mem.drop (p + 1) = rest := by rw [← List.tail_drop, hbs, List.tail_cons]
    have hnext := hround s hbs
    rw [hv] at hnext
    exact .head hnext (ih hlt hrest)
  | case3 p s ch rest s' hv ih =>
    have hagain := hround s hbs
    rw [hv] at hagain
    exact .head hagain (ih hp hbs)
  | case4 p s ch rest r hv =>
    have hstop := hround s hbs
    rw [hv] at hstop
    exact .single hstop

end Cserv.Foundations
