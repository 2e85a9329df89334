import Mathlib.Tactic

/-!
# Memory by words

Memory is a partial function from 64-bit addresses to 64-bit words; an access to a word that is not
mapped, or not aligned, fails. A block of words is held from an address upwards.
-/
namespace Cserv.Foundations

abbrev Word64 := BitVec 64

/-- Only aligned words are mapped. -/
structure WordMemory where
  word : Word64 → Option Word64
  aligned : ∀ a, (word a).isSome → a.toNat % 8 = 0

namespace WordMemory

variable {m m' m'' : WordMemory} {a b w : Word64} {ws : List Word64} {n : ℕ}

def load (m : WordMemory) (a : Word64) : Option Word64 := m.word a

def store (m : WordMemory) (a w : Word64) : Option WordMemory :=
  if h : (m.word a).isSome then
    some
      { word := Function.update m.word a (some w)
        aligned := by
          intro b hb
          by_cases hab : b = a
          · exact hab ▸ m.aligned a h
          · rw [Function.update_of_ne hab] at hb
            exact m.aligned b hb }
  else
    none

/-- The words from `a` upwards. -/
def Holds (m : WordMemory) : Word64 → List Word64 → Prop
  | _, [] => True
  | a, w :: ws => m.word a = some w ∧ m.Holds (a + 8) ws

def read (m : WordMemory) (a : Word64) : ℕ → Option (List Word64)
  | 0 => some []
  | n + 1 => do
    let w ← m.load a
    let ws ← m.read (a + 8) n
    return w :: ws

def Mapped (m : WordMemory) (a : Word64) (n : ℕ) : Prop :=
  ∃ ws : List Word64, ws.length = n ∧ m.Holds a ws

/-- The address `b` is not among those of the `n` words from `a` upwards. -/
def Outside (a : Word64) (n : ℕ) (b : Word64) : Prop := 8 * n ≤ (b - a).toNat

/-- The memory `m'` has the words `ws` from `a` upwards, and else what `m` has. -/
structure Wrote (m m' : WordMemory) (a : Word64) (ws : List Word64) : Prop where
  holds : m'.Holds a ws
  frame : ∀ b, Outside a ws.length b → m'.word b = m.word b

theorem store_mapped (h : (m.word a).isSome) (w : Word64) :
    ∃ m', m.store a w = some m' ∧ m'.word a = some w ∧ ∀ b, b ≠ a → m'.word b = m.word b := by
  rw [store, dif_pos h]
  exact ⟨_, rfl, Function.update_self .., fun b hb => Function.update_of_ne hb ..⟩

theorem isSome_store (hhead : m'.word a = some w) (hsame : ∀ b, b ≠ a → m'.word b = m.word b)
    (hb : (m.word b).isSome) : (m'.word b).isSome := by
  by_cases hab : b = a
  · rw [hab, hhead]
    rfl
  · rw [hsame b hab]
    exact hb

theorem outside_zero (a b : Word64) : Outside a 0 b := Nat.zero_le _

theorem Outside.ne (h : Outside a (n + 1) b) : b ≠ a := by
  rintro rfl
  unfold Outside at h
  bv_omega

theorem Outside.tail (h : Outside a (n + 1) b) : Outside (a + 8) n b := by
  unfold Outside at h ⊢
  bv_omega

theorem outside_next (a : Word64) (hn : n < 2 ^ 61) : Outside (a + 8) n a := by
  unfold Outside
  bv_omega

theorem Holds.congr (h : m.Holds a ws) (hsame : ∀ b, ¬ Outside a ws.length b → m'.word b = m.word b) :
    m'.Holds a ws := by
  induction ws generalizing a with
  | nil => trivial
  | cons w ws ih =>
    constructor
    · rw [hsame a fun hout => hout.ne rfl]
      exact h.1
    · refine ih h.2 fun b hb => hsame b fun hout => hb ?_
      exact hout.tail

theorem read_eq_some_iff : m.read a n = some ws ↔ ws.length = n ∧ m.Holds a ws := by
  induction n generalizing a ws with
  | zero => cases ws <;> simp [read, Holds]
  | succ n ih =>
    constructor
    · intro h
      obtain ⟨w, hw, h⟩ := Option.bind_eq_some_iff.mp h
      obtain ⟨vs, hvs, h⟩ := Option.bind_eq_some_iff.mp h
      cases h
      obtain ⟨hlen, hholds⟩ := ih.mp hvs
      exact ⟨congrArg Nat.succ hlen, hw, hholds⟩
    · rintro ⟨hlen, hholds⟩
      cases ws with
      | nil => cases hlen
      | cons w ws =>
        have hrest := ih.mpr ⟨Nat.succ.inj hlen, hholds.2⟩
        rw [read, load, hholds.1, Option.bind_eq_bind, Option.bind_some, hrest]
        rfl

theorem holds_append {vs : List Word64} : m.Holds a (ws ++ vs) ↔
    m.Holds a ws ∧ m.Holds (a + BitVec.ofNat 64 (8 * ws.length)) vs := by
  induction ws generalizing a with
  | nil => simp [Holds]
  | cons w ws ih =>
    have hnext : a + 8 + BitVec.ofNat 64 (8 * ws.length) =
        a + BitVec.ofNat 64 (8 * (w :: ws).length) := by
      rw [List.length_cons]
      bv_omega
    rw [List.cons_append, Holds, ih, hnext, Holds, and_assoc]

theorem Mapped.head (h : m.Mapped a (n + 1)) : (m.word a).isSome := by
  obtain ⟨ws, hlen, hw⟩ := h
  cases ws with
  | nil => cases hlen
  | cons w ws => exact Option.isSome_of_eq_some hw.1

theorem Mapped.tail (h : m.Mapped a (n + 1)) : m.Mapped (a + 8) n := by
  obtain ⟨ws, hlen, hw⟩ := h
  cases ws with
  | nil => cases hlen
  | cons w ws => exact ⟨ws, Nat.succ.inj hlen, hw.2⟩

theorem Mapped.split {k : ℕ} (h : m.Mapped a (n + k)) :
    m.Mapped a n ∧ m.Mapped (a + BitVec.ofNat 64 (8 * n)) k := by
  obtain ⟨ws, hlen, hws⟩ := h
  have htake : (ws.take n).length = n := by
    rw [List.length_take]
    omega
  rw [← List.take_append_drop n ws] at hws
  obtain ⟨hfront, hback⟩ := holds_append.mp hws
  rw [htake] at hback
  exact ⟨⟨_, htake, hfront⟩, ⟨ws.drop n, by rw [List.length_drop]; omega, hback⟩⟩

theorem Mapped.mono (h : m.Mapped a n) (hsome : ∀ b, (m.word b).isSome → (m'.word b).isSome) :
    m'.Mapped a n := by
  induction n generalizing a with
  | zero => exact ⟨[], rfl, trivial⟩
  | succ n ih =>
    obtain ⟨w, hw⟩ := Option.isSome_iff_exists.mp (hsome a h.head)
    obtain ⟨ws, hlen, hws⟩ := ih h.tail
    exact ⟨w :: ws, congrArg Nat.succ hlen, hw, hws⟩

theorem mapped_of_isSome (hn : n < 2 ^ 61) (ha : a.toNat % 8 = 0)
    (h : ∀ b, b.toNat % 8 = 0 → ¬ Outside a n b → (m.word b).isSome) : m.Mapped a n := by
  induction n generalizing a with
  | zero => exact ⟨[], rfl, trivial⟩
  | succ n ih =>
    obtain ⟨w, hw⟩ := Option.isSome_iff_exists.mp (h a ha fun hout => hout.ne rfl)
    have hrest : m.Mapped (a + 8) n := by
      refine ih (by omega) (by bv_omega) fun b hb hin => h b hb fun hout => hin ?_
      exact hout.tail
    obtain ⟨ws, hlen, hws⟩ := hrest
    exact ⟨w :: ws, congrArg Nat.succ hlen, hw, hws⟩

/-- Words are written downwards: one more in front of a block. -/
theorem Wrote.cons (h : Wrote m m' (a + 8) ws) (hlen : ws.length < 2 ^ 61) (hhead : m''.word a = some w)
    (hsame : ∀ b, b ≠ a → m''.word b = m'.word b) : Wrote m m'' a (w :: ws) where
  holds := by
    refine ⟨hhead, h.holds.congr fun b hb => hsame b ?_⟩
    rintro rfl
    exact hb (outside_next _ hlen)
  frame b hb := (hsame b hb.ne).trans (h.frame b hb.tail)

/-- Words are written upwards: a block behind one more. -/
theorem Wrote.front (h : Wrote m' m'' (a + 8) ws) (hlen : ws.length < 2 ^ 61)
    (hhead : m'.word a = some w) (hsame : ∀ b, b ≠ a → m'.word b = m.word b) :
    Wrote m m'' a (w :: ws) where
  holds := ⟨(h.frame a (outside_next a hlen)).trans hhead, h.holds⟩
  frame b hb := (h.frame b hb.tail).trans (hsame b hb.ne)

theorem Wrote.append {vs : List Word64} (h : Wrote m m' (a + BitVec.ofNat 64 (8 * ws.length)) vs)
    (h' : Wrote m' m'' a ws) (hlen : ws.length + vs.length < 2 ^ 61) : Wrote m m'' a (ws ++ vs) where
  holds := by
    refine holds_append.mpr ⟨h'.holds, h.holds.congr fun b hb => h'.frame b ?_⟩
    unfold Outside at hb ⊢
    bv_omega
  frame b hb := by
    rw [List.length_append] at hb
    have hfront : Outside a ws.length b := by
      unfold Outside at hb ⊢
      omega
    have hback : Outside (a + BitVec.ofNat 64 (8 * ws.length)) vs.length b := by
      unfold Outside at hb ⊢
      bv_omega
    rw [h'.frame b hfront, h.frame b hback]

theorem Wrote.nil (m : WordMemory) (a : Word64) : Wrote m m a [] := ⟨trivial, fun _ _ => rfl⟩

theorem Holds.isSome (h : m.Holds a ws) (hb : b.toNat % 8 = 0) (hin : ¬ Outside a ws.length b) :
    (m.word b).isSome := by
  induction ws generalizing a with
  | nil => exact absurd (outside_zero a b) hin
  | cons w ws ih =>
    by_cases hab : b = a
    · rw [hab, h.1]
      rfl
    · refine ih h.2 fun hout => hin ?_
      have ha := m.aligned a (Option.isSome_of_eq_some h.1)
      simp only [Outside, List.length_cons] at hout ⊢
      bv_omega

theorem Wrote.isSome (h : Wrote m m' a ws) (hb : (m.word b).isSome) : (m'.word b).isSome := by
  by_cases hout : Outside a ws.length b
  · rw [h.frame b hout]
    exact hb
  · exact h.holds.isSome (m.aligned b hb) hout

end WordMemory

end Cserv.Foundations
