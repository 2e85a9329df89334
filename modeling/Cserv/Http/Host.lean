import Mathlib.Data.FinEnum
import Mathlib.Data.List.TakeWhile
import Cserv.Http.HeaderHandlers

/-!
# The host of a request

`http_process_host` lower-cases the value of the `Host` header in place and cuts the port and a
final dot off. It looks for that dot only where the last dot of the whole value lies: a dot in
the port hides the one at the end of the host, which then stays.
-/
namespace Cserv.Http

open Foundations

/-! ## What the loop knows of the bytes it has read -/

def twoDots : List UInt8 := bytes ".."

/-- No byte of the value and no two of its dots make `http_process_host` fail. -/
structure CleanHost (xs : List UInt8) : Prop where
  no_slash : ('/' : UInt8) ∉ xs
  no_nul : (0 : UInt8) ∉ xs
  apart : ¬twoDots <:+: xs

/-- `dot_pos` after the bytes `xs` of a value of length `n`. -/
inductive LastDot (n : ℕ) : List UInt8 → ℕ → Prop
  | absent {xs : List UInt8} : ('.' : UInt8) ∉ xs → LastDot n xs n
  | found {a b : List UInt8} : ('.' : UInt8) ∉ b → LastDot n (a ++ ('.' : UInt8) :: b) a.length

/-- `state` and `host_len` after the bytes `xs` of a value of length `n`: the host ends before
the first colon, or behind the bracket that closes the one it starts with. -/
inductive HostEnd (n : ℕ) : List UInt8 → HostState → ℕ → Prop
  | usual {xs : List UInt8} :
      xs.head? ≠ some ('[' : UInt8) → (':' : UInt8) ∉ xs → HostEnd n xs .usual n
  | literal {xs : List UInt8} :
      xs.head? = some ('[' : UInt8) → (']' : UInt8) ∉ xs → HostEnd n xs .literal n
  | colon {a b : List UInt8} : a.head? ≠ some ('[' : UInt8) → (':' : UInt8) ∉ a →
      HostEnd n (a ++ (':' : UInt8) :: b) .rest a.length
  | bracket {a b : List UInt8} : a.head? = some ('[' : UInt8) → (']' : UInt8) ∉ a →
      HostEnd n (a ++ (']' : UInt8) :: b) .rest (a.length + 1)

structure HostRead (n : ℕ) (xs : List UInt8) (l : HostLocals) : Prop where
  clean : CleanHost xs
  dot : LastDot n xs l.dotPos
  part : HostEnd n xs l.state l.hostLen

section Step

variable {n : ℕ} {xs : List UInt8} {c : UInt8}

theorem twoDots_concat (h : ¬twoDots <:+: xs) :
    twoDots <:+: xs ++ [c] ↔ c = '.' ∧ xs.getLast? = some ('.' : UInt8) := by
  have htwo : twoDots = [('.' : UInt8)] ++ [('.' : UInt8)] := by decide
  rw [List.infix_concat_iff, or_iff_left h, htwo, List.suffix_concat_iff]
  constructor
  · rintro (hnil | ⟨t, ht, a, rfl⟩)
    · simp at hnil
    · obtain ⟨rfl, hc⟩ := List.append_inj' ht rfl
      exact ⟨(List.singleton_inj.mp hc).symm, by simp⟩
  · rintro ⟨rfl, hlast⟩
    obtain ⟨a, rfl⟩ := List.getLast?_eq_some_iff.mp hlast
    exact Or.inr ⟨_, rfl, List.suffix_append ..⟩

theorem CleanHost.concat (h : CleanHost xs) (hslash : c ≠ '/') (hnul : c ≠ 0)
    (hdots : c = '.' → xs.getLast? ≠ some ('.' : UInt8)) : CleanHost (xs ++ [c]) where
  no_slash := by simpa using ⟨h.no_slash, hslash.symm⟩
  no_nul := by simpa using ⟨h.no_nul, hnul.symm⟩
  apart := by
    rw [twoDots_concat h.apart]
    exact fun hc => hdots hc.1 hc.2

theorem LastDot.eq_pred_iff {p q : List UInt8} {d : ℕ} (h : LastDot n (p ++ q) d)
    (hn : (p ++ q).length ≤ n) (hp : p ≠ []) :
    d = p.length - 1 ↔ p.getLast? = some ('.' : UInt8) ∧ ('.' : UInt8) ∉ q := by
  have hpos := List.length_pos_iff.mpr hp
  generalize hv : p ++ q = v at h
  cases h with
  | absent hdot =>
    rw [List.length_append] at hn
    refine iff_of_false (by omega) ?_
    rintro ⟨hlast, -⟩
    exact hdot (hv ▸ List.mem_append_left q (List.mem_of_getLast? hlast))
  | @found a b hdot =>
    rcases List.append_eq_append_iff.mp hv with ⟨t, rfl, rfl⟩ | ⟨t, rfl, ht⟩
    · rw [List.length_append]
      exact iff_of_false (by omega) (by simp)
    · cases t with
      | nil =>
        obtain rfl : q = ('.' : UInt8) :: b := by simpa using ht.symm
        exact iff_of_false (by simp only [List.append_nil] at hpos ⊢; omega) (by simp)
      | cons c t =>
        rw [List.cons_append] at ht
        obtain ⟨rfl, rfl⟩ := List.cons.inj ht
        rw [List.mem_append, not_or] at hdot
        rcases List.eq_nil_or_concat t with rfl | ⟨t, c, rfl⟩
        · simp [hdot.2]
        · have hc : c ≠ '.' := fun hc => hdot.1 (by simp [hc])
          rw [List.concat_eq_append, ← List.cons_append, ← List.append_assoc,
            List.getLast?_concat]
          refine iff_of_false (by simp) ?_
          simp [hc]

theorem LastDot.le {d : ℕ} (h : LastDot n xs d) (hn : xs.length ≤ n) : d ≤ n := by
  cases h with
  | absent => exact le_rfl
  | @found a b =>
    rw [List.length_append] at hn
    omega

theorem LastDot.concat {d : ℕ} (h : LastDot n xs d) (hc : c ≠ '.') : LastDot n (xs ++ [c]) d := by
  cases h with
  | absent hdot => exact .absent (by simpa using ⟨hdot, hc.symm⟩)
  | @found a b hdot =>
    rw [List.append_assoc, List.cons_append]
    exact .found (by simpa using ⟨hdot, hc.symm⟩)

theorem HostEnd.concat {st : HostState} {e : ℕ} (h : HostEnd n xs st e)
    (hopen : xs = [] → c ≠ '[') (hcolon : st = .usual → c ≠ ':') (hclose : st = .literal → c ≠ ']') :
    HostEnd n (xs ++ [c]) st e := by
  cases h with
  | usual hhead hno =>
    refine .usual ?_ (by simpa using ⟨hno, (hcolon rfl).symm⟩)
    cases xs with
    | nil => simpa using hopen rfl
    | cons d xs => exact hhead
  | literal hhead hno =>
    refine .literal ?_ (by simpa using ⟨hno, (hclose rfl).symm⟩)
    cases xs with
    | nil => simp at hhead
    | cons d xs => exact hhead
  | @colon a b hhead hno =>
    rw [List.append_assoc, List.cons_append]
    exact .colon hhead hno
  | @bracket a b hhead hno =>
    rw [List.append_assoc, List.cons_append]
    exact .bracket hhead hno

theorem HostEnd.of_nil {st : HostState} {e : ℕ} (h : HostEnd n [] st e) : st = .usual ∧ e = n := by
  generalize hxs : ([] : List UInt8) = xs at h
  cases h with
  | usual => exact ⟨rfl, rfl⟩
  | literal hhead => simp [← hxs] at hhead
  | colon | bracket => simp at hxs

theorem hostByte_read {l l' : HostLocals} {c' : UInt8} (h : HostRead n xs l) (hn : xs.length ≤ n)
    (hb : hostByte xs.length l c = .inr (l', c')) :
    HostRead n (xs ++ [c]) l' ∧ c' = tolower c := by
  obtain ⟨hclean, hlast, hpart⟩ := h
  unfold hostByte at hb
  by_cases hdot : c = '.'
  · rw [if_pos hdot] at hb
    split_ifs at hb with hpos
    obtain ⟨rfl, rfl⟩ := Prod.mk.inj (Sum.inr.inj hb)
    have hdots : xs.getLast? ≠ some ('.' : UInt8) := by
      intro hend
      have hne : xs ≠ [] := by
        rintro rfl
        simp at hend
      rw [← List.append_nil xs] at hlast
      apply hpos
      rw [(hlast.eq_pred_iff (by simpa using hn) hne).mpr ⟨hend, by simp⟩, sizePred,
        if_neg (List.length_pos_iff.mpr hne).ne']
    subst hdot
    exact ⟨⟨hclean.concat (by decide) (by decide) (fun _ => hdots), .found (by simp),
      hpart.concat (fun _ => by decide) (fun _ => by decide) (fun _ => by decide)⟩, by decide⟩
  rw [if_neg hdot] at hb
  have hkeep : ∀ st e, c ≠ '/' → c ≠ 0 → HostEnd n (xs ++ [c]) st e →
      HostRead n (xs ++ [c]) ⟨st, l.dotPos, e⟩ := fun st e hslash hnul hend =>
    ⟨hclean.concat hslash hnul (fun hc => absurd hc hdot), hlast.concat hdot, hend⟩
  split_ifs at hb with hcolon husual hopen hzero hclose hliteral hnul hslash <;>
    obtain ⟨rfl, rfl⟩ := Prod.mk.inj (Sum.inr.inj hb)
  · subst hcolon
    rw [husual] at hpart
    refine ⟨hkeep _ _ (by decide) (by decide) ?_, by decide⟩
    cases hpart with
    | usual hhead hno => exact .colon hhead hno
  · subst hcolon
    exact ⟨hkeep _ _ (by decide) (by decide) (hpart.concat (fun _ => by decide)
      (fun hst => absurd hst husual) (fun _ => by decide)), by decide⟩
  · subst hopen
    obtain rfl := List.eq_nil_of_length_eq_zero hzero
    rw [hpart.of_nil.2]
    exact ⟨hkeep _ _ (by decide) (by decide) (.literal (by decide) (by decide)), by decide⟩
  · subst hopen
    exact ⟨hkeep _ _ (by decide) (by decide) (hpart.concat
      (fun hnil => absurd (by simp [hnil]) hzero) (fun _ => by decide) (fun _ => by decide)),
      by decide⟩
  · subst hclose
    rw [hliteral] at hpart
    refine ⟨hkeep _ _ (by decide) (by decide) ?_, by decide⟩
    cases hpart with
    | literal hhead hno => exact .bracket hhead hno
  · subst hclose
    exact ⟨hkeep _ _ (by decide) (by decide) (hpart.concat (fun _ => by decide)
      (fun _ => by decide) (fun hst => absurd hst hliteral)), by decide⟩
  · exact ⟨hkeep _ _ hslash hnul (hpart.concat (fun _ => hopen) (fun _ => hcolon)
      (fun _ => hclose)), rfl⟩

/-- A byte that fits behind the others is not refused; `dot_pos` starts as no position that the
test could take for that of a dot. -/
theorem hostByte_accepts {l : HostLocals} (h : HostRead n xs l) (hn : xs.length < n)
    (hsize : n < 2 ^ 64 - 1) (hclean : CleanHost (xs ++ [c])) :
    ∃ out, hostByte xs.length l c = .inr out := by
  have hslash : c ≠ '/' := fun hc => hclean.no_slash (by simp [hc])
  have hnul : c ≠ '\x00' := fun hc => hclean.no_nul (List.mem_append_right xs (by simp [hc]; rfl))
  have hpos : c = '.' → l.dotPos ≠ sizePred xs.length := by
    rintro rfl hpos
    have hle := h.dot.le hn.le
    rcases List.eq_nil_or_concat xs with rfl | ⟨ys, d, hxs⟩
    · simp only [List.length_nil, sizePred, if_true] at hpos
      omega
    · have hne : xs ≠ [] := by simp [hxs]
      have hdot := h.dot
      rw [← List.append_nil xs] at hdot
      rw [sizePred, if_neg (List.length_pos_iff.mpr hne).ne'] at hpos
      have hlast := ((hdot.eq_pred_iff (by simpa using hn.le) hne).mp hpos).1
      have hapart : ¬twoDots <:+: xs := fun hin =>
        hclean.apart (hin.trans (List.prefix_append ..).isInfix)
      exact hclean.apart ((twoDots_concat hapart).mpr ⟨rfl, hlast⟩)
  unfold hostByte
  split_ifs with hdot hd
  · exact absurd hd (hpos hdot)
  all_goals exact ⟨_, rfl⟩

theorem hostByte_code {i : ℕ} {l : HostLocals} {code : ℤ} (h : hostByte i l c = .inl code) :
    code < 0 := by
  unfold hostByte at h
  split_ifs at h <;> (obtain rfl := Sum.inl.inj h; decide)

def hostSpecials : List UInt8 := ['.', ':', '[', ']', '\x00', '/']

theorem hostByte_plain {i : ℕ} {l : HostLocals} (h : c ∉ hostSpecials) :
    hostByte i l c = .inr (l, tolower c) := by
  simp only [hostSpecials, List.mem_cons, List.not_mem_nil, or_false, not_or] at h
  obtain ⟨h₁, h₂, h₃, h₄, h₅, h₆⟩ := h
  simp only [hostByte, h₁, h₂, h₃, h₄, h₅, h₆, if_false]

theorem tolower_cases (c : UInt8) : tolower c = c ∨
    c ∉ hostSpecials ∧ tolower c ∉ hostSpecials ∧ tolower (tolower c) = tolower c := by
  revert c
  decide +kernel

theorem hostByte_tolower {i : ℕ} {l l' : HostLocals} {c' : UInt8}
    (h : hostByte i l c = .inr (l', c')) : hostByte i l (tolower c) = .inr (l', c') := by
  rcases tolower_cases c with hsame | ⟨hplain, hplain', hlower⟩
  · rwa [hsame]
  · rw [hostByte_plain hplain] at h
    rw [hostByte_plain hplain', hlower, h]

end Step

/-! ## The whole loop -/

section Run

variable {n i : ℕ} {xs ys w : List UInt8} {l l' : HostLocals}

theorem hostLoop_cons {c : UInt8} (h : hostLoop i l (c :: ys) = (.inr l', w)) :
    ∃ l₁ c' w', hostByte i l c = .inr (l₁, c') ∧ hostLoop (i + 1) l₁ ys = (.inr l', w') ∧
      w = c' :: w' := by
  unfold hostLoop at h
  split at h
  · simp at h
  · obtain ⟨hout, rfl⟩ := Prod.mk.inj h
    exact ⟨_, _, _, ‹_›, Prod.ext hout rfl, rfl⟩

theorem hostLoop_read (h : HostRead n xs l) (hn : (xs ++ ys).length ≤ n)
    (hrun : hostLoop xs.length l ys = (.inr l', w)) :
    HostRead n (xs ++ ys) l' ∧ w = ys.map tolower := by
  induction ys generalizing xs l w with
  | nil =>
    obtain ⟨hl, rfl⟩ := Prod.mk.inj hrun
    obtain rfl := Sum.inr.inj hl
    exact ⟨by simpa using h, rfl⟩
  | cons c ys ih =>
    obtain ⟨l₁, c', w', hbyte, hrest, rfl⟩ := hostLoop_cons hrun
    obtain ⟨hnext, rfl⟩ := hostByte_read h (by rw [List.length_append] at hn; omega) hbyte
    rw [List.append_cons] at hn
    obtain ⟨hread, rfl⟩ := ih hnext hn (by simpa using hrest)
    exact ⟨by simpa using hread, rfl⟩

theorem hostLoop_accepts (h : HostRead n xs l) (hn : (xs ++ ys).length ≤ n)
    (hsize : n < 2 ^ 64 - 1) (hclean : CleanHost (xs ++ ys)) :
    ∃ l' w, hostLoop xs.length l ys = (.inr l', w) := by
  induction ys generalizing xs l with
  | nil => exact ⟨l, [], rfl⟩
  | cons c ys ih =>
    rw [List.append_cons] at hn hclean
    have hlt : xs.length < n := by
      simp only [List.length_append, List.length_singleton] at hn
      omega
    have hclean' : CleanHost (xs ++ [c]) :=
      ⟨fun hc => hclean.no_slash (List.mem_append_left _ hc),
        fun hc => hclean.no_nul (List.mem_append_left _ hc),
        fun hin => hclean.apart (hin.trans (List.prefix_append ..).isInfix)⟩
    obtain ⟨⟨l₁, c'⟩, hbyte⟩ := hostByte_accepts h hlt hsize hclean'
    obtain ⟨hnext, rfl⟩ := hostByte_read h hlt.le hbyte
    obtain ⟨l', w, hrest⟩ := ih hnext hn hclean
    refine ⟨l', tolower c :: w, ?_⟩
    rw [List.length_append, List.length_singleton] at hrest
    simp only [hostLoop, hbyte, hrest]

theorem hostLoop_code {code : ℤ} (h : hostLoop i l ys = (.inl code, w)) : code < 0 := by
  induction ys generalizing i l w with
  | nil => simp [hostLoop] at h
  | cons c ys ih =>
    unfold hostLoop at h
    split at h
    · obtain ⟨hcode, -⟩ := Prod.mk.inj h
      obtain rfl := Sum.inl.inj hcode
      exact hostByte_code ‹_›
    · exact ih (Prod.ext (Prod.mk.inj h).1 rfl)

theorem hostLoop_tolower (h : hostLoop i l ys = (.inr l', w)) :
    hostLoop i l (ys.map tolower) = (.inr l', w) := by
  induction ys generalizing i l w with
  | nil => exact h
  | cons c ys ih =>
    obtain ⟨l₁, c', w', hbyte, hrest, rfl⟩ := hostLoop_cons h
    simp only [List.map_cons, hostLoop, hostByte_tolower hbyte, ih hrest]

end Run

/-! ## The host that is cut out -/

/-- `host_len` as it is left in the request. -/
def hostCut (l : HostLocals) : ℕ :=
  if l.dotPos = sizePred l.hostLen then sizePred l.hostLen else l.hostLen

/-- Outside brackets, the text before the first colon ends with a dot and is followed by one. -/
def DotInPort (v : List UInt8) : Prop :=
  v.head? ≠ some ('[' : UInt8) ∧ (v.takeWhile (· ≠ (':' : UInt8))).getLast? = some ('.' : UInt8) ∧
    ('.' : UInt8) ∈ v.dropWhile (· ≠ (':' : UInt8))

instance decidableDotInPort (v : List UInt8) : Decidable (DotInPort v) :=
  inferInstanceAs (Decidable (_ ∧ _ ∧ _))

def WholeHost (h : List UInt8) : Prop :=
  h.head? ≠ some ('[' : UInt8) ∧ (':' : UInt8) ∉ h ∨
    h.head? = some ('[' : UInt8) ∧ (']' : UInt8) ∉ h.dropLast

section Cut

variable {v : List UInt8} {l : HostLocals}

theorem HostEnd.le {n : ℕ} {st : HostState} {e : ℕ} (h : HostEnd n v st e) (hn : v.length ≤ n) :
    e ≤ n := by
  cases h with
  | usual | literal => exact le_rfl
  | colon | bracket =>
    simp only [List.length_append, List.length_cons] at hn
    omega

theorem HostEnd.whole {st : HostState} {e : ℕ} (h : HostEnd v.length v st e) (hv : WholeHost v) :
    e = v.length := by
  generalize hn : v.length = n at h
  cases h with
  | usual | literal => rfl
  | @colon a b hhead hno =>
    exfalso
    rcases hv with ⟨-, hcolon⟩ | ⟨hopen, -⟩
    · simp at hcolon
    · cases a with
      | nil => exact absurd (Option.some.inj hopen) (by decide)
      | cons c a => exact hhead hopen
  | @bracket a b hhead hno =>
    rcases hv with ⟨hopen, -⟩ | ⟨-, hclose⟩
    · cases a with
      | nil => simp at hhead
      | cons c a => exact absurd hhead hopen
    · cases b with
      | nil => simpa using hn
      | cons c b => simp [List.dropLast_append_of_ne_nil] at hclose

/-- With `host_len = 0` the subtraction wraps around: only a value of the greatest length without
a dot goes on from there, as a whole. -/
theorem HostRead.cut_zero (h : HostRead v.length v l) (hsize : v.length < 2 ^ 64)
    (hcut : hostCut l ≠ 0) (hzero : l.hostLen = 0) :
    hostCut l = v.length ∧ ('.' : UInt8) ∉ v := by
  rw [hostCut, hzero] at hcut ⊢
  split_ifs at hcut ⊢ with hwrap
  · have hmax : sizePred 0 = 2 ^ 64 - 1 := rfl
    have hdot := h.dot
    rw [hwrap] at hdot
    generalize hn : v.length = n at hdot
    generalize hd : sizePred 0 = d at hdot
    cases hdot with
    | absent hno => exact ⟨rfl, hno⟩
    | @found a b =>
      simp only [List.length_append, List.length_cons] at hsize
      omega
  · exact absurd rfl hcut

theorem HostRead.cut_pos (h : HostRead v.length v l) (hpos : 0 < l.hostLen) :
    hostCut l ≤ l.hostLen ∧ ((v.take (hostCut l)).getLast? = some ('.' : UInt8) ↔
      (v.take l.hostLen).getLast? = some ('.' : UInt8) ∧ ('.' : UInt8) ∈ v.drop l.hostLen) := by
  have hle := h.part.le le_rfl
  have hne : v.take l.hostLen ≠ [] := by
    apply List.ne_nil_of_length_pos
    rw [List.length_take]
    omega
  have hdot := h.dot
  rw [← List.take_append_drop l.hostLen v] at hdot
  have hpred := hdot.eq_pred_iff le_rfl hne
  rw [List.length_take_of_le hle] at hpred
  have hsize : sizePred l.hostLen = l.hostLen - 1 := if_neg hpos.ne'
  have hcut : v.take (l.hostLen - 1) = (v.take l.hostLen).dropLast := by
    rw [List.dropLast_eq_take, List.length_take_of_le hle, List.take_take,
      min_eq_left (Nat.sub_le ..)]
  rw [hostCut, hsize]
  split_ifs with hends
  · -- the byte before the dot that is cut off is no dot
    obtain ⟨hend, hno⟩ := hpred.mp hends
    refine ⟨Nat.sub_le .., iff_of_false ?_ (fun hdots => hno hdots.2)⟩
    rw [hcut]
    intro hlast
    have hin : (v.take l.hostLen).dropLast ++ [('.' : UInt8)] <:+: v := by
      rw [List.dropLast_append_getLast? _ hend]
      exact (List.take_prefix ..).isInfix
    have hapart : ¬twoDots <:+: (v.take l.hostLen).dropLast := fun htwo =>
      h.clean.apart (htwo.trans ((List.prefix_append ..).isInfix.trans hin))
    exact h.clean.apart (((twoDots_concat hapart).mpr ⟨rfl, hlast⟩).trans hin)
  · refine ⟨le_rfl, ⟨fun hlast => ⟨hlast, ?_⟩, And.left⟩⟩
    by_contra hno
    exact hends (hpred.mpr ⟨hlast, hno⟩)

theorem HostEnd.dotInPort_iff {st : HostState} {e : ℕ} (h : HostEnd v.length v st e) :
    DotInPort v ↔ (v.take e).getLast? = some ('.' : UInt8) ∧ ('.' : UInt8) ∈ v.drop e := by
  generalize hn : v.length = n at h
  cases h with
  | usual hhead hno =>
    have hdrop : v.dropWhile (· ≠ (':' : UInt8)) = [] := by
      rw [List.dropWhile_eq_nil_iff]
      intro c hc
      simpa using fun hcolon : c = ':' => hno (hcolon ▸ hc)
    rw [DotInPort, hdrop, ← hn, List.drop_length]
    simp
  | literal hhead hno => simp [DotInPort, hhead, ← hn]
  | @colon a b hhead hno =>
    have ha : ∀ c ∈ a, decide (c ≠ (':' : UInt8)) = true := by
      intro c hc
      simpa using fun hcolon : c = ':' => hno (hcolon ▸ hc)
    have hopen : (a ++ (':' : UInt8) :: b).head? ≠ some ('[' : UInt8) := by
      cases a with
      | nil => exact fun hopen => absurd (Option.some.inj hopen) (by decide)
      | cons c a => exact hhead
    rw [DotInPort, List.takeWhile_append_of_pos ha, List.dropWhile_append_of_pos ha,
      List.take_left, List.drop_left, and_iff_right hopen]
    simp
  | @bracket a b hhead hno =>
    have hopen : (a ++ (']' : UInt8) :: b).head? = some ('[' : UInt8) := by
      cases a with
      | nil => simp at hhead
      | cons c a => exact hhead
    have htake : (a ++ (']' : UInt8) :: b).take (a.length + 1) = a ++ [(']' : UInt8)] := by
      simp [List.take_append]
    rw [DotInPort, htake, List.getLast?_concat]
    exact iff_of_false (fun hdots => hdots.1 hopen)
      (fun hdots => absurd (Option.some.inj hdots.1) (by decide))

theorem HostRead.last_iff (h : HostRead v.length v l) (hsize : v.length < 2 ^ 64)
    (hcut : hostCut l ≠ 0) :
    (v.take (hostCut l)).getLast? = some ('.' : UInt8) ↔ DotInPort v := by
  rw [h.part.dotInPort_iff]
  rcases Nat.eq_zero_or_pos l.hostLen with hzero | hpos
  · obtain ⟨hlen, hno⟩ := h.cut_zero hsize hcut hzero
    rw [hlen, List.take_length, hzero]
    refine iff_of_false (fun hlast => hno (List.mem_of_getLast? hlast)) (by simp)
  · exact (h.cut_pos hpos).2

theorem HostRead.cut_le (h : HostRead v.length v l) (hsize : v.length < 2 ^ 64)
    (hcut : hostCut l ≠ 0) : hostCut l ≤ v.length := by
  rcases Nat.eq_zero_or_pos l.hostLen with hzero | hpos
  · exact (h.cut_zero hsize hcut hzero).1.le
  · exact (h.cut_pos hpos).1.trans (h.part.le le_rfl)

theorem HostRead.whole (h : HostRead v.length v l) (hsize : v.length < 2 ^ 64)
    (hcut : hostCut l ≠ 0) : hostCut l = v.length ∨ WholeHost (v.take (hostCut l)) := by
  rcases Nat.eq_zero_or_pos l.hostLen with hzero | hpos
  · exact Or.inl (h.cut_zero hsize hcut hzero).1
  have hle := (h.cut_pos hpos).1
  have hhead : ∀ xs : List UInt8, (xs.take (hostCut l)).head? = xs.head? := by
    intro xs
    obtain ⟨k, hk⟩ := Nat.exists_eq_succ_of_ne_zero hcut
    cases xs <;> simp [hk]
  obtain ⟨-, -, hpart⟩ := h
  generalize hn : v.length = n at hpart
  generalize hst : l.state = st at hpart
  generalize he : l.hostLen = e at hpart hle
  cases hpart with
  | usual hopen hno =>
    exact Or.inr (Or.inl ⟨hhead v ▸ hopen, fun hc => hno (List.mem_of_mem_take hc)⟩)
  | literal hopen hno =>
    refine Or.inr (Or.inr ⟨hhead v ▸ hopen, fun hc => hno ?_⟩)
    exact List.mem_of_mem_take (List.mem_of_mem_dropLast hc)
  | @colon a b hopen hno =>
    rw [List.take_append_of_le_length hle]
    exact Or.inr (Or.inl ⟨hhead a ▸ hopen, fun hc => hno (List.mem_of_mem_take hc)⟩)
  | @bracket a b hopen hno =>
    refine Or.inr (Or.inr ⟨?_, fun hc => hno ?_⟩)
    · rw [hhead]
      cases a with
      | nil => simp at hopen
      | cons c a => exact hopen
    · rw [List.dropLast_eq_take, List.take_take, List.take_append_of_le_length] at hc
      · exact List.mem_of_mem_take hc
      · rw [List.length_take]
        omega

theorem HostRead.cut_whole (h : HostRead v.length v l) (hne : v ≠ []) (hv : WholeHost v)
    (hlast : v.getLast? ≠ some ('.' : UInt8)) : hostCut l = v.length := by
  have hpred := h.dot
  rw [← List.append_nil v] at hpred
  rw [hostCut, h.part.whole hv, sizePred, if_neg (List.length_pos_iff.mpr hne).ne',
    if_neg fun hd => hlast ((hpred.eq_pred_iff le_rfl hne).mp hd).1]

end Cut

theorem tolower_eq_iff {c d : UInt8} (hd : d ∈ hostSpecials) : tolower c = d ↔ c = d := by
  rcases tolower_cases c with hsame | ⟨hplain, hplain', -⟩
  · rw [hsame]
  · exact iff_of_false (fun h => hplain' (h ▸ hd)) (fun h => hplain (h ▸ hd))

theorem dotInPort_tolower (v : List UInt8) : DotInPort (v.map tolower) ↔ DotInPort v := by
  have hcolon : ∀ c, decide (tolower c ≠ ':') = decide (c ≠ ':') := by
    intro c
    rw [decide_eq_decide, ne_eq, tolower_eq_iff (by decide)]
  have hcomp : (fun c => decide (c ≠ (':' : UInt8))) ∘ tolower =
      fun c => decide (c ≠ (':' : UInt8)) :=
    funext hcolon
  have hsome : ∀ (o : Option UInt8) {d : UInt8}, d ∈ hostSpecials →
      (o.map tolower = some d ↔ o = some d) := by
    intro o d hd
    cases o with
    | none => simp
    | some c => simp [tolower_eq_iff hd]
  have hmem : ∀ xs : List UInt8, ('.' : UInt8) ∈ xs.map tolower ↔ ('.' : UInt8) ∈ xs := by
    intro xs
    simp only [List.mem_map]
    constructor
    · rintro ⟨c, hc, hdot⟩
      rwa [← (tolower_eq_iff (by decide)).mp hdot]
    · exact fun hdot => ⟨_, hdot, by decide⟩
  rw [DotInPort, DotInPort, List.takeWhile_map, List.dropWhile_map, hcomp, List.head?_map,
    List.getLast?_map, ne_eq, hsome _ (by decide), hsome _ (by decide), hmem]

theorem tolower_lower (c : UInt8) : ¬(tolower c ≥ 'A' ∧ tolower c ≤ 'Z') := by
  revert c
  decide +kernel

/-! ## Memory -/

theorem Str.put_get (s : Str) (mem : List UInt8) : s.put (s.get mem) mem = mem := by
  obtain ⟨_ | q, k⟩ := s
  · rfl
  · simp only [Str.put, Str.get]
    have hdrop : mem.drop (q + ((mem.drop q).take k).length) = (mem.drop q).drop k := by
      rw [← List.drop_drop, List.length_take]
      rcases le_total k (mem.drop q).length with hk | hk
      · rw [min_eq_left hk]
      · rw [min_eq_right hk, List.drop_length, List.drop_of_length_le hk]
    rw [hdrop, List.append_assoc, List.take_append_drop, List.take_append_drop]

theorem Str.get_put {s : Str} {q k : ℕ} {w mem : List UInt8} (hs : s.p = some q)
    (hq : q ≤ mem.length) (hk : k ≤ w.length) :
    (⟨s.p, k⟩ : Str).get (s.put w mem) = w.take k := by
  simp only [Str.put, Str.get, hs]
  rw [List.append_assoc, List.drop_left' (List.length_take_of_le hq),
    List.take_append_of_le_length hk]

/-! ## Normalisation -/

structure NormalHost (h : List UInt8) : Prop where
  ne_nil : h ≠ []
  lower : ∀ c ∈ h, ¬(c ≥ 'A' ∧ c ≤ 'Z')
  no_slash : ('/' : UInt8) ∉ h
  no_nul : (0 : UInt8) ∉ h
  apart : ¬twoDots <:+: h
  last : h.getLast? ≠ some ('.' : UInt8)

section Process

variable {r : HttpRequest} {mem w : List UInt8} {l : HostLocals}

theorem httpProcessHost_of_loop
    (hrun : hostLoop 0 ⟨.usual, r.headerValue.len, r.headerValue.len⟩ (r.headerValue.get mem) =
      (.inr l, w)) (hcut : hostCut l ≠ 0) :
    httpProcessHost r mem =
      (0, { r with host := ⟨r.headerValue.p, hostCut l⟩ }, r.headerValue.put w mem) := by
  simp only [httpProcessHost, hrun]
  exact if_neg hcut

theorem httpProcessHost_zero (h : (httpProcessHost r mem).1 = 0) : ∃ l w,
    hostLoop 0 ⟨.usual, r.headerValue.len, r.headerValue.len⟩ (r.headerValue.get mem) =
      (.inr l, w) ∧ hostCut l ≠ 0 := by
  generalize hrun : hostLoop 0 ⟨.usual, r.headerValue.len, r.headerValue.len⟩
    (r.headerValue.get mem) = out
  obtain ⟨code | l, w⟩ := out
  · simp only [httpProcessHost, hrun] at h
    exact absurd h (hostLoop_code hrun).ne
  · refine ⟨l, w, rfl, fun hcut => ?_⟩
    simp only [httpProcessHost, hrun] at h
    rw [hostCut] at hcut
    rw [if_pos hcut] at h
    simp at h

end Process

theorem hostRead_nil (n : ℕ) : HostRead n [] ⟨.usual, n, n⟩ :=
  ⟨⟨by simp, by simp, by simp [twoDots, bytes]⟩, .absent (by simp), .usual (by simp) (by simp)⟩

/-- The loop reads what it cut out of a value to its end and cuts nothing more off. -/
theorem hostLoop_cut {w : List UInt8} {l : HostLocals}
    (hrun : hostLoop 0 ⟨.usual, w.length, w.length⟩ w = (.inr l, w)) (hsize : w.length < 2 ^ 64)
    (hcut : hostCut l ≠ 0) (hport : ¬DotInPort w) :
    ∃ l', hostLoop 0 ⟨.usual, hostCut l, hostCut l⟩ (w.take (hostCut l)) =
      (.inr l', w.take (hostCut l)) ∧ hostCut l' = hostCut l := by
  obtain ⟨hread, hlower⟩ := hostLoop_read (hostRead_nil w.length) le_rfl hrun
  rw [List.nil_append] at hread
  have hle := hread.cut_le hsize hcut
  have hlast := (hread.last_iff hsize hcut).not.mpr hport
  by_cases hall : hostCut l = w.length
  · exact ⟨l, by rw [hall, List.take_length]; exact hrun, rfl⟩
  have hwhole := (hread.whole hsize hcut).resolve_left hall
  have hlen : (w.take (hostCut l)).length = hostCut l := List.length_take_of_le hle
  have hclean : CleanHost (w.take (hostCut l)) :=
    ⟨fun hc => hread.clean.no_slash (List.mem_of_mem_take hc),
      fun hc => hread.clean.no_nul (List.mem_of_mem_take hc),
      fun hin => hread.clean.apart (hin.trans (List.take_prefix ..).isInfix)⟩
  obtain ⟨l', w', hrun'⟩ := hostLoop_accepts (hostRead_nil (hostCut l))
    (by rw [List.nil_append, hlen]) (by omega) hclean
  obtain ⟨hread', rfl⟩ := hostLoop_read (hostRead_nil (hostCut l))
    (by rw [List.nil_append, hlen]) hrun'
  rw [List.nil_append] at hread'
  rw [List.map_take, ← hlower] at hrun'
  refine ⟨l', hrun', ?_⟩
  generalize w.take (hostCut l) = h at *
  rw [← hlen] at hread' hcut ⊢
  exact hread'.cut_whole (List.ne_nil_of_length_pos (Nat.pos_of_ne_zero hcut)) hwhole hlast

/-- When `http_process_host` succeeds, it leaves a host in normal form, and succeeds on that host
again without changing anything, exactly when no dot in the port hides one at the end of the
host. -/
theorem host_normalised_iff {r : HttpRequest} {mem : List UInt8}
    (hvalue : (r.headerValue.get mem).length = r.headerValue.len)
    (hsize : r.headerValue.len < 2 ^ 64) {r' : HttpRequest} {mem' : List UInt8}
    (hzero : httpProcessHost r mem = (0, r', mem')) :
    (NormalHost (r'.host.get mem') ∧
      httpProcessHost { r' with headerValue := r'.host } mem' =
        (0, { r' with headerValue := r'.host }, mem')) ↔ ¬DotInPort (r.headerValue.get mem) := by
  obtain ⟨l, w, hrun, hcut⟩ := httpProcessHost_zero (by rw [hzero])
  rw [httpProcessHost_of_loop hrun hcut] at hzero
  obtain ⟨rfl, rfl⟩ := Prod.mk.inj (Prod.mk.inj hzero).2
  obtain ⟨hw, hlength⟩ : w = (r.headerValue.get mem).map tolower ∧ w.length = r.headerValue.len := by
    have hlower := (hostLoop_read (hostRead_nil _) (by simpa using hvalue.le) hrun).2
    exact ⟨hlower, by rw [hlower, List.length_map, hvalue]⟩
  -- what follows reads the lower-cased value, on which the loop ends with the same locals
  have hrun' := hostLoop_tolower hrun
  rw [← hw, ← hlength] at hrun'
  rw [← dotInPort_tolower, ← hw]
  rw [← hlength] at hsize
  obtain ⟨hread, hlower⟩ := hostLoop_read (hostRead_nil _) le_rfl hrun'
  rw [List.nil_append] at hread
  have hle := hread.cut_le hsize hcut
  obtain ⟨q, hq, hin⟩ : ∃ q, r.headerValue.p = some q ∧ q ≤ mem.length := by
    rw [Str.get] at hvalue
    split at hvalue
    · rw [List.length_take, List.length_drop] at hvalue
      exact ⟨_, ‹_›, by omega⟩
    · rw [List.length_nil] at hvalue
      omega
  have hhost := Str.get_put hq hin hle
  constructor
  · rintro ⟨hnormal, -⟩ hport
    apply hnormal.last
    rw [hhost]
    exact (hread.last_iff hsize hcut).mpr hport
  · intro hport
    obtain ⟨l', hagain, hcut'⟩ := hostLoop_cut hrun' hsize hcut hport
    have hmem : ∀ c ∈ w.take (hostCut l), c ∈ w := fun c => List.mem_of_mem_take
    constructor
    · rw [hhost]
      refine ⟨?_, ?_, fun hc => hread.clean.no_slash (hmem _ hc),
        fun hc => hread.clean.no_nul (hmem _ hc),
        fun hdots => hread.clean.apart (hdots.trans (List.take_prefix ..).isInfix),
        (hread.last_iff hsize hcut).not.mpr hport⟩
      · apply List.ne_nil_of_length_pos
        rw [List.length_take]
        omega
      · intro c hc
        obtain ⟨d, -, rfl⟩ := List.mem_map.mp (hw ▸ hmem c hc)
        exact tolower_lower d
    · rw [← hhost] at hagain
      have hresult := httpProcessHost_of_loop
        (r := { r with host := ⟨r.headerValue.p, hostCut l⟩
                       headerValue := ⟨r.headerValue.p, hostCut l⟩ })
        hagain (hcut'.symm ▸ hcut)
      rw [hresult, hcut', Str.put_get]

def processedHost (value : String) : ℤ × HttpRequest × List UInt8 :=
  httpProcessHost { (default : HttpRequest) with headerValue := ⟨some 0, (bytes value).length⟩ }
    (bytes value)

theorem host_normalised_trailing_dot :
    (processedHost "A.b.:80").1 = 0 ∧
      NormalHost ((processedHost "A.b.:80").2.1.host.get (processedHost "A.b.:80").2.2) :=
  have hzero : (processedHost "A.b.:80").1 = 0 := by decide +kernel
  ⟨hzero, ((host_normalised_iff (by decide +kernel) (by decide +kernel)
    (Prod.ext hzero rfl : processedHost "A.b.:80" = (0, _, _))).mpr (by decide +kernel)).1⟩

/-- The host of `a.:8.0` keeps its dot, and a second run cuts it off. -/
theorem host_dot_in_port :
    (processedHost "a.:8.0").1 = 0 ∧
    (processedHost "a.:8.0").2.1.host.get (processedHost "a.:8.0").2.2 = bytes "a." ∧
    ¬NormalHost (bytes "a.") ∧ (processedHost "a.").1 = 0 ∧
    (processedHost "a.").2.1.host.get (processedHost "a.").2.2 = bytes "a" :=
  ⟨by decide +kernel, by decide +kernel, fun h => h.last (by decide +kernel), by decide +kernel,
    by decide +kernel⟩

end Cserv.Http
