import Cserv.Http.Request
import Mathlib.Data.FinEnum

/-!
# Configuration lines

`parse_conf` of `util/conf.c`: four loops that walk over a NUL-terminated line. Key and value are
spans of the line, as a request's are spans of its buffer. What the loops find does not depend on
the memory behind the terminator.
-/
namespace Cserv.Conf

open Http

def isspace (ch : UInt8) : Bool := decide (ch = ' ' ∨ 9 ≤ ch ∧ ch ≤ 13)

def isprint (ch : UInt8) : Bool := decide (' ' ≤ ch ∧ ch ≤ '~')

section Bytes

variable (ch : UInt8)

def skipByte : Bool := (isspace ch || !isprint ch) && ch != '\x00'

def keyByte : Bool := ch != '#' && ch != '\x00' && ch != '=' && !isspace ch && isprint ch

def sepByte : Bool := ch != '#' && ch != '\x00' && (ch == '=' || isspace ch || !isprint ch)

def valueByte : Bool := ch != '#' && ch != '\x00' && !isspace ch && isprint ch

end Bytes

/-- `while (cond(*loop)) loop++`, where `mem` is the memory from `loop` on. -/
def advance (cond : UInt8 → Bool) : List UInt8 → ℕ → ℕ
  | [], loop => loop
  | ch :: mem, loop => if cond ch then advance cond mem (loop + 1) else loop

/-- `parse_conf`: the key and the value, or `none` for -1. -/
def parseConf (str : List UInt8) : Option (Str × Str) :=
  let loop := advance skipByte str 0
  let ch := str.getD loop 0
  if ch = '#' ∨ ch = '\x00' then none
  else
    let key := loop
    let loop := advance keyByte (str.drop loop) loop
    let keyLen := loop - key
    let loop := advance sepByte (str.drop loop) loop
    let value := loop
    let loop := advance valueByte (str.drop loop) loop
    some (⟨some key, keyLen⟩, ⟨some value, loop - value⟩)

/-! ## What the loops find -/

theorem advance_eq (cond : UInt8 → Bool) (mem : List UInt8) (loop : ℕ) :
    advance cond mem loop = loop + (mem.takeWhile cond).length := by
  induction mem generalizing loop with
  | nil => rfl
  | cons ch mem ih =>
    rw [advance, List.takeWhile_cons]
    split_ifs with hcond
    · rw [ih, List.length_cons]
      omega
    · rfl

theorem drop_advance (cond : UInt8 → Bool) (mem : List UInt8) (loop : ℕ) :
    mem.drop (advance cond (mem.drop loop) loop) = (mem.drop loop).dropWhile cond := by
  rw [advance_eq, ← List.drop_drop]
  induction mem.drop loop with
  | nil => rfl
  | cons ch rest ih =>
    rw [List.takeWhile_cons, List.dropWhile_cons]
    split_ifs
    · exact ih
    · rfl

theorem get_advance (cond : UInt8 → Bool) (mem : List UInt8) (loop : ℕ) :
    (⟨some loop, advance cond (mem.drop loop) loop - loop⟩ : Str).get mem =
      (mem.drop loop).takeWhile cond := by
  rw [advance_eq, Nat.add_sub_cancel_left]
  exact (List.prefix_iff_eq_take.mp (List.takeWhile_prefix cond)).symm

def entryText (line : List UInt8) : Option (List UInt8 × List UInt8) :=
  let rest := line.dropWhile skipByte
  if rest.headD 0 = '#' ∨ rest.headD 0 = '\x00' then none
  else some (rest.takeWhile keyByte,
    ((rest.dropWhile keyByte).dropWhile sepByte).takeWhile valueByte)

theorem parseConf_get (str : List UInt8) :
    (parseConf str).map (fun kv => (kv.1.get str, kv.2.get str)) = entryText str := by
  have hskip : str.drop (advance skipByte str 0) = str.dropWhile skipByte :=
    drop_advance skipByte str 0
  have hch : str.getD (advance skipByte str 0) 0 = (str.dropWhile skipByte).headD 0 := by
    rw [← hskip, List.headD_eq_head?_getD, List.head?_drop, List.getD_eq_getElem?_getD]
  rw [parseConf, entryText, hch]
  split_ifs
  · rfl
  · simp only [Option.map_some, get_advance]
    rw [drop_advance, drop_advance, hskip]

theorem parseConf_length {str : List UInt8} {key value : Str} (h : parseConf str = some (key, value)) :
    (key.get str).length = key.len ∧ (value.get str).length = value.len := by
  rw [parseConf] at h
  have hspan : ∀ (cond : UInt8 → Bool) (loop : ℕ),
      ((⟨some loop, advance cond (str.drop loop) loop - loop⟩ : Str).get str).length =
        advance cond (str.drop loop) loop - loop := by
    intro cond loop
    rw [get_advance, advance_eq, Nat.add_sub_cancel_left]
  split_ifs at h
  obtain ⟨rfl, rfl⟩ := Prod.mk.inj (Option.some.inj h)
  exact ⟨hspan _ _, hspan _ _⟩

/-! ## The terminator -/

section Stop

variable {cond : UInt8 → Bool} {z : UInt8}

theorem takeWhile_stop (hz : cond z = false) (line stale : List UInt8) :
    (line ++ z :: stale).takeWhile cond = line.takeWhile cond := by
  induction line with
  | nil => simp [hz]
  | cons ch line ih => simp [List.takeWhile_cons, ih]

theorem dropWhile_stop (hz : cond z = false) (line stale : List UInt8) :
    (line ++ z :: stale).dropWhile cond = line.dropWhile cond ++ z :: stale := by
  induction line with
  | nil => simp [hz]
  | cons ch line ih =>
    simp only [List.cons_append, List.dropWhile_cons]
    split_ifs
    · exact ih
    · rfl

end Stop

theorem entryText_stop (line stale : List UInt8) : entryText (line ++ 0 :: stale) = entryText line := by
  have hhead : ∀ l : List UInt8, (l ++ 0 :: stale).headD 0 = l.headD 0 := by
    intro l
    cases l <;> rfl
  simp only [entryText, hhead, dropWhile_stop (show skipByte 0 = false by decide),
    dropWhile_stop (show keyByte 0 = false by decide),
    dropWhile_stop (show sepByte 0 = false by decide),
    takeWhile_stop (show keyByte 0 = false by decide),
    takeWhile_stop (show valueByte 0 = false by decide)]

/-- `parse_conf` on a NUL-terminated line, whatever the memory holds behind the terminator. -/
theorem parseConf_line (line stale : List UInt8) :
    (parseConf (line ++ 0 :: stale)).map
        (fun kv => (kv.1.get (line ++ 0 :: stale), kv.2.get (line ++ 0 :: stale))) =
      entryText line := by
  rw [parseConf_get, entryText_stop]

theorem entryText_comment {line : List UInt8}
    (h : (line.dropWhile isspace).head? = some ('#' : UInt8)) : entryText line = none := by
  have hblank : ∀ ch : UInt8, isspace ch = true → skipByte ch = true := by decide +kernel
  induction line with
  | nil => cases h
  | cons ch line ih =>
    rw [List.dropWhile_cons] at h
    split_ifs at h with hspace
    · simpa [entryText, List.dropWhile_cons, hblank ch hspace] using ih h
    · obtain rfl : ch = '#' := Option.some.inj h
      rfl

end Cserv.Conf
