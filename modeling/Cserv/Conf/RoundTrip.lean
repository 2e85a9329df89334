import Cserv.Conf.Load

/-!
# Reading back a configuration line

A line that is written as `key = value`, with white space around the parts and a comment or
anything else behind a blank at its end, is read as that key and that value. On any line the loops
of `parse_conf` read no byte behind the terminator. In a file with lines that fit into the buffer of
`load_conf`, the value of the last line with a key is the one that is looked up.
-/
namespace Cserv.Conf

open Http

def isgraph (ch : UInt8) : Bool := decide ('!' ≤ ch ∧ ch ≤ '~')

/-- A line with an entry, part by part. -/
structure ConfText where
  pad : List UInt8
  key : List UInt8
  before : List UInt8
  after : List UInt8
  value : List UInt8
  tail : List UInt8
  pad_space : ∀ ch ∈ pad, isspace ch = true
  key_ne_nil : key ≠ []
  key_graph : ∀ ch ∈ key, isgraph ch = true ∧ ch ≠ '#' ∧ ch ≠ '='
  before_space : ∀ ch ∈ before, isspace ch = true
  after_space : ∀ ch ∈ after, isspace ch = true
  value_ne_nil : value ≠ []
  value_graph : ∀ ch ∈ value, isgraph ch = true ∧ ch ≠ '#'
  value_head : value.head? ≠ some ('=' : UInt8)
  tail_head : ∀ ch, tail.head? = some ch → isspace ch = true ∨ ch = '#'

namespace ConfText

variable (l : ConfText)

def setting : List UInt8 := l.before ++ ('=' : UInt8) :: l.after

def text : List UInt8 := l.pad ++ (l.key ++ (l.setting ++ (l.value ++ l.tail)))

def valuePos : ℕ := l.pad.length + l.key.length + l.setting.length

end ConfText

/-! ## The bytes of the parts -/

theorem byte_classes : ∀ ch : UInt8,
    (isspace ch = true → skipByte ch = true ∧ keyByte ch = false ∧ sepByte ch = true ∧
      valueByte ch = false) ∧
    (isgraph ch = true → ch ≠ '#' → skipByte ch = false ∧ valueByte ch = true ∧
      (ch ≠ '=' → keyByte ch = true ∧ sepByte ch = false)) := by
  decide +kernel

theorem isgraph_ne_zero {ch : UInt8} (h : isgraph ch = true) : ch ≠ 0 := by
  rintro rfl
  exact absurd h (by decide)

theorem advance_part {cond : UInt8 → Bool} {part rest : List UInt8}
    (hpart : ∀ ch ∈ part, cond ch = true) (hrest : ∀ ch, rest.head? = some ch → cond ch = false)
    (loop : ℕ) : advance cond (part ++ rest) loop = loop + part.length := by
  have hstop : rest.takeWhile cond = [] := by
    cases rest with
    | nil => rfl
    | cons ch rest => rw [List.takeWhile_cons, hrest ch rfl, if_neg Bool.false_ne_true]
  rw [advance_eq, List.takeWhile_append_of_pos hpart, hstop, List.append_nil]

namespace ConfText

variable (l : ConfText)

theorem setting_sep : ∀ ch ∈ l.setting, sepByte ch = true := by
  intro ch hch
  rw [setting, List.mem_append, List.mem_cons] at hch
  rcases hch with hch | rfl | hch
  · exact ((byte_classes ch).1 (l.before_space ch hch)).2.2.1
  · rfl
  · exact ((byte_classes ch).1 (l.after_space ch hch)).2.2.1

theorem setting_head (rest : List UInt8) :
    ∀ ch, (l.setting ++ rest).head? = some ch → keyByte ch = false := by
  intro ch hch
  cases hbefore : l.before with
  | nil =>
    rw [setting, hbefore] at hch
    obtain rfl : '=' = ch := Option.some.inj hch
    rfl
  | cons c before =>
    rw [setting, hbefore] at hch
    obtain rfl : c = ch := Option.some.inj hch
    have hspace := l.before_space c (by simp [hbefore])
    exact ((byte_classes c).1 hspace).2.1

theorem key_byte : ∀ ch ∈ l.key, skipByte ch = false ∧ keyByte ch = true := by
  intro ch hch
  obtain ⟨hgraph, hhash, heq⟩ := l.key_graph ch hch
  have hclass := (byte_classes ch).2 hgraph hhash
  exact ⟨hclass.1, (hclass.2.2 heq).1⟩

theorem value_head_sep (rest : List UInt8) :
    ∀ ch, (l.value ++ rest).head? = some ch → sepByte ch = false := by
  intro ch hch
  rw [List.head?_append_of_ne_nil _ l.value_ne_nil] at hch
  obtain ⟨hgraph, hhash⟩ := l.value_graph ch (List.mem_of_mem_head? hch)
  have heq : ch ≠ '=' := by
    rintro rfl
    exact l.value_head hch
  exact (((byte_classes ch).2 hgraph hhash).2.2 heq).2

theorem value_byte : ∀ ch ∈ l.value, valueByte ch = true := by
  intro ch hch
  obtain ⟨hgraph, hhash⟩ := l.value_graph ch hch
  exact ((byte_classes ch).2 hgraph hhash).2.1

theorem tail_head_value (stale : List UInt8) :
    ∀ ch, (l.tail ++ 0 :: stale).head? = some ch → valueByte ch = false := by
  intro ch hch
  cases htail : l.tail with
  | nil =>
    rw [htail] at hch
    obtain rfl : 0 = ch := Option.some.inj hch
    rfl
  | cons c tail =>
    rw [htail] at hch
    obtain rfl : c = ch := Option.some.inj hch
    rcases l.tail_head c (by simp [htail]) with hspace | rfl
    · exact ((byte_classes c).1 hspace).2.2.2
    · rfl

theorem parseConf_text (stale : List UInt8) :
    parseConf (l.text ++ 0 :: stale) =
      some (⟨some l.pad.length, l.key.length⟩, ⟨some l.valuePos, l.value.length⟩) := by
  -- what is left of the memory at the start of each loop
  have hstr : l.text ++ 0 :: stale =
      l.pad ++ (l.key ++ (l.setting ++ (l.value ++ (l.tail ++ 0 :: stale)))) := by
    simp only [text, List.append_assoc]
  obtain ⟨c, key, hkey⟩ := List.exists_cons_of_ne_nil l.key_ne_nil
  have hc : c ∈ l.key := by simp [hkey]
  have hskip : advance skipByte (l.text ++ 0 :: stale) 0 = l.pad.length := by
    rw [hstr, advance_part (fun ch hch => ((byte_classes ch).1 (l.pad_space ch hch)).1),
      Nat.zero_add]
    intro ch hch
    rw [hkey] at hch
    obtain rfl : c = ch := Option.some.inj hch
    exact (l.key_byte c hc).1
  have hdrop : (l.text ++ 0 :: stale).drop l.pad.length =
      l.key ++ (l.setting ++ (l.value ++ (l.tail ++ 0 :: stale))) := by
    rw [hstr, List.drop_left]
  have hch : (l.text ++ 0 :: stale).getD l.pad.length 0 = c := by
    have hhead := congrArg List.head? hdrop
    rw [List.head?_drop, hkey] at hhead
    rw [List.getD_eq_getElem?_getD, hhead]
    rfl
  have hkeyEnd : advance keyByte ((l.text ++ 0 :: stale).drop l.pad.length) l.pad.length =
      l.pad.length + l.key.length := by
    rw [hdrop]
    exact advance_part (fun ch hch => (l.key_byte ch hch).2) (l.setting_head _) _
  have hdrop₂ : (l.text ++ 0 :: stale).drop (l.pad.length + l.key.length) =
      l.setting ++ (l.value ++ (l.tail ++ 0 :: stale)) := by
    rw [← List.drop_drop, hdrop, List.drop_left]
  have hsepEnd : advance sepByte ((l.text ++ 0 :: stale).drop (l.pad.length + l.key.length))
      (l.pad.length + l.key.length) = l.valuePos := by
    rw [hdrop₂]
    exact advance_part l.setting_sep (l.value_head_sep _) _
  have hdrop₃ : (l.text ++ 0 :: stale).drop l.valuePos = l.value ++ (l.tail ++ 0 :: stale) := by
    rw [valuePos, ← List.drop_drop, hdrop₂, List.drop_left]
  have hvalueEnd : advance valueByte ((l.text ++ 0 :: stale).drop l.valuePos) l.valuePos =
      l.valuePos + l.value.length := by
    rw [hdrop₃]
    exact advance_part l.value_byte (l.tail_head_value stale) _
  obtain ⟨hgraph, hhash, -⟩ := l.key_graph c hc
  have hentry : ¬ (c = '#' ∨ c = '\x00') := not_or.mpr ⟨hhash, isgraph_ne_zero hgraph⟩
  simp only [parseConf, hskip, hch, if_neg hentry, hkeyEnd, hsepEnd, hvalueEnd,
    Nat.add_sub_cancel_left]

theorem get_key (stale : List UInt8) :
    (⟨some l.pad.length, l.key.length⟩ : Str).get (l.text ++ 0 :: stale) = l.key := by
  have hdrop : (l.text ++ 0 :: stale).drop 0 =
      l.pad ++ (l.key ++ (l.setting ++ (l.value ++ (l.tail ++ 0 :: stale)))) := by
    simp only [text, List.append_assoc, List.drop_zero]
  have hget := Str.get_of_drop hdrop
  rwa [Nat.zero_add] at hget

theorem get_value (stale : List UInt8) :
    (⟨some l.valuePos, l.value.length⟩ : Str).get (l.text ++ 0 :: stale) = l.value := by
  have hdrop : (l.text ++ 0 :: stale).drop 0 =
      (l.pad ++ l.key ++ l.setting) ++ (l.value ++ (l.tail ++ 0 :: stale)) := by
    simp only [text, List.append_assoc, List.drop_zero]
  have hget := Str.get_of_drop hdrop
  rwa [Nat.zero_add, List.length_append, List.length_append] at hget

end ConfText

/-! ## Reads up to the terminator -/

/-- A loop in memory that ends: it fails at a read behind the last byte. -/
def advanceIn (cond : UInt8 → Bool) : List UInt8 → ℕ → Option ℕ
  | [], _ => none
  | ch :: mem, loop => if cond ch then advanceIn cond mem (loop + 1) else some loop

/-- `parse_conf` in memory that ends behind `str`. -/
def parseConfIn (str : List UInt8) : Option (Option (Str × Str)) := do
  let loop ← advanceIn skipByte str 0
  let ch ← str[loop]?
  if ch = '#' ∨ ch = '\x00' then
    return none
  else
    let key := loop
    let loop ← advanceIn keyByte (str.drop loop) loop
    let keyLen := loop - key
    let loop ← advanceIn sepByte (str.drop loop) loop
    let value := loop
    let loop ← advanceIn valueByte (str.drop loop) loop
    return some (⟨some key, keyLen⟩, ⟨some value, loop - value⟩)

/-- A loop from inside a line ends at the same byte of the line whatever stands behind the
terminator, and reads no byte there. -/
theorem advance_line {cond : UInt8 → Bool} (hz : cond 0 = false) {line : List UInt8} {loop : ℕ}
    (hle : loop ≤ line.length) :
    ∃ n, loop ≤ n ∧ n ≤ line.length ∧ ∀ stale,
      advance cond ((line ++ 0 :: stale).drop loop) loop = n ∧
        advanceIn cond ((line ++ 0 :: stale).drop loop) loop = some n := by
  have hin : ∀ (rest stale : List UInt8) (loop : ℕ),
      advanceIn cond (rest ++ 0 :: stale) loop = some (loop + (rest.takeWhile cond).length) := by
    intro rest stale
    induction rest with
    | nil => simp [advanceIn, hz]
    | cons ch rest ih =>
      intro loop
      rw [List.cons_append, advanceIn, List.takeWhile_cons]
      split_ifs
      · rw [ih, List.length_cons, Nat.add_assoc, Nat.add_comm 1]
      · rfl
  have hlen := (List.takeWhile_prefix cond (l := line.drop loop)).length_le
  rw [List.length_drop] at hlen
  refine ⟨loop + ((line.drop loop).takeWhile cond).length, by omega, by omega, fun stale => ?_⟩
  rw [List.drop_append_of_le_length hle, advance_eq, takeWhile_stop hz, hin]
  exact ⟨rfl, rfl⟩

theorem parseConf_positions (line : List UInt8) :
    ∃ (ch : UInt8) (key keyEnd value valueEnd : ℕ), key ≤ keyEnd ∧ keyEnd ≤ value ∧
      value ≤ valueEnd ∧ valueEnd ≤ line.length ∧ ∀ stale,
        parseConf (line ++ 0 :: stale) =
            (if ch = '#' ∨ ch = '\x00' then none
              else some (⟨some key, keyEnd - key⟩, ⟨some value, valueEnd - value⟩)) ∧
          parseConfIn (line ++ 0 :: stale) = some (parseConf (line ++ 0 :: stale)) := by
  obtain ⟨key, -, hkey, hskip⟩ :=
    advance_line (show skipByte 0 = false by decide) (Nat.zero_le line.length)
  obtain ⟨keyEnd, hkeyEnd, hle, hrunKey⟩ := advance_line (show keyByte 0 = false by decide) hkey
  obtain ⟨value, hvalue, hle, hrunSep⟩ := advance_line (show sepByte 0 = false by decide) hle
  obtain ⟨valueEnd, hvalueEnd, hle, hrunValue⟩ :=
    advance_line (show valueByte 0 = false by decide) hle
  have hget : ∀ stale, (line ++ 0 :: stale)[key]? = some (line.getD key 0) := by
    intro stale
    rcases hkey.lt_or_eq with hlt | rfl
    · simp [List.getElem?_append_left, hlt]
    · simp
  simp only [List.drop_zero] at hskip
  refine ⟨line.getD key 0, key, keyEnd, value, valueEnd, hkeyEnd, hvalue, hvalueEnd, hle, ?_⟩
  intro stale
  have hch : (line ++ 0 :: stale).getD key 0 = line.getD key 0 := by
    rw [List.getD_eq_getElem?_getD, hget, Option.getD_some]
  have hconf : parseConf (line ++ 0 :: stale) =
      if line.getD key 0 = '#' ∨ line.getD key 0 = '\x00' then none
      else some (⟨some key, keyEnd - key⟩, ⟨some value, valueEnd - value⟩) := by
    simp only [parseConf, (hskip stale).1, hch, (hrunKey stale).1, (hrunSep stale).1,
      (hrunValue stale).1]
  refine ⟨hconf, ?_⟩
  rw [hconf, parseConfIn]
  simp only [(hskip stale).2, hget, (hrunKey stale).2, (hrunSep stale).2, (hrunValue stale).2,
    Option.bind_eq_bind, Option.bind_some]
  split_ifs <;> rfl

/-- Every line of the form `key = value` is read as its key and its value, whatever the memory holds
behind the terminator. On any line `parse_conf` returns, after reads up to the terminator only,
and a key and a value that it finds are parts of the line, the key before the value. -/
theorem conf_line_round_trip :
    (∀ (l : ConfText) (stale : List UInt8), ∃ key value,
      parseConf (l.text ++ 0 :: stale) = some (key, value) ∧
        key = ⟨some l.pad.length, l.key.length⟩ ∧ value = ⟨some l.valuePos, l.value.length⟩ ∧
        key.get (l.text ++ 0 :: stale) = l.key ∧ value.get (l.text ++ 0 :: stale) = l.value) ∧
    ∀ line stale : List UInt8,
      parseConfIn (line ++ [0]) = some (parseConf (line ++ 0 :: stale)) ∧
        ∀ key value, parseConf (line ++ 0 :: stale) = some (key, value) →
          ∃ k v, key.p = some k ∧ value.p = some v ∧ k + key.len ≤ v ∧
            v + value.len ≤ line.length := by
  constructor
  · intro l stale
    exact ⟨_, _, l.parseConf_text stale, rfl, rfl, l.get_key stale, l.get_value stale⟩
  · intro line stale
    obtain ⟨ch, k, keyEnd, v, valueEnd, hkey, hsep, hvalue, hle, hall⟩ := parseConf_positions line
    refine ⟨?_, fun key value h => ?_⟩
    · rw [(hall []).2, (hall []).1, (hall stale).1]
    · rw [(hall stale).1] at h
      split_ifs at h
      obtain ⟨rfl, rfl⟩ := Prod.mk.inj (Option.some.inj h)
      refine ⟨k, v, rfl, rfl, ?_, ?_⟩
      · dsimp only
        omega
      · dsimp only
        omega

def logPathLine : ConfText where
  pad := []
  key := bytes "log_path"
  before := bytes " "
  after := bytes " "
  value := bytes "/tmp/cserv.log"
  tail := [LF]
  pad_space := by simp
  key_ne_nil := by decide
  key_graph := by decide +kernel
  before_space := by decide +kernel
  after_space := by decide +kernel
  value_ne_nil := by decide
  value_graph := by decide +kernel
  value_head := by decide
  tail_head := by decide +kernel

theorem conf_line_round_trip_log_path :
    (∃ key value, parseConf (bytes "log_path = /tmp/cserv.log\n" ++ [0]) = some (key, value) ∧
      key.get (bytes "log_path = /tmp/cserv.log\n" ++ [0]) = bytes "log_path" ∧
      value.get (bytes "log_path = /tmp/cserv.log\n" ++ [0]) = bytes "/tmp/cserv.log") ∧
    parseConf (bytes "a" ++ [0]) = some (⟨some 0, 1⟩, ⟨some 1, 0⟩) ∧
    parseConfIn (bytes "a" ++ [0]) = some (parseConf (bytes "a" ++ [0])) := by
  have htext : logPathLine.text = bytes "log_path = /tmp/cserv.log\n" := by decide +kernel
  obtain ⟨key, value, hconf, -, -, hkey, hvalue⟩ := conf_line_round_trip.1 logPathLine []
  rw [htext] at hconf hkey hvalue
  exact ⟨⟨key, value, hconf, hkey, hvalue⟩, by decide +kernel,
    (conf_line_round_trip.2 (bytes "a") []).1⟩

/-! ## Files -/

theorem ConfText.lineEntry_text (l : ConfText) : lineEntry l.text = some ⟨l.key, l.value⟩ := by
  rw [lineEntry, l.parseConf_text [], Option.map_some, l.get_key, l.get_value]

/-- A setting that no later line of the file has is looked up with its value. -/
theorem getConfEntry_file {malloc : ℕ → Bool} (hmalloc : ∀ n, malloc n = true)
    (buff : List UInt8) {file : List UInt8} (hfit : ∀ line ∈ lines file, line.length ≤ 511)
    (hshort : ∀ line ∈ lines file, ∀ e, lineEntry line = some e →
      e.key.length < CONF_KV_LEN ∧ e.value.length < CONF_KV_LEN)
    (l : ConfText) {before after : List (List UInt8)}
    (hfile : lines file = before ++ l.text :: after)
    (hlast : ∀ line ∈ after, ∀ e, lineEntry line = some e → e.key ≠ l.key) :
    ∃ config, loadConf malloc buff file = some config ∧ getConfEntry config l.key = some l.value := by
  obtain ⟨config, hload⟩ := loadConf_isSome hmalloc buff (by rwa [pieces_of_lines_fit hfit])
  refine ⟨config, hload, ?_⟩
  exact ((readByLines_of_fit hfit hload).last l.key l.value).mpr
    ⟨before, l.text, after, hfile, l.lineEntry_text, hlast⟩

end Cserv.Conf
