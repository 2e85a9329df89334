import Cserv.Http.Request

/-!
# The text of a log record

`log_write` of `logger.c` formats a record into the array of a slot and stores what `snprintf`
returns as its length. `snprintf` returns the length of the whole text, also when the array holds
only a part of it; `log_read` copies as many bytes as the length says.
-/
namespace Cserv.Log

open Http

inductive LogLevel
  | crit
  | err
  | warn
  | info
  deriving DecidableEq, Repr

def LogLevel.toNat : LogLevel → ℕ
  | crit => 0
  | err => 1
  | warn => 2
  | info => 3

def LogLevel.str : LogLevel → List UInt8
  | crit => bytes "CRIT"
  | err => bytes "ERR"
  | warn => bytes "WARN"
  | info => bytes "INFO"

def msgSize : ℕ := 1024

def buffSize : ℕ := 1016

/-- `struct log_desc`; `pid` is the `pid` of its `log`, and `msg` the text in front of the
terminator. -/
structure LogDesc where
  pid : ℤ
  file : List UInt8
  line : ℤ
  level : LogLevel
  msg : List UInt8
  msg_lt : msg.length < msgSize
  deriving DecidableEq, Repr

/-- `struct log_buff`, with an array of its size. -/
structure LogBuff where
  len : ℕ
  buff : List UInt8
  size : buff.length = buffSize

def intText (n : ℤ) : List UInt8 := bytes (toString n)

/-- The format `"(%d)%s %s:%d [%s]: %s\n"` of `log_write`. -/
def logText (desc : LogDesc) (strnow : List UInt8) : List UInt8 :=
  bytes "(" ++ intText desc.pid ++ bytes ")" ++ strnow ++ bytes " " ++ desc.file ++ bytes ":" ++
    intText desc.line ++ bytes " [" ++ desc.level.str ++ bytes "]: " ++ desc.msg ++ bytes "\n"

/-- The bytes that `snprintf` stores of a text, apart from the terminator. -/
def stored (size : ℕ) (text : List UInt8) : List UInt8 := text.take (size - 1)

/-- The array after `snprintf` has stored a text and its terminator. -/
def snprintf (buff text : List UInt8) : List UInt8 :=
  stored buff.length text ++ 0 :: buff.drop ((stored buff.length text).length + 1)

def snprintfLen (text : List UInt8) : ℤ := if text.length < 2 ^ 31 then text.length else -1

theorem length_snprintf {buff : List UInt8} (text : List UInt8) (h : 0 < buff.length) :
    (snprintf buff text).length = buff.length := by
  simp only [snprintf, stored, List.length_append, List.length_cons, List.length_drop,
    List.length_take]
  omega

theorem LogBuff.size_snprintf (b : LogBuff) (text : List UInt8) :
    (snprintf b.buff text).length = buffSize := by
  have hpos : 0 < b.buff.length := by
    rw [b.size]
    decide
  rw [length_snprintf text hpos, b.size]

/-- `log_write` at the local time `strnow`; its length is a `size_t`. -/
def logWrite (b : LogBuff) (desc : LogDesc) (strnow : List UInt8) : LogBuff where
  len := (snprintfLen (logText desc strnow) % 2 ^ 64).toNat
  buff := snprintf b.buff (logText desc strnow)
  size := b.size_snprintf _

/-- The bytes that `log_read` copies, where `beyond` is the memory behind the slot. -/
def logRead (b : LogBuff) (beyond : List UInt8) : List UInt8 := (b.buff ++ beyond).take b.len

theorem length_stored_msg (text : List UInt8) : (stored msgSize text).length < msgSize := by
  simp only [stored, msgSize, List.length_take]
  omega

/-- The descriptor that `log_out` gives to `log_write` for a formatted text. -/
def logDesc (pid : ℤ) (file : List UInt8) (line : ℤ) (level : LogLevel) (text : List UInt8) :
    LogDesc :=
  ⟨pid, file, line, level, stored msgSize text, length_stored_msg text⟩

/-- The length in a slot counts only bytes of the text that is stored there. -/
structure RecordFits (b : LogBuff) (text : List UInt8) : Prop where
  stored : b.len ≤ (stored buffSize text).length
  size : b.len ≤ buffSize - 1
  copies : ∀ beyond, logRead b beyond <+: text

/-- The length that `log_write` stores is that of the whole text, unless it is too long for an
`int`. -/
theorem logWrite_len (b : LogBuff) (desc : LogDesc) (strnow : List UInt8) :
    (logWrite b desc strnow).len =
      if (logText desc strnow).length < 2 ^ 31 then (logText desc strnow).length
      else 2 ^ 64 - 1 := by
  simp only [logWrite, snprintfLen]
  split_ifs <;> omega

theorem stored_of_fits {size : ℕ} {text : List UInt8} (h : text.length ≤ size - 1) :
    stored size text = text :=
  List.take_of_length_le h

/-- A record fits its slot if and only if its whole text does. -/
theorem record_fits_iff (b : LogBuff) (pid : ℤ) (file : List UInt8) (line : ℤ) (level : LogLevel)
    (text strnow : List UInt8) :
    RecordFits (logWrite b (logDesc pid file line level text) strnow)
        (logText (logDesc pid file line level text) strnow) ↔
      (logText (logDesc pid file line level text) strnow).length ≤ buffSize - 1 := by
  generalize logDesc pid file line level text = desc
  constructor
  · intro h
    have hlen := h.size
    rw [logWrite_len] at hlen
    split_ifs at hlen with hint
    · exact hlen
    · simp [buffSize] at hlen
  · intro h
    have hint : (logText desc strnow).length < 2 ^ 31 := by
      simp only [buffSize] at h
      omega
    have hlen : (logWrite b desc strnow).len = (logText desc strnow).length := by
      rw [logWrite_len, if_pos hint]
    refine ⟨?_, hlen.trans_le h, fun beyond => ?_⟩
    · rw [hlen, stored_of_fits h]
    · have hbuff : (logWrite b desc strnow).buff = snprintf b.buff (logText desc strnow) := rfl
      have htext : stored b.buff.length (logText desc strnow) = logText desc strnow := by
        rw [b.size, stored_of_fits h]
      unfold logRead snprintf at *
      rw [hlen, hbuff, htext, List.append_assoc, List.take_left]

def freshBuff : LogBuff := ⟨0, List.replicate buffSize 0, List.length_replicate⟩

/-- The descriptor of a message of 1023 characters, which `log_out` keeps whole. -/
def longDesc : LogDesc := logDesc 1 (bytes "a.c") 7 .info (List.replicate 1023 'x')

/-- The length of a record with 1023 characters counts 45 bytes that are not in its slot:
`log_read` copies them from the slot behind it. -/
theorem record_overruns :
    (logWrite freshBuff longDesc (bytes "2024-01-01 00:00:00")).len = 1061 ∧
      (logWrite freshBuff longDesc (bytes "2024-01-01 00:00:00")).buff.length = 1016 ∧
      ('y' : UInt8) ∉ logText longDesc (bytes "2024-01-01 00:00:00") ∧
      (logRead (logWrite freshBuff longDesc (bytes "2024-01-01 00:00:00"))
        (List.replicate 45 'y')).drop 1016 = List.replicate 45 'y' := by
  decide +kernel

end Cserv.Log
