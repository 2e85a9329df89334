import Cserv.Conf.Parse

/-!
# Configuration files

`load_conf` and `get_conf_entry` of `util/conf.c`. A file is read through a buffer of 512 bytes, so
that `fgets` cuts a line in two when it does not fit. Entries are pushed on the front of a list and
looked up from the front: the last line with a key is the one that counts.
-/
namespace Cserv.Conf

open Http

def CONF_KV_LEN : ℕ := 64

def buffSize : ℕ := 512

/-- `struct conf` without its link, its two arrays as C strings. -/
structure ConfEntry where
  key : List UInt8
  value : List UInt8
  deriving DecidableEq, Repr

/-- The bytes that `fgets` takes when there is room for `room` of them, and the rest of the file. -/
def takeLine : ℕ → List UInt8 → List UInt8 × List UInt8
  | 0, file => ([], file)
  | _ + 1, [] => ([], [])
  | room + 1, ch :: file =>
    if ch = LF then ([ch], file) else (ch :: (takeLine room file).1, (takeLine room file).2)

/-- `fgets(buff, size, fp)`; it returns `NULL` at the end of the file. -/
def fgets (size : ℕ) (file : List UInt8) : Option (List UInt8 × List UInt8) :=
  if file = [] then none else some (takeLine (size - 1) file)

/-- The buffer after `fgets` has stored a line and its terminator. -/
def storeLine (buff line : List UInt8) : List UInt8 := line ++ 0 :: buff.drop (line.length + 1)

theorem takeLine_append (room : ℕ) (file : List UInt8) :
    (takeLine room file).1 ++ (takeLine room file).2 = file := by
  induction room generalizing file with
  | zero => rfl
  | succ room ih =>
    cases file with
    | nil => rfl
    | cons ch file =>
      rw [takeLine]
      split_ifs
      · rfl
      · rw [List.cons_append, ih]

theorem fgets_lt {file line rest : List UInt8} (h : fgets buffSize file = some (line, rest)) :
    rest.length < file.length := by
  unfold fgets at h
  split_ifs at h with hnil
  obtain ⟨ch, tl, rfl⟩ := List.exists_cons_of_ne_nil hnil
  have happend := congrArg List.length (takeLine_append 510 tl)
  rw [List.length_append] at happend
  change some (takeLine 511 (ch :: tl)) = _ at h
  rw [takeLine] at h
  split_ifs at h <;> obtain ⟨rfl, rfl⟩ := Prod.mk.inj (Option.some.inj h)
  · simp
  · rw [List.length_cons]
    omega

/-- The body of the loop of `load_conf`, which exits for `none`. `malloc` says whether another entry
can be allocated when there are so many. -/
def loadLine (malloc : ℕ → Bool) (buff : List UInt8) (head : List ConfEntry) :
    Option (List ConfEntry) :=
  match parseConf buff with
  | none => some head
  | some (key, value) =>
    if key.len ≥ CONF_KV_LEN ∨ value.len ≥ CONF_KV_LEN then none
    else if malloc head.length then some (⟨key.get buff, value.get buff⟩ :: head)
    else none

def loadLoop (malloc : ℕ → Bool) (buff file : List UInt8) (head : List ConfEntry) :
    Option (List ConfEntry) :=
  match _h : fgets buffSize file with
  | none => some head
  | some (line, rest) => do
    let head ← loadLine malloc (storeLine buff line) head
    loadLoop malloc (storeLine buff line) rest head
termination_by file.length
decreasing_by exact fgets_lt _h

/-- `load_conf` on the bytes of a file; `buff` is what the array holds before. -/
def loadConf (malloc : ℕ → Bool) (buff file : List UInt8) : Option (List ConfEntry) :=
  loadLoop malloc buff file []

/-- `get_conf_entry`, which exits for `none`. -/
def getConfEntry (config : List ConfEntry) (key : List UInt8) : Option (List UInt8) :=
  (config.find? (·.key = key)).map (·.value)

/-! ## Lines -/

/-- The lines of a file, each with its newline; the last one may have none. -/
def lines : List UInt8 → List (List UInt8)
  | [] => []
  | ch :: file =>
    if ch = LF then [ch] :: lines file
    else
      match lines file with
      | [] => [[ch]]
      | l :: ls => (ch :: l) :: ls

def lineEntry (line : List UInt8) : Option ConfEntry :=
  (parseConf (line ++ [0])).map fun kv => ⟨kv.1.get (line ++ [0]), kv.2.get (line ++ [0])⟩

def isComment (line : List UInt8) : Bool := (line.dropWhile isspace).head? = some ('#' : UInt8)

/-- What `fgets` returns, call by call: a line that does not fit into the buffer in pieces. -/
def pieces (file : List UInt8) : List (List UInt8) :=
  match _h : fgets buffSize file with
  | none => []
  | some (line, rest) => line :: pieces rest
termination_by file.length
decreasing_by exact fgets_lt _h

/-- A configuration was read line by line: a key has the value of the last line with that key, and
nothing that is read of a comment is an entry. -/
structure ReadByLines (file : List UInt8) (config : List ConfEntry) : Prop where
  last : ∀ key value, getConfEntry config key = some value ↔
    ∃ before line after, lines file = before ++ line :: after ∧
      lineEntry line = some ⟨key, value⟩ ∧ ∀ l ∈ after, ∀ e, lineEntry l = some e → e.key ≠ key
  comments : ∀ line ∈ lines file, isComment line = true →
    ∀ piece ∈ pieces line, lineEntry piece = none

def lastValue (strs : List (List UInt8)) (key : List UInt8) : Option (List UInt8) :=
  getConfEntry (strs.filterMap lineEntry).reverse key

/-- The lines that do not fit into the buffer do no harm: no piece of a comment is an entry, and a key
that such a line has, or one of its pieces, gets the same value from the pieces of the file as from
its lines. -/
structure LongLinesHarmless (file : List UInt8) : Prop where
  comments : ∀ line ∈ lines file, 511 < line.length → isComment line = true →
    ∀ piece ∈ pieces line, lineEntry piece = none
  keys : ∀ line ∈ lines file, 511 < line.length → ∀ s ∈ line :: pieces line, ∀ e,
    lineEntry s = some e → lastValue (pieces file) e.key = lastValue (lines file) e.key

theorem lines_eq_nil {file : List UInt8} (h : lines file = []) : file = [] := by
  cases file with
  | nil => rfl
  | cons ch file =>
    rw [lines] at h
    split_ifs at h
    split at h <;> cases h

theorem loadLine_storeLine (malloc : ℕ → Bool) (buff line : List UInt8) (head : List ConfEntry) :
    loadLine malloc (storeLine buff line) head =
      match lineEntry line with
      | none => some head
      | some e =>
        if e.key.length ≥ CONF_KV_LEN ∨ e.value.length ≥ CONF_KV_LEN then none
        else if malloc head.length then some (e :: head)
        else none := by
  have hentry : lineEntry line = (parseConf (storeLine buff line)).map fun kv =>
      ⟨kv.1.get (storeLine buff line), kv.2.get (storeLine buff line)⟩ := by
    have htext := (parseConf_line line []).trans
      (parseConf_line line (buff.drop (line.length + 1))).symm
    have hmap := congrArg (Option.map fun kv => (⟨kv.1, kv.2⟩ : ConfEntry)) htext
    rw [Option.map_map, Option.map_map] at hmap
    exact hmap
  rw [loadLine, hentry]
  cases hparse : parseConf (storeLine buff line) with
  | none => rfl
  | some kv =>
    obtain ⟨hkey, hvalue⟩ := parseConf_length hparse
    simp only [Option.map_some, hkey, hvalue]

theorem lineEntry_comment {line : List UInt8} (h : isComment line = true) : lineEntry line = none := by
  have htext := (parseConf_line line []).trans (entryText_comment (of_decide_eq_true h))
  rw [lineEntry, Option.map_eq_none_iff.mp htext]
  rfl

theorem pieces_nil : pieces [] = [] := by
  rw [pieces]
  rfl

theorem pieces_cons {file : List UInt8} (hne : file ≠ []) :
    pieces file = (takeLine 511 file).1 :: pieces (takeLine 511 file).2 := by
  rw [pieces]
  split
  · next h => simp [fgets, hne] at h
  · next line rest h =>
    rw [fgets, if_neg hne] at h
    obtain ⟨rfl, rfl⟩ := Prod.mk.inj (Option.some.inj h)
    rfl

/-- What the body of the loop of `load_conf` does with the entry of a string. -/
def pushEntry (malloc : ℕ → Bool) (head : List ConfEntry) : Option ConfEntry → Option (List ConfEntry)
  | none => some head
  | some e =>
    if e.key.length ≥ CONF_KV_LEN ∨ e.value.length ≥ CONF_KV_LEN then none
    else if malloc head.length then some (e :: head)
    else none

theorem pushEntry_some {malloc : ℕ → Bool} {head config : List ConfEntry} {o : Option ConfEntry}
    (h : pushEntry malloc head o = some config) : config = o.toList ++ head := by
  cases o with
  | none => exact (Option.some.inj h).symm
  | some e =>
    rw [pushEntry] at h
    split_ifs at h
    exact (Option.some.inj h).symm

/-- The loop of `load_conf` takes the entries of what `fgets` returns, whatever the array holds. -/
theorem loadLoop_eq (malloc : ℕ → Bool) (buff file : List UInt8) (head : List ConfEntry) :
    loadLoop malloc buff file head =
      ((pieces file).map lineEntry).foldlM (pushEntry malloc) head := by
  fun_induction loadLoop malloc buff file head with
  | case1 buff file head hget =>
    rw [pieces]
    split
    · rfl
    · next h => rw [hget] at h; cases h
  | case2 buff file head line rest hget ih =>
    have hpieces : pieces file = line :: pieces rest := by
      rw [pieces]
      split
      · next h => rw [hget] at h; cases h
      · next h =>
        rw [hget] at h
        cases h
        rfl
    rw [hpieces, List.map_cons, List.foldlM_cons, loadLine_storeLine]
    exact bind_congr ih

theorem foldlM_pushEntry {malloc : ℕ → Bool} {entries : List (Option ConfEntry)}
    {head config : List ConfEntry} (h : entries.foldlM (pushEntry malloc) head = some config) :
    config = (entries.filterMap id).reverse ++ head := by
  induction entries generalizing head with
  | nil => exact (Option.some.inj h).symm
  | cons o entries ih =>
    obtain ⟨head', hpush, hrest⟩ := Option.bind_eq_some_iff.mp h
    rw [ih hrest, pushEntry_some hpush]
    cases o <;> simp

theorem loadConf_pieces {malloc : ℕ → Bool} {buff file : List UInt8} {config : List ConfEntry}
    (h : loadConf malloc buff file = some config) :
    config = ((pieces file).filterMap lineEntry).reverse := by
  rw [loadConf, loadLoop_eq] at h
  have hconfig := foldlM_pushEntry h
  rw [List.append_nil, List.filterMap_map] at hconfig
  exact hconfig

theorem loadConf_isSome {malloc : ℕ → Bool} (hmalloc : ∀ n, malloc n = true) (buff : List UInt8)
    {file : List UInt8} (hshort : ∀ piece ∈ pieces file, ∀ e, lineEntry piece = some e →
      e.key.length < CONF_KV_LEN ∧ e.value.length < CONF_KV_LEN) :
    ∃ config, loadConf malloc buff file = some config := by
  rw [loadConf, loadLoop_eq]
  generalize ([] : List ConfEntry) = head
  generalize pieces file = strs at hshort
  induction strs generalizing head with
  | nil => exact ⟨head, rfl⟩
  | cons piece rest ih =>
    have hpush : ∃ head', pushEntry malloc head (lineEntry piece) = some head' := by
      cases hentry : lineEntry piece with
      | none => exact ⟨head, rfl⟩
      | some e =>
        obtain ⟨hkey, hvalue⟩ := hshort piece List.mem_cons_self e hentry
        exact ⟨e :: head, by simp [pushEntry, hkey, hvalue, hmalloc]⟩
    obtain ⟨head', hpush⟩ := hpush
    rw [List.map_cons, List.foldlM_cons, hpush]
    exact ih head' fun p hp => hshort p (List.mem_cons_of_mem _ hp)

/-! ## Lines and pieces -/

def Whole (text : List UInt8) : Prop := text = [] ∨ ∃ init, text = init ++ [LF]

theorem Whole.tail {ch : UInt8} {text : List UInt8} (h : Whole (ch :: text)) :
    Whole text ∧ (ch ≠ LF → text ≠ []) := by
  obtain hnil | ⟨init, hinit⟩ := h
  · cases hnil
  · cases init with
    | nil =>
      obtain ⟨rfl, rfl⟩ := List.cons.inj hinit
      exact ⟨Or.inl rfl, fun hne => absurd rfl hne⟩
    | cons c init =>
      obtain ⟨-, rfl⟩ := List.cons.inj hinit
      exact ⟨Or.inr ⟨init, rfl⟩, fun _ => by simp⟩

theorem takeLine_whole {text : List UInt8} (h : Whole text) (hne : text ≠ []) (room : ℕ)
    (rest : List UInt8) :
    takeLine room (text ++ rest) = ((takeLine room text).1, (takeLine room text).2 ++ rest) ∧
      Whole (takeLine room text).2 := by
  induction room generalizing text with
  | zero => exact ⟨rfl, h⟩
  | succ room ih =>
    obtain ⟨ch, text, rfl⟩ := List.exists_cons_of_ne_nil hne
    obtain ⟨htail, hmore⟩ := h.tail
    rw [List.cons_append, takeLine, takeLine]
    split_ifs with hch
    · exact ⟨rfl, htail⟩
    · obtain ⟨heq, hwhole⟩ := ih htail (hmore hch)
      exact ⟨by rw [heq], hwhole⟩

theorem pieces_append {text : List UInt8} (h : Whole text) (rest : List UInt8) :
    pieces (text ++ rest) = pieces text ++ pieces rest := by
  induction hlen : text.length using Nat.strong_induction_on generalizing text with
  | _ n ih =>
    by_cases hne : text = []
    · rw [hne, pieces_nil]
      rfl
    · obtain ⟨htake, hwhole⟩ := takeLine_whole h hne 511 rest
      have hlt : (takeLine 511 text).2.length < n := by
        rw [← hlen]
        exact fgets_lt (by rw [fgets, if_neg hne]; rfl)
      rw [pieces_cons hne, pieces_cons (List.append_ne_nil_of_left_ne_nil hne rest), htake,
        ih _ hlt hwhole rfl]
      rfl

theorem lines_head {file l : List UInt8} {ls : List (List UInt8)} (h : lines file = l :: ls) :
    ∃ rest, file = l ++ rest ∧ lines rest = ls ∧ lines l = [l] ∧ (Whole l ∨ rest = []) := by
  induction file generalizing l ls with
  | nil => cases h
  | cons ch file ih =>
    rw [lines] at h
    split_ifs at h with hch
    · obtain ⟨rfl, rfl⟩ := List.cons.inj h
      exact ⟨file, rfl, rfl, by simp [lines, hch], Or.inl (Or.inr ⟨[], by rw [hch]; rfl⟩)⟩
    · split at h
      · next hfile =>
        obtain ⟨rfl, rfl⟩ := List.cons.inj h
        obtain rfl := lines_eq_nil hfile
        exact ⟨[], rfl, rfl, by simp [lines, hch], Or.inr rfl⟩
      · next l' ls' hfile =>
        obtain ⟨rfl, rfl⟩ := List.cons.inj h
        obtain ⟨rest, hsplit, hrest, hself, hend⟩ := ih hfile
        refine ⟨rest, by rw [hsplit]; rfl, hrest, by simp [lines, hch, hself], hend.imp_left ?_⟩
        rintro (rfl | ⟨init, rfl⟩)
        · cases hself
        · exact Or.inr ⟨ch :: init, rfl⟩

theorem lines_self {file line : List UInt8} (h : line ∈ lines file) : lines line = [line] := by
  induction hlines : lines file generalizing file with
  | nil =>
    rw [hlines] at h
    cases h
  | cons l ls ih =>
    obtain ⟨rest, -, hrest, hself, -⟩ := lines_head hlines
    rw [hlines] at h
    rcases List.mem_cons.mp h with rfl | h
    · exact hself
    · rw [← hrest] at h
      exact ih h hrest

theorem pieces_lines (file : List UInt8) : pieces file = (lines file).flatMap pieces := by
  induction hlines : lines file generalizing file with
  | nil => rw [lines_eq_nil hlines, pieces_nil, List.flatMap_nil]
  | cons l ls ih =>
    obtain ⟨rest, rfl, hrest, -, hend⟩ := lines_head hlines
    rw [List.flatMap_cons, ← ih rest hrest]
    rcases hend with hwhole | rfl
    · exact pieces_append hwhole rest
    · rw [List.append_nil, pieces_nil, List.append_nil]

theorem takeLine_self {room : ℕ} {line : List UInt8} (h : lines line = [line])
    (hroom : line.length ≤ room) : takeLine room line = (line, []) := by
  induction line generalizing room with
  | nil => cases h
  | cons ch line ih =>
    obtain ⟨room, rfl⟩ := Nat.exists_eq_add_of_le' (show 1 ≤ room by simp at hroom; omega)
    rw [takeLine]
    rw [lines] at h
    split_ifs at h ⊢ with hch
    · have hnil := lines_eq_nil (List.cons.inj h).2
      rw [hnil]
    · split at h
      · next hline =>
        rw [lines_eq_nil hline]
        cases room <;> rfl
      · next l ls hline =>
        obtain ⟨hl, rfl⟩ := List.cons.inj h
        obtain rfl := (List.cons.inj hl).2
        rw [ih hline (by simpa using hroom)]

theorem pieces_of_fit {line : List UInt8} (h : lines line = [line]) (hfit : line.length ≤ 511) :
    pieces line = [line] := by
  have hne : line ≠ [] := by
    rintro rfl
    cases h
  rw [pieces_cons hne, takeLine_self h hfit, pieces_nil]

theorem getConfEntry_iff {f : List UInt8 → Option ConfEntry} {ls : List (List UInt8)}
    {key value : List UInt8} :
    getConfEntry (ls.filterMap f).reverse key = some value ↔
      ∃ before line after, ls = before ++ line :: after ∧ f line = some ⟨key, value⟩ ∧
        ∀ l ∈ after, ∀ e, f l = some e → e.key ≠ key := by
  constructor
  · intro h
    obtain ⟨e, hfind, rfl⟩ := Option.map_eq_some_iff.mp h
    obtain ⟨hkey, as, bs, hsplit, has⟩ := List.find?_eq_some_iff_append.mp hfind
    obtain rfl : e.key = key := by simpa using hkey
    have hmap : ls.filterMap f = bs.reverse ++ e :: as.reverse := by
      simpa using congrArg List.reverse hsplit
    obtain ⟨l₁, l₂, rfl, -, hl₂⟩ := List.filterMap_eq_append_iff.mp hmap
    obtain ⟨l₃, line, after, rfl, -, hline, hafter⟩ := List.filterMap_eq_cons_iff.mp hl₂
    refine ⟨l₁ ++ l₃, line, after, by simp, hline, fun l hl e' he' heq => ?_⟩
    have hmem : e' ∈ as := by
      rw [← List.mem_reverse, ← hafter]
      exact List.mem_filterMap.mpr ⟨l, hl, he'⟩
    simpa [heq] using has e' hmem
  · rintro ⟨before, line, after, rfl, hline, hafter⟩
    rw [getConfEntry, List.filterMap_append, List.filterMap_cons_some hline, List.reverse_append,
      List.reverse_cons, List.append_assoc, List.find?_append]
    have hnone : (after.filterMap f).reverse.find? (·.key = key) = none := by
      rw [List.find?_eq_none]
      intro e he
      obtain ⟨l, hl, hle⟩ := List.mem_filterMap.mp (List.mem_reverse.mp he)
      simpa using hafter l hl e hle
    simp [hnone]

theorem getConfEntry_eq_filter (config : List ConfEntry) (key : List UInt8) :
    getConfEntry config key = ((config.filter (·.key = key)).head?).map (·.value) := by
  rw [getConfEntry, List.head?_filter]

/-- A key that the long lines do not have gets the same value from the pieces as from the lines. -/
theorem lastValue_flatMap {ls : List (List UInt8)} {key : List UInt8}
    (h : ∀ l ∈ ls, pieces l = [l] ∨ ∀ s ∈ l :: pieces l, ∀ e, lineEntry s = some e → e.key ≠ key) :
    lastValue (ls.flatMap pieces) key = lastValue ls key := by
  have hnone : ∀ strs : List (List UInt8), (∀ s ∈ strs, ∀ e, lineEntry s = some e → e.key ≠ key) →
      (strs.filterMap lineEntry).filter (·.key = key) = [] := by
    intro strs hstrs
    rw [List.filter_eq_nil_iff]
    intro e he
    obtain ⟨s, hs, hse⟩ := List.mem_filterMap.mp he
    simpa using hstrs s hs e hse
  have hfilter : ((ls.flatMap pieces).filterMap lineEntry).filter (·.key = key) =
      (ls.filterMap lineEntry).filter (·.key = key) := by
    induction ls with
    | nil => rfl
    | cons l ls ih =>
      have hrest := ih fun m hm => h m (List.mem_cons_of_mem _ hm)
      rw [List.flatMap_cons, List.filterMap_append, List.filter_append, hrest,
        ← List.singleton_append, List.filterMap_append, List.filter_append]
      congr 1
      rcases h l List.mem_cons_self with hwhole | hno
      · rw [hwhole]
      · rw [hnone (pieces l) fun s hs => hno s (List.mem_cons_of_mem _ hs),
          hnone [l] fun s hs => hno s (by rw [List.mem_singleton.mp hs]; exact List.mem_cons_self)]
  simp only [lastValue, getConfEntry_eq_filter, List.filter_reverse, hfilter]

theorem last_iff {file : List UInt8} {config : List ConfEntry} :
    (∀ key value, getConfEntry config key = some value ↔
      ∃ before line after, lines file = before ++ line :: after ∧
        lineEntry line = some ⟨key, value⟩ ∧ ∀ l ∈ after, ∀ e, lineEntry l = some e → e.key ≠ key) ↔
      ∀ key, getConfEntry config key = lastValue (lines file) key := by
  simp only [← getConfEntry_iff]
  exact ⟨fun h key => Option.ext (h key), fun h key value => by rw [h key]; rfl⟩

theorem getConfEntry_pieces {malloc : ℕ → Bool} {buff file : List UInt8} {config : List ConfEntry}
    (h : loadConf malloc buff file = some config) (key : List UInt8) :
    getConfEntry config key = lastValue (pieces file) key := by
  rw [loadConf_pieces h, lastValue]

theorem readByLines_of_harmless {malloc : ℕ → Bool} {buff file : List UInt8}
    {config : List ConfEntry} (hload : loadConf malloc buff file = some config)
    (h : LongLinesHarmless file) : ReadByLines file config := by
  refine ⟨last_iff.mpr fun key => ?_, fun line hline hcomment piece hpiece => ?_⟩
  · rw [getConfEntry_pieces hload]
    by_cases hlong : ∃ line ∈ lines file, 511 < line.length ∧
        ∃ s ∈ line :: pieces line, ∃ e, lineEntry s = some e ∧ e.key = key
    · obtain ⟨line, hline, hlen, s, hs, e, he, rfl⟩ := hlong
      exact h.keys line hline hlen s hs e he
    · -- only lines that fit have the key
      rw [pieces_lines]
      refine lastValue_flatMap fun line hline => ?_
      by_cases hfit : line.length ≤ 511
      · exact Or.inl (pieces_of_fit (lines_self hline) hfit)
      · exact Or.inr fun s hs e he hkey => hlong ⟨line, hline, not_le.mp hfit, s, hs, e, he, hkey⟩
  · by_cases hfit : line.length ≤ 511
    · rw [pieces_of_fit (lines_self hline) hfit, List.mem_singleton] at hpiece
      rw [hpiece]
      exact lineEntry_comment hcomment
    · exact h.comments line hline (not_le.mp hfit) hcomment piece hpiece

theorem pieces_of_lines_fit {file : List UInt8} (hfit : ∀ line ∈ lines file, line.length ≤ 511) :
    pieces file = lines file := by
  rw [pieces_lines, List.flatMap_congr fun line hline =>
    pieces_of_fit (lines_self hline) (hfit line hline)]
  exact List.flatMap_singleton' _

/-- Every file with lines that fit into the buffer is read line by line. -/
theorem readByLines_of_fit {malloc : ℕ → Bool} {buff file : List UInt8} {config : List ConfEntry}
    (hfit : ∀ line ∈ lines file, line.length ≤ 511) (h : loadConf malloc buff file = some config) :
    ReadByLines file config :=
  readByLines_of_harmless h
    ⟨fun line hline hlong => absurd (hfit line hline) (not_le.mpr hlong),
      fun line hline hlong => absurd (hfit line hline) (not_le.mpr hlong)⟩

/-! ## Lines that do not fit -/

end Cserv.Conf
