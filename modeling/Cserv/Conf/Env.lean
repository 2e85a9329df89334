import Cserv.Conf.Load
import Cserv.Http.Numbers
import Cserv.Process.Master
import Mathlib.Data.List.TakeWhile

/-!
# Settings

`env.c` reads its numbers with `atoi` and checks them after the arithmetic. The size of a stack goes
through an `int` multiplication and a round-up by a mask, the port through a 16-bit conversion;
both take effect as written exactly for the numbers that these steps do not change. Signed
arithmetic wraps around.
-/
namespace Cserv.Conf

open Foundations Http

/-- `(int) strtol(s, NULL, 10)`. -/
def atoi (s : List UInt8) : ℤ :=
  match s.dropWhile isspace with
  | [] => 0
  | ch :: rest =>
    if ch = '-' then toInt32 (max (-decimal (rest.takeWhile isDigit)) (-2 ^ 63))
    else if ch = '+' then toInt32 (min (decimal (rest.takeWhile isDigit)) (2 ^ 63 - 1))
    else toInt32 (min (decimal ((ch :: rest).takeWhile isDigit)) (2 ^ 63 - 1))

/-- `ALIGN_MASK` for two `int`s. -/
def alignMask (x mask : ℤ) : ℤ := (toInt32 (x + mask)).land mask.lnot

def align (x a : ℤ) : ℤ := alignMask x (a - 1)

structure WorkerEnv where
  workerProcesses : ℕ
  workerConnections : ℤ
  coroStackKbytes : ℤ
  deriving DecidableEq, Repr

def stackKbytes (pageSize : ℤ) (c : List UInt8) : ℤ :=
  if c = bytes "default" then pageSize >>> (10 : ℕ)
  else align (toInt32 (atoi c * 1024)) pageSize >>> (10 : ℕ)

/-- `set_worker_env`, which exits for `none`. -/
def setWorkerEnv (config : List ConfEntry) (ncpu pageSize : ℤ) : Option WorkerEnv := do
  let c ← getConfEntry config (bytes "worker_processes")
  let workerProcesses ← Process.setWorkerProcesses (if c = bytes "default" then ncpu else atoi c)
  let c ← getConfEntry config (bytes "worker_connections")
  let workerConnections := atoi c
  if workerConnections ≤ 0 then none
  else
    let c ← getConfEntry config (bytes "coroutine_stack_kbytes")
    let coroStackKbytes := stackKbytes pageSize c
    if coroStackKbytes ≤ 0 ∨ coroStackKbytes > 10240 then none
    else some ⟨workerProcesses, workerConnections, coroStackKbytes⟩

/-- The loop of `set_server_env`: at each colon the text before it becomes the address. -/
def splitListen (addr : Option (List UInt8)) (head : List UInt8) :
    List UInt8 → Option (List UInt8) × List UInt8
  | [] => (addr, head)
  | ch :: loop =>
    if ch = ':' then splitListen (some head) [] loop else splitListen addr (head ++ [ch]) loop

structure ServerEnv where
  serverAddr : Option (List UInt8)
  serverPort : ℤ
  deriving DecidableEq, Repr

/-- `set_server_env`, which exits for `none`. -/
def setServerEnv (config : List ConfEntry) : Option ServerEnv := do
  let listen ← getConfEntry config (bytes "listen")
  let (addr, head) := splitListen none [] listen
  let port := atoi head
  if port ≤ 0 then none else some ⟨addr, port⟩

/-- The port that `create_tcp_server` binds: the argument of `htons` is a `uint16_t`. -/
def boundPort (port : ℤ) : ℤ := port % 2 ^ 16

/-! ## Numerals -/

/-- A decimal numeral, with the number that it denotes. -/
inductive IsNumeral : List UInt8 → ℤ → Prop
  | plain (ds : List UInt8) (hne : ds ≠ []) (hds : ∀ d ∈ ds, isDigit d = true) :
      IsNumeral ds (decimal ds)
  | neg (ds : List UInt8) (hne : ds ≠ []) (hds : ∀ d ∈ ds, isDigit d = true) :
      IsNumeral ('-' :: ds) (-decimal ds)

variable {s : List UInt8} {n : ℤ}

theorem atoi_numeral (h : IsNumeral s n) (hlow : -2 ^ 31 ≤ n) (hhigh : n < 2 ^ 31) : atoi s = n := by
  have hclass : ∀ d : UInt8, isDigit d = true → isspace d = false ∧ d ≠ '-' ∧ d ≠ '+' := by
    decide +kernel
  cases h with
  | plain ds hne hds =>
    obtain ⟨d, rest, rfl⟩ := List.exists_cons_of_ne_nil hne
    obtain ⟨hspace, hminus, hplus⟩ := hclass d (hds d List.mem_cons_self)
    have htake : (d :: rest).takeWhile isDigit = d :: rest := List.takeWhile_eq_self_iff.mpr hds
    rw [atoi, List.dropWhile_cons_of_neg (by simp [hspace])]
    simp only [hminus, hplus, if_false, htake]
    rw [min_eq_left (by omega), toInt32_of_range hlow hhigh]
  | neg ds hne hds =>
    have htake : ds.takeWhile isDigit = ds := List.takeWhile_eq_self_iff.mpr hds
    rw [atoi, List.dropWhile_cons_of_neg (by decide)]
    simp only [if_true, htake]
    rw [max_eq_left (by omega), toInt32_of_range hlow hhigh]

theorem numeral_ne_default (h : IsNumeral s n) : s ≠ bytes "default" := by
  rintro rfl
  cases h with
  | plain _ _ hds => exact absurd (hds 'd' (by decide)) (by decide)

/-! ## The size of a stack -/

structure RoundedUp (n pageSize kbytes : ℤ) : Prop where
  pages : pageSize ∣ kbytes * 1024
  enough : n * 1024 ≤ kbytes * 1024
  least : kbytes * 1024 < n * 1024 + pageSize

/-- Where nothing wraps around, the expression of `set_worker_env` rounds up. -/
theorem roundedUp_of_range {k : ℕ} (hk : 10 ≤ k) (hk' : k < 31) (hlow : 1 ≤ n) (hhigh : n ≤ 10240) :
    RoundedUp n (2 ^ k) (align (toInt32 (n * 1024)) (2 ^ k) >>> (10 : ℕ)) := by
  obtain ⟨j, rfl⟩ := Nat.exists_eq_add_of_le hk
  have hpage : (2 : ℤ) ^ (10 + j) = 1024 * 2 ^ j := by rw [pow_add]; norm_num
  have hle : (2 : ℤ) ^ (10 + j) ≤ 2 ^ 30 := pow_le_pow_right₀ (by norm_num) (by omega)
  have hpos : (0 : ℤ) < 2 ^ (10 + j) := by positivity
  have hbytes : toInt32 (n * 1024) = n * 1024 := toInt32_of_range (by omega) (by omega)
  have hsum : toInt32 (toInt32 (n * 1024) + (2 ^ (10 + j) - 1)) = n * 1024 + (2 ^ (10 + j) - 1) := by
    rw [hbytes, toInt32_of_range (by omega) (by omega)]
  have hkbytes : (align (toInt32 (n * 1024)) (2 ^ (10 + j)) >>> (10 : ℕ)) * 1024 =
      2 ^ (10 + j) * ((n * 1024 + (2 ^ (10 + j) - 1)) / 2 ^ (10 + j)) := by
    rw [align, alignMask, hsum, land_lnot_mask, Int.shiftRight_eq_div_pow]
    apply Int.ediv_mul_cancel
    rw [hpage, mul_assoc]
    exact Dvd.intro _ rfl
  have hdiv := Int.emod_add_mul_ediv (n * 1024 + (2 ^ (10 + j) - 1)) (2 ^ (10 + j))
  have hmod := Int.emod_nonneg (n * 1024 + (2 ^ (10 + j) - 1)) hpos.ne'
  have hmod' := Int.emod_lt_of_pos (n * 1024 + (2 ^ (10 + j) - 1)) hpos
  constructor
  · rw [hkbytes]
    exact Dvd.intro _ rfl
  · rw [hkbytes]
    omega
  · rw [hkbytes]
    omega

theorem RoundedUp.range {pageSize kbytes : ℤ} (h : RoundedUp n pageSize kbytes) (hlow : 1 ≤ kbytes)
    (hhigh : kbytes ≤ 10240) : 1 ≤ n ∧ n ≤ 10240 := by
  have hpage : pageSize ≤ kbytes * 1024 := Int.le_of_dvd (by omega) h.pages
  have henough := h.enough
  have hleast := h.least
  constructor <;> omega

theorem setWorkerEnv_some {config : List ConfEntry} {ncpu pageSize : ℤ} {env : WorkerEnv}
    (h : setWorkerEnv config ncpu pageSize = some env) :
    (∃ c, getConfEntry config (bytes "worker_connections") = some c ∧
      env.workerConnections = atoi c) ∧ 0 < env.workerConnections ∧
    (∃ c, getConfEntry config (bytes "coroutine_stack_kbytes") = some c ∧
      env.coroStackKbytes = stackKbytes pageSize c) ∧
    0 < env.coroStackKbytes ∧ env.coroStackKbytes ≤ 10240 := by
  obtain ⟨text, -, h⟩ := Option.bind_eq_some_iff.mp h
  obtain ⟨processes, -, h⟩ := Option.bind_eq_some_iff.mp h
  obtain ⟨connections, hconnections, h⟩ := Option.bind_eq_some_iff.mp h
  dsimp only at h
  split_ifs at h with hpos
  obtain ⟨stack, hstack, h⟩ := Option.bind_eq_some_iff.mp h
  split_ifs at h with hrange
  obtain rfl := Option.some.inj h
  push Not at hpos hrange
  exact ⟨⟨connections, hconnections, rfl⟩, hpos, ⟨stack, hstack, rfl⟩, hrange⟩

/-! ## The port -/

theorem splitListen_of_not_mem (addr : Option (List UInt8)) (head : List UInt8)
    (h : (':' : UInt8) ∉ s) : splitListen addr head s = (addr, head ++ s) := by
  induction s generalizing head with
  | nil => simp [splitListen]
  | cons ch s ih =>
    rw [List.mem_cons, not_or] at h
    rw [splitListen, if_neg (Ne.symm h.1), ih _ h.2, List.append_assoc]
    rfl

theorem setServerEnv_numeral {config : List ConfEntry} {env : ServerEnv} (hs : IsNumeral s n)
    (hlisten : getConfEntry config (bytes "listen") = some s) (h : setServerEnv config = some env) :
    env.serverPort = atoi s ∧ 0 < atoi s := by
  have hcolon : (':' : UInt8) ∉ s := by
    intro hmem
    have hclass : isDigit ':' = false ∧ (':' : UInt8) ≠ '-' := by decide
    cases hs with
    | plain _ _ hds => simpa [hclass.1] using hds _ hmem
    | neg _ _ hds =>
      rcases List.mem_cons.mp hmem with hminus | hmem
      · exact hclass.2 hminus
      · simpa [hclass.1] using hds _ hmem
  rw [setServerEnv, hlisten, Option.bind_eq_bind, Option.bind_some,
    splitListen_of_not_mem _ _ hcolon] at h
  dsimp only [List.nil_append] at h
  split_ifs at h with hpos
  obtain rfl := Option.some.inj h
  exact ⟨rfl, not_le.mp hpos⟩

/-- A number that is accepted takes effect as it is written if and only if it is at most 10240 for
the size of a stack, and at most 65535 for the port. -/
theorem settings_exact_iff (k : ℕ) (hk : 10 ≤ k) (hk' : k < 31) (s : List UInt8) (n : ℤ)
    (hs : IsNumeral s n) (hlow : -2 ^ 31 ≤ n) (hhigh : n < 2 ^ 31) (config : List ConfEntry)
    (ncpu : ℤ) :
    (∀ env, getConfEntry config (bytes "coroutine_stack_kbytes") = some s →
      setWorkerEnv config ncpu (2 ^ k) = some env →
      (RoundedUp n (2 ^ k) env.coroStackKbytes ∧ 1 ≤ env.coroStackKbytes ∧
        env.coroStackKbytes ≤ 10240 ↔ 1 ≤ n ∧ n ≤ 10240)) ∧
    ∀ env, getConfEntry config (bytes "listen") = some s → setServerEnv config = some env →
      (boundPort env.serverPort = n ↔ n ≤ 65535) := by
  constructor
  · intro env hentry henv
    obtain ⟨-, -, ⟨c, hc, hkbytes⟩, hpos, hmax⟩ := setWorkerEnv_some henv
    obtain rfl : s = c := Option.some.inj (hentry.symm.trans hc)
    constructor
    · rintro ⟨hround, hone, hmax⟩
      exact hround.range hone hmax
    · rintro ⟨hone, hle⟩
      refine ⟨?_, hpos, hmax⟩
      rw [hkbytes, stackKbytes, if_neg (numeral_ne_default hs), atoi_numeral hs hlow hhigh]
      exact roundedUp_of_range hk hk' hone hle
  · intro env hentry henv
    obtain ⟨hport, hpos⟩ := setServerEnv_numeral hs hentry henv
    rw [hport, atoi_numeral hs hlow hhigh, boundPort]
    rw [atoi_numeral hs hlow hhigh] at hpos
    omega

def numberConf (s : String) : List ConfEntry :=
  [⟨bytes "worker_processes", bytes "1"⟩, ⟨bytes "worker_connections", bytes "8"⟩,
    ⟨bytes "coroutine_stack_kbytes", bytes s⟩, ⟨bytes "listen", bytes s⟩]

theorem settings_exact_five :
    setWorkerEnv (numberConf "5") 1 (2 ^ 12) = some ⟨1, 8, 8⟩ ∧ RoundedUp 5 (2 ^ 12) 8 ∧
      setServerEnv (numberConf "5") = some ⟨none, 5⟩ ∧ boundPort 5 = 5 := by
  have hworker : setWorkerEnv (numberConf "5") 1 (2 ^ 12) = some ⟨1, 8, 8⟩ := by decide +kernel
  have hserver : setServerEnv (numberConf "5") = some ⟨none, 5⟩ := by decide +kernel
  obtain ⟨hstack, hport⟩ := settings_exact_iff 12 (by decide) (by decide) (bytes "5") 5
    (.plain (bytes "5") (by decide) (by decide +kernel)) (by decide) (by decide) (numberConf "5") 1
  refine ⟨hworker, ?_, hserver, (hport _ rfl hserver).mpr (by decide)⟩
  exact ((hstack _ rfl hworker).mpr (by decide)).1

/-- 4194308 KiB are accepted as 4 KiB, and the port 65537 is bound as 1. -/
theorem settings_wrap :
    setWorkerEnv (numberConf "4194308") 1 (2 ^ 12) = some ⟨1, 8, 4⟩ ∧
      ¬RoundedUp 4194308 (2 ^ 12) 4 ∧
      setServerEnv (numberConf "65537") = some ⟨none, 65537⟩ ∧ boundPort 65537 = 1 := by
  refine ⟨by decide +kernel, fun h => ?_, by decide +kernel, by decide⟩
  have henough := h.enough
  omega

end Cserv.Conf
