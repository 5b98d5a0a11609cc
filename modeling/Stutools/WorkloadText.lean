-- The syntax of `-c`: a text as tokens of a flag and a value, the numbers in the values,
-- what each token sets, and the loop over the text before its end combines the tokens.
import Mathlib.Data.Rat.Floor
import Stutools.Size
import Stutools.Workload

open texts

namespace stutools.cli

/-! ## Numbers -/

/-- The number of a text without an exponent: a sign, digits, and a point among them. -/
def decimal (text : List Char) : Option ℚ :=
  let negative := text.head? = some '-'
  let unsigned := if negative ∨ text.head? = some '+' then text.tail else text
  let (whole, fraction) := (split_once (· == '.') unsigned).getD (unsigned, [])
  if (whole = [] ∧ fraction = []) ∨ ¬Digits whole ∨ ¬Digits fraction then none
  else
    let magnitude : ℚ := number whole + number fraction / 10 ^ fraction.length
    some (if negative then -magnitude else magnitude)

/-- The nearest `f64`, none when it is infinite. -/
def nearest (q : ℚ) : Option ℚ :=
  if q = 0 then some 0
  else
    let ulp : ℚ := 2 ^ max (Int.log 2 |q| - 52) (-1074)
    let v := float.roundHalfEven (q / ulp) * ulp
    if 2 ^ 1024 ≤ |v| then none else some v

/-- `units::finite`. A value has no letters, so it is no `inf`, no `nan`, and has no exponent. -/
def finite (s : List Char) : Except String ℚ :=
  match decimal s with
  | none => .error ("invalid number " ++ String.ofList s)
  | some q =>
    match nearest q with
    | none => .error ("nonfinite number " ++ String.ofList s)
    | some v => .ok v

/-- `units::integer`: a `u64`, which is a `usize` as well. -/
def integer (s : List Char) : Except String Nat :=
  match parse (2 ^ 64) s with
  | none => .error ("invalid unsigned integer " ++ String.ofList s)
  | some n => .ok n

def SizeError.message : SizeError → String
  | .invalid text => "invalid size " ++ String.ofList text
  | .precision => "size precision overflow"
  | .overflow => "size overflow"

/-- `units::size`, with its message. -/
def bytes_of (s : List Char) (unit : Nat) : Except String Nat :=
  match size s unit with
  | .error e => .error e.message
  | .ok n => .ok n

/-- `parse::<i128>`. -/
def parse_i128 (text : List Char) : Option ℤ :=
  let negative := text.head? = some '-'
  let digits := if negative ∨ text.head? = some '+' then text.tail else text
  if digits = [] ∨ ¬Digits digits then none
  else
    let n : ℤ := if negative then -number digits else number digits
    if -2 ^ 127 ≤ n ∧ n < 2 ^ 127 then some n else none

def USIZE_MAX : Nat := 2 ^ 64 - 1

/-! ## What a token sets -/

/-- What a token sets, once its value is read and checked. -/
inductive Setting where
  | read
  | write
  | probability (p : ℚ)
  | block (block max_block : Nat) (power_sizes : Bool)
  | depth (submit_batch : Option Nat) (depth : Nat)
  | operation_limit (n : Nat)
  | seed (n : Nat)
  | passes (n : Nat)
  | alternate
  | rate (rate : ℚ)
  | write_verify (race : Bool)
  | duty (on off : ℚ)
  | duration (t : ℚ)
  | workers (n : Nat) (shared_range : Bool)
  | range (range : Option (Nat × Nat)) (split_range : Bool)
  | sequential (q : ℚ)
  | positions (mode : PositionMode) (n : Nat)
  | shuffle
  | shift
  | range_passes (n : Nat)
  | metadata (limit : Nat)
  | unique (verify : Bool)
  | from_zero
  | flush

/-- The assignments of a token. -/
def Setting.apply (t : Tokens) : Setting → Tokens
  | .read => { t with reads := t.reads + 1 }
  | .write => { t with writes := t.writes + 1 }
  | .probability p => { t with probability := some p }
  | .block low high power =>
    { t with w := { t.w with block := low, max_block := high, power_sizes := power } }
  | .depth low high =>
    { t with w := { t.w with submit_batch := low, depth := high }, explicit_depth := true }
  | .operation_limit n =>
    { t with w := { t.w with operation_limit := if n = 0 then none else some n } }
  | .seed n => { t with w := { t.w with seed := some (UInt64.ofNat n) } }
  | .passes n => { t with w := { t.w with passes := some n } }
  | .alternate => { t with w := { t.w with alternate := true } }
  | .rate iops => { t with w := { t.w with rate := some iops } }
  | .write_verify race =>
    { t with write_verify := true, write_verify_race := t.write_verify_race || race }
  | .duty on off => { t with w := { t.w with duty := some (on, off) } }
  | .duration s => { t with w := { t.w with duration := some s } }
  | .workers n shared => { t with w := { t.w with workers := n, shared_range := shared } }
  | .range bounds split => { t with w := { t.w with range := bounds, split_range := split } }
  | .sequential q => { t with w := { t.w with sequential := q }, explicit_sequential := true }
  | .positions mode n => { t with w := { t.w with mode := mode, positions := some n } }
  | .shuffle => { t with w := { t.w with shuffle := true } }
  | .shift => { t with w := { t.w with shift := true } }
  | .range_passes n => { t with w := { t.w with range_passes := some n } }
  | .metadata limit => { t with w := { t.w with metadata := some limit } }
  | .unique verify =>
    { t with w := { t.w with unique := true, unique_verify := t.w.unique_verify || verify } }
  | .from_zero => { t with w := { t.w with from_zero := true } }
  | .flush => { t with w := { t.w with flush := true } }

/-! ## The tokens -/

def unsupported (flag : Char) (value : List Char) : Except String Setting :=
  .error ("unsupported workload token " ++ String.ofList (flag :: value))

/-- A flag that takes no value. -/
def bare (flag : Char) (value : List Char) (s : Setting) : Except String Setting :=
  if value = [] then .ok s else unsupported flag value

def probability (value : List Char) : Except String Setting := do
  let p ← finite value
  if p < 0 ∨ 1 < p then .error "probability must be 0..1" else .ok (.probability p)

def block_sizes (flag : Char) (value : List Char) : Except String Setting := do
  let (low, high) := (split_once (fun c => c == '-' || c == ':') value).getD (value, value)
  let unit := if flag = 'k' then 1024 else 1048576
  let block ← bytes_of low unit
  let max_block ← bytes_of high unit
  if block = 0 ∨ max_block < block ∨ 0x7ffff000 < max_block then .error "invalid block size range"
  else .ok (.block block max_block (value.contains ':'))

/-- `low.map(integer).transpose()`. -/
def integer_if_any : Option (List Char) → Except String (Option Nat)
  | none => .ok none
  | some low => some <$> integer low

def queue (value : List Char) : Except String Setting := do
  let (low, high) := ((split_once (· == '-') value).map fun q => (some q.1, q.2)).getD (none, value)
  let submit_batch ← integer_if_any low
  let depth ← integer high
  if depth = 0 ∨ 4096 < depth then .error "invalid queue depth"
  else if submit_batch.any fun n => n = 0 ∨ depth < n then .error "invalid queue range"
  else .ok (.depth submit_batch depth)

def rate (value : List Char) : Except String Setting := do
  let rate ← finite value
  if rate ≤ 0 ∨ 10 ^ 12 < rate then .error "invalid IOPS target" else .ok (.rate rate)

def duty (value : List Char) : Except String Setting := do
  let (on, off) := (split_once (fun c => c == ':' || c == '-') value).getD (value, value)
  let on ← finite on
  let off ← finite off
  if on ≤ 0 ∨ off < 0 ∨ 86400 < float.f64 (on + off) then .error "invalid duty cycle"
  else .ok (.duty on off)

def job_duration (value : List Char) : Except String Setting := do
  let t ← finite value
  if t ≤ 0 ∨ 10 ^ 9 < t then .error "invalid job duration" else .ok (.duration t)

def workload_range (flag : Char) (value : List Char) : Except String Setting := do
  if flag = 'G' ∧ (value = [] ∨ value = ['_']) then .ok (.range none (value = ['_']))
  else
    let (low, high) := (split_once (fun c => c == '-' || c == '_') value).getD (['0'], value)
    let unit := if flag = 'G' then 1073741824 else 1
    let low ← bytes_of low unit
    let high ← bytes_of high unit
    if high ≤ low then .error "empty or reversed workload range"
    else .ok (.range (some (low, high)) (value.contains '_'))

def sequential (value : List Char) : Except String Setting := do
  let q ← finite value
  if 65535 < |q| ∨ (1 < |q| ∧ !q.isInt) then .error "invalid sequential region count"
  else .ok (.sequential q)

def positions (value : List Char) : Except String Setting := do
  let (mode, count) := match value with
    | '-' :: count => (PositionMode.Sample, count)
    | '+' :: count => (PositionMode.Spaced, count)
    | '.' :: count => (PositionMode.Alternating, count)
    | _ => (PositionMode.First, value)
  let n ← integer count
  .ok (.positions mode n)

def metadata (value : List Char) : Except String Setting :=
  match if value = [] then some 0 else parse_i128 value with
  | none => .error "invalid metadata count"
  | some limit =>
    if limit ≤ 0 then .ok (.metadata USIZE_MAX)
    else if USIZE_MAX < limit.toNat then .error "metadata count too large"
    else .ok (.metadata limit.toNat)

/-- The arms of the token loop. -/
def setting (flag : Char) (value : List Char) : Except String Setting :=
  match flag with
  | 'r' => bare flag value .read
  | 'w' => bare flag value .write
  | 'p' => probability value
  | 'k' | 'M' => block_sizes flag value
  | 'q' => queue value
  | 'Y' => .operation_limit <$> integer value
  | 'R' => .seed <$> integer value
  | 'O' => bare flag value (.passes 1)
  | '=' => bare flag value .alternate
  | 'S' => rate value
  | 'v' => bare flag value (.write_verify false)
  | 'V' => bare flag value (.write_verify true)
  | 'W' => duty value
  | 'T' | 't' => job_duration value
  | 'j' | 'J' => (.workers · (flag = 'J')) <$> integer value
  | 'G' | 'b' => workload_range flag value
  | 's' => sequential value
  | 'P' => positions value
  | 'n' => bare flag value .shuffle
  | 'N' => bare flag value .shift
  | 'X' => .passes <$> integer value
  | 'x' => .range_passes <$> integer value
  | 'm' => metadata value
  | 'u' | 'U' => bare flag value (.unique (flag = 'U'))
  | 'z' => bare flag value .from_zero
  | 'F' => bare flag value .flush
  | _ => unsupported flag value

/-! ## The loop -/

/-- `u8::is_ascii_whitespace`. -/
def is_ascii_whitespace (c : Char) : Bool :=
  c == ' ' || c == '\t' || c == '\n' || c == '\x0c' || c == '\r'

/-- The characters of a value. -/
def in_value (c : Char) : Bool :=
  c.isDigit || c == '.' || c == '-' || c == '+' || c == '_' || c == ':'

/-- The loop of `workload`: blanks are skipped, and each flag takes the value behind it. -/
def read_tokens (t : Tokens) : List Char → Except String Tokens
  | [] => .ok t
  | c :: rest =>
    if is_ascii_whitespace c then read_tokens t rest
    else
      match setting c (rest.takeWhile in_value) with
      | .error e => .error e
      | .ok s => read_tokens (s.apply t) (rest.dropWhile in_value)
termination_by s => s.length
decreasing_by
  · exact Nat.lt_succ_self _
  · exact Nat.lt_succ_of_le (List.dropWhile_suffix in_value).length_le

/-- `workload`. -/
def workload (s : List Char) : Except String Workload :=
  if s.any fun c => 128 ≤ c.toNat then .error "workload syntax must be ASCII"
  else if 4093 < s.length then .error "command too long"
  else
    match read_tokens {} s with
    | .error e => .error e
    | .ok t => t.workload

end stutools.cli
