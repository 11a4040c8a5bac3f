import AerieKernel.PfStateModel

/-!
# Address ranges, expiries and ports

Three computations of `pf` on machine words.  A range of addresses is compared in
the words as they are loaded, so its meaning depends on the order of bytes.  The
expiry of a state is scaled by a product of 32 bits.  The search for a free port
counts in a word of 16 bits, in which no bound is beyond 65535 or below 0.
-/

namespace AerieKernel.PacketFilter

/-! ## Address ranges -/

/-- The number that the first `n` bytes stand for in network byte order. -/
def netValue (bytes : ℕ → BitVec 8) : ℕ → ℕ
  | 0 => 0
  | n + 1 => netValue bytes n * 256 + (bytes n).toNat

/-- The word `i` on a machine with network byte order. -/
def netWord (bytes : ℕ → BitVec 8) (i : ℕ) : ℕ := netValue (fun k => bytes (4 * i + k)) 4

def PfAddr.load (order : ByteOrder) (bytes : ℕ → BitVec 8) : PfAddr :=
  ⟨Vector.ofFn fun i => BitVec.ofNat 32 (match order with
    | .big => netWord bytes i
    | .little => netValue (fun k => bytes (4 * i + (3 - k))) 4)⟩

/-- The number of bytes that are compared. -/
def addrBytes (af : SaFamily) : ℕ :=
  if af = afInet then 4 else if af = afInet6 then 16 else 0

theorem netValue_lt (bytes : ℕ → BitVec 8) (n : ℕ) : netValue bytes n < 256 ^ n := by
  induction n with
  | zero => simp [netValue]
  | succ n ih =>
    rw [netValue, pow_succ]
    omega

theorem netValue_words (bytes : ℕ → BitVec 8) : netValue bytes 16 =
    ((netWord bytes 0 * 2 ^ 32 + netWord bytes 1) * 2 ^ 32 + netWord bytes 2) * 2 ^ 32 +
      netWord bytes 3 := by
  simp only [netValue, netWord, Nat.reduceMul, Nat.reduceAdd]
  omega

theorem toNat_load_big (bytes : ℕ → BitVec 8) (i : ℕ) (hi : i < 4) :
    ((PfAddr.load .big bytes).addr32[i]).toNat = netWord bytes i := by
  simp only [PfAddr.load, Vector.getElem_ofFn, BitVec.toNat_ofNat]
  exact Nat.mod_eq_of_lt (netValue_lt _ 4)

theorem wordsLe_iff (a b : ℕ → BitVec 8) :
    wordsLe (.load .big a) (.load .big b) [0, 1, 2, 3] = true ↔ netValue a 16 ≤ netValue b 16 := by
  have hlt (bytes : ℕ → BitVec 8) (i : ℕ) : netWord bytes i < 2 ^ 32 := netValue_lt _ 4
  have ha₁ := hlt a 1
  have ha₂ := hlt a 2
  have ha₃ := hlt a 3
  have hb₁ := hlt b 1
  have hb₂ := hlt b 2
  have hb₃ := hlt b 3
  simp only [netValue_words, wordsLe, BitVec.lt_def, Fin.getElem_fin, toNat_load_big, Fin.isValue,
    Fin.val_zero, Fin.val_one, Fin.val_two, show ((3 : Fin 4) : ℕ) = 3 from rfl]
  split_ifs <;> simp <;> omega

/-- For addresses in network byte order the result says whether they are in their order. -/
def RangeExact (order : ByteOrder) (af : SaFamily) : Prop :=
  ∀ b e a : ℕ → BitVec 8,
    pfMatchAddrRange (.load order b) (.load order e) (.load order a) af = true ↔
    netValue b (addrBytes af) ≤ netValue a (addrBytes af) ∧
      netValue a (addrBytes af) ≤ netValue e (addrBytes af)

theorem rangeExact_big (af : SaFamily) : RangeExact .big af := by
  intro b e a
  unfold pfMatchAddrRange addrBytes
  split_ifs
  · simp [BitVec.lt_def, toNat_load_big, netWord]
  · rw [Bool.and_eq_true, wordsLe_iff, wordsLe_iff]
  · simp [netValue]

def fourBytes (a b c d : BitVec 8) (i : ℕ) : BitVec 8 := [a, b, c, d].getD i 0

/-- The other order of bytes takes 10.0.0.200 out of the range from 10.0.0.1 to
10.0.1.0. -/
theorem addr_range_swapped :
    pfMatchAddrRange (.load .little (fourBytes 10 0 0 1)) (.load .little (fourBytes 10 0 1 0))
        (.load .little (fourBytes 10 0 0 200)) afInet = false ∧
      netValue (fourBytes 10 0 0 1) 4 ≤ netValue (fourBytes 10 0 0 200) 4 ∧
      netValue (fourBytes 10 0 0 200) 4 ≤ netValue (fourBytes 10 0 1 0) 4 := by
  decide

theorem not_rangeExact_little {af : SaFamily} (haf : af = afInet ∨ af = afInet6) :
    ¬ RangeExact .little af := by
  intro hexact
  have hrange := hexact (fourBytes 10 0 0 1) (fourBytes 10 0 1 0) (fourBytes 10 0 0 200)
  rcases haf with rfl | rfl <;> revert hrange <;> decide +kernel

/-- A range holds the addresses between its bounds on machines with network byte order and
on no others. -/
theorem addr_range_exact (order : ByteOrder) :
    (RangeExact order afInet ↔ order = .big) ∧ (RangeExact order afInet6 ↔ order = .big) := by
  cases order with
  | big => exact ⟨iff_of_true (rangeExact_big _) rfl, iff_of_true (rangeExact_big _) rfl⟩
  | little =>
    exact ⟨iff_of_false (not_rangeExact_little (.inl rfl)) nofun,
      iff_of_false (not_rangeExact_little (.inr rfl)) nofun⟩

/-! ## Expiries -/

/-- What `pf_state_expires` reads of a rule. -/
structure TimeoutRule where
  timeout : Timeout → BitVec 32
  adaptiveStart : BitVec 32
  adaptiveEnd : BitVec 32
  statesCur : BitVec 32

/-- `timeout` after the default has been taken for zero -/
def TimeoutRule.lasts (rule default : TimeoutRule) (timeout : Timeout) : BitVec 32 :=
  if rule.timeout timeout = 0 then default.timeout timeout else rule.timeout timeout

/-- `start`, `end` and `states`; `total` is `pf_status.states`. -/
def TimeoutRule.adaptive (rule default : TimeoutRule) (total : BitVec 32) :
    BitVec 32 × BitVec 32 × BitVec 32 :=
  if rule.adaptiveStart ≠ 0 then (rule.adaptiveStart, rule.adaptiveEnd, rule.statesCur)
  else (default.adaptiveStart, default.adaptiveEnd, total)

def scaledExpiry (expire timeout time start finish states : BitVec 32) : BitVec 32 :=
  if finish ≠ 0 ∧ start < states ∧ start < finish then
    if states < finish then expire + timeout * (finish - states) / (finish - start) else time
  else expire + timeout

/-- `pf_state_expires`; a state that is unlinked fails an assertion. -/
def pfStateExpires (rule default : TimeoutRule) (total time expire : BitVec 32) :
    Timeout → Option (BitVec 32)
  | .purge => some time
  | .untilPacket => some 0
  | .unlinked => none
  | timeout =>
    let (start, finish, states) := rule.adaptive default total
    some (scaledExpiry expire (rule.lasts default timeout) time start finish states)

def Timeout.Counts (timeout : Timeout) : Prop :=
  timeout ≠ .purge ∧ timeout ≠ .untilPacket ∧ timeout ≠ .unlinked

/-- A product that is reduced loses at least one in the quotient. -/
theorem reduced_div_eq_iff (product : ℕ) {divisor : ℕ} (hpos : 0 < divisor)
    (hle : divisor ≤ 2 ^ 32) :
    product % 2 ^ 32 / divisor = product / divisor ↔ product < 2 ^ 32 := by
  constructor
  · intro heq
    by_contra hge
    have hmod : product % 2 ^ 32 + divisor ≤ product := by omega
    have hless := Nat.div_le_div_right (c := divisor) hmod
    rw [Nat.add_div_right _ hpos] at hless
    omega
  · intro hlt
    rw [Nat.mod_eq_of_lt hlt]

section Scaled

variable (expire timeout time start finish states : BitVec 32)

/-- The timeout scaled over the integers, for fewer than `end` states. -/
def exactTimeout : ℕ :=
  if start < states then
    timeout.toNat * (finish.toNat - states.toNat) / (finish.toNat - start.toNat)
  else timeout.toNat

/-- What is expected of the time from `expire` to the expiry. -/
def Scaled (lasts : ℕ) : Prop :=
  lasts ≤ timeout.toNat ∧
    (start < states → states < finish → lasts = exactTimeout timeout start finish states)

/-- The product is not reduced, or the present is not beyond the timeout. -/
def ScalesExactly : Prop :=
  start < states → if states < finish then timeout.toNat * (finish.toNat - states.toNat) < 2 ^ 32
    else (time - expire).toNat ≤ timeout.toNat

variable {expire timeout time start finish states} (horder : start < finish)
include horder

theorem exactTimeout_le : exactTimeout timeout start finish states ≤ timeout.toNat := by
  unfold exactTimeout
  split_ifs with hstart
  · rw [BitVec.lt_def] at *
    apply Nat.div_le_of_le_mul
    rw [mul_comm]
    exact Nat.mul_le_mul_right _ (by omega)
  · exact le_rfl

theorem exactTimeout_antitone {states' : BitVec 32} (hle : states ≤ states') :
    exactTimeout timeout start finish states' ≤ exactTimeout timeout start finish states := by
  by_cases hstart : start < states
  · have hstart' : start < states' := Nat.lt_of_lt_of_le hstart hle
    rw [exactTimeout, if_pos hstart', exactTimeout, if_pos hstart]
    exact Nat.div_le_div_right (Nat.mul_le_mul_left _ (Nat.sub_le_sub_left hle _))
  · rw [exactTimeout.eq_def _ _ _ states, if_neg hstart]
    exact exactTimeout_le horder

/-- The difference of the expiry to `expire`, as it is computed. -/
theorem scaledExpiry_sub :
    (scaledExpiry expire timeout time start finish states - expire).toNat =
      if start < states then
        if states < finish then
          timeout.toNat * (finish.toNat - states.toNat) % 2 ^ 32 / (finish.toNat - start.toNat)
        else (time - expire).toNat
      else timeout.toNat := by
  have hzero : finish ≠ 0 := by
    rintro rfl
    exact absurd horder (by simp)
  unfold scaledExpiry
  by_cases hstart : start < states
  · rw [if_pos ⟨hzero, hstart, BitVec.lt_def.mpr horder⟩, if_pos hstart]
    by_cases hbelow : states < finish
    · rw [if_pos hbelow, if_pos hbelow, add_sub_cancel_left, BitVec.toNat_udiv, BitVec.toNat_mul,
        BitVec.toNat_sub_of_le (BitVec.le_def.mpr hbelow.le),
        BitVec.toNat_sub_of_le (BitVec.le_def.mpr horder.le)]
    · rw [if_neg hbelow, if_neg hbelow]
  · rw [if_neg (fun h => hstart h.2.1), if_neg hstart, add_sub_cancel_left]

theorem scaled_iff :
    Scaled timeout start finish states
        (scaledExpiry expire timeout time start finish states - expire).toNat ↔
      ScalesExactly expire timeout time start finish states := by
  have hle : exactTimeout timeout start finish states ≤ timeout.toNat := exactTimeout_le horder
  rw [Scaled, ScalesExactly, scaledExpiry_sub horder]
  by_cases hstart : start < states
  · by_cases hbelow : states < finish
    · have hpos : 0 < finish.toNat - start.toNat := Nat.sub_pos_of_lt horder
      have hdiv := reduced_div_eq_iff (timeout.toNat * (finish.toNat - states.toNat)) hpos
        (by omega)
      simp only [hstart, hbelow, if_true, forall_const]
      rw [exactTimeout, if_pos hstart] at *
      rw [← hdiv]
      exact ⟨And.right, fun heq => ⟨heq.trans_le hle, heq⟩⟩
    · simp [hstart, hbelow]
  · simp [hstart]

theorem scaledExpiry_eq (hstates : states < finish)
    (hscales : ScalesExactly expire timeout time start finish states) :
    (scaledExpiry expire timeout time start finish states - expire).toNat =
      exactTimeout timeout start finish states := by
  by_cases hstart : start < states
  · exact ((scaled_iff horder).mpr hscales).2 hstart hstates
  · rw [scaledExpiry_sub horder, if_neg hstart, exactTimeout, if_neg hstart]

/-- From `end` states on the expiry is the present. -/
theorem scaledExpiry_present (hstates : ¬ states < finish) :
    (scaledExpiry expire timeout time start finish states - expire).toNat =
      (time - expire).toNat := by
  have hstart : start < states := Nat.lt_of_lt_of_le horder (Nat.not_lt.mp hstates)
  rw [scaledExpiry_sub horder, if_pos hstart, if_neg hstates]

theorem scaled_pair_iff {states' : BitVec 32} (hle : states ≤ states') :
    (Scaled timeout start finish states
        (scaledExpiry expire timeout time start finish states - expire).toNat ∧
      Scaled timeout start finish states'
        (scaledExpiry expire timeout time start finish states' - expire).toNat ∧
      (scaledExpiry expire timeout time start finish states' - expire).toNat ≤
        (scaledExpiry expire timeout time start finish states - expire).toNat) ↔
    ScalesExactly expire timeout time start finish states ∧
      ScalesExactly expire timeout time start finish states' ∧
      (states < finish → ¬ states' < finish →
        (time - expire).toNat ≤ exactTimeout timeout start finish states) := by
  rw [scaled_iff horder, scaled_iff horder]
  refine and_congr_right fun hscales => and_congr_right fun hscales' => ?_
  by_cases hbelow' : states' < finish
  · have hbelow : states < finish := Nat.lt_of_le_of_lt hle hbelow'
    rw [scaledExpiry_eq horder hbelow' hscales', scaledExpiry_eq horder hbelow hscales]
    exact iff_of_true (exactTimeout_antitone horder hle) fun _ h => absurd hbelow' h
  · rw [scaledExpiry_present horder hbelow']
    by_cases hbelow : states < finish
    · rw [scaledExpiry_eq horder hbelow hscales]
      exact ⟨fun h _ _ => h, fun h => h hbelow hbelow'⟩
    · rw [scaledExpiry_present horder hbelow]
      exact iff_of_true le_rfl fun h => absurd h hbelow

end Scaled

/-- The timeout is never extended, scaled exactly, and not longer for more states exactly if no
product is reduced and, from `end` states on, the present is not beyond the scaled timeout. -/
theorem expiry_scales (rule default : TimeoutRule) (total time expire : BitVec 32)
    {timeout : Timeout} (hcounts : timeout.Counts) {start finish states : BitVec 32}
    (hadaptive : rule.adaptive default total = (start, finish, states)) (horder : start < finish)
    (statesCur total' : BitVec 32) {states' : BitVec 32} (hle : states ≤ states')
    (hadaptive' : { rule with statesCur }.adaptive default total' = (start, finish, states')) :
    let lasts := rule.lasts default timeout
    ∃ expiry expiry', pfStateExpires rule default total time expire timeout = some expiry ∧
      pfStateExpires { rule with statesCur } default total' time expire timeout = some expiry' ∧
      (Scaled lasts start finish states (expiry - expire).toNat ∧
          Scaled lasts start finish states' (expiry' - expire).toNat ∧
          (expiry' - expire).toNat ≤ (expiry - expire).toNat ↔
        ScalesExactly expire lasts time start finish states ∧
          ScalesExactly expire lasts time start finish states' ∧
          (states < finish → ¬ states' < finish →
            (time - expire).toNat ≤ exactTimeout lasts start finish states)) := by
  intro lasts
  have hexpires (rule : TimeoutRule) (total : BitVec 32) {states : BitVec 32}
      (h : rule.adaptive default total = (start, finish, states)) :
      pfStateExpires rule default total time expire timeout = some
        (scaledExpiry expire (rule.lasts default timeout) time start finish states) := by
    cases timeout <;> simp_all [pfStateExpires, Timeout.Counts]
  exact ⟨_, _, hexpires rule total hadaptive, hexpires _ total' hadaptive',
    scaled_pair_iff horder hle⟩

def dayRule (start finish states : BitVec 32) : TimeoutRule :=
  ⟨fun _ => 86400, start, finish, states⟩

theorem expiry_scales_day :
    ∃ expiry expiry',
      pfStateExpires (dayRule 6000 12000 9000) (dayRule 0 0 0) 0 0 5 .tcpEstablished = some expiry ∧
      pfStateExpires (dayRule 6000 12000 10000) (dayRule 0 0 0) 0 0 5 .tcpEstablished =
        some expiry' ∧ (expiry' - 5).toNat ≤ (expiry - 5).toNat := by
  obtain ⟨expiry, expiry', hexpiry, hexpiry', hscales⟩ := expiry_scales (dayRule 6000 12000 9000)
    (dayRule 0 0 0) 0 0 5 (⟨nofun, nofun, nofun⟩ : Timeout.Counts .tcpEstablished) rfl (by decide)
    10000 0 (by decide : (9000 : BitVec 32) ≤ 10000) rfl
  refine ⟨expiry, expiry', hexpiry, hexpiry', (hscales.mpr ⟨fun _ => ?_, fun _ => ?_, ?_⟩).2.2⟩
  all_goals decide

/-- The product of a day and 59999 states wraps, so that more states make the expiry
later.  From `end` states on the expiry is the present, long after the timeout. -/
theorem expiry_wraps :
    pfStateExpires (dayRule 60000 120000 60001) (dayRule 0 0 0) 0 0 0 .tcpEstablished = some 14815 ∧
      pfStateExpires (dayRule 60000 120000 70290) (dayRule 0 0 0) 0 0 0 .tcpEstablished =
        some 71582 ∧
      pfStateExpires (dayRule 60000 120000 120000) (dayRule 0 0 0) 0 1000000 0 .tcpEstablished =
        some 1000000 := by
  decide

/-! ## Ports -/

def ipprotoIcmp : BitVec 8 := 1

def ipprotoUdp : BitVec 8 := 17

/-- One of the two loops over ports; there is no result when the fuel does not last. -/
def portLoop (next : BitVec 16 → BitVec 16) (within free : BitVec 16 → Bool) :
    ℕ → BitVec 16 → Option (Option (BitVec 16))
  | 0, _ => none
  | fuel + 1, tmp =>
    if within tmp then
      if free tmp then some (some tmp) else portLoop next within free fuel (next tmp)
    else some none

/-- What the search of `pf_get_sport` for one address depends on: whether
`pf_find_state_all` finds the key with a port, `in_baddynamic`, and what
`arc4random_uniform (1 + high - low)` returns. -/
structure PortEnv where
  order : ByteOrder
  proto : BitVec 8
  busy : BitVec 16 → Bool
  baddynamic : BitVec 16 → Bool
  drawn : BitVec 32

variable (env : PortEnv)

def PortEnv.free (tmp : BitVec 16) : Bool := !env.busy (ntohs env.order tmp) && !env.baddynamic tmp

def PortEnv.cut (low : BitVec 16) : BitVec 16 := env.drawn.setWidth 16 + low

/-- The search in a range, for `low < high`. -/
def rangeSearch (low high : BitVec 16) (fuel : ℕ) : Option (Option (BitVec 16)) :=
  let cut := env.cut low
  let result :=
    match portLoop (· + 1) (· ≤ high) env.free fuel cut with
    | some none => portLoop (· - 1) (low ≤ ·) env.free fuel (cut - 1)
    | result => result
  result.map (·.map (ntohs env.order))

/-- The port that is left in `nport`, or nothing when the address has none. -/
def portSearch (dport nport low high : BitVec 16) (fuel : ℕ) : Option (Option (BitVec 16)) :=
  let (low, high) := if env.proto = ipprotoIcmp then (1, 65535) else (low, high)
  let fixed port := some (if env.busy port then none else some port)
  if env.proto ∉ [ipprotoTcp, ipprotoUdp, ipprotoIcmp] then
    some (if env.busy dport then none else some nport)
  else if low = 0 ∧ high = 0 then fixed nport
  else if low = high then fixed (ntohs env.order low)
  else if high < low then rangeSearch env high low fuel
  else rangeSearch env low high fuel

section Loop

variable {next : BitVec 16 → BitVec 16} {within free : BitVec 16 → Bool} {tmp : BitVec 16}

/-- The loop is left at a port. -/
def Stops (within free : BitVec 16 → Bool) (port : BitVec 16) : Prop :=
  within port = false ∨ free port = true

theorem portLoop_passes {k : ℕ} (hpass : ∀ j < k, ¬ Stops within free (next^[j] tmp)) (fuel : ℕ) :
    portLoop next within free (fuel + k) tmp = portLoop next within free fuel (next^[k] tmp) := by
  induction k generalizing tmp with
  | zero => rfl
  | succ k ih =>
    have hfirst := hpass 0 k.succ_pos
    simp only [Stops, not_or, Bool.not_eq_false, Bool.not_eq_true, Function.iterate_zero, id]
      at hfirst
    rw [← add_assoc, portLoop, if_pos hfirst.1, if_neg (by simp [hfirst.2])]
    exact ih fun j hj => hpass (j + 1) (by omega)

theorem portLoop_forever (hpass : ∀ port, ¬ Stops within free port) (fuel : ℕ) :
    portLoop next within free fuel tmp = none := by
  have hloop := portLoop_passes (fun j (_ : j < fuel) => hpass (next^[j] tmp)) 0
  rwa [zero_add] at hloop

/-- A loop that gets to every port, to `port` in round `round port`, is left at the first port
that lets it. -/
theorem portLoop_first (next : BitVec 16 → BitVec 16) (tmp : BitVec 16) (round : BitVec 16 → ℕ)
    (hround : ∀ port, round port < 2 ^ 16 ∧ next^[round port] tmp = port)
    (hport : ∀ j < 2 ^ 16, round (next^[j] tmp) = j)
    (hstops : ∃ port, Stops within free port) :
    ∃ port, Stops within free port ∧ (∀ port', Stops within free port' → round port ≤ round port') ∧
      ∀ fuel, 2 ^ 16 ≤ fuel →
        portLoop next within free fuel tmp = some (if within port then some port else none) := by
  obtain ⟨port, hstop, hfirst⟩ :=
    exists_minimalFor_of_wellFoundedLT (Stops within free) round hstops
  have hmin : ∀ port', Stops within free port' → round port ≤ round port' := by
    intro port' hstop'
    rcases le_total (round port) (round port') with hle | hle
    · exact hle
    · exact hfirst hstop' hle
  refine ⟨port, hstop, hmin, fun fuel hfuel => ?_⟩
  obtain ⟨hlt, hnext⟩ := hround port
  obtain ⟨m, rfl⟩ := Nat.exists_eq_add_of_lt (hlt.trans_le hfuel)
  have hpass : ∀ j < round port, ¬ Stops within free (next^[j] tmp) := by
    intro j hj hstop'
    have hle := hmin _ hstop'
    rw [hport j (hj.trans hlt)] at hle
    omega
  rw [show round port + m + 1 = m + 1 + round port by omega, portLoop_passes hpass, hnext,
    portLoop]
  rcases hstop with hwithin | hfree
  · simp [hwithin]
  · cases hwithin : within port with simp [hfree]

theorem iterate_up (tmp : BitVec 16) (k : ℕ) : (· + 1)^[k] tmp = tmp + BitVec.ofNat 16 k := by
  induction k with
  | zero => simp
  | succ k ih => rw [Function.iterate_succ_apply', ih, BitVec.ofNat_add, add_assoc]; rfl

theorem iterate_down (tmp : BitVec 16) (k : ℕ) : (· - 1)^[k] tmp = tmp - BitVec.ofNat 16 k := by
  induction k with
  | zero => simp
  | succ k ih => rw [Function.iterate_succ_apply', ih, BitVec.ofNat_add, sub_sub]; rfl

end Loop

theorem portLoop_up (within free : BitVec 16 → Bool) (cut : BitVec 16)
    (hstops : ∃ port, Stops within free port) :
    ∃ port, Stops within free port ∧
      (∀ port', Stops within free port' → (port - cut).toNat ≤ (port' - cut).toNat) ∧
      ∀ fuel, 2 ^ 16 ≤ fuel →
        portLoop (· + 1) within free fuel cut = some (if within port then some port else none) := by
  refine portLoop_first (· + 1) cut (fun port => (port - cut).toNat)
    (fun port => ⟨BitVec.isLt _, ?_⟩) (fun j hj => ?_) hstops
  · rw [iterate_up, BitVec.ofNat_toNat, BitVec.setWidth_eq, add_sub_cancel]
  · rw [iterate_up, add_sub_cancel_left, BitVec.toNat_ofNat, Nat.mod_eq_of_lt hj]

theorem portLoop_down (within free : BitVec 16 → Bool) (cut : BitVec 16)
    (hstops : ∃ port, Stops within free port) :
    ∃ port, Stops within free port ∧
      (∀ port', Stops within free port' → (cut - port).toNat ≤ (cut - port').toNat) ∧
      ∀ fuel, 2 ^ 16 ≤ fuel →
        portLoop (· - 1) within free fuel cut = some (if within port then some port else none) := by
  refine portLoop_first (· - 1) cut (fun port => (cut - port).toNat)
    (fun port => ⟨BitVec.isLt _, ?_⟩) (fun j hj => ?_) hstops
  · rw [iterate_down, BitVec.ofNat_toNat, BitVec.setWidth_eq, sub_sub_cancel]
  · rw [iterate_down, sub_sub_cancel, BitVec.toNat_ofNat, Nat.mod_eq_of_lt hj]

/-- `nport` is a port of the range that is not busy and not a bad one. -/
def PortEnv.Finds (env : PortEnv) (low high nport : BitVec 16) : Prop :=
  (low ≤ ntohs env.order nport ∧ ntohs env.order nport ≤ high) ∧
    env.busy nport = false ∧ env.baddynamic (ntohs env.order nport) = false

/-- Neither bound is an end of the word, or a port of the range is free that is not below the
first one tried or that no free port below the range comes before. -/
def PortEnv.InReach (env : PortEnv) (low high : BitVec 16) : Prop :=
  (0 < low ∧ high < 65535#16) ∨ ∃ port, (low ≤ port ∧ port ≤ high) ∧ env.free port = true ∧
    (env.cut low ≤ port ∨ ∀ below < low, env.free below = false)

/-- The search comes to an end, and what it finds is in the range. -/
def SearchEnds (search : ℕ → Option (Option (BitVec 16))) (finds : BitVec 16 → Prop) : Prop :=
  ∃ result, (∃ enough, ∀ fuel, enough ≤ fuel → search fuel = some result) ∧
    ∀ nport, result = some nport → finds nport

theorem SearchEnds.of_eq {search : ℕ → Option (Option (BitVec 16))} {finds : BitVec 16 → Prop}
    {result : Option (BitVec 16)} (hsearch : ∀ fuel, 2 ^ 16 ≤ fuel → search fuel = some result) :
    SearchEnds search finds ↔ ∀ nport, result = some nport → finds nport := by
  constructor
  · rintro ⟨result', ⟨enough, hends⟩, hfinds⟩
    have heq := (hends _ (le_max_left enough (2 ^ 16))).symm.trans (hsearch _ (le_max_right _ _))
    cases heq
    exact hfinds
  · exact fun hfinds => ⟨result, ⟨_, hsearch⟩, hfinds⟩

theorem not_searchEnds {search : ℕ → Option (Option (BitVec 16))} {finds : BitVec 16 → Prop}
    (hsearch : ∀ fuel, search fuel = none) : ¬ SearchEnds search finds := by
  rintro ⟨result, ⟨enough, hends⟩, -⟩
  cases (hsearch enough).symm.trans (hends enough le_rfl)

theorem ntohs_ntohs (order : ByteOrder) (port : BitVec 16) :
    ntohs order (ntohs order port) = port := by
  cases order with
  | little =>
    simp only [ntohs]
    ext i
    simp
    grind
  | big => rfl

theorem finds_ntohs {env : PortEnv} {low high port : BitVec 16} :
    env.Finds low high (ntohs env.order port) ↔
      (low ≤ port ∧ port ≤ high) ∧ env.free port = true := by
  simp [PortEnv.Finds, PortEnv.free, ntohs_ntohs]

section Range

variable {env : PortEnv} {low high : BitVec 16} (hlt : low.toNat < high.toNat)
  (hdrawn : env.drawn.toNat ≤ high.toNat - low.toNat)

theorem rangeSearch_up {port : BitVec 16} {fuel : ℕ}
    (hup : portLoop (· + 1) (· ≤ high) env.free fuel (env.cut low) =
      some (some port)) : rangeSearch env low high fuel = some (some (ntohs env.order port)) := by
  simp only [rangeSearch]
  rw [hup]
  rfl

theorem rangeSearch_down {fuel : ℕ}
    (hup : portLoop (· + 1) (· ≤ high) env.free fuel (env.cut low) = some none) :
    rangeSearch env low high fuel =
      (portLoop (· - 1) (low ≤ ·) env.free fuel (env.cut low - 1)).map
        (·.map (ntohs env.order)) := by
  simp only [rangeSearch]
  rw [hup]

theorem rangeSearch_forever (hhigh : high = 65535#16) (hfree : ∀ port, env.free port = false)
    (fuel : ℕ) : rangeSearch env low high fuel = none := by
  have hpass : ∀ port, ¬ Stops (· ≤ high) env.free port := by
    intro port hstop
    have hle : port ≤ high := by
      rw [hhigh, BitVec.le_def]
      exact Nat.le_of_lt_succ port.isLt
    simp [Stops, hfree, hle] at hstop
  simp only [rangeSearch]
  rw [portLoop_forever hpass]
  rfl

include hlt hdrawn

theorem cut_bounds : low.toNat ≤ (env.cut low).toNat ∧ (env.cut low).toNat ≤ high.toNat := by
  rw [PortEnv.cut, BitVec.toNat_add, BitVec.toNat_setWidth]
  omega

/-- Up to 65535 the first loop goes round until a port is free. -/
theorem rangeSearch_top (hhigh : high = 65535#16) :
    SearchEnds (rangeSearch env low high) (env.Finds low high) ↔ env.InReach low high := by
  obtain ⟨hcut, hcut'⟩ := cut_bounds hlt hdrawn
  have hwithin : ∀ port : BitVec 16, port ≤ high := by
    intro port
    rw [hhigh, BitVec.le_def]
    exact Nat.le_of_lt_succ port.isLt
  by_cases hfree : ∃ port, env.free port = true
  · obtain ⟨port, hstop, hfirst, hloop⟩ := portLoop_up (· ≤ high) env.free (env.cut low)
      (hfree.imp fun _ => .inr)
    have hport : env.free port = true := by simpa [Stops, hwithin] using hstop
    rw [SearchEnds.of_eq fun fuel hfuel =>
      rangeSearch_up (by simpa [hwithin] using hloop fuel hfuel)]
    simp only [Option.some.injEq, forall_eq', finds_ntohs, hport, hwithin, and_true,
      PortEnv.InReach]
    constructor
    · intro hle
      refine .inr ⟨port, hle, hport, ?_⟩
      by_contra! hlater
      obtain ⟨hless, below, hbelow, hfreeBelow⟩ := hlater
      have hearlier := hfirst below (.inr (by simpa using hfreeBelow))
      simp only [BitVec.toNat_sub, BitVec.le_def, BitVec.lt_def] at *
      omega
    · rintro (⟨-, hless⟩ | ⟨port', hle, hfree', hreach⟩)
      · simp [hhigh] at hless
      · by_contra hbelow
        have hearlier := hfirst port' (.inr hfree')
        rcases hreach with hreach | hnone
        · simp only [BitVec.toNat_sub, BitVec.le_def] at *
          omega
        · rw [hnone port (by simpa using hbelow)] at hport
          cases hport
  · refine iff_of_false (not_searchEnds (rangeSearch_forever hhigh (by simpa using hfree))) ?_
    · rintro (⟨-, hless⟩ | ⟨port, -, hport, -⟩)
      · simp [hhigh] at hless
      · exact hfree ⟨port, hport⟩

section Down

variable (hdown : ∀ fuel, 2 ^ 16 ≤ fuel → rangeSearch env low high fuel =
    (portLoop (· - 1) (low ≤ ·) env.free fuel (env.cut low - 1)).map (·.map (ntohs env.order)))
include hdown

/-- From 0 on the second loop goes round until a port is free. -/
theorem rangeSearch_bottom
    (hnone : ∀ port, env.free port = true → port ≤ high → port < env.cut low) (hlow : low = 0) :
    SearchEnds (rangeSearch env low high) (env.Finds low high) ↔ env.InReach low high := by
  obtain ⟨hcut, hcut'⟩ := cut_bounds hlt hdrawn
  have hwithin : ∀ tmp : BitVec 16, low ≤ tmp := by
    intro tmp
    rw [BitVec.le_def, hlow]
    exact tmp.toNat.zero_le
  by_cases hfree : ∃ port, env.free port = true
  · obtain ⟨port, hstop, hfirst, hloop⟩ :=
      portLoop_down (low ≤ ·) env.free (env.cut low - 1) (hfree.imp fun _ => .inr)
    have hport : env.free port = true := by simpa [Stops, hwithin] using hstop
    rw [SearchEnds.of_eq fun fuel hfuel => by rw [hdown fuel hfuel, hloop fuel hfuel]; rfl]
    simp only [hwithin, decide_true, if_true, Option.map_some, Option.some.injEq, forall_eq',
      finds_ntohs, hport, and_true, true_and]
    constructor
    · intro hle
      exact .inr ⟨port, ⟨hwithin _, hle⟩, hport, .inr fun below h => by simp [hlow] at h⟩
    · rintro (⟨hpos, -⟩ | ⟨port', ⟨-, hle⟩, hfree', -⟩)
      · simp [hlow] at hpos
      · have hone : (1 : BitVec 16).toNat = 1 := rfl
        have hearlier := hfirst port' (.inr hfree')
        have hless := hnone port' hfree' hle
        simp only [BitVec.toNat_sub, hone, BitVec.lt_def, BitVec.le_def] at *
        omega
  · refine iff_of_false (fun ⟨result, ⟨enough, hends⟩, _⟩ => ?_) ?_
    · have hsome := hends _ (le_max_left enough (2 ^ 16))
      rw [hdown _ (le_max_right _ _),
        portLoop_forever (by simpa [Stops, hwithin] using hfree)] at hsome
      cases hsome
    · rintro (⟨hpos, -⟩ | ⟨port, -, hport, -⟩)
      · simp [hlow] at hpos
      · exact hfree ⟨port, hport⟩

/-- Above 0 the second loop ends before the range at the latest. -/
theorem rangeSearch_above (hhigh : high.toNat < 65535) (hlow : low ≠ 0) :
    SearchEnds (rangeSearch env low high) (env.Finds low high) ↔ env.InReach low high := by
  obtain ⟨hcut, hcut'⟩ := cut_bounds hlt hdrawn
  have hone : (1 : BitVec 16).toNat = 1 := rfl
  have hpos : 0 < low.toNat := Nat.pos_of_ne_zero fun h => hlow (BitVec.eq_of_toNat_eq h)
  have hbefore : Stops (low ≤ ·) env.free (low - 1) := by
    left
    rw [decide_eq_false_iff_not, BitVec.le_def, BitVec.toNat_sub, hone]
    omega
  obtain ⟨port, hstop, hfirst, hloop⟩ :=
    portLoop_down (low ≤ ·) env.free (env.cut low - 1) ⟨_, hbefore⟩
  have hlast := hfirst (low - 1) hbefore
  simp only [BitVec.toNat_sub, hone] at hlast
  rw [SearchEnds.of_eq fun fuel hfuel => by rw [hdown fuel hfuel, hloop fuel hfuel]; rfl]
  refine iff_of_true ?_ (.inl ⟨BitVec.lt_def.mpr hpos, BitVec.lt_def.mpr hhigh⟩)
  intro nport hnport
  by_cases hle : low ≤ port
  · have hfree : env.free port = true := by simpa [Stops, hle] using hstop
    simp only [hle, decide_true, if_true, Option.map_some, Option.some.injEq] at hnport
    rw [← hnport, finds_ntohs]
    refine ⟨⟨hle, ?_⟩, hfree⟩
    rw [BitVec.le_def] at *
    omega
  · simp [hle] at hnport

end Down

/-- Below 65535 the first loop ends, and the second one does unless the range starts at 0. -/
theorem rangeSearch_below (hhigh : high.toNat < 65535) :
    SearchEnds (rangeSearch env low high) (env.Finds low high) ↔ env.InReach low high := by
  obtain ⟨hcut, hcut'⟩ := cut_bounds hlt hdrawn
  have hone : (1 : BitVec 16).toNat = 1 := rfl
  have hbeyond : Stops (· ≤ high) env.free (high + 1) := by
    left
    rw [decide_eq_false_iff_not, BitVec.le_def, BitVec.toNat_add, hone]
    omega
  obtain ⟨port, hstop, hfirst, hloop⟩ := portLoop_up (· ≤ high) env.free (env.cut low) ⟨_, hbeyond⟩
  have hlast := hfirst (high + 1) hbeyond
  rw [BitVec.toNat_sub, BitVec.toNat_sub, BitVec.toNat_add, hone] at hlast
  by_cases hport : port ≤ high
  · have hfree : env.free port = true := by simpa [Stops, hport] using hstop
    have hge : env.cut low ≤ port := by
      rw [BitVec.le_def] at *
      omega
    have hle : low ≤ port := hcut.trans hge
    rw [SearchEnds.of_eq fun fuel hfuel => rangeSearch_up (by simpa [hport] using hloop fuel hfuel)]
    simp only [Option.some.injEq, forall_eq', finds_ntohs, PortEnv.InReach]
    exact iff_of_true ⟨⟨hle, hport⟩, hfree⟩ (.inr ⟨port, ⟨hle, hport⟩, hfree, .inl hge⟩)
  -- no port from the first one tried on is free
  have hnone : ∀ port', env.free port' = true → port' ≤ high → port' < env.cut low := by
    intro port' hfree' hle'
    have hearlier := hfirst port' (.inr hfree')
    rw [BitVec.toNat_sub, BitVec.toNat_sub] at hearlier
    rw [BitVec.le_def] at hport hle'
    rw [BitVec.lt_def]
    omega
  have hdown : ∀ fuel, 2 ^ 16 ≤ fuel → rangeSearch env low high fuel =
      (portLoop (· - 1) (low ≤ ·) env.free fuel (env.cut low - 1)).map (·.map (ntohs env.order)) :=
    fun fuel hfuel => rangeSearch_down (by simpa [hport] using hloop fuel hfuel)
  by_cases hlow : low = 0
  · exact rangeSearch_bottom hlt hdrawn hdown hnone hlow
  · exact rangeSearch_above hlt hdrawn hdown hhigh hlow

end Range

/-- The bounds of the range in their order. -/
def PortEnv.range (env : PortEnv) (low high : BitVec 16) : BitVec 16 × BitVec 16 :=
  if env.proto = ipprotoIcmp then (1, 65535) else if high < low then (high, low) else (low, high)

/-- Ports of a range are looked for. -/
def PortEnv.Searches (env : PortEnv) (low high : BitVec 16) : Prop :=
  env.proto ∈ [ipprotoTcp, ipprotoUdp, ipprotoIcmp] ∧ low ≠ high

section Search

variable {env : PortEnv} {low high low' high' : BitVec 16}
  (hrange : env.range low high = (low', high')) (dport nport : BitVec 16)
include hrange

theorem portSearch_range (hsearches : env.Searches low' high') (fuel : ℕ) :
    portSearch env dport nport low high fuel = rangeSearch env low' high' fuel := by
  obtain ⟨hproto, hne⟩ := hsearches
  unfold PortEnv.range at hrange
  simp only [portSearch, hproto, not_true_eq_false, if_false]
  by_cases hicmp : env.proto = ipprotoIcmp
  · rw [if_pos hicmp] at hrange ⊢
    cases hrange
    simp
  · rw [if_neg hicmp] at hrange ⊢
    have hbounds : low ≠ high := by
      rintro rfl
      rw [ite_self] at hrange
      cases hrange
      exact hne rfl
    have hzero : ¬ (low = 0 ∧ high = 0) := fun h => hbounds (h.1.trans h.2.symm)
    simp only [hzero, hbounds, if_false]
    split_ifs at hrange ⊢ <;> cases hrange <;> rfl

theorem portSearch_lt (hne : low' ≠ high') : low'.toNat < high'.toNat := by
  unfold PortEnv.range at hrange
  split_ifs at hrange with hicmp hswap <;> cases hrange
  · decide
  · exact hswap
  · exact lt_of_le_of_ne (Nat.not_lt.mp hswap) (BitVec.toNat_ne.mp hne)

theorem portSearch_fixed (hsearches : ¬ env.Searches low' high') :
    ∃ result, ∀ fuel, portSearch env dport nport low high fuel = some result := by
  unfold PortEnv.range at hrange
  simp only [portSearch]
  by_cases hproto : env.proto ∈ [ipprotoTcp, ipprotoUdp, ipprotoIcmp]
  · have heq : low' = high' := by
      by_contra hne
      exact hsearches ⟨hproto, hne⟩
    have hicmp : env.proto ≠ ipprotoIcmp := by
      intro hicmp
      rw [if_pos hicmp] at hrange
      cases hrange
      exact absurd heq (by decide)
    rw [if_neg hicmp] at hrange ⊢
    have hbounds : low = high := by
      split_ifs at hrange <;> cases hrange
      · exact heq.symm
      · exact heq
    simp only [hproto, not_true_eq_false, hbounds, if_true, if_false]
    split_ifs <;> exact ⟨_, fun _ => rfl⟩
  · simp only [hproto, not_false_eq_true, if_true]
    exact ⟨_, fun _ => rfl⟩

end Search

/-- The search for a port ends, and a port that it finds in a range is one of the range, not
busy and not a bad one, exactly if no range is searched, or neither of its bounds is an end of
the word, or one of its ports is free and comes before the free ports below the range. -/
theorem port_search_ends (env : PortEnv) (dport nport : BitVec 16)
    {low high low' high' : BitVec 16} (hrange : env.range low high = (low', high'))
    (hdrawn : env.Searches low' high' → env.drawn.toNat ≤ high'.toNat - low'.toNat) :
    SearchEnds (portSearch env dport nport low high)
        (fun nport' => env.Searches low' high' → env.Finds low' high' nport') ↔
      (env.Searches low' high' → env.InReach low' high') := by
  by_cases hsearches : env.Searches low' high'
  · have hlt := portSearch_lt hrange hsearches.2
    have hsearch := funext (portSearch_range hrange dport nport hsearches)
    simp only [hsearch, hsearches, forall_const]
    by_cases hhigh : high'.toNat = 65535
    · exact rangeSearch_top hlt (hdrawn hsearches) (BitVec.eq_of_toNat_eq hhigh)
    · exact rangeSearch_below hlt (hdrawn hsearches) (by omega)
  · obtain ⟨result, hresult⟩ := portSearch_fixed hrange dport nport hsearches
    refine iff_of_true ⟨result, ⟨0, fun fuel _ => hresult fuel⟩, fun _ _ h => ?_⟩ fun h => ?_
    · exact absurd h hsearches
    · exact absurd h hsearches

theorem port_search_ends_udp :
    SearchEnds (portSearch ⟨.little, ipprotoUdp, (· == 0x51c3), fun _ => false, 7⟩ 53 0 65000 50001)
      fun nport =>
        PortEnv.Searches ⟨.little, ipprotoUdp, (· == 0x51c3), fun _ => false, 7⟩ 50001 65000 →
        PortEnv.Finds ⟨.little, ipprotoUdp, (· == 0x51c3), fun _ => false, 7⟩ 50001 65000 nport :=
  (port_search_ends _ 53 0 rfl fun _ => by decide).mpr fun _ => .inl (by decide)

/-- For ICMP the range goes up to 65535.  When all of it is busy the search does not end,
and when 0 is free it is taken although it is below the range. -/
theorem port_search_wraps :
    (∀ fuel, portSearch ⟨.big, ipprotoIcmp, fun _ => true, fun _ => false, 0⟩ 0 0 0 0 fuel = none) ∧
    portSearch ⟨.big, ipprotoIcmp, (· != 0), fun _ => false, 65534⟩ 0 0 0 0 3 = some (some 0) := by
  refine ⟨fun fuel => ?_, by decide⟩
  rw [portSearch_range rfl 0 0 ⟨by decide, by decide⟩]
  exact rangeSearch_forever rfl (fun port => by simp [PortEnv.free]) fuel

end AerieKernel.PacketFilter
