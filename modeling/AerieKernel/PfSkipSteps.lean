import AerieKernel.PfRuleModel

/-!
# Skip steps

`pf_calc_skip_steps` writes, for each of the eight tests and each rule, the
rule to go on with if the test fails.  It goes over the list once and keeps for
each test the first rule that has no skip step yet; when a rule differs from
the one before it in what the test reads, all rules from there on get it as
their skip step.  All rules between a rule and its skip step then agree with
it on what the test reads, and a rule that agrees with one that fails a test
fails a test as well.

A rule of a list is given by its index, and the length of the list stands for
the null pointer behind the last rule.
-/

namespace AerieKernel.PacketFilter

open List PfRuleAddr PfidFamily

/-! ## The computation -/

def PfRuleAddr.addrDiffers (cur prev : PfRuleAddr) : Bool :=
  cur.neg != prev.neg || pfAddrWrapNeq cur.addr prev.addr

def PfRuleAddr.portDiffers (cur prev : PfRuleAddr) : Bool :=
  cur.port.1 != prev.port.1 || cur.port.2 != prev.port.2 || cur.portOp != prev.portOp

/-- The condition under which `pf_calc_skip_steps` ends the chain of a
test. -/
def Skip.differs (cur prev : PfRule) : Skip → Bool
  | .ifp => cur.kif != prev.kif || cur.ifnot != prev.ifnot
  | .dir => cur.direction != prev.direction
  | .af => cur.af != prev.af
  | .proto => cur.proto != prev.proto
  | .srcAddr => cur.src.addrDiffers prev.src
  | .srcPort => cur.src.portDiffers prev.src
  | .dstAddr => cur.dst.addrDiffers prev.dst
  | .dstPort => cur.dst.portDiffers prev.dst

structure Chain where
  head : ℕ
  skip : ℕ → ℕ

def Chain.setSkipStep (cur : ℕ) (chain : Chain) : Chain where
  head := chain.head + 1
  skip := Function.update chain.skip chain.head cur

/-- `PF_SET_SKIP_STEPS`.  The head is never behind the current rule, so the
loop ends after as many rounds as there are rules between them. -/
def Chain.setSkipSteps (cur : ℕ) (chain : Chain) : Chain :=
  (Chain.setSkipStep cur)^[cur - chain.head] chain

/-- The loop of `pf_calc_skip_steps` from the rule with index `cur` on.  Each
of the eight statements of its body is about the chain of one test. -/
def skipStepsLoop : List PfRule → ℕ → PfRule → (Skip → Chain) → Skip → Chain
  | [], _, _, chains => chains
  | rule :: rest, cur, prev, chains =>
    skipStepsLoop rest (cur + 1) rule fun step =>
      if step.differs rule prev then (chains step).setSkipSteps cur
      else chains step

/-- `pf_calc_skip_steps` for a list whose skip steps are `skip` before. -/
def pfCalcSkipSteps (rules : List PfRule) (skip : ℕ → Skip → ℕ) : ℕ → Skip → ℕ :=
  match rules with
  | [] => skip
  | first :: _ =>
    let chains := skipStepsLoop rules 0 first fun step =>
      { head := 0, skip := fun i => skip i step }
    fun i step => ((chains step).setSkipSteps rules.length).skip i

/-! ## What lies between a rule and its skip step -/

def Alike (rules : List PfRule) (step : Skip) (first last : ℕ) : Prop :=
  ∀ i prev cur, first ≤ i → i + 1 < last → rules[i]? = some prev →
    rules[i + 1]? = some cur → step.differs cur prev = false

def GoodSkip (rules : List PfRule) (step : Skip) (i last : ℕ) : Prop :=
  i < last ∧ last ≤ rules.length ∧ Alike rules step i last

structure Chain.Sound (rules : List PfRule) (step : Skip) (cur : ℕ) (chain : Chain) : Prop where
  head_le : chain.head ≤ cur
  open_alike : Alike rules step chain.head cur
  closed : ∀ i, i < chain.head → GoodSkip rules step i (chain.skip i)

variable {rules : List PfRule} {step : Skip}

theorem Alike.mono {first first' last : ℕ} (halike : Alike rules step first last)
    (hfirst : first ≤ first') : Alike rules step first' last := by
  intro i prev cur hi
  exact halike i prev cur (hfirst.trans hi)

variable {cur : ℕ}

theorem Alike.snoc {first : ℕ} {rule prev : PfRule} (halike : Alike rules step first cur)
    (hprev : ∀ i, i + 1 = cur → rules[i]? = some prev) (hrule : rules[cur]? = some rule)
    (hsame : step.differs rule prev = false) : Alike rules step first (cur + 1) := by
  intro i prev' cur' hi hlt hprev' hcur'
  by_cases hlast : i + 1 = cur
  · rw [hlast, hrule] at hcur'
    rw [hprev i hlast] at hprev'
    cases hcur'
    cases hprev'
    exact hsame
  · exact halike i prev' cur' hi (by omega) hprev' hcur'

theorem setSkipStep_iterate (cur count : ℕ) (chain : Chain) :
    ((Chain.setSkipStep cur)^[count] chain).head = chain.head + count ∧
      ∀ i, ((Chain.setSkipStep cur)^[count] chain).skip i =
        if chain.head ≤ i ∧ i < chain.head + count then cur
        else chain.skip i := by
  induction count generalizing chain with
  | zero => simp
  | succ count ih =>
    obtain ⟨hhead, hskip⟩ := ih (chain.setSkipStep cur)
    rw [Function.iterate_succ_apply]
    constructor
    · rw [hhead]
      simp only [Chain.setSkipStep]
      omega
    · intro i
      simp only [Chain.setSkipStep]
      grind

theorem Chain.Sound.setSkipSteps {chain : Chain} (hsound : chain.Sound rules step cur)
    (hcur : cur ≤ rules.length) :
    (chain.setSkipSteps cur).head = cur ∧
      ∀ i, i < cur → GoodSkip rules step i ((chain.setSkipSteps cur).skip i) := by
  obtain ⟨hhead, hskip⟩ := setSkipStep_iterate cur (cur - chain.head) chain
  have hle := hsound.head_le
  have hend : chain.head + (cur - chain.head) = cur := by omega
  rw [hend] at hhead hskip
  refine ⟨hhead, fun i hi => ?_⟩
  rw [Chain.setSkipSteps, hskip]
  split_ifs with hopen
  · exact ⟨hi, hcur, hsound.open_alike.mono hopen.1⟩
  · exact hsound.closed i (by omega)

theorem Chain.Sound.round {chain : Chain} {rule prev : PfRule} (hsound : chain.Sound rules step cur)
    (hprev : ∀ i, i + 1 = cur → rules[i]? = some prev) (hrule : rules[cur]? = some rule) :
    (if step.differs rule prev then chain.setSkipSteps cur
      else chain).Sound rules step (cur + 1) := by
  obtain ⟨hcur, _⟩ := List.getElem?_eq_some_iff.mp hrule
  split_ifs with hdiffers
  · obtain ⟨hhead, hclosed⟩ := hsound.setSkipSteps hcur.le
    constructor
    · omega
    · rw [hhead]
      intro j prev cur' hj hlt
      omega
    · rw [hhead]
      exact hclosed
  · constructor
    · have hle := hsound.head_le
      omega
    · exact hsound.open_alike.snoc hprev hrule (by simpa using hdiffers)
    · exact hsound.closed

theorem skipStepsLoop_sound {rest : List PfRule} {prev : PfRule} {chains : Skip → Chain}
    (hrest : rules.drop cur = rest) (hprev : ∀ i, i + 1 = cur → rules[i]? = some prev)
    (hsound : ∀ step, (chains step).Sound rules step cur)
    (hcur : cur ≤ rules.length) (step : Skip) :
    (skipStepsLoop rest cur prev chains step).Sound rules step
      rules.length := by
  induction rest generalizing cur prev chains with
  | nil =>
    have hlen : cur = rules.length := by
      have := drop_eq_nil_iff.mp hrest
      omega
    rw [← hlen]
    exact hsound step
  | cons rule rest ih =>
    have hrule : rules[cur]? = some rule := by
      rw [← head?_drop, hrest, head?_cons]
    obtain ⟨hlt, _⟩ := List.getElem?_eq_some_iff.mp hrule
    apply ih
    · rw [← tail_drop, hrest, tail_cons]
    · intro i hi
      rw [show i = cur by omega]
      exact hrule
    · exact fun step => (hsound step).round hprev hrule
    · omega

theorem pfCalcSkipSteps_good (rules : List PfRule) (skip : ℕ → Skip → ℕ) (step : Skip) {i : ℕ}
    (hi : i < rules.length) : GoodSkip rules step i (pfCalcSkipSteps rules skip i step) := by
  cases rules with
  | nil => simp at hi
  | cons first rest =>
    have hstart : ∀ step, Chain.Sound (first :: rest) step 0
        { head := 0, skip := fun i => skip i step } := by
      intro step
      constructor
      · exact le_rfl
      · intro i prev cur _ hlt
        omega
      · intro i hlt
        exact absurd hlt (Nat.not_lt_zero i)
    have hprev : ∀ i, i + 1 = 0 → (first :: rest)[i]? = some first := by
      intro i hi
      omega
    have hsound := skipStepsLoop_sound rfl hprev hstart (Nat.zero_le _) step
    exact (hsound.setSkipSteps le_rfl).2 i hi

/-! ## Rules that agree on what a test reads -/

theorem pfAneq_zero_eq_false_iff {a b : PfAddr} : pfAneq a b 0#8 = false ↔ a = b := by
  constructor
  · intro heq
    obtain ⟨a⟩ := a
    simp only [pfAneq, Bool.or_eq_false_iff, bne_eq_false_iff_eq] at heq
    obtain ⟨_, ⟨⟨h3, h2⟩, h1⟩, h0⟩ := heq
    congr 1
    apply Vector.ext
    intro i hi
    interval_cases i <;> assumption
  · rintro rfl
    simp [pfAneq]

/-- Addresses that `pf_addr_wrap_neq` takes for equal are equal, but for what
interface addresses keep of their common table. -/
theorem pfAddrWrapNeq_cases {aw aw' : PfAddrWrap} (hsame : pfAddrWrapNeq aw aw' = false) :
    aw = aw' ∨ ∃ dyn dyn', aw = .dyniftl dyn ∧ aw' = .dyniftl dyn' ∧ dyn.kt = dyn'.kt := by
  cases aw <;> cases aw' <;>
    simp_all [pfAddrWrapNeq, pfAneq_zero_eq_false_iff]

theorem pfAddrWrapNeq_trans {aw1 aw2 aw3 : PfAddrWrap} (h12 : pfAddrWrapNeq aw2 aw1 = false)
    (h23 : pfAddrWrapNeq aw3 aw2 = false) : pfAddrWrapNeq aw3 aw1 = false := by
  rcases pfAddrWrapNeq_cases h12 with rfl | ⟨dyn2, dyn1, rfl, rfl, hkt12⟩
  · exact h23
  · rcases pfAddrWrapNeq_cases h23 with rfl | ⟨dyn3, _, rfl, heq, hkt23⟩
    · exact h12
    · cases heq
      simp [pfAddrWrapNeq, hkt23, hkt12]

theorem PfRuleAddr.addrDiffers_trans {ra1 ra2 ra3 : PfRuleAddr} (h12 : ra2.addrDiffers ra1 = false)
    (h23 : ra3.addrDiffers ra2 = false) : ra3.addrDiffers ra1 = false := by
  simp only [addrDiffers, Bool.or_eq_false_iff, bne_eq_false_iff_eq] at h12 h23 ⊢
  exact ⟨h23.1.trans h12.1, pfAddrWrapNeq_trans h12.2 h23.2⟩

theorem Skip.differs_trans {rule1 rule2 rule3 : PfRule} (h12 : step.differs rule2 rule1 = false)
    (h23 : step.differs rule3 rule2 = false) : step.differs rule3 rule1 = false := by
  cases step
  case srcAddr => exact addrDiffers_trans h12 h23
  case dstAddr => exact addrDiffers_trans h12 h23
  all_goals simp_all [Skip.differs, portDiffers]

theorem Alike.differs_eq_false {first last : ℕ} (halike : Alike rules step first last) {i : ℕ}
    {rule rule' : PfRule} (hi : first < i) (hlast : i < last) (hrule : rules[first]? = some rule)
    (hrule' : rules[i]? = some rule') : step.differs rule' rule = false := by
  induction i, hi using Nat.le_induction generalizing rule' with
  | base => exact halike first rule rule' le_rfl hlast hrule hrule'
  | succ i hi ih =>
    obtain ⟨hlt, _⟩ := List.getElem?_eq_some_iff.mp hrule'
    have hprev : rules[i]? = some rules[i] := getElem?_eq_getElem (by omega)
    have hsame := ih (by omega) hprev
    exact Skip.differs_trans hsame (halike i _ rule' (by omega) hlast hprev hrule')

/-! ## What interface addresses keep of their tables -/

theorem walktree_foldl (entries : List PfrKentry) (pfid : PfidFamily) (hzero : pfid.acnt = 0) :
    (entries.foldl walktree pfid).acnt = entries.length ∧ ∀ ke ∈ entries.head?,
        (entries.foldl walktree pfid).addr = ke.sa ∧
        (entries.foldl walktree pfid).mask = ke.mask := by
  induction entries using List.reverseRecOn with
  | nil => simp [hzero]
  | append_singleton front last ih =>
    obtain ⟨hacnt, hfirst⟩ := ih
    rw [foldl_append, foldl_cons, walktree, hacnt]
    cases front with
    | nil => simp
    | cons ke front =>
      simpa using hfirst

theorem PfidFamily.matches_eq {pfid pfid' : PfidFamily} {entries : List PfrKentry}
    {ruleAf ruleAf' af : SaFamily} (hpfid : pfid.update entries ruleAf af = pfid)
    (hpfid' : pfid'.update entries ruleAf' af = pfid') (haf : ruleAf = 0 ∨ ruleAf = af)
    (haf' : ruleAf' = 0 ∨ ruleAf' = af) (env : Lookups) (kt : Ktable) (a : PfAddr) :
    pfid.matches env kt a af = pfid'.matches env kt a af := by
  rw [PfidFamily.update, if_pos haf] at hpfid
  rw [PfidFamily.update, if_pos haf'] at hpfid'
  obtain ⟨hacnt, hfirst⟩ := walktree_foldl entries { pfid with acnt := 0 } rfl
  obtain ⟨hacnt', hfirst'⟩ := walktree_foldl entries { pfid' with acnt := 0 } rfl
  rw [hpfid] at hacnt hfirst
  rw [hpfid'] at hacnt' hfirst'
  match entries with
  | [] => simp [PfidFamily.matches, hacnt, hacnt']
  | [ke] => simp [PfidFamily.matches, hacnt, hacnt', hfirst, hfirst']
  | _ :: _ :: _ => simp [PfidFamily.matches, hacnt, hacnt']

/-- The interface addresses of a rule are for the family of the rule and hold
what `pfr_dynaddr_update` makes of their tables. -/
def PfRule.Current (tables : Ktable → KtableEntries) (rule : PfRule) : Prop :=
  ∀ dyn, rule.src.addr = .dyniftl dyn ∨ rule.dst.addr = .dyniftl dyn →
    pfrDynaddrUpdate (tables dyn.kt) dyn = dyn ∧ dyn.af = rule.af

theorem pfiMatchAddr_eq {tables : Ktable → KtableEntries} {dyn dyn' : PfiDynaddr} {af : SaFamily}
    (hkt : dyn.kt = dyn'.kt) (hcurrent : pfrDynaddrUpdate (tables dyn.kt) dyn = dyn)
    (hcurrent' : pfrDynaddrUpdate (tables dyn'.kt) dyn' = dyn') (haf : dyn.af = 0 ∨ dyn.af = af)
    (haf' : dyn'.af = 0 ∨ dyn'.af = af) (env : Lookups) (a : PfAddr) :
    pfiMatchAddr env dyn a af = pfiMatchAddr env dyn' a af := by
  rw [← hkt] at hcurrent'
  simp only [pfiMatchAddr, ← hkt]
  split_ifs with hinet hinet6
  · subst hinet
    exact matches_eq (congrArg PfiDynaddr.inet hcurrent)
      (congrArg PfiDynaddr.inet hcurrent') haf haf' env dyn.kt a
  · subst hinet6
    exact matches_eq (congrArg PfiDynaddr.inet6 hcurrent)
      (congrArg PfiDynaddr.inet6 hcurrent') haf haf' env dyn.kt a
  · rfl

/-! ## A failed test is one for all rules up to the skip step -/

section Transfer

variable {env : Lookups} {pd : PfPdesc} {tables : Ktable → KtableEntries}
  {rule rule' : PfRule}

theorem PfRuleAddr.addrFails_eq {ra ra' : PfRuleAddr} (hsame : ra'.addrDiffers ra = false)
    (hdyn : ∀ dyn, ra.addr = .dyniftl dyn →
      pfrDynaddrUpdate (tables dyn.kt) dyn = dyn ∧ (dyn.af = 0 ∨ dyn.af = pd.af))
    (hdyn' : ∀ dyn, ra'.addr = .dyniftl dyn →
      pfrDynaddrUpdate (tables dyn.kt) dyn = dyn ∧ (dyn.af = 0 ∨ dyn.af = pd.af)) (x : PfAddr)
    (ifp : Option Kif) : ra'.addrFails env x pd.af ifp = ra.addrFails env x pd.af ifp := by
  simp only [addrDiffers, Bool.or_eq_false_iff, bne_eq_false_iff_eq] at hsame
  obtain ⟨hneg, haddr⟩ := hsame
  simp only [addrFails, hneg]
  rcases pfAddrWrapNeq_cases haddr with heq | ⟨dyn', dyn, heq', heq, hkt⟩
  · rw [heq]
  · obtain ⟨hcurrent, haf⟩ := hdyn dyn heq
    obtain ⟨hcurrent', haf'⟩ := hdyn' dyn' heq'
    simp only [heq, heq', pfMismatchaw, PfAddrWrap.fails,
      pfiMatchAddr_eq hkt hcurrent' hcurrent haf' haf env x]

theorem PfRuleAddr.portFails_eq {ra ra' : PfRuleAddr} (hsame : ra'.portDiffers ra = false)
    (port : BitVec 16) : ra'.portFails env port = ra.portFails env port := by
  simp only [portDiffers, Bool.or_eq_false_iff, bne_eq_false_iff_eq] at hsame
  simp only [portFails, hsame]

theorem PfRule.Current.dyn (hcurrent : rule.Current tables) (haf : rule.fails env pd .af = false)
    (dyn : PfiDynaddr) (haddr : rule.src.addr = .dyniftl dyn ∨ rule.dst.addr = .dyniftl dyn) :
    pfrDynaddrUpdate (tables dyn.kt) dyn = dyn ∧ (dyn.af = 0 ∨ dyn.af = pd.af) := by
  obtain ⟨hupdate, hfamily⟩ := hcurrent dyn haddr
  rw [hfamily]
  exact ⟨hupdate, by simpa [PfRule.fails, or_iff_not_imp_left] using haf⟩

section Both

variable (hcurrent : rule.Current tables) (hcurrent' : rule'.Current tables)
  (haf : rule.fails env pd .af = false)
  (haf' : rule'.fails env pd .af = false)

include hcurrent hcurrent' haf haf'

theorem src_addrFails_eq (hsame : rule'.src.addrDiffers rule.src = false)
    (x : PfAddr) (ifp : Option Kif) :
    rule'.src.addrFails env x pd.af ifp = rule.src.addrFails env x pd.af ifp := by
  apply addrFails_eq hsame
  · exact fun dyn haddr => hcurrent.dyn haf dyn (.inl haddr)
  · exact fun dyn haddr => hcurrent'.dyn haf' dyn (.inl haddr)

theorem dst_addrFails_eq (hsame : rule'.dst.addrDiffers rule.dst = false)
    (x : PfAddr) (ifp : Option Kif) :
    rule'.dst.addrFails env x pd.af ifp = rule.dst.addrFails env x pd.af ifp := by
  apply addrFails_eq hsame
  · exact fun dyn haddr => hcurrent.dyn haf dyn (.inr haddr)
  · exact fun dyn haddr => hcurrent'.dyn haf' dyn (.inr haddr)

end Both

theorem fails_eq_of_same (hsame : step.differs rule' rule = false)
    (hstep : step ∈ [Skip.ifp, .dir, .af, .proto]) :
    rule'.fails env pd step = rule.fails env pd step := by
  cases step <;> simp_all [Skip.differs, PfRule.fails]

/-- If a rule differs in nothing that a test reads from one that fails it,
and the address family lets both of them get to the tests of addresses, it
fails the test too. -/
theorem fails_of_same (hsame : step.differs rule' rule = false) (hcurrent : rule.Current tables)
    (hcurrent' : rule'.Current tables)
    (haf : step = .srcAddr ∨ step = .dstAddr → rule.fails env pd .af = false)
    (haf' : rule'.fails env pd .af = false) (hfails : rule.fails env pd step = true) :
    rule'.fails env pd step = true := by
  rw [← hfails]
  cases step
  case srcAddr =>
      exact src_addrFails_eq hcurrent hcurrent' (haf (.inl rfl)) haf' hsame _ _
  case dstAddr =>
      exact dst_addrFails_eq hcurrent hcurrent' (haf (.inr rfl)) haf' hsame _ _
  case srcPort => exact portFails_eq hsame _
  case dstPort => exact portFails_eq hsame _
  all_goals exact fails_eq_of_same hsame (by decide)

theorem mismatch_isSome_iff :
    (rule.mismatch env pd).isSome = true ↔ ∃ step, rule.fails env pd step = true := by
  rw [PfRule.mismatch, find?_isSome]
  constructor
  · rintro ⟨step, _, hfails⟩
    exact ⟨step, hfails⟩
  · rintro ⟨step, hfails⟩
    exact ⟨step, by cases step <;> decide, hfails⟩

theorem mismatch_of_same (hsame : step.differs rule' rule = false) (hcurrent : rule.Current tables)
    (hcurrent' : rule'.Current tables) (hmismatch : rule.mismatch env pd = some step) :
    (rule'.mismatch env pd).isSome = true := by
  rw [mismatch_isSome_iff]
  by_cases haf' : rule'.fails env pd .af = true
  · exact ⟨.af, haf'⟩
  · exact ⟨step, fails_of_same hsame hcurrent hcurrent'
      (fun hstep => by rcases hstep with rfl | rfl <;> simp_all [PfRule.mismatch, Skip.all])
      (by simpa using haf') (find?_some hmismatch)⟩

end Transfer

theorem pfCalcSkipSteps_sound {env : Lookups} {pd : PfPdesc} {tables : Ktable → KtableEntries}
    (hcurrent : ∀ rule ∈ rules, rule.Current tables) (skip : ℕ → Skip → ℕ) {i j : ℕ}
    {rule rule' : PfRule} (hrule : rules[i]? = some rule) (hrule' : rules[j]? = some rule')
    (hmismatch : rule.mismatch env pd = some step) (hle : i ≤ j)
    (hlt : j < pfCalcSkipSteps rules skip i step) : (rule'.mismatch env pd).isSome = true := by
  obtain ⟨hi, _⟩ := List.getElem?_eq_some_iff.mp hrule
  obtain ⟨_, _, halike⟩ := pfCalcSkipSteps_good rules skip step hi
  rcases hle.eq_or_lt with rfl | hbehind
  · rw [hrule, Option.some.injEq] at hrule'
    rw [← hrule', hmismatch, Option.isSome_some]
  · exact mismatch_of_same (halike.differs_eq_false hbehind hlt hrule hrule')
      (hcurrent rule (mem_of_getElem? hrule)) (hcurrent rule' (mem_of_getElem? hrule')) hmismatch

end AerieKernel.PacketFilter
