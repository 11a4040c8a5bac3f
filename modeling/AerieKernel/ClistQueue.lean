import AerieKernel.RingBuffers
import AerieKernel.ClistBits

/-!
# A clist is a queue

A clist against a list of characters, each with a quote bit.  The ring is always used
inside its bounds.  The quote map is not: `clrbits` touches the byte behind the last
bit it clears, and `q_to_b` clears bits from the wrong end.
-/

namespace AerieKernel.Tty

open RingBuffer List Function Tty

/-! ## The queue -/

/-- A queue of at most `size` characters; without `quotes` no character is quoted. -/
structure Queue where
  size : ℕ
  quotes : Bool
  items : List (Byte × Bool) := []
  deriving DecidableEq, Repr

def charOf (item : Byte × Bool) : BitVec 32 :=
  item.1.setWidth 32 ||| if item.2 then 0x100 else 0

namespace Queue

def setItems (queue : Queue) (items : List (Byte × Bool)) : Queue :=
  { queue with items := items }

def call (queue : Queue) : Call → Result × Queue
  | .putc c =>
    if queue.items.length = queue.size then (.char (-1), queue)
    else
      (.char 0, queue.setItems (queue.items ++ [(c.setWidth 8, queue.quotes && c &&& 0x100 ≠ 0)]))
  | .getc =>
    match queue.items with
    | [] => (.char (-1), queue)
    | item :: rest => (.char (charOf item), queue.setItems rest)
  | .unputc =>
    match queue.items.getLast? with
    | none => (.char (-1), queue)
    | some item => (.char (charOf item), queue.setItems queue.items.dropLast)
  | .bToQ bytes =>
    let room := queue.size - queue.items.length
    (.count (bytes.length - room), queue.setItems (queue.items ++
      (bytes.take room).map fun byte => (byte, false)))
  | .qToB count =>
    (.bytes ((queue.items.take count.toNat).map Prod.fst),
      queue.setItems (queue.items.drop count.toNat))
  | .ndflush count =>
    (.nothing, queue.setItems (queue.items.drop count.toNat))

def calls (queue : Queue) : List Call → List Result × Queue
  | [] => ([], queue)
  | first :: rest =>
    let (result, queue) := queue.call first
    let (results, queue) := queue.calls rest
    (result :: results, queue)

end Queue

/-! ## Cells -/

namespace Clist

def cell (clp : Clist) (i : ℕ) : Byte × Bool :=
  (clp.cs i, match clp.cq with
    | none => false
    | some map => bitAt map i)

variable {i : ℕ}

theorem div_lt_qmem {cn : ℕ} (hi : i < cn) : i / 8 < qmem cn := by
  rw [qmem]
  omega

theorem quoteOf_eq {clp : Clist} (hi : i < clp.cn) :
    clp.quoteOf i = some (if (clp.cell i).2 then 0x100 else 0) := by
  unfold quoteOf cell
  cases clp.cq with
  | none => rfl
  | some map =>
    dsimp only
    rw [isset_eq (div_lt_qmem hi)]
    rfl

variable {off : ℕ}

theorem modifyQuotes_eq (clp : Clist) {f : ℕ → (ℕ → Byte) → Option (ℕ → Byte)} {value : Bool}
    {P : ℕ → Prop} [DecidablePred P] (hf : ∀ map, clp.cq = some map → ∃ map',
      f (qmem clp.cn) map = some map' ∧ ∀ j, bitAt map' j = if P j then value else bitAt map j) :
    ∃ cq, clp.modifyQuotes f = some { clp with cq := cq } ∧ cq.isSome = clp.cq.isSome ∧
      ∀ i, cell { clp with cq := cq } i =
        if P i then (clp.cs i, clp.cq.isSome && value) else clp.cell i := by
  unfold modifyQuotes cell
  cases hcq : clp.cq with
  | none =>
    refine ⟨none, congrArg some ?_, rfl, fun i => (ite_self _).symm⟩
    rw [← hcq]
  | some map =>
    obtain ⟨map', hchanged, hbits⟩ := hf map hcq
    refine ⟨some map', ?_, rfl, fun i => ?_⟩
    · dsimp only
      rw [hchanged]
      rfl
    · dsimp only
      rw [hbits]
      split_ifs <;> rfl

theorem modifyQuotes_clrbits (clp : Clist) {len : ℕ} (hoff : off < clp.cn)
    (hlen : 0 < len) (hinside : clp.cq = none ∨ BitsInside clp.cn (off, len)) :
    ∃ cq, (clp.modifyQuotes fun size map => clrbits size map off len) = some { clp with cq := cq } ∧
      cq.isSome = clp.cq.isSome ∧ ∀ i, cell { clp with cq := cq } i =
        if off ≤ i ∧ i < off + len then (clp.cs i, false) else clp.cell i := by
  rw [← Bool.and_false clp.cq.isSome]
  refine clp.modifyQuotes_eq fun map hcq => clrbits_eq map hoff hlen ?_
  exact hinside.resolve_left (by simp [hcq])

theorem modifyQuotes_put (clp : Clist) (quoted : Bool) (hoff : off < clp.cn) :
    ∃ cq, (clp.modifyQuotes fun size map =>
        if quoted then setbit size map off else clrbit size map off) = some { clp with cq := cq } ∧
      cq.isSome = clp.cq.isSome ∧ ∀ i, cell { clp with cq := cq } i =
        if i = off then (clp.cs i, clp.cq.isSome && quoted) else clp.cell i := by
  refine clp.modifyQuotes_eq fun map _ => ?_
  cases quoted with
  | true => exact setbit_eq map (div_lt_qmem hoff)
  | false => exact clrbit_eq map (div_lt_qmem hoff)

/-! ## Rings -/

/-- The clist has a first character at `f` and holds the items from there on. -/
structure Rings (clp : Clist) (f : ℕ) (items : List (Byte × Bool)) : Prop where
  first : clp.cf = some f
  bound : f < clp.cn
  last : clp.cl = some ((f + clp.cc) % clp.cn)
  fits : clp.cc ≤ clp.cn
  items : contents clp.cell clp.cn f clp.cc = items

section Moves

variable {clp clp' : Clist} {f k : ℕ} {items : List (Byte × Bool)}

section

variable (hring : Rings clp f items)
include hring

theorem Rings.count : clp.cc = items.length := by
  rw [← hring.items, length_contents]

theorem Rings.last_lt : (f + clp.cc) % clp.cn < clp.cn :=
  Nat.mod_lt _ (by have := hring.bound; omega)

theorem Rings.split (hk : k ≤ clp.cc) : items = contents clp.cell clp.cn f k ++
    contents clp.cell clp.cn ((f + k) % clp.cn) (clp.cc - k) := by
  rw [← contents_add, Nat.add_sub_cancel' hk, hring.items]

theorem Rings.drop (hk : k ≤ clp.cc)
    (hcn : clp'.cn = clp.cn) (hcf : clp'.cf = some ((f + k) % clp.cn))
    (hcl : clp'.cl = clp.cl) (hcc : clp'.cc = clp.cc - k) (hcells : ∀ i, k ≤ i → i < clp.cc →
      clp'.cell ((f + i) % clp.cn) = clp.cell ((f + i) % clp.cn)) :
    Rings clp' ((f + k) % clp.cn) (items.drop k) := by
  have hpos : 0 < clp.cn := by
    have := hring.bound
    omega
  refine ⟨hcf, ?_, ?_, ?_, ?_⟩
  · rw [hcn]
    exact Nat.mod_lt _ hpos
  · rw [hcl, hring.last, hcn, Nat.mod_add_mod]
    congr 2
    omega
  · have := hring.fits
    omega
  · rw [hring.split hk, drop_left' (length_contents _ _ _ _), hcn, hcc]
    apply contents_congr
    intro i hi
    rw [Nat.mod_add_mod, add_assoc]
    exact hcells (k + i) (by omega) (by omega)

theorem Rings.take (hk : k ≤ clp.cc) (hcn : clp'.cn = clp.cn) (hcf : clp'.cf = clp.cf)
    (hcl : clp'.cl = some ((f + k) % clp.cn)) (hcc : clp'.cc = k)
    (hcells : ∀ i, clp'.cell i = clp.cell i) : Rings clp' f (items.take k) := by
  refine ⟨hcf.trans hring.first, by rw [hcn]; exact hring.bound, ?_, ?_, ?_⟩
  · rw [hcl, hcc, hcn]
  · have := hring.fits
    omega
  · rw [hring.split hk, take_left' (length_contents _ _ _ _), hcn, hcc]
    apply contents_congr
    intro i _
    exact hcells _

theorem Rings.append {new : List (Byte × Bool)} (hroom : clp.cc + new.length ≤ clp.cn)
    (hcn : clp'.cn = clp.cn) (hcf : clp'.cf = clp.cf)
    (hcl : clp'.cl = some ((f + (clp.cc + new.length)) % clp.cn))
    (hcc : clp'.cc = clp.cc + new.length)
    (hcells : ∀ i < clp.cc, clp'.cell ((f + i) % clp.cn) = clp.cell ((f + i) % clp.cn))
    (hnew : contents clp'.cell clp.cn ((f + clp.cc) % clp.cn) new.length = new) :
    Rings clp' f (items ++ new) := by
  refine ⟨hcf.trans hring.first, by rw [hcn]; exact hring.bound, ?_, ?_, ?_⟩
  · rw [hcl, hcc, hcn]
  · omega
  · rw [hcn, hcc, contents_add, ← hring.items]
    congr 1
    exact contents_congr hcells

end

end Moves

/-! ## Single characters -/

structure Holds (clp : Clist) (queue : Queue) : Prop where
  size : clp.cn = queue.size
  quotes : clp.cq.isSome = queue.quotes
  count : clp.cc = queue.items.length
  fits : clp.cc ≤ clp.cn
  ring : queue.items ≠ [] → ∃ f, Rings clp f queue.items

variable {clp : Clist} {queue : Queue} {f : ℕ} {items : List (Byte × Bool)}

theorem Rings.holds {clp' : Clist} (hring : Rings clp' f items) (hsize : clp'.cn = queue.size)
    (hquotes : clp'.cq.isSome = queue.quotes) : Holds clp' (queue.setItems items) :=
  ⟨hsize, hquotes, hring.count, hring.fits, fun _ => ⟨f, hring⟩⟩

theorem Holds.resetIfEmpty {clp' : Clist} (hholds : Holds clp' queue) :
    Holds clp'.resetIfEmpty queue := by
  unfold Clist.resetIfEmpty
  split_ifs with hempty
  · refine ⟨hholds.size, hholds.quotes, hholds.count, hholds.fits, fun hne => ?_⟩
    have hcount := hholds.count
    rw [hempty] at hcount
    exact absurd (length_eq_zero_iff.mp hcount.symm) hne
  · exact hholds

theorem load_eq (hi : i < clp.cn) : clp.load i = some (clp.cs i) :=
  if_pos hi

theorem store_eq {value : Byte} (hi : i < clp.cn) :
    clp.store i value = some { clp with cs := update clp.cs i value } := if_pos hi

theorem cell_store {j : ℕ} {value : Byte} :
    cell { clp with cs := update clp.cs i value } j =
      if j = i then (value, (clp.cell j).2) else clp.cell j := by
  unfold cell
  dsimp only
  rw [update_apply]
  split_ifs <;> rfl

theorem Holds.cc_eq_zero (hholds : Holds clp queue) (hnil : queue.items = []) : clp.cc = 0 := by
  rw [hholds.count, hnil]
  rfl

theorem getc_holds (hholds : Holds clp queue) :
    ∃ clp', call clp .getc = some ((queue.call .getc).1, clp') ∧
      Holds clp' (queue.call .getc).2 := by
  rw [call, getc, Queue.call]
  cases hitems : queue.items with
  | nil =>
    rw [if_pos (hholds.cc_eq_zero hitems)]
    exact ⟨clp, rfl, hholds⟩
  | cons item rest =>
    obtain ⟨f, hring⟩ := hholds.ring (by simp [hitems])
    have hcount := hholds.count
    rw [hitems] at hring hcount
    rw [length_cons] at hcount
    have hfits := hring.fits
    have hbound := hring.bound
    have hhead : clp.cell f = item := by
      have hitems := hring.items
      rw [hcount, add_comm, contents_add, contents_one _ hbound] at hitems
      exact (List.cons.inj hitems).1
    rw [if_neg (by omega), hring.first, hring.last]
    simp only [Option.bind_some, load_eq hbound, store_eq hbound]
    let stored : Clist := { clp with cs := update clp.cs f 0 }
    have hquote : stored.quoteOf f = some (if (clp.cell f).2 then 0x100 else 0) := by
      exact quoteOf_eq hbound
    obtain ⟨cq, hclr, hsome, hcells⟩ := modifyQuotes_put stored false hring.last_lt
    simp only [Bool.false_eq_true, if_false] at hclr
    rw [hquote, Option.bind_some, hclr, Option.map_some, Option.map_some]
    refine ⟨_, by rw [← hhead]; rfl, ?_⟩
    apply Holds.resetIfEmpty
    refine Rings.holds (hring.drop (k := 1) (by omega) rfl ?_ rfl rfl ?_)
      hholds.size (hsome.trans hholds.quotes)
    · exact congrArg some (advance_index hbound)
    · intro i hi hlt
      have hne_first : (f + i) % clp.cn ≠ f := by
        have hne := index_ne (n := clp.cn) f (i := 0) (j := i) (by omega) (by omega)
        rw [add_zero, Nat.mod_eq_of_lt hbound] at hne
        exact hne.symm
      have hne_last : (f + i) % clp.cn ≠ (f + clp.cc) % clp.cn := index_ne f hlt (by omega)
      have hcell := hcells ((f + i) % clp.cn)
      rw [if_neg hne_last, cell_store, if_neg hne_first] at hcell
      exact hcell

theorem unputc_holds (hholds : Holds clp queue) :
    ∃ clp', call clp .unputc = some ((queue.call .unputc).1, clp') ∧
      Holds clp' (queue.call .unputc).2 := by
  rw [call, unputc, Queue.call]
  rcases eq_nil_or_concat' queue.items with hitems | ⟨init, item, hitems⟩
  · rw [if_pos (hholds.cc_eq_zero hitems), hitems]
    exact ⟨clp, rfl, hholds⟩
  · obtain ⟨f, hring⟩ := hholds.ring (by simp [hitems])
    have hcount := hholds.count
    rw [hitems] at hring hcount
    rw [length_append, length_singleton] at hcount
    have hfits := hring.fits
    have hbound := hring.bound
    let back := (f + init.length) % clp.cn
    have hback : (if (f + clp.cc) % clp.cn = 0 then clp.cn - 1
        else (f + clp.cc) % clp.cn - 1) = back := by
      rw [last_index hbound hfits]
      simp only [back]
      rw [last_index hbound (by omega)]
      split_ifs <;> omega
    have hlt : back < clp.cn := Nat.mod_lt _ (by omega)
    have hlast : clp.cell back = item := by
      have hitems := hring.items
      rw [hcount, contents_add, contents_one _ hlt] at hitems
      exact (append_inj' hitems rfl).2 |> singleton_inj.mp
    rw [if_neg (by omega), hring.last, hitems, getLast?_concat]
    simp only [Option.bind_some, hback]
    let shrunk : Clist := { clp with cl := some back, cc := clp.cc - 1 }
    have hload : shrunk.load back = some (clp.cs back) := load_eq hlt
    have hquote : shrunk.quoteOf back =
        some (if (clp.cell back).2 then 0x100 else 0) := quoteOf_eq hlt
    rw [hload, Option.bind_some, hquote, Option.map_some, Option.map_some]
    refine ⟨_, by rw [← hlast]; rfl, ?_⟩
    have htake : (init ++ [item]).dropLast = (init ++ [item]).take init.length := by
      simp
    rw [htake]
    have hless : clp.cc - 1 = init.length := by omega
    apply Holds.resetIfEmpty
    exact Rings.holds (hring.take (by omega) rfl rfl rfl hless fun _ => rfl)
      hholds.size hholds.quotes

theorem startIfEmpty_cn (clp : Clist) : clp.startIfEmpty.cn = clp.cn := by
  unfold startIfEmpty
  split_ifs <;> rfl

theorem startIfEmpty_cq (clp : Clist) : clp.startIfEmpty.cq = clp.cq := by
  unfold startIfEmpty
  split_ifs <;> rfl

theorem Holds.start (hholds : Holds clp queue) (hroom : clp.cc < clp.cn) :
    ∃ f, Rings clp.startIfEmpty f queue.items := by
  unfold startIfEmpty
  split_ifs with hempty
  · refine ⟨0, rfl, lt_of_le_of_lt (Nat.zero_le _) hroom, ?_, hroom.le, ?_⟩
    · simp [hempty]
    · have hcount := hholds.count
      rw [hempty] at hcount
      simp [hempty, length_eq_zero_iff.mp hcount.symm]
  · apply hholds.ring
    intro hnil
    rw [hholds.count, hnil] at hempty
    exact hempty rfl

theorem putc_holds (c : BitVec 32) (hholds : Holds clp queue) :
    ∃ clp', call clp (.putc c) = some ((queue.call (.putc c)).1, clp') ∧
      Holds clp' (queue.call (.putc c)).2 := by
  have hfull : clp.cc = clp.cn ↔ queue.items.length = queue.size := by
    rw [hholds.count, hholds.size]
  rw [call, putc, Queue.call]
  by_cases hcc : clp.cc = clp.cn
  · rw [if_pos hcc, if_pos (hfull.mp hcc)]
    exact ⟨clp, rfl, hholds⟩
  rw [if_neg hcc, if_neg (fun h => hcc (hfull.mpr h))]
  have hroom : clp.cc < clp.cn := lt_of_le_of_ne hholds.fits hcc
  obtain ⟨f, hring⟩ := hholds.start hroom
  have hsize : clp.startIfEmpty.cn = queue.size := by
    rw [startIfEmpty_cn, hholds.size]
  have hquotes : clp.startIfEmpty.cq.isSome = queue.quotes := by
    rw [startIfEmpty_cq, hholds.quotes]
  have hroom : clp.startIfEmpty.cc < clp.startIfEmpty.cn := by
    rw [hring.count, ← hholds.count, startIfEmpty_cn]
    exact hroom
  dsimp only
  generalize clp.startIfEmpty = clp₁ at hring hsize hquotes hroom ⊢
  have hlast := hring.last_lt
  have hwrap := advance_index (Nat.add_one_le_iff.mpr hlast)
  rw [Nat.mod_add_mod] at hwrap
  rw [hring.last, Option.bind_some, store_eq hlast, Option.bind_some]
  generalize hl : (f + clp₁.cc) % clp₁.cn = l at hlast hwrap ⊢
  let stored : Clist := { clp₁ with cs := update clp₁.cs l (c.setWidth 8) }
  obtain ⟨cq, hput, hsome, hcells⟩ := modifyQuotes_put stored (decide (c &&& 0x100 ≠ 0)) hlast
  simp only [decide_eq_true_eq] at hput
  rw [hput, Option.map_some]
  refine ⟨_, rfl, ?_⟩
  refine Rings.holds (hring.append (by simpa using hroom) rfl rfl
    (congrArg some hwrap) rfl ?_ ?_) hsize (hsome.trans hquotes)
  · intro i hi
    have hne : (f + i) % clp₁.cn ≠ l := by
      rw [← hl]
      exact index_ne f hi (by omega)
    have hcell := hcells ((f + i) % clp₁.cn)
    rw [if_neg hne, cell_store, if_neg hne] at hcell
    exact hcell
  · rw [hl, length_singleton, contents_one _ hlast]
    have hcell := hcells l
    rw [if_pos rfl] at hcell
    have hvalue : stored.cs l = c.setWidth 8 := update_self _ _ _
    rw [hvalue] at hcell
    rw [← hquotes]
    exact congrArg (fun item => [item]) hcell

/-! ## Many characters -/

/-- What `q_to_b` clears in the quote map lies inside it: up to two pieces, the one to the
end of the ring and the one from its start, which are both counted from `c_cl`. -/
def TakeInside (n f l count : ℕ) : Prop :=
  BitsInside n (l, min count (if l ≤ f then n - f else l - f)) ∧
    (l ≤ f → BitsInside n (l, min (count - (n - f)) l))

instance (n f l count : ℕ) : Decidable (TakeInside n f l count) :=
  inferInstanceAs (Decidable (_ ∧ _))

/-- `b_to_q` does not fill the ring up to its end, where the end of the ring is the end of a
byte of the quote map, with more than one byte. -/
def PutInside (n f l count : ℕ) : Prop :=
  ¬ (8 ∣ n ∧ f ≤ l ∧ 2 ≤ n - l ∧ n - l ≤ count)

instance (n f l count : ℕ) : Decidable (PutInside n f l count) :=
  inferInstanceAs (Decidable (¬ _))

variable {n cc count : ℕ}

theorem takePiece_bounds (hf : f < n) (hcc : cc ≤ n) (hpos : 0 < cc) (hcount : 0 < count) :
    0 < takePiece n f ((f + cc) % n) count ∧ takePiece n f ((f + cc) % n) count ≤ count ∧
      takePiece n f ((f + cc) % n) count ≤ cc ∧ f + takePiece n f ((f + cc) % n) count ≤ n := by
  rw [last_index hf hcc]
  unfold takePiece
  dsimp only
  split_ifs <;> omega

theorem putPiece_bounds (hf : f < n) (hcc : cc < n) (hcount : 0 < count) :
    0 < putPiece n f ((f + cc) % n) count ∧ putPiece n f ((f + cc) % n) count ≤ count ∧
      cc + putPiece n f ((f + cc) % n) count ≤ n ∧
      (f + cc) % n + putPiece n f ((f + cc) % n) count ≤ n := by
  rw [last_index hf hcc.le]
  unfold putPiece
  dsimp only
  split_ifs <;> omega

theorem mod_index {m : ℕ} (hm : m ≤ n) : m % n = if m = n then 0 else m := by
  split_ifs with heq
  · rw [heq, Nat.mod_self]
  · exact Nat.mod_eq_of_lt (by omega)

theorem TakeInside.turn (hf : f < n) (hcc : cc ≤ n) (hpos : 0 < cc) (hcount : 0 < count)
    (h : TakeInside n f ((f + cc) % n) count) :
    let k := takePiece n f ((f + cc) % n) count
    BitsInside n ((f + cc) % n, k) ∧
      (0 < cc - k → TakeInside n ((f + k) % n) ((f + cc) % n) (count - k)) := by
  obtain ⟨-, hle, -, hend⟩ := takePiece_bounds hf hcc hpos hcount
  have hk : takePiece n f ((f + cc) % n) count =
      min count (if (f + cc) % n ≤ f then n - f else (f + cc) % n - f) := by
    simp only [takePiece]
    split_ifs <;> omega
  dsimp only
  generalize takePiece n f ((f + cc) % n) count = k at *
  refine ⟨hk ▸ h.1, fun hmore => ?_⟩
  obtain ⟨-, hsecond⟩ := h
  rw [mod_index hend]
  rw [last_index hf hcc] at hsecond hk ⊢
  simp only [TakeInside, BitsInside, qmem] at hsecond ⊢
  split_ifs at hk hsecond ⊢ <;> omega

theorem PutInside.turn (hf : f < n) (hcc : cc < n) (hcount : 0 < count)
    (h : PutInside n f ((f + cc) % n) count) :
    let k := putPiece n f ((f + cc) % n) count
    BitsInside n ((f + cc) % n, k) ∧
      (cc + k < n → PutInside n f (((f + cc) % n + k) % n) (count - k)) := by
  obtain ⟨-, hle, -, hend⟩ := putPiece_bounds hf hcc hcount
  have hk : putPiece n f ((f + cc) % n) count =
      min count (if f > (f + cc) % n then f - (f + cc) % n else n - (f + cc) % n) := by
    simp only [putPiece]
    split_ifs <;> omega
  dsimp only
  generalize putPiece n f ((f + cc) % n) count = k at *
  rw [mod_index hend]
  rw [last_index hf hcc.le] at h hk ⊢
  simp only [PutInside, BitsInside, qmem] at h ⊢
  split_ifs at hk h ⊢ <;> omega

variable {bytes : List Byte}

theorem copyIn_eq (hend : i + bytes.length ≤ clp.cn) :
    clp.copyIn i bytes = some { clp with cs := blockAt clp.cs i bytes } := if_pos hend

theorem cell_blockAt {j : ℕ} (hout : ¬ (i ≤ j ∧ j < i + bytes.length)) :
    cell { clp with cs := blockAt clp.cs i bytes } j = clp.cell j := by
  unfold cell blockAt
  dsimp only
  rw [if_neg hout]

variable {k : ℕ}

theorem take_eq_contents (hring : Rings clp f items) (hk : k ≤ clp.cc) (hend : f + k ≤ clp.cn) :
    (items.take k).map Prod.fst = (List.range k).map fun i => clp.cs (f + i) := by
  rw [hring.split hk, take_left' (length_contents _ _ _ _), contents_straight _ hend, map_map]
  rfl

theorem stays_of_put (f : ℕ) (hcc : cc + k ≤ n + i) (hi : i < cc) :
    ¬ ((f + cc) % n ≤ (f + i) % n ∧ (f + i) % n < (f + cc) % n + k) := by
  rintro ⟨hge, hless⟩
  have hne := index_ne (n := n) f (i := i)
    (j := cc + ((f + i) % n - (f + cc) % n)) (by omega) (by omega)
  rw [← add_assoc, ← Nat.mod_add_mod (f + cc), Nat.add_sub_cancel' hge, Nat.mod_mod] at hne
  exact hne rfl

theorem stays_of_take (hcc : cc ≤ n) (hki : k ≤ i) (hi : i < cc) :
    ¬ (f ≤ (f + i) % n ∧ (f + i) % n < f + k) ∧
      ¬ ((f + cc) % n ≤ (f + i) % n ∧ (f + i) % n < (f + cc) % n + k) := by
  refine ⟨?_, stays_of_put f (by omega) hi⟩
  rintro ⟨hge, hless⟩
  have hne := index_ne (n := n) f (i := (f + i) % n - f) (j := i) (by omega) (by omega)
  rw [Nat.add_sub_cancel' hge, Nat.mod_mod] at hne
  exact hne rfl

theorem Rings.stop (hring : Rings clp f items) (hstop : ¬ (count > 0 ∧ clp.cc > 0)) :
    items.take count = [] ∧ items.drop count = items := by
  by_cases hcount : count = 0
  · simp [hcount]
  · have hlength : items.length = 0 := by
      rw [← hring.count]
      omega
    simp [length_eq_zero_iff.mp hlength]

theorem Rings.takeTurn (hring : Rings clp f items) (hpos : 0 < k) (hcc : k ≤ clp.cc)
    (hend : f + k ≤ clp.cn)
    (hinside : clp.cq = none ∨ BitsInside clp.cn ((f + clp.cc) % clp.cn, k)) :
    ∃ clp₁ clp₂, clp.zero f k = some clp₁ ∧ (clp₁.modifyQuotes fun size map =>
        clrbits size map ((f + clp.cc) % clp.cn) k) = some clp₂ ∧
      clp₂.cn = clp.cn ∧ clp₂.cc = clp.cc ∧
      clp₂.cq.isSome = clp.cq.isSome ∧
      Rings { clp₂ with cc := clp₂.cc - k, cf := some (clp₂.wrap (f + k)) }
        ((f + k) % clp.cn) (items.drop k) := by
  let zeroed : Clist := { clp with cs := blockAt clp.cs f (List.replicate k 0) }
  have hzero : clp.zero f k = some zeroed := copyIn_eq (by rwa [length_replicate])
  obtain ⟨cq, hclr, hsome, hcells⟩ := modifyQuotes_clrbits zeroed hring.last_lt hpos hinside
  refine ⟨zeroed, { zeroed with cq := cq }, hzero, hclr, rfl, rfl, hsome, ?_⟩
  refine hring.drop hcc rfl (congrArg some (advance_index hend)) rfl
    rfl ?_
  intro i hki hi
  obtain ⟨hfirst, hlast⟩ := stays_of_take hring.fits hki hi
  have hcell := hcells ((f + i) % clp.cn)
  rw [if_neg hlast, cell_blockAt (by simpa using hfirst)] at hcell
  exact hcell

theorem qToBLoop_rings (fuel : ℕ) (hfuel : count ≤ fuel)
    (hring : Rings clp f items) (moved : List Byte)
    (hinside : clp.cq = none ∨
      (0 < clp.cc → TakeInside clp.cn f ((f + clp.cc) % clp.cn) count)) :
    ∃ clp' f', qToBLoop fuel clp count moved =
        some (moved ++ (items.take count).map Prod.fst, clp') ∧
      Rings clp' f' (items.drop count) ∧ clp'.cn = clp.cn ∧ clp'.cq.isSome = clp.cq.isSome := by
  induction fuel generalizing clp f count items moved with
  | zero =>
    obtain rfl : count = 0 := by omega
    exact ⟨clp, f, by simp [qToBLoop], hring, rfl, rfl⟩
  | succ fuel ih =>
    rw [qToBLoop]
    by_cases hgo : count > 0 ∧ clp.cc > 0
    · obtain ⟨hpos, hle, hcc, hend⟩ := takePiece_bounds hring.bound hring.fits hgo.2 hgo.1
      have hturn := hinside.imp id fun h =>
        TakeInside.turn hring.bound hring.fits hgo.2 hgo.1 (h hgo.2)
      rw [if_pos hgo, hring.first, hring.last]
      simp only [Option.bind_some]
      generalize takePiece clp.cn f ((f + clp.cc) % clp.cn) count = k at *
      obtain ⟨clp₁, clp₂, hzero, hclr, hcn, hcc₂, hsome, hnext⟩ :=
        hring.takeTurn hpos hcc hend (hturn.imp id And.left)
      have hlast : ((f + k) % clp.cn + (clp.cc - k)) % clp.cn = (f + clp.cc) % clp.cn := by
        rw [Nat.mod_add_mod]
        congr 1
        omega
      rw [copyOut, if_pos hend, Option.bind_some, hzero, Option.bind_some, hclr,
        Option.bind_some, ← take_eq_contents hring hcc hend]
      have hinside₂ : clp₂.cq = none ∨ (0 < clp₂.cc - k → TakeInside clp₂.cn ((f + k) % clp.cn)
          (((f + k) % clp.cn + (clp₂.cc - k)) % clp₂.cn) (count - k)) := by
        rw [hcn, hcc₂, hlast]
        exact hturn.imp (fun hnone => by simpa [hnone] using hsome) And.right
      obtain ⟨clp', f', hloop, hrings, hcn', hsome'⟩ :=
        ih (by omega) hnext (moved ++ (items.take k).map Prod.fst) hinside₂
      refine ⟨clp', f', ?_, ?_, hcn'.trans hcn, hsome'.trans hsome⟩
      · rw [hloop, append_assoc, ← map_append, ← take_add, Nat.add_sub_cancel' hle]
      · rw [drop_drop, Nat.add_sub_cancel' hle] at hrings
        exact hrings
    · obtain ⟨htake, hdrop⟩ := hring.stop hgo
      rw [if_neg hgo, htake, hdrop, map_nil, append_nil]
      exact ⟨clp, f, rfl, hring, rfl, rfl⟩

theorem ndflushLoop_rings (fuel : ℕ) (hfuel : count ≤ fuel) (hring : Rings clp f items) :
    ∃ clp' f', ndflushLoop fuel clp count = some clp' ∧
      Rings clp' f' (items.drop count) ∧ clp'.cn = clp.cn ∧ clp'.cq.isSome = clp.cq.isSome := by
  induction fuel generalizing clp f count items with
  | zero =>
    obtain rfl : count = 0 := by omega
    exact ⟨clp, f, rfl, hring, rfl, rfl⟩
  | succ fuel ih =>
    rw [ndflushLoop]
    by_cases hgo : count > 0 ∧ clp.cc > 0
    · obtain ⟨hpos, hle, hcc, hend⟩ := takePiece_bounds hring.bound hring.fits hgo.2 hgo.1
      rw [if_pos hgo, hring.first, hring.last]
      simp only [Option.bind_some]
      generalize takePiece clp.cn f ((f + clp.cc) % clp.cn) count = k at *
      have hnext : Rings
          { clp with cc := clp.cc - k, cf := some (clp.wrap (f + k)) }
          ((f + k) % clp.cn) (items.drop k) := by
        refine hring.drop hcc rfl ?_ rfl rfl fun _ _ _ => rfl
        exact congrArg some (advance_index hend)
      rw [hring.last] at hnext
      have hless : count - k ≤ fuel := by omega
      obtain ⟨clp', f', hloop, hrings, hcn, hsome⟩ := ih hless hnext
      refine ⟨clp', f', hloop, ?_, hcn, hsome⟩
      rw [drop_drop, Nat.add_sub_cancel' hle] at hrings
      exact hrings
    · rw [if_neg hgo, (hring.stop hgo).2]
      exact ⟨clp, f, rfl, hring, rfl, rfl⟩

theorem Rings.putTurn (hring : Rings clp f items) (bytes : List Byte) (hpos : 0 < bytes.length)
    (hroom : clp.cc + bytes.length ≤ clp.cn) (hend : (f + clp.cc) % clp.cn + bytes.length ≤ clp.cn)
    (hinside : clp.cq = none ∨ BitsInside clp.cn ((f + clp.cc) % clp.cn, bytes.length)) :
    ∃ clp₁ clp₂, clp.copyIn ((f + clp.cc) % clp.cn) bytes = some clp₁ ∧
      (clp₁.modifyQuotes fun size map =>
        clrbits size map ((f + clp.cc) % clp.cn) bytes.length) = some clp₂ ∧
      clp₂.cn = clp.cn ∧ clp₂.cc = clp.cc ∧
      clp₂.cq.isSome = clp.cq.isSome ∧
      Rings { clp₂ with
          cc := clp₂.cc + bytes.length
          cl := some (clp₂.wrap ((f + clp.cc) % clp.cn + bytes.length)) } f
        (items ++ bytes.map fun byte => (byte, false)) := by
  let copied : Clist := { clp with cs := blockAt clp.cs ((f + clp.cc) % clp.cn) bytes }
  have hlast := hring.last_lt
  have hcopy : clp.copyIn ((f + clp.cc) % clp.cn) bytes = some copied := copyIn_eq hend
  obtain ⟨cq, hclr, hsome, hcells⟩ := modifyQuotes_clrbits copied hlast hpos hinside
  refine ⟨copied, { copied with cq := cq }, hcopy, hclr, rfl, rfl, hsome, ?_⟩
  have hwrap := advance_index hend
  rw [Nat.mod_add_mod, add_assoc] at hwrap
  have hmap : (bytes.map fun byte => (byte, false)).length = bytes.length := length_map _
  refine hring.append (by rw [hmap]; exact hroom) rfl rfl ?_ ?_ ?_ ?_
  · rw [hmap]
    exact congrArg some hwrap
  · rw [hmap]
  · intro i hi
    have hout := stays_of_put f (hroom.trans (Nat.le_add_right _ i)) hi
    have hcell := hcells ((f + i) % clp.cn)
    rw [if_neg hout, cell_blockAt hout] at hcell
    exact hcell
  · rw [hmap, contents_straight _ hend]
    apply ext_getElem (by simp)
    intro j hj hj'
    have hj : j < bytes.length := by simpa using hj
    have hcell := hcells ((f + clp.cc) % clp.cn + j)
    rw [if_pos ⟨by omega, by omega⟩] at hcell
    have hbyte : copied.cs ((f + clp.cc) % clp.cn + j) = bytes[j] := by
      simp only [copied, blockAt]
      rw [if_pos ⟨by omega, by omega⟩, Nat.add_sub_cancel_left]
      rw [getD_eq_getElem?_getD, getElem?_eq_getElem hj, Option.getD_some]
    rw [hbyte] at hcell
    simp only [getElem_map, getElem_range]
    exact hcell

theorem bToQLoop_rings (fuel : ℕ) (hfuel : bytes.length ≤ fuel) (hring : Rings clp f items)
    (hinside : clp.cq = none ∨
      (clp.cc < clp.cn → PutInside clp.cn f ((f + clp.cc) % clp.cn) bytes.length)) :
    ∃ clp', bToQLoop fuel clp bytes =
        some (bytes.drop (clp.cn - clp.cc), clp') ∧
      Rings clp' f (items ++ (bytes.take (clp.cn - clp.cc)).map fun byte => (byte, false)) ∧
      clp'.cn = clp.cn ∧ clp'.cq.isSome = clp.cq.isSome := by
  induction fuel generalizing clp items bytes with
  | zero =>
    obtain rfl : bytes = [] := length_eq_zero_iff.mp (by omega)
    exact ⟨clp, by simp [bToQLoop], by simpa using hring, rfl, rfl⟩
  | succ fuel ih =>
    rw [bToQLoop]
    by_cases hgo : bytes.length > 0 ∧ clp.cc < clp.cn
    · obtain ⟨hpos, hle, hcc, hend⟩ := putPiece_bounds hring.bound hgo.2 hgo.1
      have hinside := hinside.imp id fun h => PutInside.turn hring.bound hgo.2 hgo.1 (h hgo.2)
      rw [if_pos hgo, hring.first, hring.last]
      simp only [Option.bind_some]
      generalize hk : putPiece clp.cn f ((f + clp.cc) % clp.cn) bytes.length = k at *
      have hlength : (bytes.take k).length = k := by
        rw [length_take]
        omega
      have hturn := hring.putTurn (bytes.take k)
      rw [hlength] at hturn
      obtain ⟨clp₁, clp₂, hcopy, hclr, hcn, hcc₂, hsome, hnext⟩ :=
        hturn hpos hcc hend (hinside.imp id And.left)
      rw [hcopy, Option.bind_some, hclr, Option.bind_some]
      have hlast : ((f + clp.cc) % clp.cn + k) % clp.cn = (f + (clp.cc + k)) % clp.cn := by
        rw [Nat.mod_add_mod, add_assoc]
      have hinside₂ : clp₂.cq = none ∨ (clp₂.cc + k < clp₂.cn → PutInside clp₂.cn f
          ((f + (clp₂.cc + k)) % clp₂.cn) (bytes.drop k).length) := by
        rw [hcn, hcc₂, ← hlast, length_drop]
        exact hinside.imp (fun hnone => by simpa [hnone] using hsome) And.right
      obtain ⟨clp', hloop, hrings, hcn', hsome'⟩ := ih (by rw [length_drop]; omega) hnext hinside₂
      have hroom : k + (clp₂.cn - (clp₂.cc + k)) = clp.cn - clp.cc := by
        omega
      refine ⟨clp', ?_, ?_, hcn'.trans hcn, hsome'.trans hsome⟩
      · rw [hloop, drop_drop]
        simp only [hroom]
      · rw [append_assoc, ← map_append, ← take_add] at hrings
        simp only [hroom] at hrings
        exact hrings
    · rw [if_neg hgo]
      have hnone : bytes = [] ∨ clp.cn - clp.cc = 0 := by
        by_cases hnil : bytes = []
        · exact .inl hnil
        · have hlength := length_pos_iff.mpr hnil
          omega
      refine ⟨clp, ?_, ?_, rfl, rfl⟩ <;> rcases hnone with rfl | hfull
      · simp
      · simp [hfull]
      · simpa using hring
      · simpa [hfull] using hring

/-- The call stays inside the quote map when it clears bits, which only `b_to_q` and
`q_to_b` can fail to do. -/
def callInside (clp : Clist) : Call → Bool
  | .bToQ bytes => clp.cq.isNone || clp.cc = clp.cn ||
      match clp.startIfEmpty.cf, clp.startIfEmpty.cl with
      | some f, some l => PutInside clp.cn f l bytes.length
      | _, _ => true
  | .qToB count => clp.cq.isNone ||
      match clp.cf, clp.cl with
      | some f, some l => TakeInside clp.cn f l count.toNat
      | _, _ => true
  | _ => true

theorem startIfEmpty_cc (clp : Clist) : clp.startIfEmpty.cc = clp.cc := by
  unfold startIfEmpty
  split_ifs <;> rfl

theorem bToQ_holds (bytes : List Byte) (hholds : Holds clp queue)
    (hinside : callInside clp (.bToQ bytes) = true) :
    ∃ clp', call clp (.bToQ bytes) =
        some ((queue.call (.bToQ bytes)).1, clp') ∧
      Holds clp' (queue.call (.bToQ bytes)).2 := by
  have hroom : queue.size - queue.items.length = clp.cn - clp.cc := by
    rw [hholds.size, hholds.count]
  rw [call, bToQ, Queue.call]
  rw [hroom]
  split_ifs with hnil hfull
  · refine ⟨clp, by simp [hnil], ?_⟩
    rw [length_eq_zero_iff.mp hnil, take_nil, map_nil, append_nil]
    exact hholds
  · refine ⟨clp, by simp [hfull], ?_⟩
    rw [hfull, Nat.sub_self, take_zero, map_nil, append_nil]
    exact hholds
  · have hlt : clp.cc < clp.cn := lt_of_le_of_ne hholds.fits hfull
    obtain ⟨f, hring⟩ := hholds.start hlt
    have hinside' : clp.startIfEmpty.cq = none ∨ (clp.startIfEmpty.cc < clp.startIfEmpty.cn →
        PutInside clp.startIfEmpty.cn f ((f + clp.startIfEmpty.cc) % clp.startIfEmpty.cn)
          bytes.length) := by
      rw [callInside, hring.first, hring.last, startIfEmpty_cn, startIfEmpty_cc] at hinside
      rw [startIfEmpty_cq, startIfEmpty_cn, startIfEmpty_cc]
      simp only [hfull, Bool.or_eq_true, Option.isNone_iff_eq_none, decide_eq_true_iff,
        or_false] at hinside
      exact hinside.imp id fun h _ => h
    obtain ⟨clp', hloop, hrings, hcn, hsome⟩ := bToQLoop_rings bytes.length le_rfl hring hinside'
    rw [startIfEmpty_cn, startIfEmpty_cc] at hloop hrings
    rw [startIfEmpty_cn] at hcn
    rw [startIfEmpty_cq] at hsome
    refine ⟨clp', by rw [hloop]; simp, ?_⟩
    exact hrings.holds (hcn.trans hholds.size) (hsome.trans hholds.quotes)

theorem qToB_holds (count : ℤ) (hholds : Holds clp queue)
    (hinside : callInside clp (.qToB count) = true) :
    ∃ clp', call clp (.qToB count) =
        some ((queue.call (.qToB count)).1, clp') ∧
      Holds clp' (queue.call (.qToB count)).2 := by
  rw [call, qToB, Queue.call]
  by_cases hnil : queue.items = []
  · have hzero := hholds.cc_eq_zero hnil
    have hloop : qToBLoop count.toNat clp count.toNat [] = some ([], clp) := by
      cases count.toNat with
      | zero => rfl
      | succ fuel => rw [qToBLoop, if_neg (by omega)]
    refine ⟨clp.resetIfEmpty, by rw [hloop, hnil]; simp, ?_⟩
    apply Holds.resetIfEmpty
    rw [hnil, drop_nil, ← hnil]
    exact hholds
  · obtain ⟨f, hring⟩ := hholds.ring hnil
    rw [callInside, hring.first, hring.last] at hinside
    simp only [Bool.or_eq_true, Option.isNone_iff_eq_none, decide_eq_true_iff] at hinside
    obtain ⟨clp', f', hloop, hrings, hcn, hsome⟩ :=
      qToBLoop_rings count.toNat le_rfl hring [] (hinside.imp id fun h _ => h)
    refine ⟨clp'.resetIfEmpty, by rw [hloop]; simp, ?_⟩
    apply Holds.resetIfEmpty
    exact hrings.holds (hcn.trans hholds.size) (hsome.trans hholds.quotes)

theorem ndflush_holds (count : ℤ) (hholds : Holds clp queue) :
    ∃ clp', call clp (.ndflush count) = some ((queue.call (.ndflush count)).1, clp') ∧
      Holds clp' (queue.call (.ndflush count)).2 := by
  rw [call, ndflush, Queue.call]
  by_cases hall : count = clp.cc
  · have hdrop : queue.items.drop count.toNat = [] := by
      apply drop_eq_nil_of_le
      rw [hall, hholds.count]
      simp
    rw [if_pos hall, hdrop]
    exact ⟨_, rfl, hholds.size, hholds.quotes, rfl, Nat.zero_le _, fun hne => absurd rfl hne⟩
  rw [if_neg hall]
  by_cases hnil : queue.items = []
  · have hzero := hholds.cc_eq_zero hnil
    have hloop : ndflushLoop count.toNat clp count.toNat = some clp := by
      cases count.toNat with
      | zero => rfl
      | succ fuel => rw [ndflushLoop, if_neg (by omega)]
    refine ⟨clp.resetIfEmpty, by rw [hloop]; rfl, ?_⟩
    apply Holds.resetIfEmpty
    rw [hnil, drop_nil, ← hnil]
    exact hholds
  · obtain ⟨f, hring⟩ := hholds.ring hnil
    obtain ⟨clp', f', hloop, hrings, hcn, hsome⟩ := ndflushLoop_rings count.toNat le_rfl hring
    refine ⟨clp'.resetIfEmpty, by rw [hloop]; rfl, ?_⟩
    apply Holds.resetIfEmpty
    exact hrings.holds (hcn.trans hholds.size) (hsome.trans hholds.quotes)

theorem Holds.call (hholds : Holds clp queue) (first : Call)
    (hinside : callInside clp first = true) :
    ∃ clp', call clp first = some ((queue.call first).1, clp') ∧
      Holds clp' (queue.call first).2 := by
  cases first with
  | putc c => exact putc_holds c hholds
  | getc => exact getc_holds hholds
  | unputc => exact unputc_holds hholds
  | bToQ bytes => exact bToQ_holds bytes hholds hinside
  | qToB count => exact qToB_holds count hholds hinside
  | ndflush count => exact ndflush_holds count hholds

def callsInside (clp : Clist) : List Call → Bool
  | [] => true
  | first :: rest => callInside clp first &&
      match call clp first with
      | some (_, clp) => callsInside clp rest
      | none => true

theorem Holds.calls (hholds : Holds clp queue) (sequence : List Call)
    (hinside : callsInside clp sequence = true) :
    ∃ clp', calls clp sequence = some ((queue.calls sequence).1, clp') ∧
      Holds clp' (queue.calls sequence).2 := by
  induction sequence generalizing clp queue with
  | nil => exact ⟨clp, rfl, hholds⟩
  | cons first rest ih =>
    obtain ⟨hfirst, hrest⟩ := Bool.and_eq_true_iff.mp hinside
    obtain ⟨clp₁, hcall, hholds₁⟩ := hholds.call first hfirst
    rw [hcall] at hrest
    obtain ⟨clp', hcalls, hholds'⟩ := ih hholds₁ hrest
    refine ⟨clp', ?_, hholds'⟩
    rw [calls, hcall, Option.bind_some]
    dsimp only
    rw [hcalls]
    rfl

end Clist

open Clist

/-- A new clist and an empty queue give the same results under every sequence of
calls that stays inside the quote map when it clears bits; no other access is out of
bounds. -/
theorem clist_is_queue (n : ℕ) (quot : Bool) (sequence : List Call)
    (hinside : callsInside (clalloc n quot) sequence = true) :
    ∃ clp, calls (clalloc n quot) sequence = some ((Queue.calls ⟨n, quot, []⟩ sequence).1, clp) ∧
      Holds clp (Queue.calls ⟨n, quot, []⟩ sequence).2 := by
  have hstart : Holds (clalloc n quot) ⟨n, quot, []⟩ := by
    refine ⟨rfl, ?_, rfl, Nat.zero_le _, fun hne => absurd rfl hne⟩
    cases quot <;> rfl
  exact hstart.calls sequence hinside

/-! ## A small ring -/

/-- A ring of three bytes that is filled over its end, emptied in two pieces and
filled again. -/
def smallCalls : List Call :=
  [.putc 0x161, .putc 0x62, .putc 0x63, .getc, .putc 0x164, .putc 0x65,
    .qToB 2, .unputc, .bToQ [0x66, 0x67], .ndflush 1, .getc]

theorem clist_is_queue_small :
    ∃ clp, calls (clalloc 3 true) smallCalls =
        some ([.char 0, .char 0, .char 0, .char 0x161, .char 0, .char (-1),
          .bytes [0x62, 0x63], .char 0x164, .count 0, .nothing, .char 0x67], clp) ∧
      Holds clp ⟨3, true, []⟩ := clist_is_queue 3 true smallCalls (by decide)

/-! ## Outside of the quote map -/

/-- Filling a ring of eight bytes at once touches the byte behind its quote map, and
so does taking seven characters that end at the last place of the ring; a queue
would give them back. -/
theorem clist_leaves_quote_map :
    (calls (clalloc 8 true) [.bToQ (List.replicate 8 0x61)]).isNone = true ∧
    (calls (clalloc 8 true) (List.replicate 7 (.putc 0x61) ++ [.qToB 7])).isNone = true ∧
    (Queue.calls ⟨8, true, []⟩ (List.replicate 7 (.putc 0x61) ++ [.qToB 7])).1 =
        List.replicate 7 (.char 0) ++ [.bytes (List.replicate 7 0x61)] := by
  decide

/-! ## Counting with `ndqb` -/

namespace Clist

/-- The queued characters up to the physical end of the ring. -/
def straight (clp : Clist) (items : List (Byte × Bool)) : List (Byte × Bool) :=
  items.take (clp.cn - clp.cf.getD 0)

/-- The number of characters before the first one that has a bit of the flag. -/
def leading (flag : BitVec 32) (items : List (Byte × Bool)) : ℕ :=
  items.findIdx fun item => charOf item &&& flag ≠ 0

variable {clp : Clist} {i f : ℕ} {items : List (Byte × Bool)} {flag : BitVec 32}

theorem charOf_and (item : Byte × Bool) (hflag : flag &&& 0x100 = 0) :
    charOf item &&& flag = item.1.setWidth 32 &&& flag := by
  rw [charOf, BitVec.and_or_distrib_right]
  cases item.2 <;> simp_all [BitVec.and_comm]

theorem ndqbLoop_eq (hflag : flag &&& 0x100 = 0) (cc count : ℕ) (hi : cc = 0 ∨ i < clp.cn) :
    ndqbLoop clp flag false cc i count [] =
      some (count + leading flag ((range' i (min cc (clp.cn - i))).map clp.cell), []) := by
  induction cc generalizing i count with
  | zero => simp [ndqbLoop, leading]
  | succ cc ih =>
    have hlt : i < clp.cn := by omega
    have hmin : min (cc + 1) (clp.cn - i) = min cc (clp.cn - (i + 1)) + 1 := by omega
    have hchar := charOf_and (clp.cell i) hflag
    rw [ndqbLoop, load_eq hlt, hmin, range'_succ, map_cons, leading, findIdx_cons, hchar]
    by_cases hbit : (clp.cs i).setWidth 32 &&& flag = 0#32
    · by_cases hlast : i + 1 = clp.cn
      · simp [cell, testQuote, hbit, hlast]
      · have hnext : i + 1 < clp.cn := by omega
        simp [cell, testQuote, hbit, hlast, ih (count + 1) (.inr hnext), leading]
        omega
    · simp [cell, hbit]

theorem straight_eq (hring : Rings clp f items) :
    clp.straight items = (range' f (min clp.cc (clp.cn - f))).map clp.cell := by
  rw [straight, hring.first, ← hring.items, contents, ← map_take, take_range, range'_eq_map_range,
    map_map, min_comm]
  apply map_congr_left
  intro k hk
  rw [Option.getD_some, mem_range] at hk
  rw [comp_apply, Nat.mod_eq_of_lt (by omega)]

theorem ndqb_data {queue : Queue} (hholds : Holds clp queue) (hflag : flag &&& 0x100 = 0) :
    clp.ndqb flag = some (leading flag (clp.straight queue.items), []) := by
  unfold ndqb
  by_cases hnil : queue.items = []
  · rw [if_pos (hholds.cc_eq_zero hnil), hnil]
    simp [straight, leading]
  · obtain ⟨f, hring⟩ := hholds.ring hnil
    have hpos := length_pos_iff.mpr hnil
    have hbound := hring.bound
    rw [← hholds.count] at hpos
    rw [straight_eq hring, if_neg hpos.ne', hring.first, Option.bind_some,
      if_neg (not_not.mpr hflag)]
    split_ifs with hzero
    · have hall : leading 0 ((range' f (min clp.cc (clp.cn - f))).map clp.cell) =
          min clp.cc (clp.cn - f) := by
        rw [leading, findIdx_eq_length_of_false (by simp), length_map, length_range']
      rw [hzero, hring.last, Option.map_some, last_index hbound hring.fits]
      congr 2
      have hfits := hring.fits
      split_ifs <;> omega
    · rw [ndqbLoop_eq hflag _ _ (.inr hbound), Nat.zero_add]

/-- A character with a data bit of the flag comes first, before any that is quoted. -/
def dataFirst (flag : BitVec 32) : List (Byte × Bool) → Bool
  | [] => false
  | item :: rest => !item.2 && (item.1.setWidth 32 &&& flag ≠ 0 || dataFirst flag rest)

def QueuedAt (clp : Clist) (place : ℕ) : Prop :=
  ∃ k < clp.cc, place = (clp.cf.getD 0 + k) % clp.cn

/-- When `ndqb` counts rightly: the bit of the next place is not looked at, since the flag has
no `TTY_QUOTE` or the first character ends the count, or it does not matter, since a data bit
ends the count before the first quoted character, or since the first two are quoted. -/
def CountsRight (clp : Clist) (flag : BitVec 32) : List (Byte × Bool) → Prop
  | [] => True
  | first :: rest => flag &&& 0x100 = 0 ∨ first.1.setWidth 32 &&& flag ≠ 0 ∨
      clp.cq.isSome ∧ (dataFirst flag (first :: rest) ∨ first.2 ∧ rest.head?.any Prod.snd)

theorem and_data (byte : Byte) (flag : BitVec 32) :
    byte.setWidth 32 &&& (flag &&& ~~~0x100) = byte.setWidth 32 &&& flag := by
  have hbyte : ∀ byte : Byte, byte.setWidth 32 &&& ~~~0x100 = byte.setWidth 32 := by
    decide +kernel
  rw [BitVec.and_comm flag, ← BitVec.and_assoc, hbyte]

theorem charOf_and_quote (item : Byte × Bool) (hflag : flag &&& 0x100 ≠ 0) :
    charOf item &&& flag = 0 ↔ item.1.setWidth 32 &&& flag = 0 ∧ item.2 = false := by
  rw [charOf, BitVec.and_or_distrib_right]
  cases item.2 <;> simp_all [BitVec.and_comm, BitVec.or_eq_zero_iff]

theorem ndqbLoop_le (quotes : Bool) (cc count : ℕ) (places : List ℕ) {c : ℕ} {ps : List ℕ}
    (h : ndqbLoop clp flag quotes cc i count places = some (c, ps)) : count ≤ c := by
  induction cc generalizing i count places with
  | zero => simp_all [ndqbLoop]
  | succ cc ih =>
    rw [ndqbLoop] at h
    obtain ⟨byte, -, h⟩ := Option.bind_eq_some_iff.mp h
    by_cases hdata : byte.setWidth 32 &&& flag ≠ 0
    · simp_all
    · rw [if_neg hdata] at h
      obtain ⟨⟨quoted, place⟩, -, h⟩ := Option.bind_eq_some_iff.mp h
      dsimp only at h
      split_ifs at h
      · simp_all
      · simp_all only [Option.some.injEq, Prod.mk.injEq]
        omega
      · exact (Nat.le_succ _).trans (ih _ _ h)

theorem leading_cons (hflag : flag &&& 0x100 ≠ 0) (item : Byte × Bool)
    (rest : List (Byte × Bool)) : leading flag (item :: rest) =
      if item.1.setWidth 32 &&& flag = 0 ∧ item.2 = false then leading flag rest + 1 else 0 := by
  have hchar := charOf_and_quote item hflag
  rw [leading, findIdx_cons]
  split_ifs with h
  · simp [hchar.mpr h, leading]
  · have hdata : ¬ charOf item &&& flag = 0#32 := mt hchar.mp h
    simp [hdata]

theorem ndqbLoop_data {quotes : Bool} {cc count : ℕ} {places : List ℕ} (hi : i < clp.cn)
    (hdata : (clp.cs i).setWidth 32 &&& flag ≠ 0) :
    ndqbLoop clp (flag &&& ~~~0x100) quotes (cc + 1) i count places = some (count, places) := by
  rw [ndqbLoop, load_eq hi, Option.bind_some, and_data, if_pos hdata]

theorem ndqbLoop_turn {quotes : Bool} {cc count : ℕ} {places : List ℕ} (hi : i < clp.cn)
    (hdata : (clp.cs i).setWidth 32 &&& flag = 0) :
    ndqbLoop clp (flag &&& ~~~0x100) quotes (cc + 1) i count places =
      (clp.testQuote quotes (i + 1)).bind fun (quoted, place) =>
        if quoted then some (count, places ++ place)
        else if i + 1 = clp.cn then some (count + 1, places ++ place)
        else ndqbLoop clp (flag &&& ~~~0x100) quotes cc (i + 1) (count + 1) (places ++ place) := by
  rw [ndqbLoop, load_eq hi, Option.bind_some, and_data, if_neg (not_not.mpr hdata)]

section Quotes

variable {map : ℕ → Byte} (hmap : clp.cq = some map)
include hmap

theorem testQuote_eq (hi : i < clp.cn) : clp.testQuote true i = some ((clp.cell i).2, [i]) := by
  simp [testQuote, hmap, isset_eq (div_lt_qmem hi), cell]

/-- After the last character of the straight part a place is looked at that has no
character. -/
theorem ndqbLoop_last {cc count c : ℕ} {places ps : List ℕ} (hi : i < clp.cn)
    (hdata : (clp.cs i).setWidth 32 &&& flag = 0) (hlast : cc = 0 ∨ i + 1 = clp.cn)
    (h : ndqbLoop clp (flag &&& ~~~0x100) true (cc + 1) i count places = some (c, ps)) :
    i + 1 ∈ ps := by
  rw [ndqbLoop_turn hi hdata] at h
  obtain ⟨⟨quoted, place⟩, htest, h⟩ := Option.bind_eq_some_iff.mp h
  have hplace : place = [i + 1] := by
    simp only [testQuote, if_true, hmap, Option.bind_some, Option.map_eq_some_iff] at htest
    obtain ⟨set, -, hset⟩ := htest
    exact (congrArg Prod.snd hset).symm
  have hps : ps = places ++ place := by
    dsimp only at h
    split_ifs at h with hquoted hend
    · simp_all
    · simp_all
    · obtain rfl : cc = 0 := hlast.resolve_right hend
      simp_all [ndqbLoop]
  simp [hps, hplace]

variable {Read : ℕ → Prop} {places : List ℕ}

/-- A quoted first character is not seen; the count ends at it if the next is quoted. -/
theorem ndqbLoop_quoted (cc : ℕ) (hi : i < clp.cn)
    (hdata : (clp.cs i).setWidth 32 &&& flag = 0)
    (hread : ∀ j, i < j → j < i + min (cc + 1) (clp.cn - i) → Read j)
    (hbehind : ¬ Read (i + min (cc + 1) (clp.cn - i))) :
    (∃ ps, ndqbLoop clp (flag &&& ~~~0x100) true (cc + 1) i 0 [] = some (0, ps) ∧
        ∀ p ∈ ps, Read p) ↔
      (((range' (i + 1) (min cc (clp.cn - (i + 1)))).map clp.cell).head?.any Prod.snd) = true := by
  have hmin : min (cc + 1) (clp.cn - i) = min cc (clp.cn - (i + 1)) + 1 := by omega
  rw [hmin] at hread hbehind
  by_cases hlast : cc = 0 ∨ i + 1 = clp.cn
  · have hnone : min cc (clp.cn - (i + 1)) = 0 := by omega
    rw [hnone] at hbehind ⊢
    refine ⟨?_, by simp⟩
    rintro ⟨ps, hloop, hps⟩
    exact absurd (hps _ (ndqbLoop_last hmap hi hdata hlast hloop)) hbehind
  obtain ⟨m, rfl⟩ : ∃ m, cc = m + 1 := Nat.exists_eq_succ_of_ne_zero (by tauto)
  have hnext : i + 1 < clp.cn := by omega
  have hcons : min (m + 1) (clp.cn - (i + 1)) = min m (clp.cn - (i + 2)) + 1 := by omega
  rw [ndqbLoop_turn hi hdata, testQuote_eq hmap hnext, Option.bind_some, hcons, range'_succ,
    map_cons,
    head?_cons, Option.any_some]
  dsimp only
  cases (clp.cell (i + 1)).2 with
  | true => simpa using hread (i + 1) (by omega) (by omega)
  | false =>
    rw [if_neg Bool.false_ne_true, if_neg (by tauto)]
    refine ⟨?_, by simp⟩
    rintro ⟨ps, hloop, -⟩
    exact absurd (ndqbLoop_le _ _ _ _ hloop) (by omega)

variable (hflag : flag &&& 0x100 ≠ 0)
include hflag

-- the character at `i` is not quoted, as the turn before has seen
theorem ndqbLoop_quotes (cc count : ℕ) (hi : i < clp.cn) (hhead : (clp.cell i).2 = false)
    (hread : ∀ j, i < j → j < i + min (cc + 1) (clp.cn - i) → Read j)
    (hbehind : ¬ Read (i + min (cc + 1) (clp.cn - i))) (hplaces : ∀ p ∈ places, Read p) :
    (∃ ps, ndqbLoop clp (flag &&& ~~~0x100) true (cc + 1) i count places =
        some (count + leading flag ((range' i (min (cc + 1) (clp.cn - i))).map clp.cell), ps) ∧
      ∀ p ∈ ps, Read p) ↔
      dataFirst flag ((range' i (min (cc + 1) (clp.cn - i))).map clp.cell) = true := by
  induction cc using Nat.strong_induction_on generalizing i count places with
  | _ cc ih =>
    have hmin : min (cc + 1) (clp.cn - i) = min cc (clp.cn - (i + 1)) + 1 := by omega
    rw [hmin] at hread hbehind ⊢
    rw [range'_succ, map_cons, leading_cons hflag, dataFirst, hhead]
    by_cases hdata : (clp.cs i).setWidth 32 &&& flag = 0#32
    swap
    · rw [ndqbLoop_data hi hdata]
      simpa [cell, hdata] using hplaces
    have hfirst : (clp.cell i).1.setWidth 32 &&& flag = 0 := hdata
    rw [if_pos ⟨hfirst, rfl⟩]
    by_cases hlast : cc = 0 ∨ i + 1 = clp.cn
    · have hnone : min cc (clp.cn - (i + 1)) = 0 := by omega
      rw [hnone] at hbehind ⊢
      simp only [range'_zero, map_nil, dataFirst, hfirst]
      refine ⟨?_, by simp⟩
      rintro ⟨ps, hloop, hps⟩
      exact absurd (hps _ (ndqbLoop_last hmap hi hdata hlast hloop)) hbehind
    obtain ⟨m, rfl⟩ : ∃ m, cc = m + 1 := Nat.exists_eq_succ_of_ne_zero (by tauto)
    have hnext : i + 1 < clp.cn := by omega
    rw [ndqbLoop_turn hi hdata, testQuote_eq hmap hnext, Option.bind_some]
    dsimp only
    have hcons : min (m + 1) (clp.cn - (i + 1)) = min m (clp.cn - (i + 2)) + 1 := by omega
    cases hquoted : (clp.cell (i + 1)).2 with
    | true =>
      rw [hcons, range'_succ, map_cons, dataFirst, hquoted, hfirst]
      simp
    | false =>
      have hplaces' : ∀ p ∈ places ++ [i + 1], Read p := by
        rintro p hp
        obtain hp | hp := mem_append.mp hp
        · exact hplaces p hp
        · exact mem_singleton.mp hp ▸ hread _ (by omega) (by omega)
      have hrest := ih m (by omega) (count + 1) hnext hquoted
        (fun j hj hjk => hread j (by omega) (by omega))
        (by rwa [add_assoc, add_comm 1]) hplaces'
      rw [if_neg Bool.false_ne_true, if_neg (by tauto)]
      simpa [hfirst, add_assoc, add_comm 1] using hrest

end Quotes

theorem countsRight_data (hflag : flag &&& 0x100 = 0) : clp.CountsRight flag items := by
  cases items with
  | nil => trivial
  | cons first rest => exact .inl hflag

theorem queuedAt_straight (hring : Rings clp f items) {j : ℕ} (hj : f < j)
    (hend : j < f + min clp.cc (clp.cn - f)) : clp.QueuedAt j := by
  refine ⟨j - f, by omega, ?_⟩
  rw [hring.first, Option.getD_some, Nat.mod_eq_of_lt (by omega)]
  omega

theorem not_queuedAt_behind (hring : Rings clp f items) :
    ¬ clp.QueuedAt (f + min clp.cc (clp.cn - f)) := by
  rintro ⟨k, hk, heq⟩
  have hbound := hring.bound
  have hlt := Nat.mod_lt (f + k) (by omega : 0 < clp.cn)
  rw [hring.first, Option.getD_some] at heq
  by_cases hstraight : f + clp.cc < clp.cn
  · rw [Nat.mod_eq_of_lt (by omega)] at heq
    omega
  · omega

theorem ndqb_quotes (hring : Rings clp f items) (hpos : 0 < clp.cc) (hflag : flag &&& 0x100 ≠ 0) :
    (∃ places, clp.ndqb flag = some (leading flag (clp.straight items), places) ∧
        ∀ place ∈ places, clp.QueuedAt place) ↔ clp.CountsRight flag (clp.straight items) := by
  obtain ⟨c, hc⟩ := Nat.exists_eq_add_of_lt hpos
  rw [Nat.zero_add] at hc
  have hi := hring.bound
  have hread := fun j => queuedAt_straight (j := j) hring
  have hbehind := not_queuedAt_behind hring
  have hndqb : clp.ndqb flag = ndqbLoop clp (flag &&& ~~~0x100) true (c + 1) f 0 [] := by
    have hzero : flag ≠ 0 := by
      rintro rfl
      simp at hflag
    rw [ndqb, if_neg hpos.ne', hring.first, Option.bind_some, if_neg hzero, if_pos hflag, hc]
  rw [hc] at hread hbehind
  rw [hndqb, straight_eq hring, hc]
  have hmin : min (c + 1) (clp.cn - f) = min c (clp.cn - (f + 1)) + 1 := by omega
  by_cases hdata : (clp.cs f).setWidth 32 &&& flag = 0#32
  swap
  · rw [ndqbLoop_data hi hdata, hmin, range'_succ, map_cons, leading_cons hflag]
    simp [CountsRight, cell, hdata]
  cases hcq : clp.cq with
  | none =>
    rw [ndqbLoop_turn hi hdata, hmin, range'_succ, map_cons]
    simp [CountsRight, cell, hdata, testQuote, hcq, show ¬ flag &&& 0x100#32 = 0#32 from hflag]
  | some map =>
    cases hquoted : (clp.cell f).2 with
    | false =>
      have hloop := ndqbLoop_quotes hcq hflag c 0 hi hquoted hread hbehind (by simp : ∀ p ∈ [], _)
      rw [Nat.zero_add] at hloop
      rw [hloop, hmin, range'_succ, map_cons]
      simp [CountsRight, hcq, hquoted, show (clp.cell f).1.setWidth 32 &&& flag = 0#32 from hdata,
        show ¬ flag &&& 0x100#32 = 0#32 from hflag]
    | true =>
      rw [hmin, range'_succ, map_cons, leading_cons hflag, if_neg (by simp [hquoted]),
        ndqbLoop_quoted hcq c hi hdata hread hbehind]
      simp [CountsRight, dataFirst, hcq, hquoted,
        show (clp.cell f).1.setWidth 32 &&& flag = 0#32 from hdata,
        show ¬ flag &&& 0x100#32 = 0#32 from hflag]

end Clist

open Clist

/-- The characters up to the physical end of the ring that are before the first with a bit of
the flag are counted, and only quote bits of queued characters are read, in the clists and
with the flags of `CountsRight`. -/
theorem ndqb_counts_leading {clp : Clist} {queue : Queue} (hholds : Holds clp queue)
    (flag : BitVec 32) :
    (∃ places, clp.ndqb flag = some (leading flag (clp.straight queue.items), places) ∧
        ∀ place ∈ places, clp.QueuedAt place) ↔
      clp.CountsRight flag (clp.straight queue.items) := by
  by_cases hflag : flag &&& 0x100 = 0
  · exact ⟨fun _ => countsRight_data hflag, fun _ => ⟨[], ndqb_data hholds hflag, by simp⟩⟩
  by_cases hnil : queue.items = []
  · rw [ndqb, if_pos (hholds.cc_eq_zero hnil), hnil]
    simp [straight, leading, CountsRight]
  · obtain ⟨f, hring⟩ := hholds.ring hnil
    have hpos := length_pos_iff.mpr hnil
    rw [← hholds.count] at hpos
    exact ndqb_quotes hring hpos hflag

/-- Two characters at the start of a ring. -/
def twoQueued : Clist where
  cn := 4
  cs := fun i => if i = 0 then 0x61 else 0x62
  cq := some fun _ => 0
  cf := some 0
  cl := some 2
  cc := 2

theorem ndqb_counts_leading_two :
    ∃ places, twoQueued.ndqb 0x102 = some (1, places) ∧
      ∀ place ∈ places, twoQueued.QueuedAt place :=
  (ndqb_counts_leading (show Holds twoQueued ⟨4, true, [(0x61, false), (0x62, false)]⟩ from
    ⟨rfl, rfl, rfl, by decide, fun _ => ⟨0, rfl, by decide, rfl, by decide, rfl⟩⟩) 0x102).mpr
      (.inr (.inr ⟨rfl, .inl rfl⟩))

/-- With `TTY_QUOTE` the quote bit of the next place is looked at: a quoted second
character stops the count at the first one, a quoted first one does not stop it, and
behind a full ring there is no map. -/
theorem ndqb_looks_behind :
    ((calls (clalloc 4 true) [.putc 0x61, .putc 0x162]).bind (·.2.ndqb 0x100)) = some (0, [1]) ∧
    leading 0x100 [(0x61, false), (0x62, true)] = 1 ∧
    ((calls (clalloc 4 true) [.putc 0x161, .putc 0x62]).bind (·.2.ndqb 0x100)) = some (2, [1, 2]) ∧
    leading 0x100 [(0x61, true), (0x62, false)] = 0 ∧
    ((calls (clalloc 8 true) (replicate 8 (.putc 0x61))).map (·.2.ndqb 0x100)) = some none := by
  decide

end AerieKernel.Tty
