import AerieKernel.SplayTrees
import AerieKernel.GuardedRuns
import Mathlib.Data.BitVec

/-!
# Pools of fixed-size items

The model of `subr_pool.c`.  A pool has pages, named by their addresses, and each page has
`pr_itemsperpage` items, numbered in the order in which `pool_prime_page` lays them out.
`pr_mtx` is held from one release to the next, so an event is a whole locked section: it
ends when the caller returns, when it goes to sleep, and when a caller that may wait is
in the page allocator.  `none` is a panic; the checks under DIAGNOSTIC are made.

A grant is what the page allocator gives, `none` if it or the allocation of the page's
header fails.  A section has a list of them; once it is used up, allocations fail.
-/

namespace AerieKernel.Pools

structure Header where
  itemlist : List ℕ
  nmissing : ℕ

/-- `struct pool`.  `pr_phtree` is used only if the headers are not in the pages. -/
structure Pool where
  emptypages : List ℕ
  partpages : List ℕ
  fullpages : List ℕ
  curpage : Option ℕ
  header : ℕ → Header
  phtree : Splay.Tree ℕ
  phinpage : Bool
  itemsperpage : ℕ
  minitems : ℕ
  minpages : ℕ
  maxpages : ℕ
  npages : ℕ
  nitems : ℕ
  nout : ℕ
  nidle : ℕ
  hardlimit : ℕ
  wanted : Bool

/-- `pool_init`, with the limits that are set before the first use. -/
def poolInit (phinpage : Bool) (itemsperpage maxpages hardlimit : ℕ) : Pool where
  emptypages := []
  partpages := []
  fullpages := []
  curpage := none
  header := fun _ => ⟨[], 0⟩
  phtree := .nil
  phinpage := phinpage
  itemsperpage := itemsperpage
  minitems := 0
  minpages := 0
  maxpages := maxpages
  npages := 0
  nitems := 0
  nout := 0
  nidle := 0
  hardlimit := hardlimit
  wanted := false

namespace Pool

/-! ## Pages -/

variable (pp : Pool) (ph : ℕ)

/-- `LIST_REMOVE`: a page is taken from the list that it is on. -/
def unlink : Pool :=
  { pp with
    emptypages := pp.emptypages.erase ph
    partpages := pp.partpages.erase ph
    fullpages := pp.fullpages.erase ph }

def toEmpty : Pool :=
  { pp.unlink ph with emptypages := ph :: (pp.unlink ph).emptypages }

def toPart : Pool :=
  { pp.unlink ph with partpages := ph :: (pp.unlink ph).partpages }

def toFull : Pool :=
  { pp.unlink ph with fullpages := ph :: (pp.unlink ph).fullpages }

def setHeader (header : Header) : Pool :=
  { pp with header := Function.update pp.header ph header }

def updateCurpage : Pool :=
  match pp.partpages.head? with
  | some ph => { pp with curpage := some ph }
  | none => { pp with curpage := pp.emptypages.head? }

/-- `pr_rmpage`; the page itself is freed now or later. -/
def rmpage : Option Pool :=
  let idle := (pp.header ph).nmissing = 0
  if idle ∧ (pp.nidle = 0 ∨ pp.nitems < pp.itemsperpage) then none
  else
    let pp := if idle then { pp with nidle := pp.nidle - 1 } else pp
    let pp := { pp with nitems := pp.nitems - pp.itemsperpage }
    let pp := pp.unlink ph
    let pp := if pp.phinpage then pp else { pp with phtree := (pp.phtree.remove compare ph).2 }
    let pp := { pp with npages := pp.npages - 1 }
    some pp.updateCurpage

def primePage : Pool :=
  let pp := { pp with emptypages := ph :: pp.emptypages }
  let pp := pp.setHeader ph ⟨List.range pp.itemsperpage, 0⟩
  let pp := if pp.phinpage then pp else { pp with phtree := (pp.phtree.insert compare ph).2 }
  let pp := { pp with nidle := pp.nidle + 1, nitems := pp.nitems + pp.itemsperpage }
  let pp := if pp.curpage = none then { pp with curpage := some ph } else pp
  { pp with npages := pp.npages + 1 }

def catchup : List (Option ℕ) → Pool → Pool
  | some page :: grants, pp =>
    if pp.nitems < pp.minitems then catchup grants (pp.primePage page) else pp
  | _, pp => pp

/-! ## Getting an item -/

/-- What a locked section of `pool_get` ends with. -/
inductive Outcome where
  | item (page i : ℕ)
  | failed
  | asleep
  | allocating
  deriving DecidableEq

/-- The part of `pool_do_get` that takes an item from the current page. -/
def takeItem (grants : List (Option ℕ)) : Option (Pool × Outcome) :=
  match (pp.header ph).itemlist with
  | [] => none
  | i :: items =>
    let nmissing := (pp.header ph).nmissing
    if pp.nitems = 0 then none
    else if nmissing = 0 ∧ pp.nidle = 0 then none
    else
      let pp := { pp with nitems := pp.nitems - 1, nout := pp.nout + 1 }
      let pp := if nmissing = 0 then { pp.toPart ph with nidle := pp.nidle - 1 } else pp
      let pp := pp.setHeader ph ⟨items, nmissing + 1⟩
      if items = [] then
        if nmissing + 1 ≠ pp.itemsperpage then none
        else some ((pp.toFull ph).updateCurpage.catchup grants, .item ph i)
      else some (pp.catchup grants, .item ph i)

/-- `pool_do_get` from `startover` on. -/
def doGet (waitok limitfail : Bool) : List (Option ℕ) → Pool → Option (Pool × Outcome)
  | grants, pp =>
    if pp.hardlimit < pp.nout then none
    else if pp.nout = pp.hardlimit then
      if waitok && !limitfail then some ({ pp with wanted := true }, .asleep)
      else some (pp, .failed)
    else
      match pp.curpage with
      | some ph => pp.takeItem ph grants
      | none =>
        if pp.nitems ≠ 0 then none
        else if waitok then some (pp, .allocating)
        else
          match grants with
          | some page :: grants => doGet waitok limitfail grants (pp.primePage page)
          | _ => some (pp, .failed)

/-- The rest of `pool_do_get` for a caller that has been in the page allocator. -/
def doGetAllocated (limitfail : Bool) (grant : Option ℕ) (grants : List (Option ℕ))
    (pp : Pool) : Option (Pool × Outcome) :=
  match grant with
  | none => some ({ pp with wanted := true }, .asleep)
  | some page => doGet true limitfail grants (pp.primePage page)

/-! ## Putting an item back -/

def findPagehead (page : ℕ) : Option Pool :=
  if pp.phinpage then some pp
  else
    match pp.phtree.find compare page with
    | (some _, phtree) => some { pp with phtree }
    | (none, _) => none

/-- The part of `pool_do_put` after the page's header has been found. -/
def putItem (page i : ℕ) : Option Pool :=
  let nmissing := (pp.header page).nmissing - 1
  let pp := pp.setHeader page ⟨i :: (pp.header page).itemlist, nmissing⟩
  let pp := { pp with
    nitems := pp.nitems + 1
    nout := pp.nout - 1
    curpage := if pp.curpage = none then some page else pp.curpage }
  if pp.wanted then
    -- the page stays on the list that it is on
    let pp := { pp with wanted := false }
    some (if nmissing = 0 then { pp with nidle := pp.nidle + 1 } else pp)
  else if nmissing = 0 then
    let pp := { pp with nidle := pp.nidle + 1 }
    if pp.maxpages < pp.nidle then (pp.rmpage page).map updateCurpage
    else some (pp.toEmpty page).updateCurpage
  else if nmissing = pp.itemsperpage - 1 then
    some { pp.toPart page with curpage := some page }
  else some pp

def doPut (page i : ℕ) : Option Pool :=
  if pp.nout = 0 then none
  else (pp.findPagehead page).bind fun pp => pp.putItem page i

/-! ## Water marks -/

def pagesFor (n : BitVec 32) : BitVec 32 :=
  let y := BitVec.ofNat 32 pp.itemsperpage
  (n + (y - 1)) / y * y / y

def primeLoop : ℕ → List (Option ℕ) → Pool → Pool
  | count + 1, some page :: grants, pp =>
    primeLoop count grants { pp.primePage page with minpages := pp.minpages + 1 }
  | _, _, pp => pp

def prime (n : BitVec 32) (grants : List (Option ℕ)) : Pool :=
  let pp := primeLoop (pp.pagesFor n).toInt.toNat grants pp
  if pp.maxpages ≤ pp.minpages then { pp with maxpages := pp.minpages + 1 } else pp

def setlowat (n : BitVec 32) (grants : List (Option ℕ)) : Pool :=
  let pp := { pp with
    minitems := n.toNat
    minpages := if n = 0 then 0 else (pp.pagesFor n).toNat }
  catchup grants pp

/-- The loop of `pool_reclaim`, with the rest of the list of empty pages.  The
subtraction in its second test wraps. -/
def reclaimLoop : List ℕ → Pool → Option Pool
  | [], pp => some pp
  | ph :: rest, pp =>
    if pp.npages ≤ pp.minpages then some pp
    else if (pp.header ph).nmissing ≠ 0 then none
    else if pp.itemsperpage ≤ pp.nitems ∧ pp.nitems - pp.itemsperpage < pp.minitems then
      some pp
    else (pp.rmpage ph).bind (reclaimLoop rest)

def reclaim : Option Pool := reclaimLoop pp.emptypages pp

end Pool

/-! ## The system -/

inductive Caller where
  | idle
  | asleep (limitfail : Bool)
  | allocating (limitfail : Bool)
  deriving DecidableEq

/-- A pool, its callers and the items that they have got and not put back. -/
structure State where
  pool : Pool
  callers : ℕ → Caller
  out : List (ℕ × ℕ)

def start (phinpage : Bool) (itemsperpage maxpages hardlimit : ℕ) : State :=
  ⟨poolInit phinpage itemsperpage maxpages hardlimit, fun _ => .idle, []⟩

inductive Event where
  | get (caller : ℕ) (waitok limitfail : Bool) (grants : List (Option ℕ))
  | woken (caller : ℕ) (grants : List (Option ℕ))
  | allocated (caller : ℕ) (grant : Option ℕ) (grants : List (Option ℕ))
  | put (page i : ℕ)
  | prime (n : BitVec 32) (grants : List (Option ℕ))
  | setlowat (n : BitVec 32) (grants : List (Option ℕ))
  | reclaim

def State.got (s : State) (caller : ℕ) (limitfail : Bool) : Pool × Pool.Outcome → State
  | (pool, .item page i) =>
    ⟨pool, Function.update s.callers caller .idle, (page, i) :: s.out⟩
  | (pool, .failed) => ⟨pool, Function.update s.callers caller .idle, s.out⟩
  | (pool, .asleep) => ⟨pool, Function.update s.callers caller (.asleep limitfail), s.out⟩
  | (pool, .allocating) =>
    ⟨pool, Function.update s.callers caller (.allocating limitfail), s.out⟩

/-- One locked section.  An event that cannot happen and a panic have no successor. -/
def step (s : State) : Event → Option State
  | .get caller waitok limitfail grants =>
    (s.pool.doGet waitok limitfail grants).map (s.got caller limitfail)
  | .woken caller grants =>
    match s.callers caller with
    | .asleep limitfail =>
      (s.pool.doGet true limitfail grants).map (s.got caller limitfail)
    | _ => none
  | .allocated caller grant grants =>
    match s.callers caller with
    | .allocating limitfail =>
      (s.pool.doGetAllocated limitfail grant grants).map (s.got caller limitfail)
    | _ => none
  | .put page i =>
    (s.pool.doPut page i).map fun pool =>
      { s with pool, out := s.out.erase (page, i) }
  | .prime n grants => some { s with pool := s.pool.prime n grants }
  | .setlowat n grants => some { s with pool := s.pool.setlowat n grants }
  | .reclaim => s.pool.reclaim.map fun pool => { s with pool }

end AerieKernel.Pools
