import AerieKernel.GuardedRuns

/-!
# The name cache

The model of `vfs_cache.c`: cache slots on hash chains and on the LRU list, invalidated by
new vnode ids.  Vnodes and slots are numbered; NULL is `none`.  The reverse chains, which
only `cache_revlookup` reads, and the locks of the vnodes are left out.
-/

namespace AerieKernel.NameCache

open Function

abbrev Name := List UInt8

def nchnamlen : ℕ := 31

/-- The width of `u_long`, the size of the cache and `NCHASH`, where the hash of a name is
a function of the name. -/
structure Config where
  ulong : ℕ
  desiredvnodes : ℕ
  nchash : ℕ → Name → ℕ
  doingcache : Bool
  wide : 32 ≤ ulong

/-- `struct namecache`; `hashed` is the chain that the slot is on. -/
structure Entry where
  dvp : Option ℕ
  dvpid : ℕ
  vp : Option ℕ
  vpid : ℕ
  name : Name
  hashed : Option ℕ

structure Cache where
  entry : ℕ → Entry
  chain : ℕ → List ℕ
  lru : List ℕ
  numcache : ℕ
  vid : ℕ → ℕ
  nextvnodeid : ℕ

structure Component where
  name : Name
  makeentry : Bool
  create : Bool
  islastcn : Bool

inductive Wait where
  | locked
  | failed
  | relockFailed
  deriving DecidableEq

inductive Reply where
  | found (vp : ℕ)
  | enoent
  | miss
  | error
  deriving DecidableEq

namespace Cache

def unhash (c : Cache) (i : ℕ) : Cache :=
  match (c.entry i).hashed with
  | none => c
  | some b =>
    { c with
      entry := update c.entry i { c.entry i with hashed := none }
      chain := update c.chain b ((c.chain b).erase i) }

def isFor (c : Cache) (dvp : ℕ) (name : Name) (i : ℕ) : Bool :=
  (c.entry i).dvp = some dvp ∧ (c.entry i).dvpid = c.vid dvp ∧ (c.entry i).name = name

variable (cfg : Config) (c : Cache)

def search (dvp : ℕ) (name : Name) : Option ℕ :=
  (c.chain (cfg.nchash (c.vid dvp) name)).find? (c.isFor dvp name)

def unwanted (cn : Component) (i : ℕ) : Bool :=
  !cn.makeentry ||
    match (c.entry i).vp with
    | none => cn.create && cn.islastcn
    | some vp => (c.entry i).vpid ≠ c.vid vp

def touch (i : ℕ) : Cache := { c with lru := c.lru.erase i ++ [i] }

/-- The end of `cache_lookup` under `remove`. -/
def remove (i : ℕ) : Cache :=
  let c := c.unhash i
  { c with lru := i :: c.lru.erase i }

/-- `cache_lookup`; nothing else happens while it waits for a lock. -/
def lookup (dvp : ℕ) (cn : Component) (wait : Wait) : Cache × Reply :=
  if !cfg.doingcache || nchnamlen < cn.name.length then (c, .miss)
  else
    match c.search cfg dvp cn.name with
    | none => (c, .miss)
    | some i =>
      if c.unwanted cn i then (c.remove i, .miss)
      else
        match (c.entry i).vp with
        | none => (c.touch i, .enoent)
        | some vp =>
          if vp = dvp then (c.touch i, .found vp)
          else
            match wait with
            | .locked => (c.touch i, .found vp)
            | .failed => (c, .miss)
            | .relockFailed => (c, .error)

def slot : Option (Cache × ℕ) :=
  if c.numcache < cfg.desiredvnodes then
    some ({ c with
      numcache := c.numcache + 1
      entry := update c.entry c.numcache ⟨none, 0, none, 0, [], none⟩ }, c.numcache)
  else
    match c.lru with
    | [] => none
    | i :: rest => some (({ c with lru := rest } : Cache).unhash i, i)

def fill (i dvp : ℕ) (vp : Option ℕ) (name : Name) : Cache :=
  let b := cfg.nchash (c.vid dvp) name
  let vpid :=
    match vp with
    | none => (c.entry i).vpid
    | some vp => c.vid vp
  { c with
    entry := update c.entry i ⟨some dvp, c.vid dvp, vp, vpid, name, some b⟩
    lru := c.lru ++ [i]
    chain := update c.chain b (i :: c.chain b) }

def enter (dvp : ℕ) (vp : Option ℕ) (name : Name) : Cache :=
  if !cfg.doingcache || nchnamlen < name.length then c
  else
    match c.slot cfg with
    | none => c
    | some (c, i) => c.fill cfg i dvp vp name

def flush : Cache :=
  { c with
    entry := fun i =>
      if (c.entry i).hashed.isSome then { c.entry i with vpid := 0, dvpid := 0 }
      else c.entry i }

/-- Give a vnode the next id; the id of a vnode is a `u_int`. -/
def newId (vp : ℕ) : Cache :=
  let next := (c.nextvnodeid + 1) % 2 ^ cfg.ulong
  { c with nextvnodeid := next, vid := update c.vid vp (next % 2 ^ 32) }

def purge (vp : ℕ) : Cache :=
  let c := c.newId cfg vp
  if c.nextvnodeid ≠ 0 then c else c.flush.newId cfg vp

def discard (i : ℕ) : Cache :=
  let c := { c with
    entry := update c.entry i { c.entry i with vp := none, dvp := none }
    lru := c.lru.erase i }
  let c := c.unhash i
  { c with lru := i :: c.lru }

def marked (onMount : ℕ → Bool) (c : Cache) (i : ℕ) : Bool :=
  ((c.entry i).dvp.map onMount).getD false

/-- The loop of `cache_purgevfs`, where `cursor` is the rest of the LRU list. -/
def purgevfsLoop (onMount : ℕ → Bool) : ℕ → List ℕ → Cache → Cache
  | 0, _, c => c
  | _ + 1, [], c => c
  | fuel + 1, i :: rest, c =>
    if c.marked onMount i then
      purgevfsLoop onMount fuel (c.lru.erase i) (c.discard i)
    else purgevfsLoop onMount fuel rest c

/-- `cache_purgevfs` of the mount that the vnodes in `onMount` belong to. -/
def purgevfs (onMount : ℕ → Bool) (c : Cache) : Cache :=
  purgevfsLoop onMount ((c.lru.length + 1) * (c.lru.length + 1)) c.lru c

end Cache

/-! ## The system -/

inductive Event where
  | enter (dvp : ℕ) (vp : Option ℕ) (name : Name)
  | lookup (dvp : ℕ) (cn : Component) (wait : Wait)
  | purge (vp : ℕ)
  | purgevfs (onMount : ℕ → Bool)

/-- The cache, and for each directory and name the target that was entered last if nothing
has made it invalid since. -/
structure System where
  cache : Cache
  latest : ℕ → Name → Option (Option ℕ)

def remember (latest : ℕ → Name → Option (Option ℕ)) : Event → ℕ → Name → Option (Option ℕ)
  | .enter dvp vp name, d, n => if d = dvp ∧ n = name then some vp else latest d n
  | .lookup dvp cn _, d, n =>
    if d = dvp ∧ n = cn.name ∧
      (cn.makeentry = false ∨
        latest d n = some none ∧ cn.create = true ∧ cn.islastcn = true) then none
    else latest d n
  | .purge vp, d, n =>
    if d = vp ∨ latest d n = some (some vp) then none else latest d n
  | .purgevfs _, d, n => latest d n

def stepCache (cfg : Config) (c : Cache) : Event → Cache
  | .enter dvp vp name => c.enter cfg dvp vp name
  | .lookup dvp cn wait => (c.lookup cfg dvp cn wait).1
  | .purge vp => c.purge cfg vp
  | .purgevfs onMount => c.purgevfs onMount

def step (cfg : Config) (sys : System) (event : Event) : Option System :=
  some ⟨stepCache cfg sys.cache event, remember sys.latest event⟩

def boot : System where
  cache :=
    { entry := fun _ => ⟨none, 0, none, 0, [], none⟩
      chain := fun _ => []
      lru := []
      numcache := 0
      vid := fun _ => 0
      nextvnodeid := 0 }
  latest := fun _ _ => none

end AerieKernel.NameCache
