import Mathlib
import Veles.Consensus.TxVerify

/-!
# `CCoinsViewCache`: the coins cache over a backing view

From coins.h, coins.cpp and txdb.cpp.  A `CCoinsViewCache` keeps a map `cacheCoins` of entries
over a `base` view: `FetchCoin` copies a coin of the base into the map, `AddCoin` and `SpendCoin`
change the map only, and `Flush` hands the map to `base->BatchWrite`.  Each entry carries the two
bits of its `flags`: `DIRTY`, the entry may differ from the base, and `FRESH`, the base has no
unspent coin there.  A base is any `CCoinsView`: the database `CCoinsViewDB`, or another cache,
so that the layers of the node (`pcoinsdbview`, `pcoinsTip`, the caches of `ConnectBlock`) are
`CCoinsViewCache (CCoinsViewCache CCoinsViewDB)` and so on.

The coins a view reports, what its `GetCoin` returns, are `LawfulCoinsView.view`; for a cache
it is its map laid over the view of its base (`overlay`).  The flags of an entry promise
something about the base at its outpoint (`EntrySound`).  Where they hold for every entry,
`FetchCoin` changes nothing that the cache reports, and `BatchWrite` of a child into a cache
never throws and leaves the parent reporting the child's coins:

    c.Inv → (c.fetchCoin o).1.Inv ∧ (c.fetchCoin o).1.view = c.view        (Inv.fetchCoin)
    c.Inv → FlagsSound m c.view →
      ∃ c', c.batchWrite m h = .ok c' ∧ c'.Inv ∧ c'.view = overlay m c.view (batchWrite_spec)

so that a cache over a lawful view is a lawful view (`instLawfulCoinsViewCache`), and every
stack of caches over the database is one.

`cachedCoinsUsage` counts the memory of the cached coins: each operation adds or takes off the
`DynamicMemoryUsage()` of the coins it puts in or drops, and `Inv` keeps it equal to the sum over
the map (`usageSum`), so that no `-=` of the source goes below zero.  A coin's usage is that of
its script's heap buffer, taken to be as large as the script (`dynamicMemoryUsage`); the
`size_t` counter is a `Nat`, which the invariant keeps far below `2 ^ 64`.
-/

namespace Veles

namespace Coins

/-- `uint256::IsNull()`. -/
def uint256IsNull (hash : Vector UInt8 32) : Bool := hash.toList.all (· == 0)

/-- `uint256()`. -/
def uint256Zero : Vector UInt8 32 := Vector.replicate 32 0

/-- `CScript::IsUnspendable()`: an `OP_RETURN` script, or one over `MAX_SCRIPT_SIZE` bytes. -/
def isUnspendable (script : List UInt8) : Bool :=
  (match script with
    | op :: _ => op == OP_RETURN
    | [] => false) || decide (script.length > MAX_SCRIPT_SIZE)

/-- How an operation of a coins view ends when it does not return. -/
inductive CoinsError where
  /-- An `assert` that does not hold. -/
  | assertFailure
  /-- A thrown `std::logic_error`, with its `what()`. -/
  | logicError (what : String)
  deriving DecidableEq, Repr

/-- `CCoinsCacheEntry`: the cached coin and the two bits of `flags` the source uses. -/
structure CCoinsCacheEntry where
  coin : Coin
  /-- `flags & CCoinsCacheEntry::DIRTY`. -/
  dirty : Bool
  /-- `flags & CCoinsCacheEntry::FRESH`. -/
  fresh : Bool
  deriving DecidableEq, Repr

/-- `CCoinsMap`: an `unordered_map` from outpoints to entries. -/
abbrev CCoinsMap := AList fun _ : COutPoint => CCoinsCacheEntry

/-- The coin an entry reports: its coin, unless it is spent. -/
def CCoinsCacheEntry.unspentCoin (e : CCoinsCacheEntry) : Option Coin :=
  if e.coin.isSpent then none else some e.coin

/-- `memusage::MallocUsage(alloc)` on a 64-bit platform. -/
def mallocUsage (alloc : Nat) : Nat := if alloc = 0 then 0 else ((alloc + 31) >>> 4) <<< 4

/-- `Coin::DynamicMemoryUsage()`: `MallocUsage` of the heap buffer of the script's
`prevector<28, unsigned char>`, which keeps up to 28 bytes in place.  The buffer is taken to be
as large as the script, as a copy or a read of a script allocates it. -/
def dynamicMemoryUsage (coin : Coin) : Nat :=
  mallocUsage (if coin.out.scriptPubKey.length ≤ 28 then 0 else coin.out.scriptPubKey.length)

/-- The sum of `DynamicMemoryUsage()` over the coins of a map: what `cachedCoinsUsage` counts. -/
def usageSum (cacheCoins : CCoinsMap) : Nat :=
  (cacheCoins.entries.map fun e => dynamicMemoryUsage e.2.coin).sum

/-- The coins a map of entries reports over the coins `parent` of the view under it. -/
def overlay (cacheCoins : CCoinsMap) (parent : COutPoint → Option Coin) (outpoint : COutPoint) :
    Option Coin :=
  match cacheCoins.lookup outpoint with
  | some e => e.unspentCoin
  | none => parent outpoint

/-- What the flags of an entry promise about the coin `parent` of the view under it at its
outpoint; a spent entry holds the cleared coin. -/
structure EntrySound (e : CCoinsCacheEntry) (parent : Option Coin) : Prop where
  fresh : e.fresh = true → parent = none
  clean : e.dirty = false → parent = some e.coin
  spent : e.coin.isSpent = true → e.coin = coinEmpty

/-- The flags of every entry of a map are sound for the view under it. -/
def FlagsSound (cacheCoins : CCoinsMap) (parent : COutPoint → Option Coin) : Prop :=
  ∀ outpoint e, cacheCoins.lookup outpoint = some e → EntrySound e (parent outpoint)

/-- The virtual methods of `CCoinsView` that a `CCoinsViewCache` calls on its `base`, each with
the state of the view after it: `GetCoin(outpoint, coin)` gives `some coin` where it returns
`true`, and `BatchWrite` returns `true` where it returns. -/
class CCoinsView (σ : Type) where
  getCoin : σ → COutPoint → σ × Option Coin
  getBestBlock : σ → σ × Vector UInt8 32
  batchWrite : σ → CCoinsMap → Vector UInt8 32 → Except CoinsError σ

/-- A `CCoinsView` whose `GetCoin` answers from a map of unspent coins, `view`, that `GetCoin`
and `GetBestBlock` leave as it is, and that `BatchWrite` of a map with sound flags and a
non-null block hash overwrites with the map's coins; all as long as `Inv` holds. -/
class LawfulCoinsView (σ : Type) [CCoinsView σ] where
  view : σ → COutPoint → Option Coin
  Inv : σ → Prop
  view_unspent : ∀ {s outpoint coin}, Inv s → view s outpoint = some coin → coin.isSpent = false
  getCoin_snd : ∀ {s} outpoint, Inv s → (CCoinsView.getCoin s outpoint).2 = view s outpoint
  getCoin_inv : ∀ {s} outpoint, Inv s → Inv (CCoinsView.getCoin s outpoint).1
  view_getCoin : ∀ {s} outpoint, Inv s → view (CCoinsView.getCoin s outpoint).1 = view s
  getBestBlock_inv : ∀ {s}, Inv s → Inv (CCoinsView.getBestBlock s).1
  view_getBestBlock : ∀ {s}, Inv s → view (CCoinsView.getBestBlock s).1 = view s
  batchWrite_ok : ∀ {s} (mapCoins : CCoinsMap) (hashBlock : Vector UInt8 32), Inv s →
    FlagsSound mapCoins (view s) → uint256IsNull hashBlock = false →
    ∃ s', CCoinsView.batchWrite s mapCoins hashBlock = .ok s' ∧ Inv s' ∧
      view s' = overlay mapCoins (view s)

/-- `CCoinsViewCache`: the base view, `hashBlock`, `cacheCoins` and `cachedCoinsUsage`. -/
structure CCoinsViewCache (σ : Type) where
  base : σ
  hashBlock : Vector UInt8 32
  cacheCoins : CCoinsMap
  cachedCoinsUsage : Nat

/-! ## Algorithm -/

namespace CCoinsViewCache

variable {σ : Type} [CCoinsView σ]

/-- `CCoinsViewCache(baseIn)`: no block hash and no entries. -/
def ofBase (base : σ) : CCoinsViewCache σ := ⟨base, uint256Zero, ∅, 0⟩

/-- `FetchCoin(outpoint)`: the entry of the map, or else a copy of the base's coin, put in the
map. -/
def fetchCoin (c : CCoinsViewCache σ) (outpoint : COutPoint) :
    CCoinsViewCache σ × Option CCoinsCacheEntry :=
  match c.cacheCoins.lookup outpoint with
  | some e => (c, some e)
  | none =>
    match CCoinsView.getCoin c.base outpoint with
    | (base, none) => ({ c with base }, none)
    | (base, some tmp) =>
      -- The parent only has an empty entry for this outpoint; we can consider our version as
      -- fresh.
      let e : CCoinsCacheEntry := ⟨tmp, false, tmp.isSpent⟩
      ({ c with
          base
          cacheCoins := c.cacheCoins.insert outpoint e
          cachedCoinsUsage := c.cachedCoinsUsage + dynamicMemoryUsage tmp }, some e)

/-- `GetCoin(outpoint, coin)`: `some coin` where it returns `true`, with an unspent coin. -/
def getCoin (c : CCoinsViewCache σ) (outpoint : COutPoint) : CCoinsViewCache σ × Option Coin :=
  let r := c.fetchCoin outpoint
  (r.1, r.2.bind CCoinsCacheEntry.unspentCoin)

/-- `AddCoin(outpoint, coin, possible_overwrite)`. -/
def addCoin (c : CCoinsViewCache σ) (outpoint : COutPoint) (coin : Coin)
    (possible_overwrite : Bool) : Except CoinsError (CCoinsViewCache σ) :=
  if coin.isSpent then .error .assertFailure
  else if isUnspendable coin.out.scriptPubKey then .ok c
  else
    -- `emplace`: the entry there, or a new one with `Coin()` and no flags
    let e := (c.cacheCoins.lookup outpoint).getD ⟨coinEmpty, false, false⟩
    -- an entry that was there gives back the memory of its coin
    let cachedCoinsUsage := match c.cacheCoins.lookup outpoint with
      | some old => c.cachedCoinsUsage - dynamicMemoryUsage old.coin
      | none => c.cachedCoinsUsage
    if !possible_overwrite && !e.coin.isSpent then
      .error (.logicError "Adding new coin that replaces non-pruned entry")
    else
      let fresh := !possible_overwrite && !e.dirty
      .ok { c with
        cacheCoins := c.cacheCoins.insert outpoint ⟨coin, true, e.fresh || fresh⟩
        cachedCoinsUsage := cachedCoinsUsage + dynamicMemoryUsage coin }

/-- `SpendCoin(outpoint, moveout)`: `some` of the coin moved out where it returns `true`.  The
cleared coin of `coin.Clear()` is `coinEmpty`. -/
def spendCoin (c : CCoinsViewCache σ) (outpoint : COutPoint) : CCoinsViewCache σ × Option Coin :=
  let r := c.fetchCoin outpoint
  match r.2 with
  | none => (r.1, none)
  | some e =>
    let cachedCoinsUsage := r.1.cachedCoinsUsage - dynamicMemoryUsage e.coin
    if e.fresh then
      ({ r.1 with cacheCoins := r.1.cacheCoins.erase outpoint, cachedCoinsUsage }, some e.coin)
    else
      ({ r.1 with
          cacheCoins := r.1.cacheCoins.insert outpoint ⟨coinEmpty, true, e.fresh⟩
          cachedCoinsUsage }, some e.coin)

/-- `AccessCoin(outpoint)`. -/
def accessCoin (c : CCoinsViewCache σ) (outpoint : COutPoint) : CCoinsViewCache σ × Coin :=
  let r := c.fetchCoin outpoint
  (r.1, match r.2 with
    | some e => e.coin
    | none => coinEmpty)

/-- `HaveCoin(outpoint)`. -/
def haveCoin (c : CCoinsViewCache σ) (outpoint : COutPoint) : CCoinsViewCache σ × Bool :=
  let r := c.fetchCoin outpoint
  (r.1, match r.2 with
    | some e => !e.coin.isSpent
    | none => false)

/-- `HaveCoinInCache(outpoint)`. -/
def haveCoinInCache (c : CCoinsViewCache σ) (outpoint : COutPoint) : Bool :=
  match c.cacheCoins.lookup outpoint with
  | some e => !e.coin.isSpent
  | none => false

/-- `GetBestBlock()`: `hashBlock`, read from the base while it is null. -/
def getBestBlock (c : CCoinsViewCache σ) : CCoinsViewCache σ × Vector UInt8 32 :=
  if uint256IsNull c.hashBlock then
    let r := CCoinsView.getBestBlock c.base
    ({ c with base := r.1, hashBlock := r.2 }, r.2)
  else (c, c.hashBlock)

/-- `SetBestBlock(hashBlockIn)`. -/
def setBestBlock (c : CCoinsViewCache σ) (hashBlockIn : Vector UInt8 32) : CCoinsViewCache σ :=
  { c with hashBlock := hashBlockIn }

/-- `Uncache(hash)`: an entry with no flags is dropped. -/
def uncache (c : CCoinsViewCache σ) (hash : COutPoint) : CCoinsViewCache σ :=
  match c.cacheCoins.lookup hash with
  | some e =>
    if !e.dirty && !e.fresh then
      { c with
        cacheCoins := c.cacheCoins.erase hash
        cachedCoinsUsage := c.cachedCoinsUsage - dynamicMemoryUsage e.coin }
    else c
  | none => c

/-- `GetCacheSize()`. -/
def getCacheSize (c : CCoinsViewCache σ) : Nat := c.cacheCoins.entries.length

/-- One pass of the loop of `BatchWrite`: the child's entry `child` at `outpoint` written into
the parent's map and its memory count. -/
def batchWriteEntry (cacheCoins : CCoinsMap) (cachedCoinsUsage : Nat) (outpoint : COutPoint)
    (child : CCoinsCacheEntry) : Except CoinsError (CCoinsMap × Nat) :=
  -- Ignore non-dirty entries (optimization).
  if !child.dirty then .ok (cacheCoins, cachedCoinsUsage)
  else
    match cacheCoins.lookup outpoint with
    | none =>
      -- We can ignore it if it's both FRESH and pruned in the child
      if child.fresh && child.coin.isSpent then .ok (cacheCoins, cachedCoinsUsage)
      else
        .ok (cacheCoins.insert outpoint ⟨child.coin, true, child.fresh⟩,
          cachedCoinsUsage + dynamicMemoryUsage child.coin)
    | some us =>
      if child.fresh && !us.coin.isSpent then
        .error (.logicError
          "FRESH flag misapplied to cache entry for base transaction with spendable outputs")
      -- The grandparent does not have an entry, and the child is modified and being pruned.
      else if us.fresh && child.coin.isSpent then
        .ok (cacheCoins.erase outpoint, cachedCoinsUsage - dynamicMemoryUsage us.coin)
      -- A normal modification; the child's FRESH flag is not copied.
      else
        .ok (cacheCoins.insert outpoint ⟨child.coin, true, us.fresh⟩,
          cachedCoinsUsage - dynamicMemoryUsage us.coin + dynamicMemoryUsage child.coin)

/-- `BatchWrite(mapCoins, hashBlockIn)`, visiting the entries of `mapCoins` in the order of its
list. -/
def batchWrite (c : CCoinsViewCache σ) (mapCoins : CCoinsMap) (hashBlockIn : Vector UInt8 32) :
    Except CoinsError (CCoinsViewCache σ) := do
  let s ← mapCoins.entries.foldlM (fun s e => batchWriteEntry s.1 s.2 e.1 e.2)
    (c.cacheCoins, c.cachedCoinsUsage)
  .ok { c with cacheCoins := s.1, cachedCoinsUsage := s.2, hashBlock := hashBlockIn }

/-- `Flush()`: the map written into the base, then cleared. -/
def flush (c : CCoinsViewCache σ) : Except CoinsError (CCoinsViewCache σ) := do
  let base ← CCoinsView.batchWrite c.base c.cacheCoins c.hashBlock
  .ok { c with base, cacheCoins := ∅, cachedCoinsUsage := 0 }

end CCoinsViewCache

/-- A cache is a `CCoinsView` for the cache above it. -/
instance instCCoinsViewCache {σ : Type} [CCoinsView σ] : CCoinsView (CCoinsViewCache σ) where
  getCoin := CCoinsViewCache.getCoin
  getBestBlock := CCoinsViewCache.getBestBlock
  batchWrite := CCoinsViewCache.batchWrite

/-! ## Lemmas: entries and maps -/

theorem CCoinsCacheEntry.unspentCoin_eq_none {e : CCoinsCacheEntry} :
    e.unspentCoin = none ↔ e.coin.isSpent = true := by
  unfold CCoinsCacheEntry.unspentCoin
  cases e.coin.isSpent <;> simp

theorem CCoinsCacheEntry.unspentCoin_eq_some {e : CCoinsCacheEntry} {coin : Coin} :
    e.unspentCoin = some coin ↔ e.coin = coin ∧ e.coin.isSpent = false := by
  unfold CCoinsCacheEntry.unspentCoin
  cases e.coin.isSpent <;> simp

theorem coinEmpty_isSpent : coinEmpty.isSpent = true := rfl

theorem overlay_of_lookup_some {m : CCoinsMap} {parent : COutPoint → Option Coin} {o : COutPoint}
    {e : CCoinsCacheEntry} (h : m.lookup o = some e) : overlay m parent o = e.unspentCoin := by
  simp [overlay, h]

theorem overlay_of_lookup_none {m : CCoinsMap} {parent : COutPoint → Option Coin} {o : COutPoint}
    (h : m.lookup o = none) : overlay m parent o = parent o := by
  simp [overlay, h]

@[simp] theorem overlay_empty (parent : COutPoint → Option Coin) : overlay ∅ parent = parent := by
  funext o
  exact overlay_of_lookup_none (AList.lookup_empty o)

theorem overlay_insert (m : CCoinsMap) (parent : COutPoint → Option Coin) (o : COutPoint)
    (e : CCoinsCacheEntry) :
    overlay (m.insert o e) parent = Function.update (overlay m parent) o e.unspentCoin := by
  funext o'
  by_cases h : o' = o
  · subst h
    rw [overlay_of_lookup_some (AList.lookup_insert m), Function.update_self]
  · rw [Function.update_of_ne h, overlay, AList.lookup_insert_ne h, overlay]

theorem overlay_erase (m : CCoinsMap) (parent : COutPoint → Option Coin) (o : COutPoint) :
    overlay (m.erase o) parent = Function.update (overlay m parent) o (parent o) := by
  funext o'
  by_cases h : o' = o
  · subst h
    rw [overlay_of_lookup_none (AList.lookup_erase o' m), Function.update_self]
  · rw [Function.update_of_ne h, overlay, AList.lookup_erase_ne h, overlay]

/-- A map reports only unspent coins over a view that does. -/
theorem overlay_unspent {m : CCoinsMap} {parent : COutPoint → Option Coin}
    (hp : ∀ o coin, parent o = some coin → coin.isSpent = false) (o : COutPoint) (coin : Coin)
    (h : overlay m parent o = some coin) : coin.isSpent = false := by
  cases hl : m.lookup o with
  | none => exact hp o coin (by rwa [overlay_of_lookup_none hl] at h)
  | some e =>
    rw [overlay_of_lookup_some hl, CCoinsCacheEntry.unspentCoin_eq_some] at h
    exact h.1 ▸ h.2

theorem FlagsSound.empty (parent : COutPoint → Option Coin) : FlagsSound ∅ parent := by
  intro o e h
  rw [AList.lookup_empty] at h
  cases h

theorem FlagsSound.insert {m : CCoinsMap} {parent : COutPoint → Option Coin} {o : COutPoint}
    {e : CCoinsCacheEntry} (h : FlagsSound m parent) (he : EntrySound e (parent o)) :
    FlagsSound (m.insert o e) parent := by
  intro o' e' h'
  by_cases ho : o' = o
  · subst ho
    rw [AList.lookup_insert, Option.some.injEq] at h'
    exact h' ▸ he
  · rw [AList.lookup_insert_ne ho] at h'
    exact h o' e' h'

theorem FlagsSound.erase {m : CCoinsMap} {parent : COutPoint → Option Coin} (h : FlagsSound m parent)
    (o : COutPoint) : FlagsSound (m.erase o) parent := by
  intro o' e' h'
  by_cases ho : o' = o
  · subst ho
    rw [AList.lookup_erase] at h'
    cases h'
  · rw [AList.lookup_erase_ne ho] at h'
    exact h o' e' h'

/-- `kerase` drops the weight of the entry `dlookup` finds, the first at its key. -/
theorem sum_map_kerase {α : Type} {β : α → Type} [DecidableEq α] (f : Sigma β → Nat) {a : α}
    {b : β a} : ∀ (l : List (Sigma β)), l.dlookup a = some b →
      ((l.kerase a).map f).sum + f ⟨a, b⟩ = (l.map f).sum
  | [], h => by cases h
  | ⟨a', b'⟩ :: l, h => by
    by_cases ha : a = a'
    · subst ha
      rw [List.dlookup_cons_eq, Option.some.injEq] at h
      subst h
      rw [List.kerase_cons_eq (rfl : a = (⟨a, b'⟩ : Sigma β).1), List.map_cons, List.sum_cons,
        Nat.add_comm]
    · rw [List.dlookup_cons_ne _ _ ha] at h
      rw [List.kerase_cons_ne ha, List.map_cons, List.sum_cons, List.map_cons, List.sum_cons,
        Nat.add_assoc, sum_map_kerase f l h]

theorem usageSum_insert (m : CCoinsMap) (o : COutPoint) (e : CCoinsCacheEntry) :
    usageSum (m.insert o e) = usageSum (m.erase o) + dynamicMemoryUsage e.coin := by
  simp only [usageSum, AList.entries_insert, List.map_cons, List.sum_cons]
  exact Nat.add_comm _ _

theorem usageSum_erase_add {m : CCoinsMap} {o : COutPoint} {e : CCoinsCacheEntry}
    (h : m.lookup o = some e) : usageSum (m.erase o) + dynamicMemoryUsage e.coin = usageSum m :=
  sum_map_kerase (fun s : Σ _ : COutPoint, CCoinsCacheEntry => dynamicMemoryUsage s.2.coin)
    m.entries h

theorem usageSum_erase_of_lookup_none {m : CCoinsMap} {o : COutPoint} (h : m.lookup o = none) :
    usageSum (m.erase o) = usageSum m :=
  congrArg (fun l : List (Σ _ : COutPoint, CCoinsCacheEntry) =>
    (l.map fun s : Σ _ : COutPoint, CCoinsCacheEntry => dynamicMemoryUsage s.2.coin).sum)
    (List.kerase_of_notMem_keys (AList.lookup_eq_none.mp h))

/-- How the count moves: an erased entry gives back its coin's usage, an inserted one adds its
coin's in place of the old entry's. -/
theorem usageSum_erase_of_lookup_some {m : CCoinsMap} {o : COutPoint} {e : CCoinsCacheEntry}
    (h : m.lookup o = some e) : usageSum (m.erase o) = usageSum m - dynamicMemoryUsage e.coin := by
  have := usageSum_erase_add h
  omega

theorem usageSum_insert_of_lookup_some {m : CCoinsMap} {o : COutPoint} {old : CCoinsCacheEntry}
    (h : m.lookup o = some old) (e : CCoinsCacheEntry) :
    usageSum (m.insert o e) = usageSum m - dynamicMemoryUsage old.coin + dynamicMemoryUsage e.coin := by
  rw [usageSum_insert, usageSum_erase_of_lookup_some h]

theorem usageSum_insert_of_lookup_none {m : CCoinsMap} {o : COutPoint} (h : m.lookup o = none)
    (e : CCoinsCacheEntry) : usageSum (m.insert o e) = usageSum m + dynamicMemoryUsage e.coin := by
  rw [usageSum_insert, usageSum_erase_of_lookup_none h]

@[simp] theorem usageSum_empty : usageSum ∅ = 0 := rfl

theorem dynamicMemoryUsage_coinEmpty : dynamicMemoryUsage coinEmpty = 0 := rfl

/-- An entry without `DIRTY` reports the coin of the view under it. -/
theorem EntrySound.unspentCoin_of_clean {e : CCoinsCacheEntry} {parent : Option Coin}
    (he : EntrySound e parent) (hp : ∀ coin, parent = some coin → coin.isSpent = false)
    (hd : e.dirty = false) : e.unspentCoin = parent := by
  have hc := he.clean hd
  rw [hc, CCoinsCacheEntry.unspentCoin_eq_some]
  exact ⟨rfl, hp e.coin hc⟩

/-! ## Lemmas: one operation of a cache -/

namespace CCoinsViewCache

variable {σ : Type} [CCoinsView σ]

/-- Everything `FetchCoin` can do: find the entry, find nothing in the map nor the base, or copy
the base's coin into the map. -/
theorem fetchCoin_cases (c : CCoinsViewCache σ) (o : COutPoint) :
    (∃ e, c.cacheCoins.lookup o = some e ∧ c.fetchCoin o = (c, some e)) ∨
    (c.cacheCoins.lookup o = none ∧ (CCoinsView.getCoin c.base o).2 = none ∧
      c.fetchCoin o = (⟨(CCoinsView.getCoin c.base o).1, c.hashBlock, c.cacheCoins,
        c.cachedCoinsUsage⟩, none)) ∨
    (∃ tmp, c.cacheCoins.lookup o = none ∧ (CCoinsView.getCoin c.base o).2 = some tmp ∧
      c.fetchCoin o = (⟨(CCoinsView.getCoin c.base o).1, c.hashBlock,
        c.cacheCoins.insert o ⟨tmp, false, tmp.isSpent⟩, c.cachedCoinsUsage + dynamicMemoryUsage tmp⟩,
        some ⟨tmp, false, tmp.isSpent⟩)) := by
  unfold fetchCoin
  cases hl : c.cacheCoins.lookup o with
  | some e => exact .inl ⟨e, rfl, rfl⟩
  | none =>
    rcases hg : CCoinsView.getCoin c.base o with ⟨base, _ | tmp⟩
    · exact .inr (.inl ⟨rfl, rfl, rfl⟩)
    · exact .inr (.inr ⟨tmp, rfl, rfl, rfl⟩)

/-- After `FetchCoin` the map holds what it returned. -/
theorem fetchCoin_lookup (c : CCoinsViewCache σ) (o : COutPoint) :
    (c.fetchCoin o).1.cacheCoins.lookup o = (c.fetchCoin o).2 := by
  rcases fetchCoin_cases c o with ⟨e, hl, h⟩ | ⟨hl, -, h⟩ | ⟨tmp, -, -, h⟩ <;> rw [h]
  · exact hl
  · exact hl
  · exact AList.lookup_insert _

theorem spendCoin_of_fetchCoin_none {c : CCoinsViewCache σ} {o : COutPoint}
    (h : (c.fetchCoin o).2 = none) : c.spendCoin o = ((c.fetchCoin o).1, none) := by
  simp [CCoinsViewCache.spendCoin, h]

theorem spendCoin_of_fetchCoin_some {c : CCoinsViewCache σ} {o : COutPoint} {e : CCoinsCacheEntry}
    (h : (c.fetchCoin o).2 = some e) :
    c.spendCoin o = if e.fresh then
        ({ (c.fetchCoin o).1 with
            cacheCoins := (c.fetchCoin o).1.cacheCoins.erase o
            cachedCoinsUsage := (c.fetchCoin o).1.cachedCoinsUsage - dynamicMemoryUsage e.coin },
          some e.coin)
      else
        ({ (c.fetchCoin o).1 with
            cacheCoins := (c.fetchCoin o).1.cacheCoins.insert o ⟨coinEmpty, true, e.fresh⟩
            cachedCoinsUsage := (c.fetchCoin o).1.cachedCoinsUsage - dynamicMemoryUsage e.coin },
          some e.coin) := by
  simp [CCoinsViewCache.spendCoin, h]

omit [CCoinsView σ] in
theorem uncache_of_lookup_some {c : CCoinsViewCache σ} {o : COutPoint} {e : CCoinsCacheEntry}
    (h : c.cacheCoins.lookup o = some e) :
    c.uncache o = if !e.dirty && !e.fresh then
        { c with
          cacheCoins := c.cacheCoins.erase o
          cachedCoinsUsage := c.cachedCoinsUsage - dynamicMemoryUsage e.coin }
      else c := by
  simp [CCoinsViewCache.uncache, h]

variable [LawfulCoinsView σ]

/-- The invariant of a cache: its base keeps its own, the flags of its entries are sound for the
base, and `cachedCoinsUsage` counts the memory of the cached coins. -/
structure Inv (c : CCoinsViewCache σ) : Prop where
  base : LawfulCoinsView.Inv c.base
  flags : FlagsSound c.cacheCoins (LawfulCoinsView.view c.base)
  usage : c.cachedCoinsUsage = usageSum c.cacheCoins

/-- The coins a cache reports: its map over the coins of its base. -/
def view (c : CCoinsViewCache σ) : COutPoint → Option Coin :=
  overlay c.cacheCoins (LawfulCoinsView.view c.base)

theorem Inv.view_unspent {c : CCoinsViewCache σ} (hc : c.Inv) (o : COutPoint) (coin : Coin)
    (h : c.view o = some coin) : coin.isSpent = false :=
  overlay_unspent (fun _ _ => LawfulCoinsView.view_unspent hc.base) o coin h

/-- A base that keeps its invariant and reports the same coins can stand in for the base of a
cache: the cache keeps its invariant and reports the same. -/
theorem Inv.withBase {c : CCoinsViewCache σ} (hc : c.Inv) {base : σ} (hb : LawfulCoinsView.Inv base)
    (hv : LawfulCoinsView.view base = LawfulCoinsView.view c.base) :
    ({ c with base } : CCoinsViewCache σ).Inv ∧ ({ c with base } : CCoinsViewCache σ).view = c.view :=
  ⟨⟨hb, hv ▸ hc.flags, hc.usage⟩, by simp only [view, hv]⟩

/-- The entry at `o` in a cache with the invariant, against what the cache reports there. -/
theorem Inv.entrySound {c : CCoinsViewCache σ} (hc : c.Inv) {o : COutPoint} {e : CCoinsCacheEntry}
    (h : c.cacheCoins.lookup o = some e) :
    EntrySound e (LawfulCoinsView.view c.base o) ∧ c.view o = e.unspentCoin :=
  ⟨hc.flags o e h, overlay_of_lookup_some h⟩

/-- `FetchCoin` keeps the invariant and changes nothing the cache reports. -/
theorem Inv.fetchCoin {c : CCoinsViewCache σ} (hc : c.Inv) (o : COutPoint) :
    (c.fetchCoin o).1.Inv ∧ (c.fetchCoin o).1.view = c.view := by
  have hb := LawfulCoinsView.getCoin_inv o hc.base
  have hv := LawfulCoinsView.view_getCoin o hc.base
  rcases fetchCoin_cases c o with ⟨e, -, h⟩ | ⟨hl, -, h⟩ | ⟨tmp, hl, hg, h⟩ <;> rw [h]
  · exact ⟨hc, rfl⟩
  · exact hc.withBase hb hv
  · -- the copied coin is the base's, unspent, so the new entry reports what the base does
    have hbo : LawfulCoinsView.view c.base o = some tmp := (LawfulCoinsView.getCoin_snd o hc.base).symm.trans hg
    have hu : tmp.isSpent = false := LawfulCoinsView.view_unspent hc.base hbo
    refine ⟨⟨hb, ?_, ?_⟩, ?_⟩
    · refine FlagsSound.insert (hv ▸ hc.flags) ⟨fun hf => ?_, fun _ => hv ▸ hbo, fun hs => ?_⟩
      · simp [hu] at hf
      · simp [hu] at hs
    · rw [usageSum_insert_of_lookup_none hl, hc.usage]
    · simp only [view, hv, overlay_insert, Function.update_eq_self_iff]
      rw [overlay_of_lookup_none hl, hbo, CCoinsCacheEntry.unspentCoin_eq_some]
      exact ⟨rfl, hu⟩

/-- What `FetchCoin` returns reports what the cache does: an entry's coin, or nothing. -/
theorem Inv.view_eq_fetchCoin {c : CCoinsViewCache σ} (hc : c.Inv) (o : COutPoint) :
    c.view o = ((c.fetchCoin o).2).bind CCoinsCacheEntry.unspentCoin := by
  rcases fetchCoin_cases c o with ⟨e, hl, h⟩ | ⟨hl, hg, h⟩ | ⟨tmp, hl, hg, h⟩ <;> rw [h]
  · exact overlay_of_lookup_some hl
  · rw [view, overlay_of_lookup_none hl, ← LawfulCoinsView.getCoin_snd o hc.base, hg]
    rfl
  · have hbo : LawfulCoinsView.view c.base o = some tmp := (LawfulCoinsView.getCoin_snd o hc.base).symm.trans hg
    rw [view, overlay_of_lookup_none hl, hbo, Option.bind_some, eq_comm,
      CCoinsCacheEntry.unspentCoin_eq_some]
    exact ⟨rfl, LawfulCoinsView.view_unspent hc.base hbo⟩

/-- A spent entry that `FetchCoin` returns holds `coinEmpty`. -/
theorem Inv.fetchCoin_spent {c : CCoinsViewCache σ} (hc : c.Inv) {o : COutPoint}
    {e : CCoinsCacheEntry} (h : (c.fetchCoin o).2 = some e) (hs : e.coin.isSpent = true) :
    e.coin = coinEmpty := by
  have hl := (fetchCoin_lookup c o).trans h
  exact ((hc.fetchCoin o).1.flags o e hl).spent hs

theorem Inv.getCoin {c : CCoinsViewCache σ} (hc : c.Inv) (o : COutPoint) :
    (c.getCoin o).1.Inv ∧ (c.getCoin o).1.view = c.view ∧ (c.getCoin o).2 = c.view o :=
  ⟨(hc.fetchCoin o).1, (hc.fetchCoin o).2, (hc.view_eq_fetchCoin o).symm⟩

theorem Inv.haveCoin {c : CCoinsViewCache σ} (hc : c.Inv) (o : COutPoint) :
    (c.haveCoin o).1.Inv ∧ (c.haveCoin o).1.view = c.view ∧ (c.haveCoin o).2 = (c.view o).isSome := by
  refine ⟨(hc.fetchCoin o).1, (hc.fetchCoin o).2, ?_⟩
  rw [hc.view_eq_fetchCoin o]
  simp only [CCoinsViewCache.haveCoin]
  cases (c.fetchCoin o).2 with
  | none => rfl
  | some e =>
    simp only [Option.bind_some, CCoinsCacheEntry.unspentCoin]
    cases e.coin.isSpent <;> rfl

/-- `AccessCoin` returns the reported coin, or `coinEmpty`. -/
theorem Inv.accessCoin {c : CCoinsViewCache σ} (hc : c.Inv) (o : COutPoint) :
    (c.accessCoin o).1.Inv ∧ (c.accessCoin o).1.view = c.view ∧
      (c.accessCoin o).2 = (c.view o).getD coinEmpty := by
  refine ⟨(hc.fetchCoin o).1, (hc.fetchCoin o).2, ?_⟩
  rw [hc.view_eq_fetchCoin o]
  simp only [CCoinsViewCache.accessCoin]
  cases he : (c.fetchCoin o).2 with
  | none => rfl
  | some e =>
    cases hs : e.coin.isSpent with
    | true => simp [CCoinsCacheEntry.unspentCoin, hc.fetchCoin_spent he hs, coinEmpty_isSpent]
    | false => simp [CCoinsCacheEntry.unspentCoin, hs]

/-- `AddCoin`, where the coin is unspent and, without `possible_overwrite`, the cache reports no
coin at the outpoint, keeps the invariant and reports the coin there; an unspendable coin is
not added. -/
theorem Inv.addCoin {c : CCoinsViewCache σ} (hc : c.Inv) {o : COutPoint} {coin : Coin}
    {possible_overwrite : Bool} (hcoin : coin.isSpent = false)
    (hnew : possible_overwrite = false → c.view o = none) :
    ∃ c', c.addCoin o coin possible_overwrite = .ok c' ∧ c'.Inv ∧
      c'.view = if isUnspendable coin.out.scriptPubKey then c.view
        else Function.update c.view o (some coin) := by
  unfold CCoinsViewCache.addCoin
  rw [if_neg (by simp [hcoin])]
  cases hun : isUnspendable coin.out.scriptPubKey with
  | true => exact ⟨c, rfl, hc, rfl⟩
  | false =>
    simp only [Bool.false_eq_true, ↓reduceIte]
    -- the entry `emplace` finds: spent wherever the overwrite is not allowed
    set e := (c.cacheCoins.lookup o).getD ⟨coinEmpty, false, false⟩ with he
    have hes : possible_overwrite = false → e.coin.isSpent = true := by
      intro hpo
      cases hl : c.cacheCoins.lookup o with
      | none => simp [he, hl, coinEmpty_isSpent]
      | some e0 =>
        have := (hc.entrySound hl).2.symm.trans (hnew hpo)
        simpa [he, hl] using CCoinsCacheEntry.unspentCoin_eq_none.mp this
    -- a new `FRESH` flag: the base has no coin at `o`
    have hfresh : (e.fresh || (!possible_overwrite && !e.dirty)) = true →
        LawfulCoinsView.view c.base o = none := by
      cases hl : c.cacheCoins.lookup o with
      | none =>
        intro _
        exact (overlay_of_lookup_none hl).symm.trans
          (hnew (by cases possible_overwrite <;> simp_all))
      | some e0 =>
        have hs := hc.flags o e0 hl
        intro hf
        simp only [he, hl, Option.getD_some, Bool.or_eq_true, Bool.and_eq_true, Bool.not_eq_true'] at hf
        rcases hf with hf | ⟨hpo, hd⟩
        · exact hs.fresh hf
        · -- a clean entry is a copy of an unspent coin of the base, which `hes` rules out
          have hsp := hes hpo
          simp only [he, hl, Option.getD_some] at hsp
          have := LawfulCoinsView.view_unspent hc.base (hs.clean hd)
          rw [hsp] at this
          cases this
    rw [if_neg (by cases possible_overwrite <;> simp_all)]
    refine ⟨_, rfl, ⟨hc.base, hc.flags.insert ⟨hfresh, (fun h => by cases h), ?_⟩, ?_⟩, ?_⟩
    · intro hs
      rw [hcoin] at hs
      cases hs
    · -- the old entry's usage is given back where `emplace` found one
      cases hl : c.cacheCoins.lookup o with
      | none => rw [usageSum_insert_of_lookup_none hl, hc.usage]
      | some old => rw [usageSum_insert_of_lookup_some hl, hc.usage]
    · simp only [view, overlay_insert]
      congr 1
      simp [CCoinsCacheEntry.unspentCoin, hcoin]

/-- `SpendCoin` keeps the invariant and reports no coin at the outpoint; it moves out the
coin the cache reported there. -/
theorem Inv.spendCoin {c : CCoinsViewCache σ} (hc : c.Inv) (o : COutPoint) :
    (c.spendCoin o).1.Inv ∧ (c.spendCoin o).1.view = Function.update c.view o none ∧
      ∀ coin, c.view o = some coin → (c.spendCoin o).2 = some coin := by
  obtain ⟨hi, hv⟩ := hc.fetchCoin o
  have hview := hc.view_eq_fetchCoin o
  have hl := fetchCoin_lookup c o
  cases he : (c.fetchCoin o).2 with
  | none =>
    rw [he] at hview
    rw [spendCoin_of_fetchCoin_none he]
    refine ⟨hi, ?_, fun coin h => by rw [hview] at h; cases h⟩
    rw [hv, eq_comm, Function.update_eq_self_iff]
    exact hview.symm
  | some e =>
    rw [he] at hl hview
    rw [spendCoin_of_fetchCoin_some he]
    have hs := hi.flags o e hl
    have hret : ∀ coin, c.view o = some coin → some e.coin = some coin := fun coin h => by
      rw [hview, Option.bind_some, CCoinsCacheEntry.unspentCoin_eq_some] at h
      rw [h.1]
    cases hf : e.fresh with
    | true =>
      -- a fresh entry is erased: the base has no coin there
      rw [if_pos rfl]
      refine ⟨⟨hi.base, hi.flags.erase o, ?_⟩, ?_, hret⟩
      · rw [usageSum_erase_of_lookup_some hl, hi.usage]
      simp only [view, overlay_erase]
      rw [hs.fresh hf]
      exact congrArg (Function.update · o none) hv
    | false =>
      rw [if_neg Bool.false_ne_true]
      refine ⟨⟨hi.base, hi.flags.insert ⟨(fun h => by cases h), (fun h => by cases h),
        fun _ => rfl⟩, ?_⟩, ?_, hret⟩
      · -- the cleared coin holds no memory
        rw [usageSum_insert_of_lookup_some hl, hi.usage]
        rfl
      simp only [view, overlay_insert]
      rw [show (⟨coinEmpty, true, false⟩ : CCoinsCacheEntry).unspentCoin = none from rfl]
      exact congrArg (Function.update · o none) hv

/-- `Uncache` keeps the invariant and changes nothing the cache reports. -/
theorem Inv.uncache {c : CCoinsViewCache σ} (hc : c.Inv) (o : COutPoint) :
    (c.uncache o).Inv ∧ (c.uncache o).view = c.view := by
  cases hl : c.cacheCoins.lookup o with
  | none =>
    rw [show c.uncache o = c by simp [CCoinsViewCache.uncache, hl]]
    exact ⟨hc, rfl⟩
  | some e =>
    rw [uncache_of_lookup_some hl]
    by_cases hflags : (!e.dirty && !e.fresh) = true
    · rw [if_pos hflags]
      simp only [Bool.and_eq_true, Bool.not_eq_true'] at hflags
      -- an entry without flags is a copy of the base's coin
      have hs := hc.flags o e hl
      refine ⟨⟨hc.base, hc.flags.erase o, by rw [usageSum_erase_of_lookup_some hl, hc.usage]⟩, ?_⟩
      simp only [view, overlay_erase, Function.update_eq_self_iff]
      rw [overlay_of_lookup_some hl]
      exact (hs.unspentCoin_of_clean (fun _ => LawfulCoinsView.view_unspent hc.base) hflags.1).symm
    · rw [if_neg hflags]
      exact ⟨hc, rfl⟩

theorem Inv.setBestBlock {c : CCoinsViewCache σ} (hc : c.Inv) (h : Vector UInt8 32) :
    (c.setBestBlock h).Inv ∧ (c.setBestBlock h).view = c.view := ⟨⟨hc.base, hc.flags, hc.usage⟩, rfl⟩

theorem Inv.getBestBlock {c : CCoinsViewCache σ} (hc : c.Inv) :
    c.getBestBlock.1.Inv ∧ c.getBestBlock.1.view = c.view := by
  unfold CCoinsViewCache.getBestBlock
  cases uint256IsNull c.hashBlock with
  | false => exact ⟨hc, rfl⟩
  | true =>
    rw [if_pos rfl]
    have hv := LawfulCoinsView.view_getBestBlock hc.base
    exact ⟨⟨LawfulCoinsView.getBestBlock_inv hc.base, hv ▸ hc.flags, hc.usage⟩, by simp only [view, hv]⟩

/-- `Flush`, with a non-null block hash, empties the map and leaves the base reporting what the
cache did. -/
theorem Inv.flush {c : CCoinsViewCache σ} (hc : c.Inv) (hh : uint256IsNull c.hashBlock = false) :
    ∃ c', c.flush = .ok c' ∧ c'.Inv ∧ c'.cacheCoins = ∅ ∧
      LawfulCoinsView.view c'.base = c.view := by
  obtain ⟨base, hw, hb, hv⟩ := LawfulCoinsView.batchWrite_ok c.cacheCoins c.hashBlock hc.base hc.flags hh
  refine ⟨{ c with base, cacheCoins := ∅, cachedCoinsUsage := 0 }, ?_, ⟨hb, FlagsSound.empty _, rfl⟩,
    rfl, hv⟩
  simp [CCoinsViewCache.flush, hw]

/-- A cache with an empty map reports what its base does. -/
theorem view_of_cacheCoins_empty {c : CCoinsViewCache σ} (h : c.cacheCoins = ∅) :
    c.view = LawfulCoinsView.view c.base := by
  rw [view, h, overlay_empty]

/-! ## Lemmas: `BatchWrite` into a cache -/

omit [CCoinsView σ] [LawfulCoinsView σ] in
/-- `BatchWrite` sets the block hash it is given. -/
theorem batchWrite_hashBlock {c c' : CCoinsViewCache σ} {mapCoins : CCoinsMap}
    {hashBlockIn : Vector UInt8 32} (hw : c.batchWrite mapCoins hashBlockIn = .ok c') :
    c'.hashBlock = hashBlockIn := by
  simp only [batchWrite, Except.bind_eq_ok] at hw
  obtain ⟨s, -, h⟩ := hw
  cases h
  rfl

theorem batchWriteEntry_of_clean {m : CCoinsMap} {u : Nat} {o : COutPoint} {ce : CCoinsCacheEntry}
    (hd : ce.dirty = false) : batchWriteEntry m u o ce = .ok (m, u) := by
  rw [batchWriteEntry, hd]
  rfl

theorem batchWriteEntry_of_lookup_none {m : CCoinsMap} {u : Nat} {o : COutPoint}
    {ce : CCoinsCacheEntry} (hd : ce.dirty = true) (hl : m.lookup o = none) :
    batchWriteEntry m u o ce = if ce.fresh && ce.coin.isSpent then .ok (m, u)
      else .ok (m.insert o ⟨ce.coin, true, ce.fresh⟩, u + dynamicMemoryUsage ce.coin) := by
  rw [batchWriteEntry, hd, hl]
  rfl

theorem batchWriteEntry_of_lookup_some {m : CCoinsMap} {u : Nat} {o : COutPoint}
    {ce us : CCoinsCacheEntry} (hd : ce.dirty = true) (hl : m.lookup o = some us) :
    batchWriteEntry m u o ce = if ce.fresh && !us.coin.isSpent then
        .error (.logicError
          "FRESH flag misapplied to cache entry for base transaction with spendable outputs")
      else if us.fresh && ce.coin.isSpent then .ok (m.erase o, u - dynamicMemoryUsage us.coin)
      else
        .ok (m.insert o ⟨ce.coin, true, us.fresh⟩,
          u - dynamicMemoryUsage us.coin + dynamicMemoryUsage ce.coin) := by
  rw [batchWriteEntry, hd, hl]
  rfl

/-- One entry of a child whose flags are sound for the parent's coins is written without a
throw, keeps the parent's flags sound and its count exact, and makes the parent report the
child's coin there. -/
theorem batchWriteEntry_spec {m : CCoinsMap} {vb : COutPoint → Option Coin}
    (hvb : ∀ o coin, vb o = some coin → coin.isSpent = false) (hm : FlagsSound m vb)
    {o : COutPoint} {ce : CCoinsCacheEntry} (hce : EntrySound ce (overlay m vb o)) :
    ∃ m', batchWriteEntry m (usageSum m) o ce = .ok (m', usageSum m') ∧ FlagsSound m' vb ∧
      overlay m' vb = Function.update (overlay m vb) o ce.unspentCoin := by
  cases hd : ce.dirty with
  | false =>
    -- a clean child entry reports what the parent does
    refine ⟨m, batchWriteEntry_of_clean hd, hm, ?_⟩
    rw [eq_comm, Function.update_eq_self_iff]
    exact hce.unspentCoin_of_clean (overlay_unspent hvb o) hd
  | true =>
    cases hl : m.lookup o with
    | none =>
      rw [batchWriteEntry_of_lookup_none hd hl]
      rw [overlay_of_lookup_none hl] at hce
      by_cases hskip : (ce.fresh && ce.coin.isSpent) = true
      · rw [if_pos hskip]
        refine ⟨m, rfl, hm, ?_⟩
        rw [Bool.and_eq_true] at hskip
        rw [eq_comm, Function.update_eq_self_iff, overlay_of_lookup_none hl, hce.fresh hskip.1,
          CCoinsCacheEntry.unspentCoin_eq_none]
        exact hskip.2
      · rw [if_neg hskip]
        exact ⟨m.insert o ⟨ce.coin, true, ce.fresh⟩, by rw [usageSum_insert_of_lookup_none hl],
          hm.insert ⟨hce.fresh, (fun h => by cases h), hce.spent⟩, overlay_insert m vb o _⟩
    | some us =>
      rw [batchWriteEntry_of_lookup_some hd hl]
      rw [overlay_of_lookup_some hl] at hce
      have hus := hm o us hl
      -- the throw needs a `FRESH` child over an unspent parent coin, which soundness rules out
      have hthrow : (ce.fresh && !us.coin.isSpent) = false := by
        cases hf : ce.fresh with
        | false => rfl
        | true =>
          have := CCoinsCacheEntry.unspentCoin_eq_none.mp (hce.fresh hf)
          simp [this]
      rw [hthrow, if_neg Bool.false_ne_true]
      by_cases herase : (us.fresh && ce.coin.isSpent) = true
      · rw [if_pos herase]
        rw [Bool.and_eq_true] at herase
        refine ⟨m.erase o, by rw [usageSum_erase_of_lookup_some hl], hm.erase o, ?_⟩
        rw [overlay_erase, hus.fresh herase.1,
          (CCoinsCacheEntry.unspentCoin_eq_none.mpr herase.2 : ce.unspentCoin = none)]
      · rw [if_neg herase]
        exact ⟨m.insert o ⟨ce.coin, true, us.fresh⟩, by rw [usageSum_insert_of_lookup_some hl],
          hm.insert ⟨hus.fresh, (fun h => by cases h), hce.spent⟩, overlay_insert m vb o _⟩

/-- The loop of `BatchWrite` over entries with distinct outpoints, each sound for the parent. -/
theorem foldlM_batchWriteEntry_spec {vb : COutPoint → Option Coin}
    (hvb : ∀ o coin, vb o = some coin → coin.isSpent = false) :
    ∀ (l : List (Σ _ : COutPoint, CCoinsCacheEntry)) (m : CCoinsMap), l.NodupKeys →
      FlagsSound m vb → (∀ s ∈ l, EntrySound s.2 (overlay m vb s.1)) →
      ∃ m', l.foldlM (fun s e => batchWriteEntry s.1 s.2 e.1 e.2) (m, usageSum m) =
          .ok (m', usageSum m') ∧ FlagsSound m' vb ∧
        ∀ o, overlay m' vb o = match l.dlookup o with
          | some ce => ce.unspentCoin
          | none => overlay m vb o
  | [], m, _, hm, _ => ⟨m, rfl, hm, fun _ => rfl⟩
  | ⟨o, ce⟩ :: l, m, hnd, hm, hl => by
    rw [List.nodupKeys_cons] at hnd
    obtain ⟨m₁, h₁, hm₁, hv₁⟩ := batchWriteEntry_spec hvb hm (hl ⟨o, ce⟩ List.mem_cons_self)
    -- the other entries are at other outpoints, where the parent's coins have not changed
    have hl₁ : ∀ s ∈ l, EntrySound s.2 (overlay m₁ vb s.1) := by
      intro s hs
      have hk : s.1 ∈ l.keys := List.mem_keys_of_mem hs
      have hne : s.1 ≠ o := fun h => hnd.1 (h ▸ hk)
      rw [hv₁, Function.update_of_ne hne]
      exact hl s (List.mem_cons_of_mem _ hs)
    obtain ⟨m', h', hm', hv'⟩ := foldlM_batchWriteEntry_spec hvb l m₁ hnd.2 hm₁ hl₁
    refine ⟨m', by rw [List.foldlM_cons, h₁]; exact h', hm', fun o' => ?_⟩
    rw [hv' o', hv₁]
    by_cases ho : o' = o
    · subst ho
      rw [List.dlookup_eq_none.mpr hnd.1, Function.update_self, List.dlookup_cons_eq]
    · rw [List.dlookup_cons_ne _ _ ho, Function.update_of_ne ho]

/-- `BatchWrite` of a map whose flags are sound for what the parent reports never throws, keeps
the parent's invariant and makes it report the map laid over its own coins. -/
theorem batchWrite_spec {c : CCoinsViewCache σ} (hc : c.Inv) (mapCoins : CCoinsMap)
    (hashBlockIn : Vector UInt8 32) (hm : FlagsSound mapCoins c.view) :
    ∃ c', c.batchWrite mapCoins hashBlockIn = .ok c' ∧ c'.Inv ∧
      c'.view = overlay mapCoins c.view := by
  obtain ⟨m', hw, hm', hv⟩ := foldlM_batchWriteEntry_spec
    (fun _ _ => LawfulCoinsView.view_unspent hc.base) mapCoins.entries c.cacheCoins
    mapCoins.nodupKeys hc.flags (fun s hs => hm s.1 s.2 (AList.mem_lookup_iff.mpr hs))
  refine ⟨{ c with cacheCoins := m', cachedCoinsUsage := usageSum m', hashBlock := hashBlockIn },
    ?_, ⟨hc.base, hm', rfl⟩, ?_⟩
  · simp [batchWrite, hc.usage, hw]
  · funext o
    exact hv o

end CCoinsViewCache

/-- A cache over a lawful view is a lawful view: every stack of caches over the database is
one. -/
instance instLawfulCoinsViewCache {σ : Type} [CCoinsView σ] [LawfulCoinsView σ] :
    LawfulCoinsView (CCoinsViewCache σ) where
  view := CCoinsViewCache.view
  Inv := CCoinsViewCache.Inv
  view_unspent hc h := hc.view_unspent _ _ h
  getCoin_snd o hc := (hc.getCoin o).2.2
  getCoin_inv o hc := (hc.getCoin o).1
  view_getCoin o hc := (hc.getCoin o).2.1
  getBestBlock_inv hc := hc.getBestBlock.1
  view_getBestBlock hc := hc.getBestBlock.2
  batchWrite_ok mapCoins hashBlock hc hm _ := CCoinsViewCache.batchWrite_spec hc mapCoins hashBlock hm

end Coins

end Veles
