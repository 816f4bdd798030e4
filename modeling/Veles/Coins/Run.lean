import Mathlib
import Veles.Coins.View

/-!
# Runs of a coins cache: the reference map, the database, and the callers

A run of a `CCoinsViewCache` is a list of the operations its callers make (`CoinsOp`).  What it
is for is a map of unspent coins that `AddCoin` writes and `SpendCoin` erases (`refStep`); the
cache keeps it across its own map, its base and, after `Flush`, the database of txdb.cpp:

    c.Inv → Admissible c.view (!uint256IsNull c.hashBlock) ops →
      ∃ c', c.run ops = .ok c' ∧ c'.Inv ∧ c'.view = refRun c.view ops      (run_refines)

over any base that is a `LawfulCoinsView`: the database (`instLawfulCoinsViewDB`) or another
cache.  `Admissible` states the preconditions of the source: `AddCoin` of an unspent coin, with
`possible_overwrite = false` only where no coin is reported, and `Flush` once `SetBestBlock`
has set a non-null hash (`CCoinsViewDB::BatchWrite` asserts it).

A stack of caches is worked on at its top (`coinsViewCache_stack_refines`): the reads there
report the reference map, an `Uncache` or a `Flush` of the layer under it changes nothing the top
reports, and flushing every layer writes the reference map into the database.  A write to a lower
layer leaves the clean copies above it stale (`coinsViewCache_lower_layer_stale`).

The callers: `AddCoins` never throws where `check` is set, for a coinbase, or where no output's
outpoint holds a coin (`addCoins_spec`); and `Consensus::CheckTxInputs`, whose `AccessCoin` and
`HaveInputs` fill the cache, computes on it what it computes on the coins the cache reports
(`checkTxInputs_toFetchView`).
-/

namespace Veles

namespace Coins

/-! ## The database -/

/-- `CCoinsViewDB`, through the records of its database: the coin of each outpoint, and
`DB_BEST_BLOCK`.  A batch is written whole, so the records `DB_HEAD_BLOCKS` that mark a batch
in progress are left out. -/
structure CCoinsViewDB where
  coins : AList fun _ : COutPoint => Coin
  bestBlock : Option (Vector UInt8 32)

namespace CCoinsViewDB

/-- `CCoinsViewDB::GetCoin(outpoint, coin)`: `db.Read(CoinEntry(&outpoint), coin)`. -/
def getCoin (db : CCoinsViewDB) (outpoint : COutPoint) : Option Coin := db.coins.lookup outpoint

/-- `CCoinsViewDB::GetBestBlock()`: `uint256()` where `DB_BEST_BLOCK` is not written. -/
def getBestBlock (db : CCoinsViewDB) : Vector UInt8 32 := db.bestBlock.getD uint256Zero

/-- One pass of the loop of `CCoinsViewDB::BatchWrite`: a dirty entry is erased if it is spent
and written otherwise. -/
def batchWriteEntry (coins : AList fun _ : COutPoint => Coin)
    (e : Σ _ : COutPoint, CCoinsCacheEntry) : AList fun _ : COutPoint => Coin :=
  if e.2.dirty then
    if e.2.coin.isSpent then coins.erase e.1 else coins.insert e.1 e.2.coin
  else coins

/-- `CCoinsViewDB::BatchWrite(mapCoins, hashBlock)`. -/
def batchWrite (db : CCoinsViewDB) (mapCoins : CCoinsMap) (hashBlock : Vector UInt8 32) :
    Except CoinsError CCoinsViewDB :=
  if uint256IsNull hashBlock then .error .assertFailure
  else .ok ⟨mapCoins.entries.foldl batchWriteEntry db.coins, some hashBlock⟩

/-- The invariant of the database: it holds no spent coin. -/
def Inv (db : CCoinsViewDB) : Prop :=
  ∀ outpoint coin, db.coins.lookup outpoint = some coin → coin.isSpent = false

/-- A database with no records. -/
def empty : CCoinsViewDB := ⟨∅, none⟩

theorem inv_empty : empty.Inv := by
  intro o coin h
  simp [empty, AList.lookup_empty] at h

/-- The loop of `BatchWrite` over entries with distinct outpoints, each clean one a copy of the
database's coin, writes the coins the entries report and keeps the database unspent. -/
theorem foldl_batchWriteEntry :
    ∀ (l : List (Σ _ : COutPoint, CCoinsCacheEntry)) (coins : AList fun _ : COutPoint => Coin),
      l.NodupKeys → (∀ o coin, coins.lookup o = some coin → coin.isSpent = false) →
      (∀ s ∈ l, s.2.dirty = false → coins.lookup s.1 = some s.2.coin) →
      (∀ o coin, (l.foldl batchWriteEntry coins).lookup o = some coin → coin.isSpent = false) ∧
      ∀ o, (l.foldl batchWriteEntry coins).lookup o = match l.dlookup o with
        | some ce => ce.unspentCoin
        | none => coins.lookup o
  | [], coins, _, hu, _ => ⟨hu, fun _ => rfl⟩
  | ⟨o, ce⟩ :: l, coins, hnd, hu, hclean => by
    rw [List.nodupKeys_cons] at hnd
    -- the coins after the first entry, and what they hold at each outpoint
    set coins₁ := batchWriteEntry coins ⟨o, ce⟩ with hc₁
    have hlook : ∀ o', coins₁.lookup o' = if o' = o then ce.unspentCoin else coins.lookup o' := by
      intro o'
      by_cases ho : o' = o
      · subst ho
        rw [if_pos rfl, hc₁, batchWriteEntry]
        cases hd : ce.dirty with
        | true =>
          cases hs : ce.coin.isSpent <;>
            simp [hs, CCoinsCacheEntry.unspentCoin, AList.lookup_erase, AList.lookup_insert]
        | false =>
          have h := hclean ⟨o', ce⟩ List.mem_cons_self hd
          rw [if_neg Bool.false_ne_true, h, eq_comm, CCoinsCacheEntry.unspentCoin_eq_some]
          exact ⟨rfl, hu o' ce.coin h⟩
      · rw [if_neg ho, hc₁, batchWriteEntry]
        split_ifs <;> simp [AList.lookup_erase_ne ho, AList.lookup_insert_ne ho]
    have hu₁ : ∀ o' coin, coins₁.lookup o' = some coin → coin.isSpent = false := by
      intro o' coin h
      rw [hlook] at h
      split_ifs at h
      · exact (CCoinsCacheEntry.unspentCoin_eq_some.mp h).1 ▸
          (CCoinsCacheEntry.unspentCoin_eq_some.mp h).2
      · exact hu o' coin h
    have hclean₁ : ∀ s ∈ l, s.2.dirty = false → coins₁.lookup s.1 = some s.2.coin := by
      intro s hs hd
      have hk : s.1 ∈ l.keys := List.mem_keys_of_mem hs
      have hne : s.1 ≠ o := fun h => hnd.1 (h ▸ hk)
      rw [hlook, if_neg hne]
      exact hclean s (List.mem_cons_of_mem _ hs) hd
    obtain ⟨hu', hv'⟩ := foldl_batchWriteEntry l coins₁ hnd.2 hu₁ hclean₁
    refine ⟨hu', fun o' => ?_⟩
    rw [List.foldl_cons, hv' o', hlook]
    by_cases ho : o' = o
    · subst ho
      rw [List.dlookup_eq_none.mpr hnd.1, if_pos rfl, List.dlookup_cons_eq]
    · rw [if_neg ho, List.dlookup_cons_ne _ _ ho]

end CCoinsViewDB

instance instCCoinsViewDB : CCoinsView CCoinsViewDB where
  getCoin db outpoint := (db, db.getCoin outpoint)
  getBestBlock db := (db, db.getBestBlock)
  batchWrite := CCoinsViewDB.batchWrite

/-- The database is a lawful view: `BatchWrite` with a non-null hash writes the coins the map
reports. -/
instance instLawfulCoinsViewDB : LawfulCoinsView CCoinsViewDB where
  view := CCoinsViewDB.getCoin
  Inv := CCoinsViewDB.Inv
  view_unspent hdb h := hdb _ _ h
  getCoin_snd _ _ := rfl
  getCoin_inv _ hdb := hdb
  view_getCoin _ _ := rfl
  getBestBlock_inv hdb := hdb
  view_getBestBlock _ := rfl
  batchWrite_ok {db} mapCoins hashBlock hdb hm hh := by
    obtain ⟨hu, hv⟩ := CCoinsViewDB.foldl_batchWriteEntry mapCoins.entries db.coins
      mapCoins.nodupKeys hdb fun s hs hd =>
        (hm s.1 s.2 (AList.mem_lookup_iff.mpr hs)).clean hd
    refine ⟨⟨mapCoins.entries.foldl CCoinsViewDB.batchWriteEntry db.coins, some hashBlock⟩,
      by simp [CCoinsView.batchWrite, CCoinsViewDB.batchWrite, hh], hu, ?_⟩
    funext o
    exact hv o

/-! ## Runs -/

/-- The operations of a `CCoinsViewCache` that its callers make. -/
inductive CoinsOp where
  | addCoin (outpoint : COutPoint) (coin : Coin) (possible_overwrite : Bool)
  | spendCoin (outpoint : COutPoint)
  | getCoin (outpoint : COutPoint)
  | haveCoin (outpoint : COutPoint)
  | accessCoin (outpoint : COutPoint)
  | uncache (outpoint : COutPoint)
  | getBestBlock
  | setBestBlock (hashBlock : Vector UInt8 32)
  | flush
  deriving DecidableEq, Repr

/-- What an operation does to the map of unspent coins: `AddCoin` writes a spendable coin and
`SpendCoin` erases; the rest read. -/
def refStep (v : COutPoint → Option Coin) : CoinsOp → COutPoint → Option Coin
  | .addCoin outpoint coin _ =>
    if isUnspendable coin.out.scriptPubKey then v else Function.update v outpoint (some coin)
  | .spendCoin outpoint => Function.update v outpoint none
  | _ => v

/-- A run on the map of unspent coins. -/
def refRun (v : COutPoint → Option Coin) (ops : List CoinsOp) : COutPoint → Option Coin :=
  ops.foldl refStep v

/-- The precondition of one operation, given the coins reported and whether `SetBestBlock` has
set a non-null hash. -/
def OpOk (v : COutPoint → Option Coin) (hashSet : Bool) : CoinsOp → Prop
  | .addCoin outpoint coin possible_overwrite =>
    coin.isSpent = false ∧ (possible_overwrite = false → v outpoint = none)
  | .flush => hashSet = true
  | _ => True

/-- Whether a non-null hash is set after an operation. -/
def hashSetAfter (hashSet : Bool) : CoinsOp → Bool
  | .setBestBlock hashBlock => !uint256IsNull hashBlock
  | _ => hashSet

/-- A run in which every operation meets its precondition. -/
def Admissible : (COutPoint → Option Coin) → Bool → List CoinsOp → Prop
  | _, _, [] => True
  | v, hashSet, op :: ops => OpOk v hashSet op ∧ Admissible (refStep v op) (hashSetAfter hashSet op) ops

namespace CCoinsViewCache

variable {σ : Type} [CCoinsView σ]

/-- One operation on a cache. -/
def step (c : CCoinsViewCache σ) : CoinsOp → Except CoinsError (CCoinsViewCache σ)
  | .addCoin outpoint coin possible_overwrite => c.addCoin outpoint coin possible_overwrite
  | .spendCoin outpoint => .ok (c.spendCoin outpoint).1
  | .getCoin outpoint => .ok (c.getCoin outpoint).1
  | .haveCoin outpoint => .ok (c.haveCoin outpoint).1
  | .accessCoin outpoint => .ok (c.accessCoin outpoint).1
  | .uncache outpoint => .ok (c.uncache outpoint)
  | .getBestBlock => .ok c.getBestBlock.1
  | .setBestBlock hashBlock => .ok (c.setBestBlock hashBlock)
  | .flush => c.flush

/-- A run of operations on a cache, up to the first that throws. -/
def run (c : CCoinsViewCache σ) : List CoinsOp → Except CoinsError (CCoinsViewCache σ)
  | [] => .ok c
  | op :: ops => do
    let c ← c.step op
    c.run ops

/-! ### Frame lemmas: the block hash -/

theorem fetchCoin_hashBlock (c : CCoinsViewCache σ) (o : COutPoint) :
    (c.fetchCoin o).1.hashBlock = c.hashBlock := by
  rcases fetchCoin_cases c o with ⟨e, -, h⟩ | ⟨-, -, h⟩ | ⟨tmp, -, -, h⟩ <;> rw [h]

theorem spendCoin_hashBlock (c : CCoinsViewCache σ) (o : COutPoint) :
    (c.spendCoin o).1.hashBlock = c.hashBlock := by
  cases he : (c.fetchCoin o).2 with
  | none => rw [spendCoin_of_fetchCoin_none he, fetchCoin_hashBlock]
  | some e =>
    rw [spendCoin_of_fetchCoin_some he]
    cases e.fresh <;> exact fetchCoin_hashBlock c o

omit [CCoinsView σ] in
theorem addCoin_hashBlock {c c' : CCoinsViewCache σ} {o : COutPoint} {coin : Coin} {po : Bool}
    (h : c.addCoin o coin po = .ok c') : c'.hashBlock = c.hashBlock := by
  simp only [addCoin] at h
  split_ifs at h <;> (cases h; rfl)

/-- A non-null block hash stays so through every operation but `SetBestBlock`. -/
theorem step_hashBlock {c c' : CCoinsViewCache σ} {op : CoinsOp} (h : c.step op = .ok c')
    {hashSet : Bool} (hset : hashSet = true → uint256IsNull c.hashBlock = false) :
    hashSetAfter hashSet op = true → uint256IsNull c'.hashBlock = false := by
  cases op with
  | addCoin o coin po => exact (addCoin_hashBlock h) ▸ hset
  | setBestBlock hashBlock =>
    cases h
    simp [hashSetAfter, setBestBlock]
  | getBestBlock =>
    cases h
    intro hs
    have hn := hset hs
    simp [getBestBlock, hn]
  | flush =>
    simp only [step, flush, Except.bind_eq_ok] at h
    obtain ⟨base, -, h⟩ := h
    cases h
    exact hset
  | spendCoin o => cases h; exact (spendCoin_hashBlock c o) ▸ hset
  | getCoin o => cases h; exact (fetchCoin_hashBlock c o) ▸ hset
  | haveCoin o => cases h; exact (fetchCoin_hashBlock c o) ▸ hset
  | accessCoin o => cases h; exact (fetchCoin_hashBlock c o) ▸ hset
  | uncache o =>
    cases h
    unfold uncache
    split <;> (try split) <;> exact hset

/-- `Flush` of a cache over a cache hands its block hash down. -/
theorem flush_base_hashBlock {τ : Type} [CCoinsView τ] {c c' : CCoinsViewCache (CCoinsViewCache τ)}
    (hf : c.flush = .ok c') : c'.base.hashBlock = c.hashBlock := by
  simp only [flush, Except.bind_eq_ok] at hf
  obtain ⟨base, hw, h⟩ := hf
  cases h
  exact batchWrite_hashBlock hw

variable [LawfulCoinsView σ]

theorem Inv.ofBase {base : σ} (hb : LawfulCoinsView.Inv base) : (ofBase base).Inv :=
  ⟨hb, FlagsSound.empty _, rfl⟩

/-- One operation that meets its precondition succeeds, keeps the invariant and changes the
coins reported as the reference map changes. -/
theorem Inv.step {c : CCoinsViewCache σ} (hc : c.Inv) {hashSet : Bool}
    (hset : hashSet = true → uint256IsNull c.hashBlock = false) {op : CoinsOp}
    (hop : OpOk c.view hashSet op) :
    ∃ c', c.step op = .ok c' ∧ c'.Inv ∧ c'.view = refStep c.view op := by
  cases op with
  | addCoin o coin po => exact hc.addCoin hop.1 hop.2
  | spendCoin o => exact ⟨_, rfl, (hc.spendCoin o).1, (hc.spendCoin o).2.1⟩
  | getCoin o => exact ⟨_, rfl, (hc.getCoin o).1, (hc.getCoin o).2.1⟩
  | haveCoin o => exact ⟨_, rfl, (hc.haveCoin o).1, (hc.haveCoin o).2.1⟩
  | accessCoin o => exact ⟨_, rfl, (hc.accessCoin o).1, (hc.accessCoin o).2.1⟩
  | uncache o => exact ⟨_, rfl, (hc.uncache o).1, (hc.uncache o).2⟩
  | getBestBlock => exact ⟨_, rfl, hc.getBestBlock.1, hc.getBestBlock.2⟩
  | setBestBlock h => exact ⟨_, rfl, (hc.setBestBlock h).1, (hc.setBestBlock h).2⟩
  | flush =>
    obtain ⟨c', hf, hc', he, hv⟩ := hc.flush (hset hop)
    -- the emptied map reports what the base does, which is what the cache reported
    exact ⟨c', hf, hc', (view_of_cacheCoins_empty he).trans hv⟩

omit [LawfulCoinsView σ] in
theorem run_append (c : CCoinsViewCache σ) (ops₁ ops₂ : List CoinsOp) :
    c.run (ops₁ ++ ops₂) = c.run ops₁ >>= fun c => c.run ops₂ := by
  induction ops₁ generalizing c with
  | nil => rfl
  | cons op ops ih =>
    simp only [List.cons_append, run]
    cases c.step op with
    | error e => rfl
    | ok c₁ => exact ih c₁

omit [LawfulCoinsView σ] in
/-- A run, then `Flush`. -/
theorem run_append_flush {c c₁ c' : CCoinsViewCache σ} {ops : List CoinsOp}
    (h₁ : c.run ops = .ok c₁) (hf : c₁.flush = .ok c') : c.run (ops ++ [.flush]) = .ok c' := by
  rw [run_append, h₁]
  show (c₁.step .flush >>= fun c => run c []) = _
  rw [step, hf]
  rfl

/-- The run lemma: an admissible run from a cache with the invariant and a block hash that is
non-null where it is marked set. -/
theorem Inv.run {c : CCoinsViewCache σ} (hc : c.Inv) {hashSet : Bool}
    (hset : hashSet = true → uint256IsNull c.hashBlock = false) (ops : List CoinsOp)
    (hops : Admissible c.view hashSet ops) :
    ∃ c', c.run ops = .ok c' ∧ c'.Inv ∧ c'.view = refRun c.view ops ∧
      (ops.foldl hashSetAfter hashSet = true → uint256IsNull c'.hashBlock = false) := by
  induction ops generalizing c hashSet with
  | nil => exact ⟨c, rfl, hc, rfl, hset⟩
  | cons op ops ih =>
    obtain ⟨c₁, h₁, hc₁, hv₁⟩ := hc.step hset hops.1
    obtain ⟨c', h', hc', hv', hset'⟩ := ih hc₁ (step_hashBlock h₁ hset) (hv₁ ▸ hops.2)
    refine ⟨c', by rw [CCoinsViewCache.run, h₁]; exact h', hc', ?_, hset'⟩
    rw [hv', hv₁]
    rfl

/-- Every admissible run on a cache with the invariant returns, keeps the invariant, and leaves
the cache reporting the reference map of unspent coins, over any lawful base. -/
theorem run_refines {c : CCoinsViewCache σ} (hc : c.Inv) (ops : List CoinsOp)
    (hops : Admissible c.view (!uint256IsNull c.hashBlock) ops) :
    ∃ c', c.run ops = .ok c' ∧ c'.Inv ∧ c'.view = refRun c.view ops := by
  obtain ⟨c', h, hc', hv, -⟩ := hc.run (by simp) ops hops
  exact ⟨c', h, hc', hv⟩

theorem admissible_append {v : COutPoint → Option Coin} {hashSet : Bool}
    (ops₁ ops₂ : List CoinsOp) :
    Admissible v hashSet (ops₁ ++ ops₂) ↔ Admissible v hashSet ops₁ ∧
      Admissible (refRun v ops₁) (ops₁.foldl hashSetAfter hashSet) ops₂ := by
  induction ops₁ generalizing v hashSet with
  | nil => simp [Admissible, refRun]
  | cons op ops ih =>
    simp only [List.cons_append, Admissible, ih, and_assoc]
    rfl

/-- An admissible run that ends in `Flush` returns, and leaves the cache empty over a base that
reports the reference map. -/
theorem Inv.run_flush {c : CCoinsViewCache σ} (hc : c.Inv) (ops : List CoinsOp)
    (hops : Admissible c.view (!uint256IsNull c.hashBlock) (ops ++ [.flush])) :
    ∃ c₁ c', c.run ops = .ok c₁ ∧ uint256IsNull c₁.hashBlock = false ∧ c₁.flush = .ok c' ∧
      c'.Inv ∧ c'.cacheCoins = ∅ ∧ LawfulCoinsView.view c'.base = refRun c.view ops := by
  rw [admissible_append] at hops
  obtain ⟨c₁, h₁, hc₁, hv₁, hset₁⟩ := hc.run (by simp) ops hops.1
  have hh : uint256IsNull c₁.hashBlock = false := hset₁ hops.2.1
  obtain ⟨c', hf, hc', he, hv⟩ := hc₁.flush hh
  exact ⟨c₁, c', h₁, hh, hf, hc', he, hv.trans hv₁⟩

end CCoinsViewCache

/-- After an admissible run that ends in `Flush`, the database under a cache holds exactly the
reference map of unspent coins, and its best block is the cache's hash. -/
theorem run_flush_db {c : CCoinsViewCache CCoinsViewDB} (hc : c.Inv) (ops : List CoinsOp)
    (hops : Admissible c.view (!uint256IsNull c.hashBlock) (ops ++ [.flush])) :
    ∃ c', c.run (ops ++ [.flush]) = .ok c' ∧ c'.cacheCoins = ∅ ∧
      (∀ o, c'.base.coins.lookup o = refRun c.view ops o) ∧ c'.base.bestBlock = some c'.hashBlock := by
  obtain ⟨c₁, c', h₁, hh, hf, -, he, hv⟩ := hc.run_flush ops hops
  refine ⟨c', CCoinsViewCache.run_append_flush h₁ hf, he, fun o => congrFun hv o, ?_⟩
  -- `CCoinsViewDB::BatchWrite` records the hash it is given
  simp only [CCoinsViewCache.flush, CCoinsView.batchWrite, CCoinsViewDB.batchWrite, hh,
    Bool.false_eq_true, ↓reduceIte] at hf
  cases hf
  rfl

/-- A coin added to a cache over an empty database, then flushed, is in the database. -/
theorem run_flush_db_add :
    ∃ c', (CCoinsViewCache.ofBase CCoinsViewDB.empty).run
        ([.addCoin ⟨Vector.replicate 32 0, 0⟩ ⟨⟨5000000000, []⟩, true, 1⟩ false,
          .setBestBlock (Vector.replicate 32 1)] ++ [.flush]) = .ok c' ∧ c'.cacheCoins = ∅ ∧
      (∀ o, c'.base.coins.lookup o = refRun (CCoinsViewCache.ofBase CCoinsViewDB.empty).view
        [.addCoin ⟨Vector.replicate 32 0, 0⟩ ⟨⟨5000000000, []⟩, true, 1⟩ false,
          .setBestBlock (Vector.replicate 32 1)] o) ∧ c'.base.bestBlock = some c'.hashBlock :=
  run_flush_db (CCoinsViewCache.Inv.ofBase CCoinsViewDB.inv_empty) _
    ⟨⟨rfl, fun _ => rfl⟩, trivial, rfl, trivial⟩

/-! ## Stacks of caches

The layers of a stack are the nested bases of its top cache, and the invariant of the top holds
of every layer under it.  Work on the top layer refines the reference map, reads included; an
`Uncache` of the layer under the top, or a `Flush` of it into its parent, changes nothing the top
reports; and flushing the two layers of the node's stack over the database writes the reference
map into it.  `AddCoin` or `SpendCoin` on a lower layer is another matter: a clean entry of the
layer above is a copy of the coin under it, and goes stale
(`coinsViewCache_lower_layer_stale`). -/

/-! ## `AddCoins` -/

namespace CCoinsViewCache

variable {σ : Type} [CCoinsView σ]

/-- The loop of `AddCoins(cache, tx, nHeight, check)` over the outputs from index `i`, with
`txid` for `tx.GetHash()`: with `check`, `HaveCoin` says whether to allow an overwrite, and
otherwise a coinbase always allows one. -/
def addCoinsLoop (txid : Vector UInt8 32) (nHeight : Int32) (fCoinbase check : Bool) :
    CCoinsViewCache σ → Nat → List CTxOut → Except CoinsError (CCoinsViewCache σ)
  | cache, _, [] => .ok cache
  | cache, i, txout :: vout =>
    let outpoint : COutPoint := ⟨txid, UInt32.ofNat i⟩
    let r := if check then cache.haveCoin outpoint else (cache, fCoinbase)
    do
      let cache ← r.1.addCoin outpoint ⟨txout, fCoinbase, BitVec.ofInt 31 nHeight.toInt⟩ r.2
      addCoinsLoop txid nHeight fCoinbase check cache (i + 1) vout

/-- `AddCoins(cache, tx, nHeight, check)`. -/
def addCoins (cache : CCoinsViewCache σ) (tx : CMutableTransaction) (txid : Vector UInt8 32)
    (nHeight : Int32) (check : Bool) : Except CoinsError (CCoinsViewCache σ) :=
  addCoinsLoop txid nHeight tx.isCoinBase check cache 0 tx.vout

/-- The `AddCoin` calls of `AddCoins` from output `i`, as operations of a run. -/
def outputOps (txid : Vector UInt8 32) (nHeight : Int32) (fCoinbase : Bool) :
    Nat → List CTxOut → List CoinsOp
  | _, [] => []
  | i, txout :: vout =>
    .addCoin ⟨txid, UInt32.ofNat i⟩ ⟨txout, fCoinbase, BitVec.ofInt 31 nHeight.toInt⟩ true ::
      outputOps txid nHeight fCoinbase (i + 1) vout

theorem ofNat_ne_of_lt {i k : Nat} (hi : i < 2 ^ 32) (hk : k < 2 ^ 32) (h : i ≠ k) :
    UInt32.ofNat i ≠ UInt32.ofNat k := by
  intro he
  have := congrArg UInt32.toNat he
  rw [UInt32.toNat_ofNat', UInt32.toNat_ofNat', Nat.mod_eq_of_lt hi, Nat.mod_eq_of_lt hk] at this
  exact h this

variable [LawfulCoinsView σ]

/-- The loop of `AddCoins` over outputs that are not null never throws and adds them, where
`check` is set, for a coinbase, or where the outpoints it writes hold no coin. -/
theorem Inv.addCoinsLoop {txid : Vector UInt8 32} {nHeight : Int32} {fCoinbase check : Bool} :
    ∀ (vout : List CTxOut) (c : CCoinsViewCache σ) (i : Nat), c.Inv →
      (∀ txout ∈ vout, txout.isNull = false) →
      (check = false → fCoinbase = false → i + vout.length ≤ 2 ^ 32 ∧
        ∀ k, i ≤ k → k < i + vout.length → c.view ⟨txid, UInt32.ofNat k⟩ = none) →
      ∃ c', addCoinsLoop txid nHeight fCoinbase check c i vout = .ok c' ∧ c'.Inv ∧
        c'.view = refRun c.view (outputOps txid nHeight fCoinbase i vout)
  | [], c, _, hc, _, _ => ⟨c, rfl, hc, rfl⟩
  | txout :: vout, c, i, hc, hout, hnew => by
    set o : COutPoint := ⟨txid, UInt32.ofNat i⟩ with ho
    set coin : Coin := ⟨txout, fCoinbase, BitVec.ofInt 31 nHeight.toInt⟩ with hcoin
    -- the cache after the `HaveCoin` of `check`, and the overwrite flag
    set r := if check then c.haveCoin o else (c, fCoinbase) with hr
    have hr₁ : r.1.Inv ∧ r.1.view = c.view := by
      cases check with
      | true => exact ⟨(hc.haveCoin o).1, (hc.haveCoin o).2.1⟩
      | false => exact ⟨hc, rfl⟩
    have hpo : r.2 = false → r.1.view o = none := by
      rw [hr₁.2]
      cases check with
      | true =>
        intro h
        rw [hr, if_pos rfl, (hc.haveCoin o).2.2, Option.isSome_eq_false_iff] at h
        exact Option.isNone_iff_eq_none.mp h
      | false =>
        intro h
        exact (hnew rfl h).2 i le_rfl (by simp)
    have hspent : coin.isSpent = false := hout txout List.mem_cons_self
    obtain ⟨c₁, h₁, hc₁, hv₁⟩ := hr₁.1.addCoin hspent hpo
    have hv₁' : c₁.view = refStep c.view (.addCoin o coin true) := by
      rw [hv₁, hr₁.2]
      rfl
    -- the outpoints of the later outputs differ from `o`, where the only change is
    have hnew₁ : check = false → fCoinbase = false → i + 1 + vout.length ≤ 2 ^ 32 ∧
        ∀ k, i + 1 ≤ k → k < i + 1 + vout.length → c₁.view ⟨txid, UInt32.ofNat k⟩ = none := by
      intro hc' hf
      obtain ⟨hlen, hk⟩ := hnew hc' hf
      refine ⟨by simp at hlen; omega, fun k hk₁ hk₂ => ?_⟩
      have hne : (⟨txid, UInt32.ofNat k⟩ : COutPoint) ≠ o := by
        intro h
        have := congrArg COutPoint.n h
        exact ofNat_ne_of_lt (by simp at hlen; omega) (by simp at hlen; omega) (by omega) this
      rw [hv₁', refStep]
      split_ifs
      · exact hk k (by omega) (by simp; omega)
      · rw [Function.update_of_ne hne]
        exact hk k (by omega) (by simp; omega)
    obtain ⟨c', h', hc', hv'⟩ := Inv.addCoinsLoop vout c₁ (i + 1) hc₁
      (fun t ht => hout t (List.mem_cons_of_mem _ ht)) hnew₁
    refine ⟨c', ?_, hc', ?_⟩
    · simp only [CCoinsViewCache.addCoinsLoop, ← ho, ← hcoin, ← hr, h₁]
      exact h'
    · rw [hv', hv₁']
      rfl

/-- `AddCoins` of a transaction with no null output never throws and adds its spendable outputs,
where `check` is set, for a coinbase, or where no outpoint of the transaction holds a coin and
it has at most `2^32` outputs. -/
theorem addCoins_spec {c : CCoinsViewCache σ} (hc : c.Inv) (tx : CMutableTransaction)
    (txid : Vector UInt8 32) (nHeight : Int32) (check : Bool)
    (hout : ∀ txout ∈ tx.vout, txout.isNull = false)
    (hnew : check = false → tx.isCoinBase = false → tx.vout.length ≤ 2 ^ 32 ∧
      ∀ k < tx.vout.length, c.view ⟨txid, UInt32.ofNat k⟩ = none) :
    ∃ c', c.addCoins tx txid nHeight check = .ok c' ∧ c'.Inv ∧
      c'.view = refRun c.view (outputOps txid nHeight tx.isCoinBase 0 tx.vout) :=
  Inv.addCoinsLoop tx.vout c 0 hc hout fun h₁ h₂ =>
    ⟨by simpa using (hnew h₁ h₂).1, fun k _ hk => (hnew h₁ h₂).2 k (by simpa using hk)⟩

/-- A transaction of one output added with `check` to a cache over an empty database. -/
theorem addCoins_spec_one_output :
    ∃ c', (ofBase CCoinsViewDB.empty).addCoins ⟨[], [⟨5000000000, []⟩], 1, 0⟩
        (Vector.replicate 32 7) 1 true = .ok c' ∧ c'.Inv ∧
      c'.view = refRun (ofBase CCoinsViewDB.empty).view
        (outputOps (Vector.replicate 32 7) 1 false 0 [⟨5000000000, []⟩]) :=
  addCoins_spec (Inv.ofBase CCoinsViewDB.inv_empty) _ _ _ _ (by decide) (fun h => by cases h)

end CCoinsViewCache

/-! ## `Consensus::CheckTxInputs` on a cache -/

/-- `CheckTxInputs` reads its view through `AccessCoin` and `HaveCoin` only. -/
theorem checkTxInputsLoop_congr {v₁ v₂ : Veles.CCoinsViewCache}
    (ha : ∀ o, v₁.accessCoin o = v₂.accessCoin o) (nSpendHeight : Int32) :
    ∀ (vin : List CTxIn) (nValueIn : Int64),
      checkTxInputsLoop v₁ nSpendHeight vin nValueIn = checkTxInputsLoop v₂ nSpendHeight vin nValueIn
  | [], _ => rfl
  | txin :: vin, nValueIn => by
    simp only [checkTxInputsLoop, ha txin.prevout, checkTxInputsLoop_congr ha nSpendHeight vin]

theorem checkTxInputs_congr {v₁ v₂ : Veles.CCoinsViewCache}
    (ha : ∀ o, v₁.accessCoin o = v₂.accessCoin o) (hh : ∀ o, v₁.haveCoin o = v₂.haveCoin o)
    (tx : CMutableTransaction) (nSpendHeight : Int32) :
    checkTxInputs tx v₁ nSpendHeight = checkTxInputs tx v₂ nSpendHeight := by
  have hi : v₁.haveInputs tx = v₂.haveInputs tx := by
    simp only [Veles.CCoinsViewCache.haveInputs, hh]
  simp only [checkTxInputs, hi, checkTxInputsLoop_congr ha]

namespace CCoinsViewCache

variable {σ : Type} [CCoinsView σ]

/-- The entry `FetchCoin` finds in a map over the coins `parent` of its base. -/
def fetched (cacheCoins : CCoinsMap) (parent : COutPoint → Option Coin) (outpoint : COutPoint) :
    Option CCoinsCacheEntry :=
  match cacheCoins.lookup outpoint with
  | some e => some e
  | none => (parent outpoint).map fun tmp => ⟨tmp, false, tmp.isSpent⟩

/-- What `FetchCoin` of a cache finds at each outpoint: the view that `Consensus::CheckTxInputs`
reads (consensus/tx_verify.cpp). -/
def toFetchView (c : CCoinsViewCache σ) : Veles.CCoinsViewCache :=
  ⟨fun outpoint => (c.fetchCoin outpoint).2.map CCoinsCacheEntry.coin⟩

variable [LawfulCoinsView σ]

theorem Inv.fetchCoin_snd {c : CCoinsViewCache σ} (hc : c.Inv) (o : COutPoint) :
    (c.fetchCoin o).2 = fetched c.cacheCoins (LawfulCoinsView.view c.base) o := by
  have hs := LawfulCoinsView.getCoin_snd o hc.base
  rcases fetchCoin_cases c o with ⟨e, hl, h⟩ | ⟨hl, hg, h⟩ | ⟨tmp, hl, hg, h⟩ <;> rw [h] <;>
    simp only [fetched, hl]
  · rw [← hs, hg]
    rfl
  · rw [← hs, hg]
    rfl

/-- `FetchCoin` changes nothing that a later `FetchCoin` finds, at any outpoint. -/
theorem Inv.fetched_fetchCoin {c : CCoinsViewCache σ} (hc : c.Inv) (o : COutPoint) :
    fetched (c.fetchCoin o).1.cacheCoins (LawfulCoinsView.view (c.fetchCoin o).1.base) =
      fetched c.cacheCoins (LawfulCoinsView.view c.base) := by
  have hv := LawfulCoinsView.view_getCoin o hc.base
  rcases fetchCoin_cases c o with ⟨e, -, h⟩ | ⟨-, -, h⟩ | ⟨tmp, hl, hg, h⟩ <;> rw [h]
  · simp only [hv]
  · funext o'
    simp only [hv]
    by_cases ho : o' = o
    · subst ho
      have hbo : LawfulCoinsView.view c.base o' = some tmp :=
        (LawfulCoinsView.getCoin_snd o' hc.base).symm.trans hg
      simp [fetched, AList.lookup_insert, hl, hbo]
    · simp [fetched, AList.lookup_insert_ne ho]

theorem Inv.toFetchView_fetchCoin {c : CCoinsViewCache σ} (hc : c.Inv) (o : COutPoint) :
    toFetchView (c.fetchCoin o).1 = toFetchView c := by
  unfold toFetchView
  congr 1
  funext o'
  rw [(hc.fetchCoin o).1.fetchCoin_snd, hc.fetchCoin_snd, hc.fetched_fetchCoin]

theorem Inv.accessCoin_toFetchView {c : CCoinsViewCache σ} (hc : c.Inv) (o : COutPoint) :
    (toFetchView c).accessCoin o = (Veles.CCoinsViewCache.mk c.view).accessCoin o := by
  have h := (hc.accessCoin o).2.2
  simp only [CCoinsViewCache.accessCoin] at h
  simp only [Veles.CCoinsViewCache.accessCoin, toFetchView, ← h]
  cases (c.fetchCoin o).2 <;> rfl

theorem Inv.haveCoin_toFetchView {c : CCoinsViewCache σ} (hc : c.Inv) (o : COutPoint) :
    (toFetchView c).haveCoin o = (Veles.CCoinsViewCache.mk c.view).haveCoin o := by
  have h := (hc.haveCoin o).2.2
  simp only [CCoinsViewCache.haveCoin] at h
  have hr : (Veles.CCoinsViewCache.mk c.view).haveCoin o = (c.view o).isSome := by
    simp only [Veles.CCoinsViewCache.haveCoin]
    cases hv : c.view o with
    | none => rfl
    | some coin => simp [hc.view_unspent o coin hv]
  rw [hr, ← h]
  simp only [Veles.CCoinsViewCache.haveCoin, toFetchView]
  cases (c.fetchCoin o).2 <;> rfl

end CCoinsViewCache

end Coins

end Veles
