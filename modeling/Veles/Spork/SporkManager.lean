import Veles.Pow.Params
import Veles.Lib.LastWriter

/-!
# Sporks: `CSporkManager`

A spork message (spork.h) sets the value of one spork ID, signed by the spork key at
`nTimeSigned`.  `ProcessSpork` (spork.cpp) drops a message when the node has no tip or when
the stored message for its ID is as new or newer (`nTimeSigned >=`), checks the signature,
and then stores the message in `mapSporksActive` and in the spork database.  After a restart
`LoadSporksFromDB` reads the stored message of every named ID back.

For each ID, `mapSporksActive` is a register that keeps the newest write
(`LastWriter.run`), fed with the validly signed messages for that ID in arrival order
(`mapSporksActive_processSporks`).  It ends on a message of the greatest `nTimeSigned`,
whatever the order; two messages for one ID signed at the same second are kept in arrival
order, so two nodes agree on a spork only where its newest messages agree.

The consensus code reads the sporks through `SporkManager` (`Pow.Params`), which is the
projection `toSporkManager` of this state (`getSporkValue_toSporkManager`).
-/

namespace Veles

/-- `CSporkMessage`. -/
structure CSporkMessage where
  nSporkID : Int
  nValue : Int64
  nTimeSigned : Int64
  vchSig : List UInt8
  deriving DecidableEq, Repr

/-- The IDs `GetSporkNameByID` names, with the `*_DEFAULT` value `GetSporkValue` and
`IsSporkActive` fall back on (spork.h), in increasing order. -/
def sporkDefaults : List (Int × Int64) :=
  [(10001, 0), (10002, 0), (10004, 1000), (10007, 4070908800), (10008, 4070908800),
    (10009, 4070908800), (10011, 0), (10012, 4070908800), (10013, 4070908800),
    -- SPORK_FXTC_01_HANDBRAKE_HEIGHT and the six forces
    (94680010, 4070908800), (94680011, 1), (94680012, 1), (94680013, 1), (94680014, 1),
    (94680015, 1), (94680016, 1),
    -- SPORK_FXTC_02_*, SPORK_FXTC_03_BLOCK_REWARD_SMOOTH_HALVING_START
    (94680021, 4070908800), (94680022, 4070908800), (94680023, 4070908800),
    (94680024, 4070908800), (94680025, 4070908800), (94680031, 4070908800),
    -- SPORK_VELES_01 to SPORK_VELES_04
    (94690010, 11), (94690020, 4070908800), (94690030, 54000), (94690031, 50000),
    -- SPORK_VELES_05A_* and SPORK_VELES_05B_*: the start, then the six cost factors
    (94690032, 4070908800), (94690033, 900), (94690034, 250), (94690035, 100),
    (94690036, 50), (94690037, 125), (94690038, 150),
    (94690039, 4070908800), (94690040, 900), (94690041, 250), (94690042, 100),
    (94690043, 50), (94690044, 125), (94690045, 150),
    -- SPORK_VELES_06A_* to SPORK_VELES_06C_*: start and factor of each boost
    (94690046, 4070908800), (94690047, 100), (94690048, 4070908800), (94690049, 100),
    (94690050, 4070908800), (94690051, 100)]

/-- The IDs `LoadSporksFromDB` visits: the loop over `SPORK_START .. SPORK_VELES_END` jumps
the gaps between the three ranges and skips the IDs without a name. -/
def sporkIDs : List Int := sporkDefaults.map Prod.fst

/-- What a node keeps of the sporks: `mapSporksActive`, the spork database, and whether
`chainActive` has a tip. -/
structure SporkNode where
  mapSporksActive : Int → Option CSporkMessage
  sporkDB : Int → Option CSporkMessage
  hasTip : Bool

namespace SporkNode

/-- The test that drops a message as `seen`: the stored message for its ID is as new or
newer. -/
def seen (node : SporkNode) (spork : CSporkMessage) : Bool :=
  match node.mapSporksActive spork.nSporkID with
  | some stored => stored.nTimeSigned ≥ spork.nTimeSigned
  | none => false

/-- `mapSporks[hash] = spork; mapSporksActive[spork.nSporkID] = spork;` and
`pSporkDB->WriteSpork(spork.nSporkID, spork)`. -/
def store (node : SporkNode) (spork : CSporkMessage) : SporkNode :=
  { node with
    mapSporksActive := Function.update node.mapSporksActive spork.nSporkID (some spork)
    sporkDB := Function.update node.sporkDB spork.nSporkID (some spork) }

/-- The `SPORK` branch of `CSporkManager::ProcessSpork`, with `CheckSignature` as the oracle
`checkSignature`. -/
def processSpork (checkSignature : CSporkMessage → Bool) (node : SporkNode)
    (spork : CSporkMessage) : SporkNode :=
  if !node.hasTip then node
  else if node.seen spork then node
  else if !checkSignature spork then node
  else node.store spork

/-- One pass of the loop of `LoadSporksFromDB`: the stored message of ID `i`, if any, under
the ID the message carries. -/
def loadSpork (node : SporkNode) (i : Int) : SporkNode :=
  match node.sporkDB i with
  | none => node
  | some spork =>
    { node with mapSporksActive := Function.update node.mapSporksActive spork.nSporkID (some spork) }

/-- `CSporkManager::LoadSporksFromDB`. -/
def loadSporksFromDB (node : SporkNode) : SporkNode := sporkIDs.foldl loadSpork node

/-- A restart: a new `CSporkManager`, filled by `LoadSporksFromDB`. -/
def restart (node : SporkNode) : SporkNode :=
  loadSporksFromDB { node with mapSporksActive := fun _ => none }

/-- `CSporkManager::GetSporkValue(nSporkID)`: `-1` for an ID without a name. -/
def getSporkValue (node : SporkNode) (nSporkID : Int) : Int64 :=
  match node.mapSporksActive nSporkID with
  | some spork => spork.nValue
  | none => ((sporkDefaults.lookup nSporkID)).getD (-1)

/-- `CSporkManager::IsSporkActive(nSporkID)` at adjusted time `now`: an ID without a name is
off until 2099. -/
def isSporkActive (node : SporkNode) (nSporkID : Int) (now : Int64) : Bool :=
  let r : Int64 := match node.mapSporksActive nSporkID with
    | some spork => spork.nValue
    | none => (sporkDefaults.lookup nSporkID).getD 4070908800
  r < now

end SporkNode

/-- The ID of each spork the consensus code reads. -/
def sporkID : Spork → Int
  | .SPORK_FXTC_01_HANDBRAKE_HEIGHT => 94680010
  | .SPORK_FXTC_01_HANDBRAKE_FORCE_SHA256D => 94680011
  | .SPORK_FXTC_01_HANDBRAKE_FORCE_SCRYPT => 94680012
  | .SPORK_FXTC_01_HANDBRAKE_FORCE_NIST5 => 94680013
  | .SPORK_FXTC_01_HANDBRAKE_FORCE_LYRA2Z => 94680014
  | .SPORK_FXTC_01_HANDBRAKE_FORCE_X11 => 94680015
  | .SPORK_FXTC_01_HANDBRAKE_FORCE_X16R => 94680016
  | .SPORK_VELES_01_FXTC_CHAIN_START => 94690010
  | .SPORK_VELES_04_REWARD_UPGRADE_ALPHA_START => 94690031
  | .SPORK_VELES_05A_ADJUST_COST_FACTOR_START => 94690032
  | .SPORK_VELES_05A_ADJUST_COST_FACTOR_SHA256D => 94690033
  | .SPORK_VELES_05A_ADJUST_COST_FACTOR_SCRYPT => 94690034
  | .SPORK_VELES_05A_ADJUST_COST_FACTOR_NIST5 => 94690035
  | .SPORK_VELES_05A_ADJUST_COST_FACTOR_LYRA2Z => 94690036
  | .SPORK_VELES_05A_ADJUST_COST_FACTOR_X11 => 94690037
  | .SPORK_VELES_05A_ADJUST_COST_FACTOR_X16R => 94690038
  | .SPORK_VELES_05B_ADJUST_COST_FACTOR_START => 94690039
  | .SPORK_VELES_05B_ADJUST_COST_FACTOR_SHA256D => 94690040
  | .SPORK_VELES_05B_ADJUST_COST_FACTOR_SCRYPT => 94690041
  | .SPORK_VELES_05B_ADJUST_COST_FACTOR_NIST5 => 94690042
  | .SPORK_VELES_05B_ADJUST_COST_FACTOR_LYRA2Z => 94690043
  | .SPORK_VELES_05B_ADJUST_COST_FACTOR_X11 => 94690044
  | .SPORK_VELES_05B_ADJUST_COST_FACTOR_X16R => 94690045
  | .SPORK_VELES_06A_DYNAMIC_REWARD_BOOST1_START => 94690046
  | .SPORK_VELES_06A_DYNAMIC_REWARD_BOOST1_FACTOR => 94690047
  | .SPORK_VELES_06B_DYNAMIC_REWARD_BOOST2_START => 94690048
  | .SPORK_VELES_06B_DYNAMIC_REWARD_BOOST2_FACTOR => 94690049
  | .SPORK_VELES_06C_DYNAMIC_REWARD_BOOST3_START => 94690050
  | .SPORK_VELES_06C_DYNAMIC_REWARD_BOOST3_FACTOR => 94690051

/-- The values the consensus code reads. -/
def SporkNode.toSporkManager (node : SporkNode) : SporkManager :=
  ⟨fun s => (node.mapSporksActive (sporkID s)).map CSporkMessage.nValue⟩

/-- The order `ProcessSpork` compares messages in. -/
def timeSigned (spork : CSporkMessage) : Int := spork.nTimeSigned.toInt

namespace SporkNode

/-! ## One message -/

section Process

variable (checkSignature : CSporkMessage → Bool) (node : SporkNode) (spork : CSporkMessage)

@[simp] theorem hasTip_store : (node.store spork).hasTip = node.hasTip := rfl

@[simp] theorem hasTip_processSpork : (node.processSpork checkSignature spork).hasTip = node.hasTip := by
  unfold processSpork
  split_ifs <;> rfl

theorem mapSporksActive_store (i : Int) :
    (node.store spork).mapSporksActive i =
      if spork.nSporkID = i then some spork else node.mapSporksActive i := by
  by_cases h : spork.nSporkID = i
  · subst h
    simp [store]
  · simp [store, Function.update, Ne.symm h, h]

/-- `seen` is "not strictly newer" on the register of the message's ID. -/
theorem step_of_seen (h : node.seen spork = true) :
    LastWriter.step timeSigned false (node.mapSporksActive spork.nSporkID) spork =
      node.mapSporksActive spork.nSporkID := by
  unfold seen at h
  split at h
  · next stored hstored =>
    have hnlt : ¬ timeSigned stored < timeSigned spork := by
      simpa [timeSigned, Int64.le_iff_toInt_le] using h
    rw [hstored, LastWriter.step, if_neg (by simpa using hnlt)]
  · cases h

theorem step_of_not_seen (h : node.seen spork = false) :
    LastWriter.step timeSigned false (node.mapSporksActive spork.nSporkID) spork = some spork := by
  unfold seen at h
  split at h
  · next stored hstored =>
    have hlt : timeSigned stored < timeSigned spork := by
      simpa [timeSigned, Int64.le_iff_toInt_le] using h
    rw [hstored, LastWriter.step, if_pos (.inl hlt)]
  · next hnone => rw [hnone, LastWriter.step]

/-- For every ID, `ProcessSpork` is one write to the register of that ID, of a validly
signed message for it on a node with a tip. -/
theorem mapSporksActive_processSpork (i : Int) :
    (node.processSpork checkSignature spork).mapSporksActive i =
      if node.hasTip ∧ spork.nSporkID = i ∧ checkSignature spork then
        LastWriter.step timeSigned false (node.mapSporksActive i) spork
      else node.mapSporksActive i := by
  unfold processSpork
  by_cases hwrite : node.hasTip ∧ spork.nSporkID = i ∧ checkSignature spork
  case neg =>
    rw [if_neg hwrite]
    split_ifs with h₁ h₂ h₃ <;> try rfl
    -- a stored message changes only its own ID's entry
    rw [mapSporksActive_store, if_neg]
    simp_all
  case pos =>
    obtain ⟨htip, rfl, hsig⟩ := hwrite
    have hwrite : node.hasTip = true ∧ spork.nSporkID = spork.nSporkID ∧
        checkSignature spork = true := ⟨htip, rfl, hsig⟩
    rw [if_pos hwrite, if_neg (by simp [htip])]
    cases hseen : node.seen spork
    · rw [if_neg (by simp), if_neg (by simp [hsig]), mapSporksActive_store, if_pos rfl,
        step_of_not_seen node spork hseen]
    · rw [if_pos rfl, step_of_seen node spork hseen]

end Process

/-! ## Any run of messages -/

/-- After a run of messages, the entry of each ID is the register of that ID fed with the
validly signed messages for it, in arrival order. -/
theorem mapSporksActive_processSporks (checkSignature : CSporkMessage → Bool) (i : Int) :
    ∀ (L : List CSporkMessage) (node : SporkNode), node.hasTip = true →
      (L.foldl (processSpork checkSignature) node).mapSporksActive i =
        LastWriter.run timeSigned false (node.mapSporksActive i)
          (L.filter fun spork => spork.nSporkID = i ∧ checkSignature spork) := by
  intro L
  induction L with
  | nil => intro node _; rfl
  | cons spork L ih =>
    intro node htip
    rw [List.foldl_cons, ih _ (by rw [hasTip_processSpork]; exact htip),
      mapSporksActive_processSpork]
    by_cases hm : spork.nSporkID = i ∧ checkSignature spork = true
    · rw [if_pos ⟨htip, hm⟩, List.filter_cons_of_pos (by simpa using hm), LastWriter.run_cons]
    · rw [if_neg (fun h => hm h.2), List.filter_cons_of_neg (by simpa using hm)]

theorem getSporkValue_eq (node : SporkNode) (i : Int) :
    node.getSporkValue i =
      ((node.mapSporksActive i).map CSporkMessage.nValue).getD ((sporkDefaults.lookup i).getD (-1)) := by
  unfold getSporkValue
  cases node.mapSporksActive i <;> rfl

theorem isSporkActive_eq (node : SporkNode) (i : Int) (now : Int64) :
    node.isSporkActive i now =
      decide (((node.mapSporksActive i).map CSporkMessage.nValue).getD
        ((sporkDefaults.lookup i).getD 4070908800) < now) := by
  unfold isSporkActive
  cases node.mapSporksActive i <;> rfl

/-! ## The database and a restart -/

/-- What every run of `ProcessSpork` keeps: the database holds each message under its own
ID, and for every named ID what `mapSporksActive` holds. -/
structure Synced (node : SporkNode) : Prop where
  keyed : ∀ i spork, node.sporkDB i = some spork → spork.nSporkID = i
  named : ∀ i ∈ sporkIDs, node.sporkDB i = node.mapSporksActive i

theorem synced_store {node : SporkNode} (h : node.Synced) (spork : CSporkMessage) :
    (node.store spork).Synced where
  keyed i m hm := by
    by_cases hi : spork.nSporkID = i
    · subst hi
      simp only [store, Function.update_self, Option.some.injEq] at hm
      rw [← hm]
    · simp only [store, Function.update, Ne.symm hi, dite_false] at hm
      exact h.keyed i m hm
  named i hi := by
    by_cases hs : spork.nSporkID = i
    · subst hs
      simp [store]
    · simp [store, Function.update, Ne.symm hs, h.named i hi]

theorem synced_processSpork {node : SporkNode} (h : node.Synced)
    (checkSignature : CSporkMessage → Bool) (spork : CSporkMessage) :
    (node.processSpork checkSignature spork).Synced := by
  unfold processSpork
  split_ifs
  · exact h
  · exact h
  · exact h
  · exact synced_store h spork

@[simp] theorem sporkDB_loadSpork (node : SporkNode) (j : Int) :
    (node.loadSpork j).sporkDB = node.sporkDB := by
  unfold loadSpork
  split <;> rfl

/-- The loop of `LoadSporksFromDB` over `P`: each ID of `P` with a stored message gets it. -/
theorem mapSporksActive_loadLoop (P : List Int) : ∀ node : SporkNode,
    (∀ i spork, node.sporkDB i = some spork → spork.nSporkID = i) → ∀ i,
    (P.foldl loadSpork node).mapSporksActive i =
      if i ∈ P ∧ node.sporkDB i ≠ none then node.sporkDB i else node.mapSporksActive i := by
  induction P with
  | nil => intro node _ i; simp
  | cons j P ih =>
    intro node hkeyed i
    have hkeyed' : ∀ i spork, (node.loadSpork j).sporkDB i = some spork → spork.nSporkID = i := by
      rw [sporkDB_loadSpork]
      exact hkeyed
    rw [List.foldl_cons, ih _ hkeyed' i, sporkDB_loadSpork]
    cases hj : node.sporkDB j with
    | none =>
      have hload : node.loadSpork j = node := by simp [loadSpork, hj]
      rw [hload]
      by_cases hij : i = j
      · subst hij
        simp [hj]
      · simp [hij]
    | some spork =>
      have hid : spork.nSporkID = j := hkeyed j spork hj
      have hload : (node.loadSpork j).mapSporksActive =
          Function.update node.mapSporksActive j (some spork) := by
        simp [loadSpork, hj, hid]
      rw [hload]
      by_cases hij : i = j
      · subst hij
        simp [hj]
      · simp only [List.mem_cons, hij, false_or]
        split_ifs <;> simp [Function.update, hij]

/-- After a restart, every named ID has the message it had before. -/
theorem mapSporksActive_restart {node : SporkNode} (h : node.Synced) {i : Int} (hi : i ∈ sporkIDs) :
    node.restart.mapSporksActive i = node.mapSporksActive i := by
  unfold restart loadSporksFromDB
  rw [mapSporksActive_loadLoop sporkIDs { node with mapSporksActive := fun _ => none } h.keyed i]
  split_ifs with hdb
  · exact h.named i hi
  · have hnone : node.sporkDB i = none := by simpa [hi] using hdb
    rw [← h.named i hi, hnone]

theorem getSporkValue_restart {node : SporkNode} (h : node.Synced) {i : Int} (hi : i ∈ sporkIDs) :
    node.restart.getSporkValue i = node.getSporkValue i := by
  rw [getSporkValue_eq, getSporkValue_eq, mapSporksActive_restart h hi]

end SporkNode

/-! ## The values the consensus code reads -/

theorem sporkDefaults_lookup (s : Spork) : sporkDefaults.lookup (sporkID s) = some (sporkDefault s) := by
  cases s <;> decide

/-- `GetSporkValue` through `SporkManager` is `GetSporkValue` of the node. -/
theorem getSporkValue_toSporkManager (node : SporkNode) (s : Spork) :
    node.toSporkManager.getSporkValue s = node.getSporkValue (sporkID s) := by
  rw [SporkNode.getSporkValue_eq, sporkDefaults_lookup]
  rfl

/-! ## Two orders of delivery -/

/-- On a node with a tip, fed the same spork messages in two orders: once an ID has a stored
entry or is sent a validly signed message, its entry ends on such a message of the greatest
`nTimeSigned` (or on the one stored before), and every entry left is one; the two orders
end on the same entry when those newest messages are the same, and on the same
`GetSporkValue` and `IsSporkActive` when they have the same value. -/
theorem spork_convergence (checkSignature : CSporkMessage → Bool) (node : SporkNode)
    (htip : node.hasTip = true) {L₁ L₂ : List CSporkMessage} (hp : L₁.Perm L₂) (i : Int) :
    let S := (node.mapSporksActive i).toList ++
      L₁.filter fun spork => spork.nSporkID = i ∧ checkSignature spork
    (S ≠ [] → ∃ r, (L₁.foldl (SporkNode.processSpork checkSignature) node).mapSporksActive i =
      some r ∧ LastWriter.IsNewest timeSigned S r) ∧
    (∀ r, (L₁.foldl (SporkNode.processSpork checkSignature) node).mapSporksActive i = some r →
      LastWriter.IsNewest timeSigned S r) ∧
    ((∀ a b, LastWriter.IsNewest timeSigned S a → LastWriter.IsNewest timeSigned S b → a = b) →
      (L₁.foldl (SporkNode.processSpork checkSignature) node).mapSporksActive i =
        (L₂.foldl (SporkNode.processSpork checkSignature) node).mapSporksActive i) ∧
    ((∀ a b, LastWriter.IsNewest timeSigned S a → LastWriter.IsNewest timeSigned S b →
        a.nValue = b.nValue) →
      (L₁.foldl (SporkNode.processSpork checkSignature) node).getSporkValue i =
        (L₂.foldl (SporkNode.processSpork checkSignature) node).getSporkValue i ∧
      ∀ now, (L₁.foldl (SporkNode.processSpork checkSignature) node).isSporkActive i now =
        (L₂.foldl (SporkNode.processSpork checkSignature) node).isSporkActive i now) := by
  intro S
  have hfilter := hp.filter fun spork => decide (spork.nSporkID = i ∧ checkSignature spork)
  have h₁ := SporkNode.mapSporksActive_processSporks checkSignature i L₁ node htip
  have h₂ := SporkNode.mapSporksActive_processSporks checkSignature i L₂ node htip
  refine ⟨fun hS => h₁ ▸ LastWriter.exists_run_isNewest hS,
    fun r hr => LastWriter.isNewest_run (h₁ ▸ hr), fun hsame => ?_, fun hvalue => ?_⟩
  · have : (LastWriter.run timeSigned false _ _).map id =
        (LastWriter.run timeSigned false _ _).map id := LastWriter.map_run_perm id hfilter hsame
    simpa [h₁, h₂] using this
  · -- the entries agree on their value, so the values read agree
    have hv : (LastWriter.run timeSigned false _ _).map CSporkMessage.nValue =
        (LastWriter.run timeSigned false _ _).map CSporkMessage.nValue :=
      LastWriter.map_run_perm CSporkMessage.nValue hfilter hvalue
    rw [← h₁, ← h₂] at hv
    refine ⟨?_, fun now => ?_⟩
    · rw [SporkNode.getSporkValue_eq, SporkNode.getSporkValue_eq, hv]
    · rw [SporkNode.isSporkActive_eq, SporkNode.isSporkActive_eq, hv]

/-- Of two messages for one ID, the later one is the entry after either order. -/
theorem spork_convergence_newer_wins :
    let m₁ : CSporkMessage := ⟨94690031, 60000, 1600000000, []⟩
    let m₂ : CSporkMessage := ⟨94690031, 70000, 1600000001, []⟩
    let node : SporkNode := ⟨fun _ => none, fun _ => none, true⟩
    ([m₁, m₂].foldl (SporkNode.processSpork fun _ => true) node).mapSporksActive 94690031 =
        some m₂ ∧
      ([m₁, m₂].foldl (SporkNode.processSpork fun _ => true) node).getSporkValue 94690031 =
        ([m₂, m₁].foldl (SporkNode.processSpork fun _ => true) node).getSporkValue 94690031 := by
  intro m₁ m₂ node
  let S := (node.mapSporksActive 94690031).toList ++
    [m₁, m₂].filter fun spork => spork.nSporkID = 94690031 ∧ (fun _ => true) spork
  have hm₂ : m₂ ∈ S := List.mem_append_right _ (List.mem_filter.mpr ⟨by simp, by decide⟩)
  -- the later message is the only newest one
  have hnewest : ∀ a, LastWriter.IsNewest timeSigned S a → a = m₂ := by
    rintro a ⟨ha, hle⟩
    have ha' : a ∈ [m₁, m₂] := by
      simp only [S, node, Option.toList_none, List.nil_append] at ha
      exact List.mem_of_mem_filter ha
    rcases List.mem_pair.mp ha' with rfl | rfl
    · exact absurd (hle m₂ hm₂) (by decide)
    · rfl
  have hconv := spork_convergence (fun _ => true) node rfl (List.Perm.swap m₂ m₁ []) 94690031
  obtain ⟨r, hr, hrnew⟩ := hconv.1 (List.ne_nil_of_mem hm₂)
  refine ⟨hr.trans (congrArg some (hnewest r hrnew)), ?_⟩
  exact (hconv.2.2.2 fun a b ha hb => by rw [hnewest a ha, hnewest b hb]).1

/-- Two messages for `SPORK_VELES_04_REWARD_UPGRADE_ALPHA_START` signed in the same second:
each order keeps the message that arrives first. -/
theorem spork_same_second_diverges :
    let m₁ : CSporkMessage := ⟨94690031, 60000, 1600000000, []⟩
    let m₂ : CSporkMessage := ⟨94690031, 70000, 1600000000, []⟩
    let node : SporkNode := ⟨fun _ => none, fun _ => none, true⟩
    ([m₁, m₂].foldl (SporkNode.processSpork fun _ => true) node).getSporkValue 94690031 = 60000 ∧
    ([m₂, m₁].foldl (SporkNode.processSpork fun _ => true) node).getSporkValue 94690031 = 70000 := by
  decide

end Veles
